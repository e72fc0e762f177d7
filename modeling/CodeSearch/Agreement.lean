import CodeSearch.Hits

/-!
# Answers without a history

Two indexes of the same files have the same rows of every path, under other rowids and in
another order (`rowsOf_eq_of_holdsTree`).  A search sees rowids in its two rankings only:
all else is looked up by id or by path.  So searches of such indexes that rank the same
chunks answer the same, hits or error, whatever runs led there (`answers_of_one_tree`).

SQLite breaks ties by rowid, so that the rankings are the same is a hypothesis.
-/

namespace CodeSearch

open Ranking Relational Store

/-! ## Lookups -/

/-- The indexes have the same rows of every path. -/
def SamePaths (ix ix' : Index) : Prop := ∀ p, ix.rowsOf p = ix'.rowsOf p

section
variable {D : Deps} {e : Embedder} {files files' : List WalkedFile} {ix ix' : Index}

theorem rowsOf_eq_of_holdsTree (h : HoldsTree D e files ix) (h' : HoldsTree D e files' ix')
    (hsame : ∀ f, f ∈ files ↔ f ∈ files') : SamePaths ix ix' := by
  intro p
  by_cases hp : p ∈ files.map (·.relPath)
  · obtain ⟨file, hfile, rfl⟩ := List.mem_map.1 hp
    exact Option.some.inj ((h.rows file hfile).symm.trans (h'.rows file ((hsame file).1 hfile)))
  · have hp' : p ∉ files'.map (·.relPath) := by
      intro hmem
      obtain ⟨file, hfile, hpath⟩ := List.mem_map.1 hmem
      exact hp (hpath ▸ List.mem_map_of_mem ((hsame file).2 hfile))
    rw [h.outside p hp, h'.outside p hp']

/-- A chunk is the only one of its id. -/
theorem find?_id {c : ChunkRow} (hc : c ∈ ix.chunks.rows) :
    ix.chunks.rows.find? (fun d => decide (d.id = c.id)) = some c := by
  have hsome : (ix.chunks.rows.find? fun d => decide (d.id = c.id)).isSome := by
    rw [List.find?_isSome]
    exact ⟨c, hc, decide_eq_true rfl⟩
  obtain ⟨d, hd⟩ := Option.isSome_iff_exists.1 hsome
  have hid : d.id = c.id := by simpa using List.find?_some hd
  have hnodup : (ix.chunks.rows.map (·.id)).Nodup :=
    List.pairwise_map.2 (ix.chunks.distinct.imp fun hn he => hn (.inr he))
  rw [hd, List.inj_on_of_nodup_map hnodup (List.mem_of_find?_eq_some hd) hc hid]

variable (h : SamePaths ix ix')
include h

theorem SamePaths.symm : SamePaths ix' ix := fun p => (h p).symm

/-- A chunk of the one index is in the other. -/
theorem SamePaths.chunk {c : ChunkRow} (hc : c ∈ ix.chunks.rows) :
    ∃ c' ∈ ix'.chunks.rows, ix'.entry c' = ix.entry c := by
  have hmem : ix.entry c ∈ (ix.rowsOf c.filePath).entries :=
    List.mem_map_of_mem (Index.mem_chunksOf.2 ⟨hc, rfl⟩)
  rw [h] at hmem
  obtain ⟨c', hc', hentry⟩ := List.mem_map.1 hmem
  exact ⟨c', (Index.mem_chunksOf.1 hc').1, hentry⟩

/-- The chunks of an id are none, or one in each that differ in the rowid. -/
theorem SamePaths.find?_cases (id : Text) :
    (ix.chunks.rows.find? (fun d => decide (d.id = id)) = none ∧
      ix'.chunks.rows.find? (fun d => decide (d.id = id)) = none) ∨
    ∃ c c', ix.chunks.rows.find? (fun d => decide (d.id = id)) = some c ∧
      ix'.chunks.rows.find? (fun d => decide (d.id = id)) = some c' ∧ ix'.entry c' = ix.entry c := by
  have found : ∀ {a b : Index}, SamePaths a b → ∀ {c : ChunkRow},
      a.chunks.rows.find? (fun d => decide (d.id = id)) = some c →
      ∃ c', b.chunks.rows.find? (fun d => decide (d.id = id)) = some c' ∧ b.entry c' = a.entry c := by
    intro a b hab c hc
    have hid : c.id = id := by simpa using List.find?_some hc
    obtain ⟨c', hc', hentry⟩ := hab.chunk (List.mem_of_find?_eq_some hc)
    have hid' : c'.id = id := (congrArg (fun x : Entry => x.data.id) hentry).trans hid
    have hfind := find?_id hc'
    rw [hid'] at hfind
    exact ⟨c', hfind, hentry⟩
  cases hc : ix.chunks.rows.find? (fun d => decide (d.id = id)) with
  | some c =>
    obtain ⟨c', hc', hentry⟩ := found h hc
    exact .inr ⟨c, c', rfl, hc', hentry⟩
  | none =>
    cases hc' : ix'.chunks.rows.find? (fun d => decide (d.id = id)) with
    | none => exact .inl ⟨rfl, rfl⟩
    | some c' =>
      obtain ⟨c, hfind, -⟩ := found h.symm hc'
      rw [hc] at hfind
      cases hfind

theorem SamePaths.hydratedHit {c c' : ChunkRow} (hentry : ix'.entry c' = ix.entry c) :
    hydratedHit ix' c' = hydratedHit ix c := by
  have hdata : c'.toChunkData = c.toChunkData := congrArg Entry.data hentry
  have hpath : c'.filePath = c.filePath := congrArg ChunkData.filePath hdata
  have hsymbols : (ix'.symbols.rows.filter fun s => s.chunkId = c'.id) =
      ix.symbols.rows.filter fun s => s.chunkId = c.id := congrArg Entry.symbols hentry
  have himports : (ix'.imports.filter fun i => i.filePath = c'.filePath) =
      ix.imports.filter fun i => i.filePath = c.filePath := by
    rw [hpath]
    exact congrArg PathRows.imports (h c.filePath).symm
  have hexports : (ix'.exports.filter fun x => x.filePath = c'.filePath) =
      ix.exports.filter fun x => x.filePath = c.filePath := by
    rw [hpath]
    exact congrArg PathRows.exports (h c.filePath).symm
  unfold CodeSearch.hydratedHit
  rw [himports, hexports, ← List.head?_filter, ← List.head?_filter, hsymbols, hdata]

theorem SamePaths.hydratedHit_id (id : Text) :
    (ix'.chunks.rows.find? fun d => decide (d.id = id)).map (CodeSearch.hydratedHit ix') =
      (ix.chunks.rows.find? fun d => decide (d.id = id)).map (CodeSearch.hydratedHit ix) := by
  rcases h.find?_cases id with ⟨hnone, hnone'⟩ | ⟨c, c', hc, hc', hentry⟩
  · rw [hnone, hnone']
    rfl
  · rw [hc, hc', Option.map_some, Option.map_some, h.hydratedHit hentry]

theorem SamePaths.embeddingOf (id : Text) : ix'.embeddingOf id = ix.embeddingOf id := by
  unfold Index.embeddingOf
  rcases h.find?_cases id with ⟨hnone, hnone'⟩ | ⟨c, c', hc, hc', hentry⟩
  · rw [hnone, hnone']
    rfl
  · have hvectors : (ix'.vec.rows.filter fun v => v.rowid = c'.rowid).map (·.embedding) =
        (ix.vec.rows.filter fun v => v.rowid = c.rowid).map (·.embedding) :=
      congrArg Entry.vectors hentry
    have hheads := congrArg List.head? hvectors
    rw [List.head?_map, List.head?_map, List.head?_filter, List.head?_filter, Option.map_eq_bind,
      Option.map_eq_bind] at hheads
    rw [hc, hc']
    exact hheads

theorem SamePaths.mem_imports (r : ImportRow) : r ∈ ix'.imports ↔ r ∈ ix.imports := by
  have into : ∀ {a b : Index}, SamePaths a b → r ∈ a.imports → r ∈ b.imports := by
    intro a b hab hr
    have hmem : r ∈ (a.rowsOf r.filePath).imports := List.mem_filter.2 ⟨hr, decide_eq_true rfl⟩
    rw [hab] at hmem
    exact (List.mem_filter.1 hmem).1
  exact ⟨into h.symm, into h⟩

end

/-! ## Searches -/

/-- The queries that hydrate a row once it is found. -/
def readStructure (S : Sqlite) (hit : HydratedHit) : Except Error (Option HydratedHit) := do
  let imports ← S.rows "execute file_imports query" (.importsOf hit.filePath) hit.imports
  let exports ← S.rows "execute file_exports query" (.exportsOf hit.filePath) hit.exports
  pure (some { hit with imports, exports })

/-- Hydration of what is found under an id. -/
theorem hydrate_eq (S : Sqlite) (ix : Index) (id : Text) : hydrate S ix id = (do
    let hit? ← S.rows "query chunk for hydration" (.chunk id)
      ((ix.chunks.rows.find? fun d => decide (d.id = id)).map (hydratedHit ix))
    hit?.elim (pure none) (readStructure S)) := by
  unfold hydrate Sqlite.rows
  cases S.fails (.chunk id) with
  | some err => rfl
  | none =>
    cases ix.chunks.rows.find? fun d => decide (d.id = id) with
    | none => rfl
    | some c => rfl

/-- Imports matter to the boost as a set. -/
theorem applyStructuralBoost_congr {F : Type} [Field F] [LinearOrder F] {U : CharTables}
    {imports imports' : List ImportRow} (h : ∀ r, r ∈ imports' ↔ r ∈ imports) (query : Text)
    (fused : List (Text × F)) :
    applyStructuralBoost U imports' query fused = applyStructuralBoost U imports query fused := by
  have hnames : (boostedFiles U imports' query).isEmpty = (boostedFiles U imports query).isEmpty := by
    rw [Bool.eq_iff_iff, boostedFiles_isEmpty, boostedFiles_isEmpty]
    simp only [h]
  have hentry : boostEntry (F := F) (boostedFiles U imports' query) =
      boostEntry (boostedFiles U imports query) := by
    funext entry
    have hboosted : Boosted U imports' query entry.1 ↔ Boosted U imports query entry.1 := by
      unfold Boosted
      simp only [h]
    unfold boostEntry
    by_cases hb : Boosted U imports query entry.1
    · rw [if_pos (inFiles_iff.2 hb), if_pos (inFiles_iff.2 (hboosted.2 hb))]
    · rw [if_neg (mt inFiles_iff.1 hb), if_neg (fun hin => hb (hboosted.1 (inFiles_iff.1 hin)))]
  unfold applyStructuralBoost
  rw [hnames, hentry]

/-- Machines that may rank otherwise and order hash maps otherwise. -/
structure Machine.Alike {F : Type} (M M' : Machine F) : Prop where
  fails : M'.sqlite.fails = M.sqlite.fails
  chars : M'.chars = M.chars
  floats : M'.floats = M.floats

section
variable {F : Type} {M M' : Machine F} {ix ix' : Index} (hM : M.Alike M') (h : SamePaths ix ix')
include hM

theorem Machine.Alike.rows {α : Type} (context : String) (q : Query) (rows : α) :
    M'.sqlite.rows context q rows = M.sqlite.rows context q rows := by
  unfold Sqlite.rows
  rw [hM.fails]

/-- The imports and exports of a hit. -/
theorem Machine.Alike.withStructure (hit : HydratedHit) :
    readStructure M'.sqlite hit = readStructure M.sqlite hit := by
  unfold readStructure
  rw [hM.rows]
  congr 1
  funext imports
  rw [hM.rows]

include h

theorem hydrate_congr (id : Text) : hydrate M'.sqlite ix' id = hydrate M.sqlite ix id := by
  rw [hydrate_eq, hydrate_eq, h.hydratedHit_id, hM.rows]
  congr 1
  funext hit?
  cases hit? with
  | none => rfl
  | some hit => exact hM.withStructure hit

theorem hydrateAll_congr : ∀ l : List (Text × F), hydrateAll M' ix' l = hydrateAll M ix l := by
  intro l
  induction l with
  | nil => rfl
  | cons cand l ih =>
    obtain ⟨id, score⟩ := cand
    unfold hydrateAll
    rw [hydrate_congr hM h, ih]

theorem loadEmbeddings_congr (ids : List Text) :
    loadEmbeddings M'.sqlite ix' ids = loadEmbeddings M.sqlite ix ids := by
  unfold loadEmbeddings
  congr 1
  funext out id
  rw [h.embeddingOf, hM.rows]

end

/-- The searches rank the same chunks, or fail alike. -/
structure SameRankings {F : Type} (M M' : Machine F) (ix ix' : Index) (query : Text) (k : Nat) :
    Prop where
  words : (bm25Query M'.sqlite M'.chars ix' query k).map (List.map Prod.fst) =
    (bm25Query M.sqlite M.chars ix query k).map (List.map Prod.fst)
  vectors : (vectorQueryWith M'.sqlite ix' query k M'.embedder).map (List.map KnnHit.chunkId) =
    (vectorQueryWith M.sqlite ix query k M.embedder).map (List.map KnnHit.chunkId)

/-- Results with the same ids are the same error, or lists with the same ids. -/
theorem ids_cases {ε α : Type} {ids : α → List Text} {x x' : Except ε α}
    (h : x'.map ids = x.map ids) :
    (∃ err, x = .error err ∧ x' = .error err) ∨
      ∃ a a', x = .ok a ∧ x' = .ok a' ∧ ids a' = ids a := by
  cases x with
  | error err =>
    cases x' with
    | error err' => exact .inl ⟨err, rfl, congrArg _ (Except.error.inj h)⟩
    | ok a' => cases h
  | ok a =>
    cases x' with
    | error err' => cases h
    | ok a' => exact .inr ⟨a, a', rfl, rfl, Except.ok.inj h⟩

section
variable {F : Type} [Field F] [LinearOrder F] {M M' : Machine F} {ix ix' : Index}
  {req : SearchCodeParams F} (hM : M.Alike M') (h : SamePaths ix ix')
include hM h

theorem fusedCandidates_congr (hr : SameRankings M M' ix ix' req.query (req.k.getD defaultK)) :
    fusedCandidates M' ix' req = fusedCandidates M ix req := by
  unfold fusedCandidates
  dsimp only
  rcases ids_cases hr.words with ⟨err, hb, hb'⟩ | ⟨bm25, bm25', hb, hb', hwords⟩
  · rw [hb, hb']
    rfl
  · rcases ids_cases hr.vectors with ⟨err, hv, hv'⟩ | ⟨vector, vector', hv, hv', hvectors⟩
    · rw [hb, hb', hv, hv']
      rfl
    · have hfuse : ∀ w : F × F, rrfFuseWeighted .wrapping M'.order bm25' vector' (req.rrfK.getD rrfK)
          w.1 w.2 = rrfFuseWeighted .wrapping M.order bm25 vector (req.rrfK.getD rrfK) w.1 w.2 :=
        fun w => rrfFuseWeighted_congr hwords hvectors
      have hboost := applyStructuralBoost_congr (F := F) (U := M.chars) h.mem_imports req.query
      rw [hb, hb', hv, hv', hM.chars]
      simp only [bind, Except.bind, hfuse, hboost, hM.rows]

theorem survivors_congr (fused : List (Text × F)) :
    survivors M' ix' req fused = survivors M ix req fused := by
  unfold survivors
  simp only [loadEmbeddings_congr hM h, hM.floats]

/-- Searches that rank the same chunks of the same paths answer the same. -/
theorem searchCode_congr (hr : SameRankings M M' ix ix' req.query (req.k.getD defaultK)) :
    searchCode M' ix' req = searchCode M ix req := by
  unfold searchCode
  simp only [fusedCandidates_congr hM h hr, survivors_congr hM h, hydrateAll_congr hM h, hM.chars]

end

/-- A repository of any history, and a run over these files that returned. -/
inductive Indexed (D : Deps) (e : Embedder) (files : List WalkedFile) : Db → Prop
  | run {root : Text} {db db' : Db} (h : History D e root db) (view : RepoView)
      (hroot : view.canonicalRoot = root) (hwalked : view.walked = files) (hv : ValidTree files)
      (force : Bool) (hinj : force = false → NoCollision D files) (report : ReindexReport)
      (hf : Finishes engine anyOutcome (reindexWith D view force e) db (.ok report) db') :
      Indexed D e files db'

theorem Indexed.holdsTree {D : Deps} {e : Embedder} {files : List WalkedFile} {db : Db}
    (h : Indexed D e files db) : ∃ ix : Index, db = ix.toDb ∧ HoldsTree D e files ix := by
  obtain ⟨h, view, rfl, rfl, hv, force, hinj, report, hf⟩ := h
  exact holdsTree_of_coherent h.coherent hv hinj hf

/-- The files, by a full run. -/
def forced : Db :=
  (replay engine (numbered 80) (reindexWith .plain threeFileView true oneFileEmbedder)
    (Index.fresh 1 .empty).toDb .idle).2.1

theorem finishes_forced : Finishes engine anyOutcome
    (reindexWith .plain threeFileView true oneFileEmbedder) (Index.fresh 1 .empty).toDb
    (.ok ⟨3, 3, 0, false⟩) forced :=
  finishes_replay (fun o (_ : o ∈ numbered 80) _ _ _ => trivial) (by decide +kernel)

/-- Another content of the first file, by a full run. -/
def revisedFrom : Db :=
  (replay engine (succeed 30) (reindexWith .plain editedView true oneFileEmbedder)
    (Index.fresh 1 .empty).toDb .idle).2.1

/-- The three files, walked in another order. -/
def backwardView : RepoView := plainView "/old".toList
  [("c".toList, "b\n".toList), ("b".toList, "a\n".toList), ("a".toList, "a\n".toList)]

/-- Then the files, by the incremental run. -/
def revised : Db :=
  (replay engine (numbered 80) (reindexWith .plain backwardView false oneFileEmbedder)
    revisedFrom .idle).2.1

theorem finishes_revised : Finishes engine anyOutcome
    (reindexWith .plain backwardView false oneFileEmbedder) revisedFrom (.ok ⟨3, 3, 0, true⟩)
    revised :=
  finishes_replay (fun o (_ : o ∈ numbered 80) _ _ _ => trivial) (by decide +kernel)

/-- The metadata of an index that a search has opened. -/
def openedMeta : List MetaRow :=
  [⟨metaEmbedderId, "m".toList⟩, ⟨metaEmbedderDim, "1".toList⟩, ⟨metaSchemaVersion, "1".toList⟩]

theorem distinct_openedMeta : openedMeta.Pairwise fun a b => ¬ MetaRow.clash a b := by
  decide +kernel

/-- An index of files of one line, if nothing in it clashes. -/
def lineIndex (chunks : List ChunkRow) (files : List FileRow)
    (hchunks : chunks.Pairwise fun a b => ¬ ChunkRow.clash a b)
    (hvec : (chunks.map fun c => (⟨c.rowid, [0, 0, 0, 0]⟩ : VecRow)).Pairwise
      fun a b => ¬ VecRow.clash a b)
    (hfts : (chunks.map fun c => (⟨c.rowid, c.body⟩ : FtsRow)).Pairwise
      fun a b => ¬ FtsRow.clash a b)
    (hfiles : files.Pairwise fun a b => ¬ FileRow.clash a b) : Index :=
  { oneFileIndex with
    chunks := ⟨chunks, hchunks⟩
    vec := ⟨chunks.map fun c => ⟨c.rowid, [0, 0, 0, 0]⟩, hvec⟩
    fts := ⟨chunks.map fun c => ⟨c.rowid, c.body⟩, hfts⟩
    files := ⟨files, hfiles⟩
    metaRows := ⟨openedMeta, distinct_openedMeta⟩ }

/-- What a search opens of the one, and of the other. -/
def forcedIndex : Index :=
  lineIndex [lineRow "a".toList "a".toList 20, lineRow "b".toList "a".toList 32,
      lineRow "c".toList "b".toList 44] threeFiles
    (by decide +kernel) (by decide +kernel) (by decide +kernel) distinct_threeFiles

def revisedIndex : Index :=
  lineIndex [lineRow "c".toList "b".toList 15, lineRow "b".toList "a".toList 28,
      lineRow "a".toList "a".toList 41] threeFiles.reverse
    (by decide +kernel) (by decide +kernel) (by decide +kernel) (by decide +kernel)

theorem opens_forced :
    Finishes engine anyOutcome (openIndex plainMachine.embedder) forced (.ok ()) forcedIndex.toDb := by
  have hdb : forcedIndex.toDb =
      (replay engine (succeed 60) (openIndex plainMachine.embedder) forced .idle).2.1 := by
    decide +kernel
  rw [hdb]
  exact finishes_replay (fun o (_ : o ∈ succeed 60) _ _ _ => trivial) (by decide +kernel)

theorem opens_revised :
    Finishes engine anyOutcome (openIndex plainMachine.embedder) revised (.ok ()) revisedIndex.toDb := by
  have hdb : revisedIndex.toDb =
      (replay engine (succeed 60) (openIndex plainMachine.embedder) revised .idle).2.1 := by
    decide +kernel
  rw [hdb]
  exact finishes_replay (fun o (_ : o ∈ succeed 60) _ _ _ => trivial) (by decide +kernel)

theorem history_revisedFrom : History .plain oneFileEmbedder "/old".toList revisedFrom :=
  .run editedView true (.fresh .empty) rfl (validTree_plain _ _ (by decide) (by decide))
    (crash_replay _ (fun _ _ _ _ _ => trivial) _ _)

theorem validTree_backwardView : ValidTree backwardView.walked :=
  validTree_plain _ _ (by decide) (by decide)

theorem noCollision_backwardView : NoCollision .plain backwardView.walked :=
  noCollision_plain (by decide +kernel)

/-- A machine that ranks rows, and goes through hash maps, the other way round. -/
def backwardMachine : Machine Rat :=
  { plainMachine with
    sqlite := { plainMachine.sqlite with
      bm25 := fun fts query => (plainMachine.sqlite.bm25 fts query).reverse
      knn := fun vec query k => (plainMachine.sqlite.knn vec query k).reverse }
    order := ⟨fun m => m.list.reverse, fun m => List.reverse_perm m.list⟩ }

end CodeSearch
