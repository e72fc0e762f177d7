import CodeSearch.Hits
import CodeSearch.Lib.Reads

/-!
# A search while the index changes

A search reads the index query by query and in no transaction: whatever connections run
beside it, they may commit between any two of its queries.  `searchReads` is the search
with each query an ask of its own; on an index that stays it is `searchCode`
(`atOnce_searchReads`).

Whatever states it sees, its hits have the shape of an answer, and each is a chunk that one
of these states holds, with the imports and the exports that two others have for its file
(`seen_searchReads`).  If connections index a repository meanwhile, then each part of a hit
is of a version of its file that one of them walked (`search_under_writes`).
-/

namespace CodeSearch

open Greedy Ranking Relational Store Reads

/-! ## The queries -/

/-- What a query sees: the committed tables, and how SQLite ranks them and which queries fail. -/
structure Sight where
  index : Index
  sqlite : Sqlite

abbrev Searching (α : Type) := Reads Sight Error α

def ask {α : Type} (f : Sqlite → Index → Except Error α) : Searching α :=
  query fun s => f s.sqlite s.index

def importsOf (ix : Index) (path : Text) : List ImportDto :=
  (ix.imports.filter fun i => i.filePath = path).map fun i => ⟨i.source, i.kind, i.line⟩

def exportsOf (ix : Index) (path : Text) : List ExportDto :=
  (ix.exports.filter fun x => x.filePath = path).map fun x => ⟨x.detail, x.line⟩

def hydrateReads (id : Text) : Searching (Option HydratedHit) := do
  match ← ask fun S ix => S.rows "query chunk for hydration" (.chunk id)
      ((ix.chunks.rows.find? fun c => c.id = id).map (hydratedHit ix)) with
  | none => pure none
  | some hit =>
    let imports ← ask fun S ix => S.rows "execute file_imports query" (.importsOf hit.filePath)
      (importsOf ix hit.filePath)
    let exports ← ask fun S ix => S.rows "execute file_exports query" (.exportsOf hit.filePath)
      (exportsOf ix hit.filePath)
    pure (some { hit with imports, exports })

def loadEmbeddingsReads (ids : List Text) : Searching (Entries Text (List UInt32)) :=
  ids.foldlM (fun out id => do
    match ← ask fun S ix => S.rows "read chunk embedding" (.embedding id) (ix.embeddingOf id) with
    | some bytes => pure (out.alter id fun _ => leBytesToF32 bytes)
    | none => pure out) .empty

section
variable {F : Type}

def hydrateAllReads : List (Text × F) → Searching (List (HydratedHit × F))
  | [] => pure []
  | (id, score) :: rest => do
    match ← hydrateReads id with
    | some hit =>
      let hits ← hydrateAllReads rest
      pure ((hit, score) :: hits)
    | none => hydrateAllReads rest

variable [Field F] [LinearOrder F] (M : Machine F) (req : SearchCodeParams F)

def fusedReads : Searching (List (Text × F)) := do
  let k := req.k.getD defaultK
  let weights := resolveWeights M.chars req.bm25Weight req.vectorWeight (req.adaptive.getD false) req.query
  let bm25 ← ask fun S ix => bm25Query S M.chars ix req.query k
  let vector ← ask fun S ix => vectorQueryWith S ix req.query k M.embedder
  let fused := rrfFuseWeighted .wrapping M.order bm25 vector (req.rrfK.getD rrfK) weights.1 weights.2
  if req.boostImports.getD false then
    if (codeTokens M.chars req.query).isEmpty || fused.isEmpty then pure fused
    else
      ask fun S ix => S.rows "execute file_imports scan" .importSources
        (applyStructuralBoost M.chars ix.imports req.query fused)
  else pure fused

def survivorsReads (fused : List (Text × F)) : Searching (List (Text × F)) := do
  let fused := dedupOverlapping fused
  if req.diversify.getD false then
    let embeddings ← loadEmbeddingsReads (fused.map Prod.fst)
    pure (mmrRerank M.floats fused embeddings mmrLambda)
  else pure fused

/-- The search, one query after the other. -/
def searchReads : Searching (List (SearchHit F)) := do
  let fused ← fusedReads M req
  let kept ← survivorsReads M req fused
  let hydrated ← hydrateAllReads (kept.take (req.k.getD defaultK))
  pure ((dedupContent M.chars hydrated).map fun hit => .fromHydrated hit.1 hit.2)

end

/-! ## On an index that stays -/

section
variable {S : Sqlite} {ix : Index}

theorem atOnce_ask {α : Type} (f : Sqlite → Index → Except Error α) :
    atOnce ⟨ix, S⟩ (ask f) = f S ix := atOnce_query _ _

theorem rows_map {α β : Type} (context : String) (q : Query) (rows : α) (f : α → β) :
    S.rows context q (f rows) = (S.rows context q rows).map f := by
  unfold Sqlite.rows
  cases S.fails q <;> rfl

theorem atOnce_hydrateReads (id : Text) : atOnce ⟨ix, S⟩ (hydrateReads id) = hydrate S ix id := by
  unfold hydrateReads hydrate
  rw [atOnce_bind, atOnce_ask, rows_map]
  cases S.rows "query chunk for hydration" (.chunk id) (ix.chunks.rows.find? fun c => c.id = id) with
  | error e => rfl
  | ok row =>
    cases row with
    | none => rfl
    | some c =>
      show atOnce ⟨ix, S⟩ (ask (fun S ix => S.rows "execute file_imports query"
        (.importsOf c.filePath) (importsOf ix c.filePath)) >>= _) = _
      rw [atOnce_bind, atOnce_ask]
      refine congrArg (S.rows _ _ _ >>= ·) (funext fun imports => ?_)
      rw [atOnce_bind, atOnce_ask]
      rfl

theorem atOnce_loadEmbeddingsReads (ids : List Text) :
    atOnce ⟨ix, S⟩ (loadEmbeddingsReads ids) = loadEmbeddings S ix ids := by
  unfold loadEmbeddingsReads loadEmbeddings
  rw [atOnce_foldlM]
  congr 1
  funext out id
  rw [atOnce_bind, atOnce_ask]
  refine congrArg (S.rows _ _ _ >>= ·) (funext fun row => ?_)
  cases row <;> rfl

variable {F : Type} {M : Machine F}

theorem atOnce_hydrateAllReads (l : List (Text × F)) :
    atOnce ⟨ix, M.sqlite⟩ (hydrateAllReads l) = hydrateAll M ix l := by
  induction l with
  | nil => rfl
  | cons cand l ih =>
    unfold hydrateAllReads hydrateAll
    rw [atOnce_bind, atOnce_hydrateReads]
    refine congrArg (hydrate M.sqlite ix cand.1 >>= ·) (funext fun r => ?_)
    cases r with
    | none => exact ih
    | some hit =>
      show atOnce _ (hydrateAllReads l >>= _) = _
      rw [atOnce_bind, ih]
      rfl

variable [Field F] [LinearOrder F] {req : SearchCodeParams F}

theorem atOnce_fusedReads :
    atOnce ⟨ix, M.sqlite⟩ (fusedReads M req) = fusedCandidates M ix req := by
  unfold fusedReads fusedCandidates
  dsimp only
  rw [atOnce_bind, atOnce_ask]
  refine congrArg (bm25Query _ _ _ _ _ >>= ·) (funext fun bm25 => ?_)
  rw [atOnce_bind, atOnce_ask]
  refine congrArg (vectorQueryWith _ _ _ _ _ >>= ·) (funext fun vector => ?_)
  split
  · split
    · rfl
    · exact atOnce_ask _
  · rfl

theorem atOnce_survivorsReads (fused : List (Text × F)) :
    atOnce ⟨ix, M.sqlite⟩ (survivorsReads M req fused) = survivors M ix req fused := by
  unfold survivorsReads survivors
  dsimp only
  split
  · rw [atOnce_bind, atOnce_loadEmbeddingsReads]
    rfl
  · rfl

/-- On an index that stays as it is the queries see what `searchCode` does. -/
theorem atOnce_searchReads :
    atOnce ⟨ix, M.sqlite⟩ (searchReads M req) = searchCode M ix req := by
  unfold searchReads searchCode
  rw [atOnce_bind, atOnce_fusedReads]
  refine congrArg (fusedCandidates M ix req >>= ·) (funext fun fused => ?_)
  rw [atOnce_bind, atOnce_survivorsReads]
  refine congrArg (survivors M ix req fused >>= ·) (funext fun kept => ?_)
  rw [atOnce_bind, atOnce_hydrateAllReads]
  rfl

end

/-! ## What a search sees -/

/-- The ids name ranges of one file that share more than half of the shorter one. -/
def OverlappingIds (a b : Text) : Prop :=
  ∃ path v w, (v.1 ≤ v.2 ∧ v.2 < 2 ^ 32) ∧ (w.1 ≤ w.2 ∧ w.2 < 2 ^ 32) ∧
    a = chunkId path v.1 v.2 ∧ b = chunkId path w.1 w.2 ∧ ShareMoreThanHalf v w

theorem OverlappingIds.symm {a b : Text} (h : OverlappingIds a b) : OverlappingIds b a := by
  obtain ⟨path, v, w, hv, hw, ha, hb, hshare⟩ := h
  exact ⟨path, w, v, hw, hv, hb, ha, hshare.symm⟩

theorem OverlappingIds.overlapsKept {a b : Text} (h : OverlappingIds a b) : overlapsKept a b = true := by
  obtain ⟨path, v, w, hv, hw, rfl, rfl, hshare⟩ := h
  unfold CodeSearch.overlapsKept
  rw [parseChunkId_chunkId path (by omega) (by omega), parseChunkId_chunkId path (by omega) (by omega)]
  show (decide (path = path) && decide (_ < _)) = true
  rw [decide_eq_true rfl, Bool.true_and, decide_eq_true_iff]
  exact (limit_lt_overlapFraction hv.1 hw.1).2 hshare

/-- The hit has its chunk of one index, and its imports and exports of two others. -/
def Pieced (I : Index → Prop) (hit : HydratedHit) : Prop :=
  ∃ ix ix₁ ix₂, (I ix ∧ I ix₁ ∧ I ix₂) ∧ ∃ c ∈ ix.chunks.rows,
    hit = { hydratedHit ix c with
      imports := importsOf ix₁ c.filePath, exports := exportsOf ix₂ c.filePath }

section
variable {I : Index → Prop}

theorem gives_ask {α : Type} {f : Sqlite → Index → Except Error α} {P : α → Prop}
    (h : ∀ S ix a, I ix → f S ix = .ok a → P a) : Gives (fun s : Sight => I s.index) P (ask f) :=
  gives_query fun s a hs ha => h s.sqlite s.index a hs ha

theorem gives_hydrateReads (id : Text) : Gives (fun s : Sight => I s.index)
    (fun r => ∀ hit ∈ r, hit.chunkId = id ∧ Pieced I hit) (hydrateReads id) := by
  refine gives_bind (P := fun r => ∀ hit ∈ r, ∃ ix, I ix ∧ ∃ c ∈ ix.chunks.rows,
    c.id = id ∧ hit = hydratedHit ix c) (gives_ask ?_) fun row hrow => ?_
  · intro S ix row hix h hit hhit
    obtain ⟨-, rfl⟩ := rows_eq_ok.1 h
    obtain ⟨c, hc, rfl⟩ := Option.map_eq_some_iff.1 hhit
    have hid := of_decide_eq_true (List.find?_some (p := fun c : ChunkRow => decide (c.id = id)) hc)
    exact ⟨ix, hix, c, List.mem_of_find?_eq_some hc, hid, rfl⟩
  · cases row with
    | none => exact gives_pure fun hit hhit => by cases hhit
    | some hit =>
      obtain ⟨ix, hix, c, hc, hid, rfl⟩ := hrow hit rfl
      refine gives_bind (P := fun imports => ∃ ix, I ix ∧ imports = importsOf ix c.filePath)
        (gives_ask fun S ix₁ imports hix₁ h => ⟨ix₁, hix₁, (rows_eq_ok.1 h).2.symm⟩) fun imports h₁ => ?_
      refine gives_bind (P := fun exports => ∃ ix, I ix ∧ exports = exportsOf ix c.filePath)
        (gives_ask fun S ix₂ exports hix₂ h => ⟨ix₂, hix₂, (rows_eq_ok.1 h).2.symm⟩) fun exports h₂ => ?_
      obtain ⟨ix₁, hix₁, rfl⟩ := h₁
      obtain ⟨ix₂, hix₂, rfl⟩ := h₂
      refine gives_pure fun hit hhit => ?_
      cases hhit
      exact ⟨hid, ix, ix₁, ix₂, ⟨hix, hix₁, hix₂⟩, c, hc, rfl⟩

variable {F : Type}

/-- The hydrated hits are those of some candidates, in their order. -/
theorem gives_hydrateAllReads (l : List (Text × F)) : Gives (fun s : Sight => I s.index)
    (fun hits => (hits.map fun hit => (hit.1.chunkId, hit.2)).Sublist l ∧
      ∀ hit ∈ hits, Pieced I hit.1) (hydrateAllReads l) := by
  induction l with
  | nil => exact gives_pure ⟨List.Sublist.refl _, fun hit hhit => by cases hhit⟩
  | cons cand l ih =>
    refine gives_bind (gives_hydrateReads cand.1) fun r hr => ?_
    cases r with
    | none => exact gives_mono ih fun hits h => ⟨h.1.cons _, h.2⟩
    | some hit =>
      obtain ⟨hid, hpieced⟩ := hr hit rfl
      refine gives_bind ih fun hits h => gives_pure ⟨?_, ?_⟩
      · rw [List.map_cons, hid]
        exact h.1.cons_cons _
      · intro entry hentry
        rcases List.mem_cons.1 hentry with rfl | hentry
        · exact hpieced
        · exact h.2 entry hentry

/-- No two survivors are ranges of one file that overlap. -/
theorem apart_survivors {fused kept : List (Text × F)} (h : kept.Perm (dedupOverlapping fused)) :
    kept.Pairwise fun a b => ¬ OverlappingIds a.1 b.1 := by
  refine (h.pairwise_iff fun hab hba => hab hba.symm).2 ?_
  refine (keepFirst_pairwise (fun entry kept : Text × F => overlapsKept entry.1 kept.1) fused).imp ?_
  intro a b hno hover
  rw [hover.symm.overlapsKept] at hno
  cases hno

/-- The row of a hydrated hit is located. -/
theorem Pieced.located (hI : ∀ ix, I ix → ix.toDb.Located) {hit : HydratedHit} (h : Pieced I hit) :
    hit.chunkId = chunkId hit.filePath hit.startLine hit.endLine ∧
      hit.startLine ≤ hit.endLine ∧ hit.endLine < 2 ^ 32 := by
  obtain ⟨ix, ix₁, ix₂, ⟨hix, -, -⟩, c, hc, rfl⟩ := h
  have hloc := hI ix hix c hc
  exact ⟨hloc.id, hloc.le, hloc.fits⟩

/-- The hits of a search that sees indexes with `I`. -/
structure SeenAnswer (U : CharTables) (I : Index → Prop) (k : Nat) (hits : List (SearchHit F)) :
    Prop where
  length_le : hits.length ≤ k
  pieced : ∀ hit ∈ hits, ∃ entry : HydratedHit × F, hit = toHit entry ∧ Pieced I entry.1
  distinct : (hits.map fun hit => (hit.file, hit.startLine, hit.endLine)).Nodup
  apart : hits.Pairwise fun a b =>
    a.file = b.file → ¬ ShareMoreThanHalf (a.startLine, a.endLine) (b.startLine, b.endLine)
  different : hits.Pairwise fun a b => ¬ NearlySame (a.fingerprint U) (b.fingerprint U)

/-- What stage B and the truncation make of the survivors. -/
theorem seenAnswer_of_survivors (hI : ∀ ix, I ix → ix.toDb.Located) (U : CharTables) {k : Nat}
    {kept : List (Text × F)} (hnodup : (kept.map Prod.fst).Nodup)
    (hapart : kept.Pairwise fun a b => ¬ OverlappingIds a.1 b.1) {hydrated : List (HydratedHit × F)}
    (hsub : (hydrated.map fun hit => (hit.1.chunkId, hit.2)).Sublist (kept.take k))
    (hpieced : ∀ hit ∈ hydrated, Pieced I hit.1) :
    SeenAnswer U I k ((keepFirst (sameContent U) hydrated).map toHit) := by
  have hkeep := keepFirst_sublist (sameContent U) hydrated
  have hid : ∀ entry ∈ hydrated, (toHit entry).id = entry.1.chunkId := fun entry hentry =>
    ((hpieced entry hentry).located hI).1.symm
  constructor
  · have hlen := hsub.length_le
    rw [List.length_map, List.length_take] at hlen
    have hle := hkeep.length_le
    rw [List.length_map]
    omega
  · intro hit hhit
    obtain ⟨entry, hentry, rfl⟩ := List.mem_map.1 hhit
    exact ⟨entry, rfl, hpieced entry (hkeep.subset hentry)⟩
  · refine nodup_places ?_
    rw [List.map_map]
    refine (hkeep.map _).nodup ?_
    have hids : hydrated.map (SearchHit.id ∘ toHit) =
        (hydrated.map fun hit => (hit.1.chunkId, hit.2)).map Prod.fst := by
      rw [List.map_map]
      exact List.map_congr_left hid
    rw [hids]
    exact (hsub.map Prod.fst).nodup (((List.take_sublist k kept).map Prod.fst).nodup hnodup)
  · have hpairs : (hydrated.map fun hit => (hit.1.chunkId, hit.2)).Pairwise
        fun a b => ¬ OverlappingIds a.1 b.1 :=
      (hapart.sublist (List.take_sublist k kept)).sublist hsub
    rw [List.pairwise_map] at hpairs ⊢
    refine (hpairs.sublist hkeep).imp_of_mem fun {a b} ha hb hno hfile hshare => hno ?_
    obtain ⟨hida, hlea, hlta⟩ := (hpieced a (hkeep.subset ha)).located hI
    obtain ⟨hidb, hleb, hltb⟩ := (hpieced b (hkeep.subset hb)).located hI
    change a.1.filePath = b.1.filePath at hfile
    rw [hfile] at hida
    exact ⟨b.1.filePath, _, _, ⟨hlea, hlta⟩, ⟨hleb, hltb⟩, hida, hidb, hshare⟩
  · exact different_toHit hydrated

variable [Field F] [LinearOrder F] {M : Machine F} {req : SearchCodeParams F}

theorem nodup_applyStructuralBoost {U : CharTables} {imports : List ImportRow} {query : Text}
    {fused : List (Text × F)} (h : (fused.map Prod.fst).Nodup) :
    ((applyStructuralBoost U imports query fused).map Prod.fst).Nodup :=
  ids_applyStructuralBoost.nodup_iff.2 h

/-- The fused list: each id once, by score. -/
theorem gives_fusedReads : Gives (fun s : Sight => I s.index)
    (fun fused => (fused.map Prod.fst).Nodup ∧ fused.Pairwise fun a b => b.2 ≤ a.2)
    (fusedReads M req) := by
  refine gives_bind (gives_trivial _) fun bm25 _ => gives_bind (gives_trivial _) fun vector _ => ?_
  dsimp only
  have hsorted : ∀ w : F × F, (rrfFuseWeighted .wrapping M.order bm25 vector (req.rrfK.getD rrfK)
      w.1 w.2).Pairwise fun a b => b.2 ≤ a.2 := fun w =>
    ranked_rrfFuseWeighted.imp fun {a b} hr => hr.elim le_of_lt fun hr => hr.1.ge
  split
  · split
    · exact gives_pure ⟨nodup_rrfFuseWeighted, hsorted _⟩
    · refine gives_ask fun S ix boosted _ h => ?_
      obtain ⟨-, rfl⟩ := rows_eq_ok.1 h
      exact ⟨nodup_applyStructuralBoost nodup_rrfFuseWeighted, sorted_applyStructuralBoost (hsorted _)⟩
  · exact gives_pure ⟨nodup_rrfFuseWeighted, hsorted _⟩

/-- The survivors: the candidates that no higher one overlaps, in some order. -/
theorem gives_survivorsReads (fused : List (Text × F)) : Gives (fun s : Sight => I s.index)
    (fun kept => kept.Perm (dedupOverlapping fused) ∧
      (req.diversify.getD false = false → kept = dedupOverlapping fused))
    (survivorsReads M req fused) := by
  unfold survivorsReads
  dsimp only
  split
  · next hdiv =>
    refine gives_bind (gives_trivial _) fun embeddings _ => gives_pure ⟨mmrRerank_perm _ _ _ _, ?_⟩
    intro hno
    rw [hdiv] at hno
    cases hno
  · exact gives_pure ⟨.refl _, fun _ => rfl⟩

/-- Whatever states the search sees: its hits, which are by score unless it diversifies. -/
theorem gives_searchReads (hI : ∀ ix, I ix → ix.toDb.Located) : Gives (fun s : Sight => I s.index)
    (fun hits => SeenAnswer M.chars I (req.k.getD defaultK) hits ∧
      (req.diversify.getD false = false → hits.Pairwise fun a b => b.score ≤ a.score))
    (searchReads M req) := by
  refine gives_bind gives_fusedReads fun fused hfused => ?_
  refine gives_bind (gives_survivorsReads fused) fun kept hkept => ?_
  refine gives_bind (gives_hydrateAllReads _) fun hydrated hhydrated => gives_pure ?_
  rw [dedupContent_eq]
  have hsub := keepFirst_sublist (fun entry kept : Text × F => overlapsKept entry.1 kept.1) fused
  have hnodup : (kept.map Prod.fst).Nodup :=
    (hkept.1.map Prod.fst).nodup_iff.2 ((hsub.map Prod.fst).nodup hfused.1)
  refine ⟨seenAnswer_of_survivors hI M.chars hnodup (apart_survivors hkept.1) hhydrated.1 hhydrated.2,
    fun hdiv => ?_⟩
  have hsorted : kept.Pairwise fun a b => b.2 ≤ a.2 := by
    rw [hkept.2 hdiv]
    exact hfused.2.sublist hsub
  have hscores := (hsorted.sublist (List.take_sublist (req.k.getD defaultK) kept)).sublist hhydrated.1
  rw [List.pairwise_map] at hscores ⊢
  exact hscores.sublist (keepFirst_sublist _ hydrated)

end

/-! ## Beside connections that index -/

/-- The operation reads files that were walked. -/
def IndexOp.Walks (walked : WalkedFile → Prop) : IndexOp → Prop
  | .reindex view _ => ∀ f ∈ view.walked, walked f
  | .reprocessFile file _ => walked file
  | .removeFile _ => True

section
variable {D : Deps} {e : Embedder} {walked : WalkedFile → Prop} {ix : Index}

theorem keeps_walked {allow : Req Stmt → Outcome RowId SqlError → Db → Txn Db → Prop} (root : Text)
    {op : IndexOp} (hop : op.Walks walked) :
    Keeps engine allow (IsCoherent D e walked (repoIdFor D root)) (op.prog D e root) := by
  cases op with
  | reindex view force =>
    exact keeps_bind (keeps_reindexWith { view with canonicalRoot := root } force hop)
      fun _ => keeps_pure _
  | reprocessFile file mtime => exact keeps_bind (keeps_reprocessFileWith hop _) fun _ => keeps_pure _
  | removeFile rel => exact keeps_removeFile rel

/-- Every chunk of a coherent index is of a version of its file. -/
theorem Coherent.version {repoId : Text} (h : Coherent D e walked repoId ix) (p : Text) :
    ix.rowsOf p = .empty ∨
      ∃ file, walked file ∧ file.relPath = p ∧ fileRows D e file = some (ix.rowsOf file.relPath) := by
  by_cases hlisted : ∃ r ∈ ix.files.rows, r.path = p
  · obtain ⟨r, hr, rfl⟩ := hlisted
    obtain ⟨file, hwalked, hstands, hrows⟩ := h.listed r hr
    rw [← hstands.path] at hrows
    exact .inr ⟨file, hwalked, hstands.path, hrows⟩
  · push Not at hlisted
    exact .inl (h.unlisted p hlisted)

theorem Coherent.chunkVersion {repoId : Text} (h : Coherent D e walked repoId ix) {c : ChunkRow}
    (hc : c ∈ ix.chunks.rows) : ∃ file, walked file ∧ file.relPath = c.filePath ∧ ∃ specs,
      chunkFile D file.content file.language = some specs ∧ ∃ spec ∈ specs,
        ix.entry c = specEntry D e file.relPath spec := by
  rcases h.version c.filePath with hempty | ⟨file, hwalked, hpath, hrows⟩
  · have hnil : ix.chunksOf c.filePath = [] :=
      List.map_eq_nil_iff.1 (congrArg PathRows.entries hempty)
    have hcp : c ∈ ix.chunksOf c.filePath := Index.mem_chunksOf.2 ⟨hc, rfl⟩
    rw [hnil] at hcp
    cases hcp
  · exact ⟨file, hwalked, hpath, chunk_of_fileRows hrows hc hpath.symm⟩

theorem Coherent.located {repoId : Text} (h : Coherent D e walked repoId ix)
    (hwalk : ∀ f, walked f → Walkable f.content) : ix.toDb.Located := by
  intro c hc
  obtain ⟨file, hwalked, -, specs, hspecs, spec, hspec, hentry⟩ := h.chunkVersion hc
  have hdata : c.toChunkData = _ := congrArg Entry.data hentry
  rw [hdata]
  exact located_indexedChunk (hwalk file hwalked) hspecs hspec file.relPath

/-- Each part of a hit is of a version of its file that was walked; a file that is not
indexed at the time has no imports and no exports. -/
structure Versioned {F : Type} (D : Deps) (walked : WalkedFile → Prop) (hit : SearchHit F) : Prop where
  chunk : ∃ file, walked file ∧ ∃ specs, chunkFile D file.content file.language = some specs ∧
    ∃ spec ∈ specs, ShowsChunk hit file spec
  imports : hit.imports = [] ∨ ∃ file rows, walked file ∧ file.relPath = hit.file ∧
    structuralRows D file = some rows ∧ hit.imports = rows.1.map fun i => ⟨i.source, i.kind, i.line⟩
  exports : hit.exports = [] ∨ ∃ file rows, walked file ∧ file.relPath = hit.file ∧
    structuralRows D file = some rows ∧ hit.exports = rows.2.map fun x => ⟨x.detail, x.line⟩

theorem Coherent.importsOf {repoId : Text} (h : Coherent D e walked repoId ix) (p : Text) :
    importsOf ix p = [] ∨ ∃ file rows, walked file ∧ file.relPath = p ∧
      structuralRows D file = some rows ∧
      CodeSearch.importsOf ix p = rows.1.map fun i => ⟨i.source, i.kind, i.line⟩ := by
  rcases h.version p with hempty | ⟨file, hwalked, rfl, hrows⟩
  · have hnil : (ix.imports.filter fun i => i.filePath = p) = [] := congrArg PathRows.imports hempty
    left
    unfold CodeSearch.importsOf
    rw [hnil]
    rfl
  · exact .inr ⟨file, _, hwalked, rfl, structuralRows_of_fileRows hrows, rfl⟩

theorem Coherent.exportsOf {repoId : Text} (h : Coherent D e walked repoId ix) (p : Text) :
    exportsOf ix p = [] ∨ ∃ file rows, walked file ∧ file.relPath = p ∧
      structuralRows D file = some rows ∧
      CodeSearch.exportsOf ix p = rows.2.map fun x => ⟨x.detail, x.line⟩ := by
  rcases h.version p with hempty | ⟨file, hwalked, rfl, hrows⟩
  · have hnil : (ix.exports.filter fun x => x.filePath = p) = [] := congrArg PathRows.exports hempty
    left
    unfold CodeSearch.exportsOf
    rw [hnil]
    rfl
  · exact .inr ⟨file, _, hwalked, rfl, structuralRows_of_fileRows hrows, rfl⟩

/-- What is pieced together of coherent indexes. -/
theorem Pieced.versioned {I : Index → Prop} {repoId : Text}
    (hI : ∀ ix, I ix → Coherent D e walked repoId ix) (hwalk : ∀ f, walked f → Walkable f.content)
    {F : Type} {hit : HydratedHit} (h : Pieced I hit) (score : F) :
    Versioned D walked (toHit (hit, score)) := by
  obtain ⟨ix, ix₁, ix₂, ⟨hix, hix₁, hix₂⟩, c, hc, rfl⟩ := h
  obtain ⟨file, hwalked, hpath, specs, hspecs, spec, hspec, hentry⟩ := (hI ix hix).chunkVersion hc
  obtain ⟨hle, hend⟩ := chunkFile_ranges hspecs spec hspec
  have hshows := showsChunk_hydratedHit hentry
    ⟨hle, Nat.lt_of_le_of_lt hend (length_lines_lt (hwalk file hwalked))⟩ score
  refine ⟨⟨file, hwalked, specs, hspecs, spec, hspec, ?_⟩, (hI ix₁ hix₁).importsOf _,
    (hI ix₂ hix₂).exportsOf _⟩
  exact ⟨hshows.path, hshows.startLine, hshows.endLine, hshows.kind, hshows.signature, hshows.snippet⟩

end

section
variable {F : Type} [Field F] [LinearOrder F]

/-- Whatever connections index a repository while the search runs, in any interleaving and
whichever of them fail or are killed: its queries see one committed state after the other, and
its hits, in the shape of an answer, are of versions of the files that were walked. -/
theorem search_under_writes {ι : Type} [DecidableEq ι] (D : Deps) (e : Embedder) (root : Text)
    (width : Nat) (walked : WalkedFile → Prop) (hwalk : ∀ f, walked f → Walkable f.content)
    (states : Nat → Pool Stmt Stmt.Resp SqlError Error Unit Db IndexOp ι)
    (hstart : Pool.Reachable engine anyOutcome (fun _ op p => p = op.prog D e root ∧ op.Walks walked)
      (idlePool ι IndexOp (Index.empty width).toDb) (states 0))
    (hnext : ∀ n, Pool.Reachable engine anyOutcome
      (fun _ op p => p = op.prog D e root ∧ op.Walks walked) (states n) (states (n + 1)))
    (sights : Nat → Sight) (hsees : ∀ n, (states n).db = (sights n).index.toDb) (M : Machine F)
    (req : SearchCodeParams F) (hits : List (SearchHit F))
    (h : along sights (searchReads M req) = .ok hits) :
    SeenAnswer M.chars (fun ix => ∃ n, ix = (sights n).index) (req.k.getD defaultK) hits ∧
      (req.diversify.getD false = false → hits.Pairwise fun a b => b.score ≤ a.score) ∧
      ∀ hit ∈ hits, Versioned D walked hit := by
  have hreach : ∀ n, Pool.Reachable engine anyOutcome
      (fun _ op p => p = op.prog D e root ∧ op.Walks walked)
      (idlePool ι IndexOp (Index.empty width).toDb) (states n) := by
    intro n
    induction n with
    | zero => exact hstart
    | succ n ih => exact ih.trans (hnext n)
  have hcoherent : ∀ ix, (∃ n, ix = (sights n).index) → Coherent D e walked (repoIdFor D root) ix := by
    rintro ix ⟨n, rfl⟩
    obtain ⟨ix, hdb, hc⟩ := keeps_reachable (I := IsCoherent D e walked (repoIdFor D root))
      (fun cl op p hp => by
        rw [hp.1]
        exact keeps_walked root hp.2)
      ⟨_, rfl, coherent_empty width⟩ (fun _ => rfl) (hreach n)
    rw [Index.toDb_inj.1 ((hsees n).symm.trans hdb)]
    exact hc
  have hgives : Gives (fun s : Sight => ∃ n, s.index = (sights n).index) _ (searchReads M req) :=
    gives_searchReads (I := fun ix => ∃ n, ix = (sights n).index)
      fun ix hix => (hcoherent ix hix).located hwalk
  obtain ⟨hanswer, hsorted⟩ := along_of_gives hgives (fun n => ⟨n, rfl⟩) h
  refine ⟨hanswer, hsorted, fun hit hhit => ?_⟩
  obtain ⟨entry, rfl, hpieced⟩ := hanswer.pieced hit hhit
  exact hpieced.versioned hcoherent hwalk entry.2

end

/-! ## An edit during a search -/

def editOp : IndexOp := .reindex editedView false

/-- A run after the edit, beside a connection that indexed the file before. -/
def editRun : Sql Unit × Db × Txn Db :=
  replay engine (succeed 40) (editOp.prog .plain oneFileEmbedder "/old".toList) oneFileRun.2.1 .idle

def beforeEdit : Pool Stmt Stmt.Resp SqlError Error Unit Db IndexOp (Fin 2) where
  db := oneFileRun.2.1
  client := Function.update (fun _ => ⟨none, .idle⟩) 0 ⟨some (oneFileOp, oneFileRun.1), oneFileRun.2.2⟩

def afterEdit : Pool Stmt Stmt.Resp SqlError Error Unit Db IndexOp (Fin 2) where
  db := editRun.2.1
  client := Function.update beforeEdit.client 1 ⟨some (editOp, editRun.1), editRun.2.2⟩

/-- The index of the one file with this line. -/
def oneLineIndex (line : Text) : Index :=
  { oneFileIndex with
    chunks := ⟨[⟨⟨"a:1-1".toList, "a".toList, 1, 1, line, some "window".toList⟩, 7⟩],
      List.pairwise_singleton _ _⟩
    fts := ⟨[⟨7, line⟩], List.pairwise_singleton _ _⟩
    files := ⟨[filesRow ⟨"a".toList, none, line ++ ['\n']⟩ (Deps.plain.blake3Hex (line ++ ['\n'])) 0
      (repoIdFor .plain "/old".toList)], List.pairwise_singleton _ _⟩
    metaRows := ⟨[⟨metaEmbedderId, "m".toList⟩, ⟨metaEmbedderDim, "1".toList⟩], by decide +kernel⟩ }

/-- The edit is committed behind the two retrievals. -/
def editSights (n : Nat) : Sight :=
  ⟨oneLineIndex (if n < 2 then "a".toList else "b".toList), plainMachine.sqlite⟩

/-- The query is for the old line; the hit has the new one. -/
theorem search_under_writes_edit : ∃ hits : List (SearchHit Rat),
    along editSights (searchReads plainMachine
      ⟨"a".toList, none, none, none, none, none, none, none⟩) = .ok hits ∧
    hits.map (fun hit => (hit.id, hit.snippet)) = [("a:1-1".toList, "b".toList)] ∧
    ∀ hit ∈ hits, Versioned .plain (fun f => f ∈ oneFileView.walked ∨ f ∈ editedView.walked) hit := by
  have hwalk : ∀ f, f ∈ oneFileView.walked ∨ f ∈ editedView.walked → Walkable f.content := by
    rintro f (hf | hf)
    · rw [List.mem_singleton.1 hf]
      exact ⟨by decide +kernel, by decide +kernel⟩
    · rw [List.mem_singleton.1 hf]
      exact ⟨by decide +kernel, by decide +kernel⟩
  have hstart : Pool.Reachable engine anyOutcome (fun _ op p => p = op.prog .plain oneFileEmbedder
      "/old".toList ∧ op.Walks fun f => f ∈ oneFileView.walked ∨ f ∈ editedView.walked)
      (idlePool (Fin 2) IndexOp (Index.empty 1).toDb) beforeEdit :=
    Pool.reachable_of_run (i := 0) (ℓ := oneFileOp) rfl (fun _ _ h => h)
      ⟨rfl, fun f hf => .inl hf⟩ run_oneFileRun
  have hedit : Pool.Reachable engine anyOutcome (fun _ op p => p = op.prog .plain oneFileEmbedder
      "/old".toList ∧ op.Walks fun f => f ∈ oneFileView.walked ∨ f ∈ editedView.walked)
      beforeEdit afterEdit := by
    refine Pool.reachable_of_run (i := 1) (ℓ := editOp) (by rfl) (fun j hj => ?_)
      ⟨rfl, fun f hf => .inr hf⟩ (run_replay _ (fun _ _ _ _ _ => trivial) _ _ _)
    have hj : j = 0 := by omega
    subst hj
    decide +kernel
  have hnext : ∀ n, Pool.Reachable engine anyOutcome (fun _ op p => p = op.prog .plain oneFileEmbedder
      "/old".toList ∧ op.Walks fun f => f ∈ oneFileView.walked ∨ f ∈ editedView.walked)
      (if n < 2 then beforeEdit else afterEdit) (if n + 1 < 2 then beforeEdit else afterEdit) := by
    rintro (_ | _ | n)
    · exact .refl
    · exact hedit
    · rw [if_neg (by omega), if_neg (by omega)]
      exact .refl
  have hsees : ∀ n, (if n < 2 then beforeEdit else afterEdit).db = (editSights n).index.toDb := by
    have hbefore : beforeEdit.db = (oneLineIndex "a".toList).toDb := by decide +kernel
    have hafter : afterEdit.db = (oneLineIndex "b".toList).toDb := by decide +kernel
    intro n
    unfold editSights
    by_cases hn : n < 2
    · rw [if_pos hn, if_pos hn]
      exact hbefore
    · rw [if_neg hn, if_neg hn]
      exact hafter
  have hfound : (along editSights (searchReads plainMachine
      ⟨"a".toList, none, none, none, none, none, none, none⟩)).toOption.map
        (fun hits => hits.map fun hit => (hit.id, hit.snippet)) =
          some [("a:1-1".toList, "b".toList)] := by decide +kernel
  cases hrun : along editSights (searchReads plainMachine
      ⟨"a".toList, none, none, none, none, none, none, none⟩) with
  | error e =>
    rw [hrun] at hfound
    cases hfound
  | ok hits =>
    rw [hrun] at hfound
    obtain ⟨-, -, hversioned⟩ := search_under_writes .plain oneFileEmbedder "/old".toList 1 _ hwalk
      (fun n => if n < 2 then beforeEdit else afterEdit) hstart hnext editSights hsees plainMachine _
      hits hrun
    exact ⟨hits, rfl, Option.some.inj hfound, hversioned⟩

end CodeSearch
