import CodeSearch.Rebuild
import CodeSearch.SearchShape

/-!
# What a search of an indexed tree finds

After any history of a repository's runs, a run that returns leaves an index that holds the
tree it walked (`holdsTree_of_coherent`), and opening the index for a search changes none of its
rows (`finishes_openIndex`).  Every hit of the search then shows a chunk of a file of the
tree (`Searches.shows`).
-/

namespace CodeSearch

open Greedy Ranking Relational Store

/-! ## The index a search opens -/

section
variable {allow : Req Stmt → Outcome RowId SqlError → Db → Txn Db → Prop} {c c' : Db}

/-- A program that commits nothing is a schema program. -/
theorem returns_of_guards {α : Type} {p : Sql α} {P : α → Db → Prop}
    (h : Guards engine allow (fun _ => False) p c P) :
    Returns engine (migratingAlone allow) False p c .idle fun a c' t => t = .idle ∧ P a c' := by
  have hweak : wp engine (migratingAlone allow) p (fun r c' t => ∀ a, r = .ok a → t = .idle ∧ P a c')
      c .idle := by
    refine wp_weaken (U := crashRules allow fun _ => False) (fun t c c' hr => ?_)
      (fun c c' hg => ?_) (fun q o c t (ho : allow q o c t) => ho) h
    · cases t <;> exact hr
    · rcases hg with rfl | hno
      · exact ⟨.refl _, .refl _⟩
      · exact hno.elim
  exact wp_mono (fun _ _ _ hq => ⟨hq, False.elim⟩) hweak

theorem guards_verified {I : Db → Prop} (id : Text) (dim : Nat) :
    Guards engine allow I (verifyEmbedderMeta id dim) c fun _ c' =>
      c' = c ∧ (c.embedder = none ∨ c.embedder = some (id, dim)) := by
  refine guards_bind guards_readEmbedderMeta fun stored c' h => ?_
  obtain ⟨rfl, rfl⟩ := h
  cases hstored : c'.embedder with
  | none => exact guards_pure ⟨rfl, .inl rfl⟩
  | some pair =>
    obtain ⟨storedId, storedDim⟩ := pair
    dsimp only
    split
    · exact guards_throw
    · next hsame =>
      rw [not_or, not_not, not_not] at hsame
      obtain ⟨rfl, rfl⟩ := hsame
      exact guards_pure ⟨rfl, .inr rfl⟩

/-- An index that is open for a search has the rows that it had, and records no other embedder
than the search's. -/
theorem finishes_openIndex {embedder : QueryEmbedder}
    (hf : Finishes engine allow (openIndex embedder) c (.ok ()) c') : SameData c c' ∧
      (c'.embedder = none ∨ c'.embedder = some (embedder.id, embedder.dim)) := by
  have rules : MigrationRules (migratingAlone allow) False :=
    { migrationRules_alone allow with benign := False.elim, kind := False.elim }
  have hopens : Returns engine (migratingAlone allow) False (openIndex embedder) c .idle
      fun _ c' _ => c'.embedder = none ∨ c'.embedder = some (embedder.id, embedder.dim) := by
    refine returns_bind (returns_openDbWith rules embedder.dim) fun _ c₁ t₁ h₁ => ?_
    obtain ⟨rfl, -, -⟩ := h₁
    refine returns_bind (returns_migrate rules False.elim) fun _ c₂ t₂ h₂ => ?_
    obtain ⟨rfl, -⟩ := h₂
    refine returns_mono ?_ (returns_of_guards (guards_verified embedder.id embedder.dim))
    rintro _ c₃ t ⟨-, rfl, hembedder⟩
    exact hembedder
  obtain ⟨t, hembedder⟩ := (returns_finishes hopens hf).1 () rfl
  obtain ⟨p', t', hrun, -⟩ := hf
  exact ⟨(crash_schema hopens ⟨p', t', hrun⟩).2, hembedder⟩

end

section
variable {D : Deps} {e : Embedder} {files : List WalkedFile} {ix ix' : Index}

/-- Indexes with the same rows differ in the width of `chunks_vec` and in `meta` only. -/
theorem index_of_sameData (hd : SameData ix.toDb ix'.toDb) :
    ix' = { ix with width := ix'.width, metaRows := ix'.metaRows } := by
  have hchunks : ix'.chunks = ix.chunks := by ext1; exact hd.chunks
  have hvec : ix'.vec = ix.vec := by ext1; exact hd.vec
  have hfts : ix'.fts = ix.fts := by ext1; exact hd.fts
  have hsymbols : ix'.symbols = ix.symbols := by ext1; exact hd.symbols
  have himports : ix'.imports = ix.imports := hd.imports
  have hexports : ix'.exports = ix.exports := hd.exports
  have hfiles : ix'.files = ix.files := by ext1; exact hd.files
  rw [← hchunks, ← hvec, ← hfts, ← hsymbols, ← himports, ← hexports, ← hfiles]

/-- Of two indexes with the same rows both hold the tree. -/
theorem HoldsTree.sameData (h : HoldsTree D e files ix) (hd : SameData ix.toDb ix'.toDb) :
    HoldsTree D e files ix' := by
  rw [index_of_sameData hd]
  exact ⟨⟨h.bound.vec, h.bound.fts, h.bound.symbols⟩, h.outside, h.rows⟩

/-- A run on a coherent index that returns leaves one that holds the tree it walked. -/
theorem holdsTree_of_coherent {db db' : Db} {view : RepoView}
    (h : IsCoherent D e LanguageOfPath (repoIdFor D view.canonicalRoot) db)
    (hv : ValidTree view.walked) {force : Bool} (hinj : force = false → NoCollision D view.walked)
    {allow : Req Stmt → Outcome RowId SqlError → Db → Txn Db → Prop} {report : ReindexReport}
    (hf : Finishes engine allow (reindexWith D view force e) db (.ok report) db') :
    ∃ ix : Index, db' = ix.toDb ∧ HoldsTree D e view.walked ix := by
  obtain ⟨ix, rfl, hc⟩ := h
  cases force with
  | true =>
    obtain ⟨ix', rfl, hrebuilt, -⟩ := yields_finishes (yields_reindexWith_force D e hv.paths) hf
    exact ⟨ix', rfl, hrebuilt.holdsTree⟩
  | false =>
    obtain ⟨ix', rfl, ix₁, m, redone, hrewritten, hrun, -⟩ :=
      yields_finishes (yields_reindexWith_incremental D e hc.bound) hf
    have hix := hrewritten.eq_self fun r hr _ => hc.repo r hr
    subst hix
    have hdiffed : Diffed D e _ view { ix₁ with metaRows := m } ix' :=
      diffed_of_diffRun D e _ hv.paths ⟨hc.bound.vec, hc.bound.fts, hc.bound.symbols⟩ hrun
    exact ⟨ix', rfl, hdiffed.holdsTree (hc.metaRows m) hv (hinj rfl)⟩

/-- The structural rows of a file whose rows are stored. -/
theorem structuralRows_of_fileRows {file : WalkedFile}
    (hrows : fileRows D e file = some (ix.rowsOf file.relPath)) :
    structuralRows D file = some (ix.imports.filter fun i => i.filePath = file.relPath,
      ix.exports.filter fun x => x.filePath = file.relPath) := by
  obtain ⟨specs, -, hrows⟩ := Option.bind_eq_some_iff.1 hrows
  obtain ⟨structural, hstructural, hrows⟩ := Option.bind_eq_some_iff.1 hrows
  have hrows : (⟨specs.map (specEntry D e file.relPath), structural.1, structural.2⟩ : PathRows) =
      ix.rowsOf file.relPath := Option.some.inj hrows
  rw [hstructural]
  congr 1
  exact Prod.ext (congrArg PathRows.imports hrows) (congrArg PathRows.exports hrows)

/-- A chunk of such a file. -/
theorem chunk_of_fileRows {file : WalkedFile}
    (hrows : fileRows D e file = some (ix.rowsOf file.relPath)) {c : ChunkRow}
    (hc : c ∈ ix.chunks.rows) (hpath : c.filePath = file.relPath) :
    ∃ specs, chunkFile D file.content file.language = some specs ∧ ∃ spec ∈ specs,
      ix.entry c = specEntry D e file.relPath spec := by
  obtain ⟨specs, hspecs, hrows⟩ := Option.bind_eq_some_iff.1 hrows
  obtain ⟨structural, -, hrows⟩ := Option.bind_eq_some_iff.1 hrows
  have hentries : specs.map (specEntry D e file.relPath) = (ix.chunksOf file.relPath).map ix.entry :=
    congrArg PathRows.entries (Option.some.inj hrows)
  have hentry : ix.entry c ∈ specs.map (specEntry D e file.relPath) := by
    rw [hentries]
    exact List.mem_map_of_mem (Index.mem_chunksOf.2 ⟨hc, hpath⟩)
  obtain ⟨spec, hspec, heq⟩ := List.mem_map.1 hentry
  exact ⟨specs, hspecs, spec, hspec, heq.symm⟩

/-- A stored chunk is of a file of the tree. -/
theorem HoldsTree.file (h : HoldsTree D e files ix) {c : ChunkRow} (hc : c ∈ ix.chunks.rows) :
    ∃ file ∈ files, c.filePath = file.relPath := by
  have hmem : c.filePath ∈ files.map (·.relPath) := by
    by_contra hno
    have hentries := congrArg PathRows.entries (h.outside c.filePath hno)
    have hnil : ix.chunksOf c.filePath = [] := List.map_eq_nil_iff.1 hentries
    have hcp : c ∈ ix.chunksOf c.filePath := Index.mem_chunksOf.2 ⟨hc, rfl⟩
    rw [hnil] at hcp
    cases hcp
  obtain ⟨file, hfile, hpath⟩ := List.mem_map.1 hmem
  exact ⟨file, hfile, hpath.symm⟩

end

/-! ## What a hit shows -/

section
variable {F : Type}

/-- The hit is the chunk of the file. -/
structure ShowsChunk (hit : SearchHit F) (file : WalkedFile) (spec : ChunkSpec) : Prop where
  path : hit.file = file.relPath
  startLine : hit.startLine = spec.startLine
  endLine : hit.endLine = spec.endLine
  kind : hit.kind = spec.kindStr
  signature : hit.signature = spec.symbol.map fun sig => renderSignature sig spec.kindStr
  snippet : hit.snippet = spec.body.take snippetMax

/-- With what the file imports and exports. -/
structure Shows (D : Deps) (hit : SearchHit F) (file : WalkedFile) (spec : ChunkSpec) : Prop
    extends ShowsChunk hit file spec where
  structural : ∃ rows, structuralRows D file = some rows ∧
    hit.imports = rows.1.map (fun i => ⟨i.source, i.kind, i.line⟩) ∧
    hit.exports = rows.2.map fun x => ⟨x.detail, x.line⟩

/-- A hydrated row shows the chunk that it was stored for. -/
theorem showsChunk_hydratedHit {D : Deps} {e : Embedder} {ix : Index} {c : ChunkRow}
    {file : WalkedFile} {spec : ChunkSpec} (h : ix.entry c = specEntry D e file.relPath spec)
    (hend : spec.startLine ≤ spec.endLine ∧ spec.endLine < 2 ^ 32) (score : F) :
    ShowsChunk (toHit (hydratedHit ix c, score)) file spec := by
  have hdata : c.toChunkData = (indexedChunk file.relPath spec).data spec.kindStr :=
    congrArg Entry.data h
  have hsymbols : (ix.symbols.rows.filter fun s => s.chunkId = c.id) = ((specSymbol spec).map
      fun sym => sym.row (chunkId file.relPath spec.startLine spec.endLine)).toList :=
    congrArg Entry.symbols h
  constructor
  · exact congrArg ChunkData.filePath hdata
  · refine (congrArg ChunkData.startLine hdata).trans ?_
    exact Nat.mod_eq_of_lt (by omega)
  · refine (congrArg ChunkData.endLine hdata).trans ?_
    exact Nat.mod_eq_of_lt hend.2
  · show c.kind.getD [] = spec.kindStr
    rw [congrArg ChunkData.kind hdata]
    rfl
  · show (ix.symbols.rows.find? fun s => s.chunkId = c.id).map (·.signature) = _
    rw [← List.head?_filter, hsymbols]
    unfold specSymbol
    cases spec.symbol with
    | none => rfl
    | some sig => rfl
  · show c.body.take snippetMax = spec.body.take snippetMax
    rw [congrArg ChunkData.body hdata]
    rfl

end

/-- What a search of the database answers, whatever it is given besides. -/
inductive Searches (embedder : QueryEmbedder) (db : Db) {F : Type} (hits : List (SearchHit F)) : Prop
  | search [Field F] [LinearOrder F] (M : Machine F) (hM : M.embedder = embedder)
      (req : SearchCodeParams F) (ix : Index)
      (hopen : Finishes engine anyOutcome (openIndex M.embedder) db (.ok ()) ix.toDb)
      (h : searchCode M ix req = .ok hits)

/-- The hits are stored chunks. -/
theorem stored_searchCode {F : Type} [Field F] [LinearOrder F] {M : Machine F} {ix : Index}
    {req : SearchCodeParams F} {hits : List (SearchHit F)} (h : searchCode M ix req = .ok hits) :
    ∀ hit ∈ hits, ∃ c ∈ ix.chunks.rows, ∃ score, hit = toHit (hydratedHit ix c, score) := by
  unfold searchCode at h
  obtain ⟨fused, hfused, h⟩ := bind_eq_ok.1 h
  obtain ⟨kept, hkept, h⟩ := bind_eq_ok.1 h
  obtain ⟨hydrated, hhydrated, h⟩ := bind_eq_ok.1 h
  have hcand := candidates_fused hfused
  have hstored : ∀ cand ∈ kept.take (req.k.getD defaultK), Stored ix cand.1 := by
    intro cand hmem
    have hdedup : cand ∈ dedupOverlapping fused :=
      (perm_survivors hkept).1.mem_iff.1 (List.mem_of_mem_take hmem)
    exact hcand.stored cand ((keepFirst_sublist _ _).subset hdedup)
  obtain ⟨-, hrows⟩ := hydrateAll_spec hstored hhydrated
  rw [dedupContent_eq] at h
  intro hit hhit
  have hits_eq : hits = List.map toHit _ := (Except.ok.inj h).symm
  rw [hits_eq] at hhit
  obtain ⟨entry, hentry, rfl⟩ := List.mem_map.1 hhit
  obtain ⟨c, hc, heq⟩ := hrows entry ((keepFirst_sublist _ _).subset hentry)
  refine ⟨c, hc, entry.2, ?_⟩
  rw [← heq]

section
variable {F : Type} {D : Deps} {e : QueryEmbedder} {files : List WalkedFile} {ix : Index}
  {hits : List (SearchHit F)}

/-- A search of an index that holds a tree shows chunks of the tree. -/
theorem Searches.shows (hsearch : Searches e ix.toDb hits)
    (htree : HoldsTree D e.toEmbedder files ix) (hwalk : ∀ f ∈ files, Walkable f.content) :
    ∀ hit ∈ hits, ∃ file ∈ files, ∃ specs, chunkFile D file.content file.language = some specs ∧
      ∃ spec ∈ specs, Shows D hit file spec := by
  obtain ⟨M, rfl, req, ix', hopen, h⟩ := hsearch
  have htree := htree.sameData (finishes_openIndex hopen).1
  intro hit hhit
  obtain ⟨c, hc, score, rfl⟩ := stored_searchCode h hit hhit
  obtain ⟨file, hfile, hpath⟩ := htree.file hc
  obtain ⟨specs, hspecs, spec, hspec, hentry⟩ := chunk_of_fileRows (htree.rows file hfile) hc hpath
  have hstructural := structuralRows_of_fileRows (htree.rows file hfile)
  obtain ⟨hle, hend⟩ := chunkFile_ranges hspecs spec hspec
  have hshows := showsChunk_hydratedHit hentry
    ⟨hle, Nat.lt_of_le_of_lt hend (length_lines_lt (hwalk file hfile))⟩ score
  rw [← hpath] at hstructural
  exact ⟨file, hfile, specs, hspecs, spec, hspec, hshows, _, hstructural, rfl, rfl⟩

end

/-! ## The lists behind an answer -/

section
variable {F : Type} [Field F] [LinearOrder F] {M : Machine F} {ix : Index}
  {req : SearchCodeParams F}

/-- The boost keeps the ids. -/
theorem ids_applyStructuralBoost {U : CharTables} {imports : List ImportRow} {query : Text}
    {fused : List (Text × F)} :
    ((applyStructuralBoost U imports query fused).map Prod.fst).Perm (fused.map Prod.fst) := by
  have hboost : (applyStructuralBoost U imports query fused).Perm _ := perm_applyStructuralBoost
  have hperm := hboost.map Prod.fst
  rwa [map_boosted_fst] at hperm

/-- What is found by words is fused. -/
theorem fused_of_bm25 {bm25 : List (Text × Float)} {fused : List (Text × F)}
    (hbm25 : bm25Query M.sqlite M.chars ix req.query (req.k.getD defaultK) = .ok bm25)
    (h : fusedCandidates M ix req = .ok fused) {id : Text} (hid : id ∈ bm25.map Prod.fst) :
    id ∈ fused.map Prod.fst := by
  unfold fusedCandidates at h
  obtain ⟨bm25', hbm25', h⟩ := bind_eq_ok.1 h
  rw [hbm25] at hbm25'
  cases hbm25'
  obtain ⟨vector, -, h⟩ := bind_eq_ok.1 h
  dsimp only at h
  have hfused : ∀ w : F × F, id ∈ (rrfFuseWeighted .wrapping M.order bm25 vector
      (req.rrfK.getD rrfK) w.1 w.2).map Prod.fst := by
    intro w
    obtain ⟨score, hscore⟩ : ∃ score, (addRanks .wrapping (req.rrfK.getD rrfK) w.2
        (vector.map KnnHit.chunkId) (addRanks .wrapping (req.rrfK.getD rrfK) w.1
          (bm25.map Prod.fst) .empty)).get? id = some score := by
      unfold addRanks
      rw [get?_rankSteps, get?_rankSteps, if_pos (And.intro hid List.not_mem_nil)]
      split
      · exact ⟨_, rfl⟩
      · exact ⟨_, rfl⟩
    refine List.mem_map.2 ⟨(id, score), ?_, rfl⟩
    unfold rrfFuseWeighted
    rw [mem_sortBy, (M.order.perm _).mem_iff, mem_list_iff]
    exact hscore
  split at h
  · split at h
    · cases h
      exact hfused _
    · obtain ⟨-, rfl⟩ := rows_eq_ok.1 h
      exact ids_applyStructuralBoost.mem_iff.2 (hfused _)
  · cases h
    exact hfused _

/-- The parts of a search that returns. -/
theorem parts_of_search (hloc : ix.toDb.Located) {hits : List (SearchHit F)}
    (h : searchCode M ix req = .ok hits) : ∃ bm25 fused kept,
      bm25Query M.sqlite M.chars ix req.query (req.k.getD defaultK) = .ok bm25 ∧
      bm25.map Prod.fst ⊆ fused.map Prod.fst ∧
      Answer M.chars ix (req.k.getD defaultK) fused kept hits := by
  unfold searchCode at h
  obtain ⟨fused, hfused, h⟩ := bind_eq_ok.1 h
  obtain ⟨kept, hkept, h⟩ := bind_eq_ok.1 h
  obtain ⟨hydrated, hhydrated, h⟩ := bind_eq_ok.1 h
  obtain ⟨bm25, hbm25, -⟩ := bind_eq_ok.1 hfused
  have hcand := candidates_fused hfused
  have hsurvivors := survivors_spec hloc hcand hkept
  obtain ⟨hmap, hrows⟩ := hydrateAll_spec
    (fun cand hmem => hcand.stored cand (hsurvivors.sub cand (List.mem_of_mem_take hmem))) hhydrated
  rw [dedupContent_eq] at h
  cases h
  exact ⟨bm25, fused, kept, hbm25, fun id => fused_of_bm25 hbm25 hfused,
    answer_of_survivors hloc hsurvivors hmap hrows⟩

end

/-- What a search of the open index answers to a query, whatever else is asked for. -/
inductive SearchesFor (S : Sqlite) (U : CharTables) (embedder : QueryEmbedder) (ix : Index)
    (query : Text) (k : Nat) {F : Type} (hits : List (SearchHit F)) : Prop
  | search [Field F] [LinearOrder F] (M : Machine F) (hS : M.sqlite = S) (hU : M.chars = U)
      (hM : M.embedder = embedder) (req : SearchCodeParams F) (hquery : req.query = query)
      (hk : req.k.getD defaultK = k) (h : searchCode M ix req = .ok hits)

/-- Its lists: what is found by words, what is fused and what survives. -/
theorem SearchesFor.parts {F : Type} {S : Sqlite} {U : CharTables} {e : QueryEmbedder} {ix : Index}
    {query : Text} {k : Nat} {hits : List (SearchHit F)} (h : SearchesFor S U e ix query k hits)
    (hloc : ix.toDb.Located) : ∃ bm25 fused kept, bm25Query S U ix query k = .ok bm25 ∧
      bm25.map Prod.fst ⊆ fused.map Prod.fst ∧ Answer U ix k fused kept hits := by
  obtain ⟨M, rfl, rfl, -, req, rfl, rfl, h⟩ := h
  exact parts_of_search hloc h

end CodeSearch
