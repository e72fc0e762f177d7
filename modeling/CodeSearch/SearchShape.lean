import CodeSearch.Places
import CodeSearch.Search

/-!
# The shape of a search answer

Each stage keeps what the stages before it established: the fused candidates are
stored chunks, each once; the survivors are some of them, no two overlapping by more
than half; hydrating the first `k` of these gives each its file and lines back; and
the answer is what is left when near-equal contents go.  Whatever is not returned was
dropped by one of these stages, which names what it was dropped for
(`search_code_shape`).
-/

namespace CodeSearch

open Greedy Ranking Store

/-- `y` is before `x` in the list. -/
def Before {α : Type} (l : List α) (y x : α) : Prop := ∃ pre post, l = pre ++ x :: post ∧ y ∈ pre

theorem Before.mem {α : Type} {l : List α} {y x : α} (h : Before l y x) : y ∈ l := by
  obtain ⟨pre, post, rfl, hy⟩ := h
  exact List.mem_append_left _ hy

/-- A candidate is a stored chunk. -/
def Stored (ix : Index) (id : Text) : Prop := ∃ c ∈ ix.chunks.rows, c.id = id

/-! ## Overlaps -/

/-- The id of a stored chunk gives its file and its lines back. -/
theorem Located.decodes {data : ChunkData} (h : Located data) :
    parseChunkId data.id = some (data.filePath, (data.startLine : Int), (data.endLine : Int)) := by
  have hle := h.le
  have hfits := h.fits
  rw [h.id]
  apply parseChunkId_chunkId
  · omega
  · omega

section
variable {F : Type} {ix : Index}

/-- The candidates are chunks of one file that share more than half of the shorter one. -/
def Overlap (ix : Index) (a b : Text × F) : Prop :=
  ∃ c ∈ ix.chunks.rows, ∃ d ∈ ix.chunks.rows, c.id = a.1 ∧ d.id = b.1 ∧ c.filePath = d.filePath ∧
    ShareMoreThanHalf (c.startLine, c.endLine) (d.startLine, d.endLine)

theorem Overlap.symm {a b : Text × F} (h : Overlap ix a b) : Overlap ix b a := by
  obtain ⟨c, hc, d, hd, hca, hdb, hpath, hshare⟩ := h
  exact ⟨d, hd, c, hc, hdb, hca, hpath.symm, hshare.symm⟩

theorem overlapsKept_iff (hloc : ix.toDb.Located) {c d : ChunkRow} (hc : c ∈ ix.chunks.rows)
    (hd : d ∈ ix.chunks.rows) : overlapsKept c.id d.id = true ↔ c.filePath = d.filePath ∧
      ShareMoreThanHalf (c.startLine, c.endLine) (d.startLine, d.endLine) := by
  have lc := hloc c hc
  have ld := hloc d hd
  unfold overlapsKept
  rw [lc.decodes, ld.decodes]
  show (decide (d.filePath = c.filePath) && decide (_ < _)) = true ↔ _
  rw [Bool.and_eq_true, decide_eq_true_eq, decide_eq_true_eq,
    limit_lt_overlapFraction (a := (c.startLine, c.endLine)) (b := (d.startLine, d.endLine)) lc.le
      ld.le, eq_comm]

/-- The test of stage A is whether the candidates overlap. -/
theorem overlapsKept_eq_true (hloc : ix.toDb.Located) {a b : Text × F} (ha : Stored ix a.1)
    (hb : Stored ix b.1) : overlapsKept a.1 b.1 = true ↔ Overlap ix a b := by
  constructor
  · intro h
    obtain ⟨c, hc, hca⟩ := ha
    obtain ⟨d, hd, hdb⟩ := hb
    rw [← hca, ← hdb, overlapsKept_iff hloc hc hd] at h
    exact ⟨c, hc, d, hd, hca, hdb, h⟩
  · rintro ⟨c, hc, d, hd, hca, hdb, h⟩
    rw [← hca, ← hdb, overlapsKept_iff hloc hc hd]
    exact h

end

/-! ## Candidates -/

section
variable {S : Sqlite} {U : CharTables} {ix : Index}

theorem stored_joinChunks {α : Type} {rows : List (RowId × α)} {entry : Text × α}
    (h : entry ∈ joinChunks ix rows) : Stored ix entry.1 := by
  obtain ⟨row, -, hrow⟩ := List.mem_filterMap.1 h
  obtain ⟨c, hc, rfl⟩ := Option.map_eq_some_iff.1 hrow
  exact ⟨c, List.mem_of_find?_eq_some hc, rfl⟩

theorem rows_eq_ok {α : Type} {context : String} {q : Query} {rows r : α} :
    S.rows context q rows = .ok r ↔ S.fails q = none ∧ rows = r := by
  unfold Sqlite.rows
  cases S.fails q with
  | none => simp
  | some e => simp

theorem bind_eq_ok {ε α β : Type} {x : Except ε α} {f : α → Except ε β} {b : β} :
    (x >>= f) = .ok b ↔ ∃ a, x = .ok a ∧ f a = .ok b := by
  cases x with
  | error e => simp [bind, Except.bind]
  | ok a => simp [bind, Except.bind]

theorem stored_bm25Query {query : Text} {k : Nat} {bm25 : List (Text × Float)}
    (h : bm25Query S U ix query k = .ok bm25) : ∀ entry ∈ bm25, Stored ix entry.1 := by
  unfold bm25Query at h
  dsimp only at h
  split at h
  · cases h
    intro entry hentry
    cases hentry
  · obtain ⟨-, rfl⟩ := rows_eq_ok.1 h
    intro entry hentry
    unfold limited at hentry
    split at hentry
    · exact stored_joinChunks hentry
    · exact stored_joinChunks (List.mem_of_mem_take hentry)

theorem stored_vectorQuery {query : Text} {k : Nat} {embedder : QueryEmbedder}
    {vector : List KnnHit} (h : vectorQueryWith S ix query k embedder = .ok vector) :
    ∀ hit ∈ vector, Stored ix hit.chunkId := by
  obtain ⟨-, rfl⟩ := rows_eq_ok.1 h
  intro hit hhit
  obtain ⟨row, hrow, rfl⟩ := List.mem_map.1 hhit
  exact stored_joinChunks hrow

theorem hydrate_eq_ok {id : Text} {r : Option HydratedHit} (h : hydrate S ix id = .ok r) :
    r = (ix.chunks.rows.find? fun c => decide (c.id = id)).map (hydratedHit ix) := by
  unfold hydrate at h
  obtain ⟨row, hrow, h⟩ := bind_eq_ok.1 h
  obtain ⟨-, rfl⟩ := rows_eq_ok.1 hrow
  split at h
  · next hnone =>
    rw [hnone]
    cases h
    rfl
  · next c hc =>
    obtain ⟨imports, himports, h⟩ := bind_eq_ok.1 h
    obtain ⟨exports, hexports, h⟩ := bind_eq_ok.1 h
    obtain ⟨-, rfl⟩ := rows_eq_ok.1 himports
    obtain ⟨-, rfl⟩ := rows_eq_ok.1 hexports
    rw [hc]
    cases h
    rfl

end

section
variable {F : Type} [Field F] [LinearOrder F] {M : Machine F} {ix : Index}
  {req : SearchCodeParams F}

/-- The fused candidates: stored chunks, each once, by score. -/
structure Candidates (ix : Index) (fused : List (Text × F)) : Prop where
  stored : ∀ cand ∈ fused, Stored ix cand.1
  nodup : (fused.map Prod.fst).Nodup
  sorted : fused.Pairwise fun a b => b.2 ≤ a.2

theorem Candidates.boosted {fused : List (Text × F)} (h : Candidates ix fused) (query : Text) :
    Candidates ix (applyStructuralBoost M.chars ix.imports query fused) := by
  have hsame : (applyStructuralBoost M.chars ix.imports query fused).Perm _ :=
    perm_applyStructuralBoost
  have hperm := hsame.map Prod.fst
  rw [map_boosted_fst] at hperm
  refine ⟨fun cand hcand => ?_, hperm.nodup_iff.2 h.nodup, sorted_applyStructuralBoost h.sorted⟩
  have hid : cand.1 ∈ fused.map Prod.fst := hperm.mem_iff.1 (List.mem_map_of_mem hcand)
  obtain ⟨old, hold, heq⟩ := List.mem_map.1 hid
  rw [← heq]
  exact h.stored old hold

theorem candidates_fused {fused : List (Text × F)} (h : fusedCandidates M ix req = .ok fused) :
    Candidates ix fused := by
  unfold fusedCandidates at h
  obtain ⟨bm25, hbm25, h⟩ := bind_eq_ok.1 h
  obtain ⟨vector, hvector, h⟩ := bind_eq_ok.1 h
  dsimp only at h
  have hfused : ∀ w : F × F, Candidates ix (rrfFuseWeighted .wrapping M.order bm25 vector
      (req.rrfK.getD rrfK) w.1 w.2) := by
    intro w
    refine ⟨fun cand hcand => ?_, nodup_rrfFuseWeighted,
      ranked_rrfFuseWeighted.imp fun {a b} hr => hr.elim le_of_lt fun hr => hr.1.ge⟩
    rcases id_mem_of_mem_rrfFuseWeighted hcand with hb | hv
    · obtain ⟨entry, hentry, heq⟩ := List.mem_map.1 hb
      rw [← heq]
      exact stored_bm25Query hbm25 entry hentry
    · obtain ⟨hit, hhit, heq⟩ := List.mem_map.1 hv
      rw [← heq]
      exact stored_vectorQuery hvector hit hhit
  split at h
  · split at h
    · cases h
      exact hfused _
    · obtain ⟨-, rfl⟩ := rows_eq_ok.1 h
      exact (hfused _).boosted _
  · cases h
    exact hfused _

/-! ## Survivors -/

theorem perm_survivors {fused kept : List (Text × F)} (h : survivors M ix req fused = .ok kept) :
    kept.Perm (dedupOverlapping fused) ∧
      (req.diversify.getD false = false → kept = dedupOverlapping fused) := by
  unfold survivors at h
  dsimp only at h
  split at h
  · next hdiv =>
    obtain ⟨embeddings, -, h⟩ := bind_eq_ok.1 h
    cases h
    exact ⟨mmrRerank_perm _ _ _ _, fun hno => by rw [hdiv] at hno; cases hno⟩
  · cases h
    exact ⟨.refl _, fun _ => rfl⟩

/-- The survivors: candidates of the fused list, each once, none overlapping another. -/
structure Survivors (ix : Index) (fused kept : List (Text × F)) : Prop where
  sub : ∀ cand ∈ kept, cand ∈ fused
  nodup : (kept.map Prod.fst).Nodup
  apart : kept.Pairwise fun a b => ¬ Overlap ix a b
  dropped : ∀ cand ∈ fused, cand ∈ kept ∨ ∃ other, Before fused other cand ∧ Overlap ix cand other

theorem survivors_spec (hloc : ix.toDb.Located) {fused kept : List (Text × F)}
    (hf : Candidates ix fused) (h : survivors M ix req fused = .ok kept) :
    Survivors ix fused kept := by
  obtain ⟨hperm, -⟩ := perm_survivors h
  have hsub := keepFirst_sublist (fun entry kept : Text × F => overlapsKept entry.1 kept.1) fused
  constructor
  · exact fun cand hcand => hsub.subset (hperm.mem_iff.1 hcand)
  · exact (hperm.map Prod.fst).nodup_iff.2 ((hsub.map Prod.fst).nodup hf.nodup)
  · refine (hperm.pairwise_iff fun hab hba => hab hba.symm).2
      ((keepFirst_pairwise _ _).imp_of_mem fun {a b} ha hb hno hover => ?_)
    rw [(overlapsKept_eq_true hloc (hf.stored b (hsub.subset hb))
      (hf.stored a (hsub.subset ha))).2 hover.symm] at hno
    cases hno
  · intro cand hcand
    obtain ⟨pre, post, rfl⟩ := List.append_of_mem hcand
    rcases kept_or_dup (fun entry kept : Text × F => overlapsKept entry.1 kept.1) pre cand post with
      hkept | ⟨other, hother, hover⟩
    · exact .inl (hperm.mem_iff.2 hkept)
    · have hpre : other ∈ pre := (keepFirst_sublist _ _).subset hother
      exact .inr ⟨other, ⟨pre, post, rfl, hpre⟩, (overlapsKept_eq_true hloc (hf.stored _ hcand)
        (hf.stored _ (List.mem_append_left _ hpre))).1 hover⟩

end

/-! ## Hydration -/

section
variable {F : Type} {M : Machine F} {ix : Index}

/-- The hydrated hits are those of the candidates, in order. -/
theorem hydrateAll_spec : ∀ {l : List (Text × F)} {hits : List (HydratedHit × F)},
    (∀ cand ∈ l, Stored ix cand.1) → hydrateAll M ix l = .ok hits →
    hits.map (fun hit => (hit.1.chunkId, hit.2)) = l ∧
      ∀ hit ∈ hits, ∃ c ∈ ix.chunks.rows, hit.1 = hydratedHit ix c := by
  intro l
  induction l with
  | nil =>
    intro hits _ h
    cases h
    exact ⟨rfl, fun hit hhit => by cases hhit⟩
  | cons cand l ih =>
    intro hits hstored h
    obtain ⟨c, hc, hid⟩ := hstored cand List.mem_cons_self
    unfold hydrateAll at h
    obtain ⟨r, hr, h⟩ := bind_eq_ok.1 h
    have hsome : (ix.chunks.rows.find? fun c => decide (c.id = cand.1)).isSome := by
      rw [List.find?_isSome]
      exact ⟨c, hc, decide_eq_true hid⟩
    obtain ⟨row, hrow⟩ := Option.isSome_iff_exists.1 hsome
    have hrid : row.id = cand.1 := by simpa using List.find?_some hrow
    rw [hydrate_eq_ok hr, hrow] at h
    obtain ⟨rest, hrest, h⟩ := bind_eq_ok.1 h
    cases h
    obtain ⟨hmap, hrows⟩ := ih (fun x hx => hstored x (List.mem_cons_of_mem _ hx)) hrest
    refine ⟨?_, fun hit hhit => ?_⟩
    · rw [List.map_cons, hmap]
      show (row.id, cand.2) :: l = cand :: l
      rw [hrid]
    · rcases List.mem_cons.1 hhit with rfl | hhit
      · exact ⟨row, List.mem_of_find?_eq_some hrow, rfl⟩
      · exact hrows hit hhit

end

/-! ## Opening -/

theorem only_openIndex (embedder : QueryEmbedder) : (openIndex embedder).Only LocatedStmt := by
  refine only_bind (only_openDbWith _) fun _ => only_bind only_migrate fun _ => ?_
  refine only_bind (only_readEmbedderMeta (runAllows_located .plain [] embedder.toEmbedder))
    fun stored => ?_
  split
  · split <;> trivial
  · trivial

/-- Opening an index inserts no chunk. -/
theorem located_openIndex {embedder : QueryEmbedder} {c c' : Db} {r : Except Error Unit}
    (hf : Finishes engine anyOutcome (openIndex embedder) c r c') (hc : c.Located) : c'.Located := by
  have hwp := wp_located (only_openIndex embedder) (c := c) (t := .idle) ⟨hc, fun w hw => by cases hw⟩
  obtain ⟨t', hends⟩ := wp_finishes hwp hf
  exact hends.1

/-! ## The answer -/

section
variable {F : Type}

/-- The id of a hit's chunk. -/
def SearchHit.id (hit : SearchHit F) : Text := chunkId hit.file hit.startLine hit.endLine

/-- The set of tokens of a hit's snippet and signature. -/
def SearchHit.fingerprint (U : CharTables) (hit : SearchHit F) : Finset Text :=
  (codeTokens U hit.snippet).toFinset ∪
    match hit.signature with
    | some sig => (codeTokens U sig).toFinset
    | none => ∅

/-- Why a candidate of the fused list is not among the hits. -/
inductive Dropped (U : CharTables) (ix : Index) (k : Nat) (fused kept : List (Text × F))
    (hits : List (SearchHit F)) (cand : Text × F) : Prop
  /-- A higher candidate of its file overlaps it. -/
  | overlaps (other : Text × F) (higher : Before fused other cand) (h : Overlap ix cand other)
  /-- `k` survivors come before it. -/
  | crowdedOut (pre post : List (Text × F)) (h : kept = pre ++ cand :: post) (hk : k ≤ pre.length)
  /-- An earlier hit has nearly its content. -/
  | repeats (hit : SearchHit F) (hhit : hit ∈ hits) (earlier : Before (kept.map Prod.fst) hit.id cand.1)
      (c : ChunkRow) (hc : c ∈ ix.chunks.rows) (hid : c.id = cand.1)
      (h : NearlySame ((SearchHit.fromHydrated (hydratedHit ix c) cand.2).fingerprint U)
        (hit.fingerprint U))

/-- The hits for a fused list and what survives of it. -/
structure Answer (U : CharTables) (ix : Index) (k : Nat) (fused kept : List (Text × F))
    (hits : List (SearchHit F)) : Prop where
  length_le : hits.length ≤ k
  survived : ∀ hit ∈ hits, (hit.id, hit.score) ∈ kept
  distinct : (hits.map fun hit => (hit.file, hit.startLine, hit.endLine)).Nodup
  apart : hits.Pairwise fun a b =>
    a.file = b.file → ¬ ShareMoreThanHalf (a.startLine, a.endLine) (b.startLine, b.endLine)
  different : hits.Pairwise fun a b => ¬ NearlySame (a.fingerprint U) (b.fingerprint U)
  accounted : ∀ cand ∈ fused, (∃ hit ∈ hits, hit.id = cand.1 ∧ hit.score = cand.2) ∨
    Dropped U ix k fused kept hits cand

/-- The test of stage B. -/
def sameContent (U : CharTables) (entry kept : HydratedHit × F) : Bool :=
  decide (contentJaccardThreshold ≤
    jaccard (contentFingerprint U entry.1) (contentFingerprint U kept.1))

/-- The hit of a hydrated candidate. -/
def toHit (entry : HydratedHit × F) : SearchHit F := .fromHydrated entry.1 entry.2

/-- The test of stage B is whether the hits have nearly the same content. -/
theorem sameContent_iff {U : CharTables} {a b : HydratedHit × F} : sameContent U a b = true ↔
    NearlySame ((toHit a).fingerprint U) ((toHit b).fingerprint U) := by
  unfold sameContent
  rw [decide_eq_true_eq, threshold_le_jaccard_iff]
  rfl

theorem different_toHit {U : CharTables} (hydrated : List (HydratedHit × F)) :
    ((keepFirst (sameContent U) hydrated).map toHit).Pairwise fun a b =>
      ¬ NearlySame (a.fingerprint U) (b.fingerprint U) := by
  rw [List.pairwise_map]
  refine (keepFirst_pairwise (sameContent U) hydrated).imp fun {a b} h hsame => ?_
  rw [sameContent_iff.2 hsame.symm] at h
  cases h

/-- A hydrated hit has the id of its row. -/
theorem id_toHit {ix : Index} (hloc : ix.toDb.Located) {entry : HydratedHit × F}
    (hrow : ∃ c ∈ ix.chunks.rows, entry.1 = hydratedHit ix c) :
    (toHit entry).id = entry.1.chunkId := by
  obtain ⟨c, hc, heq⟩ := hrow
  show chunkId entry.1.filePath entry.1.startLine entry.1.endLine = entry.1.chunkId
  rw [heq]
  exact (hloc c hc).id.symm

/-- Hits of different ids are in different places: two of one place would have one id. -/
theorem nodup_places {hits : List (SearchHit F)} (h : (hits.map SearchHit.id).Nodup) :
    (hits.map fun hit => (hit.file, hit.startLine, hit.endLine)).Nodup := by
  refine List.Nodup.of_map (fun place : Text × Nat × Nat => chunkId place.1 place.2.1 place.2.2) ?_
  rw [List.map_map]
  exact h

/-- Hits of rows that do not overlap do not share more than half of their lines. -/
theorem apart_toHit {ix : Index} {a b : HydratedHit × F}
    (ha : ∃ c ∈ ix.chunks.rows, a.1 = hydratedHit ix c)
    (hb : ∃ c ∈ ix.chunks.rows, b.1 = hydratedHit ix c)
    (hno : ¬ Overlap ix (a.1.chunkId, a.2) (b.1.chunkId, b.2)) :
    (toHit a).file = (toHit b).file → ¬ ShareMoreThanHalf ((toHit a).startLine, (toHit a).endLine)
      ((toHit b).startLine, (toHit b).endLine) := by
  intro hfile hshare
  obtain ⟨c, hc, hca⟩ := ha
  obtain ⟨d, hd, hdb⟩ := hb
  change a.1.filePath = b.1.filePath at hfile
  change ShareMoreThanHalf (a.1.startLine, a.1.endLine) (b.1.startLine, b.1.endLine) at hshare
  rw [hca, hdb] at hfile hshare
  rw [hca, hdb] at hno
  exact hno ⟨c, hc, d, hd, rfl, rfl, hfile, hshare⟩

section
variable {U : CharTables} {ix : Index} {k : Nat} {fused kept : List (Text × F)}
  {hydrated : List (HydratedHit × F)}

/-- A survivor of stage A is a hit, is after the first `k`, or repeats an earlier hit. -/
theorem accounted_of_survivor (hloc : ix.toDb.Located)
    (hmap : hydrated.map (fun hit => (hit.1.chunkId, hit.2)) = kept.take k)
    (hrows : ∀ hit ∈ hydrated, ∃ c ∈ ix.chunks.rows, hit.1 = hydratedHit ix c)
    {cand : Text × F} (hkept : cand ∈ kept) :
    (∃ hit ∈ (keepFirst (sameContent U) hydrated).map toHit,
      hit.id = cand.1 ∧ hit.score = cand.2) ∨
    Dropped U ix k fused kept ((keepFirst (sameContent U) hydrated).map toHit) cand := by
  obtain ⟨pre, post, hsplit⟩ := List.append_of_mem hkept
  by_cases hk : k ≤ pre.length
  · exact .inr (.crowdedOut pre post hsplit hk)
  · -- the candidate is among the first `k`, so it was hydrated
    obtain ⟨n, hn⟩ : ∃ n, k = pre.length + (n + 1) := ⟨k - pre.length - 1, by omega⟩
    have htake : kept.take k = pre ++ cand :: post.take n := by
      rw [hsplit, hn, List.take_length_add_append, List.take_succ_cons]
    rw [htake] at hmap
    obtain ⟨hpre, rest, rfl, hmpre, hmrest⟩ := List.map_eq_append_iff.1 hmap
    obtain ⟨entry, hpost, rfl, hentry, -⟩ := List.map_eq_cons_iff.1 hmrest
    have hmem : entry ∈ hpre ++ entry :: hpost := List.mem_append_right _ List.mem_cons_self
    have hcid : entry.1.chunkId = cand.1 := congrArg Prod.fst hentry
    rcases kept_or_dup (sameContent U) hpre entry hpost with hreturned | ⟨hit, hhit, hdup⟩
    · exact .inl ⟨toHit entry, List.mem_map_of_mem hreturned,
        (id_toHit hloc (hrows entry hmem)).trans hcid, congrArg Prod.snd hentry⟩
    · have hbefore : hit ∈ hpre := (keepFirst_sublist _ _).subset hhit
      obtain ⟨c, hc, heq⟩ := hrows entry hmem
      refine .inr (.repeats (toHit hit) ?_ ⟨pre.map Prod.fst, post.map Prod.fst, ?_, ?_⟩ c hc ?_ ?_)
      · exact List.mem_map_of_mem ((prefix_keepFirst _ _ _).subset hhit)
      · rw [hsplit, List.map_append, List.map_cons]
      · rw [id_toHit hloc (hrows hit (List.mem_append_left _ hbefore)), ← hmpre, List.map_map]
        exact List.mem_map_of_mem (f := fun hit : HydratedHit × F => hit.1.chunkId) hbefore
      · rw [← hcid, heq]
        rfl
      · rw [← heq]
        exact sameContent_iff.1 hdup

/-- What stage B and the truncation make of the survivors. -/
theorem answer_of_survivors (hloc : ix.toDb.Located) (hs : Survivors ix fused kept)
    (hmap : hydrated.map (fun hit => (hit.1.chunkId, hit.2)) = kept.take k)
    (hrows : ∀ hit ∈ hydrated, ∃ c ∈ ix.chunks.rows, hit.1 = hydratedHit ix c) :
    Answer U ix k fused kept ((keepFirst (sameContent U) hydrated).map toHit) := by
  have hsub := keepFirst_sublist (sameContent U) hydrated
  have hid : ∀ entry ∈ hydrated, (toHit entry).id = entry.1.chunkId := fun entry hentry =>
    id_toHit hloc (hrows entry hentry)
  constructor
  · have hlen := congrArg List.length hmap
    rw [List.length_map, List.length_take] at hlen
    have hle := hsub.length_le
    rw [List.length_map]
    omega
  · intro hit hhit
    obtain ⟨entry, hentry, rfl⟩ := List.mem_map.1 hhit
    have hmem := hsub.subset hentry
    rw [hid entry hmem]
    refine List.mem_of_mem_take (i := k) ?_
    rw [← hmap]
    exact List.mem_map_of_mem hmem
  · have hids : hydrated.map (fun entry => (toHit entry).id) = (kept.take k).map Prod.fst := by
      rw [← hmap, List.map_map]
      exact List.map_congr_left hid
    refine nodup_places ?_
    rw [List.map_map]
    refine (hsub.map _).nodup ?_
    show (hydrated.map fun entry => (toHit entry).id).Nodup
    rw [hids]
    exact ((List.take_sublist k kept).map Prod.fst).nodup hs.nodup
  · have hapart : hydrated.Pairwise fun a b =>
        ¬ Overlap ix (a.1.chunkId, a.2) (b.1.chunkId, b.2) := by
      rw [← List.pairwise_map (f := fun hit : HydratedHit × F => (hit.1.chunkId, hit.2))
        (R := fun a b => ¬ Overlap ix a b), hmap]
      exact hs.apart.sublist (List.take_sublist k kept)
    rw [List.pairwise_map]
    exact (hapart.sublist hsub).imp_of_mem fun ha hb hno =>
      apart_toHit (hrows _ (hsub.subset ha)) (hrows _ (hsub.subset hb)) hno
  · exact different_toHit hydrated
  · intro cand hcand
    rcases hs.dropped cand hcand with hkept | ⟨other, hbefore, hover⟩
    · exact accounted_of_survivor hloc hmap hrows hkept
    · exact .inr (.overlaps other hbefore hover)

end

end

section
variable {F : Type} [Field F] [LinearOrder F]

/-- Of a state that any number of connections reached on a new database, and with a database
that stays as the search opened it: the hits have the shape of an answer to some fused list of
stored chunks and its survivors, and are by score when diversity is not asked for. -/
theorem search_code_shape {ι : Type} [DecidableEq ι] (M : Machine F) (req : SearchCodeParams F)
    (s : Connections ι)
    (hreach : Pool.Reachable engine anyOutcome nextWalked (idlePool ι Phase Db.empty) s)
    (ix : Index) (hopen : Finishes engine anyOutcome (openIndex M.embedder) s.db (.ok ()) ix.toDb)
    (hits : List (SearchHit F)) (h : searchCode M ix req = .ok hits) :
    (∃ fused kept, fusedCandidates M ix req = .ok fused ∧ survivors M ix req fused = .ok kept ∧
      Answer M.chars ix (req.k.getD defaultK) fused kept hits) ∧
    (req.diversify.getD false = false → hits.Pairwise fun a b => b.score ≤ a.score) := by
  have hempty : Db.empty.Located := fun row hrow => by cases hrow
  have hloc : ix.toDb.Located := located_openIndex hopen (reachable_located hempty hreach)
  unfold searchCode at h
  obtain ⟨fused, hfused, h⟩ := bind_eq_ok.1 h
  obtain ⟨kept, hkept, h⟩ := bind_eq_ok.1 h
  obtain ⟨hydrated, hhydrated, h⟩ := bind_eq_ok.1 h
  have hits_eq : hits = (keepFirst (sameContent M.chars) hydrated).map toHit := by
    cases h
    rw [dedupContent_eq]
    rfl
  subst hits_eq
  have hcand := candidates_fused hfused
  have hsurv := survivors_spec hloc hcand hkept
  have hstored : ∀ cand ∈ kept.take (req.k.getD defaultK), Stored ix cand.1 :=
    fun cand hcand' => hcand.stored cand (hsurv.sub cand (List.mem_of_mem_take hcand'))
  obtain ⟨hmap, hrows⟩ := hydrateAll_spec hstored hhydrated
  refine ⟨⟨fused, kept, hfused, hkept, answer_of_survivors hloc hsurv hmap hrows⟩, fun hdiv => ?_⟩
  have hsorted : (hydrated.map fun hit => (hit.1.chunkId, hit.2)).Pairwise fun a b => b.2 ≤ a.2 := by
    rw [hmap, (perm_survivors hkept).2 hdiv]
    exact (hcand.sorted.sublist (keepFirst_sublist _ fused)).sublist (List.take_sublist _ _)
  rw [List.pairwise_map] at hsorted ⊢
  exact hsorted.sublist (keepFirst_sublist _ hydrated)

end

/-! ## Searching the one file -/

/-- A connection opens a new database, migrates it and indexes the one file. -/
def oneFileIndexed : Connections (Fin 2) :=
  runBy 0 (migrateBy 0 30 (openBy 0 (idlePool (Fin 2) Phase Db.empty)))

/-- What it stores. -/
def oneFileIndex : Index :=
  { width := 1
    chunks := ⟨[⟨⟨"a:1-1".toList, "a".toList, 1, 1, "a".toList, some "window".toList⟩, 7⟩], by simp⟩
    vec := ⟨[⟨7, [0, 0, 0, 0]⟩], by simp⟩
    fts := ⟨[⟨7, "a".toList⟩], by simp⟩
    symbols := .empty
    imports := []
    exports := []
    files := ⟨[filesRow ⟨"a".toList, none, "a\n".toList⟩ (Deps.plain.blake3Hex "a\n".toList) 0
      (repoIdFor .plain "/old".toList)], by simp⟩
    metaRows := ⟨[⟨metaSchemaVersion, "1".toList⟩, ⟨metaEmbedderId, "m".toList⟩,
      ⟨metaEmbedderDim, "1".toList⟩], by decide +kernel⟩ }

/-- Every row matches every query, in the order of the table, and no query fails. -/
def plainMachine : Machine Rat where
  sqlite := { bm25 := fun fts _ => fts.rows.map fun r => (r.rowid, 0)
              knn := fun vec _ _ => vec.rows.map fun v => (v.rowid, 0)
              fails := fun _ => none }
  chars := .ascii
  embedder := { oneFileEmbedder with embedQuery := fun _ => [0] }
  floats := ⟨fun _ => 0, fun _ => 0⟩
  order := .listed

/-- The connection opens and migrates the database, then runs over a tree. -/
def indexedBy (view : RepoView) (os : List (Outcome RowId SqlError)) : Connections (Fin 2) :=
  let s := migrateBy 0 30 (openBy 0 (idlePool (Fin 2) Phase Db.empty))
  (s.launch 0 (.running .plain oneFileEmbedder view false)
    (Phase.prog (.running .plain oneFileEmbedder view false))).play engine 0 os

theorem reachable_indexedBy {view : RepoView} {os : List (Outcome RowId SqlError)}
    (hwalk : ∀ f ∈ view.walked, Walkable f.content)
    (hplay : let s := migrateBy 0 30 (openBy 0 (idlePool (Fin 2) Phase Db.empty))
      (s.launch 0 (.running .plain oneFileEmbedder view false)
        (Phase.prog (.running .plain oneFileEmbedder view false))).playable engine
          (fun _ _ _ => true) 0 os = true) :
    Pool.Reachable engine anyOutcome nextWalked (idlePool (Fin 2) Phase Db.empty)
      (indexedBy view os) := by
  have play : ∀ {n : Nat} {s : Connections (Fin 2)},
      Pool.Reachable engine anyOutcome nextWalked (idlePool (Fin 2) Phase Db.empty) s →
      s.playable engine (fun _ _ _ => true) 0 (succeed n) = true →
      Pool.Reachable engine anyOutcome nextWalked (idlePool (Fin 2) Phase Db.empty)
        (s.play engine 0 (succeed n)) :=
    fun h hok => Pool.reachable_play h (fun _ _ _ _ _ _ => trivial) hok
  have opened : Pool.Reachable engine anyOutcome nextWalked (idlePool (Fin 2) Phase Db.empty)
      (openBy 0 (idlePool (Fin 2) Phase Db.empty)) :=
    play (Pool.reachable_launch .refl (fun ℓ p hj => by cases hj) ⟨⟨rfl, rfl⟩, trivial⟩)
      (by decide +kernel)
  have migrated : Pool.Reachable engine anyOutcome nextWalked (idlePool (Fin 2) Phase Db.empty)
      (migrateBy 0 30 (openBy 0 (idlePool (Fin 2) Phase Db.empty))) :=
    play (Pool.reachable_launch opened (fun ℓ p hj => by cases hj; rfl)
      (show nextWalked _ .migrating _ from ⟨⟨⟨1, rfl⟩, rfl⟩, trivial⟩)) (by decide +kernel)
  have hreturned : ((migrateBy 0 30 (openBy 0 (idlePool (Fin 2) Phase Db.empty))).client 0).job =
      some (.migrating, .pure ()) := migrateBy_returned (by decide +kernel)
  refine Pool.reachable_play (Pool.reachable_launch migrated (fun ℓ p hj => ?_)
    (show nextWalked _ (.running .plain oneFileEmbedder view false) _ from
      ⟨⟨hreturned, rfl⟩, hwalk⟩)) (fun _ _ _ _ _ _ => trivial) hplay
  rw [hreturned] at hj
  cases hj
  rfl

theorem reachable_oneFileIndexed : Pool.Reachable engine anyOutcome nextWalked
    (idlePool (Fin 2) Phase Db.empty) oneFileIndexed := by
  refine @reachable_indexedBy oneFileView (succeed 40) (fun f hf => ?_) (by decide +kernel)
  rw [List.mem_singleton.1 hf]
  exact ⟨by decide +kernel, by decide +kernel⟩

/-! ## Searching three files -/

/-- Two files of one content and one of another. -/
def threeFileView : RepoView := plainView "/old".toList
  [("a".toList, "a\n".toList), ("b".toList, "a\n".toList), ("c".toList, "b\n".toList)]

/-- Requests that all succeed, each with a rowid of its own. -/
def numbered (n : Nat) : List (Outcome RowId SqlError) := (List.range n).map fun i => .run (i + 1)

def threeFilesIndexed : Connections (Fin 2) := indexedBy threeFileView (numbered 80)

theorem walkable_threeFileView : ∀ f ∈ threeFileView.walked, Walkable f.content := by
  unfold Walkable
  decide +kernel

theorem reachable_threeFilesIndexed : Pool.Reachable engine anyOutcome nextWalked
    (idlePool (Fin 2) Phase Db.empty) threeFilesIndexed :=
  @reachable_indexedBy threeFileView (numbered 80) walkable_threeFileView (by decide +kernel)

/-- The chunk of a file of one line. -/
def lineRow (path line : Text) (rowid : RowId) : ChunkRow :=
  ⟨⟨path ++ ":1-1".toList, path, 1, 1, line, some "window".toList⟩, rowid⟩

def threeChunks : List ChunkRow :=
  [lineRow "a".toList "a".toList 17, lineRow "b".toList "a".toList 30,
    lineRow "c".toList "b".toList 43]

def threeFiles : List FileRow :=
  threeFileView.walked.map fun f =>
    filesRow f (Deps.plain.blake3Hex f.content) 0 (repoIdFor .plain "/old".toList)

theorem distinct_threeChunks : threeChunks.Pairwise fun a b => ¬ ChunkRow.clash a b := by
  decide +kernel

theorem distinct_threeVectors :
    (threeChunks.map fun c => (⟨c.rowid, [0, 0, 0, 0]⟩ : VecRow)).Pairwise
      fun a b => ¬ VecRow.clash a b := by
  decide +kernel

theorem distinct_threeTexts :
    (threeChunks.map fun c => (⟨c.rowid, c.body⟩ : FtsRow)).Pairwise fun a b => ¬ FtsRow.clash a b := by
  decide +kernel

theorem distinct_threeFiles : threeFiles.Pairwise fun a b => ¬ FileRow.clash a b := by
  decide +kernel

/-- What is stored of them. -/
def threeFileIndex : Index :=
  { oneFileIndex with
    chunks := ⟨threeChunks, distinct_threeChunks⟩
    vec := ⟨threeChunks.map fun c => ⟨c.rowid, [0, 0, 0, 0]⟩, distinct_threeVectors⟩
    fts := ⟨threeChunks.map fun c => ⟨c.rowid, c.body⟩, distinct_threeTexts⟩
    files := ⟨threeFiles, distinct_threeFiles⟩ }

/-- By words more than by vectors, and diversified. -/
def diverseRequest : SearchCodeParams Rat :=
  ⟨"a".toList, some 3, some 10, some (.finite 2), none, none, some true, none⟩

/-- Of the two equal contents the second is dropped. -/
theorem search_code_shape_threeFiles : ∃ hits : List (SearchHit Rat),
    searchCode plainMachine threeFileIndex diverseRequest = .ok hits ∧
    hits.map SearchHit.id = ["a:1-1".toList, "c:1-1".toList] ∧
    ∃ fused kept, Answer .ascii threeFileIndex 3 fused kept hits ∧
      ∃ cand ∈ fused, cand.1 = "b:1-1".toList ∧ Dropped .ascii threeFileIndex 3 fused kept hits cand := by
  have hopen : Finishes engine anyOutcome (openIndex plainMachine.embedder) threeFilesIndexed.db
      (.ok ()) threeFileIndex.toDb := by
    have hdb : threeFileIndex.toDb =
        (replay engine (succeed 40) (openIndex plainMachine.embedder) threeFilesIndexed.db .idle).2.1 := by
      decide +kernel
    rw [hdb]
    exact finishes_replay (fun o (_ : o ∈ succeed 40) _ _ _ => trivial) (by decide +kernel)
  have hfound : (searchCode plainMachine threeFileIndex diverseRequest).toOption.map
      (fun hits => hits.map SearchHit.id) = some ["a:1-1".toList, "c:1-1".toList] := by decide +kernel
  have hranked : (fusedCandidates plainMachine threeFileIndex diverseRequest).toOption.map
      (fun fused => fused.map Prod.fst) = some ["a:1-1".toList, "b:1-1".toList, "c:1-1".toList] := by
    decide +kernel
  cases hrun : searchCode plainMachine threeFileIndex diverseRequest with
  | error e =>
    rw [hrun] at hfound
    cases hfound
  | ok hits =>
    rw [hrun] at hfound
    have hids : hits.map SearchHit.id = ["a:1-1".toList, "c:1-1".toList] := Option.some.inj hfound
    obtain ⟨⟨fused, kept, hfused, -, hanswer⟩, -⟩ := search_code_shape plainMachine diverseRequest
      threeFilesIndexed reachable_threeFilesIndexed threeFileIndex hopen hits hrun
    rw [hfused] at hranked
    have hmem : "b:1-1".toList ∈ fused.map Prod.fst := by
      rw [show fused.map Prod.fst = _ from Option.some.inj hranked]
      decide
    obtain ⟨cand, hcand, hid⟩ := List.mem_map.1 hmem
    refine ⟨hits, rfl, hids, fused, kept, hanswer, cand, hcand, hid, ?_⟩
    refine (hanswer.accounted cand hcand).resolve_left ?_
    rintro ⟨hit, hhit, hhid, -⟩
    have hmem : hit.id ∈ hits.map SearchHit.id := List.mem_map_of_mem hhit
    rw [hids, hhid, hid] at hmem
    exact absurd hmem (by decide)

/-! ## What ids say -/

/-- Of any path and lines, and so of every chunk any number of connections stored in any
interleaving: the id decodes, and stage A and the boost go by the stored path. -/
theorem chunk_id_decodes {ι : Type} [DecidableEq ι] (s : Connections ι)
    (hreach : Pool.Reachable engine anyOutcome nextWalked (idlePool ι Phase Db.empty) s) :
    (∀ (path : Text) (start fin : Nat), start < 2 ^ 63 → fin < 2 ^ 63 →
      parseChunkId (chunkId path start fin) = some (path, (start : Int), (fin : Int))) ∧
    (∀ (path path' : Text) (start start' fin fin' : Nat),
      chunkId path start fin = chunkId path' start' fin' →
        path = path' ∧ start = start' ∧ fin = fin') ∧
    ∀ c ∈ s.db.chunkRows,
      parseChunkId c.id = some (c.filePath, (c.startLine : Int), (c.endLine : Int)) ∧
      (∀ files, inFiles files c.id = decide (c.filePath ∈ files)) ∧
      ∀ d ∈ s.db.chunkRows,
        (c.id = d.id → (c.filePath, c.startLine, c.endLine) = (d.filePath, d.startLine, d.endLine)) ∧
        overlapsKept c.id d.id = (decide (d.filePath = c.filePath) &&
          decide (overlapLimit < overlapFraction ((c.startLine : Int), (c.endLine : Int))
            ((d.startLine : Int), (d.endLine : Int)))) := by
  have hempty : Db.empty.Located := fun row hrow => by cases hrow
  have hloc : s.db.Located := reachable_located hempty hreach
  refine ⟨fun path _ _ hs hf => parseChunkId_chunkId path hs hf,
    fun _ _ _ _ _ _ h => chunkId_injective h, fun c hc => ?_⟩
  have hdec := (hloc c hc).decodes
  refine ⟨hdec, fun files => ?_, fun d hd => ⟨fun hid => ?_, ?_⟩⟩
  · unfold inFiles
    rw [hdec]
  · rw [(hloc c hc).id, (hloc d hd).id] at hid
    obtain ⟨hpath, hstart, hfin⟩ := chunkId_injective hid
    rw [hpath, hstart, hfin]
  · unfold overlapsKept
    rw [hdec, (hloc d hd).decodes]

theorem chunk_id_decodes_oneFile :
    parseChunkId (chunkId "a:1-2".toList 3 4) = some ("a:1-2".toList, 3, 4) ∧
    ∀ c ∈ oneFileIndexed.db.chunkRows,
      parseChunkId c.id = some (c.filePath, (c.startLine : Int), (c.endLine : Int)) := by
  obtain ⟨decodes, -, hstored⟩ := chunk_id_decodes oneFileIndexed reachable_oneFileIndexed
  exact ⟨decodes _ 3 4 (by decide) (by decide), fun c hc => (hstored c hc).1⟩

end CodeSearch
