import Mathlib.Data.List.Dedup
import CodeSearch.ChunkId
import CodeSearch.Db
import CodeSearch.Fusion
import CodeSearch.Tokens

/-!
# The structural boost

`applyStructuralBoost` raises the scores of the files that import something the
query names, and sorts again, by score and then by id: the BM25 ranks, which
decided ties in the fusion, are not at hand here.  So candidates of one kind keep
their order where their scores differ (`structural_boost_spec`), and ties are put
in the order of their ids (`structural_boost_reorders_ties`).
-/

namespace CodeSearch

open Ranking

section
variable {F : Type} [Field F]

/-- `STRUCTURAL_BOOST`. -/
def structuralBoost : F := 1 / 100

/-- The candidate's file, if its id has one, is boosted. -/
def inFiles (files : List Text) (id : Text) : Bool :=
  match parseChunkId id with
  | some (path, _, _) => decide (path ∈ files)
  | none => false

/-- One round of the scoring loop. -/
def boostEntry (files : List Text) (entry : Text × F) : Text × F :=
  if inFiles files entry.1 then (entry.1, entry.2 + structuralBoost) else entry

variable [LinearOrder F]

/-- Score descending, id ascending. -/
def boostCmp (a b : Text × F) : Ordering := (compare b.2 a.2).then (compare a.1 b.1)

/-- The files of imports whose source shares a token with the query. -/
def boostedFiles (U : CharTables) (imports : List ImportRow) (query : Text) : List Text :=
  let rows := (imports.map fun r => (r.filePath, r.source)).dedup
  (rows.filter fun row => (codeTokens U row.2).any (· ∈ codeTokens U query)).map Prod.fst

/-- Raise the candidates of those files and sort again. -/
def applyStructuralBoost (U : CharTables) (imports : List ImportRow) (query : Text)
    (fused : List (Text × F)) : List (Text × F) :=
  if (codeTokens U query).isEmpty || fused.isEmpty then fused
  else if (boostedFiles U imports query).isEmpty then fused
  else sortBy boostCmp (fused.map (boostEntry (boostedFiles U imports query)))

end

/-! ## Which candidates are boosted -/

variable {U : CharTables} {imports : List ImportRow} {query : Text}

/-- The source of the import shares a token with the query. -/
def Names (U : CharTables) (query : Text) (r : ImportRow) : Prop :=
  ∃ t ∈ codeTokens U r.source, t ∈ codeTokens U query

/-- The candidate's file has such an import. -/
def Boosted (U : CharTables) (imports : List ImportRow) (query id : Text) : Prop :=
  ∃ path start fin, parseChunkId id = some (path, start, fin) ∧
    ∃ r ∈ imports, r.filePath = path ∧ Names U query r

theorem mem_boostedFiles {path : Text} : path ∈ boostedFiles U imports query ↔
    ∃ r ∈ imports, r.filePath = path ∧ Names U query r := by
  unfold boostedFiles Names
  simp only [List.mem_map, List.mem_filter, List.mem_dedup, List.any_eq_true, decide_eq_true_eq]
  constructor
  · rintro ⟨_, ⟨⟨r, hr, rfl⟩, hnames⟩, rfl⟩
    exact ⟨r, hr, rfl, hnames⟩
  · rintro ⟨r, hr, rfl, hnames⟩
    exact ⟨_, ⟨⟨r, hr, rfl⟩, hnames⟩, rfl⟩

theorem inFiles_iff {id : Text} : inFiles (boostedFiles U imports query) id = true ↔
    Boosted U imports query id := by
  unfold inFiles Boosted
  cases parseChunkId id with
  | none => simp
  | some p =>
    obtain ⟨path, start, fin⟩ := p
    rw [decide_eq_true_iff, mem_boostedFiles]
    constructor
    · intro h
      exact ⟨path, start, fin, rfl, h⟩
    · rintro ⟨_, _, _, heq, h⟩
      cases heq
      exact h

theorem boostedFiles_isEmpty :
    (boostedFiles U imports query).isEmpty = true ↔ ∀ r ∈ imports, ¬ Names U query r := by
  rw [List.isEmpty_iff, List.eq_nil_iff_forall_not_mem]
  constructor
  · intro h r hr hn
    exact h _ (mem_boostedFiles.2 ⟨r, hr, rfl, hn⟩)
  · intro h path hp
    obtain ⟨r, hr, -, hn⟩ := mem_boostedFiles.1 hp
    exact h r hr hn

section
variable {F : Type} [Field F]

@[simp] theorem boostEntry_fst (files : List Text) (entry : Text × F) :
    (boostEntry files entry).1 = entry.1 := by
  unfold boostEntry
  split <;> rfl

end

section
variable {F : Type} [LinearOrder F]

instance transCmp_boostCmp : Std.TransCmp (boostCmp : Text × F → Text × F → Ordering) :=
  inferInstanceAs (Std.TransCmp (compareLex (fun a b : Text × F => compareOn Prod.snd b a)
    (compareOn Prod.fst)))

theorem boostCmp_eq_lt {a b : Text × F} :
    boostCmp a b = .lt ↔ b.2 < a.2 ∨ b.2 = a.2 ∧ compare a.1 b.1 = .lt := by
  unfold boostCmp
  rw [Ordering.then_eq_lt, compare_lt_iff_lt, compare_eq_iff_eq]

theorem fst_eq_of_boostCmp {a b : Text × F} (h : boostCmp a b = .eq) : a.1 = b.1 := by
  unfold boostCmp at h
  rw [Ordering.then_eq_eq] at h
  exact Std.LawfulEqOrd.eq_of_compare h.2

theorem boostCmp_strict {fused : List (Text × F)} (hd : (fused.map Prod.fst).Nodup) :
    (sortBy boostCmp fused).Pairwise fun a b => boostCmp a b = .lt :=
  sortBy_strict ((List.pairwise_map.1 hd).imp fun h he => h (fst_eq_of_boostCmp he))

end

/-! ## The result of a boost -/

section
variable {F : Type} [Field F] {fused : List (Text × F)}

instance decidableBoosted (id : Text) : Decidable (Boosted U imports query id) :=
  decidable_of_iff _ inFiles_iff

/-- The candidate's score after the boost. -/
def boostedScore (U : CharTables) (imports : List ImportRow) (query : Text) (entry : Text × F) : F :=
  if Boosted U imports query entry.1 then entry.2 + structuralBoost else entry.2

theorem boostEntry_eq (entry : Text × F) : boostEntry (boostedFiles U imports query) entry =
    (entry.1, boostedScore U imports query entry) := by
  unfold boostEntry boostedScore
  by_cases h : Boosted U imports query entry.1
  · rw [if_pos (inFiles_iff.2 h), if_pos h]
  · rw [if_neg (mt inFiles_iff.1 h), if_neg h]

theorem map_boosted_fst : (fused.map fun e => (e.1, boostedScore U imports query e)).map Prod.fst =
    fused.map Prod.fst := by
  rw [List.map_map]
  rfl

/-- Where no import names the query, no candidate is boosted. -/
theorem map_boosted_of_not_names (h : (∀ r ∈ imports, ¬ Names U query r) ∨ fused = []) :
    (fused.map fun e => (e.1, boostedScore U imports query e)) = fused := by
  rcases h with h | rfl
  · have hno : ∀ e ∈ fused, (e.1, boostedScore U imports query e) = id e := by
      intro e _
      unfold boostedScore
      rw [if_neg]
      · rfl
      · rintro ⟨path, start, fin, -, r, hr, -, hn⟩
        exact h r hr hn
    rw [List.map_congr_left hno, List.map_id]
  · rfl

/-- Two candidates raised alike. -/
theorem boostedScore_alike {a b : Text × F}
    (h : Boosted U imports query a.1 ↔ Boosted U imports query b.1) :
    ∃ δ, boostedScore U imports query a = a.2 + δ ∧ boostedScore U imports query b = b.2 + δ := by
  unfold boostedScore
  by_cases ha : Boosted U imports query a.1
  · exact ⟨structuralBoost, if_pos ha, if_pos (h.1 ha)⟩
  · exact ⟨0, by rw [if_neg ha, add_zero], by rw [if_neg (mt h.2 ha), add_zero]⟩

section
variable [LinearOrder F]

/-- Either nothing imports what the query names, and nothing happens, or the
candidates are raised and sorted. -/
theorem applyStructuralBoost_cases (U : CharTables) (imports : List ImportRow) (query : Text)
    (fused : List (Text × F)) :
    ((∀ r ∈ imports, ¬ Names U query r) ∨ fused = []) ∧
      applyStructuralBoost U imports query fused = fused ∨
    (∃ r ∈ imports, Names U query r) ∧ applyStructuralBoost U imports query fused =
      sortBy boostCmp (fused.map fun e => (e.1, boostedScore U imports query e)) := by
  unfold applyStructuralBoost
  by_cases hfused : fused = []
  · exact .inl ⟨.inr hfused, by rw [if_pos (by simp [hfused])]⟩
  by_cases hnames : ∀ r ∈ imports, ¬ Names U query r
  · refine .inl ⟨.inl hnames, ?_⟩
    rw [if_pos (boostedFiles_isEmpty.2 hnames), ite_self]
  · refine .inr ⟨by simpa using hnames, ?_⟩
    have htokens : ¬ ((codeTokens U query).isEmpty || fused.isEmpty) = true := by
      intro h
      rw [Bool.or_eq_true, List.isEmpty_iff, List.isEmpty_iff] at h
      refine h.elim (fun hq => hnames fun r _ hn => ?_) hfused
      obtain ⟨t, -, ht⟩ := hn
      rw [hq] at ht
      cases ht
    rw [if_neg htokens, if_neg (mt boostedFiles_isEmpty.1 hnames)]
    exact congrArg _ (List.map_congr_left fun e _ => boostEntry_eq e)

theorem perm_applyStructuralBoost : (applyStructuralBoost U imports query fused).Perm
    (fused.map fun e => (e.1, boostedScore U imports query e)) := by
  rcases applyStructuralBoost_cases U imports query fused with ⟨h, heq⟩ | ⟨-, heq⟩
  · rw [heq, map_boosted_of_not_names h]
  · rw [heq]
    exact sortBy_perm _ _

theorem sorted_applyStructuralBoost (hs : fused.Pairwise fun a b => b.2 ≤ a.2) :
    (applyStructuralBoost U imports query fused).Pairwise fun a b => b.2 ≤ a.2 := by
  rcases applyStructuralBoost_cases U imports query fused with ⟨-, heq⟩ | ⟨-, heq⟩
  · rwa [heq]
  · rw [heq]
    refine (sortBy_pairwise _).imp fun {a b} h => ?_
    by_contra hlt
    have hgt : compare b.2 a.2 = .gt := compare_gt_iff_gt.2 (not_le.1 hlt)
    unfold boostCmp at h
    rw [hgt] at h
    cases h

/-- Two candidates raised alike: the higher score is still first, and when the
list is sorted again equal scores are in the order of the ids. -/
theorem before_applyStructuralBoost [IsStrictOrderedRing F] (hd : (fused.map Prod.fst).Nodup)
    {a b : Text × F} (ha : a ∈ fused) (hb : b ∈ fused)
    (hsame : Boosted U imports query a.1 ↔ Boosted U imports query b.1) (hne : a.1 ≠ b.1)
    (h : b.2 < a.2 ∧ fused.Pairwise (fun a b => b.2 ≤ a.2) ∨
      b.2 = a.2 ∧ (∃ r ∈ imports, Names U query r) ∧ compare a.1 b.1 = .lt) :
    firstRank ((applyStructuralBoost U imports query fused).map Prod.fst) a.1 <
      firstRank ((applyStructuralBoost U imports query fused).map Prod.fst) b.1 := by
  rcases applyStructuralBoost_cases U imports query fused with ⟨hno, heq⟩ | ⟨-, heq⟩
  · rw [heq]
    rcases h with ⟨hlt, hs⟩ | ⟨-, ⟨r, hr, hn⟩, -⟩
    · exact key_lt_of_rel hs hd ha hb hne (not_le.2 hlt)
    · rcases hno with hno | rfl
      · exact absurd hn (hno r hr)
      · cases ha
  · rw [heq]
    let raise : Text × F → Text × F := fun e => (e.1, boostedScore U imports query e)
    have hd' : ((fused.map raise).map Prod.fst).Nodup := by rwa [map_boosted_fst]
    have hlt : boostCmp (raise a) (raise b) = .lt := by
      obtain ⟨δ, hδa, hδb⟩ := boostedScore_alike hsame
      rw [boostCmp_eq_lt]
      show boostedScore U imports query b < boostedScore U imports query a ∨
        boostedScore U imports query b = boostedScore U imports query a ∧ _
      rw [hδa, hδb]
      rcases h with ⟨hlt, -⟩ | ⟨hsc, -, hid⟩
      · exact .inl (add_lt_add_left hlt δ)
      · exact .inr ⟨by rw [hsc], hid⟩
    refine key_lt_of_rel (a := raise a) (b := raise b) (boostCmp_strict hd')
      (((sortBy_perm _ _).map Prod.fst).nodup_iff.2 hd')
      (mem_sortBy.2 (List.mem_map_of_mem ha)) (mem_sortBy.2 (List.mem_map_of_mem hb)) hne
      fun hgt => ?_
    have hswap := Std.OrientedCmp.gt_of_lt hlt
    rw [hgt] at hswap
    cases hswap

end

end

/-- The boost of a fused list: a permutation that raises exactly the boosted
candidates and is sorted by score; two candidates of one kind keep their order if
their scores differ, and if something the query names is imported, equal scores are
in the order of the ids; otherwise nothing changes. -/
theorem structural_boost_spec {F : Type} [Field F] [LinearOrder F] [IsStrictOrderedRing F]
    (U : CharTables) (imports : List ImportRow) (query : Text) (u : Sums) (order : Order Text F)
    (bm25 : List (Text × Float)) (vector : List KnnHit) (kRrf : Nat) (bm25Weight vectorWeight : F) :
    let fused := rrfFuseWeighted u order bm25 vector kRrf bm25Weight vectorWeight
    let out := applyStructuralBoost U imports query fused
    out.Perm (fused.map fun e =>
      (e.1, if Boosted U imports query e.1 then e.2 + structuralBoost else e.2)) ∧
    out.Pairwise (fun a b => b.2 ≤ a.2) ∧
    (∀ a ∈ fused, ∀ b ∈ fused, (Boosted U imports query a.1 ↔ Boosted U imports query b.1) →
      firstRank (fused.map Prod.fst) a.1 < firstRank (fused.map Prod.fst) b.1 → a.2 ≠ b.2 →
      firstRank (out.map Prod.fst) a.1 < firstRank (out.map Prod.fst) b.1) ∧
    (∀ a ∈ fused, ∀ b ∈ fused, (Boosted U imports query a.1 ↔ Boosted U imports query b.1) →
      a.2 = b.2 → (∃ r ∈ imports, Names U query r) → compare a.1 b.1 = .lt →
      firstRank (out.map Prod.fst) a.1 < firstRank (out.map Prod.fst) b.1) ∧
    ((∀ r ∈ imports, ¬ Names U query r) → out = fused) := by
  intro fused out
  have hd : (fused.map Prod.fst).Nodup := nodup_rrfFuseWeighted
  have hs : fused.Pairwise fun a b => b.2 ≤ a.2 :=
    ranked_rrfFuseWeighted.imp fun {a b} h => h.elim le_of_lt fun h => h.1.ge
  refine ⟨perm_applyStructuralBoost, sorted_applyStructuralBoost hs,
    fun a ha b hb hsame hab hne => ?_, fun a ha b hb hsame heq hn hid => ?_, fun hno => ?_⟩
  · have hid : a.1 ≠ b.1 := by
      intro h
      rw [h] at hab
      exact lt_irrefl _ hab
    exact before_applyStructuralBoost hd ha hb hsame hid
      (.inl ⟨(rel_of_key_lt hs hd ha hb hab).lt_of_ne (Ne.symm hne), hs⟩)
  · have hne : a.1 ≠ b.1 := by
      intro h
      have hself : compare b.1 b.1 = .eq := Std.ReflCmp.compare_self
      rw [h, hself] at hid
      cases hid
    exact before_applyStructuralBoost hd ha hb hsame hne (.inr ⟨heq.symm, hn, hid⟩)
  · rcases applyStructuralBoost_cases U imports query fused with ⟨-, heq⟩ | ⟨⟨r, hr, hn⟩, -⟩
    · exact heq
    · exact absurd hn (hno r hr)

/-- The file that imports what the query names goes first. -/
theorem structural_boost_spec_raised :
    applyStructuralBoost (F := Rat) .ascii [⟨"a".toList, "m".toList, [], 1⟩] "m".toList
      (rrfFuseWeighted .exact .listed [("b:1-1".toList, -1)] [⟨"a:1-1".toList, 0⟩] 60 1 1) =
      [("a:1-1".toList, 1 / 61 + 1 / 100), ("b:1-1".toList, 1 / 61)] ∧
    (applyStructuralBoost (F := Rat) .ascii [⟨"a".toList, "m".toList, [], 1⟩] "m".toList
      (rrfFuseWeighted .exact .listed [("b:1-1".toList, -1)] [⟨"a:1-1".toList, 0⟩] 60 1
        1)).Pairwise (fun a b => b.2 ≤ a.2) :=
  ⟨by decide +kernel, (structural_boost_spec .ascii _ _ .exact .listed _ _ 60 1 1).2.1⟩

/-- A candidate of each list, neither of them in the file that imports what the
query names. -/
theorem structural_boost_reorders_ties :
    (∀ id ∈ ["b:1-1".toList, "a:1-1".toList], ¬ Boosted .ascii [⟨"c".toList, "m".toList, [], 1⟩]
      "m".toList id) ∧
    (rrfFuseWeighted (F := Rat) .exact .listed [("b:1-1".toList, -1)] [⟨"a:1-1".toList, 0⟩] 60 1
      1).map Prod.fst = ["b:1-1".toList, "a:1-1".toList] ∧
    (applyStructuralBoost .ascii [⟨"c".toList, "m".toList, [], 1⟩] "m".toList
      (rrfFuseWeighted (F := Rat) .exact .listed [("b:1-1".toList, -1)] [⟨"a:1-1".toList, 0⟩] 60 1
        1)).map Prod.fst = ["a:1-1".toList, "b:1-1".toList] :=
  ⟨by decide +kernel, by decide +kernel, by decide +kernel⟩

end CodeSearch
