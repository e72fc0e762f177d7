import CodeSearch.Fusion
import CodeSearch.Lib.Binary
import CodeSearch.Search

/-!
# The fusion in machine arithmetic

`search_code` hands on `rrf_k` and `k` as they come.  The scores are summed in `f64`
over denominators in `usize`, and `k` becomes an `i64`.  While no denominator wraps
and `k` keeps its sign everything is a number, whatever the weights
(`search_arithmetic_safe_iff`).
-/

namespace CodeSearch

open Binary Ranking

/-! ## The computation -/

/-- `k_rrf + rank + 1`. -/
def denominator64 (kRrf rank : Nat) : Nat := Sums.wrapping.add (Sums.wrapping.add kRrf rank) 1

def contribution64 (kRrf : Nat) (weight : F64) (rank : Nat) : F64 :=
  weight / Number.ofInt (denominator64 kRrf rank)

/-- One round of an accumulation loop over scores of any kind. -/
def rankStepWith {S : Type} (zero : S) (add : S → S → S) (contribution : Nat → S)
    (acc : List Text × Entries Text S) (entry : Text × Nat) : List Text × Entries Text S :=
  if entry.1 ∈ acc.1 then acc
  else
    (entry.1 :: acc.1,
      acc.2.alter entry.1 fun old => add (old.getD zero) (contribution entry.2))

/-- In exact arithmetic it is the round of `addRanks`. -/
theorem rankStep_eq {F : Type} [Field F] (u : Sums) (kRrf : Nat) (weight : F) :
    rankStep u kRrf weight = rankStepWith 0 (· + ·) fun rank => weight / u.denominator kRrf rank := rfl

/-- Accumulate one list into the fused scores. -/
def addRanks64 (kRrf : Nat) (weight : F64) (ids : List Text) (fused : Entries Text F64) :
    Entries Text F64 :=
  (ids.zipIdx.foldl (rankStepWith (.round 0) Number.add (contribution64 kRrf weight)) ([], fused)).2

/-- The scores that are sorted. -/
def fusedScores64 (bm25 vector : List Text) (kRrf : Nat) (bm25Weight vectorWeight : F64) :
    Entries Text F64 :=
  addRanks64 kRrf vectorWeight vector (addRanks64 kRrf bm25Weight bm25 .empty)

/-! ## Bounds -/

theorem denominator64_eq_iff {kRrf rank : Nat} :
    denominator64 kRrf rank = kRrf + rank + 1 ↔ kRrf + rank + 1 < 2 ^ 64 := by
  unfold denominator64 Sums.add
  dsimp only
  omega

/-- No denominator of the list wraps. -/
def NoWrap (kRrf : Nat) (ids : List Text) : Prop := ∀ id ∈ ids, kRrf + ids.idxOf id + 1 < 2 ^ 64

/-- A contribution over a denominator that does not wrap is no greater than the weight. -/
theorem contribution64_le {kRrf rank : Nat} (h : kRrf + rank + 1 < 2 ^ 64) {x : Rat}
    (hx : Binary.Fits binary64 x) :
    ∃ y hy, contribution64 kRrf (.finite x hx) rank = .finite y hy ∧ |y| ≤ |x| := by
  have hone : (1 : Rat) ≤ ((kRrf + rank + 1 : Nat) : Int) := by
    rw [Int.cast_natCast]
    exact_mod_cast Nat.succ_le_succ (Nat.zero_le (kRrf + rank))
  have hle : (((kRrf + rank + 1 : Nat) : Int) : Rat) ≤ 2 ^ (64 : Int) := by
    rw [Int.cast_natCast]
    exact_mod_cast h.le
  have hpow : (2 : Rat) ^ (0 : Int) ≤ ((kRrf + rank + 1 : Nat) : Int) := by
    rwa [zpow_zero]
  have hlow : (1 : Rat) ≤ nearest binary64 ((kRrf + rank + 1 : Nat) : Int) :=
    (zpow_zero (2 : Rat)).symm.le.trans (two_zpow_le_nearest (by decide) hpow)
  obtain ⟨hd, heq⟩ : ∃ hd, (Number.round ((kRrf + rank + 1 : Nat) : Int) : F64) = .finite _ hd :=
    Number.round_eq (k := 64) (by decide) (by decide)
      ((abs_of_pos (lt_of_lt_of_le one_pos hone)).le.trans hle)
  unfold contribution64
  rw [denominator64_eq_iff.2 h, Number.ofInt, heq]
  exact Number.div_le hx hd hlow

theorem contribution64_within {kRrf rank : Nat} (h : kRrf + rank + 1 < 2 ^ 64) {weight : F64}
    {k : Int} (hw : weight.Within k) : (contribution64 kRrf weight rank).Within k := by
  cases weight with
  | finite x hx =>
    obtain ⟨y, hy, heq, hle⟩ := contribution64_le h hx
    rw [heq]
    exact hle.trans hw
  | infinite s => exact hw.elim
  | nan => exact hw.elim

theorem contribution64_isFinite {kRrf rank : Nat} (h : kRrf + rank + 1 < 2 ^ 64) {weight : F64}
    (hw : weight.IsFinite) : (contribution64 kRrf weight rank).IsFinite := by
  cases weight with
  | finite x hx =>
    obtain ⟨y, hy, heq, -⟩ := contribution64_le h hx
    rw [heq]
    trivial
  | infinite s => exact hw.elim
  | nan => exact hw.elim

/-- The scores while a list is fused: those of its ids that it has come to are within the
next power of two already. -/
def ScoresWithin (k : Int) (seen : List Text) (fused : Entries Text F64) : Prop :=
  ∀ id score, fused.get? id = some score → score.Within (if id ∈ seen then k + 1 else k)

/-- A round with an id the list has not come to. -/
theorem ScoresWithin.alter {k : Int} {seen : List Text} {fused : Entries Text F64} {kRrf n : Nat}
    {weight : F64} {x : Text} (hk : -1074 ≤ k + 1) (hlt : k + 1 < 1024) (hw : weight.Within k)
    (hn : kRrf + n + 1 < 2 ^ 64) (hx : x ∉ seen) (h : ScoresWithin k seen fused) :
    ScoresWithin k (x :: seen) (fused.alter x fun old =>
      Number.add (old.getD (.round 0)) (contribution64 kRrf weight n)) := by
  intro id score hget
  rw [get?_alter] at hget
  by_cases hid : id = x
  · subst hid
    have hold : ((fused.get? id).getD (.round 0)).Within k := by
      cases hget' : fused.get? id with
      | none => exact Number.within_zero k
      | some old =>
        have := h id old hget'
        rwa [if_neg hx] at this
    rw [if_pos rfl, Option.some.injEq] at hget
    rw [if_pos List.mem_cons_self, ← hget]
    exact hold.add hk hlt (contribution64_within hn hw)
  · rw [if_neg hid] at hget
    have := h id score hget
    simp only [List.mem_cons, hid, false_or]
    exact this

/-- A list takes the scores to the next power of two. -/
theorem rankSteps64_within {kRrf : Nat} {weight : F64} {k : Int} (hk : -1074 ≤ k + 1)
    (hlt : k + 1 < 1024) (hw : weight.Within k) (ids : List Text) :
    ∀ (n : Nat) (seen : List Text) (fused : Entries Text F64),
      (∀ id ∈ ids, id ∉ seen → kRrf + (n + ids.idxOf id) + 1 < 2 ^ 64) →
      ScoresWithin k seen fused → ∀ id score,
        ((ids.zipIdx n).foldl (rankStepWith (.round 0) Number.add (contribution64 kRrf weight))
          (seen, fused)).2.get? id = some score → score.Within (k + 1) := by
  induction ids with
  | nil =>
    intro n seen fused _ hfused id score h
    refine Number.Within.mono ?_ (hfused id score h)
    split <;> omega
  | cons x ids ih =>
    intro n seen fused hwrap hfused
    rw [List.zipIdx_cons, List.foldl_cons, rankStepWith]
    have later : ∀ id ∈ ids, id ∉ seen → id ≠ x → kRrf + (n + 1 + ids.idxOf id) + 1 < 2 ^ 64 := by
      intro id hid hseen hne
      have := hwrap id (List.mem_cons_of_mem x hid) hseen
      rw [List.idxOf_cons_ne _ (Ne.symm hne)] at this
      omega
    by_cases hx : x ∈ seen
    · rw [if_pos hx]
      refine ih (n + 1) seen fused (fun id hid hseen => later id hid hseen ?_) hfused
      rintro rfl
      exact hseen hx
    · rw [if_neg hx]
      have hn := hwrap x List.mem_cons_self hx
      rw [List.idxOf_cons_self] at hn
      refine ih (n + 1) (x :: seen) _ (fun id hid hseen => ?_) (hfused.alter hk hlt hw hn hx)
      rw [List.mem_cons, not_or] at hseen
      exact later id hid hseen.2 hseen.1

theorem addRanks64_within {kRrf : Nat} {weight : F64} {k : Int} (hk : -1074 ≤ k + 1)
    (hlt : k + 1 < 1024) (hw : weight.Within k) {ids : List Text} (hwrap : NoWrap kRrf ids)
    {fused : Entries Text F64} (hfused : ∀ id score, fused.get? id = some score → score.Within k)
    {id : Text} {score : F64} (h : (addRanks64 kRrf weight ids fused).get? id = some score) :
    score.Within (k + 1) := by
  refine rankSteps64_within hk hlt hw ids 0 [] fused (fun id hid _ => ?_) (fun id score hget => ?_)
    id score h
  · have := hwrap id hid
    omega
  · rw [if_neg List.not_mem_nil]
    exact hfused id score hget

/-! ## Requests -/

/-- At most `1e300` from zero. -/
def Moderate : F64 → Prop
  | .finite x _ => |x| ≤ (10 ^ 3) ^ 100
  | _ => False

theorem Moderate.within {weight : F64} (h : Moderate weight) : weight.Within 1000 := by
  cases weight with
  | finite x hx =>
    calc |x| ≤ (10 ^ 3) ^ 100 := h
      _ ≤ ((2 : Rat) ^ (10 : Int)) ^ 100 := pow_le_pow_left₀ (by decide +kernel) (by decide +kernel) 100
      _ = 2 ^ (1000 : Int) := by
        rw [← zpow_natCast, ← zpow_mul]
        rfl
  | infinite s => exact h.elim
  | nan => exact h.elim

/-- The arithmetic of a request on two ranked lists is safe. -/
structure SafeArithmetic (bm25 vector : List Text) (kRrf k : Nat) : Prop where
  denominators : ∀ ids ∈ [bm25, vector], ∀ id ∈ ids,
    denominator64 kRrf (ids.idxOf id) = kRrf + ids.idxOf id + 1 ∧ 1 ≤ denominator64 kRrf (ids.idxOf id)
  contributions : ∀ ids ∈ [bm25, vector], ∀ id ∈ ids, ∀ weight : F64, weight.IsFinite →
    (contribution64 kRrf weight (ids.idxOf id)).IsFinite
  scores : ∀ bm25Weight vectorWeight, Moderate bm25Weight → Moderate vectorWeight →
    ∀ id score, (fusedScores64 bm25 vector kRrf bm25Weight vectorWeight).get? id = some score →
      score.IsFinite
  limit : asI64 k = k

theorem asI64_eq_iff {k : Nat} : asI64 k = k ↔ k < 2 ^ 63 := by
  unfold asI64
  split <;> omega

/-- The arithmetic is safe exactly if `k` fits `i64` and no denominator wraps. -/
theorem search_arithmetic_safe_iff (bm25 vector : List Text) (kRrf k : Nat) :
    SafeArithmetic bm25 vector kRrf k ↔
      k < 2 ^ 63 ∧ ∀ ids ∈ [bm25, vector], ∀ id ∈ ids, kRrf + ids.idxOf id + 1 < 2 ^ 64 := by
  constructor
  · intro h
    exact ⟨asI64_eq_iff.1 h.limit,
      fun ids hids id hid => denominator64_eq_iff.1 (h.denominators ids hids id hid).1⟩
  · rintro ⟨hk, hwrap⟩
    refine ⟨fun ids hids id hid => ?_, fun ids hids id hid weight hw => ?_, ?_, asI64_eq_iff.2 hk⟩
    · have heq := denominator64_eq_iff.2 (hwrap ids hids id hid)
      exact ⟨heq, by omega⟩
    · exact contribution64_isFinite (hwrap ids hids id hid) hw
    · intro bm25Weight vectorWeight hb hv id score hget
      have hfirst : ∀ id score, (addRanks64 kRrf bm25Weight bm25 .empty).get? id = some score →
          score.Within 1001 := by
        intro id score hget
        refine addRanks64_within (by decide) (by decide) hb.within (hwrap bm25 (by simp)) ?_ hget
        intro id score hempty
        rw [get?_empty] at hempty
        cases hempty
      exact (addRanks64_within (k := 1001) (by decide) (by decide) (hv.within.mono (by decide))
        (hwrap vector (by simp)) hfirst hget).isFinite

/-- With the greatest `rrf_k` the first denominator is zero, and its contribution infinite. -/
theorem greatest_rrf_k_unsafe : ¬ SafeArithmetic ["a".toList] [] (2 ^ 64 - 1) 10 ∧
    contribution64 (2 ^ 64 - 1) (.finite 1 (by exact_mod_cast fits_intCast (n := 1) (by decide))) 0 =
      .infinite false := by
  constructor
  · intro h
    have hd := (h.denominators ["a".toList] (by simp) "a".toList (by simp)).2
    exact absurd hd (by decide +kernel)
  · obtain ⟨hfits, heq⟩ := Number.round_zero
    have hzero : denominator64 (2 ^ 64 - 1) 0 = 0 := by decide +kernel
    unfold contribution64
    rw [hzero, Number.ofInt]
    show Number.div (.finite 1 _) (Number.round 0) = .infinite false
    rw [heq]
    show (if (0 : Rat) = 0 then if (1 : Rat) = 0 then .nan else .infinite (decide ((1 : Rat) < 0))
      else Number.round (1 / 0)) = Number.infinite false
    rw [if_pos rfl, if_neg one_ne_zero]
    rfl

end CodeSearch
