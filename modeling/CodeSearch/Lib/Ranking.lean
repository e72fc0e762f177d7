import Mathlib.Data.List.Nodup
import Mathlib.Data.List.Sort
import Mathlib.Order.WithBot
import Mathlib.Tactic.ByContra

/-!
# Ranked lists

`sortBy cmp l` is a stable sort.  Under a comparator that tells the elements of a
list apart the result is the only ordering of them, whatever order they came in
(`sortBy_eq_of_perm`).

`firstRank l a` is the 1-based position of `a` in `l`, `⊤` where it is absent.
-/

namespace Ranking

variable {α β : Type}

/-! ## Sorting -/

/-- A stable sort. -/
def sortBy (cmp : α → α → Ordering) (l : List α) : List α := l.insertionSort fun a b => (cmp a b).isLE

section
variable {cmp : α → α → Ordering} {l l' : List α}

theorem sortBy_perm (cmp : α → α → Ordering) (l : List α) : (sortBy cmp l).Perm l :=
  List.perm_insertionSort _ l

@[simp] theorem mem_sortBy {a : α} : a ∈ sortBy cmp l ↔ a ∈ l := (sortBy_perm cmp l).mem_iff

instance isTrans_isLE [Std.TransCmp cmp] : IsTrans α fun a b => (cmp a b).isLE = true :=
  ⟨fun _ _ _ => Std.TransCmp.isLE_trans⟩

instance total_isLE [Std.OrientedCmp cmp] : Std.Total fun a b => (cmp a b).isLE = true where
  total a b := by
    have hswap : cmp b a = (cmp a b).swap := Std.OrientedCmp.eq_swap
    rw [hswap]
    cases cmp a b <;> simp

theorem sortBy_pairwise [Std.TransCmp cmp] (l : List α) :
    (sortBy cmp l).Pairwise fun a b => (cmp a b).isLE = true := by
  exact List.pairwise_insertionSort _ l

/-- Elements that the comparator tells apart end in strictly ascending order. -/
theorem sortBy_strict [Std.TransCmp cmp] (h : l.Pairwise fun a b => cmp a b ≠ .eq) :
    (sortBy cmp l).Pairwise fun a b => cmp a b = .lt := by
  have hne : (sortBy cmp l).Pairwise fun a b => cmp a b ≠ .eq := by
    refine (sortBy_perm cmp l).symm.pairwise h fun {a b} hab hba => hab ?_
    exact Std.OrientedCmp.eq_comm.1 hba
  refine ((sortBy_pairwise l).and hne).imp fun {a b} hab => ?_
  obtain ⟨hle, hne⟩ := hab
  cases hc : cmp a b with
  | lt => rfl
  | eq => exact absurd hc hne
  | gt => rw [hc] at hle; cases hle

/-- They are then in the only such order. -/
theorem sortBy_eq_of_perm [Std.TransCmp cmp] (hp : l.Perm l')
    (h : l.Pairwise fun a b => cmp a b ≠ .eq) : sortBy cmp l = sortBy cmp l' := by
  have h' : l'.Pairwise fun a b => cmp a b ≠ .eq :=
    hp.pairwise h fun {a b} hab hba => hab (Std.OrientedCmp.eq_comm.1 hba)
  refine List.Perm.eq_of_pairwise (fun a b _ _ hab hba => ?_) (sortBy_strict h) (sortBy_strict h')
    (((sortBy_perm cmp l).trans hp).trans (sortBy_perm cmp l').symm)
  have hgt := Std.OrientedCmp.gt_of_lt hab
  rw [hba] at hgt
  cases hgt

end

/-! ## Positions -/

/-- The keys of an ordered list are ordered as its entries are. -/
theorem pairwise_keys {l : List (α × β)} {R : α × β → α × β → Prop} (h : l.Pairwise R) :
    (l.map Prod.fst).Pairwise fun x y => ∃ a ∈ l, ∃ b ∈ l, a.1 = x ∧ b.1 = y ∧ R a b :=
  List.pairwise_map.2 (h.imp_of_mem fun {a b} ha hb hR => ⟨a, ha, b, hb, rfl, rfl, hR⟩)

section
variable [BEq α] [LawfulBEq α] {l : List α} {a b : α}

/-- The 1-based position of the first `a`; an absent one is after all others. -/
def firstRank (l : List α) (a : α) : WithTop Nat :=
  if a ∈ l then WithTop.some (l.idxOf a + 1) else ⊤

theorem firstRank_of_mem (h : a ∈ l) : firstRank l a = WithTop.some (l.idxOf a + 1) := if_pos h

theorem firstRank_of_notMem (h : a ∉ l) : firstRank l a = ⊤ := if_neg h

theorem firstRank_lt_top : firstRank l a < ⊤ ↔ a ∈ l := by
  by_cases h : a ∈ l
  · rw [firstRank_of_mem h]
    exact ⟨fun _ => h, fun _ => WithTop.coe_lt_top _⟩
  · rw [firstRank_of_notMem h]
    exact ⟨fun hlt => absurd hlt (lt_irrefl _), fun hmem => absurd hmem h⟩

/-- In a list ordered by `R`, a lower rank means `R`. -/
theorem rel_of_firstRank_lt {R : α → α → Prop} (h : l.Pairwise R) (hb : b ∈ l)
    (hlt : firstRank l a < firstRank l b) : R a b := by
  have ha : a ∈ l := firstRank_lt_top.1 (hlt.trans (firstRank_lt_top.2 hb))
  rw [firstRank_of_mem ha, firstRank_of_mem hb, WithTop.coe_lt_coe] at hlt
  have hidx := List.pairwise_iff_getElem.1 h (l.idxOf a) (l.idxOf b)
    (List.idxOf_lt_length_of_mem ha) (List.idxOf_lt_length_of_mem hb) (by omega)
  rwa [List.getElem_idxOf, List.getElem_idxOf] at hidx

/-- And what is not related the other way round comes first. -/
theorem firstRank_lt_of_rel {R : α → α → Prop} (h : l.Pairwise R) (ha : a ∈ l) (hne : a ≠ b)
    (hba : ¬ R b a) : firstRank l a < firstRank l b := by
  by_contra hlt
  rcases (not_lt.1 hlt).eq_or_lt with heq | hlt
  · have hb : b ∈ l := firstRank_lt_top.1 (heq ▸ firstRank_lt_top.2 ha)
    rw [firstRank_of_mem ha, firstRank_of_mem hb] at heq
    have hidx : l.idxOf b = l.idxOf a := by
      have := WithTop.coe_inj.1 heq
      omega
    exact hne ((List.idxOf_inj hb).1 hidx).symm
  · exact hba (rel_of_firstRank_lt h ha hlt)

/-! ## Keyed lists -/

theorem rel_of_key_lt {l : List (α × β)} {R : α × β → α × β → Prop} (h : l.Pairwise R)
    (hd : (l.map Prod.fst).Nodup) {a b : α × β} (ha : a ∈ l) (hb : b ∈ l)
    (hlt : firstRank (l.map Prod.fst) a.1 < firstRank (l.map Prod.fst) b.1) : R a b := by
  obtain ⟨a', ha', b', hb', hka, hkb, hR⟩ :=
    rel_of_firstRank_lt (pairwise_keys h) (List.mem_map_of_mem hb) hlt
  rwa [List.inj_on_of_nodup_map hd ha' ha hka, List.inj_on_of_nodup_map hd hb' hb hkb] at hR

theorem key_lt_of_rel {l : List (α × β)} {R : α × β → α × β → Prop} (h : l.Pairwise R)
    (hd : (l.map Prod.fst).Nodup) {a b : α × β} (ha : a ∈ l) (hb : b ∈ l) (hne : a.1 ≠ b.1)
    (hba : ¬ R b a) : firstRank (l.map Prod.fst) a.1 < firstRank (l.map Prod.fst) b.1 := by
  refine firstRank_lt_of_rel (pairwise_keys h) (List.mem_map_of_mem ha) hne fun hR => ?_
  obtain ⟨b', hb', a', ha', hkb, hka, hR⟩ := hR
  rw [List.inj_on_of_nodup_map hd ha' ha hka, List.inj_on_of_nodup_map hd hb' hb hkb] at hR
  exact hba hR

/-! ## Promotion -/

/-- `b` is moved, or put, before the elements of `ys`. -/
def Promoted (b : α) (old new : List α) : Prop :=
  ∃ xs ys, old = xs ++ ys ∧ b ∉ xs ∧ new = xs ++ b :: ys.erase b

theorem idxOf_le_idxOf_erase (hne : a ≠ b) (ys : List α) : ys.idxOf a ≤ (ys.erase b).idxOf a + 1 := by
  induction ys with
  | nil => simp
  | cons y ys ih =>
    by_cases hy : y = b
    · subst hy
      rw [List.erase_cons_head, List.idxOf_cons_ne _ (Ne.symm hne)]
    · rw [List.erase_cons_tail (by simpa using hy)]
      by_cases ha : y = a
      · subst ha
        simp
      · rw [List.idxOf_cons_ne _ ha, List.idxOf_cons_ne _ ha]
        omega

/-- The others stay or go down. -/
theorem Promoted.other {old new : List α} (h : Promoted b old new) (hne : a ≠ b) :
    firstRank old a ≤ firstRank new a := by
  obtain ⟨xs, ys, rfl, -, rfl⟩ := h
  by_cases hx : a ∈ xs
  · rw [firstRank_of_mem (List.mem_append_left _ hx), firstRank_of_mem (List.mem_append_left _ hx),
      List.idxOf_append_of_mem hx, List.idxOf_append_of_mem hx]
  · by_cases hy : a ∈ ys
    · have hmem : a ∈ xs ++ b :: ys.erase b :=
        List.mem_append_right _ (List.mem_cons_of_mem _ ((List.mem_erase_of_ne hne).2 hy))
      rw [firstRank_of_mem (List.mem_append_right _ hy), firstRank_of_mem hmem,
        List.idxOf_append_of_notMem hx, List.idxOf_append_of_notMem hx,
        List.idxOf_cons_ne _ (Ne.symm hne), WithTop.coe_le_coe]
      have := idxOf_le_idxOf_erase hne ys
      omega
    · have hno : a ∉ xs ++ b :: ys.erase b := by
        rw [List.mem_append, List.mem_cons, List.mem_erase_of_ne hne]
        exact fun h => h.elim hx fun h => h.elim hne hy
      rw [firstRank_of_notMem hno]
      exact le_top

/-- The promoted one goes up, unless nothing changes. -/
theorem Promoted.self {old new : List α} (h : Promoted b old new) :
    new = old ∨ firstRank new b < firstRank old b := by
  obtain ⟨xs, ys, rfl, hx, rfl⟩ := h
  have hmem : b ∈ xs ++ b :: ys.erase b := by simp
  rw [firstRank_of_mem hmem, List.idxOf_append_of_notMem hx, List.idxOf_cons_self]
  cases ys with
  | nil =>
    rw [firstRank_of_notMem (by simpa using hx)]
    exact .inr (WithTop.coe_lt_top _)
  | cons y ys =>
    by_cases hy : y = b
    · subst hy
      exact .inl (by rw [List.erase_cons_head])
    · refine .inr ?_
      by_cases hb : b ∈ xs ++ y :: ys
      · rw [firstRank_of_mem hb, List.idxOf_append_of_notMem hx, List.idxOf_cons_ne _ hy,
          WithTop.coe_lt_coe]
        omega
      · rw [firstRank_of_notMem hb]
        exact WithTop.coe_lt_top _

theorem Promoted.mem_iff {old new : List α} (h : Promoted b old new) (hne : a ≠ b) :
    a ∈ new ↔ a ∈ old := by
  obtain ⟨xs, ys, rfl, -, rfl⟩ := h
  simp [List.mem_erase_of_ne hne, hne]

omit [LawfulBEq α] in
theorem Promoted.mem {old new : List α} (h : Promoted b old new) : b ∈ new := by
  obtain ⟨xs, ys, -, -, rfl⟩ := h
  simp

end

end Ranking
