import Mathlib.Data.List.TakeWhile

/-!
# Trimming a list

`trimBoth p l` drops the elements with `p` from both ends of a list.  What is left neither
starts nor ends with one (`trimBoth_eq_self_iff`).
-/

namespace Trim

variable {α : Type} {p : α → Bool} {l : List α}

def trimBoth (p : α → Bool) (l : List α) : List α :=
  ((l.dropWhile p).reverse.dropWhile p).reverse

theorem dropWhile_eq_self (h : ∀ x ∈ l.head?, p x = false) : l.dropWhile p = l := by
  cases l with
  | nil => rfl
  | cons x l => rw [List.dropWhile_cons_of_neg (by rw [h x rfl]; exact Bool.false_ne_true)]

theorem head_dropWhile : ∀ x ∈ (l.dropWhile p).head?, p x = false := by
  intro x hx
  have h := List.head?_dropWhile_not p l
  rw [hx] at h
  exact h

/-- What is dropped from the end. -/
theorem dropWhile_eq_append (p : α → Bool) (l : List α) :
    ∃ dropped, l.dropWhile p = trimBoth p l ++ dropped := by
  refine ⟨((l.dropWhile p).reverse.takeWhile p).reverse, ?_⟩
  unfold trimBoth
  rw [← List.reverse_append, List.takeWhile_append_dropWhile, List.reverse_reverse]

theorem trimBoth_isInfix (p : α → Bool) (l : List α) : trimBoth p l <:+: l := by
  obtain ⟨dropped, hdrop⟩ := dropWhile_eq_append p l
  have hprefix : trimBoth p l <+: l.dropWhile p := ⟨dropped, hdrop.symm⟩
  exact hprefix.isInfix.trans (List.dropWhile_suffix p).isInfix

theorem head_trimBoth : ∀ x ∈ (trimBoth p l).head?, p x = false := by
  intro x hx
  obtain ⟨dropped, heq⟩ := dropWhile_eq_append p l
  refine head_dropWhile (l := l) x ?_
  rw [heq, List.head?_append, hx]
  rfl

theorem getLast_trimBoth : ∀ x ∈ (trimBoth p l).getLast?, p x = false := by
  intro x hx
  unfold trimBoth at hx
  rw [List.getLast?_reverse] at hx
  exact head_dropWhile x hx

theorem trimBoth_eq_self_iff : trimBoth p l = l ↔
    (∀ x ∈ l.head?, p x = false) ∧ ∀ x ∈ l.getLast?, p x = false := by
  constructor
  · intro h
    rw [← h]
    exact ⟨head_trimBoth, getLast_trimBoth⟩
  · rintro ⟨hhead, hlast⟩
    rw [← List.head?_reverse] at hlast
    unfold trimBoth
    rw [dropWhile_eq_self hhead, dropWhile_eq_self hlast, List.reverse_reverse]

theorem trimBoth_idem : trimBoth p (trimBoth p l) = trimBoth p l :=
  trimBoth_eq_self_iff.2 ⟨head_trimBoth, getLast_trimBoth⟩

theorem trimBoth_eq_nil_iff : trimBoth p l = [] ↔ l.all p = true := by
  unfold trimBoth
  rw [List.reverse_eq_nil_iff, List.dropWhile_eq_nil_iff, List.all_eq_true]
  constructor
  · intro h
    -- a list that starts with an element without `p` does not hold only others
    have hnil : l.dropWhile p = [] := by
      cases hdrop : l.dropWhile p with
      | nil => rfl
      | cons x rest =>
        have hx := head_dropWhile (p := p) (l := l) x (by rw [hdrop]; rfl)
        rw [h x (by rw [hdrop, List.mem_reverse]; exact List.mem_cons_self)] at hx
        cases hx
    exact List.dropWhile_eq_nil_iff.1 hnil
  · intro h x hx
    rw [List.dropWhile_eq_nil_iff.2 h] at hx
    cases hx

/-- One more element with `p` at each end changes nothing. -/
theorem trimBoth_wrap {a b : α} (ha : p a = true) (hb : p b = true) (l : List α) :
    trimBoth p (a :: l ++ [b]) = trimBoth p l := by
  unfold trimBoth
  rw [List.cons_append, List.dropWhile_cons_of_pos ha, List.dropWhile_append]
  split
  · next hnil =>
    rw [List.isEmpty_iff] at hnil
    rw [List.dropWhile_cons_of_pos hb, hnil]
    rfl
  · rw [List.reverse_append, List.reverse_singleton, List.singleton_append,
      List.dropWhile_cons_of_pos hb]

end Trim
