import Mathlib.Data.List.Basic

/-!
# Chopping a list

`chop brk l` cuts `l` before every element where `brk` says so, from the element
before the cut, the one after it and the one after that.  Nothing is lost
(`flatten_chop`), no piece is empty, a list without a break is one piece
(`chop_eq_singleton_iff`), and a piece that ends at a break comes off the front
(`chop_append`).
-/

namespace Chop

variable {α : Type}

/-- Whether to cut between the first two, given the element after them. -/
abbrev Break (α : Type) := α → α → Option α → Bool

/-- The piece `front ++ [last]` is open. -/
def chopFrom (brk : Break α) (front : List α) (last : α) : List α → List (List α)
  | [] => [front ++ [last]]
  | c :: rest =>
    if brk last c rest.head? then (front ++ [last]) :: chopFrom brk [] c rest
    else chopFrom brk (front ++ [last]) c rest

def chop (brk : Break α) : List α → List (List α)
  | [] => []
  | a :: l => chopFrom brk [] a l

/-- No cut in `l`, when `next` follows it. -/
def Unbroken (brk : Break α) (l : List α) (next : Option α) : Prop :=
  ∀ pre a c post, l = pre ++ a :: c :: post → brk a c (post.head?.or next) = false

section
variable {brk : Break α}

/-! ## Pieces -/

theorem flatten_chopFrom (l : List α) : ∀ (front : List α) (last : α),
    (chopFrom brk front last l).flatten = front ++ last :: l := by
  induction l with
  | nil => intro front last; simp [chopFrom]
  | cons c l ih =>
    intro front last
    unfold chopFrom
    split
    · rw [List.flatten_cons, ih]
      simp
    · rw [ih]
      simp

theorem flatten_chop (brk : Break α) (l : List α) : (chop brk l).flatten = l := by
  cases l with
  | nil => rfl
  | cons a l => exact flatten_chopFrom l [] a

theorem ne_nil_of_mem_chopFrom {p : List α} (l : List α) : ∀ (front : List α) (last : α),
    p ∈ chopFrom brk front last l → p ≠ [] := by
  induction l with
  | nil =>
    intro front last h
    rw [List.mem_singleton.1 h]
    simp
  | cons c l ih =>
    intro front last h
    unfold chopFrom at h
    split at h
    · rcases List.mem_cons.1 h with rfl | h
      · simp
      · exact ih _ _ h
    · exact ih _ _ h

theorem ne_nil_of_mem_chop {p l : List α} (h : p ∈ chop brk l) : p ≠ [] := by
  cases l with
  | nil => cases h
  | cons a l => exact ne_nil_of_mem_chopFrom l [] a h

/-! ## Where nothing is cut -/

theorem unbroken_singleton (a : α) (next : Option α) : Unbroken brk [a] next := by
  intro pre x c post h
  have hlen := congrArg List.length h
  simp only [List.length_append, List.length_cons, List.length_nil] at hlen
  omega

theorem unbroken_cons_cons {a c : α} {l : List α} {next : Option α} :
    Unbroken brk (a :: c :: l) next ↔
      brk a c (l.head?.or next) = false ∧ Unbroken brk (c :: l) next := by
  constructor
  · intro h
    refine ⟨h [] a c l rfl, fun pre x d post heq => h (a :: pre) x d post ?_⟩
    rw [heq, List.cons_append]
  · rintro ⟨hac, hl⟩ pre x d post heq
    cases pre with
    | nil =>
      obtain ⟨rfl, rfl, rfl⟩ : a = x ∧ c = d ∧ l = post := by simpa using heq
      exact hac
    | cons y pre =>
      rw [List.cons_append, List.cons.injEq] at heq
      exact hl pre x d post heq.2

/-- Up to the end of an unbroken list the open piece grows. -/
theorem chopFrom_append {v : List α} (w : List α) : ∀ (front : List α) (last : α),
    Unbroken brk (last :: w) v.head? → chopFrom brk front last (w ++ v) =
      chopFrom brk (front ++ (last :: w).dropLast) ((last :: w).getLast (List.cons_ne_nil last w)) v := by
  induction w with
  | nil => intro front last _; simp
  | cons c w ih =>
    intro front last h
    rw [unbroken_cons_cons] at h
    have hhead : (w ++ v).head? = w.head?.or v.head? := List.head?_append
    rw [List.cons_append, chopFrom, hhead, h.1, if_neg Bool.false_ne_true, ih _ _ h.2]
    simp

/-- An unbroken piece that ends at a cut comes off the front. -/
theorem chop_append {w v : List α} (hw : w ≠ []) (hv : v ≠ []) (hun : Unbroken brk w v.head?)
    (hcut : brk (w.getLast hw) (v.head hv) v.tail.head? = true) :
    chop brk (w ++ v) = w :: chop brk v := by
  obtain ⟨a, w, rfl⟩ := List.exists_cons_of_ne_nil hw
  obtain ⟨c, v, rfl⟩ := List.exists_cons_of_ne_nil hv
  have hstep : chopFrom brk ((a :: w).dropLast) ((a :: w).getLast hw) (c :: v) =
      ((a :: w).dropLast ++ [(a :: w).getLast hw]) :: chopFrom brk [] c v := by
    rw [chopFrom]
    exact if_pos hcut
  show chopFrom brk [] a (w ++ c :: v) = _
  rw [chopFrom_append w [] a hun, List.nil_append, hstep, List.dropLast_append_getLast]
  rfl

theorem chop_of_unbroken {l : List α} (hl : l ≠ []) (h : Unbroken brk l none) : chop brk l = [l] := by
  obtain ⟨a, l, rfl⟩ := List.exists_cons_of_ne_nil hl
  have := chopFrom_append (v := []) l [] a h
  rw [List.append_nil, List.nil_append] at this
  show chopFrom brk [] a l = _
  rw [this, chopFrom, List.dropLast_append_getLast]

/-- A piece is unbroken where it stands. -/
theorem chop_eq_singleton_iff {l : List α} (hl : l ≠ []) : chop brk l = [l] ↔ Unbroken brk l none := by
  refine ⟨?_, chop_of_unbroken hl⟩
  have steps : ∀ (l front : List α) (last : α), (chopFrom brk front last l).length = 1 →
      Unbroken brk (last :: l) none := by
    intro l
    induction l with
    | nil => exact fun front last _ => unbroken_singleton last none
    | cons c l ih =>
      intro front last h
      rw [unbroken_cons_cons, Option.or_none]
      unfold chopFrom at h
      split at h
      · have hne : chopFrom brk [] c l ≠ [] := by
          intro hnil
          have := congrArg List.flatten hnil
          rw [flatten_chopFrom] at this
          simp at this
        rw [List.length_cons] at h
        exact absurd (List.length_eq_zero_iff.1 (by omega)) hne
      · next hbrk => exact ⟨by simpa using hbrk, ih _ _ h⟩
  intro h
  obtain ⟨a, l, rfl⟩ := List.exists_cons_of_ne_nil hl
  apply steps l [] a
  show (chop brk (a :: l)).length = 1
  rw [h]
  rfl

end

end Chop
