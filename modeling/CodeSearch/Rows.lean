import CodeSearch.Chunker

/-!
# Rows of a text

A parser counts the line breaks before an offset; the chunker takes the lines that
`str::lines` gives.  The row of an offset is the line that it is on
(`rowAt_lt_iff`), and the text between two offsets is in the lines from the one's row to the
other's, but for carriage returns (`slice_in_lines`).
-/

namespace CodeSearch

/-- The line breaks before an offset. -/
def rowAt (content : Text) (offset : Nat) : Nat := (content.take offset).count '\n'

/-- What stands before the line of an offset. -/
def beforeLine (content : Text) (offset : Nat) : Text :=
  ((content.take offset).reverse.dropWhile (· ≠ '\n')).reverse

/-- What stands in its line before the offset. -/
def linePart (content : Text) (offset : Nat) : Text :=
  ((content.take offset).reverse.takeWhile (· ≠ '\n')).reverse

/-- The text from one offset to another. -/
def slice (content : Text) (start stop : Nat) : Text := (content.take stop).drop start

/-- The text is empty or ends with a line break. -/
def Ended (s : Text) : Prop := s = [] ∨ s.getLast? = some '\n'

instance (s : Text) : Decidable (Ended s) := inferInstanceAs (Decidable (_ ∨ _))

theorem rowAt_mono (content : Text) {i j : Nat} (h : i ≤ j) : rowAt content i ≤ rowAt content j :=
  (List.take_prefix_take_left h).sublist.count_le _

theorem beforeLine_append_linePart (content : Text) (i : Nat) :
    beforeLine content i ++ linePart content i = content.take i := by
  unfold beforeLine linePart
  rw [← List.reverse_append, List.takeWhile_append_dropWhile, List.reverse_reverse]

theorem newline_notMem_linePart (content : Text) (i : Nat) : '\n' ∉ linePart content i := by
  unfold linePart
  rw [List.mem_reverse]
  intro h
  have hne := List.all_eq_true.1 List.all_takeWhile _ h
  simp at hne

theorem ended_beforeLine (content : Text) (i : Nat) : Ended (beforeLine content i) := by
  unfold Ended beforeLine
  rw [List.reverse_eq_nil_iff, List.getLast?_reverse]
  cases h : (content.take i).reverse.dropWhile (· ≠ '\n') with
  | nil => exact .inl rfl
  | cons c s =>
    have hc := List.head?_dropWhile_not (p := fun c : Char => decide (c ≠ '\n')) (content.take i).reverse
    rw [h] at hc
    have hc : c = '\n' := by simpa using hc
    right
    rw [hc]
    rfl

/-! ## Pieces of a text -/

theorem flatten_splitInclusive (s : Text) : (splitInclusive s).flatten = s := by
  induction s with
  | nil => rfl
  | cons c s ih =>
    unfold splitInclusive
    split
    · rw [List.flatten_cons, ih]
      rfl
    · split
      · next h =>
        rw [h] at ih
        rw [← ih]
        rfl
      · next l ls h =>
        rw [h] at ih
        rw [← ih]
        rfl

theorem splitInclusive_newline (s : Text) :
    splitInclusive ('\n' :: s) = ['\n'] :: splitInclusive s := by
  rw [splitInclusive, if_pos rfl]

theorem splitInclusive_cons {c : Char} (hc : c ≠ '\n') {s l : Text} {ls : List Text}
    (h : splitInclusive s = l :: ls) : splitInclusive (c :: s) = (c :: l) :: ls := by
  rw [splitInclusive, if_neg hc, h]

theorem splitInclusive_ne_nil {s : Text} (h : s ≠ []) : splitInclusive s ≠ [] := by
  intro hnil
  apply h
  rw [← flatten_splitInclusive s, hnil]
  rfl

/-- The first piece, of a text that is not empty. -/
theorem exists_splitInclusive {s : Text} (h : s ≠ []) : ∃ l ls, splitInclusive s = l :: ls :=
  List.exists_cons_of_ne_nil (splitInclusive_ne_nil h)

theorem ended_of_cons {c : Char} {s : Text} (h : Ended (c :: s)) : Ended s := by
  unfold Ended at h ⊢
  cases s with
  | nil => exact .inl rfl
  | cons d s =>
    right
    simpa using h

theorem ne_nil_of_ended {c : Char} {u : Text} (h : Ended (c :: u)) (hc : c ≠ '\n') : u ≠ [] := by
  rintro rfl
  simp [Ended, hc] at h

/-- Behind a line break the pieces start anew. -/
theorem splitInclusive_ended {u : Text} (hu : Ended u) (s : Text) :
    splitInclusive (u ++ s) = splitInclusive u ++ splitInclusive s := by
  induction u with
  | nil => rfl
  | cons c u ih =>
    have ih := ih (ended_of_cons hu)
    rw [List.cons_append]
    by_cases hc : c = '\n'
    · subst hc
      rw [splitInclusive_newline, splitInclusive_newline, ih, List.cons_append]
    · obtain ⟨l, ls, hsplit⟩ := exists_splitInclusive (ne_nil_of_ended hu hc)
      rw [hsplit, List.cons_append] at ih
      rw [splitInclusive_cons hc ih, splitInclusive_cons hc hsplit, List.cons_append]

theorem length_splitInclusive_ended {u : Text} (hu : Ended u) :
    (splitInclusive u).length = u.count '\n' := by
  induction u with
  | nil => rfl
  | cons c u ih =>
    have ih := ih (ended_of_cons hu)
    by_cases hc : c = '\n'
    · subst hc
      rw [splitInclusive_newline, List.length_cons, ih, List.count_cons_self]
    · obtain ⟨l, ls, hsplit⟩ := exists_splitInclusive (ne_nil_of_ended hu hc)
      rw [hsplit] at ih
      rw [splitInclusive_cons hc hsplit, List.count_cons_of_ne hc, ← ih]
      rfl

/-- A piece with another behind it ends with a line break. -/
theorem splitInclusive_pairwise (s : Text) :
    (splitInclusive s).Pairwise fun piece _ => piece.getLast? = some '\n' := by
  induction s with
  | nil => exact .nil
  | cons c s ih =>
    by_cases hc : c = '\n'
    · subst hc
      rw [splitInclusive_newline]
      exact List.pairwise_cons.2 ⟨fun _ _ => rfl, ih⟩
    by_cases hs : s = []
    · subst hs
      rw [splitInclusive, if_neg hc]
      exact List.pairwise_singleton _ _
    · obtain ⟨l, ls, hsplit⟩ := exists_splitInclusive hs
      rw [hsplit, List.pairwise_cons] at ih
      rw [splitInclusive_cons hc hsplit, List.pairwise_cons]
      refine ⟨fun piece hpiece => ?_, ih.2⟩
      have hl := ih.1 piece hpiece
      cases l with
      | nil => cases hl
      | cons d l => simpa using hl

theorem rowAt_eq (content : Text) (i : Nat) :
    rowAt content i = (splitInclusive (beforeLine content i)).length := by
  rw [length_splitInclusive_ended (ended_beforeLine content i), rowAt,
    ← beforeLine_append_linePart content i, List.count_append,
    List.count_eq_zero.2 (newline_notMem_linePart content i), Nat.add_zero]

theorem splitInclusive_at (content : Text) (i : Nat) : splitInclusive content =
    splitInclusive (beforeLine content i) ++ splitInclusive (linePart content i ++ content.drop i) := by
  rw [← splitInclusive_ended (ended_beforeLine content i), ← List.append_assoc,
    beforeLine_append_linePart, List.take_append_drop]

theorem take_rowAt (content : Text) (i : Nat) :
    (splitInclusive content).take (rowAt content i) = splitInclusive (beforeLine content i) := by
  rw [rowAt_eq, splitInclusive_at content i, List.take_left]

theorem length_lines (content : Text) : (lines content).length = (splitInclusive content).length := by
  unfold lines
  rw [List.length_map]

/-- The offset is behind the last line: at the end of a text whose last line is complete. -/
def OffTheEnd (content : Text) (offset : Nat) : Prop := offset = content.length ∧ Ended content

instance (content : Text) (offset : Nat) : Decidable (OffTheEnd content offset) :=
  inferInstanceAs (Decidable (_ ∧ _))

/-- An offset is on one of the lines, unless it is behind the last. -/
theorem rowAt_lt_iff {content : Text} {i : Nat} (hi : i ≤ content.length) :
    rowAt content i < (lines content).length ↔ ¬ OffTheEnd content i := by
  rw [length_lines, splitInclusive_at content i, List.length_append, ← rowAt_eq,
    Nat.lt_add_right_iff_pos, List.length_pos_iff]
  have hnil : splitInclusive (linePart content i ++ content.drop i) = [] ↔ OffTheEnd content i := by
    constructor
    · intro h
      have happend := flatten_splitInclusive (linePart content i ++ content.drop i)
      rw [h, List.flatten_nil] at happend
      obtain ⟨hpart, hdrop⟩ := List.append_eq_nil_iff.1 happend.symm
      have hlength : i = content.length := by
        have := List.drop_eq_nil_iff.1 hdrop
        omega
      have htake := beforeLine_append_linePart content i
      rw [hpart, List.append_nil, hlength, List.take_length] at htake
      rw [OffTheEnd, ← htake]
      exact ⟨by rw [htake]; exact hlength, ended_beforeLine content _⟩
    · rintro ⟨rfl, hended⟩
      have hpart : linePart content content.length = [] := by
        unfold linePart
        rw [List.take_length, List.reverse_eq_nil_iff]
        rcases hended with rfl | hlast
        · rfl
        · rw [← List.head?_reverse] at hlast
          cases h : content.reverse with
          | nil => rfl
          | cons c s =>
            rw [h] at hlast
            rw [Option.some.inj hlast, List.takeWhile_cons_of_neg (by simp)]
      rw [hpart, List.drop_length]
      rfl
  rw [ne_eq, hnil]

/-! ## The text of lines -/

def withoutReturns (s : Text) : Text := s.filter (· ≠ '\r')

theorem withoutReturns_append (s t : Text) :
    withoutReturns (s ++ t) = withoutReturns s ++ withoutReturns t := List.filter_append s t

/-- The ending of a line is its line break, and a carriage return before it. -/
theorem withoutReturns_stripEol (q : Text) :
    withoutReturns (stripEol (q ++ ['\n'])) = withoutReturns q := by
  unfold stripEol
  rw [List.reverse_append, List.reverse_singleton, List.singleton_append]
  split
  · next r h =>
    have hq : q = r.reverse ++ ['\r'] := by
      rw [← List.reverse_reverse q, (List.cons.inj h).2, List.reverse_cons]
    rw [hq, withoutReturns_append]
    exact (List.append_nil _).symm
  · next r _ h =>
    rw [← (List.cons.inj h).2, List.reverse_reverse]
  · next h => exact absurd rfl (h _)

theorem stripEol_open {s : Text} (h : s.getLast? ≠ some '\n') : stripEol s = s := by
  rw [← List.head?_reverse] at h
  unfold stripEol
  split
  · next heq => exact absurd (by rw [heq]; rfl) h
  · next heq => exact absurd (by rw [heq]; rfl) h
  · rfl

/-- Pieces are their lines joined, but for carriage returns and the last line break. -/
theorem withoutReturns_pieces {pieces : List Text}
    (h : pieces.Pairwise fun piece _ => piece.getLast? = some '\n') :
    withoutReturns pieces.flatten <+:
      withoutReturns (joinLines (pieces.map stripEol)) ++ ['\n'] := by
  induction pieces with
  | nil => exact List.nil_prefix
  | cons p pieces ih =>
    rw [List.pairwise_cons] at h
    by_cases hnil : pieces = []
    · subst hnil
      rw [List.flatten_cons, List.flatten_nil, List.append_nil]
      show _ <+: withoutReturns (stripEol p) ++ ['\n']
      by_cases hlast : p.getLast? = some '\n'
      · obtain ⟨q, rfl⟩ := List.getLast?_eq_some_iff.1 hlast
        rw [withoutReturns_stripEol, withoutReturns_append]
        exact List.prefix_rfl
      · rw [stripEol_open hlast]
        exact List.prefix_append _ _
    · obtain ⟨next, hnext⟩ := List.exists_mem_of_ne_nil pieces hnil
      obtain ⟨q, rfl⟩ := List.getLast?_eq_some_iff.1 (h.1 next hnext)
      rw [List.map_cons, joinLines_cons _ _ (by rw [ne_eq, List.map_eq_nil_iff]; exact hnil),
        List.flatten_cons, withoutReturns_append, withoutReturns_append,
        withoutReturns_append, withoutReturns_stripEol, List.append_assoc, List.append_assoc,
        List.prefix_append_right_inj]
      show '\n' :: withoutReturns pieces.flatten <+:
        '\n' :: (withoutReturns (joinLines (pieces.map stripEol)) ++ ['\n'])
      rw [List.cons_prefix_cons]
      exact ⟨rfl, ih h.2⟩

/-- What stands before an offset is in the pieces up to its row. -/
theorem take_prefix_pieces (content : Text) (j : Nat) :
    content.take j <+: ((splitInclusive content).take (rowAt content j + 1)).flatten := by
  have hflatten : ((splitInclusive content).take (rowAt content j + 1)).flatten =
      beforeLine content j ++ ((splitInclusive (linePart content j ++ content.drop j)).take 1).flatten := by
    rw [rowAt_eq, splitInclusive_at content j, List.take_length_add_append, List.flatten_append,
      flatten_splitInclusive]
  rw [hflatten, ← beforeLine_append_linePart, List.prefix_append_right_inj]
  -- the part has no line break, so that it is in the first piece
  have hpart := newline_notMem_linePart content j
  generalize linePart content j = part at hpart ⊢
  generalize content.drop j = rest
  induction part with
  | nil => exact List.nil_prefix
  | cons c part ih =>
    rw [List.mem_cons, not_or] at hpart
    have ih := ih hpart.2
    have hc := Ne.symm hpart.1
    rw [List.cons_append]
    by_cases hs : part ++ rest = []
    · rw [(List.append_eq_nil_iff.1 hs).1, (List.append_eq_nil_iff.1 hs).2, List.append_nil,
        splitInclusive, if_neg hc]
      exact List.prefix_rfl
    · obtain ⟨l, ls, hsplit⟩ := exists_splitInclusive hs
      rw [hsplit] at ih
      rw [splitInclusive_cons hc hsplit]
      simpa using ih

theorem slice_infix_pieces (content : Text) {i j : Nat} (h : i ≤ j) : slice content i j <:+:
    (((splitInclusive content).take (rowAt content j + 1)).drop (rowAt content i)).flatten := by
  have hrow := rowAt_mono content h
  have hprefix := take_prefix_pieces content j
  have hsplit : ((splitInclusive content).take (rowAt content j + 1)).flatten =
      beforeLine content i ++
        (((splitInclusive content).take (rowAt content j + 1)).drop (rowAt content i)).flatten := by
    have htake : ((splitInclusive content).take (rowAt content j + 1)).take (rowAt content i) =
        splitInclusive (beforeLine content i) := by
      rw [List.take_take, Nat.min_eq_left (by omega), take_rowAt]
    rw [← flatten_splitInclusive (beforeLine content i), ← htake, ← List.flatten_append,
      List.take_append_drop]
  have htext : content.take j = beforeLine content i ++ (linePart content i ++ slice content i j) := by
    have htake : (content.take j).take i = content.take i := by
      rw [List.take_take, Nat.min_eq_left h]
    rw [← List.append_assoc, beforeLine_append_linePart, slice, ← htake, List.take_append_drop]
  rw [hsplit, htext, List.prefix_append_right_inj] at hprefix
  exact (List.infix_append' _ _ []).trans (by rw [List.append_nil]; exact hprefix.isInfix)

/-- The text between two offsets is in the lines from the row of one to that of the other. -/
theorem slice_in_lines (content : Text) {i j : Nat} (h : i ≤ j) :
    withoutReturns (slice content i j) <:+:
      withoutReturns (joinRange (lines content) (rowAt content i + 1) (rowAt content j + 1)) ++ ['\n'] := by
  have hpieces : withoutReturns (slice content i j) <:+: withoutReturns
      (((splitInclusive content).take (rowAt content j + 1)).drop (rowAt content i)).flatten :=
    (slice_infix_pieces content h).filter _
  have hjoin : joinRange (lines content) (rowAt content i + 1) (rowAt content j + 1) = joinLines
      ((((splitInclusive content).take (rowAt content j + 1)).drop (rowAt content i)).map stripEol) := by
    unfold joinRange
    rw [Nat.add_sub_cancel, List.map_drop, List.map_take]
    show (if min (rowAt content j + 1) (lines content).length ≤ rowAt content i then []
      else joinLines (((lines content).take (min (rowAt content j + 1) (lines content).length)).drop
        (rowAt content i))) = joinLines (((lines content).take (rowAt content j + 1)).drop _)
    rw [← List.take_eq_take_min]
    by_cases hle : min (rowAt content j + 1) (lines content).length ≤ rowAt content i
    · rw [if_pos hle, List.drop_eq_nil_iff.2 (by rw [List.length_take]; exact hle)]
      rfl
    · rw [if_neg hle]
  rw [hjoin]
  refine hpieces.trans (withoutReturns_pieces ?_).isInfix
  exact (splitInclusive_pairwise content).sublist
    ((List.drop_sublist _ _).trans (List.take_sublist _ _))

end CodeSearch
