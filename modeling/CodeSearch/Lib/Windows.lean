import Mathlib.Data.List.Nodup
import Mathlib.Data.List.Perm.Subperm
import Mathlib.Order.Basic

/-!
# Overlapping windows

Windows of `width` places that start `stride` apart, over the places `1..n`: each is cut off
at `n`, and the last is the first that reaches it (`lt_last_iff`).  So each after the first
shares `width - stride` places with the one before and goes further (`places_shared`), and
every place is in a window (`exists_window`), and in at most two if two strides are as long as
a window (`length_containing_le`).
-/

namespace Windows

/-- The sizes leave no gap between two windows. -/
structure Sizes where
  width : Nat
  stride : Nat
  stride_pos : 0 < stride
  stride_le : stride ≤ width

namespace Sizes
variable (s : Sizes) (n : Nat)

/-- The first and the last place of a window. -/
def window (i : Nat) : Nat × Nat := (i * s.stride + 1, min (i * s.stride + s.width) n)

/-- The index of the last window. -/
def last : Nat := (n - s.width + (s.stride - 1)) / s.stride

def windows : List (Nat × Nat) := (List.range (s.last n + 1)).map (s.window n)

end Sizes

/-- The places of a range. -/
def places (w : Nat × Nat) : List Nat := List.range' w.1 (w.2 + 1 - w.1)

theorem mem_places {w : Nat × Nat} {l : Nat} : l ∈ places w ↔ w.1 ≤ l ∧ l ≤ w.2 := by
  unfold places
  rw [List.mem_range'_1]
  omega

/-! ## One window -/

section
variable {s : Sizes} {n i : Nat}

/-- A window is not the last if and only if it ends before `n`. -/
theorem lt_last_iff : i < s.last n ↔ i * s.stride + s.width < n := by
  have hpos := s.stride_pos
  unfold Sizes.last
  rw [Nat.lt_iff_add_one_le, Nat.le_div_iff_mul_le hpos, Nat.succ_mul]
  omega

theorem window_of_lt (h : i < s.last n) :
    s.window n i = (i * s.stride + 1, i * s.stride + s.width) := by
  have hlt := lt_last_iff.1 h
  unfold Sizes.window
  rw [Nat.min_eq_left (Nat.le_of_lt hlt)]

/-- The last window ends at `n`. -/
theorem window_last : (s.window n (s.last n)).2 = n := by
  have hnot := mt lt_last_iff.2 (Nat.lt_irrefl (s.last n))
  exact Nat.min_eq_right (by omega)

/-- The windows start within the places. -/
theorem start_le (hn : 1 ≤ n) (h : i ≤ s.last n) : i * s.stride + 1 ≤ n := by
  have hle := s.stride_le
  cases i with
  | zero => omega
  | succ i =>
    have hlt := lt_last_iff.1 (Nat.lt_of_succ_le h)
    rw [Nat.succ_mul]
    omega

theorem window_le (hn : 1 ≤ n) (h : i ≤ s.last n) : (s.window n i).1 ≤ (s.window n i).2 := by
  have hpos := s.stride_pos
  have hle := s.stride_le
  refine Nat.le_min.2 ⟨?_, start_le hn h⟩
  show i * s.stride + 1 ≤ _
  omega

/-- The places that a window shares with the next are its last `width - stride`. -/
theorem places_shared (h : i < s.last n) :
    (places (s.window n (i + 1))).filter (fun l => decide (l ∈ places (s.window n i))) =
      List.range' ((i + 1) * s.stride + 1) (s.width - s.stride) := by
  have hlt := lt_last_iff.1 h
  have hle := s.stride_le
  have hsucc : (i + 1) * s.stride = i * s.stride + s.stride := Nat.succ_mul i s.stride
  -- the next window holds the end of this one
  have hend : i * s.stride + s.width ≤ (s.window n (i + 1)).2 := by
    show _ ≤ min ((i + 1) * s.stride + s.width) n
    omega
  have hsplit : places (s.window n (i + 1)) =
      List.range' ((i + 1) * s.stride + 1) (s.width - s.stride) ++
        List.range' (i * s.stride + s.width + 1) ((s.window n (i + 1)).2 - (i * s.stride + s.width)) := by
    have hfirst : (s.window n (i + 1)).1 = (i + 1) * s.stride + 1 := rfl
    have hcount : (s.window n (i + 1)).2 + 1 - ((i + 1) * s.stride + 1) =
        s.width - s.stride + ((s.window n (i + 1)).2 - (i * s.stride + s.width)) := by omega
    have hnext : (i + 1) * s.stride + 1 + (s.width - s.stride) = i * s.stride + s.width + 1 := by omega
    unfold places
    rw [hfirst, hcount, ← List.range'_append_1, hnext]
  rw [hsplit, List.filter_append, List.filter_eq_self.2, List.filter_eq_nil_iff.2, List.append_nil]
  · intro l hl
    rw [List.mem_range'_1] at hl
    rw [decide_eq_true_eq, window_of_lt h, mem_places]
    omega
  · intro l hl
    rw [List.mem_range'_1] at hl
    rw [decide_eq_true_eq, window_of_lt h, mem_places]
    omega

/-- A window goes further than the one before. -/
theorem end_lt (h : i < s.last n) : (s.window n i).2 < (s.window n (i + 1)).2 := by
  have hlt := lt_last_iff.1 h
  have hpos := s.stride_pos
  have hsucc : (i + 1) * s.stride = i * s.stride + s.stride := Nat.succ_mul i s.stride
  rw [window_of_lt h]
  show i * s.stride + s.width < min ((i + 1) * s.stride + s.width) n
  omega

/-! ## All windows -/

theorem exists_window {l : Nat} (h1 : 1 ≤ l) (h2 : l ≤ n) :
    ∃ i ≤ s.last n, l ∈ places (s.window n i) := by
  have hpos := s.stride_pos
  have hle := s.stride_le
  have hfloor := Nat.div_add_mod' (l - 1) s.stride
  have hmod := Nat.mod_lt (l - 1) hpos
  by_cases hlast : (l - 1) / s.stride ≤ s.last n
  · refine ⟨_, hlast, mem_places.2 ⟨?_, Nat.le_min.2 ⟨?_, h2⟩⟩⟩
    · show _ * _ + 1 ≤ l
      omega
    · omega
  · refine ⟨_, Nat.le_refl _, mem_places.2 ⟨?_, ?_⟩⟩
    · have hmul := Nat.mul_le_mul_right s.stride (Nat.le_of_not_le hlast)
      show s.last n * s.stride + 1 ≤ l
      omega
    · rw [window_last]
      exact h2

/-- A place is only in windows that start within the last two strides before it. -/
theorem index_of_mem (hwide : s.width ≤ 2 * s.stride) {l : Nat} (h : l ∈ places (s.window n i)) :
    i = (l - 1) / s.stride - 1 ∨ i = (l - 1) / s.stride := by
  have hpos := s.stride_pos
  obtain ⟨hstart, hend⟩ := mem_places.1 h
  have hstart : i * s.stride + 1 ≤ l := hstart
  have hend : l ≤ i * s.stride + s.width := Nat.le_trans hend (Nat.min_le_left _ _)
  have hlow : i ≤ (l - 1) / s.stride := (Nat.le_div_iff_mul_le hpos).2 (by omega)
  have hhigh : (l - 1) / s.stride < i + 2 := by
    rw [Nat.div_lt_iff_lt_mul hpos, Nat.add_mul]
    omega
  omega

theorem length_containing_le (hwide : s.width ≤ 2 * s.stride) (l : Nat) :
    ((s.windows n).filter fun w => decide (l ∈ places w)).length ≤ 2 := by
  unfold Sizes.windows
  rw [List.filter_map, List.length_map]
  have hnodup : ((List.range (s.last n + 1)).filter
      ((fun w => decide (l ∈ places w)) ∘ s.window n)).Nodup := List.nodup_range.filter _
  have hsub : (List.range (s.last n + 1)).filter ((fun w => decide (l ∈ places w)) ∘ s.window n) ⊆
      [(l - 1) / s.stride - 1, (l - 1) / s.stride] := by
    intro i hi
    have hmem : l ∈ places (s.window n i) := of_decide_eq_true (List.mem_filter.1 hi).2
    simpa using index_of_mem hwide hmem
  exact (hnodup.subperm hsub).length_le

theorem one_le_length_containing {l : Nat} (h1 : 1 ≤ l) (h2 : l ≤ n) :
    1 ≤ ((s.windows n).filter fun w => decide (l ∈ places w)).length := by
  obtain ⟨i, hi, hmem⟩ := exists_window (s := s) h1 h2
  refine List.length_pos_of_mem (List.mem_filter.2 ⟨?_, decide_eq_true hmem⟩)
  exact List.mem_map_of_mem (List.mem_range.2 (Nat.lt_succ_of_le hi))

/-- The windows have different ranges. -/
theorem nodup_windows : (s.windows n).Nodup := by
  refine List.nodup_range.map fun i j h => ?_
  have hstart : i * s.stride + 1 = j * s.stride + 1 := congrArg Prod.fst h
  exact Nat.eq_of_mul_eq_mul_right s.stride_pos (Nat.add_right_cancel hstart)

/-- The windows but the last, and the last. -/
theorem windows_eq_concat : s.windows n =
    (List.range (s.last n)).map (s.window n) ++ [s.window n (s.last n)] := by
  unfold Sizes.windows
  rw [List.range_succ, List.map_append]
  rfl

theorem mem_windows {w : Nat × Nat} : w ∈ s.windows n ↔ ∃ i ≤ s.last n, s.window n i = w := by
  simp only [Sizes.windows, List.mem_map, List.mem_range, Nat.lt_succ_iff]

/-- What holds of any two windows, the earlier first. -/
theorem pairwise_windows_iff {R : Nat × Nat → Nat × Nat → Prop} :
    (s.windows n).Pairwise R ↔
      ∀ i j, i < j → j ≤ s.last n → R (s.window n i) (s.window n j) := by
  unfold Sizes.windows
  rw [List.pairwise_map, List.pairwise_iff_getElem]
  simp only [List.length_range, List.getElem_range]
  constructor
  · intro h i j hij hj
    exact h i j (by omega) (by omega) hij
  · intro h i j _ hj hij
    exact h i j hij (by omega)

/-- Neighbours in the list have neighbouring indices. -/
theorem index_of_split {pre post : List (Nat × Nat)} {v w : Nat × Nat}
    (h : s.windows n = pre ++ v :: w :: post) :
    pre.length < s.last n ∧ v = s.window n pre.length ∧ w = s.window n (pre.length + 1) := by
  have hlength := congrArg List.length h
  have hfirst := congrArg (fun l => l[pre.length]?) h
  have hsecond := congrArg (fun l => l[pre.length + 1]?) h
  simp only [Sizes.windows, List.length_map, List.length_range, List.length_append,
    List.length_cons] at hlength
  refine ⟨by omega, ?_, ?_⟩
  · simpa [Sizes.windows, List.getElem?_range (show pre.length < s.last n + 1 by omega)]
      using hfirst.symm
  · simpa [Sizes.windows, List.getElem?_range (show pre.length + 1 < s.last n + 1 by omega)]
      using hsecond.symm

end

end Windows
