import CodeSearch.OverlapArithmetic
import CodeSearch.Caps
import CodeSearch.Lib.Windows

/-!
# The windows of an unparsed file

`chunkWindows` cuts a file into the windows of `windowSizes`, 60 lines each and 45 apart
(`chunkWindows_eq`).  `WindowRun` is its loop without a bound on the rounds, so a derivation
is a run that ends.  The layout of the windows is that of `Windows` (`chunkWindows_layout`).

Stage A compares them by the shorter range.  The last window may be so short that the 15
lines it shares are more than half of it, and then it is dropped as a duplicate
(`dedup_overlapping_windows_iff`).
-/

namespace CodeSearch

open Windows Greedy

/-- The windows of a file. -/
def windowSizes : Sizes where
  width := windowLines
  stride := windowLines - windowOverlap
  stride_pos := by decide
  stride_le := by decide

theorem windowSizes_width : windowSizes.width = 60 := rfl
theorem windowSizes_stride : windowSizes.stride = 45 := rfl

/-- The chunk of a window. -/
def chunkOfWindow (ls : List Text) (w : Nat × Nat) : ChunkSpec := windowChunk ls w.1 w.2

/-! ## The loop -/

/-- The loop of `chunk_windows` from `start`: what it pushes when it ends. -/
inductive WindowRun (ls : List Text) : Nat → List ChunkSpec → Prop where
  | last {start : Nat} (h : ls.length ≤ min (start + windowLines - 1) ls.length) :
      WindowRun ls start [windowChunk ls start (min (start + windowLines - 1) ls.length)]
  | next {start : Nat} {chunks : List ChunkSpec}
      (h : ¬ ls.length ≤ min (start + windowLines - 1) ls.length)
      (rest : WindowRun ls (start + (windowLines - windowOverlap)) chunks) :
      WindowRun ls start (windowChunk ls start (min (start + windowLines - 1) ls.length) :: chunks)

/-- With enough fuel the loop ends. -/
theorem windowRun_windowsFrom (ls : List Text) : ∀ (fuel start : Nat), 0 < fuel →
    ls.length < fuel + start → WindowRun ls start (windowsFrom ls fuel start) := by
  intro fuel
  induction fuel with
  | zero =>
    intro start h
    omega
  | succ fuel ih =>
    intro start _ hfuel
    have hw : windowLines = 60 ∧ windowOverlap = 15 := ⟨rfl, rfl⟩
    simp only [windowsFrom]
    by_cases hlast : ls.length ≤ min (start + windowLines - 1) ls.length
    · rw [if_pos hlast]
      exact .last hlast
    · rw [if_neg hlast]
      exact .next hlast (ih _ (by omega) (by omega))

/-- A run gives one result. -/
theorem WindowRun.unique {ls : List Text} {start : Nat} {chunks chunks' : List ChunkSpec}
    (h : WindowRun ls start chunks) (h' : WindowRun ls start chunks') : chunks = chunks' := by
  induction h generalizing chunks' with
  | last hlast =>
    cases h' with
    | last => rfl
    | next hnot => exact absurd hlast hnot
  | next hnot _ ih =>
    cases h' with
    | last hlast => exact absurd hlast hnot
    | next _ rest => rw [ih rest]

theorem windowRun_chunkWindows {content : Text} (h : 1 ≤ (lines content).length) :
    WindowRun (lines content) 1 (chunkWindows content) := by
  rw [chunkWindows_of_lines h]
  exact windowRun_windowsFrom _ _ 1 (by omega) (by omega)

/-- The run from the start of a window pushes this window and those after it. -/
theorem windowRun_windows (ls : List Text) : ∀ (rest i : Nat), i + rest = windowSizes.last ls.length →
    WindowRun ls (i * windowSizes.stride + 1)
      ((List.range' i (rest + 1)).map fun j => chunkOfWindow ls (windowSizes.window ls.length j)) := by
  intro rest
  induction rest with
  | zero =>
    intro i hi
    have hnot := mt lt_last_iff.2 (show ¬ i < windowSizes.last ls.length by omega)
    rw [windowSizes_width] at hnot
    have hend : ls.length ≤ min (i * windowSizes.stride + 1 + windowLines - 1) ls.length := by
      show _ ≤ min (i * windowSizes.stride + 1 + 60 - 1) ls.length
      omega
    exact .last hend
  | succ rest ih =>
    intro i hi
    have hlt := lt_last_iff.1 (show i < windowSizes.last ls.length by omega)
    rw [windowSizes_width] at hlt
    have hend : ¬ ls.length ≤ min (i * windowSizes.stride + 1 + windowLines - 1) ls.length := by
      show ¬ _ ≤ min (i * windowSizes.stride + 1 + 60 - 1) ls.length
      omega
    have hnext : i * windowSizes.stride + 1 + (windowLines - windowOverlap) =
        (i + 1) * windowSizes.stride + 1 := by
      show i * 45 + 1 + 45 = (i + 1) * 45 + 1
      omega
    rw [List.range'_succ, List.map_cons]
    refine .next hend ?_
    rw [hnext]
    exact ih (i + 1) (by omega)

/-- The chunks are those of the windows. -/
theorem chunkWindows_eq {content : Text} (h : 1 ≤ (lines content).length) :
    chunkWindows content =
      (windowSizes.windows (lines content).length).map (chunkOfWindow (lines content)) := by
  have hrun := windowRun_windows (lines content) (windowSizes.last (lines content).length) 0 (by omega)
  rw [Nat.zero_mul, ← List.range_eq_range'] at hrun
  unfold Sizes.windows
  rw [(windowRun_chunkWindows h).unique hrun, List.map_map]
  rfl

/-! ## The layout -/

/-- The chunks cover the lines in order, 60 a chunk and 15 shared with the next. -/
structure WindowLayout (ls : List Text) (chunks : List ChunkSpec) : Prop where
  starts : chunks.map ChunkSpec.startLine = (List.range chunks.length).map fun i => 1 + 45 * i
  within : ∀ spec ∈ chunks, spec.startLine ≤ spec.endLine ∧ spec.endLine ≤ ls.length ∧
    spec.lineNumbers.length ≤ 60
  bodies : ∀ spec ∈ chunks,
    spec.body = joinLines ((ls.take spec.endLine).drop (spec.startLine - 1))
  first : chunks.head?.map ChunkSpec.startLine = some 1
  final : chunks.getLast?.map ChunkSpec.endLine = some ls.length
  full : ∀ spec ∈ chunks.dropLast, spec.lineNumbers.length = 60
  shared : ∀ pre spec next post, chunks = pre ++ spec :: next :: post →
    (next.lineNumbers.filter fun l => decide (l ∈ spec.lineNumbers)).length = 15 ∧
      ∃ l ∈ next.lineNumbers, l ∉ spec.lineNumbers
  covered : ∀ l, 1 ≤ l → l ≤ ls.length →
    1 ≤ (chunks.filter fun spec => decide (l ∈ spec.lineNumbers)).length ∧
      (chunks.filter fun spec => decide (l ∈ spec.lineNumbers)).length ≤ 2
  ranges : (chunks.map fun spec => (spec.startLine, spec.endLine)).Nodup

section
variable {ls : List Text} {w : Nat × Nat}

/-- The range of a window lies in the file. -/
theorem window_range (h1 : 1 ≤ ls.length) (h : w ∈ windowSizes.windows ls.length) :
    1 ≤ w.1 ∧ w.1 ≤ w.2 ∧ w.2 ≤ ls.length ∧ w.2 ≤ w.1 + 59 := by
  obtain ⟨i, hi, rfl⟩ := mem_windows.1 h
  refine ⟨Nat.le_add_left 1 _, window_le h1 hi, Nat.min_le_right _ _, ?_⟩
  show min (i * 45 + 60) ls.length ≤ i * 45 + 1 + 59
  omega

/-- The last window and the full ones. -/
theorem windows_last_full (ls : List Text) :
    (windowSizes.windows ls.length).getLast?.map Prod.snd = some ls.length ∧
      ∀ w ∈ (windowSizes.windows ls.length).dropLast, (places w).length = 60 := by
  rw [windows_eq_concat]
  constructor
  · rw [List.getLast?_concat, Option.map_some, window_last]
  · rw [List.dropLast_concat, List.forall_mem_map]
    intro i hi
    rw [window_of_lt (List.mem_range.1 hi)]
    show (List.range' (i * 45 + 1) (i * 45 + 60 + 1 - (i * 45 + 1))).length = 60
    rw [List.length_range']
    omega

end

/-- Neighbouring windows share 15 lines, and the later has a line of its own. -/
theorem shared_of_split {n : Nat} {pre post : List (Nat × Nat)} {v w : Nat × Nat}
    (h : windowSizes.windows n = pre ++ v :: w :: post) :
    ((places w).filter fun l => decide (l ∈ places v)).length = 15 ∧
      ∃ l ∈ places w, l ∉ places v := by
  obtain ⟨hlt, rfl, rfl⟩ := index_of_split h
  have hend := end_lt hlt
  constructor
  · rw [places_shared hlt, List.length_range']
    rfl
  · refine ⟨(windowSizes.window n (pre.length + 1)).2, mem_places.2 ⟨?_, Nat.le_refl _⟩, ?_⟩
    · have hreach := (lt_last_iff.1 hlt)
      show (pre.length + 1) * 45 + 1 ≤ min ((pre.length + 1) * 45 + 60) n
      rw [windowSizes_stride, windowSizes_width] at hreach
      omega
    · rw [mem_places]
      omega

theorem windowLayout_windows {ls : List Text} (h : 1 ≤ ls.length) :
    WindowLayout ls ((windowSizes.windows ls.length).map (chunkOfWindow ls)) := by
  constructor
  case starts =>
    unfold Sizes.windows
    rw [List.map_map, List.map_map, List.length_map, List.length_map, List.length_range]
    refine List.map_congr_left fun i _ => ?_
    show i * 45 + 1 = 1 + 45 * i
    omega
  case within =>
    rw [List.forall_mem_map]
    intro w hw
    obtain ⟨-, hle, hend, hlong⟩ := window_range h hw
    refine ⟨hle, hend, ?_⟩
    show (List.range' w.1 (w.2 + 1 - w.1)).length ≤ 60
    rw [List.length_range']
    omega
  case bodies =>
    rw [List.forall_mem_map]
    intro w hw
    obtain ⟨h1, hle, hend, -⟩ := window_range h hw
    exact joinRange_of_le h1 hle hend
  case first =>
    unfold Sizes.windows
    rw [List.map_map, List.head?_map, List.head?_range, if_neg (Nat.succ_ne_zero _)]
    show some (0 * 45 + 1) = some 1
    rw [Nat.zero_mul]
  case final =>
    rw [List.getLast?_map, Option.map_map]
    exact (windows_last_full ls).1
  case full =>
    rw [← List.map_dropLast, List.forall_mem_map]
    exact (windows_last_full ls).2
  case shared =>
    intro pre spec next post hsplit
    obtain ⟨pre', rest, hrest, rfl, heq⟩ := List.map_eq_append_iff.1 hsplit
    obtain ⟨v, rest', rfl, rfl, heq'⟩ := List.map_eq_cons_iff.1 heq
    obtain ⟨w, post', rfl, rfl, -⟩ := List.map_eq_cons_iff.1 heq'
    exact shared_of_split hrest
  case covered =>
    intro l h1 h2
    rw [List.filter_map, List.length_map]
    exact ⟨one_le_length_containing h1 h2, length_containing_le (by decide) l⟩
  case ranges =>
    rw [List.map_map]
    show ((windowSizes.windows ls.length).map id).Nodup
    rw [List.map_id]
    exact nodup_windows

/-- The window chunks of a file with a line: the loop ends with them, and they are laid out as
stated. -/
theorem chunk_windows_layout (content : Text) (h : 1 ≤ (lines content).length) :
    WindowRun (lines content) 1 (chunkWindows content) ∧
      WindowLayout (lines content) (chunkWindows content) := by
  refine ⟨windowRun_chunkWindows h, ?_⟩
  rw [chunkWindows_eq h]
  exact windowLayout_windows h

/-- 61 lines: the second window has 16 of them, 15 shared with the first. -/
def shortTail : Text := joinLines (List.replicate 61 "a".toList)

theorem length_lines_shortTail : (lines shortTail).length = 61 := by
  have hlines := lines_joinLines (List.replicate 61 "a".toList)
    (fun l hl => by rw [List.eq_of_mem_replicate hl]; decide) (by decide)
  unfold shortTail
  rw [hlines, List.length_replicate]

theorem ranges_shortTail :
    (chunkWindows shortTail).map (fun spec => (spec.startLine, spec.endLine)) =
      [(1, 60), (46, 61)] := by
  have hwindows : windowSizes.windows 61 = [(1, 60), (46, 61)] := by decide
  rw [chunkWindows_eq (by rw [length_lines_shortTail]; decide), length_lines_shortTail, hwindows]
  rfl

theorem chunk_windows_layout_shortTail :
    1 ≤ (lines shortTail).length ∧
      (chunkWindows shortTail).map (fun spec => (spec.startLine, spec.endLine)) =
        [(1, 60), (46, 61)] ∧
      WindowRun (lines shortTail) 1 (chunkWindows shortTail) ∧
      WindowLayout (lines shortTail) (chunkWindows shortTail) := by
  have hlines : 1 ≤ (lines shortTail).length := by
    rw [length_lines_shortTail]
    decide
  exact ⟨hlines, ranges_shortTail, chunk_windows_layout shortTail hlines⟩

/-! ## Stage A -/

/-- The ids of the windows of a file. -/
def windowIds (path content : Text) : List Text :=
  (chunkWindows content).map fun spec => chunkId path spec.startLine spec.endLine

/-- The last window is the only one, or no more than half of it is shared. -/
def LongTail (n : Nat) : Prop := n ≤ 60 ∨ n % 45 < 16 ∨ 30 ≤ n % 45

instance (n : Nat) : Decidable (LongTail n) := inferInstanceAs (Decidable (_ ∨ _ ∨ _))

theorem pairwise_chunkWindows_iff (content : Text) {R : Nat × Nat → Nat × Nat → Prop} :
    (chunkWindows content).Pairwise
        (fun spec next => R (spec.startLine, spec.endLine) (next.startLine, next.endLine)) ↔
      ∀ i j, i < j → j ≤ windowSizes.last (lines content).length →
        R (windowSizes.window (lines content).length i)
          (windowSizes.window (lines content).length j) := by
  by_cases h : 1 ≤ (lines content).length
  · rw [chunkWindows_eq h, List.pairwise_map]
    exact pairwise_windows_iff
  · have hzero : (lines content).length = 0 := by omega
    rw [chunkWindows_of_no_line h, hzero]
    exact iff_of_true .nil fun i j hij hj => absurd (Nat.le_zero.1 hj) (by omega)

/-- Two windows share more than half of the shorter one if they are neighbours and the later
has fewer than 30 lines. -/
theorem shareMoreThanHalf_iff {n i j : Nat} (hij : i < j) (hj : j ≤ windowSizes.last n) :
    ShareMoreThanHalf (windowSizes.window n i) (windowSizes.window n j) ↔
      j = i + 1 ∧ n < j * 45 + 30 := by
  have hi := lt_last_iff.1 (Nat.lt_of_lt_of_le hij hj)
  obtain ⟨k, rfl⟩ : ∃ k, j = k + 1 := ⟨j - 1, by omega⟩
  have hk := lt_last_iff.1 (Nat.lt_of_succ_le hj)
  rw [windowSizes_stride, windowSizes_width] at hi hk
  show min (min (i * 45 + 60) n + 1 - (i * 45 + 1)) (min ((k + 1) * 45 + 60) n + 1 - ((k + 1) * 45 + 1)) <
    2 * (min (min (i * 45 + 60) n) (min ((k + 1) * 45 + 60) n) + 1 -
      max (i * 45 + 1) ((k + 1) * 45 + 1)) ↔ _
  omega

/-- A short last window and the one before it. -/
theorem longTail_iff (n : Nat) : LongTail n ↔ ∀ i j, i < j → j ≤ windowSizes.last n →
    ¬ ShareMoreThanHalf (windowSizes.window n i) (windowSizes.window n j) := by
  unfold LongTail
  constructor
  · intro htail i j hij hj
    have hi := lt_last_iff.1 (Nat.lt_of_lt_of_le hij hj)
    rw [windowSizes_stride, windowSizes_width] at hi
    rw [shareMoreThanHalf_iff hij hj]
    omega
  · intro h
    have hlast : windowSizes.last n = (n - 60 + 44) / 45 := rfl
    by_contra hshort
    have hpair := h (windowSizes.last n - 1) (windowSizes.last n) (by omega) (Nat.le_refl _)
    rw [shareMoreThanHalf_iff (by omega) (Nat.le_refl _)] at hpair
    omega

/-- Ids overlap if their line numbers can be read and their ranges overlap. -/
theorem overlapping_chunkId (path : Text) {v w : Nat × Nat} (hv : v.1 ≤ v.2) (hw : w.1 ≤ w.2) :
    Overlapping (chunkId path v.1 v.2) (chunkId path w.1 w.2) ↔
      v.2 < 2 ^ 63 ∧ w.2 < 2 ^ 63 ∧ ShareMoreThanHalf v w := by
  unfold Overlapping
  by_cases hvlt : v.2 < 2 ^ 63
  · by_cases hwlt : w.2 < 2 ^ 63
    · rw [parseChunkId_chunkId path (by omega) hvlt, parseChunkId_chunkId path (by omega) hwlt]
      unfold ShareMoreThanHalf SharesHalf lineCount sharedCount
      simp only [true_and, hvlt, hwlt]
      omega
    · rw [parseChunkId_chunkId_eq_none path w.1 (Nat.le_of_not_lt hwlt)]
      split
      · next h => cases h
      · exact iff_of_false id fun h => hwlt h.2.1
  · rw [parseChunkId_chunkId_eq_none path v.1 (Nat.le_of_not_lt hvlt)]
    exact iff_of_false id fun h => hvlt h.1

theorem overlapping_chunkId_comm (path : Text) {v w : Nat × Nat} (hv : v.1 ≤ v.2) (hw : w.1 ≤ w.2) :
    Overlapping (chunkId path v.1 v.2) (chunkId path w.1 w.2) ↔
      Overlapping (chunkId path w.1 w.2) (chunkId path v.1 v.2) := by
  rw [overlapping_chunkId path hv hw, overlapping_chunkId path hw hv]
  exact ⟨fun h => ⟨h.2.1, h.1, h.2.2.symm⟩, fun h => ⟨h.2.1, h.1, h.2.2.symm⟩⟩

/-- An id of a window names a range of it. -/
theorem mem_windowIds {path content id : Text} (h : id ∈ windowIds path content) :
    ∃ w : Nat × Nat, id = chunkId path w.1 w.2 ∧ w.1 ≤ w.2 ∧ w.2 ≤ w.1 + 59 := by
  obtain ⟨spec, hspec, rfl⟩ := List.mem_map.1 h
  by_cases h1 : 1 ≤ (lines content).length
  · rw [chunkWindows_eq h1] at hspec
    obtain ⟨w, hw, rfl⟩ := List.mem_map.1 hspec
    obtain ⟨-, hle, -, hlong⟩ := window_range h1 hw
    exact ⟨w, rfl, hle, hlong⟩
  · rw [chunkWindows_of_no_line h1] at hspec
    cases hspec

/-- The ids of windows have short ranges. -/
theorem range_of_windowId {path content id : Text} (h : id ∈ windowIds path content) {p : Text}
    {start fin : Int} (hparse : parseChunkId id = some (p, start, fin)) :
    start ≤ fin ∧ fin - start + 1 < 2 ^ 53 := by
  obtain ⟨w, rfl, hle, hlong⟩ := mem_windowIds h
  by_cases hlt : w.2 < 2 ^ 63
  · rw [parseChunkId_chunkId path (by omega) hlt] at hparse
    cases hparse
    omega
  · rw [parseChunkId_chunkId_eq_none path w.1 (Nat.le_of_not_lt hlt)] at hparse
    cases hparse

section
variable {F : Type} {path content : Text} {ranked : List (Text × F)}

/-- Stage A keeps a ranking of windows whose ids do not overlap. -/
theorem dedup_windows_eq_self_iff (hranked : ∀ entry ∈ ranked, entry.1 ∈ windowIds path content) :
    dedupOverlapping64 ranked = ranked ↔
      (ranked.map Prod.fst).Pairwise fun id later => ¬ Overlapping later id := by
  have hrange : Ranged ranked := fun entry hentry p start fin hparse =>
    (range_of_windowId (hranked entry hentry) hparse).1
  unfold dedupOverlapping64
  rw [keepFirst_eq_self_iff, List.pairwise_map]
  refine List.Pairwise.iff_of_mem fun {x y} hx hy => ?_
  rw [← Bool.not_eq_true]
  refine not_congr ⟨overlapping_of_kept64 hrange hy hx, kept64_of_overlapping hrange ?_ hy hx⟩
  exact fun entry hentry p start fin hparse => (range_of_windowId (hranked entry hentry) hparse).2

/-- The order of the ids does not matter. -/
theorem pairwise_windowIds_iff {ids : List Text} (h : ids.Perm (windowIds path content)) :
    (ids.Pairwise fun id later => ¬ Overlapping later id) ↔
      (windowIds path content).Pairwise fun id later => ¬ Overlapping later id := by
  -- only between ids of windows is the relation known to be symmetric
  have hboth : ∀ {l : List Text}, (∀ id ∈ l, id ∈ windowIds path content) →
      ((l.Pairwise fun id later => ¬ Overlapping later id) ↔
        l.Pairwise fun id later => ¬ Overlapping later id ∧ ¬ Overlapping id later) := by
    intro l hl
    refine List.Pairwise.iff_of_mem fun {a b} ha hb => ?_
    obtain ⟨v, rfl, hv, -⟩ := mem_windowIds (hl a ha)
    obtain ⟨w, rfl, hw, -⟩ := mem_windowIds (hl b hb)
    rw [overlapping_chunkId_comm path hw hv, and_self]
  rw [hboth fun id hid => h.mem_iff.1 hid, hboth fun id hid => hid]
  exact h.pairwise_iff fun hab => ⟨hab.2, hab.1⟩

theorem windowIds_apart_iff (path content : Text) :
    ((windowIds path content).Pairwise fun id later => ¬ Overlapping later id) ↔
      LongTail (lines content).length ∨ 2 ^ 63 ≤ (lines content).length := by
  unfold windowIds
  rw [List.pairwise_map, pairwise_chunkWindows_iff content
    (R := fun v w => ¬ Overlapping (chunkId path w.1 w.2) (chunkId path v.1 v.2))]
  have hover : ∀ i j, i < j → j ≤ windowSizes.last (lines content).length →
      (Overlapping (chunkId path (windowSizes.window (lines content).length j).1
          (windowSizes.window (lines content).length j).2)
        (chunkId path (windowSizes.window (lines content).length i).1
          (windowSizes.window (lines content).length i).2) ↔
      (windowSizes.window (lines content).length j).2 < 2 ^ 63 ∧
        (windowSizes.window (lines content).length i).2 < 2 ^ 63 ∧
        j = i + 1 ∧ (lines content).length < j * 45 + 30) := by
    intro i j hij hj
    have hi := lt_last_iff.1 (Nat.lt_of_lt_of_le hij hj)
    have hi' := Nat.le_of_lt (Nat.lt_of_lt_of_le hij hj)
    rw [overlapping_chunkId path (window_le (by omega) hj) (window_le (by omega) hi'),
      ← shareMoreThanHalf_iff hij hj]
    exact and_congr_right' (and_congr_right' ⟨ShareMoreThanHalf.symm, ShareMoreThanHalf.symm⟩)
  constructor
  · intro h
    by_contra hno
    rw [not_or, Nat.not_le] at hno
    refine hno.1 ((longTail_iff _).2 fun i j hij hj hshare => h i j hij hj ?_)
    rw [shareMoreThanHalf_iff hij hj] at hshare
    exact (hover i j hij hj).2 ⟨Nat.lt_of_le_of_lt (Nat.min_le_right _ _) hno.2,
      Nat.lt_of_le_of_lt (Nat.min_le_right _ _) hno.2, hshare⟩
  · intro h i j hij hj hoverlap
    obtain ⟨hread, -, hshare⟩ := (hover i j hij hj).1 hoverlap
    rcases h with htail | hlong
    · exact (longTail_iff _).1 htail i j hij hj ((shareMoreThanHalf_iff hij hj).2 hshare)
    · -- the later window ends at the last line
      have hend : min (j * 45 + 60) (lines content).length < 2 ^ 63 := hread
      omega

end

/-- Stage A keeps every ranking of a file's windows, and no two of them overlap by more than
half of the shorter, exactly if the last window is long enough. -/
theorem dedup_overlapping_windows_iff {F : Type} (path content : Text) (ranked : List (Text × F))
    (hranked : (ranked.map Prod.fst).Perm (windowIds path content)) :
    (dedupOverlapping64 ranked = ranked ↔
      LongTail (lines content).length ∨ 2 ^ 63 ≤ (lines content).length) ∧
    ((chunkWindows content).Pairwise (fun spec next =>
        ¬ ShareMoreThanHalf (spec.startLine, spec.endLine) (next.startLine, next.endLine)) ↔
      LongTail (lines content).length) := by
  have hmem : ∀ entry ∈ ranked, entry.1 ∈ windowIds path content := fun entry hentry =>
    hranked.mem_iff.1 (List.mem_map_of_mem hentry)
  constructor
  · rw [dedup_windows_eq_self_iff hmem, pairwise_windowIds_iff hranked, windowIds_apart_iff]
  · rw [pairwise_chunkWindows_iff content (R := fun v w => ¬ ShareMoreThanHalf v w), ← longTail_iff]

def shortTailRanked : List (Text × Nat) := [("p:1-60".toList, 2), ("p:46-61".toList, 1)]

theorem windowIds_shortTail :
    windowIds "p".toList shortTail = ["p:1-60".toList, "p:46-61".toList] := by
  have hids : windowIds "p".toList shortTail =
      ((chunkWindows shortTail).map fun spec => (spec.startLine, spec.endLine)).map fun range =>
        chunkId "p".toList range.1 range.2 := by
    rw [List.map_map]
    rfl
  rw [hids, ranges_shortTail]
  rfl

/-- Stage A drops the second window. -/
theorem shortTail_dropped : ¬ ∀ (path content : Text) (ranked : List (Text × Nat)),
    (ranked.map Prod.fst).Perm (windowIds path content) → dedupOverlapping64 ranked = ranked := by
  intro h
  have hids : (shortTailRanked.map Prod.fst).Perm (windowIds "p".toList shortTail) := by
    rw [windowIds_shortTail]
    exact .refl _
  have hmem : ∀ entry ∈ shortTailRanked, entry.1 ∈ windowIds "p".toList shortTail := fun entry hentry =>
    hids.mem_iff.1 (List.mem_map_of_mem hentry)
  have hkept := h "p".toList shortTail shortTailRanked hids
  rw [dedup_windows_eq_self_iff hmem, pairwise_windowIds_iff hids, windowIds_apart_iff,
    length_lines_shortTail] at hkept
  exact absurd hkept (by decide)

theorem dedup_overlapping_windows_shortTail :
    (dedupOverlapping64 shortTailRanked = shortTailRanked ↔
      LongTail (lines shortTail).length ∨ 2 ^ 63 ≤ (lines shortTail).length) ∧
    ((chunkWindows shortTail).Pairwise (fun spec next =>
        ¬ ShareMoreThanHalf (spec.startLine, spec.endLine) (next.startLine, next.endLine)) ↔
      LongTail (lines shortTail).length) :=
  dedup_overlapping_windows_iff "p".toList shortTail shortTailRanked
    (by rw [windowIds_shortTail]; exact .refl _)

end CodeSearch
