import Mathlib.Algebra.Order.BigOperators.Group.List
import Mathlib.Algebra.Order.Group.Nat
import CodeSearch.Chunker
import CodeSearch.Lib.Loop

/-!
# Where a run of uncovered lines is cut

`splitModuleRun` keeps one piece open and closes it when the next line would
exceed a cap: at its last blank line, counting the lines after that line again
for the next piece.  The line that overflowed is added to the next piece without
a second look at the caps.

`Piece ls s a f` says which pieces the run from `s` opens (at line `a`, counted
through line `f` when it is opened) from the lines alone.  A closed piece holds
at least the lines `a..f`, and no more than the byte cap beyond them:

    splitModuleRun_spec : the chunks of a run are its pieces, and cover it
-/

namespace CodeSearch

open Store

/-! ## Bytes of a line range -/

/-- The bytes of the lines `a..b`, one newline each. -/
def lineBytes (ls : List Text) (a b : Nat) : Nat :=
  (((ls.take b).drop (a - 1)).map fun l => byteLen l + 1).sum

theorem lineBytes_empty (ls : List Text) {a b : Nat} (h : b ≤ a - 1) : lineBytes ls a b = 0 := by
  have hd : (ls.take b).drop (a - 1) = [] := by
    rw [List.drop_eq_nil_iff, List.length_take]; omega
  rw [lineBytes, hd]; rfl

theorem lineBytes_succ (ls : List Text) {a b : Nat} {text : Text} (ha : a ≤ b + 1)
    (h : ls[b]? = some text) :
    lineBytes ls a (b + 1) = lineBytes ls a b + (byteLen text + 1) := by
  have hb : b < ls.length := (List.getElem?_eq_some_iff.1 h).1
  have ht : ls.take (b + 1) = ls.take b ++ [text] := by
    rw [List.take_add_one, h]; rfl
  have hd : a - 1 ≤ (ls.take b).length := by rw [List.length_take]; omega
  rw [lineBytes, ht, List.drop_append_of_le_length hd]
  simp [lineBytes]

/-- A smaller range has no more bytes. -/
theorem lineBytes_mono (ls : List Text) {a a' b b' : Nat} (ha : a ≤ a') (hb : b' ≤ b) :
    lineBytes ls a' b' ≤ lineBytes ls a b := by
  have hsub : List.Sublist ((ls.take b').drop (a' - 1)) ((ls.take b).drop (a - 1)) := by
    have h1 : List.Sublist ((ls.take b').drop (a' - 1)) ((ls.take b').drop (a - 1)) :=
      List.drop_sublist_drop_left _ (by omega)
    have h2 : List.Sublist (ls.take b') (ls.take b) := List.take_sublist_take_left hb
    exact h1.trans (h2.drop _)
  exact (hsub.map _).sum_le_sum fun _ _ => Nat.zero_le _

/-- A joined range is one byte shorter than its lines with their newlines. -/
theorem byteLen_joinRange (ls : List Text) {a b : Nat} (ha : 1 ≤ a) (hab : a ≤ b)
    (hb : a ≤ ls.length) : byteLen (joinRange ls a b) + 1 = lineBytes ls a b := by
  have hmin : ls.take (min b ls.length) = ls.take b := by
    rcases Nat.le_total b ls.length with h | h
    · rw [Nat.min_eq_left h]
    · rw [Nat.min_eq_right h, List.take_length, List.take_of_length_le h]
  have hne : (ls.take b).drop (a - 1) ≠ [] := by
    rw [Ne, List.drop_eq_nil_iff, List.length_take]; omega
  unfold joinRange lineBytes
  simp only
  rw [if_neg (by omega), hmin]
  exact byteLen_joinLines _ hne

/-! ## Pieces -/

/-- Line `l` of the file is blank. -/
def BlankLine (ls : List Text) (l : Nat) : Prop := ∃ text, ls[l - 1]? = some text ∧ isBlank text = true

/-- Line `l` is one too many for the piece that opened at `a`. -/
def Exceeds (ls : List Text) (a l : Nat) : Prop :=
  a < l ∧ (maxChunkLines < l + 1 - a ∨ maxChunkBytes < lineBytes ls a l)

/-- The piece from `a` is cut after `z`: the last blank line before `l`, else
the line before `l`. -/
def CutAt (ls : List Text) (a l z : Nat) : Prop :=
  (a ≤ z ∧ z < l ∧ BlankLine ls z ∧ ∀ m, z < m → m < l → ¬ BlankLine ls m) ∨
    (z + 1 = l ∧ ∀ m, a ≤ m → m < l → ¬ BlankLine ls m)

/-- A piece of the run from `s` opens at line `a`, with the lines `a..f` counted
into it when it does. -/
inductive Piece (ls : List Text) (s : Nat) : Nat → Nat → Prop where
  | first : Piece ls s s s
  | next {a f l z : Nat} : Piece ls s a f → f < l → Exceeds ls a l →
      (∀ m, f < m → m < l → ¬ Exceeds ls a m) → CutAt ls a l z → Piece ls s (z + 1) l

theorem CutAt.lt {ls : List Text} {a l z : Nat} (h : CutAt ls a l z) : z < l := by
  rcases h with h | h <;> omega

theorem CutAt.no_blank {ls : List Text} {a l z : Nat} (h : CutAt ls a l z) {m : Nat}
    (hz : z < m) (hl : m < l) : ¬ BlankLine ls m := by
  rcases h with ⟨_, _, _, h⟩ | ⟨h, _⟩
  · exact h m hz hl
  · omega

theorem Piece.le {ls : List Text} {s a f : Nat} (h : Piece ls s a f) : a ≤ f := by
  cases h with
  | first => exact Nat.le_refl _
  | next _ _ _ _ hcut => exact hcut.lt

theorem Piece.start_le {ls : List Text} {s a f : Nat} (h : Piece ls s a f) : s ≤ f := by
  induction h with
  | first => exact Nat.le_refl _
  | next _ hlt _ _ _ ih => omega

/-- The lines counted again for a piece have no blank one, the last apart. -/
theorem Piece.no_blank {ls : List Text} {s a f : Nat} (h : Piece ls s a f) {m : Nat}
    (ha : a ≤ m) (hf : m < f) : ¬ BlankLine ls m := by
  cases h with
  | first => omega
  | next _ _ _ _ hcut => exact hcut.no_blank ha hf

/-- So a piece is never cut before the line it was opened with. -/
theorem Piece.le_cut {ls : List Text} {s a f l z : Nat} (h : Piece ls s a f) (hl : f < l)
    (hcut : CutAt ls a l z) : f ≤ z := by
  rcases hcut with ⟨ha, _, hb, _⟩ | ⟨hz, _⟩
  · by_contra hlt
    exact h.no_blank ha (by omega) hb
  · omega

/-! ## The open piece -/

/-- The counters of a piece hold its lines through `m`. -/
structure Segment.Counts (seg : Segment) (ls : List Text) (m : Nat) : Prop where
  lineCount : seg.lineCount = m + 1 - seg.segStart
  byteCount : seg.byteCount = lineBytes ls seg.segStart m
  blank : seg.segStart ≤ seg.lastBlank → seg.lastBlank ≤ m ∧ BlankLine ls seg.lastBlank ∧
    ∀ l, seg.lastBlank < l → l ≤ m → ¬ BlankLine ls l
  noBlank : seg.lastBlank < seg.segStart → ∀ l, seg.segStart ≤ l → l ≤ m → ¬ BlankLine ls l

theorem Segment.counts_fresh (ls : List Text) {start : Nat} (h : 1 ≤ start) :
    (Segment.mk start 0 0 0).Counts ls (start - 1) where
  lineCount := by show 0 = start - 1 + 1 - start; omega
  byteCount := (lineBytes_empty ls (Nat.le_refl _)).symm
  blank := by intro h'; have : start ≤ 0 := h'; omega
  noBlank := by intro _ l hl hl'; have : start ≤ l := hl; omega

/-- One more line keeps the counters right. -/
theorem addLine_counts {ls : List Text} {seg : Segment} {m : Nat} (hseg : seg.Counts ls m)
    (hs : seg.segStart ≤ m + 1) (hm : m < ls.length) :
    ∃ seg', addLine ls seg (m + 1) = some seg' ∧ seg'.segStart = seg.segStart ∧
      seg'.Counts ls (m + 1) := by
  have htext : ls[m]? = some ls[m] := List.getElem?_eq_getElem hm
  have hblank : BlankLine ls (m + 1) ↔ isBlank ls[m] = true := by
    unfold BlankLine
    rw [Nat.add_sub_cancel, htext]
    simp
  refine ⟨{ seg with
    lineCount := seg.lineCount + 1
    byteCount := seg.byteCount + (byteLen ls[m] + 1)
    lastBlank := if isBlank ls[m] then m + 1 else seg.lastBlank },
    by rw [addLine, lineAt_succ, htext]; rfl, rfl, ?_⟩
  constructor
  · have := hseg.lineCount
    show seg.lineCount + 1 = m + 1 + 1 - seg.segStart
    omega
  · show seg.byteCount + (byteLen ls[m] + 1) = lineBytes ls seg.segStart (m + 1)
    rw [lineBytes_succ ls hs htext, hseg.byteCount]
  · intro hle
    simp only at hle ⊢
    by_cases hb : isBlank ls[m] = true
    · rw [if_pos hb]
      exact ⟨Nat.le_refl _, hblank.2 hb, fun l h1 h2 => by omega⟩
    · rw [if_neg hb] at hle ⊢
      obtain ⟨h1, h2, h3⟩ := hseg.blank hle
      refine ⟨by omega, h2, fun l hl hl' => ?_⟩
      rcases Nat.eq_or_lt_of_le hl' with rfl | hlt
      · exact fun h => hb (hblank.1 h)
      · exact h3 l hl (by omega)
  · intro hlt
    simp only at hlt ⊢
    by_cases hb : isBlank ls[m] = true
    · rw [if_pos hb] at hlt; omega
    · rw [if_neg hb] at hlt
      intro l hl hl'
      rcases Nat.eq_or_lt_of_le hl' with rfl | hl''
      · exact fun h => hb (hblank.1 h)
      · exact hseg.noBlank hlt l hl (by omega)

/-- Counting again from `start` gives the counters of the lines before `line`. -/
theorem recount_counts {ls : List Text} {start line : Nat} (h1 : 1 ≤ start) (hle : start ≤ line)
    (hline : line - 1 ≤ ls.length) :
    ∃ seg, recount ls start line = some seg ∧ seg.segStart = start ∧
      seg.Counts ls (line - 1) := by
  obtain ⟨seg, hseg, hstart, hcounts⟩ := foldlM_range'_of_invariant (f := addLine ls)
    (fun i (seg : Segment) => seg.segStart = start ∧ seg.Counts ls (i - 1))
    (line - start) start ⟨start, 0, 0, 0⟩
    (by
      rintro i seg hi hlt ⟨hs, hc⟩
      obtain ⟨seg', h, hs', hc'⟩ := addLine_counts hc (by omega) (by omega)
      rw [Nat.sub_add_cancel (by omega)] at h hc'
      exact ⟨seg', h, by rw [hs', hs], by rw [Nat.add_sub_cancel]; exact hc'⟩)
    ⟨rfl, Segment.counts_fresh ls h1⟩
  rw [show start + (line - start) = line by omega] at hcounts
  exact ⟨seg, hseg, hstart, hcounts⟩

/-- The overflow test of the next line is `Exceeds`. -/
theorem wouldOverflow_iff {ls : List Text} {seg : Segment} {m : Nat} (hseg : seg.Counts ls m)
    (hs : seg.segStart ≤ m + 1) {text : Text} (htext : ls[m]? = some text) :
    seg.wouldOverflow (byteLen text + 1) = true ↔ Exceeds ls seg.segStart (m + 1) := by
  have h1 := hseg.lineCount
  have h2 := hseg.byteCount
  have h3 := lineBytes_succ ls hs htext
  unfold Segment.wouldOverflow Exceeds
  simp only [Bool.and_eq_true, Bool.or_eq_true, decide_eq_true_eq, h3, ← h2]
  omega

/-- The line it is cut after. -/
theorem cutAt_segEnd {ls : List Text} {seg : Segment} {m : Nat} (hseg : seg.Counts ls m) :
    CutAt ls seg.segStart (m + 1) (seg.segEnd (m + 1)) := by
  unfold Segment.segEnd
  split
  · next h =>
    obtain ⟨h1, h2, h3⟩ := hseg.blank h
    exact .inl ⟨h, by omega, h2, fun l hl hl' => h3 l hl (by omega)⟩
  · next h =>
    exact .inr ⟨by omega, fun l hl hl' => hseg.noBlank (by omega) l hl (by omega)⟩

/-! ## The loop over a run -/

/-- The chunk of a piece that closed after line `z`: the lines it was opened
with are in it, and more only within the byte cap. -/
def IsPieceChunk (ls : List Text) (s m : Nat) (spec : ChunkSpec) : Prop :=
  ∃ a f z, spec = moduleChunk ls a z ∧ Piece ls s a f ∧ f ≤ z ∧ z ≤ m ∧
    (z = f ∨ lineBytes ls a z ≤ maxChunkBytes)

/-- What the run loop has done after the lines `s..m`: the piece opened last,
with `f`, is open, and every other one is closed. -/
structure Splits (ls : List Text) (s f m : Nat) (seg : Segment) (closed : List ChunkSpec) :
    Prop where
  piece : Piece ls s seg.segStart f
  le : f ≤ m
  counts : seg.Counts ls m
  within : ∀ l, f < l → l ≤ m → ¬ Exceeds ls seg.segStart l
  isPiece : ∀ spec ∈ closed, IsPieceChunk ls s m spec
  covers : ∀ l, s ≤ l → l < seg.segStart → ∃ a z, moduleChunk ls a z ∈ closed ∧ a ≤ l ∧ l ≤ z
  pieces : ∀ a' f', Piece ls s a' f' → f' ≤ m → a' = seg.segStart ∧ f' = f ∨
    ∃ l z, f' < l ∧ l ≤ m ∧ Exceeds ls a' l ∧ f' ≤ z ∧ z ≤ m ∧ moduleChunk ls a' z ∈ closed

theorem Splits.start {ls : List Text} {s f m : Nat} {seg : Segment} {closed : List ChunkSpec}
    (h : Splits ls s f m seg closed) : seg.segStart ≤ m :=
  Nat.le_trans h.piece.le h.le

/-- The lines of the open piece, if it were closed now. -/
theorem Splits.bytes {ls : List Text} {s f m : Nat} {seg : Segment} {closed : List ChunkSpec}
    (h : Splits ls s f m seg closed) {z : Nat} (hf : f ≤ z) (hz : z ≤ m) :
    z = f ∨ lineBytes ls seg.segStart z ≤ maxChunkBytes := by
  rcases Nat.eq_or_lt_of_le hf with rfl | hlt
  · exact .inl rfl
  · have h1 := h.within z hlt hz
    have h2 := h.piece.le
    unfold Exceeds at h1
    exact .inr (by omega)

/-- A piece opened with line `m + 1` is the successor of the open one. -/
theorem Splits.opened {ls : List Text} {s f m : Nat} {seg : Segment} {closed : List ChunkSpec}
    (h : Splits ls s f m seg closed) (hs : s ≤ m) {a' : Nat} (hp : Piece ls s a' (m + 1)) :
    Exceeds ls seg.segStart (m + 1) ∧ ∃ z, a' = z + 1 ∧ CutAt ls seg.segStart (m + 1) z := by
  generalize hl : m + 1 = l at hp
  cases hp with
  | first => omega
  | @next a f₀ _ z hp₀ hlt hex hfirst hcut =>
    subst hl
    rcases h.pieces a f₀ hp₀ (by omega) with ⟨rfl, rfl⟩ | ⟨l, _, hl, hlm, hexl, _⟩
    · exact ⟨hex, z, rfl, hcut⟩
    · exact absurd hexl (hfirst l hl (by omega))

/-- The first line opens the first piece. -/
theorem moduleStep_first {ls : List Text} {s : Nat} (hs : 1 ≤ s) (hlen : s ≤ ls.length)
    (given : List ChunkSpec) :
    ∃ seg, moduleStep ls (⟨s, 0, 0, 0⟩, given) s = some (seg, given) ∧ Splits ls s s s seg [] := by
  obtain ⟨seg, hadd, hstart, hcounts⟩ :=
    addLine_counts (Segment.counts_fresh ls hs) (by show s ≤ s - 1 + 1; omega)
      (by omega : s - 1 < ls.length)
  rw [Nat.sub_add_cancel hs] at hadd hcounts
  have hstart : seg.segStart = s := hstart
  refine ⟨seg, ?_, ?_⟩
  · unfold moduleStep
    rw [lineAt_of_pos ls hs, List.getElem?_eq_getElem (by omega)]
    simp [Segment.wouldOverflow, hadd]
  · constructor
    · rw [hstart]; exact .first
    · exact Nat.le_refl _
    · exact hcounts
    · intro l h1 h2; omega
    · intro spec h; cases h
    · intro l h1 h2; omega
    · intro a' f' hp hf
      have h1 := hp.start_le
      have hf' : f' = s := by omega
      subst hf'
      cases hp with
      | first => exact .inl ⟨hstart.symm, rfl⟩
      | next hp' hlt _ _ _ => have := hp'.start_le; omega

theorem IsPieceChunk.mono {ls : List Text} {s m m' : Nat} {spec : ChunkSpec}
    (h : IsPieceChunk ls s m spec) (hm : m ≤ m') : IsPieceChunk ls s m' spec := by
  obtain ⟨a, f, z, h1, h2, h3, h4, h5⟩ := h
  exact ⟨a, f, z, h1, h2, h3, by omega, h5⟩

/-- A line that fits goes into the open piece. -/
theorem Splits.add {ls : List Text} {s f m : Nat} {seg seg' : Segment} {closed : List ChunkSpec}
    (h : Splits ls s f m seg closed) (hs : s ≤ m) (hfits : ¬ Exceeds ls seg.segStart (m + 1))
    (hstart : seg'.segStart = seg.segStart) (hcounts : seg'.Counts ls (m + 1)) :
    Splits ls s f (m + 1) seg' closed := by
  constructor
  · rw [hstart]; exact h.piece
  · have := h.le; omega
  · exact hcounts
  · intro l hl hlm
    rw [hstart]
    rcases Nat.eq_or_lt_of_le hlm with rfl | hlt
    · exact hfits
    · exact h.within l hl (by omega)
  · exact fun spec hspec => (h.isPiece spec hspec).mono (Nat.le_succ m)
  · rw [hstart]; exact h.covers
  · intro a' f' hp hf'
    rw [hstart]
    rcases Nat.eq_or_lt_of_le hf' with rfl | hlt
    · exact absurd (h.opened hs hp).1 hfits
    · rcases h.pieces a' f' hp (by omega) with hcur | ⟨l, z, h1, h2, h3, h4, h5, h6⟩
      · exact .inl hcur
      · exact .inr ⟨l, z, h1, by omega, h3, h4, by omega, h6⟩

/-- Two cuts before one line are the same. -/
theorem CutAt.unique {ls : List Text} {a l z z' : Nat} (h : CutAt ls a l z)
    (h' : CutAt ls a l z') : z = z' := by
  rcases h with ⟨h1, h2, h3, h4⟩ | ⟨h1, h2⟩ <;> rcases h' with ⟨g1, g2, g3, g4⟩ | ⟨g1, g2⟩
  · rcases Nat.lt_trichotomy z z' with hlt | heq | hgt
    · exact absurd g3 (h4 z' hlt g2)
    · exact heq
    · exact absurd h3 (g4 z hgt h2)
  · exact absurd h3 (g2 z h1 h2)
  · exact absurd g3 (h2 z' g1 g2)
  · omega

/-- A line that does not fit closes the open piece and is the last one counted
into the next. -/
theorem Splits.cut {ls : List Text} {s f m z : Nat} {seg seg' : Segment} {closed : List ChunkSpec}
    (h : Splits ls s f m seg closed) (hs : s ≤ m) (hex : Exceeds ls seg.segStart (m + 1))
    (hcut : CutAt ls seg.segStart (m + 1) z) (hstart : seg'.segStart = z + 1)
    (hcounts : seg'.Counts ls (m + 1)) :
    Splits ls s (m + 1) (m + 1) seg' (closed ++ [moduleChunk ls seg.segStart z]) := by
  have hle := h.le
  have hfz : f ≤ z := h.piece.le_cut (by omega) hcut
  have hzm : z < m + 1 := hcut.lt
  have hlast : moduleChunk ls seg.segStart z ∈ closed ++ [moduleChunk ls seg.segStart z] :=
    List.mem_append_right _ List.mem_cons_self
  constructor
  · rw [hstart]
    exact .next h.piece (by omega) hex (fun l hl hlm => h.within l hl (by omega)) hcut
  · exact Nat.le_refl _
  · exact hcounts
  · intro l hl hlm; omega
  · intro spec hspec
    rcases List.mem_append.1 hspec with hold | hnew
    · exact (h.isPiece spec hold).mono (Nat.le_succ m)
    · rw [List.mem_singleton.1 hnew]
      exact ⟨_, f, z, rfl, h.piece, hfz, by omega, h.bytes hfz (by omega)⟩
  · intro l hsl hlt
    rw [hstart] at hlt
    by_cases hl : l < seg.segStart
    · obtain ⟨a, z', h1, h2, h3⟩ := h.covers l hsl hl
      exact ⟨a, z', List.mem_append_left _ h1, h2, h3⟩
    · exact ⟨_, z, hlast, by omega, by omega⟩
  · intro a' f' hp hf'
    rcases Nat.eq_or_lt_of_le hf' with rfl | hlt
    · obtain ⟨_, z', rfl, hcut'⟩ := h.opened hs hp
      exact .inl ⟨by rw [hstart, hcut.unique hcut'], rfl⟩
    · rcases h.pieces a' f' hp (by omega) with ⟨rfl, rfl⟩ | ⟨l, z', h1, h2, h3, h4, h5, h6⟩
      · exact .inr ⟨m + 1, z, by omega, Nat.le_refl _, hex, hfz, by omega, hlast⟩
      · exact .inr ⟨l, z', h1, by omega, h3, h4, by omega, List.mem_append_left _ h6⟩

/-- Line `l` is the first one too many for the piece from `a`, and it is cut after `z`. -/
structure Overflow (ls : List Text) (s a l z : Nat) : Prop where
  exceeds : Exceeds ls a l
  cut : CutAt ls a l z
  first : ∃ f, Piece ls s a f ∧ f < l ∧ ∀ m, f < m → m < l → ¬ Exceeds ls a m

/-- One round: the piece goes on, or it overflows and the next one is opened. -/
theorem moduleStep_cases {ls : List Text} {s f m : Nat} {seg : Segment} {closed : List ChunkSpec}
    (h : Splits ls s f m seg closed) (hs : s ≤ m) (hm : m < ls.length) (given : List ChunkSpec) :
    ∃ seg', (moduleStep ls (seg, given ++ closed) (m + 1) = some (seg', given ++ closed) ∧
        seg'.segStart = seg.segStart ∧ Splits ls s f (m + 1) seg' closed) ∨
      ∃ z, moduleStep ls (seg, given ++ closed) (m + 1) =
          some (seg', given ++ (closed ++ [moduleChunk ls seg.segStart z])) ∧
        seg'.segStart = z + 1 ∧ Overflow ls s seg.segStart (m + 1) z ∧
        Splits ls s (m + 1) (m + 1) seg' (closed ++ [moduleChunk ls seg.segStart z]) := by
  have hstart := h.start
  have hle := h.le
  have htext : ls[m]? = some ls[m] := List.getElem?_eq_getElem hm
  unfold moduleStep
  rw [lineAt_succ, htext]
  by_cases hover : seg.wouldOverflow (byteLen ls[m] + 1) = true
  · have hex := (wouldOverflow_iff h.counts (by omega) htext).1 hover
    have hcut := cutAt_segEnd h.counts
    have hlt := hcut.lt
    obtain ⟨seg₁, hre, hs₁, hc₁⟩ := recount_counts
      (by omega : 1 ≤ seg.segEnd (m + 1) + 1) (by omega : _ ≤ m + 1) (by omega : m + 1 - 1 ≤ ls.length)
    rw [Nat.add_sub_cancel] at hc₁
    obtain ⟨seg₂, hadd, hs₂, hc₂⟩ := addLine_counts hc₁ (by omega) hm
    have hs₂ : seg₂.segStart = seg.segEnd (m + 1) + 1 := by rw [hs₂, hs₁]
    refine ⟨seg₂, .inr ⟨seg.segEnd (m + 1), ?_, hs₂, ⟨hex, hcut, f, h.piece, by omega,
      fun l hl hlm => h.within l hl (by omega)⟩, h.cut hs hex hcut hs₂ hc₂⟩⟩
    simp [hover, hre, hadd]
  · have hfits : ¬ Exceeds ls seg.segStart (m + 1) := fun hex =>
      hover ((wouldOverflow_iff h.counts (by omega) htext).2 hex)
    obtain ⟨seg', hadd, hs', hc'⟩ := addLine_counts h.counts (by omega) hm
    refine ⟨seg', .inl ⟨?_, hs', h.add hs hfits hs' hc'⟩⟩
    simp [hover, hadd]

/-- The pieces closed so far, in order, each at its overflow: the next one opens at `a`. -/
inductive Trail (ls : List Text) (s e : Nat) : Nat → List ChunkSpec → Prop where
  | start : Trail ls s e s []
  | cut {a l z : Nat} {closed : List ChunkSpec} : Trail ls s e a closed → a ≤ z → l ≤ e →
      Overflow ls s a l z → Trail ls s e (z + 1) (closed ++ [moduleChunk ls a z])

/-! ## The chunks of a run -/

/-- The chunks of the run `s..e` are the chunks of its pieces, and cover it. -/
structure RunChunks (ls : List Text) (s e : Nat) (chunks : List ChunkSpec) : Prop where
  isPiece : ∀ spec ∈ chunks, IsPieceChunk ls s e spec
  covers : ∀ l, s ≤ l → l ≤ e → ∃ a z, moduleChunk ls a z ∈ chunks ∧ a ≤ l ∧ l ≤ z
  pieces : ∀ a f, Piece ls s a f → f ≤ e → ∃ z, f ≤ z ∧ z ≤ e ∧ moduleChunk ls a z ∈ chunks

/-- Closing the open piece at the end of the run. -/
theorem Splits.finish {ls : List Text} {s f e : Nat} {seg : Segment} {closed : List ChunkSpec}
    (h : Splits ls s f e seg closed) :
    RunChunks ls s e (closed ++ [moduleChunk ls seg.segStart e]) := by
  have hlast : moduleChunk ls seg.segStart e ∈ closed ++ [moduleChunk ls seg.segStart e] :=
    List.mem_append_right _ List.mem_cons_self
  constructor
  · intro spec hspec
    rcases List.mem_append.1 hspec with hold | hnew
    · exact h.isPiece spec hold
    · rw [List.mem_singleton.1 hnew]
      exact ⟨_, f, e, rfl, h.piece, h.le, Nat.le_refl _, h.bytes h.le (Nat.le_refl _)⟩
  · intro l hsl hle
    by_cases hl : l < seg.segStart
    · obtain ⟨a, z, h1, h2, h3⟩ := h.covers l hsl hl
      exact ⟨a, z, List.mem_append_left _ h1, h2, h3⟩
    · exact ⟨_, e, hlast, by omega, hle⟩
  · intro a f' hp hf'
    rcases h.pieces a f' hp hf' with ⟨rfl, rfl⟩ | ⟨_, z, _, _, _, h4, h5, h6⟩
    · exact ⟨e, hf', Nat.le_refl _, hlast⟩
    · exact ⟨z, h4, h5, List.mem_append_left _ h6⟩

/-- `splitModuleRun` appends the chunks of the run, in order. -/
theorem splitModuleRun_trail {ls : List Text} {s e : Nat} (hs : 1 ≤ s) (hse : s ≤ e)
    (he : e ≤ ls.length) (given : List ChunkSpec) :
    ∃ a closed, splitModuleRun ls s e given = some (given ++ (closed ++ [moduleChunk ls a e])) ∧
      a ≤ e ∧ Trail ls s e a closed ∧ RunChunks ls s e (closed ++ [moduleChunk ls a e]) ∧
      ∃ f, Piece ls s a f ∧ f ≤ e ∧ ∀ l, f < l → l ≤ e → ¬ Exceeds ls a l := by
  obtain ⟨seg₁, hfirst, hsplits⟩ := moduleStep_first hs (by omega : s ≤ ls.length) given
  have hseg₁ : seg₁.segStart = s := by
    have h1 := hsplits.start
    have h2 := hsplits.piece
    generalize seg₁.segStart = a at h1 h2
    cases h2 with
    | first => rfl
    | next hp hlt _ _ _ => have := hp.start_le; omega
  obtain ⟨⟨seg, out⟩, hloop, f, closed, hout, hend, htrail⟩ := foldlM_range'_of_invariant
    (f := moduleStep ls)
    (fun i acc => ∃ f closed, acc.2 = given ++ closed ∧ Splits ls s f (i - 1) acc.1 closed ∧
      Trail ls s e acc.1.segStart closed)
    (e - s) (s + 1) (seg₁, given)
    (by
      rintro i ⟨seg, out⟩ hi hlt ⟨f, closed, hout, hI, hT⟩
      simp only at hout hI hT
      subst hout
      have hle := hI.le
      obtain ⟨seg', hcase⟩ := moduleStep_cases hI (by omega) (by omega) given
      rw [Nat.sub_add_cancel (by omega)] at hcase
      rcases hcase with ⟨hstep, hs', hI'⟩ | ⟨z, hstep, hs', hover, hI'⟩
      · refine ⟨_, hstep, f, closed, rfl, by rw [Nat.add_sub_cancel]; exact hI', ?_⟩
        show Trail ls s e seg'.segStart closed
        rw [hs']
        exact hT
      · refine ⟨_, hstep, i, _, rfl, by rw [Nat.add_sub_cancel]; exact hI', ?_⟩
        show Trail ls s e seg'.segStart _
        rw [hs']
        have h1 := hI.piece.le
        have h2 := hI.piece.le_cut (by omega) hover.cut
        exact .cut hT (by omega) (by omega) hover)
    ⟨s, [], (List.append_nil _).symm, hsplits, hseg₁ ▸ .start⟩
  simp only at hout hend htrail
  subst hout
  rw [show s + 1 + (e - s) - 1 = e by omega] at hend
  refine ⟨seg.segStart, closed, ?_, hend.start, htrail, hend.finish, f, hend.piece, hend.le,
    hend.within⟩
  have hcount : 0 < seg.lineCount := by
    have h1 := hend.counts.lineCount
    have h2 := hend.start
    omega
  unfold splitModuleRun
  rw [show e + 1 - s = e - s + 1 by omega, List.range'_succ, List.foldlM_cons, hfirst]
  simp [hloop, hcount]

/-- The chunks are those of the run's pieces. -/
theorem splitModuleRun_spec {ls : List Text} {s e : Nat} (hs : 1 ≤ s) (hse : s ≤ e)
    (he : e ≤ ls.length) (given : List ChunkSpec) :
    ∃ chunks, splitModuleRun ls s e given = some (given ++ chunks) ∧ RunChunks ls s e chunks := by
  obtain ⟨a, closed, hsplit, -, -, hchunks, -⟩ := splitModuleRun_trail hs hse he given
  exact ⟨_, hsplit, hchunks⟩

theorem Piece.one_le {ls : List Text} {s a f : Nat} (hs : 1 ≤ s) (h : Piece ls s a f) : 1 ≤ a := by
  cases h with
  | first => exact hs
  | next => omega

/-- The chunks of a run are within the byte cap iff its pieces are when they
are opened. -/
theorem RunChunks.within_iff {ls : List Text} {s e : Nat} {chunks : List ChunkSpec}
    (h : RunChunks ls s e chunks) (hs : 1 ≤ s) (he : e ≤ ls.length) :
    (∀ spec ∈ chunks, byteLen spec.body ≤ maxChunkBytes) ↔
      ∀ a f, Piece ls s a f → f ≤ e → lineBytes ls a f ≤ maxChunkBytes + 1 := by
  constructor
  · intro hw a f hp hf
    obtain ⟨z, hfz, hze, hmem⟩ := h.pieces a f hp hf
    have h1 : byteLen (joinRange ls a z) ≤ maxChunkBytes := hw _ hmem
    have h2 := byteLen_joinRange ls (hp.one_le hs) (by have := hp.le; omega : a ≤ z)
      (by have := hp.le; omega)
    have h3 := lineBytes_mono ls (Nat.le_refl a) hfz
    omega
  · intro hw spec hspec
    obtain ⟨a, f, z, rfl, hp, hfz, hze, hz⟩ := h.isPiece spec hspec
    show byteLen (joinRange ls a z) ≤ maxChunkBytes
    have h2 := byteLen_joinRange ls (hp.one_le hs) (by have := hp.le; omega : a ≤ z)
      (by have := hp.le; omega)
    rcases hz with rfl | hz
    · have := hw a z hp hze; omega
    · omega

end CodeSearch
