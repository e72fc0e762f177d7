import CodeSearch.Pieces
import CodeSearch.Incremental

/-!
# Text outside symbols is searchable

The index tokenizes a chunk's body cut to `maxChunkBytes`, so a line's tokens
are found when it lies in a chunk whose body is not cut.  Every line outside the
symbol spans lies in a `module` chunk (`chunkSpans_spec`), every line of an
unparsed file in a `window` (`windowsFrom_covers`).

Nothing bounds the bytes of 60 lines, nor of the lines a module piece is opened
with.  `Fits` says on the file's lines that these stay within the cap, and it is
what completeness needs (`lexicallyComplete_iff`).
-/

namespace CodeSearch

open Store

/-! ## Spans -/

/-- The spans are line ranges of the file. -/
def InRange (ls : List Text) (spans : List SymbolSpan) : Prop :=
  ∀ span ∈ spans, 1 ≤ span.2.2.1 ∧ span.2.2.1 ≤ span.2.2.2 ∧ span.2.2.2 ≤ ls.length

/-- Line `l` is inside a span. -/
def Inside (spans : List SymbolSpan) (l : Nat) : Prop :=
  ∃ span ∈ spans, span.2.2.1 ≤ l ∧ l ≤ span.2.2.2

instance (spans : List SymbolSpan) (l : Nat) : Decidable (Inside spans l) :=
  inferInstanceAs (Decidable (∃ span ∈ spans, span.2.2.1 ≤ l ∧ l ≤ span.2.2.2))

theorem inside_concat {spans : List SymbolSpan} {span : SymbolSpan} {l : Nat} :
    Inside (spans ++ [span]) l ↔ Inside spans l ∨ span.2.2.1 ≤ l ∧ l ≤ span.2.2.2 := by
  unfold Inside
  constructor
  · rintro ⟨x, hx, hl⟩
    rcases List.mem_append.1 hx with h | h
    · exact .inl ⟨x, h, hl⟩
    · exact .inr (List.mem_singleton.1 h ▸ hl)
  · rintro (⟨x, hx, hl⟩ | hl)
    · exact ⟨x, List.mem_append_left _ hx, hl⟩
    · exact ⟨span, List.mem_append_right _ List.mem_cons_self, hl⟩

/-- The span loop after `seen`: the lines inside them are covered, and only
symbol chunks were emitted. -/
structure SpansDone (ls : List Text) (seen : List SymbolSpan) (st : SpanState) : Prop where
  covered : ∀ l, l ≤ ls.length → st.covered[l]? = some (decide (Inside seen l))
  ranges : ∀ r ∈ st.seenRanges, ∃ span ∈ seen, span.2.2 = r
  symbols : ∀ spec ∈ st.chunks, spec.kind = .symbol

theorem coverRange_of_lt {covered : List Bool} {start end_ : Nat} (h1 : start ≤ end_)
    (h2 : end_ < covered.length) :
    coverRange covered start end_ =
      some (covered.mapIdx fun i b => b || (decide (start ≤ i) && decide (i ≤ end_))) := by
  unfold coverRange
  rw [if_pos ⟨by omega, h2⟩]

theorem SpansDone.step {ls : List Text} {seen : List SymbolSpan} {st : SpanState}
    (h : SpansDone ls seen st) {span : SymbolSpan}
    (hspan : 1 ≤ span.2.2.1 ∧ span.2.2.1 ≤ span.2.2.2 ∧ span.2.2.2 ≤ ls.length) :
    ∃ st', spanStep ls st span = some st' ∧ SpansDone ls (seen ++ [span]) st' := by
  obtain ⟨sig, symbolKind, start, end_⟩ := span
  obtain ⟨h1, h2, h3⟩ := hspan
  simp only at h1 h2 h3
  have hstart : max start 1 = start := by omega
  have hend : max (min end_ ls.length) start = end_ := by omega
  unfold spanStep
  simp only [hstart, hend]
  by_cases hmem : (start, end_) ∈ st.seenRanges
  · -- an equal range is covered already
    refine ⟨st, by rw [if_pos hmem]; rfl, ?_, ?_, h.symbols⟩
    · intro l hl
      rw [h.covered l hl]
      obtain ⟨span', hs', heq⟩ := h.ranges _ hmem
      have : Inside (seen ++ [(sig, symbolKind, start, end_)]) l ↔ Inside seen l := by
        rw [inside_concat]
        constructor
        · rintro (h | h)
          · exact h
          · exact ⟨span', hs', by rw [heq]; exact h⟩
        · exact .inl
      simp only [this]
    · intro r hr
      obtain ⟨span', hs', heq⟩ := h.ranges r hr
      exact ⟨span', List.mem_append_left _ hs', heq⟩
  · have hlen : ls.length < st.covered.length :=
      (List.getElem?_eq_some_iff.1 (h.covered ls.length (Nat.le_refl _))).1
    refine ⟨_, by rw [if_neg hmem, coverRange_of_lt h2 (by omega)]; rfl, ?_, ?_, ?_⟩
    · intro l hl
      simp only [List.getElem?_mapIdx, h.covered l hl, Option.map_some, Option.some.injEq]
      rw [Bool.eq_iff_iff]
      simp [inside_concat]
    · intro r hr
      rcases List.mem_cons.1 hr with rfl | hr
      · exact ⟨_, List.mem_append_right _ List.mem_cons_self, rfl⟩
      · obtain ⟨span', hs', heq⟩ := h.ranges r hr
        exact ⟨span', List.mem_append_left _ hs', heq⟩
    · intro spec hspec
      rcases List.mem_append.1 hspec with hold | hnew
      · exact h.symbols spec hold
      · rw [List.mem_singleton.1 hnew]; rfl

/-! ## Runs -/

/-- A maximal run of lines outside the spans. -/
structure IsRun (ls : List Text) (spans : List SymbolSpan) (s e : Nat) : Prop where
  pos : 1 ≤ s
  le : s ≤ e
  end_le : e ≤ ls.length
  outside : ∀ l, s ≤ l → l ≤ e → ¬ Inside spans l
  before : s = 1 ∨ Inside spans (s - 1)
  after : e = ls.length ∨ Inside spans (e + 1)

/-- Two runs with one end are the same. -/
theorem IsRun.start_unique {ls : List Text} {spans : List SymbolSpan} {s s' e : Nat}
    (h : IsRun ls spans s e) (h' : IsRun ls spans s' e) : s = s' := by
  have key : ∀ {s s'}, IsRun ls spans s e → IsRun ls spans s' e → s' ≤ s := by
    intro s s' h h'
    by_contra hlt
    have h1 := h.pos
    have h2 := h'.le
    rcases h'.before with h3 | h3
    · omega
    · exact h.outside (s' - 1) (by omega) (by omega) h3
  exact Nat.le_antisymm (key h' h) (key h h')

/-- The run loop before line `i`: a run is open iff the last line was outside
and the file goes on, and every run closed so far has its chunks. -/
structure RunsDone (ls : List Text) (spans : List SymbolSpan) (i runStart : Nat)
    (modules : List ChunkSpec) : Prop where
  fresh : runStart = 0 → i = 1 ∨ Inside spans (i - 1) ∨ i = ls.length + 1
  opened : runStart ≠ 0 → runStart < i ∧ i ≤ ls.length ∧
    (∀ l, runStart ≤ l → l < i → ¬ Inside spans l) ∧
    (runStart = 1 ∨ Inside spans (runStart - 1))
  fromRun : ∀ spec ∈ modules, ∃ s e chunks, IsRun ls spans s e ∧ RunChunks ls s e chunks ∧
    spec ∈ chunks
  covers : ∀ l, 1 ≤ l → l < i → ¬ Inside spans l →
    (∃ a z, moduleChunk ls a z ∈ modules ∧ a ≤ l ∧ l ≤ z) ∨ runStart ≠ 0 ∧ runStart ≤ l
  runs : ∀ s e, IsRun ls spans s e → e + 1 < i ∨ e = ls.length ∧ e < i →
    ∃ chunks, RunChunks ls s e chunks ∧ chunks ⊆ modules

/-- Closing the run `s..e` before line `i`. -/
theorem RunsDone.close {ls : List Text} {spans : List SymbolSpan} {i runStart s e : Nat}
    {modules chunks : List ChunkSpec} (h : RunsDone ls spans i runStart modules)
    (hrun : IsRun ls spans s e) (hchunks : RunChunks ls s e chunks)
    (hs : runStart = 0 ∨ runStart = s) (hi : i = e ∨ i = e + 1)
    (hopen : runStart = 0 → i ≤ s)
    (hlast : i = e + 1 → Inside spans i) (hend : i = e → e = ls.length) :
    RunsDone ls spans (i + 1) 0 (modules ++ chunks) := by
  have hle := hrun.le
  have hpos := hrun.pos
  constructor
  · intro _
    rcases hi with hi | hi
    · exact .inr (.inr (by rw [hi, hend hi]))
    · exact .inr (.inl (hlast hi))
  · intro h0; exact absurd rfl h0
  · intro spec hspec
    rcases List.mem_append.1 hspec with hold | hnew
    · exact h.fromRun spec hold
    · exact ⟨s, e, chunks, hrun, hchunks, hnew⟩
  · intro l hl hli hout
    by_cases hse : s ≤ l ∧ l ≤ e
    · obtain ⟨a, z, h1, h2, h3⟩ := hchunks.covers l hse.1 hse.2
      exact .inl ⟨a, z, List.mem_append_right _ h1, h2, h3⟩
    · by_cases hlt : l < i
      · rcases h.covers l hl hlt hout with ⟨a, z, h1, h2, h3⟩ | ⟨h1, h2⟩
        · exact .inl ⟨a, z, List.mem_append_left _ h1, h2, h3⟩
        · omega
      · have hl' : l = i := by omega
        rcases hi with hi | hi
        · omega
        · exact absurd (hlast hi) (hl' ▸ hout)
  · intro s' e' hrun' he'
    by_cases heq : e' = e
    · subst heq
      have := hrun.start_unique hrun'
      subst this
      exact ⟨chunks, hchunks, List.subset_append_right _ _⟩
    · have hle' := hrun'.end_le
      obtain ⟨chunks', hc, hsub⟩ := h.runs s' e' hrun' (by
        rcases hi with hi | hi
        · have := hend hi
          by_cases h1 : e' + 1 = i
          · rcases hrun'.after with h2 | h2
            · omega
            · exact absurd (h1 ▸ h2) (hi ▸ hrun.outside e hle (Nat.le_refl _))
          · omega
        · by_cases h1 : e' = i
          · exact absurd (h1 ▸ hlast hi) (hrun'.outside e' hrun'.le (Nat.le_refl _))
          · omega)
      exact ⟨chunks', hc, fun x hx => List.mem_append_left _ (hsub hx)⟩

/-- A line inside a span, with no run open before it. -/
theorem RunsDone.skip {ls : List Text} {spans : List SymbolSpan} {i : Nat}
    {modules : List ChunkSpec} (h : RunsDone ls spans i 0 modules) (hi : i ≤ ls.length)
    (hin : Inside spans i) : RunsDone ls spans (i + 1) 0 modules := by
  constructor
  · intro _; exact .inr (.inl (by rwa [Nat.add_sub_cancel]))
  · intro hne; exact absurd rfl hne
  · exact h.fromRun
  · intro l hl hlt hout
    have hne : l ≠ i := fun heq => hout (heq ▸ hin)
    rcases h.covers l hl (by omega) hout with hc | hc
    · exact .inl hc
    · exact absurd rfl hc.1
  · intro s e hrun he
    have hle := hrun.le
    have hpos := hrun.pos
    have hend := hrun.end_le
    by_cases heq : e = i
    · exact absurd (heq ▸ hin) (hrun.outside e hle (Nat.le_refl _))
    · by_cases hprev : e + 1 = i
      · have hout := hrun.outside e hle (Nat.le_refl _)
        rcases h.fresh rfl with hf | hf | hf
        · omega
        · exact absurd (by rwa [← hprev, Nat.add_sub_cancel] at hf) hout
        · omega
      · exact h.runs s e hrun (by omega)

/-- A run is open at line `i`, since line `r`. -/
structure OpenRun (spans : List SymbolSpan) (r i : Nat) : Prop where
  pos : r ≠ 0
  le : r ≤ i
  outside : ∀ l, r ≤ l → l ≤ i → ¬ Inside spans l
  before : r = 1 ∨ Inside spans (r - 1)

/-- At a line outside the spans a run is open, from there on if not before. -/
theorem RunsDone.openRun {ls : List Text} {spans : List SymbolSpan} {i runStart : Nat}
    {modules : List ChunkSpec} (h : RunsDone ls spans i runStart modules) (h1 : 1 ≤ i)
    (hi : i ≤ ls.length) (hin : ¬ Inside spans i) :
    OpenRun spans (if runStart = 0 then i else runStart) i := by
  by_cases h0 : runStart = 0
  · rw [if_pos h0]
    refine ⟨by omega, Nat.le_refl _, fun l hl hl' => ?_, ?_⟩
    · rw [show l = i by omega]; exact hin
    · rcases h.fresh h0 with hf | hf | hf
      · exact .inl hf
      · exact .inr hf
      · omega
  · rw [if_neg h0]
    obtain ⟨hlt, _, hout, hbef⟩ := h.opened h0
    refine ⟨h0, by omega, fun l hl hl' => ?_, hbef⟩
    rcases Nat.eq_or_lt_of_le hl' with rfl | hl''
    · exact hin
    · exact hout l hl hl''

/-- The open run goes on after line `i`. -/
theorem RunsDone.extend {ls : List Text} {spans : List SymbolSpan} {i runStart r : Nat}
    {modules : List ChunkSpec} (h : RunsDone ls spans i runStart modules)
    (hr : OpenRun spans r i) (hsame : runStart ≠ 0 → r = runStart) (hi : i < ls.length) :
    RunsDone ls spans (i + 1) r modules := by
  have hpos := hr.pos
  have hle := hr.le
  constructor
  · intro h0; exact absurd h0 hr.pos
  · intro _
    exact ⟨by omega, by omega, fun l hl hl' => hr.outside l hl (by omega), hr.before⟩
  · exact h.fromRun
  · intro l hl hlt hout
    by_cases heq : l = i
    · exact .inr ⟨hr.pos, by omega⟩
    · rcases h.covers l hl (by omega) hout with hc | ⟨hc, hc'⟩
      · exact .inl hc
      · exact .inr ⟨hr.pos, by rw [hsame hc]; exact hc'⟩
  · intro s e hrun he
    have hend := hrun.end_le
    by_cases hprev : e + 1 = i
    · rcases hrun.after with ha | ha
      · omega
      · exact absurd (hprev ▸ ha) (hr.outside i hr.le (Nat.le_refl i))
    · exact h.runs s e hrun (by omega)

/-- One line of the run loop. -/
theorem RunsDone.step {ls : List Text} {spans : List SymbolSpan} {covered : List Bool}
    (hcov : ∀ l, l ≤ ls.length → covered[l]? = some (decide (Inside spans l)))
    {i runStart : Nat} {modules : List ChunkSpec} (given : List ChunkSpec)
    (h : RunsDone ls spans i runStart modules) (h1 : 1 ≤ i) (hi : i ≤ ls.length) :
    ∃ runStart' modules', runStep ls covered (runStart, given ++ modules) i =
        some (runStart', given ++ modules') ∧ RunsDone ls spans (i + 1) runStart' modules' := by
  unfold runStep
  rw [hcov i hi]
  by_cases hin : Inside spans i
  · by_cases h0 : runStart = 0
    · subst h0
      exact ⟨0, modules, by simp [hin], h.skip hi hin⟩
    · -- the open run ends on the line before
      obtain ⟨hlt, _, hout, hbef⟩ := h.opened h0
      have hrun : IsRun ls spans runStart (i - 1) :=
        ⟨by omega, by omega, by omega, fun l hl hl' => hout l hl (by omega), hbef,
          .inr (by rwa [Nat.sub_add_cancel h1])⟩
      obtain ⟨chunks, hsplit, hchunks⟩ :=
        splitModuleRun_spec hrun.pos hrun.le hrun.end_le (given ++ modules)
      refine ⟨0, modules ++ chunks, ?_, ?_⟩
      · simp [hin, h0, hsplit]
      · exact h.close hrun hchunks (.inr rfl) (.inr (by omega)) (by omega) (fun _ => hin)
          (by omega)
  · have hopen := h.openRun h1 hi hin
    generalize hr : (if runStart = 0 then i else runStart) = r at hopen
    have hpos := hopen.pos
    by_cases hlast : i = ls.length
    · -- the file ends, and the open run with it
      have hrun : IsRun ls spans r i :=
        ⟨by omega, hopen.le, hi, hopen.outside, hopen.before, .inl hlast⟩
      obtain ⟨chunks, hsplit, hchunks⟩ :=
        splitModuleRun_spec hrun.pos hrun.le hrun.end_le (given ++ modules)
      refine ⟨0, modules ++ chunks, ?_, ?_⟩
      · simp [hin, hr, hpos, ← hlast, hsplit]
      · refine h.close hrun hchunks ?_ (.inl rfl) ?_ (by omega) (fun _ => hlast)
        · by_cases h0 : runStart = 0
          · exact .inl h0
          · exact .inr (by rw [← hr, if_neg h0])
        · intro h0; rw [← hr, if_pos h0]
    · refine ⟨r, modules, by simp [hin, hr, hlast], h.extend hopen (fun h0 => ?_) (by omega)⟩
      rw [← hr, if_neg h0]

/-- The chunks of a parsed file: symbol chunks, and the chunks of the runs
outside the spans, which cover them. -/
structure SpanChunks (ls : List Text) (spans : List SymbolSpan)
    (symbols modules : List ChunkSpec) : Prop where
  symbols : ∀ spec ∈ symbols, spec.kind = .symbol
  fromRun : ∀ spec ∈ modules, ∃ s e chunks, IsRun ls spans s e ∧ RunChunks ls s e chunks ∧
    spec ∈ chunks
  covers : ∀ l, 1 ≤ l → l ≤ ls.length → ¬ Inside spans l →
    ∃ a z, moduleChunk ls a z ∈ modules ∧ a ≤ l ∧ l ≤ z
  runs : ∀ s e, IsRun ls spans s e → ∃ chunks, RunChunks ls s e chunks ∧ chunks ⊆ modules

theorem chunkSpans_spec {ls : List Text} {spans : List SymbolSpan} (h : InRange ls spans) :
    ∃ symbols modules, chunkSpans ls spans = some (symbols ++ modules) ∧
      SpanChunks ls spans symbols modules := by
  obtain ⟨st, hspans, hdone⟩ := foldlM_of_invariant (f := spanStep ls) spans (SpansDone ls)
    (by
      rintro seen span rest st rfl hst
      exact hst.step (h span (by simp)))
    (s := ⟨List.replicate (ls.length + 1) false, [], []⟩)
    ⟨(by
        intro l hl
        rw [List.getElem?_replicate, if_pos (by omega)]
        simp [Inside]),
      (by intro r hr; cases hr), (by intro spec hspec; cases hspec)⟩
  obtain ⟨⟨runStart, out⟩, hloop, modules, hout, hI⟩ := foldlM_range'_of_invariant
    (f := runStep ls st.covered)
    (fun i acc => ∃ modules, acc.2 = st.chunks ++ modules ∧ RunsDone ls spans i acc.1 modules)
    ls.length 1 (0, st.chunks)
    (by
      rintro i ⟨runStart, out⟩ h1 hlt ⟨modules, hout, hI⟩
      simp only at hout hI
      subst hout
      obtain ⟨runStart', modules', hstep, hI'⟩ :=
        hI.step hdone.covered st.chunks h1 (by omega)
      exact ⟨_, hstep, modules', rfl, hI'⟩)
    ⟨[], (List.append_nil _).symm,
      fun _ => .inl rfl, fun h0 => absurd rfl h0, (by intro spec hspec; cases hspec),
      (by intro l h1 h2; omega),
      (by intro s e hrun he; have := hrun.pos; have := hrun.le; omega)⟩
  simp only at hout hI
  subst hout
  refine ⟨st.chunks, modules, ?_, hdone.symbols, hI.fromRun, ?_, ?_⟩
  · unfold chunkSpans
    simp [hspans, hloop]
  · intro l hl hle hnot
    rcases hI.covers l hl (by omega) hnot with hc | ⟨hc, _⟩
    · exact hc
    · have := (hI.opened hc).2.1; omega
  · intro s e hrun
    have := hrun.end_le
    exact hI.runs s e hrun (by omega)

/-! ## Windows -/

/-- The windows from `start` cover the lines from `start` on. -/
theorem windowsFrom_covers (ls : List Text) : ∀ (n start : Nat), ls.length < n + start →
    1 ≤ start → ∀ l, start ≤ l → l ≤ ls.length →
    ∃ a z, windowChunk ls a z ∈ windowsFrom ls n start ∧ 1 ≤ a ∧ a ≤ l ∧ l ≤ z ∧ z ≤ ls.length := by
  intro n
  induction n with
  | zero => intro start hn _ l hl hle; omega
  | succ n ih =>
    intro start hn h1 l hl hle
    have hw : windowLines = 60 ∧ windowOverlap = 15 := ⟨rfl, rfl⟩
    simp only [windowsFrom]
    by_cases hin : l ≤ min (start + windowLines - 1) ls.length
    · exact ⟨start, _, List.mem_cons_self, h1, hl, hin, by omega⟩
    · obtain ⟨a, z, hmem, h2⟩ :=
        ih (start + (windowLines - windowOverlap)) (by omega) (by omega) l (by omega) hle
      refine ⟨a, z, List.mem_cons_of_mem _ ?_, h2⟩
      rw [if_neg (by omega)]
      exact hmem

/-- The windows from `start` are within the byte cap iff every 60 lines, taken
45 lines apart, are. -/
theorem windowsFrom_within_iff (ls : List Text) : ∀ (n start : Nat), ls.length < n + start →
    1 ≤ start → start ≤ ls.length →
    ((∀ spec ∈ windowsFrom ls n start, byteLen spec.body ≤ maxChunkBytes) ↔
      ∀ k, lineBytes ls (start + 45 * k) (start + 45 * k + 59) ≤ maxChunkBytes + 1) := by
  intro n
  induction n with
  | zero => intro start hn h1 hs; omega
  | succ n ih =>
    intro start hn h1 hs
    have hw : windowLines = 60 ∧ windowOverlap = 15 := ⟨rfl, rfl⟩
    have hbytes := byteLen_joinRange ls h1 (by omega : start ≤ start + 59) hs
    have hclamp : joinRange ls start (min (start + windowLines - 1) ls.length) =
        joinRange ls start (start + 59) := by
      unfold joinRange
      rw [hw.1, show start + 60 - 1 = start + 59 by omega, Nat.min_assoc, Nat.min_self]
    have hfirst : byteLen (windowChunk ls start (min (start + windowLines - 1) ls.length)).body ≤
        maxChunkBytes ↔ lineBytes ls start (start + 59) ≤ maxChunkBytes + 1 := by
      show byteLen (joinRange ls start _) ≤ maxChunkBytes ↔ _
      rw [hclamp]
      omega
    simp only [windowsFrom, List.forall_mem_cons, hfirst]
    by_cases hlast : ls.length ≤ min (start + windowLines - 1) ls.length
    · rw [if_pos hlast]
      constructor
      · rintro ⟨h0, _⟩ k
        -- the later windows would lie inside this one
        have h2 : ls.take (start + 45 * k + 59) = ls.take (start + 59) := by
          rw [List.take_of_length_le (by omega), List.take_of_length_le (by omega)]
        have h3 := lineBytes_mono ls (by omega : start ≤ start + 45 * k)
          (Nat.le_refl (start + 59))
        have h4 : lineBytes ls (start + 45 * k) (start + 45 * k + 59) =
            lineBytes ls (start + 45 * k) (start + 59) := by
          unfold lineBytes; rw [h2]
        omega
      · intro h
        exact ⟨h 0, by intro spec hspec; cases hspec⟩
    · rw [if_neg hlast, hw.1, hw.2, ih (start + 45) (by omega) (by omega) (by omega)]
      constructor
      · rintro ⟨h0, h⟩ k
        cases k with
        | zero => exact h0
        | succ k =>
          have := h k
          rwa [show start + 45 + 45 * k = start + 45 * (k + 1) by omega] at this
      · intro h
        refine ⟨h 0, fun k => ?_⟩
        have := h (k + 1)
        rwa [show start + 45 * (k + 1) = start + 45 + 45 * k by omega] at this

theorem windowsFrom_kind (ls : List Text) : ∀ (n start : Nat),
    ∀ spec ∈ windowsFrom ls n start, spec.kind = .window := by
  intro n
  induction n with
  | zero => intro start spec hspec; cases hspec
  | succ n ih =>
    intro start spec hspec
    simp only [windowsFrom] at hspec
    rcases List.mem_cons.1 hspec with rfl | hspec
    · rfl
    · split at hspec
      · cases hspec
      · exact ih _ spec hspec

/-! ## Completeness -/

/-- The spans `chunkFile` works with: none without a language. -/
def spansOf (D : Deps) (content : Text) : Option Language → List SymbolSpan
  | none => []
  | some lang => (D.parseSourceSpans content lang).toOption.getD []

/-- The tokens of every line outside the spans are indexed under a module or
window chunk with that line, and no such chunk loses text. -/
structure LexicallyComplete (D : Deps) (ls : List Text) (spans : List SymbolSpan)
    (chunks : List ChunkSpec) : Prop where
  found : ∀ l text, 1 ≤ l → ls[l - 1]? = some text → ¬ Inside spans l →
    ∀ token ∈ codeTokens D.chars text, ∃ spec ∈ chunks, spec.kind ≠ .symbol ∧
      spec.startLine ≤ l ∧ l ≤ spec.endLine ∧
      token ∈ codeTokens D.chars (indexedText spec.body)
  untruncated : ∀ spec ∈ chunks, spec.kind ≠ .symbol → indexedText spec.body = spec.body

/-- The lines every chunk is bound to hold stay within the byte cap: the lines a
piece of a run is opened with, or 60 lines of an unparsed file. -/
def Fits (D : Deps) (content : Text) : Option Language → Prop
  | none => ∀ k, lineBytes (lines content) (1 + 45 * k) (1 + 45 * k + 59) ≤ maxChunkBytes + 1
  | some lang => ∀ s e a f, IsRun (lines content) (spansOf D content (some lang)) s e →
      Piece (lines content) s a f → f ≤ e → lineBytes (lines content) a f ≤ maxChunkBytes + 1

/-- A line's tokens are among those of a range with it. -/
theorem mem_codeTokens_joinRange (D : Deps) {ls : List Text} {a z l : Nat} {text token : Text}
    (ha : 1 ≤ a) (hal : a ≤ l) (hlz : l ≤ z) (htext : ls[l - 1]? = some text)
    (htoken : token ∈ codeTokens D.chars text) :
    token ∈ codeTokens D.chars (joinRange ls a z) := by
  have hlen : l - 1 < ls.length := (List.getElem?_eq_some_iff.1 htext).1
  have hmem : text ∈ (ls.take (min z ls.length)).drop (a - 1) := by
    refine List.mem_of_getElem? (i := l - a) ?_
    rw [List.getElem?_drop, List.getElem?_take, if_pos (by omega),
      show a - 1 + (l - a) = l - 1 by omega, htext]
  unfold joinRange
  simp only
  rw [if_neg (by omega), codeTokens_joinLines]
  exact List.mem_flatMap.2 ⟨text, hmem, htoken⟩

theorem indexedText_eq_self_iff (body : Text) :
    indexedText body = body ↔ byteLen body ≤ maxChunkBytes :=
  truncate_eq_self_iff body maxChunkBytes

/-- Chunks that are not cut and cover the lines outside the spans are complete. -/
theorem lexicallyComplete_of_covers {D : Deps} {ls : List Text} {spans : List SymbolSpan}
    {chunks : List ChunkSpec}
    (hcovers : ∀ l, 1 ≤ l → l ≤ ls.length → ¬ Inside spans l →
      ∃ spec ∈ chunks, spec.kind ≠ .symbol ∧ 1 ≤ spec.startLine ∧ spec.startLine ≤ l ∧
        l ≤ spec.endLine ∧ spec.body = joinRange ls spec.startLine spec.endLine)
    (hwithin : ∀ spec ∈ chunks, spec.kind ≠ .symbol → byteLen spec.body ≤ maxChunkBytes) :
    LexicallyComplete D ls spans chunks where
  found := by
    intro l text hl htext hout token htoken
    have hlen : l - 1 < ls.length := (List.getElem?_eq_some_iff.1 htext).1
    obtain ⟨spec, hmem, hkind, h1, h2, h3, hbody⟩ := hcovers l hl (by omega) hout
    refine ⟨spec, hmem, hkind, h2, h3, ?_⟩
    rw [(indexedText_eq_self_iff _).2 (hwithin spec hmem hkind), hbody]
    exact mem_codeTokens_joinRange D h1 h2 h3 htext htoken
  untruncated := fun spec hmem hkind => (indexedText_eq_self_iff _).2 (hwithin spec hmem hkind)

/-- The module chunks of a parsed file are within the cap iff its pieces are. -/
theorem SpanChunks.within_iff {ls : List Text} {spans : List SymbolSpan}
    {symbols modules : List ChunkSpec} (h : SpanChunks ls spans symbols modules) :
    (∀ spec ∈ modules, byteLen spec.body ≤ maxChunkBytes) ↔
      ∀ s e a f, IsRun ls spans s e → Piece ls s a f → f ≤ e →
        lineBytes ls a f ≤ maxChunkBytes + 1 := by
  constructor
  · intro hw s e a f hrun
    obtain ⟨chunks, hchunks, hsub⟩ := h.runs s e hrun
    exact (hchunks.within_iff hrun.pos hrun.end_le).1 (fun spec hspec => hw spec (hsub hspec)) a f
  · intro hf spec hspec
    obtain ⟨s, e, chunks, hrun, hchunks, hmem⟩ := h.fromRun spec hspec
    exact (hchunks.within_iff hrun.pos hrun.end_le).2 (fun a f => hf s e a f hrun) spec hmem

/-- A module chunk of the list is a piece's, so it starts within the file. -/
theorem SpanChunks.one_le {ls : List Text} {spans : List SymbolSpan}
    {symbols modules : List ChunkSpec} (h : SpanChunks ls spans symbols modules) {a z : Nat}
    (hmem : moduleChunk ls a z ∈ modules) : 1 ≤ a := by
  obtain ⟨s, e, chunks, hrun, hchunks, hspec⟩ := h.fromRun _ hmem
  obtain ⟨a', f, z', heq, hp, _⟩ := hchunks.isPiece _ hspec
  have ha : a = a' := congrArg ChunkSpec.startLine heq
  rw [ha]; exact hp.one_le hrun.pos

theorem RunChunks.kind {ls : List Text} {s e : Nat} {chunks : List ChunkSpec}
    (h : RunChunks ls s e chunks) {spec : ChunkSpec} (hspec : spec ∈ chunks) :
    spec.kind = .module := by
  obtain ⟨a, f, z, rfl, _⟩ := h.isPiece spec hspec
  rfl

/-- An unparsed file is complete iff its windows fit. -/
theorem windows_complete_iff (D : Deps) (content : Text) :
    LexicallyComplete D (lines content) [] (chunkWindows content) ↔ Fits D content none := by
  have hkind : ∀ spec ∈ chunkWindows content, spec.kind = .window := fun spec hspec =>
    windowsFrom_kind _ _ _ spec (mem_chunkWindows hspec).2
  have hwithin : (∀ spec ∈ chunkWindows content, byteLen spec.body ≤ maxChunkBytes) ↔
      Fits D content none := by
    unfold chunkWindows Fits
    simp only
    by_cases h0 : (lines content).length = 0
    · rw [if_pos h0]
      constructor
      · intro _ k
        rw [List.length_eq_zero_iff.1 h0, lineBytes, List.take_nil, List.drop_nil]
        exact Nat.zero_le _
      · intro _ spec hspec; cases hspec
    · rw [if_neg h0]
      exact windowsFrom_within_iff _ _ 1 (by omega) (Nat.le_refl 1) (by omega)
  rw [← hwithin]
  constructor
  · intro h spec hspec
    exact (indexedText_eq_self_iff _).1 (h.untruncated spec hspec (by rw [hkind spec hspec]; simp))
  · intro h
    refine lexicallyComplete_of_covers (fun l h1 hl _ => ?_) fun spec hspec _ => h spec hspec
    obtain ⟨a, z, hmem, ha, hal, hlz, _⟩ :=
      windowsFrom_covers (lines content) (lines content).length 1 (by omega) (Nat.le_refl 1) l h1 hl
    refine ⟨windowChunk (lines content) a z, ?_, by simp [windowChunk], ha, hal, hlz, rfl⟩
    rw [chunkWindows_of_lines (by omega)]
    exact hmem

/-- A parsed file is complete iff its pieces fit. -/
theorem SpanChunks.complete_iff (D : Deps) {ls : List Text} {spans : List SymbolSpan}
    {symbols modules : List ChunkSpec} (h : SpanChunks ls spans symbols modules) :
    LexicallyComplete D ls spans (symbols ++ modules) ↔
      ∀ s e a f, IsRun ls spans s e → Piece ls s a f → f ≤ e →
        lineBytes ls a f ≤ maxChunkBytes + 1 := by
  have hkind : ∀ spec ∈ modules, spec.kind = .module := by
    intro spec hspec
    obtain ⟨s, e, chunks, _, hchunks, hmem⟩ := h.fromRun spec hspec
    exact hchunks.kind hmem
  have hmem : ∀ spec ∈ symbols ++ modules, spec.kind ≠ .symbol → spec ∈ modules := by
    intro spec hspec hne
    rcases List.mem_append.1 hspec with hs | hm
    · exact absurd (h.symbols spec hs) hne
    · exact hm
  rw [← h.within_iff]
  constructor
  · intro hc spec hspec
    exact (indexedText_eq_self_iff _).1
      (hc.untruncated spec (List.mem_append_right _ hspec) (by rw [hkind spec hspec]; simp))
  · intro hw
    refine lexicallyComplete_of_covers (fun l h1 hl hout => ?_)
      fun spec hspec hne => hw spec (hmem spec hspec hne)
    obtain ⟨a, z, hmod, hal, hlz⟩ := h.covers l h1 hl hout
    exact ⟨moduleChunk ls a z, List.mem_append_right _ hmod, by simp [moduleChunk],
      h.one_le hmod, hal, hlz, rfl⟩

/-- Whatever the language, a file whose spans are in range is chunked, and is
complete iff no chunk is bound to hold more than the byte cap. -/
theorem lexicallyComplete_iff (D : Deps) (content : Text) (language : Option Language)
    (hspans : InRange (lines content) (spansOf D content language)) :
    ∃ chunks, chunkFile D content language = some chunks ∧
      (LexicallyComplete D (lines content) (spansOf D content language) chunks ↔
        Fits D content language) := by
  cases language with
  | none => exact ⟨chunkWindows content, rfl, windows_complete_iff D content⟩
  | some lang =>
    obtain ⟨symbols, modules, hchunk, hspec⟩ := chunkSpans_spec hspans
    exact ⟨symbols ++ modules, hchunk, hspec.complete_iff D⟩

/-- A two-line file with a function on its first line. -/
def oneSpan : Deps :=
  { Deps.plain with
    parseSourceSpans := fun _ _ => .ok [(⟨"a".toList, [], none, 1, 0⟩, .function, 1, 1)] }

theorem lexicallyComplete_iff_oneSpan :
    InRange (lines "fn a\nb\n".toList) (spansOf oneSpan "fn a\nb\n".toList (some .rust)) ∧
      ∃ chunks, chunkFile oneSpan "fn a\nb\n".toList (some .rust) = some chunks ∧
        (LexicallyComplete oneSpan (lines "fn a\nb\n".toList)
            (spansOf oneSpan "fn a\nb\n".toList (some .rust)) chunks ↔
          Fits oneSpan "fn a\nb\n".toList (some .rust)) := by
  have h : InRange (lines "fn a\nb\n".toList)
      (spansOf oneSpan "fn a\nb\n".toList (some .rust)) := by
    intro span hspan
    have hspan : span = (⟨"a".toList, [], none, 1, 0⟩, .function, 1, 1) :=
      List.mem_singleton.1 hspan
    rw [hspan]; decide
  exact ⟨h, lexicallyComplete_iff _ _ _ h⟩

/-! ## A file that loses a line -/

def maxFileBytes : Nat := 1024 * 1024
def maxLineBytes : Nat := 4096

/-- The walker's limits on a file. -/
def Walkable (content : Text) : Prop :=
  byteLen content ≤ maxFileBytes ∧ ∀ line ∈ lines content, byteLen line ≤ maxLineBytes

/-- Two lines as long as the walker admits, then a word. -/
def longLines : List Text :=
  [List.replicate 4096 'a', List.replicate 4096 'b', "lost".toList]

theorem lines_longLines : lines (joinLines longLines) = longLines := by
  refine lines_joinLines longLines ?_ (by show some "lost".toList ≠ some []; decide)
  intro l hl
  unfold longLines at hl
  simp only [List.mem_cons, List.not_mem_nil, or_false] at hl
  rcases hl with rfl | rfl | rfl
  · constructor <;> intro h <;> cases List.eq_of_mem_replicate h
  · constructor <;> intro h <;> cases List.eq_of_mem_replicate h
  · decide

/-- The one window of the file is cut within its second line. -/
theorem indexedText_longLines :
    indexedText (joinLines longLines) =
      List.replicate 4096 'a' ++ '\n' :: List.replicate 4095 'b' := by
  have hascii : ∀ c ∈ joinLines longLines, c.utf8Size = 1 := by
    intro c hc
    have hc : c ∈ List.replicate 4096 'a' ++ '\n' :: (List.replicate 4096 'b' ++
        '\n' :: "lost".toList) := hc
    simp only [List.mem_append, List.mem_cons, List.mem_replicate] at hc
    rcases hc with ⟨_, rfl⟩ | rfl | ⟨_, rfl⟩ | rfl | hc
    · decide
    · decide
    · decide
    · decide
    · have hall : ("lost".toList.all fun c => decide (c.utf8Size = 1)) = true := by decide
      exact of_decide_eq_true (List.all_eq_true.1 hall c hc)
  have hlen : (joinLines longLines).length = 8198 := by
    show (List.replicate 4096 'a' ++ '\n' :: (List.replicate 4096 'b' ++
        '\n' :: "lost".toList)).length = 8198
    simp only [List.length_append, List.length_cons, List.length_replicate]
    rfl
  unfold indexedText
  rw [truncate_ascii _ hascii _ (by rw [hlen]; decide)]
  show (List.replicate 4096 'a' ++ '\n' :: (List.replicate 4096 'b' ++
    '\n' :: "lost".toList)).take (4096 + (4095 + 1)) = _
  rw [List.take_append, List.length_replicate, Nat.add_sub_cancel_left, List.take_succ_cons,
    List.take_append_of_le_length (by rw [List.length_replicate]; omega),
    List.take_replicate, List.take_replicate]
  rfl

theorem window_loses_line :
    Walkable (joinLines longLines) ∧
      ∃ chunks, chunkFile Deps.plain (joinLines longLines) none = some chunks ∧
        (lines (joinLines longLines))[2]? = some "lost".toList ∧
        "lost".toList ∈ codeTokens Deps.plain.chars "lost".toList ∧
        (∀ spec ∈ chunks, "lost".toList ∉ codeTokens Deps.plain.chars (indexedText spec.body)) ∧
        ¬ LexicallyComplete Deps.plain (lines (joinLines longLines)) [] chunks := by
  have hword : ∀ (c : Char) (n : Nat), n ≠ 0 → c.toNat < 128 → c.isAlphanum = true →
      c.isUpper = false → codeTokens Deps.plain.chars (List.replicate n c) =
        [List.replicate n c] := by
    intro c n hn h1 h2 h3
    refine codeTokens_word _ _ (by simpa using hn) fun d hd => ?_
    rw [List.eq_of_mem_replicate hd]
    exact ⟨h1, h2, h3⟩
  have hlost : codeTokens Deps.plain.chars "lost".toList = ["lost".toList] := by decide
  have hchunks : chunkWindows (joinLines longLines) = [windowChunk longLines 1 3] := by
    unfold chunkWindows
    rw [lines_longLines]
    rfl
  have hbody : ∀ spec ∈ [windowChunk longLines 1 3],
      "lost".toList ∉ codeTokens Deps.plain.chars (indexedText spec.body) := by
    intro spec hspec
    rw [List.mem_singleton.1 hspec]
    show "lost".toList ∉ codeTokens Deps.plain.chars (indexedText (joinLines longLines))
    rw [indexedText_longLines, codeTokens_append_cons _ _ _ _ (isAlphanumeric_newline _),
      hword 'a' 4096 (by decide) (by decide) (by decide) (by decide),
      hword 'b' 4095 (by decide) (by decide) (by decide) (by decide)]
    intro hmem
    have hl : 'l' ∈ "lost".toList := by decide
    rcases List.mem_append.1 hmem with h | h
    · rw [List.mem_singleton.1 h] at hl
      cases List.eq_of_mem_replicate hl
    · rw [List.mem_singleton.1 h] at hl
      cases List.eq_of_mem_replicate hl
  have hthird : longLines[2]? = some "lost".toList := rfl
  have htoken : "lost".toList ∈ codeTokens Deps.plain.chars "lost".toList := by
    rw [hlost]; exact List.mem_cons_self
  refine ⟨⟨?_, ?_⟩, _, congrArg some hchunks, by rw [lines_longLines, hthird], htoken, hbody, ?_⟩
  · show byteLen (List.replicate 4096 'a' ++ '\n' :: (List.replicate 4096 'b' ++
      '\n' :: "lost".toList)) ≤ maxFileBytes
    simp only [byteLen_append, byteLen_cons, byteLen_replicate]
    decide
  · rw [lines_longLines]
    intro line hline
    unfold longLines at hline
    simp only [List.mem_cons, List.not_mem_nil, or_false] at hline
    rcases hline with rfl | rfl | rfl
    · rw [byteLen_replicate]; decide
    · rw [byteLen_replicate]; decide
    · decide
  · intro hc
    rw [lines_longLines] at hc
    obtain ⟨spec, hspec, _, _, _, hmem⟩ :=
      hc.found 3 _ (by omega) hthird (by rintro ⟨_, h, _⟩; cases h) _ htoken
    exact hbody spec hspec hmem

end CodeSearch
