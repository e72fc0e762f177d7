import Mathlib.Data.List.Nodup
import CodeSearch.Caps
import CodeSearch.ChunkId
import CodeSearch.Lib.Greedy

/-!
# The chunks of a parsed file partition it

`chunkSpans` gives one symbol chunk to each distinct clamped span, that of the first
span with the range (`SymbolsOf`), and cuts the lines outside the spans into module
chunks whose lines are those lines, each once and in order (`ModulesOf`).  So no two
chunks of a file share their range, and the ids inserted for it are distinct
(`chunkParsed_partition`).  A span that starts after the file is clamped to its own start,
and indexing there panics (`chunk_parsed_in_bounds_iff`).
-/

namespace CodeSearch

open Greedy Store

/-! ## Clamped spans -/

/-- The span with its range clamped to the file. -/
def clampSpan (ls : List Text) (span : SymbolSpan) : SymbolSpan :=
  (span.1, span.2.1, max span.2.2.1 1, max (min span.2.2.2 ls.length) (max span.2.2.1 1))

/-- The symbol chunk of a span. -/
def spanChunk (ls : List Text) (span : SymbolSpan) : ChunkSpec :=
  symbolChunk ls span.1 span.2.1 span.2.2.1 span.2.2.2

/-- The spans that get a chunk: the first of each clamped range. -/
def firstSpans (ls : List Text) (spans : List SymbolSpan) : List SymbolSpan :=
  keepFirst (fun span kept => decide (span.2.2 = kept.2.2)) (spans.map (clampSpan ls))

theorem spanStep_clamp (ls : List Text) (st : SpanState) (span : SymbolSpan) :
    spanStep ls st (clampSpan ls span) = spanStep ls st span := by
  obtain ⟨sig, kind, start, fin⟩ := span
  have hstart : max (max start 1) 1 = max start 1 := by omega
  have hfin : max (min (max (min fin ls.length) (max start 1)) ls.length) (max start 1) =
      max (min fin ls.length) (max start 1) := by omega
  unfold spanStep clampSpan
  simp only [hstart, hfin]

/-- Clamping the spans beforehand changes nothing. -/
theorem chunkSpans_clamp (ls : List Text) (spans : List SymbolSpan) :
    chunkSpans ls (spans.map (clampSpan ls)) = chunkSpans ls spans := by
  unfold chunkSpans
  simp only [List.foldlM_map, spanStep_clamp]

/-! ## Symbol chunks -/

/-- The span loop after `seen`: the chunks of the first span of each range so far. -/
structure SymbolsOf (ls : List Text) (seen : List SymbolSpan) (st : SpanState) : Prop where
  chunks : st.chunks = (keepFirst (fun span kept => decide (span.2.2 = kept.2.2)) seen).map
    (spanChunk ls)
  ranges : ∀ r, r ∈ st.seenRanges ↔ ∃ span ∈ seen, span.2.2 = r

/-- A range was seen if and only if a kept span has it. -/
theorem SymbolsOf.seen_iff {ls : List Text} {seen : List SymbolSpan} {st : SpanState}
    (h : SymbolsOf ls seen st) (range : Nat × Nat) : range ∈ st.seenRanges ↔
      (keepFirst (fun span kept => decide (span.2.2 = kept.2.2)) seen).any
        (fun kept => decide (range = kept.2.2)) = true := by
  rw [h.ranges, List.any_eq_true]
  constructor
  · rintro ⟨span, hmem, heq⟩
    -- the first span with this range was kept
    obtain ⟨pre, post, rfl⟩ := List.append_of_mem hmem
    rcases kept_or_dup (fun span kept : SymbolSpan => decide (span.2.2 = kept.2.2)) pre span post
      with hk | ⟨y, hy, hdup⟩
    · exact ⟨span, hk, by rw [heq]; simp⟩
    · refine ⟨y, (prefix_keepFirst _ pre (span :: post)).subset hy, ?_⟩
      rw [← heq]
      exact hdup
  · rintro ⟨kept, hmem, heq⟩
    exact ⟨kept, (keepFirst_sublist _ _).subset hmem, (of_decide_eq_true heq).symm⟩

theorem SymbolsOf.step {ls : List Text} {seen : List SymbolSpan} {st st' : SpanState}
    (h : SymbolsOf ls seen st) {span : SymbolSpan}
    (hspan : 1 ≤ span.2.2.1 ∧ span.2.2.1 ≤ span.2.2.2 ∧ span.2.2.2 ≤ ls.length)
    (hstep : spanStep ls st span = some st') : SymbolsOf ls (seen ++ [span]) st' := by
  obtain ⟨sig, kind, start, fin⟩ := span
  obtain ⟨h1, h2, h3⟩ := hspan
  simp only at h1 h2 h3
  have hstart : max start 1 = start := by omega
  have hend : max (min fin ls.length) start = fin := by omega
  unfold spanStep at hstep
  simp only [hstart, hend] at hstep
  have hkept := h.seen_iff (start, fin)
  have hconcat : ∀ r, (∃ span ∈ seen ++ [(sig, kind, start, fin)], span.2.2 = r) ↔
      (∃ span ∈ seen, span.2.2 = r) ∨ (start, fin) = r := by
    intro r
    simp only [List.mem_append, List.mem_singleton, or_and_right, exists_or, exists_eq_left]
  by_cases hmem : (start, fin) ∈ st.seenRanges
  · rw [if_pos hmem] at hstep
    cases hstep
    refine ⟨?_, fun r => ?_⟩
    · rw [keepFirst_concat, keepStep, if_pos (hkept.1 hmem)]
      exact h.chunks
    · rw [hconcat, ← h.ranges]
      exact ⟨.inl, fun hr => hr.elim id fun heq => heq ▸ hmem⟩
  · rw [if_neg hmem] at hstep
    obtain ⟨covered, -, hst⟩ := Option.bind_eq_some_iff.1 hstep
    cases hst
    refine ⟨?_, fun r => ?_⟩
    · rw [keepFirst_concat, keepStep, if_neg fun hany => hmem (hkept.2 hany), List.map_append,
        ← h.chunks]
      rfl
    · rw [hconcat, ← h.ranges, List.mem_cons]
      exact ⟨fun hr => hr.elim (fun heq => .inr heq.symm) .inl,
        fun hr => hr.elim .inr fun heq => .inl heq.symm⟩

/-! ## Module chunks -/

/-- The run loop before line `i`: the lines of the module chunks so far, then those of
the open run, are the lines before `i` outside the spans. -/
structure ModulesOf (ls : List Text) (spans : List SymbolSpan) (i runStart : Nat)
    (modules : List ChunkSpec) : Prop where
  opened : runStart ≠ 0 → runStart < i ∧ i ≤ ls.length
  ranges : ∀ spec ∈ modules, spec = moduleChunk ls spec.startLine spec.endLine ∧
    1 ≤ spec.startLine ∧ spec.startLine ≤ spec.endLine ∧ spec.endLine ≤ ls.length
  lines : modules.flatMap ChunkSpec.lineNumbers ++
      (if runStart = 0 then [] else List.range' runStart (i - runStart)) =
    (List.range' 1 (i - 1)).filter fun l => !decide (Inside spans l)

/-- The chunks of a run of the file. -/
theorem splitModuleRun_lines {ls : List Text} {s e : Nat} (hs : 1 ≤ s) (hse : s ≤ e)
    (he : e ≤ ls.length) (given : List ChunkSpec) :
    ∃ chunks, splitModuleRun ls s e given = some (given ++ chunks) ∧
      (∀ spec ∈ chunks, spec = moduleChunk ls spec.startLine spec.endLine ∧
        1 ≤ spec.startLine ∧ spec.startLine ≤ spec.endLine ∧ spec.endLine ≤ ls.length) ∧
      chunks.flatMap ChunkSpec.lineNumbers = List.range' s (e + 1 - s) := by
  obtain ⟨b, closed, hsplit, hbe, htrail, -⟩ := splitModuleRun_trail hs hse he given
  have hsb := htrail.start_le
  refine ⟨_, hsplit, fun spec hspec => ?_, ?_⟩
  · rcases List.mem_append.1 hspec with hold | hnew
    · obtain ⟨a, z, rfl, hsa, haz, l, hl, hover⟩ := htrail.of_mem spec hold
      have hz := hover.cut.lt
      exact ⟨rfl, by show 1 ≤ a; omega, haz, by show z ≤ ls.length; omega⟩
    · rw [List.mem_singleton.1 hnew]
      exact ⟨rfl, by show 1 ≤ b; omega, hbe, he⟩
  · exact tiles_concat hsb hbe htrail.tiles

/-- The lines outside the spans, with one more line. -/
theorem filter_outside_succ (spans : List SymbolSpan) {i : Nat} (h1 : 1 ≤ i) :
    (List.range' 1 (i + 1 - 1)).filter (fun l => !decide (Inside spans l)) =
      (List.range' 1 (i - 1)).filter (fun l => !decide (Inside spans l)) ++
        if Inside spans i then [] else [i] := by
  obtain ⟨n, rfl⟩ : ∃ n, i = n + 1 := ⟨i - 1, by omega⟩
  rw [Nat.add_sub_cancel, Nat.add_sub_cancel, List.range'_1_concat, List.filter_append]
  congr 1
  rw [List.filter_singleton, Nat.add_comm 1 n]
  by_cases hin : Inside spans (n + 1)
  · simp [hin]
  · simp [hin]

/-- At a line outside the spans a run is open, from there on if not before. -/
theorem ModulesOf.openRun {ls : List Text} {spans : List SymbolSpan} {i runStart : Nat}
    {modules : List ChunkSpec} (h : ModulesOf ls spans i runStart modules) (h1 : 1 ≤ i)
    (hin : ¬ Inside spans i) : ∃ r, r = (if runStart = 0 then i else runStart) ∧ r ≠ 0 ∧ r ≤ i ∧
      modules.flatMap ChunkSpec.lineNumbers ++ List.range' r (i + 1 - r) =
        (List.range' 1 (i + 1 - 1)).filter fun l => !decide (Inside spans l) := by
  have hline := filter_outside_succ spans h1
  rw [if_neg hin] at hline
  by_cases h0 : runStart = 0
  · refine ⟨i, by rw [if_pos h0], by omega, Nat.le_refl _, ?_⟩
    rw [hline, ← h.lines, if_pos h0, List.append_nil, Nat.add_sub_cancel_left]
    rfl
  · obtain ⟨hlt, -⟩ := h.opened h0
    refine ⟨runStart, by rw [if_neg h0], h0, by omega, ?_⟩
    have hrange : List.range' runStart (i + 1 - runStart) =
        List.range' runStart (i - runStart) ++ [i] := by
      rw [show i + 1 - runStart = (i - runStart) + 1 by omega, List.range'_1_concat,
        Nat.add_sub_cancel' (by omega : runStart ≤ i)]
    rw [hline, ← h.lines, if_neg h0, hrange, List.append_assoc]

theorem ModulesOf.step {ls : List Text} {spans : List SymbolSpan} {covered : List Bool}
    (hcov : ∀ l, l ≤ ls.length → covered[l]? = some (decide (Inside spans l)))
    {i runStart : Nat} {modules : List ChunkSpec} (given : List ChunkSpec)
    (h : ModulesOf ls spans i runStart modules) (h1 : 1 ≤ i) (hi : i ≤ ls.length) :
    ∃ runStart' modules', runStep ls covered (runStart, given ++ modules) i =
        some (runStart', given ++ modules') ∧ ModulesOf ls spans (i + 1) runStart' modules' := by
  unfold runStep
  rw [hcov i hi]
  by_cases hin : Inside spans i
  · have hline := filter_outside_succ spans h1
    rw [if_pos hin, List.append_nil] at hline
    by_cases h0 : runStart = 0
    · -- nothing is open
      refine ⟨0, modules, by simp [hin, h0], fun hne => absurd rfl hne, h.ranges, ?_⟩
      rw [hline, ← h.lines, if_pos rfl, if_pos h0]
    · -- the open run ends on the line before
      obtain ⟨hlt, -⟩ := h.opened h0
      obtain ⟨chunks, hsplit, hranges, hlines⟩ :=
        splitModuleRun_lines (by omega : 1 ≤ runStart) (by omega : runStart ≤ i - 1)
          (by omega : i - 1 ≤ ls.length) (given ++ modules)
      refine ⟨0, modules ++ chunks, by simp [hin, h0, hsplit], fun hne => absurd rfl hne,
        fun spec hspec => (List.mem_append.1 hspec).elim (h.ranges spec) (hranges spec), ?_⟩
      rw [hline, ← h.lines, if_pos rfl, if_neg h0, List.append_nil, List.flatMap_append, hlines]
      congr 2
      omega
  · obtain ⟨r, hr, hr0, hri, hlines⟩ := h.openRun h1 hin
    by_cases hlast : i = ls.length
    · obtain ⟨chunks, hsplit, hranges, hchunks⟩ :=
        splitModuleRun_lines (by omega : 1 ≤ r) hri hi (given ++ modules)
      refine ⟨0, modules ++ chunks, by simp [hin, ← hr, hr0, ← hlast, hsplit],
        fun hne => absurd rfl hne,
        fun spec hspec => (List.mem_append.1 hspec).elim (h.ranges spec) (hranges spec), ?_⟩
      rw [if_pos rfl, List.append_nil, List.flatMap_append, hchunks]
      exact hlines
    · refine ⟨r, modules, by simp [hin, ← hr, hlast], fun _ => ⟨by omega, by omega⟩, h.ranges, ?_⟩
      rw [if_neg hr0]
      exact hlines

/-! ## The partition -/

theorem mem_lineNumbers {spec : ChunkSpec} {l : Nat} :
    l ∈ spec.lineNumbers ↔ spec.startLine ≤ l ∧ l ≤ spec.endLine := by
  unfold ChunkSpec.lineNumbers
  rw [List.mem_range'_1]
  omega

/-- Module chunks of the lines outside the spans, each line once and in order. -/
structure HoldOutside (ls : List Text) (spans : List SymbolSpan) (modules : List ChunkSpec) :
    Prop where
  ranges : ∀ spec ∈ modules, spec = moduleChunk ls spec.startLine spec.endLine ∧
    1 ≤ spec.startLine ∧ spec.startLine ≤ spec.endLine ∧ spec.endLine ≤ ls.length
  lines : modules.flatMap ChunkSpec.lineNumbers =
    (List.range' 1 ls.length).filter fun l => !decide (Inside spans l)

/-- The symbol chunks of spans in range, then the module chunks. -/
theorem chunkSpans_lines {ls : List Text} {spans : List SymbolSpan} (h : InRange ls spans) :
    ∃ modules, chunkSpans ls spans =
        some ((keepFirst (fun span kept => decide (span.2.2 = kept.2.2)) spans).map (spanChunk ls) ++
          modules) ∧ HoldOutside ls spans modules := by
  obtain ⟨st, hspans, hdone, hsymbols⟩ := foldlM_of_invariant (f := spanStep ls) spans
    (fun seen st => SpansDone ls seen st ∧ SymbolsOf ls seen st)
    (by
      rintro seen span rest st rfl ⟨hst, hsym⟩
      have hspan := h span (by simp)
      obtain ⟨st', hstep, hst'⟩ := hst.step hspan
      exact ⟨st', hstep, hst', hsym.step hspan hstep⟩)
    (s := ⟨List.replicate (ls.length + 1) false, [], []⟩)
    ⟨⟨(by
        intro l hl
        rw [List.getElem?_replicate, if_pos (by omega)]
        simp [Inside]),
      (by intro r hr; cases hr), (by intro spec hspec; cases hspec)⟩,
      rfl, fun r => ⟨(by intro hr; cases hr), (by rintro ⟨_, hr, _⟩; cases hr)⟩⟩
  obtain ⟨⟨runStart, out⟩, hloop, modules, hout, hI⟩ := foldlM_range'_of_invariant
    (f := runStep ls st.covered)
    (fun i acc => ∃ modules, acc.2 = st.chunks ++ modules ∧ ModulesOf ls spans i acc.1 modules)
    ls.length 1 (0, st.chunks)
    (by
      rintro i ⟨runStart, out⟩ h1 hlt ⟨modules, hout, hI⟩
      simp only at hout hI
      subst hout
      obtain ⟨runStart', modules', hstep, hI'⟩ := hI.step hdone.covered st.chunks h1 (by omega)
      exact ⟨_, hstep, modules', rfl, hI'⟩)
    ⟨[], (List.append_nil _).symm, fun h0 => absurd rfl h0, (by intro spec hspec; cases hspec), rfl⟩
  simp only at hout hI
  subst hout
  -- the last line closes the last run
  have hclosed : runStart = 0 := by
    by_contra h0
    have := (hI.opened h0).2
    omega
  have hlines := hI.lines
  rw [if_pos hclosed, List.append_nil, Nat.add_sub_cancel_left] at hlines
  refine ⟨modules, ?_, ⟨hI.ranges, hlines⟩⟩
  rw [← hsymbols.chunks]
  unfold chunkSpans
  simp [hspans, hloop]

/-- The chunks of a file of lines `ls` and its spans: bodies are line ranges, no two
ranges are equal, symbol chunks hold the lines of the clamped spans, one chunk a range with the
symbol of the first span, and module chunks hold every other line, each in one of them. -/
structure Partitions (ls : List Text) (spans : List SymbolSpan) (chunks : List ChunkSpec) :
    Prop where
  kinds : ∀ spec ∈ chunks, spec.kind = .symbol ∨ spec.kind = .module
  bodies : ∀ spec ∈ chunks, 1 ≤ spec.startLine ∧ spec.startLine ≤ spec.endLine ∧
    spec.endLine ≤ ls.length ∧ spec.body = joinLines ((ls.take spec.endLine).drop (spec.startLine - 1))
  ranges : (chunks.map fun spec => (spec.startLine, spec.endLine)).Nodup
  ids : ∀ relPath, (chunks.map fun spec => chunkId relPath spec.startLine spec.endLine).Nodup
  symbolLines : ∀ l, (∃ spec ∈ chunks, spec.kind = .symbol ∧ l ∈ spec.lineNumbers) ↔
    Inside (spans.map (clampSpan ls)) l
  moduleLines : ∀ l, 1 ≤ l → l ≤ ls.length → ¬ Inside (spans.map (clampSpan ls)) l →
    ∃! spec, spec ∈ chunks ∧ spec.kind = .module ∧ l ∈ spec.lineNumbers
  outside : ∀ spec ∈ chunks, spec.kind = .module → ∀ l ∈ spec.lineNumbers,
    ¬ Inside (spans.map (clampSpan ls)) l
  symbolOf : ∀ span ∈ spans, ∃ first spec,
    spans.find? (fun x => decide ((clampSpan ls x).2.2 = (clampSpan ls span).2.2)) = some first ∧
    chunks.filter (fun spec => decide (spec.kind = .symbol ∧
      (spec.startLine, spec.endLine) = (clampSpan ls span).2.2)) = [spec] ∧
    spec.symbol = some first.1 ∧ spec.symbolKind = some first.2.1

/-- Chunks of nonempty ranges that share no line have different ranges. -/
theorem nodup_ranges {chunks : List ChunkSpec} (hne : ∀ spec ∈ chunks, spec.startLine ≤ spec.endLine)
    (h : (chunks.flatMap ChunkSpec.lineNumbers).Nodup) :
    (chunks.map fun spec => (spec.startLine, spec.endLine)).Nodup := by
  refine List.pairwise_map.2 ((List.nodup_flatMap.1 h).2.imp_of_mem fun {a b} ha _ hdis heq => ?_)
  obtain ⟨hstart, hend⟩ := Prod.mk.injEq _ _ _ _ ▸ heq
  have hle := hne a ha
  exact hdis (mem_lineNumbers.2 ⟨Nat.le_refl _, hle⟩) (mem_lineNumbers.2 ⟨hstart.ge, by omega⟩)

/-- One span with the range of `span` gets a chunk, the first of them. -/
theorem filter_firstSpans (ls : List Text) {spans : List SymbolSpan} {span : SymbolSpan}
    (hspan : span ∈ spans) : ∃ first,
      spans.find? (fun x => decide ((clampSpan ls x).2.2 = (clampSpan ls span).2.2)) = some first ∧
      (firstSpans ls spans).filter (fun x => decide (x.2.2 = (clampSpan ls span).2.2)) =
        [clampSpan ls first] := by
  have hsome : (spans.find? fun x =>
      decide ((clampSpan ls x).2.2 = (clampSpan ls span).2.2)).isSome := by
    rw [List.find?_isSome]
    exact ⟨span, hspan, decide_eq_true rfl⟩
  obtain ⟨first, hfirst⟩ := Option.isSome_iff_exists.1 hsome
  refine ⟨first, hfirst, ?_⟩
  have hmap : (spans.map (clampSpan ls)).find? (fun x =>
      decide (x.2.2 = (clampSpan ls span).2.2)) = some (clampSpan ls first) := by
    rw [List.find?_map]
    exact congrArg (Option.map _) hfirst
  unfold firstSpans
  rw [filter_keepFirst (fun x : SymbolSpan => x.2.2), hmap]
  rfl

/-- The range of every span is the range of one that gets a chunk. -/
theorem range_mem_firstSpans {ls : List Text} {spans : List SymbolSpan} {r : Nat × Nat} :
    (∃ span ∈ spans.map (clampSpan ls), span.2.2 = r) ↔ ∃ kept ∈ firstSpans ls spans, kept.2.2 = r := by
  constructor
  · rintro ⟨_, hmem, rfl⟩
    obtain ⟨span, hspan, rfl⟩ := List.mem_map.1 hmem
    obtain ⟨first, -, hfilter⟩ := filter_firstSpans ls hspan
    have hmem : clampSpan ls first ∈ (firstSpans ls spans).filter
        fun x => decide (x.2.2 = (clampSpan ls span).2.2) := by
      rw [hfilter]
      exact List.mem_singleton.2 rfl
    obtain ⟨hkept, heq⟩ := List.mem_filter.1 hmem
    exact ⟨_, hkept, of_decide_eq_true heq⟩
  · rintro ⟨kept, hkept, rfl⟩
    exact ⟨kept, (keepFirst_sublist _ _).subset hkept, rfl⟩

theorem nodup_firstSpans (ls : List Text) (spans : List SymbolSpan) :
    ((firstSpans ls spans).map fun span => span.2.2).Nodup := by
  refine List.pairwise_map.2 ((keepFirst_pairwise _ _).imp fun {a b} h heq => ?_)
  rw [decide_eq_false_iff_not] at h
  exact h heq.symm

section
variable {ls : List Text} {spans : List SymbolSpan} {modules : List ChunkSpec}

theorem HoldOutside.kind (h : HoldOutside ls spans modules) {spec : ChunkSpec}
    (hspec : spec ∈ modules) : spec.kind = .module := by
  rw [(h.ranges spec hspec).1]
  rfl

theorem HoldOutside.mem_iff (h : HoldOutside ls spans modules) {l : Nat} :
    (∃ spec ∈ modules, l ∈ spec.lineNumbers) ↔ 1 ≤ l ∧ l ≤ ls.length ∧ ¬ Inside spans l := by
  rw [← List.mem_flatMap, h.lines, List.mem_filter, List.mem_range'_1]
  simp only [Bool.not_eq_true', decide_eq_false_iff_not]
  constructor
  · rintro ⟨⟨h1, hlt⟩, hnot⟩
    exact ⟨h1, by omega, hnot⟩
  · rintro ⟨h1, hle, hnot⟩
    exact ⟨⟨h1, by omega⟩, hnot⟩

theorem HoldOutside.nodup (h : HoldOutside ls spans modules) :
    (modules.flatMap ChunkSpec.lineNumbers).Nodup := by
  rw [h.lines]
  exact List.Nodup.filter _ List.nodup_range'

/-- A line is in one module chunk only. -/
theorem HoldOutside.unique (h : HoldOutside ls spans modules) {spec spec' : ChunkSpec} {l : Nat}
    (hspec : spec ∈ modules) (hspec' : spec' ∈ modules) (hl : l ∈ spec.lineNumbers)
    (hl' : l ∈ spec'.lineNumbers) : spec = spec' := by
  by_contra hne
  have hsymm : Std.Symm (Function.onFun List.Disjoint ChunkSpec.lineNumbers) :=
    ⟨fun _ _ hd _ hx hy => hd hy hx⟩
  exact (List.nodup_flatMap.1 h.nodup).2.forall hspec hspec' hne hl hl'

theorem mem_firstSpans {span : SymbolSpan} (h : span ∈ firstSpans ls spans) :
    span ∈ spans.map (clampSpan ls) := (keepFirst_sublist _ _).subset h

theorem inside_iff_firstSpans {l : Nat} : Inside (spans.map (clampSpan ls)) l ↔
    ∃ kept ∈ firstSpans ls spans, l ∈ (spanChunk ls kept).lineNumbers := by
  constructor
  · rintro ⟨span, hspan, hl⟩
    obtain ⟨kept, hkept, heq⟩ := range_mem_firstSpans.1 ⟨span, hspan, rfl⟩
    refine ⟨kept, hkept, mem_lineNumbers.2 ?_⟩
    show kept.2.2.1 ≤ l ∧ l ≤ kept.2.2.2
    rw [heq]
    exact hl
  · rintro ⟨kept, hkept, hl⟩
    exact ⟨kept, mem_firstSpans hkept, mem_lineNumbers.1 hl⟩

/-- No two chunks of the file have the same range. -/
theorem nodup_chunk_ranges (hin : InRange ls (spans.map (clampSpan ls)))
    (h : HoldOutside ls (spans.map (clampSpan ls)) modules) :
    (((firstSpans ls spans).map (spanChunk ls) ++ modules).map
      fun spec => (spec.startLine, spec.endLine)).Nodup := by
  rw [List.map_append, List.nodup_append, List.map_map]
  refine ⟨nodup_firstSpans ls spans, nodup_ranges (fun spec hspec => (h.ranges spec hspec).2.2.1)
    h.nodup, ?_⟩
  intro r hr r' hr' heq
  obtain ⟨span, hspan, rfl⟩ := List.mem_map.1 hr
  obtain ⟨spec, hspec, rfl⟩ := List.mem_map.1 hr'
  have hle := (hin span (mem_firstSpans hspan)).2.1
  have hstart : span.2.2.1 = spec.startLine := congrArg Prod.fst heq
  have hend : span.2.2.2 = spec.endLine := congrArg Prod.snd heq
  have hline : spec.startLine ∈ spec.lineNumbers := mem_lineNumbers.2 ⟨Nat.le_refl _, by omega⟩
  exact (h.mem_iff.1 ⟨spec, hspec, hline⟩).2.2
    (inside_iff_firstSpans.2 ⟨span, hspan, mem_lineNumbers.2 ⟨hstart.le, by rw [← hstart]; exact hle⟩⟩)

/-- The symbol chunks with the range of a span: the one of the first span with it. -/
theorem filter_symbolChunks (h : HoldOutside ls (spans.map (clampSpan ls)) modules)
    {span : SymbolSpan} (hspan : span ∈ spans) : ∃ first,
      spans.find? (fun x => decide ((clampSpan ls x).2.2 = (clampSpan ls span).2.2)) = some first ∧
      ((firstSpans ls spans).map (spanChunk ls) ++ modules).filter (fun spec =>
        decide (spec.kind = .symbol ∧ (spec.startLine, spec.endLine) = (clampSpan ls span).2.2)) =
        [spanChunk ls (clampSpan ls first)] := by
  obtain ⟨first, hfind, hfilter⟩ := filter_firstSpans ls hspan
  refine ⟨first, hfind, ?_⟩
  have hnone : modules.filter (fun spec => decide (spec.kind = .symbol ∧
      (spec.startLine, spec.endLine) = (clampSpan ls span).2.2)) = [] := by
    rw [List.filter_eq_nil_iff]
    intro spec hspec hd
    have hk := (of_decide_eq_true hd).1
    rw [h.kind hspec] at hk
    cases hk
  have hsame : (fun spec : ChunkSpec => decide (spec.kind = .symbol ∧
      (spec.startLine, spec.endLine) = (clampSpan ls span).2.2)) ∘ spanChunk ls =
      fun x : SymbolSpan => decide (x.2.2 = (clampSpan ls span).2.2) := by
    funext x
    simp [spanChunk, symbolChunk]
  rw [List.filter_append, List.filter_map, hnone, List.append_nil, hsame, hfilter]
  rfl

/-- The chunks of spans of the file partition it. -/
theorem partitions_chunkSpans (hin : InRange ls (spans.map (clampSpan ls))) :
    ∃ chunks, chunkSpans ls spans = some chunks ∧ Partitions ls spans chunks := by
  obtain ⟨modules, hchunks, h⟩ := chunkSpans_lines hin
  rw [chunkSpans_clamp] at hchunks
  have hranges := nodup_chunk_ranges hin h
  -- a chunk is a symbol chunk of a kept span or a module chunk
  have hcases : ∀ spec ∈ (firstSpans ls spans).map (spanChunk ls) ++ modules,
      (∃ span ∈ firstSpans ls spans, spec = spanChunk ls span) ∨ spec ∈ modules := by
    intro spec hspec
    refine (List.mem_append.1 hspec).imp_left fun hs => ?_
    obtain ⟨span, hspan, heq⟩ := List.mem_map.1 hs
    exact ⟨span, hspan, heq.symm⟩
  refine ⟨(firstSpans ls spans).map (spanChunk ls) ++ modules, hchunks, ?_⟩
  constructor
  · intro spec hspec
    rcases hcases spec hspec with ⟨span, -, rfl⟩ | hm
    · exact .inl rfl
    · exact .inr (h.kind hm)
  · intro spec hspec
    rcases hcases spec hspec with ⟨span, hspan, rfl⟩ | hm
    · obtain ⟨h1, h2, h3⟩ := hin span (mem_firstSpans hspan)
      exact ⟨h1, h2, h3, joinRange_of_le h1 h2 h3⟩
    · obtain ⟨heq, h1, h2, h3⟩ := h.ranges spec hm
      refine ⟨h1, h2, h3, ?_⟩
      rw [← joinRange_of_le h1 h2 h3]
      exact congrArg ChunkSpec.body heq
  · exact hranges
  · intro relPath
    have hinj : Function.Injective fun r : Nat × Nat => chunkId relPath r.1 r.2 := by
      intro a b hab
      obtain ⟨-, hstart, hend⟩ := chunkId_injective hab
      exact Prod.ext hstart hend
    have hids := hranges.map hinj
    rwa [List.map_map] at hids
  · intro l
    rw [inside_iff_firstSpans]
    constructor
    · rintro ⟨spec, hspec, hk, hl⟩
      rcases hcases spec hspec with ⟨span, hspan, rfl⟩ | hm
      · exact ⟨span, hspan, hl⟩
      · rw [h.kind hm] at hk
        cases hk
    · rintro ⟨kept, hkept, hl⟩
      exact ⟨_, List.mem_append_left _ (List.mem_map_of_mem hkept), rfl, hl⟩
  · intro l h1 hl hnot
    obtain ⟨spec, hspec, hline⟩ := h.mem_iff.2 ⟨h1, hl, hnot⟩
    refine ⟨spec, ⟨List.mem_append_right _ hspec, h.kind hspec, hline⟩, ?_⟩
    rintro spec' ⟨hspec', hk', hline'⟩
    rcases hcases spec' hspec' with ⟨span, -, rfl⟩ | hm
    · cases hk'
    · exact h.unique hm hspec hline' hline
  · intro spec hspec hk l hl
    rcases hcases spec hspec with ⟨span, -, rfl⟩ | hm
    · cases hk
    · exact (h.mem_iff.1 ⟨spec, hm, hl⟩).2.2
  · intro span hspan
    obtain ⟨first, hfind, hfilter⟩ := filter_symbolChunks h hspan
    exact ⟨first, _, hfind, hfilter, rfl, rfl⟩

end

/-! ## Parsed files -/

/-- A span loop that does not panic met spans of the file only. -/
theorem ends_le_of_spanSteps {ls : List Text} (spans : List SymbolSpan) : ∀ (st st' : SpanState),
    spans.foldlM (spanStep ls) st = some st' → st.covered.length = ls.length + 1 →
    (∀ r ∈ st.seenRanges, r.2 ≤ ls.length) →
    ∀ span ∈ spans, (clampSpan ls span).2.2.2 ≤ ls.length := by
  induction spans with
  | nil => intro st st' _ _ _ span hspan; cases hspan
  | cons x spans ih =>
    intro st st' h hlen hseen
    rw [List.foldlM_cons] at h
    obtain ⟨st₁, hstep, hrest⟩ := Option.bind_eq_some_iff.1 h
    have hx : (clampSpan ls x).2.2.2 ≤ ls.length ∧ st₁.covered.length = ls.length + 1 ∧
        ∀ r ∈ st₁.seenRanges, r.2 ≤ ls.length := by
      obtain ⟨sig, kind, start, fin⟩ := x
      unfold spanStep at hstep
      simp only at hstep
      split at hstep
      · next hmem =>
        cases hstep
        exact ⟨hseen _ hmem, hlen, hseen⟩
      · obtain ⟨covered, hcover, hst⟩ := Option.bind_eq_some_iff.1 hstep
        cases hst
        unfold coverRange at hcover
        split at hcover
        · next hle =>
          cases hcover
          have hend : (clampSpan ls (sig, kind, start, fin)).2.2.2 ≤ ls.length := by
            have := hle.2
            unfold clampSpan
            simp only
            omega
          refine ⟨hend, by rw [List.length_mapIdx]; exact hlen, fun r hr => ?_⟩
          rcases List.mem_cons.1 hr with rfl | hr
          · exact hend
          · exact hseen r hr
        · cases hcover
    intro span hspan
    rcases List.mem_cons.1 hspan with rfl | hmem
    · exact hx.1
    · exact ih st₁ st' hrest hx.2.1 hx.2.2 span hmem

theorem inRange_of_chunkSpans {ls : List Text} {spans : List SymbolSpan} {chunks : List ChunkSpec}
    (h : chunkSpans ls spans = some chunks) : InRange ls (spans.map (clampSpan ls)) := by
  unfold chunkSpans at h
  obtain ⟨st, hst, -⟩ := Option.bind_eq_some_iff.1 h
  intro span hspan
  obtain ⟨span, hmem, rfl⟩ := List.mem_map.1 hspan
  have hend := ends_le_of_spanSteps spans _ _ hst (List.length_replicate ..)
    (by intro r hr; cases hr) span hmem
  unfold clampSpan at hend ⊢
  simp only at hend ⊢
  omega

/-- Every span that starts in the file is one of it when clamped, so the chunks of a parsed
file partition it. -/
theorem chunkParsed_partition (D : Deps) (content : Text) (language : Language)
    (h : ∀ span ∈ spansOf D content (some language),
      1 ≤ span.2.2.1 ∧ span.2.2.1 ≤ (lines content).length) :
    ∃ chunks, chunkParsed D content language = some chunks ∧
      Partitions (lines content) (spansOf D content (some language)) chunks := by
  refine partitions_chunkSpans fun span hspan => ?_
  obtain ⟨span, hmem, rfl⟩ := List.mem_map.1 hspan
  obtain ⟨h1, h2⟩ := h span hmem
  unfold clampSpan
  simp only
  omega

/-- Spans of a four-line file: one of them ends before it starts, and one has the range of
another. -/
def threeSpans : Deps :=
  { Deps.plain with
    parseSourceSpans := fun _ _ => .ok [(⟨"a".toList, [], none, 1, 0⟩, .function, 1, 2),
      (⟨"b".toList, [], none, 2, 0⟩, .function, 2, 1), (⟨"c".toList, [], none, 1, 0⟩, .struct, 1, 2)] }

theorem chunkParsed_partition_threeSpans :
    (∀ span ∈ spansOf threeSpans "w\nx\ny\nz\n".toList (some .rust),
      1 ≤ span.2.2.1 ∧ span.2.2.1 ≤ (lines "w\nx\ny\nz\n".toList).length) ∧
    (chunkParsed threeSpans "w\nx\ny\nz\n".toList .rust).map (List.map fun spec =>
      (spec.startLine, spec.endLine, spec.body, (spec.symbol.elim [] fun sig => sig.name : Text))) =
        some [(1, 2, "w\nx".toList, "a".toList), (2, 2, "x".toList, "b".toList),
          (3, 4, "y\nz".toList, [])] ∧
    ∃ chunks, chunkParsed threeSpans "w\nx\ny\nz\n".toList .rust = some chunks ∧
      Partitions (lines "w\nx\ny\nz\n".toList)
        (spansOf threeSpans "w\nx\ny\nz\n".toList (some .rust)) chunks := by
  have h : ∀ span ∈ spansOf threeSpans "w\nx\ny\nz\n".toList (some .rust),
      1 ≤ span.2.2.1 ∧ span.2.2.1 ≤ (lines "w\nx\ny\nz\n".toList).length := by decide
  exact ⟨h, by decide +kernel, chunkParsed_partition _ _ _ h⟩

/-! ## Accesses in bounds -/

/-- `lines[lo..hi]`. -/
def sliceLines (ls : List Text) (lo hi : Nat) : Option (List Text) :=
  if lo ≤ hi ∧ hi ≤ ls.length then some ((ls.take hi).drop lo) else none

/-- `join_range` with its slice checked. -/
def joinRangeChecked (ls : List Text) (start end_ : Nat) : Option Text :=
  let lo := start - 1
  let hi := min end_ ls.length
  if hi ≤ lo then some [] else (sliceLines ls lo hi).map joinLines

theorem joinRangeChecked_eq (ls : List Text) (start end_ : Nat) :
    joinRangeChecked ls start end_ = some (joinRange ls start end_) := by
  unfold joinRangeChecked joinRange sliceLines
  dsimp only
  by_cases h : min end_ ls.length ≤ start - 1
  · rw [if_pos h, if_pos h]
  · rw [if_neg h, if_neg h, if_pos (by omega)]
    rfl

/-- The clamped spans are in the file exactly if every span starts in it. -/
theorem inRange_clampSpan_iff (ls : List Text) (spans : List SymbolSpan) :
    InRange ls (spans.map (clampSpan ls)) ↔ ∀ span ∈ spans, max span.2.2.1 1 ≤ ls.length := by
  unfold InRange
  rw [List.forall_mem_map]
  refine forall₂_congr fun span _ => ?_
  unfold clampSpan
  dsimp only
  omega

/-- No access of `chunk_parsed` is out of bounds exactly if every span starts in the file; the
slices of `join_range` never are. -/
theorem chunk_parsed_in_bounds_iff (D : Deps) (content : Text) (language : Language) :
    ((chunkParsed D content language).isSome ↔
      ∀ span ∈ spansOf D content (some language), max span.2.2.1 1 ≤ (lines content).length) ∧
    ∀ start end_, joinRangeChecked (lines content) start end_ =
      some (joinRange (lines content) start end_) := by
  refine ⟨?_, joinRangeChecked_eq (lines content)⟩
  rw [← inRange_clampSpan_iff, Option.isSome_iff_exists]
  constructor
  · rintro ⟨chunks, hchunks⟩
    exact inRange_of_chunkSpans hchunks
  · intro hin
    obtain ⟨chunks, hchunks, -⟩ := partitions_chunkSpans hin
    exact ⟨chunks, hchunks⟩

/-- A span on the first line, whatever the content. -/
def firstLineSpan : Deps :=
  { Deps.plain with
    parseSourceSpans := fun _ _ => .ok [(⟨"a".toList, [], none, 1, 0⟩, .function, 1, 1)] }

/-- The clamped end of a span is its start, which an empty file does not have. -/
theorem firstLineSpan_panics : ¬ ∀ (D : Deps) (content : Text) (language : Language),
    (chunkParsed D content language).isSome := fun h =>
  absurd (h firstLineSpan [] .rust) (by decide +kernel)

end CodeSearch
