import CodeSearch.Partition
import CodeSearch.Places
import CodeSearch.SourceTree
import CodeSearch.Windows

/-!
# The chunks of a parsed source

With spans from a tree of the source, a file is chunked unless a declaration is empty and
behind its last line, and every declaration is whole in one chunk
(`declarations_in_chunks`).

The line ranges of two declarations are nested or share at most one line, so that of the
chunks of one file exactly those of nested declarations are near-duplicates for stage A
(`dedup_drops_nested`).
-/

namespace CodeSearch

open TreeWalk RoseTree Greedy

section
variable {content : Text} {language : Language} {tree : SourceTree content}

theorem chunkFile_parsing (D : Deps) {parse : TreeSitter} (h : parse content language = .ok tree) :
    chunkFile (D.parsing parse) content (some language) =
      chunkSpans (lines content) (spansOfTree language tree.root) := by
  show chunkParsed (D.parsing parse) content language = _
  unfold chunkParsed
  rw [parseSourceSpans_parsing D h]
  rfl

/-- The span is for the token, which is a declaration of the file. -/
def Declares (tree : SourceTree content) (t : RoseTree Token) (span : SymbolSpan) : Prop :=
  t ∈ tree.tokens.nodes ∧ SpanOf (t.map (Token.info content)) span

theorem exists_declares (tree : SourceTree content) :
    ∀ span ∈ spansOfTree language tree.root, ∃ t, Declares tree t span := by
  intro span hspan
  obtain ⟨node, hnode, hof⟩ := spanOf_spansOfTree language tree.root span hspan
  obtain ⟨t, ht, rfl⟩ := tree.mem_nodes hnode
  exact ⟨t, ht, hof⟩

theorem Declares.range {t : RoseTree Token} {span : SymbolSpan} (h : Declares tree t span) :
    span.2.2.1 = rowAt content t.label.place.start + 1 ∧
      span.2.2.2 = rowAt content t.label.place.stop + 1 := by
  obtain ⟨-, -, hstart, hstop⟩ := h
  rw [label_map] at hstart hstop
  exact ⟨hstart, hstop⟩

theorem Declares.start_le_iff {t : RoseTree Token} {span : SymbolSpan} (h : Declares tree t span) :
    span.2.2.1 ≤ (lines content).length ↔ ¬ OffTheEnd content t.label.place.start := by
  obtain ⟨hle, hstop⟩ := tree.within t h.1
  rw [← rowAt_lt_iff (Nat.le_trans hle hstop), h.range.1]
  exact Nat.succ_le_iff

/-- The range of a span that starts in the file, when clamped. -/
theorem clamped_range {ls : List Text} {span : SymbolSpan} (h1 : 1 ≤ span.2.2.1)
    (hle : span.2.2.1 ≤ span.2.2.2) (hn : span.2.2.1 ≤ ls.length) :
    (clampSpan ls span).2.2 = (span.2.2.1, min span.2.2.2 ls.length) := by
  unfold clampSpan
  dsimp only
  congr 1
  · omega
  · omega

theorem joinRange_min (ls : List Text) (start stop : Nat) :
    joinRange ls start (min stop ls.length) = joinRange ls start stop := by
  unfold joinRange
  rw [Nat.min_assoc, Nat.min_self]

theorem Declares.clamped {t : RoseTree Token} {span : SymbolSpan} (h : Declares tree t span)
    (hstart : span.2.2.1 ≤ (lines content).length) : (clampSpan (lines content) span).2.2 =
      (rowAt content t.label.place.start + 1,
        min (rowAt content t.label.place.stop + 1) (lines content).length) := by
  obtain ⟨hstart', hstop'⟩ := h.range
  have hrows := rowAt_mono content t.label.place.le
  rw [clamped_range (by omega) (by omega) hstart, hstart', hstop']

/-- No declaration panics exactly if none is behind the last line, and then the chunks partition
the file and each declaration is in one of them. -/
theorem declarations_in_chunks (D : Deps) (parse : TreeSitter)
    (h : parse content language = .ok tree) :
    ((chunkFile (D.parsing parse) content (some language)).isSome ↔
      ∀ span ∈ spansOfTree language tree.root, ∀ t, Declares tree t span →
        ¬ OffTheEnd content t.label.place.start) ∧
    ∀ chunks, chunkFile (D.parsing parse) content (some language) = some chunks →
      Partitions (lines content) (spansOfTree language tree.root) chunks ∧
      ∀ span ∈ spansOfTree language tree.root, ∀ t, Declares tree t span →
        ∃ spec ∈ chunks, spec.kind = .symbol ∧
          spec.startLine = rowAt content t.label.place.start + 1 ∧
          withoutReturns (slice content t.label.place.start t.label.place.stop) <:+:
            withoutReturns spec.body ++ ['\n'] := by
  rw [chunkFile_parsing D h]
  constructor
  · constructor
    · intro hsome span hspan t ht
      obtain ⟨chunks, hchunks⟩ := Option.isSome_iff_exists.1 hsome
      have hstart := (inRange_clampSpan_iff _ _).1 (inRange_of_chunkSpans hchunks) span hspan
      exact ht.start_le_iff.1 (by omega)
    · intro hin
      obtain ⟨chunks, hchunks, -⟩ := partitions_chunkSpans
        ((inRange_clampSpan_iff (lines content) (spansOfTree language tree.root)).2 fun span hspan => by
          obtain ⟨t, ht⟩ := exists_declares tree span hspan
          have hstart := ht.start_le_iff.2 (hin span hspan t ht)
          have hrange := ht.range.1
          omega)
      rw [hchunks]
      rfl
  · intro chunks hchunks
    have hin := inRange_of_chunkSpans hchunks
    obtain ⟨chunks', hchunks', hpartition⟩ := partitions_chunkSpans hin
    rw [hchunks] at hchunks'
    cases hchunks'
    refine ⟨hpartition, fun span hspan t ht => ?_⟩
    have hstart := (inRange_clampSpan_iff _ _).1 hin span hspan
    have hclamped := ht.clamped (by omega)
    obtain ⟨-, spec, -, hfilter, -⟩ := hpartition.symbolOf span hspan
    have hsingle : spec ∈ chunks.filter fun spec => decide (spec.kind = .symbol ∧
        (spec.startLine, spec.endLine) = (clampSpan (lines content) span).2.2) := by
      rw [hfilter]
      exact List.mem_singleton.2 rfl
    obtain ⟨hmem, hof⟩ := List.mem_filter.1 hsingle
    obtain ⟨hkind, hrange⟩ := of_decide_eq_true hof
    rw [hclamped] at hrange
    obtain ⟨hstartLine, hendLine⟩ := Prod.mk.inj hrange
    refine ⟨spec, hmem, hkind, hstartLine, ?_⟩
    obtain ⟨h1, h2, h3, hbody⟩ := hpartition.bodies spec hmem
    rw [hbody, ← joinRange_of_le h1 h2 h3, hstartLine, hendLine, joinRange_min]
    exact slice_in_lines content t.label.place.le

/-- A trait with a method. -/
def traitSource : Text := "trait T \x7b\n  fn x(&self);\n\x7d\n".toList

def tokenNode (kind : Kind) (field : Option Field) (start length : Nat)
    (children : List (RoseTree Token)) : RoseTree Token :=
  .node ⟨kind, field, start, start + length, Nat.le_add_right _ _⟩ children

def tokenWord (text : Text) (start : Nat) : RoseTree Token :=
  tokenNode (.other text) none start text.length []

def traitTree : SourceTree traitSource where
  tokens := tokenNode (.other "source_file".toList) none 0 27 [
    tokenNode .traitItem none 0 26 [
      tokenWord "trait".toList 0,
      tokenNode (.other "type_identifier".toList) (some .name) 6 1 [],
      tokenNode .declarationList (some .body) 8 18 [
        tokenWord "\x7b".toList 8,
        tokenNode .functionSignatureItem none 12 12 [
          tokenWord "fn".toList 12,
          tokenNode .identifier (some .name) 15 1 [],
          tokenNode (.other "parameters".toList) (some .parameters) 16 7 [
            tokenWord "(".toList 16,
            tokenNode .selfParameter none 17 5 [],
            tokenWord ")".toList 22],
          tokenWord ";".toList 23],
        tokenWord "\x7d".toList 25]]]
  nested := nested_of_laidOut (by decide +kernel)
  stop_le := by decide +kernel

/-- A parser of that file. -/
def traitParser : TreeSitter := fun content language =>
  if h : content = traitSource ∧ language = .rust then .ok (h.1 ▸ traitTree)
  else .error .parseFailed

theorem traitParser_ok : traitParser traitSource .rust = .ok traitTree := dif_pos ⟨rfl, rfl⟩

/-- The trait and its method, of one line. -/
theorem declarations_in_chunks_trait :
    ((chunkFile (Deps.plain.parsing traitParser) traitSource (some .rust)).isSome ↔
      ∀ span ∈ spansOfTree .rust traitTree.root, ∀ t, Declares traitTree t span →
        ¬ OffTheEnd traitSource t.label.place.start) ∧
    ∀ chunks, chunkFile (Deps.plain.parsing traitParser) traitSource (some .rust) = some chunks →
      Partitions (lines traitSource) (spansOfTree .rust traitTree.root) chunks ∧
      ∀ span ∈ spansOfTree .rust traitTree.root, ∀ t, Declares traitTree t span →
        ∃ spec ∈ chunks, spec.kind = .symbol ∧
          spec.startLine = rowAt traitSource t.label.place.start + 1 ∧
          withoutReturns (slice traitSource t.label.place.start t.label.place.stop) <:+:
            withoutReturns spec.body ++ ['\n'] :=
  declarations_in_chunks Deps.plain traitParser traitParser_ok

example : (chunkSpans (lines traitSource) (spansOfTree .rust traitTree.root)).map
    (List.map fun spec => (spec.kindStr, spec.startLine, spec.endLine)) =
      some [("trait".toList, 1, 3), ("method".toList, 2, 2)] := by decide +kernel

/-! ## Overlaps in one file -/

/-- The lines of the chunk lie among those of the other. -/
def ChunkSpec.Inside (spec other : ChunkSpec) : Prop :=
  other.startLine ≤ spec.startLine ∧ spec.endLine ≤ other.endLine

instance (spec other : ChunkSpec) : Decidable (spec.Inside other) :=
  inferInstanceAs (Decidable (_ ∧ _))

/-- Both are declarations, of which one is inside the other. -/
def NestedSymbols (spec other : ChunkSpec) : Prop :=
  (spec.kind = .symbol ∧ other.kind = .symbol) ∧ (spec.Inside other ∨ other.Inside spec)

instance (spec other : ChunkSpec) : Decidable (NestedSymbols spec other) :=
  inferInstanceAs (Decidable ((_ ∧ _) ∧ (_ ∨ _)))

def ChunkSpec.range (spec : ChunkSpec) : Nat × Nat := (spec.startLine, spec.endLine)

theorem common_line {a b : Nat × Nat} (h : ShareMoreThanHalf a b) :
    ∃ l, (a.1 ≤ l ∧ l ≤ a.2) ∧ b.1 ≤ l ∧ l ≤ b.2 := by
  unfold ShareMoreThanHalf at h
  exact ⟨max a.1 b.1, by omega, by omega⟩

/-- The chunks of spans: symbol chunks, and module chunks outside of them. -/
theorem chunkSpans_parts {ls : List Text} {spans : List SymbolSpan} {chunks : List ChunkSpec}
    (h : chunkSpans ls spans = some chunks) : InRange ls (spans.map (clampSpan ls)) ∧
      ∃ modules, chunks = (firstSpans ls spans).map (spanChunk ls) ++ modules ∧
        HoldOutside ls (spans.map (clampSpan ls)) modules := by
  have hin := inRange_of_chunkSpans h
  obtain ⟨modules, hchunks, hold⟩ := chunkSpans_lines hin
  rw [chunkSpans_clamp, h, Option.some.injEq] at hchunks
  exact ⟨hin, modules, hchunks, hold⟩

/-- A line of a module chunk is in no other chunk. -/
theorem module_line {ls : List Text} {spans : List SymbolSpan} {modules : List ChunkSpec}
    (hold : HoldOutside ls (spans.map (clampSpan ls)) modules) {spec other : ChunkSpec}
    (hspec : spec ∈ modules) (hother : other ∈ (firstSpans ls spans).map (spanChunk ls) ++ modules)
    (hne : spec ≠ other) : ¬ ShareMoreThanHalf spec.range other.range := by
  intro hshare
  obtain ⟨l, hl, hl'⟩ := common_line hshare
  have hline : l ∈ spec.lineNumbers := mem_lineNumbers.2 hl
  have hline' : l ∈ other.lineNumbers := mem_lineNumbers.2 hl'
  rcases List.mem_append.1 hother with hsymbol | hmodule
  · obtain ⟨span, hspan, rfl⟩ := List.mem_map.1 hsymbol
    exact (hold.mem_iff.1 ⟨spec, hspec, hline⟩).2.2 (inside_iff_firstSpans.2 ⟨span, hspan, hline'⟩)
  · exact hne (hold.unique hspec hmodule hline hline')

/-- The lines of a declaration's chunk: those of a node, as far as there are any. -/
theorem symbol_lines {span : SymbolSpan}
    (hspan : span ∈ firstSpans (lines content) (spansOfTree language tree.root))
    (hin : InRange (lines content) ((spansOfTree language tree.root).map (clampSpan (lines content)))) :
    ∃ node ∈ tree.root.nodes, span.2.2.1 = (linesOf node.label).start ∧
      span.2.2.2 = min (linesOf node.label).stop (lines content).length := by
  obtain ⟨span, hmem, rfl⟩ := List.mem_map.1 (mem_firstSpans hspan)
  obtain ⟨t, ht⟩ := exists_declares tree span hmem
  have hstart := (inRange_clampSpan_iff _ _).1 hin span hmem
  refine ⟨t.map (Token.info content), ?_, ?_⟩
  · unfold SourceTree.root
    rw [nodes_map]
    exact List.mem_map_of_mem ht.1
  · rw [ht.clamped (by omega), label_map, linesOf_info]
    exact ⟨rfl, rfl⟩

/-- Of two ranges that are nested, or share a line at most, the shared part is more than half of
the shorter one exactly if they are nested. -/
theorem share_iff_nested {i j : Interval} {n : Nat} {a b : Nat × Nat} (h : i.Laminar j)
    (ha : a.1 = i.start ∧ a.2 = min i.stop n ∧ a.1 ≤ a.2)
    (hb : b.1 = j.start ∧ b.2 = min j.stop n ∧ b.1 ≤ b.2) :
    ShareMoreThanHalf a b ↔ (b.1 ≤ a.1 ∧ a.2 ≤ b.2) ∨ (a.1 ≤ b.1 ∧ b.2 ≤ a.2) := by
  have hi := i.le
  have hj := j.le
  unfold ShareMoreThanHalf
  rcases h with h | h | h | h
  · obtain ⟨hstart, hstop⟩ := h
    omega
  · obtain ⟨hstart, hstop⟩ := h
    omega
  · unfold Interval.Before at h
    omega
  · unfold Interval.Before at h
    omega

/-- Of the chunks of a file, those of nested declarations share more than half of the shorter. -/
theorem share_iff_nestedSymbols {chunks : List ChunkSpec}
    (h : chunkSpans (lines content) (spansOfTree language tree.root) = some chunks)
    {spec other : ChunkSpec} (hspec : spec ∈ chunks) (hother : other ∈ chunks) (hne : spec ≠ other) :
    ShareMoreThanHalf spec.range other.range ↔ NestedSymbols spec other := by
  obtain ⟨hin, modules, rfl, hold⟩ := chunkSpans_parts h
  rcases List.mem_append.1 hspec with hsymbol | hmodule
  · rcases List.mem_append.1 hother with hsymbol' | hmodule'
    · obtain ⟨span, hspan, rfl⟩ := List.mem_map.1 hsymbol
      obtain ⟨span', hspan', rfl⟩ := List.mem_map.1 hsymbol'
      have hrange := hin span (mem_firstSpans hspan)
      have hrange' := hin span' (mem_firstSpans hspan')
      obtain ⟨node, hnode, hstart, hstop⟩ := symbol_lines hspan hin
      obtain ⟨node', hnode', hstart', hstop'⟩ := symbol_lines hspan' hin
      have hlaminar := tree.nestedLines.laminar node hnode node' hnode'
      refine (share_iff_nested hlaminar ⟨hstart, hstop, hrange.2.1⟩
        ⟨hstart', hstop', hrange'.2.1⟩).trans ?_
      exact ⟨fun hor => ⟨⟨rfl, rfl⟩, hor⟩, fun hboth => hboth.2⟩
    · refine iff_of_false (fun hshare => ?_) fun hnested => ?_
      · exact module_line hold hmodule' hspec (Ne.symm hne) hshare.symm
      · rw [NestedSymbols, hold.kind hmodule'] at hnested
        cases hnested.1.2
  · refine iff_of_false (module_line hold hmodule hother hne) fun hnested => ?_
    rw [NestedSymbols, hold.kind hmodule] at hnested
    cases hnested.1.1

/-- A file that does not parse is chunked as one without declarations. -/
theorem exists_tree (D : Deps) (parse : TreeSitter) (content : Text) (language : Language) :
    ∃ tree : SourceTree content, chunkFile (D.parsing parse) content (some language) =
      chunkSpans (lines content) (spansOfTree language tree.root) := by
  cases h : parse content language with
  | ok tree => exact ⟨tree, chunkFile_parsing D h⟩
  | error e =>
    have hnested : Nested Token.place (.node ⟨.other [], none, 0, 0, Nat.le_refl 0⟩ []) :=
      .node nofun .nil nofun
    refine ⟨⟨_, hnested, Nat.zero_le _⟩, ?_⟩
    show chunkParsed (D.parsing parse) content language = _
    have herror : (D.parsing parse).parseSourceSpans content language = .error e := by
      show (parse.root content language).map _ = _
      unfold TreeSitter.root
      rw [h]
      rfl
    unfold chunkParsed
    rw [herror]
    rfl

end

/-! ## Stage A over parsed files -/

/-- The test of two ids is that of their files and ranges. -/
theorem overlapsKept64_chunkId (path kept : Text) {v w : Nat × Nat} (hv : v.1 ≤ v.2)
    (hw : w.1 ≤ w.2) (hv' : v.2 < 2 ^ 32) (hw' : w.2 < 2 ^ 32) :
    overlapsKept64 (chunkId path v.1 v.2) (chunkId kept w.1 w.2) = true ↔
      path = kept ∧ ShareMoreThanHalf v w := by
  have hshare : SharesHalf ((v.1 : Int), (v.2 : Int)) ((w.1 : Int), (w.2 : Int)) ↔
      ShareMoreThanHalf v w := by
    unfold ShareMoreThanHalf SharesHalf lineCount sharedCount
    dsimp only
    omega
  have hi : InI64 ((v.1 : Int), (v.2 : Int)) := ⟨by omega, by dsimp only; omega, by dsimp only; omega⟩
  have hi' : InI64 ((w.1 : Int), (w.2 : Int)) := ⟨by omega, by dsimp only; omega, by dsimp only; omega⟩
  unfold overlapsKept64
  rw [parseChunkId_chunkId path (by omega) (by omega), parseChunkId_chunkId kept (by omega) (by omega)]
  dsimp only
  rw [Bool.and_eq_true, decide_eq_true_eq, ← hshare]
  refine and_congr eq_comm ⟨shares_of_overlaps64 hi hi', overlaps64_of_shares hi hi' ?_ ?_⟩
  · unfold lineCount
    dsimp only
    omega
  · unfold lineCount
    dsimp only
    omega

/-- A chunk of the file at a path, and its score. -/
structure RankedChunk (F : Type) where
  path : Text
  spec : ChunkSpec
  score : F

/-- As stage A gets it. -/
def RankedChunk.entry {F : Type} (ranked : RankedChunk F) : Text × F :=
  (chunkId ranked.path ranked.spec.startLine ranked.spec.endLine, ranked.score)

/-- The chunk is one of the file at its path, which the walker admits. -/
def ChunkOf (D : Deps) (parse : TreeSitter) (files : Text → Text × Language) (path : Text)
    (spec : ChunkSpec) : Prop :=
  Walkable (files path).1 ∧ ∃ chunks,
    chunkFile (D.parsing parse) (files path).1 (some (files path).2) = some chunks ∧ spec ∈ chunks

theorem chunk_bounds {D : Deps} {parse : TreeSitter} {files : Text → Text × Language} {path : Text}
    {spec : ChunkSpec} (h : ChunkOf D parse files path spec) :
    spec.startLine ≤ spec.endLine ∧ spec.endLine < 2 ^ 32 := by
  obtain ⟨hwalk, chunks, hchunks, hspec⟩ := h
  obtain ⟨tree, htree⟩ := exists_tree D parse (files path).1 (files path).2
  rw [htree] at hchunks
  obtain ⟨chunks', hchunks', hpartition⟩ := partitions_chunkSpans (inRange_of_chunkSpans hchunks)
  rw [hchunks] at hchunks'
  cases hchunks'
  obtain ⟨-, hle, hend, -⟩ := hpartition.bodies spec hspec
  exact ⟨hle, Nat.lt_of_le_of_lt hend (length_lines_lt hwalk)⟩

/-- In every ranking of chunks of parsed files, stage A drops exactly those with a kept one before
them of which they are a nested declaration, or that is one of theirs. -/
theorem dedup_drops_nested {F : Type} (D : Deps) (parse : TreeSitter)
    (files : Text → Text × Language) (ranked : List (RankedChunk F))
    (h : ∀ r ∈ ranked, ChunkOf D parse files r.path r.spec)
    (hdistinct : ranked.Pairwise fun r r' => (r.path, r.spec) ≠ (r'.path, r'.spec)) :
    dedupOverlapping64 (ranked.map RankedChunk.entry) =
      (keepFirst (fun r kept => decide (r.path = kept.path ∧ NestedSymbols r.spec kept.spec))
        ranked).map RankedChunk.entry := by
  unfold dedupOverlapping64
  rw [keepFirst_map]
  congr 1
  refine keepFirst_congr (hdistinct.imp_of_mem fun {kept r} hkept hr hne => ?_)
  obtain ⟨hle, hlt⟩ := chunk_bounds (h r hr)
  obtain ⟨hle', hlt'⟩ := chunk_bounds (h kept hkept)
  have htest := overlapsKept64_chunkId r.path kept.path (v := r.spec.range)
    (w := kept.spec.range) hle hle' hlt hlt'
  rw [Bool.eq_iff_iff, decide_eq_true_iff]
  refine htest.trans (and_congr_right fun hpath => ?_)
  obtain ⟨-, chunks, hchunks, hspec⟩ := h r hr
  obtain ⟨-, chunks', hchunks', hspec'⟩ := h kept hkept
  rw [← hpath, hchunks, Option.some.injEq] at hchunks'
  subst hchunks'
  obtain ⟨tree, htree⟩ := exists_tree D parse (files r.path).1 (files r.path).2
  rw [htree] at hchunks
  refine share_iff_nestedSymbols hchunks hspec hspec' fun heq => hne ?_
  rw [hpath, heq]

/-- The chunks of the trait and of its method, ranked by the method first. -/
def traitRanked : List (RankedChunk Nat) :=
  ((chunkFile (Deps.plain.parsing traitParser) traitSource (some .rust)).getD []).reverse.map
    fun spec => ⟨"t.rs".toList, spec, spec.startLine⟩

/-- The trait goes, as the method is inside it. -/
theorem dedup_drops_nested_trait :
    dedupOverlapping64 (traitRanked.map RankedChunk.entry) = [("t.rs:2-2".toList, 2)] := by
  have hfile : chunkFile (Deps.plain.parsing traitParser) traitSource (some .rust) =
      chunkSpans (lines traitSource) (spansOfTree .rust traitTree.root) :=
    chunkFile_parsing Deps.plain traitParser_ok
  have hranked : traitRanked = ((chunkSpans (lines traitSource)
      (spansOfTree .rust traitTree.root)).getD []).reverse.map
        fun spec => ⟨"t.rs".toList, spec, spec.startLine⟩ := by
    unfold traitRanked
    rw [hfile]
  have hwalk : Walkable traitSource := ⟨by decide +kernel, by decide +kernel⟩
  have hkept := dedup_drops_nested Deps.plain traitParser (fun _ => (traitSource, .rust)) traitRanked
    (by
      rw [hranked]
      intro r hr
      obtain ⟨spec, hspec, rfl⟩ := List.mem_map.1 hr
      rw [List.mem_reverse] at hspec
      refine ⟨hwalk, ?_⟩
      show ∃ chunks, chunkFile (Deps.plain.parsing traitParser) traitSource (some .rust) =
        some chunks ∧ spec ∈ chunks
      rw [hfile]
      cases hchunks : chunkSpans (lines traitSource) (spansOfTree .rust traitTree.root) with
      | none =>
        rw [hchunks] at hspec
        cases hspec
      | some chunks =>
        rw [hchunks] at hspec
        exact ⟨chunks, rfl, hspec⟩)
    (by
      rw [hranked]
      decide +kernel)
  rw [hkept, hranked]
  decide +kernel

end CodeSearch
