import CodeSearch.Parser

/-!
# Chunking a file

`chunkFile` cuts a file into line ranges: a parsed file into one `symbol` chunk
per span plus `module` chunks for the lines outside every span, an unparsed one
into overlapping `window`s.  An access out of bounds panics: the functions that
index into the lines return `none` there.
-/

namespace CodeSearch

def windowLines : Nat := 60
def windowOverlap : Nat := 15
def maxChunkLines : Nat := 200
def maxChunkBytes : Nat := 8 * 1024

inductive ChunkKind where
  | symbol | module | window
deriving DecidableEq, Repr

/-- One chunk carved out of a file. -/
structure ChunkSpec where
  kind : ChunkKind
  startLine : Nat
  endLine : Nat
  body : Text
  symbol : Option FunctionSignature
  symbolKind : Option SymbolKind
deriving DecidableEq

/-- A signature whose first parameter is `self`. -/
def isMethod (sig : FunctionSignature) : Bool :=
  (sig.parameters.head?.map fun p => decide (p.name = "self".toList)).getD false

/-- The stored tag of the chunk's kind. -/
def ChunkSpec.kindStr (spec : ChunkSpec) : Text :=
  match spec.kind with
  | .symbol =>
    match spec.symbolKind with
    | none | some .function =>
      if (spec.symbol.map isMethod).getD false then "method".toList else "function".toList
    | some kind => kind.keyword
  | .module => "module".toList
  | .window => "window".toList

/-- `"{rel_path}:{start_line}-{end_line}"`. -/
def chunkId (relPath : Text) (startLine endLine : Nat) : Text :=
  relPath ++ ':' :: decimal startLine ++ '-' :: decimal endLine

/-- `lines[line - 1]`: there is no line 0. -/
def lineAt (ls : List Text) : Nat → Option Text
  | 0 => none
  | line + 1 => ls[line]?

/-- Join a 1-based inclusive line range into a body. -/
def joinRange (ls : List Text) (start end_ : Nat) : Text :=
  let lo := start - 1
  let hi := min end_ ls.length
  if hi ≤ lo then [] else joinLines ((ls.take hi).drop lo)

/-! ## Module chunks -/

/-- The `module` chunk of a line range. -/
def moduleChunk (ls : List Text) (start end_ : Nat) : ChunkSpec :=
  { kind := .module, startLine := start, endLine := end_, body := joinRange ls start end_,
    symbol := none, symbolKind := none }

/-- The sub-chunk in progress: its first line, its line and byte counts, and its
last blank line (0 if none). -/
structure Segment where
  segStart : Nat
  lineCount : Nat
  byteCount : Nat
  lastBlank : Nat
deriving DecidableEq

/-- Account for one more line. -/
def addLine (ls : List Text) (seg : Segment) (line : Nat) : Option Segment := do
  let text ← lineAt ls line
  pure { seg with
    lineCount := seg.lineCount + 1
    byteCount := seg.byteCount + (byteLen text + 1)
    lastBlank := if isBlank text then line else seg.lastBlank }

/-- A fresh segment from `start`, with the lines before `line` counted again. -/
def recount (ls : List Text) (start line : Nat) : Option Segment :=
  (List.range' start (line - start)).foldlM (addLine ls) ⟨start, 0, 0, 0⟩

/-- Adding `added` bytes in one more line would exceed a cap. -/
def Segment.wouldOverflow (seg : Segment) (added : Nat) : Bool :=
  decide (0 < seg.lineCount) &&
    (decide (maxChunkLines < seg.lineCount + 1) || decide (maxChunkBytes < seg.byteCount + added))

/-- Where the segment is cut before `line`: its last blank line, else the line before. -/
def Segment.segEnd (seg : Segment) (line : Nat) : Nat :=
  if seg.segStart ≤ seg.lastBlank then seg.lastBlank else line - 1

/-- One round of the loop over the run's lines. -/
def moduleStep (ls : List Text) (acc : Segment × List ChunkSpec) (line : Nat) :
    Option (Segment × List ChunkSpec) := do
  let text ← lineAt ls line
  let (seg, chunks) := acc
  let (seg, chunks) ←
    if seg.wouldOverflow (byteLen text + 1) then do
      let segEnd := seg.segEnd line
      let seg' ← recount ls (segEnd + 1) line
      pure (seg', chunks ++ [moduleChunk ls seg.segStart segEnd])
    else pure (seg, chunks)
  pure (← addLine ls seg line, chunks)

/-- Split the uncovered run `[runStart, runEnd]` into bounded sub-chunks, cutting
at the nearest preceding blank line. -/
def splitModuleRun (ls : List Text) (runStart runEnd : Nat) (chunks : List ChunkSpec) :
    Option (List ChunkSpec) := do
  let (seg, chunks) ← (List.range' runStart (runEnd + 1 - runStart)).foldlM (moduleStep ls)
    (⟨runStart, 0, 0, 0⟩, chunks)
  pure (if 0 < seg.lineCount then chunks ++ [moduleChunk ls seg.segStart runEnd] else chunks)

/-! ## Parsed files -/

/-- `covered[start..=end] = true`. -/
def coverRange (covered : List Bool) (start end_ : Nat) : Option (List Bool) :=
  if start ≤ end_ + 1 ∧ end_ < covered.length then
    some (covered.mapIdx fun i b => b || (decide (start ≤ i) && decide (i ≤ end_)))
  else none

/-- The `symbol` chunk of a span. -/
def symbolChunk (ls : List Text) (sig : FunctionSignature) (symbolKind : SymbolKind)
    (start end_ : Nat) : ChunkSpec :=
  { kind := .symbol, startLine := start, endLine := end_, body := joinRange ls start end_,
    symbol := some sig, symbolKind := some symbolKind }

/-- The state of the span loop: which lines are covered, which ranges were
emitted, the chunks so far. -/
structure SpanState where
  covered : List Bool
  seenRanges : List (Nat × Nat)
  chunks : List ChunkSpec

/-- One span: clamp it, skip a range already emitted, cover its lines. -/
def spanStep (ls : List Text) (st : SpanState) (span : SymbolSpan) : Option SpanState := do
  let (sig, symbolKind, start, end_) := span
  let start := max start 1
  let end_ := max (min end_ ls.length) start
  if (start, end_) ∈ st.seenRanges then pure st
  else do
    let covered ← coverRange st.covered start end_
    pure ⟨covered, (start, end_) :: st.seenRanges,
      st.chunks ++ [symbolChunk ls sig symbolKind start end_]⟩

/-- One line of the run loop: open a run at an uncovered line, close it at a
covered one or at the end of the file. -/
def runStep (ls : List Text) (covered : List Bool) (acc : Nat × List ChunkSpec) (line : Nat) :
    Option (Nat × List ChunkSpec) := do
  let isCovered ← covered[line]?
  let (runStart, chunks) := acc
  let runStart := if !isCovered && runStart = 0 then line else runStart
  if runStart ≠ 0 ∧ (isCovered = true ∨ line = ls.length) then do
    let runEnd := if isCovered then line - 1 else line
    pure (0, ← splitModuleRun ls runStart runEnd chunks)
  else pure (runStart, chunks)

/-- Symbol chunks of the spans, then the module chunks of the other lines. -/
def chunkSpans (ls : List Text) (spans : List SymbolSpan) : Option (List ChunkSpec) := do
  let total := ls.length
  let st ← spans.foldlM (spanStep ls) ⟨List.replicate (total + 1) false, [], []⟩
  let (_, chunks) ← (List.range' 1 total).foldlM (runStep ls st.covered) (0, st.chunks)
  pure chunks

/-- Parsed-file strategy: a parse error counts as no spans. -/
def chunkParsed (D : Deps) (content : Text) (language : Language) : Option (List ChunkSpec) :=
  chunkSpans (lines content) ((D.parseSourceSpans content language).toOption.getD [])

/-! ## Windows -/

/-- The `window` chunk of a line range. -/
def windowChunk (ls : List Text) (start end_ : Nat) : ChunkSpec :=
  { kind := .window, startLine := start, endLine := end_, body := joinRange ls start end_,
    symbol := none, symbolKind := none }

/-- The window loop from `start`; every round moves 45 lines on, so the number
of lines bounds the rounds (`windowRun_chunkWindows`). -/
def windowsFrom (ls : List Text) : Nat → Nat → List ChunkSpec
  | 0, _ => []
  | fuel + 1, start =>
    let end_ := min (start + windowLines - 1) ls.length
    windowChunk ls start end_ ::
      if ls.length ≤ end_ then [] else windowsFrom ls fuel (start + (windowLines - windowOverlap))

/-- Unparsed-file strategy: overlapping fixed-size line windows. -/
def chunkWindows (content : Text) : List ChunkSpec :=
  let ls := lines content
  if ls.length = 0 then [] else windowsFrom ls ls.length 1

/-- Chunk a single file. -/
def chunkFile (D : Deps) (content : Text) : Option Language → Option (List ChunkSpec)
  | some lang => chunkParsed D content lang
  | none => some (chunkWindows content)

/-- An empty file has no window. -/
theorem chunkWindows_of_no_line {content : Text} (h : ¬ 1 ≤ (lines content).length) :
    chunkWindows content = [] := by
  unfold chunkWindows
  simp only
  rw [if_pos (by omega)]

theorem chunkWindows_of_lines {content : Text} (h : 1 ≤ (lines content).length) :
    chunkWindows content = windowsFrom (lines content) (lines content).length 1 := by
  unfold chunkWindows
  simp only
  rw [if_neg (by omega)]

theorem mem_chunkWindows {content : Text} {spec : ChunkSpec} (h : spec ∈ chunkWindows content) :
    1 ≤ (lines content).length ∧
      spec ∈ windowsFrom (lines content) (lines content).length 1 := by
  by_cases h1 : 1 ≤ (lines content).length
  · rw [chunkWindows_of_lines h1] at h
    exact ⟨h1, h⟩
  · rw [chunkWindows_of_no_line h1] at h
    cases h

theorem lineAt_succ (ls : List Text) (line : Nat) : lineAt ls (line + 1) = ls[line]? := rfl

theorem lineAt_of_pos (ls : List Text) {line : Nat} (h : 1 ≤ line) :
    lineAt ls line = ls[line - 1]? := by
  obtain ⟨i, rfl⟩ : ∃ i, line = i + 1 := ⟨line - 1, by omega⟩
  rfl

theorem joinRange_of_le {ls : List Text} {a b : Nat} (h1 : 1 ≤ a) (h2 : a ≤ b)
    (h3 : b ≤ ls.length) : joinRange ls a b = joinLines ((ls.take b).drop (a - 1)) := by
  have hmin : min b ls.length = b := by omega
  unfold joinRange
  simp only [hmin]
  rw [if_neg (by omega)]

end CodeSearch
