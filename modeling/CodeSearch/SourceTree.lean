import CodeSearch.Lib.Nested
import CodeSearch.Rows
import CodeSearch.Signatures
import CodeSearch.StructuralRows

/-!
# Trees of a source

tree-sitter gives every node an interval of the source; its text and its rows are those of
the interval.  A `SourceTree` is a tree laid out like that, and a parser is a function that
returns one for every source that it parses.
-/

namespace CodeSearch

open TreeWalk RoseTree

/-- What tree-sitter stores of a node. -/
structure Token where
  kind : Kind
  field : Option Field
  place : Interval

/-- The column of an offset, in bytes. -/
def columnAt (content : Text) (offset : Nat) : Nat := byteLen (linePart content offset)

/-- What the extractors see of it. -/
def Token.info (content : Text) (token : Token) : NodeInfo where
  kind := token.kind
  field := token.field
  text := some (slice content token.place.start token.place.stop)
  startRow := rowAt content token.place.start
  startColumn := columnAt content token.place.start
  endRow := rowAt content token.place.stop

/-- A syntax tree of the content. -/
structure SourceTree (content : Text) where
  tokens : RoseTree Token
  nested : Nested Token.place tokens
  stop_le : tokens.label.place.stop ≤ content.length

variable {content : Text}

/-- `tree.root_node()`. -/
def SourceTree.root (tree : SourceTree content) : Node := tree.tokens.map (Token.info content)

theorem SourceTree.within (tree : SourceTree content) : ∀ t ∈ tree.tokens.nodes,
    t.label.place.start ≤ t.label.place.stop ∧ t.label.place.stop ≤ content.length := fun t ht =>
  ⟨t.label.place.le, Nat.le_trans (tree.nested.within t ht).2 tree.stop_le⟩

theorem SourceTree.mem_nodes (tree : SourceTree content) {node : Node}
    (h : node ∈ tree.root.nodes) : ∃ t ∈ tree.tokens.nodes, node = t.map (Token.info content) := by
  unfold SourceTree.root at h
  rw [nodes_map] at h
  obtain ⟨t, ht, heq⟩ := List.mem_map.1 h
  exact ⟨t, ht, heq.symm⟩

/-- The lines of a node, the last one with it. -/
def linesOf (node : NodeInfo) : Interval :=
  ⟨node.startRow + 1, max (node.startRow + 1) (node.endRow + 1), Nat.le_max_left _ _⟩

theorem linesOf_info (token : Token) : linesOf (token.info content) =
    ⟨rowAt content token.place.start + 1, rowAt content token.place.stop + 1,
      Nat.succ_le_succ (rowAt_mono content token.place.le)⟩ := by
  have hrows := rowAt_mono content token.place.le
  unfold linesOf Token.info
  congr 1
  exact Nat.max_eq_right (Nat.succ_le_succ hrows)

/-- In lines, too, the children of a node lie in it one after the other. -/
theorem SourceTree.nestedLines (tree : SourceTree content) : Nested linesOf tree.root := by
  refine tree.nested.map (fun a b h => ?_) fun a b h => ?_
  · rw [linesOf_info, linesOf_info]
    exact ⟨Nat.succ_le_succ (rowAt_mono content h.1), Nat.succ_le_succ (rowAt_mono content h.2)⟩
  · rw [linesOf_info, linesOf_info]
    exact Nat.succ_le_succ (rowAt_mono content h)

/-- A parser set to a language. -/
abbrev TreeSitter := (content : Text) → Language → Except ParseError (SourceTree content)

def TreeSitter.root (parse : TreeSitter) (content : Text) (language : Language) :
    Except ParseError Node :=
  (parse content language).map SourceTree.root

/-- An indexer that reads its spans, imports and exports from the parser's trees. -/
def Deps.parsing (D : Deps) (parse : TreeSitter) : Deps :=
  { D with
    parseSourceSpans := CodeSearch.parseSourceSpans parse.root
    parseSourceImportsExports := CodeSearch.parseSourceImportsExports parse.root }

theorem parseSourceSpans_parsing (D : Deps) {parse : TreeSitter} {language : Language}
    {tree : SourceTree content} (h : parse content language = .ok tree) :
    (D.parsing parse).parseSourceSpans content language = .ok (spansOfTree language tree.root) := by
  show (parse.root content language).map _ = _
  unfold TreeSitter.root
  rw [h]
  rfl

theorem parseSourceImportsExports_parsing (D : Deps) {parse : TreeSitter} {language : Language}
    {tree : SourceTree content} (h : parse content language = .ok tree) :
    (D.parsing parse).parseSourceImportsExports content language =
      .ok (importsOfTree language tree.root, exportsOfTree language tree.root) := by
  show (parse.root content language).map _ = _
  unfold TreeSitter.root
  rw [h]
  rfl

end CodeSearch
