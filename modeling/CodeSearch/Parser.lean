import CodeSearch.Tokens

/-!
# What the indexer reads from a parsed file

The data types of `parser.rs` that reach the index, and language detection by
file extension.  The tree-sitter extractors and the hash are functions of their
arguments and are kept as the fields of `Deps`.
-/

namespace CodeSearch

inductive Language where
  | typeScript | rust | python | go | bash | java | c | ruby | cpp
deriving DecidableEq, Repr

structure Parameter where
  name : Text
  typeAnnotation : Option Text
deriving DecidableEq

structure FunctionSignature where
  name : Text
  parameters : List Parameter
  returnType : Option Text
  line : Nat
  column : Nat
deriving DecidableEq

/-- The category of a parsed top-level symbol. -/
inductive SymbolKind where
  | function | struct | enum | trait | «class» | interface | type | module
deriving DecidableEq, Repr

/-- The keyword of a type symbol, also its stored `kind` tag. -/
def SymbolKind.keyword : SymbolKind → Text
  | .function => "function".toList
  | .struct => "struct".toList
  | .enum => "enum".toList
  | .trait => "trait".toList
  | .«class» => "class".toList
  | .interface => "interface".toList
  | .type => "type".toList
  | .module => "module".toList

inductive ImportKind where
  | named (items : List Text)
  | default (name : Text)
  | namespace (name : Text)
  | sideEffect
  | require (name : Text)
deriving DecidableEq

structure ImportStatement where
  source : Text
  importKind : ImportKind
  line : Nat
deriving DecidableEq

inductive ExportKind where
  | named (items : List Text)
  | default (name : Text)
  | reExport (items : List Text) (source : Text)
  | reExportAll (source : Text)
deriving DecidableEq

structure ExportStatement where
  exportKind : ExportKind
  line : Nat
deriving DecidableEq

/-- A failed parse of source text. -/
inductive ParseError where
  | parserInit (e : Text)
  | parseFailed
deriving DecidableEq

/-- `Display for ParseError`. -/
def ParseError.display : ParseError → Text
  | .parserInit e => "Parser initialization failed: ".toList ++ e
  | .parseFailed => "Failed to parse source code".toList

/-! ## Language detection -/

/-- The last component of a forward-slashed path. -/
def fileName (path : Text) : Text :=
  (path.reverse.takeWhile (· ≠ '/')).reverse

/-- `Path::extension`: what follows the last dot, unless the dot comes first. -/
def extension (path : Text) : Option Text :=
  match (fileName path).reverse.span (· ≠ '.') with
  | (ext, _ :: _ :: _) => some ext.reverse
  | _ => none

/-- Detect the language by file extension. -/
def detectLanguage (path : Text) : Option Language :=
  match extension path with
  | none => none
  | some ext =>
    if ["ts".toList, "tsx".toList, "mts".toList, "cts".toList].contains ext then some .typeScript
    else if ext = "rs".toList then some .rust
    else if ext = "py".toList then some .python
    else if ext = "go".toList then some .go
    else if ["bash".toList, "sh".toList].contains ext then some .bash
    else if ext = "java".toList then some .java
    else if ["c".toList, "h".toList].contains ext then some .c
    else if ext = "rb".toList then some .ruby
    else if ["cpp".toList, "cc".toList, "cxx".toList, "hpp".toList, "hxx".toList,
      "hh".toList].contains ext then some .cpp
    else none

example : detectLanguage "src/foo.test.tsx".toList = some .typeScript := by decide
example : detectLanguage "src/.rs".toList = none := by decide

/-! ## Parameters of the model -/

/-- A symbol span: signature, category, first and last line. -/
abbrev SymbolSpan := FunctionSignature × SymbolKind × Nat × Nat

/-- Code the indexer calls and this model does not open: the Unicode tables,
the hash, and the tree-sitter extractors. -/
structure Deps where
  chars : CharTables
  /-- `blake3::hash(content).to_hex()` -/
  blake3Hex : Text → Text
  /-- `to_hex` writes lowercase hexadecimal digits. -/
  blake3Hex_hex : ∀ s, ∀ c ∈ blake3Hex s, c.isDigit = true ∨ 'a' ≤ c ∧ c ≤ 'f'
  parseSourceSpans : Text → Language → Except ParseError (List SymbolSpan)
  parseSourceImportsExports :
    Text → Language → Except ParseError (List ImportStatement × List ExportStatement)

end CodeSearch
