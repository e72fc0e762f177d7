import CodeSearch.Lib.TreeWalk
import CodeSearch.Parser

/-!
# Syntax trees and the signatures read from them

The tree-sitter nodes as `parser.rs` looks at them: kind, field, text and lines.  The
`parse_*` functions read a signature from a function's node; both ways to extract
symbols use them.
-/

namespace CodeSearch

open TreeWalk

/-- The node kinds that the extractors of the nine languages ask for. -/
inductive Kind where
  | functionDeclaration | functionSignature | exportStatement | classDeclaration
  | interfaceDeclaration | typeAliasDeclaration | enumDeclaration | methodDefinition
  | methodSignature | abstractMethodSignature | callSignature | constructSignature
  | formalParameters | requiredParameter | optionalParameter | identifier
  | functionItem | implItem | traitItem | declarationList | fieldDeclarationList
  | associatedFunction | functionSignatureItem | structItem | unionItem | enumItem | typeItem
  | parameter | selfParameter | fieldIdentifier | refPattern | mutPattern | tuplePattern
  | structPattern | slicePattern
  | functionDefinition | classDefinition | typedParameter | defaultParameter
  | typedDefaultParameter | listSplatPattern | dictionarySplatPattern
  | methodDeclaration | typeDeclaration | typeSpec | parameterDeclaration | structType
  | interfaceType
  | recordDeclaration | constructorDeclaration | formalParameter | spreadParameter
  | «class» | module | method | singletonMethod | splatParameter | keywordParameter
  | blockParameter | hashKeywordParameter
  | classSpecifier | structSpecifier
  | importStatement | string | importClause | namespaceImport | namedImports | importSpecifier
  | callExpression | arguments | variableDeclarator
  | exportClause | namedExports | «from» | lexicalDeclaration | variableDeclaration
  | useDeclaration | «pub» | scopedIdentifier | useTree | scopedUseTree
  | modItem | semicolon
  | declarationCommand | variableName | variableAssignment
  | other (name : Text)
deriving DecidableEq

/-- The fields that they ask for. -/
inductive Field where
  | declaration | body | name | parameters | methodParameters | returnType | pattern | type
  | receiver | result | declarator | classBody | interfaceBody | enumBody
  | other (name : Text)
deriving DecidableEq

/-- A node, but for its children.  `text` is what `utf8_text` returns, `field` the parent's field
that the node is in. -/
structure NodeInfo where
  kind : Kind
  field : Option Field
  text : Option Text
  startRow : Nat
  startColumn : Nat
  endRow : Nat

abbrev Node := RoseTree NodeInfo

def isField (field : Field) (node : NodeInfo) : Bool := decide (node.field = some field)

def childByFieldName (node : Node) (field : Field) : Option Node :=
  node.children.find? fun child => isField field child.label

/-- `child_by_field_name(field).and_then(|n| n.utf8_text(source.as_bytes()).ok())`. -/
def fieldText (node : Node) (field : Field) : Option Text :=
  (childByFieldName node field).bind fun child => child.label.text

/-- A child has the kind. -/
def hasChild (node : Node) (kind : Kind) : Bool :=
  node.children.any fun child => decide (child.label.kind = kind)

/-- The last child that has one of the kinds. -/
def lastChild (node : Node) (kinds : List Kind) : Option Node :=
  (node.children.filter fun child => decide (child.label.kind ∈ kinds)).getLast?

/-- `|c| c == '\'' || c == '"'`. -/
def isQuote (c : Char) : Bool := "'\"".toList.contains c

/-- `text.trim_matches(is_quote)`. -/
def trimQuotes (text : Text) : Text :=
  ((text.dropWhile isQuote).reverse.dropWhile isQuote).reverse

/-! ## Trees of one line -/

/-- A node of the first line, from one column to another. -/
def lineNode (source : Text) (kind : Kind) (field : Option Field) (start stop : Nat)
    (children : List Node) : Node :=
  .node ⟨kind, field, some ((source.take stop).drop start), 0, start, 0⟩ children

/-- A node that nothing is asked of but its text. -/
def word (source : Text) (start stop : Nat) : Node :=
  lineNode source (.other ((source.take stop).drop start)) none start stop []

/-! ## Signatures -/

/-- `FunctionSignature::new(name)` at the position of the node. -/
def newSignature (node : Node) (name : Text) : FunctionSignature where
  name := name
  parameters := []
  returnType := none
  line := node.label.startRow + 1
  column := node.label.startColumn

/-- The placeholder of a type declaration. -/
def typeSymbol (node : Node) : Option FunctionSignature :=
  (fieldText node .name).map (newSignature node)

/-- The parameters that `extract` finds among the children. -/
def paramsOf (extract : Node → Option Parameter) : Option Node → List Parameter
  | none => []
  | some params => params.children.filterMap extract

/-- A named node with its `parameters` and a return type in the field `result`. -/
def parseSignature (extract : Node → Option Parameter) (returnField : Field) (node : Node) :
    Option FunctionSignature :=
  (fieldText node .name).map fun name =>
    { newSignature node name with
      parameters := paramsOf extract (childByFieldName node .parameters)
      returnType := fieldText node returnField }

def plainParameter (name : Text) : Parameter := ⟨name, none⟩

def extractTypescriptParam (node : Node) : Option Parameter :=
  match node.label.kind with
  | .requiredParameter | .optionalParameter =>
    (fieldText node .pattern).map fun name => ⟨name, fieldText node .type⟩
  | .identifier => node.label.text.map plainParameter
  | _ => none

def parseTypescriptFunction (node : Node) : Option FunctionSignature :=
  (fieldText node .name).map fun name =>
    { newSignature node name with
      parameters := match childByFieldName node .parameters with
        | none => []
        | some params => params.children.flatMap fun param =>
          match param.label.kind with
          | .formalParameters => param.children.filterMap extractTypescriptParam
          | .requiredParameter | .optionalParameter => (extractTypescriptParam param).toList
          | _ => []
      returnType := fieldText node .returnType }

def parseTypescriptMethod : Node → Option FunctionSignature :=
  parseSignature extractTypescriptParam .returnType

/-- A call signature has no name, the others have one. -/
def parseTypescriptSignature (node : Node) : Option FunctionSignature :=
  let name := if node.label.kind = .callSignature then "__call".toList
    else (fieldText node .name).getD []
  if name = [] ∧ node.label.kind ≠ .callSignature then none
  else
    some
      { newSignature node name with
        parameters := paramsOf extractTypescriptParam (childByFieldName node .parameters)
        returnType := fieldText node .returnType }

def extractPatternName : Node → Option Text
  | .node info children =>
    match info.kind, children with
    | .identifier, _ | .fieldIdentifier, _ => info.text
    | .refPattern, inner :: _ | .mutPattern, inner :: _ => extractPatternName inner
    | .tuplePattern, _ | .structPattern, _ | .slicePattern, _ => some "_".toList
    | _, _ => none

def extractRustParam (node : Node) : Option Parameter :=
  match node.label.kind with
  | .parameter =>
    some ⟨((childByFieldName node .pattern).bind extractPatternName).getD "_".toList,
      fieldText node .type⟩
  | .selfParameter => node.label.text.map fun text => ⟨"self".toList, some text⟩
  | .identifier => node.label.text.map plainParameter
  | _ => none

def parseRustFunction : Node → Option FunctionSignature :=
  parseSignature extractRustParam .returnType

def extractPythonParam (node : Node) : Option Parameter :=
  match node.label.kind with
  | .identifier => node.label.text.map plainParameter
  | .typedParameter =>
    (node.children.head?.bind fun first => first.label.text).map fun name =>
      ⟨name, fieldText node .type⟩
  | .defaultParameter => (fieldText node .name).map plainParameter
  | .typedDefaultParameter => (fieldText node .name).map fun name => ⟨name, fieldText node .type⟩
  | .listSplatPattern | .dictionarySplatPattern => node.label.text.map plainParameter
  | _ => none

def parsePythonFunction : Node → Option FunctionSignature :=
  parseSignature extractPythonParam .returnType

def extractGoParam (node : Node) : Option Parameter :=
  if node.label.kind ≠ .parameterDeclaration then none
  else some ⟨(fieldText node .name).getD "_".toList, fieldText node .type⟩

def parseGoFunction : Node → Option FunctionSignature := parseSignature extractGoParam .result

/-- `str::trim`. -/
def trim (s : Text) : Text := ((s.dropWhile isWhitespace).reverse.dropWhile isWhitespace).reverse

/-- The receiver's text without its parentheses. -/
def receiverText (text : Text) : Text :=
  trim (((trim text).dropWhile (· = '(')).reverse.dropWhile (· = ')')).reverse

/-- The receiver comes first, under the name `self`. -/
def parseGoMethod (node : Node) : Option FunctionSignature :=
  (parseGoFunction node).map fun sig =>
    match fieldText node .receiver with
    | some text =>
      { sig with parameters := ⟨"self".toList, some (receiverText text)⟩ :: sig.parameters }
    | none => sig

def parseBashFunction (node : Node) : Option FunctionSignature :=
  (fieldText node .name).map (newSignature node)

def parseJavaMethod (node : Node) : Option FunctionSignature :=
  (fieldText node .name).map fun name =>
    { newSignature node name with
      parameters := paramsOf
        (fun param => match param.label.kind with
          | .formalParameter | .spreadParameter =>
            (fieldText param .name).map fun text => ⟨text, fieldText param .type⟩
          | _ => none)
        (childByFieldName node .parameters) }

/-- The name is the first identifier of the declarator that has a text. -/
def parseCFunction (node : Node) : Option FunctionSignature :=
  (childByFieldName node .declarator).bind fun declarator =>
    (declarator.children.findSome? fun child =>
      match child.label.kind with
      | .identifier | .fieldIdentifier => child.label.text
      | _ => none).map fun name =>
      { newSignature node name with
        parameters := paramsOf
          (fun param => match param.label.kind with
            | .parameterDeclaration =>
              (fieldText param .declarator).map fun text => ⟨text, fieldText param .type⟩
            | _ => none)
          (childByFieldName declarator .parameters)
        returnType := fieldText node .type }

/-- The name of a Ruby parameter: its `name` field, else its first identifier. -/
def rubyParameterName (param : Node) : Option Text :=
  match childByFieldName param .name with
  | some name => name.label.text
  | none =>
    (param.children.find? fun child => decide (child.label.kind = .identifier)).bind fun child =>
      child.label.text

def parseRubyMethod (node : Node) : Option FunctionSignature :=
  (fieldText node .name).map fun name =>
    { newSignature node name with
      parameters := paramsOf
        (fun param => match param.label.kind with
          | .identifier => param.label.text.map plainParameter
          | .optionalParameter | .splatParameter | .keywordParameter | .blockParameter
          | .hashKeywordParameter => (rubyParameterName param).map plainParameter
          | _ => none)
        ((childByFieldName node .parameters).or (childByFieldName node .methodParameters)) }

end CodeSearch
