import CodeSearch.SyntaxTree

/-!
# The two extraction paths

`parse_source` and `parse_source_spans` walk one syntax tree, each with an extractor of
its own per language.  An extractor is a match on the kind of each child: the rules of a
walk.  A mode stands for the function that does the matching: Rust has one more for trait
bodies, the TypeScript spans have one for declarations.
-/

namespace CodeSearch

open TreeWalk

/-- Which function looks at the node. -/
inductive Mode where
  | items
  /-- `extract_rust_trait_methods` and its mirror. -/
  | traitMethods
  /-- `extract_typescript_declaration_span`. -/
  | declaration
deriving DecidableEq

/-- A signature that `parse_source` returns, and what it was pushed for. -/
inductive Pushed where
  | callable (signature : FunctionSignature)
  /-- A class, struct, interface, enum, record or module. -/
  | typeEntry (signature : FunctionSignature)

def Pushed.signature : Pushed → FunctionSignature
  | .callable signature | .typeEntry signature => signature

def Pushed.callable? : Pushed → Option FunctionSignature
  | .callable signature => some signature
  | .typeEntry _ => none

/-- The children of the field `body`. -/
def belowBody (mode : Mode) : Next NodeInfo Mode := .below (isField .body) mode

abbrev FunctionRules := Rules NodeInfo Mode Pushed

abbrev SpanRules := Rules NodeInfo Mode SymbolSpan

def callables (signature : Option FunctionSignature) : List Pushed :=
  signature.toList.map .callable

def typeEntries (signature : Option FunctionSignature) : List Pushed :=
  signature.toList.map .typeEntry

/-- `span_of` of what was parsed. -/
def taggedSpans (node : Node) (kind : SymbolKind) (signature : Option FunctionSignature) :
    List SymbolSpan :=
  signature.toList.map fun sig => (sig, kind, node.label.startRow + 1, node.label.endRow + 1)

/-- `type_symbol`, as an entry of its own. -/
def typeSpan (node : Node) (kind : SymbolKind) : List SymbolSpan :=
  taggedSpans node kind (typeSymbol node)

/-! ## TypeScript -/

def extractTypescriptFunctions : FunctionRules := fun _ node =>
  match node.label.kind with
  | .functionDeclaration | .functionSignature => ⟨callables (parseTypescriptFunction node), .stop⟩
  | .exportStatement =>
    ⟨match childByFieldName node .declaration with
      | some declaration =>
        if declaration.label.kind = .functionDeclaration then
          callables (parseTypescriptFunction declaration)
        else []
      | none => [], .stop⟩
  | .classDeclaration | .interfaceDeclaration | .typeAliasDeclaration => ⟨[], belowBody .items⟩
  | .methodDefinition | .methodSignature => ⟨callables (parseTypescriptMethod node), .stop⟩
  | .abstractMethodSignature | .callSignature | .constructSignature =>
    ⟨callables (parseTypescriptSignature node), .stop⟩
  | _ => ⟨[], .children .items⟩

def typescriptTypeKind : Kind → Option SymbolKind
  | .classDeclaration => some .class
  | .interfaceDeclaration => some .interface
  | .typeAliasDeclaration => some .type
  | .enumDeclaration => some .enum
  | _ => none

def extractTypescriptDeclarationSpan (node : Node) : Rule NodeInfo Mode SymbolSpan :=
  match node.label.kind with
  | .functionDeclaration | .functionSignature =>
    ⟨taggedSpans node .function (parseTypescriptFunction node), .stop⟩
  | .classDeclaration | .interfaceDeclaration | .typeAliasDeclaration | .enumDeclaration =>
    ⟨match typescriptTypeKind node.label.kind with
      | some kind => typeSpan node kind
      | none => [], belowBody .items⟩
  | _ => ⟨[], .stop⟩

def extractTypescriptFunctionSpans : SpanRules
  | .declaration, node => extractTypescriptDeclarationSpan node
  | _, node =>
    match node.label.kind with
    | .functionDeclaration | .functionSignature =>
      ⟨taggedSpans node .function (parseTypescriptFunction node), .stop⟩
    | .exportStatement => ⟨[], .child (isField .declaration) .declaration⟩
    | .classDeclaration | .interfaceDeclaration | .typeAliasDeclaration | .enumDeclaration =>
      extractTypescriptDeclarationSpan node
    | .methodDefinition | .methodSignature =>
      ⟨taggedSpans node .function (parseTypescriptMethod node), .stop⟩
    | .abstractMethodSignature | .callSignature | .constructSignature =>
      ⟨taggedSpans node .function (parseTypescriptSignature node), .stop⟩
    | _ => ⟨[], .children .items⟩

/-! ## Rust -/

def extractRustTraitMethods (node : Node) : Rule NodeInfo Mode Pushed :=
  match node.label.kind with
  | .functionSignatureItem | .functionItem | .associatedFunction =>
    ⟨callables (parseRustFunction node), .stop⟩
  | _ => ⟨[], .children .traitMethods⟩

def extractRustFunctions : FunctionRules
  | .traitMethods, node => extractRustTraitMethods node
  | _, node =>
    match node.label.kind with
    | .functionItem => ⟨callables (parseRustFunction node), .stop⟩
    | .implItem => ⟨[], belowBody .items⟩
    | .traitItem => ⟨[], belowBody .traitMethods⟩
    | .declarationList | .fieldDeclarationList => ⟨[], .children .items⟩
    | .associatedFunction => ⟨callables (parseRustFunction node), .stop⟩
    | _ => ⟨[], .children .items⟩

def extractRustTraitMethodSpans (node : Node) : Rule NodeInfo Mode SymbolSpan :=
  match node.label.kind with
  | .functionSignatureItem | .functionItem | .associatedFunction =>
    ⟨taggedSpans node .function (parseRustFunction node), .stop⟩
  | _ => ⟨[], .children .traitMethods⟩

def extractRustFunctionSpans : SpanRules
  | .traitMethods, node => extractRustTraitMethodSpans node
  | _, node =>
    match node.label.kind with
    | .functionItem => ⟨taggedSpans node .function (parseRustFunction node), .stop⟩
    | .implItem => ⟨[], belowBody .items⟩
    | .structItem | .unionItem => ⟨typeSpan node .struct, .stop⟩
    | .enumItem => ⟨typeSpan node .enum, .stop⟩
    | .typeItem => ⟨typeSpan node .type, .stop⟩
    | .traitItem => ⟨typeSpan node .trait, belowBody .traitMethods⟩
    | .declarationList | .fieldDeclarationList => ⟨[], .children .items⟩
    | .associatedFunction => ⟨taggedSpans node .function (parseRustFunction node), .stop⟩
    | _ => ⟨[], .children .items⟩

/-! ## Python -/

def extractPythonFunctions : FunctionRules := fun _ node =>
  match node.label.kind with
  | .functionDefinition => ⟨callables (parsePythonFunction node), belowBody .items⟩
  | .classDefinition => ⟨[], belowBody .items⟩
  | _ => ⟨[], .children .items⟩

def extractPythonFunctionSpans : SpanRules := fun _ node =>
  match node.label.kind with
  | .functionDefinition =>
    ⟨taggedSpans node .function (parsePythonFunction node), belowBody .items⟩
  | .classDefinition => ⟨typeSpan node .class, belowBody .items⟩
  | _ => ⟨[], .children .items⟩

/-! ## Go -/

def extractGoFunctions : FunctionRules := fun _ node =>
  match node.label.kind with
  | .functionDeclaration => ⟨callables (parseGoFunction node), .stop⟩
  | .methodDeclaration => ⟨callables (parseGoMethod node), .stop⟩
  | _ => ⟨[], .children .items⟩

/-- The first child that is a struct or an interface type decides. -/
def goTypeSpecKind (spec : Node) : SymbolKind :=
  (spec.children.findSome? fun child =>
    match child.label.kind with
    | .structType => some .struct
    | .interfaceType => some .interface
    | _ => none).getD .type

def extractGoFunctionSpans : SpanRules := fun _ node =>
  match node.label.kind with
  | .functionDeclaration => ⟨taggedSpans node .function (parseGoFunction node), .stop⟩
  | .methodDeclaration => ⟨taggedSpans node .function (parseGoMethod node), .stop⟩
  | .typeDeclaration =>
    ⟨node.children.flatMap fun spec =>
      if spec.label.kind = .typeSpec then typeSpan spec (goTypeSpecKind spec) else [], .stop⟩
  | _ => ⟨[], .children .items⟩

/-! ## Bash -/

def extractBashFunctions : FunctionRules := fun _ node =>
  match node.label.kind with
  | .functionDefinition => ⟨callables (parseBashFunction node), belowBody .items⟩
  | _ => ⟨[], .children .items⟩

def extractBashFunctionSpans : SpanRules := fun _ node =>
  match node.label.kind with
  | .functionDefinition =>
    ⟨taggedSpans node .function (parseBashFunction node), belowBody .items⟩
  | _ => ⟨[], .children .items⟩

/-! ## Java -/

/-- The fields that `extract_java_functions` looks for a body in, in this order. -/
def javaBodyFields : List Field := [.classBody, .interfaceBody, .enumBody]

/-- The first of them that the node has. -/
def javaBodyField (node : Node) : Option Field :=
  javaBodyFields.find? fun field => (childByFieldName node field).isSome

/-- The children of that field. -/
def belowJavaBody (node : Node) : Next NodeInfo Mode :=
  match javaBodyField node with
  | some field => .below (isField field) .items
  | none => .stop

def extractJavaFunctions : FunctionRules := fun _ node =>
  match node.label.kind with
  | .classDeclaration | .interfaceDeclaration | .enumDeclaration | .recordDeclaration =>
    ⟨typeEntries (typeSymbol node), belowJavaBody node⟩
  | .methodDeclaration | .constructorDeclaration => ⟨callables (parseJavaMethod node), .stop⟩
  | _ => ⟨[], .children .items⟩

def extractJavaFunctionSpans : SpanRules := fun _ node =>
  match node.label.kind with
  | .classDeclaration => ⟨typeSpan node .class, belowBody .items⟩
  | .interfaceDeclaration => ⟨typeSpan node .interface, belowBody .items⟩
  | .enumDeclaration => ⟨typeSpan node .enum, belowBody .items⟩
  | .recordDeclaration => ⟨typeSpan node .class, belowBody .items⟩
  | .methodDeclaration | .constructorDeclaration =>
    ⟨taggedSpans node .function (parseJavaMethod node), .stop⟩
  | _ => ⟨[], .children .items⟩

/-! ## C, Ruby and C++ -/

def extractCFunctions : FunctionRules := fun _ node =>
  match node.label.kind with
  | .functionDefinition => ⟨callables (parseCFunction node), belowBody .items⟩
  | _ => ⟨[], .children .items⟩

def extractCFunctionSpans : SpanRules := fun _ node =>
  match node.label.kind with
  | .functionDefinition => ⟨taggedSpans node .function (parseCFunction node), belowBody .items⟩
  | _ => ⟨[], .children .items⟩

def extractRubyFunctions : FunctionRules := fun _ node =>
  match node.label.kind with
  | .class | .module => ⟨typeEntries (typeSymbol node), belowBody .items⟩
  | .method | .singletonMethod => ⟨callables (parseRubyMethod node), .stop⟩
  | _ => ⟨[], .children .items⟩

def extractRubyFunctionSpans : SpanRules := fun _ node =>
  match node.label.kind with
  | .class => ⟨typeSpan node .class, belowBody .items⟩
  | .module => ⟨typeSpan node .module, belowBody .items⟩
  | .method => ⟨taggedSpans node .function (parseRubyMethod node), .stop⟩
  | .singletonMethod => ⟨taggedSpans node .function (parseRubyMethod node), .stop⟩
  | _ => ⟨[], .children .items⟩

def extractCppFunctions : FunctionRules := fun _ node =>
  match node.label.kind with
  | .functionDefinition => ⟨callables (parseCFunction node), belowBody .items⟩
  | .classSpecifier | .structSpecifier => ⟨typeEntries (typeSymbol node), belowBody .items⟩
  | _ => ⟨[], .children .items⟩

def extractCppFunctionSpans : SpanRules := fun _ node =>
  match node.label.kind with
  | .functionDefinition => ⟨taggedSpans node .function (parseCFunction node), belowBody .items⟩
  | .classSpecifier => ⟨typeSpan node .class, belowBody .items⟩
  | .structSpecifier => ⟨typeSpan node .struct, belowBody .items⟩
  | _ => ⟨[], .children .items⟩

/-! ## The public functions -/

def functionRules : Language → FunctionRules
  | .typeScript => extractTypescriptFunctions
  | .rust => extractRustFunctions
  | .python => extractPythonFunctions
  | .go => extractGoFunctions
  | .bash => extractBashFunctions
  | .java => extractJavaFunctions
  | .c => extractCFunctions
  | .ruby => extractRubyFunctions
  | .cpp => extractCppFunctions

def spanRules : Language → SpanRules
  | .typeScript => extractTypescriptFunctionSpans
  | .rust => extractRustFunctionSpans
  | .python => extractPythonFunctionSpans
  | .go => extractGoFunctionSpans
  | .bash => extractBashFunctionSpans
  | .java => extractJavaFunctionSpans
  | .c => extractCFunctionSpans
  | .ruby => extractRubyFunctionSpans
  | .cpp => extractCppFunctionSpans

/-- What a tree's extractor pushes. -/
def pushedOf (language : Language) (root : Node) : List Pushed :=
  walk (functionRules language) .items root

def spansOfTree (language : Language) (root : Node) : List SymbolSpan :=
  walk (spanRules language) .items root

/-- `parse_source`, given what tree-sitter returns. -/
def parseSource (tree : Text → Language → Except ParseError Node) (source : Text)
    (language : Language) : Except ParseError (List FunctionSignature) :=
  (tree source language).map fun root => (pushedOf language root).map Pushed.signature

/-- `parse_source_spans`, given what tree-sitter returns. -/
def parseSourceSpans (tree : Text → Language → Except ParseError Node) (source : Text)
    (language : Language) : Except ParseError (List SymbolSpan) :=
  (tree source language).map (spansOfTree language)

end CodeSearch
