import CodeSearch.Exports
import CodeSearch.Imports

/-!
# Import and export rows of every language

The remaining extractors, and `parse_source_imports_exports`, which runs those of the
file's language on its tree.  Python, Go, Java, C, Ruby and C++ files have no exports.

A Rust `pub use` is an export too.  Its path is read a second time, by code that leaves out
one kind of node; where there is none of that kind, every export outside the modules of a file
is under the source of an import, in the same order (`rustExports_imported`).
-/

namespace CodeSearch

open TreeWalk RoseTree Trim

/-- The text of the first child that has one of the kinds and a text. -/
def firstText (kinds : List Kind) (children : List Node) : Option Text :=
  children.findSome? fun child => if child.label.kind ∈ kinds then child.label.text else none

/-- Rows of a node, and those of all below it. -/
def everywhere {β : Type} (rows : Node → List β) : Rules NodeInfo Unit β := fun _ node =>
  ⟨rows node, .children ()⟩

/-! ## Rust exports -/

/-- The texts that a child of a `pub use` adds to its path. -/
def exportPieces (child : Node) : List Text :=
  match child.label.kind with
  | .scopedIdentifier | .identifier =>
    child.label.text.toList.filter fun text => text ∉ [[], "use".toList, "pub".toList]
  | .scopedUseTree =>
    (child.children.filterMap fun part => part.label.text).filter fun text =>
      text ∉ [[], "::".toList]
  | _ => []

def parseRustExport (node : Node) : Option ExportStatement :=
  let path := (node.children.flatMap exportPieces).foldl pushPath []
  if path = [] then none else some ⟨.named [path], node.label.startRow + 1⟩

def visibilityModifier : Kind := .other "visibility_modifier".toList

/-- A child is `pub`. -/
def isPub (node : Node) : Bool := hasChild node .pub || hasChild node visibilityModifier

def extractRustExports : Rules NodeInfo Unit ExportStatement := fun _ node =>
  if node.label.kind = .useDeclaration then
    ⟨if isPub node then (parseRustExport node).toList else [], .stop⟩
  else ⟨[], .children ()⟩

def rustExports (root : Node) : List ExportStatement := visit extractRustExports () root

/-! ## Python -/

def dottedName : Kind := .other "dotted_name".toList
def aliasedImport : Kind := .other "aliased_import".toList
def importFromStatement : Kind := .other "import_from_statement".toList
def aliasField : Field := .other "alias".toList
def moduleNameField : Field := .other "module_name".toList

/-- The row of one module of an `import`. -/
def pythonImport (line : Nat) (child : Node) : Option ImportStatement :=
  if child.label.kind = dottedName then
    child.label.text.map fun text => ⟨text, .sideEffect, line⟩
  else if child.label.kind = aliasedImport then
    (fieldText child .name).map fun text =>
      ⟨text, .namespace ((fieldText child aliasField).getD []), line⟩
  else none

/-- The name that a child of `from … import` adds. -/
def importedName (child : Node) : Option Text :=
  if child.label.kind ∈ [dottedName, .identifier] then child.label.text
  else if child.label.kind = aliasedImport then fieldText child .name
  else none

/-- The children but for the module's name. -/
def pythonImportFrom (node : Node) : ImportStatement :=
  let names := (node.children.eraseP fun child => isField moduleNameField child.label).filterMap
    importedName
  { source := (fieldText node moduleNameField).getD []
    importKind := if names = [] then .sideEffect else .named names
    line := node.label.startRow + 1 }

def extractPythonImports : Rules NodeInfo Unit ImportStatement := fun _ node =>
  if node.label.kind = .importStatement then
    ⟨node.children.filterMap (pythonImport (node.label.startRow + 1)), .stop⟩
  else if node.label.kind = importFromStatement then ⟨[pythonImportFrom node], .stop⟩
  else ⟨[], .children ()⟩

/-! ## Go -/

def importSpec : Kind := .other "import_spec".toList
def pathField : Field := .other "path".toList

def goImport (node : Node) : Option ImportStatement :=
  (fieldText node pathField).map fun path =>
    { source := trimBoth (· = '"') path
      importKind := (fieldText node .name).elim .sideEffect .namespace
      line := node.label.startRow + 1 }

def extractGoImports : Rules NodeInfo Unit ImportStatement := fun _ node =>
  if node.label.kind = importSpec then ⟨(goImport node).toList, .stop⟩ else ⟨[], .children ()⟩

/-! ## Bash -/

def bashCommand : Kind := .other "command".toList
def commandName : Kind := .other "command_name".toList

/-- The kinds of an argument. -/
def argumentKinds : List Kind :=
  [.other "word".toList, .string, .other "raw_string".toList, .other "concatenation".toList]

/-- The name of a command and what is behind it. -/
def commandParts (node : Node) : List Node :=
  node.children.dropWhile fun child => decide (child.label.kind ≠ commandName)

def bashImports (node : Node) : List ImportStatement :=
  let verb := ((commandParts node).head?.bind fun name => name.label.text).getD []
  if node.label.kind = bashCommand ∧ verb ∈ ["source".toList, ".".toList] then
    (firstText argumentKinds (commandParts node)).toList.map fun text =>
      ⟨text, .require text, node.label.startRow + 1⟩
  else []

def extractBashImports : Rules NodeInfo Unit ImportStatement := everywhere bashImports

/-! ## Java -/

def importDeclaration : Kind := .other "import_declaration".toList

def importPathKinds : List Kind := [.scopedIdentifier, .identifier]

def javaImports (node : Node) : List ImportStatement :=
  if node.label.kind = importDeclaration then
    (firstText importPathKinds node.children).toList.map fun text =>
      ⟨text, .named [text], node.label.startRow + 1⟩
  else []

def extractJavaImports : Rules NodeInfo Unit ImportStatement := everywhere javaImports

/-! ## C and C++ -/

def preprocInclude : Kind := .other "preproc_include".toList

def includeKinds : List Kind := [.other "system_lib_string".toList, .other "string_literal".toList]

def cImports (node : Node) : List ImportStatement :=
  if node.label.kind = preprocInclude then
    (firstText includeKinds node.children).toList.map fun text =>
      ⟨text, .require text, node.label.startRow + 1⟩
  else []

def extractCImports : Rules NodeInfo Unit ImportStatement := everywhere cImports

def extractCppImports : Rules NodeInfo Unit ImportStatement := extractCImports

/-! ## Ruby -/

def rubyCall : Kind := .other "call".toList
def argumentList : Kind := .other "argument_list".toList

/-- The first identifier and what is behind it. -/
def callParts (node : Node) : List Node :=
  node.children.dropWhile fun child => decide (child.label.kind ≠ .identifier)

/-- The first string of the first arguments behind it. -/
def callArgument (node : Node) : Option Text :=
  ((callParts node).find? fun child => decide (child.label.kind = argumentList)).bind fun arguments =>
    (firstText [.string] arguments.children).map trimQuotes

def rubyImports (node : Node) : List ImportStatement :=
  let methodName := ((callParts node).head?.bind fun name => name.label.text).getD []
  if node.label.kind = rubyCall ∧ methodName ∈ ["require".toList, "require_relative".toList] then
    (callArgument node).toList.map fun argument =>
      ⟨argument, .require argument, node.label.startRow + 1⟩
  else []

def extractRubyImports : Rules NodeInfo Unit ImportStatement := everywhere rubyImports

/-! ## All languages -/

def importsOfTree : Language → Node → List ImportStatement
  | .typeScript => typescriptImports
  | .rust => rustImports
  | .python => visit extractPythonImports ()
  | .go => visit extractGoImports ()
  | .bash => visit extractBashImports ()
  | .java => visit extractJavaImports ()
  | .c => visit extractCImports ()
  | .ruby => visit extractRubyImports ()
  | .cpp => visit extractCppImports ()

def exportsOfTree : Language → Node → List ExportStatement
  | .typeScript => typescriptExports
  | .rust => rustExports
  | .bash => bashExports
  | _ => fun _ => []

/-- `parse_source_imports_exports`, given what tree-sitter returns. -/
def parseSourceImportsExports (tree : Text → Language → Except ParseError Node) (source : Text)
    (language : Language) : Except ParseError (List ImportStatement × List ExportStatement) :=
  (tree source language).map fun root => (importsOfTree language root, exportsOfTree language root)

/-! ## Rust exports are imports -/

def isUse (node : Node) : Bool := decide (node.label.kind = .useDeclaration)

/-- What a `pub use` exports is what it imports. -/
def exportOf (row : ImportStatement) : ExportStatement := ⟨.named [row.source], row.line⟩

/-- The grammar calls no child of a `use` a `use_tree`. -/
def NoUseTree (root : Node) : Prop :=
  ∀ node ∈ root.outside isUse, isUse node = true → ∀ child ∈ node.children,
    child.label.kind ≠ .useTree

/-- The import rows of a `pub use`, as exports. -/
def reExports (node : Node) : List ExportStatement :=
  if isUse node && isPub node then (parseRustUse node).toList.map exportOf else []

theorem exportPieces_eq (child : Node) :
    exportPieces child = if child.label.kind = .useTree then [] else usePieces child := by
  unfold exportPieces usePieces
  split
  · next h => rw [h, if_neg nofun]
  · next h => rw [h, if_neg nofun]
  · next h => rw [h, if_neg nofun]
  · next h1 h2 h3 =>
    split
    · rfl
    · next hkind =>
      split
      · next h => exact absurd h h1
      · next h => exact absurd h hkind
      · next h => exact absurd h h2
      · next h => exact absurd h h3
      · rfl

theorem parseRustExport_eq {node : Node} (h : ∀ child ∈ node.children, child.label.kind ≠ .useTree) :
    (parseRustExport node).toList = (parseRustUse node).toList.map exportOf := by
  have hpieces : node.children.flatMap exportPieces = node.children.flatMap usePieces := by
    refine List.flatMap_congr fun child hchild => ?_
    rw [exportPieces_eq, if_neg (h child hchild)]
  unfold parseRustExport parseRustUse useTreeText
  rw [hpieces]
  dsimp only
  split
  · rfl
  · split <;> rfl

theorem stopsAt_rustExports : StopsAt extractRustExports isUse := by
  intro mode node
  unfold extractRustExports isUse
  by_cases h : node.label.kind = .useDeclaration
  · rw [if_pos (decide_eq_true h), if_pos h]
  · rw [if_neg (by simpa using h), if_neg h]
    exact ⟨(), rfl⟩

theorem rustExports_eq {root : Node} (h : NoUseTree root) :
    rustExports root = (root.outside isUse).flatMap reExports := by
  unfold rustExports
  rw [visit_eq_outside (e := fun node => (extractRustExports () node).emit) stopsAt_rustExports
    fun _ _ => rfl]
  refine List.flatMap_congr fun node hnode => ?_
  unfold extractRustExports reExports
  by_cases huse : node.label.kind = .useDeclaration
  · have huse' : isUse node = true := decide_eq_true huse
    rw [if_pos huse, huse', Bool.true_and]
    dsimp only
    rw [parseRustExport_eq (h node hnode huse')]
  · rw [if_neg huse, if_neg (by simp [isUse, huse])]

theorem reExports_eq_nil_iff (node : Node) : reExports node = [] ↔
    (isUse node = true → isPub node = true → parseRustUse node = none) := by
  unfold reExports
  by_cases hpub : (isUse node && isPub node) = true
  · rw [if_pos hpub, List.map_eq_nil_iff, Option.toList_eq_nil_iff]
    obtain ⟨huse, hpub⟩ := Bool.and_eq_true_iff.1 hpub
    exact ⟨fun hnone _ _ => hnone, fun hnone => hnone huse hpub⟩
  · rw [if_neg hpub]
    exact iff_of_true rfl fun huse hpub' => absurd (Bool.and_eq_true_iff.2 ⟨huse, hpub'⟩) hpub

/-- The rows of `pub use`s among the import rows of a node. -/
theorem filter_withNode (node : Node) :
    (((withNode extractRustImports () node).emit.filter fun row => isUse row.1 && isPub row.1).map
      fun row => exportOf row.2) = reExports node := by
  unfold reExports withNode
  dsimp only
  have hall : ∀ row ∈ (extractRustImports () node).emit.map (fun row => (node, row)),
      (isUse row.1 && isPub row.1) = (isUse node && isPub node) := by
    intro row hrow
    obtain ⟨_, -, rfl⟩ := List.mem_map.1 hrow
    rfl
  by_cases hpub : (isUse node && isPub node) = true
  · have hkind : node.label.kind = .useDeclaration :=
      of_decide_eq_true (Bool.and_eq_true_iff.1 hpub).1
    have hemit : (extractRustImports () node).emit = (parseRustUse node).toList := by
      unfold extractRustImports
      rw [hkind]
    rw [List.filter_eq_self.2 fun row hrow => (hall row hrow).trans hpub, if_pos hpub, hemit,
      List.map_map]
    rfl
  · rw [List.filter_eq_nil_iff.2 fun row hrow hkept => hpub ((hall row hrow).symm.trans hkept),
      if_neg hpub]
    rfl

/-- The exports of a file are the imports of its `pub use`s, exactly if none in a module has a
path. -/
theorem rustExports_imported {root : Node} (h : NoUseTree root) :
    rustExports root = (((visit (withNode extractRustImports) () root).filter fun row =>
        isUse row.1 && isPub row.1).map fun row => exportOf row.2) ↔
      ∀ node ∈ root.outside rustStops, isModItem node = true → ∀ child ∈ node.children,
        ∀ below ∈ child.outside isUse, isUse below = true → isPub below = true →
          parseRustUse below = none := by
  have hrows : (((visit (withNode extractRustImports) () root).filter fun row =>
      isUse row.1 && isPub row.1).map fun row => exportOf row.2) =
        (root.outside rustStops).flatMap reExports := by
    have hstops : StopsAt (withNode extractRustImports) rustStops := stopsAt_rust
    rw [visit_eq_outside (e := fun node => (withNode extractRustImports () node).emit) hstops
      fun _ _ => rfl, List.filter_flatMap, List.map_flatMap]
    exact List.flatMap_congr fun node _ => filter_withNode node
  have hle : ∀ node : Node, isUse node = true → rustStops node = true := fun node huse =>
    decide_eq_true (.inl (of_decide_eq_true huse))
  have hmod : ∀ node : Node, isModItem node = true ↔ rustStops node = true ∧ ¬ isUse node = true := by
    intro node
    unfold isModItem rustStops isUse
    rw [decide_eq_true_iff, decide_eq_true_iff, decide_eq_true_iff]
    constructor
    · intro hkind
      exact ⟨.inr hkind, by rw [hkind]; nofun⟩
    · exact fun hboth => hboth.1.resolve_left hboth.2
  rw [hrows, rustExports_eq h, eq_comm, flatMap_outside_eq_iff hle]
  refine forall₂_congr fun node _ => ?_
  rw [hmod, and_imp]
  refine forall₂_congr fun _ _ => forall₂_congr fun child _ => forall₂_congr fun below _ => ?_
  exact reExports_eq_nil_iff below

/-- A `use` of one name. -/
def useName (source : Text) (visibility : List Node) (first start : Nat) : Node :=
  lineNode source .useDeclaration none first (start + 6) (visibility ++ [
    word source start (start + 3),
    lineNode source .identifier (some argumentField) (start + 4) (start + 5) [],
    word source (start + 5) (start + 6)])

def pubAt (source : Text) (start : Nat) : Node :=
  lineNode source visibilityModifier none start (start + 3) [word source start (start + 3)]

/-- A module whose body has these children. -/
def modWith (source : Text) (start stop : Nat) (body : List Node) : Node :=
  lineNode source .modItem none start stop [
    word source start (start + 3),
    lineNode source .identifier (some .name) (start + 4) (start + 5) [],
    lineNode source .declarationList (some .body) (start + 6) stop body]

/-- Two `pub use`s, and a `use` in a module. -/
def pubUses : Node :=
  let source := "pub use a::b; pub use c; mod m \x7b use d; \x7d".toList
  lineNode source (.other "source_file".toList) none 0 41 [
    lineNode source .useDeclaration none 0 13 [
      pubAt source 0,
      word source 4 7,
      lineNode source .scopedIdentifier (some argumentField) 8 12 [
        lineNode source .identifier (some (.other "path".toList)) 8 9 [],
        word source 9 11,
        lineNode source .identifier (some .name) 11 12 []],
      word source 12 13],
    useName source [pubAt source 14] 14 18,
    modWith source 25 41 [useName source [] 33 33]]

/-- A `pub use` in a module, behind another. -/
def pubUseInMod : Node :=
  let source := "pub use c; mod m \x7b pub use d; \x7d".toList
  lineNode source (.other "source_file".toList) none 0 31 [
    useName source [pubAt source 0] 0 4,
    modWith source 11 31 [useName source [pubAt source 19] 19 23]]

/-- The exports of the first file are its imports; the one in the module of the second is no
import. -/
theorem rustExports_imported_pubUses :
    rustExports pubUses = [⟨.named ["a::b".toList], 1⟩, ⟨.named ["c".toList], 1⟩] ∧
    rustExports pubUses = (((visit (withNode extractRustImports) () pubUses).filter fun row =>
      isUse row.1 && isPub row.1).map fun row => exportOf row.2) ∧
    rustExports pubUseInMod ≠ (((visit (withNode extractRustImports) () pubUseInMod).filter fun row =>
      isUse row.1 && isPub row.1).map fun row => exportOf row.2) := by
  have h : NoUseTree pubUses := by
    unfold NoUseTree
    decide +kernel
  have h' : NoUseTree pubUseInMod := by
    unfold NoUseTree
    decide +kernel
  refine ⟨by decide +kernel, (rustExports_imported h).2 (by decide +kernel), fun heq => ?_⟩
  have hnone := (rustExports_imported h').1 heq
  revert hnone
  decide +kernel

end CodeSearch
