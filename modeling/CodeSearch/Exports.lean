import CodeSearch.Lib.TreeNodes
import CodeSearch.Lib.Trim
import CodeSearch.SyntaxTree

/-!
# Exports

The export rows of a TypeScript and of a Bash file.

Of a TypeScript statement the code looks at which kinds its children have, and not at the
keyword `default`: an exported function, class or variable is a default export, and an
exported type none.  `Handled` is when a statement gets the row that `ExportKind` documents
(`typescript_exports_classified_iff`).

Of a Bash declaration it does not look at the keyword: what `local` and `readonly` declare
is exported too (`bash_exports_iff`).
-/

namespace CodeSearch

open TreeWalk RoseTree Trim

/-! ## TypeScript -/

/-- What a child of a specifier list is listed as: braces and commas are not. -/
def listedName (child : Node) : Option Text :=
  child.label.text.bind fun name =>
    let trimmed := trim name
    if trimmed = [] ∨ trimmed ∈ ["\x7b".toList, "\x7d".toList, ",".toList] then none
    else some trimmed

/-- The texts of the string children, from which the last one's source is kept. -/
def sourceLiteral (node : Node) : Option Text :=
  (node.children.filterMap fun child =>
    if child.label.kind = .string then child.label.text else none).getLast?

def specifierNode (node : Node) : Option Node := lastChild node [.exportClause, .namedExports]

def declarationNode (node : Node) : Option Node :=
  lastChild node [.functionDeclaration, .classDeclaration, .lexicalDeclaration, .variableDeclaration]

/-- The name of a function or a class, or else the whole text. -/
def defaultTarget (declaration : Node) : Option Text :=
  declaration.label.text.bind fun text =>
    let name := match declaration.label.kind with
      | .functionDeclaration | .classDeclaration => childByFieldName declaration .name
      | _ => none
    match name with
    | some name => name.label.text
    | none => some text

def parseTypescriptExport (node : Node) : Option ExportStatement :=
  let line := node.label.startRow + 1
  let moduleSource := (sourceLiteral node).elim [] trimQuotes
  let items := (specifierNode node).elim [] fun specifier => specifier.children.filterMap listedName
  if hasChild node .from ∧ moduleSource ≠ [] then
    if items = [] then some ⟨.reExportAll moduleSource, line⟩
    else some ⟨.reExport items moduleSource, line⟩
  else
    match declarationNode node with
    | some declaration => (defaultTarget declaration).map fun target => ⟨.default target, line⟩
    | none => if items = [] then none else some ⟨.named items, line⟩

def isExportStatement (node : Node) : Bool := decide (node.label.kind = .exportStatement)

def extractTypescriptExports : Rules NodeInfo Unit ExportStatement := fun _ node =>
  if isExportStatement node then ⟨(parseTypescriptExport node).toList, .stop⟩
  else ⟨[], .children ()⟩

def typescriptExports (root : Node) : List ExportStatement := visit extractTypescriptExports () root

/-! ## The documented classification -/

/-- The export statements that are not inside another. -/
def exportStatements (root : Node) : List Node :=
  (root.outside isExportStatement).filter isExportStatement

def defaultKeyword : Kind := .other "default".toList
def exportSpecifier : Kind := .other "export_specifier".toList

/-- The statement is `export … from "…"`. -/
def FromSource (node : Node) : Prop :=
  hasChild node .from = true ∧ (sourceLiteral node).isSome = true

/-- The specifiers of a list. -/
def specifiers (clause : Node) : List Text :=
  clause.children.flatMap fun child =>
    if child.label.kind = exportSpecifier then child.label.text.toList else []

/-- The names that a declaration binds: its own, or those of its declarators. -/
def boundNames (declaration : Node) : List Text :=
  match declaration.label.kind with
  | .lexicalDeclaration | .variableDeclaration => declaration.children.filterMap fun child =>
      if child.label.kind = .variableDeclarator then fieldText child .name else none
  | _ => (fieldText declaration .name).toList

/-- What is exported by name. -/
def exportedNames (node : Node) : List Text :=
  match specifierNode node with
  | some clause => specifiers clause
  | none => (childByFieldName node .declaration).elim [] boundNames

/-- The row is the one that `ExportKind` documents for the statement. -/
structure Classified (node : Node) (row : ExportStatement) : Prop where
  default : (∃ name, row.exportKind = .default name) ↔ hasChild node defaultKeyword = true
  reExport : ((∃ items source, row.exportKind = .reExport items source) ∨
    ∃ source, row.exportKind = .reExportAll source) ↔ FromSource node
  reExportAll : (∃ source, row.exportKind = .reExportAll source) ↔
    FromSource node ∧ specifierNode node = none
  named : ¬ hasChild node defaultKeyword = true → ¬ FromSource node →
    row.exportKind = .named (exportedNames node)

/-- A list of which every specifier, and nothing else, is listed. -/
def ListsSpecifiers (clause : Node) : Prop :=
  ∀ child ∈ clause.children, listedName child =
    if child.label.kind = exportSpecifier then child.label.text else none

/-- When a statement is classified as documented. -/
inductive Handled (node : Node) : Prop where
  /-- A re-export whose source is not made of quotes only and whose list, if any, is not empty. -/
  | reExport {literal : Text} (plain : ¬ hasChild node defaultKeyword = true)
      (keyword : hasChild node .from = true) (source : sourceLiteral node = some literal)
      (named : ¬ literal.all isQuote = true)
      (listed : ∀ clause, specifierNode node = some clause →
        ∃ child ∈ clause.children, (listedName child).isSome = true)
  /-- A default export of a function, a class or variables, whose text can be read. -/
  | default {declaration : Node} (keyword : hasChild node defaultKeyword = true)
      (here : ¬ FromSource node) (declared : declarationNode node = some declaration)
      (readable : (defaultTarget declaration).isSome = true)
  /-- A list of specifiers, not empty, and no function, class or variables. -/
  | named {clause : Node} (plain : ¬ hasChild node defaultKeyword = true)
      (here : ¬ FromSource node) (undeclared : declarationNode node = none)
      (list : specifierNode node = some clause) (nonempty : specifiers clause ≠ [])
      (exactly : ListsSpecifiers clause)

/-! ## The rows of a TypeScript file -/

theorem trimQuotes_ne_nil_iff (text : Text) : trimQuotes text ≠ [] ↔ ¬ text.all isQuote = true :=
  not_congr (trimBoth_eq_nil_iff (p := isQuote))

/-- What is listed is trimmed, and would be listed again. -/
theorem listedName_listed {child child' : Node} {name : Text} (h : listedName child = some name)
    (h' : child'.label.text = some name) : listedName child' = some name := by
  unfold listedName at h ⊢
  obtain ⟨text, -, htext⟩ := Option.bind_eq_some_iff.1 h
  simp only at htext
  split at htext
  · cases htext
  · next hlisted =>
    cases htext
    have htrim : trim (trim text) = trim text := trimBoth_idem
    rw [h', Option.bind_some, htrim]
    simp only
    rw [if_neg hlisted]

/-- A list reads as its specifiers only if it lists each and nothing else. -/
theorem listsSpecifiers_iff (clause : Node) :
    clause.children.filterMap listedName = specifiers clause ↔ ListsSpecifiers clause := by
  unfold specifiers ListsSpecifiers
  rw [List.filterMap_eq_flatMap_toList]
  constructor
  · intro heq child hchild
    have hsub : ∀ c ∈ clause.children,
        (if c.label.kind = exportSpecifier then c.label.text.toList else []).Sublist
          (listedName c).toList := by
      intro c hc
      by_cases hspec : c.label.kind = exportSpecifier
      · rw [if_pos hspec]
        cases htext : c.label.text with
        | none => exact List.nil_sublist _
        | some name =>
          -- the name is among the specifiers, so among what is listed
          have hmem : name ∈ clause.children.flatMap fun c => (listedName c).toList := by
            rw [heq, List.mem_flatMap]
            exact ⟨c, hc, by rw [if_pos hspec, htext]; exact List.mem_cons_self⟩
          obtain ⟨c', -, hc'⟩ := List.mem_flatMap.1 hmem
          rw [listedName_listed (Option.mem_toList.1 hc') htext]
      · rw [if_neg hspec]
        exact List.nil_sublist _
    have hpoint := eq_of_flatMap_eq hsub heq.symm child hchild
    by_cases hspec : child.label.kind = exportSpecifier
    · rw [if_pos hspec] at hpoint ⊢
      have hhead := congrArg List.head? hpoint
      rw [Option.head?_toList, Option.head?_toList] at hhead
      exact hhead.symm
    · rw [if_neg hspec] at hpoint ⊢
      exact Option.toList_eq_nil_iff.1 hpoint.symm
  · intro h
    refine List.flatMap_congr fun c hc => ?_
    rw [h c hc]
    split <;> rfl

theorem filterMap_listedName_ne_nil {clause : Node} :
    clause.children.filterMap listedName ≠ [] ↔
      ∃ child ∈ clause.children, (listedName child).isSome = true := by
  rw [Ne, List.filterMap_eq_nil_iff]
  simp only [not_forall, exists_prop, Option.isSome_iff_ne_none, Ne]

section
variable {node : Node}

/-- The items that a statement lists. -/
theorem items_of_specifierNode {clause : Node} (h : specifierNode node = some clause) :
    ((specifierNode node).elim [] fun specifier => specifier.children.filterMap listedName) =
      clause.children.filterMap listedName := by
  rw [h]
  rfl

/-- A statement with a source that is not empty is a re-export. -/
theorem parseTypescriptExport_reExport {literal : Text} (hfrom : hasChild node .from = true)
    (hsource : sourceLiteral node = some literal) (hne : trimQuotes literal ≠ []) :
    parseTypescriptExport node =
      let items := (specifierNode node).elim [] fun specifier => specifier.children.filterMap listedName
      if items = [] then some ⟨.reExportAll (trimQuotes literal), node.label.startRow + 1⟩
      else some ⟨.reExport items (trimQuotes literal), node.label.startRow + 1⟩ := by
  have hne' : (sourceLiteral node).elim [] trimQuotes ≠ [] := by
    rw [hsource]
    exact hne
  unfold parseTypescriptExport
  dsimp only
  rw [if_pos ⟨hfrom, hne'⟩, hsource]
  rfl

/-- Any other is a default export if it declares a function, a class or variables, and lists
names if not. -/
theorem parseTypescriptExport_here
    (h : ¬ (hasChild node .from = true ∧ (sourceLiteral node).elim [] trimQuotes ≠ [])) :
    parseTypescriptExport node =
      match declarationNode node with
      | some declaration =>
        (defaultTarget declaration).map fun target => ⟨.default target, node.label.startRow + 1⟩
      | none =>
        let items := (specifierNode node).elim [] fun specifier =>
          specifier.children.filterMap listedName
        if items = [] then none else some ⟨.named items, node.label.startRow + 1⟩ := by
  unfold parseTypescriptExport
  dsimp only
  rw [if_neg h]

theorem not_reExport_of_here (h : ¬ FromSource node) :
    ¬ (hasChild node .from = true ∧ (sourceLiteral node).elim [] trimQuotes ≠ []) := by
  rintro ⟨hfrom, hne⟩
  refine h ⟨hfrom, Option.isSome_iff_ne_none.2 fun hnone => hne ?_⟩
  rw [hnone]
  rfl

/-- Which statements are classified by a row of each kind. -/
theorem classified_reExport_iff {items : List Text} {source : Text} {line : Nat} :
    Classified node ⟨.reExport items source, line⟩ ↔
      ¬ hasChild node defaultKeyword = true ∧ FromSource node ∧ specifierNode node ≠ none := by
  constructor
  · rintro ⟨hdefault, hre, hall, -⟩
    have hfrom := hre.1 (.inl ⟨items, source, rfl⟩)
    refine ⟨fun h => ?_, hfrom, fun hnone => ?_⟩
    · obtain ⟨name, hname⟩ := hdefault.2 h
      cases hname
    · obtain ⟨source', hsource'⟩ := hall.2 ⟨hfrom, hnone⟩
      cases hsource'
  · rintro ⟨hplain, hfrom, hlist⟩
    constructor
    · exact iff_of_false nofun hplain
    · exact iff_of_true (.inl ⟨items, source, rfl⟩) hfrom
    · exact iff_of_false nofun fun h => hlist h.2
    · exact fun _ hnot => absurd hfrom hnot

theorem classified_reExportAll_iff {source : Text} {line : Nat} :
    Classified node ⟨.reExportAll source, line⟩ ↔
      ¬ hasChild node defaultKeyword = true ∧ FromSource node ∧ specifierNode node = none := by
  constructor
  · rintro ⟨hdefault, -, hall, -⟩
    refine ⟨fun h => ?_, hall.1 ⟨source, rfl⟩⟩
    obtain ⟨name, hname⟩ := hdefault.2 h
    cases hname
  · rintro ⟨hplain, hfrom, hlist⟩
    constructor
    · exact iff_of_false nofun hplain
    · exact iff_of_true (.inr ⟨source, rfl⟩) hfrom
    · exact iff_of_true ⟨source, rfl⟩ ⟨hfrom, hlist⟩
    · exact fun _ hnot => absurd hfrom hnot

theorem classified_default_iff {name : Text} {line : Nat} :
    Classified node ⟨.default name, line⟩ ↔
      hasChild node defaultKeyword = true ∧ ¬ FromSource node := by
  constructor
  · rintro ⟨hdefault, hre, -, -⟩
    refine ⟨hdefault.1 ⟨name, rfl⟩, fun hfrom => ?_⟩
    rcases hre.2 hfrom with ⟨items, source, h⟩ | ⟨source, h⟩ <;> cases h
  · rintro ⟨hkeyword, hhere⟩
    constructor
    · exact iff_of_true ⟨name, rfl⟩ hkeyword
    · exact iff_of_false (by rintro (⟨_, _, h⟩ | ⟨_, h⟩) <;> cases h) hhere
    · exact iff_of_false nofun fun h => hhere h.1
    · exact fun hplain _ => absurd hkeyword hplain

theorem classified_named_iff {names : List Text} {line : Nat} :
    Classified node ⟨.named names, line⟩ ↔
      ¬ hasChild node defaultKeyword = true ∧ ¬ FromSource node ∧ names = exportedNames node := by
  constructor
  · rintro ⟨hdefault, hre, -, hnamed⟩
    have hplain : ¬ hasChild node defaultKeyword = true := fun h => by
      obtain ⟨name, hname⟩ := hdefault.2 h
      cases hname
    have hhere : ¬ FromSource node := fun hfrom => by
      rcases hre.2 hfrom with ⟨items, source, h⟩ | ⟨source, h⟩ <;> cases h
    have hnames := hnamed hplain hhere
    cases hnames
    exact ⟨hplain, hhere, rfl⟩
  · rintro ⟨hplain, hhere, rfl⟩
    constructor
    · exact iff_of_false nofun hplain
    · exact iff_of_false (by rintro (⟨_, _, h⟩ | ⟨_, h⟩) <;> cases h) hhere
    · exact iff_of_false nofun fun h => hhere h.1
    · exact fun _ _ => rfl

/-- Items are listed in a list. -/
theorem specifierNode_of_items
    (h : ((specifierNode node).elim [] fun specifier => specifier.children.filterMap listedName) ≠ []) :
    ∃ clause, specifierNode node = some clause := by
  cases hlist : specifierNode node with
  | none =>
    rw [hlist] at h
    exact absurd rfl h
  | some clause => exact ⟨clause, rfl⟩

/-- A statement with a source that is classified right is a re-export that lists something. -/
theorem handled_of_reExport {row : ExportStatement} (hfrom : hasChild node .from = true)
    (hne : (sourceLiteral node).elim [] trimQuotes ≠ []) (h : parseTypescriptExport node = some row)
    (hrow : Classified node row) : Handled node := by
  obtain ⟨literal, hsource⟩ : ∃ literal, sourceLiteral node = some literal := by
    cases hsource : sourceLiteral node with
    | none =>
      rw [hsource] at hne
      exact absurd rfl hne
    | some literal => exact ⟨literal, rfl⟩
  rw [hsource] at hne
  have hnamed := (trimQuotes_ne_nil_iff literal).1 hne
  rw [parseTypescriptExport_reExport hfrom hsource hne] at h
  dsimp only at h
  split at h
  · cases h
    obtain ⟨hplain, -, hnone⟩ := classified_reExportAll_iff.1 hrow
    refine .reExport hplain hfrom hsource hnamed fun clause hclause => ?_
    rw [hnone] at hclause
    cases hclause
  · next hitems =>
    cases h
    obtain ⟨hplain, -, -⟩ := classified_reExport_iff.1 hrow
    refine .reExport hplain hfrom hsource hnamed fun clause hclause => ?_
    rw [items_of_specifierNode hclause] at hitems
    exact filterMap_listedName_ne_nil.1 hitems

theorem handled_of_classified {row : ExportStatement} (h : parseTypescriptExport node = some row)
    (hrow : Classified node row) : Handled node := by
  by_cases hre : hasChild node .from = true ∧ (sourceLiteral node).elim [] trimQuotes ≠ []
  · exact handled_of_reExport hre.1 hre.2 h hrow
  rw [parseTypescriptExport_here hre] at h
  cases hdecl : declarationNode node with
  | some declaration =>
    rw [hdecl] at h
    obtain ⟨target, htarget, rfl⟩ := Option.map_eq_some_iff.1 h
    obtain ⟨hkeyword, hhere⟩ := classified_default_iff.1 hrow
    exact .default hkeyword hhere hdecl (Option.isSome_iff_exists.2 ⟨target, htarget⟩)
  | none =>
    rw [hdecl] at h
    dsimp only at h
    split at h
    · cases h
    · next hitems =>
      cases h
      obtain ⟨clause, hclause⟩ := specifierNode_of_items hitems
      obtain ⟨hplain, hhere, hnames⟩ := classified_named_iff.1 hrow
      rw [items_of_specifierNode hclause] at hitems hnames
      have hexported : exportedNames node = specifiers clause := by
        unfold exportedNames
        rw [hclause]
      rw [hexported] at hnames
      exact .named hplain hhere hdecl hclause (hnames ▸ hitems) ((listsSpecifiers_iff clause).1 hnames)

theorem classified_of_handled (h : Handled node) :
    ∃ row, parseTypescriptExport node = some row ∧ Classified node row := by
  cases h with
  | @reExport literal plain keyword source named listed =>
    have hfrom : FromSource node := ⟨keyword, by rw [source]; rfl⟩
    have hparse := parseTypescriptExport_reExport keyword source ((trimQuotes_ne_nil_iff literal).2 named)
    cases hlist : specifierNode node with
    | none =>
      rw [hlist] at hparse
      exact ⟨_, hparse, classified_reExportAll_iff.2 ⟨plain, hfrom, hlist⟩⟩
    | some clause =>
      have hitems := filterMap_listedName_ne_nil.2 (listed clause hlist)
      dsimp only at hparse
      rw [items_of_specifierNode hlist, if_neg hitems] at hparse
      refine ⟨_, hparse, classified_reExport_iff.2 ⟨plain, hfrom, ?_⟩⟩
      rw [hlist]
      exact Option.some_ne_none clause
  | @default declaration keyword here declared readable =>
    obtain ⟨target, htarget⟩ := Option.isSome_iff_exists.1 readable
    have hparse := parseTypescriptExport_here (not_reExport_of_here here)
    rw [declared] at hparse
    dsimp only at hparse
    rw [htarget] at hparse
    exact ⟨_, hparse, classified_default_iff.2 ⟨keyword, here⟩⟩
  | @named clause plain here undeclared list nonempty exactly =>
    have hparse := parseTypescriptExport_here (not_reExport_of_here here)
    have hnames := (listsSpecifiers_iff clause).2 exactly
    rw [undeclared] at hparse
    dsimp only at hparse
    rw [items_of_specifierNode list, hnames, if_neg nonempty] at hparse
    refine ⟨_, hparse, classified_named_iff.2 ⟨plain, here, ?_⟩⟩
    unfold exportedNames
    rw [list]

end

theorem typescriptExports_eq (root : Node) : typescriptExports root =
    (exportStatements root).flatMap fun node => (parseTypescriptExport node).toList := by
  have hstop : StopsAt extractTypescriptExports isExportStatement := by
    intro mode node
    unfold extractTypescriptExports
    by_cases h : isExportStatement node = true
    · rw [if_pos h, if_pos h]
    · rw [if_neg h, if_neg h]
      exact ⟨(), rfl⟩
  unfold typescriptExports exportStatements
  rw [flatMap_filter]
  refine visit_eq_outside hstop (fun mode node => ?_) () root
  unfold extractTypescriptExports
  split <;> rfl

/-- The export statements get one row each, as `ExportKind` documents, exactly if each is one
that the code handles. -/
theorem typescript_exports_classified_iff (root : Node) :
    List.Forall₂ Classified (exportStatements root) (typescriptExports root) ↔
      ∀ node ∈ exportStatements root, Handled node := by
  rw [typescriptExports_eq, forall₂_flatMap_iff fun node _ => Option.length_toList_le]
  refine forall₂_congr fun node _ => ?_
  constructor
  · rintro ⟨row, hrow, hclass⟩
    exact handled_of_classified (Option.toList_eq_singleton_iff.1 hrow) hclass
  · intro h
    obtain ⟨row, hrow, hclass⟩ := classified_of_handled h
    exact ⟨row, by rw [hrow]; rfl, hclass⟩

/-- `export function f() {}` -/
def exportFunction : Node :=
  let source := "export function f() \x7b\x7d".toList
  lineNode source .exportStatement none 0 22 [
    word source 0 6,
    lineNode source .functionDeclaration (some .declaration) 7 22 [
      word source 7 15,
      lineNode source .identifier (some .name) 16 17 [],
      lineNode source .formalParameters (some .parameters) 17 19
        [word source 17 18, word source 18 19],
      lineNode source (.other "statement_block".toList) (some .body) 20 22
        [word source 20 21, word source 21 22]]]

/-- A function exported by its name gets the row of a default export. -/
theorem exportFunction_default : ¬ ∀ root : Node,
    List.Forall₂ Classified (exportStatements root) (typescriptExports root) := by
  intro h
  have hrows : typescriptExports exportFunction = [⟨.default "f".toList, 1⟩] := by decide +kernel
  have hclass := h exportFunction
  rw [hrows, show exportStatements exportFunction = [exportFunction] from rfl,
    List.forall₂_cons] at hclass
  exact absurd (classified_default_iff.1 hclass.1).1 (by decide +kernel)

/-! ## Bash -/

/-- The name that a child of a declaration gives. -/
def bashExportName (child : Node) : Option Text :=
  match child.label.kind with
  | .variableName => child.label.text
  | .variableAssignment => fieldText child .name
  | _ => none

/-- The row of a name. -/
def bashExport (node : Node) (name : Text) : ExportStatement :=
  ⟨.named [name], node.label.startRow + 1⟩

def extractBashExports : Rules NodeInfo Unit ExportStatement := fun _ node =>
  ⟨if node.label.kind = .declarationCommand then
      (node.children.filterMap bashExportName).map (bashExport node)
    else [], .children ()⟩

def bashExports (root : Node) : List ExportStatement := visit extractBashExports () root

/-- The keyword of a declaration is its first child. -/
def declarationKeyword (node : Node) : Option Kind := node.children.head?.map fun child => child.label.kind

/-- The word is a set of options with an `x`. -/
def isExportOption (child : Node) : Bool :=
  match child.label.kind, child.label.text with
  | .other kind, some ('-' :: letters) => decide (kind = "word".toList) && letters.contains 'x'
  | _, _ => false

/-- The declaration exports what it declares: `export`, or `declare` or `typeset` with `-x`. -/
def Exporting (node : Node) : Prop :=
  declarationKeyword node = some (.other "export".toList) ∨
    (declarationKeyword node = some (.other "declare".toList) ∨
        declarationKeyword node = some (.other "typeset".toList)) ∧
      node.children.any isExportOption = true

instance (node : Node) : Decidable (Exporting node) := inferInstanceAs (Decidable (_ ∨ _ ∧ _))

/-- One row for each name of each declaration that exports, in the order of the tree. -/
def exportedRows (root : Node) : List ExportStatement :=
  root.nodes.flatMap fun node =>
    if node.label.kind = .declarationCommand ∧ Exporting node then
      (node.children.filterMap bashExportName).map (bashExport node)
    else []

theorem bashExports_eq (root : Node) : bashExports root = root.nodes.flatMap fun node =>
    if node.label.kind = .declarationCommand then
      (node.children.filterMap bashExportName).map (bashExport node)
    else [] := by
  have hstop : StopsAt extractBashExports fun _ => false := fun _ _ => ⟨(), rfl⟩
  exact visit_eq_outside hstop (fun _ _ => rfl) () root

/-- The rows are those of the declarations that export exactly if no other declaration gives a
name. -/
theorem bash_exports_iff (root : Node) : bashExports root = exportedRows root ↔
    ∀ node ∈ root.nodes, node.label.kind = .declarationCommand → ¬ Exporting node →
      ∀ child ∈ node.children, bashExportName child = none := by
  rw [bashExports_eq, exportedRows, flatMap_ite_eq_iff]
  simp only [List.map_eq_nil_iff, List.filterMap_eq_nil_iff]

/-- `local x=1` -/
def localDeclaration : Node :=
  let source := "local x=1".toList
  lineNode source .declarationCommand none 0 9 [
    word source 0 5,
    lineNode source .variableAssignment none 6 9 [
      lineNode source .variableName (some .name) 6 7 [],
      word source 7 8,
      lineNode source (.other "number".toList) (some (.other "value".toList)) 8 9 []]]

/-- A local variable gets a row. -/
theorem localDeclaration_exported : ¬ ∀ root : Node, bashExports root = exportedRows root := by
  intro h
  have hrows : bashExports localDeclaration = [⟨.named ["x".toList], 1⟩] := by decide +kernel
  have hnone : exportedRows localDeclaration = [] := by decide +kernel
  have hequal := h localDeclaration
  rw [hrows, hnone] at hequal
  cases hequal

end CodeSearch
