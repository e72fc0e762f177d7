import CodeSearch.Lib.TreeNodes
import CodeSearch.Lib.Trim
import CodeSearch.SyntaxTree

/-!
# Imports

The import rows of a Rust and of a TypeScript file.

A `use` gets a row only if its clause is a plain path: the grammar calls the other clauses
by kinds that the code does not ask for (`rustImportsKept_iff`).  The first argument of a
`require` is looked for at the first child of the arguments, which is the opening
parenthesis (`typescriptImportsKept_iff`).
-/

namespace CodeSearch

open TreeWalk RoseTree Trim

/-! ## Rust -/

/-- The texts that a child of a `use` adds to its path. -/
def usePieces (child : Node) : List Text :=
  match child.label.kind with
  | .scopedIdentifier | .useTree | .identifier =>
    child.label.text.toList.filter fun text => text ∉ [[], "use".toList, "pub".toList]
  | .scopedUseTree =>
    (child.children.filterMap fun part => part.label.text).filter fun text =>
      text ∉ [[], "::".toList]
  | _ => []

/-- The first text, or a path and one more segment. -/
def pushPath (path text : Text) : Text := if path = [] then text else path ++ "::".toList ++ text

def useTreeText (node : Node) : Text := (node.children.flatMap usePieces).foldl pushPath []

def parseRustUse (node : Node) : Option ImportStatement :=
  let line := node.label.startRow + 1
  let path := useTreeText node
  if path = [] then none
  else if hasChild node .pub then some ⟨path, .namespace "pub_use".toList, line⟩
  else some ⟨path, .default [], line⟩

def parseRustMod (node : Node) : Option ImportStatement :=
  let line := node.label.startRow + 1
  let block : Kind := .other "block".toList
  let name := ((node.children.filterMap fun child =>
    if child.label.kind = .identifier then child.label.text else none).getLast?).getD []
  let hasBody := (lastChild node [block, .semicolon]).any fun child => child.label.kind = block
  if name = [] then none
  else if hasBody then some ⟨name, .namespace "inline".toList, line⟩
  else some ⟨name, .namespace "external".toList, line⟩

def extractRustImports : Rules NodeInfo Unit ImportStatement := fun _ node =>
  match node.label.kind with
  | .useDeclaration => ⟨(parseRustUse node).toList, .stop⟩
  | .modItem => ⟨(parseRustMod node).toList, .stop⟩
  | _ => ⟨[], .children ()⟩

def rustImports (root : Node) : List ImportStatement := visit extractRustImports () root

/-! ## TypeScript -/

/-- What was found in an import clause so far. -/
structure ClauseState where
  hasDefault : Bool
  hasNamespace : Bool
  hasNamed : Bool
  namespaceName : Text
  defaultName : Text
  namedImports : List Text

/-- The names of a specifier but `default`. -/
def specifierNames (specifier : Node) : List Text :=
  (specifier.children.filterMap fun child =>
    if child.label.kind = .identifier then child.label.text else none).filter fun name =>
      name ≠ "default".toList

def namespaceStep (st : ClauseState) (child : Node) : ClauseState :=
  match child.label.kind, child.label.text with
  | .identifier, some name => { st with namespaceName := name, hasNamespace := true }
  | _, _ => st

/-- One child of the clause. -/
def clauseStep (st : ClauseState) (child : Node) : ClauseState :=
  match child.label.kind, child.label.text with
  | .identifier, some name =>
    if !st.hasDefault && !st.hasNamespace && !st.hasNamed then
      { st with defaultName := name, hasDefault := true }
    else st
  | .namespaceImport, _ => child.children.foldl namespaceStep st
  | .namedImports, _ =>
    { st with
      hasNamed := true
      namedImports := st.namedImports ++ child.children.flatMap fun named =>
        if named.label.kind = .importSpecifier then specifierNames named else [] }
  | _, _ => st

def parseTypescriptImportClauseWithSource (clause : Node) (source : Text) : ImportStatement :=
  let line := clause.label.startRow + 1
  let st := clause.children.foldl clauseStep ⟨false, false, false, [], [], []⟩
  if st.hasNamespace ∧ st.namespaceName ≠ [] then ⟨source, .namespace st.namespaceName, line⟩
  else if st.hasDefault ∧ st.defaultName ≠ [] then ⟨source, .default st.defaultName, line⟩
  else if st.hasNamed ∧ st.namedImports ≠ [] then ⟨source, .named st.namedImports, line⟩
  else ⟨source, .sideEffect, line⟩

/-- The text of the first string child. -/
def stringLiteral (node : Node) : Option Text :=
  (node.children.find? fun child => child.label.kind = .string).bind fun child => child.label.text

/-- The row of an `import`: with a source, there is one. -/
def typescriptImport (node : Node) : Option ImportStatement :=
  (stringLiteral node).map fun literal =>
    match node.children.find? fun child => child.label.kind = .importClause with
    | some clause => parseTypescriptImportClauseWithSource clause (trimQuotes literal)
    | none => ⟨trimQuotes literal, .sideEffect, node.label.startRow + 1⟩

/-- A child is the identifier `require`. -/
def callsRequire (node : Node) : Bool :=
  node.children.any fun child =>
    decide (child.label.kind = .identifier ∧ child.label.text = some "require".toList)

/-- The text of `child(0)` of the first arguments that have one. -/
def requirePath (node : Node) : Option Text :=
  node.children.findSome? fun child =>
    if child.label.kind = .arguments then child.children.head?.bind fun first => first.label.text
    else none

/-- The name of the variable that the call is assigned to, if any. -/
def requireVariable (parent : Option Node) : Text :=
  (parent.bind fun p =>
    if p.label.kind = .variableDeclarator then fieldText p .name else none).getD []

def parseTypescriptRequire (parent : Option Node) (node : Node) : Option ImportStatement :=
  if callsRequire node then
    (requirePath node).map fun path =>
      ⟨trimQuotes path, .require (requireVariable parent), node.label.startRow + 1⟩
  else none

/-- The mode is the node's parent. -/
def extractTypescriptImports : Rules NodeInfo (Option Node) ImportStatement := fun parent node =>
  match node.label.kind with
  | .importStatement => ⟨(typescriptImport node).toList, .stop⟩
  | .callExpression =>
    match parseTypescriptRequire parent node with
    | some row => ⟨[row], .stop⟩
    | none => ⟨[], .children (some node)⟩
  | _ => ⟨[], .children (some node)⟩

def typescriptImports (root : Node) : List ImportStatement :=
  visit extractTypescriptImports none root

/-! ## The imports that are meant -/

def argumentField : Field := .other "argument".toList
def functionField : Field := .other "function".toList

/-- The kinds of a use clause. -/
def clauseKinds : List Kind :=
  [.identifier, .scopedIdentifier, .other "use_list".toList, .other "scoped_use_list".toList,
    .other "use_as_clause".toList, .other "use_wildcard".toList]

/-- The clause of a `use`: the one child that is its argument or a path. -/
def useClause (node : Node) : Option Node :=
  match node.children.filter fun child => isField argumentField child.label ||
    decide (child.label.kind ∈ [.identifier, .scopedIdentifier, .useTree, .scopedUseTree]) with
  | [clause] =>
    if isField argumentField clause.label ∧ clause.label.kind ∈ clauseKinds then some clause else none
  | _ => none

/-- The text of the clause of a `use`. -/
def useSource (node : Node) : Option Text :=
  if node.label.kind = .useDeclaration then (useClause node).bind fun clause => clause.label.text
  else none

def isModItem (node : Node) : Bool := decide (node.label.kind = .modItem)

/-- Each `use` outside the modules of the file gives one import with the text of its clause. -/
def RustImportsKept (root : Node) : Prop :=
  OneEach extractRustImports () isModItem useSource ImportStatement.source root

/-- A text in quotes without them. -/
def unquoted : Text → Option Text
  | [] => none
  | quote :: rest =>
    if isQuote quote ∧ rest.getLast? = some quote then some rest.dropLast else none

/-- The first argument, behind the opening parenthesis. -/
def firstArgument (arguments : Node) : Option Node :=
  match arguments.children with
  | opening :: rest =>
    if opening.label.kind = .other "(".toList ∧ opening.label.text = some "(".toList then
      rest.find? fun child => decide (child.label.kind ≠ .other "comment".toList)
    else none
  | [] => none

/-- The string that a `require` is called with. -/
def requireLiteral (node : Node) : Option Text :=
  match childByFieldName node functionField,
      node.children.filter fun child => decide (child.label.kind = .arguments) with
  | some function, [arguments] =>
    if function.label.kind = .identifier ∧ function.label.text = some "require".toList then
      (firstArgument arguments).bind fun argument =>
        if argument.label.kind = .string then argument.label.text else none
    else none
  | _, _ => none

/-- The module that an `import` or a `require` names in a string. -/
def moduleName (node : Node) : Option Text :=
  match node.label.kind with
  | .importStatement => (stringLiteral node).bind unquoted
  | .callExpression => (requireLiteral node).bind unquoted
  | _ => none

/-- Each `import` from a string and each `require` of one gives one import with its content. -/
def TypescriptImportsKept (root : Node) : Prop :=
  OneEach extractTypescriptImports none (fun _ => false) moduleName ImportStatement.source root

/-- The rows taken with their nodes are the rows of the file. -/
theorem rows_withNode (root : Node) :
    (visit (withNode extractRustImports) () root).map Prod.snd = rustImports root ∧
      (visit (withNode extractTypescriptImports) none root).map Prod.snd = typescriptImports root :=
  ⟨visit_withNode _ _ _, visit_withNode _ _ _⟩

/-! ## When they are kept -/

/-- The clause of the `use` is a path, and not a word that is passed over. -/
def PlainUse (node : Node) : Prop :=
  ∃ clause, useClause node = some clause ∧
    (clause.label.kind = .identifier ∨ clause.label.kind = .scopedIdentifier) ∧
    ∀ text, clause.label.text = some text → text ∉ [[], "use".toList, "pub".toList]

/-- The sources of the row of a `use`. -/
theorem sources_parseRustUse (node : Node) :
    (parseRustUse node).toList.map ImportStatement.source =
      if useTreeText node = [] then [] else [useTreeText node] := by
  unfold parseRustUse
  dsimp only
  split
  · rfl
  · split <;> rfl

/-- Only the clause adds to the path. -/
theorem flatMap_usePieces {node clause : Node} (h : useClause node = some clause) :
    node.children.flatMap usePieces = usePieces clause := by
  have hother : ∀ child : Node, (isField argumentField child.label ||
      decide (child.label.kind ∈ [.identifier, .scopedIdentifier, .useTree, .scopedUseTree])) = false →
        usePieces child = [] := by
    intro child hchild
    rw [Bool.or_eq_false_iff, decide_eq_false_iff_not] at hchild
    unfold usePieces
    split <;> first | rfl | simp_all
  have hfilter : node.children.flatMap usePieces = (node.children.filter fun child =>
      isField argumentField child.label ||
        decide (child.label.kind ∈ [.identifier, .scopedIdentifier, .useTree, .scopedUseTree])).flatMap
      usePieces := by
    rw [flatMap_filter]
    refine List.flatMap_congr fun child _ => ?_
    split
    · rfl
    · next hnot => exact hother child (Bool.eq_false_iff.2 hnot)
  unfold useClause at h
  rw [hfilter]
  split at h
  · next clause' heq =>
    split at h
    · cases h
      rw [heq, List.flatMap_singleton]
    · cases h
  · cases h

theorem useSource_eq_some {node : Node} {text : Text} (h : useSource node = some text) :
    node.label.kind = .useDeclaration ∧
      ∃ clause, useClause node = some clause ∧ clause.label.text = some text := by
  unfold useSource at h
  split at h
  · next hkind => exact ⟨hkind, Option.bind_eq_some_iff.1 h⟩
  · cases h

theorem mem_clauseKinds {node clause : Node} (h : useClause node = some clause) :
    clause.label.kind ∈ clauseKinds := by
  unfold useClause at h
  split at h
  · split at h
    · next hclause =>
      cases h
      exact hclause.2
    · cases h
  · cases h

/-- A path adds its text, if that is not passed over. -/
theorem usePieces_path {clause : Node} {text : Text}
    (hkind : clause.label.kind = .identifier ∨ clause.label.kind = .scopedIdentifier)
    (htext : clause.label.text = some text) :
    usePieces clause = if text ∈ [[], "use".toList, "pub".toList] then [] else [text] := by
  have hone : usePieces clause = [text].filter fun text => text ∉ [[], "use".toList, "pub".toList] := by
    unfold usePieces
    rcases hkind with hkind | hkind <;> rw [hkind, htext] <;> rfl
  rw [hone]
  by_cases hword : text ∈ [[], "use".toList, "pub".toList]
  · rw [if_pos hword, List.filter_cons, if_neg (by rw [decide_eq_true_eq]; exact not_not_intro hword),
      List.filter_nil]
  · rw [if_neg hword, List.filter_cons, if_pos (decide_eq_true hword), List.filter_nil]

/-- A clause of another kind adds nothing. -/
theorem usePieces_other {clause : Node} (hmem : clause.label.kind ∈ clauseKinds)
    (hkind : ¬ (clause.label.kind = .identifier ∨ clause.label.kind = .scopedIdentifier)) :
    usePieces clause = [] := by
  unfold clauseKinds at hmem
  simp only [List.mem_cons, List.not_mem_nil, or_false] at hmem
  unfold usePieces
  rcases hmem with hk | hk | hk | hk | hk | hk
  · exact absurd (.inl hk) hkind
  · exact absurd (.inr hk) hkind
  all_goals rw [hk]

theorem plainUse_iff {node clause : Node} {text : Text} (hclause : useClause node = some clause)
    (htext : clause.label.text = some text) : PlainUse node ↔
      (clause.label.kind = .identifier ∨ clause.label.kind = .scopedIdentifier) ∧
        text ∉ [[], "use".toList, "pub".toList] := by
  constructor
  · rintro ⟨clause', hclause', hkind, htexts⟩
    rw [hclause] at hclause'
    cases hclause'
    exact ⟨hkind, htexts text htext⟩
  · rintro ⟨hkind, hword⟩
    refine ⟨clause, hclause, hkind, fun text' htext' => ?_⟩
    rw [htext] at htext'
    cases htext'
    exact hword

/-- The row of a `use` has the text of its clause exactly if that is a plain path. -/
theorem sources_use_iff {node : Node} {text : Text} (h : useSource node = some text) :
    (parseRustUse node).toList.map ImportStatement.source = [text] ↔ PlainUse node := by
  obtain ⟨-, clause, hclause, htext⟩ := useSource_eq_some h
  rw [sources_parseRustUse, plainUse_iff hclause htext]
  unfold useTreeText
  rw [flatMap_usePieces hclause]
  by_cases hkind : clause.label.kind = .identifier ∨ clause.label.kind = .scopedIdentifier
  · rw [usePieces_path hkind htext]
    by_cases hword : text ∈ [[], "use".toList, "pub".toList]
    · rw [if_pos hword]
      exact iff_of_false (List.cons_ne_nil _ _).symm fun hplain => hplain.2 hword
    · rw [if_neg hword]
      have hne : text ≠ [] := fun hnil => hword (hnil ▸ List.mem_cons_self)
      refine iff_of_true ?_ ⟨hkind, hword⟩
      show (if text = [] then [] else [text]) = [text]
      rw [if_neg hne]
  · rw [usePieces_other (mem_clauseKinds hclause) hkind]
    exact iff_of_false (List.cons_ne_nil _ _).symm fun hplain => hkind hplain.1

/-- Where the walk for Rust imports stops. -/
def rustStops (node : Node) : Bool :=
  decide (node.label.kind = .useDeclaration ∨ node.label.kind = .modItem)

theorem stopsAt_rust : StopsAt extractRustImports rustStops := by
  intro mode node
  unfold extractRustImports rustStops
  by_cases hstop : node.label.kind = .useDeclaration ∨ node.label.kind = .modItem
  · rw [if_pos (decide_eq_true hstop)]
    rcases hstop with hkind | hkind <;> rw [hkind]
  · rw [if_neg (by rw [decide_eq_true_eq]; exact hstop)]
    rw [not_or] at hstop
    split
    · next hkind => exact absurd hkind hstop.1
    · next hkind => exact absurd hkind hstop.2
    · exact ⟨(), rfl⟩

/-- The clauses outside the modules are plain paths, and no `use` is inside another. -/
structure PlainUses (root : Node) : Prop where
  plain : ∀ node ∈ root.outside isModItem, ∀ text, useSource node = some text → PlainUse node
  apart : ∀ node ∈ root.outside rustStops, node.label.kind = .useDeclaration →
    ∀ child ∈ node.children, ∀ below ∈ child.outside isModItem, useSource below = none

theorem rustImportsKept_iff (root : Node) : RustImportsKept root ↔ PlainUses root := by
  have hemit : ∀ (node : Node), node.label.kind = .useDeclaration →
      (extractRustImports () node).emit = (parseRustUse node).toList := by
    intro node hkind
    unfold extractRustImports
    rw [hkind]
  have hstops : ∀ node : Node, rustStops node = true → ¬ isModItem node = true →
      node.label.kind = .useDeclaration := fun node hstop hmod =>
    (of_decide_eq_true hstop).resolve_right fun hkind => hmod (decide_eq_true hkind)
  unfold RustImportsKept
  rw [oneEach_iff (e := fun node => (extractRustImports () node).emit.map ImportStatement.source)
    stopsAt_rust]
  · constructor
    · rintro ⟨hapart, hplain⟩
      refine ⟨fun node hnode text htext => ?_, fun node hnode hkind => ?_⟩
      · rw [← sources_use_iff htext, ← hemit node (useSource_eq_some htext).1]
        exact hplain node hnode text htext
      · refine hapart node hnode (decide_eq_true (.inl hkind)) fun hmod => ?_
        rw [of_decide_eq_true hmod] at hkind
        cases hkind
    · rintro ⟨hplain, hapart⟩
      refine ⟨fun node hnode hstop hmod => hapart node hnode (hstops node hstop hmod), ?_⟩
      intro node hnode text htext
      rw [hemit node (useSource_eq_some htext).1, sources_use_iff htext]
      exact hplain node hnode text htext
  · intro node hmod
    exact decide_eq_true (.inr (of_decide_eq_true hmod))
  · exact fun _ _ => rfl
  · intro node hsource
    obtain ⟨text, htext⟩ := Option.isSome_iff_exists.1 hsource
    rw [hemit node (useSource_eq_some htext).1, List.length_map]
    exact Option.length_toList_le

/-- The sources of the rows of a TypeScript node. -/
def typescriptSources (node : Node) : List Text :=
  match node.label.kind with
  | .importStatement => (stringLiteral node).toList.map trimQuotes
  | .callExpression => if callsRequire node then (requirePath node).toList.map trimQuotes else []
  | _ => []

theorem source_importClause (clause : Node) (source : Text) :
    (parseTypescriptImportClauseWithSource clause source).source = source := by
  unfold parseTypescriptImportClauseWithSource
  dsimp only
  split
  · rfl
  · split
    · rfl
    · split <;> rfl

/-- They do not depend on the parent. -/
theorem sources_typescript (parent : Option Node) (node : Node) :
    (extractTypescriptImports parent node).emit.map ImportStatement.source =
      typescriptSources node := by
  unfold extractTypescriptImports typescriptSources
  split
  · unfold typescriptImport
    cases stringLiteral node with
    | none => rfl
    | some literal =>
      show [ImportStatement.source _] = [trimQuotes literal]
      congr 1
      split
      · exact source_importClause _ _
      · rfl
  · unfold parseTypescriptRequire
    by_cases hcall : callsRequire node = true
    · simp only [hcall, if_true]
      cases requirePath node <;> rfl
    · simp only [hcall]
      rfl
  · rfl

/-- Where the walk for TypeScript imports stops: at imports, and at calls of `require` with a
readable first child of their arguments. -/
def typescriptStops (node : Node) : Bool :=
  decide (node.label.kind = .importStatement) ||
    (decide (node.label.kind = .callExpression) && (callsRequire node && (requirePath node).isSome))

theorem stopsAt_typescript : StopsAt extractTypescriptImports typescriptStops := by
  intro parent node
  by_cases himport : node.label.kind = .importStatement
  · unfold extractTypescriptImports typescriptStops
    rw [himport]
    rfl
  by_cases hcall : node.label.kind = .callExpression
  · unfold extractTypescriptImports typescriptStops parseTypescriptRequire
    rw [hcall]
    by_cases hrequire : callsRequire node = true
    · rw [hrequire]
      cases requirePath node with
      | none => exact ⟨some node, rfl⟩
      | some path => rfl
    · rw [Bool.not_eq_true] at hrequire
      rw [hrequire]
      exact ⟨some node, rfl⟩
  · have hgoes : extractTypescriptImports parent node = ⟨[], .children (some node)⟩ := by
      unfold extractTypescriptImports
      split
      · next hkind => exact absurd hkind himport
      · next hkind => exact absurd hkind hcall
      · rfl
    unfold typescriptStops
    rw [decide_eq_false himport, decide_eq_false hcall, hgoes]
    exact ⟨some node, rfl⟩

theorem unquoted_eq_some {text content : Text} (h : unquoted text = some content) :
    ∃ quote, isQuote quote = true ∧ text = quote :: content ++ [quote] := by
  cases text with
  | nil => cases h
  | cons quote rest =>
    have h : (if isQuote quote ∧ rest.getLast? = some quote then some rest.dropLast else none) =
        some content := h
    rw [Option.ite_none_right_eq_some] at h
    obtain ⟨⟨hquote, hlast⟩, hcontent⟩ := h
    have hrest := List.dropLast_append_getLast? quote hlast
    exact ⟨quote, hquote, by rw [← Option.some.inj hcontent, List.cons_append, hrest]⟩

/-- Inside its quotes the text neither starts nor ends with one. -/
def Unquoted (content : Text) : Prop :=
  (∀ c ∈ content.head?, isQuote c = false) ∧ ∀ c ∈ content.getLast?, isQuote c = false

theorem trimQuotes_literal_iff {literal content : Text} (h : unquoted literal = some content) :
    trimQuotes literal = content ↔ Unquoted content := by
  obtain ⟨quote, hquote, rfl⟩ := unquoted_eq_some h
  show trimBoth isQuote (quote :: content ++ [quote]) = content ↔ _
  rw [trimBoth_wrap hquote hquote, trimBoth_eq_self_iff]
  rfl

theorem findSome?_eq_filter {α β : Type} {f : α → Option β} {p : α → Bool} {l : List α}
    (h : ∀ x ∈ l, p x = false → f x = none) : l.findSome? f = (l.filter p).findSome? f := by
  induction l with
  | nil => rfl
  | cons x l ih =>
    have hrest := ih fun y hy => h y (List.mem_cons_of_mem _ hy)
    by_cases hx : p x = true
    · rw [List.filter_cons_of_pos hx, List.findSome?_cons, List.findSome?_cons, hrest]
    · rw [List.filter_cons_of_neg hx, List.findSome?_cons,
        h x List.mem_cons_self (Bool.eq_false_iff.2 hx), hrest]

/-- A `require` of a string is recognised, and the parenthesis is taken for its argument. -/
theorem require_read {node : Node} {literal : Text} (h : requireLiteral node = some literal) :
    callsRequire node = true ∧ requirePath node = some "(".toList := by
  unfold requireLiteral at h
  split at h
  · next function arguments hfunction hfilter =>
    split at h
    · next hrequire =>
      constructor
      · exact List.any_eq_true.2
          ⟨function, List.mem_of_find?_eq_some hfunction, decide_eq_true hrequire⟩
      · have hargs : arguments.label.kind = .arguments := by
          have hmem : arguments ∈ node.children.filter fun child =>
              decide (child.label.kind = .arguments) := by
            rw [hfilter]
            exact List.mem_cons_self
          exact of_decide_eq_true (List.mem_filter.1 hmem).2
        have hopen : arguments.children.head?.bind (fun first => first.label.text) =
            some "(".toList := by
          obtain ⟨argument, hargument, -⟩ := Option.bind_eq_some_iff.1 h
          unfold firstArgument at hargument
          split at hargument
          · next opening rest hchildren =>
            split at hargument
            · next hparen =>
              rw [hchildren]
              exact hparen.2
            · cases hargument
          · cases hargument
        unfold requirePath
        rw [findSome?_eq_filter (p := fun child => decide (child.label.kind = .arguments))
          fun child _ hnot => if_neg (of_decide_eq_false hnot), hfilter, List.findSome?_cons,
          if_pos hargs, hopen]
    · cases h
  · cases h

/-- The source of an `import` is not quoted twice, and that of a `require` is a parenthesis. -/
def PlainModule (node : Node) (content : Text) : Prop :=
  (node.label.kind = .importStatement ∧ Unquoted content) ∨
    (node.label.kind = .callExpression ∧ content = "(".toList)

/-- An `import` and a `require` have one source, which is theirs only where it is plain. -/
theorem sources_module_iff {node : Node} {content : Text} (h : moduleName node = some content) :
    (typescriptSources node).length ≤ 1 ∧
      (typescriptSources node = [content] ↔ PlainModule node content) := by
  unfold moduleName at h
  unfold typescriptSources PlainModule
  split at h
  · next hkind =>
    obtain ⟨literal, hliteral, hcontent⟩ := Option.bind_eq_some_iff.1 h
    rw [hkind, hliteral]
    refine ⟨Nat.le_refl 1, ?_⟩
    show [trimQuotes literal] = [content] ↔ _
    rw [List.singleton_inj, trimQuotes_literal_iff hcontent]
    exact ⟨fun hplain => .inl ⟨rfl, hplain⟩,
      fun hplain => hplain.elim And.right fun hcall => nomatch hcall.1⟩
  · next hkind =>
    obtain ⟨literal, hliteral, -⟩ := Option.bind_eq_some_iff.1 h
    obtain ⟨hcalls, hpath⟩ := require_read hliteral
    rw [hkind, hpath, if_pos hcalls]
    refine ⟨Nat.le_refl 1, ?_⟩
    have hparen : trimQuotes "(".toList = "(".toList := by decide
    show [trimQuotes "(".toList] = [content] ↔ _
    rw [hparen, List.singleton_inj]
    exact ⟨fun heq => .inr ⟨rfl, heq.symm⟩,
      fun hplain => hplain.elim (fun himport => nomatch himport.1) fun hcall => hcall.2.symm⟩
  · cases h

/-- The modules are named plainly, and none inside an `import` or a `require`. -/
structure PlainModules (root : Node) : Prop where
  plain : ∀ node ∈ root.nodes, ∀ content, moduleName node = some content → PlainModule node content
  apart : ∀ node ∈ root.outside typescriptStops, typescriptStops node = true →
    ∀ child ∈ node.children, ∀ below ∈ child.nodes, moduleName below = none

theorem typescriptImportsKept_iff (root : Node) : TypescriptImportsKept root ↔ PlainModules root := by
  unfold TypescriptImportsKept
  rw [oneEach_iff (e := typescriptSources) stopsAt_typescript (fun _ h => absurd h Bool.false_ne_true)
    sources_typescript]
  · constructor
    · rintro ⟨hapart, hplain⟩
      refine ⟨fun node hnode content hcontent => ?_, fun node hnode hstop => ?_⟩
      · exact (sources_module_iff hcontent).2.1 (hplain node hnode content hcontent)
      · exact hapart node hnode hstop Bool.false_ne_true
    · rintro ⟨hplain, hapart⟩
      refine ⟨fun node hnode hstop _ => hapart node hnode hstop, ?_⟩
      exact fun node hnode content hcontent =>
        (sources_module_iff hcontent).2.2 (hplain node hnode content hcontent)
  · intro node hmodule
    obtain ⟨content, hcontent⟩ := Option.isSome_iff_exists.1 hmodule
    exact (sources_module_iff hcontent).1

/-- The imports that are kept, of Rust and of TypeScript. -/
theorem imports_kept_iff (root : Node) : (RustImportsKept root ↔ PlainUses root) ∧
    (TypescriptImportsKept root ↔ PlainModules root) :=
  ⟨rustImportsKept_iff root, typescriptImportsKept_iff root⟩

/-- `use a::{b, c};` -/
def useList : Node :=
  let source := "use a::\x7bb, c\x7d;".toList
  lineNode source .useDeclaration none 0 14 [
    word source 0 3,
    lineNode source (.other "scoped_use_list".toList) (some argumentField) 4 13 [
      lineNode source .identifier (some (.other "path".toList)) 4 5 [],
      word source 5 7,
      lineNode source (.other "use_list".toList) (some (.other "list".toList)) 7 13 [
        word source 7 8,
        lineNode source .identifier none 8 9 [],
        word source 9 10,
        lineNode source .identifier none 11 12 [],
        word source 12 13]],
    word source 13 14]

/-- `require('fs')` -/
def requireFs : Node :=
  let source := "require('fs')".toList
  lineNode source .callExpression none 0 13 [
    lineNode source .identifier (some functionField) 0 7 [],
    lineNode source .arguments (some (.other "arguments".toList)) 7 13 [
      word source 7 8,
      lineNode source .string none 8 12 [],
      word source 12 13]]

/-- The list gives no import, and the source of the module is a parenthesis. -/
theorem useList_requireFs_lost : (¬ ∀ root, RustImportsKept root) ∧
    ¬ ∀ root, TypescriptImportsKept root := by
  constructor
  · intro h
    have hsource : useSource useList = some "a::\x7bb, c\x7d".toList := by decide +kernel
    obtain ⟨clause, hclause, hkind, -⟩ :=
      ((rustImportsKept_iff useList).1 (h useList)).plain useList (self_mem_outside _ _) _ hsource
    have hmember : (useClause useList).map (fun clause => clause.label.kind) =
        some (.other "scoped_use_list".toList) := by decide +kernel
    rw [hclause, Option.map_some, Option.some.injEq] at hmember
    rw [hmember] at hkind
    rcases hkind with hkind | hkind <;> cases hkind
  · intro h
    have hmodule : moduleName requireFs = some "fs".toList := by decide +kernel
    have hplain := ((typescriptImportsKept_iff requireFs).1 (h requireFs)).plain requireFs
      (self_mem_outside _ _) _ hmodule
    rcases hplain with ⟨hkind, -⟩ | ⟨-, hparen⟩
    · cases hkind
    · exact absurd hparen (by decide)

end CodeSearch
