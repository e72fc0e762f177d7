import CodeSearch.Extractors

/-!
# Symbols that the spans leave out

An exported TypeScript declaration goes through `extract_typescript_declaration_span`, which
knows six kinds and does not look into the others: a generator, an abstract class, a
namespace or a variable loses what its plain form shows (`export_keeps_spans_iff`).

A C or C++ function is named by an identifier directly in its declarator.  Around a pointer
or a reference there is none, and the name of a member defined outside its class, of a
destructor or of an operator is no identifier (`functions_captured_iff`).
-/

namespace CodeSearch

open TreeWalk

/-! ## Exported declarations -/

/-- The kinds of declarations that an export shows. -/
def exportedKinds : List Kind :=
  [.functionDeclaration, .functionSignature, .classDeclaration, .interfaceDeclaration,
    .typeAliasDeclaration, .enumDeclaration]

/-- The node has a span of its own. -/
def Shown : Mode × Node → Prop
  | (mode, node) =>
    match node.label.kind with
    | .functionDeclaration | .functionSignature | .classDeclaration | .interfaceDeclaration
    | .typeAliasDeclaration | .enumDeclaration => (fieldText node .name).isSome = true
    | .methodDefinition | .methodSignature =>
      mode ≠ .declaration ∧ (fieldText node .name).isSome = true
    | .abstractMethodSignature | .constructSignature =>
      mode ≠ .declaration ∧ (fieldText node .name).getD [] ≠ []
    | .callSignature => mode ≠ .declaration
    | _ => False

/-- Nothing that the walk comes to from the declaration on has a span. -/
def ShowsNothing (declaration : Node) : Prop :=
  ∀ v, Visits extractTypescriptFunctionSpans (.items, declaration) v → ¬ Shown v

theorem taggedSpans_eq_nil_iff {node : Node} {kind : SymbolKind}
    {signature : Option FunctionSignature} :
    taggedSpans node kind signature = [] ↔ ¬ signature.isSome = true := by
  cases signature <;> simp [taggedSpans]

@[simp] theorem isSome_parseTypescriptFunction (node : Node) :
    (parseTypescriptFunction node).isSome = (fieldText node .name).isSome := Option.isSome_map

@[simp] theorem isSome_parseTypescriptMethod (node : Node) :
    (parseTypescriptMethod node).isSome = (fieldText node .name).isSome := Option.isSome_map

@[simp] theorem isSome_typeSymbol (node : Node) :
    (typeSymbol node).isSome = (fieldText node .name).isSome := Option.isSome_map

/-- A call signature has a name of its own, the others have the one they are given. -/
theorem isSome_parseTypescriptSignature (node : Node) :
    (parseTypescriptSignature node).isSome = true ↔
      node.label.kind = .callSignature ∨ (fieldText node .name).getD [] ≠ [] := by
  unfold parseTypescriptSignature
  by_cases hkind : node.label.kind = .callSignature
  · simp [hkind]
  · by_cases hname : (fieldText node .name).getD [] = [] <;> simp [hkind, hname]

/-- A node puts out a span exactly if it has one. -/
theorem emit_eq_nil_iff (v : Mode × Node) :
    (extractTypescriptFunctionSpans v.1 v.2).emit = [] ↔ ¬ Shown v := by
  obtain ⟨mode, node⟩ := v
  cases mode <;> cases hkind : node.label.kind <;>
    simp [extractTypescriptFunctionSpans, extractTypescriptDeclarationSpan, typescriptTypeKind, typeSpan,
      Shown, taggedSpans_eq_nil_iff, isSome_parseTypescriptSignature, hkind]

theorem visit_eq_nil_iff_showsNothing (declaration : Node) :
    visit extractTypescriptFunctionSpans .items declaration = [] ↔ ShowsNothing declaration := by
  rw [visit_eq_nil_iff extractTypescriptFunctionSpans (.items, declaration)]
  exact forall₂_congr fun v _ => emit_eq_nil_iff v

/-- A declaration of a kind that an export shows is seen as without the export. -/
theorem visit_exported {declaration : Node} (h : declaration.label.kind ∈ exportedKinds) :
    visit extractTypescriptFunctionSpans .declaration declaration =
      visit extractTypescriptFunctionSpans .items declaration := by
  have hrule : extractTypescriptFunctionSpans .declaration declaration =
      extractTypescriptFunctionSpans .items declaration := by
    unfold exportedKinds at h
    simp only [List.mem_cons, List.not_mem_nil, or_false] at h
    rcases h with hk | hk | hk | hk | hk | hk <;>
      simp only [extractTypescriptFunctionSpans, extractTypescriptDeclarationSpan, hk]
  have htargets : targets extractTypescriptFunctionSpans (.declaration, declaration) =
      targets extractTypescriptFunctionSpans (.items, declaration) := by
    unfold targets
    rw [hrule]
  have hexport := visit_eq_targets extractTypescriptFunctionSpans (.declaration, declaration)
  have hplain := visit_eq_targets extractTypescriptFunctionSpans (.items, declaration)
  dsimp only at hexport hplain
  rw [hexport, hplain, hrule, htargets]

/-- Of any other kind an export shows nothing. -/
theorem visit_not_exported {declaration : Node} (h : declaration.label.kind ∉ exportedKinds) :
    visit extractTypescriptFunctionSpans .declaration declaration = [] := by
  have hrule : extractTypescriptFunctionSpans .declaration declaration = ⟨[], .stop⟩ := by
    unfold exportedKinds at h
    simp only [List.mem_cons, List.not_mem_nil, or_false, not_or] at h
    show extractTypescriptDeclarationSpan declaration = _
    unfold extractTypescriptDeclarationSpan
    split <;> simp_all
  have hstop : (extractTypescriptFunctionSpans .declaration declaration).next = .stop := by rw [hrule]
  have hvisit := visit_stop (v := (Mode.declaration, declaration)) hstop
  exact hvisit.trans (by rw [hrule])

/-- The spans of an export are those of its declaration. -/
theorem visit_export {statement declaration : Node} (hkind : statement.label.kind = .exportStatement)
    (hdecl : childByFieldName statement .declaration = some declaration) :
    visit extractTypescriptFunctionSpans .items statement =
      visit extractTypescriptFunctionSpans .declaration declaration := by
  have hrule : extractTypescriptFunctionSpans .items statement =
      ⟨[], .child (isField .declaration) .declaration⟩ := by
    simp only [extractTypescriptFunctionSpans, hkind]
  have hfind : (statement.children.find? fun child => isField .declaration child.label) =
      some declaration := hdecl
  have hvisit := visit_child (v := (Mode.items, statement)) hrule
  rw [hfind] at hvisit
  exact hvisit

/-- An export has the spans that the declaration in its place has, exactly if it is of a kind that
an export shows or nothing in it has a span. -/
theorem export_keeps_spans_iff (label : NodeInfo) (before after : List Node)
    {statement declaration : Node} (hkind : statement.label.kind = .exportStatement)
    (hdecl : childByFieldName statement .declaration = some declaration) :
    walk extractTypescriptFunctionSpans .items (.node label (before ++ statement :: after)) =
        walk extractTypescriptFunctionSpans .items (.node label (before ++ declaration :: after)) ↔
      declaration.label.kind ∈ exportedKinds ∨ ShowsNothing declaration := by
  rw [walk_eq, walk_eq]
  show List.flatMap _ (before ++ statement :: after) = List.flatMap _ (before ++ declaration :: after) ↔ _
  rw [List.flatMap_append, List.flatMap_append, List.flatMap_cons, List.flatMap_cons,
    List.append_cancel_left_eq, List.append_cancel_right_eq, visit_export hkind hdecl]
  by_cases hexported : declaration.label.kind ∈ exportedKinds
  · exact iff_of_true (visit_exported hexported) (.inl hexported)
  · rw [visit_not_exported hexported, eq_comm, visit_eq_nil_iff_showsNothing]
    exact (or_iff_right hexported).symm

def abstractSource : Text := "export abstract class A \x7b m() \x7b\x7d \x7d".toList

/-- `abstract class A { m() {} }` -/
def abstractClass : Node :=
  lineNode abstractSource (.other "abstract_class_declaration".toList) (some .declaration) 7 34 [
    word abstractSource 7 15,
    word abstractSource 16 21,
    lineNode abstractSource (.other "type_identifier".toList) (some .name) 22 23 [],
    lineNode abstractSource (.other "class_body".toList) (some .body) 24 34 [
      word abstractSource 24 25,
      lineNode abstractSource .methodDefinition none 26 32 [
        lineNode abstractSource (.other "property_identifier".toList) (some .name) 26 27 [],
        lineNode abstractSource .formalParameters (some .parameters) 27 29
          [word abstractSource 27 28, word abstractSource 28 29],
        lineNode abstractSource (.other "statement_block".toList) (some .body) 30 32
          [word abstractSource 30 31, word abstractSource 31 32]],
      word abstractSource 33 34]]

/-- `export abstract class A { m() {} }` -/
def exportAbstractClass : Node :=
  lineNode abstractSource .exportStatement none 0 34 [word abstractSource 0 6, abstractClass]

def programNode : NodeInfo := ⟨.other "program".toList, none, some abstractSource, 0, 0, 0⟩

/-- The method of an exported abstract class has no span. -/
theorem exportAbstractClass_hides : ¬ ∀ (label : NodeInfo) (before after : List Node)
    (statement declaration : Node), statement.label.kind = .exportStatement →
    childByFieldName statement .declaration = some declaration →
    walk extractTypescriptFunctionSpans .items (.node label (before ++ statement :: after)) =
      walk extractTypescriptFunctionSpans .items (.node label (before ++ declaration :: after)) := by
  intro h
  have hspans := h programNode [] [] exportAbstractClass abstractClass rfl rfl
  exact absurd hspans (by decide +kernel)

theorem export_keeps_spans_abstract :
    exportAbstractClass.label.kind = .exportStatement ∧
    childByFieldName exportAbstractClass .declaration = some abstractClass ∧
    (walk extractTypescriptFunctionSpans .items (.node programNode ([] ++ exportAbstractClass :: [])) =
        walk extractTypescriptFunctionSpans .items (.node programNode ([] ++ abstractClass :: [])) ↔
      abstractClass.label.kind ∈ exportedKinds ∨ ShowsNothing abstractClass) :=
  ⟨rfl, rfl, export_keeps_spans_iff programNode [] [] rfl rfl⟩

/-! ## C and C++ functions -/

def functionDeclarator : Kind := .other "function_declarator".toList

/-- The declarators that a function's may be in. -/
def wrapperKinds : List Kind :=
  [.other "pointer_declarator".toList, .other "reference_declarator".toList,
    .other "parenthesized_declarator".toList]

/-- The kinds of a function's name. -/
def functionNameKinds : List Kind :=
  [.identifier, .fieldIdentifier, .other "qualified_identifier".toList,
    .other "destructor_name".toList, .other "operator_name".toList]

def isIdentifier (node : Node) : Bool :=
  decide (node.label.kind = .identifier ∨ node.label.kind = .fieldIdentifier)

/-- The function declarator is the node, or is in a declarator in it. -/
inductive Wraps (function : Node) : Node → Prop where
  | here (hkind : function.label.kind = functionDeclarator) : Wraps function function
  | inside {outer inner : Node} (hkind : outer.label.kind ∈ wrapperKinds)
      (hchild : inner ∈ outer.children) (h : Wraps function inner) : Wraps function outer

/-- A definition of a function: its declarator, the function declarator in it, and the name. -/
structure Defines (node declarator function name : Node) (text : Text) : Prop where
  kind : node.label.kind = .functionDefinition
  field : childByFieldName node .declarator = some declarator
  wraps : Wraps function declarator
  nameField : childByFieldName function .declarator = some name
  nameKind : name.label.kind ∈ functionNameKinds
  nameText : name.label.text = some text

/-- The parameters of a function declarator. -/
def cParameters (function : Node) : List Parameter :=
  paramsOf
    (fun param => match param.label.kind with
      | .parameterDeclaration =>
        (fieldText param .declarator).map fun text => ⟨text, fieldText param .type⟩
      | _ => none)
    (childByFieldName function .parameters)

/-- The text of the first child that is an identifier with a text. -/
def firstIdentifier (declarator : Node) : Option Text :=
  declarator.children.findSome? fun child => if isIdentifier child then child.label.text else none

/-- At the node there is one span, a function's of its lines, name and parameters, and it is
among the spans of the tree. -/
def Captured (language : Language) (root : Node) (mode : Mode) (node : Node) (text : Text)
    (parameters : List Parameter) : Prop :=
  ∃ signature : FunctionSignature, signature.name = text ∧ signature.parameters = parameters ∧
    (spanRules language mode node).emit =
      [(signature, .function, node.label.startRow + 1, node.label.endRow + 1)] ∧
    [(signature, SymbolKind.function, node.label.startRow + 1, node.label.endRow + 1)].Sublist
      (spansOfTree language root)

/-- What the grammars say of a definition: around a function declarator no identifier stands
alone, in it none stands before the name, and an identifier is spelled as no other name. -/
structure Grammatical (declarator function name : Node) : Prop where
  wrapper : declarator.label.kind ≠ functionDeclarator →
    ∀ child ∈ declarator.children, isIdentifier child = false
  first : isIdentifier name = true → ∃ before after, function.children = before ++ name :: after ∧
    ∀ child ∈ before, isIdentifier child = false
  spelling : isIdentifier name = false → ∀ child ∈ function.children, isIdentifier child = true →
    child.label.text ≠ name.label.text

theorem parseCFunction_eq (node : Node) : parseCFunction node =
    (childByFieldName node .declarator).bind fun declarator =>
      (firstIdentifier declarator).map fun name =>
        { newSignature node name with
          parameters := cParameters declarator
          returnType := fieldText node .type } := by
  unfold parseCFunction
  refine congrArg _ (funext fun declarator => congrArg₂ Option.map rfl ?_)
  unfold firstIdentifier
  refine congrArg (fun read => declarator.children.findSome? read) (funext fun child => ?_)
  unfold isIdentifier
  split <;> simp_all

section
variable {language : Language} {root node declarator function name : Node} {mode : Mode} {text : Text}

/-- The rule of a definition is the same in C and C++. -/
theorem emit_functionDefinition (hlanguage : language = .c ∨ language = .cpp)
    (hkind : node.label.kind = .functionDefinition) :
    (spanRules language mode node).emit = taggedSpans node .function (parseCFunction node) := by
  rcases hlanguage with rfl | rfl <;>
    simp only [spanRules, extractCFunctionSpans, extractCppFunctionSpans, hkind]

/-- A function is captured if it is the first identifier of the declarator, and the declarator's
own parameters are the function's. -/
theorem captured_iff (hlanguage : language = .c ∨ language = .cpp)
    (hfound : Found (spanRules language) .items root (mode, node))
    (h : Defines node declarator function name text) :
    Captured language root mode node text (cParameters function) ↔
      firstIdentifier declarator = some text ∧ cParameters declarator = cParameters function := by
  have hemit : (spanRules language mode node).emit = taggedSpans node .function (parseCFunction node) :=
    emit_functionDefinition hlanguage h.kind
  have hsublist : (spanRules language mode node).emit.Sublist (spansOfTree language root) :=
    emit_sublist_walk hfound
  unfold Captured
  rw [hemit] at hsublist ⊢
  rw [parseCFunction_eq, h.field, Option.bind_some] at hsublist ⊢
  cases hfirst : firstIdentifier declarator with
  | none =>
    refine iff_of_false ?_ (fun h => nomatch h.1)
    rintro ⟨signature, -, -, hspan, -⟩
    cases hspan
  | some found =>
    rw [hfirst] at hsublist
    constructor
    · rintro ⟨signature, hname, hparams, hspan, -⟩
      cases hspan
      exact ⟨congrArg some hname, hparams⟩
    · rintro ⟨hname, hparams⟩
      cases hname
      exact ⟨_, rfl, hparams, rfl, hsublist⟩

theorem Wraps.eq_of_kind {declarator : Node} (h : Wraps function declarator)
    (hkind : declarator.label.kind = functionDeclarator) : declarator = function := by
  cases h with
  | here => rfl
  | inside hwrapper =>
    rw [hkind] at hwrapper
    exact absurd hwrapper (by decide)

/-- The first identifier is the name exactly if the declarator is the function's and the name is
an identifier. -/
theorem firstIdentifier_eq_iff (h : Defines node declarator function name text)
    (hgrammar : Grammatical declarator function name) :
    firstIdentifier declarator = some text ↔
      declarator.label.kind = functionDeclarator ∧ isIdentifier name = true := by
  unfold firstIdentifier
  by_cases hkind : declarator.label.kind = functionDeclarator
  · obtain rfl := h.wraps.eq_of_kind hkind
    rw [and_iff_right hkind]
    by_cases hname : isIdentifier name = true
    · obtain ⟨before, after, hchildren, hbefore⟩ := hgrammar.first hname
      refine iff_of_true ?_ hname
      have hskip : before.findSome? (fun child =>
          if isIdentifier child then child.label.text else none) = none :=
        List.findSome?_eq_none_iff.2 fun child hchild => by
          rw [hbefore child hchild]
          rfl
      rw [hchildren, List.findSome?_append, hskip, Option.none_or, List.findSome?_cons, if_pos hname,
        h.nameText]
    · refine iff_of_false (fun hfirst => ?_) hname
      obtain ⟨child, hchild, htext⟩ := List.exists_of_findSome?_eq_some hfirst
      rw [Option.ite_none_right_eq_some] at htext
      exact hgrammar.spelling (Bool.eq_false_iff.2 hname) child hchild htext.1 (htext.2.trans h.nameText.symm)
  · refine iff_of_false (fun hfirst => ?_) fun hplain => hkind hplain.1
    obtain ⟨child, hchild, htext⟩ := List.exists_of_findSome?_eq_some hfirst
    rw [hgrammar.wrapper hkind child hchild] at htext
    cases htext

/-- A C or C++ function becomes a symbol exactly if its name is the first identifier of the
declarator; in a tree of the grammar, if nothing is around the function declarator and the name
is an identifier. -/
theorem functions_captured_iff (hlanguage : language = .c ∨ language = .cpp)
    (hfound : Found (spanRules language) .items root (mode, node))
    (h : Defines node declarator function name text) :
    (Captured language root mode node text (cParameters function) ↔
      firstIdentifier declarator = some text ∧ cParameters declarator = cParameters function) ∧
    (Grammatical declarator function name →
      (Captured language root mode node text (cParameters function) ↔
        declarator.label.kind = functionDeclarator ∧ isIdentifier name = true)) := by
  have hcaptured := captured_iff hlanguage hfound h
  refine ⟨hcaptured, fun hgrammar => ?_⟩
  rw [hcaptured, firstIdentifier_eq_iff h hgrammar]
  refine and_iff_left_of_imp fun hplain => ?_
  rw [h.wraps.eq_of_kind hplain.1]

end

def pointerSource : Text := "int *f() \x7b\x7d".toList

def pointerName : Node := lineNode pointerSource .identifier (some .declarator) 5 6 []

def pointerFunction : Node :=
  lineNode pointerSource functionDeclarator (some .declarator) 5 8 [
    pointerName,
    lineNode pointerSource (.other "parameter_list".toList) (some .parameters) 6 8
      [word pointerSource 6 7, word pointerSource 7 8]]

def pointerDeclarator : Node :=
  lineNode pointerSource (.other "pointer_declarator".toList) (some .declarator) 4 8
    [word pointerSource 4 5, pointerFunction]

/-- `int *f() {}` -/
def pointerDefinition : Node :=
  lineNode pointerSource .functionDefinition none 0 11 [
    lineNode pointerSource (.other "primitive_type".toList) (some .type) 0 3 [],
    pointerDeclarator,
    lineNode pointerSource (.other "compound_statement".toList) (some .body) 9 11
      [word pointerSource 9 10, word pointerSource 10 11]]

def pointerUnit : Node :=
  lineNode pointerSource (.other "translation_unit".toList) none 0 11 [pointerDefinition]

theorem defines_pointer :
    Defines pointerDefinition pointerDeclarator pointerFunction pointerName "f".toList where
  kind := rfl
  field := rfl
  wraps := .inside (by decide) (List.mem_cons_of_mem _ List.mem_cons_self) (.here rfl)
  nameField := rfl
  nameKind := by decide
  nameText := rfl

theorem found_pointer : Found (spanRules .c) .items pointerUnit (.items, pointerDefinition) :=
  ⟨pointerDefinition, List.mem_cons_self, .refl⟩

/-- A function that returns a pointer is no symbol. -/
theorem pointerDefinition_lost : ¬ ∀ (language : Language) (root : Node) (mode : Mode)
    (node declarator function name : Node) (text : Text), language = .c ∨ language = .cpp →
    Found (spanRules language) .items root (mode, node) →
    Defines node declarator function name text →
    Captured language root mode node text (cParameters function) := by
  intro h
  have hcaptured := h .c pointerUnit .items pointerDefinition _ _ _ _ (.inl rfl) found_pointer defines_pointer
  have hfirst := ((captured_iff (.inl rfl) found_pointer defines_pointer).1 hcaptured).1
  exact absurd hfirst (by decide +kernel)

theorem grammatical_pointer : Grammatical pointerDeclarator pointerFunction pointerName where
  wrapper := fun _ child hchild => by
    have hnone : pointerDeclarator.children.all (fun child => !isIdentifier child) = true := by decide
    simpa using List.all_eq_true.1 hnone child hchild
  first := fun _ => ⟨[], _, rfl, nofun⟩
  spelling := fun hname => absurd hname (by decide)

theorem functions_captured_pointer :
    Found (spanRules .c) .items pointerUnit (.items, pointerDefinition) ∧
    Defines pointerDefinition pointerDeclarator pointerFunction pointerName "f".toList ∧
    Grammatical pointerDeclarator pointerFunction pointerName ∧
    (Captured .c pointerUnit .items pointerDefinition "f".toList (cParameters pointerFunction) ↔
      firstIdentifier pointerDeclarator = some "f".toList ∧
        cParameters pointerDeclarator = cParameters pointerFunction) ∧
    (Captured .c pointerUnit .items pointerDefinition "f".toList (cParameters pointerFunction) ↔
      pointerDeclarator.label.kind = functionDeclarator ∧ isIdentifier pointerName = true) :=
  have hcaptured := functions_captured_iff (.inl rfl) found_pointer defines_pointer
  ⟨found_pointer, defines_pointer, grammatical_pointer, hcaptured.1, hcaptured.2 grammatical_pointer⟩

end CodeSearch
