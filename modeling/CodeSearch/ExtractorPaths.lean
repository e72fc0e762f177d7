import CodeSearch.Extractors
import CodeSearch.Lib.Nested

/-!
# Where the extraction paths agree

`parse_source_spans` says of itself that it mirrors `parse_source`.  With the type entries
left out, the rules of the two are the same in Python, Bash, C, Ruby and C++.  In the
others they part at some nodes:

- Rust and Go: the spans do not look into a type item, the signatures do;
- Java: the spans look for the field `body` of a type declaration, the signatures for
  `class_body`, `interface_body` and `enum_body`;
- TypeScript: the signatures find an exported function declaration, the spans everything in
  an exported declaration; and of an enum the spans see the body, the signatures all.

`commonRules` go as far as both paths do, so that either path is a walk that has more
(`walk_eq_iff`).

    extraction_paths_agree : the paths agree if neither has more where they part
-/

namespace CodeSearch

open TreeWalk

/-- The signature of a span that is tagged as a function. -/
def functionOf (span : SymbolSpan) : Option FunctionSignature :=
  if span.2.1 = .function then some span.1 else none

/-- The two paths report the same callables, in the same order. -/
def PathsAgree (language : Language) (root : Node) : Prop :=
  (spansOfTree language root).filterMap functionOf =
    (pushedOf language root).filterMap Pushed.callable?

/-! ## The callables of each path, by rules -/

def callableRules (language : Language) : Rules NodeInfo Mode FunctionSignature :=
  mapEmit (fun pushed => pushed.callable?.toList) (functionRules language)

def functionSpanRules (language : Language) : Rules NodeInfo Mode FunctionSignature :=
  mapEmit (fun span => (functionOf span).toList) (spanRules language)

theorem pathsAgree_iff (language : Language) (root : Node) : PathsAgree language root ↔
    walk (functionSpanRules language) .items root = walk (callableRules language) .items root := by
  unfold PathsAgree spansOfTree pushedOf functionSpanRules callableRules
  rw [walk_mapEmit, walk_mapEmit, List.filterMap_eq_flatMap_toList,
    List.filterMap_eq_flatMap_toList]

@[simp] theorem flatMap_callables (signature : Option FunctionSignature) :
    (callables signature).flatMap (fun pushed => pushed.callable?.toList) = signature.toList := by
  cases signature <;> rfl

@[simp] theorem flatMap_typeEntries (signature : Option FunctionSignature) :
    (typeEntries signature).flatMap (fun pushed => pushed.callable?.toList) = [] := by
  cases signature <;> rfl

@[simp] theorem flatMap_functionSpans (node : Node) (signature : Option FunctionSignature) :
    (taggedSpans node .function signature).flatMap (fun span => (functionOf span).toList) =
      signature.toList := by
  cases signature <;> rfl

theorem flatMap_typeSpan (node : Node) {kind : SymbolKind} (h : kind ≠ .function) :
    (typeSpan node kind).flatMap (fun span => (functionOf span).toList) = [] := by
  unfold typeSpan taggedSpans
  cases typeSymbol node with
  | none => rfl
  | some signature =>
    show (functionOf (signature, kind, _, _)).toList ++ [] = []
    unfold functionOf
    rw [if_neg h]
    rfl

/-! ## Where they part -/

/-- The type items of Rust, which the spans do not look into. -/
def rustTypeItem : Kind → Bool
  | .structItem | .unionItem | .enumItem | .typeItem => true
  | _ => false

/-- The type declarations of Java, for which each path looks for another field. -/
def javaTypeDeclaration : Kind → Bool
  | .classDeclaration | .interfaceDeclaration | .enumDeclaration | .recordDeclaration => true
  | _ => false

/-- What both extractors of a language do: at an exported declaration, a type item or a type
declaration where they part, only what both do there. -/
def commonRules : Language → Rules NodeInfo Mode FunctionSignature
  | .typeScript => fun mode node =>
    if node.label.kind = .enumDeclaration then ⟨[], belowBody .items⟩
    else callableRules .typeScript mode node
  | .java => fun mode node =>
    if javaTypeDeclaration node.label.kind then ⟨[], .stop⟩ else callableRules .java mode node
  | language => functionSpanRules language

/-- No callable is found from the children of a node on. -/
def NothingBelow (rules : Rules NodeInfo Mode FunctionSignature) (node : Node) : Prop :=
  ∀ child ∈ node.children, Silent rules (.items, child)

/-- An exported declaration is a function with a body, or there is no callable in it. -/
def ExportedAsIs (declaration : Node) : Prop :=
  match declaration.label.kind with
  | .functionSignature => fieldText declaration .name = none
  | .classDeclaration | .interfaceDeclaration | .typeAliasDeclaration | .enumDeclaration =>
    ∀ body, childByFieldName declaration .body = some body →
      NothingBelow (functionSpanRules .typeScript) body
  | _ => True

/-- The callables in an enum are in its body, and the body is of no kind that is asked for. -/
structure EnumAsIs (node : Node) : Prop where
  body : ∀ body, childByFieldName node .body = some body →
    callableRules .typeScript .items body = ⟨[], .children .items⟩
  rest : ∀ child ∈ node.children.eraseP fun child => isField .body child.label,
    Silent (callableRules .typeScript) (.items, child)

/-- Nothing is found by one path only at this node. -/
def MirroredAt : Language → Mode × Node → Prop
  | .typeScript, (_, node) =>
    (node.label.kind = .enumDeclaration → EnumAsIs node) ∧
      (node.label.kind = .exportStatement → ∀ declaration,
        childByFieldName node .declaration = some declaration → ExportedAsIs declaration)
  | .rust, (mode, node) =>
    mode ≠ .traitMethods → rustTypeItem node.label.kind = true →
      NothingBelow (callableRules .rust) node
  | .go, (_, node) =>
    node.label.kind = .typeDeclaration → NothingBelow (callableRules .go) node
  | .java, (_, node) =>
    javaTypeDeclaration node.label.kind = true →
      (∀ body, childByFieldName node .body = some body →
        NothingBelow (functionSpanRules .java) body) ∧
      ∀ field body, javaBodyField node = some field → childByFieldName node field = some body →
        NothingBelow (callableRules .java) body
  | _, _ => True

/-- Nothing is found by one path only, wherever both come to. -/
def Mirrored (language : Language) (root : Node) : Prop :=
  ∀ v, Found (commonRules language) .items root v → MirroredAt language v

/-- The enums and the Java type declarations have the fields that the grammars give them. -/
def Ordinary (language : Language) (root : Node) : Prop :=
  ∀ v, Found (commonRules language) .items root v →
    match language with
    | .typeScript => v.2.label.kind = .enumDeclaration → EnumAsIs v.2
    | .java => javaTypeDeclaration v.2.label.kind = true → javaBodyField v.2 = none
    | _ => True

/-! ## The rules compared -/

theorem sameRules_python (mode : Mode) (node : Node) :
    functionSpanRules .python mode node = callableRules .python mode node := by
  simp only [functionSpanRules, callableRules, mapEmit, functionRules, spanRules,
    extractPythonFunctions, extractPythonFunctionSpans]
  cases node.label.kind <;> simp [flatMap_typeSpan]

theorem sameRules_bash (mode : Mode) (node : Node) :
    functionSpanRules .bash mode node = callableRules .bash mode node := by
  simp only [functionSpanRules, callableRules, mapEmit, functionRules, spanRules,
    extractBashFunctions, extractBashFunctionSpans]
  cases node.label.kind <;> simp

theorem sameRules_c (mode : Mode) (node : Node) :
    functionSpanRules .c mode node = callableRules .c mode node := by
  simp only [functionSpanRules, callableRules, mapEmit, functionRules, spanRules,
    extractCFunctions, extractCFunctionSpans]
  cases node.label.kind <;> simp

theorem sameRules_ruby (mode : Mode) (node : Node) :
    functionSpanRules .ruby mode node = callableRules .ruby mode node := by
  simp only [functionSpanRules, callableRules, mapEmit, functionRules, spanRules,
    extractRubyFunctions, extractRubyFunctionSpans]
  cases node.label.kind <;> simp [flatMap_typeSpan]

theorem sameRules_cpp (mode : Mode) (node : Node) :
    functionSpanRules .cpp mode node = callableRules .cpp mode node := by
  simp only [functionSpanRules, callableRules, mapEmit, functionRules, spanRules,
    extractCppFunctions, extractCppFunctionSpans]
  cases node.label.kind <;> simp [flatMap_typeSpan]

theorem rules_rust (mode : Mode) (node : Node) :
    (functionSpanRules .rust mode node = callableRules .rust mode node ∧
      ¬ (mode ≠ .traitMethods ∧ rustTypeItem node.label.kind = true)) ∨
    (mode ≠ .traitMethods ∧ rustTypeItem node.label.kind = true ∧
      functionSpanRules .rust mode node = ⟨[], .stop⟩ ∧
      callableRules .rust mode node = ⟨[], .children .items⟩) := by
  simp only [functionSpanRules, callableRules, mapEmit, functionRules, spanRules]
  cases mode <;>
    simp only [extractRustFunctions, extractRustFunctionSpans, extractRustTraitMethods,
      extractRustTraitMethodSpans] <;>
    cases node.label.kind <;> simp [flatMap_typeSpan, rustTypeItem]

theorem flatMap_goTypeSpecs (node : Node) :
    ((node.children.flatMap fun spec =>
      if spec.label.kind = .typeSpec then typeSpan spec (goTypeSpecKind spec) else []).flatMap
      fun span => (functionOf span).toList) = [] := by
  rw [List.flatMap_assoc, List.flatMap_eq_nil_iff]
  intro spec _
  have hkind : goTypeSpecKind spec ≠ .function := by
    unfold goTypeSpecKind
    cases hfind : spec.children.findSome? _ with
    | none => decide
    | some kind =>
      obtain ⟨child, -, hchild⟩ := List.exists_of_findSome?_eq_some hfind
      rw [Option.getD_some]
      rintro rfl
      split at hchild <;> cases hchild
  split
  · exact flatMap_typeSpan spec hkind
  · rfl

theorem rules_go (mode : Mode) (node : Node) :
    (functionSpanRules .go mode node = callableRules .go mode node ∧
      node.label.kind ≠ .typeDeclaration) ∨
    (node.label.kind = .typeDeclaration ∧ functionSpanRules .go mode node = ⟨[], .stop⟩ ∧
      callableRules .go mode node = ⟨[], .children .items⟩) := by
  simp only [functionSpanRules, callableRules, mapEmit, functionRules, spanRules,
    extractGoFunctions, extractGoFunctionSpans]
  cases node.label.kind <;> simp [flatMap_goTypeSpecs]

/-- A Java type declaration emits no callable; each path goes on in another field. -/
theorem rules_java_type {node : Node} (h : javaTypeDeclaration node.label.kind = true)
    (mode : Mode) : functionSpanRules .java mode node = ⟨[], belowBody .items⟩ ∧
      callableRules .java mode node = ⟨[], belowJavaBody node⟩ := by
  simp only [functionSpanRules, callableRules, mapEmit, functionRules, spanRules,
    extractJavaFunctions, extractJavaFunctionSpans]
  revert h
  cases node.label.kind <;> simp [flatMap_typeSpan, javaTypeDeclaration]

theorem rules_java {node : Node} (h : javaTypeDeclaration node.label.kind ≠ true) (mode : Mode) :
    functionSpanRules .java mode node = callableRules .java mode node := by
  simp only [functionSpanRules, callableRules, mapEmit, functionRules, spanRules,
    extractJavaFunctions, extractJavaFunctionSpans]
  revert h
  cases node.label.kind <;> simp [javaTypeDeclaration]

theorem rules_typescript {node : Node} (henum : node.label.kind ≠ .enumDeclaration)
    (hexport : node.label.kind ≠ .exportStatement) :
    functionSpanRules .typeScript .items node = callableRules .typeScript .items node := by
  simp only [functionSpanRules, callableRules, mapEmit, functionRules, spanRules,
    extractTypescriptFunctions, extractTypescriptFunctionSpans, extractTypescriptDeclarationSpan]
  revert henum hexport
  cases node.label.kind <;> simp [flatMap_typeSpan, typescriptTypeKind]

theorem rules_typescript_enum {node : Node} (h : node.label.kind = .enumDeclaration) (mode : Mode) :
    functionSpanRules .typeScript mode node = ⟨[], belowBody .items⟩ ∧
      callableRules .typeScript mode node = ⟨[], .children .items⟩ := by
  simp only [functionSpanRules, callableRules, mapEmit, functionRules, spanRules]
  cases mode <;> simp [extractTypescriptFunctions, extractTypescriptFunctionSpans,
    extractTypescriptDeclarationSpan, h, typescriptTypeKind, flatMap_typeSpan]

theorem rules_typescript_export {node : Node} (h : node.label.kind = .exportStatement) :
    functionSpanRules .typeScript .items node = ⟨[], .child (isField .declaration) .declaration⟩ ∧
      callableRules .typeScript .items node =
        ⟨match childByFieldName node .declaration with
          | some declaration =>
            if declaration.label.kind = .functionDeclaration then
              (parseTypescriptFunction declaration).toList
            else []
          | none => [], .stop⟩ := by
  simp only [functionSpanRules, callableRules, mapEmit, functionRules, spanRules,
    extractTypescriptFunctions, extractTypescriptFunctionSpans, h]
  refine ⟨rfl, ?_⟩
  cases childByFieldName node .declaration with
  | none => rfl
  | some declaration =>
    dsimp only
    by_cases hfunction : declaration.label.kind = .functionDeclaration
    · rw [if_pos hfunction, if_pos hfunction, flatMap_callables]
    · rw [if_neg hfunction, if_neg hfunction, List.flatMap_nil]

/-! ## Agreement -/

theorem pathsAgree_of_sameRules {language : Language} (root : Node)
    (h : ∀ mode node, functionSpanRules language mode node = callableRules language mode node) :
    PathsAgree language root :=
  (pathsAgree_iff language root).2 (walk_eq_walk fun v _ => follows_of_rule (h v.1 v.2))

/-- Where the spans stop at some nodes that the signatures look into. -/
theorem pathsAgree_iff_nothingBelow {language : Language} (root : Node) (parts : Mode × Node → Prop)
    (h : ∀ mode node,
      (functionSpanRules language mode node = callableRules language mode node ∧
        ¬ parts (mode, node)) ∨
      (parts (mode, node) ∧ functionSpanRules language mode node = ⟨[], .stop⟩ ∧
        callableRules language mode node = ⟨[], .children .items⟩)) :
    PathsAgree language root ↔ ∀ v, Found (functionSpanRules language) .items root v → parts v →
      NothingBelow (callableRules language) v.2 := by
  have hparts : ∀ v, parts v → functionSpanRules language v.1 v.2 = ⟨[], .stop⟩ ∧
      callableRules language v.1 v.2 = ⟨[], .children .items⟩ := by
    intro v hv
    rcases h v.1 v.2 with ⟨-, hnot⟩ | ⟨-, hspans, hcallables⟩
    · exact absurd hv hnot
    · exact ⟨hspans, hcallables⟩
  rw [pathsAgree_iff, walk_eq_iff parts]
  · refine forall₃_congr fun v _ hv => ?_
    obtain ⟨hspans, hcallables⟩ := hparts v hv
    rw [hspans]
    exact eq_comm.trans (silent_iff_children hcallables)
  · intro v _ hv
    rcases h v.1 v.2 with ⟨hsame, -⟩ | ⟨hyes, -⟩
    · exact follows_of_rule hsame
    · exact absurd hyes hv
  · intro v _ hv
    rw [(hparts v hv).1]
    exact ⟨rfl, List.nil_sublist _⟩

theorem pathsAgree_rust (root : Node) : PathsAgree .rust root ↔ Mirrored .rust root := by
  refine (pathsAgree_iff_nothingBelow root
    (fun v => v.1 ≠ .traitMethods ∧ rustTypeItem v.2.label.kind = true) fun mode node => ?_).trans ?_
  · rcases rules_rust mode node with h | ⟨hmode, hkind, hspans, hcallables⟩
    · exact .inl h
    · exact .inr ⟨⟨hmode, hkind⟩, hspans, hcallables⟩
  · exact forall₂_congr fun v _ => and_imp

theorem pathsAgree_go (root : Node) : PathsAgree .go root ↔ Mirrored .go root :=
  pathsAgree_iff_nothingBelow root (fun v => v.2.label.kind = .typeDeclaration) fun mode node =>
    rules_go mode node

/-! ### Java -/

theorem commonRules_java_type {node : Node} (h : javaTypeDeclaration node.label.kind = true)
    (mode : Mode) : commonRules .java mode node = ⟨[], .stop⟩ := if_pos h

theorem commonRules_java {node : Node} (h : javaTypeDeclaration node.label.kind ≠ true)
    (mode : Mode) : commonRules .java mode node = callableRules .java mode node := if_neg h

/-- What both paths find, and one more, is the same if that one finds nothing in the types. -/
theorem commonWalk_java_iff (rules : Rules NodeInfo Mode FunctionSignature) (root : Node)
    (h : ∀ v : Mode × Node, javaTypeDeclaration v.2.label.kind ≠ true →
      commonRules .java v.1 v.2 = rules v.1 v.2) :
    walk (commonRules .java) .items root = walk rules .items root ↔
      ∀ v, Found (commonRules .java) .items root v → javaTypeDeclaration v.2.label.kind = true →
        visit rules v.1 v.2 = [] := by
  rw [walk_eq_iff fun v => javaTypeDeclaration v.2.label.kind = true]
  · refine forall₃_congr fun v _ hv => ?_
    rw [commonRules_java_type hv]
    exact eq_comm
  · exact fun v _ hv => follows_of_rule (h v hv)
  · intro v _ hv
    rw [commonRules_java_type hv]
    exact ⟨rfl, List.nil_sublist _⟩

theorem visit_javaSpans {v : Mode × Node} (h : javaTypeDeclaration v.2.label.kind = true) :
    visit (functionSpanRules .java) v.1 v.2 = [] ↔
      ∀ body, childByFieldName v.2 .body = some body → NothingBelow (functionSpanRules .java) body :=
  silent_iff_below (rules_java_type h v.1).1

theorem visit_javaCallables {v : Mode × Node} (h : javaTypeDeclaration v.2.label.kind = true) :
    visit (callableRules .java) v.1 v.2 = [] ↔
      ∀ field body, javaBodyField v.2 = some field → childByFieldName v.2 field = some body →
        NothingBelow (callableRules .java) body := by
  have hrule := (rules_java_type h v.1).2
  unfold belowJavaBody at hrule
  cases hfield : javaBodyField v.2 with
  | none =>
    rw [hfield] at hrule
    rw [visit_stop (by rw [hrule]), hrule]
    exact iff_of_true rfl nofun
  | some field =>
    rw [hfield] at hrule
    rw [silent_iff_below hrule]
    refine ⟨fun hall field' body hfield' hbody => ?_, fun hall body => hall field body rfl⟩
    cases hfield'
    exact hall body hbody

theorem pathsAgree_java (root : Node) :
    (Mirrored .java root → PathsAgree .java root) ∧
      (Ordinary .java root → PathsAgree .java root → Mirrored .java root) := by
  have hcallables := commonWalk_java_iff (callableRules .java) root
    fun v hv => commonRules_java hv v.1
  have hspans := commonWalk_java_iff (functionSpanRules .java) root
    fun v hv => (commonRules_java hv v.1).trans (rules_java hv v.1).symm
  rw [pathsAgree_iff]
  constructor
  · intro h
    refine (hspans.2 fun v hv htype => ?_).symm.trans (hcallables.2 fun v hv htype => ?_)
    · exact (visit_javaSpans htype).2 (h v hv htype).1
    · exact (visit_javaCallables htype).2 (h v hv htype).2
  · intro hordinary hagree
    have hnone : ∀ v, Found (commonRules .java) .items root v →
        javaTypeDeclaration v.2.label.kind = true → visit (callableRules .java) v.1 v.2 = [] := by
      intro v hv htype
      refine (visit_javaCallables htype).2 fun field body hfield => ?_
      rw [hordinary v hv htype] at hfield
      cases hfield
    have hwalk := hspans.1 ((hcallables.2 hnone).trans hagree.symm)
    exact fun v hv htype => ⟨(visit_javaSpans htype).1 (hwalk v hv htype),
      (visit_javaCallables htype).1 (hnone v hv htype)⟩

/-! ### TypeScript -/

theorem commonRules_enum {node : Node} (h : node.label.kind = .enumDeclaration) (mode : Mode) :
    commonRules .typeScript mode node = ⟨[], belowBody .items⟩ := if_pos h

theorem commonRules_typescript {node : Node} (h : node.label.kind ≠ .enumDeclaration)
    (mode : Mode) : commonRules .typeScript mode node = callableRules .typeScript mode node :=
  if_neg h

/-- The functions of `parse_source` for TypeScript are one. -/
theorem typescript_mode {mode mode' : Mode} {node : Node}
    (h : (commonRules .typeScript mode node).next.mode? = some mode') : mode' = .items := by
  by_cases henum : node.label.kind = .enumDeclaration
  · rw [commonRules_enum henum] at h
    cases h
    rfl
  · rw [commonRules_typescript henum] at h
    simp only [callableRules, mapEmit, functionRules, extractTypescriptFunctions] at h
    revert h
    cases node.label.kind <;> simp [Next.mode?, belowBody, eq_comm]

theorem found_items {root : Node} {v : Mode × Node}
    (h : Found (commonRules .typeScript) .items root v) : v.1 = .items := by
  obtain ⟨child, -, hvisits⟩ := h
  cases hvisits with
  | refl => rfl
  | tail _ hlast => exact typescript_mode (mode_of_mem_targets hlast)

/-- Where an enum is as it should be, going through all its children finds what its body has. -/
theorem follows_enum {v : Mode × Node} (hkind : v.2.label.kind = .enumDeclaration)
    (h : EnumAsIs v.2) : Follows (commonRules .typeScript) (callableRules .typeScript) v := by
  have hrest : ∀ child ∈ v.2.children.eraseP fun child => isField .body child.label,
      visit (callableRules .typeScript) .items child = [] := fun child hchild =>
    (visit_eq_nil_iff _ (Mode.items, child)).2 (h.rest child hchild)
  unfold Follows
  rw [flatMap_targets_below (commonRules_enum hkind v.1), commonRules_enum hkind,
    visit_children (rules_typescript_enum hkind v.1).2]
  show (childByFieldName v.2 .body).elim _ _ = _
  cases hbody : childByFieldName v.2 .body with
  | none =>
    have hnone : v.2.children.eraseP (fun child => isField .body child.label) = v.2.children :=
      List.eraseP_of_forall_not fun child hchild => List.find?_eq_none.1 hbody child hchild
    rw [hnone] at hrest
    exact (List.flatMap_eq_nil_iff.2 hrest).symm
  | some body =>
    obtain ⟨hfield, before, after, hsplit, hbefore⟩ := List.find?_eq_some_iff_append.1 hbody
    have herase : v.2.children.eraseP (fun child => isField .body child.label) =
        before ++ after := by
      rw [hsplit, List.eraseP_append_right _ (by simpa using hbefore)]
      exact congrArg (before ++ ·)
        (List.eraseP_cons_of_pos (p := fun child : Node => isField .body child.label) hfield)
    rw [herase] at hrest
    have hvisit : visit (callableRules .typeScript) .items body =
        body.children.flatMap fun child => visit (callableRules .typeScript) .items child :=
      visit_children (v := (Mode.items, body)) (h.body body hbody)
    rw [hsplit, List.flatMap_append, List.flatMap_cons, hvisit,
      List.flatMap_eq_nil_iff.2 fun child hchild => hrest child (List.mem_append_left _ hchild),
      List.flatMap_eq_nil_iff.2 fun child hchild => hrest child (List.mem_append_right _ hchild),
      List.nil_append, List.append_nil]
    rfl

theorem rules_declaration (declaration : Node) :
    functionSpanRules .typeScript .declaration declaration =
      match declaration.label.kind with
      | .functionDeclaration | .functionSignature =>
        ⟨(parseTypescriptFunction declaration).toList, .stop⟩
      | .classDeclaration | .interfaceDeclaration | .typeAliasDeclaration | .enumDeclaration =>
        ⟨[], belowBody .items⟩
      | _ => ⟨[], .stop⟩ := by
  simp only [functionSpanRules, mapEmit, spanRules, extractTypescriptFunctionSpans,
    extractTypescriptDeclarationSpan]
  cases declaration.label.kind <;> simp [flatMap_typeSpan, typescriptTypeKind]

/-- An exported function declaration is found by both, the rest by the spans. -/
def exportedFunction (declaration : Node) : List FunctionSignature :=
  if declaration.label.kind = .functionDeclaration then
    (parseTypescriptFunction declaration).toList
  else []

theorem parseTypescriptFunction_eq_none_iff (node : Node) :
    parseTypescriptFunction node = none ↔ fieldText node .name = none := Option.map_eq_none_iff

theorem exportedFunction_sublist (declaration : Node) :
    (exportedFunction declaration).Sublist
      (visit (functionSpanRules .typeScript) .declaration declaration) := by
  unfold exportedFunction
  split
  · next hkind =>
    have hrule := rules_declaration declaration
    simp only [hkind] at hrule
    rw [visit_stop (v := (Mode.declaration, declaration)) (by rw [hrule]), hrule]
  · exact List.nil_sublist _

theorem exportedFunction_eq_iff (declaration : Node) :
    exportedFunction declaration =
      visit (functionSpanRules .typeScript) .declaration declaration ↔
        ExportedAsIs declaration := by
  have hrule := rules_declaration declaration
  have hstop : ∀ signatures : List FunctionSignature,
      functionSpanRules .typeScript .declaration declaration = ⟨signatures, .stop⟩ →
      visit (functionSpanRules .typeScript) .declaration declaration = signatures := by
    intro signatures h
    rw [visit_stop (v := (Mode.declaration, declaration)) (by rw [h]), h]
  have hbelow : functionSpanRules .typeScript .declaration declaration = ⟨[], belowBody .items⟩ →
      ([] = visit (functionSpanRules .typeScript) .declaration declaration ↔
        ∀ body, childByFieldName declaration .body = some body →
          NothingBelow (functionSpanRules .typeScript) body) := by
    intro h
    exact eq_comm.trans (silent_iff_below (v := (Mode.declaration, declaration)) h)
  unfold exportedFunction ExportedAsIs
  split at hrule
  · next hkind =>
    rw [hkind, if_pos rfl, hstop _ hrule]
    exact iff_of_true rfl trivial
  · next hkind =>
    rw [hkind, if_neg (by decide), hstop _ hrule, eq_comm, Option.toList_eq_nil_iff]
    exact parseTypescriptFunction_eq_none_iff declaration
  iterate 4
    · next hkind =>
      rw [hkind, if_neg (by decide)]
      exact hbelow hrule
  · next hfunction hsignature hclass hinterface halias henum =>
    rw [if_neg hfunction, hstop _ hrule]
    refine iff_of_true rfl ?_
    split
    · next h => exact (hsignature h).elim
    · next h => exact (hclass h).elim
    · next h => exact (hinterface h).elim
    · next h => exact (halias h).elim
    · next h => exact (henum h).elim
    · trivial

theorem commonRules_export {node : Node} (h : node.label.kind = .exportStatement) :
    commonRules .typeScript .items node =
      ⟨(childByFieldName node .declaration).elim [] exportedFunction, .stop⟩ := by
  rw [commonRules_typescript (by rw [h]; decide), (rules_typescript_export h).2]
  cases childByFieldName node .declaration <;> rfl

theorem visit_exportSpans {node : Node} (h : node.label.kind = .exportStatement) :
    visit (functionSpanRules .typeScript) .items node =
      (childByFieldName node .declaration).elim []
        (visit (functionSpanRules .typeScript) .declaration) :=
  visit_child (v := (Mode.items, node)) (rules_typescript_export h).1

theorem export_less {node : Node} (h : node.label.kind = .exportStatement) :
    (commonRules .typeScript .items node).next = .stop ∧
      (commonRules .typeScript .items node).emit.Sublist
        (visit (functionSpanRules .typeScript) .items node) := by
  rw [commonRules_export h, visit_exportSpans h]
  refine ⟨rfl, ?_⟩
  cases childByFieldName node .declaration with
  | none => exact List.nil_sublist _
  | some declaration => exact exportedFunction_sublist declaration

theorem export_iff {node : Node} (h : node.label.kind = .exportStatement) :
    (commonRules .typeScript .items node).emit =
        visit (functionSpanRules .typeScript) .items node ↔
      ∀ declaration, childByFieldName node .declaration = some declaration →
        ExportedAsIs declaration := by
  rw [commonRules_export h, visit_exportSpans h]
  cases childByFieldName node .declaration with
  | none => exact iff_of_true rfl nofun
  | some declaration =>
    refine (exportedFunction_eq_iff declaration).trans ⟨fun hasis d hd => ?_, fun hall => hall _ rfl⟩
    cases hd
    exact hasis

theorem pathsAgree_typescript (root : Node) :
    (Mirrored .typeScript root → PathsAgree .typeScript root) ∧
      (Ordinary .typeScript root → PathsAgree .typeScript root → Mirrored .typeScript root) := by
  have hcallables : (∀ v, Found (commonRules .typeScript) .items root v →
      v.2.label.kind = .enumDeclaration → EnumAsIs v.2) →
      walk (commonRules .typeScript) .items root = walk (callableRules .typeScript) .items root := by
    intro henums
    refine walk_eq_walk fun v hv => ?_
    by_cases henum : v.2.label.kind = .enumDeclaration
    · exact follows_enum henum (henums v hv henum)
    · exact follows_of_rule (commonRules_typescript henum v.1)
  have hspans : walk (commonRules .typeScript) .items root =
      walk (functionSpanRules .typeScript) .items root ↔
      ∀ v, Found (commonRules .typeScript) .items root v → v.2.label.kind = .exportStatement →
        (commonRules .typeScript v.1 v.2).emit =
          visit (functionSpanRules .typeScript) v.1 v.2 := by
    refine walk_eq_iff (fun v : Mode × Node => v.2.label.kind = .exportStatement)
      (fun v hv hexport => ?_) fun v hv hexport => ?_
    · refine follows_of_rule ?_
      by_cases henum : v.2.label.kind = .enumDeclaration
      · rw [commonRules_enum henum, (rules_typescript_enum henum v.1).1]
      · rw [found_items hv, commonRules_typescript henum, rules_typescript henum hexport]
    · rw [found_items hv]
      exact export_less hexport
  rw [pathsAgree_iff]
  constructor
  · intro h
    refine (hspans.2 fun v hv hexport => ?_).symm.trans (hcallables fun v hv => (h v hv).1)
    rw [found_items hv]
    exact (export_iff hexport).2 ((h v hv).2 hexport)
  · intro hordinary hagree
    have hwalk := hspans.1 ((hcallables hordinary).trans hagree.symm)
    refine fun v hv => ⟨hordinary v hv, fun hexport => ?_⟩
    have hemit := hwalk v hv hexport
    rw [found_items hv] at hemit
    exact (export_iff hexport).1 hemit

/-- Both paths report the same callables of a tree if nothing is found by one of them only where
they part; and only then, in a tree whose enums and Java types have the fields of the grammars.
In Python, Bash, C, Ruby and C++ they part nowhere. -/
theorem extraction_paths_agree (language : Language) (root : Node) :
    (Mirrored language root → PathsAgree language root) ∧
      (Ordinary language root → PathsAgree language root → Mirrored language root) := by
  cases language with
  | typeScript => exact pathsAgree_typescript root
  | rust => exact ⟨(pathsAgree_rust root).2, fun _ => (pathsAgree_rust root).1⟩
  | go => exact ⟨(pathsAgree_go root).2, fun _ => (pathsAgree_go root).1⟩
  | java => exact pathsAgree_java root
  | python => exact ⟨fun _ => pathsAgree_of_sameRules root sameRules_python, fun _ _ _ _ => trivial⟩
  | bash => exact ⟨fun _ => pathsAgree_of_sameRules root sameRules_bash, fun _ _ _ _ => trivial⟩
  | c => exact ⟨fun _ => pathsAgree_of_sameRules root sameRules_c, fun _ _ _ _ => trivial⟩
  | ruby => exact ⟨fun _ => pathsAgree_of_sameRules root sameRules_ruby, fun _ _ _ _ => trivial⟩
  | cpp => exact ⟨fun _ => pathsAgree_of_sameRules root sameRules_cpp, fun _ _ _ _ => trivial⟩

/-- A Rust struct, and a function behind it. -/
def structAndFunction : Node :=
  let source := "struct S; fn f() \x7b\x7d".toList
  lineNode source (.other "source_file".toList) none 0 19 [
    lineNode source .structItem none 0 9 [
      word source 0 6,
      lineNode source (.other "type_identifier".toList) (some .name) 7 8 [],
      word source 8 9],
    lineNode source .functionItem none 10 19 [
      word source 10 12,
      lineNode source .identifier (some .name) 13 14 [],
      lineNode source (.other "parameters".toList) (some .parameters) 14 16
        [word source 14 15, word source 15 16],
      lineNode source (.other "block".toList) (some .body) 17 19
        [word source 17 18, word source 18 19]]]

/-- Nothing is in the struct, and both paths report the function. -/
theorem extraction_paths_agree_struct : Mirrored .rust structAndFunction ∧
    PathsAgree .rust structAndFunction ∧
    ((pushedOf .rust structAndFunction).filterMap Pushed.callable?).map (·.name) = ["f".toList] := by
  have hbelow : ∀ s ∈ RoseTree.nodes structAndFunction, rustTypeItem s.label.kind = true →
      ∀ child ∈ s.children, visit (callableRules .rust) .items child = [] := by decide +kernel
  have hmirrored : Mirrored .rust structAndFunction := by
    rintro ⟨mode, node⟩ ⟨s, hs, hv⟩ - hitem child hchild
    have hnode : node ∈ RoseTree.nodes structAndFunction := RoseTree.mem_nodes_of_child hs (visits_mem_nodes hv)
    exact (visit_eq_nil_iff (callableRules .rust) (.items, child)).1
      (hbelow node hnode hitem child hchild)
  exact ⟨hmirrored, (extraction_paths_agree .rust structAndFunction).1 hmirrored, by decide +kernel⟩

/-- Then the functions among the spans are signatures that `parse_source` returns, in order. -/
theorem functions_sublist_signatures {tree : Text → Language → Except ParseError Node}
    {source : Text} {language : Language} {root : Node} (htree : tree source language = .ok root)
    (h : PathsAgree language root) :
    ∃ spans signatures, parseSourceSpans tree source language = .ok spans ∧
      parseSource tree source language = .ok signatures ∧
      (spans.filterMap functionOf).Sublist signatures := by
  refine ⟨spansOfTree language root, (pushedOf language root).map Pushed.signature, ?_, ?_, ?_⟩
  · rw [parseSourceSpans, htree]
    rfl
  · rw [parseSource, htree]
    rfl
  · rw [h]
    induction pushedOf language root with
    | nil => exact .slnil
    | cons pushed rest ih =>
      cases pushed with
      | callable signature => exact ih.cons_cons signature
      | typeEntry signature => exact ih.cons signature

/-! ## Three trees -/

/-- A Java class with a method. -/
def javaClass : Node :=
  let source := "class A \x7b void m() \x7b\x7d \x7d".toList
  lineNode source (.other "program".toList) none 0 23 [
    lineNode source .classDeclaration none 0 23 [
      word source 0 5,
      lineNode source .identifier (some .name) 6 7 [],
      lineNode source (.other "class_body".toList) (some .body) 8 23 [
        word source 8 9,
        lineNode source .methodDeclaration none 10 21 [
          lineNode source (.other "void_type".toList) (some .type) 10 14 [],
          lineNode source .identifier (some .name) 15 16 [],
          lineNode source .formalParameters (some .parameters) 16 18
            [word source 16 17, word source 17 18],
          lineNode source (.other "block".toList) (some .body) 19 21
            [word source 19 20, word source 20 21]],
        word source 22 23]]]

/-- An exported TypeScript class with a method. -/
def exportedClass : Node :=
  let source := "export class C \x7b m() \x7b\x7d \x7d".toList
  lineNode source (.other "program".toList) none 0 25 [
    lineNode source .exportStatement none 0 25 [
      word source 0 6,
      lineNode source .classDeclaration (some .declaration) 7 25 [
        word source 7 12,
        lineNode source (.other "type_identifier".toList) (some .name) 13 14 [],
        lineNode source (.other "class_body".toList) (some .body) 15 25 [
          word source 15 16,
          lineNode source .methodDefinition none 17 23 [
            lineNode source (.other "property_identifier".toList) (some .name) 17 18 [],
            lineNode source .formalParameters (some .parameters) 18 20
              [word source 18 19, word source 19 20],
            lineNode source (.other "statement_block".toList) (some .body) 21 23
              [word source 21 22, word source 22 23]],
          word source 24 25]]]]

/-- A Rust struct with a function in the length of an array. -/
def structWithFunction : Node :=
  let source := "struct S([u8; \x7b fn f() \x7b\x7d 1 \x7d]);".toList
  lineNode source (.other "source_file".toList) none 0 32 [
    lineNode source .structItem none 0 32 [
      word source 0 6,
      lineNode source (.other "type_identifier".toList) (some .name) 7 8 [],
      lineNode source (.other "ordered_field_declaration_list".toList) (some .body) 8 31 [
        word source 8 9,
        lineNode source (.other "array_type".toList) (some .type) 9 30 [
          word source 9 10,
          lineNode source (.other "primitive_type".toList) (some (.other "element".toList)) 10 12 [],
          word source 12 13,
          lineNode source (.other "block".toList) (some (.other "length".toList)) 14 29 [
            word source 14 15,
            lineNode source .functionItem none 16 25 [
              word source 16 18,
              lineNode source .identifier (some .name) 19 20 [],
              lineNode source (.other "parameters".toList) (some .parameters) 20 22
                [word source 20 21, word source 21 22],
              lineNode source (.other "block".toList) (some .body) 23 25
                [word source 23 24, word source 24 25]],
            lineNode source (.other "integer_literal".toList) none 26 27 [],
            word source 28 29],
          word source 29 30],
        word source 30 31],
      word source 31 32]]

/-- The method of a Java class and that of an exported TypeScript class are reported by the spans
only, a function in a Rust type by the signatures only. -/
theorem extraction_paths_differ : ¬ PathsAgree .java javaClass ∧
    ¬ PathsAgree .typeScript exportedClass ∧ ¬ PathsAgree .rust structWithFunction := by
  unfold PathsAgree
  decide +kernel

end CodeSearch
