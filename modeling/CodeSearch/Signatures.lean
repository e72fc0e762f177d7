import CodeSearch.Extractors
import CodeSearch.Lib.Nested
import CodeSearch.Lib.Trim

/-!
# What a signature says of its node

Every function that reads a signature off a node gives it the position of the node, and
makes it of texts below the node; where a name is missing it puts a word in its place
(`Signs`).  In both extraction paths, what a rule puts out is for the node that it looks at
or, where the walk stops, for children of it (`putsOut_spanRules`, `putsOut_functionRules`).
-/

namespace CodeSearch

open TreeWalk RoseTree Trim

/-- The text is part of the text of a node below. -/
def TextOf (node : Node) (text : Text) : Prop :=
  ∃ s ∈ node.nodes, ∃ own, s.label.text = some own ∧ text <:+: own

/-- The words for a parameter without a name and for a receiver. -/
def placeholders : List Text := ["_".toList, "self".toList]

structure ParameterOf (node : Node) (p : Parameter) : Prop where
  name : TextOf node p.name ∨ p.name ∈ placeholders
  type : ∀ type ∈ p.typeAnnotation, TextOf node type

/-- The signature is at the node, and of its texts; a call signature is named `__call`. -/
structure Signs (node : Node) (sig : FunctionSignature) : Prop where
  line : sig.line = node.label.startRow + 1
  column : sig.column = node.label.startColumn
  name : TextOf node sig.name ∨ sig.name = "__call".toList
  parameters : ∀ p ∈ sig.parameters, ParameterOf node p
  returnType : ∀ type ∈ sig.returnType, TextOf node type

section
variable {node s : Node} {text : Text}

theorem textOf_self (h : node.label.text = some text) : TextOf node text :=
  ⟨node, self_mem_nodes node, text, h, List.infix_rfl⟩

theorem TextOf.below (h : TextOf s text) (hs : s ∈ node.nodes) : TextOf node text := by
  obtain ⟨r, hr, hown⟩ := h
  exact ⟨r, nodes_trans hr hs, hown⟩

theorem TextOf.part (h : TextOf node text) {part : Text} (hpart : part <:+: text) :
    TextOf node part := by
  obtain ⟨r, hr, own, hown, htext⟩ := h
  exact ⟨r, hr, own, hown, hpart.trans htext⟩

theorem field_mem_nodes {field : Field} {c : Node} (h : childByFieldName node field = some c) :
    c ∈ node.nodes := child_mem_nodes (List.mem_of_find?_eq_some h)

theorem textOf_field {field : Field} : ∀ text ∈ fieldText node field, TextOf node text := by
  intro text htext
  obtain ⟨c, hc, hown⟩ := Option.bind_eq_some_iff.1 htext
  exact (textOf_self hown).below (field_mem_nodes hc)

theorem ParameterOf.below {p : Parameter} (h : ParameterOf s p) (hs : s ∈ node.nodes) :
    ParameterOf node p :=
  ⟨h.name.imp_left fun hname => hname.below hs, fun type htype => (h.type type htype).below hs⟩

theorem parameterOf_plain (h : TextOf node text) : ParameterOf node (plainParameter text) :=
  ⟨.inl h, nofun⟩

/-- A name and the field with the type. -/
theorem parameterOf_typed {field : Field} (h : TextOf node text) :
    ParameterOf node ⟨text, fieldText node field⟩ := ⟨.inl h, textOf_field⟩

/-- The parameters found among the children of a node below. -/
theorem parameterOf_paramsOf {extract : Node → Option Parameter}
    (h : ∀ c, ∀ p ∈ extract c, ParameterOf c p) {params : Option Node}
    (hparams : ∀ q ∈ params, q ∈ node.nodes) : ∀ p ∈ paramsOf extract params, ParameterOf node p := by
  intro p hp
  cases params with
  | none => cases hp
  | some q =>
    obtain ⟨c, hc, hp⟩ := List.mem_filterMap.1 hp
    exact (h c p hp).below (nodes_trans (child_mem_nodes hc) (hparams q rfl))

/-- What is made of a name at the position of the node. -/
theorem signs_of_name {name : Option Text} {parameters : List Parameter} {returnType : Option Text}
    (hname : ∀ text ∈ name, TextOf node text) (hparameters : ∀ p ∈ parameters, ParameterOf node p)
    (hreturn : ∀ type ∈ returnType, TextOf node type) :
    ∀ sig ∈ name.map (fun text =>
      { newSignature node text with parameters := parameters, returnType := returnType }),
      Signs node sig := by
  intro sig hsig
  obtain ⟨text, htext, rfl⟩ := Option.map_eq_some_iff.1 hsig
  exact ⟨rfl, rfl, .inl (hname text htext), hparameters, hreturn⟩

theorem signs_newSignature {name : Option Text} (hname : ∀ text ∈ name, TextOf node text) :
    ∀ sig ∈ name.map (newSignature node), Signs node sig := signs_of_name hname nofun nofun

end

/-! ## Parameters -/

theorem parameterOf_typescript (node : Node) :
    ∀ p ∈ extractTypescriptParam node, ParameterOf node p := by
  intro p hp
  unfold extractTypescriptParam at hp
  split at hp
  · obtain ⟨name, hname, rfl⟩ := Option.map_eq_some_iff.1 hp
    exact parameterOf_typed (textOf_field name hname)
  · obtain ⟨name, hname, rfl⟩ := Option.map_eq_some_iff.1 hp
    exact parameterOf_typed (textOf_field name hname)
  · obtain ⟨name, hname, rfl⟩ := Option.map_eq_some_iff.1 hp
    exact parameterOf_plain (textOf_self hname)
  · cases hp

theorem textOf_pattern (node : Node) :
    ∀ text ∈ extractPatternName node, TextOf node text ∨ text = "_".toList := by
  induction node using RoseTree.induct with
  | node node ih =>
    obtain ⟨info, children⟩ := node
    intro text htext
    unfold extractPatternName at htext
    split at htext
    · exact .inl (textOf_self htext)
    · exact .inl (textOf_self htext)
    · next inner rest hkind =>
      have hinner : inner ∈ (RoseTree.node info (inner :: rest)).children := List.mem_cons_self
      exact (ih inner hinner text htext).imp_left fun h => h.below (child_mem_nodes hinner)
    · next inner rest hkind =>
      have hinner : inner ∈ (RoseTree.node info (inner :: rest)).children := List.mem_cons_self
      exact (ih inner hinner text htext).imp_left fun h => h.below (child_mem_nodes hinner)
    · exact .inr (Option.some.inj htext).symm
    · exact .inr (Option.some.inj htext).symm
    · exact .inr (Option.some.inj htext).symm
    · cases htext

theorem parameterOf_rust (node : Node) : ∀ p ∈ extractRustParam node, ParameterOf node p := by
  intro p hp
  unfold extractRustParam at hp
  split at hp
  · rw [← Option.some.inj hp]
    refine ⟨?_, textOf_field⟩
    cases hname : (childByFieldName node .pattern).bind extractPatternName with
    | none => exact .inr List.mem_cons_self
    | some name =>
      obtain ⟨pattern, hpattern, htext⟩ := Option.bind_eq_some_iff.1 hname
      rcases textOf_pattern pattern name htext with htext | rfl
      · exact .inl (htext.below (field_mem_nodes hpattern))
      · exact .inr List.mem_cons_self
  · obtain ⟨text, htext, rfl⟩ := Option.map_eq_some_iff.1 hp
    refine ⟨.inr (List.mem_cons_of_mem _ List.mem_cons_self), fun type htype => ?_⟩
    rw [← Option.some.inj htype]
    exact textOf_self htext
  · obtain ⟨name, hname, rfl⟩ := Option.map_eq_some_iff.1 hp
    exact parameterOf_plain (textOf_self hname)
  · cases hp

theorem parameterOf_python (node : Node) : ∀ p ∈ extractPythonParam node, ParameterOf node p := by
  have hplain : ∀ p ∈ node.label.text.map plainParameter, ParameterOf node p := by
    intro p hp
    obtain ⟨name, hname, rfl⟩ := Option.map_eq_some_iff.1 hp
    exact parameterOf_plain (textOf_self hname)
  intro p hp
  unfold extractPythonParam at hp
  split at hp
  · exact hplain p hp
  · obtain ⟨name, hname, rfl⟩ := Option.map_eq_some_iff.1 hp
    obtain ⟨first, hfirst, hname⟩ := Option.bind_eq_some_iff.1 hname
    exact parameterOf_typed ((textOf_self hname).below (child_mem_nodes (List.mem_of_head? hfirst)))
  · obtain ⟨name, hname, rfl⟩ := Option.map_eq_some_iff.1 hp
    exact parameterOf_plain (textOf_field name hname)
  · obtain ⟨name, hname, rfl⟩ := Option.map_eq_some_iff.1 hp
    exact parameterOf_typed (textOf_field name hname)
  · exact hplain p hp
  · exact hplain p hp
  · cases hp

theorem parameterOf_go (node : Node) : ∀ p ∈ extractGoParam node, ParameterOf node p := by
  intro p hp
  unfold extractGoParam at hp
  rw [Option.mem_def, Option.ite_none_left_eq_some] at hp
  rw [← Option.some.inj hp.2]
  refine ⟨?_, textOf_field⟩
  cases hname : fieldText node .name with
  | none => exact .inr List.mem_cons_self
  | some name => exact .inl (textOf_field name hname)

/-! ## Signatures -/

theorem signs_typeSymbol (node : Node) : ∀ sig ∈ typeSymbol node, Signs node sig :=
  signs_newSignature textOf_field

theorem signs_parseSignature {extract : Node → Option Parameter}
    (h : ∀ c, ∀ p ∈ extract c, ParameterOf c p) (returnField : Field) (node : Node) :
    ∀ sig ∈ parseSignature extract returnField node, Signs node sig :=
  signs_of_name textOf_field (parameterOf_paramsOf h fun _ => field_mem_nodes) textOf_field

theorem signs_parseTypescriptFunction (node : Node) :
    ∀ sig ∈ parseTypescriptFunction node, Signs node sig := by
  refine signs_of_name textOf_field ?_ textOf_field
  intro p hp
  split at hp
  · cases hp
  · next params hparams =>
    obtain ⟨param, hparam, hp⟩ := List.mem_flatMap.1 hp
    have hbelow := nodes_trans (child_mem_nodes hparam) (field_mem_nodes hparams)
    split at hp
    · obtain ⟨c, hc, hp⟩ := List.mem_filterMap.1 hp
      exact (parameterOf_typescript c p hp).below (nodes_trans (child_mem_nodes hc) hbelow)
    · exact (parameterOf_typescript param p (Option.mem_toList.1 hp)).below hbelow
    · exact (parameterOf_typescript param p (Option.mem_toList.1 hp)).below hbelow
    · cases hp

theorem signs_parseTypescriptMethod (node : Node) : ∀ sig ∈ parseTypescriptMethod node, Signs node sig :=
  signs_parseSignature parameterOf_typescript .returnType node

theorem signs_parseTypescriptSignature (node : Node) :
    ∀ sig ∈ parseTypescriptSignature node, Signs node sig := by
  intro sig hsig
  unfold parseTypescriptSignature at hsig
  dsimp only at hsig
  rw [Option.mem_def, Option.ite_none_left_eq_some] at hsig
  obtain ⟨hnamed, hsig⟩ := hsig
  rw [← Option.some.inj hsig]
  refine ⟨rfl, rfl, ?_, parameterOf_paramsOf parameterOf_typescript fun _ => field_mem_nodes,
    textOf_field⟩
  by_cases hcall : node.label.kind = .callSignature
  · exact .inr (if_pos hcall)
  · rw [if_neg hcall] at hnamed
    left
    show TextOf node (if node.label.kind = .callSignature then _ else (fieldText node .name).getD [])
    rw [if_neg hcall]
    cases hname : fieldText node .name with
    | none =>
      rw [hname] at hnamed
      exact absurd ⟨rfl, hcall⟩ hnamed
    | some name => exact textOf_field name hname

theorem signs_parseRustFunction (node : Node) : ∀ sig ∈ parseRustFunction node, Signs node sig :=
  signs_parseSignature parameterOf_rust .returnType node

theorem signs_parsePythonFunction (node : Node) : ∀ sig ∈ parsePythonFunction node, Signs node sig :=
  signs_parseSignature parameterOf_python .returnType node

theorem signs_parseGoFunction (node : Node) : ∀ sig ∈ parseGoFunction node, Signs node sig :=
  signs_parseSignature parameterOf_go .result node

theorem trim_isInfix (text : Text) : trim text <:+: text := trimBoth_isInfix isWhitespace text

theorem receiverText_isInfix (text : Text) : receiverText text <:+: text := by
  refine (trim_isInfix _).trans (List.IsInfix.trans ?_ (trim_isInfix text))
  have hstart := List.dropWhile_suffix (l := trim text) (fun c => decide (c = '('))
  refine List.IsInfix.trans ?_ hstart.isInfix
  rw [← List.reverse_infix, List.reverse_reverse]
  exact (List.dropWhile_suffix _).isInfix

theorem signs_parseGoMethod (node : Node) : ∀ sig ∈ parseGoMethod node, Signs node sig := by
  intro sig hsig
  unfold parseGoMethod at hsig
  obtain ⟨sig, hfunction, rfl⟩ := Option.map_eq_some_iff.1 hsig
  have hsigns := signs_parseGoFunction node sig hfunction
  split
  · next text htext =>
    refine { hsigns with parameters := fun p hp => ?_ }
    rcases List.mem_cons.1 hp with rfl | hp
    · refine ⟨.inr (List.mem_cons_of_mem _ List.mem_cons_self), fun type htype => ?_⟩
      rw [← Option.some.inj htype]
      exact (textOf_field text htext).part (receiverText_isInfix text)
    · exact hsigns.parameters p hp
  · exact hsigns

theorem signs_parseBashFunction (node : Node) : ∀ sig ∈ parseBashFunction node, Signs node sig :=
  signs_newSignature textOf_field

theorem signs_parseJavaMethod (node : Node) : ∀ sig ∈ parseJavaMethod node, Signs node sig := by
  refine signs_of_name textOf_field (parameterOf_paramsOf (fun param p hp => ?_)
    fun _ => field_mem_nodes) nofun
  split at hp
  · obtain ⟨name, hname, rfl⟩ := Option.map_eq_some_iff.1 hp
    exact parameterOf_typed (textOf_field name hname)
  · obtain ⟨name, hname, rfl⟩ := Option.map_eq_some_iff.1 hp
    exact parameterOf_typed (textOf_field name hname)
  · cases hp

theorem signs_parseCFunction (node : Node) : ∀ sig ∈ parseCFunction node, Signs node sig := by
  intro sig hsig
  obtain ⟨declarator, hdeclarator, hsig⟩ := Option.bind_eq_some_iff.1 hsig
  have hbelow : declarator ∈ node.nodes := field_mem_nodes hdeclarator
  refine signs_of_name (fun name hname => ?_) (parameterOf_paramsOf (fun param p hp => ?_)
    fun q hq => nodes_trans (field_mem_nodes hq) hbelow) textOf_field sig hsig
  · obtain ⟨c, hc, hname⟩ := List.exists_of_findSome?_eq_some hname
    have hchild := nodes_trans (child_mem_nodes hc) hbelow
    split at hname
    · exact (textOf_self hname).below hchild
    · exact (textOf_self hname).below hchild
    · cases hname
  · split at hp
    · obtain ⟨name, hname, rfl⟩ := Option.map_eq_some_iff.1 hp
      exact parameterOf_typed (textOf_field name hname)
    · cases hp

theorem textOf_rubyParameter (param : Node) : ∀ name ∈ rubyParameterName param, TextOf param name := by
  intro name hname
  unfold rubyParameterName at hname
  split at hname
  · next c hc => exact (textOf_self hname).below (field_mem_nodes hc)
  · obtain ⟨c, hc, hname⟩ := Option.bind_eq_some_iff.1 hname
    exact (textOf_self hname).below (child_mem_nodes (List.mem_of_find?_eq_some hc))

theorem signs_parseRubyMethod (node : Node) : ∀ sig ∈ parseRubyMethod node, Signs node sig := by
  refine signs_of_name textOf_field (parameterOf_paramsOf (fun param p hp => ?_) fun q hq => ?_) nofun
  · split at hp
    · obtain ⟨name, hname, rfl⟩ := Option.map_eq_some_iff.1 hp
      exact parameterOf_plain (textOf_self hname)
    all_goals try
      obtain ⟨name, hname, rfl⟩ := Option.map_eq_some_iff.1 hp
      exact parameterOf_plain (textOf_rubyParameter param name hname)
    cases hp
  · rcases Option.or_eq_some_iff.1 hq with hq | ⟨-, hq⟩
    · exact field_mem_nodes hq
    · exact field_mem_nodes hq

/-! ## Spans -/

/-- The span is for the node: it has its signature and its rows. -/
structure SpanOf (node : Node) (span : SymbolSpan) : Prop where
  signature : Signs node span.1
  start : span.2.2.1 = node.label.startRow + 1
  stop : span.2.2.2 = node.label.endRow + 1

section
variable {node : Node} {kind : SymbolKind} {next : Next NodeInfo Mode}

theorem putsOut_nil {β : Type} {of : Node → β → Prop} : PutsOut of node (⟨[], next⟩ : Rule NodeInfo Mode β) :=
  .own nofun

theorem spanOf_taggedSpans {signature : Option FunctionSignature}
    (h : ∀ sig ∈ signature, Signs node sig) :
    ∀ span ∈ taggedSpans node kind signature, SpanOf node span := by
  intro span hspan
  obtain ⟨sig, hsig, rfl⟩ := List.mem_map.1 hspan
  exact ⟨h sig (Option.mem_toList.1 hsig), rfl, rfl⟩

theorem putsOut_tagged {signature : Option FunctionSignature}
    (h : ∀ sig ∈ signature, Signs node sig) :
    PutsOut SpanOf node ⟨taggedSpans node kind signature, next⟩ := .own (spanOf_taggedSpans h)

theorem putsOut_type : PutsOut SpanOf node ⟨typeSpan node kind, next⟩ :=
  putsOut_tagged (signs_typeSymbol node)

end

theorem putsOut_typescriptDeclaration (node : Node) :
    PutsOut SpanOf node (extractTypescriptDeclarationSpan node) := by
  have hfunction := signs_parseTypescriptFunction node
  unfold extractTypescriptDeclarationSpan
  split
  · exact putsOut_tagged hfunction
  · exact putsOut_tagged hfunction
  all_goals try exact putsOut_nil
  all_goals
    -- the declarations of types
    cases typescriptTypeKind node.label.kind with
    | none => exact putsOut_nil
    | some kind => exact putsOut_type

theorem putsOut_typescript (mode : Mode) (node : Node) :
    PutsOut SpanOf node (extractTypescriptFunctionSpans mode node) := by
  have hdeclaration := putsOut_typescriptDeclaration node
  have hfunction := signs_parseTypescriptFunction node
  have hmethod := signs_parseTypescriptMethod node
  have hsignature := signs_parseTypescriptSignature node
  unfold extractTypescriptFunctionSpans
  split
  · exact hdeclaration
  · split <;> first
      | exact hdeclaration
      | exact putsOut_tagged hfunction
      | exact putsOut_tagged hmethod
      | exact putsOut_tagged hsignature
      | exact putsOut_nil

theorem putsOut_rust (mode : Mode) (node : Node) :
    PutsOut SpanOf node (extractRustFunctionSpans mode node) := by
  have hfunction := signs_parseRustFunction node
  unfold extractRustFunctionSpans extractRustTraitMethodSpans
  split
  · split <;> first
      | exact putsOut_tagged hfunction
      | exact putsOut_nil
  · split <;> first
      | exact putsOut_tagged hfunction
      | exact putsOut_type
      | exact putsOut_nil

theorem putsOut_go (mode : Mode) (node : Node) :
    PutsOut SpanOf node (extractGoFunctionSpans mode node) := by
  unfold extractGoFunctionSpans
  split
  · exact putsOut_tagged (signs_parseGoFunction node)
  · exact putsOut_tagged (signs_parseGoMethod node)
  · -- the spans of a type declaration are those of its specs
    refine .children rfl _ rfl fun spec hspec span hspan => ?_
    split at hspan
    · exact spanOf_taggedSpans (signs_typeSymbol spec) span hspan
    · cases hspan
  · exact putsOut_nil

theorem putsOut_spanRules (language : Language) (mode : Mode) (node : Node) :
    PutsOut SpanOf node (spanRules language mode node) := by
  have hc := signs_parseCFunction node
  cases language with
  | typeScript => exact putsOut_typescript mode node
  | rust => exact putsOut_rust mode node
  | go => exact putsOut_go mode node
  | python =>
    show PutsOut SpanOf node (extractPythonFunctionSpans mode node)
    unfold extractPythonFunctionSpans
    split
    · exact putsOut_tagged (signs_parsePythonFunction node)
    · exact putsOut_type
    · exact putsOut_nil
  | bash =>
    show PutsOut SpanOf node (extractBashFunctionSpans mode node)
    unfold extractBashFunctionSpans
    split
    · exact putsOut_tagged (signs_parseBashFunction node)
    · exact putsOut_nil
  | java =>
    show PutsOut SpanOf node (extractJavaFunctionSpans mode node)
    unfold extractJavaFunctionSpans
    split <;> first
      | exact putsOut_type
      | exact putsOut_tagged (signs_parseJavaMethod node)
      | exact putsOut_nil
  | c =>
    show PutsOut SpanOf node (extractCFunctionSpans mode node)
    unfold extractCFunctionSpans
    split
    · exact putsOut_tagged hc
    · exact putsOut_nil
  | ruby =>
    show PutsOut SpanOf node (extractRubyFunctionSpans mode node)
    unfold extractRubyFunctionSpans
    split <;> first
      | exact putsOut_type
      | exact putsOut_tagged (signs_parseRubyMethod node)
      | exact putsOut_nil
  | cpp =>
    show PutsOut SpanOf node (extractCppFunctionSpans mode node)
    unfold extractCppFunctionSpans
    split <;> first
      | exact putsOut_tagged hc
      | exact putsOut_type
      | exact putsOut_nil

/-- Every span is for a node. -/
theorem spanOf_spansOfTree (language : Language) (root : Node) :
    ∀ span ∈ spansOfTree language root, ∃ node ∈ root.nodes, SpanOf node span := by
  intro span hspan
  obtain ⟨mode, node, hnode, hemit⟩ := mem_walk hspan
  obtain ⟨s, hs, hof⟩ := (putsOut_spanRules language mode node).below span hemit
  exact ⟨s, nodes_trans hs hnode, hof⟩

/-! ## Functions -/

/-- What `parse_source` pushes is for the node. -/
def PushedFor (node : Node) (pushed : Pushed) : Prop := Signs node pushed.signature

section
variable {node : Node} {next : Next NodeInfo Mode} {signature : Option FunctionSignature}

theorem pushedFor_callables (h : ∀ sig ∈ signature, Signs node sig) :
    ∀ pushed ∈ callables signature, PushedFor node pushed := by
  intro pushed hpushed
  obtain ⟨sig, hsig, rfl⟩ := List.mem_map.1 hpushed
  exact h sig (Option.mem_toList.1 hsig)

theorem putsOut_callables (h : ∀ sig ∈ signature, Signs node sig) :
    PutsOut PushedFor node ⟨callables signature, next⟩ := .own (pushedFor_callables h)

theorem putsOut_typeEntries : PutsOut PushedFor node ⟨typeEntries (typeSymbol node), next⟩ := by
  refine .own fun pushed hpushed => ?_
  obtain ⟨sig, hsig, rfl⟩ := List.mem_map.1 hpushed
  exact signs_typeSymbol node sig (Option.mem_toList.1 hsig)

end

theorem putsOut_typescriptFunctions (mode : Mode) (node : Node) :
    PutsOut PushedFor node (extractTypescriptFunctions mode node) := by
  have hfunction := signs_parseTypescriptFunction node
  have hmethod := signs_parseTypescriptMethod node
  have hsignature := signs_parseTypescriptSignature node
  unfold extractTypescriptFunctions
  split
  · exact putsOut_callables hfunction
  · exact putsOut_callables hfunction
  · -- an export has the function that it exports
    cases hdeclaration : childByFieldName node .declaration with
    | none => exact putsOut_nil
    | some declaration =>
      refine .child rfl declaration (List.mem_of_find?_eq_some hdeclaration) fun pushed hpushed => ?_
      dsimp only at hpushed
      split at hpushed
      · exact pushedFor_callables (signs_parseTypescriptFunction declaration) pushed hpushed
      · cases hpushed
  all_goals first
    | exact putsOut_callables hmethod
    | exact putsOut_callables hsignature
    | exact putsOut_nil

theorem putsOut_rustFunctions (mode : Mode) (node : Node) :
    PutsOut PushedFor node (extractRustFunctions mode node) := by
  have hfunction := signs_parseRustFunction node
  unfold extractRustFunctions extractRustTraitMethods
  split
  · split <;> first
      | exact putsOut_callables hfunction
      | exact putsOut_nil
  · split <;> first
      | exact putsOut_callables hfunction
      | exact putsOut_nil

theorem putsOut_functionRules (language : Language) (mode : Mode) (node : Node) :
    PutsOut PushedFor node (functionRules language mode node) := by
  have hc := signs_parseCFunction node
  cases language with
  | typeScript => exact putsOut_typescriptFunctions mode node
  | rust => exact putsOut_rustFunctions mode node
  | go =>
    show PutsOut PushedFor node (extractGoFunctions mode node)
    unfold extractGoFunctions
    split
    · exact putsOut_callables (signs_parseGoFunction node)
    · exact putsOut_callables (signs_parseGoMethod node)
    · exact putsOut_nil
  | python =>
    show PutsOut PushedFor node (extractPythonFunctions mode node)
    unfold extractPythonFunctions
    split
    · exact putsOut_callables (signs_parsePythonFunction node)
    · exact putsOut_nil
    · exact putsOut_nil
  | bash =>
    show PutsOut PushedFor node (extractBashFunctions mode node)
    unfold extractBashFunctions
    split
    · exact putsOut_callables (signs_parseBashFunction node)
    · exact putsOut_nil
  | java =>
    show PutsOut PushedFor node (extractJavaFunctions mode node)
    unfold extractJavaFunctions
    split <;> first
      | exact putsOut_typeEntries
      | exact putsOut_callables (signs_parseJavaMethod node)
      | exact putsOut_nil
  | c =>
    show PutsOut PushedFor node (extractCFunctions mode node)
    unfold extractCFunctions
    split
    · exact putsOut_callables hc
    · exact putsOut_nil
  | ruby =>
    show PutsOut PushedFor node (extractRubyFunctions mode node)
    unfold extractRubyFunctions
    split <;> first
      | exact putsOut_typeEntries
      | exact putsOut_callables (signs_parseRubyMethod node)
      | exact putsOut_nil
  | cpp =>
    show PutsOut PushedFor node (extractCppFunctions mode node)
    unfold extractCppFunctions
    split <;> first
      | exact putsOut_callables hc
      | exact putsOut_typeEntries
      | exact putsOut_nil

end CodeSearch
