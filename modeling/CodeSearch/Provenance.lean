import CodeSearch.SourceChunks

/-!
# Where symbols and rows come from

In every language the import and export rows of a source are in the order of its lines, and
each is at the line of a node.  The modules and names in them are text of the source: nothing
in a row is made up, but for the `::` between the parts of a Rust path and the words that
mark what a Rust import is (`rows_from_source`).

The symbols that either extraction path finds are in the order of the lines, too, and each
has the place of a declaration and is of words of it (`symbols_from_source`).
-/

namespace CodeSearch

open TreeWalk RoseTree Trim

variable {content : Text}

/-! ## Texts of the source -/

/-- The texts of the node and of those below it are parts of the content. -/
def Readable (content : Text) (node : Node) : Prop :=
  ∀ s ∈ node.nodes, ∀ text, s.label.text = some text → text <:+: content

theorem SourceTree.readable (tree : SourceTree content) : Readable content tree.root := by
  intro s hs text htext
  obtain ⟨t, -, rfl⟩ := tree.mem_nodes hs
  rw [label_map] at htext
  rw [← Option.some.inj htext]
  exact (List.drop_suffix _ _).isInfix.trans (List.take_prefix _ _).isInfix

namespace Readable
variable {node : Node}

theorem below (h : Readable content node) {s : Node} (hs : s ∈ node.nodes) : Readable content s :=
  fun r hr => h r (nodes_trans hr hs)

theorem child (h : Readable content node) {c : Node} (hc : c ∈ node.children) : Readable content c :=
  h.below (child_mem_nodes hc)

theorem text (h : Readable content node) {text : Text} (htext : node.label.text = some text) :
    text <:+: content := h node (self_mem_nodes node) text htext

theorem childText (h : Readable content node) {c : Node} (hc : c ∈ node.children) {text : Text}
    (htext : c.label.text = some text) : text <:+: content := (h.child hc).text htext

theorem fieldText (h : Readable content node) {field : Field} {text : Text}
    (htext : fieldText node field = some text) : text <:+: content := by
  obtain ⟨c, hc, hctext⟩ := Option.bind_eq_some_iff.1 htext
  exact h.childText (List.mem_of_find?_eq_some hc) hctext

theorem fieldText_getD (h : Readable content node) (field : Field) :
    (CodeSearch.fieldText node field).getD [] <:+: content := by
  cases htext : CodeSearch.fieldText node field with
  | none => exact List.nil_infix
  | some text => exact h.fieldText htext

theorem firstText {kinds : List Kind} {children : List Node}
    (h : ∀ c ∈ children, Readable content c) {text : Text}
    (htext : firstText kinds children = some text) : text <:+: content := by
  obtain ⟨c, hc, hctext⟩ := List.exists_of_findSome?_eq_some htext
  rw [Option.ite_none_right_eq_some] at hctext
  exact (h c hc).text hctext.2

end Readable

/-- Parts of the content, with `::` between them. -/
def Spliced (content text : Text) : Prop :=
  ∃ parts, text = joinWith "::".toList parts ∧ ∀ part ∈ parts, part <:+: content

theorem spliced_of_isInfix {text : Text} (h : text <:+: content) : Spliced content text :=
  ⟨[text], rfl, fun _ hpart => by rwa [List.mem_singleton.1 hpart]⟩

theorem spliced_nil : Spliced content [] := ⟨[], rfl, nofun⟩

/-- The path that is made of pieces, the first of which is not empty. -/
theorem foldl_pushPath (pieces : List Text) : ∀ path : Text, path ≠ [] →
    pieces.foldl pushPath path = joinWith "::".toList (path :: pieces) := by
  induction pieces with
  | nil => exact fun path _ => rfl
  | cons piece pieces ih =>
    intro path hpath
    have hpush : pushPath path piece = path ++ "::".toList ++ piece := if_neg hpath
    rw [List.foldl_cons, hpush, ih _ (by simp [hpath])]
    rw [joinWith_cons _ path (List.cons_ne_nil _ _)]
    cases pieces with
    | nil => rfl
    | cons next pieces =>
      rw [joinWith_cons _ _ (List.cons_ne_nil _ _), joinWith_cons _ piece (List.cons_ne_nil _ _)]
      simp only [List.append_assoc]

theorem spliced_path {pieces : List Text} (h : ∀ piece ∈ pieces, piece ≠ [] ∧ piece <:+: content) :
    Spliced content (pieces.foldl pushPath []) := by
  cases pieces with
  | nil => exact spliced_nil
  | cons piece pieces =>
    have hpiece := (h piece List.mem_cons_self).1
    rw [List.foldl_cons, pushPath, if_pos rfl, foldl_pushPath pieces piece hpiece]
    exact ⟨_, rfl, fun part hpart => (h part hpart).2⟩

/-- Parts of the content, or one of the words. -/
def Written (content : Text) (words : List Text) (text : Text) : Prop :=
  Spliced content text ∨ text ∈ words

theorem written_of_isInfix {words : List Text} {text : Text} (h : text <:+: content) :
    Written content words text := .inl (spliced_of_isInfix h)

/-! ## Rows of a node -/

section
variable {M β : Type} {line : β → Nat} {texts : β → List Text} {words : List Text}
  {held : M → List Node}

/-- What the rules put out is in the order of the lines, at lines of nodes and made of texts of
the source, whatever tree they walk.  A mode may hold nodes, from which they read texts, too. -/
structure SourcedRows (line : β → Nat) (texts : β → List Text) (words : List Text)
    (held : M → List Node) (rules : Rules NodeInfo M β) : Prop where
  ordered : ∀ mode node, Nested linesOf node → EmitsAt linesOf line node (rules mode node)
  lines : ∀ mode node, ∀ row ∈ (rules mode node).emit,
    ∃ s ∈ node.nodes, line row = s.label.startRow + 1
  holds : ∀ v, ∀ w ∈ targets rules v, ∀ p ∈ held w.1, p ∈ held v.1 ∨ p ∈ v.2.nodes
  texts : ∀ content mode node, (∀ p ∈ held mode, Readable content p) → Readable content node →
    ∀ row ∈ (rules mode node).emit, ∀ text ∈ texts row, Written content words text

/-- Rules that hold no node, with all rows at the line of the node itself. -/
theorem SourcedRows.of_line {rules : Rules NodeInfo Unit β}
    (hline : ∀ mode node, ∀ row ∈ (rules mode node).emit, line row = node.label.startRow + 1)
    (htexts : ∀ content mode node, Readable content node →
      ∀ row ∈ (rules mode node).emit, ∀ text ∈ texts row, Written content words text) :
    SourcedRows line texts words (fun _ => []) rules where
  ordered := fun mode node _ => emitsAt_start (hline mode node)
  lines := fun mode node row hrow => ⟨node, self_mem_nodes node, hline mode node row hrow⟩
  holds := fun _ _ _ => nofun
  texts := fun content mode node _ => htexts content mode node

/-- Rules that put out the rows of a node and go on to its children. -/
theorem SourcedRows.everywhere {rows : Node → List β}
    (hline : ∀ node, ∀ row ∈ rows node, line row = node.label.startRow + 1)
    (htexts : ∀ content node, Readable content node →
      ∀ row ∈ rows node, ∀ text ∈ texts row, Written content words text) :
    SourcedRows line texts words (fun _ => []) (everywhere rows) :=
  .of_line (fun _ => hline) fun content _ => htexts content

/-- The rows of a source: in the order of its lines, each at the line of a node, and of its text,
but for the words. -/
structure RowsFrom (tree : SourceTree content) (line : β → Nat) (texts : β → List Text)
    (words : List Text) (rows : List β) : Prop where
  sorted : rows.Pairwise fun row next => line row ≤ line next
  lines : ∀ row ∈ rows, ∃ node ∈ tree.root.nodes, line row = node.label.startRow + 1
  texts : ∀ row ∈ rows, ∀ text ∈ texts row, Written content words text

theorem SourcedRows.visit {rules : Rules NodeInfo M β}
    (h : SourcedRows line texts words held rules) {mode : M} (hmode : held mode = [])
    (tree : SourceTree content) : RowsFrom tree line texts words (visit rules mode tree.root) where
  sorted := (visit_ordered h.ordered mode tree.nestedLines).sorted
  lines := by
    intro row hrow
    obtain ⟨v, hv, hemit⟩ := mem_visit (v := (mode, tree.root)) hrow
    obtain ⟨s, hs, hline⟩ := h.lines v.1 v.2 row hemit
    exact ⟨s, nodes_trans hs (visits_mem_nodes hv), hline⟩
  texts := by
    intro row hrow
    obtain ⟨v, hv, hemit⟩ := mem_visit (v := (mode, tree.root)) hrow
    refine h.texts content v.1 v.2 (fun p hp => ?_) (tree.readable.below (visits_mem_nodes hv)) row
      hemit
    rcases held_of_visits h.holds hv p hp with hheld | hnode
    · rw [hmode] at hheld
      cases hheld
    · exact tree.readable.below hnode

theorem rowsFrom_nil (tree : SourceTree content) : RowsFrom tree line texts words [] :=
  ⟨.nil, nofun, nofun⟩

end

/-! ## Imports -/

/-- The names of an import. -/
def ImportKind.texts : ImportKind → List Text
  | .named items => items
  | .default name => [name]
  | .namespace name => [name]
  | .sideEffect => []
  | .require name => [name]

/-- The module and the names of an import. -/
def ImportStatement.texts (row : ImportStatement) : List Text := row.source :: row.importKind.texts

theorem mem_importTexts {row : ImportStatement} {text : Text} (h : text ∈ row.texts) :
    text = row.source ∨ text ∈ row.importKind.texts := List.mem_cons.1 h

/-- The words that are no text of the source: what the rows of a Rust file say of an import. -/
def insertedWords : Language → List Text
  | .rust => ["pub_use".toList, "inline".toList, "external".toList]
  | _ => []

/-- The names and the module of an export. -/
def ExportStatement.texts (row : ExportStatement) : List Text :=
  match row.exportKind with
  | .named items => items
  | .default name => [name]
  | .reExport items source => source :: items
  | .reExportAll source => [source]

abbrev SourcedImports (language : Language) (rules : Rules NodeInfo Unit ImportStatement) : Prop :=
  SourcedRows ImportStatement.line ImportStatement.texts (insertedWords language) (fun _ => []) rules

abbrev SourcedExports (rules : Rules NodeInfo Unit ExportStatement) : Prop :=
  SourcedRows ExportStatement.line ExportStatement.texts [] (fun _ => []) rules

/-- The texts that are added to a path, of a node that can be read. -/
theorem mem_usePieces {child : Node} (h : Readable content child) :
    ∀ piece ∈ usePieces child, piece ≠ [] ∧ piece <:+: content := by
  have hplain : ∀ piece ∈ child.label.text.toList.filter
      (fun text => text ∉ [[], "use".toList, "pub".toList]), piece ≠ [] ∧ piece <:+: content := by
    intro piece hpiece
    obtain ⟨htext, hkept⟩ := List.mem_filter.1 hpiece
    refine ⟨?_, h.text (Option.mem_toList.1 htext)⟩
    rintro rfl
    simp at hkept
  intro piece hpiece
  unfold usePieces at hpiece
  split at hpiece
  · exact hplain piece hpiece
  · exact hplain piece hpiece
  · exact hplain piece hpiece
  · obtain ⟨htext, hkept⟩ := List.mem_filter.1 hpiece
    obtain ⟨part, hpart, hparttext⟩ := List.mem_filterMap.1 htext
    refine ⟨?_, h.childText hpart hparttext⟩
    rintro rfl
    simp at hkept
  · cases hpiece

theorem parseRustUse_eq_some {node : Node} {row : ImportStatement} (h : parseRustUse node = some row) :
    row.source = useTreeText node ∧ row.line = node.label.startRow + 1 ∧
      ∀ name ∈ row.importKind.texts, name = [] ∨ name = "pub_use".toList := by
  unfold parseRustUse at h
  dsimp only at h
  rw [Option.ite_none_left_eq_some] at h
  obtain ⟨-, h⟩ := h
  split at h
  · rw [← Option.some.inj h]
    exact ⟨rfl, rfl, fun name hname => .inr (List.mem_singleton.1 hname)⟩
  · rw [← Option.some.inj h]
    exact ⟨rfl, rfl, fun name hname => .inl (List.mem_singleton.1 hname)⟩

theorem parseRustMod_eq_some {node : Node} {row : ImportStatement} (h : parseRustMod node = some row) :
    (∃ child ∈ node.children, child.label.text = some row.source) ∧
      row.line = node.label.startRow + 1 ∧
      ∀ name ∈ row.importKind.texts, name = "inline".toList ∨ name = "external".toList := by
  unfold parseRustMod at h
  dsimp only at h
  rw [Option.ite_none_left_eq_some] at h
  obtain ⟨hname, h⟩ := h
  have hrow : row.source = ((node.children.filterMap fun child =>
      if child.label.kind = .identifier then child.label.text else none).getLast?).getD [] ∧
      row.line = node.label.startRow + 1 ∧
      ∀ name ∈ row.importKind.texts, name = "inline".toList ∨ name = "external".toList := by
    split at h
    · rw [← Option.some.inj h]
      exact ⟨rfl, rfl, fun name hname => .inl (List.mem_singleton.1 hname)⟩
    · rw [← Option.some.inj h]
      exact ⟨rfl, rfl, fun name hname => .inr (List.mem_singleton.1 hname)⟩
  refine ⟨?_, hrow.2⟩
  rw [hrow.1]
  cases hlast : (node.children.filterMap fun child =>
      if child.label.kind = .identifier then child.label.text else none).getLast? with
  | none =>
    rw [hlast] at hname
    exact absurd rfl hname
  | some name =>
    obtain ⟨child, hchild, htext⟩ := List.mem_filterMap.1 (List.mem_of_getLast? hlast)
    rw [Option.ite_none_right_eq_some] at htext
    exact ⟨child, hchild, htext.2⟩

theorem sourced_rust : SourcedImports .rust extractRustImports := by
  refine .of_line (fun mode node row hrow => ?_) fun content mode node hread row hrow text htext => ?_
  · unfold extractRustImports at hrow
    split at hrow
    · exact (parseRustUse_eq_some (Option.mem_toList.1 hrow)).2.1
    · exact (parseRustMod_eq_some (Option.mem_toList.1 hrow)).2.1
    · cases hrow
  · unfold extractRustImports at hrow
    split at hrow
    · obtain ⟨hsource, -, hnames⟩ := parseRustUse_eq_some (Option.mem_toList.1 hrow)
      rcases mem_importTexts htext with rfl | hname
      · rw [hsource]
        refine .inl (spliced_path fun piece hpiece => ?_)
        obtain ⟨child, hchild, hpiece⟩ := List.mem_flatMap.1 hpiece
        exact mem_usePieces (hread.child hchild) piece hpiece
      · rcases hnames text hname with rfl | rfl
        · exact .inl spliced_nil
        · exact .inr (.head _)
    · obtain ⟨⟨child, hchild, hsource⟩, -, hnames⟩ := parseRustMod_eq_some (Option.mem_toList.1 hrow)
      rcases mem_importTexts htext with rfl | hname
      · exact written_of_isInfix (hread.childText hchild hsource)
      · rcases hnames text hname with rfl | rfl
        · exact .inr (.tail _ (.head _))
        · exact .inr (.tail _ (.tail _ (.head _)))
    · cases hrow

/-- The names that were found in a clause. -/
def ClauseState.texts (st : ClauseState) : List Text :=
  st.namespaceName :: st.defaultName :: st.namedImports

theorem namespaceStep_texts {st : ClauseState} (hst : ∀ text ∈ st.texts, text <:+: content)
    {child : Node} (hread : Readable content child) :
    ∀ text ∈ (namespaceStep st child).texts, text <:+: content := by
  unfold namespaceStep
  split
  · next name _ hname =>
    intro text htext
    rcases List.mem_cons.1 htext with rfl | hother
    · exact hread.text hname
    · exact hst text (.tail _ hother)
  · exact hst

theorem clauseStep_texts {st : ClauseState} (hst : ∀ text ∈ st.texts, text <:+: content)
    {child : Node} (hread : Readable content child) :
    ∀ text ∈ (clauseStep st child).texts, text <:+: content := by
  unfold clauseStep
  split
  · next name _ hname =>
    split
    · intro text htext
      rcases List.mem_cons.1 htext with rfl | hother
      · exact hst _ (.head _)
      rcases List.mem_cons.1 hother with rfl | hnamed
      · exact hread.text hname
      · exact hst text (.tail _ (.tail _ hnamed))
    · exact hst
  · exact List.foldlRecOn (motive := fun st => ∀ text ∈ st.texts, text <:+: content)
      child.children namespaceStep hst
      fun _ hst' c hc => namespaceStep_texts hst' (hread.child hc)
  · intro text htext
    rcases List.mem_cons.1 htext with rfl | hother
    · exact hst _ (.head _)
    rcases List.mem_cons.1 hother with rfl | hnamed
    · exact hst _ (.tail _ (.head _))
    rcases List.mem_append.1 hnamed with hbefore | hnew
    · exact hst text (.tail _ (.tail _ hbefore))
    · obtain ⟨named, hmem, hname⟩ := List.mem_flatMap.1 hnew
      split at hname
      · obtain ⟨identifier, hidentifier, htext⟩ := List.mem_filterMap.1 (List.mem_filter.1 hname).1
        rw [Option.ite_none_right_eq_some] at htext
        exact ((hread.child hmem).child hidentifier).text htext.2
      · cases hname
  · exact hst

/-- The row of a clause is of the source and of names in the clause. -/
theorem importClause_texts {clause : Node} (hread : Readable content clause) {source : Text}
    (hsource : source <:+: content) :
    ∀ text ∈ (parseTypescriptImportClauseWithSource clause source).texts, text <:+: content := by
  have hnames : ∀ text ∈ (clause.children.foldl clauseStep ⟨false, false, false, [], [], []⟩).texts,
      text <:+: content := by
    refine List.foldlRecOn (motive := fun st => ∀ text ∈ st.texts, text <:+: content)
      clause.children clauseStep (fun text htext => ?_)
      fun _ hst c hc => clauseStep_texts hst (hread.child hc)
    have hnil : text = [] := by simpa [ClauseState.texts] using htext
    rw [hnil]
    exact List.nil_infix
  intro text htext
  rcases mem_importTexts htext with rfl | hname
  · rw [source_importClause]
    exact hsource
  · unfold parseTypescriptImportClauseWithSource at hname
    dsimp only at hname
    split at hname
    · rw [List.mem_singleton.1 hname]
      exact hnames _ (.head _)
    · split at hname
      · rw [List.mem_singleton.1 hname]
        exact hnames _ (.tail _ (.head _))
      · split at hname
        · exact hnames text (.tail _ (.tail _ hname))
        · cases hname

theorem line_importClause (clause : Node) (source : Text) :
    (parseTypescriptImportClauseWithSource clause source).line = clause.label.startRow + 1 := by
  unfold parseTypescriptImportClauseWithSource
  dsimp only
  split
  · rfl
  · split
    · rfl
    · split <;> rfl

/-- The row of an `import` is at the line of the node or of its clause. -/
theorem typescriptImport_line {node : Node} {row : ImportStatement}
    (h : typescriptImport node = some row) :
    ∃ s, (s = node ∨ s ∈ node.children) ∧ row.line = s.label.startRow + 1 := by
  obtain ⟨literal, -, rfl⟩ := Option.map_eq_some_iff.1 h
  split
  · next clause hclause =>
    exact ⟨clause, .inr (List.mem_of_find?_eq_some hclause), line_importClause clause _⟩
  · exact ⟨node, .inl rfl, rfl⟩

theorem typescriptImport_texts {node : Node} (hread : Readable content node) {row : ImportStatement}
    (h : typescriptImport node = some row) : ∀ text ∈ row.texts, text <:+: content := by
  obtain ⟨literal, hliteral, rfl⟩ := Option.map_eq_some_iff.1 h
  obtain ⟨string, hstring, htext⟩ := Option.bind_eq_some_iff.1 hliteral
  have hsource : trimQuotes literal <:+: content :=
    (trimBoth_isInfix isQuote literal).trans
      (hread.childText (List.mem_of_find?_eq_some hstring) htext)
  split
  · next clause hclause =>
    exact importClause_texts (hread.child (List.mem_of_find?_eq_some hclause)) hsource
  · intro text htext
    rw [List.mem_singleton.1 htext]
    exact hsource

/-- The name of the variable is read at the parent, the module at the node. -/
theorem parseTypescriptRequire_row {parent : Option Node} {node : Node} {row : ImportStatement}
    (h : parseTypescriptRequire parent node = some row) :
    row.line = node.label.startRow + 1 ∧
      ((∀ p ∈ parent, Readable content p) → Readable content node →
        ∀ text ∈ row.texts, text <:+: content) := by
  unfold parseTypescriptRequire at h
  rw [Option.ite_none_right_eq_some] at h
  obtain ⟨path, hpath, rfl⟩ := Option.map_eq_some_iff.1 h.2
  refine ⟨rfl, fun hparent hread text htext => ?_⟩
  rcases mem_importTexts htext with rfl | hname
  · obtain ⟨arguments, harguments, hfirst⟩ := List.exists_of_findSome?_eq_some hpath
    rw [Option.ite_none_right_eq_some] at hfirst
    obtain ⟨first, hhead, hfirstText⟩ := Option.bind_eq_some_iff.1 hfirst.2
    exact (trimBoth_isInfix isQuote path).trans
      ((hread.child harguments).childText (List.mem_of_head? hhead) hfirstText)
  · rw [List.mem_singleton.1 hname]
    show requireVariable parent <:+: content
    unfold requireVariable
    cases hvariable : parent.bind fun p =>
        if p.label.kind = .variableDeclarator then fieldText p .name else none with
    | none => exact List.nil_infix
    | some name =>
      obtain ⟨p, hp, htext⟩ := Option.bind_eq_some_iff.1 hvariable
      rw [Option.ite_none_right_eq_some] at htext
      exact (hparent p hp).fieldText htext.2

/-- A node gives the row of an `import` or of a call and the walk stops there, or it gives none. -/
theorem extractTypescriptImports_cases (parent : Option Node) (node : Node) :
    (∃ row, extractTypescriptImports parent node = ⟨[row], .stop⟩ ∧
      (typescriptImport node = some row ∨ parseTypescriptRequire parent node = some row)) ∨
    (extractTypescriptImports parent node).emit = [] ∧
      ((extractTypescriptImports parent node).next = .stop ∨
        (extractTypescriptImports parent node).next = .children (some node)) := by
  unfold extractTypescriptImports
  split
  · cases himport : typescriptImport node with
    | some row => exact .inl ⟨row, rfl, .inl rfl⟩
    | none => exact .inr ⟨rfl, .inl rfl⟩
  · cases hrequire : parseTypescriptRequire parent node with
    | some row => exact .inl ⟨row, rfl, .inr rfl⟩
    | none => exact .inr ⟨rfl, .inr rfl⟩
  · exact .inr ⟨rfl, .inr rfl⟩

theorem typescript_line {parent : Option Node} {node : Node} {row : ImportStatement}
    (h : typescriptImport node = some row ∨ parseTypescriptRequire parent node = some row) :
    ∃ s, (s = node ∨ s ∈ node.children) ∧ row.line = s.label.startRow + 1 := by
  rcases h with himport | hrequire
  · exact typescriptImport_line himport
  · exact ⟨node, .inl rfl, (@parseTypescriptRequire_row [] _ _ _ hrequire).1⟩

theorem sourced_typescript : SourcedRows ImportStatement.line ImportStatement.texts
    (insertedWords .typeScript) Option.toList extractTypescriptImports where
  ordered := by
    intro parent node hnested
    rcases extractTypescriptImports_cases parent node with ⟨row, hrule, hrow⟩ | ⟨hnone, -⟩
    · obtain ⟨s, hs, hline⟩ := typescript_line hrow
      rw [hrule]
      refine ⟨⟨List.pairwise_singleton _ _, fun row' hrow' => ?_⟩, .inl rfl⟩
      rw [List.mem_singleton.1 hrow', hline]
      rcases hs with rfl | hchild
      · exact ⟨Nat.le_refl _, (linesOf s.label).le⟩
      · have hwithin := hnested.child_within s hchild
        exact ⟨hwithin.1, Nat.le_trans (linesOf s.label).le hwithin.2⟩
    · refine emitsAt_start fun row hrow => ?_
      rw [hnone] at hrow
      cases hrow
  lines := by
    intro parent node row hemit
    rcases extractTypescriptImports_cases parent node with ⟨row', hrule, hrow⟩ | ⟨hnone, -⟩
    · rw [hrule] at hemit
      cases List.mem_singleton.1 hemit
      obtain ⟨s, hs, hline⟩ := typescript_line hrow
      rcases hs with rfl | hchild
      · exact ⟨s, self_mem_nodes s, hline⟩
      · exact ⟨s, child_mem_nodes hchild, hline⟩
    · rw [hnone] at hemit
      cases hemit
  holds := by
    rintro ⟨parent, node⟩ w hw p hp
    unfold targets at hw
    have hnext : (extractTypescriptImports parent node).next = .stop ∨
        (extractTypescriptImports parent node).next = .children (some node) := by
      rcases extractTypescriptImports_cases parent node with ⟨row, hrule, -⟩ | ⟨-, hnext⟩
      · exact .inl (by rw [hrule])
      · exact hnext
    dsimp only at hw
    rcases hnext with hstop | hchildren
    · rw [hstop] at hw
      cases hw
    · rw [hchildren] at hw
      obtain ⟨child, -, rfl⟩ := List.mem_map.1 hw
      rw [List.mem_singleton.1 hp]
      exact .inr (self_mem_nodes node)
  texts := by
    intro content parent node hparent hread row hemit text htext
    rcases extractTypescriptImports_cases parent node with ⟨row', hrule, hrow⟩ | ⟨hnone, -⟩
    · rw [hrule] at hemit
      cases List.mem_singleton.1 hemit
      rcases hrow with himport | hrequire
      · exact written_of_isInfix (typescriptImport_texts hread himport text htext)
      · exact written_of_isInfix ((parseTypescriptRequire_row hrequire).2
          (fun p hp => hparent p (Option.mem_toList.2 hp)) hread text htext)
    · rw [hnone] at hemit
      cases hemit

theorem pythonImport_line {line : Nat} {child : Node} {row : ImportStatement}
    (h : pythonImport line child = some row) : row.line = line := by
  unfold pythonImport at h
  split at h
  · obtain ⟨text, -, rfl⟩ := Option.map_eq_some_iff.1 h
    rfl
  · rw [Option.ite_none_right_eq_some] at h
    obtain ⟨text, -, rfl⟩ := Option.map_eq_some_iff.1 h.2
    rfl

theorem pythonImport_texts {line : Nat} {child : Node} (hread : Readable content child)
    {row : ImportStatement} (h : pythonImport line child = some row) :
    ∀ text ∈ row.texts, text <:+: content := by
  unfold pythonImport at h
  split at h
  · obtain ⟨source, hsource, rfl⟩ := Option.map_eq_some_iff.1 h
    intro text htext
    rw [List.mem_singleton.1 htext]
    exact hread.text hsource
  · rw [Option.ite_none_right_eq_some] at h
    obtain ⟨source, hsource, rfl⟩ := Option.map_eq_some_iff.1 h.2
    intro text htext
    rcases mem_importTexts htext with rfl | hname
    · exact hread.fieldText hsource
    · rw [List.mem_singleton.1 hname]
      exact hread.fieldText_getD aliasField

theorem pythonImportFrom_texts {node : Node} (hread : Readable content node) :
    ∀ text ∈ (pythonImportFrom node).texts, text <:+: content := by
  intro text htext
  rcases mem_importTexts htext with rfl | hname
  · exact hread.fieldText_getD moduleNameField
  · unfold pythonImportFrom at hname
    dsimp only at hname
    split at hname
    · cases hname
    · obtain ⟨child, hchild, htext⟩ := List.mem_filterMap.1 hname
      have hmem : child ∈ node.children := List.eraseP_subset hchild
      unfold importedName at htext
      split at htext
      · exact hread.childText hmem htext
      · rw [Option.ite_none_right_eq_some] at htext
        exact (hread.child hmem).fieldText htext.2

theorem sourced_python : SourcedImports .python extractPythonImports := by
  refine .of_line (fun mode node row hrow => ?_) fun content mode node hread row hrow text htext => ?_
  · unfold extractPythonImports at hrow
    split at hrow
    · obtain ⟨child, -, hchild⟩ := List.mem_filterMap.1 hrow
      exact pythonImport_line hchild
    · split at hrow
      · rw [List.mem_singleton.1 hrow]
        rfl
      · cases hrow
  · unfold extractPythonImports at hrow
    split at hrow
    · obtain ⟨child, hchild, hrow⟩ := List.mem_filterMap.1 hrow
      exact written_of_isInfix (pythonImport_texts (hread.child hchild) hrow text htext)
    · split at hrow
      · cases List.mem_singleton.1 hrow
        exact written_of_isInfix (pythonImportFrom_texts hread text htext)
      · cases hrow

theorem goImport_texts {node : Node} (hread : Readable content node) {row : ImportStatement}
    (h : goImport node = some row) : ∀ text ∈ row.texts, text <:+: content := by
  obtain ⟨path, hpath, rfl⟩ := Option.map_eq_some_iff.1 h
  intro text htext
  rcases mem_importTexts htext with rfl | hname
  · exact (trimBoth_isInfix _ path).trans (hread.fieldText hpath)
  · cases halias : fieldText node .name with
    | none =>
      rw [halias] at hname
      cases hname
    | some name =>
      rw [halias] at hname
      rw [List.mem_singleton.1 hname]
      exact hread.fieldText halias

theorem sourced_go : SourcedImports .go extractGoImports := by
  refine .of_line (fun mode node row hrow => ?_) fun content mode node hread row hrow text htext => ?_
  · unfold extractGoImports at hrow
    split at hrow
    · obtain ⟨path, -, rfl⟩ := Option.map_eq_some_iff.1 (Option.mem_toList.1 hrow)
      rfl
    · cases hrow
  · unfold extractGoImports at hrow
    split at hrow
    · exact written_of_isInfix (goImport_texts hread (Option.mem_toList.1 hrow) text htext)
    · cases hrow

/-- Rows made of one text that is read at the node. -/
theorem sourced_text {language : Language} {rows : Node → List ImportStatement}
    (find : Node → Option Text)
    (hrows : ∀ node, ∀ row ∈ rows node,
      row.line = node.label.startRow + 1 ∧ ∀ text ∈ row.texts, find node = some text)
    (hfind : ∀ content node, Readable content node → ∀ text, find node = some text →
      text <:+: content) : SourcedImports language (everywhere rows) := by
  refine .everywhere (fun node row hrow => (hrows node row hrow).1) ?_
  intro content node hread row hrow text htext
  exact written_of_isInfix (hfind content node hread text ((hrows node row hrow).2 text htext))

/-- A row whose only name is its module. -/
theorem forall_mem_texts {row : ImportStatement} {found : Option Text}
    (hsource : row.source ∈ found.toList) (hnames : row.importKind.texts = [row.source]) :
    ∀ text ∈ row.texts, found = some text := by
  intro text htext
  unfold ImportStatement.texts at htext
  rw [hnames] at htext
  have heq : text = row.source := by simpa using htext
  rw [heq]
  exact Option.mem_toList.1 hsource

theorem sourced_bash : SourcedImports .bash extractBashImports := by
  refine sourced_text (fun node => firstText argumentKinds (commandParts node)) ?_ ?_
  · intro node row hrow
    unfold bashImports at hrow
    dsimp only at hrow
    split at hrow
    · obtain ⟨text, htext, rfl⟩ := List.mem_map.1 hrow
      exact ⟨rfl, forall_mem_texts htext rfl⟩
    · cases hrow
  · intro content node hread text htext
    refine Readable.firstText (fun child hchild => hread.child ?_) htext
    exact (List.dropWhile_suffix _).subset hchild

theorem sourced_java : SourcedImports .java extractJavaImports := by
  refine sourced_text (fun node => firstText importPathKinds node.children) ?_
    fun content node hread text htext => Readable.firstText (fun _ => hread.child) htext
  intro node row hrow
  unfold javaImports at hrow
  split at hrow
  · obtain ⟨text, htext, rfl⟩ := List.mem_map.1 hrow
    exact ⟨rfl, forall_mem_texts htext rfl⟩
  · cases hrow

theorem sourced_c {language : Language} : SourcedImports language extractCImports := by
  refine sourced_text (fun node => firstText includeKinds node.children) ?_
    fun content node hread text htext => Readable.firstText (fun _ => hread.child) htext
  intro node row hrow
  unfold cImports at hrow
  split at hrow
  · obtain ⟨text, htext, rfl⟩ := List.mem_map.1 hrow
    exact ⟨rfl, forall_mem_texts htext rfl⟩
  · cases hrow

theorem sourced_ruby : SourcedImports .ruby extractRubyImports := by
  refine sourced_text callArgument ?_ ?_
  · intro node row hrow
    unfold rubyImports at hrow
    dsimp only at hrow
    split at hrow
    · obtain ⟨text, htext, rfl⟩ := List.mem_map.1 hrow
      exact ⟨rfl, forall_mem_texts htext rfl⟩
    · cases hrow
  · intro content node hread text htext
    obtain ⟨arguments, harguments, htext⟩ := Option.bind_eq_some_iff.1 htext
    obtain ⟨literal, hliteral, rfl⟩ := Option.map_eq_some_iff.1 htext
    have hchild := (List.dropWhile_suffix _).subset (List.mem_of_find?_eq_some harguments)
    refine (trimBoth_isInfix isQuote literal).trans (Readable.firstText (fun c hc => ?_) hliteral)
    exact (hread.child hchild).child hc

/-! ## Exports -/

/-- A row of a `pub use` is at its line and of its path. -/
theorem rustExport_row {mode : Unit} {node : Node} {row : ExportStatement}
    (h : row ∈ (extractRustExports mode node).emit) : row.line = node.label.startRow + 1 ∧
      row.texts = [(node.children.flatMap exportPieces).foldl pushPath []] := by
  unfold extractRustExports at h
  split at h
  · dsimp only at h
    split at h
    · have hsome := Option.mem_toList.1 h
      unfold parseRustExport at hsome
      dsimp only at hsome
      rw [Option.ite_none_left_eq_some] at hsome
      rw [← Option.some.inj hsome.2]
      exact ⟨rfl, rfl⟩
    · cases h
  · cases h

theorem sourced_rustExports : SourcedExports extractRustExports := by
  refine .of_line (fun mode node row hrow => (rustExport_row hrow).1) ?_
  intro content mode node hread row hrow text htext
  rw [(rustExport_row hrow).2] at htext
  rw [List.mem_singleton.1 htext]
  refine .inl (spliced_path fun piece hpiece => ?_)
  obtain ⟨child, hchild, hpiece⟩ := List.mem_flatMap.1 hpiece
  rw [exportPieces_eq] at hpiece
  split at hpiece
  · cases hpiece
  · exact mem_usePieces (hread.child hchild) piece hpiece

theorem listedName_isInfix {child : Node} (h : Readable content child) {name : Text}
    (hname : listedName child = some name) : name <:+: content := by
  obtain ⟨text, htext, hlisted⟩ := Option.bind_eq_some_iff.1 hname
  dsimp only at hlisted
  rw [Option.ite_none_left_eq_some] at hlisted
  rw [← Option.some.inj hlisted.2]
  exact (trim_isInfix text).trans (h.text htext)

theorem defaultTarget_isInfix {declaration : Node} (h : Readable content declaration) {target : Text}
    (htarget : defaultTarget declaration = some target) : target <:+: content := by
  obtain ⟨text, htext, hname⟩ := Option.bind_eq_some_iff.1 htarget
  dsimp only at hname
  split at hname
  · next name hfound =>
    have hchild : name ∈ declaration.children := by
      split at hfound
      · exact List.mem_of_find?_eq_some hfound
      · exact List.mem_of_find?_eq_some hfound
      · cases hfound
    exact h.childText hchild hname
  · rw [← Option.some.inj hname]
    exact h.text htext

theorem parseTypescriptExport_line {node : Node} {row : ExportStatement}
    (h : parseTypescriptExport node = some row) : row.line = node.label.startRow + 1 := by
  unfold parseTypescriptExport at h
  dsimp only at h
  split at h
  · split at h
    · rw [← Option.some.inj h]
    · rw [← Option.some.inj h]
  · split at h
    · obtain ⟨target, -, rfl⟩ := Option.map_eq_some_iff.1 h
      rfl
    · rw [Option.ite_none_left_eq_some] at h
      rw [← Option.some.inj h.2]

theorem mem_of_lastChild {node child : Node} {kinds : List Kind}
    (h : lastChild node kinds = some child) : child ∈ node.children :=
  (List.mem_filter.1 (List.mem_of_getLast? h)).1

theorem specifiers_isInfix {node : Node} (hread : Readable content node) :
    ∀ item ∈ (specifierNode node).elim [] fun specifier => specifier.children.filterMap listedName,
      item <:+: content := by
  intro item hitem
  cases hspecifier : specifierNode node with
  | none =>
    rw [hspecifier] at hitem
    cases hitem
  | some specifier =>
    rw [hspecifier] at hitem
    obtain ⟨child, hchild, hlisted⟩ := List.mem_filterMap.1 hitem
    exact listedName_isInfix ((hread.child (mem_of_lastChild hspecifier)).child hchild) hlisted

theorem moduleSource_isInfix {node : Node} (hread : Readable content node) :
    (sourceLiteral node).elim [] trimQuotes <:+: content := by
  cases hliteral : sourceLiteral node with
  | none => exact List.nil_infix
  | some literal =>
    obtain ⟨child, hchild, htext⟩ := List.mem_filterMap.1 (List.mem_of_getLast? hliteral)
    rw [Option.ite_none_right_eq_some] at htext
    exact (trimBoth_isInfix isQuote literal).trans (hread.childText hchild htext.2)

/-- The texts that the row of an export statement is made of. -/
theorem parseTypescriptExport_texts {node : Node} (hread : Readable content node)
    {row : ExportStatement} (h : parseTypescriptExport node = some row) :
    ∀ text ∈ row.texts, text <:+: content := by
  unfold parseTypescriptExport at h
  dsimp only at h
  split at h
  · split at h
    · cases h
      intro text htext
      rw [List.mem_singleton.1 htext]
      exact moduleSource_isInfix hread
    · cases h
      intro text htext
      rcases List.mem_cons.1 htext with rfl | hitem
      · exact moduleSource_isInfix hread
      · exact specifiers_isInfix hread text hitem
  · split at h
    · next declaration hdeclaration =>
      obtain ⟨target, htarget, rfl⟩ := Option.map_eq_some_iff.1 h
      intro text htext
      rw [List.mem_singleton.1 htext]
      exact defaultTarget_isInfix (hread.child (mem_of_lastChild hdeclaration)) htarget
    · rw [Option.ite_none_left_eq_some] at h
      rw [← Option.some.inj h.2]
      exact specifiers_isInfix hread

theorem sourced_typescriptExports : SourcedExports extractTypescriptExports := by
  refine .of_line (fun mode node row hrow => ?_) fun content mode node hread row hrow text htext => ?_
  · unfold extractTypescriptExports at hrow
    split at hrow
    · exact parseTypescriptExport_line (Option.mem_toList.1 hrow)
    · cases hrow
  · unfold extractTypescriptExports at hrow
    split at hrow
    · exact written_of_isInfix
        (parseTypescriptExport_texts hread (Option.mem_toList.1 hrow) text htext)
    · cases hrow

theorem sourced_bashExports : SourcedExports extractBashExports := by
  refine .of_line (fun mode node row hrow => ?_) fun content mode node hread row hrow text htext => ?_
  · unfold extractBashExports at hrow
    dsimp only at hrow
    split at hrow
    · obtain ⟨name, -, rfl⟩ := List.mem_map.1 hrow
      rfl
    · cases hrow
  · unfold extractBashExports at hrow
    dsimp only at hrow
    split at hrow
    · obtain ⟨name, hname, rfl⟩ := List.mem_map.1 hrow
      obtain ⟨child, hchild, hname⟩ := List.mem_filterMap.1 hname
      rw [List.mem_singleton.1 htext]
      unfold bashExportName at hname
      split at hname
      · exact written_of_isInfix (hread.childText hchild hname)
      · exact written_of_isInfix ((hread.child hchild).fieldText hname)
      · cases hname
    · cases hrow

/-! ## All languages -/

/-- The rows of every source are in the order of its lines, at lines of nodes, and made of its
text, but for the words that mark a Rust import. -/
theorem rows_from_source (language : Language) (tree : SourceTree content) :
    RowsFrom tree ImportStatement.line ImportStatement.texts (insertedWords language)
      (importsOfTree language tree.root) ∧
    RowsFrom tree ExportStatement.line ExportStatement.texts []
      (exportsOfTree language tree.root) := by
  cases language with
  | typeScript =>
    exact ⟨sourced_typescript.visit rfl tree, sourced_typescriptExports.visit rfl tree⟩
  | rust => exact ⟨sourced_rust.visit rfl tree, sourced_rustExports.visit rfl tree⟩
  | python => exact ⟨sourced_python.visit rfl tree, rowsFrom_nil tree⟩
  | go => exact ⟨sourced_go.visit rfl tree, rowsFrom_nil tree⟩
  | bash => exact ⟨sourced_bash.visit rfl tree, sourced_bashExports.visit rfl tree⟩
  | java => exact ⟨sourced_java.visit rfl tree, rowsFrom_nil tree⟩
  | c => exact ⟨sourced_c.visit rfl tree, rowsFrom_nil tree⟩
  | ruby => exact ⟨sourced_ruby.visit rfl tree, rowsFrom_nil tree⟩
  | cpp => exact ⟨sourced_c.visit rfl tree, rowsFrom_nil tree⟩

/-! ## Symbols -/

/-- The signature is at the start of the token, and of words of it. -/
structure SignedBy (content : Text) (t : RoseTree Token) (sig : FunctionSignature) : Prop where
  line : sig.line = rowAt content t.label.place.start + 1
  column : sig.column = columnAt content t.label.place.start
  name : sig.name <:+: slice content t.label.place.start t.label.place.stop ∨
    sig.name = "__call".toList
  parameters : ∀ p ∈ sig.parameters,
    (p.name <:+: slice content t.label.place.start t.label.place.stop ∨ p.name ∈ placeholders) ∧
      ∀ type ∈ p.typeAnnotation, type <:+: slice content t.label.place.start t.label.place.stop
  returnType : ∀ type ∈ sig.returnType,
    type <:+: slice content t.label.place.start t.label.place.stop

theorem slice_isInfix {content : Text} {i j i' j' : Nat} (hi : i ≤ i') (hj : j' ≤ j) :
    slice content i' j' <:+: slice content i j := by
  unfold slice
  have htake : content.take j' <+: content.take j := List.take_prefix_take_left hj
  have hdrop : (content.take j').drop i' <:+ (content.take j').drop i := List.drop_suffix_drop_left _ hi
  exact hdrop.isInfix.trans (htake.drop i).isInfix

/-- Texts of a token's node are parts of the token. -/
theorem infix_of_textOf {t : RoseTree Token} (ht : Nested Token.place t) {text : Text}
    (h : TextOf (t.map (Token.info content)) text) :
    text <:+: slice content t.label.place.start t.label.place.stop := by
  obtain ⟨node, hnode, own, hown, htext⟩ := h
  rw [nodes_map] at hnode
  obtain ⟨s, hs, rfl⟩ := List.mem_map.1 hnode
  rw [label_map] at hown
  rw [← Option.some.inj hown] at htext
  obtain ⟨hstart, hstop⟩ := ht.within s hs
  exact htext.trans (slice_isInfix hstart hstop)

theorem signedBy_of_signs {t : RoseTree Token} (ht : Nested Token.place t) {sig : FunctionSignature}
    (h : Signs (t.map (Token.info content)) sig) : SignedBy content t sig where
  line := by
    rw [h.line, label_map]
    rfl
  column := by
    rw [h.column, label_map]
    rfl
  name := h.name.imp_left (infix_of_textOf ht)
  parameters := fun p hp => ⟨(h.parameters p hp).name.imp_left (infix_of_textOf ht),
    fun type htype => infix_of_textOf ht ((h.parameters p hp).type type htype)⟩
  returnType := fun type htype => infix_of_textOf ht (h.returnType type htype)

/-- In both extraction paths, the symbols of a source are in the order of its lines, and each is
of the words of one declaration, at its place. -/
theorem symbols_from_source (language : Language) (tree : SourceTree content) :
    ((pushedOf language tree.root).map Pushed.signature).Pairwise (fun sig next =>
      sig.line ≤ next.line) ∧
    (∀ sig ∈ (pushedOf language tree.root).map Pushed.signature,
      ∃ t ∈ tree.tokens.nodes, SignedBy content t sig) ∧
    (spansOfTree language tree.root).Pairwise (fun span next => span.2.2.1 ≤ next.2.2.1) ∧
    ∀ span ∈ spansOfTree language tree.root,
      ∃ t, Declares tree t span ∧ SignedBy content t span.1 := by
  have hpushed : OrderedIn (linesOf tree.root.label) (fun pushed : Pushed => pushed.signature.line)
      (pushedOf language tree.root) :=
    walk_ordered (fun mode s hs => (putsOut_functionRules language mode s).emitsAt
      (fun _ _ hfor => hfor.line) hs) .items tree.nestedLines
  have hspans : OrderedIn (linesOf tree.root.label) (fun span : SymbolSpan => span.2.2.1)
      (spansOfTree language tree.root) :=
    walk_ordered (fun mode s hs => (putsOut_spanRules language mode s).emitsAt
      (fun _ _ hof => hof.start) hs) .items tree.nestedLines
  refine ⟨List.pairwise_map.2 hpushed.sorted, ?_, hspans.sorted, ?_⟩
  · rw [List.forall_mem_map]
    intro pushed hmem
    obtain ⟨mode, node, hnode, hemit⟩ := mem_walk hmem
    obtain ⟨s, hs, hof⟩ := (putsOut_functionRules language mode node).below pushed hemit
    obtain ⟨t, ht, rfl⟩ := tree.mem_nodes (nodes_trans hs hnode)
    exact ⟨t, ht, signedBy_of_signs (tree.nested.of_mem ht) hof⟩
  · intro span hspan
    obtain ⟨t, ht⟩ := exists_declares tree span hspan
    exact ⟨t, ht, signedBy_of_signs (tree.nested.of_mem ht.1) ht.2.signature⟩

end CodeSearch
