import CodeSearch.Lib.Returns
import CodeSearch.Rebuild

/-!
# The shape of a database

`Grows c c'` says that no table, column or composite key is taken away from `c`,
`SameData c c'` that no row is: a legacy `files` row counts as its current form
with the placeholder, so recreating the table keeps the rows.  Every schema
statement moves the database along both.
-/

namespace CodeSearch

open Relational Store

/-! ## Rows and shape of a database -/

/-- The rows of `files` in the current form. -/
def FilesTable.asCurrent : FilesTable → List FileRow
  | .legacy l => l.rows.map fun r => { r with repoId := migrationPlaceholderRepoId }
  | .current t => t.rows

def Db.chunkRows (c : Db) : List ChunkRow := (c.chunks.map (·.table.rows)).getD []
def Db.vecRows (c : Db) : List VecRow := (c.chunksVec.map (·.table.rows)).getD []
def Db.ftsRows (c : Db) : List FtsRow := (c.chunksFts.map (·.rows)).getD []
def Db.symbolRows (c : Db) : List SymbolRow := (c.symbols.map (·.rows)).getD []
def Db.fileEntries (c : Db) : List FileRow := (c.files.map FilesTable.asCurrent).getD []
def Db.metaRows (c : Db) : List MetaRow := (c.metaTable.map (·.rows)).getD []

/-- The meta rows other than the schema stamp. -/
def Db.otherMeta (c : Db) : List MetaRow := c.metaRows.filter fun r => r.key ≠ metaSchemaVersion

/-- No row of any table is lost, added or changed, the schema stamp apart. -/
structure SameData (c c' : Db) : Prop where
  chunks : c'.chunkRows = c.chunkRows
  vec : c'.vecRows = c.vecRows
  fts : c'.ftsRows = c.ftsRows
  symbols : c'.symbolRows = c.symbolRows
  imports : c'.fileImports.getD [] = c.fileImports.getD []
  exports : c'.fileExports.getD [] = c.fileExports.getD []
  otherMeta : c'.otherMeta = c.otherMeta
  files : c'.fileEntries = c.fileEntries

theorem SameData.refl (c : Db) : SameData c c := ⟨rfl, rfl, rfl, rfl, rfl, rfl, rfl, rfl⟩

theorem SameData.trans {a b c : Db} (h : SameData a b) (h' : SameData b c) : SameData a c :=
  ⟨h'.chunks.trans h.chunks, h'.vec.trans h.vec, h'.fts.trans h.fts, h'.symbols.trans h.symbols,
    h'.imports.trans h.imports, h'.exports.trans h.exports, h'.otherMeta.trans h.otherMeta,
    h'.files.trans h.files⟩

/-- The table or index is there. -/
def Db.has (c : Db) : CreatedTable → Bool
  | .files => c.files.isSome
  | .symbols => c.symbols.isSome
  | .fileImports => c.fileImports.isSome
  | .fileImportsIdx => c.idxFileImportsPath
  | .fileExports => c.fileExports.isSome
  | .fileExportsIdx => c.idxFileExportsPath
  | .chunksFts => c.chunksFts.isSome
  | .metaTable => c.metaTable.isSome

/-- `files` has its composite key. -/
def Db.Composite (c : Db) : Prop := ∃ t, c.files = some (.current t)

/-- `chunks` is there, with or without its `kind` column. -/
def Db.HasChunks (c : Db) : Prop := ∃ k, c.chunks = some k
def Db.HasKind (c : Db) : Prop := ∃ k, c.chunks = some k ∧ k.hasKind = true

/-- The schema stamp; one this version accepts, if there is any. -/
def Db.stamp (c : Db) : Option Text :=
  (c.metaRows.find? fun r => r.key = metaSchemaVersion).map (·.value)
def Db.Stamped (c : Db) : Prop :=
  ∀ s, c.stamp = some s → ∃ v, parseUnsigned 32 s = some v ∧ v ≤ schemaVersion

/-- Nothing is taken away. -/
structure Grows (c c' : Db) : Prop where
  chunks : c.HasChunks → c'.HasChunks
  kind : c.HasKind → c'.HasKind
  vec : ∀ v, c.chunksVec = some v → ∃ v', c'.chunksVec = some v' ∧ v'.width = v.width
  has : ∀ t, c.has t = true → c'.has t = true
  composite : c.Composite → c'.Composite
  filesNew : c.filesNew = none → c'.filesNew = none
  stamp : c'.stamp = c.stamp ∨ c'.stamp = some (decimal schemaVersion)

theorem Grows.refl (c : Db) : Grows c c :=
  ⟨id, id, fun v h => ⟨v, h, rfl⟩, fun _ h => h, id, id, .inl rfl⟩

theorem Grows.trans {a b c : Db} (h : Grows a b) (h' : Grows b c) : Grows a c where
  chunks hc := h'.chunks (h.chunks hc)
  kind hc := h'.kind (h.kind hc)
  vec v hv := by
    obtain ⟨v', hv', hw⟩ := h.vec v hv
    obtain ⟨v'', hv'', hw'⟩ := h'.vec v' hv'
    exact ⟨v'', hv'', hw'.trans hw⟩
  has t ht := h'.has t (h.has t ht)
  composite hc := h'.composite (h.composite hc)
  filesNew hn := h'.filesNew (h.filesNew hn)
  stamp := by
    rcases h'.stamp with h₂ | h₂
    · rw [h₂]
      exact h.stamp
    · exact .inr h₂

/-- The stamp this version writes. -/
def Db.IsStamped (c : Db) : Prop := c.stamp = some (decimal schemaVersion)

theorem Db.IsStamped.stamped {c : Db} (h : c.IsStamped) : c.Stamped := by
  intro s hs
  cases h.symm.trans hs
  exact ⟨schemaVersion, parseUnsigned_decimal 32 schemaVersion (by decide), Nat.le_refl _⟩

theorem Grows.stamped {c c' : Db} (h : Grows c c') (hs : c.Stamped) : c'.Stamped := by
  rcases h.stamp with h | h
  · intro s hfind
    rw [h] at hfind
    exact hs s hfind
  · exact Db.IsStamped.stamped h

theorem Grows.isStamped {c c' : Db} (h : Grows c c') (hs : c.IsStamped) : c'.IsStamped := by
  rcases h.stamp with h | h
  · exact h.trans hs
  · exact h

/-- The current schema, `chunks_vec` apart, which opening creates. -/
structure Db.Migrated (c : Db) : Prop where
  kind : c.HasKind
  has : ∀ t, c.has t = true
  composite : c.Composite
  filesNew : c.filesNew = none

theorem Db.Migrated.grows {c c' : Db} (h : c.Migrated) (hg : Grows c c') : c'.Migrated :=
  ⟨hg.kind h.kind, fun t => hg.has t (h.has t), hg.composite h.composite, hg.filesNew h.filesNew⟩

/-- A migrated database that was opened is an index. -/
theorem Db.Migrated.index {c : Db} (h : c.Migrated) {v : ChunksVec} (hv : c.chunksVec = some v) :
    ∃ ix : Index, c = ix.toDb := by
  obtain ⟨⟨⟨hasKind, chunks⟩, hc, hk⟩, hhas, ⟨files, hf⟩, hn⟩ := h
  obtain ⟨symbols, hs⟩ := Option.isSome_iff_exists.1 (hhas .symbols)
  obtain ⟨imports, hi⟩ := Option.isSome_iff_exists.1 (hhas .fileImports)
  obtain ⟨exports, he⟩ := Option.isSome_iff_exists.1 (hhas .fileExports)
  obtain ⟨fts, hfts⟩ := Option.isSome_iff_exists.1 (hhas .chunksFts)
  obtain ⟨metaRows, hm⟩ := Option.isSome_iff_exists.1 (hhas .metaTable)
  have hii : c.idxFileImportsPath = true := hhas .fileImportsIdx
  have hei : c.idxFileExportsPath = true := hhas .fileExportsIdx
  refine ⟨⟨v.width, chunks, v.table, fts, symbols, imports, exports, files, metaRows⟩, ?_⟩
  cases c
  simp only at hc hk hf hn hs hi he hfts hm hii hei hv
  subst hc hk hf hn hs hi he hfts hm hii hei hv
  rfl

/-! ## What the schema statements do -/

section
variable {c c' : Db} {x : RowId}

theorem exec_createChunks {r : Unit} (h : exec .createChunks x c = .ok (r, c')) :
    Grows c c' ∧ SameData c c' ∧ c'.HasChunks := by
  cases h
  refine ⟨⟨fun _ => ⟨_, rfl⟩, fun ⟨k, hk, hkind⟩ => ⟨k, by simp [hk], hkind⟩,
    fun v hv => ⟨v, hv, rfl⟩, fun t ht => by cases t <;> exact ht, id, id, .inl rfl⟩,
    ⟨?_, rfl, rfl, rfl, rfl, rfl, rfl, rfl⟩, _, rfl⟩
  unfold Db.chunkRows
  cases hc : c.chunks <;> simp

theorem exec_createChunksVec {dim : Nat} {r : Unit}
    (h : exec (.createChunksVec dim) x c = .ok (r, c')) :
    Grows c c' ∧ SameData c c' ∧ c'.chunksVec = some (c.chunksVec.getD ⟨dim, .empty⟩) := by
  cases h
  refine ⟨⟨id, id, fun v hv => ⟨v, by simp [hv], rfl⟩, fun t ht => by cases t <;> exact ht, id, id,
    .inl rfl⟩, ⟨rfl, ?_, rfl, rfl, rfl, rfl, rfl, rfl⟩, rfl⟩
  unfold Db.vecRows
  cases hc : c.chunksVec <;> simp

theorem exec_alterChunksAddKind {r : Unit} (h : exec .alterChunksAddKind x c = .ok (r, c')) :
    Grows c c' ∧ SameData c c' ∧ c'.HasKind := by
  cases hc : c.chunks with
  | none => simp [exec, hc, need, bind, Except.bind] at h
  | some k =>
    cases hk : k.hasKind with
    | true => simp [exec, hc, hk, need, bind, Except.bind] at h
    | false =>
      simp only [exec, hc, hk, need, bind, Except.bind, pure, Except.pure, Bool.false_eq_true,
        if_false, Except.ok.injEq] at h
      cases h
      refine ⟨⟨fun _ => ⟨_, rfl⟩, fun _ => ⟨_, rfl, rfl⟩, fun v hv => ⟨v, hv, rfl⟩,
        fun t ht => by cases t <;> exact ht, id, id, .inl rfl⟩,
        ⟨?_, rfl, rfl, rfl, rfl, rfl, rfl, rfl⟩, _, rfl, rfl⟩
      unfold Db.chunkRows
      rw [hc]
      rfl

/-- What an index needs to be created. -/
def CreatedTable.needs : CreatedTable → Option CreatedTable
  | .fileImportsIdx => some .fileImports
  | .fileExportsIdx => some .fileExports
  | _ => none

theorem exec_create_ok (t : CreatedTable) (x : RowId) (h : ∀ n ∈ t.needs, c.has n = true) :
    ∃ c', exec (.create t) x c = .ok ((), c') := by
  cases t with
  | fileImportsIdx =>
    obtain ⟨i, hi⟩ := Option.isSome_iff_exists.1 (h .fileImports rfl)
    exact ⟨{ c with idxFileImportsPath := true }, by
      simp [exec, createTable, hi, need, bind, Except.bind, pure, Except.pure]⟩
  | fileExportsIdx =>
    obtain ⟨i, hi⟩ := Option.isSome_iff_exists.1 (h .fileExports rfl)
    exact ⟨{ c with idxFileExportsPath := true }, by
      simp [exec, createTable, hi, need, bind, Except.bind, pure, Except.pure]⟩
  | _ => exact ⟨_, rfl⟩

theorem getD_option {α β : Type} (o : Option α) (d : α) (f : α → List β) (hd : f d = []) :
    ((some (o.getD d)).map f).getD [] = (o.map f).getD [] := by
  cases o with
  | none => simpa using hd
  | some a => rfl

theorem exec_create {t : CreatedTable} {r : Unit} (h : exec (.create t) x c = .ok (r, c')) :
    Grows c c' ∧ SameData c c' ∧ c'.has t = true := by
  cases t with
  | files =>
    cases h
    refine ⟨⟨id, id, fun v hv => ⟨v, hv, rfl⟩, fun t ht => ?_, fun ⟨t, ht⟩ => ⟨t, by simp [ht]⟩, id,
      .inl rfl⟩, ⟨rfl, rfl, rfl, rfl, rfl, rfl, rfl, getD_option _ _ _ rfl⟩, rfl⟩
    cases t <;> first | exact ht | rfl
  | symbols =>
    cases h
    refine ⟨⟨id, id, fun v hv => ⟨v, hv, rfl⟩, fun t ht => ?_, id, id, .inl rfl⟩,
      ⟨rfl, rfl, rfl, getD_option _ _ _ rfl, rfl, rfl, rfl, rfl⟩, rfl⟩
    cases t <;> first | exact ht | rfl
  | fileImports =>
    cases h
    refine ⟨⟨id, id, fun v hv => ⟨v, hv, rfl⟩, fun t ht => ?_, id, id, .inl rfl⟩,
      ⟨rfl, rfl, rfl, rfl, ?_, rfl, rfl, rfl⟩, rfl⟩
    · cases t <;> first | exact ht | rfl
    · cases hi : c.fileImports <;> simp
  | fileImportsIdx =>
    cases hi : c.fileImports with
    | none => simp [exec, createTable, hi, need, bind, Except.bind] at h
    | some i =>
      simp only [exec, createTable, hi, need, bind, Except.bind, pure, Except.pure,
        Except.ok.injEq] at h
      cases h
      refine ⟨⟨id, id, fun v hv => ⟨v, hv, rfl⟩, fun t ht => ?_, id, id, .inl rfl⟩,
        ⟨rfl, rfl, rfl, rfl, by rw [hi], rfl, rfl, rfl⟩, rfl⟩
      cases t <;> first | exact ht | rfl
  | fileExports =>
    cases h
    refine ⟨⟨id, id, fun v hv => ⟨v, hv, rfl⟩, fun t ht => ?_, id, id, .inl rfl⟩,
      ⟨rfl, rfl, rfl, rfl, rfl, ?_, rfl, rfl⟩, rfl⟩
    · cases t <;> first | exact ht | rfl
    · cases hi : c.fileExports <;> simp
  | fileExportsIdx =>
    cases hi : c.fileExports with
    | none => simp [exec, createTable, hi, need, bind, Except.bind] at h
    | some i =>
      simp only [exec, createTable, hi, need, bind, Except.bind, pure, Except.pure,
        Except.ok.injEq] at h
      cases h
      refine ⟨⟨id, id, fun v hv => ⟨v, hv, rfl⟩, fun t ht => ?_, id, id, .inl rfl⟩,
        ⟨rfl, rfl, rfl, rfl, rfl, by rw [hi], rfl, rfl⟩, rfl⟩
      cases t <;> first | exact ht | rfl
  | chunksFts =>
    cases h
    refine ⟨⟨id, id, fun v hv => ⟨v, hv, rfl⟩, fun t ht => ?_, id, id, .inl rfl⟩,
      ⟨rfl, rfl, getD_option _ _ _ rfl, rfl, rfl, rfl, rfl, rfl⟩, rfl⟩
    cases t <;> first | exact ht | rfl
  | metaTable =>
    cases h
    have hm : ({ c with metaTable := some (c.metaTable.getD .empty) } : Db).metaRows = c.metaRows :=
      getD_option _ _ _ rfl
    refine ⟨⟨id, id, fun v hv => ⟨v, hv, rfl⟩, fun t ht => ?_, id, id,
        .inl (by unfold Db.stamp; rw [hm])⟩,
      ⟨rfl, rfl, rfl, rfl, rfl, rfl, congrArg (List.filter _) hm, rfl⟩, rfl⟩
    cases t <;> first | exact ht | rfl

/-! The schema stamp. -/

theorem MetaRow.clash_symm (a b : MetaRow) (h : a.clash b) : b.clash a := Eq.symm h

/-- Replacing a key leaves the rows of other keys as they are. -/
theorem replace_filter_other (m : MetaTable) (key value : Text) (p : MetaRow → Bool)
    (hp : ∀ r : MetaRow, r.key = key → p r = false) :
    (m.replace ⟨key, value⟩).rows.filter p = m.rows.filter p := by
  unfold Table.replace
  split
  · rfl
  · rw [List.filter_append, List.filter_filter]
    have hnew : [(⟨key, value⟩ : MetaRow)].filter p = [] := by
      rw [List.filter_eq_nil_iff]
      intro r hr
      rw [List.mem_singleton.1 hr, hp _ rfl]
      simp
    rw [hnew, List.append_nil]
    refine List.filter_congr fun r _ => ?_
    by_cases hr : r.key = key
    · simp [hp r hr]
    · have hc : ¬ r.clash ⟨key, value⟩ := hr
      simp [hc]

/-- The value a replace stored is found under its key. -/
theorem find?_replace (m : MetaTable) (key value : Text) :
    ((m.replace ⟨key, value⟩).rows.find? fun r => r.key = key) = some ⟨key, value⟩ := by
  have hmem : (⟨key, value⟩ : MetaRow) ∈ (m.replace ⟨key, value⟩).rows :=
    (Table.mem_replace MetaRow.clash_symm _ _ _).2 (.inl rfl)
  cases hf : (m.replace ⟨key, value⟩).rows.find? fun r => decide (r.key = key) with
  | none =>
    rw [List.find?_eq_none] at hf
    exact absurd (decide_eq_true rfl) (hf _ hmem)
  | some r =>
    have hk : r.key = key := by simpa using List.find?_some hf
    rcases (Table.mem_replace MetaRow.clash_symm _ _ _).1 (List.mem_of_find?_eq_some hf) with
      rfl | ⟨-, hc⟩
    · rfl
    · exact absurd hk hc

theorem isStamped_replace {m : MetaTable} (hc : c.metaTable = some (m.replace
    ⟨metaSchemaVersion, decimal schemaVersion⟩)) : c.IsStamped := by
  unfold Db.IsStamped Db.stamp Db.metaRows
  rw [hc]
  show ((m.replace _).rows.find? fun r => r.key = metaSchemaVersion).map (·.value) = _
  rw [find?_replace]
  rfl

theorem exec_stamp {r : Unit}
    (h : exec (.replaceMeta metaSchemaVersion (decimal schemaVersion)) x c = .ok (r, c')) :
    Grows c c' ∧ SameData c c' ∧ c'.IsStamped := by
  cases hm : c.metaTable with
  | none => simp [exec, hm, need, bind, Except.bind] at h
  | some m =>
    simp only [exec, hm, need, bind, Except.bind, pure, Except.pure, Except.ok.injEq] at h
    cases h
    have hs : ({ c with metaTable := some (m.replace ⟨metaSchemaVersion, decimal schemaVersion⟩) } :
        Db).IsStamped := isStamped_replace rfl
    refine ⟨⟨id, id, fun v hv => ⟨v, hv, rfl⟩, fun t ht => ?_, id, id, .inr hs⟩,
      ⟨rfl, rfl, rfl, rfl, rfl, rfl, ?_, rfl⟩, hs⟩
    · cases t <;> first | exact ht | rfl
    · unfold Db.otherMeta Db.metaRows
      rw [hm]
      exact replace_filter_other m _ _ _ fun r hr => by simp [hr]

/-! The recreation of `files`. -/

theorem exec_createFilesNew (h : c.filesNew = none) :
    exec .createFilesNew x c = .ok ((), { c with filesNew := some .empty }) := by
  simp only [exec, h]

/-- The rows of a legacy table have distinct paths, so they fit the new key. -/
theorem legacy_copy_isSome (l : LegacyFileTable) (repoId : Text) :
    (Table.ofRows? ((Table.empty : FileTable).rows ++ (FilesTable.legacy l).withRepoId repoId) :
      Option FileTable).isSome := by
  rw [Table.ofRows?_isSome]
  show ([] ++ l.rows.map _).Pairwise _
  rw [List.nil_append, List.pairwise_map]
  exact l.distinct.imp fun hn hc => hn hc.2

theorem exec_copyFilesNew {l : LegacyFileTable} (hl : c.files = some (.legacy l)) (repoId : Text) :
    ∃ t : FileTable, t.rows = l.rows.map (fun r => { r with repoId := repoId }) ∧
      exec (.copyFilesNew repoId) x { c with filesNew := some .empty } =
        .ok ((), { c with filesNew := some t }) := by
  obtain ⟨t, ht⟩ := Option.isSome_iff_exists.1 (legacy_copy_isSome l repoId)
  refine ⟨t, by simpa [FilesTable.withRepoId] using (Table.ofRows?_eq_some _ _).1 ht, ?_⟩
  simp only [exec, hl, need, bind, Except.bind, ht, checked, pure, Except.pure]

/-- Recreating a legacy `files` keeps its rows. -/
theorem recreated {l : LegacyFileTable} {t : FileTable} (hl : c.files = some (.legacy l))
    (ht : t.rows = l.rows.map fun r => { r with repoId := migrationPlaceholderRepoId }) :
    Grows c { c with files := some (.current t), filesNew := none } ∧
      SameData c { c with files := some (.current t), filesNew := none } ∧
      ({ c with files := some (.current t), filesNew := none } : Db).Composite := by
  refine ⟨⟨id, id, fun v hv => ⟨v, hv, rfl⟩, fun t ht => ?_, fun _ => ⟨_, rfl⟩, fun _ => rfl, .inl rfl⟩,
    ⟨rfl, rfl, rfl, rfl, rfl, rfl, rfl, ?_⟩, _, rfl⟩
  · cases t <;> first | exact ht | rfl
  · unfold Db.fileEntries
    rw [hl]
    exact ht

end

/-! ## What meta records -/

/-- The value of a `meta` key. -/
def Db.metaValue (c : Db) (key : Text) : Option Text :=
  (c.metaRows.find? fun r => r.key = key).map (·.value)

def Db.recordedDim (c : Db) : Option Nat := (c.metaValue metaEmbedderDim).bind (parseUnsigned 64)

/-- The recorded embedder: `read_embedder_meta`. -/
def Db.embedder (c : Db) : Option (Text × Nat) := do
  let id ← c.metaValue metaEmbedderId
  let dim ← c.recordedDim
  pure (id, dim)

theorem embedder_eq_some {c : Db} {id : Text} {dim : Nat} :
    c.embedder = some (id, dim) ↔ c.metaValue metaEmbedderId = some id ∧ c.recordedDim = some dim := by
  unfold Db.embedder
  cases c.metaValue metaEmbedderId <;> cases c.recordedDim <;> simp

section
variable {allow : Req Stmt → Outcome RowId SqlError → Db → Txn Db → Prop} {I : Db → Prop} {c : Db}

theorem guards_readMeta (key : Text) :
    Guards engine allow I (readMeta key) c fun v c' => c' = c ∧ v = c.metaValue key := by
  refine guards_execute fun x r c' _ hx => ?_
  have hsame := read_selectMeta key x c r c' hx
  subst hsame
  unfold Db.metaValue Db.metaRows
  cases hm : c'.metaTable with
  | none => simp [engine, exec, hm, need, bind, Except.bind] at hx
  | some m =>
    simp only [engine, exec, hm, need, bind, Except.bind, pure, Except.pure, Except.ok.injEq] at hx
    exact ⟨.inl rfl, rfl, (Prod.mk.inj hx).1.symm⟩

theorem guards_readEmbedderMeta :
    Guards engine allow I readEmbedderMeta c fun v c' => c' = c ∧ v = c.embedder := by
  refine guards_bind (guards_readMeta metaEmbedderId) fun id c₁ h₁ => ?_
  obtain ⟨rfl, hid⟩ := h₁
  refine guards_bind (guards_readMeta metaEmbedderDim) fun dimS c₂ h₂ => ?_
  obtain ⟨rfl, hdim⟩ := h₂
  have hemb : c₂.embedder = id.bind fun id => (dimS.bind (parseUnsigned 64)).map fun dim =>
      (id, dim) := by
    unfold Db.embedder Db.recordedDim
    rw [← hid, ← hdim]
    cases id with
    | none => rfl
    | some id => cases dimS.bind (parseUnsigned 64) <;> rfl
  rw [hemb]
  split
  · next id dimS =>
    split
    · next dim hp => exact guards_pure ⟨rfl, by simp [hp]⟩
    · exact guards_throw
  · next hno =>
    refine guards_pure ⟨rfl, ?_⟩
    cases id with
    | none => rfl
    | some id =>
      cases dimS with
      | none => rfl
      | some dimS => exact absurd rfl (hno id dimS rfl)

end

end CodeSearch
