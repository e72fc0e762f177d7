import Mathlib.Algebra.Order.BigOperators.Group.List
import Mathlib.Algebra.Order.Group.Nat
import CodeSearch.Schema

/-!
# Database files of any shape

`Db` has the tables of this version.  A `Catalog` is a file that any version may have
written: any tables with any columns and rows, and any indexes.  The programs are the
same: `catalogEngine` runs their statements on a `Catalog`.

A statement that shapes the schema is a `Change`.  It finds what it would make
(`Change.Present`) and changes nothing, SQLite refuses it (`Change.Refused`), or the
catalog grows (`Change.exec_cases`).  SQLite compares names without regard to ASCII case.
-/

namespace CodeSearch

open Store

/-! ## Tables, indexes -/

inductive Value where
  | null
  | integer (n : Int)
  | real (bits : UInt64)
  | text (s : Text)
  | blob (bytes : List UInt8)
deriving DecidableEq

structure Column where
  name : Text
  /-- its type and constraints -/
  decl : Text
  /-- left out by `PRAGMA table_info`: generated, or hidden by a module -/
  hidden : Bool
  /-- its position in the primary key, from 1 -/
  pk : Nat
deriving DecidableEq

structure AnyTable where
  name : Text
  virtual : Bool
  columns : List Column
  rows : List (List Value)
deriving DecidableEq

structure AnyIndex where
  name : Text
  table : Text
  columns : List Text
deriving DecidableEq

structure Catalog where
  tables : List AnyTable
  indexes : List AnyIndex
deriving DecidableEq

/-- A name as SQLite compares it. -/
def fold (name : Text) : Text := name.map Char.toLower

def Catalog.table? (c : Catalog) (name : Text) : Option AnyTable :=
  c.tables.find? fun t => fold t.name = fold name

def Catalog.index? (c : Catalog) (name : Text) : Option AnyIndex :=
  c.indexes.find? fun i => fold i.name = fold name

/-- Where the column stands in a row. -/
def AnyTable.column? (t : AnyTable) (name : Text) : Option Nat :=
  t.columns.findIdx? fun col => fold col.name = fold name

/-- `PRAGMA table_info`. -/
def Catalog.info (c : Catalog) (name : Text) : List (Text × Nat) :=
  match c.table? name with
  | none => []
  | some t => (t.columns.filter fun col => !col.hidden).map fun col => (col.name, col.pk)

/-- `SELECT value FROM meta WHERE key = ?`. -/
def Catalog.metaValue (c : Catalog) (key : Text) : Except SqlError (Option Value) :=
  match c.table? "meta".toList with
  | none => .error .noSuchTable
  | some t =>
    match t.column? "key".toList, t.column? "value".toList with
    | some k, some v =>
      .ok ((t.rows.find? fun r => r[k]? = some (.text key)).map fun r => r.getD v .null)
    | _, _ => .error .noSuchColumn

/-! ## Schema changes -/

/-- What this repository's SQL does not decide: the modules of the virtual tables, which
answer with a table's columns and its shadow tables, the error of the other refusals, and
the statements that come after the downgrade gate. -/
structure Backend where
  vec0 : Nat → Catalog → Except SqlError (List Column × List AnyTable)
  fts5 : Catalog → Except SqlError (List Column × List AnyTable)
  refusal : SqlError
  rest : (s : Stmt) → RowId → Catalog → Except SqlError (s.Resp × Catalog)

inductive Change where
  /-- `CREATE TABLE IF NOT EXISTS`, virtual or not: the table and its shadow tables -/
  | create (name : Text) (make : Except SqlError (AnyTable × List AnyTable))
  /-- `CREATE INDEX IF NOT EXISTS name ON on(column)` -/
  | index (name on column : Text)
  /-- `ALTER TABLE on ADD COLUMN column` -/
  | addColumn (on : Text) (column : Column)

/-- `SQLITE_MAX_COLUMN`. -/
def maxColumns : Nat := 2000

def AnyTable.addColumn (t : AnyTable) (column : Column) : AnyTable :=
  { t with columns := t.columns ++ [column], rows := t.rows.map (· ++ [.null]) }

def Catalog.addColumn (c : Catalog) (on : Text) (column : Column) : Catalog :=
  { c with tables := c.tables.map fun t => if fold t.name = fold on then t.addColumn column else t }

def Change.exec (B : Backend) (c : Catalog) : Change → Except SqlError Catalog
  | .create name make =>
    if (c.table? name).isSome then .ok c
    else if (c.index? name).isSome then .error .tableExists
    else do
      let (made, shadows) ← make
      pure { c with tables := c.tables ++ made :: shadows }
  | .index name on column =>
    match c.table? on with
    | none => .error .noSuchTable
    | some t =>
      if t.virtual then .error B.refusal
      else if (c.table? name).isSome then .error .tableExists
      else if (c.index? name).isSome then .ok c
      else if (t.column? column).isNone then .error .noSuchColumn
      else .ok { c with indexes := c.indexes ++ [⟨name, t.name, [column]⟩] }
  | .addColumn on column =>
    match c.table? on with
    | none => .error .noSuchTable
    | some t =>
      if t.virtual then .error B.refusal
      else if maxColumns ≤ t.columns.length then .error B.refusal
      else if (t.column? column.name).isSome then .error .duplicateColumn
      else .ok (c.addColumn on column)

/-- What it would make is there. -/
def Change.Present (c : Catalog) : Change → Prop
  | .create name _ => (c.table? name).isSome
  | .index name on _ => (∃ t, c.table? on = some t ∧ t.virtual = false) ∧
      c.table? name = none ∧ (c.index? name).isSome
  | .addColumn _ _ => False

/-- SQLite refuses it: the name is taken by another kind of object, the module cannot make
the table, the table is missing, virtual or full, or does not have the column to index. -/
def Change.Refused (c : Catalog) : Change → Prop
  | .create name make => c.table? name = none ∧ ((c.index? name).isSome ∨ ∃ y, make = .error y)
  | .index name on column => ∀ t, c.table? on = some t → t.virtual = false →
      (c.table? name).isSome ∨ c.index? name = none ∧ t.column? column = none
  | .addColumn on column => ∀ t, c.table? on = some t → t.virtual = false →
      maxColumns ≤ t.columns.length ∨ (t.column? column.name).isSome

/-- How much there is. -/
def Catalog.size (c : Catalog) : Nat :=
  c.tables.length + c.indexes.length + (c.tables.map fun t => t.columns.length).sum

theorem size_addColumn {c : Catalog} {on : Text} {t : AnyTable} (column : Column)
    (h : c.table? on = some t) : c.size < (c.addColumn on column).size := by
  have hmem : t ∈ c.tables := List.mem_of_find?_eq_some h
  have hname : fold t.name = fold on := by simpa using List.find?_some h
  unfold Catalog.size Catalog.addColumn
  have hsum : (c.tables.map fun t => t.columns.length).sum <
      ((c.tables.map fun t => if fold t.name = fold on then t.addColumn column else t).map
        fun t => t.columns.length).sum := by
    rw [List.map_map]
    apply List.sum_lt_sum
    · intro u hu
      simp only [Function.comp]
      split
      · simp [AnyTable.addColumn]
      · exact Nat.le_refl _
    · refine ⟨t, hmem, ?_⟩
      simp only [Function.comp, if_pos hname]
      simp [AnyTable.addColumn]
  simp only [List.length_map]
  omega

/-- `c'` has what `c` has, and more. -/
structure Change.Grows (ch : Change) (c c' : Catalog) : Prop where
  size : c.size < c'.size
  tables : (∃ more, c'.tables = c.tables ++ more) ∨
    ∃ on column, ch = .addColumn on column ∧ c' = c.addColumn on column

/-- What a change does. -/
theorem Change.exec_cases (B : Backend) (c : Catalog) (ch : Change) :
    (ch.Present c ∧ ¬ ch.Refused c ∧ ch.exec B c = .ok c) ∨
    (¬ ch.Present c ∧ ch.Refused c ∧ ∃ y, ch.exec B c = .error y) ∨
    (¬ ch.Present c ∧ ¬ ch.Refused c ∧ ∃ c', ch.exec B c = .ok c' ∧ ch.Grows c c') := by
  cases ch with
  | create name make =>
    cases ht : c.table? name with
    | some t => exact .inl (by simp [Change.Present, Change.Refused, Change.exec, ht])
    | none =>
      cases hi : c.index? name with
      | some i => exact .inr (.inl (by simp [Change.Present, Change.Refused, Change.exec, ht, hi]))
      | none =>
        cases make with
        | error y =>
          refine .inr (.inl ⟨by simp [Change.Present, ht], by simp [Change.Refused, ht], y, ?_⟩)
          simp [Change.exec, ht, hi, bind, Except.bind]
        | ok made =>
          refine .inr (.inr ⟨by simp [Change.Present, ht], by simp [Change.Refused, ht, hi],
            { c with tables := c.tables ++ made.1 :: made.2 }, ?_, ?_, .inl ⟨_, rfl⟩⟩)
          · simp [Change.exec, ht, hi, bind, Except.bind, pure, Except.pure]
          · simp only [Catalog.size, List.length_append, List.length_cons, List.map_append,
              List.sum_append]
            omega
  | index name on column =>
    cases ht : c.table? on with
    | none => exact .inr (.inl (by simp [Change.Present, Change.Refused, Change.exec, ht]))
    | some t =>
      by_cases hv : t.virtual = true
      · exact .inr (.inl (by simp [Change.Present, Change.Refused, Change.exec, ht, hv]))
      cases hn : c.table? name with
      | some u => exact .inr (.inl (by simp [Change.Present, Change.Refused, Change.exec, ht, hv, hn]))
      | none =>
        cases hi : c.index? name with
        | some i =>
          exact .inl (by simp [Change.Present, Change.Refused, Change.exec, ht, hv, hn, hi])
        | none =>
          cases hc : t.column? column with
          | none =>
            exact .inr (.inl (by
              simp [Change.Present, Change.Refused, Change.exec, ht, hv, hn, hi, hc]))
          | some k =>
            refine .inr (.inr ⟨by simp [Change.Present, hi], ?_,
              { c with indexes := c.indexes ++ [⟨name, t.name, [column]⟩] }, ?_, ?_,
              .inl ⟨[], (List.append_nil _).symm⟩⟩)
            · simp [Change.Refused, ht, hv, hn, hc]
            · simp [Change.exec, ht, hv, hn, hi, hc]
            · simp only [Catalog.size, List.length_append, List.length_cons]
              omega
  | addColumn on column =>
    cases ht : c.table? on with
    | none => exact .inr (.inl (by simp [Change.Present, Change.Refused, Change.exec, ht]))
    | some t =>
      by_cases hv : t.virtual = true
      · exact .inr (.inl (by simp [Change.Present, Change.Refused, Change.exec, ht, hv]))
      by_cases hfull : maxColumns ≤ t.columns.length
      · exact .inr (.inl (by simp [Change.Present, Change.Refused, Change.exec, ht, hv, hfull]))
      cases hc : t.column? column.name with
      | some k =>
        exact .inr (.inl (by simp [Change.Present, Change.Refused, Change.exec, ht, hv, hfull, hc]))
      | none =>
        refine .inr (.inr ⟨by simp [Change.Present], ?_, c.addColumn on column, ?_, ?_,
          .inr ⟨on, column, rfl, rfl⟩⟩)
        · simp only [Change.Refused, ht, Option.some.injEq, forall_eq']
          simp [hv, hfull, hc]
        · simp [Change.exec, ht, hv, hfull, hc]
        · exact size_addColumn column ht

/-- A table that the change adds no column to is found as before. -/
theorem Change.Grows.table? {ch : Change} {c c' : Catalog} (h : ch.Grows c c') {name : Text}
    {t : AnyTable} (ht : c.table? name = some t)
    (hch : ∀ on column, ch = .addColumn on column → fold name ≠ fold on) : c'.table? name = some t := by
  unfold Catalog.table? at ht ⊢
  rcases h.tables with ⟨more, hmore⟩ | ⟨on, column, rfl, rfl⟩
  · rw [hmore, List.find?_append, ht, Option.some_or]
  · have hname : fold t.name = fold name := by simpa using List.find?_some ht
    have hsame : ((fun u : AnyTable => decide (fold u.name = fold name)) ∘ fun u : AnyTable =>
        if fold u.name = fold on then u.addColumn column else u) =
        fun u => decide (fold u.name = fold name) := by
      funext u
      simp only [Function.comp]
      split <;> rfl
    unfold Catalog.addColumn
    rw [List.find?_map, hsame, ht, Option.map_some, if_neg]
    exact fun hon => hch on column rfl (hname.symm.trans hon)

/-! ## The statements of opening and migrating -/

def column (name decl : String) (pk : Nat) : Column := ⟨name.toList, decl.toList, false, pk⟩

def plainTable (name : String) (columns : List Column) : AnyTable := ⟨name.toList, false, columns, []⟩

/-- An ordinary table that is created empty. -/
def createPlain (name : String) (columns : List Column) : Change :=
  .create name.toList (.ok (plainTable name columns, []))

/-- A virtual table: its module makes the columns and the shadow tables. -/
def createVirtual (name : String) (answer : Except SqlError (List Column × List AnyTable)) : Change :=
  .create name.toList (answer.map fun made => (⟨name.toList, true, made.1, []⟩, made.2))

def createChunksChange : Change :=
  createPlain "chunks" [column "id" "TEXT PRIMARY KEY" 1, column "file_path" "TEXT NOT NULL" 0,
    column "start_line" "INTEGER NOT NULL" 0, column "end_line" "INTEGER NOT NULL" 0,
    column "body" "TEXT NOT NULL" 0]

def addKindChange : Change := .addColumn "chunks".toList (column "kind" "TEXT" 0)

/-- The change a `CREATE` of `migrate` makes. -/
def createdChange (B : Backend) (c : Catalog) : CreatedTable → Change
  | .files => createPlain "files" [column "path" "TEXT PRIMARY KEY" 1,
      column "blake3_hash" "TEXT NOT NULL" 0, column "mtime" "INTEGER NOT NULL" 0,
      column "language" "TEXT" 0]
  | .symbols => createPlain "symbols"
      [column "chunk_id" "TEXT NOT NULL REFERENCES chunks(id) ON DELETE CASCADE" 1,
        column "name" "TEXT NOT NULL" 0, column "signature" "TEXT NOT NULL" 0,
        column "kind" "TEXT NOT NULL" 0, column "line" "INTEGER NOT NULL" 0]
  | .fileImports => createPlain "file_imports" [column "file_path" "TEXT NOT NULL" 0,
      column "source" "TEXT NOT NULL" 0, column "kind" "TEXT NOT NULL" 0,
      column "line" "INTEGER NOT NULL" 0]
  | .fileImportsIdx =>
    .index "idx_file_imports_path".toList "file_imports".toList "file_path".toList
  | .fileExports => createPlain "file_exports" [column "file_path" "TEXT NOT NULL" 0,
      column "detail" "TEXT NOT NULL" 0, column "line" "INTEGER NOT NULL" 0]
  | .fileExportsIdx =>
    .index "idx_file_exports_path".toList "file_exports".toList "file_path".toList
  | .chunksFts => createVirtual "chunks_fts" (B.fts5 c)
  | .metaTable => createPlain "meta" [column "key" "TEXT PRIMARY KEY" 1,
      column "value" "TEXT NOT NULL" 0]

/-- The answer of a statement that returns no row. -/
def done (r : Except SqlError Catalog) : Except SqlError (Unit × Catalog) := r.map fun c => ((), c)

/-- `row.get::<_, String>(0)` of an optional row. -/
def getText (B : Backend) : Option Value → Except SqlError (Option Text)
  | none => .ok none
  | some (.text s) => .ok (some s)
  | some _ => .error B.refusal

/-- What one statement does to a database file of any shape. -/
def catalogExec (B : Backend) (s : Stmt) (x : RowId) (c : Catalog) :
    Except SqlError (s.Resp × Catalog) :=
  match s with
  | .pragma => .ok ((), c)
  | .tableInfo .chunks => .ok (c.info "chunks".toList, c)
  | .tableInfo .files => .ok (c.info "files".toList, c)
  | .createChunks => done (createChunksChange.exec B c)
  | .createChunksVec dim => done ((createVirtual "chunks_vec" (B.vec0 dim c)).exec B c)
  | .alterChunksAddKind => done (addKindChange.exec B c)
  | .create t => done ((createdChange B c t).exec B c)
  | .selectMeta key => do
    let v ← c.metaValue key
    let s ← getText B v
    pure (s, c)
  | s => B.rest s x c

def catalogEngine (B : Backend) : Engine Stmt Stmt.Resp SqlError Catalog RowId where
  exec := catalogExec B
  nested := .nestedTransaction
  noTxn := .noTransaction

/-! ## Newer files -/

/-- A version later than this one, as a number or in digits. -/
def Value.Newer : Value → Prop
  | .integer n => (schemaVersion : Int) < n
  | .text s => ∃ bits n, parseUnsigned bits s = some n ∧ schemaVersion < n
  | _ => False

/-- The `meta` table records a later schema version. -/
def Catalog.Newer (c : Catalog) : Prop :=
  ∃ v, c.metaValue metaSchemaVersion = .ok (some v) ∧ v.Newer

end CodeSearch
