import CodeSearch.Lib.Table
import CodeSearch.Lib.Run
import CodeSearch.Text

/-!
# The index database

The tables of `index.db` and every SQL statement the indexer issues on it.  A
`Db` says which tables exist and in which shape, since opening and migrating go
through all of them; `exec` is what one statement does, and the errors SQLite
answers with when a table is missing or a constraint would break.

Foreign keys are on: deleting a chunk deletes its symbol row, and a symbol row
needs its chunk.
-/

namespace CodeSearch

open Relational Store

/-! ## Rows -/

/-- A SQLite row number. -/
abbrev RowId := Int

/-- A row of `chunks` without its rowid; `kind` is NULL in rows written before
the column existed. -/
structure ChunkData where
  id : Text
  filePath : Text
  startLine : Nat
  endLine : Nat
  body : Text
  kind : Option Text
deriving DecidableEq

structure ChunkRow extends ChunkData where
  rowid : RowId
deriving DecidableEq

structure VecRow where
  rowid : RowId
  embedding : List UInt8
deriving DecidableEq

structure FtsRow where
  rowid : RowId
  bodyTokens : Text
deriving DecidableEq

structure SymbolRow where
  chunkId : Text
  name : Text
  signature : Text
  kind : Text
  line : Nat
deriving DecidableEq

structure ImportRow where
  filePath : Text
  source : Text
  kind : Text
  line : Nat
deriving DecidableEq

structure ExportRow where
  filePath : Text
  detail : Text
  line : Nat
deriving DecidableEq

/-- A row of the pre-v0.7 `files`. -/
structure LegacyFileRow where
  path : Text
  blake3Hash : Text
  mtime : Int
  language : Option Text
deriving DecidableEq

structure FileRow extends LegacyFileRow where
  repoId : Text
deriving DecidableEq

structure MetaRow where
  key : Text
  value : Text
deriving DecidableEq

/-! ## Tables: what the unique indexes forbid -/

def ChunkRow.clash (a b : ChunkRow) : Prop := a.rowid = b.rowid ∨ a.id = b.id
def VecRow.clash (a b : VecRow) : Prop := a.rowid = b.rowid
def FtsRow.clash (a b : FtsRow) : Prop := a.rowid = b.rowid
def SymbolRow.clash (a b : SymbolRow) : Prop := a.chunkId = b.chunkId
def LegacyFileRow.clash (a b : LegacyFileRow) : Prop := a.path = b.path
def FileRow.clash (a b : FileRow) : Prop := a.repoId = b.repoId ∧ a.path = b.path
def MetaRow.clash (a b : MetaRow) : Prop := a.key = b.key

instance : DecidableRel ChunkRow.clash := fun _ _ => inferInstanceAs (Decidable (_ ∨ _))
instance : DecidableRel VecRow.clash := fun _ _ => inferInstanceAs (Decidable (_ = _))
instance : DecidableRel FtsRow.clash := fun _ _ => inferInstanceAs (Decidable (_ = _))
instance : DecidableRel SymbolRow.clash := fun _ _ => inferInstanceAs (Decidable (_ = _))
instance : DecidableRel LegacyFileRow.clash := fun _ _ => inferInstanceAs (Decidable (_ = _))
instance : DecidableRel FileRow.clash := fun _ _ => inferInstanceAs (Decidable (_ ∧ _))
instance : DecidableRel MetaRow.clash := fun _ _ => inferInstanceAs (Decidable (_ = _))

abbrev ChunkTable := Table ChunkRow ChunkRow.clash
abbrev VecTable := Table VecRow VecRow.clash
abbrev FtsTable := Table FtsRow FtsRow.clash
abbrev SymbolTable := Table SymbolRow SymbolRow.clash
abbrev LegacyFileTable := Table LegacyFileRow LegacyFileRow.clash
abbrev FileTable := Table FileRow FileRow.clash
abbrev MetaTable := Table MetaRow MetaRow.clash

/-- `files` in either shape: `path TEXT PRIMARY KEY`, or `repo_id` with
`PRIMARY KEY(repo_id, path)`. -/
inductive FilesTable where
  | legacy (t : LegacyFileTable)
  | current (t : FileTable)
deriving DecidableEq

/-- `chunks`, with or without its `kind` column. -/
structure Chunks where
  hasKind : Bool
  table : ChunkTable
deriving DecidableEq

/-- `chunks_vec`, declared `float[width]`. -/
structure ChunksVec where
  width : Nat
  table : VecTable
deriving DecidableEq

/-- A database file: the tables that exist. -/
structure Db where
  chunks : Option Chunks
  chunksVec : Option ChunksVec
  files : Option FilesTable
  filesNew : Option FileTable
  symbols : Option SymbolTable
  fileImports : Option (List ImportRow)
  idxFileImportsPath : Bool
  fileExports : Option (List ExportRow)
  idxFileExportsPath : Bool
  chunksFts : Option FtsTable
  metaTable : Option MetaTable
deriving DecidableEq

/-- A new database file. -/
def Db.empty : Db :=
  { chunks := none, chunksVec := none, files := none, filesNew := none, symbols := none,
    fileImports := none, idxFileImportsPath := false, fileExports := none,
    idxFileExportsPath := false, chunksFts := none, metaTable := none }

/-! ## Statements -/

/-- The tables whose columns the code asks for. -/
inductive InfoTable where
  | chunks | files
deriving DecidableEq

/-- The tables `wipe_all` clears. -/
inductive WipedTable where
  | chunksVec | chunksFts | symbols | fileImports | fileExports | chunks | files
deriving DecidableEq

/-- The tables whose rows are deleted by file. -/
inductive PathTable where
  | chunksVec | chunksFts | symbols | fileImports | fileExports | chunks
deriving DecidableEq

/-- The tables created with `IF NOT EXISTS` by `migrate`. -/
inductive CreatedTable where
  | files | symbols | fileImports | fileImportsIdx | fileExports | fileExportsIdx | chunksFts
  | metaTable
deriving DecidableEq

/-- The SQL statements of the indexer. -/
inductive Stmt where
  /-- `PRAGMA journal_mode=WAL` or `PRAGMA busy_timeout=5000` -/
  | pragma
  /-- `PRAGMA table_info(t)` -/
  | tableInfo (t : InfoTable)
  /-- `CREATE TABLE IF NOT EXISTS chunks` -/
  | createChunks
  /-- `CREATE VIRTUAL TABLE IF NOT EXISTS chunks_vec USING vec0(embedding float[dim])` -/
  | createChunksVec (dim : Nat)
  /-- `ALTER TABLE chunks ADD COLUMN kind TEXT` -/
  | alterChunksAddKind
  /-- `CREATE TABLE IF NOT EXISTS t` (or its index) -/
  | create (t : CreatedTable)
  /-- `CREATE TABLE files_new` -/
  | createFilesNew
  /-- `INSERT INTO files_new SELECT ..., repoId FROM files` -/
  | copyFilesNew (repoId : Text)
  /-- `DROP TABLE files` -/
  | dropFiles
  /-- `ALTER TABLE files_new RENAME TO files` -/
  | renameFilesNew
  /-- `SELECT value FROM meta WHERE key = ?` -/
  | selectMeta (key : Text)
  /-- `INSERT OR REPLACE INTO meta (key, value)` -/
  | replaceMeta (key value : Text)
  /-- `UPDATE files SET repo_id = new WHERE repo_id = old` -/
  | updateRepoId (new old : Text)
  /-- `DELETE FROM t` -/
  | deleteAll (t : WipedTable)
  /-- `DELETE FROM t WHERE` the row belongs to file `path` -/
  | deleteOfPath (t : PathTable) (path : Text)
  /-- `INSERT INTO chunks (id, file_path, start_line, end_line, body, kind)` -/
  | insertChunk (data : ChunkData)
  /-- `INSERT INTO chunks_vec VALUES ((SELECT rowid FROM chunks WHERE id = ?), bytes)` -/
  | insertVec (id : Text) (bytes : List UInt8)
  /-- `INSERT INTO chunks_fts VALUES ((SELECT rowid FROM chunks WHERE id = ?), tokens)` -/
  | insertFts (id : Text) (tokens : Text)
  | insertSymbol (row : SymbolRow)
  | insertImport (row : ImportRow)
  | insertExport (row : ExportRow)
  /-- `INSERT OR REPLACE INTO files` -/
  | replaceFile (row : FileRow)
  /-- `DELETE FROM files WHERE path = ? AND repo_id = ?` -/
  | deleteFile (path repoId : Text)
  /-- `SELECT path FROM files WHERE repo_id = ?` -/
  | selectFilePaths (repoId : Text)
  /-- `SELECT blake3_hash, mtime FROM files WHERE path = ? AND repo_id = ?` -/
  | selectFileState (path repoId : Text)
deriving DecidableEq

/-- The rows a query answers with; nothing for the other statements. -/
def Stmt.Resp : Stmt → Type
  | .tableInfo _ => List (Text × Nat)
  | .selectMeta _ => Option Text
  | .selectFilePaths _ => List Text
  | .selectFileState _ _ => Option (Text × Int)
  | _ => Unit

/-- What SQLite answers with when a statement fails. -/
inductive SqlError where
  | noSuchTable
  | noSuchColumn
  | tableExists
  | duplicateColumn
  | constraint
  | dimensionMismatch
  | nestedTransaction
  | noTransaction
  | busy
  | io
deriving DecidableEq

/-! ## Execution -/

/-- An unused rowid: the one SQLite proposes, or one above every used one. -/
def freshRowid (proposed : RowId) (used : List RowId) : RowId :=
  if proposed ∈ used then used.foldl max 0 + 1 else proposed

/-- The columns of `chunks` with their position in the primary key. -/
def Chunks.info (c : Chunks) : List (Text × Nat) :=
  [("id".toList, 1), ("file_path".toList, 0), ("start_line".toList, 0), ("end_line".toList, 0),
    ("body".toList, 0)] ++ if c.hasKind then [("kind".toList, 0)] else []

/-- The columns of `files` with their position in the primary key. -/
def FilesTable.info : FilesTable → List (Text × Nat)
  | .legacy _ => [("path".toList, 1), ("blake3_hash".toList, 0), ("mtime".toList, 0),
      ("language".toList, 0)]
  | .current _ => [("path".toList, 2), ("blake3_hash".toList, 0), ("mtime".toList, 0),
      ("language".toList, 0), ("repo_id".toList, 1)]

/-- The table without its rows. -/
def FilesTable.cleared : FilesTable → FilesTable
  | .legacy _ => .legacy .empty
  | .current _ => .current .empty

/-- The rows as `INSERT INTO files_new SELECT` reads them. -/
def FilesTable.withRepoId (repoId : Text) : FilesTable → List FileRow
  | .legacy l => l.rows.map fun r => { r with repoId := repoId }
  | .current c => c.rows.map fun r => { r with repoId := repoId }

/-- A table the statement needs. -/
def need {α : Type} : Option α → Except SqlError α
  | some a => .ok a
  | none => .error .noSuchTable

/-- The v0.7 `files`: the older one has no `repo_id`. -/
def needFiles : Option FilesTable → Except SqlError FileTable
  | some (.current t) => .ok t
  | some (.legacy _) => .error .noSuchColumn
  | none => .error .noSuchTable

/-- A change a constraint may refuse. -/
def checked {α : Type} : Option α → Except SqlError α
  | some a => .ok a
  | none => .error .constraint

/-- The rowid of the chunk with this id. -/
def rowidOf (t : ChunkTable) (id : Text) : Option RowId :=
  (t.rows.find? fun r => r.id = id).map (·.rowid)

/-- The rowids and ids of the chunks of a file. -/
def rowidsOfPath (t : ChunkTable) (path : Text) : List RowId :=
  (t.rows.filter fun r => r.filePath = path).map (·.rowid)
def idsOfPath (t : ChunkTable) (path : Text) : List Text :=
  (t.rows.filter fun r => r.filePath = path).map (·.id)

/-- `DELETE FROM chunks WHERE p`, with the cascade to `symbols`. -/
def deleteChunks (db : Db) (p : ChunkRow → Bool) : Except SqlError (Unit × Db) := do
  let c ← need db.chunks
  let gone := (c.table.rows.filter p).map (·.id)
  pure ((), { db with
    chunks := some { c with table := c.table.delete p }
    symbols := db.symbols.map fun t => t.delete fun r => gone.contains r.chunkId })

/-- `CREATE ... IF NOT EXISTS` of one of `migrate`'s tables. -/
def createTable (db : Db) : CreatedTable → Except SqlError Db
  | .files => .ok { db with files := some (db.files.getD (.legacy .empty)) }
  | .symbols => .ok { db with symbols := some (db.symbols.getD .empty) }
  | .fileImports => .ok { db with fileImports := some (db.fileImports.getD []) }
  | .fileImportsIdx => do
    let _ ← need db.fileImports
    pure { db with idxFileImportsPath := true }
  | .fileExports => .ok { db with fileExports := some (db.fileExports.getD []) }
  | .fileExportsIdx => do
    let _ ← need db.fileExports
    pure { db with idxFileExportsPath := true }
  | .chunksFts => .ok { db with chunksFts := some (db.chunksFts.getD .empty) }
  | .metaTable => .ok { db with metaTable := some (db.metaTable.getD .empty) }

/-- `DELETE FROM t`. -/
def deleteAll (db : Db) : WipedTable → Except SqlError (Unit × Db)
  | .chunksVec => do
    let v ← need db.chunksVec
    pure ((), { db with chunksVec := some { v with table := .empty } })
  | .chunksFts => do
    let _ ← need db.chunksFts
    pure ((), { db with chunksFts := some .empty })
  | .symbols => do
    let _ ← need db.symbols
    pure ((), { db with symbols := some .empty })
  | .fileImports => do
    let _ ← need db.fileImports
    pure ((), { db with fileImports := some [] })
  | .fileExports => do
    let _ ← need db.fileExports
    pure ((), { db with fileExports := some [] })
  | .chunks => deleteChunks db fun _ => true
  | .files => do
    let f ← need db.files
    pure ((), { db with files := some f.cleared })

/-- `DELETE FROM t WHERE` the row belongs to the file. -/
def deleteOfPath (db : Db) (path : Text) : PathTable → Except SqlError (Unit × Db)
  | .chunksVec => do
    let v ← need db.chunksVec
    let c ← need db.chunks
    let t' := v.table.delete fun r => (rowidsOfPath c.table path).contains r.rowid
    pure ((), { db with chunksVec := some { v with table := t' } })
  | .chunksFts => do
    let f ← need db.chunksFts
    let c ← need db.chunks
    let t' := f.delete fun r => (rowidsOfPath c.table path).contains r.rowid
    pure ((), { db with chunksFts := some t' })
  | .symbols => do
    let s ← need db.symbols
    let c ← need db.chunks
    let t' := s.delete fun r => (idsOfPath c.table path).contains r.chunkId
    pure ((), { db with symbols := some t' })
  | .fileImports => do
    let i ← need db.fileImports
    pure ((), { db with fileImports := some (i.filter fun r => !decide (r.filePath = path)) })
  | .fileExports => do
    let x ← need db.fileExports
    pure ((), { db with fileExports := some (x.filter fun r => !decide (r.filePath = path)) })
  | .chunks => deleteChunks db fun r => decide (r.filePath = path)

/-- The rowid a `(SELECT rowid FROM chunks WHERE id = ?)` stores under: NULL, when
there is no such chunk, asks for a new one. -/
def boundRowid (c : ChunkTable) (id : Text) (proposed : RowId) (used : List RowId) : RowId :=
  (rowidOf c id).getD (freshRowid proposed used)

/-- What one statement does.  `x` is the rowid SQLite proposes. -/
def exec (s : Stmt) (x : RowId) (db : Db) : Except SqlError (s.Resp × Db) :=
  match s with
  | .pragma => .ok ((), db)
  | .tableInfo .chunks => .ok ((db.chunks.map Chunks.info).getD [], db)
  | .tableInfo .files => .ok ((db.files.map FilesTable.info).getD [], db)
  | .createChunks => .ok ((), { db with chunks := some (db.chunks.getD ⟨false, .empty⟩) })
  | .createChunksVec dim =>
    .ok ((), { db with chunksVec := some (db.chunksVec.getD ⟨dim, .empty⟩) })
  | .alterChunksAddKind => do
    let c ← need db.chunks
    if c.hasKind then .error .duplicateColumn
    else pure ((), { db with chunks := some { c with hasKind := true } })
  | .create t => do pure ((), ← createTable db t)
  | .createFilesNew =>
    match db.filesNew with
    | some _ => .error .tableExists
    | none => .ok ((), { db with filesNew := some .empty })
  | .copyFilesNew repoId => do
    let t ← need db.filesNew
    let f ← need db.files
    let t' ← checked (Table.ofRows? (t.rows ++ f.withRepoId repoId))
    pure ((), { db with filesNew := some t' })
  | .dropFiles => do
    let _ ← need db.files
    pure ((), { db with files := none })
  | .renameFilesNew => do
    let t ← need db.filesNew
    match db.files with
    | some _ => .error .tableExists
    | none => pure ((), { db with files := some (.current t), filesNew := none })
  | .selectMeta key => do
    let m ← need db.metaTable
    pure ((m.rows.find? fun r => r.key = key).map (·.value), db)
  | .replaceMeta key value => do
    let m ← need db.metaTable
    pure ((), { db with metaTable := some (m.replace ⟨key, value⟩) })
  | .updateRepoId new old => do
    let f ← needFiles db.files
    let f' ← checked (f.update? (fun r => r.repoId = old) fun r => { r with repoId := new })
    pure ((), { db with files := some (.current f') })
  | .deleteAll t => deleteAll db t
  | .deleteOfPath t path => deleteOfPath db path t
  | .insertChunk data => do
    let c ← need db.chunks
    if c.hasKind then do
      let row : ChunkRow := { data with rowid := freshRowid x (c.table.rows.map (·.rowid)) }
      let t' ← checked (c.table.insert? row)
      pure ((), { db with chunks := some { c with table := t' } })
    else .error .noSuchColumn
  | .insertVec id bytes => do
    let v ← need db.chunksVec
    let c ← need db.chunks
    if bytes.length = 4 * v.width then do
      let t' ← checked (v.table.insert?
        ⟨boundRowid c.table id x (v.table.rows.map (·.rowid)), bytes⟩)
      pure ((), { db with chunksVec := some { v with table := t' } })
    else .error .dimensionMismatch
  | .insertFts id tokens => do
    let f ← need db.chunksFts
    let c ← need db.chunks
    let t' ← checked (f.insert? ⟨boundRowid c.table id x (f.rows.map (·.rowid)), tokens⟩)
    pure ((), { db with chunksFts := some t' })
  | .insertSymbol row => do
    let s ← need db.symbols
    let c ← need db.chunks
    if (rowidOf c.table row.chunkId).isSome then do
      let t' ← checked (s.insert? row)
      pure ((), { db with symbols := some t' })
    else .error .constraint
  | .insertImport row => do
    let i ← need db.fileImports
    pure ((), { db with fileImports := some (i ++ [row]) })
  | .insertExport row => do
    let e ← need db.fileExports
    pure ((), { db with fileExports := some (e ++ [row]) })
  | .replaceFile row => do
    let f ← needFiles db.files
    pure ((), { db with files := some (.current (f.replace row)) })
  | .deleteFile path repoId => do
    let f ← needFiles db.files
    let t' := f.delete fun r => decide (r.path = path ∧ r.repoId = repoId)
    pure ((), { db with files := some (.current t') })
  | .selectFilePaths repoId => do
    let f ← needFiles db.files
    pure ((f.rows.filter fun r => r.repoId = repoId).map (·.path), db)
  | .selectFileState path repoId => do
    let f ← needFiles db.files
    pure ((f.rows.find? fun r => r.path = path ∧ r.repoId = repoId).map
      fun r => (r.blake3Hash, r.mtime), db)

/-- SQLite on one database file. -/
def engine : Engine Stmt Stmt.Resp SqlError Db RowId where
  exec := exec
  nested := .nestedTransaction
  noTxn := .noTransaction

end CodeSearch
