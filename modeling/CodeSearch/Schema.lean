import CodeSearch.Storage

/-!
# Schema migration and embedder meta

`migrate` runs on every open: pragmas, the guarded `kind` column, the structural
tables, and the recreation of `files` with a composite key.  What is still to do
is decided by the structure found, not by the version stamp.
-/

namespace CodeSearch

open Store

def schemaVersion : Nat := 1
def metaSchemaVersion : Text := "schema_version".toList

/-- Stands in `files.repo_id` between the migration and the first reindex. -/
def migrationPlaceholderRepoId : Text := "<MIGRATION_PLACEHOLDER_REPO_ID>".toList

def metaEmbedderId : Text := "embedder_id".toList
def metaEmbedderDim : Text := "embedder_dim".toList

/-! ## Probes and meta rows -/

/-- A single `meta` value by key. -/
def readMeta (key : Text) : Sql (Option Text) := execute "read meta row" (.selectMeta key)

/-- True when the table already has a column of that name. -/
def columnExists (table : InfoTable) (column : Text) : Sql Bool := do
  let info ← execute "query table_info" (.tableInfo table)
  pure (info.any fun c => decide (c.1 = column))

/-- True when the primary key of `files` spans more than one column. -/
def filesPkIsComposite : Sql Bool := do
  let info ← execute "query table_info(files)" (.tableInfo .files)
  pure (decide (2 ≤ (info.filter fun c => decide (0 < c.2)).length))

/-- The stored `schema_version`, absent on a pre-v0.7 index. -/
def readSchemaVersion : Sql (Option Nat) := do
  match ← readMeta metaSchemaVersion with
  | some s =>
    match parseUnsigned 32 s with
    | some v => pure (some v)
    | none => .throw (.context ("parse stored schema_version '".toList ++ s ++ ['\'']) .parseInt)
  | none => pure none

def writeSchemaVersion (version : Nat) : Sql Unit :=
  execute "write meta schema_version" (.replaceMeta metaSchemaVersion (decimal version))

/-! ## Migration -/

/-- The message of the downgrade gate. -/
def newerSchemaMessage (stored : Nat) : Text :=
  "schema version mismatch: this index was written with schema_version ".toList ++ decimal stored ++
  ", but this binary supports up to ".toList ++ decimal schemaVersion ++
  ". Refusing to open a newer index with an older binary — upgrade apohara-codesearch, or ".toList ++
  "re-index with `reindex force=true` using this binary to rewrite the index at the supported ".toList ++
  "version.".toList

/-- Bring `files` to the composite key, recreating the table in one transaction. -/
def migrateFilesSchema : Sql Unit := do
  match ← readSchemaVersion with
  | some stored => if schemaVersion < stored then .throw (.message (newerSchemaMessage stored))
  | none => pure ()
  let hasRepoId ← columnExists .files "repo_id".toList
  let compositePk ← filesPkIsComposite
  if hasRepoId && compositePk then
    writeSchemaVersion schemaVersion
  else
    Prog.batch (sqlContext "recreate files table with composite PRIMARY KEY(repo_id, path)")
      [.begin, .stmt .createFilesNew, .stmt (.copyFilesNew migrationPlaceholderRepoId),
        .stmt .dropFiles, .stmt .renameFilesNew]
    match ← (writeSchemaVersion schemaVersion).attempt with
    | .ok _ => Prog.batch (sqlContext "commit files schema recreation") [.commit]
    | .error e => .call .rollback fun _ => .throw e

/-- The tables `migrate` creates when they are missing. -/
def structuralTables : List CreatedTable :=
  [.files, .symbols, .fileImports, .fileImportsIdx, .fileExports, .fileExportsIdx, .chunksFts,
    .metaTable]

/-- Bring an opened connection's schema up to the current shape. -/
def migrate : Sql Unit := do
  Prog.batch (sqlContext "set pragmas (WAL + busy_timeout)") [.stmt .pragma, .stmt .pragma]
  if !(← columnExists .chunks "kind".toList) then
    execute "add kind column to chunks" .alterChunksAddKind
  Prog.batch (sqlContext "create structural + fts schema")
    (structuralTables.map fun t => .stmt (.create t))
  withContext "migrate files schema to v0.7 (composite PK)" migrateFilesSchema

/-! ## Embedder meta -/

/-- Record the active embedder: two statements. -/
def writeEmbedderMeta (id : Text) (dim : Nat) : Sql Unit := do
  execute "write meta embedder_id" (.replaceMeta metaEmbedderId id)
  execute "write meta embedder_dim" (.replaceMeta metaEmbedderDim (decimal dim))

/-- The embedder an index was built with, if both halves are recorded. -/
def readEmbedderMeta : Sql (Option (Text × Nat)) := do
  let id ← readMeta metaEmbedderId
  let dimS ← readMeta metaEmbedderDim
  match id, dimS with
  | some id, some dimS =>
    match parseUnsigned 64 dimS with
    | some dim => pure (some (id, dim))
    | none => .throw (.context ("parse stored embedder_dim '".toList ++ dimS ++ ['\'']) .parseInt)
  | _, _ => pure none

/-- The message of the refuse-to-mix gate. -/
def embedderMismatchMessage (storedId : Text) (storedDim : Nat) (activeId : Text)
    (activeDim : Nat) : Text :=
  "embedder mismatch: this index was built with embedder '".toList ++ storedId ++
  "' (dim ".toList ++ decimal storedDim ++ "), but the active embedder is '".toList ++ activeId ++
  "' (dim ".toList ++ decimal activeDim ++
  "). Refusing to mix incompatible embeddings — re-index with `reindex force=true` using the ".toList ++
  "active embedder, or point at the matching model.".toList

/-- Refuse an index that records another embedder; accept one that records none. -/
def verifyEmbedderMeta (activeId : Text) (activeDim : Nat) : Sql Unit := do
  match ← readEmbedderMeta with
  | some (storedId, storedDim) =>
    if storedId ≠ activeId ∨ storedDim ≠ activeDim then
      .throw (.message (embedderMismatchMessage storedId storedDim activeId activeDim))
  | none => pure ()

end CodeSearch
