import CodeSearch.Chunker
import CodeSearch.Db

/-!
# Writing chunks

`openDbWith` creates the two base tables, `insertChunkFullWith` is the only
write path of a chunk: its row, its vector, its FTS tokens and its symbol, the
last three bound to the chunk's rowid or id.
-/

namespace CodeSearch

open Store

/-! ## Errors and SQL programs -/

/-- An `anyhow` error: a cause under its contexts.  `panic` is a panic of the
thread, which ends the program where it stands. -/
inductive Error where
  | sql (e : SqlError)
  | parseInt
  | message (text : Text)
  | context (text : Text) (cause : Error)
  | panic
deriving DecidableEq

/-- `.context(text)` on a SQLite error. -/
def sqlContext (text : String) (e : SqlError) : Error := .context text.toList (.sql e)

/-- Code that talks to SQLite on one connection. -/
abbrev Sql := Prog Stmt Stmt.Resp SqlError Error

/-- `conn.execute(stmt).context(text)`. -/
def execute (text : String) (s : Stmt) : Sql s.Resp := Prog.execute (sqlContext text) s

/-- `result.context(text)`. -/
def withContext {α : Type} (text : String) (p : Sql α) : Sql α := p.mapError (.context text.toList)

/-! ## Embedders -/

/-- A text embedder.  A vector is a list of `f32` bit patterns, as many as its
dimension says. -/
structure Embedder where
  id : Text
  dim : Nat
  embedDocument : Text → List UInt32
  length_embedDocument : ∀ text, (embedDocument text).length = dim
  dim_lt : dim < 2 ^ 64

/-- `embed.iter().flat_map(|f| f.to_le_bytes())`. -/
def toLeBytes (embed : List UInt32) : List UInt8 :=
  embed.flatMap fun (f : UInt32) => [f.toUInt8, (f >>> 8).toUInt8, (f >>> 16).toUInt8, (f >>> 24).toUInt8]

@[simp] theorem length_toLeBytes (embed : List UInt32) :
    (toLeBytes embed).length = 4 * embed.length := by
  induction embed with
  | nil => rfl
  | cons f fs ih =>
    simp only [toLeBytes, List.flatMap_cons, List.length_append, List.length_cons] at ih ⊢
    simp only [ih, List.length_nil]
    omega

/-- The blob stored for a text. -/
def Embedder.bytes (e : Embedder) (text : Text) : List UInt8 := toLeBytes (e.embedDocument text)

theorem Embedder.length_bytes (e : Embedder) (text : Text) :
    (e.bytes text).length = 4 * e.dim := by
  rw [Embedder.bytes, length_toLeBytes, e.length_embedDocument]

/-! ## Opening -/

/-- The schema step of opening: base tables, `chunks_vec` at the embedder's width. -/
def openDbWith (dim : Nat) : Sql Unit :=
  Prog.batch (sqlContext "create schema (chunks + chunks_vec)")
    [.stmt .createChunks, .stmt (.createChunksVec dim)]

/-! ## Chunks -/

structure IndexedChunk where
  id : Text
  filePath : Text
  startLine : Nat
  endLine : Nat
  body : Text
deriving DecidableEq

/-- A symbol to attach to a chunk. -/
structure SymbolData where
  name : Text
  signature : Text
  kind : Text
  line : Nat
deriving DecidableEq

/-- What is embedded and tokenized: the body cut to `maxChunkBytes`. -/
def indexedText (body : Text) : Text := truncateOnCharBoundary body maxChunkBytes

/-- `code_tokens(indexed).join(" ")`. -/
def bodyTokens (D : Deps) (body : Text) : Text :=
  joinWith [' '] (codeTokens D.chars (indexedText body))

/-- The `chunks` row of a chunk. -/
def IndexedChunk.data (chunk : IndexedChunk) (kind : Text) : ChunkData :=
  { id := chunk.id, filePath := chunk.filePath, startLine := chunk.startLine,
    endLine := chunk.endLine, body := chunk.body, kind := some kind }

/-- The `symbols` row of a chunk's symbol. -/
def SymbolData.row (sym : SymbolData) (chunkId : Text) : SymbolRow :=
  { chunkId, name := sym.name, signature := sym.signature, kind := sym.kind, line := sym.line }

/-- Sole write path for a chunk. -/
def insertChunkFullWith (D : Deps) (chunk : IndexedChunk) (kind : Text)
    (symbol : Option SymbolData) (embedder : Embedder) : Sql Unit := do
  execute "insert chunk row" (.insertChunk (chunk.data kind))
  execute "insert chunk embedding" (.insertVec chunk.id (embedder.bytes (indexedText chunk.body)))
  execute "insert chunk fts row" (.insertFts chunk.id (bodyTokens D chunk.body))
  match symbol with
  | some sym => execute "insert symbol row" (.insertSymbol (sym.row chunk.id))
  | none => pure ()

/-! ## Imports and exports -/

/-- The `kind` column of `file_imports`. -/
def importKindTag : ImportKind → Text
  | .named _ => "named".toList
  | .default _ => "default".toList
  | .namespace _ => "namespace".toList
  | .sideEffect => "side_effect".toList
  | .require _ => "require".toList

/-- The `detail` column of `file_exports`. -/
def exportDetail : ExportKind → Text
  | .named items => joinWith ", ".toList items
  | .default name => "default ".toList ++ name
  | .reExport items source => joinWith ", ".toList items ++ " from ".toList ++ source
  | .reExportAll source => "* from ".toList ++ source

def importRow (filePath : Text) (imp : ImportStatement) : ImportRow :=
  { filePath, source := imp.source, kind := importKindTag imp.importKind, line := imp.line }

def exportRow (filePath : Text) (exp : ExportStatement) : ExportRow :=
  { filePath, detail := exportDetail exp.exportKind, line := exp.line }

/-- One row per import and export. -/
def writeFileStructural (filePath : Text) (imports : List ImportStatement)
    (exports : List ExportStatement) : Sql Unit := do
  imports.forM fun imp => execute "insert file import row" (.insertImport (importRow filePath imp))
  exports.forM fun exp => execute "insert file export row" (.insertExport (exportRow filePath exp))

end CodeSearch
