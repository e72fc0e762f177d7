import CodeSearch.Schema

/-!
# The reindex engine

`reindexWith` walks a repository and either wipes and rebuilds the index
(`force`) or applies a content-hash diff against `files` (incremental).  Each
file is reprocessed in one transaction that deletes its old rows, virtual
tables first, and inserts the new ones.

What the run reads from the file system is its `RepoView`: the canonical root,
the walked files, their mtimes and the elapsed time.
-/

namespace CodeSearch

open Store

/-! ## Inputs and outputs -/

/-- One file found by the walk. -/
structure WalkedFile where
  relPath : Text
  language : Option Language
  content : Text
deriving DecidableEq

/-- What a run reads from the file system. -/
structure RepoView where
  canonicalRoot : Text
  walked : List WalkedFile
  mtime : Text → Int
  durationMs : Nat

structure ReindexReport where
  filesIndexed : Nat
  chunks : Nat
  durationMs : Nat
  incremental : Bool
deriving DecidableEq

variable (D : Deps)

/-- `blake3(canonical(root))`. -/
def repoIdFor (canonicalRoot : Text) : Text := D.blake3Hex canonicalRoot

/-- A digest is not the migration placeholder. -/
theorem repoIdFor_ne_placeholder (root : Text) :
    repoIdFor D root ≠ migrationPlaceholderRepoId := by
  intro h
  have hmem : '<' ∈ migrationPlaceholderRepoId := by decide
  rw [← h] at hmem
  have := D.blake3Hex_hex root '<' hmem
  revert this
  decide

/-- `blake3(content)`. -/
def WalkedFile.hash (file : WalkedFile) : Text := D.blake3Hex file.content

/-- The `files.language` tag. -/
def languageTag (language : Option Language) : Option Text :=
  language.map fun
    | .rust => "rust".toList
    | .typeScript => "typescript".toList
    | .python => "python".toList
    | .go => "go".toList
    | .bash => "bash".toList
    | .java => "java".toList
    | .c => "c".toList
    | .ruby => "ruby".toList
    | .cpp => "cpp".toList

/-- A parameter as `name: type`, or its name alone. -/
def renderParameter (p : Parameter) : Text :=
  match p.typeAnnotation with
  | some ty => p.name ++ ": ".toList ++ ty
  | none => p.name

/-- A symbol's single-line signature: parameters and return type for a callable,
kind and name for a type. -/
def renderSignature (sig : FunctionSignature) (kind : Text) : Text :=
  if kind = "function".toList ∨ kind = "method".toList then
    let params := joinWith ", ".toList (sig.parameters.map renderParameter)
    match sig.returnType with
    | some ret => sig.name ++ "(".toList ++ params ++ ") -> ".toList ++ ret
    | none => sig.name ++ "(".toList ++ params ++ ")".toList
  else kind ++ " ".toList ++ sig.name

def symbolFromSignature (sig : FunctionSignature) (kind : Text) : SymbolData :=
  { name := sig.name, signature := renderSignature sig kind, kind, line := sig.line }

/-! ## One file -/

/-- The chunk to insert for a spec; line numbers are stored as `u32`. -/
def indexedChunk (rel : Text) (spec : ChunkSpec) : IndexedChunk :=
  { id := chunkId rel spec.startLine spec.endLine, filePath := rel,
    startLine := spec.startLine % 2 ^ 32, endLine := spec.endLine % 2 ^ 32, body := spec.body }

/-- The symbol of a spec. -/
def specSymbol (spec : ChunkSpec) : Option SymbolData :=
  spec.symbol.map fun sig => symbolFromSignature sig spec.kindStr

/-- Insert the chunk of a spec. -/
def insertSpec (rel : Text) (embedder : Embedder) (spec : ChunkSpec) : Sql Unit :=
  withContext "insert chunk"
    (insertChunkFullWith D (indexedChunk rel spec) spec.kindStr (specSymbol spec) embedder)

/-- Structural rows: only for parsed languages. -/
def writeStructural (file : WalkedFile) : Sql Unit :=
  match file.language with
  | none => pure ()
  | some lang =>
    match D.parseSourceImportsExports file.content lang with
    | .error e => .throw (.message ("parse imports/exports: ".toList ++ e.display))
    | .ok (imports, exports) =>
      withContext "write structural rows" (writeFileStructural file.relPath imports exports)

/-- The bookkeeping row of a file. -/
def filesRow (file : WalkedFile) (hash : Text) (mtime : Int) (repoId : Text) : FileRow :=
  { path := file.relPath, blake3Hash := hash, mtime, language := languageTag file.language, repoId }

/-- The delete half of a reprocess: virtual tables first. -/
def deleteOldRows (rel : Text) : Sql Unit := do
  execute "delete old chunks_vec rows" (.deleteOfPath .chunksVec rel)
  execute "delete old chunks_fts rows" (.deleteOfPath .chunksFts rel)
  execute "delete old symbol rows" (.deleteOfPath .symbols rel)
  execute "delete old file_imports rows" (.deleteOfPath .fileImports rel)
  execute "delete old file_exports rows" (.deleteOfPath .fileExports rel)
  execute "delete old chunk rows" (.deleteOfPath .chunks rel)

/-- The body of the per-file transaction. -/
def reprocessBody (file : WalkedFile) (specs : List ChunkSpec) (hash : Text) (mtime : Int)
    (repoId : Text) (embedder : Embedder) : Sql Nat := do
  deleteOldRows file.relPath
  specs.forM (insertSpec D file.relPath embedder)
  writeStructural D file
  execute "upsert files row" (.replaceFile (filesRow file hash mtime repoId))
  pure specs.length

/-- Reprocess one file in one transaction.  Chunking comes before it. -/
def reprocessFileWith (file : WalkedFile) (hash : Text) (mtime : Int) (repoId : Text)
    (embedder : Embedder) : Sql Nat :=
  match chunkFile D file.content file.language with
  | none => .throw .panic
  | some specs =>
    Prog.transaction (sqlContext "begin per-file txn") (sqlContext "commit per-file txn") id
      (reprocessBody D file specs hash mtime repoId embedder)

/-- Reprocess a file for a full reindex. -/
def reprocessFile (view : RepoView) (file : WalkedFile) (repoId : Text) (embedder : Embedder) :
    Sql Nat :=
  reprocessFileWith D file (file.hash D) (view.mtime file.relPath) repoId embedder

/-- A statement whose error gets no context of its own. -/
def bare (s : Stmt) : Sql s.Resp := Prog.execute .sql s

/-- The body of the removal of a file. -/
def removeBody (rel repoId : Text) : Sql Unit := do
  bare (.deleteOfPath .chunksVec rel)
  bare (.deleteOfPath .chunksFts rel)
  bare (.deleteOfPath .symbols rel)
  bare (.deleteOfPath .fileImports rel)
  bare (.deleteOfPath .fileExports rel)
  bare (.deleteOfPath .chunks rel)
  bare (.deleteFile rel repoId)

/-- Remove every row of a file that vanished from disk, in one transaction. -/
def removeFile (rel repoId : Text) : Sql Unit :=
  Prog.transaction (sqlContext "begin remove txn") (sqlContext "commit remove txn")
    (.context "remove deleted file".toList) (removeBody rel repoId)

/-! ## A run -/

/-- The tables `wipe_all` clears, in order. -/
def wipedTables : List WipedTable :=
  [.chunksVec, .chunksFts, .symbols, .fileImports, .fileExports, .chunks, .files]

/-- Delete every row from all index tables in a single transaction. -/
def wipeAll : Sql Unit :=
  Prog.batch (sqlContext "wipe all index tables")
    (.begin :: ((wipedTables.map Stmt.deleteAll).map .stmt ++ [.commit]))

/-- Complete the migration: placeholder rows get this repository's id. -/
def rewritePlaceholderRepoId (repoId : Text) : Sql Unit :=
  execute "rewrite placeholder repo_id to real id"
    (.updateRepoId repoId migrationPlaceholderRepoId)

/-- The paths recorded for `repoId`. -/
def storedFilePaths (repoId : Text) : Sql (List Text) :=
  execute "query files paths" (.selectFilePaths repoId)

/-- The stored hash and mtime; an error counts as not indexed. -/
def storedFileState (rel repoId : Text) : Sql (Option (Text × Int)) := do
  match ← (execute "query file state" (.selectFileState rel repoId)).attempt with
  | .ok row => pure row
  | .error _ => pure none

/-- The embedder check of an incremental run, which stamps an index that records
no embedder. -/
def checkEmbedder (embedder : Embedder) : Sql Unit := do
  withContext "verify embedder matches index" (verifyEmbedderMeta embedder.id embedder.dim)
  if (← readEmbedderMeta).isNone then
    withContext "stamp embedder meta" (writeEmbedderMeta embedder.id embedder.dim)

/-- One file of a full run; the counts are files and chunks so far. -/
def forceStep (view : RepoView) (repoId : Text) (embedder : Embedder) (counts : Nat × Nat)
    (file : WalkedFile) : Sql (Nat × Nat) := do
  let written ← reprocessFile D view file repoId embedder
  pure (counts.1 + 1, counts.2 + written)

/-- One file of an incremental run: skipped when its stored hash is its hash. -/
def incrementalStep (view : RepoView) (repoId : Text) (embedder : Embedder) (counts : Nat × Nat)
    (file : WalkedFile) : Sql (Nat × Nat) := do
  let stored ← storedFileState file.relPath repoId
  if stored.map (·.1) = some (file.hash D) then pure counts
  else do
    let written ← reprocessFileWith D file (file.hash D) (view.mtime file.relPath) repoId embedder
    pure (counts.1 + 1, counts.2 + written)

/-- One stored path of an incremental run: removed unless it was walked. -/
def dropStep (view : RepoView) (repoId rel : Text) : Sql Unit :=
  if rel ∈ view.walked.map (·.relPath) then pure () else removeFile rel repoId

/-- The full branch. -/
def reindexForce (view : RepoView) (repoId : Text) (embedder : Embedder) : Sql (Nat × Nat) := do
  wipeAll
  withContext "stamp embedder meta" (writeEmbedderMeta embedder.id embedder.dim)
  view.walked.foldlM (forceStep D view repoId embedder) (0, 0)

/-- The incremental branch: drop deleted files, then the diff. -/
def reindexIncremental (view : RepoView) (repoId : Text) (embedder : Embedder) :
    Sql (Nat × Nat) := do
  let stored ← storedFilePaths repoId
  stored.forM (dropStep view repoId)
  view.walked.foldlM (incrementalStep D view repoId embedder) (0, 0)

/-- The gate before the work: only an incremental run compares embedders. -/
def gateEmbedder (force : Bool) (embedder : Embedder) : Sql Unit :=
  if force then pure () else checkEmbedder embedder

/-- The files of a run: how many were indexed, and their chunks. -/
def reindexFiles (view : RepoView) (repoId : Text) (force : Bool) (embedder : Embedder) :
    Sql (Nat × Nat) :=
  if force then reindexForce D view repoId embedder
  else reindexIncremental D view repoId embedder

/-- (Re)index a repository. -/
def reindexWith (view : RepoView) (force : Bool) (embedder : Embedder) : Sql ReindexReport := do
  let repoId := repoIdFor D view.canonicalRoot
  rewritePlaceholderRepoId repoId
  gateEmbedder force embedder
  let counts ← reindexFiles D view repoId force embedder
  pure { filesIndexed := counts.1, chunks := counts.2, durationMs := view.durationMs,
         incremental := !force }

/-! ## Concrete parameters

For running the model: plain text in ASCII, the digests of a few texts, and an
embedder whose vectors are all alike. -/

/-- BLAKE3 digests. -/
def digests : List (Text × Text) :=
  [("a\n".toList, "81c4b7f7e0549f1514e9cae97cf40cf133920418d3dc71bedbf60ec9bd6148cb".toList),
   ("b\n".toList, "9d902f9864f3043dca97e40698eee07a2fe6771591c687ed129cde8f6fcc4a79".toList),
   ("/old".toList, "99a44995bcb77913d213019101d7b2a7c1e02330ed8e38f0a121bfb4cbaa24c2".toList),
   ("/new".toList, "566b4ee228beac76c7cc74f7bbec102e0388fcf9734ec26ac71f1420d44f7ef4".toList)]

/-- The dependencies on unparsed ASCII files whose digests are listed. -/
def Deps.plain : Deps :=
  { chars := .ascii
    blake3Hex := fun s => (digests.lookup s).getD []
    blake3Hex_hex := fun s => by
      have listed : digests.all (fun d => d.2.all fun c =>
        c.isDigit || (decide ('a' ≤ c) && decide (c ≤ 'f'))) = true := by decide +kernel
      cases h : digests.lookup s with
      | none => intro c hc; cases hc
      | some d =>
        obtain ⟨l, r, hl, -⟩ := List.lookup_eq_some_iff.1 h
        intro c hc
        have hd := List.all_eq_true.1 listed (s, d) (by rw [hl]; simp)
        simpa using List.all_eq_true.1 hd c hc
    parseSourceSpans := fun _ _ => .ok []
    parseSourceImportsExports := fun _ _ => .ok ([], []) }

/-- The embedder that answers `value` in every dimension. -/
def Embedder.const (id : Text) (dim : Nat) (value : UInt32) (h : dim < 2 ^ 64) : Embedder where
  id := id
  dim := dim
  embedDocument _ := List.replicate dim value
  length_embedDocument _ := List.length_replicate
  dim_lt := h

/-- A tree of unparsed files. -/
def plainView (canonicalRoot : Text) (files : List (Text × Text)) : RepoView :=
  { canonicalRoot
    walked := files.map fun f => { relPath := f.1, language := none, content := f.2 }
    mtime := fun _ => 0
    durationMs := 0 }

end CodeSearch
