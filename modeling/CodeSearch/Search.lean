import CodeSearch.Boost
import CodeSearch.Dedup
import CodeSearch.Migration
import CodeSearch.Mmr

/-!
# Searching an index

`searchCode` retrieves by words and by vector, fuses the two lists, boosts them if
asked, drops overlapping ranges, reorders them if asked, hydrates the first `k` and
drops near-equal contents.

What FTS5 and vec0 rank best, and which queries fail, is a parameter (`Sqlite`);
every query reads the same tables.
-/

namespace CodeSearch

open Ranking Store

/-! ## Queries -/

/-- An embedder with its query side. -/
structure QueryEmbedder extends Embedder where
  embedQuery : Text → List UInt32

/-- The queries of a search. -/
inductive Query where
  | bm25 (matchExpr : Text) (k : Int)
  | knn (bytes : List UInt8) (k : Int)
  | importSources
  | embedding (id : Text)
  | chunk (id : Text)
  | importsOf (path : Text)
  | exportsOf (path : Text)

/-- The rankings of the virtual tables, best first, and the queries that fail. -/
structure Sqlite where
  bm25 : FtsTable → Text → List (RowId × Float)
  knn : VecTable → List UInt8 → Int → List (RowId × Float32)
  fails : Query → Option SqlError

/-- The rows of a query, unless it fails. -/
def Sqlite.rows {α : Type} (S : Sqlite) (context : String) (q : Query) (rows : α) :
    Except Error α :=
  match S.fails q with
  | some e => .error (sqlContext context e)
  | none => .ok rows

/-- `k as i64`. -/
def asI64 (k : Nat) : Int := if k < 2 ^ 63 then k else k - 2 ^ 64

/-- `LIMIT k`: a negative one is none. -/
def limited {α : Type} (k : Int) (rows : List α) : List α :=
  if k < 0 then rows else rows.take k.toNat

/-- `JOIN chunks c ON c.rowid = ...`. -/
def joinChunks {α : Type} (ix : Index) (rows : List (RowId × α)) : List (Text × α) :=
  rows.filterMap fun row =>
    (ix.chunks.rows.find? fun c => c.rowid = row.1).map fun c => (c.id, row.2)

/-! ## Retrieval -/

/-- The tokens as string literals, joined by `OR`. -/
def matchExpr (tokens : List Text) : Text :=
  joinWith " OR ".toList (tokens.map fun t => '"' :: t ++ ['"'])

/-- Lexical retrieval; a query without a token matches nothing. -/
def bm25Query (S : Sqlite) (U : CharTables) (ix : Index) (query : Text) (k : Nat) :
    Except Error (List (Text × Float)) :=
  let tokens := codeTokens U query
  if query.isEmpty || tokens.isEmpty then .ok []
  else
    S.rows "execute bm25 query" (.bm25 (matchExpr tokens) (asI64 k))
      (limited (asI64 k) (joinChunks ix (S.bm25 ix.fts (matchExpr tokens))))

/-- Vector retrieval. -/
def vectorQueryWith (S : Sqlite) (ix : Index) (query : Text) (k : Nat) (embedder : QueryEmbedder) :
    Except Error (List KnnHit) :=
  let bytes := toLeBytes (embedder.embedQuery query)
  S.rows "execute knn query" (.knn bytes (asI64 k))
    ((joinChunks ix (S.knn ix.vec bytes (asI64 k))).map fun row => ⟨row.1, row.2⟩)

/-! ## Fusion weights -/

/-- An `f64` weight; NaN and the infinities are alike. -/
inductive Weight (F : Type) where
  | finite (w : F)
  | nonFinite

section
variable {F : Type} [Field F]

def adaptiveBm25Heavy : F × F := (2, 1)
def adaptiveVectorHeavy : F × F := (1, 2)
def adaptiveNeutral : F × F := (1, 1)

/-- An underscore, a digit, or a lowercase letter before an uppercase one. -/
def looksLikeIdentifier (U : CharTables) (token : Text) : Bool :=
  token.contains '_' || token.any Char.isDigit ||
    (token.zip (token.drop 1)).any fun ab => U.isLowercase ab.1 && U.isUppercase ab.2

/-- `split_whitespace`. -/
def splitWhitespace (s : Text) : List Text := (s.splitOnP isWhitespace).filter fun w => !w.isEmpty

/-- Weights from the shape of the query. -/
def classifyQueryWeights (U : CharTables) (query : Text) : F × F :=
  match splitWhitespace query with
  | [] => adaptiveNeutral
  | [single] => if looksLikeIdentifier U single then adaptiveBm25Heavy else adaptiveNeutral
  | _ => adaptiveVectorHeavy

variable [LinearOrder F]

/-- A finite non-negative weight: 1 for what is not finite, 0 for what is negative. -/
def sanitizeWeight : Weight F → F
  | .nonFinite => 1
  | .finite w => if w < 0 then 0 else w

/-- The caller's weight, else the adaptive one, else 1, on each axis. -/
def resolveWeights (U : CharTables) (bm25Weight vectorWeight : Option (Weight F))
    (adaptive : Bool) (query : Text) : F × F :=
  let unset : F × F := if adaptive then classifyQueryWeights U query else adaptiveNeutral
  (sanitizeWeight (bm25Weight.getD (.finite unset.1)),
    sanitizeWeight (vectorWeight.getD (.finite unset.2)))

end

/-! ## Hydration -/

/-- `SNIPPET_MAX`. -/
def snippetMax : Nat := 2000

/-- The chunk of a row with its symbol's signature and its file's imports and exports. -/
def hydratedHit (ix : Index) (c : ChunkRow) : HydratedHit :=
  { chunkId := c.id, filePath := c.filePath, startLine := c.startLine, endLine := c.endLine,
    kind := c.kind.getD [],
    signature := (ix.symbols.rows.find? fun s => s.chunkId = c.id).map (·.signature),
    snippet := c.body.take snippetMax,
    imports := (ix.imports.filter fun i => i.filePath = c.filePath).map
      fun i => ⟨i.source, i.kind, i.line⟩,
    exports := (ix.exports.filter fun x => x.filePath = c.filePath).map fun x => ⟨x.detail, x.line⟩ }

/-- Hydrate a chunk, if there is one with this id. -/
def hydrate (S : Sqlite) (ix : Index) (id : Text) : Except Error (Option HydratedHit) := do
  match ← S.rows "query chunk for hydration" (.chunk id) (ix.chunks.rows.find? fun c => c.id = id) with
  | none => pure none
  | some c =>
    let hit := hydratedHit ix c
    let imports ← S.rows "execute file_imports query" (.importsOf c.filePath) hit.imports
    let exports ← S.rows "execute file_exports query" (.exportsOf c.filePath) hit.exports
    pure (some { hit with imports, exports })

/-- The stored embeddings of the ids. -/
def loadEmbeddings (S : Sqlite) (ix : Index) (ids : List Text) :
    Except Error (Entries Text (List UInt32)) :=
  ids.foldlM (fun out id => do
    match ← S.rows "read chunk embedding" (.embedding id) (ix.embeddingOf id) with
    | some bytes => pure (out.alter id fun _ => leBytesToF32 bytes)
    | none => pure out) .empty

/-! ## The tool -/

/-- A request; `path` is what found the index. -/
structure SearchCodeParams (F : Type) where
  query : Text
  k : Option Nat
  rrfK : Option Nat
  bm25Weight : Option (Weight F)
  vectorWeight : Option (Weight F)
  adaptive : Option Bool
  diversify : Option Bool
  boostImports : Option Bool

structure SearchHit (F : Type) where
  file : Text
  startLine : Nat
  endLine : Nat
  kind : Text
  signature : Option Text
  snippet : Text
  score : F
  imports : List ImportDto
  exports : List ExportDto
deriving DecidableEq

def SearchHit.fromHydrated {F : Type} (hit : HydratedHit) (score : F) : SearchHit F :=
  { file := hit.filePath, startLine := hit.startLine, endLine := hit.endLine, kind := hit.kind,
    signature := hit.signature, snippet := hit.snippet, score, imports := hit.imports,
    exports := hit.exports }

/-- `DEFAULT_K`, `RRF_K`. -/
def defaultK : Nat := 10
def rrfK : Nat := 60

/-- Open and migrate the database, and refuse an index of another embedder. -/
def openIndex (embedder : QueryEmbedder) : Sql Unit := do
  openDbWith embedder.dim
  migrate
  verifyEmbedderMeta embedder.id embedder.dim

section
variable {F : Type} [Field F] [LinearOrder F]

/-- `MMR_LAMBDA`. -/
def mmrLambda : F := 7 / 10

/-- What the search is given besides the index and the request: SQLite's rankings, the
character classes, the embedder, the floats, and the iteration order of hash maps. -/
structure Machine (F : Type) where
  sqlite : Sqlite
  chars : CharTables
  embedder : QueryEmbedder
  floats : Floats F
  order : Order Text F

variable (M : Machine F) (ix : Index) (req : SearchCodeParams F)

/-- The fused candidates, boosted if asked. -/
def fusedCandidates : Except Error (List (Text × F)) := do
  let k := req.k.getD defaultK
  let weights := resolveWeights M.chars req.bm25Weight req.vectorWeight (req.adaptive.getD false) req.query
  let bm25 ← bm25Query M.sqlite M.chars ix req.query k
  let vector ← vectorQueryWith M.sqlite ix req.query k M.embedder
  let fused := rrfFuseWeighted .wrapping M.order bm25 vector (req.rrfK.getD rrfK) weights.1 weights.2
  if req.boostImports.getD false then
    if (codeTokens M.chars req.query).isEmpty || fused.isEmpty then pure fused
    else
      M.sqlite.rows "execute file_imports scan" .importSources
        (applyStructuralBoost M.chars ix.imports req.query fused)
  else pure fused

/-- The candidates without overlaps, reordered if asked. -/
def survivors (fused : List (Text × F)) : Except Error (List (Text × F)) := do
  let fused := dedupOverlapping fused
  if req.diversify.getD false then
    let embeddings ← loadEmbeddings M.sqlite ix (fused.map Prod.fst)
    pure (mmrRerank M.floats fused embeddings mmrLambda)
  else pure fused

/-- Hydrate the candidates; one without a chunk is left out. -/
def hydrateAll : List (Text × F) → Except Error (List (HydratedHit × F))
  | [] => pure []
  | (id, score) :: rest => do
    match ← hydrate M.sqlite ix id with
    | some hit =>
      let hits ← hydrateAll rest
      pure ((hit, score) :: hits)
    | none => hydrateAll rest

/-- The hits for a request on an open index. -/
def searchCode : Except Error (List (SearchHit F)) := do
  let fused ← fusedCandidates M ix req
  let kept ← survivors M ix req fused
  let hydrated ← hydrateAll M ix (kept.take (req.k.getD defaultK))
  pure ((dedupContent M.chars hydrated).map fun hit => .fromHydrated hit.1 hit.2)

end

end CodeSearch
