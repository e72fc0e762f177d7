import CodeSearch.SearchVectors

/-!
# Which embedder a process runs

A process takes the local model that its environment names if the binary can load one and
the model loads, and the feature hash otherwise (`activeEmbedder`).  Its id and dimension
are recorded with the index, so processes of any builds and environments, with any models
that come and go, do not mix vectors in one index: a search with the feature hash compares
with feature-hash vectors only, one with a local model with vectors of models of the same
name (`vectors_of_backend`).

What a model computes is a parameter, and so are the sums of `f32`.
-/

namespace CodeSearch

open Relational Store

/-! ## Paths -/

/-- `Path::components` behind the root: a `.` counts in front only. -/
def components (path : Text) : List Text :=
  match path.splitOnP (· = '/') with
  | [] => []
  | first :: rest =>
    (if first = [] then [] else [first]) ++ rest.filter fun name => decide (name ≠ [] ∧ name ≠ ['.'])

/-- `Path::file_name`. -/
def pathFileName (path : Text) : Option Text :=
  (components path).getLast?.filter fun name => decide (name ≠ ['.'] ∧ name ≠ "..".toList)

/-- `Path::parent`. -/
def pathParent (path : Text) : Option Text :=
  if components path = [] then none
  else
    let names := joinWith ['/'] (components path).dropLast
    some (if path.head? = some '/' then '/' :: names else names)

example : pathParent "/m/mini/model.safetensors".toList = some "/m/mini".toList := by decide
example : pathParent "mini".toList = some [] := by decide
example : pathFileName "/m/mini/".toList = some "mini".toList := by decide

/-! ## Models -/

/-- `embed` of a BERT checkpoint before the length is checked, and its `hidden_size`. -/
structure BertModel where
  hiddenSize : Nat
  forward : Text → Option (List UInt32)

/-- `embed_native` of an EmbeddingGemma checkpoint. -/
structure GemmaModel where
  embedNative : Text → Option (List UInt32)
  /-- `NATIVE_DIM` -/
  length_embedNative : ∀ text v, embedNative text = some v → v.length = 768

/-- Vectors of `f32` bit patterns. -/
structure VectorOps where
  featureHashEmbed : Text → Nat → List UInt32
  l2Normalize : List UInt32 → List UInt32
  length_featureHashEmbed : ∀ text dim, (featureHashEmbed text dim).length = dim
  length_l2Normalize : ∀ v, (l2Normalize v).length = v.length

/-- What a process sees: how it was built, `APOHARA_EMBED_MODEL`, the file system, and what
loading the checkpoint of a directory gives. -/
structure Host where
  ggufEmbed : Bool
  embedModel : Option Text
  pathExists : Text → Bool
  isDir : Text → Bool
  /-- `model_type` in `config.json` -/
  modelType : Text → Option Text
  bert : Text → Option BertModel
  gemma : Text → Option GemmaModel

/-! ## Embedders -/

/-- `EMBED_DIM`, `MATRYOSHKA_DIM`. -/
def embedDim : Nat := 384
def matryoshkaDim : Nat := 256

theorem embedDim_lt : embedDim < 2 ^ 64 := by decide
theorem matryoshkaDim_lt : matryoshkaDim < 2 ^ 64 := by decide

/-- `FEATURE_HASH_ID`, `EMBEDDINGGEMMA_ID`, `DOC_PROMPT`, `QUERY_PROMPT`. -/
def featureHashId : Text := "feature-hash-v1".toList
def embeddinggemmaId : Text := "embeddinggemma-300m-256".toList
def docPrompt : Text := "title: none | text: ".toList
def queryPrompt : Text := "task: code retrieval | query: ".toList

/-- The last name of the checkpoint's directory. -/
def dirStem (dir : Text) : Text := (pathFileName dir).getD "model".toList

section
variable (V : VectorOps) (dim : Nat) (hdim : dim < 2 ^ 64)

def featureHashEmbedder : QueryEmbedder where
  id := featureHashId
  dim := dim
  embedDocument text := V.featureHashEmbed text dim
  length_embedDocument text := V.length_featureHashEmbed text dim
  dim_lt := hdim
  embedQuery text := V.featureHashEmbed text dim

/-- `embed_inner`: a vector of another length is an error. -/
def BertModel.embedInner (model : BertModel) (text : Text) : Option (List UInt32) :=
  (model.forward text).filter fun v => decide (v.length = dim)

/-- `GgufEmbedder::embed`: the feature hash for a text that fails. -/
def ggufEmbed (model : BertModel) (text : Text) : List UInt32 :=
  (model.embedInner dim text).getD (V.featureHashEmbed text dim)

theorem length_ggufEmbed (model : BertModel) (text : Text) :
    (ggufEmbed V dim model text).length = dim := by
  unfold ggufEmbed BertModel.embedInner
  cases hv : (model.forward text).filter fun v => decide (v.length = dim) with
  | none => exact V.length_featureHashEmbed text dim
  | some v => exact of_decide_eq_true (Option.filter_eq_some_iff.1 hv).2

def ggufEmbedder (dir : Text) (model : BertModel) : QueryEmbedder where
  id := "gguf:".toList ++ dirStem dir
  dim := dim
  embedDocument text := ggufEmbed V dim model text
  length_embedDocument text := length_ggufEmbed V dim model text
  dim_lt := hdim
  embedQuery text := ggufEmbed V dim model text

/-- `embed_truncated`. -/
def GemmaModel.embedTruncated (model : GemmaModel) (fullText : Text) : Option (List UInt32) :=
  (model.embedNative fullText).map fun v => V.l2Normalize (v.take matryoshkaDim)

/-- `embed_or_zero`. -/
def embedOrZero (model : GemmaModel) (fullText : Text) : List UInt32 :=
  (model.embedTruncated V fullText).getD (V.featureHashEmbed fullText matryoshkaDim)

theorem length_embedOrZero (model : GemmaModel) (fullText : Text) :
    (embedOrZero V model fullText).length = matryoshkaDim := by
  unfold embedOrZero GemmaModel.embedTruncated
  cases hv : model.embedNative fullText with
  | none => exact V.length_featureHashEmbed _ _
  | some v =>
    have hlen := model.length_embedNative fullText v hv
    show (V.l2Normalize (v.take matryoshkaDim)).length = matryoshkaDim
    rw [V.length_l2Normalize, List.length_take, hlen]
    rfl

def embeddingGemmaEmbedder (model : GemmaModel) : QueryEmbedder where
  id := embeddinggemmaId
  dim := matryoshkaDim
  embedDocument text := embedOrZero V model (docPrompt ++ text)
  length_embedDocument _ := length_embedOrZero V model _
  dim_lt := matryoshkaDim_lt
  embedQuery text := embedOrZero V model (queryPrompt ++ text)

end

/-! ## The choice -/

inductive EmbedderChoice where
  | featureHash
  | gguf (modelPath : Text)
  | fallbackToFeatureHash (warning : Text)
deriving DecidableEq

/-- A model that is asked for and missing is a fallback. -/
def resolveEmbedderChoice (configuredPath : Option Text) (pathExists : Text → Bool) :
    EmbedderChoice :=
  match configuredPath with
  | none => .featureHash
  | some p =>
    if isBlank p then .featureHash
    else if pathExists p then .gguf p
    else .fallbackToFeatureHash ("apohara-codesearch: configured embedding model '".toList ++ p ++
      "' not found; falling back to the built-in feature-hash embedder (no network fetch)".toList)

section
variable (V : VectorOps) (host : Host) (dim : Nat) (hdim : dim < 2 ^ 64)

/-- Without the feature the environment is not read. -/
def configuredModelPath : Option Text :=
  if host.ggufEmbed then host.embedModel.filter fun s => !isBlank s else none

/-- The directory of a checkpoint, or of a file in it. -/
def checkpointDir (modelPath : Text) : Option Text :=
  if host.isDir modelPath then some modelPath else pathParent modelPath

/-- `EmbeddingGemmaEmbedder::is_gemma_checkpoint`. -/
def isGemmaCheckpoint (dir : Text) : Bool := decide (host.modelType dir = some "gemma3_text".toList)

/-- `EmbeddingGemmaEmbedder::load`. -/
def loadGemma (modelPath : Text) : Option QueryEmbedder := do
  let dir ← checkpointDir host modelPath
  let model ← host.gemma dir
  pure (embeddingGemmaEmbedder V model)

/-- `GgufEmbedder::load`: a model of another dimension is refused. -/
def loadGguf (modelPath : Text) : Option QueryEmbedder := do
  let dir ← checkpointDir host modelPath
  let model ← host.bert dir
  if model.hiddenSize = dim then pure (ggufEmbedder V dim hdim dir model) else none

/-- The checkpoint's own embedder, or the feature hash if it cannot be loaded. -/
def loadGgufOrFallback (modelPath : Text) : QueryEmbedder :=
  if host.ggufEmbed then
    if (checkpointDir host modelPath).any (isGemmaCheckpoint host) then
      (loadGemma V host modelPath).getD (featureHashEmbedder V dim hdim)
    else (loadGguf V host dim hdim modelPath).getD (featureHashEmbedder V dim hdim)
  else featureHashEmbedder V dim hdim

/-- Resolve the active embedder of a process. -/
def activeEmbedder : QueryEmbedder :=
  match resolveEmbedderChoice (configuredModelPath host) host.pathExists with
  | .featureHash => featureHashEmbedder V dim hdim
  | .fallbackToFeatureHash _ => featureHashEmbedder V dim hdim
  | .gguf modelPath => loadGgufOrFallback V host dim hdim modelPath

end

/-! ## Backends -/

/-- The embedders a process may run. -/
inductive ResolvedEmbedder (V : VectorOps) (dim : Nat) (hdim : dim < 2 ^ 64) : QueryEmbedder → Prop
  | featureHash : ResolvedEmbedder V dim hdim (featureHashEmbedder V dim hdim)
  | gguf (dir : Text) (model : BertModel) : ResolvedEmbedder V dim hdim (ggufEmbedder V dim hdim dir model)
  | gemma (model : GemmaModel) : ResolvedEmbedder V dim hdim (embeddingGemmaEmbedder V model)

section
variable {V : VectorOps} {host : Host} {dim : Nat} {hdim : dim < 2 ^ 64}

theorem resolved_loadGemma {modelPath : Text} {e : QueryEmbedder}
    (h : loadGemma V host modelPath = some e) : ResolvedEmbedder V dim hdim e := by
  obtain ⟨dir, -, h⟩ := Option.bind_eq_some_iff.1 h
  obtain ⟨model, -, h⟩ := Option.bind_eq_some_iff.1 h
  cases h
  exact .gemma model

theorem resolved_loadGguf {modelPath : Text} {e : QueryEmbedder}
    (h : loadGguf V host dim hdim modelPath = some e) : ResolvedEmbedder V dim hdim e := by
  obtain ⟨dir, -, h⟩ := Option.bind_eq_some_iff.1 h
  obtain ⟨model, -, h⟩ := Option.bind_eq_some_iff.1 h
  split at h
  · cases h
    exact .gguf dir model
  · cases h

theorem resolved_getD {x : Option QueryEmbedder} (h : ∀ e, x = some e → ResolvedEmbedder V dim hdim e) :
    ResolvedEmbedder V dim hdim (x.getD (featureHashEmbedder V dim hdim)) := by
  cases x with
  | none => exact .featureHash
  | some e => exact h e rfl

theorem resolved_activeEmbedder (V : VectorOps) (host : Host) (dim : Nat) (hdim : dim < 2 ^ 64) :
    ResolvedEmbedder V dim hdim (activeEmbedder V host dim hdim) := by
  unfold activeEmbedder
  split
  · exact .featureHash
  · exact .featureHash
  · unfold loadGgufOrFallback
    split
    · split
      · exact resolved_getD fun _ => resolved_loadGemma
      · exact resolved_getD fun _ => resolved_loadGguf
    · exact .featureHash

theorem gguf_ne_featureHash (stem : Text) : "gguf:".toList ++ stem ≠ featureHashId := by
  intro h
  cases (List.cons.inj h).1

theorem gguf_ne_gemma (stem : Text) : "gguf:".toList ++ stem ≠ embeddinggemmaId := by
  intro h
  cases (List.cons.inj h).1

theorem gemma_ne_featureHash : embeddinggemmaId ≠ featureHashId := by decide

/-- A vector in an index that the embedder may open: it is of the same backend, for a local model
of one of the same name. -/
inductive VectorFor (V : VectorOps) (dim : Nat) (hdim : dim < 2 ^ 64) :
    QueryEmbedder → List UInt8 → Prop
  | featureHash (text : Text) :
      VectorFor V dim hdim (featureHashEmbedder V dim hdim) (toLeBytes (V.featureHashEmbed text dim))
  | gguf (dir dir' : Text) (hstem : dirStem dir' = dirStem dir) (model model' : BertModel)
      (text : Text) : VectorFor V dim hdim (ggufEmbedder V dim hdim dir model)
        (toLeBytes (ggufEmbed V dim model' text))
  | gemma (model model' : GemmaModel) (text : Text) :
      VectorFor V dim hdim (embeddingGemmaEmbedder V model)
        (toLeBytes (embedOrZero V model' (docPrompt ++ text)))

/-- Backends of one id are alike. -/
theorem vectorFor_of_id {e e' : QueryEmbedder} (h : ResolvedEmbedder V dim hdim e)
    (h' : ResolvedEmbedder V dim hdim e') (hid : e'.id = e.id) (text : Text) :
    VectorFor V dim hdim e (e'.bytes text) := by
  cases h with
  | featureHash =>
    cases h' with
    | featureHash => exact .featureHash text
    | gguf dir' model' => exact absurd hid (gguf_ne_featureHash _)
    | gemma model' => exact absurd hid gemma_ne_featureHash
  | gguf dir model =>
    cases h' with
    | featureHash => exact absurd hid.symm (gguf_ne_featureHash _)
    | gguf dir' model' => exact .gguf dir dir' (List.append_cancel_left hid) model model' text
    | gemma model' => exact absurd hid.symm (gguf_ne_gemma _)
  | gemma model =>
    cases h' with
    | featureHash => exact absurd hid.symm gemma_ne_featureHash
    | gguf dir' model' => exact absurd hid (gguf_ne_gemma _)
    | gemma model' => exact .gemma model model' text

/-- A vector for the feature hash is one of the feature hash. -/
theorem VectorFor.of_featureHash {e : QueryEmbedder} {bytes : List UInt8}
    (h : VectorFor V dim hdim e bytes) (hid : e.id = featureHashId) :
    ∃ text, bytes = toLeBytes (V.featureHashEmbed text dim) := by
  cases h with
  | featureHash text => exact ⟨text, rfl⟩
  | gguf dir dir' hstem model model' text => exact absurd hid (gguf_ne_featureHash _)
  | gemma model model' text => exact absurd hid gemma_ne_featureHash

end

/-! ## Processes -/

/-- An embedder that some process resolved. -/
def Active (V : VectorOps) (e : Embedder) : Prop :=
  ∃ host, e = (activeEmbedder V host embedDim embedDim_lt).toEmbedder

/-- Whatever processes opened a new database and ran on it, each with the embedder that it
resolved, and wherever they were stopped: once a process has it open for a search, every
vector in it is of the search's own backend; of the feature hash, if the search runs that. -/
theorem vectors_of_backend (V : VectorOps) (db db' : Db)
    (h : EmbedderHistory (Active V) (fun _ _ _ => True) Db.empty db) (host : Host)
    (allow : Req Stmt → Outcome RowId SqlError → Db → Txn Db → Prop)
    (hopen : Finishes engine allow (openIndex (activeEmbedder V host embedDim embedDim_lt)) db
      (.ok ()) db') :
    (∀ r ∈ db'.vecRows, VectorFor V embedDim embedDim_lt (activeEmbedder V host embedDim embedDim_lt)
      r.embedding) ∧
    ((activeEmbedder V host embedDim embedDim_lt).id = featureHashId → ∀ r ∈ db'.vecRows, ∃ text,
      r.embedding = toLeBytes (V.featureHashEmbed text embedDim)) := by
  obtain ⟨hdata, hrecorded⟩ := finishes_openIndex hopen
  have hunmixed : Unmixed (Active V) db' := (h.unmixed (unmixed_of_empty rfl)).schema hdata
  have hvectors : ∀ r ∈ db'.vecRows, VectorFor V embedDim embedDim_lt
      (activeEmbedder V host embedDim embedDim_lt) r.embedding := by
    intro r hr
    rcases hrecorded with hnone | hsome
    · rw [hunmixed.unrecorded hnone] at hr
      cases hr
    · obtain ⟨e, ⟨host', rfl⟩, hid, -, text, hbytes⟩ := hunmixed.made _ _ hsome r hr
      rw [hbytes]
      exact vectorFor_of_id (resolved_activeEmbedder V host embedDim embedDim_lt)
        (resolved_activeEmbedder V host' embedDim embedDim_lt) hid text
  exact ⟨hvectors, fun hid r hr => (hvectors r hr).of_featureHash hid⟩

/-! ## A model and a default build -/

/-- Vectors with the length of the text in every lane. -/
def lengthVectors : VectorOps where
  featureHashEmbed text dim := List.replicate dim (UInt32.ofNat text.length)
  l2Normalize v := v
  length_featureHashEmbed _ _ := List.length_replicate
  length_l2Normalize _ := rfl

/-- A process with a model. -/
def modelHost : Host where
  ggufEmbed := true
  embedModel := some "/m/mini".toList
  pathExists _ := true
  isDir _ := true
  modelType _ := some "bert".toList
  bert _ := some ⟨384, fun _ => some (List.replicate 384 9)⟩
  gemma _ := none

/-- One that is asked to run a model of another dimension, and one of a default build. -/
def narrowHost : Host := { modelHost with bert := fun _ => some ⟨768, fun _ => none⟩ }
def defaultHost : Host := { modelHost with ggufEmbed := false }

def modelEmbedder : QueryEmbedder := activeEmbedder lengthVectors modelHost embedDim embedDim_lt
def narrowEmbedder : QueryEmbedder := activeEmbedder lengthVectors narrowHost embedDim embedDim_lt
def defaultEmbedder : QueryEmbedder := activeEmbedder lengthVectors defaultHost embedDim embedDim_lt

/-- The first process opens a new database, migrates it and indexes the one file with its
model. -/
def modelFresh : Db := (replay engine (succeed 20) (openDbWith modelEmbedder.dim) Db.empty .idle).2.1
def modelMigrated : Db := (replay engine (succeed 60) migrate modelFresh .idle).2.1
def modelDb : Db :=
  (replay engine (succeed 60) (reindexWith .plain oneFileView true modelEmbedder.toEmbedder)
    modelMigrated .idle).2.1

/-- The second indexes it anew with the feature hash. -/
def hashedDb : Db :=
  (replay engine (succeed 60) (reindexWith .plain oneFileView true narrowEmbedder.toEmbedder)
    modelDb .idle).2.1

/-- The third opens it for a search. -/
def hashedOpened : Db := (replay engine (succeed 60) (openIndex defaultEmbedder) hashedDb .idle).2.1

/-- The model's vector is gone, and the feature hash's is there. -/
theorem vectors_of_backend_default :
    modelEmbedder.id = "gguf:mini".toList ∧ narrowEmbedder.id = featureHashId ∧
    modelDb.vecRows.map (fun r => r.embedding.take 4) = [[9, 0, 0, 0]] ∧
    hashedOpened.vecRows.map (fun r => r.embedding.take 4) = [[1, 0, 0, 0]] ∧
    ∀ r ∈ hashedOpened.vecRows, ∃ text,
      r.embedding = toLeBytes (lengthVectors.featureHashEmbed text embedDim) := by
  have hmodel : Active lengthVectors modelEmbedder.toEmbedder := ⟨modelHost, rfl⟩
  have hindexed : EmbedderHistory (Active lengthVectors) (fun _ _ _ => True) Db.empty modelDb := by
    unfold modelDb modelMigrated modelFresh
    exact history_played hmodel 20 60 60 trivial
  have hhistory : EmbedderHistory (Active lengthVectors) (fun _ _ _ => True) Db.empty hashedDb :=
    .reindexed .plain oneFileView true narrowEmbedder.toEmbedder hindexed ⟨narrowHost, rfl⟩ trivial
      (crash_replay _ (fun o _ => anyOutcome_of o) _ _)
  have hopen : Finishes engine anyOutcome (openIndex defaultEmbedder) hashedDb (.ok ()) hashedOpened :=
    finishes_replay (fun o (_ : o ∈ succeed 60) => anyOutcome_of o) (by decide +kernel)
  exact ⟨by decide +kernel, by decide +kernel, by decide +kernel, by decide +kernel,
    (vectors_of_backend lengthVectors hashedDb hashedOpened hhistory defaultHost anyOutcome hopen).2
      (by decide +kernel)⟩

end CodeSearch
