import CodeSearch.Lib.Invariant
import CodeSearch.Reprocess

/-!
# Rowid binding and coherence of the index

`Coherent D e ok repoId ix` is the invariant of an index of one repository:
nothing dangles, every `files` row stands for a content whose chunks, vectors,
tokens, symbols, imports and exports are exactly the stored ones, and a path
without a `files` row has no rows at all.  `ok` is whatever the walk promises of
its files.  Every transaction of the indexer keeps it, so
every committed state has it, whatever connections run, fail or die
(`reachable_rowidBinding`).
-/

namespace CodeSearch

open Relational Store

variable (D : Deps) (e : Embedder) (ok : WalkedFile → Prop)

/-! ## The invariant -/

/-- `file` is a content a `files` row may stand for. -/
structure Stands (row : FileRow) (file : WalkedFile) : Prop where
  path : file.relPath = row.path
  hash : file.hash D = row.blake3Hash
  language : languageTag file.language = row.language

structure Coherent (repoId : Text) (ix : Index) : Prop where
  bound : ix.Bound
  repo : ∀ r ∈ ix.files.rows, r.repoId = repoId
  listed : ∀ r ∈ ix.files.rows, ∃ file, ok file ∧ Stands D r file ∧
    fileRows D e file = some (ix.rowsOf r.path)
  unlisted : ∀ p, (∀ r ∈ ix.files.rows, r.path ≠ p) → ix.rowsOf p = .empty

variable {D e ok} {repoId : Text} {ix ix' : Index}

theorem coherent_empty (width : Nat) : Coherent D e ok repoId (.empty width) where
  bound := Index.bound_empty width
  repo _ h := by cases h
  listed _ h := by cases h
  unlisted p _ := Index.rowsOf_empty width p

/-- Rewriting the placeholder finds no row to change. -/
theorem Coherent.rewritten (h : Coherent D e ok repoId ix) {old : Text} {t : FileTable}
    (ht : ix.files.update? (fun r => r.repoId = old) (fun r => { r with repoId := repoId }) =
      some t) : t = ix.files := by
  rw [Table.update?_eq_some] at ht
  ext1
  rw [ht]
  conv => rhs; rw [← List.map_id ix.files.rows]
  refine List.map_congr_left fun r hr => ?_
  have := h.repo r hr
  subst this
  simp

/-- Meta rows carry no content. -/
theorem Coherent.metaRows (h : Coherent D e ok repoId ix) (m : MetaTable) :
    Coherent D e ok repoId { ix with metaRows := m } :=
  ⟨⟨h.bound.vec, h.bound.fts, h.bound.symbols⟩, h.repo, h.listed, h.unlisted⟩

theorem Coherent.wiped (_ : Coherent D e ok repoId ix) : Coherent D e ok repoId ix.wiped :=
  (coherent_empty ix.width).metaRows ix.metaRows

theorem Coherent.reprocessed (h : Coherent D e ok repoId ix) {file : WalkedFile} {mtime : Int}
    (hok : ok file)
    (hr : Reprocessed D e file (filesRow file (file.hash D) mtime repoId) ix ix') :
    Coherent D e ok repoId ix' := by
  have hmem : ∀ r, r ∈ ix'.files.rows ↔ r = filesRow file (file.hash D) mtime repoId ∨
      r ∈ ix.files.rows ∧ r.path ≠ file.relPath := by
    intro r
    rw [hr.files, Table.mem_replace FileRow.clash_symm]
    refine or_congr_right (and_congr_right fun hm => not_congr ?_)
    exact ⟨fun hc => hc.2, fun hc => ⟨h.repo r hm, hc⟩⟩
  refine ⟨hr.bound, fun r hm => ?_, fun r hm => ?_, fun p hp => ?_⟩
  · rcases (hmem r).1 hm with rfl | ⟨hm, -⟩
    · rfl
    · exact h.repo r hm
  · rcases (hmem r).1 hm with rfl | ⟨hm, hne⟩
    · exact ⟨file, hok, ⟨rfl, rfl, rfl⟩, hr.rows⟩
    · rw [hr.others _ hne]
      exact h.listed r hm
  · have hne : p ≠ file.relPath := fun he =>
      hp _ ((hmem _).2 (.inl rfl)) he.symm
    rw [hr.others p hne]
    exact h.unlisted p fun r hm he => hp r ((hmem r).2 (.inr ⟨hm, by rw [he]; exact hne⟩)) he

theorem Coherent.removed (h : Coherent D e ok repoId ix) (rel : Text) :
    Coherent D e ok repoId (ix.removePath rel repoId) := by
  have hmem : ∀ r, r ∈ (ix.removePath rel repoId).files.rows ↔
      r ∈ ix.files.rows ∧ r.path ≠ rel := by
    intro r
    refine (Table.mem_delete _ _ _).trans (and_congr_right fun hm => ?_)
    simp [h.repo r hm]
  have hrows : ∀ q, (ix.removePath rel repoId).rowsOf q = (ix.clearPath rel).rowsOf q :=
    fun _ => rfl
  have hb := h.bound.clearPath rel
  refine ⟨⟨hb.vec, hb.fts, hb.symbols⟩, fun r hm => h.repo r ((hmem r).1 hm).1,
    fun r hm => ?_, fun p hp => ?_⟩
  · obtain ⟨hm, hne⟩ := (hmem r).1 hm
    rw [hrows, ix.rowsOf_clearPath_ne hne]
    exact h.listed r hm
  · rw [hrows]
    by_cases hpr : p = rel
    · subst hpr; exact ix.rowsOf_clearPath_self p
    · rw [ix.rowsOf_clearPath_ne hpr]
      exact h.unlisted p fun r hm he => hp r ((hmem r).2 ⟨hm, by rw [he]; exact hpr⟩) he

/-! ## Every operation keeps it -/

variable (D e ok) (repoId) in
/-- The committed database is a coherent index. -/
def IsCoherent (db : Db) : Prop := ∃ ix : Index, db = ix.toDb ∧ Coherent D e ok repoId ix

section
variable {allow : Req Stmt → Outcome RowId SqlError → Db → Txn Db → Prop}

/-- A statement that changes nothing. -/
theorem keeps_read {I : Db → Prop} {text : String} {s : Stmt}
    (h : ∀ x db r db', exec s x db = .ok (r, db') → db' = db) :
    Keeps engine allow I (execute text s) :=
  keeps_execute fun c x r c' _ hx hI => by rw [h x c r c' hx]; exact hI

/-- A statement that answers from a table that it needs leaves the database as it was. -/
theorem read_bind {α β : Type} {table : Except SqlError α} {answer : α → β} {r : β} {db db' : Db}
    (h : (table >>= fun t => .ok (answer t, db)) = .ok (r, db')) : db' = db := by
  cases table with
  | error y => cases h
  | ok t =>
    cases h
    rfl

theorem read_selectMeta (key : Text) (x : RowId) (db : Db) (r : Option Text) (db' : Db)
    (h : exec (.selectMeta key) x db = .ok (r, db')) : db' = db := read_bind h

theorem read_selectFilePaths (repoId : Text) (x : RowId) (db : Db) (r : List Text) (db' : Db)
    (h : exec (.selectFilePaths repoId) x db = .ok (r, db')) : db' = db := read_bind h

theorem read_selectFileState (path repoId : Text) (x : RowId) (db : Db)
    (r : Option (Text × Int)) (db' : Db)
    (h : exec (.selectFileState path repoId) x db = .ok (r, db')) : db' = db := read_bind h

theorem keeps_rewrite :
    Keeps engine allow (IsCoherent D e ok repoId) (rewritePlaceholderRepoId repoId) := by
  refine keeps_execute fun c x r c' _ hx hI => ?_
  obtain ⟨ix, rfl, h⟩ := hI
  obtain ⟨t, ht, hx⟩ := checked_bind_eq_ok.1 hx
  cases hx
  cases h.rewritten ht
  exact ⟨ix, rfl, h⟩

theorem keeps_replaceMeta (text : String) (key value : Text) :
    Keeps engine allow (IsCoherent D e ok repoId) (execute text (.replaceMeta key value)) := by
  refine keeps_execute fun c x r c' _ hx hI => ?_
  obtain ⟨ix, rfl, h⟩ := hI
  cases hx
  exact ⟨{ ix with metaRows := ix.metaRows.replace ⟨key, value⟩ }, rfl, h.metaRows _⟩

theorem keeps_writeEmbedderMeta (id : Text) (dim : Nat) :
    Keeps engine allow (IsCoherent D e ok repoId) (writeEmbedderMeta id dim) :=
  keeps_bind (keeps_replaceMeta _ _ _) fun _ => keeps_replaceMeta _ _ _

theorem keeps_readEmbedderMeta {I : Db → Prop} : Keeps engine allow I readEmbedderMeta := by
  refine keeps_bind (keeps_read (read_selectMeta _)) fun id => ?_
  refine keeps_bind (keeps_read (read_selectMeta _)) fun dimS => ?_
  split
  · split
    · exact keeps_pure _
    · exact keeps_throw _
  · exact keeps_pure _

theorem keeps_verifyEmbedderMeta {I : Db → Prop} (id : Text) (dim : Nat) :
    Keeps engine allow I (verifyEmbedderMeta id dim) := by
  refine keeps_bind keeps_readEmbedderMeta fun stored => ?_
  split
  · split
    · exact keeps_throw _
    · exact keeps_pure _
  · exact keeps_pure _

theorem keeps_checkEmbedder (embedder : Embedder) :
    Keeps engine allow (IsCoherent D e ok repoId) (checkEmbedder embedder) := by
  refine keeps_bind (keeps_mapError _ (keeps_verifyEmbedderMeta _ _)) fun _ => ?_
  refine keeps_bind keeps_readEmbedderMeta fun stored => ?_
  split
  · exact keeps_mapError _ (keeps_writeEmbedderMeta _ _)
  · exact keeps_pure _

theorem keeps_wipeAll : Keeps engine allow (IsCoherent D e ok repoId) wipeAll := by
  refine keeps_batch_txn fun c t hc hI => ?_
  obtain ⟨ix, rfl, h⟩ := hI
  exact ⟨ix.wiped, completes_wipe hc rfl, h.wiped⟩

theorem keeps_removeFile (rel : Text) :
    Keeps engine allow (IsCoherent D e ok repoId) (removeFile rel repoId) := by
  refine keeps_transaction (strict_removeBody _ _) fun c u t hc hI => ?_
  obtain ⟨ix, rfl, h⟩ := hI
  exact ⟨ix.removePath rel repoId, completes_removeBody hc rfl, h.removed rel⟩

theorem keeps_reprocessFileWith {file : WalkedFile} (hok : ok file) (mtime : Int) :
    Keeps engine allow (IsCoherent D e ok repoId)
      (reprocessFileWith D file (file.hash D) mtime repoId e) := by
  unfold reprocessFileWith
  cases hs : chunkFile D file.content file.language with
  | none => exact keeps_throw _
  | some specs =>
    refine keeps_transaction (strict_reprocessBody D e _ _ _ _ _) fun c n t hc hI => ?_
    obtain ⟨ix, rfl, h⟩ := hI
    obtain ⟨ix', ht, -, hr⟩ := completes_reprocessBody D e hs h.bound hc rfl
    exact ⟨ix', ht, h.reprocessed hok hr⟩

theorem keeps_incrementalStep (view : RepoView) (counts : Nat × Nat) {file : WalkedFile}
    (hok : ok file) :
    Keeps engine allow (IsCoherent D e ok repoId) (incrementalStep D view repoId e counts file) := by
  have lookup : Keeps engine allow (IsCoherent D e ok repoId)
      (storedFileState file.relPath repoId) := by
    refine keeps_bind (keeps_attempt (keeps_read (read_selectFileState _ _))) fun row => ?_
    split <;> exact keeps_pure _
  refine keeps_bind lookup fun row => ?_
  split
  · exact keeps_pure _
  · exact keeps_bind (keeps_reprocessFileWith hok _) fun _ => keeps_pure _

theorem keeps_reindexFiles (view : RepoView) (force : Bool) (hok : ∀ f ∈ view.walked, ok f) :
    Keeps engine allow (IsCoherent D e ok repoId) (reindexFiles D view repoId force e) := by
  unfold reindexFiles
  split
  · refine keeps_bind keeps_wipeAll fun _ => ?_
    refine keeps_bind (keeps_mapError _ (keeps_writeEmbedderMeta _ _)) fun _ => ?_
    exact keeps_foldlM _ (fun file hf counts =>
      keeps_bind (keeps_reprocessFileWith (hok file hf) _) fun _ => keeps_pure _) _
  · refine keeps_bind (keeps_read (read_selectFilePaths _)) fun stored => ?_
    refine keeps_bind (keeps_forM _ fun rel _ => ?_) fun _ => ?_
    · unfold dropStep
      split
      · exact keeps_pure _
      · exact keeps_removeFile _
    · exact keeps_foldlM _ (fun file hf counts => keeps_incrementalStep _ _ (hok file hf)) _

/-- A reindex of the repository, force or incremental. -/
theorem keeps_reindexWith (view : RepoView) (force : Bool) (hok : ∀ f ∈ view.walked, ok f) :
    Keeps engine allow (IsCoherent D e ok (repoIdFor D view.canonicalRoot))
      (reindexWith D view force e) := by
  refine keeps_bind keeps_rewrite fun _ => ?_
  refine keeps_bind ?_ fun _ => keeps_bind (keeps_reindexFiles _ _ hok) fun _ => keeps_pure _
  unfold gateEmbedder
  split
  · exact keeps_pure _
  · exact keeps_checkEmbedder e

end

/-! ## Any number of connections -/

/-- What a connection may run on the index of one repository. -/
inductive IndexOp where
  | reindex (view : RepoView) (force : Bool)
  | reprocessFile (file : WalkedFile) (mtime : Int)
  | removeFile (rel : Text)

variable (D e) in
/-- The program of an operation on the repository rooted at `root`. -/
def IndexOp.prog (root : Text) : IndexOp → Sql Unit
  | .reindex view force =>
    reindexWith D { view with canonicalRoot := root } force e >>= fun _ => pure ()
  | .reprocessFile file mtime =>
    reprocessFileWith D file (file.hash D) mtime (repoIdFor D root) e >>= fun _ => pure ()
  | .removeFile rel => CodeSearch.removeFile rel (repoIdFor D root)

theorem keeps_indexOp {allow : Req Stmt → Outcome RowId SqlError → Db → Txn Db → Prop}
    (root : Text) (op : IndexOp) :
    Keeps engine allow (IsCoherent D e (fun _ => True) (repoIdFor D root)) (op.prog D e root) := by
  cases op with
  | reindex view force =>
    exact keeps_bind (keeps_reindexWith { view with canonicalRoot := root } force
      fun _ _ => trivial) fun _ => keeps_pure _
  | reprocessFile file mtime =>
    exact keeps_bind (keeps_reprocessFileWith trivial _) fun _ => keeps_pure _
  | removeFile rel => exact keeps_removeFile rel

/-- Every request may succeed with any rowid, fail, or fail and roll back. -/
def anyOutcome : Req Stmt → Outcome RowId SqlError → Db → Txn Db → Prop := fun _ _ _ _ => True

/-- The connections of one index file, none in the middle of anything. -/
def idlePool (ι : Type) (L : Type) (db : Db) : Pool Stmt Stmt.Resp SqlError Error Unit Db L ι :=
  { db, client := fun _ => ⟨none, .idle⟩ }

variable (D e) in
/-- The rows stored under a rowid or id belong to the chunk that has it, and
every `files` row stands for a content whose rows are the stored ones. -/
structure RowidBinding (ix : Index) : Prop where
  rowids : (ix.chunks.rows.map (·.rowid)).Nodup ∧ (ix.vec.rows.map (·.rowid)).Nodup ∧
    (ix.fts.rows.map (·.rowid)).Nodup
  vecRowids : ∀ i, i ∈ ix.vec.rows.map (·.rowid) ↔ i ∈ ix.chunks.rows.map (·.rowid)
  ftsRowids : ∀ i, i ∈ ix.fts.rows.map (·.rowid) ↔ i ∈ ix.chunks.rows.map (·.rowid)
  embedding : ∀ c ∈ ix.chunks.rows, ∀ v ∈ ix.vec.rows, v.rowid = c.rowid →
    v.embedding = e.bytes (truncateOnCharBoundary c.body maxChunkBytes)
  tokens : ∀ c ∈ ix.chunks.rows, ∀ f ∈ ix.fts.rows, f.rowid = c.rowid →
    f.bodyTokens = joinWith [' '] (codeTokens D.chars (truncateOnCharBoundary c.body maxChunkBytes))
  symbols : ∀ s ∈ ix.symbols.rows, ∃ c ∈ ix.chunks.rows, c.id = s.chunkId
  files : ∀ r ∈ ix.files.rows, ∃ file, Stands D r file ∧
    fileRows D e file = some (ix.rowsOf r.path)
  paths : ∀ c ∈ ix.chunks.rows, ∃ r ∈ ix.files.rows, r.path = c.filePath

/-- A chunk of a coherent index is one its file's content was cut into. -/
theorem Coherent.entry (h : Coherent D e ok repoId ix) {c : ChunkRow} (hc : c ∈ ix.chunks.rows) :
    (∃ r ∈ ix.files.rows, r.path = c.filePath) ∧
      ∃ rel spec, ix.entry c = specEntry D e rel spec := by
  have hmem : ix.entry c ∈ (ix.rowsOf c.filePath).entries :=
    List.mem_map_of_mem (Index.mem_chunksOf.2 ⟨hc, rfl⟩)
  have hlisted : ∃ r ∈ ix.files.rows, r.path = c.filePath := by
    by_contra hno
    push Not at hno
    rw [h.unlisted _ hno] at hmem
    cases hmem
  refine ⟨hlisted, ?_⟩
  obtain ⟨r, hr, hp⟩ := hlisted
  obtain ⟨file, -, -, hrows⟩ := h.listed r hr
  rw [hp] at hrows
  obtain ⟨specs, -, hrows⟩ := Option.bind_eq_some_iff.1 hrows
  obtain ⟨structural, -, hrows⟩ := Option.bind_eq_some_iff.1 hrows
  rw [← Option.some.inj hrows] at hmem
  obtain ⟨spec, -, hspec⟩ := List.mem_map.1 hmem
  exact ⟨_, spec, hspec.symm⟩

theorem nodup_rowids {ρ : Type} {clash : ρ → ρ → Prop} (t : Table ρ clash) (f : ρ → RowId)
    (hf : ∀ a b, f a = f b → clash a b) : (t.rows.map f).Nodup :=
  List.pairwise_map.2 (t.distinct.imp fun hn he => hn (hf _ _ he))

theorem Coherent.rowidBinding (h : Coherent D e ok repoId ix) : RowidBinding D e ix := by
  have vectors : ∀ c ∈ ix.chunks.rows,
      (ix.vec.rows.filter fun v => v.rowid = c.rowid).map (·.embedding) =
        [e.bytes (indexedText c.body)] := by
    intro c hc
    obtain ⟨-, rel, spec, hs⟩ := h.entry hc
    have hbody : c.body = spec.body := congrArg (fun x : Entry => x.data.body) hs
    rw [hbody]
    exact congrArg Entry.vectors hs
  have tokens : ∀ c ∈ ix.chunks.rows,
      (ix.fts.rows.filter fun f => f.rowid = c.rowid).map (·.bodyTokens) =
        [bodyTokens D c.body] := by
    intro c hc
    obtain ⟨-, rel, spec, hs⟩ := h.entry hc
    have hbody : c.body = spec.body := congrArg (fun x : Entry => x.data.body) hs
    rw [hbody]
    exact congrArg Entry.tokens hs
  refine ⟨⟨nodup_rowids _ _ fun _ _ => .inl, nodup_rowids _ _ fun _ _ => id,
    nodup_rowids _ _ fun _ _ => id⟩, fun i => ?_, fun i => ?_, fun c hc v hv he => ?_,
    fun c hc f hf he => ?_, h.bound.symbols, fun r hr => ?_, fun c hc => (h.entry hc).1⟩
  · simp only [List.mem_map]
    constructor
    · rintro ⟨v, hv, rfl⟩
      exact h.bound.vec v hv
    · rintro ⟨c, hc, rfl⟩
      have : e.bytes (indexedText c.body) ∈
          (ix.vec.rows.filter fun v => v.rowid = c.rowid).map (·.embedding) := by
        rw [vectors c hc]; simp
      obtain ⟨v, hv, -⟩ := List.mem_map.1 this
      exact ⟨v, (List.mem_filter.1 hv).1, by simpa using (List.mem_filter.1 hv).2⟩
  · simp only [List.mem_map]
    constructor
    · rintro ⟨f, hf, rfl⟩
      exact h.bound.fts f hf
    · rintro ⟨c, hc, rfl⟩
      have : bodyTokens D c.body ∈
          (ix.fts.rows.filter fun f => f.rowid = c.rowid).map (·.bodyTokens) := by
        rw [tokens c hc]; simp
      obtain ⟨f, hf, -⟩ := List.mem_map.1 this
      exact ⟨f, (List.mem_filter.1 hf).1, by simpa using (List.mem_filter.1 hf).2⟩
  · have : v.embedding ∈ (ix.vec.rows.filter fun v => v.rowid = c.rowid).map (·.embedding) :=
      List.mem_map_of_mem (List.mem_filter.2 ⟨hv, by simpa using he⟩)
    rw [vectors c hc] at this
    exact List.mem_singleton.1 this
  · have : f.bodyTokens ∈ (ix.fts.rows.filter fun f => f.rowid = c.rowid).map (·.bodyTokens) :=
      List.mem_map_of_mem (List.mem_filter.2 ⟨hf, by simpa using he⟩)
    rw [tokens c hc] at this
    exact List.mem_singleton.1 this
  · obtain ⟨file, -, hfile⟩ := h.listed r hr
    exact ⟨file, hfile⟩

/-- Whatever the connections to an empty migrated index run, in any
interleaving, with any statement failing and any connection killed: every
committed state binds its rowids and ids correctly and is coherent. -/
theorem reachable_rowidBinding {ι : Type} [DecidableEq ι] (D : Deps) (e : Embedder) (root : Text)
    (width : Nat) (s : Pool Stmt Stmt.Resp SqlError Error Unit Db IndexOp ι)
    (h : Pool.Reachable engine anyOutcome (fun _ op p => p = op.prog D e root)
      (idlePool ι IndexOp (Index.empty width).toDb) s) :
    ∃ ix : Index, s.db = ix.toDb ∧ RowidBinding D e ix := by
  obtain ⟨ix, hdb, hc⟩ := keeps_reachable (I := IsCoherent D e (fun _ => True) (repoIdFor D root))
    (fun cl op p hp => by rw [hp]; exact keeps_indexOp root op)
    ⟨_, rfl, coherent_empty width⟩ (fun _ => rfl) h
  exact ⟨ix, hdb, hc.rowidBinding⟩

/-- A full reindex of a tree of one file. -/
def oneFileOp : IndexOp :=
  .reindex (plainView "/old".toList [("a".toList, "a\n".toList)]) true

def oneFileEmbedder : Embedder := .const "m".toList 1 0 (by decide)

/-- It runs to its end without a fault. -/
def oneFileRun : Sql Unit × Db × Txn Db :=
  replay engine (List.replicate 24 (.run 7)) (oneFileOp.prog .plain oneFileEmbedder "/old".toList)
    (Index.empty 1).toDb .idle

theorem run_oneFileRun : Run engine anyOutcome
    (oneFileOp.prog .plain oneFileEmbedder "/old".toList) (Index.empty 1).toDb .idle
    oneFileRun.1 oneFileRun.2.1 oneFileRun.2.2 := run_replay _ (fun _ _ _ _ _ => trivial) _ _ _

/-- The first of two connections runs it. -/
theorem reachable_rowidBinding_one_file : oneFileRun.1.result?.isSome = true ∧
    oneFileRun.2.1.chunksFts = some ⟨[⟨7, "a".toList⟩], by simp⟩ ∧
    ∃ ix : Index, oneFileRun.2.1 = ix.toDb ∧ RowidBinding .plain oneFileEmbedder ix :=
  ⟨by decide +kernel, by decide +kernel,
    reachable_rowidBinding (ι := Fin 2) .plain oneFileEmbedder "/old".toList 1 _
      (Pool.reachable_of_run (i := 0) (ℓ := oneFileOp) rfl (fun _ _ h => h) rfl run_oneFileRun)⟩

end CodeSearch
