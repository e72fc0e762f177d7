import CodeSearch.Lib.Faults
import CodeSearch.Statements

/-!
# What a failing operation leaves

The four operations that open a transaction clean up in different ways.
`reprocess_file_with` and `remove_file` roll back when their body fails, but not when
the `COMMIT` does.  `wipe_all` is one batch: a statement that fails after its `BEGIN`
leaves the transaction open, with the tables deleted so far empty to this connection.
`migrate_files_schema` rolls back when the stamp fails, but its recreation is a batch
like that of `wipe_all`, and its `COMMIT` is not covered either.

    failed_operation_unaffected_iff : the connection is as it was if and only if every
    request that failed is one the operation undoes
-/

namespace CodeSearch

open Relational Store

/-! ## Operations -/

inductive Operation where
  | wipeAll
  | reprocessFileWith (file : WalkedFile) (hash : Text) (mtime : Int) (repoId : Text)
      (embedder : Embedder)
  | removeFile (rel repoId : Text)
  | migrateFilesSchema

def Operation.run (D : Deps) : Operation → Sql Unit
  | .wipeAll => CodeSearch.wipeAll
  | .reprocessFileWith file hash mtime repoId embedder => do
    let _ ← CodeSearch.reprocessFileWith D file hash mtime repoId embedder
  | .removeFile rel repoId => CodeSearch.removeFile rel repoId
  | .migrateFilesSchema => CodeSearch.migrateFilesSchema

/-- The statements of the batch that recreates `files`. -/
def recreation : List Stmt :=
  [.createFilesNew, .copyFilesNew migrationPlaceholderRepoId, .dropFiles, .renameFilesNew]

/-- The requests after whose failure the operation leaves no open transaction. -/
def Operation.Undoes : Operation → Req Stmt → Prop
  | .wipeAll, q => q = .begin
  | .reprocessFileWith _ _ _ _ _, q => q ≠ .commit ∧ q ≠ .rollback
  | .removeFile _ _, q => q ≠ .commit ∧ q ≠ .rollback
  | .migrateFilesSchema, q => q ≠ .commit ∧ q ≠ .rollback ∧ ∀ s ∈ recreation, q ≠ .stmt s

/-- The connection reads the tables and rows of `c` and has no open transaction, so that
it can begin one. -/
structure Unaffected (c c' : Db) (t : Txn Db) : Prop where
  tables : t.view c' = c
  idle : t = .idle
  begins : ∀ x, engine.step .begin (.run x) c' t = (.ok (), c', .begun)

theorem unaffected_iff {c c' : Db} {t : Txn Db} :
    Unaffected c c' t ↔ t.view c' = c ∧ t = .idle := by
  constructor
  · exact fun h => ⟨h.tables, h.idle⟩
  · rintro ⟨hview, rfl⟩
    exact ⟨hview, rfl, fun _ => rfl⟩

/-- The migration undoes what fails outside its batch. -/
theorem undoes_stmt {s : Stmt} (h : s ∉ recreation) :
    Operation.Undoes .migrateFilesSchema (.stmt s) := by
  refine ⟨by simp, by simp, ?_⟩
  rintro s' hs' ⟨⟩
  exact h hs'

/-! ## The file transactions -/

section
variable {c c' : Db} {t' : Txn Db} {fs : List (Req Stmt)} {y : Error}

theorem forall_undoes_iff :
    (∀ q ∈ fs, q ≠ .commit ∧ q ≠ .rollback) ↔ .commit ∉ fs ∧ .rollback ∉ fs := by
  constructor
  · exact fun h => ⟨fun hq => (h _ hq).1 rfl, fun hq => (h _ hq).2 rfl⟩
  · rintro ⟨hcommit, hrollback⟩ q hq
    refine ⟨?_, ?_⟩
    · rintro rfl
      exact hcommit hq
    · rintro rfl
      exact hrollback hq

theorem unaffected_transaction {α : Type} {beginErr commitErr : SqlError → Error}
    {bodyErr : Error → Error} {body : Sql α} (hs : body.Strict)
    (h : Ends engine (Prog.transaction beginErr commitErr bodyErr body) c .idle fs (.error y) c' t') :
    Unaffected c c' t' ↔ ∀ q ∈ fs, q ≠ .commit ∧ q ≠ .rollback := by
  rw [unaffected_iff, forall_undoes_iff]
  exact ends_transaction hs h

theorem unaffected_reprocessFileWith {D : Deps} {file : WalkedFile} {hash : Text} {mtime : Int}
    {repoId : Text} {e : Embedder}
    (h : Ends engine (reprocessFileWith D file hash mtime repoId e) c .idle fs (.error y) c' t') :
    Unaffected c c' t' ↔ ∀ q ∈ fs, q ≠ .commit ∧ q ≠ .rollback := by
  unfold reprocessFileWith at h
  split at h
  · -- nothing was asked of the store
    cases h
    rw [unaffected_iff]
    exact iff_of_true ⟨rfl, rfl⟩ (by simp)
  · exact unaffected_transaction (strict_reprocessBody D e _ _ _ _ _) h

/-! ## The wipe -/

theorem unaffected_wipeAll (h : Ends engine wipeAll c .idle fs (.error y) c' t') :
    Unaffected c c' t' ↔ ∀ q ∈ fs, q = .begin := by
  rw [unaffected_iff]
  rcases ends_batch_begin (.inr rfl) h with ⟨rfl, rfl, rfl⟩ | ⟨ht', q, hq, rfl⟩
  · exact iff_of_true ⟨rfl, rfl⟩ (by simp)
  · refine iff_of_false (fun h => ht' h.2) fun hbegin => ?_
    rw [hbegin q (List.mem_singleton_self q)] at hq
    simp at hq

/-! ## The migration -/

/-- The statements that only look at the schema. -/
def Probe : Stmt → Prop
  | .selectMeta _ => True
  | .tableInfo _ => True
  | _ => False

theorem exec_probe (s : Stmt) (x : RowId) (a : s.Resp) (c c' : Db) (hs : Probe s)
    (h : exec s x c = .ok (a, c')) : c' = c := by
  cases s with
  | selectMeta key => exact read_selectMeta key x c a c' h
  | tableInfo t => cases t <;> (cases h; rfl)
  | _ => exact hs.elim

/-- What reads the schema leaves an idle connection as it was, and failed at nothing that
the migration does not undo. -/
theorem ends_probe {α : Type} {p : Sql α} {r : Except Error α} (hs : p.Strict) (hp : p.Only Probe)
    (h : Ends engine p c .idle fs r c' t') :
    c' = c ∧ t' = .idle ∧ (∀ a, r = .ok a → fs = []) ∧
      ∀ q ∈ fs, Operation.Undoes .migrateFilesSchema q := by
  obtain ⟨rfl, rfl⟩ := h.still hs hp exec_probe
  obtain ⟨hstmts, hok⟩ := h.strict_fails hs hp
  refine ⟨rfl, rfl, hok, fun q hq => ?_⟩
  obtain ⟨s, hprobe, rfl⟩ := hstmts q hq
  apply undoes_stmt
  intro hmem
  simp only [recreation, List.mem_cons, List.not_mem_nil, or_false] at hmem
  rcases hmem with rfl | rfl | rfl | rfl <;> exact hprobe

theorem strict_readSchemaVersion : readSchemaVersion.Strict := by
  refine Prog.strict_bind (strict_execute _ _) fun v => ?_
  split
  · split <;> trivial
  · trivial

theorem only_readSchemaVersion : readSchemaVersion.Only Probe := by
  refine only_bind (only_execute trivial) fun v => ?_
  split
  · split <;> trivial
  · trivial

theorem strict_columnExists (t : InfoTable) (column : Text) : (columnExists t column).Strict :=
  Prog.strict_bind (strict_execute _ _) fun _ => trivial

theorem strict_filesPkIsComposite : filesPkIsComposite.Strict :=
  Prog.strict_bind (strict_execute _ _) fun _ => trivial

/-- The recreation batch, the stamp in its transaction, and the `COMMIT`. -/
theorem unaffected_recreate {p : Sql Unit}
    (hp : p = (writeSchemaVersion schemaVersion).attempt >>= fun
      | .ok _ => Prog.batch (sqlContext "commit files schema recreation") [.commit]
      | .error y => .call .rollback fun _ => .throw y)
    (h : Ends engine (Prog.batch
      (sqlContext "recreate files table with composite PRIMARY KEY(repo_id, path)")
      (.begin :: recreation.map .stmt) >>= fun _ => p) c .idle fs (.error y) c' t') :
    t'.view c' = c ∧ t' = .idle ↔ ∀ q ∈ fs, Operation.Undoes .migrateFilesSchema q := by
  subst hp
  rcases h.bind_cases with ⟨z, hz, hbatch⟩ | ⟨u, fs₁, fs₂, c₁, t₁, rfl, hbatch, hp⟩
  · rw [← List.append_nil (recreation.map Req.stmt)] at hbatch
    rcases ends_batch_begin (.inl rfl) hbatch with ⟨rfl, rfl, rfl⟩ | ⟨ht', q, hq, rfl⟩
    · exact iff_of_true ⟨rfl, rfl⟩ (by simp [Operation.Undoes])
    · refine iff_of_false (fun h => ht' h.2) fun hundo => ?_
      rw [List.append_nil, List.mem_map] at hq
      obtain ⟨s, hs, rfl⟩ := hq
      exact (hundo _ (List.mem_singleton_self _)).2.2 s hs rfl
  · obtain ⟨rfl, ht₁, rfl⟩ := ends_batch_begun hbatch
    rcases hp.bind_cases with ⟨z, hz, hstamp⟩ | ⟨r, fs₁, fs₂, c₂, t₂, rfl, hstamp, hend⟩
    · obtain ⟨r, hr, -⟩ := hstamp.attempt_cases
      cases hr
    obtain ⟨r', hr', hstamp⟩ := hstamp.attempt_cases
    cases hr'
    obtain ⟨rfl, ht₂⟩ := hstamp.strict_open (strict_execute _ _) ht₁
    have honly : (writeSchemaVersion schemaVersion).Only fun s => s ∉ recreation :=
      only_execute (by simp [recreation])
    obtain ⟨hstmts, -⟩ := hstamp.strict_fails (strict_execute _ _) honly
    cases r with
    | ok a =>
      -- the stamp is written: only the `COMMIT` is left to fail
      change Ends engine (Prog.batch _ [.commit]) _ _ _ _ _ _ at hend
      rw [Prog.batch_commit] at hend
      obtain ⟨rfl, ht'⟩ := ends_commit_error ht₂ hend
      exact iff_of_false (fun h => ht' h.2) fun hundo => (hundo .commit (by simp)).1 rfl
    | error z =>
      rcases ends_rollback ht₂ hend with ⟨rfl, ⟨rfl, rfl⟩ | ⟨ht', rfl⟩⟩
      · refine iff_of_true ⟨rfl, rfl⟩ fun q hq => ?_
        rw [List.nil_append, List.append_nil] at hq
        obtain ⟨s, hs, rfl⟩ := hstmts q hq
        exact undoes_stmt hs
      · exact iff_of_false (fun h => ht' h.2) fun hundo => (hundo .rollback (by simp)).2.1 rfl

theorem unaffected_migrateFilesSchema
    (h : Ends engine migrateFilesSchema c .idle fs (.error y) c' t') :
    Unaffected c c' t' ↔ ∀ q ∈ fs, Operation.Undoes .migrateFilesSchema q := by
  rw [unaffected_iff]
  unfold migrateFilesSchema at h
  rcases h.bind_cases with ⟨z, hz, h⟩ | ⟨v, fs₁, fs₂, c₁, t₁, rfl, h₁, h⟩
  · obtain ⟨rfl, rfl, -, hundo⟩ := ends_probe strict_readSchemaVersion only_readSchemaVersion h
    exact iff_of_true ⟨rfl, rfl⟩ hundo
  obtain ⟨rfl, rfl, hfs, -⟩ := ends_probe strict_readSchemaVersion only_readSchemaVersion h₁
  rw [hfs v rfl, List.nil_append]
  extract_lets rest at h
  have hrest : Ends engine (rest ()) c₁ .idle fs₂ (.error y) c' t' →
      (t'.view c' = c₁ ∧ t' = .idle ↔ ∀ q ∈ fs₂, Operation.Undoes .migrateFilesSchema q) := by
    intro h
    rcases h.bind_cases with ⟨z, hz, h⟩ | ⟨hasRepoId, fs₁, fs₂, c₂, t₂, rfl, h₁, h⟩
    · obtain ⟨rfl, rfl, -, hundo⟩ := ends_probe (strict_columnExists _ _) (only_columnExists trivial _) h
      exact iff_of_true ⟨rfl, rfl⟩ hundo
    obtain ⟨rfl, rfl, hfs, -⟩ := ends_probe (strict_columnExists _ _) (only_columnExists trivial _) h₁
    rw [hfs _ rfl, List.nil_append]
    rcases h.bind_cases with ⟨z, hz, h⟩ | ⟨compositePk, fs₁, fs₂, c₃, t₃, rfl, h₁, h⟩
    · obtain ⟨rfl, rfl, -, hundo⟩ := ends_probe strict_filesPkIsComposite (only_filesPkIsComposite trivial) h
      exact iff_of_true ⟨rfl, rfl⟩ hundo
    obtain ⟨rfl, rfl, hfs, -⟩ := ends_probe strict_filesPkIsComposite (only_filesPkIsComposite trivial) h₁
    rw [hfs _ rfl, List.nil_append]
    split at h
    · obtain ⟨rfl, rfl, rfl⟩ := ends_execute_error h
      exact iff_of_true ⟨rfl, rfl⟩ (by simp [Operation.Undoes, recreation])
    · exact unaffected_recreate rfl h
  cases v with
  | none => exact hrest h
  | some stored =>
    change Ends engine (if schemaVersion < stored then _ else _) _ _ _ _ _ _ at h
    split at h
    · cases h
      exact iff_of_true ⟨rfl, rfl⟩ (by simp)
    · exact hrest h

end

/-- An operation that failed, whatever requests of it the store refused without rolling
back by itself, left the connection as it was if and only if it undoes what each of them
leaves. -/
theorem failed_operation_unaffected_iff (D : Deps) (op : Operation) {c c' : Db} {t' : Txn Db}
    {fs : List (Req Stmt)} {y : Error} (h : Ends engine (op.run D) c .idle fs (.error y) c' t') :
    Unaffected c c' t' ↔ ∀ q ∈ fs, op.Undoes q := by
  cases op with
  | wipeAll => exact unaffected_wipeAll h
  | removeFile rel repoId => exact unaffected_transaction (strict_removeBody rel repoId) h
  | migrateFilesSchema => exact unaffected_migrateFilesSchema h
  | reprocessFileWith file hash mtime repoId e =>
    rcases h.bind_cases with ⟨z, hz, h⟩ | ⟨n, fs₁, fs₂, c₁, t₁, rfl, h₁, h⟩
    · exact unaffected_reprocessFileWith h
    · cases h

/-- A removal that finds the database locked rolls back. -/
theorem failed_operation_unaffected_locked :
    Ends engine (Operation.run .plain (.removeFile "a".toList "r".toList)) indexedDb .idle
      [.stmt (.deleteOfPath .chunksVec "a".toList)]
      (.error (.context "remove deleted file".toList (.sql .busy))) indexedDb .idle ∧
    Unaffected indexedDb indexedDb .idle := by
  have hends : Ends engine (Operation.run .plain (.removeFile "a".toList "r".toList)) indexedDb .idle
      [.stmt (.deleteOfPath .chunksVec "a".toList)]
      (.error (.context "remove deleted file".toList (.sql .busy))) indexedDb .idle :=
    .ok (o := .run 0) trivial rfl (.error (o := .fail .busy) trivial rfl
      (.ok (o := .run 0) trivial rfl (.throw _ _ _)))
  refine ⟨hends, (failed_operation_unaffected_iff .plain (.removeFile "a".toList "r".toList)
    hends).2 fun q hq => ?_⟩
  rw [List.mem_singleton.1 hq]
  exact ⟨by simp, by simp⟩

/-- The index once its vectors are deleted. -/
def halfWipedDb : Db :=
  { indexedDb with chunksVec := indexedDb.chunksVec.map fun v => { v with table := .empty } }

/-- A wipe that fails at its second `DELETE`: the connection stays in the transaction,
reads no vector any more, and cannot begin another transaction. -/
theorem wipe_left_open :
    ∃ y, Ends engine (Operation.run .plain .wipeAll) indexedDb .idle [.stmt (.deleteAll .chunksFts)]
      (.error y) indexedDb (.active halfWipedDb) ∧
    (Txn.active halfWipedDb).view indexedDb ≠ indexedDb ∧
    ∀ x, engine.step .begin (.run x) indexedDb (.active halfWipedDb) =
      (.error .nestedTransaction, indexedDb, .active halfWipedDb) := by
  have hdelete : exec (.deleteAll .chunksVec) 0 indexedDb = .ok ((), halfWipedDb) := by
    have hsome : indexedDb.chunksVec.isSome = true := by decide +kernel
    obtain ⟨v, hv⟩ := Option.isSome_iff_exists.1 hsome
    unfold halfWipedDb
    simp only [exec, deleteAll, hv, need, bind, Except.bind, pure, Except.pure, Option.map_some]
    rfl
  have hstep : engine.step (.stmt (.deleteAll .chunksVec)) (.run 0) indexedDb .begun =
      (.ok (), indexedDb, .active halfWipedDb) :=
    engine.step_open_ok (by simp) hdelete
  refine ⟨_, .ok (o := .run 0) trivial rfl (.ok (o := .run 0) trivial hstep
    (.error (o := .fail .io) trivial rfl (.throw _ _ _))), ?_, fun _ => rfl⟩
  show halfWipedDb ≠ indexedDb
  decide +kernel

end CodeSearch
