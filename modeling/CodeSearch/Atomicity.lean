import CodeSearch.Shape

/-!
# A run is a sequence of atomic steps

A run is not one transaction.  It commits a fixed sequence of steps, each by
itself: the placeholder rewrite, the wipe or the removals, the two meta rows, and
one transaction for each file.  Whenever it is killed or fails, and whatever a
search reads in between, the database is the one before the run after some of
these steps, in order and each of them whole; when the run returned, after all of them
(`reindex_atomic_steps`).  Which steps these are is read off the database: the meta rows
of an incremental run only if no embedder is recorded, a file's transaction only if its
recorded hash is not its own or cannot be looked up.
-/

namespace CodeSearch

open Relational Store

/-! ## Steps -/

/-- A statement by itself. -/
def stmtStep (s : Stmt) (c c' : Db) : Prop := ∃ x r, exec s x c = .ok (r, c')

/-- Which requests may fail, and how. -/
abbrev Faults := Req Stmt → Outcome RowId SqlError → Db → Txn Db → Prop

/-- A whole transaction: its completed body. -/
def txnStep {α : Type} (allow : Faults) (body : Sql α) (c c' : Db) : Prop :=
  ∃ a t, Completes engine allow c body .begun a t ∧ t.view c = c'

/-- Steps one after the other. -/
def Chain : List (Db → Db → Prop) → Db → Db → Prop
  | [], c, c' => c' = c
  | s :: ss, c, c' => ∃ m, s c m ∧ Chain ss m c'

theorem chain_append {ss ts : List (Db → Db → Prop)} {a b : Db} :
    Chain (ss ++ ts) a b ↔ ∃ m, Chain ss a m ∧ Chain ts m b := by
  induction ss generalizing a with
  | nil =>
    constructor
    · exact fun h => ⟨a, rfl, h⟩
    · rintro ⟨m, rfl, h⟩
      exact h
  | cons s ss ih =>
    constructor
    · rintro ⟨m, hs, h⟩
      obtain ⟨m', h₁, h₂⟩ := ih.1 h
      exact ⟨m', ⟨m, hs, h₁⟩, h₂⟩
    · rintro ⟨m', ⟨m, hs, h₁⟩, h₂⟩
      exact ⟨m, hs, ih.2 ⟨m', h₁, h₂⟩⟩

/-- The steps `rest` of `plan` are still to do from `c`. -/
def Remaining (plan : List (Db → Db → Prop)) (c₀ : Db) (rest : List (Db → Db → Prop)) (c : Db) :
    Prop := ∃ done, plan = done ++ rest ∧ Chain done c₀ c

/-- Some first steps of `plan` are done at `c`. -/
def Partway (plan : List (Db → Db → Prop)) (c₀ c : Db) : Prop :=
  ∃ done, done <+: plan ∧ Chain done c₀ c

section
variable {allow : Faults} {plan rest : List (Db → Db → Prop)} {c₀ c c' : Db}

theorem Remaining.start : Remaining plan c₀ plan c₀ := ⟨[], rfl, rfl⟩

theorem Remaining.partway (h : Remaining plan c₀ rest c) : Partway plan c₀ c := by
  obtain ⟨done, rfl, hc⟩ := h
  exact ⟨done, List.prefix_append _ _, hc⟩

theorem Remaining.step {s : Db → Db → Prop} (h : Remaining plan c₀ (s :: rest) c) (hs : s c c') :
    Remaining plan c₀ rest c' := by
  obtain ⟨done, rfl, hc⟩ := h
  exact ⟨done ++ [s], by simp, chain_append.2 ⟨c, hc, c', hs, rfl⟩⟩

theorem Remaining.chain (h : Remaining plan c₀ [] c) : Chain plan c₀ c := by
  obtain ⟨done, rfl, hc⟩ := h
  rwa [List.append_nil]

theorem Partway.self : Partway plan c₀ c₀ := Remaining.start.partway

/-- What a program commits is the next steps of a plan. -/
def Performs {α : Type} (allow : Faults) (plan : List (Db → Db → Prop)) (c₀ : Db) (p : Sql α)
    (steps : List (Db → Db → Prop)) : Prop :=
  ∀ rest c, Remaining plan c₀ (steps ++ rest) c →
    Guards engine allow (Partway plan c₀) p c fun _ => Remaining plan c₀ rest

theorem performs_pure {α : Type} (a : α) : Performs allow plan c₀ (.pure a) [] :=
  fun _ _ h => guards_pure h

theorem performs_throw {α : Type} (y : Error) (steps : List (Db → Db → Prop)) :
    Performs allow plan c₀ (.throw y : Sql α) steps := fun _ _ _ => guards_throw

theorem performs_bind {α β : Type} {p : Sql α} {f : α → Sql β} {ss ts : List (Db → Db → Prop)}
    (hp : Performs allow plan c₀ p ss) (hf : ∀ a, Performs allow plan c₀ (f a) ts) :
    Performs allow plan c₀ (p >>= f) (ss ++ ts) := by
  intro rest c h
  rw [List.append_assoc] at h
  exact guards_bind (hp _ c h) fun a c' h' => hf a rest c' h'

theorem performs_mapError {α : Type} {p : Sql α} {g : Error → Error}
    {ss : List (Db → Db → Prop)} (hp : Performs allow plan c₀ p ss) : Performs allow plan c₀ (p.mapError g) ss :=
  fun rest c h => guards_mapError (hp rest c h)

theorem performs_execute {text : String} {s : Stmt} :
    Performs allow plan c₀ (execute text s) [stmtStep s] := by
  intro rest c h
  refine guards_execute fun x r c' _ hx => ?_
  have hnext := h.step ⟨x, r, hx⟩
  exact ⟨.inr hnext.partway, hnext⟩

theorem performs_transaction {α : Type} {beginErr commitErr : SqlError → Error}
    {bodyErr : Error → Error} {body : Sql α} (hs : body.Strict) :
    Performs allow plan c₀ (Prog.transaction beginErr commitErr bodyErr body) [txnStep allow body] := by
  intro rest c h
  refine guards_transaction hs fun a t hc => ?_
  have hnext := h.step ⟨a, t, hc, rfl⟩
  exact ⟨.inr hnext.partway, hnext⟩

theorem performs_batch_txn {err : SqlError → Error} {ss : List Stmt} :
    Performs allow plan c₀ (Prog.batch err (.begin :: (ss.map .stmt ++ [.commit])))
      [txnStep allow (Prog.batch err (ss.map .stmt) : Sql Unit)] := by
  intro rest c h
  refine guards_batch_txn fun t hc => ?_
  have hnext := h.step ⟨(), t, hc, rfl⟩
  exact ⟨.inr hnext.partway, hnext⟩

theorem performs_foldlM {β γ : Type} (l : List γ) {f : β → γ → Sql β} {s : γ → Db → Db → Prop}
    (hf : ∀ b x, Performs allow plan c₀ (f b x) [s x]) :
    ∀ b, Performs allow plan c₀ (l.foldlM f b) (l.map s) := by
  induction l with
  | nil => exact fun b => performs_pure b
  | cons x l ih => exact fun b => performs_bind (hf b x) ih

end

/-! ## The steps of a run -/

variable (allow : Faults) (D : Deps) (e : Embedder) (repoId : Text)

/-- One file: its transaction, if it can be chunked. -/
def fileStep (mtime : Text → Int) (f : WalkedFile) (c c' : Db) : Prop :=
  ∃ specs, chunkFile D f.content f.language = some specs ∧
    txnStep allow (reprocessBody D f specs (f.hash D) (mtime f.relPath) repoId e) c c'

/-- The recorded hash of the file is its own. -/
def RecordsHash (f : WalkedFile) (c : Db) : Prop :=
  ∃ x m, exec (.selectFileState f.relPath repoId) x c = .ok (some (f.hash D, m), c)

/-- One file of an incremental run: nothing if its recorded hash is its own; its transaction if
it is not, or if the lookup may fail. -/
def diffStep (mtime : Text → Int) (f : WalkedFile) (c c' : Db) : Prop :=
  (c' = c ∧ RecordsHash D repoId f c) ∨
  ((¬ RecordsHash D repoId f c ∨ ¬ Answered repoId allow f.relPath) ∧
    fileStep allow D e repoId mtime f c c')

/-- The two meta rows. -/
def metaSteps : List (Db → Db → Prop) :=
  [stmtStep (.replaceMeta metaEmbedderId e.id), stmtStep (.replaceMeta metaEmbedderDim (decimal e.dim))]

def rewriteStep : Db → Db → Prop := stmtStep (.updateRepoId repoId migrationPlaceholderRepoId)

/-- The wipe of all index tables. -/
def wipeStep : Db → Db → Prop :=
  txnStep allow (Prog.batch (sqlContext "wipe all index tables") ((wipedTables.map Stmt.deleteAll).map .stmt))

/-- The steps of a full run. -/
def forcePlan (view : RepoView) : List (Db → Db → Prop) :=
  [rewriteStep repoId, wipeStep allow] ++ metaSteps e ++
    view.walked.map (fileStep allow D e repoId view.mtime)

/-- The first steps of an incremental run, which records the embedder if none is recorded. -/
def gatePlan (db : Db) : List (Db → Db → Prop) :=
  rewriteStep repoId :: if db.embedder = none then metaSteps e else []

/-- Its remaining steps, when `paths` are the recorded ones. -/
def diffPlan (view : RepoView) (paths : List Text) : List (Db → Db → Prop) :=
  (paths.filter fun rel => rel ∉ view.walked.map (·.relPath)).map
    (fun rel => txnStep allow (removeBody rel repoId)) ++
  view.walked.map (diffStep allow D e repoId view.mtime)

section
variable {allow} {plan : List (Db → Db → Prop)} {c₀ : Db}

theorem performs_writeEmbedderMeta :
    Performs allow plan c₀ (withContext "stamp embedder meta" (writeEmbedderMeta e.id e.dim))
      (metaSteps e) :=
  performs_mapError (performs_bind performs_execute fun _ => performs_execute)

theorem performs_reprocessFileWith (mtime : Text → Int) (f : WalkedFile) :
    Performs allow plan c₀ (reprocessFileWith D f (f.hash D) (mtime f.relPath) repoId e)
      [fileStep allow D e repoId mtime f] := by
  unfold reprocessFileWith
  cases hs : chunkFile D f.content f.language with
  | none => exact performs_throw _ _
  | some specs =>
    intro rest c h
    refine guards_transaction (strict_reprocessBody D e _ _ _ _ _) fun a t hc => ?_
    have hnext := h.step ⟨specs, hs, a, t, hc, rfl⟩
    exact ⟨.inr hnext.partway, hnext⟩

theorem performs_reindexForce (view : RepoView) :
    Performs allow plan c₀ (reindexForce D view repoId e)
      ([wipeStep allow] ++ (metaSteps e ++ view.walked.map (fileStep allow D e repoId view.mtime))) := by
  refine performs_bind performs_batch_txn fun _ => ?_
  refine performs_bind (performs_writeEmbedderMeta e) fun _ => ?_
  refine performs_foldlM _ (fun counts f => ?_) _
  have h : Performs allow plan c₀ (forceStep D view repoId e counts f)
      ([fileStep allow D e repoId view.mtime f] ++ []) :=
    performs_bind (performs_reprocessFileWith D e repoId view.mtime f) fun n => performs_pure _
  exact h

theorem performs_removeFile (rel : Text) :
    Performs allow plan c₀ (removeFile rel repoId) [txnStep allow (removeBody rel repoId)] :=
  performs_transaction (strict_removeBody _ _)

/-- The removal loop over the recorded paths. -/
theorem performs_dropSteps (view : RepoView) (paths : List Text) :
    Performs allow plan c₀ (paths.forM (dropStep view repoId))
      ((paths.filter fun rel => rel ∉ view.walked.map (·.relPath)).map
        fun rel => txnStep allow (removeBody rel repoId)) := by
  induction paths with
  | nil => exact performs_pure _
  | cons rel paths ih =>
    by_cases hrel : rel ∈ view.walked.map (·.relPath)
    · have hstep : Performs allow plan c₀ (dropStep view repoId rel) [] := by
        unfold dropStep
        rw [if_pos hrel]
        exact performs_pure _
      rw [List.filter_cons_of_neg (by rw [decide_eq_true_eq]; exact not_not_intro hrel)]
      exact performs_bind hstep fun _ => ih
    · have hstep : Performs allow plan c₀ (dropStep view repoId rel) [txnStep allow (removeBody rel repoId)] := by
        unfold dropStep
        rw [if_neg hrel]
        exact performs_removeFile repoId rel
      rw [List.filter_cons_of_pos (by rw [decide_eq_true_eq]; exact hrel)]
      exact performs_bind hstep fun _ => ih

/-- A lookup changes nothing; it answers what is recorded, or nothing if it cannot or fails. -/
theorem guards_storedFileState {I : Db → Prop} (rel : Text) (c : Db) :
    Guards engine allow I (storedFileState rel repoId) c fun row c' => c' = c ∧
      ((∃ x, exec (.selectFileState rel repoId) x c = .ok (row, c)) ∨
        row = none ∧ ((∃ x y, exec (.selectFileState rel repoId) x c = .error y) ∨
          ¬ Answered repoId allow rel)) := by
  refine (wp_bind _ _ _ _ _).2 ((wp_attempt _ _ _ _).2 ?_)
  intro c₁ hc o ho
  cases hc
  cases o with
  | run x =>
    simp only [Engine.step]
    split
    · next row c' hx =>
      have hsame := read_selectFileState rel repoId x c row c' hx
      subst hsame
      refine ⟨.inl rfl, ?_⟩
      rintro a ⟨⟩
      exact ⟨rfl, rfl, .inl ⟨x, hx⟩⟩
    · next y hx =>
      refine ⟨.inl rfl, ?_⟩
      rintro a ⟨⟩
      exact ⟨rfl, rfl, .inr ⟨rfl, .inl ⟨x, y, hx⟩⟩⟩
  | fail y | abort y =>
    refine ⟨.inl rfl, ?_⟩
    rintro a ⟨⟩
    refine ⟨rfl, rfl, .inr ⟨rfl, .inr fun hA => ?_⟩⟩
    obtain ⟨x, hx⟩ := hA _ _ _ ho
    cases hx

/-- What a lookup answers does not depend on the rowid that is offered. -/
theorem exec_selectFileState (rel : Text) (x x' : RowId) (c : Db) :
    exec (.selectFileState rel repoId) x c = exec (.selectFileState rel repoId) x' c := rfl

theorem performs_incrementalStep (view : RepoView) (counts : Nat × Nat) (f : WalkedFile) :
    Performs allow plan c₀ (incrementalStep D view repoId e counts f)
      [diffStep allow D e repoId view.mtime f] := by
  intro rest c h
  refine guards_bind (guards_storedFileState repoId f.relPath c) fun row c' hrow => ?_
  obtain ⟨rfl, hrow⟩ := hrow
  split
  · next hs =>
    obtain ⟨⟨hash, m⟩, rfl, rfl⟩ := Option.map_eq_some_iff.1 hs
    rcases hrow with ⟨x, hx⟩ | ⟨hnone, -⟩
    · exact guards_pure (h.step (.inl ⟨rfl, x, m, hx⟩))
    · cases hnone
  · next hs =>
    have hother : ¬ RecordsHash D repoId f c' ∨ ¬ Answered repoId allow f.relPath := by
      rcases hrow with ⟨x, hx⟩ | ⟨-, ⟨x, y, hx⟩ | hno⟩
      · refine .inl fun ⟨x', m, hown⟩ => hs ?_
        rw [exec_selectFileState repoId f.relPath x' x, hx] at hown
        cases hown
        rfl
      · refine .inl fun ⟨x', m, hown⟩ => ?_
        rw [exec_selectFileState repoId f.relPath x' x, hx] at hown
        cases hown
      · exact .inr hno
    -- the transaction is the file's step
    unfold reprocessFileWith
    cases hspecs : chunkFile D f.content f.language with
    | none => exact guards_throw
    | some specs =>
      refine guards_bind (guards_transaction (strict_reprocessBody D e _ _ _ _ _)
        fun a t hc => ?_) fun n c' hnext => guards_pure hnext
      have hnext := h.step (.inr ⟨hother, specs, hspecs, a, t, hc, rfl⟩)
      exact ⟨.inr hnext.partway, hnext⟩

end

/-! ## Whole runs -/

/-- The paths recorded at `c`, as an incremental run reads them. -/
def recordedPaths (c : Db) (paths : List Text) : Prop :=
  ∃ x, exec (.selectFilePaths repoId) x c = .ok (paths, c)

/-- Where an incremental run can be: in its first steps, or after them in the
removals and files, which depend on the paths recorded by then. -/
def IncrementalPartway (view : RepoView) (db c : Db) : Prop :=
  Partway (gatePlan e repoId db) db c ∨
    ∃ c₁ paths, Chain (gatePlan e repoId db) db c₁ ∧ recordedPaths repoId c₁ paths ∧
      Partway (diffPlan allow D e repoId view paths) c₁ c

/-- All the steps of an incremental run. -/
def IncrementalDone (view : RepoView) (db c : Db) : Prop :=
  ∃ c₁ paths, Chain (gatePlan e repoId db) db c₁ ∧ recordedPaths repoId c₁ paths ∧
    Chain (diffPlan allow D e repoId view paths) c₁ c

/-- Where a run can be, and where it is when it returned. -/
def RunPartway (view : RepoView) (force : Bool) (db c : Db) : Prop :=
  if force then Partway (forcePlan allow D e repoId view) db c
  else IncrementalPartway allow D e repoId view db c

def RunDone (view : RepoView) (force : Bool) (db c : Db) : Prop :=
  if force then Chain (forcePlan allow D e repoId view) db c
  else IncrementalDone allow D e repoId view db c

section
variable {allow D e repoId} {I : Db → Prop} {c : Db}

/-- A full run, killed or failing anywhere, leaves the database after some first
steps of its plan; when it returns, after all of them. -/
theorem force_atomic_steps (view : RepoView) (db db' : Db) :
    (Crash engine allow (reindexWith D view true e) db db' →
      Partway (forcePlan allow D e (repoIdFor D view.canonicalRoot) view) db db') ∧
    ∀ report, Finishes engine allow (reindexWith D view true e) db (.ok report) db' →
      Chain (forcePlan allow D e (repoIdFor D view.canonicalRoot) view) db db' := by
  generalize hplan : forcePlan allow D e (repoIdFor D view.canonicalRoot) view = plan
  have h : Guards engine allow (Partway plan db) (reindexWith D view true e) db
      fun _ => Remaining plan db [] := by
    have hp : Performs allow plan db (reindexWith D view true e)
        ([rewriteStep (repoIdFor D view.canonicalRoot)] ++ ([] ++ (([wipeStep allow] ++ (metaSteps e ++
          view.walked.map (fileStep allow D e (repoIdFor D view.canonicalRoot) view.mtime))) ++ []))) :=
      performs_bind performs_execute fun _ => performs_bind (performs_pure ()) fun _ =>
        performs_bind (performs_reindexForce D e _ view) fun counts => performs_pure _
    refine hp [] db ?_
    have hsame : plan = [rewriteStep (repoIdFor D view.canonicalRoot)] ++ ([] ++ (([wipeStep allow] ++
        (metaSteps e ++ view.walked.map (fileStep allow D e (repoIdFor D view.canonicalRoot)
          view.mtime))) ++ [])) ++ [] := by
      rw [← hplan, forcePlan]
      simp
    rw [← hsame]
    exact Remaining.start
  refine ⟨fun hc => ?_, fun report hf => (guards_finishes h hf).chain⟩
  rcases guards_crash h hc with rfl | hpart
  · exact Partway.self
  · exact hpart

theorem guards_verifyEmbedderMeta (id : Text) (dim : Nat) :
    Guards engine allow I (verifyEmbedderMeta id dim) c fun _ c' => c' = c := by
  refine guards_bind guards_readEmbedderMeta fun stored c' h => ?_
  obtain ⟨rfl, -⟩ := h
  split
  · split
    · exact guards_throw
    · exact guards_pure rfl
  · exact guards_pure rfl

/-- The rewrite leaves the recorded embedder. -/
theorem embedder_updateRepoId (new old : Text) (x : RowId) {r : Unit} {c' : Db}
    (h : exec (.updateRepoId new old) x c = .ok (r, c')) : c'.embedder = c.embedder := by
  unfold exec at h
  simp only [bind, Except.bind, pure, Except.pure] at h
  split at h
  · cases h
  · split at h
    · cases h
    · cases h
      rfl

/-- The gate of an incremental run records the embedder if none is recorded; otherwise it
commits nothing. -/
theorem guards_gate {db : Db} (hsame : c.embedder = db.embedder)
    (h : Remaining (gatePlan e repoId db) db (if db.embedder = none then metaSteps e else []) c) :
    Guards engine allow (Partway (gatePlan e repoId db) db) (checkEmbedder e) c
      fun _ c₁ => Chain (gatePlan e repoId db) db c₁ := by
  refine guards_bind (guards_mapError (guards_verifyEmbedderMeta _ _)) fun _ c' hc => ?_
  subst hc
  refine guards_bind guards_readEmbedderMeta fun stored c'' hc => ?_
  obtain ⟨rfl, rfl⟩ := hc
  rw [hsame]
  by_cases hnone : db.embedder = none
  · rw [if_pos hnone] at h
    rw [if_pos (by rw [hnone]; rfl)]
    have hwrites : Performs allow (gatePlan e repoId db) db
        (withContext "stamp embedder meta" (writeEmbedderMeta e.id e.dim)) (metaSteps e) :=
      performs_writeEmbedderMeta e
    exact guards_mono (fun _ c hc => hc.chain) (hwrites [] c'' (by rwa [List.append_nil]))
  · rw [if_neg hnone] at h
    rw [if_neg (by rwa [Option.isNone_iff_eq_none])]
    exact guards_pure h.chain

/-- An incremental run, killed or failing anywhere, leaves the database after
some first steps of its plan; when it returns, after all of them. -/
theorem incremental_atomic_steps (view : RepoView) (db db' : Db) :
    (Crash engine allow (reindexWith D view false e) db db' →
      IncrementalPartway allow D e (repoIdFor D view.canonicalRoot) view db db') ∧
    ∀ report, Finishes engine allow (reindexWith D view false e) db (.ok report) db' →
      IncrementalDone allow D e (repoIdFor D view.canonicalRoot) view db db' := by
  generalize hR : repoIdFor D view.canonicalRoot = R
  have h : Guards engine allow (IncrementalPartway allow D e R view db)
      (reindexWith D view false e) db fun _ => IncrementalDone allow D e R view db := by
    unfold reindexWith
    simp only [hR]
    refine guards_bind (P := fun _ c => c.embedder = db.embedder ∧ Remaining (gatePlan e R db) db
      (if db.embedder = none then metaSteps e else []) c) ?_ fun _ c hc => ?_
    · refine guards_execute fun x r c' _ hx => ?_
      have hnext : Remaining (gatePlan e R db) db (if db.embedder = none then metaSteps e else []) c' :=
        Remaining.start.step ⟨x, r, hx⟩
      exact ⟨.inr (.inl hnext.partway), embedder_updateRepoId _ _ x hx, hnext⟩
    refine guards_bind (guards_weaken (fun _ => .inl) (guards_gate hc.1 hc.2)) fun _ c₁ hgate => ?_
    refine guards_bind (P := fun _ c => IncrementalDone allow D e R view db c) ?_ fun counts c hc =>
      guards_pure hc
    refine guards_bind (P := fun paths c => c = c₁ ∧ recordedPaths R c₁ paths) ?_
      fun paths c hpaths => ?_
    · refine guards_execute fun x r c' _ hx => ?_
      have := read_selectFilePaths R x c₁ r c' hx
      subst this
      exact ⟨.inl rfl, rfl, x, hx⟩
    obtain ⟨rfl, hpaths⟩ := hpaths
    -- the removals, then the files
    have hall : Performs allow (diffPlan allow D e R view paths) c
        (paths.forM (dropStep view R) >>= fun _ =>
          view.walked.foldlM (incrementalStep D view R e) (0, 0)) (diffPlan allow D e R view paths) :=
      performs_bind (performs_dropSteps R view paths) fun _ =>
        performs_foldlM view.walked (performs_incrementalStep D e R view) (0, 0)
    have hp := hall [] c (by rw [List.append_nil]; exact Remaining.start)
    refine guards_weaken (fun c' hc' => ?_) (guards_mono (fun _ c' hc' => ?_) hp)
    · exact .inr ⟨c, paths, hgate, hpaths, hc'⟩
    · exact ⟨c, paths, hgate, hpaths, hc'.chain⟩
  refine ⟨fun hc => ?_, fun report hf => ?_⟩
  · rcases guards_crash h hc with rfl | hpart
    · exact .inl .self
    · exact hpart
  · have hdone := guards_finishes h hf
    exact hdone

end

/-- What a run commits, at whatever point it is killed, fails or is read by
another connection, is some first steps of its plan, each of them whole; a run
that returns has done them all. -/
theorem reindex_atomic_steps (allow : Faults) (D : Deps) (e : Embedder) (view : RepoView)
    (force : Bool) (db db' : Db) :
    (Crash engine allow (reindexWith D view force e) db db' →
      RunPartway allow D e (repoIdFor D view.canonicalRoot) view force db db') ∧
    ∀ report, Finishes engine allow (reindexWith D view force e) db (.ok report) db' →
      RunDone allow D e (repoIdFor D view.canonicalRoot) view force db db' := by
  cases force with
  | true => exact force_atomic_steps view db db'
  | false => exact incremental_atomic_steps view db db'

/-! ## Two runs of an edited file -/

/-- The index after the full run of the edited file is killed right after its wipe. -/
def wipedDb : Db :=
  (replay engine (succeed 10) (reindexWith .plain editedView true oneFileEmbedder) indexedDb .idle).2.1

/-- The index after the same run, not killed. -/
def editedDb : Db :=
  (replay engine (succeed 30) (reindexWith .plain editedView true oneFileEmbedder) indexedDb .idle).2.1

/-- The index after the incremental run of the edited file. -/
def updatedDb : Db :=
  (replay engine (succeed 40) (reindexWith .plain editedView false oneFileEmbedder) indexedDb .idle).2.1

/-- The killed run has done some of its steps; the incremental run, which finds the embedder
recorded, has done all of its own. -/
theorem reindex_atomic_steps_edited : indexedDb.embedder ≠ none ∧
    RunPartway anyOutcome .plain oneFileEmbedder (repoIdFor .plain "/old".toList) editedView true
      indexedDb wipedDb ∧
    RunDone anyOutcome .plain oneFileEmbedder (repoIdFor .plain "/old".toList) editedView false
      indexedDb updatedDb := by
  refine ⟨by decide +kernel, ?_, ?_⟩
  · exact (reindex_atomic_steps anyOutcome .plain oneFileEmbedder editedView true indexedDb wipedDb).1
      (crash_replay _ (fun _ _ _ _ _ => trivial) _ _)
  · exact (reindex_atomic_steps anyOutcome .plain oneFileEmbedder editedView false indexedDb
      updatedDb).2 ⟨1, 1, 0, true⟩
      (finishes_replay (fun o (_ : o ∈ succeed 40) _ _ _ => trivial) (by decide +kernel))

/-- Neither the index before the run nor the one after it: all chunks are gone. -/
theorem force_killed_after_wipe :
    Crash engine anyOutcome (reindexWith .plain editedView true oneFileEmbedder) indexedDb wipedDb ∧
    Finishes engine anyOutcome (reindexWith .plain editedView true oneFileEmbedder) indexedDb
      (.ok ⟨1, 1, 0, false⟩) editedDb ∧
    wipedDb.chunks = some ⟨true, .empty⟩ ∧
    (indexedDb.chunks.map fun c => c.table.rows.map (·.body)) = some ["a".toList] ∧
    (editedDb.chunks.map fun c => c.table.rows.map (·.body)) = some ["b".toList] :=
  ⟨crash_replay _ (fun _ _ _ _ _ => trivial) _ _,
    finishes_replay (fun o (_ : o ∈ succeed 30) _ _ _ => trivial) (by decide +kernel),
    by decide +kernel, by decide +kernel, by decide +kernel⟩

end CodeSearch
