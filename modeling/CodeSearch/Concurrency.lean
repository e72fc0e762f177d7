import Mathlib.Data.Fintype.Basic
import CodeSearch.Migration

/-!
# Opening one database from several connections

Each connection opens the database, then migrates it, then runs.  Migrating
probes the schema first and acts on the answer later, outside any transaction, so
another connection can come in between.  In every interleaving in which none
does, a migration that ends has returned, the schema is the one a single
migration leaves, and no `files` row gets the placeholder back or is lost by a
migration (`unraced_migrations`).  Two connections that do come in between break
both (`raced_migrations`).
-/

namespace CodeSearch

open Relational Store

/-! ## Connections -/

/-- What a connection does, in this order. -/
inductive Phase where
  | opening (dim : Nat)
  | migrating
  | running (D : Deps) (e : Embedder) (view : RepoView) (force : Bool)

def Phase.prog : Phase → Sql Unit
  | .opening dim => openDbWith dim
  | .migrating => migrate
  | .running D e view force => reindexWith D view force e >>= fun _ => pure ()

abbrev Connection := Client Stmt Stmt.Resp SqlError Error Unit Db Phase
abbrev Connections (ι : Type) := Pool Stmt Stmt.Resp SqlError Error Unit Db Phase ι

/-- A new connection opens; each later phase needs the one before it to have returned. -/
def Phase.follows (cl : Connection) : Phase → Prop
  | .opening _ => cl = ⟨none, .idle⟩
  | .migrating => ∃ dim, cl.job = some (.opening dim, .pure ())
  | .running _ _ _ _ => cl.job = some (.migrating, .pure ())

def nextPhase (cl : Connection) (ph : Phase) (p : Sql Unit) : Prop :=
  ph.follows cl ∧ p = ph.prog

/-- No other connection came between a probe and the step it decides: the column is
still missing when it is added, and `files` is still a legacy table when it is recreated. -/
def unraced (q : Req Stmt) (o : Outcome RowId SqlError) (c : Db) (_ : Txn Db) : Prop :=
  (∃ x, o = .run x) ∧ (q = .stmt .alterChunksAddKind → ¬ c.HasKind) ∧
    (q = .stmt .createFilesNew → ¬ c.Composite)

/-! ## What each phase guarantees and reaches -/

/-- The schema a migration leaves. -/
structure Db.Ready (c : Db) : Prop extends c.Migrated where
  vec : ∃ v, c.chunksVec = some v
  stamped : c.IsStamped

theorem Db.Ready.grows {c c' : Db} (h : c.Ready) (hg : Grows c c') : c'.Ready := by
  obtain ⟨v, hv⟩ := h.vec
  obtain ⟨v', hv', -⟩ := hg.vec v hv
  exact ⟨h.toMigrated.grows hg, ⟨v', hv'⟩, hg.isStamped h.stamped⟩

/-- Opening and migrating keep every row; a run adds no placeholder row. -/
def Phase.keeps : Phase → Db → Db → Prop
  | .running _ _ _ _, c, c' => NoNewPlaceholder c c'
  | _, c, c' => SameData c c'

theorem SameData.noNewPlaceholder {c c' : Db} (h : SameData c c') : NoNewPlaceholder c c' := by
  intro r hr _
  rw [← h.files]
  exact hr

theorem Phase.keeps.noNewPlaceholder {ph : Phase} {c c' : Db} (h : ph.keeps c c') :
    NoNewPlaceholder c c' := by
  cases ph with
  | running D e view force => exact h
  | _ => exact SameData.noNewPlaceholder h

theorem Phase.keeps_refl (ph : Phase) (c : Db) : ph.keeps c c := by
  cases ph with
  | running D e view force => exact fun r hr _ => hr
  | _ => exact SameData.refl c

/-- Everybody grows the schema, and keeps what the phase keeps. -/
def phaseRules (ph : Phase) : Rules Stmt SqlError Db RowId where
  rely := Grows
  guar c c' := Grows c c' ∧ ph.keeps c c'
  allow := unraced
  rely_refl := Grows.refl
  rely_trans _ _ _ := Grows.trans
  guar_refl c := ⟨.refl c, ph.keeps_refl c⟩

/-- How a phase ends. -/
def Phase.ends : Phase → Except Error Unit → Db → Txn Db → Prop
  | .opening _, r, c, t => r = .ok () ∧ t = .idle ∧ c.HasChunks ∧ ∃ v, c.chunksVec = some v
  | .migrating, r, c, t => r = .ok () ∧ t = .idle ∧ c.Ready
  | .running _ _ _ _, _, c, _ => c.Ready

theorem Phase.ends_stable {ph : Phase} {r : Except Error Unit} {c c' : Db} {t : Txn Db}
    (hg : Grows c c') (h : ph.ends r c t) : ph.ends r c' t := by
  cases ph with
  | opening dim =>
    obtain ⟨hr, ht, hc, v, hv⟩ := h
    obtain ⟨v', hv', -⟩ := hg.vec v hv
    exact ⟨hr, ht, hg.chunks hc, v', hv'⟩
  | migrating => exact ⟨h.1, h.2.1, h.2.2.grows hg⟩
  | running D e view force => exact Db.Ready.grows h hg

/-- What holds of the database from the start. -/
def Acceptable (c : Db) : Prop := c.filesNew = none ∧ c.Stamped

theorem migrationRules_phase {ph : Phase} (h : ∀ c c', SameData c c' → ph.keeps c c') :
    MigrationRules (phaseRules ph) True where
  rely _ _ hg := hg
  guar c c' hg hd := ⟨hg, h c c' hd⟩
  benign _ _ _ _ _ ho := ho.1
  kind _ _ _ _ _ _ ho := ho.2.1 rfl
  files _ _ _ _ _ ho := ho.2.2 rfl

section
variable {c : Db}

theorem wp_opening (dim : Nat) :
    wp engine (phaseRules (.opening dim)) (openDbWith dim) (Phase.ends (.opening dim)) c .idle := by
  have H : MigrationRules (phaseRules (.opening dim)) True := migrationRules_phase fun _ _ h => h
  refine wp_mono ?_ (returns_openDbWith H dim)
  rintro r c' t ⟨hP, hok⟩
  obtain ⟨_, rfl⟩ := hok trivial
  obtain ⟨ht, -, hc, hv⟩ := hP () rfl
  exact ⟨rfl, ht, hc, hv⟩

theorem wp_migrating (hi : Acceptable c) (hc : c.HasChunks) (hv : ∃ v, c.chunksVec = some v) :
    wp engine (phaseRules .migrating) migrate (Phase.ends .migrating) c .idle := by
  have H : MigrationRules (phaseRules .migrating) True := migrationRules_phase fun _ _ h => h
  refine wp_mono ?_ (returns_migrate H fun _ => ⟨hc, hi.1, hi.2⟩)
  rintro r c' t ⟨hP, hok⟩
  obtain ⟨_, rfl⟩ := hok trivial
  obtain ⟨ht, hg, hk, hhas, hcomp, hs⟩ := hP () rfl
  obtain ⟨v, hv⟩ := hv
  obtain ⟨v', hv', -⟩ := hg.vec v hv
  exact ⟨rfl, ht, ⟨hk, hhas, hcomp, hg.filesNew hi.1⟩, ⟨v', hv'⟩, hs⟩

theorem wp_running (D : Deps) (e : Embedder) (view : RepoView) (force : Bool) (hr : c.Ready) :
    wp engine (phaseRules (.running D e view force)) (Phase.prog (.running D e view force))
      (Phase.ends (.running D e view force)) c .idle := by
  have hR := repoIdFor_ne_placeholder D view.canonicalRoot
  have honly : (Phase.prog (.running D e view force)).Only
      (RunStmt (repoIdFor D view.canonicalRoot) e) :=
    only_bind (only_reindexWith (runAllows_runStmt D _ e) (fun _ _ => trivial) force) fun _ => trivial
  refine wp_only (K := Db.Ready) (G := fun c c' => Grows c c' ∧ NoNewPlaceholder c c')
    (fun c => ⟨.refl c, fun r hr _ => hr⟩) (fun a b c h h' => ⟨h.1.trans h'.1, fun r hr hp =>
      h.2 r (h'.2 r hr hp) hp⟩) (fun s x a r b hs hx => ?_) (fun _ _ hk h => hk.grows h.1)
    (fun _ _ h hk => hk.grows h) (fun _ _ _ h => h)
    honly hr (fun w hw => by cases hw)
  obtain ⟨hshape, hno⟩ := exec_runStmt hR hs hx
  exact ⟨grows_of_shape hshape, hno⟩

end

/-! ## Any number of connections -/

theorem composes_phases : Pool.Composes engine phaseRules Phase.ends Acceptable unraced
    nextPhase where
  guar_rely _ _ _ _ h := h.1
  guar_inv _ _ _ hi h := ⟨h.1.filesNew hi.1, h.1.stamped hi.2⟩
  stable _ _ _ _ _ hrel h := Phase.ends_stable (Rules.relyOn_rely _ hrel) h
  allowed _ _ _ _ _ ho := ho
  started d cl ph p hi hjob hst := by
    obtain ⟨hfollows, rfl⟩ := hst
    cases ph with
    | opening dim =>
      have hcl : cl = ⟨none, .idle⟩ := hfollows
      rw [hcl]
      exact wp_opening dim
    | migrating =>
      obtain ⟨dim, hprev⟩ := hfollows
      obtain ⟨-, ht, hc, hv⟩ := hjob _ _ hprev
      rw [ht]
      exact wp_migrating hi hc hv
    | running D e view force =>
      obtain ⟨-, ht, hr⟩ := hjob _ _ hfollows
      rw [ht]
      exact wp_running D e view force hr

theorem safe_idlePool {ι : Type} {db : Db} (hi : Acceptable db) :
    Pool.Safe engine phaseRules Phase.ends Acceptable (idlePool ι Phase db) where
  inv := hi
  lock _ _ h _ := h.elim
  jobs _ _ _ h := by cases h

theorem Db.Ready.index {c : Db} (h : c.Ready) : ∃ ix : Index, c = ix.toDb := by
  obtain ⟨v, hv⟩ := h.vec
  exact h.toMigrated.index hv

/-- Any number of connections open, migrate and run, in any interleaving in which
nobody comes between a probe and the step it decides: a migration that ends has
returned, from then on the schema is the current one with its stamp, no step
brings a placeholder row, and only the steps of runs change `files` rows. -/
theorem unraced_migrations {ι : Type} [DecidableEq ι] (db₀ : Db) (hnew : db₀.filesNew = none)
    (hst : db₀.Stamped) (s : Connections ι)
    (h : Pool.Reachable engine unraced nextPhase (idlePool ι Phase db₀) s) :
    (∀ i p r, (s.client i).job = some (.migrating, p) → p.result? = some r → r = .ok ()) ∧
    (∀ i ph p, (s.client i).job = some (ph, p) → (∀ dim, ph ≠ .opening dim) →
      p.result?.isSome → ∃ ix : Index, s.db = ix.toDb ∧ s.db.IsStamped) ∧
    ∀ s', Pool.Step engine unraced nextPhase s s' → NoNewPlaceholder s.db s'.db ∧
      (s'.db.fileEntries = s.db.fileEntries ∨ ∃ i D e view force p,
        (s.client i).job = some (.running D e view force, p) ∧
        ∀ j, j ≠ i → s'.client j = s.client j) := by
  have hsafe := Pool.safe_reachable composes_phases (safe_idlePool ⟨hnew, hst⟩) h
  have hends : ∀ i ph p r, (s.client i).job = some (ph, p) → p.result? = some r →
      ph.ends r s.db (s.client i).txn := by
    intro i ph p r hjob hr
    have hwp := hsafe.jobs i ph p hjob
    cases p with
    | pure a => cases hr; exact hwp
    | throw y => cases hr; exact hwp
    | call q k => cases hr
  refine ⟨fun i p r hjob hr => (hends i _ p r hjob hr).1, fun i ph p hjob hph hsome => ?_,
    fun s' hstep => ?_⟩
  · obtain ⟨r, hr⟩ := Option.isSome_iff_exists.1 hsome
    have hend := hends i ph p r hjob hr
    have hready : s.db.Ready := by
      cases ph with
      | opening dim => exact absurd rfl (hph dim)
      | migrating => exact hend.2.2
      | running D e view force => exact hend
    obtain ⟨ix, hix⟩ := hready.index
    exact ⟨ix, hix, hready.stamped⟩
  · rcases (Pool.safe_step composes_phases hsafe hstep).2 with hsame | ⟨i, ph, p, hjob, hothers, hg⟩
    · rw [hsame]
      exact ⟨fun r hr _ => hr, .inl rfl⟩
    · refine ⟨hg.2.noNewPlaceholder, ?_⟩
      cases ph with
      | running D e view force => exact .inr ⟨i, D, e, view, force, p, hjob, hothers⟩
      | opening dim => exact .inl (SameData.files hg.2)
      | migrating => exact .inl (SameData.files hg.2)

/-! ## Two connections -/

/-- Connection `i` of a database opens it. -/
def openBy (i : Fin 2) (s : Connections (Fin 2)) : Connections (Fin 2) :=
  (s.launch i (.opening 1) (openDbWith 1)).play engine i (succeed 2)

/-- It issues the first `n` requests of its migration. -/
def migrateBy (i : Fin 2) (n : Nat) (s : Connections (Fin 2)) : Connections (Fin 2) :=
  (s.launch i .migrating migrate).play engine i (succeed n)

/-- It runs on the one file. -/
def runBy (i : Fin 2) (s : Connections (Fin 2)) : Connections (Fin 2) :=
  (s.launch i (.running .plain oneFileEmbedder oneFileView false)
    (Phase.prog (.running .plain oneFileEmbedder oneFileView false))).play engine i (succeed 40)

/-- The check that makes a request unraced. -/
def isUnraced (q : Req Stmt) (c : Db) (_ : Txn Db) : Bool :=
  decide ((q = .stmt .alterChunksAddKind → c.chunks.any (·.hasKind) = false) ∧
    (q = .stmt .createFilesNew → c.files.any (·.isComposite) = false))

theorem unraced_of_isUnraced {n : Nat} {o : Outcome RowId SqlError} (ho : o ∈ succeed n)
    {q : Req Stmt} {c : Db} {t : Txn Db} (h : isUnraced q c t = true) : unraced q o c t := by
  obtain ⟨hkind, hfiles⟩ := of_decide_eq_true h
  refine ⟨⟨7, (List.mem_replicate.1 ho).2⟩, fun hq ⟨k, hk, hkk⟩ => ?_, fun hq ⟨f, hf⟩ => ?_⟩
  · have := hkind hq
    simp [hk, hkk] at this
  · have := hfiles hq
    simp [hf, FilesTable.isComposite] at this

section
variable {allow : Req Stmt → Outcome RowId SqlError → Db → Txn Db → Prop}
  {ok : Req Stmt → Db → Txn Db → Bool} {s s₀ : Connections (Fin 2)} {i : Fin 2}

theorem reachable_openBy (h : Pool.Reachable engine allow nextPhase s₀ s)
    (hallow : ∀ n, ∀ o ∈ succeed n, ∀ q c t, ok q c t = true → allow q o c t)
    (hnone : s.client i = ⟨none, .idle⟩)
    (hok : (s.launch i (.opening 1) (openDbWith 1)).playable engine ok i (succeed 2) = true) :
    Pool.Reachable engine allow nextPhase s₀ (openBy i s) :=
  Pool.reachable_play (Pool.reachable_launch h (fun ℓ p hj => by rw [hnone] at hj; cases hj)
    ⟨hnone, rfl⟩) (hallow 2) hok

/-- A migration that returned. -/
theorem migrateBy_returned {n : Nat}
    (h : (replay engine (succeed n) migrate s.db (s.client i).txn).1.value? = some ()) :
    ((migrateBy i n s).client i).job = some (.migrating, .pure ()) := by
  have hjob : ((migrateBy i n s).client i).job =
      some (.migrating, (replay engine (succeed n) migrate s.db (s.client i).txn).1) := by
    simp [migrateBy, Pool.play, Pool.launch]
  rw [hjob, Prog.eq_pure_of_value? h]

theorem reachable_migrateBy {n : Nat} (h : Pool.Reachable engine allow nextPhase s₀ s)
    (hallow : ∀ n, ∀ o ∈ succeed n, ∀ q c t, ok q c t = true → allow q o c t)
    (hopened : (s.client i).job = some (.opening 1, .pure ()))
    (hok : (s.launch i .migrating migrate).playable engine ok i (succeed n) = true) :
    Pool.Reachable engine allow nextPhase s₀ (migrateBy i n s) :=
  Pool.reachable_play (Pool.reachable_launch h (fun ℓ p hj => by
    rw [hopened] at hj; cases hj; rfl) ⟨⟨1, hopened⟩, rfl⟩) (hallow n) hok

theorem reachable_runBy (h : Pool.Reachable engine allow nextPhase s₀ s)
    (hallow : ∀ n, ∀ o ∈ succeed n, ∀ q c t, ok q c t = true → allow q o c t)
    (hreturned : (s.client i).job = some (.migrating, .pure ()))
    (hok : (s.launch i (.running .plain oneFileEmbedder oneFileView false)
      (Phase.prog (.running .plain oneFileEmbedder oneFileView false))).playable engine ok i
      (succeed 40) = true) : Pool.Reachable engine allow nextPhase s₀ (runBy i s) :=
  Pool.reachable_play (Pool.reachable_launch h (fun ℓ p hj => by
    rw [hreturned] at hj; cases hj; rfl) ⟨hreturned, rfl⟩) (hallow 40) hok

end

/-- Both connections open a legacy database.  The second migrates it while the first is midway
through its own migration, which then goes on to its end. -/
def midway : Connections (Fin 2) :=
  migrateBy 0 12 (openBy 1 (openBy 0 (idlePool (Fin 2) Phase legacyDb)))
def interleaved : Connections (Fin 2) := (migrateBy 1 30 midway).play engine 0 (succeed 30)

/-- The second starts a run. -/
def aboutToRun : Connections (Fin 2) :=
  interleaved.launch 1 (.running .plain oneFileEmbedder oneFileView false)
    (Phase.prog (.running .plain oneFileEmbedder oneFileView false))

/-- The first connection is at its migration. -/
theorem job_aboutToRun : ∃ p, (aboutToRun.client 0).job = some (.migrating, p) := by
  have hmidway : ∃ p, (midway.client 0).job = some (.migrating, p) := by
    unfold midway migrateBy
    exact Pool.play_job ⟨migrate, by simp only [Pool.launch, Function.update_self]⟩ _
  have hmigrated : ∃ p, ((migrateBy 1 30 midway).client 0).job = some (.migrating, p) := by
    unfold migrateBy
    rw [Pool.play_other (by decide)]
    simpa only [Pool.launch, Function.update_of_ne (by decide : (0 : Fin 2) ≠ 1)] using hmidway
  have hinterleaved : ∃ p, (interleaved.client 0).job = some (.migrating, p) := by
    unfold interleaved
    exact Pool.play_job hmigrated _
  simpa only [aboutToRun, Pool.launch, Function.update_of_ne (by decide : (0 : Fin 2) ≠ 1)]
    using hinterleaved

/-- Nobody comes between a probe and its step: the first migration returns, the schema is the
current one, and the first request of the run turns the placeholder row into its own. -/
theorem unraced_migrations_interleaved :
    Pool.Reachable engine unraced nextPhase (idlePool (Fin 2) Phase legacyDb) aboutToRun ∧
    (∃ p, (aboutToRun.client 0).job = some (.migrating, p) ∧ p.result? = some (.ok ())) ∧
    (∃ ix : Index, aboutToRun.db = ix.toDb ∧ aboutToRun.db.IsStamped) ∧
    aboutToRun.db.fileEntries.map (·.repoId) = [migrationPlaceholderRepoId] ∧
    (aboutToRun.play engine 1 (succeed 1)).db.fileEntries.map (·.repoId) =
      [repoIdFor .plain "/old".toList] ∧
    NoNewPlaceholder aboutToRun.db (aboutToRun.play engine 1 (succeed 1)).db := by
  have unr : ∀ n, ∀ o ∈ succeed n, ∀ q c t, isUnraced q c t = true → unraced q o c t :=
    fun n o ho q c t h => unraced_of_isUnraced ho h
  have h₀ : Pool.Reachable engine unraced nextPhase (idlePool (Fin 2) Phase legacyDb) _ := .refl
  have h₁ := reachable_openBy (i := 0) h₀ unr rfl (by decide +kernel)
  have h₂ := reachable_openBy (i := 1) h₁ unr rfl (by decide +kernel)
  have h₃ := reachable_migrateBy (i := 0) (n := 12) h₂ unr rfl (by decide +kernel)
  have h₄ := reachable_migrateBy (i := 1) (n := 30) h₃ unr rfl (by decide +kernel)
  have h₅ := Pool.reachable_play (i := 0) h₄ (unr 30) (by decide +kernel)
  have hreturned : (interleaved.client 1).job = some (.migrating, .pure ()) := by
    unfold interleaved
    rw [Pool.play_other (by decide)]
    exact migrateBy_returned (by decide +kernel)
  have h₆ : Pool.Reachable engine unraced nextPhase (idlePool (Fin 2) Phase legacyDb) aboutToRun :=
    Pool.reachable_launch h₅ (fun ℓ p hj => by rw [hreturned] at hj; cases hj; rfl) ⟨hreturned, rfl⟩
  obtain ⟨p, hjob⟩ := job_aboutToRun
  have hended : ((aboutToRun.client 0).job.bind fun job => job.2.result?) = some (.ok ()) := by
    decide +kernel
  rw [hjob] at hended
  obtain ⟨-, hschema, hstep⟩ := unraced_migrations legacyDb rfl (fun s hs => by cases hs) _ h₆
  refine ⟨h₆, ⟨p, hjob, hended⟩, ?_, by decide +kernel, by decide +kernel, ?_⟩
  · exact hschema 0 _ p hjob (fun _ => nofun) (Option.isSome_of_eq_some hended)
  · exact (hstep _ (Pool.step_play (by decide +kernel) (unr 1 _ (.head _)) (by decide +kernel))).1

/-- Two connections open a new database and probe it for the `kind` column; then
both go on, and the second adds a column that is there by now. -/
def raced : Connections (Fin 2) :=
  ((migrateBy 1 3 (migrateBy 0 3 (openBy 1 (openBy 0 (idlePool (Fin 2) Phase Db.empty))))).play
    engine 0 (succeed 30)).play engine 1 (succeed 30)

/-- One connection has seen a legacy `files`; the other opens, migrates and runs. -/
def overtaken : Connections (Fin 2) :=
  runBy 1 (migrateBy 1 30 (openBy 1 (migrateBy 0 15 (openBy 0 (idlePool (Fin 2) Phase legacyDb)))))

/-- Then the first one recreates the table. -/
def recreatedAfter : Connections (Fin 2) := overtaken.play engine 0 (succeed 30)

/-- Two migrations of a new database, one of which fails; and a migration that turns
the row of a repository back into a placeholder row. -/
theorem raced_migrations :
    (Pool.Reachable engine noFault nextPhase (idlePool (Fin 2) Phase Db.empty) raced ∧
      (raced.client 1).job.bind (fun j => j.2.result?) =
        some (.error (.context "add kind column to chunks".toList (.sql .duplicateColumn)))) ∧
    Pool.Reachable engine noFault nextPhase (idlePool (Fin 2) Phase legacyDb) overtaken ∧
    Pool.Reachable engine noFault nextPhase overtaken recreatedAfter ∧
    (recreatedAfter.client 0).job.bind (fun j => j.2.result?) = some (.ok ()) ∧
    overtaken.db.fileEntries.map (·.repoId) = [repoIdFor .plain "/old".toList] ∧
    recreatedAfter.db.fileEntries.map (·.repoId) = [migrationPlaceholderRepoId] := by
  have run : ∀ n, ∀ o ∈ succeed n, ∀ (q : Req Stmt) (c : Db) (t : Txn Db),
      true = true → noFault q o c t := fun n o ho _ _ _ _ => ⟨7, (List.mem_replicate.1 ho).2⟩
  refine ⟨⟨?_, by decide +kernel⟩, ?_, ?_, by decide +kernel, by decide +kernel,
    by decide +kernel⟩
  · have h₀ : Pool.Reachable engine noFault nextPhase (idlePool (Fin 2) Phase Db.empty) _ := .refl
    have h₁ := reachable_openBy (i := 0) h₀ run rfl (by decide +kernel)
    have h₂ := reachable_openBy (i := 1) h₁ run rfl (by decide +kernel)
    have h₃ := reachable_migrateBy (i := 0) (n := 3) h₂ run rfl (by decide +kernel)
    have h₄ := reachable_migrateBy (i := 1) (n := 3) h₃ run rfl (by decide +kernel)
    have h₅ := Pool.reachable_play (i := 0) h₄ (run 30) (by decide +kernel)
    exact Pool.reachable_play (i := 1) h₅ (run 30) (by decide +kernel)
  · have h₀ : Pool.Reachable engine noFault nextPhase (idlePool (Fin 2) Phase legacyDb) _ := .refl
    have h₁ := reachable_openBy (i := 0) h₀ run rfl (by decide +kernel)
    have h₂ := reachable_migrateBy (i := 0) (n := 15) h₁ run rfl (by decide +kernel)
    have h₃ := reachable_openBy (i := 1) h₂ run rfl (by decide +kernel)
    have h₄ := reachable_migrateBy (i := 1) (n := 30) h₃ run rfl (by decide +kernel)
    have hreturned := migrateBy_returned (i := 1) (n := 30)
      (s := openBy 1 (migrateBy 0 15 (openBy 0 (idlePool (Fin 2) Phase legacyDb))))
      (by decide +kernel)
    exact reachable_runBy (i := 1) h₄ run hreturned (by decide +kernel)
  · exact Pool.reachable_play .refl (run 30) (by decide +kernel)

end CodeSearch
