import CodeSearch.Migration
import CodeSearch.Diff

/-!
# The lazy first index

`ensure_indexed` takes an existing database file for a built index.  It checks
for the file, takes its process's build lock, checks again, and builds.
`ServerStep` interleaves any number of callers in any number of processes, each
with its own connection to the one database; a build fails or dies anywhere.

The file exists from the first step of a build on, and the lock is not shared
between processes.  When no check finds the file before a build returned, and no
caller passes the second check while another process builds, a caller that
returned has a database that holds a whole tree (`ensure_indexed_complete`).
-/

namespace CodeSearch

open Relational Store

/-! ## Callers -/

/-- A call of `ensure_indexed`: its process, its active embedder, and what its
walk reads.  A walk lists a path once. -/
structure Caller (π : Type) where
  process : π
  embedder : Embedder
  view : RepoView
  paths : (view.walked.map (·.relPath)).Nodup

/-- `open_db_with`, `migrate`, `index_repo_with`. -/
def buildIndex {π : Type} (D : Deps) (caller : Caller π) : Sql ReindexReport := do
  withContext "open_db" (openDbWith caller.embedder.dim)
  withContext "migrate" migrate
  withContext "index_repo" (reindexWith D caller.view true caller.embedder)

/-- Where a call stands. -/
inductive CallPhase where
  /-- Before the first `db.exists()`. -/
  | checking
  /-- Waiting for the build lock. -/
  | waiting
  /-- Under the lock, before the second `db.exists()`. -/
  | locked
  /-- Both checks found nothing. -/
  | opening
  | building
  /-- `index_repo_with` returned. -/
  | registering
  | returned
  | failed
  | killed
deriving DecidableEq

inductive LockState (ι : Type) where
  | free
  | held (i : ι)
  /-- A holder panicked. -/
  | poisoned

/-- The build connections, each running a call's build on the one database. -/
abbrev BuildPool (ι : Type) := Pool Stmt Stmt.Resp SqlError Error ReindexReport Db Unit ι

/-- `built` records that some `index_repo_with` returned. -/
structure ServerState (π ι : Type) where
  created : Bool
  built : Bool
  pool : BuildPool ι
  lock : π → LockState ι
  phase : ι → CallPhase

/-- The steps a run is judged by. -/
inductive ServerAction (ι : Type) where
  /-- A check finds the file. -/
  | found (i : ι)
  /-- The second check does not. -/
  | missing (i : ι)
  | other

section
variable {π ι : Type} [DecidableEq π] [DecidableEq ι] (D : Deps) (callers : ι → Caller π)

/-- The call moves on. -/
def ServerState.setPhase (s : ServerState π ι) (i : ι) (phase : CallPhase) : ServerState π ι :=
  { s with phase := Function.update s.phase i phase }

/-- The call's process has its lock in another state. -/
def ServerState.setLock (s : ServerState π ι) (i : ι) (l : LockState ι) : ServerState π ι :=
  { s with lock := Function.update s.lock (callers i).process l }

/-- One step of one call, or the death of a process. -/
inductive ServerStep : ServerState π ι → ServerAction ι → ServerState π ι → Prop
  | found (s : ServerState π ι) (i : ι) : s.phase i = .checking → s.created = true →
      ServerStep s (.found i) (s.setPhase i .returned)
  | notFound (s : ServerState π ι) (i : ι) : s.phase i = .checking → s.created = false →
      ServerStep s .other (s.setPhase i .waiting)
  | acquire (s : ServerState π ι) (i : ι) : s.phase i = .waiting →
      s.lock (callers i).process = .free →
      ServerStep s .other ((s.setLock callers i (.held i)).setPhase i .locked)
  /-- `expect("build lock poisoned")`. -/
  | poisoned (s : ServerState π ι) (i : ι) : s.phase i = .waiting →
      s.lock (callers i).process = .poisoned →
      ServerStep s .other (s.setPhase i .failed)
  | foundLocked (s : ServerState π ι) (i : ι) : s.phase i = .locked → s.created = true →
      ServerStep s (.found i) ((s.setLock callers i .free).setPhase i .returned)
  | missing (s : ServerState π ι) (i : ι) : s.phase i = .locked → s.created = false →
      ServerStep s (.missing i) (s.setPhase i .opening)
  /-- `Connection::open` creates the file. -/
  | create (s : ServerState π ι) (i : ι) : s.phase i = .opening →
      ServerStep s .other
        ({ s with created := true, pool := s.pool.launch i () (buildIndex D (callers i)) }.setPhase
          i .building)
  | openFailed (s : ServerState π ι) (i : ι) (created : Bool) : s.phase i = .opening →
      ServerStep s .other
        (({ s with created := s.created || created }.setLock callers i .free).setPhase i .failed)
  /-- One request of a build; a writing one waits for the others' transactions. -/
  | request (s : ServerState π ι) (i : ι) {q : Req Stmt}
      {k : Except SqlError (q.Resp Stmt.Resp) → Sql ReindexReport} {t : Txn Db}
      (o : Outcome RowId SqlError) : s.phase i = .building →
      s.pool.client i = ⟨some ((), .call q k), t⟩ →
      ((engine.step q o s.pool.db t).2.1 ≠ s.pool.db ∨
        (engine.step q o s.pool.db t).2.2.isActive →
        ∀ j, j ≠ i → ¬ (s.pool.client j).txn.isActive) →
      ServerStep s .other
        { s with
          pool :=
            { db := (engine.step q o s.pool.db t).2.1
              client := Function.update s.pool.client i
                ⟨some ((), k (engine.step q o s.pool.db t).1),
                  (engine.step q o s.pool.db t).2.2⟩ } }
  | indexed (s : ServerState π ι) (i : ι) (report : ReindexReport) : s.phase i = .building →
      (s.pool.client i).job = some ((), .pure report) →
      ServerStep s .other ({ s with built := true }.setPhase i .registering)
  /-- The build fails; a panic poisons the lock. -/
  | buildFailed (s : ServerState π ι) (i : ι) (err : Error) (l : LockState ι) :
      s.phase i = .building → (s.pool.client i).job = some ((), .throw err) →
      l = .free ∨ l = .poisoned →
      ServerStep s .other
        (({ s with
            pool :=
              { s.pool with client := Function.update s.pool.client i ⟨none, .idle⟩ } }.setLock
          callers i l).setPhase i .failed)
  | finish (s : ServerState π ι) (i : ι) : s.phase i = .registering →
      ServerStep s .other ((s.setLock callers i .free).setPhase i .returned)
  /-- A process is killed, with its connections and its lock. -/
  | kill (s : ServerState π ι) (p : π) :
      ServerStep s .other
        { s with
          pool :=
            { s.pool with
              client := fun i =>
                if (callers i).process = p then ⟨none, .idle⟩ else s.pool.client i }
          lock := Function.update s.lock p .free
          phase := fun i =>
            if (callers i).process = p ∧ s.phase i ≠ .returned then .killed else s.phase i }

/-- No file, nobody past the first check. -/
def ServerState.start : ServerState π ι :=
  { created := false, built := false
    pool := { db := .empty, client := fun _ => ⟨none, .idle⟩ }
    lock := fun _ => .free
    phase := fun _ => .checking }

/-- The call is past the second check and its build has not ended. -/
def ServerState.Builds (s : ServerState π ι) (i : ι) : Prop :=
  s.phase i = .opening ∨ s.phase i = .building

/-- A check finds the file only after a build returned, and the second check
misses it only while no other process builds. -/
def Ordered (s : ServerState π ι) : ServerAction ι → Prop
  | .found _ => s.built = true
  | .missing i => ∀ j, s.Builds j → (callers j).process = (callers i).process
  | .other => True

/-- Runs in which every action is as `ok` says. -/
def ServerRun (ok : ServerState π ι → ServerAction ι → Prop) :
    ServerState π ι → ServerState π ι → Prop :=
  Relation.ReflTransGen fun s s' => ∃ a, ServerStep D callers s a s' ∧ ok s a

/-- The database is what a full run over a caller's whole tree leaves. -/
def Complete (db : Db) : Prop :=
  ∃ i ix, db = ix.toDb ∧
    Rebuilt D (callers i).embedder (repoIdFor D (callers i).view.canonicalRoot)
      (callers i).view.mtime (callers i).view.walked ix.width ix

end

/-! ## A build alone -/

theorem Db.stamped_empty : Db.empty.Stamped := fun s hs => by cases hs

/-- A program judged by the rules of migration, alone. -/
theorem solo_of_returns {allow : Req Stmt → Outcome RowId SqlError → Db → Txn Db → Prop}
    {B : Prop} {α : Type} {p : Sql α} {c : Db} {P : α → Db → Txn Db → Prop}
    (h : Returns engine (migratingAlone allow) B p c .idle P) :
    wp engine (soloRules allow) p (fun r c' t' => ∀ a, r = .ok a → P a c' t') c .idle := by
  have hw : wp engine (soloRules allow) p
      (fun r c' t' => (∀ a, r = .ok a → P a c' t') ∧ (B → ∃ a, r = .ok a)) c .idle :=
    wp_weaken (U := migratingAlone allow) (fun t c c' hr => by cases t <;> exact hr)
      (fun _ _ _ => trivial) (fun q o c t (ho : allow q o c t) => ho) h
  exact wp_mono (fun _ _ _ hq => hq.1) hw

/-- A build of a new file that returns leaves the caller's whole tree. -/
theorem wp_buildIndex {π : Type} (D : Deps) (caller : Caller π)
    {allow : Req Stmt → Outcome RowId SqlError → Db → Txn Db → Prop} :
    wp engine (soloRules allow) (buildIndex D caller) (okPost fun _ ix =>
      Rebuilt D caller.embedder (repoIdFor D caller.view.canonicalRoot) caller.view.mtime
        caller.view.walked ix.width ix) .empty .idle := by
  have H := migrationRules_alone allow
  refine (wp_bind _ _ _ _ _).2 (wp_mono ?_ (solo_of_returns
    (returns_mapError (returns_openDbWith H caller.embedder.dim))))
  rintro (y | _) c t hq
  · rintro _ ⟨⟩
  obtain ⟨rfl, hg, hchunks, v, hv⟩ := hq _ rfl
  refine (wp_bind _ _ _ _ _).2 (wp_mono ?_ (solo_of_returns (returns_mapError
    (returns_migrate H fun _ => ⟨hchunks, hg.filesNew rfl, hg.stamped Db.stamped_empty⟩))))
  rintro (y | _) c₂ t hq
  · rintro _ ⟨⟩
  obtain ⟨rfl, hg', hk, hhas, hcomp, -⟩ := hq _ rfl
  obtain ⟨v', hv', -⟩ := hg'.vec v hv
  have hmig : c₂.Migrated := ⟨hk, hhas, hcomp, hg'.filesNew (hg.filesNew rfl)⟩
  obtain ⟨ix, rfl⟩ := hmig.index hv'
  refine yields_mapError (yields_mono ?_
    (yields_reindexWith_force D caller.embedder caller.paths))
  rintro report ix' ⟨h, -⟩
  rw [h.width]
  exact h

/-! ## Ordered runs -/

section
variable {π ι : Type} {D : Deps} {callers : ι → Caller π} {s s' : ServerState π ι}

/-- The phases under the build lock. -/
def CallPhase.locks : CallPhase → Bool
  | .locked | .opening | .building | .registering => true
  | .checking | .waiting | .returned | .failed | .killed => false

/-- What a build promises when it returns. -/
def BuildPost (D : Deps) (caller : Caller π) : Except Error ReindexReport → Db → Txn Db → Prop :=
  okPost fun _ ix => Rebuilt D caller.embedder (repoIdFor D caller.view.canonicalRoot)
    caller.view.mtime caller.view.walked ix.width ix

/-- The invariant of ordered runs: one build at a time, on a file that nobody
else writes, and a whole tree in the database once it returned. -/
structure ServerState.Sound (D : Deps) (callers : ι → Caller π) (s : ServerState π ι) : Prop where
  holds : ∀ i, (s.phase i).locks = true → s.lock (callers i).process = .held i
  one : ∀ i j, s.Builds i → s.Builds j → i = j
  fresh : s.created = false → s.pool.db = .empty ∧ s.built = false
  opening : ∀ i, s.phase i = .opening → s.created = false
  building : ∀ i, s.phase i = .building → s.created = true
  idle : ∀ i, s.phase i ≠ .building → (s.pool.client i).txn = .idle
  job : ∀ i, s.phase i = .building → ∃ p, (s.pool.client i).job = some ((), p) ∧
    wp engine (soloRules anyOutcome) p (BuildPost D (callers i)) s.pool.db (s.pool.client i).txn
  done : s.built = true → Complete D callers s.pool.db ∧ ∀ i, ¬ s.Builds i
  returned : ∀ i, s.phase i = .registering ∨ s.phase i = .returned → s.built = true

theorem sound_start (D : Deps) (callers : ι → Caller π) :
    (ServerState.start : ServerState π ι).Sound D callers where
  holds := fun i h => (by cases h)
  one := fun i j h => (by rcases h with h | h <;> cases h)
  fresh := fun _ => ⟨rfl, rfl⟩
  opening := fun i h => (by cases h)
  building := fun i h => (by cases h)
  idle := fun _ _ => rfl
  job := fun i h => (by cases h)
  done := fun h => (by cases h)
  returned := fun i h => (by rcases h with h | h <;> cases h)

/-- A lock serves one call at a time. -/
theorem ServerState.Sound.holds_unique (h : s.Sound D callers) {i j : ι}
    (hi : (s.phase i).locks = true) (hj : (s.phase j).locks = true)
    (hp : (callers j).process = (callers i).process) : j = i := by
  have h1 := h.holds i hi
  have h2 := h.holds j hj
  rw [hp, h1] at h2
  cases h2
  rfl

theorem ServerState.Sound.builds_unique (h : s.Sound D callers) {i : ι} (hi : s.Builds i) (j : ι)
    (hj : j ≠ i) : ¬ s.Builds j := fun hb => hj (h.one j i hb hi)

theorem ServerState.not_builds {i : ι} {ph : CallPhase} (hi : s.phase i = ph)
    (hph : ph ≠ .opening ∧ ph ≠ .building) : ¬ s.Builds i := by
  rintro (hb | hb)
  · exact hph.1 (hi.symm.trans hb)
  · exact hph.2 (hi.symm.trans hb)

/-- What the death of process `p` leaves. -/
structure Dies [DecidableEq π] (callers : ι → Caller π) (p : π) (s s' : ServerState π ι) : Prop where
  phase : ∀ i, s'.phase i =
    if (callers i).process = p ∧ s.phase i ≠ .returned then .killed else s.phase i
  client : ∀ i, s'.pool.client i =
    if (callers i).process = p then ⟨none, .idle⟩ else s.pool.client i
  lock : ∀ q, q ≠ p → s'.lock q = s.lock q
  built : s'.built = s.built
  created : s'.created = s.created
  db : s'.pool.db = s.pool.db

/-- A call in another phase than the two final ones is of another process. -/
theorem Dies.alive [DecidableEq π] {p : π} (h : Dies callers p s s') {i : ι}
    (hk : s'.phase i ≠ .killed) (hr : s'.phase i ≠ .returned) :
    (callers i).process ≠ p ∧ s'.phase i = s.phase i := by
  rw [h.phase] at hk hr ⊢
  split at hk
  · exact absurd rfl hk
  · next hn =>
    rw [if_neg hn] at hr ⊢
    exact ⟨fun hp => hn ⟨hp, hr⟩, rfl⟩

theorem Dies.builds [DecidableEq π] {p : π} (h : Dies callers p s s') {i : ι} (hi : s'.Builds i) :
    s.Builds i := by
  have hlives : s'.phase i ≠ .killed ∧ s'.phase i ≠ .returned := by
    rcases hi with hi | hi <;> rw [hi] <;> decide
  unfold ServerState.Builds at hi ⊢
  rwa [(h.alive hlives.1 hlives.2).2] at hi

/-- A process dies. -/
theorem ServerState.Sound.dies [DecidableEq π] {p : π} (h : s.Sound D callers)
    (hd : Dies callers p s s') : s'.Sound D callers := by
  -- a call that opens, builds or registers is one of a process that lives
  have lives : ∀ {i ph}, s'.phase i = ph → ph ≠ .killed → ph ≠ .returned →
      (callers i).process ≠ p ∧ s.phase i = ph := by
    rintro i ph rfl hk hr
    obtain ⟨hp, heq⟩ := hd.alive hk hr
    exact ⟨hp, heq.symm⟩
  constructor
  · intro i hi
    obtain ⟨hp, heq⟩ := lives rfl (fun hk => by rw [hk] at hi; cases hi)
      (fun hr => by rw [hr] at hi; cases hi)
    rw [hd.lock _ hp]
    exact h.holds i (heq ▸ hi)
  · exact fun i j hi hj => h.one i j (hd.builds hi) (hd.builds hj)
  · rw [hd.created, hd.db, hd.built]
    exact h.fresh
  · intro i hi
    rw [hd.created]
    exact h.opening i (lives hi (by decide) (by decide)).2
  · intro i hi
    rw [hd.created]
    exact h.building i (lives hi (by decide) (by decide)).2
  · intro i hi
    rw [hd.client]
    split
    · rfl
    · next hp =>
      rw [hd.phase, if_neg fun hn => hp hn.1] at hi
      exact h.idle i hi
  · intro i hi
    obtain ⟨hp, heq⟩ := lives hi (by decide) (by decide)
    rw [hd.client, if_neg hp, hd.db]
    exact h.job i heq
  · intro hb
    rw [hd.built] at hb
    obtain ⟨hcomplete, hnone⟩ := h.done hb
    exact ⟨hd.db ▸ hcomplete, fun i hi => hnone i (hd.builds hi)⟩
  · intro i hi
    rw [hd.built]
    rw [hd.phase] at hi
    split at hi
    · rcases hi with hi | hi <;> cases hi
    · exact h.returned i hi

variable [DecidableEq ι]

/-- A call leaves its phase for one in which it does not build; the database and
the other calls stay. -/
theorem ServerState.Sound.settle (h : s.Sound D callers) {i : ι} {ph : CallPhase}
    (hphase : s'.phase = Function.update s.phase i ph) (hph : ph ≠ .opening ∧ ph ≠ .building)
    (hlock : ∀ j, (s'.phase j).locks = true → s'.lock (callers j).process = .held j)
    (hdb : s'.pool.db = s.pool.db) (hclient : ∀ j, j ≠ i → s'.pool.client j = s.pool.client j)
    (hidle : (s'.pool.client i).txn = .idle)
    (hcreated : s.created = true → s'.created = true)
    (hopening : ∀ j, j ≠ i → s.phase j = .opening → s'.created = false)
    (hfresh : s'.created = false → s'.built = false)
    (hmono : s.built = true → s'.built = true)
    (hbuilt : s'.built = true → Complete D callers s.pool.db ∧ ∀ j, j ≠ i → ¬ s.Builds j)
    (hret : ph = .registering ∨ ph = .returned → s'.built = true) : s'.Sound D callers := by
  have hself : s'.phase i = ph := by rw [hphase, Function.update_self]
  have hother : ∀ j, j ≠ i → s'.phase j = s.phase j := fun j hj => by
    rw [hphase, Function.update_of_ne hj]
  have hnot : ¬ s'.Builds i := ServerState.not_builds hself hph
  have hbuilds : ∀ j, s'.Builds j → j ≠ i ∧ s.Builds j := by
    intro j hj
    have hji : j ≠ i := fun heq => hnot (heq ▸ hj)
    refine ⟨hji, ?_⟩
    unfold ServerState.Builds at hj ⊢
    rwa [hother j hji] at hj
  constructor
  · exact hlock
  · intro a b ha hb
    exact h.one a b (hbuilds a ha).2 (hbuilds b hb).2
  · intro hc
    refine ⟨?_, hfresh hc⟩
    rw [hdb]
    refine (h.fresh ?_).1
    cases hs : s.created with
    | false => rfl
    | true => rw [hcreated hs] at hc; cases hc
  · intro j hj
    have hji := (hbuilds j (.inl hj)).1
    rw [hother j hji] at hj
    exact hopening j hji hj
  · intro j hj
    have hji := (hbuilds j (.inr hj)).1
    rw [hother j hji] at hj
    exact hcreated (h.building j hj)
  · intro j hj
    by_cases hji : j = i
    · subst hji; exact hidle
    · rw [hother j hji] at hj
      rw [hclient j hji]
      exact h.idle j hj
  · intro j hj
    have hji := (hbuilds j (.inr hj)).1
    rw [hother j hji] at hj
    rw [hclient j hji, hdb]
    exact h.job j hj
  · intro hb
    obtain ⟨h1, h2⟩ := hbuilt hb
    refine ⟨by rw [hdb]; exact h1, fun j hj => ?_⟩
    obtain ⟨hji, hj⟩ := hbuilds j hj
    exact h2 j hji hj
  · intro j hj
    by_cases hji : j = i
    · subst hji; rw [hself] at hj; exact hret hj
    · rw [hother j hji] at hj
      exact hmono (h.returned j hj)

/-- The locks of the others, when a call without one moves to a phase without one. -/
theorem ServerState.Sound.locks_other (h : s.Sound D callers) {i : ι} {ph : CallPhase}
    (hph : ph.locks = false) (j : ι) (hj : (Function.update s.phase i ph j).locks = true) :
    s.lock (callers j).process = .held j := by
  by_cases hji : j = i
  · subst hji; rw [Function.update_self, hph] at hj; cases hj
  · rw [Function.update_of_ne hji] at hj
    exact h.holds j hj

/-- A call that does not build moves on; only its phase and locks change. -/
theorem ServerState.Sound.move (h : s.Sound D callers) {i : ι} {ph : CallPhase}
    {lock : π → LockState ι} (hi : ¬ s.Builds i) (hph : ph ≠ .opening ∧ ph ≠ .building)
    (hlock : ∀ j, (Function.update s.phase i ph j).locks = true →
      lock (callers j).process = .held j)
    (hret : ph = .registering ∨ ph = .returned → s.built = true) :
    ({ s with lock, phase := Function.update s.phase i ph } : ServerState π ι).Sound D callers :=
  h.settle rfl hph hlock rfl (fun _ _ => rfl) (h.idle i fun hb => hi (.inr hb)) id
    (fun j _ hj => h.opening j hj) (fun hc => (h.fresh hc).2) id
    (fun hb => ⟨(h.done hb).1, fun j _ => (h.done hb).2 j⟩) hret

/-- A call goes on under its lock to be the only one that builds. -/
theorem ServerState.Sound.enter (h : s.Sound D callers) {i : ι} {ph : CallPhase}
    (hphase : s'.phase = Function.update s.phase i ph) (hlocks : (s.phase i).locks = true)
    (hph : ph = .opening ∨ ph = .building) (hlock : s'.lock = s.lock)
    (halone : ∀ j, j ≠ i → ¬ s.Builds j)
    (hclient : ∀ j, j ≠ i → s'.pool.client j = s.pool.client j)
    (hfresh : s'.created = false → s'.pool.db = .empty)
    (hopening : ph = .opening → s'.created = false ∧ (s'.pool.client i).txn = .idle)
    (hbuilding : ph = .building → s'.created = true ∧
      ∃ p, (s'.pool.client i).job = some ((), p) ∧
        wp engine (soloRules anyOutcome) p (BuildPost D (callers i)) s'.pool.db
          (s'.pool.client i).txn)
    (hbuilt : s'.built = s.built) (hnot : s.built = false) : s'.Sound D callers := by
  have hself : s'.phase i = ph := by rw [hphase, Function.update_self]
  have hother : ∀ j, j ≠ i → s'.phase j = s.phase j := fun j hj => by
    rw [hphase, Function.update_of_ne hj]
  have hbuilds : ∀ j, s'.Builds j → j = i := by
    intro j hj
    by_contra hji
    unfold ServerState.Builds at hj
    rw [hother j hji] at hj
    exact halone j hji hj
  constructor
  · intro j hj
    rw [hlock]
    by_cases hji : j = i
    · subst hji; exact h.holds j hlocks
    · rw [hother j hji] at hj
      exact h.holds j hj
  · intro a b ha hb
    rw [hbuilds a ha, hbuilds b hb]
  · exact fun hc => ⟨hfresh hc, hbuilt.trans hnot⟩
  · intro j hj
    have hji := hbuilds j (.inl hj)
    subst hji
    exact (hopening (hself.symm.trans hj)).1
  · intro j hj
    have hji := hbuilds j (.inr hj)
    subst hji
    exact (hbuilding (hself.symm.trans hj)).1
  · intro j hj
    by_cases hji : j = i
    · subst hji
      rw [hself] at hj
      exact (hopening (hph.resolve_right hj)).2
    · rw [hother j hji] at hj
      rw [hclient j hji]
      exact h.idle j hj
  · intro j hj
    have hji := hbuilds j (.inr hj)
    subst hji
    exact (hbuilding (hself.symm.trans hj)).2
  · intro hb
    rw [hbuilt, hnot] at hb
    cases hb
  · intro j hj
    by_cases hji : j = i
    · subst hji
      rw [hself] at hj
      rcases hph with rfl | rfl <;> rcases hj with hj | hj <;> cases hj
    · rw [hother j hji] at hj
      rw [hbuilt]
      exact h.returned j hj

/-- A call passes the second check. -/
theorem ServerState.Sound.missing (h : s.Sound D callers) {i : ι} (hi : s.phase i = .locked)
    (hc : s.created = false) (hord : Ordered callers s (.missing i)) :
    (s.setPhase i .opening).Sound D callers := by
  have hlocks : (s.phase i).locks = true := by rw [hi]; rfl
  obtain ⟨hdb, hbuilt⟩ := h.fresh hc
  -- the lock excludes the process's other calls, the order those of other processes
  have hnone : ∀ j, ¬ s.Builds j := by
    intro j hj
    have hjl : (s.phase j).locks = true := by rcases hj with hj | hj <;> rw [hj] <;> rfl
    have := h.holds_unique hlocks hjl (hord j hj)
    subst this
    rcases hj with hj | hj <;> rw [hi] at hj <;> cases hj
  have hidle : (s.pool.client i).txn = .idle := h.idle i fun hb => hnone i (.inr hb)
  exact h.enter rfl hlocks (.inl rfl) rfl (fun j _ => hnone j) (fun _ _ => rfl) (fun _ => hdb)
    (fun _ => ⟨hc, hidle⟩) (fun hb => by cases hb) rfl hbuilt

/-- A call creates the file and starts its build. -/
theorem ServerState.Sound.create (h : s.Sound D callers) {i : ι} (hi : s.phase i = .opening) :
    ({ s with
        created := true
        pool := s.pool.launch i () (buildIndex D (callers i)) }.setPhase i .building).Sound D
      callers := by
  obtain ⟨hdb, hbuilt⟩ := h.fresh (h.opening i hi)
  have hidle := h.idle i (by rw [hi]; simp)
  refine h.enter rfl (by rw [hi]; rfl) (.inr rfl) rfl (h.builds_unique (.inl hi))
    (fun _ hj => Function.update_of_ne hj _ _) (fun hc => by cases hc) (fun ho => by cases ho)
    (fun _ => ⟨rfl, ?_⟩) rfl hbuilt
  have hself : (s.pool.launch i () (buildIndex D (callers i))).client i =
      ⟨some ((), buildIndex D (callers i)), .idle⟩ := by
    rw [← hidle]
    exact Function.update_self _ _ _
  show ∃ p, ((s.pool.launch i () (buildIndex D (callers i))).client i).job = some ((), p) ∧
    wp engine (soloRules anyOutcome) p _ s.pool.db
      ((s.pool.launch i () (buildIndex D (callers i))).client i).txn
  rw [hself, hdb]
  exact ⟨_, rfl, wp_buildIndex D (callers i)⟩

/-- A request of the one build. -/
theorem ServerState.Sound.request (h : s.Sound D callers) {i : ι} {q : Req Stmt}
    {k : Except SqlError (q.Resp Stmt.Resp) → Sql ReindexReport} {t : Txn Db}
    (o : Outcome RowId SqlError) (hi : s.phase i = .building)
    (hclient : s.pool.client i = ⟨some ((), .call q k), t⟩) :
    ({ s with
        pool :=
          { db := (engine.step q o s.pool.db t).2.1
            client := Function.update s.pool.client i
              ⟨some ((), k (engine.step q o s.pool.db t).1),
                (engine.step q o s.pool.db t).2.2⟩ } } : ServerState π ι).Sound D callers := by
  have hone : ∀ j, s.Builds j → j = i := fun j hj => h.one j i hj (.inr hi)
  have hcreated := h.building i hi
  constructor
  · exact h.holds
  · exact h.one
  · intro hc
    rw [show s.created = false from hc] at hcreated
    cases hcreated
  · exact h.opening
  · exact h.building
  · intro j hj
    have hji : j ≠ i := fun heq => hj (heq ▸ hi)
    show (Function.update s.pool.client i _ j).txn = .idle
    rw [Function.update_of_ne hji]
    exact h.idle j hj
  · intro j hj
    have hji := hone j (.inr hj)
    subst hji
    obtain ⟨p, hp, hwp⟩ := h.job j hj
    rw [hclient] at hp hwp
    cases hp
    obtain ⟨-, hk⟩ := hwp s.pool.db ((soloRules anyOutcome).relyOn_refl t _) o trivial
    show ∃ p, (Function.update s.pool.client j _ j).job = some ((), p) ∧
      wp engine (soloRules anyOutcome) p _ _ (Function.update s.pool.client j _ j).txn
    rw [Function.update_self]
    exact ⟨_, rfl, hk⟩
  · intro hb
    exact absurd (.inr hi) ((h.done hb).2 i)
  · exact h.returned

variable [DecidableEq π]

/-- The holder of a lock lets it go, or leaves it poisoned. -/
theorem ServerState.Sound.release (h : s.Sound D callers) {i : ι} {ph : CallPhase}
    (hi : (s.phase i).locks = true) (hph : ph.locks = false) (l : LockState ι) (j : ι)
    (hj : (Function.update s.phase i ph j).locks = true) :
    Function.update s.lock (callers i).process l (callers j).process = .held j := by
  by_cases hji : j = i
  · subst hji
    rw [Function.update_self, hph] at hj
    cases hj
  · rw [Function.update_of_ne hji] at hj
    by_cases hp : (callers j).process = (callers i).process
    · exact absurd (h.holds_unique hi hj hp) hji
    · rw [Function.update_of_ne hp]
      exact h.holds j hj

/-- A call takes a free lock. -/
theorem ServerState.Sound.acquire (h : s.Sound D callers) {i : ι}
    (hfree : s.lock (callers i).process = .free) (j : ι)
    (hj : (Function.update s.phase i .locked j).locks = true) :
    Function.update s.lock (callers i).process (.held i) (callers j).process = .held j := by
  by_cases hji : j = i
  · subst hji; exact Function.update_self _ _ _
  · rw [Function.update_of_ne hji] at hj
    have hl := h.holds j hj
    by_cases hp : (callers j).process = (callers i).process
    · rw [hp, hfree] at hl; cases hl
    · rw [Function.update_of_ne hp]
      exact hl

/-- Every ordered step keeps the invariant. -/
theorem sound_step {a : ServerAction ι} (h : s.Sound D callers) (hstep : ServerStep D callers s a s')
    (hord : Ordered callers s a) : s'.Sound D callers := by
  cases hstep with
  | found i hi hc =>
    exact h.move (ServerState.not_builds hi (by decide)) (by decide) (h.locks_other rfl) fun _ => hord
  | notFound i hi hc =>
    exact h.move (ServerState.not_builds hi (by decide)) (by decide) (h.locks_other rfl)
      (by rintro (h | h) <;> cases h)
  | acquire i hi hfree =>
    exact h.move (ServerState.not_builds hi (by decide)) (by decide) (h.acquire hfree)
      (by rintro (h | h) <;> cases h)
  | poisoned i hi hl =>
    exact h.move (ServerState.not_builds hi (by decide)) (by decide) (h.locks_other rfl)
      (by rintro (h | h) <;> cases h)
  | foundLocked i hi hc =>
    exact h.move (ServerState.not_builds hi (by decide)) (by decide)
      (h.release (by rw [hi]; rfl) rfl .free) fun _ => hord
  | missing i hi hc => exact h.missing hi hc hord
  | create i hi => exact h.create hi
  | openFailed i created hi =>
    have hc := h.opening i hi
    have hnb := (h.fresh hc).2
    refine h.settle rfl (by decide) (h.release (by rw [hi]; rfl) rfl .free) rfl
      (fun _ _ => rfl) (h.idle i (by rw [hi]; decide)) ?_ ?_ (fun _ => hnb) id ?_
      (by rintro (h | h) <;> cases h)
    · intro hs; rw [hc] at hs; cases hs
    · intro j hj ho
      exact absurd (.inl ho) (h.builds_unique (.inl hi) j hj)
    · intro hb
      rw [show s.built = true from hb] at hnb
      cases hnb
  | request i o hi hclient _ => exact h.request o hi hclient
  | indexed i report hi hjob =>
    obtain ⟨p, hp, hwp⟩ := h.job i hi
    rw [hjob] at hp
    cases hp
    obtain ⟨hidle, ix, hdb, hreb⟩ := hwp report rfl
    refine h.settle rfl (by decide) ?_ rfl (fun _ _ => rfl) hidle id ?_ ?_ (fun _ => rfl)
      (fun _ => ⟨⟨i, ix, hdb, hreb⟩, h.builds_unique (.inr hi)⟩) fun _ => rfl
    · intro j hj
      refine h.holds j ?_
      by_cases hji : j = i
      · subst hji; rw [hi]; rfl
      · have hj : (Function.update s.phase i .registering j).locks = true := hj
        rw [Function.update_of_ne hji] at hj
        exact hj
    · intro j hj ho
      exact absurd (.inl ho) (h.builds_unique (.inr hi) j hj)
    · intro hc
      have := h.building i hi
      rw [show s.created = false from hc] at this
      cases this
  | buildFailed i err l hi hjob hl =>
    refine h.settle rfl (by decide) (h.release (by rw [hi]; rfl) rfl l) rfl
      (fun j hj => Function.update_of_ne hj _ _) ?_ id ?_ (fun hc => (h.fresh hc).2) id
      (fun hb => ⟨(h.done hb).1, fun j _ => (h.done hb).2 j⟩) (by rintro (h | h) <;> cases h)
    · show (Function.update s.pool.client i ⟨none, .idle⟩ i).txn = .idle
      rw [Function.update_self]
    · intro j hj ho
      exact absurd (.inl ho) (h.builds_unique (.inr hi) j hj)
  | finish i hi =>
    exact h.move (ServerState.not_builds hi (by decide)) (by decide)
      (h.release (by rw [hi]; rfl) rfl .free) fun _ => h.returned i (.inl hi)
  | kill p =>
    exact h.dies
      { phase := fun _ => rfl, client := fun _ => rfl, lock := fun q hq => Function.update_of_ne hq _ _,
        built := rfl, created := rfl, db := rfl }

theorem sound_run (h : ServerRun D callers (Ordered callers) .start s) : s.Sound D callers := by
  induction h with
  | refl => exact sound_start D callers
  | tail _ hstep ih =>
    obtain ⟨a, hs, hord⟩ := hstep
    exact sound_step ih hs hord

/-- In an ordered run, a call that returned has a database that holds a whole tree. -/
theorem ensure_indexed_complete (D : Deps) (callers : ι → Caller π) {s : ServerState π ι}
    (h : ServerRun D callers (Ordered callers) .start s) {i : ι} (hi : s.phase i = .returned) :
    Complete D callers s.pool.db :=
  ((sound_run h).done ((sound_run h).returned i (.inr hi))).1

/-- The requests of one build are a run of the server, while nobody else is in a
transaction. -/
theorem serverRun_requests {ok : ServerState π ι → ServerAction ι → Prop} (hok : ∀ s, ok s .other)
    {i : ι} {p p' : Sql ReindexReport} {c c' : Db} {t t' : Txn Db}
    (hrun : Run engine anyOutcome p c t p' c' t') : ∀ s : ServerState π ι,
    s.phase i = .building → s.pool.db = c → s.pool.client i = ⟨some ((), p), t⟩ →
    (∀ j, j ≠ i → ¬ (s.pool.client j).txn.isActive) →
    ServerRun D callers ok s
      { s with
        pool := { db := c', client := Function.update s.pool.client i ⟨some ((), p'), t'⟩ } } := by
  induction hrun with
  | refl p c t =>
    rintro s _ rfl hi _
    rw [← hi, Function.update_eq_self]
    exact .refl
  | @step q k c t o p' c' t' ho _ ih =>
    rintro s hbuild rfl hi hothers
    have hstep : ServerStep D callers s .other _ := .request s i o hbuild hi fun _ => hothers
    have h := ih
      { s with
        pool :=
          { db := (engine.step q o s.pool.db t).2.1
            client := Function.update s.pool.client i
              ⟨some ((), k (engine.step q o s.pool.db t).1),
                (engine.step q o s.pool.db t).2.2⟩ } } hbuild rfl
      (Function.update_self _ _ _)
      (fun j hj => by simpa only [Function.update_of_ne hj] using hothers j hj)
    simp only [Function.update_idem] at h
    exact .head ⟨.other, hstep, hok s⟩ h

end

/-! ## Two runs -/

/-- A call on a root with one file. -/
def oneFileCaller : Caller Unit where
  process := ()
  embedder := oneFileEmbedder
  view := oneFileView
  paths := by decide

def twoCalls (_ : Fin 2) : Caller Unit := oneFileCaller

/-- The first call has created the file. -/
def openedFrom (s : ServerState Unit (Fin 2)) : ServerState Unit (Fin 2) :=
  ({ (((s.setPhase 0 .waiting).setLock twoCalls 0 (.held 0)).setPhase 0 .locked).setPhase 0
      .opening with
    created := true
    pool := s.pool.launch 0 () (buildIndex .plain (twoCalls 0)) }).setPhase 0 .building

theorem openedFrom_run {ok : ServerState Unit (Fin 2) → ServerAction (Fin 2) → Prop}
    {s : ServerState Unit (Fin 2)} (hok : ∀ s, ok s .other) (hphase : s.phase 0 = .checking)
    (hcreated : s.created = false) (hlock : s.lock () = .free)
    (hmiss : ok (((s.setPhase 0 .waiting).setLock twoCalls 0 (.held 0)).setPhase 0 .locked)
      (.missing 0)) :
    ServerRun .plain twoCalls ok s (openedFrom s) := by
  have h1 : ServerStep .plain twoCalls s .other (s.setPhase 0 .waiting) :=
    .notFound _ 0 hphase hcreated
  have h2 : ServerStep .plain twoCalls (s.setPhase 0 .waiting) .other
      (((s.setPhase 0 .waiting).setLock twoCalls 0 (.held 0)).setPhase 0 .locked) :=
    .acquire _ 0 rfl hlock
  have h3 : ServerStep .plain twoCalls
      (((s.setPhase 0 .waiting).setLock twoCalls 0 (.held 0)).setPhase 0 .locked) (.missing 0)
      ((((s.setPhase 0 .waiting).setLock twoCalls 0 (.held 0)).setPhase 0 .locked).setPhase 0
        .opening) :=
    .missing _ 0 rfl hcreated
  have h4 : ServerStep .plain twoCalls
      ((((s.setPhase 0 .waiting).setLock twoCalls 0 (.held 0)).setPhase 0 .locked).setPhase 0
        .opening) .other (openedFrom s) :=
    .create _ 0 rfl
  exact (((Relation.ReflTransGen.single ⟨_, h1, hok _⟩).tail ⟨_, h2, hok _⟩).tail
    ⟨_, h3, hmiss⟩).tail ⟨_, h4, hok _⟩

/-- What the first call's build leaves. -/
def oneFileBuild : Sql ReindexReport × Db × Txn Db :=
  replay engine (succeed 80) (buildIndex .plain (twoCalls 0)) .empty .idle

/-- Neither call finds the file.  The first builds and returns, and then the second gets the
lock, finds the file, and returns. -/
theorem ensure_indexed_complete_waited : ∃ s : ServerState Unit (Fin 2),
    ServerRun .plain twoCalls (Ordered twoCalls) .start s ∧ s.phase 0 = .returned ∧
      s.phase 1 = .returned ∧ Complete .plain twoCalls s.pool.db := by
  have hwaiting : ServerRun .plain twoCalls (Ordered twoCalls) .start
      (ServerState.start.setPhase 1 .waiting) := .single ⟨_, .notFound _ 1 rfl rfl, trivial⟩
  have hopened : ServerRun .plain twoCalls (Ordered twoCalls)
      (ServerState.start.setPhase 1 .waiting)
      (openedFrom (ServerState.start.setPhase 1 .waiting)) :=
    openedFrom_run (fun _ => trivial) rfl rfl rfl fun _ _ => rfl
  have hbuild : Run engine anyOutcome (buildIndex .plain (twoCalls 0)) .empty .idle
      oneFileBuild.1 oneFileBuild.2.1 oneFileBuild.2.2 :=
    run_replay (succeed 80) (fun _ _ _ _ _ => trivial) _ _ _
  have hran : ServerRun .plain twoCalls (Ordered twoCalls)
      (openedFrom (ServerState.start.setPhase 1 .waiting))
      { openedFrom (ServerState.start.setPhase 1 .waiting) with
        pool := ⟨oneFileBuild.2.1,
          Function.update (openedFrom (ServerState.start.setPhase 1 .waiting)).pool.client 0
            ⟨some ((), oneFileBuild.1), oneFileBuild.2.2⟩⟩ } :=
    serverRun_requests (fun _ => trivial) hbuild _ rfl rfl rfl (by
      intro j hj
      have : j = 1 := by omega
      subst this
      exact fun h => h)
  have hpure : oneFileBuild.1 = .pure ⟨1, 1, 0, false⟩ :=
    Prog.eq_pure_of_value? (by decide +kernel)
  rw [hpure] at hran
  have hindexed : ServerStep .plain twoCalls
      { openedFrom (ServerState.start.setPhase 1 .waiting) with
        pool := ⟨oneFileBuild.2.1,
          Function.update (openedFrom (ServerState.start.setPhase 1 .waiting)).pool.client 0
            ⟨some ((), .pure ⟨1, 1, 0, false⟩), oneFileBuild.2.2⟩⟩ } .other _ :=
    .indexed _ 0 ⟨1, 1, 0, false⟩ rfl rfl
  have hreturned := (((hwaiting.trans hopened).trans hran).tail ⟨_, hindexed, trivial⟩).tail
    ⟨_, .finish _ 0 rfl, trivial⟩
  have hrun := (hreturned.tail ⟨_, .acquire _ 1 rfl rfl, trivial⟩).tail
    ⟨.found 1, .foundLocked _ 1 rfl rfl, rfl⟩
  exact ⟨_, hrun, rfl, rfl, ensure_indexed_complete .plain twoCalls hrun (i := 1) rfl⟩

/-- A second call returns while the first has only created the file. -/
theorem ensure_indexed_premature : ∃ s : ServerState Unit (Fin 2),
    ServerRun .plain twoCalls (fun _ _ => True) .start s ∧ s.phase 1 = .returned ∧
      ¬ Complete .plain twoCalls s.pool.db := by
  refine ⟨(openedFrom .start).setPhase 1 .returned,
    (openedFrom_run (fun _ => trivial) rfl rfl rfl trivial).tail
      ⟨.found 1, .found (openedFrom .start) 1 rfl rfl, trivial⟩, rfl, ?_⟩
  rintro ⟨i, ix, hdb, -⟩
  have hchunks := congrArg Db.chunks hdb
  cases hchunks

end CodeSearch
