import CodeSearch.RegistryRuns
import CodeSearch.Watch

/-!
# What a watch reindex writes

`handle_change` creates the index directory, works on the database in it and registers
it in the sidecar registry, which lies where the config directory is.  `ChangeStage.next`
is one step of it on the files of `Fs`, with the paths it touches; others may change files
in between.  `LoopStep` is the loop of `run_watch` around it when nobody else does.

The filter of the loop knows the index directory only:

    never_retriggers_iff : the paths are all filtered out or outside the root, and no run
    retriggers itself, if and only if the registry does not lie in the watched tree, or lies
    in the index directory
-/

namespace CodeSearch

open Sorted

/-! ## Paths and events -/

def indexDir (root : Path) : Path := root ++ [selfDir]

def dbFile : Text := "index.db".toList

/-- `index.db`, or a file of SQLite's beside it. -/
def sidePath (root : Path) (suffix : Text) : Path := indexDir root ++ [dbFile ++ suffix]

/-- `is_index_path`. -/
def isIndexPathOf (root path : Path) : Bool := decide (indexDir root <+: path)

/-- `notify::Result<Event>`, with absolute paths. -/
inductive PathEvent where
  | event (kind : EventKind) (paths : List Path)
  | error
deriving DecidableEq

/-- `relevant`, for the root that is watched. -/
def relevantUnder (root : Path) : PathEvent → Bool
  | .event kind paths => kind.contentChanging && paths.any fun p => !isIndexPathOf root p
  | .error => true

/-- The relative path of the names below the root. -/
def relText (names : List Text) : Text := ['/'].intercalate names

theorem relText_cons (name : Text) (names : List Text) : ∃ rest, relText (name :: names) = name ++ rest ∧
    (rest = [] ∨ rest.head? = some '/') := by
  cases names with
  | nil => exact ⟨[], by simp [relText, List.intercalate], .inl rfl⟩
  | cons n ns => exact ⟨'/' :: relText (n :: ns), by simp [relText, List.intercalate], .inr rfl⟩

/-- The filter on absolute paths is the one on relative paths. -/
theorem isIndexPathOf_append (root : Path) {name : Text} (names : List Text) (h : '/' ∉ name) :
    isIndexPathOf root (root ++ name :: names) = isIndexPath (relText (name :: names)) := by
  obtain ⟨rest, hrest, htail⟩ := relText_cons name names
  have hleft : isIndexPathOf root (root ++ name :: names) = true ↔ name = selfDir := by
    unfold isIndexPathOf indexDir
    rw [decide_eq_true_iff, List.prefix_append_right_inj, List.cons_prefix_cons]
    exact ⟨fun h => h.1.symm, fun h => ⟨h.symm, List.nil_prefix⟩⟩
  have hright : isIndexPath (relText (name :: names)) = true ↔ name = selfDir := by
    unfold isIndexPath
    rw [Bool.or_eq_true, decide_eq_true_iff, List.isPrefixOf_iff_prefix, hrest]
    constructor
    · intro hindex
      rw [← takeWhile_ne_append h htail]
      rcases hindex with heq | ⟨tail, heq⟩
      · rw [heq, ← List.append_nil selfDir]
        exact takeWhile_ne_append (by decide) (.inl rfl)
      · rw [← heq, List.append_assoc]
        exact takeWhile_ne_append (by decide) (.inr rfl)
    · rintro rfl
      rcases htail with rfl | hhead
      · exact .inl (List.append_nil _)
      · cases rest with
        | nil => cases hhead
        | cons c rest =>
          cases hhead
          exact .inr ⟨rest, List.append_assoc _ _ _⟩
  rw [Bool.eq_iff_iff, hleft, hright]

/-- So is the decision about an event below the root. -/
theorem relevantUnder_append (root : Path) (kind : EventKind) {paths : List (List Text)}
    (h : ∀ names ∈ paths, ∃ name rest, names = name :: rest ∧ '/' ∉ name) :
    relevantUnder root (.event kind (paths.map (root ++ ·))) =
      relevant (.event kind (paths.map relText)) := by
  have hpaths : ((paths.map (root ++ ·)).any fun p => !isIndexPathOf root p) =
      (paths.map relText).any fun p => !isIndexPath p := by
    induction paths with
    | nil => rfl
    | cons names paths ih =>
      obtain ⟨name, rest, rfl, hname⟩ := h names List.mem_cons_self
      rw [List.map_cons, List.map_cons, List.any_cons, List.any_cons,
        isIndexPathOf_append root rest hname, ih fun names hnames =>
          h names (List.mem_cons_of_mem _ hnames)]
  show (kind.contentChanging && _) = (kind.contentChanging && _)
  rw [hpaths]

/-! ## A reindex -/

section
variable {P : Type}

/-- Where `handle_change` stands. -/
inductive ChangeStage (P : Type) where
  /-- `db_path`: about to create the index directory. -/
  | dbPath
  /-- SQLite is at work. -/
  | database
  | sidecar (stage : Stage P)
  | returned (ok : Bool)

/-- What the world decides about a step. -/
inductive ChangeChoice (P : Type) where
  | dirs (n : Nat)
  | write (suffix : Text) (bytes : List UInt8)
  | remove (suffix : Text)
  /-- The database work ends, with this result. -/
  | finish (ok : Bool)
  | sidecar (choice : Choice P)
  | go

/-- The paths a step of the registry creates, writes, renames over or removes. -/
def Event.touched (dir : Path) : Event P → List Path
  | .created dirs => dirs
  | .wrote path => [path]
  | .saved _ tmp => [tmp, registryPath dir]
  | .removed path => [path]
  | _ => []

variable (J : Json) (A : PathApi P)

/-- What `handle_change` needs to know: how a path is spelled for the registry, the root, and
`config_dir()`. -/
structure WatchPlace (P : Type) where
  spell : Path → P
  root : Path
  config : Option Path

/-- The directory of the registry. -/
def WatchPlace.sidecarDir (place : WatchPlace P) : Option Path :=
  place.config.map (· ++ [appConfigDir])

/-- `registry::register(&p, root, db)`. -/
def WatchPlace.request (place : WatchPlace P) : Request P :=
  .register (place.spell place.root) (place.spell (sidePath place.root []))

variable (place : WatchPlace P)

/-- One step of `handle_change`. -/
def ChangeStage.next (fs : Fs) (present : P → Bool) :
    ChangeStage P → ChangeChoice P → Option (Fs × ChangeStage P × List Path)
  | .dbPath, .dirs n =>
    let made := fs.createDirAll (indexDir place.root) n
    some (made.1,
      if made.1.node (indexDir place.root) = some .dir then .database else .returned false, made.2)
  | .database, .write suffix bytes =>
    let path := sidePath place.root suffix
    match fs.node path with
    | some (.file inode) => some ((fs.truncate inode).append inode bytes, .database, [path])
    | some .dir => none
    | none =>
      if fs.node (indexDir place.root) = some .dir then
        some ((fs.create path).append fs.unused bytes, .database, [path])
      else none
  | .database, .remove suffix =>
    let path := sidePath place.root suffix
    match fs.node path with
    | some (.file _) => some (fs.remove path, .database, [path])
    | _ => none
  | .database, .finish false => some (fs, .returned false, [])
  | .database, .finish true =>
    -- An error of the registry is logged, no more.
    some (fs, if place.sidecarDir.isSome then .sidecar .configDir else .returned true, [])
  | .sidecar (.returned _), .go => some (fs, .returned true, [])
  | .sidecar stage, .sidecar choice =>
    match place.sidecarDir with
    | some dir =>
      (stage.next J A dir place.request fs present choice).map fun r =>
        (r.1, .sidecar r.2.1, r.2.2.touched dir)
    | none => none
  | _, _ => none

/-- The root was canonicalized: it and what is above it are directories. -/
def Watched (root : Path) (fs : Fs) : Prop := ∀ q, q <+: root → fs.node q = some .dir

/-- A step of `handle_change`, or of others, who leave the root. -/
inductive ChangeStep : Fs × ChangeStage P → Fs × ChangeStage P → Prop
  | own (fs fs' : Fs) (present : P → Bool) (s s' : ChangeStage P) (choice : ChangeChoice P)
      (touched : List Path) (h : s.next J A place fs present choice = some (fs', s', touched)) :
      ChangeStep (fs, s) (fs', s')
  | others (fs fs' : Fs) (s : ChangeStage P) (h : Watched place.root fs') :
      ChangeStep (fs, s) (fs', s)

/-- The path is filtered out or lies outside the root. -/
def Harmless (root path : Path) : Prop := isIndexPathOf root path = true ∨ ¬ root <+: path

/-- Every path that `handle_change` creates, writes, renames over or removes is harmless. -/
def ChangeFrame : Prop :=
  ∀ fs, Watched place.root fs → ∀ fs' s,
    Relation.ReflTransGen (ChangeStep J A place) (fs, .dbPath) (fs', s) →
    ∀ present choice fs'' s' touched,
      s.next J A place fs' present choice = some (fs'', s', touched) →
      ∀ p ∈ touched, Harmless place.root p

/-! ## The loop -/

inductive LoopControl (P : Type) where
  /-- In the first `handle_change`. -/
  | indexing (stage : ChangeStage P)
  | arming
  | receiving
  | draining
  | reindexing (stage : ChangeStage P)
  | stopped

/-- `touched` is what the watcher may report; `alarms` and `reindexes` count the errors received
and the reindexes begun. -/
structure LoopState (P : Type) where
  fs : Fs
  touched : List Path
  queue : List PathEvent
  control : LoopControl P
  alarms : Nat
  reindexes : Nat

/-- The watcher can deliver the event: it is about reads, or about paths under the root that
were touched. -/
def Deliverable (root : Path) (touched : List Path) : PathEvent → Prop
  | .event kind paths =>
    kind.contentChanging = false ∨ ∀ p ∈ paths, p ∈ touched ∧ root <+: p
  | .error => True

/-- One step of `run_watch` when nobody else changes files. -/
inductive LoopStep : LoopState P → LoopState P → Prop
  | index (s : LoopState P) (present : P → Bool) (stage stage' : ChangeStage P)
      (choice : ChangeChoice P) (fs : Fs) (touched : List Path) :
      s.control = .indexing stage →
      stage.next J A place s.fs present choice = some (fs, stage', touched) →
      LoopStep s { s with fs, touched := s.touched ++ touched, control := .indexing stage' }
  | indexed (s : LoopState P) (ok : Bool) : s.control = .indexing (.returned ok) →
      LoopStep s { s with control := if ok then .arming else .stopped }
  | arm (s : LoopState P) : s.control = .arming → LoopStep s { s with control := .receiving }
  | deliver (s : LoopState P) (ev : PathEvent) : Deliverable place.root s.touched ev →
      LoopStep s { s with queue := s.queue ++ [ev] }
  | recv (s : LoopState P) (ev : PathEvent) (rest : List PathEvent) :
      s.control = .receiving → s.queue = ev :: rest →
      LoopStep s
        { s with
          queue := rest
          control := if relevantUnder place.root ev then .draining else .receiving
          alarms := if ev = .error then s.alarms + 1 else s.alarms }
  | drain (s : LoopState P) (ev : PathEvent) (rest : List PathEvent) :
      s.control = .draining → s.queue = ev :: rest → LoopStep s { s with queue := rest }
  | quiet (s : LoopState P) : s.control = .draining → s.queue = [] →
      LoopStep s { s with control := .reindexing .dbPath, reindexes := s.reindexes + 1 }
  | reindex (s : LoopState P) (present : P → Bool) (stage stage' : ChangeStage P)
      (choice : ChangeChoice P) (fs : Fs) (touched : List Path) :
      s.control = .reindexing stage →
      stage.next J A place s.fs present choice = some (fs, stage', touched) →
      LoopStep s { s with fs, touched := s.touched ++ touched, control := .reindexing stage' }
  | reindexed (s : LoopState P) (ok : Bool) : s.control = .reindexing (.returned ok) →
      LoopStep s { s with control := .receiving }
  | disconnect (s : LoopState P) : s.control = .receiving ∨ s.control = .draining →
      LoopStep s { s with control := .stopped }

/-- `run_watch` starts, or a reindex for the last change by others begins. -/
structure LoopState.Starts (s : LoopState P) : Prop where
  watched : Watched place.root s.fs
  touched : s.touched = []
  queue : ∀ ev ∈ s.queue, relevantUnder place.root ev = false
  control : s.control = .indexing .dbPath ∨ s.control = .reindexing .dbPath
  alarms : s.alarms = 0
  reindexes : s.reindexes = 0

/-- No event is ever relevant, and no reindex begins but for an error of the watcher. -/
def LoopQuiet : Prop :=
  ∀ s₀ : LoopState P, s₀.Starts place → ∀ s, Relation.ReflTransGen (LoopStep J A place) s₀ s →
    (∀ ev ∈ s.queue, ev ≠ .error → relevantUnder place.root ev = false) ∧ s.reindexes ≤ s.alarms

def NeverRetriggers : Prop := ChangeFrame J A place ∧ LoopQuiet J A place

/-! ## Files that change were touched -/

variable {J A place} {fs fs' : Fs}

theorem makeDirs_node (qs : List Path) : ∀ fs : Fs,
    (∀ q, q ∈ (fs.makeDirs qs).2 ∨ (fs.makeDirs qs).1.node q = fs.node q) ∧
      ∀ q ∈ (fs.makeDirs qs).2, q ∈ qs ∧ fs.node q = none := by
  induction qs with
  | nil => exact fun fs => ⟨fun _ => .inr rfl, nofun⟩
  | cons q qs ih =>
    intro fs
    unfold Fs.makeDirs
    split
    · next hnew =>
      obtain ⟨hsame, hmade⟩ := ih { fs with node := Function.update fs.node q (some .dir) }
      refine ⟨fun p => ?_, fun p hp => ?_⟩
      · by_cases hpq : p = q
        · exact .inl (hpq ▸ List.mem_cons_self)
        · rcases hsame p with hp | hp
          · exact .inl (List.mem_cons_of_mem _ hp)
          · exact .inr (hp.trans (Function.update_of_ne hpq _ _))
      · rcases List.mem_cons.1 hp with rfl | hp
        · exact ⟨List.mem_cons_self, hnew.1⟩
        · obtain ⟨hqs, hnone⟩ := hmade p hp
          refine ⟨List.mem_cons_of_mem _ hqs, ?_⟩
          by_cases hpq : p = q
          · exact hpq ▸ hnew.1
          · exact (Function.update_of_ne hpq _ _).symm.trans hnone
    · obtain ⟨hsame, hmade⟩ := ih fs
      exact ⟨hsame, fun p hp => ⟨List.mem_cons_of_mem _ (hmade p hp).1, (hmade p hp).2⟩⟩

/-- What `create_dir_all` makes: missing directories on the way to the path. -/
theorem createDirAll_node (fs : Fs) (path : Path) (n : Nat) :
    (∀ q, q ∈ (fs.createDirAll path n).2 ∨ (fs.createDirAll path n).1.node q = fs.node q) ∧
      ∀ q ∈ (fs.createDirAll path n).2, q <+: path ∧ fs.node q = none := by
  obtain ⟨hsame, hmade⟩ := makeDirs_node (path.inits.take n) fs
  refine ⟨hsame, fun q hq => ?_⟩
  obtain ⟨hinits, hnone⟩ := hmade q hq
  exact ⟨List.mem_inits _ _ |>.1 (List.mem_of_mem_take hinits), hnone⟩

theorem createDirAll_zero (fs : Fs) (path : Path) : fs.createDirAll path 0 = (fs, []) := rfl

theorem node_moves {dir : Path} {request : Request P} {present : P → Bool} {s s' : Stage P}
    {ev : Event P} (h : s.Moves J A dir request fs present fs' s' ev) (q : Path) :
    q ∈ ev.touched dir ∨ fs'.node q = fs.node q := by
  cases h with
  | configDir n s' h => exact (createDirAll_node fs dir n).1 q
  | parentDir m n s' h => exact (createDirAll_node fs dir n).1 q
  | create m tmp h hdir =>
    by_cases hq : q = tmp
    · exact .inl (List.mem_singleton.2 hq)
    · exact .inr (by rw [node_create, if_neg hq])
  | rename m tmp inode h hdst =>
    by_cases hdst : q = registryPath dir
    · exact .inl (hdst ▸ List.mem_cons_of_mem _ (List.mem_singleton_self _))
    · by_cases htmp : q = tmp
      · exact .inl (htmp ▸ List.mem_cons_self)
      · exact .inr (by rw [node_rename, if_neg hdst, if_neg htmp])
  | clean tmp =>
    by_cases hq : q = tmp
    · exact .inl (List.mem_singleton.2 hq)
    · exact .inr (by rw [node_remove, if_neg hq])
  | _ => exact .inr rfl

/-- The directories above the root are not touched, nor is it. -/
theorem Watched.step {root : Path} {touched : List Path} (h : Watched root fs)
    (hnode : ∀ q, q ∈ touched ∨ fs'.node q = fs.node q) (hclear : ∀ p ∈ touched, ¬ p <+: root) :
    Watched root fs' := by
  intro q hq
  rcases hnode q with htouched | hsame
  · exact absurd hq (hclear q htouched)
  · rw [hsame]
    exact h q hq

theorem Watched.not_prefix {root path : Path} (h : Watched root fs) (hp : fs.node path ≠ some .dir) :
    ¬ path <+: root := fun hq => hp (h path hq)

/-! ## Where a step touches -/

/-- The temporary file is next to the registry; once it is there it is not above the root. -/
structure Stage.Placed (dir root : Path) (s : Stage P) : Prop where
  tmp : ∀ tmp, s.tmp? = some tmp → ∃ pid nonce, tmp = tmpPath dir pid nonce
  writing : ∀ m tmp inode rest, s = .writing m tmp inode rest → ¬ tmp <+: root

theorem placed_moves {dir : Path} {request : Request P} {present : P → Bool} {s s' : Stage P}
    {ev : Event P} (hw : Watched place.root fs) (hs : s.Placed dir place.root)
    (h : s.Moves J A dir request fs present fs' s' ev) : s'.Placed dir place.root := by
  refine ⟨fun tmp htmp => ?_, fun m tmp inode rest heq => ?_⟩
  · rcases tmp?_moves h with hkept | hnone | ⟨pid, nonce, -, hdrawn⟩
    · exact hs.tmp tmp (hkept ▸ htmp)
    · rw [hnone] at htmp
      cases htmp
    · rw [hdrawn] at htmp
      cases htmp
      exact ⟨pid, nonce, rfl⟩
  · cases h with
    | truncate _ _ _ hnode =>
      cases heq
      exact hw.not_prefix (by rw [hnode]; nofun)
    | create _ _ hnode =>
      cases heq
      exact hw.not_prefix (by rw [hnode]; nofun)
    | write _ _ _ piece rest =>
      cases heq
      exact hs.writing _ _ _ _ rfl
    | configDir n s' h => rcases h with rfl | rfl <;> cases heq
    | parentDir m n s' h => rcases h with rfl | rfl <;> cases heq
    | absent => exact absurd ((tmp?_afterLoad request _).symm.trans (congrArg Stage.tmp? heq)) nofun
    | pruned => exact absurd ((tmp?_afterLoad request _).symm.trans (congrArg Stage.tmp? heq)) nofun
    | parsed _ _ m' _ _ s' h => cases m' <;> (rw [h] at heq; cases heq)
    | _ => cases heq

/-- The paths a step of the registry touches are not above the root. -/
theorem touched_moves {dir : Path} {request : Request P} {present : P → Bool} {s s' : Stage P}
    {ev : Event P} (hw : Watched place.root fs) (hs : s.Placed dir place.root)
    (h : s.Moves J A dir request fs present fs' s' ev) :
    ∀ p ∈ ev.touched dir, ¬ p <+: place.root ∧ (p <+: dir ∨ ∃ name, p = dir ++ [name]) := by
  have hcreated : ∀ n, ∀ p ∈ (fs.createDirAll dir n).2,
      ¬ p <+: place.root ∧ (p <+: dir ∨ ∃ name, p = dir ++ [name]) := by
    intro n p hp
    obtain ⟨hdir, hnone⟩ := (createDirAll_node fs dir n).2 p hp
    exact ⟨hw.not_prefix (by rw [hnone]; nofun), .inl hdir⟩
  have htmp : ∀ tmp, s.tmp? = some tmp → ∃ name, tmp = dir ++ [name] := by
    intro tmp heq
    obtain ⟨pid, nonce, rfl⟩ := hs.tmp tmp heq
    exact ⟨_, rfl⟩
  intro p hp
  cases h with
  | configDir n s' h => exact hcreated n p hp
  | parentDir m n s' h => exact hcreated n p hp
  | truncate m tmp inode hnode =>
    cases List.mem_singleton.1 hp
    exact ⟨hw.not_prefix (by rw [hnode]; nofun), .inr (htmp _ rfl)⟩
  | create m tmp hnode =>
    cases List.mem_singleton.1 hp
    exact ⟨hw.not_prefix (by rw [hnode]; nofun), .inr (htmp _ rfl)⟩
  | write m tmp inode piece rest =>
    cases List.mem_singleton.1 hp
    exact ⟨hs.writing _ _ _ _ rfl, .inr (htmp _ rfl)⟩
  | rename m tmp inode hnode hdst =>
    rcases List.mem_cons.1 hp with rfl | hp
    · exact ⟨hw.not_prefix (by rw [hnode]; nofun), .inr (htmp _ rfl)⟩
    · cases List.mem_singleton.1 hp
      exact ⟨hw.not_prefix hdst, .inr ⟨registryFile, rfl⟩⟩
  | clean tmp inode hnode =>
    cases List.mem_singleton.1 hp
    exact ⟨hw.not_prefix (by rw [hnode]; nofun), .inr (htmp _ rfl)⟩
  | _ => cases hp

def ChangeStage.Placed (place : WatchPlace P) : ChangeStage P → Prop
  | .sidecar s => ∀ dir, place.sidecarDir = some dir → s.Placed dir place.root
  | _ => True

/-- The cases of a step of `handle_change`: it creates the index directory, touches a file in
it, touches nothing, or works on the registry. -/
theorem ChangeStage.next_cases {present : P → Bool} {s s' : ChangeStage P}
    {choice : ChangeChoice P} {touched : List Path}
    (h : s.next J A place fs present choice = some (fs', s', touched)) :
    (∃ n, fs' = (fs.createDirAll (indexDir place.root) n).1 ∧
      touched = (fs.createDirAll (indexDir place.root) n).2 ∧
      (s' = .database ∨ s' = .returned false)) ∨
    (∃ suffix, touched = [sidePath place.root suffix] ∧ s' = .database ∧
      fs.node (sidePath place.root suffix) ≠ some .dir ∧
      ∀ q, q ≠ sidePath place.root suffix → fs'.node q = fs.node q) ∨
    (fs' = fs ∧ touched = [] ∧ (s' = .sidecar .configDir ∨ ∃ ok, s' = .returned ok)) ∨
    ∃ dir stage stage' ev, place.sidecarDir = some dir ∧ s = .sidecar stage ∧
      s' = .sidecar stage' ∧ touched = ev.touched dir ∧
      stage.Moves J A dir place.request fs present fs' stage' ev := by
  unfold ChangeStage.next at h
  split at h
  · next n =>
    cases h
    refine .inl ⟨n, rfl, rfl, ?_⟩
    split
    · exact .inl rfl
    · exact .inr rfl
  · next suffix bytes =>
    dsimp only at h
    refine .inr (.inl ⟨suffix, ?_⟩)
    split at h
    · next inode hnode =>
      cases h
      exact ⟨rfl, rfl, by rw [hnode]; nofun, fun _ _ => rfl⟩
    · cases h
    · next hnode =>
      split at h <;> cases h
      refine ⟨rfl, rfl, by rw [hnode]; nofun, fun q hq => ?_⟩
      show (fs.create (sidePath place.root suffix)).node q = fs.node q
      rw [node_create, if_neg hq]
  · next suffix =>
    dsimp only at h
    refine .inr (.inl ⟨suffix, ?_⟩)
    split at h <;> cases h
    next inode hnode =>
      refine ⟨rfl, rfl, by rw [hnode]; nofun, fun q hq => ?_⟩
      rw [node_remove, if_neg hq]
  · cases h
    exact .inr (.inr (.inl ⟨rfl, rfl, .inr ⟨_, rfl⟩⟩))
  · cases h
    refine .inr (.inr (.inl ⟨rfl, rfl, ?_⟩))
    split
    · exact .inl rfl
    · exact .inr ⟨_, rfl⟩
  · cases h
    exact .inr (.inr (.inl ⟨rfl, rfl, .inr ⟨_, rfl⟩⟩))
  · next stage choice =>
    split at h
    · next dir hdir =>
      obtain ⟨⟨fs₁, stage', ev⟩, hnext, heq⟩ := Option.map_eq_some_iff.1 h
      cases heq
      exact .inr (.inr (.inr ⟨dir, stage, stage', ev, hdir, rfl, rfl, rfl, moves_of_next hnext⟩))
    · cases h
  · cases h

/-- The registry lies outside the watched tree, or in the index directory. -/
def SidecarApart (place : WatchPlace P) : Prop :=
  ∀ dir, place.sidecarDir = some dir → place.root <+: dir → indexDir place.root <+: dir

/-- A path on the way to the index directory that is not above the root is in it. -/
theorem indexDir_isPrefix {root path : Path} (h : path <+: indexDir root) (hroot : ¬ path <+: root) :
    indexDir root <+: path := by
  rcases List.prefix_concat_iff.1 h with rfl | h
  · exact List.prefix_rfl
  · exact absurd h hroot

theorem harmless_of_apart {dir path : Path} (happart : place.root <+: dir → indexDir place.root <+: dir)
    (hroot : ¬ path <+: place.root) (hpath : path <+: dir ∨ ∃ name, path = dir ++ [name]) :
    Harmless place.root path := by
  by_cases hunder : place.root <+: path
  · refine .inl (decide_eq_true ?_)
    rcases hpath with hdir | ⟨name, rfl⟩
    · have hindex := happart (hunder.trans hdir)
      rcases List.prefix_or_prefix_of_prefix hdir hindex with h | h
      · exact indexDir_isPrefix h hroot
      · exact h
    · rcases List.prefix_concat_iff.1 hunder with heq | hunder
      · exact absurd (heq ▸ List.prefix_rfl) hroot
      · exact (happart hunder).trans (List.prefix_append _ _)
  · exact .inr hunder

theorem harmless_indexDir {root path : Path} (h : path <+: indexDir root) (hroot : ¬ path <+: root) :
    Harmless root path := .inl (decide_eq_true (indexDir_isPrefix h hroot))

theorem harmless_sidePath (root : Path) (suffix : Text) : Harmless root (sidePath root suffix) :=
  .inl (decide_eq_true (List.prefix_append _ _))

theorem sidePath_not_above (root : Path) (suffix : Text) : ¬ sidePath root suffix <+: root := by
  intro h
  have hlength := h.length_le
  rw [sidePath, indexDir, List.length_append, List.length_append] at hlength
  simp only [List.length_singleton] at hlength
  omega

/-- A step of `handle_change` touches harmless paths only, and leaves the root. -/
theorem change_step (happart : SidecarApart place) {present : P → Bool} {s s' : ChangeStage P}
    {choice : ChangeChoice P} {touched : List Path} (hw : Watched place.root fs)
    (hs : s.Placed place) (h : s.next J A place fs present choice = some (fs', s', touched)) :
    (∀ p ∈ touched, Harmless place.root p) ∧ Watched place.root fs' ∧ s'.Placed place := by
  rcases ChangeStage.next_cases h with ⟨n, rfl, rfl, hs'⟩ | ⟨suffix, rfl, rfl, -, hnode⟩ |
    ⟨rfl, rfl, hs'⟩ | ⟨dir, stage, stage', ev, hdir, rfl, rfl, rfl, hmoves⟩
  · obtain ⟨hsame, hmade⟩ := createDirAll_node fs (indexDir place.root) n
    have hclear : ∀ p ∈ (fs.createDirAll (indexDir place.root) n).2, ¬ p <+: place.root :=
      fun p hp => hw.not_prefix (by rw [(hmade p hp).2]; nofun)
    refine ⟨fun p hp => harmless_indexDir (hmade p hp).1 (hclear p hp), hw.step hsame hclear, ?_⟩
    rcases hs' with rfl | rfl <;> exact trivial
  · have hsame : ∀ q, q ∈ [sidePath place.root suffix] ∨ fs'.node q = fs.node q := by
      intro q
      by_cases hq : q = sidePath place.root suffix
      · exact .inl (List.mem_singleton.2 hq)
      · exact .inr (hnode q hq)
    refine ⟨fun p hp => ?_, hw.step hsame fun p hp => ?_, trivial⟩
    · rw [List.mem_singleton.1 hp]
      exact harmless_sidePath _ _
    · rw [List.mem_singleton.1 hp]
      exact sidePath_not_above _ _
  · refine ⟨nofun, hw, ?_⟩
    rcases hs' with rfl | ⟨ok, rfl⟩
    · exact fun _ _ => ⟨nofun, nofun⟩
    · exact trivial
  · have htouched := touched_moves hw (hs dir hdir) hmoves
    refine ⟨fun p hp => harmless_of_apart (happart dir hdir) (htouched p hp).1 (htouched p hp).2,
      hw.step (node_moves hmoves) fun p hp => (htouched p hp).1, fun dir' hdir' => ?_⟩
    cases hdir.symm.trans hdir'
    exact placed_moves hw (hs dir hdir) hmoves

theorem change_run (happart : SidecarApart place) {state state' : Fs × ChangeStage P}
    (hrun : Relation.ReflTransGen (ChangeStep J A place) state state')
    (hw : Watched place.root state.1) (hs : state.2.Placed place) :
    Watched place.root state'.1 ∧ state'.2.Placed place := by
  induction hrun with
  | refl => exact ⟨hw, hs⟩
  | tail _ hstep ih =>
    cases hstep with
    | own fs fs' present s s' choice touched h => exact (change_step happart ih.1 ih.2 h).2
    | others fs fs' s h => exact ⟨h, ih.2⟩

/-- The first half: whatever others do meanwhile. -/
theorem changeFrame_of_apart (happart : SidecarApart place) : ChangeFrame J A place := by
  intro fs hw fs' s hrun present choice fs'' s' touched hnext
  obtain ⟨hw', hs⟩ := change_run happart hrun hw trivial
  exact (change_step happart hw' hs hnext).1

/-! ## The loop stays quiet -/

theorem irrelevant_of_harmless {root : Path} {touched : List Path} {ev : PathEvent}
    (htouched : ∀ p ∈ touched, Harmless root p) (hev : Deliverable root touched ev)
    (hne : ev ≠ .error) : relevantUnder root ev = false := by
  cases ev with
  | error => exact absurd rfl hne
  | event kind paths =>
    show (kind.contentChanging && paths.any fun p => !isIndexPathOf root p) = false
    rcases hev with hkind | hpaths
    · rw [hkind, Bool.false_and]
    · have hany : (paths.any fun p => !isIndexPathOf root p) = false := by
        rw [List.any_eq_false]
        intro p hp
        obtain ⟨hp, hunder⟩ := hpaths p hp
        rw [(htouched p hp).resolve_right (not_not_intro hunder)]
        decide
      rw [hany, Bool.and_false]

/-- The stage of the reindex in progress. -/
def LoopControl.stage? : LoopControl P → Option (ChangeStage P)
  | .indexing s | .reindexing s => some s
  | _ => none

/-- The errors that still have to lead to a reindex. -/
def LoopControl.armed : LoopControl P → Nat
  | .draining => 1
  | _ => 0

structure LoopState.Sound (place : WatchPlace P) (s : LoopState P) : Prop where
  watched : Watched place.root s.fs
  touched : ∀ p ∈ s.touched, Harmless place.root p
  queue : ∀ ev ∈ s.queue, ev ≠ .error → relevantUnder place.root ev = false
  stage : ∀ stage, s.control.stage? = some stage → stage.Placed place
  counts : s.reindexes + s.control.armed ≤ s.alarms

theorem LoopState.Sound.step (happart : SidecarApart place) {s s' : LoopState P}
    (h : s.Sound place) (hstep : LoopStep J A place s s') : s'.Sound place := by
  have hcounts := h.counts
  cases hstep with
  | index present stage stage' choice fs touched hcontrol hnext
  | reindex present stage stage' choice fs touched hcontrol hnext =>
    obtain ⟨htouched, hw, hs⟩ :=
      change_step happart h.watched (h.stage stage (by rw [hcontrol]; rfl)) hnext
    rw [hcontrol] at hcounts
    refine ⟨hw, fun p hp => ?_, h.queue, fun t ht => ?_, hcounts⟩
    · exact (List.mem_append.1 hp).elim (h.touched p) (htouched p)
    · cases ht
      exact hs
  | indexed ok hcontrol =>
    rw [hcontrol] at hcounts
    cases ok <;> exact ⟨h.watched, h.touched, h.queue, nofun, hcounts⟩
  | arm hcontrol =>
    rw [hcontrol] at hcounts
    exact ⟨h.watched, h.touched, h.queue, nofun, hcounts⟩
  | deliver ev hev =>
    refine ⟨h.watched, h.touched, fun ev' hev' hne => ?_, h.stage, hcounts⟩
    rcases List.mem_append.1 hev' with hev' | hev'
    · exact h.queue ev' hev' hne
    · cases List.mem_singleton.1 hev'
      exact irrelevant_of_harmless h.touched hev hne
  | recv ev rest hcontrol hqueue =>
    rw [hcontrol] at hcounts
    have hrest : ∀ ev' ∈ rest, ev' ≠ .error → relevantUnder place.root ev' = false :=
      fun ev' hev' => h.queue ev' (hqueue ▸ List.mem_cons_of_mem _ hev')
    by_cases hev : ev = .error
    · -- The error is the one that leads to the next reindex.
      subst hev
      exact ⟨h.watched, h.touched, hrest, nofun, Nat.succ_le_succ hcounts⟩
    · have hirrelevant := h.queue ev (hqueue ▸ List.mem_cons_self) hev
      refine ⟨h.watched, h.touched, hrest, ?_, ?_⟩
      · rw [hirrelevant]
        nofun
      · rw [hirrelevant, if_neg hev]
        exact hcounts
  | drain ev rest hcontrol hqueue =>
    exact ⟨h.watched, h.touched,
      fun ev' hev' => h.queue ev' (hqueue ▸ List.mem_cons_of_mem _ hev'), h.stage, hcounts⟩
  | quiet hcontrol hqueue =>
    rw [hcontrol] at hcounts
    refine ⟨h.watched, h.touched, h.queue, fun t ht => ?_, hcounts⟩
    cases ht
    exact trivial
  | reindexed ok hcontrol =>
    rw [hcontrol] at hcounts
    exact ⟨h.watched, h.touched, h.queue, nofun, hcounts⟩
  | disconnect hcontrol =>
    exact ⟨h.watched, h.touched, h.queue, nofun, (Nat.le_add_right _ _).trans hcounts⟩

theorem LoopState.Starts.sound {s : LoopState P} (h : s.Starts place) : s.Sound place := by
  refine ⟨h.watched, ?_, fun ev hev _ => h.queue ev hev, fun stage hstage => ?_, ?_⟩
  · rw [h.touched]
    nofun
  · rcases h.control with hcontrol | hcontrol <;> (rw [hcontrol] at hstage; cases hstage; trivial)
  · rw [h.reindexes, h.alarms]
    rcases h.control with hcontrol | hcontrol <;> (rw [hcontrol]; exact Nat.le_refl _)

/-- The second half, by induction on the run. -/
theorem loopQuiet_of_apart (happart : SidecarApart place) : LoopQuiet J A place := by
  intro s₀ h₀ s hrun
  have hsound : s.Sound place := by
    induction hrun with
    | refl => exact h₀.sound
    | tail _ hstep ih => exact ih.step happart hstep
  exact ⟨hsound.queue, (Nat.le_add_right _ _).trans hsound.counts⟩

/-! ## A registry in the watched tree -/

/-- Directories down to two places. -/
def directories (p q : Path) : Fs where
  node path := if path <+: p ∨ path <+: q then some .dir else none
  data _ := []
  unused := 0

theorem directories_dir {p q path : Path} (h : path <+: p ∨ path <+: q) :
    (directories p q).node path = some .dir := if_pos h

theorem directories_none {p q path : Path} (h : ¬ (path <+: p ∨ path <+: q)) :
    (directories p q).node path = none := if_neg h

theorem watched_directories (root q : Path) : Watched root (directories (indexDir root) q) :=
  fun _ hpath => directories_dir (.inl (hpath.trans (List.prefix_append _ _)))

theorem concat_not_prefix {p q : Path} {name : Text} (h : q <+: p) : ¬ p ++ [name] <+: q := by
  intro hlong
  have hlength := (hlong.trans h).length_le
  rw [List.length_append, List.length_singleton] at hlength
  omega

/-- A name in the directory of the registry that is not the index directory is free. -/
theorem directories_free {root dir : Path} {name : Text} (hunder : root <+: dir)
    (hname : name ≠ selfDir) : (directories (indexDir root) dir).node (dir ++ [name]) = none := by
  refine directories_none ?_
  rintro (h | h)
  · rcases List.prefix_concat_iff.1 h with heq | h
    · exact hname (List.singleton_inj.1 (List.append_inj' heq rfl).2)
    · exact concat_not_prefix hunder h
  · exact concat_not_prefix List.prefix_rfl h

theorem tmpName_ne_selfDir (pid nonce : Nat) : tmpName pid nonce ≠ selfDir := by
  intro h
  have hsecond : some 'r' = some 'a' := congrArg (fun name => name.tail.head?) h
  cases hsecond

/-- A reindex then writes a temporary file that the filter does not know. -/
theorem not_changeFrame {dir : Path} (hdir : place.sidecarDir = some dir)
    (hunder : place.root <+: dir) (hindex : ¬ indexDir place.root <+: dir) :
    ¬ ChangeFrame J A place := by
  intro hframe
  let fs := directories (indexDir place.root) dir
  have hindexNode : fs.node (indexDir place.root) = some .dir :=
    directories_dir (.inl List.prefix_rfl)
  have hdirNode : fs.node dir = some .dir := directories_dir (.inr List.prefix_rfl)
  have hregistry : fs.node (registryPath dir) = none := directories_free hunder (by decide)
  have htmp : fs.node (tmpPath dir 0 0) = none :=
    directories_free hunder (tmpName_ne_selfDir 0 0)
  have hown : ∀ s s' choice, s.next J A place fs (fun _ => true) choice = some (fs, s', []) →
      ChangeStep J A place (fs, s) (fs, s') :=
    fun s s' choice h => .own fs fs _ s s' choice [] h
  have hsidecar : ∀ stage choice stage' ev,
      stage.next J A dir place.request fs (fun _ => true) choice = some (fs, stage', ev) →
      ChangeStage.next J A place fs (fun _ => true) (.sidecar stage) (.sidecar choice) =
        some (fs, .sidecar stage', ev.touched dir) := by
    intro stage choice stage' ev h
    simp only [ChangeStage.next, hdir, h, Option.map_some]
  let registry : Registry P := SortedMap.empty.insert
    (canonicalKey A (place.spell place.root) none) (place.spell (sidePath place.root []))
  have hconfigDir := hsidecar .configDir (.dirs 0) .opening (.created [])
    (by simp only [Stage.next, createDirAll_zero, hdirNode, if_true])
  have hopening := hsidecar .opening .go (.inserting .empty) .absent (by
    simp only [Stage.next, hregistry]
    rfl)
  have hinserting := hsidecar (.inserting .empty) (.canonical none) (.parentDir registry)
    (.inserted _ _) rfl
  have hparentDir := hsidecar (.parentDir registry) (.dirs 0) (.drawing registry) (.created [])
    (by simp only [Stage.next, createDirAll_zero, hdirNode, if_true])
  have hdrawing := hsidecar (.drawing registry) (.draw 0 0)
    (.creating registry (tmpPath dir 0 0)) (.drew 0 0) rfl
  have hcreating : ChangeStage.next J A place fs (fun _ => true)
      (.sidecar (.creating registry (tmpPath dir 0 0))) (.sidecar .go) =
        some (fs.create (tmpPath dir 0 0), .sidecar (.writing registry (tmpPath dir 0 0) fs.unused
          (asBytes (toJson J A registry))), [tmpPath dir 0 0]) := by
    simp only [ChangeStage.next, hdir, Stage.next, htmp, hdirNode, if_true, Option.map_some]
    rfl
  have hrun : Relation.ReflTransGen (ChangeStep J A place) (fs, .dbPath)
      (fs, .sidecar (.creating registry (tmpPath dir 0 0))) := by
    refine .head (hown .dbPath .database (.dirs 0) ?_) ?_
    · simp only [ChangeStage.next, createDirAll_zero, hindexNode, if_true]
    refine .head (hown .database (.sidecar .configDir) (.finish true) ?_) ?_
    · simp only [ChangeStage.next, hdir]
      rfl
    refine .head (hown _ _ _ hconfigDir) ?_
    refine .head (hown _ _ _ hopening) ?_
    refine .head (hown _ _ _ hinserting) ?_
    refine .head (hown _ _ _ hparentDir) ?_
    exact .single (hown _ _ _ hdrawing)
  rcases hframe fs (watched_directories _ _) _ _ hrun _ _ _ _ _ hcreating _
    (List.mem_singleton_self _) with hindexed | houtside
  · rcases List.prefix_concat_iff.1 (of_decide_eq_true hindexed) with heq | h
    · exact tmpName_ne_selfDir 0 0 (List.singleton_inj.1 (List.append_inj' heq rfl).2).symm
    · exact hindex h
  · exact houtside (hunder.trans (List.prefix_append _ _))

/-- For every root and every config directory: a reindex touches nothing the filter lets through
and never retriggers itself, if and only if the registry lies outside the watched tree or in the
index directory. -/
theorem never_retriggers_iff (J : Json) (A : PathApi P) (place : WatchPlace P) :
    NeverRetriggers J A place ↔ ∀ config, place.config = some config →
      place.root <+: config ++ [appConfigDir] →
      indexDir place.root <+: config ++ [appConfigDir] := by
  have hdirs : ∀ config, place.config = some config →
      place.sidecarDir = some (config ++ [appConfigDir]) := by
    intro config hconfig
    unfold WatchPlace.sidecarDir
    rw [hconfig, Option.map_some]
  constructor
  · intro h config hconfig hunder
    by_contra hindex
    exact not_changeFrame (hdirs config hconfig) hunder hindex h.1
  · intro h
    have happart : SidecarApart place := by
      intro dir hdir
      obtain ⟨config, hconfig, rfl⟩ := Option.map_eq_some_iff.1 hdir
      exact h config hconfig
    exact ⟨changeFrame_of_apart happart, loopQuiet_of_apart happart⟩

/-! ## A home directory that is watched -/

/-- Play the steps of one `handle_change`. -/
def ChangeStage.play (J : Json) (A : PathApi P) (place : WatchPlace P) :
    Fs → ChangeStage P → List (ChangeChoice P) → Option (Fs × ChangeStage P × List Path)
  | fs, s, [] => some (fs, s, [])
  | fs, s, choice :: choices =>
    (s.next J A place fs (fun _ => true) choice).bind fun r =>
      (play J A place r.1 r.2.1 choices).map fun r' => (r'.1, r'.2.1, r.2.2 ++ r'.2.2)

theorem reindex_play {choices : List (ChangeChoice P)} : ∀ {s : LoopState P}
    {stage stage' : ChangeStage P} {fs : Fs} {touched : List Path},
    s.control = .reindexing stage →
    stage.play J A place s.fs choices = some (fs, stage', touched) →
    Relation.ReflTransGen (LoopStep J A place) s
      { s with fs, touched := s.touched ++ touched, control := .reindexing stage' } := by
  induction choices with
  | nil =>
    intro s stage stage' fs touched hcontrol h
    cases h
    rw [List.append_nil, ← hcontrol]
  | cons choice choices ih =>
    intro s stage stage' fs touched hcontrol h
    obtain ⟨⟨fs₁, stage₁, touched₁⟩, hnext, hrest⟩ := Option.bind_eq_some_iff.1 h
    obtain ⟨⟨fs₂, stage₂, touched₂⟩, hplay, heq⟩ := Option.map_eq_some_iff.1 hrest
    cases heq
    refine .head (.reindex s _ stage stage₁ choice fs₁ touched₁ hcontrol hnext) ?_
    rw [← List.append_assoc]
    exact ih (s := { s with
      fs := fs₁, touched := s.touched ++ touched₁, control := .reindexing stage₁ }) rfl hplay

end

/-- The config directory is in the watched home directory. -/
def homePlace : WatchPlace Text where
  spell path := '/' :: relText path
  root := ["home".toList, "u".toList]
  config := some ["home".toList, "u".toList, ".config".toList]

def homeDir : Path := ["home".toList, "u".toList, ".config".toList, appConfigDir]

/-- The reindex for some change begins. -/
def homeReindex : LoopState Text where
  fs := directories (indexDir homePlace.root) homeDir
  touched := []
  queue := []
  control := .reindexing .dbPath
  alarms := 0
  reindexes := 0

theorem starts_homeReindex : homeReindex.Starts homePlace :=
  ⟨watched_directories _ _, rfl, nofun, .inr rfl, rfl, rfl⟩

/-- A reindex that registers the root, without failures. -/
def homeChoices : List (ChangeChoice Text) :=
  [.dirs 0, .finish true, .sidecar (.dirs 0), .sidecar .go, .sidecar (.canonical none),
    .sidecar (.dirs 0), .sidecar (.draw 1 0), .sidecar .go, .sidecar (.chunk 1000), .sidecar .go,
    .sidecar .go, .go]

/-- What the reindex returned, and what it touched. -/
def reindexOutcome {P : Type} : Option (Fs × ChangeStage P × List Path) → Option (Bool × List Path)
  | some (_, .returned ok, touched) => some (ok, touched)
  | _ => none

theorem of_reindexOutcome {P : Type} {r : Option (Fs × ChangeStage P × List Path)} {ok : Bool}
    {touched : List Path} (h : reindexOutcome r = some (ok, touched)) :
    ∃ fs, r = some (fs, .returned ok, touched) := by
  unfold reindexOutcome at h
  split at h
  · cases h
    exact ⟨_, rfl⟩
  · cases h

/-- A reindex of a home directory writes its registry where the filter lets the event through;
so with nobody else changing anything the watcher delivers an event that is relevant. -/
theorem home_retriggers : ¬ ChangeFrame prettyJson textPaths homePlace ∧
    ¬ LoopQuiet prettyJson textPaths homePlace := by
  refine ⟨not_changeFrame (show homePlace.sidecarDir = some homeDir from rfl) (by decide)
    (by decide), fun hquiet => ?_⟩
  have houtcome : reindexOutcome (ChangeStage.play prettyJson textPaths homePlace homeReindex.fs
      .dbPath homeChoices) = some (true, [tmpPath homeDir 1 0, tmpPath homeDir 1 0,
        tmpPath homeDir 1 0, registryPath homeDir]) := by
    decide +kernel
  obtain ⟨fs, hplay⟩ := of_reindexOutcome houtcome
  have hreindex := reindex_play (s := homeReindex) rfl hplay
  have hdeliverable : Deliverable homePlace.root (homeReindex.touched ++ [tmpPath homeDir 1 0,
      tmpPath homeDir 1 0, tmpPath homeDir 1 0, registryPath homeDir])
      (.event .modify [registryPath homeDir]) := by
    refine .inr fun p hp => ?_
    cases List.mem_singleton.1 hp
    decide
  have hquiet' := (hquiet homeReindex starts_homeReindex _
    (.tail hreindex (.deliver _ _ hdeliverable))).1
  exact absurd (hquiet' _ (List.mem_singleton_self _) nofun) (by decide)

end CodeSearch
