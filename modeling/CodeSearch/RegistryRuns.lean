import Mathlib.Logic.Relation
import CodeSearch.RegistrySteps

/-!
# Any number of callers of one registry

Callers take their steps in any interleaving, and any of them may be killed at any step.
From what one step keeps follows `registry_runs`: a load never reads a mixture, and what was
saved is saved again by the calls that start later, as long as no call saves that loaded
before.
-/

namespace CodeSearch

open Sorted

/-! ## Callers -/

/-- Everything the callers share, by thread what each is doing, and the history: the pairs
drawn, how many saves were complete when a caller opened the registry, the entries passed
to `register`, and the saved registries, the newest first. -/
structure World (P ι : Type) where
  fs : Fs
  present : P → Bool
  thread : ι → Option (Request P × Stage P)
  drawn : List (Nat × Nat)
  base : ι → Nat
  passed : List (Text × P)
  saves : List (Registry P)

inductive Act (P ι : Type) where
  /-- A thread calls `load`, or `register`, this one by way of `registry_path` or not. -/
  | start (i : ι) (request : Request P) (sidecar : Bool)
  | step (i : ι) (choice : Choice P)
  | kill (i : ι)
  /-- Index databases come and go. -/
  | present (files : P → Bool)

/-- No call is in progress. -/
def idle {P : Type} : Option (Request P × Stage P) → Bool
  | none | some (_, .returned _) => true
  | _ => false

instance lawfulBEqDraw : LawfulBEq (Nat × Nat) := inferInstance

/-- A pair is drawn once. -/
def Event.fresh {P : Type} (drawn : List (Nat × Nat)) : Event P → Bool
  | .drew pid nonce => decide ((pid, nonce) ∉ drawn)
  | _ => true

section
variable {P ι : Type} [DecidableEq ι]

def World.note (w : World P ι) (i : ι) : Event P → World P ι
  | .absent | .opened => { w with base := Function.update w.base i w.saves.length }
  | .drew pid nonce => { w with drawn := (pid, nonce) :: w.drawn }
  | .inserted key indexDb => { w with passed := (key, indexDb) :: w.passed }
  | .saved registry _ => { w with saves := registry :: w.saves }
  | _ => w

/-- What thread `i` is doing. -/
def World.put (w : World P ι) (i : ι) (call : Option (Request P × Stage P)) : World P ι :=
  { w with thread := Function.update w.thread i call }

variable (J : Json) (A : PathApi P) (dir : Path)

/-- One step of the callers or of the world around them. -/
def World.next (w : World P ι) : Act P ι → Option (World P ι × Event P)
  | .start i request sidecar =>
    if idle (w.thread i) then
      some (w.put i (some (request, if sidecar then .configDir else .opening)), .quiet)
    else none
  | .step i choice =>
    match w.thread i with
    | some (request, stage) =>
      match stage.next J A dir request w.fs w.present choice with
      | some (fs, stage', ev) =>
        if ev.fresh w.drawn then
          some ({ (w.note i ev).put i (some (request, stage')) with fs }, ev)
        else none
      | none => none
    | none => none
  | .kill i => some (w.put i none, .quiet)
  | .present files => some ({ w with present := files }, .quiet)

/-- Whatever the callers do, in any interleaving, whoever is killed. -/
def World.Reachable : World P ι → World P ι → Prop :=
  Relation.ReflTransGen fun w w' => ∃ act ev, w.next J A dir act = some (w', ev)

/-- Nobody has called yet; a registry that is there can be read. -/
structure World.Initial (w : World P ι) : Prop where
  threads : ∀ i, w.thread i = none
  base : ∀ i, w.base i = 0
  passed : w.passed = []
  links : ∀ p q n, w.fs.node p = some (.file n) → w.fs.node q = some (.file n) → p = q
  unused : ∀ p n, w.fs.node p = some (.file n) → n < w.fs.unused
  absent : (∀ n, w.fs.node (registryPath dir) ≠ some (.file n)) → w.saves = []
  registry : ∀ n, w.fs.node (registryPath dir) = some (.file n) →
    ∃ m, w.saves = [m] ∧ parseRegistry J A (w.fs.data n) = some m

variable {J A dir}

/-- The cases of a step. -/
theorem World.next_cases {w w' : World P ι} {act : Act P ι} {ev : Event P}
    (h : w.next J A dir act = some (w', ev)) :
    (∃ i request stage, idle (w.thread i) = true ∧ (stage = .configDir ∨ stage = .opening) ∧
      w' = w.put i (some (request, stage)) ∧ ev = .quiet) ∨
    (∃ i request stage fs stage', w.thread i = some (request, stage) ∧
      stage.Moves J A dir request w.fs w.present fs stage' ev ∧ ev.fresh w.drawn = true ∧
      w' = { (w.note i ev).put i (some (request, stage')) with fs } ∧ ∃ choice, act = .step i choice) ∨
    (∃ i, w' = w.put i none ∧ ev = .quiet) ∨
    ∃ files, act = .present files ∧ w' = { w with present := files } ∧ ev = .quiet := by
  cases act with
  | start i request sidecar =>
    simp only [next] at h
    split at h <;> cases h
    refine .inl ⟨i, request, _, ‹_›, ?_, rfl, rfl⟩
    cases sidecar
    · exact .inr rfl
    · exact .inl rfl
  | step i choice =>
    simp only [next] at h
    split at h
    · next request stage hthread =>
      split at h
      · next fs stage' ev' hnext =>
        split at h <;> cases h
        exact .inr (.inl ⟨i, request, stage, fs, stage', hthread, moves_of_next hnext, ‹_›, rfl,
          choice, rfl⟩)
      · cases h
    · cases h
  | kill i =>
    cases h
    exact .inr (.inr (.inl ⟨i, rfl, rfl⟩))
  | present files =>
    cases h
    exact .inr (.inr (.inr ⟨files, rfl, rfl, rfl⟩))

end

/-! ## Runs -/

section
variable {P ι : Type} [DecidableEq ι] {J : Json} {A : PathApi P} {dir : Path} {w w' : World P ι}

@[simp] theorem note_thread (w : World P ι) (i : ι) (ev : Event P) :
    (w.note i ev).thread = w.thread := by cases ev <;> rfl

@[simp] theorem note_saves (w : World P ι) (i : ι) (ev : Event P) :
    (w.note i ev).saves = savesAfter w.saves ev := by cases ev <;> rfl

@[simp] theorem note_drawn (w : World P ι) (i : ι) (ev : Event P) :
    (w.note i ev).drawn = drawnAfter w.drawn ev := by cases ev <;> rfl

@[simp] theorem note_passed (w : World P ι) (i : ι) (ev : Event P) :
    (w.note i ev).passed = passedAfter w.passed ev := by cases ev <;> rfl

@[simp] theorem note_present (w : World P ι) (i : ι) (ev : Event P) :
    (w.note i ev).present = w.present := by cases ev <;> rfl

/-- What holds of all callers together; `init` are the entries that were there. -/
structure World.Sound (J : Json) (A : PathApi P) (dir : Path) (init : List (Text × P))
    (w : World P ι) : Prop where
  fs : w.fs.Sound J A dir w.saves
  stage : ∀ i request s, w.thread i = some (request, s) →
    s.Sound J A dir w.fs w.saves ∧ s.Drawn dir w.drawn ∧ OwnEntry A request s
  apart : ∀ i j, i ≠ j → ∀ request request' s s' tmp, w.thread i = some (request, s) →
    w.thread j = some (request', s') → s.tmp? = some tmp → s'.tmp? ≠ some tmp
  saved : ∀ m ∈ w.saves, ∀ e ∈ m.list, Sourced A (w.passed ++ init) e
  inHand : ∀ i request s m, w.thread i = some (request, s) → s.held? = some m →
    ∀ e ∈ m.list, Sourced A (w.passed ++ init) e

theorem thread_put (w : World P ι) (i j : ι) (call : Option (Request P × Stage P)) :
    (w.put i call).thread j = if j = i then call else w.thread j := by
  unfold World.put
  dsimp only
  by_cases h : j = i
  · rw [if_pos h, h, Function.update_self]
  · rw [if_neg h, Function.update_of_ne h]

theorem put_thread {i j : ι} {call : Option (Request P × Stage P)} {c : Request P × Stage P}
    (h : (w.put i call).thread j = some c) : (j = i ∧ call = some c) ∨ (j ≠ i ∧ w.thread j = some c) := by
  rw [thread_put] at h
  split at h
  · exact .inl ⟨‹_›, h⟩
  · exact .inr ⟨‹_›, h⟩

/-- A thread that starts or ends a call holds nothing. -/
theorem World.Sound.put {init : List (Text × P)} (hw : w.Sound J A dir init) (i : ι)
    {call : Option (Request P × Stage P)}
    (hcall : ∀ request s, call = some (request, s) → s = .configDir ∨ s = .opening) :
    (w.put i call).Sound J A dir init := by
  have hnew : ∀ {request s}, call = some (request, s) → s.Sound J A dir w.fs w.saves ∧
      s.tmp? = none ∧ s.held? = none ∧ OwnEntry A request s := by
    intro request s h
    rcases hcall request s h with rfl | rfl <;> exact ⟨trivial, rfl, rfl, trivial⟩
  refine ⟨hw.fs, fun j request s h => ?_, fun j k hjk request request' s s' tmp hj hk htmp => ?_,
    hw.saved, fun j request s m h hm => ?_⟩
  · rcases put_thread h with ⟨-, h⟩ | ⟨-, h⟩
    · obtain ⟨hs, htmp, -, hown⟩ := hnew h
      exact ⟨hs, fun tmp h => (by rw [htmp] at h; cases h), hown⟩
    · exact hw.stage j request s h
  · rcases put_thread hj with ⟨-, hj⟩ | ⟨-, hj⟩
    · rw [(hnew hj).2.1] at htmp
      cases htmp
    · rcases put_thread hk with ⟨-, hk⟩ | ⟨-, hk⟩
      · rw [(hnew hk).2.1]
        nofun
      · exact hw.apart j k hjk _ _ _ _ tmp hj hk htmp
  · rcases put_thread h with ⟨-, h⟩ | ⟨-, h⟩
    · rw [(hnew h).2.2.1] at hm
      cases hm
    · exact hw.inHand j request s m h hm

omit [DecidableEq ι] in
/-- The temporary file of a thread that moves is nobody else's. -/
theorem World.Sound.apart_moves {init : List (Text × P)} (hw : w.Sound J A dir init) {i j : ι}
    {request request' : Request P} {s s' t : Stage P} {fs : Fs} {ev : Event P} {tmp : Path}
    (hi : w.thread i = some (request, s))
    (hmoves : s.Moves J A dir request w.fs w.present fs s' ev) (hfresh : ev.fresh w.drawn = true)
    (hji : j ≠ i) (hj : w.thread j = some (request', t)) (htmp : s'.tmp? = some tmp) :
    t.tmp? ≠ some tmp := by
  intro ht
  rcases tmp?_moves hmoves with heq | hnone | ⟨pid, nonce, rfl, heq⟩
  · exact hw.apart j i hji _ _ _ _ tmp hj hi ht (heq ▸ htmp)
  · rw [hnone] at htmp
    cases htmp
  · obtain ⟨pair, hpair, hold⟩ := (hw.stage j request' t hj).2.1 tmp ht
    rw [heq] at htmp
    cases htmp
    have hsame := tmpPath_injective hold
    exact of_decide_eq_true hfresh (hsame ▸ hpair)

omit [DecidableEq ι] in
/-- What is saved came from callers, or was there. -/
theorem World.Sound.saved_moves {init : List (Text × P)} (hw : w.Sound J A dir init) {i : ι}
    {request : Request P} {s s' : Stage P} {fs : Fs} {ev : Event P}
    (hi : w.thread i = some (request, s))
    (hmoves : s.Moves J A dir request w.fs w.present fs s' ev) :
    ∀ m ∈ savesAfter w.saves ev, ∀ e ∈ m.list, Sourced A (passedAfter w.passed ev ++ init) e := by
  intro m hm e he
  cases hmoves with
  | rename m' tmp inode htmp hdst =>
    rcases List.mem_cons.1 hm with rfl | hm
    · exact hw.inHand i request _ m hi rfl e he
    · exact hw.saved m hm e he
  | insert m' root indexDb path hreq =>
    exact (hw.saved m hm e he).mono (.inserted (canonicalKey A root path) indexDb)
  | _ => exact hw.saved m hm e he

/-- A thread moves. -/
theorem World.Sound.moved (hJ : J.RoundTrips) {init : List (Text × P)} (hw : w.Sound J A dir init)
    {i : ι} {request : Request P} {s s' : Stage P} {fs : Fs} {ev : Event P}
    (hi : w.thread i = some (request, s))
    (hmoves : s.Moves J A dir request w.fs w.present fs s' ev) (hfresh : ev.fresh w.drawn = true) :
    ({ (w.note i ev).put i (some (request, s')) with fs } : World P ι).Sound J A dir init := by
  obtain ⟨hsound, hdrawn, hown⟩ := hw.stage i request s hi
  have hframe := frame_moves hw.fs hsound hdrawn hmoves
  have hcases : ∀ {j request' t}, ({ (w.note i ev).put i (some (request, s')) with fs } :
      World P ι).thread j = some (request', t) →
      (j = i ∧ request' = request ∧ t = s') ∨ (j ≠ i ∧ w.thread j = some (request', t)) := by
    intro j request' t hj
    rcases put_thread (w := w.note i ev) hj with ⟨hji, hj⟩ | ⟨hji, hj⟩
    · cases hj
      exact .inl ⟨hji, rfl, rfl⟩
    · rw [note_thread] at hj
      exact .inr ⟨hji, hj⟩
  have hsaves := note_saves w i ev
  have hdrawn' := note_drawn w i ev
  have hpassed := note_passed w i ev
  refine ⟨?_, fun j request' t hj => ?_, fun j k hjk req req' t t' tmp hj hk ht => ?_,
    fun m hm e he => ?_, fun j request' t m hj hm => ?_⟩
  · exact hsaves ▸ fsSound_moves hJ hw.fs hsound hdrawn hmoves
  · rcases hcases hj with ⟨-, rfl, rfl⟩ | ⟨hji, hj⟩
    · exact ⟨hsaves ▸ stageSound_moves hw.fs hsound hmoves, hdrawn' ▸ drawn_moves hdrawn hmoves,
        ownEntry_moves hown hmoves⟩
    · obtain ⟨ht, htd, hto⟩ := hw.stage j request' t hj
      refine ⟨hsaves ▸ ht.frame hframe htd (fun tmp htmp hs => ?_) ev, fun tmp htmp => ?_, hto⟩
      · exact hw.apart i j hji.symm _ _ _ _ tmp hi hj hs htmp
      · obtain ⟨pair, hpair, heq⟩ := htd tmp htmp
        exact ⟨pair, hdrawn' ▸ mem_drawnAfter hpair ev, heq⟩
  · rcases hcases hj with ⟨hji, -, rfl⟩ | ⟨hji, hj⟩
    · rcases hcases hk with ⟨hki, -, -⟩ | ⟨hki, hk⟩
      · exact absurd (hji.trans hki.symm) hjk
      · exact hw.apart_moves hi hmoves hfresh hki hk ht
    · rcases hcases hk with ⟨-, -, hs'⟩ | ⟨-, hk⟩
      · exact fun htmp => hw.apart_moves hi hmoves hfresh hji hj (hs' ▸ htmp) ht
      · exact hw.apart j k hjk _ _ _ _ tmp hj hk ht
  · exact hpassed ▸ hw.saved_moves hi hmoves m (hsaves ▸ hm) e he
  · show ∀ e ∈ m.list, Sourced A ((w.note i ev).passed ++ init) e
    rw [hpassed]
    rcases hcases hj with ⟨-, rfl, rfl⟩ | ⟨-, hj⟩
    · exact sourced_moves hsound hw.saved (fun m hm => hw.inHand i request' s m hi hm) hmoves m hm
    · exact fun e he => (hw.inHand j request' t m hj hm e he).mono ev

theorem worldSound_step (hJ : J.RoundTrips) {init : List (Text × P)} (hw : w.Sound J A dir init)
    {act : Act P ι} {ev : Event P} (h : w.next J A dir act = some (w', ev)) :
    w'.Sound J A dir init := by
  rcases World.next_cases h with ⟨i, request, s, -, hs, rfl, -⟩ |
    ⟨i, request, s, fs, s', hi, hmoves, hfresh, rfl, -⟩ | ⟨i, rfl, -⟩ | ⟨files, -, rfl, -⟩
  · exact hw.put i fun _ _ h => by cases h; exact hs
  · exact hw.moved hJ hi hmoves hfresh
  · exact hw.put i fun _ _ h => by cases h
  · exact ⟨hw.fs, hw.stage, hw.apart, hw.saved, hw.inHand⟩

omit [DecidableEq ι] in
theorem worldSound_initial (h : w.Initial J A dir) : w.Sound J A dir (w.saves.flatMap (·.list)) := by
  refine ⟨⟨h.links, h.unused, h.absent, fun n hn => ?_⟩, fun i request s hi => ?_,
    fun i j _ request request' s s' tmp hi => ?_, fun m hm e he => ?_, fun i request s m hi => ?_⟩
  · obtain ⟨m, hm, hparse⟩ := h.registry n hn
    exact ⟨m, hm ▸ List.mem_singleton.2 rfl, by rw [rendered_parsed hparse, hparse]⟩
  · rw [h.threads i] at hi
    cases hi
  · rw [h.threads i] at hi
    cases hi
  · exact ⟨e, List.mem_append_right _ (List.mem_flatMap.2 ⟨m, hm, he⟩), rfl, rfl⟩
  · rw [h.threads i] at hi
    cases hi

theorem worldSound_reachable (hJ : J.RoundTrips) {init : List (Text × P)} (hw : w.Sound J A dir init)
    (h : World.Reachable J A dir w w') : w'.Sound J A dir init := by
  induction h with
  | refl => exact hw
  | tail _ hstep ih =>
    obtain ⟨act, ev, hnext⟩ := hstep
    exact worldSound_step hJ ih hnext

end

/-! ## Calls that do not overlap -/

section
variable {P : Type} {J : Json} {A : PathApi P} {dir : Path} {fs fs' : Fs} {saves : List (Registry P)}
  {drawn : List (Nat × Nat)} {key path : Text}

/-- The call has opened the registry, or found none, and has not returned. -/
def Stage.loaded : Stage P → Bool
  | .configDir | .opening | .returned _ => false
  | _ => true

theorem loaded_moves {request : Request P} {present : P → Bool} {s s' : Stage P} {ev : Event P}
    (h : s.Moves J A dir request fs present fs' s' ev) (hs' : s'.loaded = true) :
    s.loaded = true ∨ ev = .absent ∨ ev = .opened := by
  cases h with
  | configDir n s' h => rcases h with rfl | rfl <;> cases hs'
  | absent h => exact .inr (.inl rfl)
  | opened inode h => exact .inr (.inr rfl)
  | fail s => cases hs'
  | _ => exact .inl rfl

/-- What a call carries that loaded the entry. -/
def Stage.Carries (J : Json) (A : PathApi P) (key path : Text) (fs : Fs) : Stage P → Prop
  | .reading inode _ =>
    ∃ m, parseRegistry J A (fs.data inode) = some m ∧ (key, A.ofText path) ∈ m.list
  | .pruning m todo => (key, A.ofText path) ∈ m.list ∧ ∀ e ∈ todo, e.1 = key → e.2 = A.ofText path
  | .inserting m => (key, A.ofText path) ∈ m.list
  | .parentDir m | .drawing m | .creating m _ | .writing m _ _ _ | .replacing m _ =>
    ∃ indexDb, (key, indexDb) ∈ m.list ∧ A.toStringLossy indexDb = path
  | _ => True

/-- The file the name of the registry stands for stores the entry. -/
def Fs.Stores (J : Json) (A : PathApi P) (dir : Path) (key path : Text) (fs : Fs) : Prop :=
  ∃ inode m, fs.node (registryPath dir) = some (.file inode) ∧
    parseRegistry J A (fs.data inode) = some m ∧ (key, A.ofText path) ∈ m.list

/-- Only a save touches the registry. -/
theorem registry_moves {request : Request P} {present : P → Bool} {s s' : Stage P} {ev : Event P}
    (hfs : fs.Sound J A dir saves) (hs : s.Sound J A dir fs saves) (hd : s.Drawn dir drawn)
    (h : s.Moves J A dir request fs present fs' s' ev) : (∃ m tmp, ev = .saved m tmp) ∨
      ∀ inode, fs.node (registryPath dir) = some (.file inode) →
        fs'.node (registryPath dir) = some (.file inode) ∧ fs'.data inode = fs.data inode := by
  have hdirs : ∀ (q : Path) (n : Nat) (inode : Nat),
      fs.node (registryPath dir) = some (.file inode) →
      (fs.createDirAll q n).1.node (registryPath dir) = some (.file inode) ∧
        (fs.createDirAll q n).1.data inode = fs.data inode := by
    intro q n inode h
    obtain ⟨hnode, hdata, -⟩ := makeDirs_files (q.inits.take n) fs
    exact ⟨(hnode _ _).2 h, congrFun hdata inode⟩
  cases h with
  | configDir n s' h => exact .inr (hdirs _ _)
  | parentDir m n s' h => exact .inr (hdirs _ _)
  | truncate m tmp inode htmp =>
    refine .inr fun n hn => ⟨hn, Function.update_of_ne ?_ _ _⟩
    rintro rfl
    exact hd.ne_registryPath rfl (hfs.links _ _ _ htmp hn)
  | create m tmp htmp hdir =>
    refine .inr fun n hn => ⟨?_, Function.update_of_ne (hfs.unused _ _ hn).ne _ _⟩
    rw [node_create, if_neg (hd.ne_registryPath rfl).symm, hn]
  | write m tmp inode piece rest =>
    refine .inr fun n hn => ⟨hn, Function.update_of_ne ?_ _ _⟩
    rintro rfl
    exact hd.ne_registryPath rfl (hfs.links _ _ _ hs.1 hn)
  | rename m tmp inode htmp hdst => exact .inl ⟨m, tmp, rfl⟩
  | clean tmp =>
    refine .inr fun n hn => ⟨?_, rfl⟩
    rw [node_remove, if_neg (hd.ne_registryPath rfl).symm, hn]
  | _ => exact .inr fun n hn => ⟨hn, rfl⟩

/-- A loaded entry stays in hand while its database exists and nobody registers another one. -/
theorem carries_moves {request : Request P} {present : P → Bool} {s s' : Stage P} {ev : Event P}
    (hs : s.Sound J A dir fs saves) (hpresent : present (A.ofText path) = true)
    (hsame : ∀ indexDb, ev = .inserted key indexDb → A.toStringLossy indexDb = path)
    (hstored : fs.Stores J A dir key path) (hcarries : s.loaded = true → s.Carries J A key path fs)
    (h : s.Moves J A dir request fs present fs' s' ev) : s'.Carries J A key path fs' := by
  have hafter : ∀ m : Registry P, (key, A.ofText path) ∈ m.list →
      (afterLoad request m).Carries J A key path fs := by
    intro m hm
    cases request with
    | load => trivial
    | register root indexDb => exact hm
  cases h with
  | configDir n s' h => rcases h with rfl | rfl <;> trivial
  | absent h =>
    obtain ⟨inode, m, hnode, -⟩ := hstored
    rw [h] at hnode
    cases hnode
  | opened inode h =>
    obtain ⟨inode', m, hnode, hparse, hm⟩ := hstored
    rw [h] at hnode
    cases hnode
    exact ⟨m, hparse, hm⟩
  | read inode n acc => exact hcarries rfl
  | parsed inode acc r hend hparse s' h =>
    obtain ⟨m, hread, hm⟩ := hcarries rfl
    obtain ⟨-, -, -, hacc⟩ := hs
    rw [hacc.eq_of_length_le hend, hread] at hparse
    subst hparse
    rw [h]
    refine ⟨hm, fun e he hkey => ?_⟩
    exact congrArg Prod.snd (SortedMap.entry_unique he hm hkey)
  | pruned m => exact hafter m (hcarries rfl).1
  | prune m entry todo =>
    obtain ⟨hm, htodo⟩ := hcarries rfl
    refine ⟨?_, fun e he => htodo e (List.mem_cons_of_mem _ he)⟩
    by_cases hentry : present entry.2 = true
    · rw [if_pos hentry]
      exact hm
    · rw [if_neg hentry]
      refine SortedMap.mem_erase.2 ⟨fun hkey => hentry ?_, hm⟩
      rw [htodo entry List.mem_cons_self hkey.symm]
      exact hpresent
  | insert m root indexDb r hreq =>
    by_cases hkey : canonicalKey A root r = key
    · rw [hkey] at hsame ⊢
      exact ⟨indexDb, SortedMap.mem_insert.2 (.inl rfl), hsame indexDb rfl⟩
    · exact ⟨A.ofText path, SortedMap.mem_insert.2 (.inr ⟨fun h => hkey h.symm, hcarries rfl⟩),
        A.lossy_ofText path⟩
  | parentDir m n s' h =>
    rcases h with rfl | rfl
    · exact hcarries rfl
    · trivial
  | draw m pid nonce => exact hcarries rfl
  | truncate m tmp inode htmp => exact hcarries rfl
  | create m tmp htmp hdir => exact hcarries rfl
  | write m tmp inode piece rest => exact hcarries rfl
  | written m tmp inode => exact hcarries rfl
  | _ => trivial

/-- Others' work does not change what a call carries. -/
theorem Stage.Carries.frame {s : Stage P} {own : Option Path} (hf : Fs.Frame dir own fs fs')
    (hs : s.Sound J A dir fs saves) (h : s.Carries J A key path fs) :
    s.Carries J A key path fs' := by
  cases s with
  | reading inode acc =>
    obtain ⟨m, hparse, hm⟩ := h
    exact ⟨m, (congrArg (parseRegistry J A) (hf.read inode hs.1 hs.2.2.1).1).trans hparse, hm⟩
  | _ => exact h

/-- A save of a call that carries the entry stores it. -/
theorem stores_moves (hJ : J.RoundTrips) {request : Request P} {present : P → Bool} {s s' : Stage P}
    {ev : Event P} (hfs : fs.Sound J A dir saves) (hs : s.Sound J A dir fs saves)
    (hd : s.Drawn dir drawn) (hstored : fs.Stores J A dir key path)
    (hcarries : (∃ m tmp, ev = .saved m tmp) → s.Carries J A key path fs)
    (h : s.Moves J A dir request fs present fs' s' ev) : fs'.Stores J A dir key path := by
  rcases registry_moves hfs hs hd h with ⟨m, tmp, rfl⟩ | hsame
  · cases h with
    | rename _ _ inode htmp hdst =>
      obtain ⟨inode', htmp', hdata⟩ := hs
      rw [htmp] at htmp'
      cases htmp'
      obtain ⟨indexDb, hmem, rfl⟩ := hcarries ⟨m, tmp, rfl⟩
      refine ⟨inode, rendered A m, by rw [node_rename, if_pos rfl], ?_, ?_⟩
      · show parseRegistry J A (fs.data inode) = _
        rw [hdata]
        exact parseRegistry_asBytes hJ m
      · exact SortedMap.mem_mapValues.2 ⟨indexDb, hmem, rfl⟩
  · obtain ⟨inode, m, hnode, hparse, hm⟩ := hstored
    obtain ⟨hnode', hdata⟩ := hsame inode hnode
    exact ⟨inode, m, hnode', (congrArg (parseRegistry J A) hdata).trans hparse, hm⟩

end

section
variable {P ι : Type} [DecidableEq ι] {J : Json} {A : PathApi P} {dir : Path} {w w' : World P ι}
  {key path : Text} {n : Nat}

theorem note_base (w : World P ι) (i j : ι) (ev : Event P) : (w.note i ev).base j = w.base j ∨
    (j = i ∧ (ev = .absent ∨ ev = .opened) ∧ (w.note i ev).base j = w.saves.length) := by
  have hupdate : Function.update w.base i w.saves.length j = w.base j ∨
      (j = i ∧ Function.update w.base i w.saves.length j = w.saves.length) := by
    by_cases hj : j = i
    · exact .inr ⟨hj, by rw [hj, Function.update_self]⟩
    · exact .inl (Function.update_of_ne hj _ _)
  cases ev with
  | absent => exact hupdate.imp_right fun h => ⟨h.1, .inl rfl, h.2⟩
  | opened => exact hupdate.imp_right fun h => ⟨h.1, .inr rfl, h.2⟩
  | _ => exact .inl rfl

theorem base_opened (w : World P ι) (i : ι) {ev : Event P} (h : ev = .absent ∨ ev = .opened) :
    (w.note i ev).base i = w.saves.length := by
  rcases h with rfl | rfl <;> exact Function.update_self i _ _

theorem length_savesAfter (saves : List (Registry P)) (ev : Event P) :
    saves.length ≤ (savesAfter saves ev).length := by
  cases ev with
  | saved m tmp => exact Nat.le_succ _
  | _ => exact Nat.le_refl _

/-- The index database at `path` is there, no call saves that loaded before the first `n` saves
were complete, and nobody registers another database under `key`. -/
def UndisturbedStep (A : PathApi P) (key path : Text) (n : Nat) (w : World P ι) (act : Act P ι)
    (ev : Event P) (w' : World P ι) : Prop :=
  w'.present (A.ofText path) = true ∧
    (∀ i choice m tmp, act = .step i choice → ev = .saved m tmp → n ≤ w.base i) ∧
    ∀ indexDb, ev = .inserted key indexDb → A.toStringLossy indexDb = path

def UndisturbedRun (J : Json) (A : PathApi P) (dir : Path) (key path : Text) (n : Nat) :
    World P ι → World P ι → Prop :=
  Relation.ReflTransGen fun w w' =>
    ∃ act ev, w.next J A dir act = some (w', ev) ∧ UndisturbedStep A key path n w act ev w'

theorem UndisturbedRun.reachable (h : UndisturbedRun J A dir key path n w w') :
    World.Reachable J A dir w w' := by
  induction h with
  | refl => exact .refl
  | tail _ hstep ih =>
    obtain ⟨act, ev, hnext, -⟩ := hstep
    exact ih.tail ⟨act, ev, hnext⟩

/-- From save `n` on, the entry is stored and every call that loads it carries it. -/
structure World.Keeps (J : Json) (A : PathApi P) (dir : Path) (key path : Text) (n : Nat)
    (w : World P ι) : Prop where
  present : w.present (A.ofText path) = true
  count : n ≤ w.saves.length
  stored : w.fs.Stores J A dir key path
  calls : ∀ i request s, w.thread i = some (request, s) → s.loaded = true → n ≤ w.base i →
    s.Carries J A key path w.fs

theorem keeps_step (hJ : J.RoundTrips) {init : List (Text × P)} (hw : w.Sound J A dir init)
    (hk : w.Keeps J A dir key path n) {act : Act P ι} {ev : Event P}
    (h : w.next J A dir act = some (w', ev)) (hu : UndisturbedStep A key path n w act ev w') :
    w'.Keeps J A dir key path n := by
  obtain ⟨hpresent, hlate, hsame⟩ := hu
  rcases World.next_cases h with ⟨i, request, s, -, hs, rfl, -⟩ |
    ⟨i, request, s, fs, s', hi, hmoves, -, rfl, choice, rfl⟩ | ⟨i, rfl, -⟩ | ⟨files, -, rfl, -⟩
  · refine ⟨hk.present, hk.count, hk.stored, fun j request' t hj hloaded hbase => ?_⟩
    rcases put_thread hj with ⟨-, hj⟩ | ⟨-, hj⟩
    · cases hj
      rcases hs with rfl | rfl <;> cases hloaded
    · exact hk.calls j request' t hj hloaded hbase
  · obtain ⟨hsound, hdrawn, -⟩ := hw.stage i request s hi
    refine ⟨hpresent, ?_, ?_, fun j request' t hj hloaded hbase => ?_⟩
    · show n ≤ (w.note i ev).saves.length
      rw [note_saves]
      exact hk.count.trans (length_savesAfter _ _)
    · refine stores_moves hJ hw.fs hsound hdrawn hk.stored (fun ⟨m, tmp, hev⟩ => ?_) hmoves
      refine hk.calls i request s hi ?_ (hlate i choice m tmp rfl hev)
      subst hev
      cases hmoves
      rfl
    · change n ≤ (w.note i ev).base j at hbase
      rcases put_thread (w := w.note i ev) hj with ⟨rfl, hnew⟩ | ⟨hji, hj⟩
      · cases hnew
        refine carries_moves hsound hk.present hsame hk.stored (fun hs => ?_) hmoves
        refine hk.calls j request s hi hs ?_
        rcases note_base w j j ev with heq | ⟨-, hopen, -⟩
        · exact heq ▸ hbase
        · -- only a call that has not loaded yet opens the registry
          rcases hopen with rfl | rfl <;> (cases hmoves; cases hs)
      · rw [note_thread] at hj
        have hbase' : n ≤ w.base j := by
          rcases note_base w i j ev with heq | ⟨hji', -⟩
          · exact heq ▸ hbase
          · exact absurd hji' hji
        exact (hk.calls j request' t hj hloaded hbase').frame
          (frame_moves hw.fs hsound hdrawn hmoves) (hw.stage j request' t hj).1
  · refine ⟨hk.present, hk.count, hk.stored, fun j request' t hj hloaded hbase => ?_⟩
    rcases put_thread hj with ⟨-, hj⟩ | ⟨-, hj⟩
    · cases hj
    · exact hk.calls j request' t hj hloaded hbase
  · exact ⟨hpresent, hk.count, hk.stored, hk.calls⟩

theorem keeps_run (hJ : J.RoundTrips) {init : List (Text × P)} (hw : w.Sound J A dir init)
    (hk : w.Keeps J A dir key path n) (h : UndisturbedRun J A dir key path n w w') :
    w'.Keeps J A dir key path n := by
  induction h with
  | refl => exact hk
  | tail hrun hstep ih =>
    obtain ⟨act, ev, hnext, hu⟩ := hstep
    exact keeps_step hJ (worldSound_reachable hJ hw (UndisturbedRun.reachable hrun)) ih hnext hu

/-- A thread's later calls load after the saves there are now. -/
def LoadsAfter (n : Nat) (j : ι) (w : World P ι) : Prop :=
  n ≤ w.saves.length ∧ ∀ request s, w.thread j = some (request, s) → s.loaded = true → n ≤ w.base j

theorem loadsAfter_step {j : ι} (hl : LoadsAfter n j w) {act : Act P ι} {ev : Event P}
    (h : w.next J A dir act = some (w', ev)) : LoadsAfter n j w' := by
  obtain ⟨hcount, hcalls⟩ := hl
  rcases World.next_cases h with ⟨i, request, s, -, hs, rfl, -⟩ |
    ⟨i, request, s, fs, s', hi, hmoves, -, rfl, -⟩ | ⟨i, rfl, -⟩ | ⟨files, -, rfl, -⟩
  · refine ⟨hcount, fun request' t hj hloaded => ?_⟩
    rcases put_thread hj with ⟨-, hj⟩ | ⟨-, hj⟩
    · cases hj
      rcases hs with rfl | rfl <;> cases hloaded
    · exact hcalls request' t hj hloaded
  · refine ⟨?_, fun request' t hj hloaded => ?_⟩
    · show n ≤ (w.note i ev).saves.length
      rw [note_saves]
      exact hcount.trans (length_savesAfter _ _)
    · show n ≤ (w.note i ev).base j
      rcases put_thread (w := w.note i ev) hj with ⟨rfl, hnew⟩ | ⟨hji, hj⟩
      · cases hnew
        rcases loaded_moves hmoves hloaded with hs | hopen
        · rcases note_base w j j ev with heq | ⟨-, -, heq⟩
          · rw [heq]
            exact hcalls request s hi hs
          · rw [heq]
            exact hcount
        · rw [base_opened w j hopen]
          exact hcount
      · rw [note_thread] at hj
        rcases note_base w i j ev with heq | ⟨hji', -⟩
        · rw [heq]
          exact hcalls request' t hj hloaded
        · exact absurd hji' hji
  · refine ⟨hcount, fun request' t hj hloaded => ?_⟩
    rcases put_thread hj with ⟨-, hj⟩ | ⟨-, hj⟩
    · cases hj
    · exact hcalls request' t hj hloaded
  · exact ⟨hcount, hcalls⟩

theorem loadsAfter_reachable {j : ι} (hidle : idle (w.thread j) = true)
    (h : World.Reachable J A dir w w') : LoadsAfter w.saves.length j w' := by
  induction h with
  | refl =>
    refine ⟨Nat.le_refl _, fun request s hj hloaded => ?_⟩
    rw [hj] at hidle
    cases s <;> first | (cases hloaded; done) | cases hidle
  | tail _ hstep ih =>
    obtain ⟨act, ev, hnext⟩ := hstep
    exact loadsAfter_step ih hnext

/-! ## What callers can rely on -/

/-- The saver's own entry is among those it saves. -/
theorem saved_own {init : List (Text × P)} (hw : w.Sound J A dir init) {i : ι} {choice : Choice P}
    {m : Registry P} {tmp : Path} (h : w.next J A dir (.step i choice) = some (w', .saved m tmp)) :
    ∃ root indexDb s r, w.thread i = some (.register root indexDb, s) ∧
      (canonicalKey A root r, indexDb) ∈ m.list := by
  rcases World.next_cases h with ⟨_, _, _, -, -, -, hev⟩ |
    ⟨k, request, s, fs, s', hk, hmoves, -, -, choice', hact⟩ | ⟨_, -, hev⟩ | ⟨_, -, -, hev⟩
  · cases hev
  · cases hact
    obtain ⟨-, -, hown⟩ := hw.stage i request s hk
    cases hmoves
    obtain ⟨root, indexDb, r, rfl, hmem⟩ := hown
    exact ⟨root, indexDb, _, r, hk, hmem⟩
  · cases hev
  · cases hev

/-- A saver carries what was stored when it loaded. -/
theorem saved_kept (hk : w.Keeps J A dir key path n) {i : ι} (hl : LoadsAfter n i w)
    {choice : Choice P} {m : Registry P} {tmp : Path}
    (h : w.next J A dir (.step i choice) = some (w', .saved m tmp)) :
    ∃ indexDb, (key, indexDb) ∈ m.list ∧ A.toStringLossy indexDb = path := by
  rcases World.next_cases h with ⟨_, _, _, -, -, -, hev⟩ |
    ⟨k, request, s, fs, s', hthread, hmoves, -, -, choice', hact⟩ | ⟨_, -, hev⟩ | ⟨_, -, -, hev⟩
  · cases hev
  · cases hact
    cases hmoves
    exact hk.calls i request _ hthread rfl (hl.2 request _ hthread rfl)
  · cases hev
  · cases hev

/-- Nobody loaded after a save that is not complete. -/
theorem base_le (hbase : ∀ i, w.base i ≤ w.saves.length) (h : World.Reachable J A dir w w') :
    ∀ i, w'.base i ≤ w'.saves.length := by
  induction h with
  | refl => exact hbase
  | tail _ hstep ih =>
    obtain ⟨act, ev, hnext⟩ := hstep
    rcases World.next_cases hnext with ⟨i, request, s, -, -, rfl, -⟩ |
      ⟨i, request, s, fs, s', -, -, -, rfl, -⟩ | ⟨i, rfl, -⟩ | ⟨files, -, rfl, -⟩
    · exact ih
    · intro j
      show (World.note _ i ev).base j ≤ (World.note _ i ev).saves.length
      rw [note_saves]
      refine le_trans ?_ (length_savesAfter _ ev)
      rcases note_base _ i j ev with heq | ⟨-, -, heq⟩
      · rw [heq]
        exact ih j
      · exact heq.le
    · exact ih
    · exact ih

/-- What a save stores is kept from then on. -/
theorem keeps_saved (hJ : J.RoundTrips) {init : List (Text × P)} (hw : w.Sound J A dir init)
    (hbase : ∀ i, w.base i ≤ w.saves.length) {i : ι} {choice : Choice P} {m : Registry P}
    {tmp : Path} {indexDb : P} (h : w.next J A dir (.step i choice) = some (w', .saved m tmp))
    (hm : (key, indexDb) ∈ m.list)
    (hpresent : w'.present (A.ofText (A.toStringLossy indexDb)) = true) :
    w'.Keeps J A dir key (A.toStringLossy indexDb) w'.saves.length := by
  rcases World.next_cases h with ⟨_, _, _, -, -, -, hev⟩ |
    ⟨k, request, s, fs, s', hthread, hmoves, -, rfl, choice', hact⟩ | ⟨_, -, hev⟩ | ⟨_, -, -, hev⟩
  · cases hev
  · refine ⟨hpresent, Nat.le_refl _, ?_, fun j request' t _ _ hlate => ?_⟩
    · obtain ⟨hsound, -, -⟩ := hw.stage k request s hthread
      cases hmoves with
      | rename _ _ inode htmp hdst =>
        obtain ⟨inode', htmp', hdata⟩ := hsound
        rw [htmp] at htmp'
        cases htmp'
        refine ⟨inode, rendered A m, by rw [node_rename, if_pos rfl], ?_,
          SortedMap.mem_mapValues.2 ⟨indexDb, hm, rfl⟩⟩
        show parseRegistry J A (w.fs.data inode) = _
        rw [hdata]
        exact parseRegistry_asBytes hJ m
    · exact absurd (hlate.trans (hbase j)) (Nat.not_succ_le_self _)
  · cases hev
  · cases hev

/-- For any number of callers in any interleaving, with any of them killed at any step.
What a load reads is what one completed save wrote, or there is none yet; its entries were
passed to `register` or were there; a save has its own entry; and from a save on, a call
that starts later also saves its entries, if meanwhile the index database is there, no call
that loaded before the save saves and nobody registers another database under the key. -/
theorem registry_runs (hJ : J.RoundTrips) (w₀ w w' : World P ι) (h₀ : w₀.Initial J A dir)
    (h : World.Reachable J A dir w₀ w) (act : Act P ι) (ev : Event P)
    (hstep : w.next J A dir act = some (w', ev)) :
    (∀ r, ev = .parsed r → ∃ m ∈ w.saves, r = some (rendered A m)) ∧
    (ev = .absent → w.saves = []) ∧
    (∀ m, ev = .parsed (some m) → ∀ e ∈ m.list,
      Sourced A (w.passed ++ w₀.saves.flatMap (·.list)) e) ∧
    ∀ i choice m tmp, act = .step i choice → ev = .saved m tmp →
      (∃ root indexDb s r, w.thread i = some (.register root indexDb, s) ∧
        (canonicalKey A root r, indexDb) ∈ m.list) ∧
      ∀ key indexDb, (key, indexDb) ∈ m.list →
        w'.present (A.ofText (A.toStringLossy indexDb)) = true →
        ∀ v, UndisturbedRun J A dir key (A.toStringLossy indexDb) w'.saves.length w' v →
        ∀ j, idle (v.thread j) = true →
        ∀ u, UndisturbedRun J A dir key (A.toStringLossy indexDb) w'.saves.length v u →
        ∀ choice' m' tmp' u', u.next J A dir (.step j choice') = some (u', .saved m' tmp') →
          (∃ indexDb', (key, indexDb') ∈ m'.list ∧
            A.toStringLossy indexDb' = A.toStringLossy indexDb) ∧
          ∃ root' indexDb' s r, u.thread j = some (.register root' indexDb', s) ∧
            (canonicalKey A root' r, indexDb') ∈ m'.list := by
  have hw := worldSound_reachable hJ (worldSound_initial h₀) h
  have hbase := base_le (fun i => (h₀.base i).le.trans (Nat.zero_le _)) h
  have hmoved : ∀ ev', ev = ev' → ev' ≠ .quiet → ∃ i request s fs s',
      w.thread i = some (request, s) ∧ s.Moves J A dir request w.fs w.present fs s' ev' := by
    rintro _ rfl hne
    rcases World.next_cases hstep with ⟨_, _, _, -, -, -, hev⟩ |
      ⟨i, request, s, fs, s', hi, hmoves, -⟩ | ⟨_, -, hev⟩ | ⟨_, -, -, hev⟩
    · exact absurd hev hne
    · exact ⟨i, request, s, fs, s', hi, hmoves⟩
    · exact absurd hev hne
    · exact absurd hev hne
  have hparsed : ∀ r, ev = .parsed r → ∃ m ∈ w.saves, r = some (rendered A m) := by
    intro r hev
    obtain ⟨i, request, s, fs, s', hi, hmoves⟩ := hmoved _ hev nofun
    cases hmoves with
    | parsed inode acc r hend hparse s' hs' =>
      obtain ⟨m, hm, hread⟩ := (hw.stage i request _ hi).1.parsed hend
      exact ⟨m, hm, hparse.symm.trans hread⟩
  refine ⟨hparsed, fun hev => ?_, fun m hev e he => ?_, ?_⟩
  · obtain ⟨i, request, s, fs, s', hi, hmoves⟩ := hmoved _ hev nofun
    cases hmoves with
    | absent hnone =>
      refine hw.fs.absent fun n hn => ?_
      rw [hnone] at hn
      cases hn
  · obtain ⟨m₀, hm₀, hr⟩ := hparsed _ hev
    cases hr
    exact sourced_rendered (hw.saved m₀ hm₀) e he
  · rintro i choice m tmp rfl rfl
    refine ⟨saved_own hw hstep, fun key indexDb hm hpresent v hv j hj u hu choice' m' tmp' u' hsave => ?_⟩
    have hkeeps := keeps_saved hJ hw hbase hstep hm hpresent
    have hw' := worldSound_step hJ hw hstep
    have hvsound := worldSound_reachable hJ hw' hv.reachable
    have hukeeps := keeps_run hJ hvsound (keeps_run hJ hw' hkeeps hv) hu
    have hlater := loadsAfter_reachable hj hu.reachable
    have hcount := (keeps_run hJ hw' hkeeps hv).count
    exact ⟨saved_kept hukeeps ⟨hcount.trans hlater.1, fun request s hs hloaded =>
      hcount.trans (hlater.2 request s hs hloaded)⟩ hsave,
      saved_own (worldSound_reachable hJ hvsound hu.reachable) hsave⟩

end

/-! ## Three callers -/

section
variable {P ι : Type} [DecidableEq ι] {J : Json} {A : PathApi P} {dir : Path}

/-- Play a list of steps, as long as each is as `ok` says. -/
def World.play (J : Json) (A : PathApi P) (dir : Path) (ok : Act P ι → Event P → Bool)
    (w : World P ι) (acts : List (Act P ι)) : Option (World P ι) :=
  acts.foldlM (fun w act => (w.next J A dir act).bind fun r =>
    if ok act r.2 then some r.1 else none) w

/-- A step of a run in which every index database is there. -/
def StepPresent (J : Json) (A : PathApi P) (dir : Path) (w w' : World P ι) : Prop :=
  (∃ act ev, w.next J A dir act = some (w', ev)) ∧ ∀ p, w'.present p = true

/-- The databases stay, in this step. -/
def Act.keepsPresent {P ι : Type} : Act P ι → Bool
  | .present _ => false
  | _ => true

/-- The step saves nothing, and registers nothing under the key. -/
def Event.spares {P : Type} (key : Text) : Event P → Bool
  | .saved _ _ => false
  | .inserted other _ => decide (other ≠ key)
  | _ => true

/-- In a played run the index databases stay, and every step is as `ok` says. -/
theorem steps_of_play {ok : Act P ι → Event P → Bool}
    (hok : ∀ act ev, ok act ev = true → act.keepsPresent = true) {acts : List (Act P ι)} :
    ∀ {w w' : World P ι}, w.play J A dir ok acts = some w' → (∀ p, w.present p = true) →
    Relation.ReflTransGen (fun w w' => ∃ act ev, w.next J A dir act = some (w', ev) ∧
      ok act ev = true ∧ ∀ p, w'.present p = true) w w' := by
  induction acts with
  | nil =>
    intro w w' h _
    cases h
    exact .refl
  | cons act acts ih =>
    intro w w' h hpresent
    obtain ⟨v, hv, hrest⟩ := Option.bind_eq_some_iff.1 h
    obtain ⟨⟨v', ev⟩, hnext, hv⟩ := Option.bind_eq_some_iff.1 hv
    rw [Option.ite_none_right_eq_some] at hv
    obtain ⟨hstep, heq⟩ := hv
    cases heq
    have hv' : ∀ p, v'.present p = true := by
      rcases World.next_cases hnext with ⟨i, request, s, -, -, rfl, -⟩ |
        ⟨i, request, s, fs, s', -, -, -, rfl, -⟩ | ⟨i, rfl, -⟩ | ⟨files, rfl, -, -⟩
      · exact hpresent
      · intro p
        show (w.note i ev).present p = true
        rw [note_present]
        exact hpresent p
      · exact hpresent
      · cases hok _ _ hstep
    exact .head ⟨act, ev, hnext, hstep, hv'⟩ (ih hrest hv')

theorem reachable_of_stepPresent {w w' : World P ι}
    (h : Relation.ReflTransGen (StepPresent J A dir) w w') : World.Reachable J A dir w w' := by
  induction h with
  | refl => exact .refl
  | tail _ hstep ih => exact ih.tail hstep.1

end

/-- Paths that are text. -/
def textPaths : PathApi Text := ⟨id, id, fun _ => rfl⟩

def prettyJson : Json := ⟨StringJson.pretty, StringJson.read⟩

theorem roundTrips_prettyJson : prettyJson.RoundTrips :=
  ⟨StringJson.read_pretty, fun _ => ⟨_, rfl⟩⟩

def cfgDir : Path := ["cfg".toList, appConfigDir]

/-- A config directory without a registry. -/
def emptyConfig : World Text (Fin 3) where
  fs := { node := fun p => if p ∈ cfgDir.inits then some .dir else none
          data := fun _ => []
          unused := 0 }
  present := fun _ => true
  thread := fun _ => none
  drawn := []
  base := fun _ => 0
  passed := []
  saves := []

theorem initial_emptyConfig : emptyConfig.Initial prettyJson textPaths cfgDir := by
  have hnofile : ∀ p n, emptyConfig.fs.node p ≠ some (.file n) := by
    intro p n h
    change (if p ∈ cfgDir.inits then some FsNode.dir else none) = some (.file n) at h
    split at h <;> cases h
  exact ⟨fun _ => rfl, fun _ => rfl, rfl, fun p q n h => absurd h (hnofile p n),
    fun p n h => absurd h (hnofile p n), fun _ => rfl, fun n h => absurd h (hnofile _ n)⟩

/-- Thread `i` registers an index database under a root and opens the registry. -/
def openActs (i : Fin 3) (root : String) : List (Act Text (Fin 3)) :=
  [.start i (.register root.toList (root.toList ++ "/index.db".toList)) false, .step i .go]

/-- It has its registry in hand, inserts its entry and writes the temporary file. -/
def writeActs (i : Fin 3) (nonce : Nat) : List (Act Text (Fin 3)) :=
  [.step i (.canonical none), .step i (.dirs 3), .step i (.draw 1 nonce), .step i .go,
    .step i (.chunk 1000), .step i .go]

/-- It reads a registry of `n` entries and looks at each. -/
def loadActs (i : Fin 3) (n : Nat) : List (Act Text (Fin 3)) :=
  [.step i (.chunk 1000), .step i (.chunk 0)] ++ List.replicate (n + 1) (.step i .go)

def played (w : World Text (Fin 3)) (acts : List (Act Text (Fin 3))) : World Text (Fin 3) :=
  (w.play prettyJson textPaths cfgDir (fun act _ => act.keepsPresent) acts).getD w

/-- One caller has written its temporary file. -/
def aboutToSave : World Text (Fin 3) := played emptyConfig (openActs 0 "/a" ++ writeActs 0 0)

/-- A second caller finds no registry; then the first one returns, then the second. -/
def overwritten : World Text (Fin 3) :=
  played emptyConfig (openActs 2 "/c" ++ openActs 0 "/a" ++ writeActs 0 0 ++ [.step 0 .go] ++
    writeActs 2 1 ++ [.step 2 .go])

/-- Then a third one loads what is there and is about to save. -/
def thirdCaller : World Text (Fin 3) :=
  played overwritten (openActs 1 "/b" ++ loadActs 1 1 ++ writeActs 1 2)

/-- What a step saves. -/
def savedBy (w : World Text (Fin 3)) (i : Fin 3) : Option (Registry Text) :=
  (w.next prettyJson textPaths cfgDir (.step i .go)).bind fun r =>
    match r.2 with
    | .saved m _ => some m
    | _ => none

theorem next_of_savedBy {w : World Text (Fin 3)} {i : Fin 3} {m : Registry Text}
    (h : savedBy w i = some m) :
    ∃ w' tmp, w.next prettyJson textPaths cfgDir (.step i .go) = some (w', .saved m tmp) := by
  obtain ⟨⟨w', ev⟩, hnext, hev⟩ := Option.bind_eq_some_iff.1 h
  cases ev <;> cases hev
  exact ⟨w', _, hnext⟩

theorem stepPresent_played {w : World Text (Fin 3)} {acts : List (Act Text (Fin 3))}
    (hsome : (w.play prettyJson textPaths cfgDir (fun act _ => act.keepsPresent) acts).isSome = true)
    (hpresent : ∀ p, w.present p = true) :
    Relation.ReflTransGen (StepPresent prettyJson textPaths cfgDir) w (played w acts) := by
  obtain ⟨w', hw'⟩ := Option.isSome_iff_exists.1 hsome
  have hplayed : played w acts = w' := by
    unfold played
    rw [hw', Option.getD_some]
  rw [hplayed]
  refine Relation.ReflTransGen.mono ?_ _ _ (steps_of_play (fun _ _ => id) hw' hpresent)
  rintro _ _ ⟨act, ev, hnext, -, hthere⟩
  exact ⟨⟨act, ev, hnext⟩, hthere⟩

/-- What a step of thread `i` leaves. -/
def after (w : World Text (Fin 3)) (i : Fin 3) : World Text (Fin 3) :=
  ((w.next prettyJson textPaths cfgDir (.step i .go)).map Prod.fst).getD w

/-- The steps of a caller that comes after a save of `/a`. -/
def sparing (act : Act Text (Fin 3)) (ev : Event Text) : Bool :=
  act.keepsPresent && ev.spares "/a".toList

def laterActs : List (Act Text (Fin 3)) := openActs 1 "/b" ++ loadActs 1 1 ++ writeActs 1 1

/-- A second caller starts when the first has saved, and is about to save. -/
def secondCaller : World Text (Fin 3) :=
  ((after aboutToSave 0).play prettyJson textPaths cfgDir sparing laterActs).getD
    (after aboutToSave 0)

theorem undisturbed_secondCaller (path : Text) (n : Nat) :
    UndisturbedRun prettyJson textPaths cfgDir "/a".toList path n (after aboutToSave 0)
      secondCaller := by
  have hsome : ((after aboutToSave 0).play prettyJson textPaths cfgDir sparing
      laterActs).isSome = true := by decide +kernel
  obtain ⟨u, hu⟩ := Option.isSome_iff_exists.1 hsome
  have hplayed : secondCaller = u := by
    unfold secondCaller
    rw [hu, Option.getD_some]
  rw [hplayed]
  have hkeeps : ∀ act ev, sparing act ev = true → act.keepsPresent = true := fun _ _ h =>
    (Bool.and_eq_true_iff.1 h).1
  refine Relation.ReflTransGen.mono ?_ _ _ (steps_of_play hkeeps hu fun _ => rfl)
  rintro w w' ⟨act, ev, hnext, hok, hthere⟩
  have hspares := (Bool.and_eq_true_iff.1 hok).2
  refine ⟨act, ev, hnext, hthere _, ?_, ?_⟩
  · rintro i choice m tmp - rfl
    cases hspares
  · rintro indexDb rfl
    simp [Event.spares] at hspares

/-- The first caller's save has its entry, and so has the save of the second, with its own. -/
theorem registry_runs_second_save : ∃ m m', savedBy aboutToSave 0 = some m ∧
    m.list = [("/a".toList, "/a/index.db".toList)] ∧ savedBy secondCaller 1 = some m' ∧
    ("/a".toList, "/a/index.db".toList) ∈ m'.list ∧
    ∃ root indexDb s r, secondCaller.thread 1 = some (.register root indexDb, s) ∧
      (canonicalKey textPaths root r, indexDb) ∈ m'.list := by
  have hreach : World.Reachable prettyJson textPaths cfgDir emptyConfig aboutToSave :=
    reachable_of_stepPresent (stepPresent_played (by decide +kernel) fun _ => rfl)
  have hsaved : (savedBy aboutToSave 0).map (·.list) =
      some [("/a".toList, "/a/index.db".toList)] := by decide +kernel
  obtain ⟨m, hm, hlist⟩ := Option.map_eq_some_iff.1 hsaved
  obtain ⟨w', tmp, hnext⟩ := next_of_savedBy hm
  have hafter : after aboutToSave 0 = w' := by
    unfold after
    rw [hnext]
    rfl
  obtain ⟨m', hm'⟩ := Option.isSome_iff_exists.1
    (show (savedBy secondCaller 1).isSome = true by decide +kernel)
  obtain ⟨u', tmp', hnext'⟩ := next_of_savedBy hm'
  have hmem : ("/a".toList, "/a/index.db".toList) ∈ m.list := by
    rw [hlist]
    exact List.mem_singleton_self _
  have hrun := undisturbed_secondCaller "/a/index.db".toList w'.saves.length
  have hidle : idle ((after aboutToSave 0).thread 1) = true := by decide +kernel
  have hpresent : (after aboutToSave 0).present "/a/index.db".toList = true := rfl
  rw [hafter] at hrun hidle hpresent
  obtain ⟨⟨indexDb, hkept, hsame⟩, hown⟩ := ((registry_runs roundTrips_prettyJson emptyConfig
    aboutToSave w' initial_emptyConfig hreach _ _ hnext).2.2.2 0 .go m tmp rfl rfl).2 _ _ hmem
    hpresent w' .refl 1 hidle secondCaller hrun .go m' tmp' u' hnext'
  refine ⟨m, m', hm, hlist, hm', ?_, hown⟩
  have hindex : indexDb = "/a/index.db".toList := hsame
  rwa [hindex] at hkept

/-- The root, the index database and the registry of a call of `register` that returned one. -/
def returnedBy (w : World Text (Fin 3)) (i : Fin 3) : Option (Text × Text × Registry Text) :=
  match w.thread i with
  | some (.register root indexDb, .returned (some m)) => some (root, indexDb, m)
  | _ => none

theorem thread_of_returnedBy {w : World Text (Fin 3)} {i : Fin 3} {root indexDb : Text}
    {m : Registry Text} (h : returnedBy w i = some (root, indexDb, m)) :
    w.thread i = some (.register root indexDb, .returned (some m)) := by
  unfold returnedBy at h
  split at h
  · next heq =>
    cases h
    exact heq
  · cases h

theorem present_of_stepPresent {w w' : World Text (Fin 3)}
    (h : Relation.ReflTransGen (StepPresent prettyJson textPaths cfgDir) w w')
    (hw : ∀ p, w.present p = true) : ∀ p, w'.present p = true := by
  cases h with
  | refl => exact hw
  | tail _ hstep => exact hstep.2

/-- Two calls that do not overlap, with all index databases there throughout: the first returned
with its entry saved before the second starts, and the second saves without it. -/
theorem lost_update :
    Relation.ReflTransGen (StepPresent prettyJson textPaths cfgDir) emptyConfig overwritten ∧
    (∃ m, overwritten.thread 0 =
        some (.register "/a".toList "/a/index.db".toList, .returned (some m)) ∧
      ("/a".toList, "/a/index.db".toList) ∈ m.list) ∧
    overwritten.thread 1 = none ∧
    Relation.ReflTransGen (StepPresent prettyJson textPaths cfgDir) overwritten thirdCaller ∧
    ∃ m u tmp, thirdCaller.next prettyJson textPaths cfgDir (.step 1 .go) =
        some (u, .saved m tmp) ∧
      ("/b".toList, "/b/index.db".toList) ∈ m.list ∧
      ("/a".toList, "/a/index.db".toList) ∉ m.list := by
  have hfirst : Relation.ReflTransGen (StepPresent prettyJson textPaths cfgDir) emptyConfig
      overwritten := stepPresent_played (by decide +kernel) fun _ => rfl
  have hreturned : (returnedBy overwritten 0).map (fun r => (r.1, r.2.1, r.2.2.list)) =
      some ("/a".toList, "/a/index.db".toList, [("/a".toList, "/a/index.db".toList)]) := by
    decide +kernel
  have hidle : overwritten.thread 1 = none :=
    Option.not_isSome_iff_eq_none.1 (by decide +kernel)
  have hsecond : Relation.ReflTransGen (StepPresent prettyJson textPaths cfgDir) overwritten
      thirdCaller :=
    stepPresent_played (by decide +kernel) (present_of_stepPresent hfirst fun _ => rfl)
  have hsaved : (savedBy thirdCaller 1).map (·.list) =
      some [("/b".toList, "/b/index.db".toList), ("/c".toList, "/c/index.db".toList)] := by
    decide +kernel
  obtain ⟨⟨root, indexDb, m⟩, hm, hlist⟩ := Option.map_eq_some_iff.1 hreturned
  obtain ⟨m', hm', hlist'⟩ := Option.map_eq_some_iff.1 hsaved
  obtain ⟨u, tmp, hnext⟩ := next_of_savedBy hm'
  simp only [Prod.mk.injEq] at hlist
  obtain ⟨rfl, rfl, hlist⟩ := hlist
  refine ⟨hfirst, ⟨m, thread_of_returnedBy hm, ?_⟩, hidle, hsecond, m', u, tmp, hnext, ?_, ?_⟩
  · rw [hlist]
    exact List.mem_singleton_self _
  · rw [hlist']
    exact List.mem_cons_self
  · rw [hlist']
    decide

end CodeSearch
