import CodeSearch.Migration
import CodeSearch.Lib.Scan

/-!
# The watch loop

`run_watch` reindexes once, arms a file watcher, and then waits for an event
that matters, drains the queue until it is quiet, and reindexes.  `WatchStep`
interleaves its steps with an environment that changes any file at any time; the
walk of a reindex reads the files one by one in between.

An armed watcher enqueues an event for every change, so a change that the walk
did not see is still in the queue when the loop waits again.  A change before
the watcher is armed is only seen when the first walk reads the file after it:

    watch_misses_nothing : runs without such a late change leave, whenever the
    loop waits with an empty queue, no file that the last reindex saw otherwise
-/

namespace CodeSearch

open Store

/-! ## Files and events -/

/-- The files under the root by relative path. -/
abbrev FileTree := Text → Option Text

def selfDir : Text := ".apohara-codesearch".toList

/-- The path lies in the index directory. -/
def isIndexPath (path : Text) : Bool :=
  decide (path = selfDir) || (selfDir ++ ['/']).isPrefixOf path

/-- `walk_repo` as a function of the tree it reads: the indexable files, by
ignore rules, size, encoding and line length. -/
structure Walker where
  files : FileTree → List WalkedFile
  content : ∀ tree, ∀ f ∈ files tree, tree f.relPath = some f.content
  congr : ∀ tree tree', (∀ p, isIndexPath p = false → tree p = tree' p) → files tree = files tree'

/-- `notify::EventKind`, without its details. -/
inductive EventKind where
  | any | access | create | modify | remove | other
deriving DecidableEq, Repr

/-- `notify::Result<Event>`. -/
inductive WatchEvent where
  | event (kind : EventKind) (paths : List Text)
  | error
deriving DecidableEq

def EventKind.contentChanging : EventKind → Bool
  | .create | .modify | .remove | .any => true
  | .access | .other => false

/-- Decide whether an event should trigger a reindex. -/
def relevant : WatchEvent → Bool
  | .event kind paths => kind.contentChanging && paths.any fun p => !isIndexPath p
  | .error => true

/-! ## The loop -/

/-- One incremental reindex on a fresh connection. -/
def handleChange (D : Deps) (e : Embedder) (view : RepoView) : Sql ReindexReport := do
  withContext "open_db" (openDbWith e.dim)
  withContext "migrate" migrate
  withContext "reindex" (reindexWith D view false e)

/-- Where the loop stands; a reindex in progress has its walk. -/
inductive WatchControl where
  /-- In the first `handle_change`. -/
  | initial (walk : Scan Text (Option Text))
  /-- The first `handle_change` returned, the watcher is not armed. -/
  | arming
  /-- Blocked in `recv`. -/
  | receiving
  | draining
  | reindexing (walk : Scan Text (Option Text))
  | stopped

/-- The watcher delivers events. -/
def WatchControl.armed : WatchControl → Bool
  | .initial _ | .arming => false
  | .receiving | .draining | .reindexing _ | .stopped => true

/-- `last` is what the last reindex that returned read. -/
structure WatchState where
  tree : FileTree
  db : Db
  last : Option RepoView
  queue : List WatchEvent
  control : WatchControl

/-- The walk is over: every path was listed or read. -/
def Walked (walk : Scan Text (Option Text)) : Prop := ∀ p, isIndexPath p = false → (walk p).isSome

/-- The tree a walk saw. -/
def seenTree (walk : Scan Text (Option Text)) : FileTree := fun p => (walk p).getD none

/-- What `handle_change` reads from the file system, when its walk is `walk`. -/
structure ViewOf (W : Walker) (root : Text) (walk : Scan Text (Option Text)) (view : RepoView) :
    Prop where
  canonicalRoot : view.canonicalRoot = root
  walked : view.walked = W.files (seenTree walk)

/-- The steps a run is judged by. -/
inductive WatchAction where
  | change (path : Text) (content : Option Text)
  | failed
  | other

section
variable (W : Walker) (D : Deps) (e : Embedder) (root : Text)

/-- One step of the loop or of its environment. -/
inductive WatchStep : WatchState → WatchAction → WatchState → Prop
  /-- A file is written, created or removed; an armed watcher sees it at once. -/
  | change (s : WatchState) (path : Text) (content : Option Text) (kind : EventKind) :
      kind.contentChanging = true →
      WatchStep s (.change path content)
        { s with
          tree := Function.update s.tree path content
          queue := if s.control.armed && decide (s.tree path ≠ content) then
              s.queue ++ [.event kind [path]]
            else s.queue }
  /-- Any other event: an access, a write in the index directory, an error. -/
  | noise (s : WatchState) (ev : WatchEvent) : s.control.armed = true →
      WatchStep s .other { s with queue := s.queue ++ [ev] }
  | lookFirst (s : WatchState) (walk : Scan Text (Option Text)) (picked : Text → Bool) :
      s.control = .initial walk →
      WatchStep s .other { s with control := .initial (walk.look s.tree picked) }
  | indexed (s : WatchState) (walk : Scan Text (Option Text)) (view : RepoView) (db : Db)
      (report : ReindexReport) : s.control = .initial walk → Walked walk →
      ViewOf W root walk view →
      Finishes engine anyOutcome (handleChange D e view) s.db (.ok report) db →
      WatchStep s .other { s with db, last := some view, control := .arming }
  /-- The first `handle_change` fails, and `run_watch` with it. -/
  | indexFailed (s : WatchState) (walk : Scan Text (Option Text)) (view : RepoView) (db : Db)
      (err : Error) : s.control = .initial walk → ViewOf W root walk view →
      Finishes engine anyOutcome (handleChange D e view) s.db (.error err) db →
      WatchStep s .failed { s with db, control := .stopped }
  | arm (s : WatchState) : s.control = .arming →
      WatchStep s .other { s with control := .receiving }
  | recv (s : WatchState) (ev : WatchEvent) (rest : List WatchEvent) :
      s.control = .receiving → s.queue = ev :: rest →
      WatchStep s .other
        { s with queue := rest, control := if relevant ev then .draining else .receiving }
  | drain (s : WatchState) (ev : WatchEvent) (rest : List WatchEvent) :
      s.control = .draining → s.queue = ev :: rest →
      WatchStep s .other { s with queue := rest }
  /-- The queue stayed empty for the debounce window. -/
  | quiet (s : WatchState) : s.control = .draining → s.queue = [] →
      WatchStep s .other { s with control := .reindexing .empty }
  | look (s : WatchState) (walk : Scan Text (Option Text)) (picked : Text → Bool) :
      s.control = .reindexing walk →
      WatchStep s .other { s with control := .reindexing (walk.look s.tree picked) }
  | reindexed (s : WatchState) (walk : Scan Text (Option Text)) (view : RepoView) (db : Db)
      (report : ReindexReport) : s.control = .reindexing walk → Walked walk →
      ViewOf W root walk view →
      Finishes engine anyOutcome (handleChange D e view) s.db (.ok report) db →
      WatchStep s .other { s with db, last := some view, control := .receiving }
  /-- A reindex fails; the loop goes on. -/
  | reindexFailed (s : WatchState) (walk : Scan Text (Option Text)) (view : RepoView) (db : Db)
      (err : Error) : s.control = .reindexing walk → ViewOf W root walk view →
      Finishes engine anyOutcome (handleChange D e view) s.db (.error err) db →
      WatchStep s .failed { s with db, control := .receiving }
  /-- The channel is disconnected. -/
  | disconnect (s : WatchState) : s.control = .receiving ∨ s.control = .draining →
      WatchStep s .other { s with control := .stopped }

/-- `run_watch` starts. -/
def WatchState.Starts (s : WatchState) : Prop :=
  s.last = none ∧ s.queue = [] ∧ s.control = .initial .empty

/-- Blocked in `recv` with nothing to receive. -/
def WatchState.Idle (s : WatchState) : Prop := s.control = .receiving ∧ s.queue = []

/-- The last reindex saw the indexable files as they are. -/
def WatchState.Seen (s : WatchState) : Prop :=
  ∃ view, s.last = some view ∧ view.walked = W.files s.tree

/-- Before the watcher is armed, a file changes only while the first walk has
not read it. -/
def Timely (s : WatchState) : WatchAction → Prop
  | .change path content =>
    match s.control with
    | .initial walk => isIndexPath path = true ∨ s.tree path = content ∨ walk path = none
    | .arming => isIndexPath path = true ∨ s.tree path = content
    | _ => True
  | _ => True

/-- Runs in which every reindex returns and every action is as `ok` says. -/
def WatchRun (ok : WatchState → WatchAction → Prop) : WatchState → WatchState → Prop :=
  Relation.ReflTransGen fun s s' => ∃ a, WatchStep W D e root s a s' ∧ a ≠ .failed ∧ ok s a

end

/-! ## Nothing is missed -/

/-- Some event in the queue will trigger a reindex. -/
def Pending (queue : List WatchEvent) : Prop := ∃ ev ∈ queue, relevant ev = true

/-- A change the last walk did not see is pending. -/
def WatchState.Tracked (W : Walker) (s : WatchState) : Prop :=
  match s.control with
  | .initial walk => walk.Current s.tree fun p => isIndexPath p = true
  | .arming => s.Seen W
  | .receiving => Pending s.queue ∨ s.Seen W
  | .draining => True
  | .reindexing walk => walk.Current s.tree fun p => isIndexPath p = true ∨ Pending s.queue
  | .stopped => True

theorem pending_append {queue : List WatchEvent} (h : Pending queue) (ev : WatchEvent) :
    Pending (queue ++ [ev]) := by
  obtain ⟨ev', hmem, hrel⟩ := h
  exact ⟨ev', List.mem_append_left _ hmem, hrel⟩

theorem relevant_change {kind : EventKind} {path : Text} (hk : kind.contentChanging = true)
    (hp : isIndexPath path = false) : relevant (.event kind [path]) = true := by
  unfold relevant
  simp [hk, hp]

theorem files_update {W : Walker} {tree : FileTree} {path : Text} {content : Option Text}
    (h : isIndexPath path = true ∨ tree path = content) :
    W.files (Function.update tree path content) = W.files tree := by
  refine W.congr _ _ fun p hp => ?_
  by_cases heq : p = path
  · subst heq
    rw [Function.update_self]
    rcases h with h | h
    · rw [hp] at h; cases h
    · exact h.symm
  · rw [Function.update_of_ne heq]

/-- A walk that is over and unmarked saw the files as they are. -/
theorem files_seenTree {W : Walker} {walk : Scan Text (Option Text)} {tree : FileTree}
    (hwalk : Walked walk) (hc : walk.Current tree fun p => isIndexPath p = true) :
    W.files (seenTree walk) = W.files tree := by
  refine W.congr _ _ fun p hp => ?_
  unfold seenTree
  rw [hc.complete (by rw [hp]; simp) (hwalk p hp)]
  rfl

/-- A change keeps the invariant: it is timely, or the watcher enqueues it. -/
theorem tracked_change {W : Walker} {s : WatchState} {path : Text} {content : Option Text}
    {kind : EventKind} (h : s.Tracked W) (hk : kind.contentChanging = true)
    (ht : Timely s (.change path content)) :
    ({ s with
        tree := Function.update s.tree path content
        queue := if s.control.armed && decide (s.tree path ≠ content) then
            s.queue ++ [.event kind [path]]
          else s.queue } : WatchState).Tracked W := by
  obtain ⟨tree, db, last, queue, control⟩ := s
  unfold WatchState.Tracked at h ⊢
  unfold Timely at ht
  -- an armed watcher marks the change, unless it is none or in the index directory
  have hmark : ∀ queue', queue' = (if decide (tree path ≠ content) then
      queue ++ [.event kind [path]] else queue) →
      (Pending queue → Pending queue') ∧
        (isIndexPath path = true ∨ tree path = content ∨ Pending queue') := by
    rintro queue' rfl
    by_cases hne : tree path = content
    · rw [if_neg (by simp [hne])]
      exact ⟨id, .inr (.inl hne)⟩
    · rw [if_pos (by simp [hne])]
      refine ⟨fun h => pending_append h _, ?_⟩
      cases hp : isIndexPath path with
      | true => exact .inl rfl
      | false =>
        exact .inr (.inr ⟨_, List.mem_append_right _ List.mem_cons_self, relevant_change hk hp⟩)
  cases control with
  | initial walk =>
    refine Scan.Current.write h ?_
    rcases ht with ht | ht | ht
    · exact .inr (.inr ht)
    · exact .inr (.inl ht)
    · exact .inl ht
  | arming =>
    obtain ⟨view, hlast, hfiles⟩ := h
    exact ⟨view, hlast, by rw [files_update ht]; exact hfiles⟩
  | receiving =>
    obtain ⟨hkeep, hchange⟩ := hmark _ rfl
    rcases h with h | ⟨view, hlast, hfiles⟩
    · exact .inl (hkeep h)
    · rcases hchange with hc | hc | hc
      · exact .inr ⟨view, hlast, by rw [files_update (.inl hc)]; exact hfiles⟩
      · exact .inr ⟨view, hlast, by rw [files_update (.inr hc)]; exact hfiles⟩
      · exact .inl hc
  | draining => trivial
  | reindexing walk =>
    obtain ⟨hkeep, hchange⟩ := hmark _ rfl
    refine Scan.Current.write (h.mono fun p hp => hp.imp_right hkeep) ?_
    rcases hchange with hc | hc | hc
    · exact .inr (.inr (.inl hc))
    · exact .inr (.inl hc)
    · exact .inr (.inr (.inr hc))
  | stopped => trivial

/-- Every timely step keeps the invariant. -/
theorem tracked_step {W : Walker} {D : Deps} {e : Embedder} {root : Text} {s s' : WatchState}
    {a : WatchAction} (h : s.Tracked W) (hstep : WatchStep W D e root s a s') (ha : a ≠ .failed)
    (ht : Timely s a) : s'.Tracked W := by
  cases hstep with
  | change path content kind hk => exact tracked_change h hk ht
  | noise ev harm =>
    obtain ⟨tree, db, last, queue, control⟩ := s
    unfold WatchState.Tracked at h ⊢
    cases control with
    | initial walk => cases harm
    | arming => cases harm
    | receiving => exact h.imp_left fun hp => pending_append hp ev
    | draining => trivial
    | reindexing walk => exact h.mono fun p hp => hp.imp_right fun hq => pending_append hq ev
    | stopped => trivial
  | lookFirst walk picked hc =>
    unfold WatchState.Tracked at h ⊢
    rw [hc] at h
    exact h.look picked
  | indexed walk view db report hc hwalk hview hfin =>
    unfold WatchState.Tracked at h ⊢
    rw [hc] at h
    exact ⟨view, rfl, by rw [hview.walked, files_seenTree hwalk h]⟩
  | indexFailed => exact absurd rfl ha
  | arm hc =>
    unfold WatchState.Tracked at h ⊢
    rw [hc] at h
    exact .inr h
  | recv ev rest hc hq =>
    unfold WatchState.Tracked at h ⊢
    rw [hc] at h
    cases hrel : relevant ev with
    | true => trivial
    | false =>
      -- an event that does not matter was not the pending one
      rcases h with ⟨ev', hmem, hrel'⟩ | h
      · rw [hq] at hmem
        rcases List.mem_cons.1 hmem with rfl | hmem
        · rw [hrel] at hrel'; cases hrel'
        · exact .inl ⟨ev', hmem, hrel'⟩
      · exact .inr h
  | drain ev rest hc hq =>
    unfold WatchState.Tracked
    simp only [hc]
  | quiet hc hq => exact Scan.current_empty
  | look walk picked hc =>
    unfold WatchState.Tracked at h ⊢
    rw [hc] at h
    exact h.look picked
  | reindexed walk view db report hc hwalk hview hfin =>
    unfold WatchState.Tracked at h ⊢
    rw [hc] at h
    by_cases hp : Pending s.queue
    · exact .inl hp
    · have hcur : walk.Current s.tree fun p => isIndexPath p = true :=
        h.mono fun p hm => hm.resolve_right hp
      exact .inr ⟨view, rfl, by rw [hview.walked, files_seenTree hwalk hcur]⟩
  | reindexFailed => exact absurd rfl ha
  | disconnect hc => trivial

theorem tracked_run {W : Walker} {D : Deps} {e : Embedder} {root : Text} {s s' : WatchState}
    (h₀ : s.Starts) (h : WatchRun W D e root Timely s s') : s'.Tracked W := by
  induction h with
  | refl =>
    unfold WatchState.Tracked
    rw [h₀.2.2]
    exact Scan.current_empty
  | tail _ hstep ih =>
    obtain ⟨a, hs, ha, ht⟩ := hstep
    exact tracked_step ih hs ha ht

/-- Whenever the loop waits with an empty queue, the last reindex saw the
indexable files as they are. -/
theorem watch_misses_nothing (W : Walker) (D : Deps) (e : Embedder) (root : Text)
    {s s' : WatchState} (h₀ : s.Starts) (h : WatchRun W D e root Timely s s') (hidle : s'.Idle) :
    s'.Seen W := by
  have ht := tracked_run h₀ h
  unfold WatchState.Tracked at ht
  rw [hidle.1] at ht
  rcases ht with ⟨ev, hmem, _⟩ | ht
  · rw [hidle.2] at hmem; cases hmem
  · exact ht

/-! ## Two runs on one file -/

/-- The walk of a root in which only `names` are indexable. -/
def Walker.listing (names : List Text) : Walker where
  files tree := (names.filter fun p => !isIndexPath p).filterMap fun p =>
    (tree p).map fun content => ⟨p, detectLanguage p, content⟩
  content := by
    intro tree f hf
    obtain ⟨p, _, hp⟩ := List.mem_filterMap.1 hf
    obtain ⟨content, hc, rfl⟩ := Option.map_eq_some_iff.1 hp
    exact hc
  congr := by
    intro tree tree' h
    refine List.filterMap_congr fun p hp => ?_
    have hp : isIndexPath p = false := by simpa using (List.mem_filter.1 hp).2
    rw [h p hp]

def oneFileWalker : Walker := .listing ["a".toList]

/-- A watch of an empty root. -/
def watchStart : WatchState := ⟨fun _ => none, .empty, none, [], .initial .empty⟩

/-- The first file appears. -/
def oneFileTree : FileTree := Function.update (fun _ => none) "a".toList (some "a\n".toList)

def lookAll (tree : FileTree) : Scan Text (Option Text) := Scan.look .empty tree fun _ => true

/-- The index after the first reindex of `view`. -/
def firstDb (view : RepoView) : Db :=
  (replay engine (succeed 80) (handleChange .plain oneFileEmbedder view) .empty .idle).2.1

/-- A first reindex of a whole tree, up to the arming of the watcher. -/
theorem watch_first {ok : WatchState → WatchAction → Prop} (hok : ∀ s, ok s .other)
    (tree : FileTree) (view : RepoView) (report : ReindexReport)
    (hview : ViewOf oneFileWalker "/old".toList (lookAll tree) view)
    (hfin : (replay engine (succeed 80) (handleChange .plain oneFileEmbedder view) .empty
      .idle).1.value? = some report) :
    WatchRun oneFileWalker .plain oneFileEmbedder "/old".toList ok
      ⟨tree, .empty, none, [], .initial .empty⟩ ⟨tree, firstDb view, some view, [], .arming⟩ := by
  have hlook : WatchStep oneFileWalker .plain oneFileEmbedder "/old".toList
      ⟨tree, .empty, none, [], .initial .empty⟩ .other
      ⟨tree, .empty, none, [], .initial (lookAll tree)⟩ :=
    .lookFirst _ .empty (fun _ => true) rfl
  have hdone : Finishes engine anyOutcome (handleChange .plain oneFileEmbedder view) .empty
      (.ok report) (firstDb view) := by
    unfold firstDb
    exact finishes_replay (fun o (_ : o ∈ succeed 80) _ _ _ => trivial) hfin
  have hindex : WatchStep oneFileWalker .plain oneFileEmbedder "/old".toList
      ⟨tree, .empty, none, [], .initial (lookAll tree)⟩ .other
      ⟨tree, firstDb view, some view, [], .arming⟩ :=
    .indexed _ (lookAll tree) view _ report rfl (fun _ _ => rfl) hview hdone
  exact .head ⟨.other, hlook, by simp, hok _⟩ (.single ⟨.other, hindex, by simp, hok _⟩)

def emptyView : RepoView := plainView "/old".toList []

theorem viewOf_oneFile : ViewOf oneFileWalker "/old".toList (lookAll oneFileTree) oneFileView :=
  ⟨rfl, by decide +kernel⟩

/-- Then the file is written anew. -/
def rewrittenTree : FileTree := Function.update oneFileTree "a".toList (some "b\n".toList)

def rewrittenView : RepoView := plainView "/old".toList [("a".toList, "b\n".toList)]

/-- The reindex that follows. -/
def rewrittenRun : Sql ReindexReport × Db × Txn Db :=
  replay engine (succeed 80) (handleChange .plain oneFileEmbedder rewrittenView)
    (firstDb oneFileView) .idle

/-- From the event of the write to the end of the reindex. -/
theorem watch_rewritten {ok : WatchState → WatchAction → Prop} (hok : ∀ s, ok s .other)
    (hchange : ∀ s, s.control = .receiving → ok s (.change "a".toList (some "b\n".toList))) :
    WatchRun oneFileWalker .plain oneFileEmbedder "/old".toList ok
      ⟨oneFileTree, firstDb oneFileView, some oneFileView, [], .receiving⟩
      ⟨rewrittenTree, rewrittenRun.2.1, some rewrittenView, [], .receiving⟩ := by
  have hwrite : WatchStep oneFileWalker .plain oneFileEmbedder "/old".toList
      ⟨oneFileTree, firstDb oneFileView, some oneFileView, [], .receiving⟩
      (.change "a".toList (some "b\n".toList))
      ⟨rewrittenTree, firstDb oneFileView, some oneFileView, [.event .modify ["a".toList]],
        .receiving⟩ :=
    .change _ "a".toList (some "b\n".toList) .modify rfl
  have hrecv : WatchStep oneFileWalker .plain oneFileEmbedder "/old".toList
      ⟨rewrittenTree, firstDb oneFileView, some oneFileView, [.event .modify ["a".toList]],
        .receiving⟩ .other
      ⟨rewrittenTree, firstDb oneFileView, some oneFileView, [], .draining⟩ :=
    .recv _ (.event .modify ["a".toList]) [] rfl rfl
  have hquiet : WatchStep oneFileWalker .plain oneFileEmbedder "/old".toList
      ⟨rewrittenTree, firstDb oneFileView, some oneFileView, [], .draining⟩ .other
      ⟨rewrittenTree, firstDb oneFileView, some oneFileView, [], .reindexing .empty⟩ :=
    .quiet _ rfl rfl
  have hlook : WatchStep oneFileWalker .plain oneFileEmbedder "/old".toList
      ⟨rewrittenTree, firstDb oneFileView, some oneFileView, [], .reindexing .empty⟩ .other
      ⟨rewrittenTree, firstDb oneFileView, some oneFileView, [],
        .reindexing (lookAll rewrittenTree)⟩ :=
    .look _ .empty (fun _ => true) rfl
  have hdone : Finishes engine anyOutcome (handleChange .plain oneFileEmbedder rewrittenView)
      (firstDb oneFileView) (.ok ⟨1, 1, 0, true⟩) rewrittenRun.2.1 :=
    finishes_replay (fun o (_ : o ∈ succeed 80) _ _ _ => trivial) (by decide +kernel)
  have hreindexed : WatchStep oneFileWalker .plain oneFileEmbedder "/old".toList
      ⟨rewrittenTree, firstDb oneFileView, some oneFileView, [],
        .reindexing (lookAll rewrittenTree)⟩ .other
      ⟨rewrittenTree, rewrittenRun.2.1, some rewrittenView, [], .receiving⟩ :=
    .reindexed _ (lookAll rewrittenTree) rewrittenView _ _ rfl (fun _ _ => rfl)
      ⟨rfl, by decide +kernel⟩ hdone
  refine .head ⟨_, hwrite, by simp, hchange _ rfl⟩ ?_
  refine .head ⟨.other, hrecv, by simp, hok _⟩ (.head ⟨.other, hquiet, by simp, hok _⟩ ?_)
  exact .head ⟨.other, hlook, by simp, hok _⟩ (.single ⟨.other, hreindexed, by simp, hok _⟩)

/-- A file that appears before the first walk is seen, and so is a write to it once the watcher
is armed. -/
theorem watch_misses_nothing_rewritten : watchStart.Starts ∧
    ∃ s', WatchRun oneFileWalker .plain oneFileEmbedder "/old".toList Timely watchStart s' ∧
      s'.Idle ∧ s'.tree "a".toList = some "b\n".toList ∧ s'.last = some rewrittenView ∧
      s'.Seen oneFileWalker := by
  have hstart : watchStart.Starts := ⟨rfl, rfl, rfl⟩
  have happears : WatchStep oneFileWalker .plain oneFileEmbedder "/old".toList watchStart
      (.change "a".toList (some "a\n".toList))
      ⟨oneFileTree, .empty, none, [], .initial .empty⟩ :=
    .change watchStart "a".toList (some "a\n".toList) .create rfl
  have harm : WatchStep oneFileWalker .plain oneFileEmbedder "/old".toList
      ⟨oneFileTree, firstDb oneFileView, some oneFileView, [], .arming⟩ .other
      ⟨oneFileTree, firstDb oneFileView, some oneFileView, [], .receiving⟩ := .arm _ rfl
  have harmed : WatchRun oneFileWalker .plain oneFileEmbedder "/old".toList Timely watchStart
      ⟨oneFileTree, firstDb oneFileView, some oneFileView, [], .receiving⟩ :=
    Relation.ReflTransGen.head ⟨_, happears, by simp, .inr (.inr rfl)⟩
      ((watch_first (fun _ => trivial) oneFileTree oneFileView ⟨1, 1, 0, true⟩ viewOf_oneFile
        (by decide +kernel)).tail ⟨.other, harm, by simp, trivial⟩)
  have hrun := harmed.trans (@watch_rewritten Timely (fun _ => trivial) fun s hs => by
    unfold Timely
    rw [hs]
    trivial)
  exact ⟨hstart, _, hrun, ⟨rfl, rfl⟩, rfl, rfl,
    watch_misses_nothing oneFileWalker .plain oneFileEmbedder "/old".toList hstart hrun ⟨rfl, rfl⟩⟩

/-- A file that appears between the first reindex and the arming of the watcher
is not: the loop waits for another event, and the index lacks the file. -/
theorem watch_misses_late_change : ∃ s s' : WatchState, s.Starts ∧
    WatchRun oneFileWalker .plain oneFileEmbedder "/old".toList (fun _ _ => True) s s' ∧
    s'.Idle ∧ ¬ s'.Seen oneFileWalker := by
  have happears : WatchStep oneFileWalker .plain oneFileEmbedder "/old".toList
      ⟨fun _ => none, firstDb emptyView, some emptyView, [], .arming⟩
      (.change "a".toList (some "a\n".toList))
      ⟨oneFileTree, firstDb emptyView, some emptyView, [], .arming⟩ :=
    .change _ "a".toList (some "a\n".toList) .create rfl
  have harm : WatchStep oneFileWalker .plain oneFileEmbedder "/old".toList
      ⟨oneFileTree, firstDb emptyView, some emptyView, [], .arming⟩ .other
      ⟨oneFileTree, firstDb emptyView, some emptyView, [], .receiving⟩ := .arm _ rfl
  have hfirst : WatchRun oneFileWalker .plain oneFileEmbedder "/old".toList (fun _ _ => True)
      watchStart ⟨fun _ => none, firstDb emptyView, some emptyView, [], .arming⟩ :=
    watch_first (fun _ => trivial) (fun _ => none) emptyView ⟨0, 0, 0, true⟩
      ⟨rfl, by decide +kernel⟩ (by decide +kernel)
  refine ⟨watchStart, _, ⟨rfl, rfl, rfl⟩, (hfirst.tail ⟨_, happears, by simp, trivial⟩).tail
    ⟨.other, harm, by simp, trivial⟩, ⟨rfl, rfl⟩, ?_⟩
  rintro ⟨view, hlast, hfiles⟩
  have hview : view = emptyView := (Option.some.inj hlast).symm
  rw [hview] at hfiles
  revert hfiles
  decide +kernel

end CodeSearch
