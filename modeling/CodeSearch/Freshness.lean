import CodeSearch.Answers
import CodeSearch.SearchReads
import CodeSearch.Watch

/-!
# What a search finds beside a watch

`handle_change` opens the database, migrates it and runs an incremental reindex; wherever it
fails or dies it leaves the rows of a coherent index, in as many tables as there are by then
(`Kept`).  So a later one that returns brings in the whole tree that it walked.

When the loop waits with an empty queue, and no reindex failed since the event that woke it
up last, the index is that of the files as they are, and every hit of every search is about
one of them as it is (`watched_hits`).
-/

namespace CodeSearch

open Relational Store

/-! ## A reindex on a connection of its own -/

variable {D : Deps} {e : Embedder} {repoId root : Text}

section
variable {ix ix' : Index}

/-- The invariant is about the rows. -/
theorem Coherent.sameData {ok : WalkedFile → Prop} (h : Coherent D e ok repoId ix)
    (hd : SameData ix.toDb ix'.toDb) : Coherent D e ok repoId ix' := by
  rw [index_of_sameData hd]
  exact ⟨⟨h.bound.vec, h.bound.fts, h.bound.symbols⟩, h.repo, h.listed, h.unlisted⟩

end

variable (D e repoId) in
/-- The rows of a coherent index; tables may still be missing. -/
structure Kept (c : Db) : Prop where
  filesNew : c.filesNew = none
  rows : ∃ ix : Index, SameData ix.toDb c ∧ Coherent D e LanguageOfPath repoId ix

section
variable {c c' : Db} {view : RepoView}

theorem IsCoherent.kept (h : IsCoherent D e LanguageOfPath repoId c) : Kept D e repoId c := by
  obtain ⟨ix, rfl, hix⟩ := h
  exact ⟨rfl, ix, .refl _, hix⟩

theorem kept_empty : Kept D e repoId .empty :=
  ⟨rfl, .empty 0, ⟨rfl, rfl, rfl, rfl, rfl, rfl, rfl, rfl⟩, coherent_empty 0⟩

theorem Kept.schema (h : Kept D e repoId c) (hg : Grows c c') (hd : SameData c c') :
    Kept D e repoId c' := by
  obtain ⟨ix, hix, hcoherent⟩ := h.rows
  exact ⟨hg.filesNew h.filesNew, ix, hix.trans hd, hcoherent⟩

/-- Opened and migrated, it is a coherent index. -/
theorem Kept.migrated (h : Kept D e repoId c)
    (hf : Finishes engine anyOutcome (openAndMigrate e.dim) c (.ok ()) c') :
    IsCoherent D e LanguageOfPath repoId c' := by
  obtain ⟨ix, hix, hcoherent⟩ := h.rows
  obtain ⟨ix', rfl, -⟩ := index_openAndMigrate h.filesNew hf
  exact ⟨ix', rfl, hcoherent.sameData (hix.trans (crash_openAndMigrate hf.crash).2)⟩

/-- A schema program in a context, run alone. -/
theorem run_schema {text : String} {p : Sql Unit} {q : Sql Unit} {t : Txn Db}
    {P : Unit → Db → Txn Db → Prop}
    (hret : Returns engine (migratingAlone anyOutcome) False p c .idle P)
    (h : Run engine anyOutcome (withContext text p) c .idle q c' t) : Grows c c' ∧ SameData c c' ∧
      (∀ u, q = .pure u → P u c' t ∧ Run engine anyOutcome p c .idle (.pure u) c' t) := by
  obtain ⟨p', hp', rfl⟩ := run_mapError h
  obtain ⟨hg, hd⟩ := crash_schema hret ⟨p', t, hp'⟩
  refine ⟨hg, hd, fun u hu => ?_⟩
  rw [Prog.mapError_eq_pure hu] at hp'
  exact ⟨(wp_run (U := migratingAlone anyOutcome) hret hp').1.1 u rfl, hp'⟩

/-- A `handle_change` is opening or migrating, or it is in its reindex. -/
theorem run_handleChange {q : Sql ReindexReport} {t : Txn Db}
    (h : Run engine anyOutcome (handleChange D e view) c .idle q c' t) :
    (q.value? = none ∧ Grows c c' ∧ SameData c c') ∨
      ∃ c₂ q', Finishes engine anyOutcome (openAndMigrate e.dim) c (.ok ()) c₂ ∧
        Run engine anyOutcome (reindexWith D view false e) c₂ .idle q' c' t ∧
        q = q'.mapError (.context "reindex".toList) := by
  have rules : MigrationRules (migratingAlone anyOutcome) False :=
    { migrationRules_alone anyOutcome with benign := False.elim, kind := False.elim }
  rcases run_bind h with ⟨p', hp', hq⟩ | ⟨u, c₁, t₁, hopen, h⟩
  · obtain ⟨hg, hd, -⟩ := run_schema (returns_openDbWith rules e.dim) hp'
    exact .inl ⟨hq, hg, hd⟩
  · obtain ⟨hg, hd, hopened⟩ := run_schema (returns_openDbWith rules e.dim) hopen
    obtain ⟨⟨rfl, -⟩, hopen⟩ := hopened u rfl
    rcases run_bind h with ⟨p', hp', hq⟩ | ⟨v, c₂, t₂, hmigrate, h⟩
    · obtain ⟨hg', hd', -⟩ := run_schema (returns_migrate rules False.elim) hp'
      exact .inl ⟨hq, hg.trans hg', hd.trans hd'⟩
    · obtain ⟨-, -, hmigrated⟩ := run_schema (returns_migrate rules False.elim) hmigrate
      obtain ⟨⟨rfl, -⟩, hmigrate⟩ := hmigrated v rfl
      obtain ⟨q', hq', rfl⟩ := run_mapError h
      exact .inr ⟨c₂, q', ⟨_, _, hopen.bind hmigrate, rfl⟩, hq', rfl⟩

/-- Wherever it stops, no row is lost. -/
theorem Kept.stopped (h : Kept D e (repoIdFor D view.canonicalRoot) c)
    (hlanguage : ∀ f ∈ view.walked, LanguageOfPath f)
    (hc : Crash engine anyOutcome (handleChange D e view) c c') :
    Kept D e (repoIdFor D view.canonicalRoot) c' := by
  obtain ⟨q, t, hrun⟩ := hc
  rcases run_handleChange hrun with ⟨-, hg, hd⟩ | ⟨c₂, q', hopened, hreindex, -⟩
  · exact h.schema hg hd
  · exact (keeps_crash (keeps_reindexWith view false hlanguage) ⟨q', t, hreindex⟩
      (h.migrated hopened)).kept

/-- When it returns, the index holds the tree that it walked. -/
theorem Kept.returned (h : Kept D e (repoIdFor D view.canonicalRoot) c) (hv : ValidTree view.walked)
    (hinj : NoCollision D view.walked) {report : ReindexReport}
    (hf : Finishes engine anyOutcome (handleChange D e view) c (.ok report) c') :
    ∃ ix : Index, c' = ix.toDb ∧ HoldsTree D e view.walked ix := by
  obtain ⟨q, t, hrun, hq⟩ := hf
  rw [Prog.eq_pure_of_result? hq] at hrun
  rcases run_handleChange hrun with ⟨hnone, -⟩ | ⟨c₂, q', hopened, hreindex, heq⟩
  · cases hnone
  · rw [Prog.mapError_eq_pure heq.symm] at hreindex
    exact holdsTree_of_coherent (h.migrated hopened) hv (fun _ => hinj) ⟨_, t, hreindex, rfl⟩

end

/-! ## The loop -/

section
variable {W : Walker} {s s' : WatchState} {a : WatchAction}

/-- The last reindex that returned is what the index holds. -/
def WatchState.Holds (D : Deps) (e : Embedder) (s : WatchState) : Prop :=
  ∀ view, s.last = some view → NoCollision D view.walked →
    ∃ ix : Index, s.db = ix.toDb ∧ HoldsTree D e view.walked ix

/-- No step loses rows. -/
theorem kept_step (hvalid : ∀ tree, ValidTree (W.files tree)) (h : Kept D e (repoIdFor D root) s.db)
    (hstep : WatchStep W D e root s a s') : Kept D e (repoIdFor D root) s'.db := by
  have hcrash : ∀ {walk view db}, ViewOf W root walk view →
      Crash engine anyOutcome (handleChange D e view) s.db db → Kept D e (repoIdFor D root) db := by
    intro walk view db hview hc
    have hroot := hview.canonicalRoot
    subst hroot
    refine h.stopped (fun f hf => ?_) hc
    rw [hview.walked] at hf
    exact (hvalid _).language f hf
  cases hstep with
  | indexed walk view db report _ _ hview hf => exact hcrash hview hf.crash
  | indexFailed walk view db err _ hview hf => exact hcrash hview hf.crash
  | reindexed walk view db report _ _ hview hf => exact hcrash hview hf.crash
  | reindexFailed walk view db err _ hview hf => exact hcrash hview hf.crash
  | _ => exact h

/-- Where the index is that of the last walk. -/
def WatchControl.rests : WatchControl → Bool
  | .arming | .receiving => true
  | .initial _ | .draining | .reindexing _ | .stopped => false

theorem holds_step (hvalid : ∀ tree, ValidTree (W.files tree)) (hkept : Kept D e (repoIdFor D root) s.db)
    (h : s.control.rests = true → s.Holds D e) (hstep : WatchStep W D e root s a s')
    (ha : a ≠ .failed) (hrests : s'.control.rests = true) : s'.Holds D e := by
  have hreturned : ∀ {walk view db report}, ViewOf W root walk view →
      Finishes engine anyOutcome (handleChange D e view) s.db (.ok report) db →
      NoCollision D view.walked → ∃ ix : Index, db = ix.toDb ∧ HoldsTree D e view.walked ix := by
    intro walk view db report hview hf hinj
    have hroot := hview.canonicalRoot
    subst hroot
    refine hkept.returned ?_ hinj hf
    rw [hview.walked]
    exact hvalid _
  cases hstep with
  | indexed walk view db report _ _ hview hf =>
    rintro _ ⟨⟩
    exact hreturned hview hf
  | reindexed walk view db report _ _ hview hf =>
    rintro _ ⟨⟩
    exact hreturned hview hf
  | indexFailed => exact absurd rfl ha
  | reindexFailed => exact absurd rfl ha
  | change => exact h hrests
  | noise => exact h hrests
  | lookFirst walk picked hc => cases hrests
  | arm hc => exact h (by rw [hc]; rfl)
  | recv ev rest hc hq => exact h (by rw [hc]; rfl)
  | drain ev rest hc hq => exact h hrests
  | quiet hc hq => cases hrests
  | look walk picked hc => cases hrests
  | disconnect hc => cases hrests

/-- Any run of the loop, failures included. -/
def AnyWatchRun (W : Walker) (D : Deps) (e : Embedder) (root : Text) : WatchState → WatchState → Prop :=
  Relation.ReflTransGen fun s s' => ∃ a, WatchStep W D e root s a s'

theorem kept_run (hvalid : ∀ tree, ValidTree (W.files tree)) (h₀ : Kept D e (repoIdFor D root) s.db)
    (h : AnyWatchRun W D e root s s') : Kept D e (repoIdFor D root) s'.db := by
  induction h with
  | refl => exact h₀
  | tail _ hstep ih =>
    obtain ⟨a, hs⟩ := hstep
    exact kept_step hvalid ih hs

/-- Where no reindex fails, what was kept, tracked and held stays so. -/
theorem fresh_run (hvalid : ∀ tree, ValidTree (W.files tree)) (hkept : Kept D e (repoIdFor D root) s.db)
    (htracked : s.Tracked W) (hholds : s.control.rests = true → s.Holds D e)
    (h : WatchRun W D e root Timely s s') : Kept D e (repoIdFor D root) s'.db ∧ s'.Tracked W ∧
      (s'.control.rests = true → s'.Holds D e) := by
  induction h with
  | refl => exact ⟨hkept, htracked, hholds⟩
  | tail _ hstep ih =>
    obtain ⟨a, hs, ha, ht⟩ := hstep
    obtain ⟨hkept, htracked, hholds⟩ := ih
    exact ⟨kept_step hvalid hkept hs, tracked_step htracked hs ha ht, holds_step hvalid hkept hholds hs ha⟩

end

/-- A watch, on a new database or one with any history, starts or has just been woken up, whatever
went wrong before.  Reindexes return from then on, and until the watcher is armed changes are timely:
when the loop waits with an empty queue, the index holds the files as they are, and every hit
of every search is about one of them. -/
theorem watched_hits (W : Walker) (hvalid : ∀ tree, ValidTree (W.files tree)) (D : Deps)
    (parse : TreeSitter) (e : QueryEmbedder) (root : Text) {s₀ s s' : WatchState} (h₀ : s₀.Starts)
    (hdb : s₀.db = .empty ∨ History (D.parsing parse) e.toEmbedder root s₀.db)
    (hbefore : AnyWatchRun W (D.parsing parse) e.toEmbedder root s₀ s)
    (hwoken : s = s₀ ∨ s.control = .draining)
    (h : WatchRun W (D.parsing parse) e.toEmbedder root Timely s s') (hidle : s'.Idle)
    (hinj : NoCollision D (W.files s'.tree)) (hwalk : ∀ f ∈ W.files s'.tree, Walkable f.content) :
    (∃ ix : Index, s'.db = ix.toDb ∧
      HoldsTree (D.parsing parse) e.toEmbedder (W.files s'.tree) ix) ∧
    ∀ (F : Type) (hits : List (SearchHit F)), Searches e s'.db hits → ∀ hit ∈ hits,
      ∃ file ∈ W.files s'.tree, s'.tree file.relPath = some file.content ∧ HitOf parse file hit := by
  have hkept₀ : Kept (D.parsing parse) e.toEmbedder (repoIdFor (D.parsing parse) root) s₀.db := by
    rcases hdb with hnew | hold
    · rw [hnew]
      exact kept_empty
    · exact hold.coherent.kept
  have hstart : s.Tracked W ∧ s.control.rests = false := by
    unfold WatchState.Tracked
    rcases hwoken with rfl | hdraining
    · rw [h₀.2.2]
      exact ⟨Scan.current_empty, rfl⟩
    · rw [hdraining]
      exact ⟨trivial, rfl⟩
  obtain ⟨-, htracked, hholds⟩ := fresh_run hvalid (kept_run hvalid hkept₀ hbefore) hstart.1
    (fun hrests => by rw [hstart.2] at hrests; cases hrests) h
  obtain ⟨view, hlast, hview⟩ : s'.Seen W := by
    unfold WatchState.Tracked at htracked
    rw [hidle.1] at htracked
    rcases htracked with ⟨ev, hev, -⟩ | hseen
    · rw [hidle.2] at hev
      cases hev
    · exact hseen
  obtain ⟨ix, hix, htree⟩ := hholds (by rw [hidle.1]; rfl) view hlast (by rw [hview]; exact hinj)
  rw [hview] at htree
  refine ⟨⟨ix, hix, htree⟩, fun F hits hsearch hit hhit => ?_⟩
  rw [hix] at hsearch
  obtain ⟨file, hfile, specs, hspecs, spec, hspec, hshows⟩ := hsearch.shows htree hwalk hit hhit
  exact ⟨file, hfile, W.content _ file hfile, hitOf_shows hspecs hspec hshows⟩

/-! ## A reindex that failed -/

/-- The parser is never asked. -/
def watchedDeps : Deps := Deps.plain.parsing traitParser

/-- After the first reindex, of an empty root. -/
def watchedDb : Db :=
  (replay engine (succeed 80) (handleChange watchedDeps oneFileEmbedder emptyView) .empty .idle).2.1

/-- The file, edited. -/
def editedTree : FileTree := Function.update oneFileTree "a".toList (some "b\n".toList)

/-- The file appeared, its reindex failed, and the file was edited. -/
def wokenState : WatchState := ⟨editedTree, watchedDb, some emptyView, [], .draining⟩

/-- After the reindex that follows. -/
def freshDb : Db :=
  (replay engine (succeed 80) (handleChange watchedDeps oneFileEmbedder editedView) watchedDb .idle).2.1

def freshState : WatchState := ⟨editedTree, freshDb, some editedView, [], .receiving⟩

/-- What a search opens then. -/
def freshIndex : Index :=
  { oneLineIndex "b".toList with metaRows := oneFileIndex.metaRows }

/-- The walk of listed names comes to no path twice. -/
theorem validTree_listing {names : List Text} (hnames : names.Nodup) (tree : FileTree) :
    ValidTree ((Walker.listing names).files tree) where
  paths := by
    have hkey : ∀ p, (((tree p).map fun content => (⟨p, detectLanguage p, content⟩ : WalkedFile)).map
        (·.relPath)) = (tree p).map fun _ => p := fun p => Option.map_map ..
    show (((names.filter fun p => !isIndexPath p).filterMap _).map _).Nodup
    rw [List.map_filterMap]
    simp only [hkey]
    refine (hnames.filter _).filterMap fun p q r hp hq => ?_
    obtain ⟨-, -, rfl⟩ := Option.map_eq_some_iff.1 hp
    obtain ⟨-, -, rfl⟩ := Option.map_eq_some_iff.1 hq
    rfl
  language := by
    intro f hf
    obtain ⟨p, -, hp⟩ := List.mem_filterMap.1 hf
    obtain ⟨content, -, rfl⟩ := Option.map_eq_some_iff.1 hp
    rfl

/-- An event of the file wakes the loop up. -/
theorem file_wakes {tree : FileTree} {db : Db} {last : Option RepoView} {kind : EventKind}
    (hkind : kind.contentChanging = true) :
    WatchStep oneFileWalker watchedDeps oneFileEmbedder "/old".toList
      ⟨tree, db, last, [.event kind ["a".toList]], .receiving⟩ .other ⟨tree, db, last, [], .draining⟩ := by
  have hstep : WatchStep oneFileWalker watchedDeps oneFileEmbedder "/old".toList
      ⟨tree, db, last, [.event kind ["a".toList]], .receiving⟩ .other
      ⟨tree, db, last, [], if relevant (.event kind ["a".toList]) then .draining else .receiving⟩ :=
    .recv _ _ [] rfl rfl
  rwa [if_pos (relevant_change hkind (by decide))] at hstep

theorem woken_after_failure :
    AnyWatchRun oneFileWalker watchedDeps oneFileEmbedder "/old".toList watchStart wokenState := by
  have hlook : WatchStep oneFileWalker watchedDeps oneFileEmbedder "/old".toList watchStart .other
      ⟨fun _ => none, .empty, none, [], .initial (lookAll fun _ => none)⟩ :=
    .lookFirst _ .empty (fun _ => true) rfl
  have hindex : WatchStep oneFileWalker watchedDeps oneFileEmbedder "/old".toList
      ⟨fun _ => none, .empty, none, [], .initial (lookAll fun _ => none)⟩ .other
      ⟨fun _ => none, watchedDb, some emptyView, [], .arming⟩ :=
    .indexed _ (lookAll fun _ => none) emptyView _ ⟨0, 0, 0, true⟩ rfl (fun _ _ => rfl)
      ⟨rfl, by decide +kernel⟩
      (finishes_replay (fun o (_ : o ∈ succeed 80) _ _ _ => trivial) (by decide +kernel))
  have harm : WatchStep oneFileWalker watchedDeps oneFileEmbedder "/old".toList
      ⟨fun _ => none, watchedDb, some emptyView, [], .arming⟩ .other
      ⟨fun _ => none, watchedDb, some emptyView, [], .receiving⟩ := .arm _ rfl
  have happears : WatchStep oneFileWalker watchedDeps oneFileEmbedder "/old".toList
      ⟨fun _ => none, watchedDb, some emptyView, [], .receiving⟩
      (.change "a".toList (some "a\n".toList))
      ⟨oneFileTree, watchedDb, some emptyView, [.event .create ["a".toList]], .receiving⟩ :=
    .change _ "a".toList (some "a\n".toList) .create rfl
  have hreceived : WatchStep oneFileWalker watchedDeps oneFileEmbedder "/old".toList
      ⟨oneFileTree, watchedDb, some emptyView, [.event .create ["a".toList]], .receiving⟩ .other
      ⟨oneFileTree, watchedDb, some emptyView, [], .draining⟩ := file_wakes rfl
  have hquiet : WatchStep oneFileWalker watchedDeps oneFileEmbedder "/old".toList
      ⟨oneFileTree, watchedDb, some emptyView, [], .draining⟩ .other
      ⟨oneFileTree, watchedDb, some emptyView, [], .reindexing .empty⟩ := .quiet _ rfl rfl
  have hfails : WatchStep oneFileWalker watchedDeps oneFileEmbedder "/old".toList
      ⟨oneFileTree, watchedDb, some emptyView, [], .reindexing .empty⟩ .failed
      ⟨oneFileTree, watchedDb, some emptyView, [], .receiving⟩ :=
    .reindexFailed _ .empty emptyView watchedDb _ rfl ⟨rfl, by decide +kernel⟩
      ⟨_, _, run_replay [.fail .busy] (fun _ _ _ _ _ => trivial) _ _ _, rfl⟩
  have hedited : WatchStep oneFileWalker watchedDeps oneFileEmbedder "/old".toList
      ⟨oneFileTree, watchedDb, some emptyView, [], .receiving⟩
      (.change "a".toList (some "b\n".toList))
      ⟨editedTree, watchedDb, some emptyView, [.event .modify ["a".toList]], .receiving⟩ :=
    .change _ "a".toList (some "b\n".toList) .modify rfl
  have hwoken : WatchStep oneFileWalker watchedDeps oneFileEmbedder "/old".toList
      ⟨editedTree, watchedDb, some emptyView, [.event .modify ["a".toList]], .receiving⟩ .other
      wokenState := file_wakes rfl
  exact (((((((((Relation.ReflTransGen.single ⟨_, hlook⟩).tail ⟨_, hindex⟩).tail ⟨_, harm⟩).tail
    ⟨_, happears⟩).tail ⟨_, hreceived⟩).tail ⟨_, hquiet⟩).tail ⟨_, hfails⟩).tail ⟨_, hedited⟩).tail
    ⟨_, hwoken⟩)

theorem fresh_after_woken :
    WatchRun oneFileWalker watchedDeps oneFileEmbedder "/old".toList Timely wokenState freshState := by
  have hquiet : WatchStep oneFileWalker watchedDeps oneFileEmbedder "/old".toList wokenState .other
      ⟨editedTree, watchedDb, some emptyView, [], .reindexing .empty⟩ := .quiet _ rfl rfl
  have hlook : WatchStep oneFileWalker watchedDeps oneFileEmbedder "/old".toList
      ⟨editedTree, watchedDb, some emptyView, [], .reindexing .empty⟩ .other
      ⟨editedTree, watchedDb, some emptyView, [], .reindexing (lookAll editedTree)⟩ :=
    .look _ .empty (fun _ => true) rfl
  have hreindex : WatchStep oneFileWalker watchedDeps oneFileEmbedder "/old".toList
      ⟨editedTree, watchedDb, some emptyView, [], .reindexing (lookAll editedTree)⟩ .other freshState :=
    .reindexed _ (lookAll editedTree) editedView _ ⟨1, 1, 0, true⟩ rfl (fun _ _ => rfl)
      ⟨rfl, by decide +kernel⟩
      (finishes_replay (fun o (_ : o ∈ succeed 80) _ _ _ => trivial) (by decide +kernel))
  exact ((Relation.ReflTransGen.single ⟨.other, hquiet, by simp, trivial⟩).tail
    ⟨.other, hlook, by simp, trivial⟩).tail ⟨.other, hreindex, by simp, trivial⟩

/-- The search finds the file as it is now. -/
theorem watched_hits_edited : ∃ hits : List (SearchHit Rat),
    searchCode plainMachine freshIndex ⟨"a".toList, none, none, none, none, none, none, none⟩ =
      .ok hits ∧ hits.map (fun hit => (hit.id, hit.snippet)) = [("a:1-1".toList, "b".toList)] ∧
    ∀ hit ∈ hits, ∃ file ∈ oneFileWalker.files editedTree,
      editedTree file.relPath = some file.content ∧ HitOf traitParser file hit := by
  have hfiles : oneFileWalker.files editedTree = [⟨"a".toList, none, "b\n".toList⟩] := by
    decide +kernel
  have hinj : NoCollision .plain (oneFileWalker.files editedTree) := by
    rw [hfiles]
    exact noCollision_plain (by decide)
  have hwalk : ∀ f ∈ oneFileWalker.files editedTree, Walkable f.content := by
    rw [hfiles]
    intro f hf
    rw [List.mem_singleton.1 hf]
    exact ⟨by decide +kernel, by decide +kernel⟩
  have hopen : Finishes engine anyOutcome (openIndex plainMachine.embedder) freshDb (.ok ())
      freshIndex.toDb := by
    have hdb : freshIndex.toDb =
        (replay engine (succeed 60) (openIndex plainMachine.embedder) freshDb .idle).2.1 := by
      decide +kernel
    rw [hdb]
    exact finishes_replay (fun o (_ : o ∈ succeed 60) _ _ _ => trivial) (by decide +kernel)
  have hfound : (searchCode plainMachine freshIndex
      ⟨"a".toList, none, none, none, none, none, none, none⟩).toOption.map
        (fun hits => hits.map fun hit => (hit.id, hit.snippet)) =
          some [("a:1-1".toList, "b".toList)] := by decide +kernel
  cases hrun : searchCode plainMachine freshIndex
      ⟨"a".toList, none, none, none, none, none, none, none⟩ with
  | error e =>
    rw [hrun] at hfound
    cases hfound
  | ok hits =>
    rw [hrun] at hfound
    refine ⟨hits, rfl, Option.some.inj hfound, ?_⟩
    exact (watched_hits oneFileWalker (validTree_listing (by decide)) .plain traitParser
      plainMachine.embedder "/old".toList (show watchStart.Starts from ⟨rfl, rfl, rfl⟩) (.inl rfl)
      woken_after_failure (.inr rfl) fresh_after_woken ⟨rfl, rfl⟩ hinj hwalk).2 Rat hits
      (.search plainMachine rfl _ freshIndex hopen hrun)

end CodeSearch
