import CodeSearch.Rebuild

/-!
# One index, several roots

The database lies inside the indexed directory, so it can be reached under
different roots over its life, and each root has its own `repo_id`.  Deleted
files and unchanged files are found by `repo_id`, while rows are deleted by path
alone: an incremental run does not see what was indexed under another root.

`Undisturbed r rs` says that this does not matter for run `r` after the runs
`rs`: what the previous run indexed and `r` does not walk was recorded under
`r`'s root, and what is recorded under `r`'s root with an unchanged hash is what
the previous run indexed.  Runs that are all undisturbed leave the rows of their
trees (`holdsTree_of_undisturbed`), and one that is not, after such runs, does
not (`undisturbed_of_holdsTree`).
-/

namespace CodeSearch

open Relational Store

variable (D : Deps) (e : Embedder)

/-! ## Runs under several roots -/

/-- A run: what it reads, and whether it is full. -/
structure RootRun where
  view : RepoView
  force : Bool

def RootRun.repoId (r : RootRun) : Text := repoIdFor D r.view.canonicalRoot

/-- The databases successful runs lead to, newest run first. -/
inductive Runs : List RootRun → Db → Prop
  | fresh (m : MetaTable) : Runs [] (Index.fresh e.dim m).toDb
  | run {rs : List RootRun} {db db' : Db} (r : RootRun) (report : ReindexReport) : Runs rs db →
      (r.view.walked.map (·.relPath)).Nodup →
      Finishes engine anyOutcome (reindexWith D r.view r.force e) db (.ok report) db' →
      Runs (r :: rs) db'

/-- The tree of the newest run. -/
def lastTree : List RootRun → List WalkedFile
  | [] => []
  | r :: _ => r.view.walked

/-- The hash of a path in the newest tree of a repository since the last full run. -/
def recordedHash (repoId path : Text) : List RootRun → Option Text
  | [] => none
  | r :: rs =>
    if r.repoId D = repoId then
      (r.view.walked.find? fun f => f.relPath = path).map fun f => f.hash D
    else if r.force then none
    else recordedHash repoId path rs

/-- The rows of a path of a tree; none when its file cannot be indexed. -/
def treeRows (files : List WalkedFile) (path : Text) : Option PathRows :=
  match files.find? fun f => f.relPath = path with
  | some f => fileRows D e f
  | none => some .empty

/-- An incremental run `r` after `rs` finds what the runs of other roots did. -/
structure Undisturbed (r : RootRun) (rs : List RootRun) : Prop where
  removed : ∀ p, p ∉ r.view.walked.map (·.relPath) → recordedHash D (r.repoId D) p rs = none →
    treeRows D e (lastTree rs) p = some .empty
  skipped : ∀ f ∈ r.view.walked, recordedHash D (r.repoId D) f.relPath rs = some (f.hash D) →
    treeRows D e (lastTree rs) f.relPath = fileRows D e f

/-- Every incremental run was undisturbed. -/
def AllUndisturbed : List RootRun → Prop
  | [] => True
  | r :: rs => (r.force = false → Undisturbed D e r rs) ∧ AllUndisturbed rs

variable {D e}

/-! ## What the runs record -/

theorem find?_relPath {files : List WalkedFile} (hd : (files.map (·.relPath)).Nodup) {p : Text}
    {f : WalkedFile} : files.find? (fun f => f.relPath = p) = some f ↔ f ∈ files ∧ f.relPath = p := by
  constructor
  · intro h
    exact ⟨List.mem_of_find?_eq_some h, by simpa using List.find?_some h⟩
  · rintro ⟨hf, rfl⟩
    cases hg : files.find? fun g => decide (g.relPath = f.relPath) with
    | none =>
      rw [List.find?_eq_none] at hg
      exact absurd (decide_eq_true rfl) (hg f hf)
    | some g =>
      have hp : g.relPath = f.relPath := by simpa using List.find?_some hg
      rw [List.inj_on_of_nodup_map hd (List.mem_of_find?_eq_some hg) hf hp]

theorem find?_relPath_none {files : List WalkedFile} {p : Text} :
    files.find? (fun f => f.relPath = p) = none ↔ p ∉ files.map (·.relPath) := by
  rw [List.find?_eq_none, List.mem_map]
  constructor
  · rintro h ⟨f, hf, hp⟩
    exact h f hf (decide_eq_true hp)
  · intro h f hf hp
    exact h ⟨f, hf, of_decide_eq_true hp⟩

theorem recordedHash_placeholder (p : Text) (rs : List RootRun) :
    recordedHash D migrationPlaceholderRepoId p rs = none := by
  induction rs with
  | nil => rfl
  | cons r rs ih =>
    have hne : r.repoId D ≠ migrationPlaceholderRepoId := repoIdFor_ne_placeholder D _
    unfold recordedHash
    rw [if_neg hne]
    split
    · rfl
    · exact ih

/-- What is stored is what the runs record. -/
structure Recorded (rs : List RootRun) (ix : Index) : Prop where
  bound : ix.Bound
  stored : ∀ R p, ix.stored R p = recordedHash D R p rs

/-- No placeholder row is left, so the rewrite changes nothing. -/
theorem Recorded.rewritten {rs : List RootRun} {ix ix₁ : Index} {repoId : Text}
    (h : Recorded (D := D) rs ix) (hr : Rewritten repoId ix ix₁) : ix₁ = ix := by
  refine hr.eq_self fun r hrow hp => ?_
  have hst : ix.stored r.repoId r.path = some r.blake3Hash :=
    Index.stored_eq_some.2 ⟨r, hrow, rfl, rfl, rfl⟩
  rw [hp, h.stored, recordedHash_placeholder] at hst
  cases hst

theorem Rebuilt.stored {repoId : Text} {mtime : Text → Int} {files : List WalkedFile} {width : Nat}
    {ix : Index} (h : Rebuilt D e repoId mtime files width ix)
    (hd : (files.map (·.relPath)).Nodup) (R p : Text) :
    ix.stored R p = if repoId = R then (files.find? fun f => f.relPath = p).map fun f => f.hash D
      else none := by
  refine Option.ext fun hash => ?_
  rw [Index.stored_eq_some]
  constructor
  · rintro ⟨r, hr, rfl, rfl, rfl⟩
    obtain ⟨f, hf, rfl⟩ := (h.filesRows r).1 hr
    refine (if_pos rfl).trans ?_
    exact Option.map_eq_some_iff.2 ⟨f, (find?_relPath hd).2 ⟨hf, rfl⟩, rfl⟩
  · intro hs
    by_cases hR : repoId = R
    · rw [if_pos hR] at hs
      obtain ⟨f, hf, rfl⟩ := Option.map_eq_some_iff.1 hs
      obtain ⟨hf, hp⟩ := (find?_relPath hd).1 hf
      exact ⟨_, (h.filesRows _).2 ⟨f, hf, rfl⟩, hp, hR, rfl⟩
    · rw [if_neg hR] at hs
      cases hs

theorem Diffed.stored {repoId : Text} {view : RepoView} {ix ix' : Index}
    (h : Diffed D e repoId view ix ix') (hd : (view.walked.map (·.relPath)).Nodup) (R p : Text) :
    ix'.stored R p = if repoId = R then
        (view.walked.find? fun f => f.relPath = p).map fun f => f.hash D
      else ix.stored R p := by
  by_cases hR : repoId = R
  · subst hR
    rw [if_pos rfl]
    cases hf : view.walked.find? fun f => f.relPath = p with
    | none => exact h.unlisted p (find?_relPath_none.1 hf)
    | some f =>
      obtain ⟨hmem, rfl⟩ := (find?_relPath hd).1 hf
      exact h.recorded f hmem
  · rw [if_neg hR]
    exact h.foreign R (fun he => hR he.symm) p

/-! ## One run -/

theorem HoldsTree.treeRows {files : List WalkedFile} {ix : Index} (h : HoldsTree D e files ix)
    (p : Text) : treeRows D e files p = some (ix.rowsOf p) := by
  unfold CodeSearch.treeRows
  cases hf : files.find? fun f => f.relPath = p with
  | none => rw [h.outside p (find?_relPath_none.1 hf)]
  | some f =>
    have hp : f.relPath = p := by simpa using List.find?_some hf
    rw [← hp]
    exact h.rows f (List.mem_of_find?_eq_some hf)

/-- A successful incremental run after recorded runs: its diff, and what it redid. -/
theorem Recorded.diffed {allow : Req Stmt → Outcome RowId SqlError → Db → Txn Db → Prop}
    {rs : List RootRun} {ix : Index} (h : Recorded (D := D) rs ix) {view : RepoView}
    (hd : (view.walked.map (·.relPath)).Nodup) {report : ReindexReport} {db' : Db}
    (hf : Finishes engine allow (reindexWith D view false e) ix.toDb (.ok report) db') :
    ∃ (ix' : Index) (m : MetaTable) (redone : List WalkedFile), db' = ix'.toDb ∧
      Diffed D e (repoIdFor D view.canonicalRoot) view { ix with metaRows := m } ix' ∧
      Reprocessing D (repoIdFor D view.canonicalRoot)
        (Answered (repoIdFor D view.canonicalRoot) allow) view.walked report.filesIndexed ix ix'
        redone := by
  obtain ⟨ix', rfl, ix₁, m, redone, hrw, hrun, hn⟩ :=
    yields_finishes (yields_reindexWith_incremental D e h.bound) hf
  have hix := h.rewritten hrw
  subst hix
  exact ⟨ix', m, redone, rfl, diffed_of_diffRun D e _ hd
    ⟨h.bound.vec, h.bound.fts, h.bound.symbols⟩ hrun, hrun.reprocessing hd hn⟩

/-- An undisturbed incremental run leaves the rows of its tree. -/
theorem Diffed.holdsTree_of_undisturbed {r : RootRun} {rs : List RootRun} {ix ix' : Index}
    {m : MetaTable} (h : Diffed D e (r.repoId D) r.view { ix with metaRows := m } ix')
    (hrec : Recorded (D := D) rs ix) (hlast : HoldsTree D e (lastTree rs) ix)
    (hu : Undisturbed D e r rs) : HoldsTree D e r.view.walked ix' := by
  refine ⟨h.bound, fun p hp => ?_, fun f hf => ?_⟩
  · by_cases hs : ix.stored (r.repoId D) p = none
    · have hempty := hu.removed p hp (by rw [← hrec.stored]; exact hs)
      rw [hlast.treeRows] at hempty
      exact (h.kept p hp hs).trans (Option.some.inj hempty)
    · exact h.dropped p hp hs
  · rcases h.rows f hf with hrows | ⟨hs, hrows⟩
    · exact hrows
    · have hsame := hu.skipped f hf (by rw [← hrec.stored]; exact hs)
      rw [hlast.treeRows] at hsame
      rw [hrows]
      exact hsame.symm

/-- An incremental run whose lookups are answered and that leaves the rows of its
tree was undisturbed. -/
theorem undisturbed_of_holdsTree {r : RootRun} {rs : List RootRun} {ix ix' : Index}
    {m : MetaTable} {A : Text → Prop} {n : Nat} {redone : List WalkedFile} (hA : ∀ p, A p)
    (h : Diffed D e (r.repoId D) r.view { ix with metaRows := m } ix')
    (hre : Reprocessing D (r.repoId D) A r.view.walked n ix ix' redone)
    (hrec : Recorded (D := D) rs ix) (hlast : HoldsTree D e (lastTree rs) ix)
    (ht : HoldsTree D e r.view.walked ix') : Undisturbed D e r rs := by
  refine ⟨fun p hp hs => ?_, fun f hf hs => ?_⟩
  · rw [← hrec.stored] at hs
    have hkept := h.kept p hp hs
    rw [ht.outside p hp] at hkept
    rw [hlast.treeRows, hkept]
    rfl
  · rw [← hrec.stored] at hs
    have hnot : f ∉ redone := fun hmem => hre.missed f hmem (hA _) hs
    have hrows := (hre.untouched f hf hnot).1
    rw [hlast.treeRows, ← hrows]
    exact (ht.rows f hf).symm

/-! ## All runs -/

theorem Runs.nodup {r : RootRun} {rs : List RootRun} {db : Db} (h : Runs D e (r :: rs) db) :
    (r.view.walked.map (·.relPath)).Nodup := by
  cases h with
  | run r report _ hd _ => exact hd

theorem Runs.recorded {rs : List RootRun} {db : Db} (h : Runs D e rs db) :
    ∃ ix : Index, db = ix.toDb ∧ Recorded (D := D) rs ix := by
  induction h with
  | fresh m => exact ⟨_, rfl, Index.bound_fresh e.dim m, fun _ _ => rfl⟩
  | @run rs db db' r report _ hd hf ih =>
    obtain ⟨ix, rfl, hrec⟩ := ih
    cases hforce : r.force with
    | true =>
      rw [hforce] at hf
      obtain ⟨ix', rfl, hreb, -⟩ := yields_finishes (yields_reindexWith_force D e hd) hf
      refine ⟨ix', rfl, hreb.bound, fun R p => ?_⟩
      rw [hreb.stored hd, recordedHash, hforce]
      rfl
    | false =>
      rw [hforce] at hf
      obtain ⟨ix', m, redone, rfl, hdiff, -⟩ := hrec.diffed hd hf
      refine ⟨ix', rfl, hdiff.bound, fun R p => ?_⟩
      rw [hdiff.stored hd, recordedHash, hforce, ← hrec.stored]
      rfl

/-- Runs that are all undisturbed leave the rows of the newest tree. -/
theorem holdsTree_of_undisturbed {rs : List RootRun} {db : Db} (h : Runs D e rs db)
    (hall : AllUndisturbed D e rs) : ∃ ix : Index, db = ix.toDb ∧ HoldsTree D e (lastTree rs) ix := by
  induction h with
  | fresh m => exact ⟨_, rfl, Index.bound_fresh e.dim m, fun _ _ => rfl, fun f hf => by cases hf⟩
  | @run rs db db' r report hruns hd hf ih =>
    obtain ⟨hu, hall⟩ := hall
    obtain ⟨ix, rfl, hlast⟩ := ih hall
    obtain ⟨ix₀, heq, hrec⟩ := hruns.recorded
    have := Index.toDb_inj.1 heq
    subst this
    cases hforce : r.force with
    | true =>
      rw [hforce] at hf
      obtain ⟨ix', rfl, hreb, -⟩ := yields_finishes (yields_reindexWith_force D e hd) hf
      exact ⟨ix', rfl, hreb.holdsTree⟩
    | false =>
      rw [hforce] at hf
      obtain ⟨ix', m, redone, rfl, hdiff, -⟩ := hrec.diffed hd hf
      exact ⟨ix', rfl, hdiff.holdsTree_of_undisturbed hrec hlast (hu hforce)⟩

theorem Runs.lastTree_nodup {rs : List RootRun} {db : Db} (h : Runs D e rs db) :
    ((lastTree rs).map (·.relPath)).Nodup := by
  cases rs with
  | nil => exact List.nodup_nil
  | cons r rs => exact h.nodup

/-- After undisturbed runs the index has the rows a full run of the newest tree
leaves in a fresh index; a further incremental run leaves those of its own tree
exactly when it is undisturbed. -/
theorem runs_rebuild_iff_undisturbed (D : Deps) (e : Embedder) (rs : List RootRun) (db : Db)
    (h : Runs D e rs db) (hall : AllUndisturbed D e rs) :
    (∃ ix : Index, db = ix.toDb ∧ HoldsTree D e (lastTree rs) ix ∧
      ∀ (full : RepoView) (m : MetaTable), full.walked = lastTree rs →
        (∃ report db'', Finishes engine noFault (reindexWith D full true e)
          (Index.fresh e.dim m).toDb (.ok report) db'') ∧
        ∀ allow report db'', Finishes engine allow (reindexWith D full true e)
          (Index.fresh e.dim m).toDb (.ok report) db'' →
          ∃ ix'' : Index, db'' = ix''.toDb ∧ SameRows ix ix'') ∧
    ∀ (view : RepoView) (report : ReindexReport) (db' : Db),
      (view.walked.map (·.relPath)).Nodup →
      Finishes engine noFault (reindexWith D view false e) db (.ok report) db' →
      ((∃ ix' : Index, db' = ix'.toDb ∧ HoldsTree D e view.walked ix') ↔
        Undisturbed D e ⟨view, false⟩ rs) := by
  obtain ⟨ix, rfl, htree⟩ := holdsTree_of_undisturbed h hall
  constructor
  · refine ⟨ix, rfl, htree, fun full m hwalked => ⟨?_, ?_⟩⟩
    · have hi : Indexable D full.walked := by
        rw [hwalked]
        exact htree.indexable h.lastTree_nodup
      have hs : Succeeds (reindexWith D full true e) (Index.fresh e.dim m) fun _ _ => True :=
        succeeds_reindexWith_force D e hi rfl rfl
      obtain ⟨report, ix'', hfin, -⟩ := succeeds_finishes hs
      exact ⟨report, _, hfin⟩
    · intro allow report db'' hfull
      have hpaths : (full.walked.map (·.relPath)).Nodup := by
        rw [hwalked]
        exact h.lastTree_nodup
      obtain ⟨ix'', rfl, hreb, -⟩ := yields_finishes (yields_reindexWith_force D e hpaths) hfull
      rw [hwalked] at hreb
      exact ⟨ix'', rfl, htree.sameRows hreb.holdsTree⟩
  · intro view report db' hd hf
    obtain ⟨ix₀, heq, hrec⟩ := h.recorded
    have := Index.toDb_inj.1 heq
    subst this
    obtain ⟨ix', m, redone, rfl, hdiff, hre⟩ := hrec.diffed hd hf
    have answered : ∀ p, Answered (repoIdFor D view.canonicalRoot) noFault p :=
      fun p o c t ho => ho
    constructor
    · rintro ⟨ix'', heq', ht⟩
      have := Index.toDb_inj.1 heq'
      subst this
      exact undisturbed_of_holdsTree (r := ⟨view, false⟩) answered hdiff hre hrec htree ht
    · intro hu
      exact ⟨ix', rfl, hdiff.holdsTree_of_undisturbed (r := ⟨view, false⟩) hrec htree hu⟩

/-! ## A repository that is moved -/

def oldRun : RootRun := ⟨oneFileView, true⟩

/-- The moved directory, its file edited. -/
def movedRun : RootRun := ⟨plainView "/new".toList [("a".toList, "b\n".toList)], false⟩

/-- The moved directory, its file replaced by another. -/
def replacedRun : RootRun := ⟨plainView "/new".toList [("b".toList, "b\n".toList)], false⟩

theorem runs_oldRun : Runs .plain oneFileEmbedder [oldRun] indexedDb := by
  have hfin : Finishes engine anyOutcome (reindexWith .plain oneFileView true oneFileEmbedder)
      (Index.fresh oneFileEmbedder.dim .empty).toDb (.ok ⟨1, 1, 0, false⟩) indexedDb :=
    finishes_replay (fun o (_ : o ∈ succeed 24) _ _ _ => trivial) (by decide +kernel)
  exact .run oldRun _ (.fresh .empty) (by decide) hfin

theorem undisturbed_movedRun : Undisturbed .plain oneFileEmbedder movedRun [oldRun] where
  removed p hp _ := by
    have hne : ¬ "a".toList = p := fun h => hp (by rw [← h]; decide)
    have hnone : oneFileView.walked.find? (fun f => f.relPath = p) = none :=
      find?_relPath_none.2 (by simpa [oneFileView, plainView, eq_comm] using hne)
    show treeRows .plain oneFileEmbedder oneFileView.walked p = _
    unfold treeRows
    rw [hnone]
  skipped f hf hs := by
    have hother : oldRun.repoId .plain ≠ movedRun.repoId .plain := by decide +kernel
    unfold recordedHash at hs
    rw [if_neg hother] at hs
    cases hs

theorem allUndisturbed_oldRun : AllUndisturbed .plain oneFileEmbedder [oldRun] :=
  ⟨fun h => absurd h (by decide), trivial⟩

/-- Moving the directory and editing its file does no harm. -/
theorem runs_rebuild_moved : ∃ report db', Runs .plain oneFileEmbedder [movedRun, oldRun] db' ∧
    Finishes engine noFault (reindexWith .plain movedRun.view false oneFileEmbedder) indexedDb
      (.ok report) db' ∧
    ∃ ix' : Index, db' = ix'.toDb ∧ HoldsTree .plain oneFileEmbedder movedRun.view.walked ix' := by
  have hfin : Finishes engine noFault (reindexWith .plain movedRun.view false oneFileEmbedder)
      indexedDb (.ok ⟨1, 1, 0, true⟩) _ :=
    finishes_replay (fun o (ho : o ∈ succeed 30) _ _ _ => ⟨7, List.eq_of_mem_replicate ho⟩)
      (by decide +kernel)
  have hany := hfin
  obtain ⟨p', t', hrun, hr⟩ := hany
  refine ⟨_, _, .run movedRun _ runs_oldRun (by decide)
    ⟨p', t', hrun.mono fun _ _ _ _ _ => trivial, hr⟩, hfin, ?_⟩
  exact ((runs_rebuild_iff_undisturbed .plain oneFileEmbedder _ _ runs_oldRun
    allUndisturbed_oldRun).2 _ _ _ (by decide) hfin).2 undisturbed_movedRun

/-- Two successful runs under two roots: the second walks only `b`, and the
chunk of `a` is still there. -/
theorem runs_keep_removed_file : ∃ db',
    Runs .plain oneFileEmbedder [replacedRun, oldRun] db' ∧
    (db'.chunks.map fun c => c.table.rows.map (·.filePath)) = some ["a".toList, "b".toList] ∧
    "a".toList ∉ replacedRun.view.walked.map (·.relPath) := by
  have hfin : Finishes engine anyOutcome
      (reindexWith .plain replacedRun.view false oneFileEmbedder) indexedDb
      (.ok ⟨1, 1, 0, true⟩) _ :=
    finishes_replay (fun o (_ : o ∈ (succeed 30).map fun _ => .run 8) _ _ _ => trivial)
      (by decide +kernel)
  exact ⟨_, .run replacedRun _ runs_oldRun (by decide) hfin, by decide +kernel, by decide⟩

end CodeSearch
