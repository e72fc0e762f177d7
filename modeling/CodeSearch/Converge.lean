import CodeSearch.SearchReads
import CodeSearch.Lib.Interference

/-!
# Incremental runs beside each other

A watcher and any number of servers may run incremental reindexes of one tree at once.
Each decides file by file, on what it looked up before; in between the others commit files
of their own.  `Advance` is what each of them does to the index, and what all of them rely
on: a file whose hash is recorded stays recorded, and a path that is not in the tree, once
it is unlisted, stays so.

Whichever run returns first, from then on the index holds the tree, whatever the others
still do, and however they fail or die (`concurrent_runs_converge`).
-/

namespace CodeSearch

open Relational Store

/-! ## What a run of the tree does -/

section
variable (D : Deps) (e : Embedder) (repoId : Text) (tree : List WalkedFile)

/-- Recorded files of the tree stay recorded, unlisted paths outside of it stay unlisted. -/
structure Advance (ix ix' : Index) : Prop where
  recorded : ∀ f ∈ tree, ix.stored repoId f.relPath = some (f.hash D) →
    ix'.stored repoId f.relPath = some (f.hash D)
  unlisted : ∀ p, p ∉ tree.map (·.relPath) → ix.stored repoId p = none →
    ix'.stored repoId p = none

/-- The database is a coherent index with `P`. -/
def Knows (P : Index → Prop) (c : Db) : Prop :=
  ∃ ix : Index, c = ix.toDb ∧ Coherent D e LanguageOfPath repoId ix ∧ P ix

/-- A coherent index advances to a coherent one. -/
def Advances (c c' : Db) : Prop := ∀ ix : Index, c = ix.toDb → Coherent D e LanguageOfPath repoId ix →
  Knows D e repoId (Advance D repoId tree ix) c'

/-- What cannot be lost while the index advances. -/
def Lasting (P : Index → Prop) : Prop := ∀ ix ix', Advance D repoId tree ix ix' → P ix → P ix'

end

variable {D : Deps} {e : Embedder} {repoId : Text} {tree : List WalkedFile} {ix ix' ix'' : Index}

theorem Advance.refl (ix : Index) : Advance D repoId tree ix ix := ⟨fun _ _ h => h, fun _ _ h => h⟩

theorem Advance.trans (h : Advance D repoId tree ix ix') (h' : Advance D repoId tree ix' ix'') :
    Advance D repoId tree ix ix'' :=
  ⟨fun f hf hs => h'.recorded f hf (h.recorded f hf hs),
    fun p hp hs => h'.unlisted p hp (h.unlisted p hp hs)⟩

/-- Changes of other tables only. -/
theorem advance_of_files (h : ix'.files = ix.files) : Advance D repoId tree ix ix' := by
  have hstored : ∀ p, ix'.stored repoId p = ix.stored repoId p := fun p => by
    unfold Index.stored
    rw [h]
  exact ⟨fun f _ hs => (hstored _).trans hs, fun p _ hs => (hstored p).trans hs⟩

theorem Reprocessed.advance {file : WalkedFile} {mtime : Int} (hv : ValidTree tree) (hfile : file ∈ tree)
    (h : Reprocessed D e file (filesRow file (file.hash D) mtime repoId) ix ix') :
    Advance D repoId tree ix ix' where
  recorded := by
    intro f hf hs
    by_cases hp : f.relPath = file.relPath
    · rw [List.inj_on_of_nodup_map hv.paths hf hfile hp]
      exact h.stored_self
    · rw [h.stored_other fun hc => hp hc.1]
      exact hs
  unlisted := by
    intro p hp hs
    rw [h.stored_other]
    · exact hs
    · rintro ⟨rfl, -⟩
      exact hp (List.mem_map_of_mem hfile)

theorem advance_removePath {rel : Text} (hrel : rel ∉ tree.map (·.relPath)) :
    Advance D repoId tree ix (ix.removePath rel repoId) where
  recorded := by
    intro f hf hs
    rw [Index.stored_removePath_other]
    · exact hs
    · rintro ⟨rfl, -⟩
      exact hrel (List.mem_map_of_mem hf)
  unlisted := by
    intro p hp hs
    by_cases hpr : p = rel
    · rw [hpr]
      exact Index.stored_removePath_self rel
    · rw [Index.stored_removePath_other fun hc => hpr hc.1]
      exact hs

/-- The other connections run the same tree. -/
def sameTreeRules (D : Deps) (e : Embedder) (repoId : Text) (tree : List WalkedFile) :
    Rules Stmt SqlError Db RowId where
  rely := Advances D e repoId tree
  guar := Advances D e repoId tree
  allow := anyOutcome
  rely_refl _ := fun ix hc hix => ⟨ix, hc, hix, .refl ix⟩
  rely_trans _ _ _ h h' := fun ix hc hix => by
    obtain ⟨ix', hc', hix', hadv⟩ := h ix hc hix
    obtain ⟨ix'', hc'', hix'', hadv'⟩ := h' ix' hc' hix'
    exact ⟨ix'', hc'', hix'', hadv.trans hadv'⟩
  guar_refl _ := fun ix hc hix => ⟨ix, hc, hix, .refl ix⟩

section
variable {P : Index → Prop}

theorem stable_knows (hP : Lasting D repoId tree P) :
    Stable (sameTreeRules D e repoId tree) (Knows D e repoId P) := by
  rintro c c' hrely ⟨ix, hc, hix, hPix⟩
  obtain ⟨ix', hc', hix', hadv⟩ := hrely ix hc hix
  exact ⟨ix', hc', hix', hP ix ix' hadv hPix⟩

theorem lasting_true : Lasting D repoId tree fun _ => True := fun _ _ _ _ => trivial

/-- What a step does to a coherent index. -/
theorem advances_of_index {Q : Index → Prop}
    (hix' : Coherent D e LanguageOfPath repoId ix') (hadv : Advance D repoId tree ix ix') (hQ : Q ix') :
    Advances D e repoId tree ix.toDb ix'.toDb ∧ Knows D e repoId Q ix'.toDb := by
  refine ⟨fun ix₁ hc _ => ⟨ix', rfl, hix', ?_⟩, ix', rfl, hix', hQ⟩
  rw [← Index.toDb_inj.1 hc]
  exact hadv

theorem secures_statement {text : String} {s : Stmt} {Q : s.Resp → Index → Prop}
    (hP : Lasting D repoId tree P)
    (h : ∀ ix x r c', Coherent D e LanguageOfPath repoId ix → P ix → exec s x ix.toDb = .ok (r, c') →
      ∃ ix' : Index, c' = ix'.toDb ∧ Coherent D e LanguageOfPath repoId ix' ∧
        Advance D repoId tree ix ix' ∧ Q r ix') :
    Secures engine (sameTreeRules D e repoId tree) (Knows D e repoId P) (execute text s)
      fun r => Knows D e repoId (Q r) := by
  refine secures_execute (stable_knows hP) fun c x r c' hc hx => ?_
  obtain ⟨ix, rfl, hix, hPix⟩ := hc
  obtain ⟨ix', rfl, hix', hadv, hQ⟩ := h ix x r c' hix hPix hx
  exact advances_of_index hix' hadv hQ

theorem secures_rewrite :
    Secures engine (sameTreeRules D e repoId tree) (Knows D e repoId fun _ => True)
      (rewritePlaceholderRepoId repoId) fun _ => Knows D e repoId fun _ => True := by
  refine secures_statement lasting_true fun ix x r c' hix _ hx => ?_
  obtain ⟨t, ht, hx⟩ := checked_bind_eq_ok.1 hx
  cases hx
  cases hix.rewritten ht
  exact ⟨ix, rfl, hix, .refl ix, trivial⟩

theorem secures_readMeta (key : Text) :
    Secures engine (sameTreeRules D e repoId tree) (Knows D e repoId fun _ => True) (readMeta key)
      fun _ => Knows D e repoId fun _ => True := by
  refine secures_statement lasting_true fun ix x r c' hix _ hx => ?_
  rw [read_selectMeta key x ix.toDb r c' hx]
  exact ⟨ix, rfl, hix, .refl ix, trivial⟩

theorem secures_replaceMeta (text : String) (key value : Text) :
    Secures engine (sameTreeRules D e repoId tree) (Knows D e repoId fun _ => True)
      (execute text (.replaceMeta key value)) fun _ => Knows D e repoId fun _ => True := by
  refine secures_statement lasting_true fun ix x r c' hix _ hx => ?_
  cases hx
  exact ⟨{ ix with metaRows := ix.metaRows.replace ⟨key, value⟩ }, rfl, hix.metaRows _,
    advance_of_files rfl, trivial⟩

theorem secures_readEmbedderMeta :
    Secures engine (sameTreeRules D e repoId tree) (Knows D e repoId fun _ => True) readEmbedderMeta
      fun _ => Knows D e repoId fun _ => True := by
  refine secures_bind (secures_readMeta _) fun id => secures_bind (secures_readMeta _) fun dimS => ?_
  split
  · split
    · exact secures_pure fun _ h => h
    · exact secures_throw
  · exact secures_pure fun _ h => h

theorem secures_checkEmbedder :
    Secures engine (sameTreeRules D e repoId tree) (Knows D e repoId fun _ => True) (checkEmbedder e)
      fun _ => Knows D e repoId fun _ => True := by
  have hverify : Secures engine (sameTreeRules D e repoId tree) (Knows D e repoId fun _ => True)
      (verifyEmbedderMeta e.id e.dim) fun _ => Knows D e repoId fun _ => True := by
    refine secures_bind secures_readEmbedderMeta fun stored => ?_
    split
    · split
      · exact secures_throw
      · exact secures_pure fun _ h => h
    · exact secures_pure fun _ h => h
  refine secures_bind (secures_mapError hverify) fun _ =>
    secures_bind secures_readEmbedderMeta fun stored => ?_
  split
  · exact secures_mapError (secures_bind (secures_replaceMeta _ _ _) fun _ => secures_replaceMeta _ _ _)
  · exact secures_pure fun _ h => h

end

/-! ## Dropping what is not in the tree -/

/-- The recorded paths outside of the tree are still to be dropped. -/
def Dropping (repoId : Text) (tree : List WalkedFile) (paths done : List Text) (ix : Index) : Prop :=
  ∀ p, p ∉ tree.map (·.relPath) → ix.stored repoId p ≠ none → p ∈ paths ∧ p ∉ done

theorem lasting_dropping (paths done : List Text) :
    Lasting D repoId tree (Dropping repoId tree paths done) := fun _ _ hadv h p hp hs =>
  h p hp fun hnone => hs (hadv.unlisted p hp hnone)

theorem secures_storedFilePaths :
    Secures engine (sameTreeRules D e repoId tree) (Knows D e repoId fun _ => True)
      (storedFilePaths repoId) fun paths => Knows D e repoId (Dropping repoId tree paths []) := by
  refine secures_statement lasting_true fun ix x r c' hix _ hx => ?_
  have hread := read_selectFilePaths repoId x ix.toDb r c' hx
  subst hread
  refine ⟨ix, rfl, hix, .refl ix, fun p _ hs => ⟨?_, List.not_mem_nil⟩⟩
  cases hx
  obtain ⟨hash, hhash⟩ := Option.ne_none_iff_exists'.1 hs
  obtain ⟨row, hrow, rfl, hrepo, -⟩ := Index.stored_eq_some.1 hhash
  exact List.mem_map.2 ⟨row, List.mem_filter.2 ⟨hrow, decide_eq_true hrepo⟩, rfl⟩

theorem secures_dropStep {view : RepoView} (hwalked : ∀ f, f ∈ view.walked ↔ f ∈ tree)
    (paths done : List Text) (rel : Text) :
    Secures engine (sameTreeRules D e repoId tree) (Knows D e repoId (Dropping repoId tree paths done))
      (dropStep view repoId rel) fun _ => Knows D e repoId (Dropping repoId tree paths (done ++ [rel])) := by
  have hpaths : ∀ p, p ∈ view.walked.map (·.relPath) ↔ p ∈ tree.map (·.relPath) := fun p => by
    simp only [List.mem_map, hwalked]
  have hdone : ∀ {ix : Index}, Dropping repoId tree paths done ix →
      (rel ∉ tree.map (·.relPath) → ix.stored repoId rel = none) →
      Dropping repoId tree paths (done ++ [rel]) ix := by
    intro ix h hrel p hp hs
    obtain ⟨hmem, hnot⟩ := h p hp hs
    refine ⟨hmem, fun hin => ?_⟩
    rcases List.mem_append.1 hin with hin | hin
    · exact hnot hin
    · rw [List.mem_singleton.1 hin] at hp hs
      exact hs (hrel hp)
  unfold dropStep
  split
  · next hrel =>
    refine secures_pure fun c hc => ?_
    obtain ⟨ix, hcix, hix, h⟩ := hc
    exact ⟨ix, hcix, hix, hdone h fun hnot => absurd ((hpaths rel).1 hrel) hnot⟩
  · next hrel =>
    rw [hpaths] at hrel
    refine secures_transaction (strict_removeBody _ _) (stable_knows (lasting_dropping _ _))
      fun c u t hc hcomp => ?_
    obtain ⟨ix, rfl, hix, h⟩ := hc
    rw [completes_removeBody hcomp rfl]
    refine advances_of_index (hix.removed rel) (advance_removePath hrel) ?_
    exact hdone (lasting_dropping (D := D) paths done ix _ (advance_removePath hrel) h)
      fun _ => Index.stored_removePath_self rel

/-! ## Bringing the tree in -/

/-- Nothing outside of the tree is listed, and these files are recorded. -/
structure Tracked (D : Deps) (repoId : Text) (tree done : List WalkedFile) (ix : Index) : Prop where
  unlisted : ∀ p, p ∉ tree.map (·.relPath) → ix.stored repoId p = none
  recorded : ∀ f ∈ done, ix.stored repoId f.relPath = some (f.hash D)

theorem lasting_tracked {done : List WalkedFile} (hdone : ∀ f ∈ done, f ∈ tree) :
    Lasting D repoId tree (Tracked D repoId tree done) := fun _ _ hadv h =>
  ⟨fun p hp => hadv.unlisted p hp (h.unlisted p hp),
    fun f hf => hadv.recorded f (hdone f hf) (h.recorded f hf)⟩

theorem Tracked.concat {done : List WalkedFile} {f : WalkedFile} (h : Tracked D repoId tree done ix)
    (hf : ix.stored repoId f.relPath = some (f.hash D)) : Tracked D repoId tree (done ++ [f]) ix where
  unlisted := h.unlisted
  recorded := by
    intro g hg
    rcases List.mem_append.1 hg with hg | hg
    · exact h.recorded g hg
    · rw [List.mem_singleton.1 hg]
      exact hf

/-- A hash that the lookup answers was recorded then, and a file of the tree stays recorded. -/
theorem secures_storedFileState {done : List WalkedFile} (hdone : ∀ f ∈ done, f ∈ tree)
    {f : WalkedFile} :
    Secures engine (sameTreeRules D e repoId tree) (Knows D e repoId (Tracked D repoId tree done))
      (storedFileState f.relPath repoId) fun state => Knows D e repoId fun ix =>
        Tracked D repoId tree done ix ∧
          (state.map (·.1) = some (f.hash D) → ix.stored repoId f.relPath = some (f.hash D)) := by
  refine secures_bind (Q := fun state => Knows D e repoId fun ix => Tracked D repoId tree done ix ∧
    ∀ row, state = .ok row → row.map (·.1) = some (f.hash D) →
      ix.stored repoId f.relPath = some (f.hash D)) ?_ fun state => ?_
  · refine secures_attempt_execute (stable_knows (lasting_tracked hdone)) (fun c x r c' hc hx => ?_)
      fun c y hc => ?_
    · obtain ⟨ix, rfl, hix, h⟩ := hc
      have hread := read_selectFileState f.relPath repoId x ix.toDb r c' hx
      subst hread
      refine advances_of_index hix (.refl ix) ⟨h, ?_⟩
      rintro row ⟨⟩ hrow
      cases hx
      rw [← hrow]
      unfold Index.stored
      rw [Option.map_map]
      rfl
    · obtain ⟨ix, hcix, hix, h⟩ := hc
      exact ⟨ix, hcix, hix, h, nofun⟩
  · split
    · next row =>
      refine secures_pure fun c hc => ?_
      obtain ⟨ix, hcix, hix, h, hrow⟩ := hc
      exact ⟨ix, hcix, hix, h, hrow row rfl⟩
    · refine secures_pure fun c hc => ?_
      obtain ⟨ix, hcix, hix, h, -⟩ := hc
      exact ⟨ix, hcix, hix, h, nofun⟩

theorem secures_reprocessFileWith (hv : ValidTree tree) {done : List WalkedFile}
    (hdone : ∀ f ∈ done, f ∈ tree) {f : WalkedFile} (hf : f ∈ tree) (mtime : Int) :
    Secures engine (sameTreeRules D e repoId tree) (Knows D e repoId (Tracked D repoId tree done))
      (reprocessFileWith D f (f.hash D) mtime repoId e)
      fun _ => Knows D e repoId (Tracked D repoId tree (done ++ [f])) := by
  unfold reprocessFileWith
  cases hspecs : chunkFile D f.content f.language with
  | none => exact secures_throw
  | some specs =>
    refine secures_transaction (strict_reprocessBody D e _ _ _ _ _)
      (stable_knows (lasting_tracked hdone)) fun c n t hc hcomp => ?_
    obtain ⟨ix, rfl, hix, h⟩ := hc
    obtain ⟨ix', ht, -, hr⟩ := completes_reprocessBody D e hspecs hix.bound hcomp rfl
    rw [ht]
    have hadv := hr.advance hv hf
    refine advances_of_index (hix.reprocessed (hv.language f hf) hr) hadv ?_
    exact (lasting_tracked hdone ix ix' hadv h).concat hr.stored_self

theorem secures_incrementalStep (hv : ValidTree tree) (view : RepoView) {done : List WalkedFile}
    (hdone : ∀ f ∈ done, f ∈ tree) {f : WalkedFile} (hf : f ∈ tree) (counts : Nat × Nat) :
    Secures engine (sameTreeRules D e repoId tree) (Knows D e repoId (Tracked D repoId tree done))
      (incrementalStep D view repoId e counts f)
      fun _ => Knows D e repoId (Tracked D repoId tree (done ++ [f])) := by
  refine secures_bind (secures_storedFileState hdone) fun state => ?_
  split
  · next hskip =>
    refine secures_pure fun c hc => ?_
    obtain ⟨ix, hcix, hix, h, hstate⟩ := hc
    exact ⟨ix, hcix, hix, h.concat (hstate hskip)⟩
  · have hweaken : ∀ c, (Knows D e repoId fun ix => Tracked D repoId tree done ix ∧
        (state.map (·.1) = some (f.hash D) → ix.stored repoId f.relPath = some (f.hash D))) c →
        Knows D e repoId (Tracked D repoId tree done) c := by
      rintro c ⟨ix, hcix, hix, h, -⟩
      exact ⟨ix, hcix, hix, h⟩
    exact secures_mono hweaken (fun _ _ h => h)
      (secures_bind (secures_reprocessFileWith hv hdone hf _) fun _ => secures_pure fun _ h => h)

/-- An incremental run that returns has brought the tree in. -/
theorem secures_reindexWith (hv : ValidTree tree) {view : RepoView}
    (hrepo : repoIdFor D view.canonicalRoot = repoId) (hwalked : ∀ f, f ∈ view.walked ↔ f ∈ tree) :
    Secures engine (sameTreeRules D e repoId tree) (Knows D e repoId fun _ => True)
      (reindexWith D view false e) fun _ => Knows D e repoId (Tracked D repoId tree view.walked) := by
  subst hrepo
  refine secures_bind secures_rewrite fun _ => secures_bind secures_checkEmbedder fun _ =>
    secures_bind ?_ fun _ => secures_pure fun _ h => h
  refine secures_bind secures_storedFilePaths fun paths => ?_
  refine secures_bind (secures_forM paths (fun done => Knows D e _ (Dropping _ tree paths done))
    fun pre rel post _ => secures_dropStep hwalked paths pre rel) fun _ => ?_
  have hdropped : ∀ c, Knows D e (repoIdFor D view.canonicalRoot)
      (Dropping (repoIdFor D view.canonicalRoot) tree paths paths) c →
      Knows D e (repoIdFor D view.canonicalRoot) (Tracked D (repoIdFor D view.canonicalRoot) tree []) c := by
    rintro c ⟨ix, hcix, hix, h⟩
    refine ⟨ix, hcix, hix, fun p hp => ?_, nofun⟩
    by_contra hs
    exact (h p hp hs).2 (h p hp hs).1
  refine secures_mono hdropped (fun _ _ h => h) (secures_foldlM view.walked
    (fun done => Knows D e _ (Tracked D _ tree done)) (fun pre f post hsplit counts => ?_) (0, 0))
  have hmem : ∀ g ∈ pre ++ f :: post, g ∈ tree := fun g hg => (hwalked g).1 (hsplit ▸ hg)
  exact secures_incrementalStep hv view (fun g hg => hmem g (List.mem_append_left _ hg))
    (hmem f (List.mem_append_right _ List.mem_cons_self)) counts

/-! ## Any number of runs -/

/-- The rows of the files of the tree, and no others. -/
theorem holdsTree_of_tracked (hv : ValidTree tree) (hinj : NoCollision D tree)
    (hix : Coherent D e LanguageOfPath repoId ix) (h : Tracked D repoId tree tree ix) :
    HoldsTree D e tree ix where
  bound := hix.bound
  outside := fun p hp => hix.rowsOf_unstored (h.unlisted p hp)
  rows := fun f hf => hix.rowsOf_stored hinj hf (hv.language f hf) (h.recorded f hf)

/-- Connections that run reindexes. -/
abbrev TreeRuns (ι : Type) := Pool Stmt Stmt.Resp SqlError Error ReindexReport Db RepoView ι

/-- Incremental runs of the tree, each on a connection of its own. -/
def startsOn (D : Deps) (e : Embedder) (root : Text) (tree : List WalkedFile)
    (cl : Client Stmt Stmt.Resp SqlError Error ReindexReport Db RepoView) (view : RepoView)
    (p : Sql ReindexReport) : Prop :=
  cl.txn = .idle ∧ view.canonicalRoot = root ∧ (∀ f, f ∈ view.walked ↔ f ∈ tree) ∧
    p = reindexWith D view false e

/-- Whatever operations any connections ran, failed and were killed at, any number of connections
then run incremental reindexes of one tree, interleaved and failing and killed in any way: once
one of them has returned, the index holds the tree for good. -/
theorem concurrent_runs_converge {ι κ : Type} [DecidableEq ι] [DecidableEq κ] (D : Deps) (e : Embedder)
    (root : Text) (width : Nat) (m : MetaTable) (before : Pool Stmt Stmt.Resp SqlError Error Unit Db IndexOp κ)
    (hbefore : Pool.Reachable engine anyOutcome
      (fun _ op p => p = op.prog D e root ∧ op.Walks LanguageOfPath)
      (idlePool κ IndexOp (Index.fresh width m).toDb) before)
    (tree : List WalkedFile) (hv : ValidTree tree) (hinj : NoCollision D tree) (s s' : TreeRuns ι)
    (hs : Pool.Reachable engine anyOutcome (startsOn D e root tree)
      ⟨before.db, fun _ => ⟨none, .idle⟩⟩ s)
    (i : ι) (view : RepoView) (report : ReindexReport)
    (hreturned : (s.client i).job = some (view, .pure report))
    (hs' : Pool.Reachable engine anyOutcome (startsOn D e root tree) s s') :
    ∃ ix : Index, s'.db = ix.toDb ∧ HoldsTree D e tree ix := by
  obtain ⟨ix₀, hdb₀, hix₀⟩ := keeps_reachable
    (I := IsCoherent D e LanguageOfPath (repoIdFor D root))
    (fun cl op p hp => by
      rw [hp.1]
      exact keeps_walked root hp.2)
    ⟨_, rfl, .fresh width m⟩ (fun _ => rfl) hbefore
  have hkeep : ∀ c c', Knows D e (repoIdFor D root) (fun _ => True) c →
      Advances D e (repoIdFor D root) tree c c' → Knows D e (repoIdFor D root) (fun _ => True) c' := by
    rintro c c' ⟨ix, hcix, hix, -⟩ hadv
    obtain ⟨ix', hcix', hix', -⟩ := hadv ix hcix hix
    exact ⟨ix', hcix', hix', trivial⟩
  have hstarts : ∀ cl (v : RepoView) p, startsOn D e root tree cl v p → cl.txn = .idle ∧
      Secures engine (sameTreeRules D e (repoIdFor D root) tree)
        (Knows D e (repoIdFor D root) fun _ => True) p
        fun _ => Knows D e (repoIdFor D root) (Tracked D (repoIdFor D root) tree tree) := by
    rintro cl v p ⟨htxn, rfl, hwalked, rfl⟩
    refine ⟨htxn, secures_mono (fun _ h => h) (fun _ c hc => ?_) (secures_reindexWith hv rfl hwalked)⟩
    obtain ⟨ix, hcix, hix, h⟩ := hc
    exact ⟨ix, hcix, hix, h.unlisted, fun f hf => h.recorded f ((hwalked f).2 hf)⟩
  have hholds := holds_after (Q := fun _ _ => Knows D e (repoIdFor D root)
    (Tracked D (repoIdFor D root) tree tree)) (fun _ _ hg => hg) (fun _ _ _ _ ho => ho) hkeep
    (fun _ _ => stable_knows (lasting_tracked fun _ hf => hf)) hstarts ⟨ix₀, hdb₀, hix₀, trivial⟩
    (fun _ => rfl) hs hreturned hs'
  obtain ⟨ix, hdb, hix, htracked⟩ := hholds.2
  exact ⟨ix, hdb, holdsTree_of_tracked hv hinj hix htracked⟩

/-! ## A run outrun by another -/

/-- Connection `i` starts an incremental run of the edited file. -/
def editBy (i : Fin 2) (s : TreeRuns (Fin 2)) : TreeRuns (Fin 2) :=
  s.launch i editedView (reindexWith .plain editedView false oneFileEmbedder)

/-- Nobody runs, after the file was indexed. -/
def oneFileRuns : TreeRuns (Fin 2) := ⟨beforeEdit.db, fun _ => ⟨none, .idle⟩⟩

/-- The first connection has looked the file up. -/
def lookedUp : TreeRuns (Fin 2) := (editBy 0 oneFileRuns).play engine 0 (succeed 7)

/-- The second starts there and returns. -/
def outrun : TreeRuns (Fin 2) := (editBy 1 lookedUp).play engine 1 (succeed 30)

/-- A connection goes on for `n` requests. -/
theorem reachable_playEdit {s s' : TreeRuns (Fin 2)} {i : Fin 2} {n : Nat}
    (h : Pool.Reachable engine anyOutcome
      (startsOn .plain oneFileEmbedder "/old".toList editedView.walked) s s')
    (hok : s'.playable engine (fun _ _ _ => true) i (succeed n) = true) :
    Pool.Reachable engine anyOutcome
      (startsOn .plain oneFileEmbedder "/old".toList editedView.walked) s
      (s'.play engine i (succeed n)) :=
  Pool.reachable_play h (fun _ _ _ _ _ _ => trivial) hok

theorem reachable_outrun : Pool.Reachable engine anyOutcome
    (startsOn .plain oneFileEmbedder "/old".toList editedView.walked) oneFileRuns outrun := by
  have hidle : lookedUp.client 1 = ⟨none, .idle⟩ := by rfl
  have looked : Pool.Reachable engine anyOutcome
      (startsOn .plain oneFileEmbedder "/old".toList editedView.walked) oneFileRuns lookedUp :=
    reachable_playEdit (Pool.reachable_launch .refl (fun ℓ p hj => by cases hj)
      ⟨rfl, rfl, fun _ => Iff.rfl, rfl⟩) (by decide +kernel)
  refine reachable_playEdit (Pool.reachable_launch looked (fun ℓ p hj => ?_) ?_) (by decide +kernel)
  · rw [hidle] at hj
    cases hj
  · rw [hidle]
    exact ⟨rfl, rfl, fun _ => Iff.rfl, rfl⟩

/-- Both runs report the file; it is there once. -/
theorem concurrent_runs_converge_outrun :
    ((outrun.play engine 0 (succeed 30)).client 0).job.map (·.2.value?) =
      some (some ⟨1, 1, 0, true⟩) ∧
    ∃ ix : Index, (outrun.play engine 0 (succeed 30)).db = ix.toDb ∧
      HoldsTree .plain oneFileEmbedder editedView.walked ix := by
  have hbefore : Pool.Reachable engine anyOutcome (fun _ op p => p = op.prog .plain oneFileEmbedder
      "/old".toList ∧ op.Walks LanguageOfPath) (idlePool (Fin 2) IndexOp (Index.fresh 1 .empty).toDb)
      beforeEdit := by
    refine Pool.reachable_of_run (i := 0) (ℓ := oneFileOp) rfl (fun _ _ h => h) ⟨rfl, fun f hf => ?_⟩
      run_oneFileRun
    rw [List.mem_singleton.1 hf]
    rfl
  have hreturned : (outrun.client 1).job = some (editedView, .pure ⟨1, 1, 0, true⟩) := by
    have hval : (replay engine (succeed 30) (reindexWith .plain editedView false oneFileEmbedder)
        lookedUp.db (lookedUp.client 1).txn).1.value? = some ⟨1, 1, 0, true⟩ := by decide +kernel
    have hjob : (outrun.client 1).job = some (editedView, (replay engine (succeed 30)
        (reindexWith .plain editedView false oneFileEmbedder) lookedUp.db
        (lookedUp.client 1).txn).1) := by
      simp [outrun, editBy, Pool.play, Pool.launch]
    rw [hjob, Prog.eq_pure_of_value? hval]
  exact ⟨by decide +kernel, concurrent_runs_converge .plain oneFileEmbedder "/old".toList 1 .empty
    beforeEdit hbefore editedView.walked (validTree_plain _ _ (by decide) (by decide))
    (noCollision_plain (by decide)) outrun _ reachable_outrun 1 editedView _ hreturned
    (reachable_playEdit .refl (by decide +kernel))⟩

end CodeSearch
