import Mathlib.Data.List.Nodup
import CodeSearch.Coherence
import CodeSearch.Success

/-!
# An incremental run is a rebuild

`HoldsTree D e files ix`: the index holds the rows of every file of the tree and
no other row.  A full run leaves such an index, two such indexes have the same
rows up to rowid and order (`HoldsTree.sameRows`), and a tree some index holds is
indexable.

Over every history of runs on one repository, stopped or killed anywhere, the
index is coherent; an incremental run that returns then leaves an index that
holds its tree, the same content as a full run from an empty index
(`incremental_rebuilds`).
-/

namespace CodeSearch

open Relational Store

variable (D : Deps) (e : Embedder)

/-! ## Same rows up to rowid -/

/-- Lists with the same elements of every key are permutations of each other. -/
theorem perm_of_filter_eq {α κ : Type} [DecidableEq α] [DecidableEq κ] (key : α → κ)
    {l l' : List α}
    (h : ∀ k, l.filter (fun a => key a = k) = l'.filter fun a => key a = k) : l.Perm l' := by
  rw [List.perm_iff_count]
  intro a
  have hc := congrArg (List.count a) (h (key a))
  rw [List.count_filter (by simp), List.count_filter (by simp)] at hc
  exact hc

/-- The searchable rows of two indexes agree up to rowid and order. -/
structure SameRows (a b : Index) : Prop where
  entries : (a.chunks.rows.map a.entry).Perm (b.chunks.rows.map b.entry)
  imports : a.imports.Perm b.imports
  exports : a.exports.Perm b.exports

theorem Index.filter_entries (ix : Index) (p : Text) :
    (ix.chunks.rows.map ix.entry).filter (fun x => x.data.filePath = p) = (ix.rowsOf p).entries := by
  rw [List.filter_map]
  rfl

theorem sameRows_of_rowsOf {a b : Index} (h : ∀ p, a.rowsOf p = b.rowsOf p) : SameRows a b where
  entries := perm_of_filter_eq (fun x : Entry => x.data.filePath) fun p => by
    rw [a.filter_entries, b.filter_entries, h]
  imports := perm_of_filter_eq (fun i : ImportRow => i.filePath) fun p =>
    congrArg PathRows.imports (h p)
  exports := perm_of_filter_eq (fun x : ExportRow => x.filePath) fun p =>
    congrArg PathRows.exports (h p)

/-- A `files` row up to its mtime. -/
def FileRow.untimed (r : FileRow) : Text × Text × Text × Option Text :=
  (r.repoId, r.path, r.blake3Hash, r.language)

/-- The logical content of two indexes agrees: the `files` rows up to mtime, and
all other rows up to rowid, each stored under a rowid or id of its chunk. -/
structure SameContent (a b : Index) : Prop extends SameRows a b where
  files : (a.files.rows.map FileRow.untimed).Perm (b.files.rows.map FileRow.untimed)
  bound : a.Bound ∧ b.Bound

/-! ## Indexes that hold a tree -/

/-- The index holds the rows of these files and no others. -/
structure HoldsTree (files : List WalkedFile) (ix : Index) : Prop where
  bound : ix.Bound
  outside : ∀ p, p ∉ files.map (·.relPath) → ix.rowsOf p = .empty
  rows : ∀ f ∈ files, fileRows D e f = some (ix.rowsOf f.relPath)

section
variable {D e} {files : List WalkedFile} {ix ix' : Index}

theorem Rebuilt.holdsTree {repoId : Text} {mtime : Text → Int} {width : Nat}
    (h : Rebuilt D e repoId mtime files width ix) : HoldsTree D e files ix :=
  ⟨h.bound, h.outside, h.rows⟩

theorem HoldsTree.sameRows (h : HoldsTree D e files ix) (h' : HoldsTree D e files ix') :
    SameRows ix ix' := by
  refine sameRows_of_rowsOf fun p => ?_
  by_cases hp : p ∈ files.map (·.relPath)
  · obtain ⟨f, hf, rfl⟩ := List.mem_map.1 hp
    have := (h.rows f hf).symm.trans (h'.rows f hf)
    exact Option.some.inj this
  · rw [h.outside p hp, h'.outside p hp]

/-- The ids of a file's chunks are the stored ones. -/
theorem HoldsTree.chunkIdsOf (h : HoldsTree D e files ix) {f : WalkedFile} (hf : f ∈ files) :
    chunkIdsOf D f = (ix.chunksOf f.relPath).map (·.id) := by
  obtain ⟨specs, hs, hrows⟩ := Option.bind_eq_some_iff.1 (h.rows f hf)
  obtain ⟨structural, -, hrows⟩ := Option.bind_eq_some_iff.1 hrows
  have hentries : specs.map (specEntry D e f.relPath) = (ix.chunksOf f.relPath).map ix.entry :=
    congrArg PathRows.entries (Option.some.inj hrows)
  have hids := congrArg (List.map fun x : Entry => x.data.id) hentries
  rw [List.map_map, List.map_map] at hids
  unfold CodeSearch.chunkIdsOf
  rw [hs]
  exact hids

/-- A tree that some index holds can be indexed. -/
theorem HoldsTree.indexable (h : HoldsTree D e files ix) (hd : (files.map (·.relPath)).Nodup) :
    Indexable D files := by
  refine ⟨hd, fun f hf => ?_, fun f hf => ?_, ?_⟩
  · obtain ⟨specs, hs, -⟩ := Option.bind_eq_some_iff.1 (h.rows f hf)
    rw [hs]; rfl
  · obtain ⟨specs, -, hrows⟩ := Option.bind_eq_some_iff.1 (h.rows f hf)
    obtain ⟨structural, hstr, -⟩ := Option.bind_eq_some_iff.1 hrows
    rw [hstr]; rfl
  · rw [List.nodup_flatMap]
    constructor
    · intro f hf
      rw [h.chunkIdsOf hf]
      have hpair : (ix.chunksOf f.relPath).Pairwise fun a b => ¬ a.clash b :=
        ix.chunks.distinct.filter _
      exact List.pairwise_map.2 (hpair.imp fun hn he => hn (.inr he))
    · have hpaths := List.pairwise_map.1 hd
      refine List.Pairwise.imp_of_mem (fun {f g} hf hg hne => ?_) hpaths
      intro id hidf hidg
      rw [h.chunkIdsOf hf] at hidf
      rw [h.chunkIdsOf hg] at hidg
      obtain ⟨a, ha, rfl⟩ := List.mem_map.1 hidf
      obtain ⟨b, hb, hab⟩ := List.mem_map.1 hidg
      obtain ⟨ha, hap⟩ := Index.mem_chunksOf.1 ha
      obtain ⟨hb, hbp⟩ := Index.mem_chunksOf.1 hb
      have := ix.eq_of_id hb ha hab
      subst this
      exact hne (hap.symm.trans hbp)

end

/-! ## Histories of one repository -/

/-- A migrated index without rows; `m` is what migration and stamping recorded. -/
def Index.fresh (width : Nat) (m : MetaTable) : Index := { Index.empty width with metaRows := m }

theorem Index.bound_fresh (width : Nat) (m : MetaTable) : (Index.fresh width m).Bound :=
  ⟨(Index.bound_empty width).vec, (Index.bound_empty width).fts, (Index.bound_empty width).symbols⟩

/-- The relative paths of the walked files are distinct, which the walk alone does not promise,
and their languages are those of the paths. -/
structure ValidTree (files : List WalkedFile) : Prop where
  paths : (files.map (·.relPath)).Nodup
  language : ∀ f ∈ files, f.language = detectLanguage f.relPath

/-- The databases a repository's index goes through: it starts fresh, and each
run, full or incremental, ends or is stopped after any of its requests. -/
inductive History (root : Text) : Db → Prop
  | fresh (m : MetaTable) : History root (Index.fresh e.dim m).toDb
  | run {db db' : Db} (view : RepoView) (force : Bool) : History root db →
      view.canonicalRoot = root → ValidTree view.walked →
      Crash engine anyOutcome (reindexWith D view force e) db db' → History root db'

/-- A walked file's language is that of its path. -/
def LanguageOfPath (f : WalkedFile) : Prop := f.language = detectLanguage f.relPath

variable {D e} {root : Text}

theorem Coherent.fresh {ok : WalkedFile → Prop} {repoId : Text} (width : Nat) (m : MetaTable) :
    Coherent D e ok repoId (Index.fresh width m) :=
  (coherent_empty width).metaRows m

theorem History.coherent {db : Db} (h : History D e root db) :
    IsCoherent D e LanguageOfPath (repoIdFor D root) db := by
  induction h with
  | fresh m => exact ⟨_, rfl, .fresh _ m⟩
  | run view force _ hroot hv hc ih =>
    subst hroot
    exact keeps_crash (keeps_reindexWith view force hv.language) hc ih

/-! ## The diff of a coherent index -/

/-- The rewrite of an index without other repositories' placeholder rows changes nothing. -/
theorem Rewritten.eq_self {repoId : Text} {ix ix₁ : Index} (hr : Rewritten repoId ix ix₁)
    (h : ∀ r ∈ ix.files.rows, r.repoId = migrationPlaceholderRepoId → r.repoId = repoId) :
    ix₁ = ix := by
  have hfiles : ix₁.files = ix.files := by
    ext1
    rw [hr.files]
    conv => rhs; rw [← List.map_id ix.files.rows]
    refine List.map_congr_left fun r hrow => ?_
    by_cases hp : r.repoId = migrationPlaceholderRepoId
    · have := h r hrow hp
      subst this
      simp
    · simp [hp]
  rw [hr.rest, hfiles]

/-- No text but a file's own content has its digest. -/
def NoCollision (D : Deps) (files : List WalkedFile) : Prop :=
  ∀ f ∈ files, ∀ content, D.blake3Hex content = D.blake3Hex f.content → content = f.content

/-- A path of a coherent index is recorded, or has no rows. -/
theorem Coherent.rowsOf_unstored {ok : WalkedFile → Prop} {repoId : Text} {ix : Index}
    (h : Coherent D e ok repoId ix) {p : Text} (hp : ix.stored repoId p = none) :
    ix.rowsOf p = .empty :=
  h.unlisted p fun r hr hrp => Index.stored_eq_none.1 hp r hr hrp (h.repo r hr)

/-- A file whose recorded hash is its own has its own rows. -/
theorem Coherent.rowsOf_stored {repoId : Text} {ix : Index} {files : List WalkedFile}
    (h : Coherent D e LanguageOfPath repoId ix) (hinj : NoCollision D files) {f : WalkedFile}
    (hf : f ∈ files) (hlang : LanguageOfPath f) (hs : ix.stored repoId f.relPath = some (f.hash D)) :
    fileRows D e f = some (ix.rowsOf f.relPath) := by
  obtain ⟨r, hr, hp, -, hhash⟩ := Index.stored_eq_some.1 hs
  obtain ⟨g, hg, hst, hrows⟩ := h.listed r hr
  have hpath : g.relPath = f.relPath := hst.path.trans hp
  have hcontent : g.content = f.content := hinj f hf _ (hst.hash.trans hhash)
  have hl : g.language = f.language := by
    rw [hg, hlang, hpath]
  have : g = f := by
    cases g; cases f
    simp_all
  rw [this, hp] at hrows
  exact hrows

/-- An incremental run that returned, on a coherent index, leaves its tree. -/
theorem Diffed.holdsTree {repoId : Text} {view : RepoView} {ix ix' : Index}
    (h : Diffed D e repoId view ix ix') (hc : Coherent D e LanguageOfPath repoId ix)
    (hv : ValidTree view.walked) (hinj : NoCollision D view.walked) :
    HoldsTree D e view.walked ix' := by
  refine ⟨h.bound, fun p hp => ?_, fun f hf => ?_⟩
  · by_cases hs : ix.stored repoId p = none
    · rw [h.kept p hp hs]
      exact hc.rowsOf_unstored hs
    · exact h.dropped p hp hs
  · rcases h.rows f hf with hrows | ⟨hs, hrows⟩
    · exact hrows
    · rw [hrows]
      exact hc.rowsOf_stored hinj hf (hv.language f hf) hs

/-- The `files` rows of a coherent index that records exactly a tree. -/
theorem Coherent.files_untimed {repoId : Text} {ix : Index} {files : List WalkedFile}
    (h : Coherent D e LanguageOfPath repoId ix)
    (hlang : ∀ f ∈ files, LanguageOfPath f)
    (hrec : ∀ f ∈ files, ix.stored repoId f.relPath = some (f.hash D))
    (hunl : ∀ p, p ∉ files.map (·.relPath) → ix.stored repoId p = none) (x) :
    x ∈ ix.files.rows.map FileRow.untimed ↔
      ∃ f ∈ files, x = (repoId, f.relPath, f.hash D, languageTag f.language) := by
  have tag : ∀ r ∈ ix.files.rows, ∀ f ∈ files, r.path = f.relPath →
      r.language = languageTag f.language := by
    intro r hr f hf hp
    obtain ⟨g, hg, hst, -⟩ := h.listed r hr
    have hpath : g.relPath = f.relPath := hst.path.trans hp
    rw [← hst.language, hg, hlang f hf, hpath]
  rw [List.mem_map]
  constructor
  · rintro ⟨r, hr, rfl⟩
    have hR := h.repo r hr
    have hmem : r.path ∈ files.map (·.relPath) := by
      by_contra hp
      exact Index.stored_eq_none.1 (hunl _ hp) r hr rfl hR
    obtain ⟨f, hf, hp⟩ := List.mem_map.1 hmem
    obtain ⟨r', hr', hp', hR', hh'⟩ := Index.stored_eq_some.1 (hrec f hf)
    have : r' = r := by_contra fun hne =>
      ix.files.not_clash_of_mem FileRow.clash_symm hr' hr hne
        ⟨hR'.trans hR.symm, hp'.trans hp⟩
    subst this
    refine ⟨f, hf, ?_⟩
    show (r'.repoId, r'.path, r'.blake3Hash, r'.language) = _
    rw [hR, hp', hh', tag r' hr f hf hp']
  · rintro ⟨f, hf, rfl⟩
    obtain ⟨r, hr, hp, hR, hh⟩ := Index.stored_eq_some.1 (hrec f hf)
    refine ⟨r, hr, ?_⟩
    show (r.repoId, r.path, r.blake3Hash, r.language) = _
    rw [hR, hp, hh, tag r hr f hf hp]

/-- Two rows of one repository and path are one. -/
theorem nodup_untimed (ix : Index) : (ix.files.rows.map FileRow.untimed).Nodup := by
  refine List.pairwise_map.2 (ix.files.distinct.imp fun hn he => hn ?_)
  simp only [FileRow.untimed, Prod.mk.injEq] at he
  exact ⟨he.1, he.2.1⟩

theorem Rebuilt.files_untimed {repoId : Text} {mtime : Text → Int} {files : List WalkedFile}
    {width : Nat} {ix : Index} (h : Rebuilt D e repoId mtime files width ix) (x) :
    x ∈ ix.files.rows.map FileRow.untimed ↔
      ∃ f ∈ files, x = (repoId, f.relPath, f.hash D, languageTag f.language) := by
  rw [List.mem_map]
  constructor
  · rintro ⟨r, hr, rfl⟩
    obtain ⟨f, hf, rfl⟩ := (h.filesRows r).1 hr
    exact ⟨f, hf, rfl⟩
  · rintro ⟨f, hf, rfl⟩
    exact ⟨_, (h.filesRows _).2 ⟨f, hf, rfl⟩, rfl⟩

/-! ## The rebuild -/

variable (D) in
/-- What a run did to the files of its tree: it reprocessed some of them, in
order, each because its hash was not recorded, unless its lookup may fail; all
other files keep their rows, rowids included, and their `files` rows. -/
structure Reprocessing (repoId : Text) (A : Text → Prop) (walked : List WalkedFile)
    (filesIndexed : Nat) (ix ix' : Index) (redone : List WalkedFile) : Prop where
  sublist : redone.Sublist walked
  count : filesIndexed = redone.length
  missed : ∀ f ∈ redone, A f.relPath → ix.stored repoId f.relPath ≠ some (f.hash D)
  untouched : ∀ f ∈ walked, f ∉ redone → ix'.rowsOf f.relPath = ix.rowsOf f.relPath ∧
    ix'.chunksOf f.relPath = ix.chunksOf f.relPath ∧
    ∀ r : FileRow, r.path = f.relPath → (r ∈ ix'.files.rows ↔ r ∈ ix.files.rows)

theorem DiffRun.reprocessing {repoId : Text} {A : Text → Prop} {view : RepoView} {n : Nat}
    {ix ix' : Index} {m : MetaTable} {redone : List WalkedFile}
    (hd : (view.walked.map (·.relPath)).Nodup)
    (h : DiffRun D e repoId view.mtime A
      ({ ix with metaRows := m }.removePaths repoId (ix.vanished repoId view)) view.walked redone ix')
    (hn : n = redone.length) : Reprocessing D repoId A view.walked n ix ix' redone := by
  have walked : ∀ f ∈ view.walked, f.relPath ∉ ix.vanished repoId view := fun f hf hmem =>
    ((Index.mem_vanished repoId).1 hmem).2 (List.mem_map_of_mem hf)
  obtain ⟨hsub, hmiss⟩ := h.redone D e repoId hd
  refine ⟨hsub, hn, fun f hf hA => ?_, fun f hf hnot => ?_⟩
  · have hst : ({ ix with metaRows := m }.removePaths repoId (ix.vanished repoId view)).stored
        repoId f.relPath = ix.stored repoId f.relPath :=
      Index.stored_removePaths_walked repoId _ (walked f (hsub.subset hf))
    rw [← hst]
    exact hmiss f hf hA
  · have hp : f.relPath ∉ redone.map (·.relPath) := by
      intro hmem
      obtain ⟨g, hg, hgf⟩ := List.mem_map.1 hmem
      have := List.inj_on_of_nodup_map hd (hsub.subset hg) hf hgf
      exact hnot (this ▸ hg)
    obtain ⟨hrows, hchunks, hfiles⟩ := h.untouched D e repoId hp
    obtain ⟨hrows₀, hchunks₀, hfiles₀⟩ :=
      Index.removePaths_other repoId { ix with metaRows := m } _ (walked f hf)
    exact ⟨hrows.trans hrows₀, hchunks.trans hchunks₀, fun r hr => (hfiles r hr).trans (hfiles₀ r hr)⟩

/-- After any history, an incremental run that returns leaves the content a full
run of its tree leaves in a fresh index, and such a full run exists; the files it
reprocessed are those whose hash was not recorded, and files whose lookup failed. -/
theorem incremental_rebuilds (D : Deps) (e : Embedder) (root : Text) (db : Db)
    (h : History D e root db) (view : RepoView) (hroot : view.canonicalRoot = root)
    (hv : ValidTree view.walked) (hinj : NoCollision D view.walked)
    (allow : Req Stmt → Outcome RowId SqlError → Db → Txn Db → Prop) (report : ReindexReport)
    (db' : Db) (hf : Finishes engine allow (reindexWith D view false e) db (.ok report) db') :
    ∃ ix ix' : Index, db = ix.toDb ∧ db' = ix'.toDb ∧
      (∀ (full : RepoView) (m : MetaTable), full.canonicalRoot = root → full.walked = view.walked →
        (∃ report' db'', Finishes engine noFault (reindexWith D full true e)
          (Index.fresh e.dim m).toDb (.ok report') db'') ∧
        ∀ allow' report' db'', Finishes engine allow' (reindexWith D full true e)
          (Index.fresh e.dim m).toDb (.ok report') db'' →
          ∃ ix'' : Index, db'' = ix''.toDb ∧ SameContent ix' ix'') ∧
      ∃ redone, Reprocessing D (repoIdFor D root) (Answered (repoIdFor D root) allow) view.walked
        report.filesIndexed ix ix' redone := by
  subst hroot
  obtain ⟨ix, rfl, hc⟩ := h.coherent
  obtain ⟨ix', rfl, ix₁, m, redone, hrw, hrun, hn⟩ :=
    yields_finishes (yields_reindexWith_incremental D e hc.bound) hf
  have hix := hrw.eq_self fun r hr _ => hc.repo r hr
  subst hix
  have hc' : Coherent D e LanguageOfPath (repoIdFor D view.canonicalRoot) ix' := by
    obtain ⟨ix₂, heq, hc₂⟩ :=
      keeps_finishes (keeps_reindexWith view false hv.language) hf ⟨ix₁, rfl, hc⟩
    rw [Index.toDb_inj.1 heq]
    exact hc₂
  have hdiff : Diffed D e (repoIdFor D view.canonicalRoot) view { ix₁ with metaRows := m } ix' :=
    diffed_of_diffRun D e _ hv.paths ⟨hc.bound.vec, hc.bound.fts, hc.bound.symbols⟩ hrun
  have htree := hdiff.holdsTree (hc.metaRows m) hv hinj
  refine ⟨ix₁, ix', rfl, rfl, fun full m' hfroot hfwalked => ⟨?_, ?_⟩, redone,
    hrun.reprocessing hv.paths hn⟩
  · have hi : Indexable D full.walked := by
      rw [hfwalked]
      exact htree.indexable hv.paths
    have hs : Succeeds (reindexWith D full true e) (Index.fresh e.dim m') fun _ _ => True :=
      succeeds_reindexWith_force D e hi rfl rfl
    obtain ⟨report', ix'', hfin, -⟩ := succeeds_finishes hs
    exact ⟨report', _, hfin⟩
  · intro allow' report' db'' hfull
    have hpaths : (full.walked.map (·.relPath)).Nodup := by
      rw [hfwalked]
      exact hv.paths
    obtain ⟨ix'', rfl, hreb, -⟩ := yields_finishes (yields_reindexWith_force D e hpaths) hfull
    rw [hfroot, hfwalked] at hreb
    refine ⟨ix'', rfl, ⟨htree.sameRows hreb.holdsTree, ?_, hdiff.bound, hreb.bound⟩⟩
    rw [List.perm_ext_iff_of_nodup (nodup_untimed _) (nodup_untimed _)]
    intro x
    rw [hreb.files_untimed,
      hc'.files_untimed hv.language hdiff.recorded hdiff.unlisted]

/-! ## Two runs on one file -/

def oneFileView : RepoView := plainView "/old".toList [("a".toList, "a\n".toList)]
def editedView : RepoView := plainView "/old".toList [("a".toList, "b\n".toList)]

/-- Requests that all succeed. -/
def succeed (n : Nat) : List (Outcome RowId SqlError) := List.replicate n (.run 7)

/-- The index after a full run of the one file. -/
def indexedDb : Db :=
  (replay engine (succeed 24) (reindexWith .plain oneFileView true oneFileEmbedder)
    (Index.fresh 1 .empty).toDb .idle).2.1

theorem validTree_plain (root : Text) (files : List (Text × Text))
    (hpaths : (files.map (·.1)).Nodup) (hlang : ∀ f ∈ files, detectLanguage f.1 = none) :
    ValidTree (plainView root files).walked where
  paths := by simpa [plainView, Function.comp_def] using hpaths
  language f hf := by
    obtain ⟨g, hg, rfl⟩ := List.mem_map.1 hf
    exact (hlang g hg).symm

/-- The listed digests are distinct. -/
theorem noCollision_plain {files : List WalkedFile}
    (h : ∀ f ∈ files, f.content ∈ digests.map (·.1)) : NoCollision .plain files := by
  have distinct : ∀ d ∈ digests, d.2 ≠ [] ∧ ∀ d' ∈ digests, d.2 = d'.2 → d.1 = d'.1 := by
    decide +kernel
  intro f hf content hc
  obtain ⟨d, hd, hdc⟩ := List.mem_map.1 (h f hf)
  have found : ∀ s x, digests.lookup s = some x → (s, x) ∈ digests := by
    intro s x hs
    obtain ⟨l, r, hl, -⟩ := List.lookup_eq_some_iff.1 hs
    rw [hl]; simp
  have hc : (digests.lookup content).getD [] = (digests.lookup f.content).getD [] := hc
  cases hf' : digests.lookup f.content with
  | none =>
    rw [List.lookup_eq_none_iff] at hf'
    have hne := hf' d hd
    rw [hdc] at hne
    simp at hne
  | some y =>
    have hy := found _ _ hf'
    rw [hf'] at hc
    cases hx : digests.lookup content with
    | none =>
      rw [hx] at hc
      exact absurd hc.symm (distinct _ hy).1
    | some x =>
      rw [hx] at hc
      exact (distinct _ (found _ _ hx)).2 _ hy hc

theorem history_indexedDb : History .plain oneFileEmbedder "/old".toList indexedDb :=
  .run oneFileView true (.fresh .empty) rfl
    (validTree_plain _ _ (by decide) (by decide)) (crash_replay _ (fun _ _ _ _ _ => trivial) _ _)

/-- Editing the file: the incremental run reprocesses it. -/
theorem incremental_rebuilds_edited : ∃ db', Finishes engine anyOutcome
    (reindexWith .plain editedView false oneFileEmbedder) indexedDb (.ok ⟨1, 1, 0, true⟩) db' ∧
    ∃ ix ix' : Index, indexedDb = ix.toDb ∧ db' = ix'.toDb := by
  have hfin : Finishes engine anyOutcome (reindexWith .plain editedView false oneFileEmbedder)
      indexedDb (.ok ⟨1, 1, 0, true⟩) _ :=
    finishes_replay (fun o (_ : o ∈ succeed 30) _ _ _ => trivial) (by decide +kernel)
  obtain ⟨ix, ix', hix, hix', -⟩ := incremental_rebuilds .plain oneFileEmbedder "/old".toList
    indexedDb history_indexedDb editedView rfl (validTree_plain _ _ (by decide) (by decide))
    (noCollision_plain (by decide)) anyOutcome _ _ hfin
  exact ⟨_, hfin, ix, ix', hix, hix'⟩

/-- An incremental run of the unchanged tree whose lookup of the file's state fails: it
reprocesses a file whose recorded hash is its own. -/
theorem incremental_reprocesses_recorded :
    History .plain oneFileEmbedder "/old".toList indexedDb ∧
    (∃ t, indexedDb.files = some (.current t) ∧ ∀ f ∈ oneFileView.walked, ∃ r ∈ t.rows,
      r.repoId = repoIdFor .plain "/old".toList ∧ r.path = f.relPath ∧
      r.blake3Hash = f.hash .plain) ∧
    ∃ db', Finishes engine anyOutcome (reindexWith .plain oneFileView false oneFileEmbedder)
      indexedDb (.ok ⟨1, 1, 0, true⟩) db' := by
  refine ⟨history_indexedDb, ?_, ?_⟩
  · refine ⟨⟨[filesRow ⟨"a".toList, none, "a\n".toList⟩
      (Deps.plain.blake3Hex "a\n".toList) 0 (repoIdFor .plain "/old".toList)], by simp⟩,
      by decide +kernel, by decide +kernel⟩
  · exact ⟨_, finishes_replay
      (fun o (_ : o ∈ succeed 6 ++ .fail .io :: succeed 30) _ _ _ => trivial) (by decide +kernel)⟩

end CodeSearch
