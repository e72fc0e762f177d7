import CodeSearch.EmbedderMeta
import CodeSearch.Walk

/-!
# Reindexing an unchanged tree

A run on a walked tree that returns leaves each indexable file a `files` row and chunks of
its own, and the next incremental run of the same tree, in whatever order it is walked,
changes nothing: its lookups find every hash, and it writes only what it does not find.

Files whose names are the same once decoded share a key, and then the run leaves one
`files` row for both:

    unchanged_noop_iff : each file owns its rows and the second run changes nothing, if and
    only if no two indexable files of the walk have the same decoded names

Names that are UTF-8 never do (`Walk.apart_of_utf8`).
-/

namespace CodeSearch

open Relational Store Utf8

/-! ## Programs that only read -/

/-- Every request succeeds. -/
def Quiet (allow : Req Stmt → Outcome RowId SqlError → Db → Txn Db → Prop) : Prop :=
  ∀ q o c t, allow q o c t → ∃ x, o = .run x

/-- Run alone on the index, `p` commits nothing, and a value it returns has `P`; it returns
one if every request succeeds. -/
def Rereads (allow : Req Stmt → Outcome RowId SqlError → Db → Txn Db → Prop) {α : Type}
    (p : Sql α) (ix : Index) (P : α → Prop) : Prop :=
  Returns engine (crashRules allow (· = ix.toDb)) (Quiet allow) p ix.toDb .idle
    fun a c t => c = ix.toDb ∧ t = .idle ∧ P a

section
variable {allow : Req Stmt → Outcome RowId SqlError → Db → Txn Db → Prop} {α β γ : Type}
  {ix : Index} {P : α → Prop} {P' : β → Prop}

theorem rereads_pure {a : α} (h : P a) : Rereads allow (.pure a) ix P := returns_pure ⟨rfl, rfl, h⟩

theorem rereads_bind {p : Sql α} {f : α → Sql β} (hp : Rereads allow p ix P)
    (hf : ∀ a, P a → Rereads allow (f a) ix P') : Rereads allow (p >>= f) ix P' := by
  refine returns_bind hp ?_
  rintro a _ _ ⟨rfl, rfl, ha⟩
  exact hf a ha

theorem rereads_mapError {p : Sql α} {g : Error → Error} (h : Rereads allow p ix P) :
    Rereads allow (p.mapError g) ix P := returns_mapError h

/-- A statement that succeeds and changes nothing. -/
theorem rereads_execute {text : String} {s : Stmt} {P : s.Resp → Prop}
    (h : ∀ x, ∃ r, exec s x ix.toDb = .ok (r, ix.toDb) ∧ P r) : Rereads allow (execute text s) ix P := by
  refine returns_execute (fun c₁ x r c₂ hc ho hx => ?_) (fun hB c₁ hc o ho => ?_)
  · cases hc
    obtain ⟨r', hr, hP⟩ := h x
    cases hr.symm.trans hx
    exact ⟨.inl rfl, rfl, rfl, hP⟩
  · cases hc
    obtain ⟨x, rfl⟩ := hB _ _ _ _ ho
    obtain ⟨r, hr, -⟩ := h x
    exact ⟨x, rfl, r, _, hr⟩

theorem rereads_forM (l : List γ) {f : γ → Sql PUnit}
    (hf : ∀ x ∈ l, Rereads allow (f x) ix fun _ => True) :
    Rereads allow (l.forM f) ix fun _ => True := by
  induction l with
  | nil => exact rereads_pure trivial
  | cons x l ih =>
    exact rereads_bind (hf x List.mem_cons_self) fun _ _ =>
      ih fun y hy => hf y (List.mem_cons_of_mem _ hy)

theorem rereads_foldlM (l : List γ) {f : β → γ → Sql β} {b : β}
    (hf : ∀ x ∈ l, Rereads allow (f b x) ix (· = b)) : Rereads allow (l.foldlM f b) ix (· = b) := by
  induction l with
  | nil => exact rereads_pure rfl
  | cons x l ih =>
    refine rereads_bind (hf x List.mem_cons_self) ?_
    rintro _ rfl
    exact ih fun y hy => hf y (List.mem_cons_of_mem _ hy)

/-- Whatever the run ended in, the index is as it was. -/
theorem rereads_finishes {p : Sql α} (h : Rereads allow p ix P) {r : Except Error α} {db : Db}
    (hf : Finishes engine allow p ix.toDb r db) :
    db = ix.toDb ∧ (∀ a, r = .ok a → P a) ∧ (Quiet allow → ∃ a, r = .ok a) := by
  obtain ⟨hval, hret⟩ := returns_finishes (U := crashRules allow (· = ix.toDb)) h hf
  refine ⟨?_, fun a ha => ?_, hret⟩
  · rcases crash_of_wp h hf.crash with hc | hc <;> exact hc
  · obtain ⟨t, -, -, hP⟩ := hval a ha
    exact hP

/-- Without faults the run returns. -/
theorem rereads_returns {p : Sql α} (h : Rereads noFault p ix P) :
    ∃ a, Finishes engine noFault p ix.toDb (.ok a) ix.toDb := by
  have hsolo : wp engine (soloRules noFault) p
      (fun r c _ => ∃ a, r = .ok a ∧ c = ix.toDb) ix.toDb .idle := by
    have hweak : wp engine (soloRules noFault) p (fun r c t =>
        (∀ a, r = .ok a → c = ix.toDb ∧ t = .idle ∧ P a) ∧
          (Quiet noFault → ∃ a, r = .ok a)) ix.toDb .idle := by
      refine wp_weaken (U := crashRules noFault (· = ix.toDb)) ?_ ?_ ?_ h
      · exact fun _ _ _ hc => hc
      · exact fun _ _ _ => trivial
      · exact fun _ _ _ _ ho => ho
    refine wp_mono ?_ hweak
    rintro r c t ⟨hval, hret⟩
    obtain ⟨a, rfl⟩ := hret fun _ _ _ _ ho => ho
    exact ⟨a, rfl, (hval a rfl).1⟩
  obtain ⟨a, c, hf, rfl⟩ := finishes_of_wp hsolo
  exact ⟨a, hf⟩

end

/-! ## The embedder a run leaves recorded -/

section
variable {allow : Req Stmt → Outcome RowId SqlError → Db → Txn Db → Prop} {e : Embedder}
  {repoId : Text} {c c' : Db}

theorem embedder_runStmt {s : Stmt} {x : RowId} {r : s.Resp} (hs : RunStmt repoId e s)
    (hx : exec s x c = .ok (r, c')) (h : c.embedder = some (e.id, e.dim)) :
    c'.embedder = some (e.id, e.dim) := by
  have hrec := records_runStmt hs hx
  rw [embedder_eq_some] at h ⊢
  refine ⟨?_, ?_⟩
  · rcases hrec.id with hid | hid
    · exact hid.trans h.1
    · exact hid
  · rcases hrec.dim with hdim | hdim
    · exact hdim.trans h.2
    · exact hdim

theorem wp_embedder {α : Type} {p : Sql α} (hp : p.Only (RunStmt repoId e))
    (h : c.embedder = some (e.id, e.dim)) : wp engine (crashRules allow fun _ => True) p
      (fun _ c' _ => c'.embedder = some (e.id, e.dim)) c .idle :=
  wp_only (U := crashRules allow fun _ => True)
    (K := fun c => c.embedder = some (e.id, e.dim))
    (G := fun a b => a.embedder = some (e.id, e.dim) → b.embedder = some (e.id, e.dim))
    (fun _ h => h) (fun _ _ _ h h' ha => h' (h ha)) (fun _ _ _ _ _ hs hx ha => embedder_runStmt hs hx ha)
    (fun _ _ ha h => h ha) (fun _ _ hb ha => by cases hb; exact ha) (fun _ _ _ _ => .inr trivial)
    hp h (fun _ hw => by cases hw)

theorem guards_writeEmbedderMeta : Guards engine allow (fun _ => True)
    (writeEmbedderMeta e.id e.dim) c fun _ c' => c'.embedder = some (e.id, e.dim) := by
  refine guards_bind (P := fun _ c' => c'.metaValue metaEmbedderId = some e.id) ?_ fun _ c₁ h₁ => ?_
  · refine guards_execute fun x r c' _ hx => ?_
    obtain ⟨m, hm, hx⟩ := need_bind_eq_ok.1 hx
    cases hx
    exact ⟨.inr trivial, metaValue_stamp hm⟩
  · refine guards_execute fun x r c' _ hx => ?_
    obtain ⟨m, hm, hx⟩ := need_bind_eq_ok.1 hx
    cases hx
    exact ⟨.inr trivial, embedder_eq_some.2 ⟨(metaValue_dim hm).trans h₁, recordedDim_stamp hm⟩⟩

theorem guards_checkEmbedder_recorded : Guards engine allow (fun _ => True) (checkEmbedder e) c
    fun _ c' => c'.embedder = some (e.id, e.dim) := by
  refine guards_bind (P := fun _ c' => c'.embedder = none ∨ c'.embedder = some (e.id, e.dim)) ?_
    fun _ c₁ h₁ => ?_
  · refine guards_mapError (guards_bind guards_readEmbedderMeta fun stored c' hc => ?_)
    obtain ⟨rfl, hst⟩ := hc
    cases stored with
    | none => exact guards_pure (.inl hst.symm)
    | some pair =>
      obtain ⟨id, dim⟩ := pair
      simp only
      split
      · exact guards_throw
      · next hsame =>
        rw [not_or, not_not, not_not] at hsame
        obtain ⟨rfl, rfl⟩ := hsame
        exact guards_pure (.inr hst.symm)
  · refine guards_bind guards_readEmbedderMeta fun stored c' hc => ?_
    obtain ⟨rfl, rfl⟩ := hc
    rcases h₁ with h₁ | h₁
    · rw [h₁]
      exact guards_mapError guards_writeEmbedderMeta
    · rw [h₁]
      exact guards_pure h₁

/-- A run that returned has its embedder recorded. -/
theorem embedder_reindexWith {D : Deps} {view : RepoView} {force : Bool} {report : ReindexReport}
    (hf : Finishes engine allow (reindexWith D view force e) c (.ok report) c') :
    c'.embedder = some (e.id, e.dim) := by
  have hwp : wp engine (crashRules allow fun _ => True) (reindexWith D view force e)
      (fun r c' _ => ∀ a, r = .ok a → c'.embedder = some (e.id, e.dim)) c .idle :=
    wp_reindexWith (A := fun _ => True) (B := fun _ => True) D view force
      (guards_execute fun _ _ _ _ _ => ⟨.inr trivial, trivial⟩)
      (fun _ _ _ => guards_checkEmbedder_recorded)
      (fun _ _ _ => guards_batch_txn fun _ _ => ⟨.inr trivial, trivial⟩)
      (fun _ _ => guards_writeEmbedderMeta) wp_embedder
  obtain ⟨t, hq⟩ := wp_finishes (U := crashRules allow fun _ => True) hwp hf
  exact hq report rfl

end

/-! ## The second run -/

/-- What a run leaves for the next one: it recorded these files, and its embedder. -/
structure UpToDate (D : Deps) (e : Embedder) (repoId : Text) (files : List WalkedFile)
    (ix : Index) : Prop where
  rows : ∀ r ∈ ix.files.rows, r.repoId = repoId ∧ r.path ∈ files.map (·.relPath)
  hashes : ∀ f ∈ files, ix.stored repoId f.relPath = some (f.hash D)
  embedder : ix.toDb.embedder = some (e.id, e.dim)

section
variable {allow : Req Stmt → Outcome RowId SqlError → Db → Txn Db → Prop} {D : Deps} {e : Embedder}
  {repoId : Text} {files : List WalkedFile} {ix : Index}

/-- Only membership counts. -/
theorem UpToDate.congr {files' : List WalkedFile} (h : UpToDate D e repoId files ix)
    (hmem : ∀ f, f ∈ files' ↔ f ∈ files) : UpToDate D e repoId files' ix where
  rows r hr := by
    obtain ⟨hR, hp⟩ := h.rows r hr
    obtain ⟨f, hf, heq⟩ := List.mem_map.1 hp
    exact ⟨hR, List.mem_map.2 ⟨f, (hmem f).2 hf, heq⟩⟩
  hashes f hf := h.hashes f ((hmem f).1 hf)
  embedder := h.embedder

theorem rereads_rewrite (h : ∀ r ∈ ix.files.rows, r.repoId = repoId) :
    Rereads allow (rewritePlaceholderRepoId repoId) ix fun _ => True := by
  refine rereads_execute fun x => ⟨(), ?_, trivial⟩
  have hsame : ix.files.update? (fun r => r.repoId = migrationPlaceholderRepoId)
      (fun r => { r with repoId := repoId }) = some ix.files := by
    rw [Table.update?_eq_some]
    conv => lhs; rw [← List.map_id ix.files.rows]
    refine List.map_congr_left fun r hr => ?_
    rw [← h r hr]
    simp
  exact checked_bind_eq_ok.2 ⟨ix.files, hsame, rfl⟩

theorem rereads_readMeta (key : Text) :
    Rereads allow (readMeta key) ix (· = ix.toDb.metaValue key) :=
  rereads_execute fun _ => ⟨_, rfl, rfl⟩

theorem rereads_readEmbedderMeta (h : ix.toDb.embedder = some (e.id, e.dim)) :
    Rereads allow readEmbedderMeta ix (· = some (e.id, e.dim)) := by
  obtain ⟨hid, hrec⟩ := embedder_eq_some.1 h
  obtain ⟨s, hs, hdim⟩ := Option.bind_eq_some_iff.1 hrec
  refine rereads_bind (rereads_readMeta metaEmbedderId) ?_
  rintro _ rfl
  refine rereads_bind (rereads_readMeta metaEmbedderDim) ?_
  rintro _ rfl
  rw [hid, hs]
  simp only [hdim]
  exact rereads_pure rfl

/-- The check passes, and there is nothing to stamp. -/
theorem rereads_checkEmbedder (h : ix.toDb.embedder = some (e.id, e.dim)) :
    Rereads allow (checkEmbedder e) ix fun _ => True := by
  have verify : Rereads allow (verifyEmbedderMeta e.id e.dim) ix fun _ => True := by
    refine rereads_bind (rereads_readEmbedderMeta h) ?_
    rintro _ rfl
    simp only [ne_eq, not_true_eq_false, or_self, if_false]
    exact rereads_pure trivial
  refine rereads_bind (rereads_mapError verify) fun _ _ => ?_
  refine rereads_bind (rereads_readEmbedderMeta h) ?_
  rintro _ rfl
  exact rereads_pure trivial

/-- A file whose hash is recorded is skipped. -/
theorem rereads_incrementalStep (hA : ∀ path, Answered repoId allow path) {view : RepoView}
    {f : WalkedFile} (h : ix.stored repoId f.relPath = some (f.hash D)) (counts : Nat × Nat) :
    Rereads allow (incrementalStep D view repoId e counts f) ix (· = counts) := by
  have lookup : Rereads allow (storedFileState f.relPath repoId) ix
      (fun v => v.map (·.1) = some (f.hash D)) := by
    refine (wp_bind _ _ _ _ _).2 ((wp_attempt _ _ _ _).2 ?_)
    intro c₁ hc o ho
    cases hc
    obtain ⟨x, rfl⟩ := hA _ _ _ _ ho
    refine ⟨.inl rfl, fun v hv => ?_, fun _ => ⟨_, rfl⟩⟩
    cases hv
    refine ⟨rfl, rfl, ?_⟩
    rw [← h]
    simp [Index.stored, Function.comp_def]
  refine rereads_bind lookup fun v hv => ?_
  rw [if_pos hv]
  exact rereads_pure rfl

/-- An incremental run of what was recorded reads, and that is all. -/
theorem rereads_reindexWith {view : RepoView} (hA : ∀ path, Answered (repoIdFor D view.canonicalRoot) allow path)
    (h : UpToDate D e (repoIdFor D view.canonicalRoot) view.walked ix) :
    Rereads allow (reindexWith D view false e) ix fun report => report.filesIndexed = 0 := by
  refine rereads_bind (rereads_rewrite fun r hr => (h.rows r hr).1) fun _ _ => ?_
  refine rereads_bind (rereads_checkEmbedder h.embedder) fun _ _ => ?_
  have paths : Rereads allow (storedFilePaths (repoIdFor D view.canonicalRoot)) ix
      (fun stored => ∀ rel ∈ stored, rel ∈ view.walked.map (·.relPath)) := by
    refine rereads_execute fun _ => ⟨_, rfl, fun rel hrel => ?_⟩
    obtain ⟨r, hr, rfl⟩ := List.mem_map.1 hrel
    exact (h.rows r (List.mem_filter.1 hr).1).2
  refine rereads_bind (P := (· = (0, 0))) (rereads_bind paths fun stored hstored => ?_) ?_
  · refine rereads_bind (rereads_forM stored fun rel hrel => ?_) fun _ _ => ?_
    · unfold dropStep
      rw [if_pos (hstored rel hrel)]
      exact rereads_pure trivial
    · exact rereads_foldlM view.walked fun f hf => rereads_incrementalStep hA (h.hashes f hf) (0, 0)
  · rintro _ rfl
    exact rereads_pure rfl

end

/-! ## Runs on walked trees -/

/-- What a run on a walk reads. -/
def Walk.view (walk : Walk) (root : Text) (mtime : Text → Int) (durationMs : Nat) : RepoView :=
  { canonicalRoot := root, walked := walkRepo walk, mtime, durationMs }

/-- The databases a repository's index goes through: it starts fresh, and each run, full or
incremental, of whatever the tree then is, ends or is stopped after any of its requests. -/
inductive WalkHistory (D : Deps) (e : Embedder) (root : Text) : Db → Prop
  | fresh (width : Nat) (m : MetaTable) : WalkHistory D e root (Index.fresh width m).toDb
  | run {db db' : Db} (walk : Walk) (mtime : Text → Int) (durationMs : Nat) (force : Bool) :
      WalkHistory D e root db →
      Crash engine anyOutcome (reindexWith D (walk.view root mtime durationMs) force e) db db' →
      WalkHistory D e root db'

/-- The row and the rows of its path are the file's. -/
structure Owns (D : Deps) (e : Embedder) (repoId : Text) (ix : Index) (f : WalkedFile)
    (row : FileRow) : Prop where
  mem : row ∈ ix.files.rows
  repo : row.repoId = repoId
  path : row.path = f.relPath
  hash : row.blake3Hash = f.hash D
  rows : fileRows D e f = some (ix.rowsOf row.path)

/-- Each indexable file the walk visited owns a `files` row, and no two the same. -/
def EachOwns (D : Deps) (e : Embedder) (repoId : Text) (walk : Walk) (ix : Index) : Prop :=
  ∃ own : DirEntry → FileRow,
    (∀ x ∈ walk.entries, ∀ f, walkEntry x = some f → Owns D e repoId ix f (own x)) ∧
    ∀ x ∈ walk.entries, ∀ y ∈ walk.entries, (walkEntry x).isSome → (walkEntry y).isSome →
      own x = own y → x = y

/-- An incremental run of the same tree, in whatever order it is walked, returns when no
request fails; however it ends, while its lookups are answered it leaves the database as it
is, and a report it returns counts no file. -/
def NoOp (D : Deps) (e : Embedder) (root : Text) (walk : Walk) (db : Db) : Prop :=
  ∀ (again : Walk) (mtime : Text → Int) (durationMs : Nat), again.visits.Perm walk.visits →
    (∃ report, Finishes engine noFault (reindexWith D (again.view root mtime durationMs) false e) db
      (.ok report) db) ∧
    ∀ allow, (∀ path, Answered (repoIdFor D root) allow path) → ∀ r db', Finishes engine allow
      (reindexWith D (again.view root mtime durationMs) false e) db r db' →
      db' = db ∧ (∀ report, r = .ok report → report.filesIndexed = 0) ∧
        (Quiet allow → ∃ report, r = .ok report)

/-- Indexable files of the walk are told apart by their decoded names. -/
def Walk.Apart (walk : Walk) : Prop :=
  ∀ x ∈ walk.entries, ∀ y ∈ walk.entries, (walkEntry x).isSome → (walkEntry y).isSome →
    x.path.map Name.lossy = y.path.map Name.lossy → x = y

theorem Walk.nodup_entries (walk : Walk) : walk.entries.Nodup := .of_map _ walk.distinct

theorem mem_walkRepo {walk : Walk} {f : WalkedFile} :
    f ∈ walkRepo walk ↔ ∃ x ∈ walk.entries, walkEntry x = some f := List.mem_filterMap

theorem walkRepo_language {walk : Walk} {f : WalkedFile} (hf : f ∈ walkRepo walk) :
    LanguageOfPath f := by
  obtain ⟨x, -, hx⟩ := mem_walkRepo.1 hf
  exact walkEntry_language hx

/-- The order of a walk does not matter. -/
theorem mem_walkRepo_perm {walk again : Walk} (h : again.visits.Perm walk.visits) (f : WalkedFile) :
    f ∈ walkRepo again ↔ f ∈ walkRepo walk := by
  have hentries : again.entries.Perm walk.entries := h.filterMap _
  rw [mem_walkRepo, mem_walkRepo]
  simp only [hentries.mem_iff]

/-- Files told apart by their decoded names have keys of their own. -/
theorem Walk.Apart.validTree {walk : Walk} (h : walk.Apart) : ValidTree (walkRepo walk) where
  paths := by
    unfold walkRepo
    rw [List.Nodup, List.pairwise_map, List.pairwise_filterMap]
    refine walk.nodup_entries.imp_of_mem fun {x y} hx hy hne f hf g hg heq => hne ?_
    refine h x hx y hy (by rw [hf]; rfl) (by rw [hg]; rfl) ?_
    rw [← normalizeRelPath_eq_iff, ← (walkEntry_eq_some hf).2.1, ← (walkEntry_eq_some hg).2.1, heq]
  language _ hf := walkRepo_language hf

/-- Names that are UTF-8 are their decoded names. -/
theorem Walk.apart_of_utf8 {walk : Walk}
    (h : ∀ x ∈ walk.entries, (walkEntry x).isSome → ∀ name ∈ x.path, (toStr? name.bytes).isSome) :
    walk.Apart := by
  have names : ∀ p q : List Name, (∀ n ∈ p, (toStr? n.bytes).isSome) →
      (∀ n ∈ q, (toStr? n.bytes).isSome) → p.map Name.lossy = q.map Name.lossy → p = q := by
    intro p
    induction p with
    | nil =>
      intro q _ _ heq
      exact (List.map_eq_nil_iff.1 heq.symm).symm
    | cons n p ih =>
      intro q hp hq heq
      cases q with
      | nil => cases heq
      | cons m q =>
        obtain ⟨hnm, hrest⟩ := List.cons.inj heq
        rw [Name.lossy_injective (hp n List.mem_cons_self) (hq m List.mem_cons_self) hnm,
          ih q (fun k hk => hp k (List.mem_cons_of_mem _ hk))
            (fun k hk => hq k (List.mem_cons_of_mem _ hk)) hrest]
  intro x hx y hy hxs hys heq
  exact List.inj_on_of_nodup_map walk.distinct hx hy (names _ _ (h x hx hxs) (h y hy hys) heq)

section
variable {allow : Req Stmt → Outcome RowId SqlError → Db → Txn Db → Prop} {D : Deps} {e : Embedder}
  {root : Text} {db db' : Db} {walk : Walk} {mtime : Text → Int} {durationMs : Nat} {force : Bool}
  {report : ReindexReport}

theorem WalkHistory.coherent (h : WalkHistory D e root db) :
    IsCoherent D e LanguageOfPath (repoIdFor D root) db := by
  induction h with
  | fresh width m => exact ⟨_, rfl, .fresh width m⟩
  | run walk mtime durationMs force _ hc ih =>
    exact keeps_crash (keeps_reindexWith (walk.view root mtime durationMs) force
      fun _ => walkRepo_language) hc ih

/-- A run that returned, on a tree of distinct keys, holds the tree and recorded it. -/
theorem upToDate_reindexWith (h : WalkHistory D e root db) (hv : ValidTree (walkRepo walk))
    (hinj : NoCollision D (walkRepo walk))
    (hf : Finishes engine allow (reindexWith D (walk.view root mtime durationMs) force e) db
      (.ok report) db') :
    ∃ ix : Index, db' = ix.toDb ∧ UpToDate D e (repoIdFor D root) (walkRepo walk) ix ∧
      HoldsTree D e (walkRepo walk) ix := by
  have hemb := embedder_reindexWith hf
  obtain ⟨ix, rfl, hc⟩ := h.coherent
  obtain ⟨ix', rfl, hc'⟩ := keeps_finishes (keeps_reindexWith (walk.view root mtime durationMs) force
    hv.language) hf ⟨ix, rfl, hc⟩
  cases force with
  | true =>
    have hpaths : ((walk.view root mtime durationMs).walked.map (·.relPath)).Nodup := hv.paths
    obtain ⟨ix'', heq, hreb, -⟩ := yields_finishes (yields_reindexWith_force D e hpaths) hf
    cases Index.toDb_inj.1 heq
    refine ⟨ix', rfl, ⟨fun r hr => ?_, fun f hf => ?_, hemb⟩, hreb.holdsTree⟩
    · obtain ⟨f, hf, rfl⟩ := (hreb.filesRows r).1 hr
      exact ⟨rfl, List.mem_map_of_mem hf⟩
    · exact Index.stored_eq_some.2 ⟨_, (hreb.filesRows _).2 ⟨f, hf, rfl⟩, rfl, rfl, rfl⟩
  | false =>
    obtain ⟨ix'', heq, ix₁, m, redone, hrw, hrun, -⟩ :=
      yields_finishes (yields_reindexWith_incremental D e hc.bound) hf
    cases Index.toDb_inj.1 heq
    cases hrw.eq_self fun r hr _ => hc.repo r hr
    have hdiff : Diffed D e (repoIdFor D root) (walk.view root mtime durationMs)
        { ix with metaRows := m } ix' :=
      diffed_of_diffRun D e _ hv.paths ⟨hc.bound.vec, hc.bound.fts, hc.bound.symbols⟩ hrun
    refine ⟨ix', rfl, ⟨fun r hr => ⟨hc'.repo r hr, ?_⟩, hdiff.recorded, hemb⟩,
      hdiff.holdsTree (hc.metaRows m) hv hinj⟩
    by_contra hp
    exact Index.stored_eq_none.1 (hdiff.unlisted _ hp) r hr rfl (hc'.repo r hr)

theorem noOp_of_upToDate {ix : Index}
    (h : UpToDate D e (repoIdFor D root) (walkRepo walk) ix) : NoOp D e root walk ix.toDb := by
  intro again mtime durationMs hperm
  have h' : UpToDate D e (repoIdFor D root) (again.view root mtime durationMs).walked ix :=
    h.congr (mem_walkRepo_perm hperm)
  refine ⟨?_, fun allow hA r db' hf => ?_⟩
  · exact rereads_returns (rereads_reindexWith (fun _ _ _ _ ho => ho) h')
  · exact rereads_finishes (rereads_reindexWith hA h') hf

theorem eachOwns_of_upToDate {ix : Index} (hapart : walk.Apart)
    (h : UpToDate D e (repoIdFor D root) (walkRepo walk) ix) (htree : HoldsTree D e (walkRepo walk) ix) :
    EachOwns D e (repoIdFor D root) walk ix := by
  have hrow : ∀ x, ∃ row, ∀ f, x ∈ walk.entries → walkEntry x = some f →
      Owns D e (repoIdFor D root) ix f row := by
    intro x
    by_cases hx : x ∈ walk.entries ∧ ∃ f, walkEntry x = some f
    · obtain ⟨hx, f, hf⟩ := hx
      have hmem : f ∈ walkRepo walk := mem_walkRepo.2 ⟨x, hx, hf⟩
      obtain ⟨row, hrow, hp, hR, hh⟩ := Index.stored_eq_some.1 (h.hashes f hmem)
      refine ⟨row, fun g _ hg => ?_⟩
      cases hf.symm.trans hg
      exact ⟨hrow, hR, hp, hh, by rw [hp]; exact htree.rows f hmem⟩
    · refine ⟨filesRow ⟨[], none, []⟩ [] 0 [], fun f hmem hf => absurd ⟨hmem, f, hf⟩ hx⟩
  choose own hown using hrow
  refine ⟨own, fun x hx f hf => hown x f hx hf, fun x hx y hy hxs hys heq => ?_⟩
  obtain ⟨f, hf⟩ := Option.isSome_iff_exists.1 hxs
  obtain ⟨g, hg⟩ := Option.isSome_iff_exists.1 hys
  refine hapart x hx y hy hxs hys ?_
  rw [← normalizeRelPath_eq_iff, ← (walkEntry_eq_some hf).2.1, ← (walkEntry_eq_some hg).2.1,
    ← (hown x f hx hf).path, ← (hown y g hy hg).path, heq]

/-- Rows of one key are one row. -/
theorem EachOwns.apart {ix : Index} {repoId : Text} (h : EachOwns D e repoId walk ix) :
    walk.Apart := by
  obtain ⟨own, hown, hinj⟩ := h
  intro x hx y hy hxs hys heq
  obtain ⟨f, hf⟩ := Option.isSome_iff_exists.1 hxs
  obtain ⟨g, hg⟩ := Option.isSome_iff_exists.1 hys
  have hx' := hown x hx f hf
  have hy' := hown y hy g hg
  have hpath : (own x).path = (own y).path := by
    rw [hx'.path, hy'.path, (walkEntry_eq_some hf).2.1, (walkEntry_eq_some hg).2.1,
      normalizeRelPath_eq_iff.2 heq]
  refine hinj x hx y hy hxs hys (by_contra fun hne => ?_)
  exact ix.files.not_clash_of_mem FileRow.clash_symm hx'.mem hy'.mem hne
    ⟨hx'.repo.trans hy'.repo.symm, hpath⟩

end

/-- After any history, a run of a walk that returns leaves every indexable file rows of its
own and an index that the next run of the same tree does not touch, if and only if no two
indexable files of the walk have the same decoded names. -/
theorem unchanged_noop_iff (D : Deps) (e : Embedder) (root : Text) (db : Db)
    (h : WalkHistory D e root db) (walk : Walk) (hinj : NoCollision D (walkRepo walk))
    (mtime : Text → Int) (durationMs : Nat) (force : Bool)
    (allow : Req Stmt → Outcome RowId SqlError → Db → Txn Db → Prop) (report : ReindexReport)
    (db' : Db) (hf : Finishes engine allow (reindexWith D (walk.view root mtime durationMs) force e)
      db (.ok report) db') :
    ((∃ ix : Index, db' = ix.toDb ∧ EachOwns D e (repoIdFor D root) walk ix) ∧
      NoOp D e root walk db') ↔ walk.Apart := by
  constructor
  · rintro ⟨⟨ix, -, howns⟩, -⟩
    exact howns.apart
  · intro hapart
    obtain ⟨ix, rfl, hrec, htree⟩ := upToDate_reindexWith h hapart.validTree hinj hf
    exact ⟨⟨ix, rfl, eachOwns_of_upToDate hapart hrec htree⟩, noOp_of_upToDate hrec⟩

/-! ## Names that are not UTF-8 -/

/-- The one-byte names 0xFF, 0xFE and `a`. -/
def nameFF : Name := ⟨[0xFF], by decide, by decide, by decide, by decide⟩
def nameFE : Name := ⟨[0xFE], by decide, by decide, by decide, by decide⟩
def nameA : Name := ⟨[0x61], by decide, by decide, by decide, by decide⟩

/-- A regular file in the root. -/
def rootFile (name : Name) (bytes : List UInt8) : DirEntry :=
  { path := [name], isFile := true, len := some bytes.length, content := some bytes,
    root := fun h => absurd h (List.cons_ne_nil _ _) }

/-- A name that is not UTF-8 beside one that is, after an entry the walker could not read. -/
def lossyWalk : Walk where
  visits := [none, some (rootFile nameFF [0x61, 0x0A]), some (rootFile nameA [0x62, 0x0A])]
  distinct := by decide

/-- A full run of it, and the second run that does nothing. -/
theorem unchanged_noop_lossy : ∃ report db',
    Finishes engine noFault (reindexWith .plain (lossyWalk.view "/old".toList (fun _ => 0) 0) true
      oneFileEmbedder) (Index.fresh 1 .empty).toDb (.ok report) db' ∧
    report.filesIndexed = 2 ∧ NoOp .plain oneFileEmbedder "/old".toList lossyWalk db' := by
  have hfin : Finishes engine noFault (reindexWith .plain
      (lossyWalk.view "/old".toList (fun _ => 0) 0) true oneFileEmbedder)
      (Index.fresh 1 .empty).toDb (.ok ⟨2, 2, 0, false⟩) _ :=
    finishes_replay (fun o (ho : o ∈ succeed 40) _ _ _ => ⟨7, (List.mem_replicate.1 ho).2⟩)
      (by decide +kernel)
  have hapart : lossyWalk.Apart := by
    unfold Walk.Apart
    decide +kernel
  have hinj : NoCollision .plain (walkRepo lossyWalk) := noCollision_plain (by decide +kernel)
  refine ⟨_, _, hfin, rfl, ?_⟩
  exact ((unchanged_noop_iff .plain oneFileEmbedder "/old".toList _ (.fresh 1 .empty) lossyWalk hinj
    (fun _ => 0) 0 true noFault _ _ hfin).2 hapart).2

/-- Two names that are not UTF-8 and decode to the same text. -/
def collidingWalk : Walk where
  visits := [some (rootFile nameFF [0x61, 0x0A]), some (rootFile nameFE [0x62, 0x0A])]
  distinct := by decide

/-- What a full run of it leaves. -/
def collidedDb : Db :=
  (replay engine (succeed 40) (reindexWith .plain (collidingWalk.view "/old".toList (fun _ => 0) 0)
    true oneFileEmbedder) (Index.fresh 1 .empty).toDb .idle).2.1

/-- The two files have one `files` row, and the second run of the unchanged tree indexes both
again, one over the other. -/
theorem lossy_names_collide :
    WalkHistory .plain oneFileEmbedder "/old".toList (Index.fresh 1 .empty).toDb ∧
    NoCollision .plain (walkRepo collidingWalk) ∧
    Finishes engine noFault (reindexWith .plain (collidingWalk.view "/old".toList (fun _ => 0) 0)
      true oneFileEmbedder) (Index.fresh 1 .empty).toDb (.ok ⟨2, 2, 0, false⟩) collidedDb ∧
    (∃ db', Finishes engine noFault (reindexWith .plain
      (collidingWalk.view "/old".toList (fun _ => 0) 0) false oneFileEmbedder) collidedDb
      (.ok ⟨2, 2, 0, true⟩) db') ∧
    ¬ (∃ ix : Index, collidedDb = ix.toDb ∧ EachOwns .plain oneFileEmbedder
      (repoIdFor .plain "/old".toList) collidingWalk ix) ∧
    ¬ NoOp .plain oneFileEmbedder "/old".toList collidingWalk collidedDb := by
  have quiet : ∀ o ∈ succeed 40, ∀ (q : Req Stmt) (c : Db) (t : Txn Db), noFault q o c t :=
    fun o ho _ _ _ => ⟨7, (List.mem_replicate.1 ho).2⟩
  have hagain : Finishes engine noFault (reindexWith .plain
      (collidingWalk.view "/old".toList (fun _ => 0) 0) false oneFileEmbedder) collidedDb
      (.ok ⟨2, 2, 0, true⟩) _ := finishes_replay quiet (by decide +kernel)
  refine ⟨.fresh 1 .empty, noCollision_plain (by decide +kernel), ?_, ⟨_, hagain⟩, ?_, fun hno => ?_⟩
  · exact finishes_replay quiet (by decide +kernel)
  · rintro ⟨ix, -, howns⟩
    have hapart := howns.apart
    revert hapart
    unfold Walk.Apart
    decide +kernel
  · obtain ⟨-, hall⟩ := hno collidingWalk (fun _ => 0) 0 (.refl _)
    have hzero := (hall noFault (fun _ _ _ _ ho => ho) _ _ hagain).2.1 _ rfl
    cases hzero

end CodeSearch
