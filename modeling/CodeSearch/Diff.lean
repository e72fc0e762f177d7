import CodeSearch.Lib.Invariant
import CodeSearch.Reprocess

/-!
# What a run of its own does to the index

`Yields p ix P`: if `p`, run by one connection on the index `ix` while nobody
else commits, returns `a`, it leaves an index `ix'` with `P a ix'`.

An incremental run that returns leaves every file of its tree recorded with its
hash, and the rows of that file are its own unless the hash was recorded before;
what was recorded and is not in the tree is gone, everything else is as it was
(`Diffed`).  A full run leaves the rows of its tree and nothing else (`Rebuilt`).
-/

namespace CodeSearch

open Relational Store

variable (D : Deps) (e : Embedder)

/-! ## Runs that return -/

/-- `p` returned with no transaction open, and left an index with `P`. -/
def okPost {α : Type} (P : α → Index → Prop) (r : Except Error α) (c : Db) (t : Txn Db) : Prop :=
  ∀ a, r = .ok a → t = .idle ∧ ∃ ix : Index, c = ix.toDb ∧ P a ix

/-- Run alone on `ix`, a `p` that returns `a` leaves an index with `P a`. -/
def Yields (allow : Req Stmt → Outcome RowId SqlError → Db → Txn Db → Prop) {α : Type}
    (p : Sql α) (ix : Index) (P : α → Index → Prop) : Prop :=
  wp engine (soloRules allow) p (okPost P) ix.toDb .idle

section
variable {allow : Req Stmt → Outcome RowId SqlError → Db → Txn Db → Prop} {α β γ : Type}
  {ix : Index} {P : α → Index → Prop} {P' : β → Index → Prop}

theorem yields_finishes {p : Sql α} {a : α} {c' : Db} (h : Yields allow p ix P)
    (hf : Finishes engine allow p ix.toDb (.ok a) c') : ∃ ix' : Index, c' = ix'.toDb ∧ P a ix' := by
  obtain ⟨t', hq⟩ := wp_finishes (U := soloRules allow) h hf
  exact (hq a rfl).2

theorem yields_mono {p : Sql α} {P₂ : α → Index → Prop} (hP : ∀ a ix', P a ix' → P₂ a ix')
    (h : Yields allow p ix P) : Yields allow p ix P₂ :=
  wp_mono (fun r c t hq a ha => by
    obtain ⟨ht, ix', hc, hp⟩ := hq a ha
    exact ⟨ht, ix', hc, hP a ix' hp⟩) h

theorem yields_pure {a : α} (h : P a ix) : Yields allow (.pure a) ix P := by
  rintro _ ⟨⟩
  exact ⟨rfl, ix, rfl, h⟩

theorem yields_throw {y : Error} : Yields allow (.throw y) ix P := by
  rintro _ ⟨⟩

theorem yields_bind {p : Sql α} {f : α → Sql β} (hp : Yields allow p ix P)
    (hf : ∀ a ix', P a ix' → Yields allow (f a) ix' P') : Yields allow (p >>= f) ix P' := by
  refine (wp_bind p f _ _ _).2 (wp_mono (fun r c t hq => ?_) hp)
  rcases r with y | a
  · rintro _ ⟨⟩
  · obtain ⟨rfl, ix', rfl, ha⟩ := hq a rfl
    exact hf a ix' ha

theorem yields_mapError {p : Sql α} {g : Error → Error} (h : Yields allow p ix P) :
    Yields allow (p.mapError g) ix P := by
  refine (wp_mapError p g _ _ _).2 (wp_mono (fun r c t hq a ha => ?_) h)
  rcases r with y | b
  · cases ha
  · exact hq a ha

/-- A statement on a migrated index. -/
theorem yields_execute {text : String} {s : Stmt} {P : s.Resp → Index → Prop}
    (h : ∀ x r c', exec s x ix.toDb = .ok (r, c') → ∃ ix' : Index, c' = ix'.toDb ∧ P r ix') :
    Yields allow (execute text s) ix P := by
  refine solo_execute (fun x r c' _ hx a ha => ?_) (fun y a ha => ?_)
  · cases ha; exact ⟨rfl, h x r c' hx⟩
  · cases ha

theorem yields_forM (l : List γ) {f : γ → Sql PUnit} (I : List γ → Index → Prop)
    (hf : ∀ x l ix, I (x :: l) ix → Yields allow (f x) ix fun _ => I l) (hI : I l ix) :
    Yields allow (l.forM f) ix fun _ => I [] := by
  induction l generalizing ix with
  | nil => exact yields_pure hI
  | cons x l ih => exact yields_bind (hf x l ix hI) fun _ ix' hI' => ih hI'

theorem yields_foldlM (l : List γ) {f : β → γ → Sql β} (I : List γ → β → Index → Prop)
    (hf : ∀ x l b ix, I (x :: l) b ix → Yields allow (f b x) ix (I l)) (b : β) (hI : I l b ix) :
    Yields allow (l.foldlM f b) ix (I []) := by
  induction l generalizing ix b with
  | nil => exact yields_pure hI
  | cons x l ih => exact yields_bind (hf x l b ix hI) fun b' ix' hI' => ih b' hI'

end

/-! ## Recorded hashes -/

/-- The hash recorded for a path, as `stored_file_state` looks it up. -/
def Index.stored (ix : Index) (repoId path : Text) : Option Text :=
  (ix.files.rows.find? fun r => r.path = path ∧ r.repoId = repoId).map (·.blake3Hash)

theorem Index.stored_eq_some {ix : Index} {repoId path hash : Text} :
    ix.stored repoId path = some hash ↔
      ∃ r ∈ ix.files.rows, r.path = path ∧ r.repoId = repoId ∧ r.blake3Hash = hash := by
  unfold Index.stored
  constructor
  · intro h
    obtain ⟨r, hr, rfl⟩ := Option.map_eq_some_iff.1 h
    have hp := List.find?_some hr
    simp only [decide_eq_true_eq] at hp
    exact ⟨r, List.mem_of_find?_eq_some hr, hp.1, hp.2, rfl⟩
  · rintro ⟨r, hr, rfl, rfl, rfl⟩
    cases hf : ix.files.rows.find? fun a => decide (a.path = r.path ∧ a.repoId = r.repoId) with
    | none =>
      rw [List.find?_eq_none] at hf
      exact absurd (decide_eq_true ⟨rfl, rfl⟩) (hf r hr)
    | some a =>
      have hp := List.find?_some hf
      simp only [decide_eq_true_eq] at hp
      have ha := List.mem_of_find?_eq_some hf
      have : a = r := by_contra fun hne =>
        ix.files.not_clash_of_mem FileRow.clash_symm ha hr hne ⟨hp.2, hp.1⟩
      rw [this]; rfl

theorem Index.stored_eq_none {ix : Index} {repoId path : Text} :
    ix.stored repoId path = none ↔ ∀ r ∈ ix.files.rows, r.path = path → r.repoId ≠ repoId := by
  rw [Option.eq_none_iff_forall_ne_some]
  constructor
  · intro h r hr hp hR
    exact h _ (stored_eq_some.2 ⟨r, hr, hp, hR, rfl⟩)
  · intro h hash hs
    obtain ⟨r, hr, hp, hR, -⟩ := stored_eq_some.1 hs
    exact h r hr hp hR

section
variable {D e} {ix ix' : Index} {repoId : Text}

theorem Index.stored_congr {a b : Index} {R p : Text}
    (h : ∀ r : FileRow, r.path = p → r.repoId = R → (r ∈ a.files.rows ↔ r ∈ b.files.rows)) :
    a.stored R p = b.stored R p := by
  refine Option.ext fun hash => ?_
  rw [stored_eq_some, stored_eq_some]
  constructor
  · rintro ⟨r, hr, hp, hR, hh⟩
    exact ⟨r, (h r hp hR).1 hr, hp, hR, hh⟩
  · rintro ⟨r, hr, hp, hR, hh⟩
    exact ⟨r, (h r hp hR).2 hr, hp, hR, hh⟩

theorem Reprocessed.mem_files {file : WalkedFile} {row : FileRow}
    (h : Reprocessed D e file row ix ix') (r : FileRow) :
    r ∈ ix'.files.rows ↔ r = row ∨ r ∈ ix.files.rows ∧ ¬ r.clash row := by
  rw [h.files, Table.mem_replace FileRow.clash_symm]

/-- A reprocess records the file's hash. -/
theorem Reprocessed.stored_self {file : WalkedFile} {hash : Text} {mtime : Int}
    (h : Reprocessed D e file (filesRow file hash mtime repoId) ix ix') :
    ix'.stored repoId file.relPath = some hash :=
  Index.stored_eq_some.2 ⟨_, (h.mem_files _).2 (.inl rfl), rfl, rfl, rfl⟩

theorem Reprocessed.stored_other {file : WalkedFile} {hash : Text} {mtime : Int}
    (h : Reprocessed D e file (filesRow file hash mtime repoId) ix ix') {R p : Text}
    (hne : ¬ (p = file.relPath ∧ R = repoId)) : ix'.stored R p = ix.stored R p := by
  refine Index.stored_congr fun r hp hR => ?_
  rw [h.mem_files]
  constructor
  · rintro (rfl | ⟨hr, -⟩)
    · exact absurd ⟨hp.symm, hR.symm⟩ hne
    · exact hr
  · intro hr
    exact .inr ⟨hr, fun hc => hne ⟨hp.symm.trans hc.2, hR.symm.trans hc.1⟩⟩

theorem Index.mem_removePath {rel : Text} (r : FileRow) :
    r ∈ (ix.removePath rel repoId).files.rows ↔
      r ∈ ix.files.rows ∧ ¬ (r.path = rel ∧ r.repoId = repoId) := by
  simp only [Index.removePath, Table.mem_delete, decide_eq_false_iff_not]

theorem Index.stored_removePath_self (rel : Text) :
    (ix.removePath rel repoId).stored repoId rel = none := by
  rw [stored_eq_none]
  intro r hr hp hR
  exact (mem_removePath r |>.1 hr).2 ⟨hp, hR⟩

theorem Index.stored_removePath_other {rel R p : Text} (hne : ¬ (p = rel ∧ R = repoId)) :
    (ix.removePath rel repoId).stored R p = ix.stored R p := by
  refine stored_congr fun r hp hR => ?_
  rw [mem_removePath]
  exact and_iff_left fun hc => hne ⟨hp.symm.trans hc.1, hR.symm.trans hc.2⟩

end

/-! ## The two loops of an incremental run -/

section
variable {allow : Req Stmt → Outcome RowId SqlError → Db → Txn Db → Prop} (repoId : Text)

theorem yields_removeFile (rel : Text) (ix : Index) :
    Yields allow (removeFile rel repoId) ix fun _ ix' => ix' = ix.removePath rel repoId := by
  refine solo_transaction (strict_removeBody _ _) (fun u t' hc a ha => ?_) (fun y t' a ha => ?_)
  · exact ⟨rfl, _, completes_removeBody hc rfl, rfl⟩
  · cases ha

theorem yields_reprocessFileWith {file : WalkedFile} {hash : Text} {mtime : Int} {ix : Index}
    (hb : ix.Bound) : Yields allow (reprocessFileWith D file hash mtime repoId e) ix fun _ ix' =>
      Reprocessed D e file (filesRow file hash mtime repoId) ix ix' := by
  unfold reprocessFileWith
  cases hs : chunkFile D file.content file.language with
  | none => exact yields_throw
  | some specs =>
    refine solo_transaction (strict_reprocessBody D e _ _ _ _ _) (fun n t' hc a ha => ?_)
      (fun y t' a ha => ?_)
    · obtain ⟨ix', hv, -, hr⟩ := completes_reprocessBody D e hs hb hc rfl
      exact ⟨rfl, ix', hv, hr⟩
    · cases ha

/-- The lookup of a path's stored state never fails by itself. -/
def Answered (allow : Req Stmt → Outcome RowId SqlError → Db → Txn Db → Prop) (path : Text) :
    Prop :=
  ∀ o c t, allow (.stmt (.selectFileState path repoId)) o c t → ∃ x, o = .run x

/-- The lookup answers the recorded hash, or it failed. -/
theorem yields_storedFileState (rel : Text) (ix : Index) :
    Yields allow (storedFileState rel repoId) ix fun v ix' => ix' = ix ∧
      (v.map (·.1) = ix.stored repoId rel ∨ v = none ∧ ¬ Answered repoId allow rel) := by
  refine (wp_bind _ _ _ _ _).2 ((wp_attempt _ _ _ _).2 ?_)
  intro c₁ hc o ho
  cases hc
  cases o with
  | run x =>
    refine ⟨trivial, ?_⟩
    rintro a ⟨⟩
    refine ⟨rfl, ix, rfl, rfl, .inl ?_⟩
    simp [Index.stored, Function.comp_def]
  | fail y | abort y =>
    refine ⟨trivial, ?_⟩
    rintro a ⟨⟩
    refine ⟨rfl, ix, rfl, rfl, .inr ⟨rfl, fun hA => ?_⟩⟩
    obtain ⟨x, hx⟩ := hA _ _ _ ho
    cases hx

/-- The files loop of an incremental run from `ix₀`: the files done so far, which
of them were reprocessed, and the index now.  A file is skipped only when its
hash is recorded; one whose lookup is answered (`A`) is reprocessed only when it
is not. -/
inductive DiffRun (mtime : Text → Int) (A : Text → Prop) (ix₀ : Index) :
    List WalkedFile → List WalkedFile → Index → Prop
  | nil : DiffRun mtime A ix₀ [] [] ix₀
  | skip {done redone : List WalkedFile} {ix : Index} {f : WalkedFile} :
      DiffRun mtime A ix₀ done redone ix → ix.stored repoId f.relPath = some (f.hash D) →
      DiffRun mtime A ix₀ (done ++ [f]) redone ix
  | redo {done redone : List WalkedFile} {ix ix' : Index} {f : WalkedFile} :
      DiffRun mtime A ix₀ done redone ix →
      (A f.relPath → ix.stored repoId f.relPath ≠ some (f.hash D)) →
      Reprocessed D e f (filesRow f (f.hash D) (mtime f.relPath) repoId) ix ix' →
      DiffRun mtime A ix₀ (done ++ [f]) (redone ++ [f]) ix'

theorem DiffRun.bound {mtime : Text → Int} {A : Text → Prop} {ix₀ ix : Index}
    {done redone : List WalkedFile} (h : DiffRun D e repoId mtime A ix₀ done redone ix)
    (hb : ix₀.Bound) : ix.Bound := by
  induction h with
  | nil => exact hb
  | skip _ _ ih => exact ih
  | redo _ _ hr _ => exact hr.bound

theorem yields_incrementalStep {view : RepoView} {counts : Nat × Nat} {f : WalkedFile}
    {ix₀ ix : Index} {done redone : List WalkedFile} (hb : ix.Bound)
    (h : DiffRun D e repoId view.mtime (Answered repoId allow) ix₀ done redone ix)
    (hn : counts.1 = redone.length) :
    Yields allow (incrementalStep D view repoId e counts f) ix fun counts' ix' =>
      ix'.Bound ∧ ∃ redone', DiffRun D e repoId view.mtime (Answered repoId allow) ix₀ (done ++ [f])
        redone' ix' ∧ counts'.1 = redone'.length := by
  refine yields_bind (yields_storedFileState repoId f.relPath ix) fun v ix' hv => ?_
  obtain ⟨rfl, hv⟩ := hv
  split
  · next hs =>
    refine yields_pure ⟨hb, redone, .skip h ?_, hn⟩
    rcases hv with hv | ⟨rfl, -⟩
    · rw [← hv, hs]
    · cases hs
  · next hs =>
    refine yields_bind (yields_reprocessFileWith D e repoId hb) fun n ix' hr => ?_
    refine yields_pure ⟨hr.bound, redone ++ [f], .redo h (fun hA => ?_) hr, ?_⟩
    · rcases hv with hv | ⟨-, hno⟩
      · rw [← hv]; exact hs
      · exact absurd hA hno
    · simp [hn]

/-- The files loop. -/
theorem yields_incrementalFiles {view : RepoView} {ix : Index} (hb : ix.Bound) :
    Yields allow (view.walked.foldlM (incrementalStep D view repoId e) (0, 0)) ix
      fun counts ix' => ∃ redone, DiffRun D e repoId view.mtime (Answered repoId allow) ix view.walked
        redone ix' ∧ counts.1 = redone.length := by
  let I : List WalkedFile → Nat × Nat → Index → Prop := fun rest counts ix' => ix'.Bound ∧
    ∃ done redone, view.walked = done ++ rest ∧
      DiffRun D e repoId view.mtime (Answered repoId allow) ix done redone ix' ∧
      counts.1 = redone.length
  refine yields_mono ?_ (yields_foldlM view.walked I ?_ (0, 0) ⟨hb, [], [], rfl, .nil, rfl⟩)
  · rintro counts ix' ⟨-, done, redone, hd, h, hn⟩
    rw [List.append_nil] at hd
    exact ⟨redone, by rw [hd]; exact h, hn⟩
  · rintro f rest counts ix' ⟨hb', done, redone, hd, h, hn⟩
    refine yields_mono ?_ (yields_incrementalStep D e repoId hb' h hn)
    rintro counts' ix'' ⟨hb'', redone', h', hn'⟩
    exact ⟨hb'', done ++ [f], redone', by rw [hd, List.append_assoc]; rfl, h', hn'⟩

/-- What the loop leaves: everything outside the tree as it was, every file of
the tree recorded, with its own rows unless its hash was recorded before. -/
structure DiffRun.Result (ix₀ : Index) (done : List WalkedFile) (ix : Index) : Prop where
  outside : ∀ p, p ∉ done.map (·.relPath) →
    ix.rowsOf p = ix₀.rowsOf p ∧ ix.stored repoId p = ix₀.stored repoId p
  foreign : ∀ R, R ≠ repoId → ∀ p, ix.stored R p = ix₀.stored R p
  recorded : ∀ f ∈ done, ix.stored repoId f.relPath = some (f.hash D)
  rows : ∀ f ∈ done, fileRows D e f = some (ix.rowsOf f.relPath) ∨
    ix₀.stored repoId f.relPath = some (f.hash D) ∧ ix.rowsOf f.relPath = ix₀.rowsOf f.relPath
  width : ix.width = ix₀.width

theorem DiffRun.result {mtime : Text → Int} {A : Text → Prop} {ix₀ ix : Index}
    {done redone : List WalkedFile} (h : DiffRun D e repoId mtime A ix₀ done redone ix)
    (hd : (done.map (·.relPath)).Nodup) : DiffRun.Result D e repoId ix₀ done ix := by
  induction h with
  | nil =>
    exact { outside := fun _ _ => ⟨rfl, rfl⟩, foreign := fun _ _ _ => rfl,
            recorded := fun _ h => (List.not_mem_nil h).elim,
            rows := fun _ h => (List.not_mem_nil h).elim, width := rfl }
  | @skip done redone ix f _ hs ih =>
    rw [List.map_append, List.nodup_append] at hd
    have ih := ih hd.1
    have hnew : f.relPath ∉ done.map (·.relPath) := fun hf => hd.2.2 _ hf _ (by simp) rfl
    refine ⟨fun p hp => ih.outside p fun hm => hp (by simp [List.mem_map.1 hm]), ih.foreign,
      fun g hg => ?_, fun g hg => ?_, ih.width⟩
    · rcases List.mem_append.1 hg with hg | hg
      · exact ih.recorded g hg
      · rw [List.mem_singleton.1 hg]; exact hs
    · rcases List.mem_append.1 hg with hg | hg
      · exact ih.rows g hg
      · rw [List.mem_singleton.1 hg]
        obtain ⟨hrows, hst⟩ := ih.outside _ hnew
        exact .inr ⟨by rw [← hst]; exact hs, hrows⟩
  | @redo done redone ix ix' f _ _ hr ih =>
    rw [List.map_append, List.nodup_append] at hd
    have ih := ih hd.1
    have hne : ∀ g ∈ done, g.relPath ≠ f.relPath := fun g hg he =>
      hd.2.2 g.relPath (List.mem_map_of_mem hg) f.relPath (by simp) he
    refine ⟨fun p hp => ?_, fun R hR p => ?_, fun g hg => ?_, fun g hg => ?_,
      hr.width.trans ih.width⟩
    · have hpf : p ≠ f.relPath := fun he => hp (by simp [he])
      obtain ⟨hrows, hst⟩ := ih.outside p fun hm => hp (by simp [List.mem_map.1 hm])
      exact ⟨(hr.others p hpf).trans hrows, (hr.stored_other fun hc => hpf hc.1).trans hst⟩
    · exact (hr.stored_other fun hc => hR hc.2).trans (ih.foreign R hR p)
    · rcases List.mem_append.1 hg with hg | hg
      · exact (hr.stored_other fun hc => hne g hg hc.1).trans (ih.recorded g hg)
      · rw [List.mem_singleton.1 hg]; exact hr.stored_self
    · rcases List.mem_append.1 hg with hg | hg
      · rw [hr.others _ (hne g hg)]; exact ih.rows g hg
      · rw [List.mem_singleton.1 hg]; exact .inl hr.rows

/-- The files reprocessed: in the order of the tree, and each because its hash was
not recorded, unless its lookup may fail. -/
theorem DiffRun.redone {mtime : Text → Int} {A : Text → Prop} {ix₀ ix : Index}
    {done redone : List WalkedFile} (h : DiffRun D e repoId mtime A ix₀ done redone ix)
    (hd : (done.map (·.relPath)).Nodup) : redone.Sublist done ∧
      ∀ f ∈ redone, A f.relPath → ix₀.stored repoId f.relPath ≠ some (f.hash D) := by
  induction h with
  | nil => exact ⟨.slnil, fun f hf => by cases hf⟩
  | @skip done redone ix f h _ ih =>
    rw [List.map_append, List.nodup_append] at hd
    obtain ⟨hsub, hall⟩ := ih hd.1
    exact ⟨hsub.trans (List.sublist_append_left _ _), hall⟩
  | @redo done redone ix ix' f h hs _ ih =>
    rw [List.map_append, List.nodup_append] at hd
    obtain ⟨hsub, hall⟩ := ih hd.1
    have hnew : f.relPath ∉ done.map (·.relPath) := fun hf => hd.2.2 _ hf _ (by simp) rfl
    refine ⟨hsub.append (.refl _), fun g hg hA => ?_⟩
    rcases List.mem_append.1 hg with hg | hg
    · exact hall g hg hA
    · rw [List.mem_singleton.1 hg] at hA ⊢
      rw [← ((h.result D e repoId hd.1).outside _ hnew).2]
      exact hs hA

/-- A file that is not reprocessed keeps its rows, rowids included, and its `files` row. -/
theorem DiffRun.untouched {mtime : Text → Int} {A : Text → Prop} {ix₀ ix : Index}
    {done redone : List WalkedFile} (h : DiffRun D e repoId mtime A ix₀ done redone ix)
    {p : Text} (hp : p ∉ redone.map (·.relPath)) :
    ix.rowsOf p = ix₀.rowsOf p ∧ ix.chunksOf p = ix₀.chunksOf p ∧
      ∀ r : FileRow, r.path = p → (r ∈ ix.files.rows ↔ r ∈ ix₀.files.rows) := by
  induction h with
  | nil => exact ⟨rfl, rfl, fun _ _ => Iff.rfl⟩
  | skip _ _ ih => exact ih hp
  | @redo done redone ix ix' f _ _ hr ih =>
    rw [List.map_append, List.mem_append, not_or] at hp
    have hne : p ≠ f.relPath := fun he => hp.2 (by simp [he])
    obtain ⟨hrows, hchunks, hfiles⟩ := ih hp.1
    refine ⟨(hr.others p hne).trans hrows, (hr.chunksOf p hne).trans hchunks, fun r hrp => ?_⟩
    rw [hr.mem_files, ← hfiles r hrp]
    constructor
    · rintro (rfl | ⟨hm, -⟩)
      · exact absurd hrp.symm hne
      · exact hm
    · exact fun hm => .inr ⟨hm, fun hc => hne (hrp.symm.trans hc.2)⟩

/-! ## The whole incremental run -/

/-- Removing the listed paths. -/
def Index.removePaths (ix : Index) (rels : List Text) : Index :=
  rels.foldl (fun ix rel => ix.removePath rel repoId) ix

theorem Index.Bound.removePath {ix : Index} (h : ix.Bound) (rel : Text) :
    (ix.removePath rel repoId).Bound :=
  ⟨(h.clearPath rel).vec, (h.clearPath rel).fts, (h.clearPath rel).symbols⟩

theorem Index.Bound.removePaths {ix : Index} (h : ix.Bound) (rels : List Text) :
    (ix.removePaths repoId rels).Bound := by
  induction rels generalizing ix with
  | nil => exact h
  | cons rel rels ih => exact ih (h.removePath repoId rel)

theorem Index.removePaths_width (ix : Index) (rels : List Text) :
    (ix.removePaths repoId rels).width = ix.width := by
  induction rels generalizing ix with
  | nil => rfl
  | cons rel rels ih => exact ih (ix.removePath rel repoId)

theorem Index.removePaths_other (ix : Index) (rels : List Text) {p : Text} (hp : p ∉ rels) :
    (ix.removePaths repoId rels).rowsOf p = ix.rowsOf p ∧
      (ix.removePaths repoId rels).chunksOf p = ix.chunksOf p ∧
      ∀ r : FileRow, r.path = p →
        (r ∈ (ix.removePaths repoId rels).files.rows ↔ r ∈ ix.files.rows) := by
  induction rels generalizing ix with
  | nil => exact ⟨rfl, rfl, fun _ _ => Iff.rfl⟩
  | cons rel rels ih =>
    rw [List.mem_cons, not_or] at hp
    obtain ⟨hrows, hchunks, hfiles⟩ := ih (ix.removePath rel repoId) hp.2
    refine ⟨hrows.trans (ix.rowsOf_clearPath_ne hp.1), hchunks.trans (ix.chunksOf_clearPath_ne hp.1),
      fun r hr => (hfiles r hr).trans ?_⟩
    rw [mem_removePath]
    exact and_iff_left fun hc => hp.1 (hr.symm.trans hc.1)

theorem Index.removePaths_self (ix : Index) (rels : List Text) {p : Text} (hp : p ∈ rels) :
    (ix.removePaths repoId rels).rowsOf p = .empty ∧
      (ix.removePaths repoId rels).stored repoId p = none := by
  induction rels generalizing ix with
  | nil => cases hp
  | cons rel rels ih =>
    by_cases hr : p ∈ rels
    · exact ih (ix.removePath rel repoId) hr
    · have hpr : p = rel := (List.mem_cons.1 hp).resolve_right hr
      subst hpr
      obtain ⟨hrows, -, hfiles⟩ := (ix.removePath p repoId).removePaths_other repoId rels hr
      refine ⟨hrows.trans (ix.rowsOf_clearPath_self p), ?_⟩
      exact (stored_congr fun r hrp _ => hfiles r hrp).trans (stored_removePath_self p)

theorem Index.removePaths_foreign (ix : Index) (rels : List Text) {R : Text} (hR : R ≠ repoId)
    (p : Text) : (ix.removePaths repoId rels).stored R p = ix.stored R p := by
  induction rels generalizing ix with
  | nil => rfl
  | cons rel rels ih =>
    exact (ih (ix.removePath rel repoId)).trans (stored_removePath_other fun hc => hR hc.2)

/-- The recorded paths that were not walked. -/
def Index.vanished (ix : Index) (view : RepoView) : List Text :=
  ((ix.files.rows.filter fun r => r.repoId = repoId).map (·.path)).filter
    fun rel => rel ∉ view.walked.map (·.relPath)

theorem Index.mem_vanished {ix : Index} {view : RepoView} {p : Text} :
    p ∈ ix.vanished repoId view ↔ ix.stored repoId p ≠ none ∧ p ∉ view.walked.map (·.relPath) := by
  unfold Index.vanished
  rw [List.mem_filter, decide_eq_true_eq]
  refine and_congr_left fun _ => ?_
  rw [Ne, stored_eq_none]
  simp only [List.mem_map, List.mem_filter, decide_eq_true_eq]
  push Not
  constructor
  · rintro ⟨r, ⟨hr, hR⟩, hp⟩
    exact ⟨r, hr, hp, hR⟩
  · rintro ⟨r, hr, hp, hR⟩
    exact ⟨r, ⟨hr, hR⟩, hp⟩

/-- An incremental run that returned: what vanished is removed, then the files loop. -/
theorem yields_reindexIncremental {view : RepoView} {ix : Index} (hb : ix.Bound) :
    Yields allow (reindexIncremental D view repoId e) ix fun counts ix' => ∃ redone,
      DiffRun D e repoId view.mtime (Answered repoId allow)
        (ix.removePaths repoId (ix.vanished repoId view)) view.walked redone ix' ∧
      counts.1 = redone.length := by
  have paths : Yields allow (storedFilePaths repoId) ix fun stored ix' => ix' = ix ∧
      stored = (ix.files.rows.filter fun r => r.repoId = repoId).map (·.path) := by
    refine yields_execute fun x r c' hx => ?_
    cases hx
    exact ⟨ix, rfl, rfl, rfl⟩
  refine yields_bind paths fun stored ix' hs => ?_
  obtain ⟨rfl, rfl⟩ := hs
  let I : List Text → Index → Prop := fun rest now =>
    now.removePaths repoId (rest.filter fun rel => rel ∉ view.walked.map (·.relPath)) =
      ix'.removePaths repoId (ix'.vanished repoId view)
  refine yields_bind (yields_forM _ I (fun rel rest now hI => ?_) rfl) fun _ ix'' hI => ?_
  · unfold dropStep
    by_cases hrel : rel ∈ view.walked.map (·.relPath)
    · rw [if_pos hrel]
      have hI : now.removePaths repoId ((rel :: rest).filter _) = _ := hI
      rw [List.filter_cons_of_neg (by rw [decide_eq_true_eq]; exact not_not_intro hrel)] at hI
      exact yields_pure hI
    · rw [if_neg hrel]
      refine yields_mono ?_ (yields_removeFile repoId rel now)
      rintro _ now' rfl
      have hI : now.removePaths repoId ((rel :: rest).filter _) = _ := hI
      rw [List.filter_cons_of_pos (by rw [decide_eq_true_eq]; exact hrel)] at hI
      exact hI
  · have hI : ix'' = ix'.removePaths repoId (ix'.vanished repoId view) := hI
    subst hI
    exact yields_incrementalFiles D e repoId (hb.removePaths repoId _)

/-- What an incremental run that returned leaves, for a tree of distinct paths. -/
structure Diffed (view : RepoView) (ix ix' : Index) : Prop where
  bound : ix'.Bound
  dropped : ∀ p, p ∉ view.walked.map (·.relPath) → ix.stored repoId p ≠ none →
    ix'.rowsOf p = .empty
  kept : ∀ p, p ∉ view.walked.map (·.relPath) → ix.stored repoId p = none →
    ix'.rowsOf p = ix.rowsOf p
  unlisted : ∀ p, p ∉ view.walked.map (·.relPath) → ix'.stored repoId p = none
  foreign : ∀ R, R ≠ repoId → ∀ p, ix'.stored R p = ix.stored R p
  recorded : ∀ f ∈ view.walked, ix'.stored repoId f.relPath = some (f.hash D)
  rows : ∀ f ∈ view.walked, fileRows D e f = some (ix'.rowsOf f.relPath) ∨
    ix.stored repoId f.relPath = some (f.hash D) ∧ ix'.rowsOf f.relPath = ix.rowsOf f.relPath
  width : ix'.width = ix.width

/-- A path of the tree is not among the vanished ones. -/
theorem Index.stored_removePaths_walked (ix : Index) {view : RepoView} {p : Text}
    (hp : p ∉ ix.vanished repoId view) :
    (ix.removePaths repoId (ix.vanished repoId view)).stored repoId p = ix.stored repoId p :=
  stored_congr fun r hr _ => (ix.removePaths_other repoId _ hp).2.2 r hr

theorem diffed_of_diffRun {view : RepoView} {A : Text → Prop} {ix ix' : Index}
    {redone : List WalkedFile} (hd : (view.walked.map (·.relPath)).Nodup) (hb : ix.Bound)
    (h : DiffRun D e repoId view.mtime A (ix.removePaths repoId (ix.vanished repoId view))
      view.walked redone ix') : Diffed D e repoId view ix ix' := by
  have hres := h.result D e repoId hd
  have walked : ∀ f ∈ view.walked, f.relPath ∉ ix.vanished repoId view := fun f hf hv =>
    ((Index.mem_vanished repoId).1 hv).2 (List.mem_map_of_mem hf)
  refine ⟨h.bound D e repoId (hb.removePaths repoId _), fun p hp hs => ?_, fun p hp hs => ?_,
    fun p hp => ?_, fun R hR p => ?_, hres.recorded, fun f hf => ?_,
    hres.width.trans (ix.removePaths_width repoId _)⟩
  · rw [(hres.outside p hp).1]
    exact (ix.removePaths_self repoId _ ((Index.mem_vanished repoId).2 ⟨hs, hp⟩)).1
  · rw [(hres.outside p hp).1]
    exact (ix.removePaths_other repoId _ fun hv => ((Index.mem_vanished repoId).1 hv).1 hs).1
  · rw [(hres.outside p hp).2]
    by_cases hs : ix.stored repoId p = none
    · rw [ix.stored_removePaths_walked repoId fun hv => ((Index.mem_vanished repoId).1 hv).1 hs]
      exact hs
    · exact (ix.removePaths_self repoId _ ((Index.mem_vanished repoId).2 ⟨hs, hp⟩)).2
  · exact (hres.foreign R hR p).trans (ix.removePaths_foreign repoId _ hR p)
  · rcases hres.rows f hf with hr | ⟨hs, hr⟩
    · exact .inl hr
    · rw [ix.stored_removePaths_walked repoId (walked f hf)] at hs
      exact .inr ⟨hs, hr.trans (ix.removePaths_other repoId _ (walked f hf)).1⟩

/-- The index after the placeholder rewrite. -/
structure Rewritten (ix ix' : Index) : Prop where
  files : ix'.files.rows = ix.files.rows.map fun r =>
    if r.repoId = migrationPlaceholderRepoId then { r with repoId := repoId } else r
  rest : ix' = { ix with files := ix'.files }

theorem yields_rewrite (ix : Index) :
    Yields allow (rewritePlaceholderRepoId repoId) ix fun _ ix' => Rewritten repoId ix ix' := by
  refine yields_execute fun x r c' hx => ?_
  obtain ⟨t, ht, hx⟩ := checked_bind_eq_ok.1 hx
  cases hx
  rw [Table.update?_eq_some] at ht
  exact ⟨{ ix with files := t }, rfl, by simpa using ht, rfl⟩

theorem yields_replaceMeta (text : String) (key value : Text) (ix : Index) :
    Yields allow (execute text (.replaceMeta key value)) ix fun _ ix' =>
      ix' = { ix with metaRows := ix.metaRows.replace ⟨key, value⟩ } := by
  refine yields_execute fun x r c' hx => ?_
  cases hx
  exact ⟨_, rfl, rfl⟩

/-- The embedder meta changes meta rows only. -/
theorem yields_writeEmbedderMeta (id : Text) (dim : Nat) (ix : Index) :
    Yields allow (writeEmbedderMeta id dim) ix fun _ ix' =>
      ∃ m, ix' = { ix with metaRows := m } := by
  refine yields_bind (yields_replaceMeta _ _ _ ix) fun _ ix' h => ?_
  subst h
  exact yields_mono (fun _ _ h => ⟨_, h⟩) (yields_replaceMeta _ _ _ _)

theorem yields_readEmbedderMeta (ix : Index) :
    Yields allow readEmbedderMeta ix fun _ ix' => ix' = ix := by
  have read : ∀ key, Yields allow (readMeta key) ix fun _ ix' => ix' = ix := by
    intro key
    refine yields_execute fun x r c' hx => ?_
    cases hx
    exact ⟨ix, rfl, rfl⟩
  refine yields_bind (read _) fun id ix' h => ?_
  subst h
  refine yields_bind (read _) fun dimS ix' h => ?_
  subst h
  split
  · split
    · exact yields_pure rfl
    · exact yields_throw
  · exact yields_pure rfl

theorem yields_checkEmbedder (embedder : Embedder) (ix : Index) :
    Yields allow (checkEmbedder embedder) ix fun _ ix' => ∃ m, ix' = { ix with metaRows := m } := by
  have verify : Yields allow (verifyEmbedderMeta embedder.id embedder.dim) ix fun _ ix' =>
      ix' = ix := by
    refine yields_bind (yields_readEmbedderMeta ix) fun stored ix' h => ?_
    subst h
    split
    · split
      · exact yields_throw
      · exact yields_pure rfl
    · exact yields_pure rfl
  refine yields_bind (yields_mapError verify) fun _ ix' h => ?_
  subst h
  refine yields_bind (yields_readEmbedderMeta ix') fun stored ix'' h => ?_
  subst h
  split
  · exact yields_mapError (yields_writeEmbedderMeta _ _ ix'')
  · exact yields_pure ⟨ix''.metaRows, rfl⟩

/-- An incremental run that returned. -/
theorem yields_reindexWith_incremental {view : RepoView} {ix : Index} (hb : ix.Bound) :
    Yields allow (reindexWith D view false e) ix fun report ix' => ∃ ix₁ m redone,
      Rewritten (repoIdFor D view.canonicalRoot) ix ix₁ ∧
      DiffRun D e (repoIdFor D view.canonicalRoot) view.mtime
        (Answered (repoIdFor D view.canonicalRoot) allow)
        ({ ix₁ with metaRows := m }.removePaths (repoIdFor D view.canonicalRoot)
          (ix₁.vanished (repoIdFor D view.canonicalRoot) view)) view.walked redone ix' ∧
      report.filesIndexed = redone.length := by
  refine yields_bind (yields_rewrite _ ix) fun _ ix₁ h₁ => ?_
  refine yields_bind (yields_checkEmbedder e ix₁) fun _ ix₂ h₂ => ?_
  obtain ⟨m, rfl⟩ := h₂
  have hb₁ : ({ ix₁ with metaRows := m } : Index).Bound := by
    rw [h₁.rest]; exact ⟨hb.vec, hb.fts, hb.symbols⟩
  refine yields_bind (yields_reindexIncremental D e _ hb₁) fun counts ix' h => ?_
  obtain ⟨redone, hrun, hn⟩ := h
  exact yields_pure ⟨ix₁, m, redone, h₁, hrun, hn⟩

/-! ## The whole full run -/

/-- What a full run that returned leaves, for a tree of distinct paths. -/
structure Rebuilt (mtime : Text → Int) (files : List WalkedFile) (width : Nat) (ix' : Index) :
    Prop where
  bound : ix'.Bound
  outside : ∀ p, p ∉ files.map (·.relPath) → ix'.rowsOf p = .empty
  rows : ∀ f ∈ files, fileRows D e f = some (ix'.rowsOf f.relPath)
  filesRows : ∀ r, r ∈ ix'.files.rows ↔
    ∃ f ∈ files, r = filesRow f (f.hash D) (mtime f.relPath) repoId
  width : ix'.width = width

theorem Rebuilt.reprocessed {mtime : Text → Int} {done : List WalkedFile} {f : WalkedFile}
    {width : Nat} {ix ix' : Index} (h : Rebuilt D e repoId mtime done width ix)
    (hnew : f.relPath ∉ done.map (·.relPath))
    (hr : Reprocessed D e f (filesRow f (f.hash D) (mtime f.relPath) repoId) ix ix') :
    Rebuilt D e repoId mtime (done ++ [f]) width ix' := by
  have hne : ∀ g ∈ done, g.relPath ≠ f.relPath := fun g hg he =>
    hnew (he ▸ List.mem_map_of_mem hg)
  refine ⟨hr.bound, fun p hp => ?_, fun g hg => ?_, fun r => ?_, hr.width.trans h.width⟩
  · rw [List.map_append, List.mem_append, not_or] at hp
    rw [hr.others p fun he => hp.2 (by simp [he])]
    exact h.outside p hp.1
  · rcases List.mem_append.1 hg with hg | hg
    · rw [hr.others _ (hne g hg)]; exact h.rows g hg
    · rw [List.mem_singleton.1 hg]; exact hr.rows
  · rw [hr.mem_files, h.filesRows]
    constructor
    · rintro (rfl | ⟨⟨g, hg, rfl⟩, -⟩)
      · exact ⟨f, by simp, rfl⟩
      · exact ⟨g, by simp [hg], rfl⟩
    · rintro ⟨g, hg, rfl⟩
      rcases List.mem_append.1 hg with hg | hg
      · exact .inr ⟨⟨g, hg, rfl⟩, fun hc => hne g hg hc.2⟩
      · rw [List.mem_singleton.1 hg]; exact .inl rfl

theorem yields_wipeAll (ix : Index) : Yields allow wipeAll ix fun _ ix' => ix' = ix.wiped := by
  refine solo_batch_txn (fun t' hc a ha => ?_) (fun y t' a ha => ?_)
  · exact ⟨rfl, _, completes_wipe hc rfl, rfl⟩
  · cases ha

/-- A full run that returned. -/
theorem yields_reindexWith_force {view : RepoView} {ix : Index}
    (hd : (view.walked.map (·.relPath)).Nodup) :
    Yields allow (reindexWith D view true e) ix fun report ix' =>
      Rebuilt D e (repoIdFor D view.canonicalRoot) view.mtime view.walked ix.width ix' ∧
      report.filesIndexed = view.walked.length := by
  refine yields_bind (yields_rewrite _ ix) fun _ ix₁ h₁ => ?_
  refine yields_bind (yields_pure rfl : Yields allow (gateEmbedder true e) ix₁ fun _ ix' =>
    ix' = ix₁) fun _ ix₂ h₂ => ?_
  subst h₂
  have hw : ix₂.width = ix.width := by rw [h₁.rest]
  let I : List WalkedFile → Nat × Nat → Index → Prop := fun rest counts now => ∃ done,
    view.walked = done ++ rest ∧ counts.1 = done.length ∧
    Rebuilt D e (repoIdFor D view.canonicalRoot) view.mtime done ix.width now
  refine yields_bind (P := I []) ?_ fun counts ix' h => ?_
  · refine yields_bind (yields_wipeAll ix₂) fun _ ix₃ h₃ => ?_
    subst h₃
    refine yields_bind (yields_mapError (yields_writeEmbedderMeta _ _ _)) fun _ ix₄ h₄ => ?_
    obtain ⟨m, rfl⟩ := h₄
    have hb := Index.bound_empty ix₂.width
    have empty : Rebuilt D e (repoIdFor D view.canonicalRoot) view.mtime [] ix.width
        { ix₂.wiped with metaRows := m } :=
      { bound := ⟨hb.vec, hb.fts, hb.symbols⟩, outside := fun _ _ => rfl,
        rows := fun _ h => (List.not_mem_nil h).elim,
        filesRows := fun r => ⟨fun h => (List.not_mem_nil h).elim,
          fun ⟨_, h, _⟩ => (List.not_mem_nil h).elim⟩,
        width := hw }
    refine yields_foldlM view.walked I (fun f rest counts now hI => ?_) (0, 0)
      ⟨[], rfl, rfl, empty⟩
    obtain ⟨done, hdone, hn, h⟩ := hI
    have hnew : f.relPath ∉ done.map (·.relPath) := by
      rw [hdone, List.map_append, List.nodup_append] at hd
      exact fun hf => hd.2.2 _ hf _ (by simp) rfl
    refine yields_bind (yields_reprocessFileWith D e _ h.bound) fun n ix' hr => ?_
    exact yields_pure ⟨done ++ [f], by rw [hdone, List.append_assoc]; rfl, by simp [hn],
      h.reprocessed D e _ hnew hr⟩
  · obtain ⟨done, hdone, hn, h⟩ := h
    rw [List.append_nil] at hdone
    subst hdone
    exact yields_pure ⟨h, hn⟩

end

end CodeSearch
