import CodeSearch.Lib.Progress
import CodeSearch.Diff

/-!
# When a full run succeeds

A tree is `Indexable` when its files can be chunked and parsed and no two of
their chunks share an id.  A full run over such a tree, with an embedder whose
dimension is the width of `chunks_vec`, returns unless a request fails
(`succeeds_reindexWith_force`).
-/

namespace CodeSearch

open Relational Store

variable (D : Deps) (e : Embedder)

/-- The ids of a file's chunks. -/
def chunkIdsOf (f : WalkedFile) : List Text :=
  ((chunkFile D f.content f.language).getD []).map fun spec =>
    chunkId f.relPath spec.startLine spec.endLine

structure Indexable (files : List WalkedFile) : Prop where
  paths : (files.map (·.relPath)).Nodup
  chunked : ∀ f ∈ files, (chunkFile D f.content f.language).isSome
  parsed : ∀ f ∈ files, (structuralRows D f).isSome
  ids : (files.flatMap (chunkIdsOf D)).Nodup

/-! ## Progress of the per-file body -/

section
variable {c : Db}

/-- One statement that succeeds on every index, then the rest. -/
theorem progress_step {α : Type} {text : String} {s : Stmt} {f : s.Resp → Sql α} {t : Txn Db}
    {ix : Index} (ht : t ≠ .idle) (hv : t.view c = ix.toDb)
    (h : ∀ x, ∃ r, ∃ ix' : Index, exec s x ix.toDb = .ok (r, ix'.toDb))
    (hf : ∀ x r (ix' : Index), exec s x ix.toDb = .ok (r, ix'.toDb) →
      Progress engine c (f r) (.active ix'.toDb)) :
    Progress engine c (execute text s >>= f) t := by
  refine progress_bind ht (progress_execute fun x => ?_) fun r t' _ hc => ?_
  · obtain ⟨r, ix', hx⟩ := h x
    exact ⟨r, ix'.toDb, by rw [hv]; exact hx⟩
  · obtain ⟨-, x, w, -, hx, rfl⟩ := completes_execute.1 hc
    rw [hv] at hx
    obtain ⟨r', ix', hx'⟩ := h x
    have := Except.ok.inj (hx'.symm.trans hx)
    cases this
    exact hf x _ ix' hx

/-- `DELETE FROM t WHERE` the row belongs to the file, on a migrated index. -/
def Index.deleteOfPath (ix : Index) (rel : Text) : PathTable → Index
  | .chunksVec => { ix with
      vec := ix.vec.delete fun r => (rowidsOfPath ix.chunks rel).contains r.rowid }
  | .chunksFts => { ix with
      fts := ix.fts.delete fun r => (rowidsOfPath ix.chunks rel).contains r.rowid }
  | .symbols => { ix with
      symbols := ix.symbols.delete fun r => (idsOfPath ix.chunks rel).contains r.chunkId }
  | .fileImports => { ix with imports := ix.imports.filter fun r => !decide (r.filePath = rel) }
  | .fileExports => { ix with exports := ix.exports.filter fun r => !decide (r.filePath = rel) }
  | .chunks => { ix with
      chunks := ix.chunks.delete fun r => decide (r.filePath = rel)
      symbols := ix.symbols.delete fun r => (idsOfPath ix.chunks rel).contains r.chunkId }

theorem exec_deleteOfPath (ix : Index) (x : RowId) (rel : Text) (t : PathTable) :
    ∃ r, ∃ ix' : Index, exec (.deleteOfPath t rel) x ix.toDb = .ok (r, ix'.toDb) :=
  ⟨(), ix.deleteOfPath rel t, by cases t <;> rfl⟩

theorem progress_deleteOldRows {rel : Text} {t : Txn Db} {ix : Index} (ht : t ≠ .idle)
    (hv : t.view c = ix.toDb) : Progress engine c (deleteOldRows rel) t := by
  unfold deleteOldRows
  refine progress_step ht hv (fun x => exec_deleteOfPath _ x _ _) fun _ _ _ _ => ?_
  refine progress_step (by simp) rfl (fun x => exec_deleteOfPath _ x _ _) fun _ _ _ _ => ?_
  refine progress_step (by simp) rfl (fun x => exec_deleteOfPath _ x _ _) fun _ _ _ _ => ?_
  refine progress_step (by simp) rfl (fun x => exec_deleteOfPath _ x _ _) fun _ _ _ _ => ?_
  refine progress_step (by simp) rfl (fun x => exec_deleteOfPath _ x _ _) fun _ _ _ _ => ?_
  refine progress_execute fun x => ?_
  obtain ⟨r, ix', hx⟩ := exec_deleteOfPath _ x rel .chunks
  exact ⟨r, _, hx⟩

theorem foldl_max_ge (l : List Int) : ∀ a : Int, a ≤ l.foldl max a ∧ ∀ x ∈ l, x ≤ l.foldl max a := by
  induction l with
  | nil => intro a; simp
  | cons b l ih =>
    intro a
    obtain ⟨h, hl⟩ := ih (max a b)
    refine ⟨by simp only [List.foldl_cons]; omega, fun x hx => ?_⟩
    rcases List.mem_cons.1 hx with rfl | hx
    · simp only [List.foldl_cons]; omega
    · exact hl x hx

/-- The rowid handed out is unused. -/
theorem freshRowid_notMem (proposed : RowId) (used : List RowId) :
    freshRowid proposed used ∉ used := by
  unfold freshRowid
  split
  · intro hmem
    have := (foldl_max_ge used 0).2 _ hmem
    omega
  · next h => exact h

/-! A chunk whose rowid and id are free clashes with nothing, in any table. -/

theorem Index.takes_chunk {ix : Index} (data : ChunkData) (x : RowId)
    (hid : ∀ a ∈ ix.chunks.rows, a.id ≠ data.id) :
    ∃ t, ix.chunks.insert? ⟨data, freshRowid x (ix.chunks.rows.map (·.rowid))⟩ = some t := by
  refine Option.isSome_iff_exists.1 ((Table.insert?_isSome _ _).2 fun a ha => ?_)
  rintro (hr | hi)
  · exact freshRowid_notMem x _ (List.mem_map.2 ⟨a, ha, hr⟩)
  · exact hid a ha hi

theorem Index.Bound.takes_vec {ix : Index} (hb : ix.Bound) {rowid : RowId}
    (hfresh : ∀ a ∈ ix.chunks.rows, a.rowid ≠ rowid) (embedding : List UInt8) :
    ∃ t, ix.vec.insert? ⟨rowid, embedding⟩ = some t := by
  refine Option.isSome_iff_exists.1 ((Table.insert?_isSome _ _).2 fun v hv hr => ?_)
  obtain ⟨a, ha, hav⟩ := hb.vec v hv
  exact hfresh a ha (hav.trans hr)

theorem Index.Bound.takes_fts {ix : Index} (hb : ix.Bound) {rowid : RowId}
    (hfresh : ∀ a ∈ ix.chunks.rows, a.rowid ≠ rowid) (tokens : Text) :
    ∃ t, ix.fts.insert? ⟨rowid, tokens⟩ = some t := by
  refine Option.isSome_iff_exists.1 ((Table.insert?_isSome _ _).2 fun f hf hr => ?_)
  obtain ⟨a, ha, haf⟩ := hb.fts f hf
  exact hfresh a ha (haf.trans hr)

theorem Index.Bound.takes_symbol {ix : Index} (hb : ix.Bound) (row : SymbolRow)
    (hfresh : ∀ a ∈ ix.chunks.rows, a.id ≠ row.chunkId) :
    ∃ t, ix.symbols.insert? row = some t := by
  refine Option.isSome_iff_exists.1 ((Table.insert?_isSome _ _).2 fun s hs hr => ?_)
  obtain ⟨a, ha, has⟩ := hb.symbols s hs
  exact hfresh a ha (has.trans hr)

/-- A chunk whose id is free goes in, with everything bound to it. -/
theorem progress_insertSpec {rel : Text} {spec : ChunkSpec} {t : Txn Db} {ix : Index}
    (ht : t ≠ .idle) (hv : t.view c = ix.toDb) (hb : ix.Bound) (hw : ix.width = e.dim)
    (hid : ∀ r ∈ ix.chunks.rows, r.id ≠ chunkId rel spec.startLine spec.endLine) :
    Progress engine c (insertSpec D rel e spec) t := by
  refine progress_mapError ?_
  -- the chunk row
  refine progress_step ht hv (fun x => ?_) fun x r ix₁ hx => ?_
  · obtain ⟨t₁, h⟩ := Index.takes_chunk ((indexedChunk rel spec).data spec.kindStr) x hid
    exact ⟨(), { ix with chunks := t₁ }, exec_insertChunk.2 ⟨t₁, h, rfl⟩⟩
  obtain ⟨t₁, h, hix⟩ := exec_insertChunk.1 hx
  cases Index.toDb_inj.1 hix
  rw [Table.insert?_eq_some] at h
  generalize hrow : (ChunkRow.mk ((indexedChunk rel spec).data spec.kindStr)
    (freshRowid x (ix.chunks.rows.map (·.rowid)))) = row at h
  have hrid : row.id = (indexedChunk rel spec).id := by rw [← hrow]; rfl
  have hmem : row ∈ ({ ix with chunks := t₁ } : Index).chunks.rows := by
    show row ∈ t₁.rows
    rw [h]; simp
  have hrowid : rowidOf t₁ (indexedChunk rel spec).id = some row.rowid := hrid ▸ rowidOf_eq hmem
  have hbound : ∀ y used, boundRowid t₁ (indexedChunk rel spec).id y used = row.rowid := by
    intro y used
    unfold boundRowid
    rw [hrowid]; rfl
  have hfresh : ∀ a ∈ ix.chunks.rows, a.rowid ≠ row.rowid := by
    intro a ha hr
    rw [← hrow] at hr
    exact freshRowid_notMem x _ (List.mem_map.2 ⟨a, ha, hr⟩)
  -- its vector
  obtain ⟨t₂, h₂⟩ := hb.takes_vec hfresh (e.bytes (indexedText spec.body))
  have hlen : (e.bytes (indexedText spec.body)).length = 4 * ix.width := by
    rw [e.length_bytes, hw]
  refine progress_step (by simp) rfl (fun y => ?_) fun y r ix₂ hy => ?_
  · refine ⟨(), { ix with chunks := t₁, vec := t₂ }, exec_insertVec.2 ⟨hlen, t₂, ?_, rfl⟩⟩
    show ix.vec.insert? ⟨boundRowid t₁ _ _ _, _⟩ = _
    rw [hbound]; exact h₂
  obtain ⟨-, t₂', -, hix⟩ := exec_insertVec.1 hy
  cases Index.toDb_inj.1 hix
  -- its tokens
  obtain ⟨t₃, h₃⟩ := hb.takes_fts hfresh (bodyTokens D spec.body)
  refine progress_step (by simp) rfl (fun z => ?_) fun z r ix₃ hz => ?_
  · refine ⟨(), { ix with chunks := t₁, vec := t₂', fts := t₃ }, exec_insertFts.2 ⟨t₃, ?_, rfl⟩⟩
    show ix.fts.insert? ⟨boundRowid t₁ _ _ _, _⟩ = _
    rw [hbound]; exact h₃
  obtain ⟨t₃', -, hix⟩ := exec_insertFts.1 hz
  cases Index.toDb_inj.1 hix
  -- its symbol
  cases hsym : specSymbol spec with
  | none => trivial
  | some sym =>
    refine progress_execute fun x₄ => ?_
    obtain ⟨t₄, h₄⟩ := hb.takes_symbol (sym.row (indexedChunk rel spec).id) hid
    refine ⟨(), { ix with chunks := t₁, vec := t₂', fts := t₃', symbols := t₄ }.toDb, ?_⟩
    exact (exec_insertSymbol (x := x₄)).2 ⟨Option.isSome_iff_exists.2 ⟨_, hrowid⟩, t₄, h₄, rfl⟩

/-- The specs of a file whose ids are free and distinct. -/
theorem progress_insertSpecs {rel : Text} (specs : List ChunkSpec) :
    ∀ {t : Txn Db} {ix : Index}, t ≠ .idle → t.view c = ix.toDb → ix.Bound → ix.width = e.dim →
    (specs.map fun spec => chunkId rel spec.startLine spec.endLine).Nodup →
    (∀ r ∈ ix.chunks.rows, r.id ∉ specs.map fun spec => chunkId rel spec.startLine spec.endLine) →
    Progress engine c (specs.forM (insertSpec D rel e)) t := by
  induction specs with
  | nil => intros; trivial
  | cons spec specs ih =>
    intro t ix ht hv hb hw hd hfree
    rw [List.map_cons, List.nodup_cons] at hd
    have hid : ∀ r ∈ ix.chunks.rows, r.id ≠ chunkId rel spec.startLine spec.endLine :=
      fun r hr he => hfree r hr (by simp [he])
    refine progress_bind ht (progress_insertSpec D e ht hv hb hw hid) fun _ t' ht' hc => ?_
    obtain ⟨ix', row, hv', hdata, hadd⟩ := completes_insertSpec D e hc hv
    refine ih ht' hv' (hadd.bound hb) (hadd.width.trans hw) hd.2 fun r hr hmem => ?_
    rw [hadd.chunks, List.mem_append, List.mem_singleton] at hr
    rcases hr with hr | rfl
    · exact hfree r hr (List.mem_cons_of_mem _ hmem)
    · have hrid : r.id = chunkId rel spec.startLine spec.endLine := congrArg ChunkData.id hdata
      exact hd.1 (hrid ▸ hmem)

/-- The structural rows of a file that parses. -/
theorem progress_writeStructural {file : WalkedFile} {t : Txn Db} {ix : Index} (ht : t ≠ .idle)
    (hv : t.view c = ix.toDb) (hp : (structuralRows D file).isSome) :
    Progress engine c (writeStructural D file) t := by
  unfold structuralRows at hp
  unfold writeStructural
  cases hl : file.language with
  | none => trivial
  | some lang =>
    simp only [hl] at hp ⊢
    cases hs : D.parseSourceImportsExports file.content lang with
    | error err => rw [hs] at hp; cases hp
    | ok both =>
      obtain ⟨imports, exports⟩ := both
      refine progress_mapError (progress_bind ht ?_ fun _ t' ht' hc => ?_)
      · refine progress_forM imports (fun _ t => ∃ ix : Index, t.view c = ix.toDb)
          (fun imp _ t ht hI => ?_) ht ⟨ix, hv⟩
        obtain ⟨ix, hv⟩ := hI
        refine ⟨progress_execute fun x => ⟨(), _, by rw [hv]; rfl⟩, fun _ t' hc => ?_⟩
        obtain ⟨-, x, w, -, hx, rfl⟩ := completes_execute.1 hc
        rw [hv] at hx
        cases hx
        exact ⟨{ ix with imports := ix.imports ++ [importRow file.relPath imp] }, rfl⟩
      · obtain ⟨ix₁, hv₁, -⟩ := completes_insertImports imports hc hv
        refine progress_forM exports (fun _ t => ∃ ix : Index, t.view c = ix.toDb)
          (fun exp _ t ht hI => ?_) ht' ⟨ix₁, hv₁⟩
        obtain ⟨ix, hv⟩ := hI
        refine ⟨progress_execute fun x => ⟨(), _, by rw [hv]; rfl⟩, fun _ t' hc => ?_⟩
        obtain ⟨-, x, w, -, hx, rfl⟩ := completes_execute.1 hc
        rw [hv] at hx
        cases hx
        exact ⟨{ ix with exports := ix.exports ++ [exportRow file.relPath exp] }, rfl⟩

/-- The body of a file whose ids no other file's chunk has. -/
theorem progress_reprocessBody {file : WalkedFile} {specs : List ChunkSpec} {hash : Text}
    {mtime : Int} {repoId : Text} {t : Txn Db} {ix : Index} (ht : t ≠ .idle)
    (hv : t.view c = ix.toDb) (hb : ix.Bound) (hw : ix.width = e.dim)
    (hspecs : chunkFile D file.content file.language = some specs)
    (hp : (structuralRows D file).isSome) (hd : (chunkIdsOf D file).Nodup)
    (hfree : ∀ r ∈ ix.chunks.rows, r.filePath ≠ file.relPath → r.id ∉ chunkIdsOf D file) :
    Progress engine c (reprocessBody D file specs hash mtime repoId e) t := by
  have hids : chunkIdsOf D file =
      specs.map fun spec => chunkId file.relPath spec.startLine spec.endLine := by
    unfold chunkIdsOf
    rw [hspecs]
    rfl
  rw [hids] at hd hfree
  refine progress_bind ht (progress_deleteOldRows ht hv) fun _ t₁ ht₁ hc₁ => ?_
  have hv₁ := completes_deleteOldRows hc₁ hv
  refine progress_bind ht₁ (progress_insertSpecs D e specs ht₁ hv₁ (hb.clearPath _) hw hd
    fun r hr => ?_) fun _ t₂ ht₂ hc₂ => ?_
  · obtain ⟨hr, hne⟩ := Index.mem_clearPath_chunks.1 hr
    exact hfree r hr hne
  obtain ⟨ix₂, hv₂, -⟩ := completes_insertSpecs D e specs hc₂ hv₁
  refine progress_bind ht₂ (progress_writeStructural D ht₂ hv₂ hp) fun _ t₃ ht₃ hc₃ => ?_
  obtain ⟨ix₃, rows, -, hv₃, -⟩ := completes_writeStructural D hc₃ hv₂
  refine progress_bind ht₃ (progress_execute fun x => ⟨(), _, by rw [hv₃]; rfl⟩) fun _ _ _ _ => ?_
  trivial

/-- The statements of a wipe. -/
theorem progress_deleteAlls {err : SqlError → Error} (ts : List WipedTable) :
    ∀ {t : Txn Db} {ix : Index}, t.view c = ix.toDb →
    Progress engine c (Prog.batch err ((ts.map Stmt.deleteAll).map .stmt) : Sql Unit) t := by
  induction ts with
  | nil => intros; trivial
  | cons w ts ih =>
    intro t ix hv x
    have hv' : (Txn.active (ix.deleteAll w).toDb).view c = (ix.deleteAll w).toDb := rfl
    refine ⟨(), (ix.deleteAll w).toDb, ?_, ih hv'⟩
    rw [hv]
    exact exec_deleteAll ix x w

end

/-! ## Runs that must return -/

/-- Run alone on `ix` with no request failing, `p` returns, and leaves an index with `P`. -/
def Succeeds {α : Type} (p : Sql α) (ix : Index) (P : α → Index → Prop) : Prop :=
  wp engine (soloRules noFault) p
    (fun r c t => ∃ a ix', r = .ok a ∧ c = Index.toDb ix' ∧ t = .idle ∧ P a ix') ix.toDb .idle

section
variable {α β γ : Type} {ix : Index} {P : α → Index → Prop} {P' : β → Index → Prop}

theorem succeeds_finishes {p : Sql α} (h : Succeeds p ix P) :
    ∃ a ix', Finishes engine noFault p ix.toDb (.ok a) (Index.toDb ix') ∧ P a ix' := by
  have h' : wp engine (soloRules noFault) p
      (fun r c _ => ∃ a, r = .ok a ∧ ∃ ix', c = Index.toDb ix' ∧ P a ix') ix.toDb .idle :=
    wp_mono (fun _ _ _ ⟨a, ix', ha, hc, _, hP⟩ => ⟨a, ha, ix', hc, hP⟩) h
  obtain ⟨a, c', hf, ix', rfl, hP⟩ := finishes_of_wp h'
  exact ⟨a, ix', hf, hP⟩

/-- Every such run that ends, ends in a value. -/
theorem Succeeds.ok {p : Sql α} (h : Succeeds p ix P) {r : Except Error α} {c' : Db}
    (hf : Finishes engine noFault p ix.toDb r c') :
    ∃ a ix', r = .ok a ∧ c' = Index.toDb ix' ∧ P a ix' := by
  obtain ⟨t', a, ix', hr, hc, -, hP⟩ := wp_finishes (U := soloRules noFault) h hf
  exact ⟨a, ix', hr, hc, hP⟩

theorem succeeds_pure {a : α} (h : P a ix) : Succeeds (.pure a) ix P := ⟨a, ix, rfl, rfl, rfl, h⟩

theorem succeeds_mono {p : Sql α} {P₂ : α → Index → Prop} (hP : ∀ a ix', P a ix' → P₂ a ix')
    (h : Succeeds p ix P) : Succeeds p ix P₂ :=
  wp_mono (fun _ _ _ ⟨a, ix', ha, hc, ht, hp⟩ => ⟨a, ix', ha, hc, ht, hP a ix' hp⟩) h

theorem succeeds_bind {p : Sql α} {f : α → Sql β} (hp : Succeeds p ix P)
    (hf : ∀ a ix', P a ix' → Succeeds (f a) ix' P') : Succeeds (p >>= f) ix P' := by
  refine (wp_bind p f _ _ _).2 (wp_mono ?_ hp)
  rintro _ _ _ ⟨a, ix', rfl, rfl, rfl, ha⟩
  exact hf a ix' ha

theorem succeeds_mapError {p : Sql α} {g : Error → Error} (h : Succeeds p ix P) :
    Succeeds (p.mapError g) ix P := by
  refine (wp_mapError p g _ _ _).2 (wp_mono ?_ h)
  rintro _ _ _ ⟨a, ix', rfl, rfl, rfl, ha⟩
  exact ⟨a, ix', rfl, rfl, rfl, ha⟩

theorem succeeds_execute {text : String} {s : Stmt} {P : s.Resp → Index → Prop}
    (h : ∀ x, ∃ r ix', exec s x ix.toDb = .ok (r, Index.toDb ix') ∧ P r ix') :
    Succeeds (execute text s) ix P := by
  refine solo_execute_progress fun x => ?_
  obtain ⟨r, ix', hx, hP⟩ := h x
  exact ⟨r, ix'.toDb, hx, r, ix', rfl, rfl, rfl, hP⟩

theorem succeeds_foldlM (l : List γ) {f : β → γ → Sql β} (I : List γ → β → Index → Prop)
    (hf : ∀ x l b ix, I (x :: l) b ix → Succeeds (f b x) ix (I l)) (b : β) (hI : I l b ix) :
    Succeeds (l.foldlM f b) ix (I []) := by
  induction l generalizing ix b with
  | nil => exact succeeds_pure hI
  | cons x l ih => exact succeeds_bind (hf x l b ix hI) fun b' ix' hI' => ih b' hI'

theorem succeeds_replaceMeta (text : String) (key value : Text) (ix : Index) :
    Succeeds (execute text (.replaceMeta key value)) ix fun _ ix' =>
      ix' = { ix with metaRows := ix.metaRows.replace ⟨key, value⟩ } :=
  succeeds_execute fun _ => ⟨(), _, rfl, rfl⟩

/-- The meta rows of an embedder go in: its id, then its dimension. -/
theorem succeeds_writeEmbedderMeta (id : Text) (dim : Nat) (ix : Index) :
    Succeeds (writeEmbedderMeta id dim) ix fun _ ix' => ix' = { ix with
      metaRows := (ix.metaRows.replace ⟨metaEmbedderId, id⟩).replace
        ⟨metaEmbedderDim, decimal dim⟩ } := by
  refine succeeds_bind (succeeds_replaceMeta _ _ _ ix) fun _ ix' h => ?_
  subst h
  exact succeeds_replaceMeta _ _ _ _

theorem succeeds_wipeAll (ix : Index) : Succeeds wipeAll ix fun _ ix' => ix' = ix.wiped :=
  solo_batch_txn_progress (progress_deleteAlls _ rfl) fun _ hc =>
    ⟨(), ix.wiped, rfl, completes_wipe hc rfl, rfl, rfl⟩

end

/-! ## A full run -/

/-- A file whose chunks' ids are free is reprocessed. -/
theorem succeeds_reprocessFileWith {file : WalkedFile} {hash : Text} {mtime : Int} {repoId : Text}
    {ix : Index} (hb : ix.Bound) (hw : ix.width = e.dim)
    (hchunk : (chunkFile D file.content file.language).isSome)
    (hp : (structuralRows D file).isSome) (hd : (chunkIdsOf D file).Nodup)
    (hfree : ∀ r ∈ ix.chunks.rows, r.filePath ≠ file.relPath → r.id ∉ chunkIdsOf D file) :
    Succeeds (reprocessFileWith D file hash mtime repoId e) ix fun _ ix' =>
      Reprocessed D e file (filesRow file hash mtime repoId) ix ix' := by
  obtain ⟨specs, hs⟩ := Option.isSome_iff_exists.1 hchunk
  unfold reprocessFileWith
  rw [hs]
  refine solo_transaction_progress (progress_reprocessBody D e (by simp) rfl hb hw hs hp hd hfree)
    fun n t' hc => ?_
  obtain ⟨ix', hv, -, hr⟩ := completes_reprocessBody D e hs hb hc rfl
  exact ⟨n, ix', rfl, hv, rfl, hr⟩

/-- After a reprocess every chunk is one of the file's or was there before. -/
theorem Reprocessed.chunk_ids {file : WalkedFile} {row : FileRow} {ix ix' : Index}
    (h : Reprocessed D e file row ix ix') {r : ChunkRow} (hr : r ∈ ix'.chunks.rows) :
    r.filePath = file.relPath ∧ r.id ∈ chunkIdsOf D file ∨ r ∈ ix.chunks.rows := by
  by_cases hp : r.filePath = file.relPath
  · refine .inl ⟨hp, ?_⟩
    have hmem : ix'.entry r ∈ (ix'.rowsOf file.relPath).entries :=
      List.mem_map_of_mem (Index.mem_chunksOf.2 ⟨hr, hp⟩)
    obtain ⟨specs, hs, hrows⟩ := Option.bind_eq_some_iff.1 h.rows
    obtain ⟨structural, -, hrows⟩ := Option.bind_eq_some_iff.1 hrows
    rw [← Option.some.inj hrows] at hmem
    obtain ⟨spec, hspec, he⟩ := List.mem_map.1 hmem
    unfold chunkIdsOf
    rw [hs]
    have hid : chunkId file.relPath spec.startLine spec.endLine = r.id :=
      congrArg (fun x : Entry => x.data.id) he
    exact List.mem_map.2 ⟨spec, hspec, hid⟩
  · have : r ∈ ix'.chunksOf r.filePath := Index.mem_chunksOf.2 ⟨hr, rfl⟩
    rw [h.chunksOf _ hp] at this
    exact .inr (Index.mem_chunksOf.1 this).1

/-- A full run of an indexable tree returns, whatever the index held before. -/
theorem succeeds_reindexWith_force {view : RepoView} {ix : Index} (hi : Indexable D view.walked)
    (hw : ix.width = e.dim)
    (hrw : (ix.files.update? (fun r => r.repoId = migrationPlaceholderRepoId) fun r =>
      { r with repoId := repoIdFor D view.canonicalRoot }).isSome) :
    Succeeds (reindexWith D view true e) ix fun _ _ => True := by
  obtain ⟨t, ht⟩ := Option.isSome_iff_exists.1 hrw
  have rewrite : Succeeds (rewritePlaceholderRepoId (repoIdFor D view.canonicalRoot)) ix
      fun _ ix' => ix' = { ix with files := t } :=
    succeeds_execute fun x => ⟨(), _, checked_bind_eq_ok.2 ⟨t, ht, rfl⟩, rfl⟩
  refine succeeds_bind rewrite fun _ ix₁ h₁ => ?_
  subst h₁
  refine succeeds_bind (succeeds_pure rfl : Succeeds (gateEmbedder true e) _ fun _ ix' =>
    ix' = { ix with files := t }) fun _ ix₂ h₂ => ?_
  subst h₂
  refine succeeds_bind (P := fun _ _ => True) ?_ fun counts ix' _ => succeeds_pure trivial
  refine succeeds_bind (succeeds_wipeAll _) fun _ ix₃ h₃ => ?_
  subst h₃
  refine succeeds_bind (succeeds_mapError (succeeds_writeEmbedderMeta _ _ _)) fun _ ix₄ h₄ => ?_
  subst h₄
  -- after the files `done`, every chunk has an id of theirs
  let I : List WalkedFile → Nat × Nat → Index → Prop := fun rest _ now => now.Bound ∧
    now.width = e.dim ∧ ∃ done, view.walked = done ++ rest ∧
      ∀ r ∈ now.chunks.rows, r.id ∈ done.flatMap (chunkIdsOf D)
  have hb := Index.bound_empty ix.width
  refine succeeds_mono (fun _ _ _ => trivial) (succeeds_foldlM view.walked I
    (fun f rest counts now hI => ?_) (0, 0) ⟨⟨hb.vec, hb.fts, hb.symbols⟩, hw, [], rfl,
      fun r hr => (List.not_mem_nil hr).elim⟩)
  obtain ⟨hb, hw, done, hdone, hids⟩ := hI
  have hf : f ∈ view.walked := by rw [hdone]; simp
  have hd := hi.ids
  rw [hdone, List.flatMap_append, List.flatMap_cons, List.nodup_append, List.nodup_append] at hd
  obtain ⟨-, ⟨hdf, -, -⟩, hdis⟩ := hd
  refine succeeds_bind (succeeds_reprocessFileWith D e hb hw (hi.chunked f hf) (hi.parsed f hf) hdf
    fun r hr _ hmem => hdis _ (hids r hr) _ (List.mem_append_left _ hmem) rfl) fun n ix' hr => ?_
  refine succeeds_pure ⟨hr.bound, hr.width.trans hw, done ++ [f], by rw [hdone]; simp,
    fun r hmem => ?_⟩
  rw [List.flatMap_append, List.mem_append]
  rcases hr.chunk_ids D e hmem with ⟨-, hid⟩ | hold
  · exact .inr (by simpa using hid)
  · exact .inl (hids r hold)

end CodeSearch
