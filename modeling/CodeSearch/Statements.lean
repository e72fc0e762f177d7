import CodeSearch.Shape

/-!
# The statements of a run

A statement on rows changes those of one table (`edits_of_exec`).  A run of a
repository issues the statements of `RunStmt` only (`only_reindexWith`), and each of
them keeps the shape of the database and its schema stamp, and adds no placeholder
row (`exec_runStmt`).
-/

namespace CodeSearch

open Relational Store

/-! ## Shape and placeholders -/

/-- Which tables and columns there are, and the schema stamp. -/
structure Shape where
  kind : Option Bool
  width : Option Nat
  composite : Option Bool
  filesNew : Option FileTable
  symbols : Bool
  fileImports : Bool
  idxFileImportsPath : Bool
  fileExports : Bool
  idxFileExportsPath : Bool
  chunksFts : Bool
  metaTable : Bool
  stamp : Option Text

def FilesTable.isComposite : FilesTable → Bool
  | .legacy _ => false
  | .current _ => true

def Db.shape (c : Db) : Shape :=
  { kind := c.chunks.map (·.hasKind)
    width := c.chunksVec.map (·.width)
    composite := c.files.map FilesTable.isComposite
    filesNew := c.filesNew
    symbols := c.symbols.isSome
    fileImports := c.fileImports.isSome
    idxFileImportsPath := c.idxFileImportsPath
    fileExports := c.fileExports.isSome
    idxFileExportsPath := c.idxFileExportsPath
    chunksFts := c.chunksFts.isSome
    metaTable := c.metaTable.isSome
    stamp := c.stamp }

theorem grows_of_shape {c c' : Db} (h : c'.shape = c.shape) : Grows c c' := by
  simp only [Db.shape, Shape.mk.injEq] at h
  obtain ⟨hkind, hwidth, hcomp, hnew, hsym, himp, hii, hexp, hei, hfts, hmeta, hstamp⟩ := h
  refine ⟨fun ⟨k, hk⟩ => ?_, fun ⟨k, hk, hkk⟩ => ?_, fun v hv => ?_, fun t ht => ?_,
    fun ⟨t, ht⟩ => ?_, fun hn => hnew.trans hn, .inl hstamp⟩
  · rw [hk, Option.map_some, Option.map_eq_some_iff] at hkind
    obtain ⟨k', hk', -⟩ := hkind
    exact ⟨k', hk'⟩
  · rw [hk, Option.map_some, Option.map_eq_some_iff] at hkind
    obtain ⟨k', hk', hsame⟩ := hkind
    exact ⟨k', hk', hsame.trans hkk⟩
  · rw [hv, Option.map_some, Option.map_eq_some_iff] at hwidth
    exact hwidth
  · have hf : c'.files.isSome = c.files.isSome := by
      rw [← Option.isSome_map (f := FilesTable.isComposite), hcomp, Option.isSome_map]
    cases t with
    | files => exact hf.trans ht
    | symbols => exact hsym.trans ht
    | fileImports => exact himp.trans ht
    | fileImportsIdx => exact hii.trans ht
    | fileExports => exact hexp.trans ht
    | fileExportsIdx => exact hei.trans ht
    | chunksFts => exact hfts.trans ht
    | metaTable => exact hmeta.trans ht
  · rw [ht, Option.map_some, Option.map_eq_some_iff] at hcomp
    obtain ⟨f, hf, hfc⟩ := hcomp
    cases f with
    | legacy l => cases hfc
    | current t' => exact ⟨t', hf⟩

/-- The statements of a run of repository `repoId` with an embedder: it records
this embedder and stores its vectors. -/
def RunStmt (repoId : Text) (e : Embedder) : Stmt → Prop
  | .selectMeta _ | .selectFilePaths _ | .selectFileState _ _ => True
  | .replaceMeta key value =>
    (key = metaEmbedderId ∧ value = e.id) ∨ (key = metaEmbedderDim ∧ value = decimal e.dim)
  | .updateRepoId new _ => new = repoId
  | .replaceFile row => row.repoId = repoId
  | .deleteFile _ _ | .deleteAll _ | .deleteOfPath _ _ => True
  | .insertVec _ bytes => ∃ text, bytes = e.bytes text
  | .insertChunk _ | .insertFts _ _ | .insertSymbol _ => True
  | .insertImport _ | .insertExport _ => True
  | _ => False

/-- No placeholder row appears. -/
def NoNewPlaceholder (c c' : Db) : Prop :=
  ∀ r ∈ c'.fileEntries, r.repoId = migrationPlaceholderRepoId → r ∈ c.fileEntries

theorem need_bind_eq_ok {α β : Type} {o : Option α} {f : α → Except SqlError β} {b : β} :
    (need o >>= f) = .ok b ↔ ∃ a, o = some a ∧ f a = .ok b := by
  cases o with
  | none => simp [need, bind, Except.bind]
  | some a => simp [need, bind, Except.bind]

theorem needFiles_bind_eq_ok {β : Type} {o : Option FilesTable}
    {f : FileTable → Except SqlError β} {b : β} :
    (needFiles o >>= f) = .ok b ↔ ∃ t, o = some (.current t) ∧ f t = .ok b := by
  rcases o with _ | (l | t)
  · simp [needFiles, bind, Except.bind]
  · simp [needFiles, bind, Except.bind]
  · simp [needFiles, bind, Except.bind]

theorem stamp_replace {c c' : Db} {m : MetaTable} {key value : Text} (hm : c.metaTable = some m)
    (hm' : c'.metaTable = some (m.replace ⟨key, value⟩)) (hkey : key ≠ metaSchemaVersion) :
    c'.stamp = c.stamp := by
  unfold Db.stamp Db.metaRows
  rw [hm, hm']
  show ((m.replace ⟨key, value⟩).rows.find? _).map _ = (m.rows.find? _).map _
  rw [← List.head?_filter, ← List.head?_filter, replace_filter_other]
  intro r hr
  rw [hr]
  exact decide_eq_false hkey

/-! ## What a statement changes -/

/-- A statement on rows, not on the schema. -/
def Stmt.OnRows : Stmt → Prop
  | .pragma | .tableInfo _ | .createChunks | .createChunksVec _ | .alterChunksAddKind | .create _ => False
  | .createFilesNew | .copyFilesNew _ | .dropFiles | .renameFilesNew => False
  | _ => True

/-- A statement on rows changes those of one table, and of `symbols` when chunks go; what
it adds is what it says. -/
inductive Edits (c : Db) : Stmt → Db → Prop
  | read {s : Stmt} : Edits c s c
  | metaTable {m : MetaTable} {key value : Text} (h : c.metaTable = some m) :
      Edits c (.replaceMeta key value) { c with metaTable := some (m.replace ⟨key, value⟩) }
  | files {s : Stmt} {t t' : FileTable} (h : c.files = some (.current t))
      (rows : ∀ r ∈ t'.rows, r ∈ t.rows ∨ s = .replaceFile r ∨ ∃ old, s = .updateRepoId r.repoId old) :
      Edits c s { c with files := some (.current t') }
  | filesCleared {s : Stmt} {f : FilesTable} (h : c.files = some f) :
      Edits c s { c with files := some f.cleared }
  | chunks {s : Stmt} {k : Chunks} {t' : ChunkTable} {symbols : Option SymbolTable}
      (h : c.chunks = some k) (hsym : symbols.isSome = c.symbols.isSome)
      (rows : ∀ r ∈ t'.rows, r ∈ k.table.rows ∨ s = .insertChunk r.toChunkData) :
      Edits c s { c with chunks := some { k with table := t' }, symbols := symbols }
  | chunksVec {s : Stmt} {v : ChunksVec} {t' : VecTable} (h : c.chunksVec = some v)
      (rows : ∀ r ∈ t'.rows, r ∈ v.table.rows ∨ ∃ id, s = .insertVec id r.embedding) :
      Edits c s { c with chunksVec := some { v with table := t' } }
  | chunksFts {s : Stmt} {f t' : FtsTable} (h : c.chunksFts = some f) :
      Edits c s { c with chunksFts := some t' }
  | symbols {s : Stmt} {t t' : SymbolTable} (h : c.symbols = some t) :
      Edits c s { c with symbols := some t' }
  | fileImports {s : Stmt} {l l' : List ImportRow} (h : c.fileImports = some l) :
      Edits c s { c with fileImports := some l' }
  | fileExports {s : Stmt} {l l' : List ExportRow} (h : c.fileExports = some l) :
      Edits c s { c with fileExports := some l' }

section
variable {c c' : Db} {x : RowId} {repoId : Text} {e : Embedder}

theorem edits_deleteChunks {s : Stmt} {p : ChunkRow → Bool} {r : Unit}
    (h : deleteChunks c p = .ok (r, c')) : Edits c s c' := by
  obtain ⟨k, hk, h⟩ := need_bind_eq_ok.1 h
  cases h
  exact .chunks hk Option.isSome_map fun row hrow => .inl ((Table.mem_delete _ _ _).1 hrow).1

theorem edits_deleteAll {s : Stmt} {t : WipedTable} {r : Unit} (h : deleteAll c t = .ok (r, c')) :
    Edits c s c' := by
  cases t with
  | chunks => exact edits_deleteChunks h
  | _ =>
    obtain ⟨a, ha, h⟩ := need_bind_eq_ok.1 h
    cases h
    first
      | exact .filesCleared ha
      | exact .chunksVec ha fun row hrow => by cases hrow
      | exact .chunksFts ha
      | exact .symbols ha
      | exact .fileImports ha
      | exact .fileExports ha

theorem edits_deleteOfPath {s : Stmt} {t : PathTable} {path : Text} {r : Unit}
    (h : deleteOfPath c path t = .ok (r, c')) : Edits c s c' := by
  cases t with
  | chunks => exact edits_deleteChunks h
  | fileImports =>
    obtain ⟨l, hl, h⟩ := need_bind_eq_ok.1 h
    cases h
    exact .fileImports hl
  | fileExports =>
    obtain ⟨l, hl, h⟩ := need_bind_eq_ok.1 h
    cases h
    exact .fileExports hl
  | chunksVec =>
    obtain ⟨v, hv, h⟩ := need_bind_eq_ok.1 h
    obtain ⟨k, -, h⟩ := need_bind_eq_ok.1 h
    cases h
    exact .chunksVec hv fun row hrow => .inl ((Table.mem_delete _ _ _).1 hrow).1
  | chunksFts =>
    obtain ⟨f, hf, h⟩ := need_bind_eq_ok.1 h
    obtain ⟨k, -, h⟩ := need_bind_eq_ok.1 h
    cases h
    exact .chunksFts hf
  | symbols =>
    obtain ⟨t, ht, h⟩ := need_bind_eq_ok.1 h
    obtain ⟨k, -, h⟩ := need_bind_eq_ok.1 h
    cases h
    exact .symbols ht

theorem edits_of_exec {s : Stmt} {r : s.Resp} (hs : s.OnRows) (h : exec s x c = .ok (r, c')) :
    Edits c s c' := by
  cases s with
  | selectMeta key =>
    rw [read_selectMeta key x c r c' h]
    exact .read
  | selectFilePaths repo =>
    rw [read_selectFilePaths repo x c r c' h]
    exact .read
  | selectFileState path repo =>
    rw [read_selectFileState path repo x c r c' h]
    exact .read
  | replaceMeta key value =>
    obtain ⟨m, hm, h⟩ := need_bind_eq_ok.1 h
    cases h
    exact .metaTable hm
  | updateRepoId new old =>
    obtain ⟨t, ht, h⟩ := needFiles_bind_eq_ok.1 h
    obtain ⟨t', ht', h⟩ := checked_bind_eq_ok.1 h
    cases h
    refine .files ht fun row hrow => ?_
    rw [(Table.update?_eq_some _ _ _ _).1 ht', List.mem_map] at hrow
    obtain ⟨a, ha, rfl⟩ := hrow
    by_cases hold : a.repoId = old
    · exact .inr (.inr ⟨old, by simp [hold]⟩)
    · exact .inl (by simpa [hold] using ha)
  | replaceFile row =>
    obtain ⟨t, ht, h⟩ := needFiles_bind_eq_ok.1 h
    cases h
    refine .files ht fun a ha => ?_
    rcases (Table.mem_replace FileRow.clash_symm _ _ _).1 ha with rfl | ⟨ha, -⟩
    · exact .inr (.inl rfl)
    · exact .inl ha
  | deleteFile path repo =>
    obtain ⟨t, ht, h⟩ := needFiles_bind_eq_ok.1 h
    cases h
    exact .files ht fun row hrow => .inl ((Table.mem_delete _ _ _).1 hrow).1
  | deleteAll t => exact edits_deleteAll h
  | deleteOfPath t path => exact edits_deleteOfPath h
  | insertChunk data =>
    obtain ⟨k, hk, h⟩ := need_bind_eq_ok.1 h
    split at h
    · obtain ⟨t, ht, h⟩ := checked_bind_eq_ok.1 h
      cases h
      refine .chunks hk rfl fun row hrow => ?_
      rw [(Table.insert?_eq_some _ _ _).1 ht, List.mem_append, List.mem_singleton] at hrow
      exact hrow.imp_right fun hrow => by rw [hrow]
    · cases h
  | insertVec id bytes =>
    obtain ⟨v, hv, h⟩ := need_bind_eq_ok.1 h
    obtain ⟨k, -, h⟩ := need_bind_eq_ok.1 h
    split at h
    · obtain ⟨t, ht, h⟩ := checked_bind_eq_ok.1 h
      cases h
      refine .chunksVec hv fun row hrow => ?_
      rw [(Table.insert?_eq_some _ _ _).1 ht, List.mem_append, List.mem_singleton] at hrow
      exact hrow.imp_right fun hrow => ⟨id, by rw [hrow]⟩
    · cases h
  | insertFts id tokens =>
    obtain ⟨f, hf, h⟩ := need_bind_eq_ok.1 h
    obtain ⟨k, -, h⟩ := need_bind_eq_ok.1 h
    obtain ⟨t, -, h⟩ := checked_bind_eq_ok.1 h
    cases h
    exact .chunksFts hf
  | insertSymbol row =>
    obtain ⟨t, ht, h⟩ := need_bind_eq_ok.1 h
    obtain ⟨k, -, h⟩ := need_bind_eq_ok.1 h
    split at h
    · obtain ⟨t', -, h⟩ := checked_bind_eq_ok.1 h
      cases h
      exact .symbols ht
    · cases h
  | insertImport row =>
    obtain ⟨l, hl, h⟩ := need_bind_eq_ok.1 h
    cases h
    exact .fileImports hl
  | insertExport row =>
    obtain ⟨l, hl, h⟩ := need_bind_eq_ok.1 h
    cases h
    exact .fileExports hl
  | pragma | tableInfo t | createChunks | createChunksVec dim | alterChunksAddKind | create t
  | createFilesNew | copyFilesNew repo | dropFiles | renameFilesNew => exact hs.elim

theorem RunStmt.onRows {s : Stmt} (h : RunStmt repoId e s) : s.OnRows := by
  cases s <;> first | exact trivial | exact h.elim

/-- A statement of a run keeps the shape and adds no placeholder row. -/
theorem exec_runStmt {s : Stmt} {r : s.Resp} (hR : repoId ≠ migrationPlaceholderRepoId)
    (hs : RunStmt repoId e s) (h : exec s x c = .ok (r, c')) :
    c'.shape = c.shape ∧ NoNewPlaceholder c c' := by
  have hedits := edits_of_exec hs.onRows h
  clear h r
  cases hedits with
  | read => exact ⟨rfl, fun r hr _ => hr⟩
  | @metaTable m key value hm =>
    refine ⟨?_, fun r hr _ => hr⟩
    have hstamp : ({ c with metaTable := some (m.replace ⟨key, value⟩) } : Db).stamp = c.stamp :=
      stamp_replace hm rfl (by rcases hs with ⟨rfl, -⟩ | ⟨rfl, -⟩ <;> decide)
    unfold Db.shape
    rw [hstamp]
    simp [hm]
  | files ht rows =>
    refine ⟨by simp [Db.shape, Db.stamp, Db.metaRows, ht, FilesTable.isComposite], fun r hr hp => ?_⟩
    unfold Db.fileEntries
    rw [ht]
    -- a row that is added is the repository's own
    rcases rows r hr with hold | rfl | ⟨old, rfl⟩
    · exact hold
    · have hown : r.repoId = repoId := hs
      exact absurd (hown.symm.trans hp) hR
    · have hown : r.repoId = repoId := hs
      exact absurd (hown.symm.trans hp) hR
  | @filesCleared s f hf =>
    have hnone : ({ c with files := some f.cleared } : Db).fileEntries = [] := by
      cases f <;> rfl
    refine ⟨?_, fun r hr _ => by rw [hnone] at hr; cases hr⟩
    cases f <;> simp [Db.shape, Db.stamp, Db.metaRows, hf, FilesTable.cleared, FilesTable.isComposite]
  | chunks hk hsym rows => exact ⟨by simp [Db.shape, Db.stamp, Db.metaRows, hk, hsym], fun r hr _ => hr⟩
  | chunksVec ht | chunksFts ht | symbols ht | fileImports ht | fileExports ht =>
    exact ⟨by simp [Db.shape, Db.stamp, Db.metaRows, ht], fun r hr _ => hr⟩

end

/-! ## The statements of the programs -/

/-- The probes of the schema ask for columns. -/
theorem only_columnExists {φ : Stmt → Prop} {table : InfoTable} (h : φ (.tableInfo table))
    (column : Text) : (columnExists table column).Only φ :=
  only_bind (only_execute h) fun _ => trivial

theorem only_filesPkIsComposite {φ : Stmt → Prop} (h : φ (.tableInfo .files)) :
    filesPkIsComposite.Only φ :=
  only_bind (only_execute h) fun _ => trivial

/-- `φ` holds of the statements of a run on contents `ok`; of an inserted chunk it may ask
that such a content was cut into it. -/
structure RunAllows (φ : Stmt → Prop) (D : Deps) (repoId : Text) (e : Embedder)
    (ok : Text → Prop) : Prop where
  stmt : ∀ {s}, RunStmt repoId e s → (∀ data, s ≠ .insertChunk data) → φ s
  chunk : ∀ {content language specs}, ok content → chunkFile D content language = some specs →
    ∀ spec ∈ specs, ∀ rel, φ (.insertChunk ((indexedChunk rel spec).data spec.kindStr))

theorem runAllows_runStmt (D : Deps) (repoId : Text) (e : Embedder) :
    RunAllows (RunStmt repoId e) D repoId e fun _ => True :=
  ⟨fun h _ => h, fun _ _ _ _ _ => trivial⟩

section
variable {φ : Stmt → Prop} {D : Deps} {e : Embedder} {repoId : Text} {ok : Text → Prop}

theorem RunAllows.execute (h : RunAllows φ D repoId e ok) {err : String} {s : Stmt}
    (hs : RunStmt repoId e s) (hne : ∀ data, s ≠ .insertChunk data) : (execute err s).Only φ :=
  only_execute (h.stmt hs hne)

theorem only_deleteOldRows (h : RunAllows φ D repoId e ok) (rel : Text) : (deleteOldRows rel).Only φ := by
  unfold deleteOldRows
  repeat' first
    | exact h.execute trivial nofun
    | refine only_bind (h.execute trivial nofun) fun _ => ?_

theorem only_insertSpec (h : RunAllows φ D repoId e ok) {rel : Text} {spec : ChunkSpec}
    (hchunk : φ (.insertChunk ((indexedChunk rel spec).data spec.kindStr))) :
    (insertSpec D rel e spec).Only φ := by
  refine only_mapError (only_bind (only_execute hchunk) fun _ =>
    only_bind (h.execute ⟨_, rfl⟩ nofun) fun _ => only_bind (h.execute trivial nofun) fun _ => ?_)
  cases specSymbol spec with
  | none => trivial
  | some sym => exact h.execute trivial nofun

theorem only_writeStructural (h : RunAllows φ D repoId e ok) (file : WalkedFile) :
    (writeStructural D file).Only φ := by
  unfold writeStructural
  split
  · trivial
  · split
    · trivial
    · exact only_mapError (only_bind (only_forM _ fun _ _ => h.execute trivial nofun)
        fun _ => only_forM _ fun _ _ => h.execute trivial nofun)

theorem only_reprocessFileWith (h : RunAllows φ D repoId e ok) {file : WalkedFile}
    (hok : ok file.content) (hash : Text) (mtime : Int) : (reprocessFileWith D file hash mtime repoId e).Only φ := by
  unfold reprocessFileWith
  split
  · trivial
  · next specs hspecs =>
    exact only_transaction (only_bind (only_deleteOldRows h _) fun _ =>
      only_bind (only_forM _ fun spec hmem => only_insertSpec h (h.chunk hok hspecs spec hmem _)) fun _ =>
      only_bind (only_writeStructural h file) fun _ =>
      only_bind (h.execute rfl nofun) fun _ => trivial)

theorem only_removeFile (h : RunAllows φ D repoId e ok) (rel : Text) : (removeFile rel repoId).Only φ := by
  refine only_transaction ?_
  unfold removeBody
  repeat' first
    | exact only_execute (h.stmt trivial nofun)
    | refine only_bind (only_execute (h.stmt trivial nofun)) fun _ => ?_

theorem only_readMeta (h : RunAllows φ D repoId e ok) (key : Text) : (readMeta key).Only φ :=
  h.execute trivial nofun

theorem only_readEmbedderMeta (h : RunAllows φ D repoId e ok) : readEmbedderMeta.Only φ := by
  refine only_bind (only_readMeta h _) fun id => only_bind (only_readMeta h _) fun dimS => ?_
  split
  · split <;> trivial
  · trivial

theorem only_writeEmbedderMeta (h : RunAllows φ D repoId e ok) : (writeEmbedderMeta e.id e.dim).Only φ :=
  only_bind (h.execute (.inl ⟨rfl, rfl⟩) nofun) fun _ => h.execute (.inr ⟨rfl, rfl⟩) nofun

theorem only_checkEmbedder (h : RunAllows φ D repoId e ok) : (checkEmbedder e).Only φ := by
  refine only_bind (only_mapError (only_bind (only_readEmbedderMeta h) fun stored => ?_))
    fun _ => only_bind (only_readEmbedderMeta h) fun stored => ?_
  · split
    · split <;> trivial
    · trivial
  · split
    · exact only_mapError (only_writeEmbedderMeta h)
    · trivial

theorem only_wipeAll (h : RunAllows φ D repoId e ok) : wipeAll.Only φ := by
  refine only_batch _ fun s hs => ?_
  have : s ∈ wipedTables.map Stmt.deleteAll := by simpa using hs
  obtain ⟨t, -, rfl⟩ := List.mem_map.1 this
  exact h.stmt trivial nofun

theorem only_forceStep (h : RunAllows φ D repoId e ok) (view : RepoView) (counts : Nat × Nat)
    {f : WalkedFile} (hok : ok f.content) : (forceStep D view repoId e counts f).Only φ :=
  only_bind (only_reprocessFileWith h hok _ _) fun _ => trivial

theorem only_incrementalStep (h : RunAllows φ D repoId e ok) (view : RepoView) (counts : Nat × Nat)
    {f : WalkedFile} (hok : ok f.content) : (incrementalStep D view repoId e counts f).Only φ := by
  refine only_bind (only_bind (only_attempt (h.execute trivial nofun)) fun r => ?_) fun row => ?_
  · cases r <;> trivial
  · split
    · trivial
    · exact only_bind (only_reprocessFileWith h hok _ _) fun _ => trivial

theorem only_dropStep (h : RunAllows φ D repoId e ok) (view : RepoView) (rel : Text) :
    (dropStep view repoId rel).Only φ := by
  unfold dropStep
  split
  · trivial
  · exact only_removeFile h rel

theorem only_reindexFiles (h : RunAllows φ D repoId e ok) {view : RepoView}
    (hok : ∀ f ∈ view.walked, ok f.content) (force : Bool) :
    (reindexFiles D view repoId force e).Only φ := by
  cases force with
  | true =>
    exact only_bind (only_wipeAll h) fun _ =>
      only_bind (only_mapError (only_writeEmbedderMeta h)) fun _ =>
      only_foldlM _ (fun f hf counts => only_forceStep h view counts (hok f hf)) _
  | false =>
    exact only_bind (h.execute trivial nofun) fun stored =>
      only_bind (only_forM _ fun rel _ => only_dropStep h view rel) fun _ =>
      only_foldlM _ (fun f hf counts => only_incrementalStep h view counts (hok f hf)) _

theorem only_gateEmbedder (h : RunAllows φ D repoId e ok) (force : Bool) :
    (gateEmbedder force e).Only φ := by
  cases force with
  | true => trivial
  | false => exact only_checkEmbedder h

/-- What follows the rewrite. -/
theorem only_afterRewrite (h : RunAllows φ D repoId e ok) {view : RepoView}
    (hok : ∀ f ∈ view.walked, ok f.content) (force : Bool) :
    (do
      gateEmbedder force e
      let counts ← reindexFiles D view repoId force e
      pure { filesIndexed := counts.1, chunks := counts.2, durationMs := view.durationMs,
             incremental := !force } : Sql ReindexReport).Only φ :=
  only_bind (only_gateEmbedder h force) fun _ =>
    only_bind (only_reindexFiles h hok force) fun _ => trivial

end

/-- A run issues statements of its repository only. -/
theorem only_reindexWith {φ : Stmt → Prop} {D : Deps} {e : Embedder} {ok : Text → Prop}
    {view : RepoView} (h : RunAllows φ D (repoIdFor D view.canonicalRoot) e ok)
    (hok : ∀ f ∈ view.walked, ok f.content) (force : Bool) :
    (reindexWith D view force e).Only φ :=
  only_bind (h.execute rfl nofun) fun _ => only_afterRewrite h hok force

end CodeSearch
