import CodeSearch.Incremental

/-!
# The migrated index and its logical content

`Index` is a database every table of which exists in the current shape
(`Index.toDb`).  Its content is read file by file: `ix.rowsOf p` lists the
chunks of `p`, each with the vectors, FTS rows and symbols stored under its
rowid and id, and the imports and exports of `p`.  `ix.Bound` says that nothing
is stored under a rowid or id no chunk has.

`clearPath` and `Added` are what the delete half of a reprocess and the insert of
one chunk do; each changes the rows of one file only (`rowsOf_clearPath_ne`,
`Added.rowsOf_ne`), although SQLite may reuse the rowids that were freed.
-/

namespace CodeSearch

open Relational Store

/-- A migrated database. -/
structure Index where
  width : Nat
  chunks : ChunkTable
  vec : VecTable
  fts : FtsTable
  symbols : SymbolTable
  imports : List ImportRow
  exports : List ExportRow
  files : FileTable
  metaRows : MetaTable

def Index.toDb (ix : Index) : Db :=
  { chunks := some ⟨true, ix.chunks⟩
    chunksVec := some ⟨ix.width, ix.vec⟩
    files := some (.current ix.files)
    filesNew := none
    symbols := some ix.symbols
    fileImports := some ix.imports
    idxFileImportsPath := true
    fileExports := some ix.exports
    idxFileExportsPath := true
    chunksFts := some ix.fts
    metaTable := some ix.metaRows }

theorem Index.toDb_inj {a b : Index} : a.toDb = b.toDb ↔ a = b := by
  constructor
  · intro h
    cases a
    cases b
    simp only [Index.toDb, Db.mk.injEq, Option.some.injEq, Chunks.mk.injEq, ChunksVec.mk.injEq,
      FilesTable.current.injEq, true_and] at h
    obtain ⟨rfl, ⟨rfl, rfl⟩, rfl, rfl, rfl, rfl, rfl, rfl⟩ := h
    rfl
  · rintro rfl; rfl

/-- A migrated index with no row at all. -/
def Index.empty (width : Nat) : Index :=
  { width, chunks := .empty, vec := .empty, fts := .empty, symbols := .empty, imports := [],
    exports := [], files := .empty, metaRows := .empty }

/-! ## Content by file -/

/-- A chunk row without its rowid, and what is stored under its rowid and id. -/
@[ext] structure Entry where
  data : ChunkData
  vectors : List (List UInt8)
  tokens : List Text
  symbols : List SymbolRow
deriving DecidableEq

/-- The rows of one file. -/
@[ext] structure PathRows where
  entries : List Entry
  imports : List ImportRow
  exports : List ExportRow
deriving DecidableEq

def PathRows.empty : PathRows := ⟨[], [], []⟩

def Index.entry (ix : Index) (r : ChunkRow) : Entry :=
  { data := r.toChunkData
    vectors := (ix.vec.rows.filter fun v => v.rowid = r.rowid).map (·.embedding)
    tokens := (ix.fts.rows.filter fun f => f.rowid = r.rowid).map (·.bodyTokens)
    symbols := ix.symbols.rows.filter fun s => s.chunkId = r.id }

def Index.chunksOf (ix : Index) (p : Text) : List ChunkRow :=
  ix.chunks.rows.filter fun r => r.filePath = p

def Index.rowsOf (ix : Index) (p : Text) : PathRows :=
  { entries := (ix.chunksOf p).map ix.entry
    imports := ix.imports.filter fun i => i.filePath = p
    exports := ix.exports.filter fun x => x.filePath = p }

/-- Nothing is stored under a rowid or id that no chunk has. -/
structure Index.Bound (ix : Index) : Prop where
  vec : ∀ v ∈ ix.vec.rows, ∃ c ∈ ix.chunks.rows, c.rowid = v.rowid
  fts : ∀ f ∈ ix.fts.rows, ∃ c ∈ ix.chunks.rows, c.rowid = f.rowid
  symbols : ∀ s ∈ ix.symbols.rows, ∃ c ∈ ix.chunks.rows, c.id = s.chunkId

theorem Index.bound_empty (width : Nat) : (Index.empty width).Bound where
  vec _ h := by cases h
  fts _ h := by cases h
  symbols _ h := by cases h

theorem Index.rowsOf_empty (width : Nat) (p : Text) :
    (Index.empty width).rowsOf p = .empty := rfl

theorem ChunkRow.clash_symm (a b : ChunkRow) (h : a.clash b) : b.clash a :=
  h.imp Eq.symm Eq.symm

theorem FileRow.clash_symm (a b : FileRow) (h : a.clash b) : b.clash a :=
  ⟨h.1.symm, h.2.symm⟩

/-- A rowid names one chunk. -/
theorem Index.eq_of_rowid (ix : Index) {a b : ChunkRow} (ha : a ∈ ix.chunks.rows)
    (hb : b ∈ ix.chunks.rows) (h : a.rowid = b.rowid) : a = b :=
  by_contra fun hne => ix.chunks.not_clash_of_mem ChunkRow.clash_symm ha hb hne (.inl h)

/-- An id names one chunk. -/
theorem Index.eq_of_id (ix : Index) {a b : ChunkRow} (ha : a ∈ ix.chunks.rows)
    (hb : b ∈ ix.chunks.rows) (h : a.id = b.id) : a = b :=
  by_contra fun hne => ix.chunks.not_clash_of_mem ChunkRow.clash_symm ha hb hne (.inr h)

theorem Index.mem_chunksOf {ix : Index} {p : Text} {r : ChunkRow} :
    r ∈ ix.chunksOf p ↔ r ∈ ix.chunks.rows ∧ r.filePath = p := by
  simp [Index.chunksOf]

theorem mem_rowidsOfPath {t : ChunkTable} {p : Text} {i : RowId} :
    i ∈ rowidsOfPath t p ↔ ∃ r ∈ t.rows, r.filePath = p ∧ r.rowid = i := by
  simp [rowidsOfPath, and_assoc]

theorem mem_idsOfPath {t : ChunkTable} {p : Text} {i : Text} :
    i ∈ idsOfPath t p ↔ ∃ r ∈ t.rows, r.filePath = p ∧ r.id = i := by
  simp [idsOfPath, and_assoc]

/-! ## Deleting the rows of a file -/

/-- The six deletes of a reprocess, virtual tables first. -/
def Index.clearPath (ix : Index) (p : Text) : Index :=
  { ix with
    vec := ix.vec.delete fun r => (rowidsOfPath ix.chunks p).contains r.rowid
    fts := ix.fts.delete fun r => (rowidsOfPath ix.chunks p).contains r.rowid
    symbols := (ix.symbols.delete fun r => (idsOfPath ix.chunks p).contains r.chunkId).delete
      fun r => (idsOfPath ix.chunks p).contains r.chunkId
    imports := ix.imports.filter fun r => !decide (r.filePath = p)
    exports := ix.exports.filter fun r => !decide (r.filePath = p)
    chunks := ix.chunks.delete fun r => decide (r.filePath = p) }

theorem Index.mem_clearPath_chunks {ix : Index} {p : Text} {r : ChunkRow} :
    r ∈ (ix.clearPath p).chunks.rows ↔ r ∈ ix.chunks.rows ∧ r.filePath ≠ p := by
  simp [Index.clearPath]

theorem Index.Bound.clearPath {ix : Index} (h : ix.Bound) (p : Text) : (ix.clearPath p).Bound := by
  refine ⟨fun v hv => ?_, fun f hf => ?_, fun s hs => ?_⟩
  · obtain ⟨hv, hnot⟩ := (Table.mem_delete _ _ _).1 hv
    obtain ⟨c, hc, hcv⟩ := h.vec v hv
    refine ⟨c, mem_clearPath_chunks.2 ⟨hc, fun hp => ?_⟩, hcv⟩
    simp only [List.contains_eq_mem, decide_eq_false_iff_not] at hnot
    exact hnot (mem_rowidsOfPath.2 ⟨c, hc, hp, hcv⟩)
  · obtain ⟨hf, hnot⟩ := (Table.mem_delete _ _ _).1 hf
    obtain ⟨c, hc, hcf⟩ := h.fts f hf
    refine ⟨c, mem_clearPath_chunks.2 ⟨hc, fun hp => ?_⟩, hcf⟩
    simp only [List.contains_eq_mem, decide_eq_false_iff_not] at hnot
    exact hnot (mem_rowidsOfPath.2 ⟨c, hc, hp, hcf⟩)
  · obtain ⟨hs, hnot⟩ := (Table.mem_delete _ _ _).1 hs
    obtain ⟨hs, -⟩ := (Table.mem_delete _ _ _).1 hs
    obtain ⟨c, hc, hcs⟩ := h.symbols s hs
    refine ⟨c, mem_clearPath_chunks.2 ⟨hc, fun hp => ?_⟩, hcs⟩
    simp only [List.contains_eq_mem, decide_eq_false_iff_not] at hnot
    exact hnot (mem_idsOfPath.2 ⟨c, hc, hp, hcs⟩)

theorem Index.rowsOf_clearPath_self (ix : Index) (p : Text) :
    (ix.clearPath p).rowsOf p = .empty := by
  have hc : (ix.clearPath p).chunksOf p = [] := by
    rw [List.eq_nil_iff_forall_not_mem]
    intro r hr
    obtain ⟨hr, hp⟩ := mem_chunksOf.1 hr
    exact (mem_clearPath_chunks.1 hr).2 hp
  unfold Index.rowsOf
  rw [hc]
  simp [Index.clearPath, PathRows.empty, List.filter_filter]

/-- The entries of another file's chunk survive: its rowid and id are its own. -/
theorem Index.entry_clearPath (ix : Index) {p : Text} {r : ChunkRow} (hr : r ∈ ix.chunks.rows)
    (hp : r.filePath ≠ p) : (ix.clearPath p).entry r = ix.entry r := by
  have hrow : ∀ i, i = r.rowid → i ∉ rowidsOfPath ix.chunks p := by
    rintro i rfl hi
    obtain ⟨c, hc, hcp, hcr⟩ := mem_rowidsOfPath.1 hi
    rw [ix.eq_of_rowid hc hr hcr] at hcp
    exact hp hcp
  have hid : ∀ i, i = r.id → i ∉ idsOfPath ix.chunks p := by
    rintro i rfl hi
    obtain ⟨c, hc, hcp, hcr⟩ := mem_idsOfPath.1 hi
    rw [ix.eq_of_id hc hr hcr] at hcp
    exact hp hcp
  have key : ∀ {ρ : Type} (l : List ρ) (P Q : ρ → Bool), (∀ a, Q a = true → P a = false) →
      (l.filter fun a => !P a).filter Q = l.filter Q := by
    intro ρ l P Q hPQ
    rw [List.filter_filter]
    refine List.filter_congr fun a _ => ?_
    cases hq : Q a with
    | false => rfl
    | true => simp [hPQ a hq]
  unfold Index.entry Index.clearPath
  simp only [Table.rows_delete, Entry.mk.injEq, true_and]
  refine ⟨?_, ?_, ?_⟩
  · rw [key]
    intro v hv
    simpa using hrow _ (of_decide_eq_true hv)
  · rw [key]
    intro f hf
    simpa using hrow _ (of_decide_eq_true hf)
  · have hs : ∀ s : SymbolRow, decide (s.chunkId = r.id) = true →
        (idsOfPath ix.chunks p).contains s.chunkId = false := by
      intro s hs
      simpa using hid _ (of_decide_eq_true hs)
    rw [key _ _ _ hs, key _ _ _ hs]

/-- The other files keep their chunk rows, rowids included. -/
theorem Index.chunksOf_clearPath_ne (ix : Index) {p q : Text} (h : q ≠ p) :
    (ix.clearPath p).chunksOf q = ix.chunksOf q := by
  unfold Index.chunksOf Index.clearPath
  rw [Table.rows_delete, List.filter_filter]
  refine List.filter_congr fun r _ => ?_
  by_cases hr : r.filePath = q
  · simp [hr, h]
  · simp [hr]

theorem Index.rowsOf_clearPath_ne (ix : Index) {p q : Text} (h : q ≠ p) :
    (ix.clearPath p).rowsOf q = ix.rowsOf q := by
  have hi : ∀ {ρ : Type} (l : List ρ) (f : ρ → Text),
      (l.filter fun r => !decide (f r = p)).filter (fun r => decide (f r = q)) =
        l.filter fun r => decide (f r = q) := by
    intro ρ l f
    rw [List.filter_filter]
    refine List.filter_congr fun r _ => ?_
    by_cases hr : f r = q
    · simp [hr, h]
    · simp [hr]
  refine PathRows.ext ?_ (hi _ _) (hi _ _)
  show ((ix.clearPath p).chunksOf q).map _ = (ix.chunksOf q).map _
  rw [ix.chunksOf_clearPath_ne h]
  refine List.map_congr_left fun r hr => ?_
  obtain ⟨hr, hq⟩ := mem_chunksOf.1 hr
  exact ix.entry_clearPath hr (by rw [hq]; exact h)

/-! ## Adding a chunk -/

/-- `ix'` is `ix` with one more chunk, its vector, its FTS row and its symbol. -/
structure Added (row : ChunkRow) (blob : List UInt8) (tokens : Text) (sym : Option SymbolRow)
    (ix ix' : Index) : Prop where
  chunks : ix'.chunks.rows = ix.chunks.rows ++ [row]
  vec : ix'.vec.rows = ix.vec.rows ++ [⟨row.rowid, blob⟩]
  fts : ix'.fts.rows = ix.fts.rows ++ [⟨row.rowid, tokens⟩]
  symbols : ix'.symbols.rows = ix.symbols.rows ++ sym.toList
  symId : ∀ s ∈ sym, s.chunkId = row.id
  imports : ix'.imports = ix.imports
  exports : ix'.exports = ix.exports
  files : ix'.files = ix.files
  metaRows : ix'.metaRows = ix.metaRows
  width : ix'.width = ix.width

section
variable {row : ChunkRow} {blob : List UInt8} {tokens : Text} {sym : Option SymbolRow}
  {ix ix' : Index}

/-- The new chunk's rowid and id were free. -/
theorem Added.fresh (h : Added row blob tokens sym ix ix') {r : ChunkRow}
    (hr : r ∈ ix.chunks.rows) : r.rowid ≠ row.rowid ∧ r.id ≠ row.id := by
  have hd := ix'.chunks.distinct
  rw [h.chunks, List.pairwise_append] at hd
  exact not_or.1 (hd.2.2 r hr row (List.mem_singleton.2 rfl))

theorem Added.bound (h : Added row blob tokens sym ix ix') (hb : ix.Bound) : ix'.Bound := by
  have old : ∀ r ∈ ix.chunks.rows, r ∈ ix'.chunks.rows := by
    intro r hr
    rw [h.chunks]; exact List.mem_append_left _ hr
  have new : row ∈ ix'.chunks.rows := by rw [h.chunks]; simp
  refine ⟨fun v hv => ?_, fun f hf => ?_, fun s hs => ?_⟩
  · rw [h.vec, List.mem_append, List.mem_singleton] at hv
    rcases hv with hv | rfl
    · obtain ⟨c, hc, hcv⟩ := hb.vec v hv
      exact ⟨c, old c hc, hcv⟩
    · exact ⟨row, new, rfl⟩
  · rw [h.fts, List.mem_append, List.mem_singleton] at hf
    rcases hf with hf | rfl
    · obtain ⟨c, hc, hcf⟩ := hb.fts f hf
      exact ⟨c, old c hc, hcf⟩
    · exact ⟨row, new, rfl⟩
  · rw [h.symbols, List.mem_append] at hs
    rcases hs with hs | hs
    · obtain ⟨c, hc, hcs⟩ := hb.symbols s hs
      exact ⟨c, old c hc, hcs⟩
    · exact ⟨row, new, (h.symId s (by simpa using hs)).symm⟩

/-- What hangs on the other chunks stays. -/
theorem Added.entry_old (h : Added row blob tokens sym ix ix') {r : ChunkRow}
    (hr : r ∈ ix.chunks.rows) : ix'.entry r = ix.entry r := by
  obtain ⟨hrow, hid⟩ := h.fresh hr
  unfold Index.entry
  rw [h.vec, h.fts, h.symbols]
  have hsym : sym.toList.filter (fun s => decide (s.chunkId = r.id)) = [] := by
    rw [List.filter_eq_nil_iff]
    intro s hs
    rw [decide_eq_true_eq, h.symId s (by simpa using hs)]
    exact fun he => hid he.symm
  simp [List.filter_append, hrow.symm, hsym]

/-- What hangs on the new chunk is what was inserted with it. -/
theorem Added.entry_new (h : Added row blob tokens sym ix ix') (hb : ix.Bound) :
    ix'.entry row = ⟨row.toChunkData, [blob], [tokens], sym.toList⟩ := by
  have hvec : ix.vec.rows.filter (fun v => decide (v.rowid = row.rowid)) = [] := by
    rw [List.filter_eq_nil_iff]
    intro v hv
    obtain ⟨c, hc, hcv⟩ := hb.vec v hv
    rw [decide_eq_true_eq, ← hcv]
    exact (h.fresh hc).1
  have hfts : ix.fts.rows.filter (fun f => decide (f.rowid = row.rowid)) = [] := by
    rw [List.filter_eq_nil_iff]
    intro f hf
    obtain ⟨c, hc, hcf⟩ := hb.fts f hf
    rw [decide_eq_true_eq, ← hcf]
    exact (h.fresh hc).1
  have hsym : ix.symbols.rows.filter (fun s => decide (s.chunkId = row.id)) = [] := by
    rw [List.filter_eq_nil_iff]
    intro s hs
    obtain ⟨c, hc, hcs⟩ := hb.symbols s hs
    rw [decide_eq_true_eq, ← hcs]
    exact (h.fresh hc).2
  have hnew : sym.toList.filter (fun s => decide (s.chunkId = row.id)) = sym.toList := by
    rw [List.filter_eq_self]
    intro s hs
    rw [decide_eq_true_eq]
    exact h.symId s (by simpa using hs)
  unfold Index.entry
  rw [h.vec, h.fts, h.symbols]
  simp [List.filter_append, hvec, hfts, hsym, hnew]

theorem Added.rowsOf_self (h : Added row blob tokens sym ix ix') (hb : ix.Bound) :
    ix'.rowsOf row.filePath =
      { ix.rowsOf row.filePath with
        entries := (ix.rowsOf row.filePath).entries ++
          [⟨row.toChunkData, [blob], [tokens], sym.toList⟩] } := by
  have hc : ix'.chunksOf row.filePath = ix.chunksOf row.filePath ++ [row] := by
    unfold Index.chunksOf
    rw [h.chunks]
    simp [List.filter_append]
  unfold Index.rowsOf
  rw [hc, h.imports, h.exports, List.map_append, List.map_singleton, h.entry_new hb]
  have : (ix.chunksOf row.filePath).map ix'.entry = (ix.chunksOf row.filePath).map ix.entry :=
    List.map_congr_left fun r hr => h.entry_old (Index.mem_chunksOf.1 hr).1
  rw [this]

theorem Added.chunksOf_ne (h : Added row blob tokens sym ix ix') {q : Text}
    (hq : q ≠ row.filePath) : ix'.chunksOf q = ix.chunksOf q := by
  unfold Index.chunksOf
  rw [h.chunks]
  simp [List.filter_append, hq.symm]

theorem Added.rowsOf_ne (h : Added row blob tokens sym ix ix') {q : Text}
    (hq : q ≠ row.filePath) : ix'.rowsOf q = ix.rowsOf q := by
  unfold Index.rowsOf
  rw [h.chunksOf_ne hq, h.imports, h.exports]
  have : (ix.chunksOf q).map ix'.entry = (ix.chunksOf q).map ix.entry :=
    List.map_congr_left fun r hr => h.entry_old (Index.mem_chunksOf.1 hr).1
  rw [this]

end

end CodeSearch
