import CodeSearch.Index

/-!
# What the per-file transactions do

`fileRows D e file` is what the index should hold for a file: one entry per chunk
of `chunkFile`, with the embedding and the tokens of that chunk's own text, and
the rows of its imports and exports.  A completed reprocess leaves exactly these
rows for the file and every other file's as they were, whatever rowids SQLite
hands out (`completes_reprocessBody`); a completed removal leaves none
(`completes_removeBody`).
-/

namespace CodeSearch

open Relational Store

variable (D : Deps) (e : Embedder)

/-! ## The rows of a file -/

/-- The entry of a chunk. -/
def specEntry (rel : Text) (spec : ChunkSpec) : Entry :=
  { data := (indexedChunk rel spec).data spec.kindStr
    vectors := [e.bytes (indexedText spec.body)]
    tokens := [bodyTokens D spec.body]
    symbols := ((specSymbol spec).map fun sym =>
      sym.row (chunkId rel spec.startLine spec.endLine)).toList }

/-- The structural rows of a file; none when it cannot be parsed. -/
def structuralRows (file : WalkedFile) : Option (List ImportRow × List ExportRow) :=
  match file.language with
  | none => some ([], [])
  | some lang =>
    match D.parseSourceImportsExports file.content lang with
    | .error _ => none
    | .ok (imports, exports) =>
      some (imports.map (importRow file.relPath), exports.map (exportRow file.relPath))

/-- The rows of a file; none when it cannot be chunked or parsed. -/
def fileRows (file : WalkedFile) : Option PathRows := do
  let specs ← chunkFile D file.content file.language
  let structural ← structuralRows D file
  pure ⟨specs.map (specEntry D e file.relPath), structural.1, structural.2⟩

/-! ## Strict bodies -/

theorem strict_execute (text : String) (s : Stmt) : (execute text s).Strict :=
  Prog.strict_execute _ _

theorem strict_forM {γ : Type} (l : List γ) {f : γ → Sql PUnit} (hf : ∀ x, (f x).Strict) :
    (l.forM f).Strict := by
  induction l with
  | nil => trivial
  | cons x l ih => exact Prog.strict_bind (hf x) fun _ => ih

theorem strict_deleteOldRows (rel : Text) : (deleteOldRows rel).Strict := by
  unfold deleteOldRows
  repeat' first
    | exact strict_execute _ _
    | refine Prog.strict_bind (strict_execute _ _) fun _ => ?_

theorem strict_insertSpec (rel : Text) (spec : ChunkSpec) : (insertSpec D rel e spec).Strict := by
  refine Prog.strict_mapError _ ?_
  refine Prog.strict_bind (strict_execute _ _) fun _ => ?_
  refine Prog.strict_bind (strict_execute _ _) fun _ => ?_
  refine Prog.strict_bind (strict_execute _ _) fun _ => ?_
  cases specSymbol spec with
  | none => trivial
  | some sym => exact strict_execute _ _

theorem strict_writeStructural (file : WalkedFile) : (writeStructural D file).Strict := by
  unfold writeStructural
  split
  · trivial
  · split
    · trivial
    · exact Prog.strict_mapError _ (Prog.strict_bind (strict_forM _ fun _ => strict_execute _ _)
        fun _ => strict_forM _ fun _ => strict_execute _ _)

theorem strict_reprocessBody (file : WalkedFile) (specs : List ChunkSpec) (hash : Text)
    (mtime : Int) (repoId : Text) : (reprocessBody D file specs hash mtime repoId e).Strict :=
  Prog.strict_bind (strict_deleteOldRows _) fun _ =>
    Prog.strict_bind (strict_forM _ fun _ => strict_insertSpec D e _ _) fun _ =>
      Prog.strict_bind (strict_writeStructural D file) fun _ =>
        Prog.strict_bind (strict_execute _ _) fun _ => trivial

theorem strict_removeBody (rel repoId : Text) : (removeBody rel repoId).Strict := by
  unfold removeBody
  repeat' first
    | exact Prog.strict_execute _ _
    | refine Prog.strict_bind (Prog.strict_execute _ _) fun _ => ?_

/-! ## Statements on a migrated index -/

theorem checked_bind_eq_ok {α β : Type} {o : Option α} {f : α → Except SqlError β} {b : β} :
    (checked o >>= f) = .ok b ↔ ∃ a, o = some a ∧ f a = .ok b := by
  cases o with
  | none => simp [checked, bind, Except.bind]
  | some a => simp [checked, bind, Except.bind]

/-- A checked change of one table. -/
theorem checked_update_eq_ok {α β : Type} {o : Option α} {f : α → β} {w : β} {r : Unit} :
    (checked o >>= fun a => .ok ((), f a)) = .ok (r, w) ↔ ∃ a, o = some a ∧ w = f a := by
  refine checked_bind_eq_ok.trans (exists_congr fun a => and_congr_right fun _ => ?_)
  constructor
  · intro h; cases h; rfl
  · rintro rfl; rfl

/-- The rowid of a stored chunk's id is that chunk's. -/
theorem rowidOf_eq {ix : Index} {r : ChunkRow} (hr : r ∈ ix.chunks.rows) :
    rowidOf ix.chunks r.id = some r.rowid := by
  unfold rowidOf
  cases hf : ix.chunks.rows.find? fun a => decide (a.id = r.id) with
  | none =>
    rw [List.find?_eq_none] at hf
    exact absurd (decide_eq_true rfl) (hf r hr)
  | some a =>
    have ha := List.mem_of_find?_eq_some hf
    have hid : a.id = r.id := by simpa using List.find?_some hf
    rw [ix.eq_of_id ha hr hid]
    rfl

/-! What an insert that succeeds does. -/

section
variable {ix : Index} {x : RowId} {w : Db}

theorem exec_insertChunk {data : ChunkData} {r : Unit} :
    exec (.insertChunk data) x ix.toDb = .ok (r, w) ↔ ∃ t', ix.chunks.insert?
      ⟨data, freshRowid x (ix.chunks.rows.map (·.rowid))⟩ = some t' ∧
      w = { ix with chunks := t' }.toDb :=
  checked_update_eq_ok

theorem exec_insertVec {id : Text} {bytes : List UInt8} {r : Unit} :
    exec (.insertVec id bytes) x ix.toDb = .ok (r, w) ↔ bytes.length = 4 * ix.width ∧
      ∃ t', ix.vec.insert? ⟨boundRowid ix.chunks id x (ix.vec.rows.map (·.rowid)), bytes⟩ = some t' ∧
      w = { ix with vec := t' }.toDb := by
  by_cases hl : bytes.length = 4 * ix.width
  · have he : exec (.insertVec id bytes) x ix.toDb = (checked (ix.vec.insert?
        ⟨boundRowid ix.chunks id x (ix.vec.rows.map (·.rowid)), bytes⟩) >>= fun t' =>
        .ok ((), { ix with vec := t' }.toDb)) := if_pos hl
    rw [he]
    exact checked_update_eq_ok.trans (and_iff_right hl).symm
  · have he : exec (.insertVec id bytes) x ix.toDb = .error .dimensionMismatch := if_neg hl
    rw [he]
    simp [hl]

theorem exec_insertFts {id : Text} {tokens : Text} {r : Unit} :
    exec (.insertFts id tokens) x ix.toDb = .ok (r, w) ↔
      ∃ t', ix.fts.insert? ⟨boundRowid ix.chunks id x (ix.fts.rows.map (·.rowid)), tokens⟩ = some t' ∧
      w = { ix with fts := t' }.toDb :=
  checked_update_eq_ok

theorem exec_insertSymbol {row : SymbolRow} {r : Unit} :
    exec (.insertSymbol row) x ix.toDb = .ok (r, w) ↔ (rowidOf ix.chunks row.chunkId).isSome ∧
      ∃ t', ix.symbols.insert? row = some t' ∧ w = { ix with symbols := t' }.toDb := by
  by_cases hl : (rowidOf ix.chunks row.chunkId).isSome
  · have he : exec (.insertSymbol row) x ix.toDb = (checked (ix.symbols.insert? row) >>= fun t' =>
        .ok ((), { ix with symbols := t' }.toDb)) := if_pos hl
    rw [he]
    exact checked_update_eq_ok.trans (and_iff_right hl).symm
  · have he : exec (.insertSymbol row) x ix.toDb = .error .constraint := if_neg hl
    rw [he]
    simp [hl]

end

section
variable {allow : Req Stmt → Outcome RowId SqlError → Db → Txn Db → Prop} {c : Db}

/-- One statement, then the rest. -/
theorem completes_execute_bind {α : Type} {err : SqlError → Error} {s : Stmt} {f : s.Resp → Sql α}
    {a : α} {t t' : Txn Db}
    (h : Completes engine allow c ((Prog.execute err s : Sql s.Resp) >>= f) t a t') :
    ∃ x r w, exec s x (t.view c) = .ok (r, w) ∧ Completes engine allow c (f r) (.active w) a t' := by
  obtain ⟨r, t₁, h₁, h₂⟩ := completes_bind.1 h
  obtain ⟨-, x, w, -, hx, rfl⟩ := completes_execute.1 h₁
  exact ⟨x, r, w, hx, h₂⟩

/-- The delete half of a reprocess. -/
theorem completes_deleteOldRows {rel : Text} {u : Unit} {t t' : Txn Db} {ix : Index}
    (h : Completes engine allow c (deleteOldRows rel) t u t') (ht : t.view c = ix.toDb) :
    t'.view c = (ix.clearPath rel).toDb := by
  obtain ⟨_, _, w₁, e₁, h⟩ := completes_execute_bind h
  obtain ⟨_, _, w₂, e₂, h⟩ := completes_execute_bind h
  obtain ⟨_, _, w₃, e₃, h⟩ := completes_execute_bind h
  obtain ⟨_, _, w₄, e₄, h⟩ := completes_execute_bind h
  obtain ⟨_, _, w₅, e₅, h⟩ := completes_execute_bind h
  obtain ⟨-, _, w₆, -, e₆, rfl⟩ := completes_execute.1 h
  rw [ht] at e₁
  cases e₁
  cases e₂
  cases e₃
  cases e₄
  cases e₅
  cases e₆
  rfl

/-- One spec inserted: the virtual tables are bound to the rowid of its chunk. -/
theorem completes_insertSpec {rel : Text} {spec : ChunkSpec} {u : Unit} {t t' : Txn Db}
    {ix : Index} (h : Completes engine allow c (insertSpec D rel e spec) t u t')
    (ht : t.view c = ix.toDb) :
    ∃ (ix' : Index) (row : ChunkRow), t'.view c = ix'.toDb ∧
      row.toChunkData = (indexedChunk rel spec).data spec.kindStr ∧
      Added row (e.bytes (indexedText spec.body)) (bodyTokens D spec.body)
        ((specSymbol spec).map fun sym => sym.row (chunkId rel spec.startLine spec.endLine))
        ix ix' := by
  have h := completes_mapError.1 h
  obtain ⟨x, _, w₁, e₁, h⟩ := completes_execute_bind h
  obtain ⟨_, _, w₂, e₂, h⟩ := completes_execute_bind h
  obtain ⟨_, _, w₃, e₃, h⟩ := completes_execute_bind h
  rw [ht] at e₁
  obtain ⟨chunks, hchunks, rfl⟩ := exec_insertChunk.1 e₁
  obtain ⟨-, vec, hvec, rfl⟩ := exec_insertVec.1 e₂
  obtain ⟨fts, hfts, rfl⟩ := exec_insertFts.1 e₃
  rw [Table.insert?_eq_some] at hchunks hvec hfts
  generalize hrow : (ChunkRow.mk ((indexedChunk rel spec).data spec.kindStr)
    (freshRowid x (ix.chunks.rows.map (·.rowid)))) = row at hchunks
  have hdata : row.toChunkData = (indexedChunk rel spec).data spec.kindStr := by rw [← hrow]
  have hid : row.id = (indexedChunk rel spec).id := congrArg ChunkData.id hdata
  have hmem : row ∈ ({ ix with chunks := chunks } : Index).chunks.rows := by
    rw [show ({ ix with chunks := chunks } : Index).chunks = chunks from rfl, hchunks]; simp
  have hbound : ∀ y used, boundRowid chunks (indexedChunk rel spec).id y used = row.rowid := by
    intro y used
    have := rowidOf_eq hmem
    rw [hid] at this
    unfold boundRowid
    rw [this]; rfl
  simp only [hbound] at hvec hfts
  cases hsym : specSymbol spec with
  | none =>
    rw [hsym] at h
    obtain ⟨-, rfl⟩ := completes_pure.1 h
    exact ⟨_, row, rfl, hdata, hchunks, hvec, hfts, by simp, by simp, rfl, rfl, rfl, rfl, rfl⟩
  | some sym =>
    rw [hsym] at h
    obtain ⟨-, x₄, w₄, -, e₄, rfl⟩ := completes_execute.1 h
    obtain ⟨-, symbols, hs, rfl⟩ := (exec_insertSymbol (x := x₄)).1 e₄
    rw [Table.insert?_eq_some] at hs
    exact ⟨_, row, rfl, hdata, hchunks, hvec, hfts, hs, by simp [SymbolData.row, hid,
      indexedChunk], rfl, rfl, rfl, rfl, rfl⟩

/-- `ix'` is `ix` with these rows added to file `p`; no other file changes. -/
structure Grown (p : Text) (rows : PathRows) (ix ix' : Index) : Prop where
  bound : ix.Bound → ix'.Bound
  entries : ix.Bound → (ix'.rowsOf p).entries = (ix.rowsOf p).entries ++ rows.entries
  imports : (ix'.rowsOf p).imports = (ix.rowsOf p).imports ++ rows.imports
  exports : (ix'.rowsOf p).exports = (ix.rowsOf p).exports ++ rows.exports
  others : ∀ q, q ≠ p → ix'.rowsOf q = ix.rowsOf q
  chunksOf : ∀ q, q ≠ p → ix'.chunksOf q = ix.chunksOf q
  files : ix'.files = ix.files
  metaRows : ix'.metaRows = ix.metaRows
  width : ix'.width = ix.width

theorem Grown.refl (p : Text) (ix : Index) : Grown p .empty ix ix :=
  ⟨id, fun _ => by simp [PathRows.empty], by simp [PathRows.empty], by simp [PathRows.empty],
    fun _ _ => rfl, fun _ _ => rfl, rfl, rfl, rfl⟩

theorem Grown.trans {p : Text} {a b : PathRows} {ix ix' ix'' : Index} (h : Grown p a ix ix')
    (h' : Grown p b ix' ix'') :
    Grown p ⟨a.entries ++ b.entries, a.imports ++ b.imports, a.exports ++ b.exports⟩ ix ix'' where
  bound hb := h'.bound (h.bound hb)
  entries hb := by rw [h'.entries (h.bound hb), h.entries hb, List.append_assoc]
  imports := by rw [h'.imports, h.imports, List.append_assoc]
  exports := by rw [h'.exports, h.exports, List.append_assoc]
  others q hq := (h'.others q hq).trans (h.others q hq)
  chunksOf q hq := (h'.chunksOf q hq).trans (h.chunksOf q hq)
  files := h'.files.trans h.files
  metaRows := h'.metaRows.trans h.metaRows
  width := h'.width.trans h.width

/-- One chunk grows its own file. -/
theorem Added.grown {rel : Text} {spec : ChunkSpec} {row : ChunkRow} {ix ix' : Index}
    (hdata : row.toChunkData = (indexedChunk rel spec).data spec.kindStr)
    (h : Added row (e.bytes (indexedText spec.body)) (bodyTokens D spec.body)
      ((specSymbol spec).map fun sym => sym.row (chunkId rel spec.startLine spec.endLine)) ix ix') :
    Grown rel ⟨[specEntry D e rel spec], [], []⟩ ix ix' := by
  have hp : row.filePath = rel := congrArg ChunkData.filePath hdata
  refine ⟨h.bound, fun hb => ?_, ?_, ?_, fun q hq => h.rowsOf_ne (by rw [hp]; exact hq),
    fun q hq => h.chunksOf_ne (by rw [hp]; exact hq), h.files, h.metaRows, h.width⟩
  · have := congrArg PathRows.entries (h.rowsOf_self hb)
    rw [hp] at this
    rw [this, hdata]
    rfl
  · simp [Index.rowsOf, h.imports]
  · simp [Index.rowsOf, h.exports]

theorem completes_insertSpecs {rel : Text} (specs : List ChunkSpec) :
    ∀ {u : Unit} {t t' : Txn Db} {ix : Index},
    Completes engine allow c (specs.forM (insertSpec D rel e)) t u t' → t.view c = ix.toDb →
    ∃ ix', t'.view c = ix'.toDb ∧ Grown rel ⟨specs.map (specEntry D e rel), [], []⟩ ix ix' := by
  induction specs with
  | nil =>
    intro u t t' ix h ht
    obtain ⟨-, rfl⟩ := completes_pure.1 h
    exact ⟨ix, ht, .refl rel ix⟩
  | cons spec specs ih =>
    intro u t t' ix h ht
    obtain ⟨_, t₁, h₁, h⟩ := completes_bind.1 h
    obtain ⟨ix₁, row, ht₁, hdata, hadd⟩ := completes_insertSpec D e h₁ ht
    obtain ⟨ix', ht', hg⟩ := ih h ht₁
    exact ⟨ix', ht', (hadd.grown D e hdata).trans hg⟩

/-- Import rows grow their file. -/
theorem completes_insertImports {rel : Text} (imports : List ImportStatement) :
    ∀ {u : Unit} {t t' : Txn Db} {ix : Index},
    Completes engine allow c (imports.forM fun imp => execute "insert file import row"
      (.insertImport (importRow rel imp))) t u t' → t.view c = ix.toDb →
    ∃ ix', t'.view c = ix'.toDb ∧ Grown rel ⟨[], imports.map (importRow rel), []⟩ ix ix' := by
  induction imports with
  | nil =>
    intro u t t' ix h ht
    obtain ⟨-, rfl⟩ := completes_pure.1 h
    exact ⟨ix, ht, .refl rel ix⟩
  | cons imp imports ih =>
    intro u t t' ix h ht
    obtain ⟨_, _, w, hx, h⟩ := completes_execute_bind h
    rw [ht] at hx
    cases hx
    have hg₁ : Grown rel ⟨[], [importRow rel imp], []⟩ ix
        { ix with imports := ix.imports ++ [importRow rel imp] } := by
      refine ⟨fun hb => ⟨hb.vec, hb.fts, hb.symbols⟩, fun _ => by simp [Index.rowsOf]; rfl, ?_, ?_,
        fun q hq => ?_, fun _ _ => rfl, rfl, rfl, rfl⟩
      · simp [Index.rowsOf, List.filter_append, importRow]
      · simp [Index.rowsOf]
      · have hne : ¬ rel = q := fun h => hq h.symm
        refine PathRows.ext rfl ?_ rfl
        simp [Index.rowsOf, List.filter_append, importRow, hne]
    have hv : (Txn.active _).view c =
        ({ ix with imports := ix.imports ++ [importRow rel imp] } : Index).toDb := rfl
    obtain ⟨ix', ht', hg⟩ := ih h hv
    exact ⟨ix', ht', hg₁.trans hg⟩

/-- Export rows grow their file. -/
theorem completes_insertExports {rel : Text} (exports : List ExportStatement) :
    ∀ {u : Unit} {t t' : Txn Db} {ix : Index},
    Completes engine allow c (exports.forM fun exp => execute "insert file export row"
      (.insertExport (exportRow rel exp))) t u t' → t.view c = ix.toDb →
    ∃ ix', t'.view c = ix'.toDb ∧ Grown rel ⟨[], [], exports.map (exportRow rel)⟩ ix ix' := by
  induction exports with
  | nil =>
    intro u t t' ix h ht
    obtain ⟨-, rfl⟩ := completes_pure.1 h
    exact ⟨ix, ht, .refl rel ix⟩
  | cons exp exports ih =>
    intro u t t' ix h ht
    obtain ⟨_, _, w, hx, h⟩ := completes_execute_bind h
    rw [ht] at hx
    cases hx
    have hg₁ : Grown rel ⟨[], [], [exportRow rel exp]⟩ ix
        { ix with exports := ix.exports ++ [exportRow rel exp] } := by
      refine ⟨fun hb => ⟨hb.vec, hb.fts, hb.symbols⟩, fun _ => by simp [Index.rowsOf]; rfl, ?_, ?_,
        fun q hq => ?_, fun _ _ => rfl, rfl, rfl, rfl⟩
      · simp [Index.rowsOf]
      · simp [Index.rowsOf, List.filter_append, exportRow]
      · have hne : ¬ rel = q := fun h => hq h.symm
        refine PathRows.ext rfl rfl ?_
        simp [Index.rowsOf, List.filter_append, exportRow, hne]
    have hv : (Txn.active _).view c =
        ({ ix with exports := ix.exports ++ [exportRow rel exp] } : Index).toDb := rfl
    obtain ⟨ix', ht', hg⟩ := ih h hv
    exact ⟨ix', ht', hg₁.trans hg⟩

/-! ## The two transactions -/

theorem completes_writeStructural {file : WalkedFile} {u : Unit} {t t' : Txn Db} {ix : Index}
    (h : Completes engine allow c (writeStructural D file) t u t') (ht : t.view c = ix.toDb) :
    ∃ ix' rows, structuralRows D file = some rows ∧ t'.view c = ix'.toDb ∧
      Grown file.relPath ⟨[], rows.1, rows.2⟩ ix ix' := by
  unfold writeStructural at h
  unfold structuralRows
  cases hl : file.language with
  | none =>
    simp only [hl] at h
    obtain ⟨-, rfl⟩ := completes_pure.1 h
    exact ⟨ix, _, rfl, ht, .refl _ ix⟩
  | some lang =>
    simp only [hl] at h ⊢
    cases hp : D.parseSourceImportsExports file.content lang with
    | error err =>
      rw [hp] at h
      exact (completes_throw h).elim
    | ok both =>
      obtain ⟨imports, exports⟩ := both
      rw [hp] at h
      obtain ⟨_, t₁, h₁, h₂⟩ := completes_bind.1 (completes_mapError.1 h)
      obtain ⟨ix₁, ht₁, hg₁⟩ := completes_insertImports imports h₁ ht
      obtain ⟨ix', ht', hg₂⟩ := completes_insertExports exports h₂ ht₁
      refine ⟨ix', _, rfl, ht', ?_⟩
      simpa using hg₁.trans hg₂

/-- What a completed reprocess of `file` does to the index. -/
structure Reprocessed (file : WalkedFile) (row : FileRow) (ix ix' : Index) : Prop where
  rows : fileRows D e file = some (ix'.rowsOf file.relPath)
  others : ∀ q, q ≠ file.relPath → ix'.rowsOf q = ix.rowsOf q
  chunksOf : ∀ q, q ≠ file.relPath → ix'.chunksOf q = ix.chunksOf q
  bound : ix'.Bound
  files : ix'.files = ix.files.replace row
  metaRows : ix'.metaRows = ix.metaRows
  width : ix'.width = ix.width

/-- A completed body leaves exactly the rows of its file, in place of the old ones. -/
theorem completes_reprocessBody {file : WalkedFile} {specs : List ChunkSpec} {hash : Text}
    {mtime : Int} {repoId : Text} {n : Nat} {t t' : Txn Db} {ix : Index}
    (hspecs : chunkFile D file.content file.language = some specs) (hb : ix.Bound)
    (h : Completes engine allow c (reprocessBody D file specs hash mtime repoId e) t n t')
    (ht : t.view c = ix.toDb) :
    ∃ ix', t'.view c = ix'.toDb ∧ n = specs.length ∧
      Reprocessed D e file (filesRow file hash mtime repoId) ix ix' := by
  obtain ⟨_, t₁, h₁, h⟩ := completes_bind.1 h
  obtain ⟨_, t₂, h₂, h⟩ := completes_bind.1 h
  obtain ⟨_, t₃, h₃, h⟩ := completes_bind.1 h
  obtain ⟨_, _, w, hx, h⟩ := completes_execute_bind h
  obtain ⟨rfl, rfl⟩ := completes_pure.1 h
  have ht₁ := completes_deleteOldRows h₁ ht
  obtain ⟨ix₂, ht₂, hg₂⟩ := completes_insertSpecs D e specs h₂ ht₁
  obtain ⟨ix₃, rows, hrows, ht₃, hg₃⟩ := completes_writeStructural D h₃ ht₂
  rw [ht₃] at hx
  cases hx
  have hg := hg₂.trans hg₃
  have hb₁ := hb.clearPath file.relPath
  refine ⟨{ ix₃ with files := ix₃.files.replace (filesRow file hash mtime repoId) }, rfl, rfl, ?_⟩
  -- nothing but the `files` row changes after the structural rows
  have hsame : ∀ q, ({ ix₃ with files := ix₃.files.replace (filesRow file hash mtime repoId) } :
      Index).rowsOf q = ix₃.rowsOf q := fun _ => rfl
  refine ⟨?_, fun q hq => ?_, fun q hq => ?_, ⟨(hg.bound hb₁).vec, (hg.bound hb₁).fts, (hg.bound hb₁).symbols⟩,
    congrArg (fun f : FileTable => f.replace (filesRow file hash mtime repoId)) hg.files,
    hg.metaRows, hg.width⟩
  · have hself := ix.rowsOf_clearPath_self file.relPath
    rw [hsame]
    unfold fileRows
    rw [hspecs, hrows]
    show some (PathRows.mk _ _ _) = _
    congr 1
    refine PathRows.ext ?_ ?_ ?_
    · rw [hg.entries hb₁, hself]; simp [PathRows.empty]
    · rw [hg.imports, hself]; simp [PathRows.empty]
    · rw [hg.exports, hself]; simp [PathRows.empty]
  · rw [hsame, hg.others q hq, ix.rowsOf_clearPath_ne hq]
  · exact (hg.chunksOf q hq).trans (ix.chunksOf_clearPath_ne hq)

/-- The index without a file and without its row for `repoId`. -/
def Index.removePath (ix : Index) (rel repoId : Text) : Index :=
  { ix.clearPath rel with
    files := ix.files.delete fun r => decide (r.path = rel ∧ r.repoId = repoId) }

/-- A completed removal. -/
theorem completes_removeBody {rel repoId : Text} {u : Unit} {t t' : Txn Db} {ix : Index}
    (h : Completes engine allow c (removeBody rel repoId) t u t') (ht : t.view c = ix.toDb) :
    t'.view c = (ix.removePath rel repoId).toDb := by
  obtain ⟨_, _, w₁, e₁, h⟩ := completes_execute_bind h
  obtain ⟨_, _, w₂, e₂, h⟩ := completes_execute_bind h
  obtain ⟨_, _, w₃, e₃, h⟩ := completes_execute_bind h
  obtain ⟨_, _, w₄, e₄, h⟩ := completes_execute_bind h
  obtain ⟨_, _, w₅, e₅, h⟩ := completes_execute_bind h
  obtain ⟨_, _, w₆, e₆, h⟩ := completes_execute_bind h
  obtain ⟨-, _, w₇, -, e₇, rfl⟩ := completes_execute.1 h
  rw [ht] at e₁
  cases e₁
  cases e₂
  cases e₃
  cases e₄
  cases e₅
  cases e₆
  cases e₇
  rfl

/-- The index after a wipe. -/
def Index.wiped (ix : Index) : Index := { Index.empty ix.width with metaRows := ix.metaRows }

/-- `DELETE FROM t` on a migrated index. -/
def Index.deleteAll (ix : Index) : WipedTable → Index
  | .chunksVec => { ix with vec := .empty }
  | .chunksFts => { ix with fts := .empty }
  | .symbols => { ix with symbols := .empty }
  | .fileImports => { ix with imports := [] }
  | .fileExports => { ix with exports := [] }
  | .chunks => { ix with
      chunks := ix.chunks.delete fun _ => true
      symbols := ix.symbols.delete fun r =>
        ((ix.chunks.rows.filter fun _ => true).map (·.id)).contains r.chunkId }
  | .files => { ix with files := .empty }

theorem exec_deleteAll (ix : Index) (x : RowId) (t : WipedTable) :
    exec (.deleteAll t) x ix.toDb = .ok ((), (ix.deleteAll t).toDb) := by
  cases t <;> rfl

theorem completes_deleteAlls {err : SqlError → Error} (ts : List WipedTable) :
    ∀ {u : Unit} {t t' : Txn Db} {ix : Index},
    Completes engine allow c (Prog.batch err ((ts.map Stmt.deleteAll).map .stmt) : Sql Unit) t u t' →
    t.view c = ix.toDb → t'.view c = (ts.foldl Index.deleteAll ix).toDb := by
  induction ts with
  | nil =>
    intro u t t' ix h ht
    rw [completes_batch_nil.1 h, ht]; rfl
  | cons w ts ih =>
    intro u t t' ix h ht
    obtain ⟨-, x, _, w', -, hx, h⟩ := completes_batch_cons.1 h
    rw [ht] at hx
    have hx := (exec_deleteAll ix x w).symm.trans hx
    cases hx
    exact ih h rfl

/-- A completed wipe. -/
theorem completes_wipe {err : SqlError → Error} {u : Unit} {t t' : Txn Db} {ix : Index}
    (h : Completes engine allow c (Prog.batch err ((wipedTables.map Stmt.deleteAll).map .stmt) :
      Sql Unit) t u t') (ht : t.view c = ix.toDb) : t'.view c = ix.wiped.toDb := by
  rw [completes_deleteAlls wipedTables h ht]
  simp [wipedTables, Index.deleteAll, Index.wiped, Index.empty]

end

end CodeSearch
