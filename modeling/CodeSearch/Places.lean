import CodeSearch.Concurrency
import CodeSearch.Partition

/-!
# Where stored chunks are

A stored chunk's id names its file and its lines, and its range is not empty: of the
trees the walker yields, the line numbers fit the `u32` they are stored as.  Every
statement of the indexer keeps this, so it holds of every committed state, whatever
connections open, migrate and run on whatever roots (`reachable_located`).
-/

namespace CodeSearch

open Relational Store

/-- The id of the row names its file and its lines. -/
structure Located (data : ChunkData) : Prop where
  id : data.id = chunkId data.filePath data.startLine data.endLine
  le : data.startLine ≤ data.endLine
  fits : data.endLine < 2 ^ 32

def Db.Located (c : Db) : Prop := ∀ row ∈ c.chunkRows, CodeSearch.Located row.toChunkData

/-! ## Chunks of a file -/

theorem length_splitInclusive_le (content : Text) :
    (splitInclusive content).length ≤ byteLen content := by
  induction content with
  | nil => exact Nat.le_refl 0
  | cons c s ih =>
    have hc : 1 ≤ c.utf8Size := Char.utf8Size_pos c
    have hbytes : byteLen (c :: s) = c.utf8Size + byteLen s := byteLen_cons c s
    unfold splitInclusive
    by_cases hnl : c = '\n'
    · rw [if_pos hnl, List.length_cons]
      omega
    · rw [if_neg hnl]
      cases hs : splitInclusive s with
      | nil =>
        show 1 ≤ byteLen (c :: s)
        omega
      | cons l ls =>
        rw [hs, List.length_cons] at ih
        show ls.length + 1 ≤ byteLen (c :: s)
        omega

/-- A file the walker yields has fewer lines than a `u32` counts. -/
theorem length_lines_lt {content : Text} (h : Walkable content) : (lines content).length < 2 ^ 32 := by
  have hlen := length_splitInclusive_le content
  have hbytes := h.1
  unfold maxFileBytes at hbytes
  unfold lines
  rw [List.length_map]
  omega

theorem windowsFrom_ranges (ls : List Text) : ∀ (n start : Nat), start ≤ ls.length →
    ∀ spec ∈ windowsFrom ls n start, spec.startLine ≤ spec.endLine ∧ spec.endLine ≤ ls.length := by
  intro n
  induction n with
  | zero => intro start _ spec hspec; cases hspec
  | succ n ih =>
    intro start hstart spec hspec
    unfold windowsFrom at hspec
    simp only [List.mem_cons] at hspec
    rcases hspec with rfl | hrest
    · show start ≤ min (start + windowLines - 1) ls.length ∧ min (start + windowLines - 1) ls.length ≤ _
      unfold windowLines
      omega
    · split at hrest
      · cases hrest
      · refine ih _ ?_ spec hrest
        unfold windowLines windowOverlap at *
        omega

/-- The chunks of a content are line ranges of it. -/
theorem chunkFile_ranges {D : Deps} {content : Text} {language : Option Language}
    {specs : List ChunkSpec} (h : chunkFile D content language = some specs) :
    ∀ spec ∈ specs, spec.startLine ≤ spec.endLine ∧ spec.endLine ≤ (lines content).length := by
  cases language with
  | none =>
    cases h
    intro spec hspec
    obtain ⟨h1, hspec⟩ := mem_chunkWindows hspec
    exact windowsFrom_ranges _ _ 1 h1 spec hspec
  | some lang =>
    have h : chunkSpans (lines content) _ = some specs := h
    obtain ⟨chunks, hchunks, hparts⟩ := partitions_chunkSpans (inRange_of_chunkSpans h)
    rw [h] at hchunks
    cases hchunks
    exact fun spec hspec => ⟨(hparts.bodies spec hspec).2.1, (hparts.bodies spec hspec).2.2.1⟩

theorem located_indexedChunk {D : Deps} {content : Text} {language : Option Language}
    {specs : List ChunkSpec} (hw : Walkable content) (h : chunkFile D content language = some specs)
    {spec : ChunkSpec} (hspec : spec ∈ specs) (rel : Text) :
    Located ((indexedChunk rel spec).data spec.kindStr) := by
  obtain ⟨hle, hend⟩ := chunkFile_ranges h spec hspec
  have hlines := length_lines_lt hw
  have hs : spec.startLine % 2 ^ 32 = spec.startLine := Nat.mod_eq_of_lt (by omega)
  have he : spec.endLine % 2 ^ 32 = spec.endLine := Nat.mod_eq_of_lt (by omega)
  constructor
  · show chunkId rel spec.startLine spec.endLine =
      chunkId rel (spec.startLine % 2 ^ 32) (spec.endLine % 2 ^ 32)
    rw [hs, he]
  · show spec.startLine % 2 ^ 32 ≤ spec.endLine % 2 ^ 32
    rw [hs, he]
    exact hle
  · show spec.endLine % 2 ^ 32 < 2 ^ 32
    omega

/-! ## Statements -/

/-- A chunk it inserts is located. -/
def LocatedStmt (s : Stmt) : Prop := ∀ data, s = .insertChunk data → Located data

theorem runAllows_located (D : Deps) (repoId : Text) (e : Embedder) :
    RunAllows LocatedStmt D repoId e Walkable where
  stmt _ hne := fun data hdata => absurd hdata (hne data)
  chunk hw hspecs spec hspec rel := by
    intro data hdata
    cases hdata
    exact located_indexedChunk hw hspecs hspec rel

theorem Edits.chunkRows {s : Stmt} {c c' : Db} (h : Edits c s c') :
    ∀ row ∈ c'.chunkRows, row ∈ c.chunkRows ∨ s = .insertChunk row.toChunkData := by
  intro row hrow
  cases h with
  | chunks hk _ rows =>
    unfold Db.chunkRows
    rw [hk]
    exact rows row hrow
  | _ => exact .inl hrow

/-- A statement keeps or drops chunk rows, or inserts one. -/
theorem exec_chunkRows {s : Stmt} {x : RowId} {c c' : Db} {r : s.Resp}
    (h : exec s x c = .ok (r, c')) :
    ∀ row ∈ c'.chunkRows, row ∈ c.chunkRows ∨ s = .insertChunk row.toChunkData := by
  by_cases hs : s.OnRows
  · exact (edits_of_exec hs h).chunkRows
  intro row hrow
  cases s with
  | createChunks =>
    rw [(exec_createChunks h).2.1.chunks] at hrow
    exact .inl hrow
  | alterChunksAddKind =>
    rw [(exec_alterChunksAddKind h).2.1.chunks] at hrow
    exact .inl hrow
  | create t =>
    rw [(exec_create h).2.1.chunks] at hrow
    exact .inl hrow
  | pragma | createChunksVec dim =>
    cases h
    exact .inl hrow
  | tableInfo t =>
    cases t <;>
    · cases h
      exact .inl hrow
  | createFilesNew =>
    simp only [exec] at h
    split at h
    · cases h
    · cases h
      exact .inl hrow
  | copyFilesNew repoId =>
    obtain ⟨t, -, h⟩ := need_bind_eq_ok.1 h
    obtain ⟨f, -, h⟩ := need_bind_eq_ok.1 h
    obtain ⟨t', -, h⟩ := checked_bind_eq_ok.1 h
    cases h
    exact .inl hrow
  | renameFilesNew =>
    obtain ⟨t, -, h⟩ := need_bind_eq_ok.1 h
    split at h
    · cases h
    · cases h
      exact .inl hrow
  | dropFiles =>
    obtain ⟨a, -, h⟩ := need_bind_eq_ok.1 h
    cases h
    exact .inl hrow
  | _ => exact absurd trivial hs

/-! ## Programs -/

theorem only_openDbWith (dim : Nat) : (openDbWith dim).Only LocatedStmt := by
  refine only_batch _ fun s hs data hdata => ?_
  subst hdata
  simp at hs

theorem located_of_ne {s : Stmt} (h : ∀ data, s ≠ .insertChunk data) : LocatedStmt s :=
  fun data hdata => absurd hdata (h data)

theorem located_tableInfo (table : InfoTable) : LocatedStmt (.tableInfo table) :=
  located_of_ne (by intro data h; cases h)

theorem only_migrateFilesSchema : migrateFilesSchema.Only LocatedStmt := by
  have hmeta : ∀ key, (readMeta key).Only LocatedStmt :=
    fun key => only_execute (located_of_ne (by intro data h; cases h))
  have hversion : readSchemaVersion.Only LocatedStmt := by
    refine only_bind (hmeta _) fun v => ?_
    split
    · split <;> trivial
    · trivial
  have hwrite : (writeSchemaVersion schemaVersion).Only LocatedStmt :=
    only_execute (located_of_ne (by intro data h; cases h))
  unfold migrateFilesSchema
  refine only_bind hversion fun stored => ?_
  extract_lets rest
  have hrest : ∀ u, (rest u).Only LocatedStmt := by
    intro u
    refine only_bind (only_columnExists (located_tableInfo _) _) fun hasRepoId =>
      only_bind (only_filesPkIsComposite (located_tableInfo _)) fun compositePk => ?_
    split
    · exact hwrite
    · refine only_bind (only_batch _ fun s hs data hdata => ?_) fun _ =>
        only_bind (only_attempt hwrite) fun r => ?_
      · subst hdata
        simp at hs
      · split
        · exact only_batch _ fun s hs => by simp at hs
        · exact ⟨fun s hs => (by cases hs), fun _ => trivial⟩
  split
  · split
    · trivial
    · exact hrest ()
  · exact hrest ()

theorem only_migrate : migrate.Only LocatedStmt := by
  refine only_bind (only_batch _ fun s hs data hdata => ?_) fun _ =>
    only_bind (only_columnExists (located_tableInfo _) _) fun hasKind => ?_
  · subst hdata
    simp at hs
  · extract_lets rest
    have hrest : ∀ u, (rest u).Only LocatedStmt := by
      intro u
      refine only_bind (only_batch _ fun s hs data hdata => ?_) fun _ =>
        only_mapError only_migrateFilesSchema
      subst hdata
      simp at hs
    split
    · exact only_bind (only_execute (located_of_ne (by intro data h; cases h))) hrest
    · exact hrest ()

/-! ## Any number of connections -/

/-- The walked files are within the walker's limits. -/
def Phase.Walked : Phase → Prop
  | .running _ _ view _ => ∀ f ∈ view.walked, Walkable f.content
  | _ => True

theorem only_phase {ph : Phase} (h : ph.Walked) : ph.prog.Only LocatedStmt := by
  cases ph with
  | opening dim => exact only_openDbWith dim
  | migrating => exact only_migrate
  | running D e view force =>
    exact only_bind (only_reindexWith (runAllows_located D _ e) h force) fun _ => trivial

/-- Rows that appear are located. -/
def NewLocated (c c' : Db) : Prop :=
  ∀ row ∈ c'.chunkRows, row ∈ c.chunkRows ∨ CodeSearch.Located row.toChunkData

/-- Everybody keeps the database located, whatever happens. -/
def locatedRules : Rules Stmt SqlError Db RowId where
  rely c c' := c.Located → c'.Located
  guar c c' := c.Located → c'.Located
  allow := anyOutcome
  rely_refl _ h := h
  rely_trans _ _ _ h h' hc := h' (h hc)
  guar_refl _ h := h

/-- What a phase ends with: also the rows of an open working copy are located. -/
def EndsLocated (c : Db) (t : Txn Db) : Prop := c.Located ∧ ∀ w, t = .active w → NewLocated c w

theorem wp_located {α : Type} {p : Sql α} (hp : p.Only LocatedStmt) {c : Db} {t : Txn Db}
    (h : EndsLocated c t) : wp engine locatedRules p (fun _ => EndsLocated) c t := by
  have hkeep : ∀ c c', c.Located → NewLocated c c' → c'.Located := fun c c' hc hnew row hrow =>
    (hnew row hrow).elim (hc row) id
  refine wp_only_ahead (K := Db.Located) (G := NewLocated) (fun c row hrow => .inl hrow)
    (fun a b c hab hbc row hrow => ?_) (fun s x c r c' hs hx row hrow => ?_) hkeep
    (fun c c' (hrely : c.Located → c'.Located) hc => hrely hc)
    (fun c c' hc hnew _ => hkeep c c' hc hnew) hp h.1 h.2
  · exact (hbc row hrow).elim (hab row) .inr
  · exact (exec_chunkRows hx row hrow).imp_right fun hins => hs _ hins

/-- A connection runs its phases on walked trees. -/
def nextWalked (cl : Connection) (ph : Phase) (p : Sql Unit) : Prop := nextPhase cl ph p ∧ ph.Walked

theorem composes_located : Pool.Composes engine (fun _ : Phase => locatedRules)
    (fun _ _ => EndsLocated) Db.Located anyOutcome nextWalked where
  guar_rely _ _ _ _ h := h
  guar_inv _ _ _ hc h := h hc
  stable _ _ c c' t hrel h := by
    refine ⟨Rules.relyOn_rely _ hrel h.1, fun w hw => ?_⟩
    subst hw
    cases hrel
    exact h.2 w rfl
  allowed _ _ _ _ _ _ := trivial
  started d cl ph p hd hjob hst := by
    obtain ⟨⟨hfollows, rfl⟩, hw⟩ := hst
    have hends : EndsLocated d cl.txn := by
      cases ph with
      | opening dim =>
        have hcl : cl = ⟨none, .idle⟩ := hfollows
        rw [hcl]
        exact ⟨hd, fun w hw => by cases hw⟩
      | migrating =>
        obtain ⟨dim, hprev⟩ := hfollows
        exact hjob _ _ hprev
      | running D e view force => exact hjob _ _ hfollows
    exact wp_located (only_phase hw) hends

/-- Whatever connections open, migrate and run on walked trees, of whatever roots and with
whatever embedders, in any interleaving and with any fault: the stored chunks are located. -/
theorem reachable_located {ι : Type} [DecidableEq ι] {db₀ : Db} (h₀ : db₀.Located)
    {s : Connections ι} (h : Pool.Reachable engine anyOutcome nextWalked (idlePool ι Phase db₀) s) :
    s.db.Located := by
  have hsafe : Pool.Safe engine (fun _ : Phase => locatedRules) (fun _ _ => EndsLocated) Db.Located
      (idlePool ι Phase db₀) :=
    ⟨h₀, fun _ _ h _ => h.elim, fun _ _ _ h => by cases h⟩
  exact (Pool.safe_reachable composes_located hsafe h).inv

end CodeSearch
