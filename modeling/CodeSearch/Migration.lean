import CodeSearch.Statements

/-!
# Opening and migrating a database

Opening and migrating move along `Grows` and `SameData`, whatever other
connections do along `Grows`; when `migrate` returns, the schema is complete, and
it returns unless a request fails (`returns_migrate`).

For one connection: whatever crashes came before, on whatever database, opening
and migrating loses nothing, ends in the current schema, and a second migration
changes nothing (`migration_crash_safe`).
-/

namespace CodeSearch

open Relational Store

/-! ## Opening and migrating -/

/-- The rules under which connections migrate: others only grow the schema, and
no other connection gets between a probe and the step it decides. -/
structure MigrationRules (U : Rules Stmt SqlError Db RowId) (B : Prop) : Prop where
  rely : ∀ c c', U.rely c c' → Grows c c'
  guar : ∀ c c', Grows c c' → SameData c c' → U.guar c c'
  benign : B → ∀ q o c t, U.allow q o c t → ∃ x, o = .run x
  kind : B → ∀ c c₁ x, U.rely c c₁ → ¬ c.HasKind →
    U.allow (.stmt .alterChunksAddKind) (.run x) c₁ .idle → ¬ c₁.HasKind
  files : ∀ c c₁ x, U.rely c c₁ → ¬ c.Composite →
    U.allow (.stmt .createFilesNew) (.run x) c₁ .begun → ¬ c₁.Composite

section
variable {U : Rules Stmt SqlError Db RowId} {B : Prop} {c : Db}

/-- A statement that moves along `Grows` and keeps the rows. -/
theorem returns_schema (H : MigrationRules U B) {text : String} {s : Stmt}
    {P : s.Resp → Db → Txn Db → Prop}
    (hok : ∀ c₁ x r c₂, Grows c c₁ → U.rely c c₁ → U.allow (.stmt s) (.run x) c₁ .idle →
      exec s x c₁ = .ok (r, c₂) → Grows c₁ c₂ ∧ SameData c₁ c₂ ∧ P r c₂ .idle)
    (hB : B → ∀ c₁, Grows c c₁ → U.rely c c₁ → ∀ x, U.allow (.stmt s) (.run x) c₁ .idle →
      ∃ r c₂, exec s x c₁ = .ok (r, c₂)) :
    Returns engine U B (execute text s) c .idle P := by
  refine returns_execute (fun c₁ x r c₂ hc ho hx => ?_) (fun hb c₁ hc o ho => ?_)
  · obtain ⟨hg, hd, hP⟩ := hok c₁ x r c₂ (H.rely _ _ hc) hc ho hx
    exact ⟨H.guar _ _ hg hd, hP⟩
  · obtain ⟨x, rfl⟩ := H.benign hb _ _ _ _ ho
    exact ⟨x, rfl, hB hb c₁ (H.rely _ _ hc) hc x ho⟩

/-- Opening creates the two base tables. -/
theorem returns_openDbWith (H : MigrationRules U B) (dim : Nat) :
    Returns engine U B (openDbWith dim) c .idle fun _ c' t => t = .idle ∧ Grows c c' ∧
      c'.HasChunks ∧ ∃ v, c'.chunksVec = some v := by
  unfold openDbWith
  rw [batch_stmt_cons, batch_stmt_cons]
  refine returns_bind (P := fun _ c' t => t = .idle ∧ Grows c c' ∧ c'.HasChunks) ?_
    fun _ c₁ t h => ?_
  · refine returns_schema H (fun c₁ x r c₂ hg _ _ hx => ?_) (fun _ c₁ _ _ x _ => ⟨_, _, rfl⟩)
    obtain ⟨hg₂, hd, hc⟩ := exec_createChunks hx
    exact ⟨hg₂, hd, rfl, hg.trans hg₂, hc⟩
  obtain ⟨rfl, hgrow, hchunks⟩ := h
  refine returns_bind (P := fun _ c' t => t = .idle ∧ Grows c₁ c' ∧ ∃ v, c'.chunksVec = some v) ?_
    fun _ c₂ t h => ?_
  · refine returns_schema H (fun c₁ x r c₂ hg _ _ hx => ?_) (fun _ c₁ _ _ x _ => ⟨_, _, rfl⟩)
    obtain ⟨hg₂, hd, hv⟩ := exec_createChunksVec hx
    exact ⟨hg₂, hd, rfl, hg.trans hg₂, _, hv⟩
  obtain ⟨rfl, hgrow₂, hvec⟩ := h
  exact returns_pure ⟨rfl, hgrow.trans hgrow₂, hgrow₂.chunks hchunks, hvec⟩

/-- Every index comes after the table it needs. -/
def ordered (done : List CreatedTable) : List CreatedTable → Bool
  | [] => true
  | t :: ts => t.needs.all (fun n => n ∈ done) && ordered (t :: done) ts

theorem returns_creates (H : MigrationRules U B) {err : String} (ts : List CreatedTable) :
    ∀ (done : List CreatedTable) (c : Db), ordered done ts = true → (∀ t ∈ done, c.has t = true) →
    Returns engine U B (Prog.batch (sqlContext err) (ts.map fun t => .stmt (.create t)) : Sql Unit)
      c .idle fun _ c' t => t = .idle ∧ Grows c c' ∧ ∀ t ∈ ts ++ done, c'.has t = true := by
  induction ts with
  | nil => exact fun done c _ hd => returns_pure ⟨rfl, .refl c, hd⟩
  | cons t ts ih =>
    intro done c ho hd
    unfold ordered at ho
    rw [Bool.and_eq_true] at ho
    rw [List.map_cons, batch_stmt_cons]
    refine returns_bind (P := fun _ c' t' => t' = .idle ∧ Grows c c' ∧ c'.has t = true) ?_
      fun _ c₁ t' h => ?_
    · refine returns_schema H (fun c₁ x r c₂ hg _ _ hx => ?_) (fun _ c₁ hg _ x _ => ?_)
      · obtain ⟨hg₂, hd₂, hhas⟩ := exec_create hx
        exact ⟨hg₂, hd₂, rfl, hg.trans hg₂, hhas⟩
      · obtain ⟨c₂, hx⟩ := exec_create_ok (c := c₁) t x fun n hn => by
          have := (Option.all_eq_true _ _).1 ho.1 n hn
          exact hg.has n (hd n (of_decide_eq_true this))
        exact ⟨_, c₂, hx⟩
    obtain ⟨rfl, hg, hhas⟩ := h
    refine returns_mono ?_ (ih (t :: done) c₁ ho.2 fun t' ht' => ?_)
    · rintro _ c₂ t' ⟨rfl, hg₂, hall⟩
      refine ⟨rfl, hg.trans hg₂, fun t' ht' => hall t' ?_⟩
      simp only [List.cons_append, List.mem_cons, List.mem_append] at ht' ⊢
      tauto
    · rcases List.mem_cons.1 ht' with rfl | ht'
      · exact hhas
      · exact hg.has t' (hd t' ht')

/-- The probe of the `kind` column: what it answered was so at `c'`. -/
theorem returns_hasKind (H : MigrationRules U B) :
    Returns engine U B (columnExists .chunks "kind".toList) c .idle fun b c' t => t = .idle ∧
      Grows c c' ∧ (b = true ↔ c'.HasKind) := by
  refine returns_bind (P := fun r c₁ t => t = .idle ∧ Grows c c₁ ∧
    r = (c₁.chunks.map Chunks.info).getD []) ?_ fun r c₁ t h => ?_
  · refine returns_schema H (fun c₁ x r c₂ hg _ _ hx => ?_) (fun _ c₁ _ _ x _ => ⟨_, _, rfl⟩)
    cases hx
    exact ⟨.refl c₁, .refl c₁, rfl, hg, rfl⟩
  · obtain ⟨rfl, hg, rfl⟩ := h
    refine returns_pure ⟨rfl, hg, ?_⟩
    unfold Db.HasKind
    cases hk : c₁.chunks with
    | none => simp
    | some k =>
      have hinfo : (k.info.any fun col => decide (col.1 = "kind".toList)) = k.hasKind := by
        unfold Chunks.info
        cases k.hasKind <;> decide
      show ((k.info.any fun col => decide (col.1 = "kind".toList)) = true) ↔ _
      rw [hinfo]
      simp

/-- The column is added to a table the probe saw without it. -/
theorem returns_addKind (H : MigrationRules U B) (hc : B → c.HasChunks) (hno : ¬ c.HasKind) :
    Returns engine U B (execute "add kind column to chunks" .alterChunksAddKind) c .idle
      fun _ c' t => t = .idle ∧ Grows c c' ∧ c'.HasKind := by
  refine returns_schema H (fun c₂ x r c₃ hg₂ _ _ hx => ?_) (fun hB c₂ hg₂ hr x ho => ?_)
  · obtain ⟨hg₃, hd, hk⟩ := exec_alterChunksAddKind hx
    exact ⟨hg₃, hd, rfl, hg₂.trans hg₃, hk⟩
  · have hno₂ := H.kind hB c c₂ x hr hno ho
    obtain ⟨k, hk⟩ := hg₂.chunks (hc hB)
    have hkf : k.hasKind = false := by
      cases hkk : k.hasKind with
      | false => rfl
      | true => exact absurd ⟨k, hk, hkk⟩ hno₂
    exact ⟨(), { c₂ with chunks := some { k with hasKind := true } }, by
      simp [exec, hk, hkf, need, bind, Except.bind, pure, Except.pure]⟩

/-- The downgrade gate passes on a stamp this version accepts. -/
theorem returns_readSchemaVersion (H : MigrationRules U B)
    (hc : B → c.has .metaTable = true ∧ c.Stamped) :
    Returns engine U B readSchemaVersion c .idle fun v c' t => t = .idle ∧ Grows c c' ∧
      (B → ∀ n, v = some n → n ≤ schemaVersion) := by
  refine returns_bind (P := fun v c' t => t = .idle ∧ Grows c c' ∧
    v = (c'.metaRows.find? fun r => r.key = metaSchemaVersion).map (·.value)) ?_ fun v c' t h => ?_
  · refine returns_schema H (fun c₁ x r c₂ hg _ _ hx => ?_) (fun hB c₁ hg _ x _ => ?_)
    · have hsame := read_selectMeta _ _ _ _ _ hx
      subst hsame
      cases hm : c₂.metaTable with
      | none => simp [exec, hm, need, bind, Except.bind] at hx
      | some m =>
        simp only [exec, hm, need, bind, Except.bind, pure, Except.pure, Except.ok.injEq] at hx
        have hr := (Prod.mk.inj hx).1
        exact ⟨.refl _, .refl _, rfl, hg, by rw [← hr]; simp [Db.metaRows, hm]⟩
    · obtain ⟨m, hm⟩ := Option.isSome_iff_exists.1 (hg.has .metaTable (hc hB).1)
      exact ⟨_, c₁, by simp only [exec, hm, need, bind, Except.bind, pure, Except.pure]; rfl⟩
  obtain ⟨rfl, hg, rfl⟩ := h
  have hst : B → c'.Stamped := fun hB => hg.stamped (hc hB).2
  split
  · next s hs =>
    split
    · next n hn =>
      refine returns_pure ⟨rfl, hg, fun hB m hm => ?_⟩
      cases hm
      obtain ⟨v, hv, hle⟩ := hst hB s hs
      rw [hn] at hv
      cases hv
      exact hle
    · next hn =>
      refine returns_throw fun hB => ?_
      obtain ⟨v, hv, -⟩ := hst hB s hs
      rw [hn] at hv
      cases hv
  · exact returns_pure ⟨rfl, hg, fun _ m hm => by cases hm⟩

/-- A probe of `files`: what it answered was so at `c'`. -/
theorem returns_filesInfo (H : MigrationRules U B) {text : String} :
    Returns engine U B (execute text (.tableInfo .files)) c .idle fun r c' t => t = .idle ∧
      U.rely c c' ∧ r = (c'.files.map FilesTable.info).getD [] := by
  refine returns_schema H (fun c₁ x r c₂ _ hr _ hx => ?_) (fun _ c₁ _ _ x _ => ⟨_, _, rfl⟩)
  cases hx
  exact ⟨.refl c₁, .refl c₁, rfl, hr, rfl⟩

/-- A test that only the current columns pass answers whether the table is current. -/
theorem returns_filesTest (H : MigrationRules U B) {text : String} {test : List (Text × Nat) → Bool}
    (hnone : test [] = false) (hlegacy : test (FilesTable.info (.legacy .empty)) = false)
    (hcurrent : test (FilesTable.info (.current .empty)) = true) :
    Returns engine U B (execute text (.tableInfo .files) >>= fun info => pure (test info)) c .idle
      fun b c' t => t = .idle ∧ U.rely c c' ∧ (b = true ↔ c'.Composite) := by
  refine returns_bind (returns_filesInfo H) fun r c' t h => ?_
  obtain ⟨rfl, hg, rfl⟩ := h
  refine returns_pure ⟨rfl, hg, ?_⟩
  unfold Db.Composite
  cases hf : c'.files with
  | none => exact ⟨fun h => absurd (hnone.symm.trans h) (by decide), fun ⟨t, ht⟩ => by cases ht⟩
  | some f =>
    cases f with
    | legacy l => exact ⟨fun h => absurd (hlegacy.symm.trans h) (by decide), fun ⟨t, ht⟩ => by cases ht⟩
    | current t => exact ⟨fun _ => ⟨t, rfl⟩, fun _ => hcurrent⟩

theorem returns_hasRepoId (H : MigrationRules U B) :
    Returns engine U B (columnExists .files "repo_id".toList) c .idle fun b c' t => t = .idle ∧
      U.rely c c' ∧ (b = true ↔ c'.Composite) :=
  returns_filesTest H rfl (by decide) (by decide)

theorem returns_filesPkIsComposite (H : MigrationRules U B) :
    Returns engine U B filesPkIsComposite c .idle fun b c' t => t = .idle ∧
      U.rely c c' ∧ (b = true ↔ c'.Composite) :=
  returns_filesTest H rfl (by decide) (by decide)

/-- A statement of the open transaction whose outcome is known. -/
theorem returns_open (H : MigrationRules U B) {err : SqlError → Error} (s : Stmt) (r : s.Resp)
    {w : Db} (w' : Db) (hx : ∀ x, exec s x w = .ok (r, w')) :
    Returns engine U B (Prog.execute err s) c (.active w) fun _ c' t => c' = c ∧ t = .active w' := by
  refine returns_execute_open (by simp) (fun c₁ x r₁ w₁ hc _ hx₁ => ?_) fun hb c₁ _ o ho => ?_
  · cases (hx x).symm.trans hx₁
    exact ⟨hc, rfl⟩
  · obtain ⟨x, rfl⟩ := H.benign hb _ _ _ _ ho
    exact ⟨x, rfl, r, w', hx x⟩

/-- The empty copy of a table that is legacy when the transaction starts to write. -/
theorem returns_createFilesNew (H : MigrationRules U B) {c₁ : Db} {err : SqlError → Error}
    (hc : U.rely c c₁)
    (hno : ∀ c₁ x, U.rely c c₁ → U.allow (.stmt .createFilesNew) (.run x) c₁ .begun → ¬ c₁.Composite)
    (hB : B → c.filesNew = none) :
    Returns engine U B (Prog.execute err .createFilesNew) c₁ .begun fun _ c' t => U.rely c c' ∧
      ¬ c'.Composite ∧ t = .active { c' with filesNew := some .empty } := by
  refine returns_execute_open (by simp) (fun c₂ x r w hc₂ ho hx => ?_) fun hb c₂ hc₂ o ho => ?_
  · have hr := U.rely_trans _ _ _ hc hc₂
    cases hn : c₂.filesNew with
    | some t => simp [engine, exec, Txn.view, hn] at hx
    | none =>
      have hx := (exec_createFilesNew (x := x) hn).symm.trans hx
      cases hx
      exact ⟨hr, hno c₂ x hr ho, rfl⟩
  · obtain ⟨x, rfl⟩ := H.benign hb _ _ _ _ ho
    have hr := H.rely _ _ (U.rely_trans _ _ _ hc hc₂)
    exact ⟨x, rfl, _, _, exec_createFilesNew (x := x) (hr.filesNew (hB hb))⟩

/-- The rows of a legacy table are copied. -/
theorem returns_copyFilesNew (H : MigrationRules U B) {err : SqlError → Error}
    (hno : ¬ c.Composite) (hB : B → c.has .files = true) :
    Returns engine U B (Prog.execute err (.copyFilesNew migrationPlaceholderRepoId)) c
      (.active { c with filesNew := some .empty }) fun _ c' t => c' = c ∧
        ∃ l n, c.files = some (.legacy l) ∧
          n.rows = l.rows.map (fun r => { r with repoId := migrationPlaceholderRepoId }) ∧
          t = .active { c with filesNew := some n } := by
  have legacy : ∀ f, c.files = some f → ∃ l, c.files = some (.legacy l) := by
    rintro (l | t) hf
    · exact ⟨l, hf⟩
    · exact absurd ⟨t, hf⟩ hno
  refine returns_execute_open (by simp) (fun c₁ x r w hc _ hx => ?_) fun hb c₁ _ o ho => ?_
  · rcases Option.eq_none_or_eq_some c.files with hf | ⟨f, hf⟩
    · simp [engine, exec, Txn.view, hf, need, bind, Except.bind] at hx
    · obtain ⟨l, hl⟩ := legacy f hf
      obtain ⟨n, hn, hcopy⟩ := exec_copyFilesNew (x := x) hl migrationPlaceholderRepoId
      have hx := hcopy.symm.trans hx
      cases hx
      exact ⟨hc, l, n, hl, hn, rfl⟩
  · obtain ⟨x, rfl⟩ := H.benign hb _ _ _ _ ho
    obtain ⟨f, hf⟩ := Option.isSome_iff_exists.1 (hB hb)
    obtain ⟨l, hl⟩ := legacy f hf
    obtain ⟨n, -, hcopy⟩ := exec_copyFilesNew (x := x) hl migrationPlaceholderRepoId
    exact ⟨x, rfl, _, _, hcopy⟩

/-- The recreation of `files`, up to its commit: the working copy is the current
form of a legacy table. -/
theorem returns_recreate (H : MigrationRules U B)
    (hno : ∀ c₁ x, U.rely c c₁ → U.allow (.stmt .createFilesNew) (.run x) c₁ .begun → ¬ c₁.Composite)
    (hB : B → c.filesNew = none ∧ c.has .files = true) {err : SqlError → Error} :
    Returns engine U B (Prog.batch err [.begin, .stmt .createFilesNew,
      .stmt (.copyFilesNew migrationPlaceholderRepoId), .stmt .dropFiles,
      .stmt .renameFilesNew] : Sql Unit) c .idle fun _ c' t => U.rely c c' ∧
      ∃ w, t = .active w ∧ Grows c' w ∧ SameData c' w ∧ w.Composite := by
  refine returns_batch_begin (fun c₁ hc₁ => ?_) fun hb _ o ho => H.benign hb _ _ _ _ ho
  rw [batch_stmt_cons, batch_stmt_cons, batch_stmt_cons, batch_stmt_cons]
  refine returns_bind (returns_createFilesNew H hc₁ hno fun hb => (hB hb).1) fun _ c₂ t h => ?_
  obtain ⟨hr, hlegacy, rfl⟩ := h
  refine returns_bind (returns_copyFilesNew H hlegacy fun hb => (H.rely _ _ hr).has _ (hB hb).2)
    fun _ c₃ t h => ?_
  obtain ⟨rfl, l, n, hl, hn, rfl⟩ := h
  -- the table changes its name
  refine returns_bind (returns_open H .dropFiles () { c₃ with files := none, filesNew := some n }
    fun x => ?_) fun _ c₄ t h => ?_
  · simp [exec, hl, need, bind, Except.bind, pure, Except.pure]
  obtain ⟨rfl, rfl⟩ := h
  refine returns_bind (returns_open H .renameFilesNew ()
    { c₄ with files := some (.current n), filesNew := none } fun _ => rfl) fun _ c₅ t h => ?_
  obtain ⟨rfl, rfl⟩ := h
  obtain ⟨hg, hd, hcomp⟩ := recreated hl hn
  exact returns_pure ⟨hr, _, rfl, hg, hd, hcomp⟩

/-- The stamp in the open transaction of the recreation. -/
theorem returns_stamp_open {w : Db} (hb : B → ∀ q o c t, U.allow q o c t → ∃ x, o = .run x)
    (hB : B → w.has .metaTable = true) :
    Returns engine U B (writeSchemaVersion schemaVersion) c (.active w) fun _ c' t => c' = c ∧
      ∃ w', t = .active w' ∧ Grows w w' ∧ SameData w w' ∧ w'.IsStamped := by
  refine returns_execute_open (by simp) (fun c₁ x r w' hc _ hx => ?_) fun hB' c₁ hc o ho => ?_
  · exact ⟨hc, w', rfl, exec_stamp (x := x) hx⟩
  · obtain ⟨x, rfl⟩ := hb hB' _ _ _ _ ho
    obtain ⟨m, hm⟩ := Option.isSome_iff_exists.1 (hB hB')
    exact ⟨x, rfl, (), _, by
      simp only [engine, exec, Txn.view, hm, need, bind, Except.bind, pure, Except.pure]; rfl⟩

/-- The stamp on its own. -/
theorem returns_stamp (H : MigrationRules U B) (hB : B → c.has .metaTable = true) :
    Returns engine U B (writeSchemaVersion schemaVersion) c .idle fun _ c' t => t = .idle ∧
      Grows c c' ∧ c'.IsStamped := by
  refine returns_schema H (fun c₁ x r c₂ hg _ _ hx => ?_) (fun hB' c₁ hg _ x _ => ?_)
  · obtain ⟨hg₂, hd, hs⟩ := exec_stamp hx
    exact ⟨hg₂, hd, rfl, hg.trans hg₂, hs⟩
  · obtain ⟨m, hm⟩ := Option.isSome_iff_exists.1 (hg.has .metaTable (hB hB'))
    exact ⟨(), _, by simp only [exec, hm, need, bind, Except.bind, pure, Except.pure]; rfl⟩

theorem returns_migrateFilesSchema (H : MigrationRules U B)
    (hB : B → c.filesNew = none ∧ c.has .files = true ∧ c.has .metaTable = true ∧ c.Stamped) :
    Returns engine U B migrateFilesSchema c .idle fun _ c' t => t = .idle ∧ Grows c c' ∧
      c'.Composite ∧ c'.IsStamped := by
  unfold migrateFilesSchema
  refine returns_bind (returns_readSchemaVersion H fun hb => (hB hb).2.2) fun v c₁ t h => ?_
  obtain ⟨rfl, hg, hgate⟩ := h
  extract_lets rest
  have hrest : Returns engine U B (rest ()) c₁ .idle fun _ c' t => t = .idle ∧ Grows c c' ∧
      c'.Composite ∧ c'.IsStamped := by
    refine returns_bind (returns_hasRepoId H) fun hasRepoId c₂ t h => ?_
    obtain ⟨rfl, hr₂, hcol⟩ := h
    refine returns_bind (returns_filesPkIsComposite H) fun compositePk c₃ t h => ?_
    obtain ⟨rfl, hr₃, hpk⟩ := h
    have hg' := hg.trans ((H.rely _ _ hr₂).trans (H.rely _ _ hr₃))
    split
    · next hdone =>
      rw [Bool.and_eq_true] at hdone
      refine returns_mono ?_ (returns_stamp H fun hb => hg'.has _ (hB hb).2.2.1)
      rintro _ c' t ⟨rfl, hgs, hs⟩
      exact ⟨rfl, hg'.trans hgs, hgs.composite (hpk.1 hdone.2), hs⟩
    · next hdone =>
      -- one of the probes saw the legacy shape
      have hno : ∀ c x, U.rely c₃ c → U.allow (.stmt .createFilesNew) (.run x) c .begun →
          ¬ c.Composite := by
        intro c x hr ho
        rw [Bool.and_eq_true, not_and_or] at hdone
        rcases hdone with hdone | hdone
        · exact H.files c₂ c x (U.rely_trans _ _ _ hr₃ hr) (fun hc => hdone (hcol.2 hc)) ho
        · exact H.files c₃ c x hr (fun hc => hdone (hpk.2 hc)) ho
      refine returns_bind (returns_recreate H hno fun hb =>
        ⟨hg'.filesNew (hB hb).1, hg'.has _ (hB hb).2.1⟩) fun _ c₄ t h => ?_
      obtain ⟨hr, w, rfl, hgw, hdw, hcw⟩ := h
      have hg₄ := hg'.trans (H.rely _ _ hr)
      refine returns_attempt_rollback (p := writeSchemaVersion schemaVersion)
        (f := fun _ => Prog.batch (sqlContext "commit files schema recreation") [.commit]) ?_
        (returns_stamp_open H.benign fun hb => hgw.has _ (hg₄.has _ (hB hb).2.2.1)) ?_
      · congr 1
        funext r
        cases r <;> rfl
      · rintro _ c' t ⟨rfl, w', rfl, hgw', hdw', hs⟩
        exact returns_batch_commit (H.guar _ _ (hgw.trans hgw') (hdw.trans hdw'))
          ⟨rfl, hg₄.trans (hgw.trans hgw'), hgw'.composite hcw, hs⟩
          fun hb o ho => H.benign hb _ _ _ _ ho
  cases v with
  | none => exact hrest
  | some stored =>
    show Returns engine U B (if schemaVersion < stored then _ else _) _ _ _
    split
    · next hlt => exact returns_throw fun hb => by have := hgate hb stored rfl; omega
    · exact hrest

/-- Migration grows the schema and keeps the rows; when it returns the schema is
complete, and in the benign case it returns. -/
theorem returns_migrate (H : MigrationRules U B)
    (hB : B → c.HasChunks ∧ c.filesNew = none ∧ c.Stamped) :
    Returns engine U B migrate c .idle fun _ c' t => t = .idle ∧ Grows c c' ∧
      c'.HasKind ∧ (∀ t, c'.has t = true) ∧ c'.Composite ∧ c'.IsStamped := by
  unfold migrate
  rw [batch_stmt_cons, batch_stmt_cons]
  have pragma : ∀ c₁ : Db, Returns engine U B
      (Prog.execute (sqlContext "set pragmas (WAL + busy_timeout)") Stmt.pragma : Sql Unit) c₁ .idle
      fun _ c' t => t = .idle ∧ Grows c₁ c' := fun c₁ =>
    returns_schema H (fun c₂ x r c₃ hg _ _ hx => by cases hx; exact ⟨.refl _, .refl _, rfl, hg⟩)
      (fun _ c₂ _ _ x _ => ⟨_, _, rfl⟩)
  refine returns_bind (returns_bind (pragma c) fun _ c₁ t h => ?_) (P := fun _ c' t => t = .idle ∧
    Grows c c') fun _ c₁ t h => ?_
  · obtain ⟨rfl, hg⟩ := h
    refine returns_bind (pragma c₁) fun _ c₂ t h => ?_
    obtain ⟨rfl, hg₂⟩ := h
    exact returns_pure ⟨rfl, hg.trans hg₂⟩
  obtain ⟨rfl, hg₁⟩ := h
  refine returns_bind (returns_hasKind H) fun hasKind c₂ t h => ?_
  obtain ⟨rfl, hg₂, hprobe⟩ := h
  extract_lets rest
  have hrest : ∀ c₃, Grows c₂ c₃ → c₃.HasKind → Returns engine U B (rest ()) c₃ .idle fun _ c' t =>
      t = .idle ∧ Grows c c' ∧ c'.HasKind ∧ (∀ t, c'.has t = true) ∧ c'.Composite ∧
      c'.IsStamped := by
    intro c₃ hg₃ hk
    have hg := hg₁.trans (hg₂.trans hg₃)
    refine returns_bind (returns_creates H structuralTables [] c₃ (by decide) (by simp))
      fun _ c₄ t h => ?_
    obtain ⟨rfl, hg₄, hall⟩ := h
    have hall : ∀ t, c₄.has t = true := fun t => hall t (by cases t <;> decide)
    have hg' := hg.trans hg₄
    refine returns_mono ?_ (returns_mapError (returns_migrateFilesSchema H fun hb =>
      ⟨hg'.filesNew (hB hb).2.1, hall _, hall _, hg'.stamped (hB hb).2.2⟩))
    rintro _ c' t ⟨rfl, hgf, hc, hs⟩
    exact ⟨rfl, hg'.trans hgf, hgf.kind (hg₄.kind hk), fun t => hgf.has t (hall t), hc, hs⟩
  cases hasKind with
  | true => exact hrest c₂ (.refl _) (hprobe.1 rfl)
  | false =>
    refine returns_bind (returns_addKind H (fun hb => hg₂.chunks (hg₁.chunks (hB hb).1))
      fun hk => by cases hprobe.2 hk) fun _ c₃ t h => ?_
    obtain ⟨rfl, hg₃, hk⟩ := h
    exact hrest c₃ hg₃ hk

end

/-- Opening a database, then migrating it. -/
def openAndMigrate (dim : Nat) : Sql Unit := do
  openDbWith dim
  migrate

theorem returns_openAndMigrate {U : Rules Stmt SqlError Db RowId} {B : Prop} {c : Db}
    (H : MigrationRules U B) (hB : B → c.filesNew = none ∧ c.Stamped) (dim : Nat) :
    Returns engine U B (openAndMigrate dim) c .idle fun _ c' t => t = .idle ∧ Grows c c' ∧
      (∃ v, c'.chunksVec = some v) ∧ c'.HasKind ∧ (∀ t, c'.has t = true) ∧ c'.Composite ∧
      c'.IsStamped := by
  refine returns_bind (returns_openDbWith H dim) fun _ c₁ t h => ?_
  obtain ⟨rfl, hg, hchunks, v, hv⟩ := h
  refine returns_mono ?_ (returns_migrate H fun hb =>
    ⟨hchunks, hg.filesNew (hB hb).1, hg.stamped (hB hb).2⟩)
  rintro _ c' t ⟨rfl, hg', hk, hhas, hc, hs⟩
  obtain ⟨v', hv', -⟩ := hg'.vec v hv
  exact ⟨rfl, hg.trans hg', ⟨v', hv'⟩, hk, hhas, hc, hs⟩

/-! ## One connection -/

/-- A connection that migrates alone. -/
def migratingAlone (allow : Req Stmt → Outcome RowId SqlError → Db → Txn Db → Prop) :
    Rules Stmt SqlError Db RowId where
  rely c c' := c' = c
  guar c c' := Grows c c' ∧ SameData c c'
  allow := allow
  rely_refl _ := rfl
  rely_trans _ _ _ h h' := h'.trans h
  guar_refl c := ⟨.refl c, .refl c⟩

theorem migrationRules_alone
    (allow : Req Stmt → Outcome RowId SqlError → Db → Txn Db → Prop) :
    MigrationRules (migratingAlone allow) (∀ q o c t, allow q o c t → ∃ x, o = .run x) where
  rely _ _ h := h ▸ .refl _
  guar _ _ hg hd := ⟨hg, hd⟩
  benign h := h
  kind _ _ _ _ h hno _ := h ▸ hno
  files _ _ _ h hno _ := h ▸ hno

/-- What repeated kills of opening and migrating leave of a database. -/
inductive Leftover (db₀ : Db) : Db → Prop
  | start : Leftover db₀ db₀
  | killed {db db' : Db} (dim : Nat) : Leftover db₀ db →
      Crash engine anyOutcome (openAndMigrate dim) db db' → Leftover db₀ db'

/-- Whatever stops a schema program, what it committed grows the database. -/
theorem crash_schema {allow : Req Stmt → Outcome RowId SqlError → Db → Txn Db → Prop} {B : Prop}
    {α : Type} {p : Sql α} {P : α → Db → Txn Db → Prop} {db db' : Db}
    (h : Returns engine (migratingAlone allow) B p db .idle P) (hc : Crash engine allow p db db') :
    Grows db db' ∧ SameData db db' := by
  have hg := wp_crash (U := migratingAlone allow) h hc
  clear h hc
  induction hg with
  | refl => exact ⟨.refl db, .refl db⟩
  | tail _ hstep ih => exact ⟨ih.1.trans hstep.1, ih.2.trans hstep.2⟩

/-- Killed anywhere, opening and migrating has lost nothing. -/
theorem crash_openAndMigrate {allow : Req Stmt → Outcome RowId SqlError → Db → Txn Db → Prop}
    {dim : Nat} {db db' : Db} (h : Crash engine allow (openAndMigrate dim) db db') :
    Grows db db' ∧ SameData db db' :=
  crash_schema (returns_openAndMigrate
    { migrationRules_alone allow with benign := False.elim, kind := False.elim } False.elim dim) h

/-- Alone, with every request running, opening and migrating returns. -/
theorem finishes_openAndMigrate {db : Db} (hnew : db.filesNew = none) (hst : db.Stamped)
    (dim : Nat) : ∃ db', Finishes engine noFault (openAndMigrate dim) db (.ok ()) db' := by
  have hret := returns_openAndMigrate (migrationRules_alone noFault) (fun _ => ⟨hnew, hst⟩) dim
  have hrun₀ : ∀ (q : Req Stmt) (c : Db) (t : Txn Db),
      noFault q (.run 0 : Outcome RowId SqlError) c t := fun _ _ _ => ⟨0, rfl⟩
  obtain ⟨p', db', t', r, hrun, hr⟩ :=
    run_total (E := engine) (fun _ _ _ => .run 0) hrun₀ (openAndMigrate dim) db .idle
  have hfin : Finishes engine noFault (openAndMigrate dim) db r db' := ⟨p', t', hrun, hr⟩
  obtain ⟨a, rfl⟩ := (returns_finishes hret hfin).2 fun _ _ _ _ ho => ho
  exact ⟨db', hfin⟩

/-- When they return, the database has the current schema. -/
theorem index_openAndMigrate {allow : Req Stmt → Outcome RowId SqlError → Db → Txn Db → Prop}
    {dim : Nat} {db db' : Db} (hnew : db.filesNew = none)
    (hf : Finishes engine allow (openAndMigrate dim) db (.ok ()) db') :
    ∃ ix : Index, db' = ix.toDb ∧ db'.IsStamped := by
  have hret : Returns engine (migratingAlone allow) False (openAndMigrate dim) db .idle _ :=
    returns_openAndMigrate
      { migrationRules_alone allow with benign := False.elim, kind := False.elim } False.elim dim
  obtain ⟨t', -, hg, ⟨v, hv⟩, hk, hhas, hcomp, hs⟩ := (returns_finishes hret hf).1 _ rfl
  have hmig : db'.Migrated := ⟨hk, hhas, hcomp, hg.filesNew hnew⟩
  obtain ⟨ix, rfl⟩ := hmig.index hv
  exact ⟨ix, rfl, hs⟩

theorem Leftover.data {db₀ db : Db} (h : Leftover db₀ db) : Grows db₀ db ∧ SameData db₀ db := by
  induction h with
  | start => exact ⟨.refl _, .refl _⟩
  | killed dim _ hc ih =>
    obtain ⟨hg, hd⟩ := crash_openAndMigrate hc
    exact ⟨ih.1.trans hg, ih.2.trans hd⟩

/-! ## A migrated database stays as it is -/

section
variable {allow : Req Stmt → Outcome RowId SqlError → Db → Txn Db → Prop} {I : Db → Prop}
  {ix : Index}

/-- A statement that changes nothing. -/
theorem guards_still {c : Db} {text : String} {s : Stmt}
    (h : ∀ x r c', exec s x c = .ok (r, c') → c' = c) :
    Guards engine allow I (execute text s) c fun r c' => c' = c ∧ ∃ x, exec s x c = .ok (r, c) := by
  refine guards_execute fun x r c' _ hx => ?_
  have := h x r c' hx
  subst this
  exact ⟨.inl rfl, rfl, x, hx⟩

theorem guards_still_batch {c : Db} {text : String} (ss : List Stmt)
    (h : ∀ s ∈ ss, ∀ x r c', exec s x c = .ok (r, c') → c' = c) :
    Guards engine allow I (Prog.batch (sqlContext text) (ss.map .stmt) : Sql Unit) c
      fun _ c' => c' = c := by
  induction ss with
  | nil => exact guards_pure rfl
  | cons s ss ih =>
    rw [List.map_cons, batch_stmt_cons]
    refine guards_bind (guards_still (h s List.mem_cons_self)) fun _ c' hc => ?_
    rw [hc.1]
    exact ih fun s' hs' => h s' (List.mem_cons_of_mem _ hs')

/-- The statements of opening and migrating that find everything in place. -/
theorem exec_still {s : Stmt} {x : RowId} {r : s.Resp} {c' : Db}
    (hs : s = .pragma ∨ s = .createChunks ∨ (∃ dim, s = .createChunksVec dim) ∨
      ∃ t, s = .create t) (h : exec s x ix.toDb = .ok (r, c')) : c' = ix.toDb := by
  rcases hs with rfl | rfl | ⟨dim, rfl⟩ | ⟨t, rfl⟩
  · cases h; rfl
  · cases h; rfl
  · cases h; rfl
  · cases t <;> (cases h; rfl)

/-- A second migration finds the column, the key and the stamp. -/
theorem guards_migrateFilesSchema_index (hs : ix.toDb.IsStamped) :
    Guards engine allow I migrateFilesSchema ix.toDb fun _ c' => c' = ix.toDb := by
  unfold migrateFilesSchema
  refine guards_bind (P := fun _ c' => c' = ix.toDb) ?_ fun stored c' hc => ?_
  · refine guards_bind (guards_still (read_selectMeta metaSchemaVersion · ix.toDb))
      fun v c' hc => ?_
    rw [hc.1]
    split
    · split
      · exact guards_pure rfl
      · exact guards_throw
    · exact guards_pure rfl
  subst hc
  extract_lets rest
  have hrest : Guards engine allow I (rest ()) ix.toDb fun _ c' => c' = ix.toDb := by
    have probe : ∀ x r c', exec (.tableInfo .files) x ix.toDb = .ok (r, c') → c' = ix.toDb := by
      intro x r c' hx
      cases hx
      rfl
    refine guards_bind (P := fun b c' => c' = ix.toDb ∧ b = true) ?_ fun hasRepoId c' hc => ?_
    · refine guards_bind (guards_still probe) fun r c' hc => ?_
      obtain ⟨rfl, x, hx⟩ := hc
      cases hx
      exact guards_pure ⟨rfl, rfl⟩
    obtain ⟨rfl, rfl⟩ := hc
    refine guards_bind (P := fun b c' => c' = ix.toDb ∧ b = true) ?_ fun compositePk c' hc => ?_
    · refine guards_bind (guards_still probe) fun r c' hc => ?_
      obtain ⟨rfl, x, hx⟩ := hc
      cases hx
      exact guards_pure ⟨rfl, rfl⟩
    obtain ⟨rfl, rfl⟩ := hc
    refine guards_mono (fun _ _ hc => hc.1) (guards_still fun x r c' hx => ?_)
    cases hx
    obtain ⟨row, hfind, hvalue⟩ := Option.map_eq_some_iff.1 hs
    have hmem : row ∈ ix.metaRows.rows := List.mem_of_find?_eq_some hfind
    have hkey : row.key = metaSchemaVersion := by simpa using List.find?_some hfind
    have hrow : (⟨metaSchemaVersion, decimal schemaVersion⟩ : MetaRow) = row := by
      rw [← hkey, ← hvalue]
    show ({ ix with metaRows := ix.metaRows.replace _ } : Index).toDb = ix.toDb
    rw [Table.replace_self _ _ (hrow ▸ hmem)]
  cases stored with
  | none => exact hrest
  | some v =>
    show Guards engine allow I (if schemaVersion < v then _ else _) _ _
    split
    · exact guards_throw
    · exact hrest

/-- Opening and migrating a migrated database changes nothing. -/
theorem guards_openAndMigrate_index (hs : ix.toDb.IsStamped) (dim : Nat) :
    Guards engine allow I (openAndMigrate dim) ix.toDb fun _ c' => c' = ix.toDb := by
  refine guards_bind (guards_still_batch [.createChunks, .createChunksVec dim] fun s hs x r c' hx =>
    exec_still (by simp at hs; tauto) hx) fun _ c' hc => ?_
  subst hc
  refine guards_bind (guards_still_batch [.pragma, .pragma] fun s hs x r c' hx =>
    exec_still (by simp at hs; tauto) hx) fun _ c' hc => ?_
  subst hc
  refine guards_bind (P := fun _ c' => c' = ix.toDb) ?_ fun hasKind c' hc => ?_
  · refine guards_bind (guards_still fun x r c' hx => by cases hx; rfl) fun r c' hc => ?_
    rw [hc.1]
    exact guards_pure rfl
  subst hc
  extract_lets rest
  have hrest : Guards engine allow I (rest ()) ix.toDb fun _ c' => c' = ix.toDb := by
    refine guards_bind (guards_still_batch (structuralTables.map .create) fun s hs x r c' hx =>
      exec_still (by simp at hs; tauto) hx) fun _ c' hc => ?_
    subst hc
    exact guards_mapError (guards_migrateFilesSchema_index hs)
  cases hasKind with
  | true => exact hrest
  | false =>
    -- the column is there: adding it again is refused
    refine guards_bind (P := fun _ c' => c' = ix.toDb) (guards_execute fun x r c' _ hx => ?_)
      fun _ c' hc => ?_
    · cases hx
    · subst hc
      exact hrest

end

/-! ## The first run after a migration -/

/-- No path has a placeholder row and a row of `repoId`. -/
def NoConflict (repoId : Text) (rows : List FileRow) : Prop :=
  ∀ r ∈ rows, ∀ s ∈ rows, r.repoId = migrationPlaceholderRepoId → s.repoId = repoId →
    r.path ≠ s.path

/-- A row after the rewrite. -/
def rewrittenRow (repoId : Text) (r : FileRow) : FileRow :=
  if r.repoId = migrationPlaceholderRepoId then { r with repoId := repoId } else r

theorem rewrittenRow_clash {repoId : Text} {r s : FileRow} : (rewrittenRow repoId r).clash (rewrittenRow repoId s) ↔ r.path = s.path ∧
      (r.repoId = s.repoId ∨ r.repoId = migrationPlaceholderRepoId ∧ s.repoId = repoId ∨
        s.repoId = migrationPlaceholderRepoId ∧ r.repoId = repoId) := by
  unfold rewrittenRow FileRow.clash
  by_cases hr : r.repoId = migrationPlaceholderRepoId
  · by_cases hs : s.repoId = migrationPlaceholderRepoId
    · simp [hr, hs]
    · rw [if_pos hr, if_neg hs, hr]
      constructor
      · exact fun h => ⟨h.2, .inr (.inl ⟨rfl, h.1.symm⟩)⟩
      · rintro ⟨hp, h | ⟨-, h⟩ | ⟨h, -⟩⟩
        · exact absurd h.symm hs
        · exact ⟨h.symm, hp⟩
        · exact absurd h hs
  · by_cases hs : s.repoId = migrationPlaceholderRepoId
    · rw [if_neg hr, if_pos hs, hs]
      constructor
      · exact fun h => ⟨h.2, .inr (.inr ⟨rfl, h.1⟩)⟩
      · rintro ⟨hp, h | ⟨h, -⟩ | ⟨-, h⟩⟩
        · exact absurd h hr
        · exact absurd h hr
        · exact ⟨h, hp⟩
    · rw [if_neg hr, if_neg hs]
      constructor
      · exact fun h => ⟨h.2, .inl h.1⟩
      · rintro ⟨hp, h | ⟨h, -⟩ | ⟨h, -⟩⟩
        · exact ⟨h, hp⟩
        · exact absurd h hr
        · exact absurd h hs

/-- The rewrite is refused exactly for such a path. -/
theorem rewrite_isSome {repoId : Text} (hR : repoId ≠ migrationPlaceholderRepoId) (t : FileTable) :
    (t.update? (fun r => r.repoId = migrationPlaceholderRepoId) fun r =>
      { r with repoId := repoId }).isSome ↔ NoConflict repoId t.rows := by
  have hrows : (t.rows.map fun r => if decide (r.repoId = migrationPlaceholderRepoId) = true then
      { r with repoId := repoId } else r) = t.rows.map (rewrittenRow repoId) := by
    refine List.map_congr_left fun r _ => ?_
    simp [rewrittenRow]
  unfold Table.update?
  rw [hrows, Table.ofRows?_isSome, List.pairwise_map]
  constructor
  · intro h r hr s hs hrp hsR hpath
    have hne : r ≠ s := by
      intro he
      rw [he] at hrp
      exact hR (hsR.symm.trans hrp)
    have : Std.Symm fun a b => ¬ (rewrittenRow repoId a).clash (rewrittenRow repoId b) :=
      ⟨fun a b hn hc => hn (FileRow.clash_symm _ _ hc)⟩
    exact h.forall hr hs hne (rewrittenRow_clash.2 ⟨hpath, .inr (.inl ⟨hrp, hsR⟩)⟩)
  · intro h
    refine t.distinct.imp_of_mem fun {r s} hr hs hn hc => ?_
    obtain ⟨hp, hsame | ⟨hrp, hsR⟩ | ⟨hsp, hrR⟩⟩ := rewrittenRow_clash.1 hc
    · exact hn ⟨hsame, hp⟩
    · exact h r hr s hs hrp hsR hp
    · exact h s hs r hr hsp hrR hp.symm

/-- The rewrite on an index, every request running. -/
theorem rewrite_finishes_iff {repoId : Text} (hR : repoId ≠ migrationPlaceholderRepoId)
    (ix : Index) :
    (∃ ix' : Index, Finishes engine noFault (rewritePlaceholderRepoId repoId) ix.toDb (.ok ())
      ix'.toDb ∧ Rewritten repoId ix ix') ↔ NoConflict repoId ix.files.rows := by
  rw [← rewrite_isSome hR]
  constructor
  · rintro ⟨ix', -, hr⟩
    exact Option.isSome_iff_exists.2 ⟨ix'.files, (Table.update?_eq_some _ _ _ _).2 (by
      rw [hr.files]; simp)⟩
  · intro h
    obtain ⟨t, ht⟩ := Option.isSome_iff_exists.1 h
    have hs : Succeeds (rewritePlaceholderRepoId repoId) ix fun _ ix' =>
        ix' = { ix with files := t } :=
      succeeds_execute fun x => ⟨(), _, checked_bind_eq_ok.2 ⟨t, ht, rfl⟩, rfl⟩
    obtain ⟨_, ix', hf, rfl⟩ := succeeds_finishes hs
    have hrows := (Table.update?_eq_some _ _ _ _).1 ht
    exact ⟨_, hf, by simpa using hrows, rfl⟩

/-- No row has the placeholder. -/
def NoPlaceholder (c : Db) : Prop := ∀ r ∈ c.fileEntries, r.repoId ≠ migrationPlaceholderRepoId

/-- Every state a run commits, after the one it starts from, is free of the
placeholder. -/
theorem crash_reindexWith_placeholder {D : Deps} {e : Embedder} {view : RepoView} {force : Bool}
    {db db' : Db} (h : Crash engine anyOutcome (reindexWith D view force e) db db') :
    db' = db ∨ NoPlaceholder db' := by
  have hR := repoIdFor_ne_placeholder D view.canonicalRoot
  refine crash_of_wp (Q := fun r c _ => ∀ a, r = .ok a → NoPlaceholder c)
    ((wp_bind _ _ _ _ _).2 ?_) h
  have hfirst : Guards engine anyOutcome NoPlaceholder
      (rewritePlaceholderRepoId (repoIdFor D view.canonicalRoot)) db
      fun _ c => NoPlaceholder c := by
    refine guards_execute fun x r c' _ hx => ?_
    obtain ⟨_, -, hx⟩ := needFiles_bind_eq_ok.1 hx
    obtain ⟨t, ht, hx⟩ := checked_bind_eq_ok.1 hx
    cases hx
    suffices hn : NoPlaceholder { db with files := some (.current t) } from ⟨.inr hn, hn⟩
    intro r hr
    have hr : r ∈ t.rows := hr
    rw [(Table.update?_eq_some _ _ _ _).1 ht, List.mem_map] at hr
    obtain ⟨a, -, rfl⟩ := hr
    by_cases ha : a.repoId = migrationPlaceholderRepoId
    · simp [ha, hR]
    · simp [ha]
  refine wp_mono (fun r c t hq => ?_) hfirst
  rcases r with y | a
  · exact fun a ha => by cases ha
  obtain ⟨rfl, hc⟩ := hq a rfl
  -- no later statement adds a placeholder row
  refine wp_mono (fun _ _ _ hk _ _ => hk) (wp_only (U := crashRules anyOutcome NoPlaceholder) (K := NoPlaceholder)
    (G := fun a b => NoPlaceholder a → NoPlaceholder b) (fun _ h => h)
    (fun _ _ _ h h' ha => h' (h ha)) (fun s x a r b hs hx ha r hr hp => ?_)
    (fun _ _ ha h => h ha) (fun _ _ hb ha => ?_) (fun _ _ ha h => .inr (h ha))
    (only_afterRewrite (runAllows_runStmt D _ e) (fun _ _ => trivial) force) hc (fun w hw => by cases hw))
  · exact ha r ((exec_runStmt hR hs hx).2 r hr hp) hp
  · cases hb
    exact ha

/-- A database whose rows all come from a legacy table has no conflict. -/
theorem noConflict_legacy {db : Db} {repoId : Text} (hR : repoId ≠ migrationPlaceholderRepoId)
    (h : ¬ db.Composite) : NoConflict repoId db.fileEntries := by
  intro r hr s hs hrp hsR
  unfold Db.fileEntries at hs
  rcases hf : db.files with _ | (l | t)
  · rw [hf] at hs
    cases hs
  · rw [hf] at hs
    obtain ⟨a, -, rfl⟩ := List.mem_map.1 hs
    exact absurd hsR.symm hR
  · exact absurd ⟨t, hf⟩ h

/-! ## Whole histories -/

/-- Whatever the database, however often opening and migrating it was killed:
they return unless a request fails, and when they return, the schema is the
current one, every row is where it was, migrating again changes nothing, and the
run that follows leaves no placeholder; its rewrite is refused exactly when a path
has both a placeholder row and one of the repository, which no legacy table has. -/
theorem migration_crash_safe (db₀ db : Db) (hnew : db₀.filesNew = none) (h : Leftover db₀ db)
    (dim : Nat) :
    (db₀.Stamped → ∃ db', Finishes engine noFault (openAndMigrate dim) db (.ok ()) db') ∧
    ∀ (allow : Req Stmt → Outcome RowId SqlError → Db → Txn Db → Prop) (db' : Db),
      Finishes engine allow (openAndMigrate dim) db (.ok ()) db' →
      ∃ ix : Index, db' = ix.toDb ∧ db'.IsStamped ∧ SameData db₀ db' ∧
        (∀ dim' db'', Crash engine anyOutcome (openAndMigrate dim') db' db'' → db'' = db') ∧
        ∀ (D : Deps) (e : Embedder) (view : RepoView) (force : Bool),
          (∀ db'', Crash engine anyOutcome (reindexWith D view force e) db' db'' →
            db'' = db' ∨ NoPlaceholder db'') ∧
          ((∃ ix' : Index, Finishes engine noFault
              (rewritePlaceholderRepoId (repoIdFor D view.canonicalRoot)) db' (.ok ()) ix'.toDb ∧
              Rewritten (repoIdFor D view.canonicalRoot) ix ix') ↔
            NoConflict (repoIdFor D view.canonicalRoot) db₀.fileEntries) ∧
          (¬ db₀.Composite → NoConflict (repoIdFor D view.canonicalRoot) db₀.fileEntries) := by
  obtain ⟨hg, hd⟩ := h.data
  refine ⟨fun hst => ?_, fun allow db' hf => ?_⟩
  · exact finishes_openAndMigrate (hg.filesNew hnew) (hg.stamped hst) dim
  · obtain ⟨-, hd'⟩ := crash_openAndMigrate hf.crash
    obtain ⟨ix, rfl, hs⟩ := index_openAndMigrate (hg.filesNew hnew) hf
    have hdata := hd.trans hd'
    refine ⟨ix, rfl, hs, hdata, fun dim' db'' hc => ?_, fun D e view force => ⟨fun db'' hc => ?_, ?_,
      noConflict_legacy (repoIdFor_ne_placeholder D view.canonicalRoot)⟩⟩
    · have hstill : Guards engine anyOutcome (fun _ => False) (openAndMigrate dim') ix.toDb
          fun _ c => c = ix.toDb := guards_openAndMigrate_index hs dim'
      rcases guards_crash hstill hc with h | h
      · exact h
      · exact h.elim
    · exact crash_reindexWith_placeholder hc
    · rw [← hdata.files]
      exact rewrite_finishes_iff (repoIdFor_ne_placeholder D view.canonicalRoot) ix

/-- A legacy database with one file, opened before its `kind` column was added. -/
def legacyDb : Db :=
  { Db.empty with
    chunks := some ⟨false, .empty⟩
    files := some (.legacy ⟨[⟨"a".toList, "h".toList, 5, none⟩], List.pairwise_singleton _ _⟩) }

/-- It is migrated by a connection that nothing stops. -/
theorem migration_crash_safe_legacy : legacyDb.filesNew = none ∧ legacyDb.Stamped ∧
    ∃ db', Finishes engine noFault (openAndMigrate 1) legacyDb (.ok ()) db' ∧
      SameData legacyDb db' := by
  have hst : legacyDb.Stamped := fun s hs => by cases hs
  obtain ⟨hfin, hdata⟩ := migration_crash_safe legacyDb legacyDb rfl .start 1
  obtain ⟨db', hf⟩ := hfin hst
  obtain ⟨ix, -, -, hd, -⟩ := hdata noFault db' hf
  exact ⟨rfl, hst, db', hf, hd⟩

/-- A `files` row of the path `a`. -/
def fileRowOf (repoId : Text) : FileRow := ⟨⟨"a".toList, "h".toList, 5, none⟩, repoId⟩

/-- A current database in which one path has a placeholder row and a row of `/old`. -/
def conflictedIndex : Index :=
  { Index.empty 1 with
    files := ⟨[fileRowOf migrationPlaceholderRepoId,
      fileRowOf (repoIdFor .plain "/old".toList)], by decide +kernel⟩
    metaRows := ⟨[⟨metaSchemaVersion, decimal schemaVersion⟩], List.pairwise_singleton _ _⟩ }

/-- Migration accepts it, and the run that follows is refused by the primary key. -/
theorem rewrite_refused_conflicted : conflictedIndex.toDb.filesNew = none ∧
    Finishes engine noFault (openAndMigrate 1) conflictedIndex.toDb (.ok ()) conflictedIndex.toDb ∧
    Finishes engine noFault (reindexWith .plain oneFileView false oneFileEmbedder)
      conflictedIndex.toDb (.error (.context "rewrite placeholder repo_id to real id".toList
        (.sql .constraint))) conflictedIndex.toDb := by
  have run : ∀ o ∈ succeed 30, ∀ (q : Req Stmt) (c : Db) (t : Txn Db), noFault q o c t :=
    fun o ho _ _ _ => ⟨7, (List.mem_replicate.1 ho).2⟩
  have stays : ∀ {α : Type} {p : Sql α} {r : Except Error α},
      (replay engine (succeed 30) p conflictedIndex.toDb .idle).1.result? = some r →
      (replay engine (succeed 30) p conflictedIndex.toDb .idle).2.1 = conflictedIndex.toDb →
      Finishes engine noFault p conflictedIndex.toDb r conflictedIndex.toDb := by
    intro α p r hr hend
    have hrun := run_replay (E := engine) (succeed 30) run p conflictedIndex.toDb .idle
    rw [hend] at hrun
    exact ⟨_, _, hrun, hr⟩
  exact ⟨rfl, stays (by decide +kernel) (by decide +kernel),
    stays (by decide +kernel) (by decide +kernel)⟩

end CodeSearch
