import CodeSearch.Catalog
import CodeSearch.Migration

/-!
# The downgrade gate

`migrate` refuses a file whose `meta` records a later schema version, but the gate is in
its last step: by then `open_db_with` and `migrate` have run every `CREATE` and the
`ALTER TABLE` that the file did not have in place.

    newer_refused_untouched_iff : opening and migrating a newer file always fails, and
    leaves it as it was if and only if everything the earlier statements make is there,
    up to the first that SQLite refuses
-/

namespace CodeSearch

open Relational Store

/-! ## What runs before the gate -/

/-- The column is added unless `PRAGMA table_info` lists it. -/
def kindChanges (c : Catalog) : List Change :=
  if (c.info "chunks".toList).any fun col => col.1 = "kind".toList then [] else [addKindChange]

/-- The changes of `open_db_with` and `migrate`, in order. -/
def openingChanges (B : Backend) (dim : Nat) (c : Catalog) : List Change :=
  createChunksChange :: createVirtual "chunks_vec" (B.vec0 dim c) ::
    (kindChanges c ++ structuralTables.map (createdChange B c))

/-- Every change finds what it would make, up to one that SQLite refuses. -/
def Settled (c : Catalog) : List Change → Prop
  | [] => True
  | ch :: rest => ch.Refused c ∨ ch.Present c ∧ Settled c rest

theorem settled_of_present {c : Catalog} {changes : List Change} (h : ∀ ch ∈ changes, ch.Present c) :
    Settled c changes := by
  induction changes with
  | nil => trivial
  | cons ch rest ih =>
    exact .inr ⟨h ch List.mem_cons_self, ih fun ch' hch' => h ch' (List.mem_cons_of_mem _ hch')⟩

/-! ## On the way to the gate -/

section
variable {B : Backend} {c d d' : Catalog} {all rest : List Change} {calm : Prop}

/-- With `rest` still to do at `d`: the file is as it was, or has grown. -/
structure Underway (c : Catalog) (all rest : List Change) (d : Catalog) : Prop where
  newer : d.Newer
  settled : Settled c all → d = c ∧ Settled c rest
  moved : ¬ Settled c all → c.size < d.size ∨ d = c ∧ ¬ Settled c rest

/-- What holds of the file where the opening fails; `calm` when SQLite failed only at
what it refuses. -/
structure Stops (c : Catalog) (all : List Change) (calm : Prop) (d : Catalog) : Prop where
  settled : Settled c all → d = c
  moved : calm → ¬ Settled c all → d ≠ c

theorem Underway.start (h : c.Newer) : Underway c all all c :=
  ⟨h, fun hs => ⟨rfl, hs⟩, fun hs => .inr ⟨rfl, hs⟩⟩

/-- Nothing is left to do at the file itself if nothing is left at all. -/
theorem Underway.congr {rest' : List Change} (h : Underway c all rest d) (heq : d = c → rest = rest') :
    Underway c all rest' d := by
  refine ⟨h.newer, fun hs => ?_, fun hs => ?_⟩
  · obtain ⟨hd, hrest⟩ := h.settled hs
    exact ⟨hd, heq hd ▸ hrest⟩
  · rcases h.moved hs with hlt | ⟨hd, hrest⟩
    · exact .inl hlt
    · exact .inr ⟨hd, heq hd ▸ hrest⟩

/-- A statement that fails by a fault. -/
theorem Underway.fault (h : Underway c all rest d) (hcalm : ¬ calm) : Stops c all calm d :=
  ⟨fun hs => (h.settled hs).1, fun hc => absurd hc hcalm⟩

/-- A change that is refused, or the gate. -/
theorem Underway.stops (h : Underway c all rest d) (hrest : d = c → Settled c rest) :
    Stops c all calm d := by
  refine ⟨fun hs => (h.settled hs).1, fun _ hs => ?_⟩
  rintro rfl
  rcases h.moved hs with hlt | ⟨-, hno⟩
  · exact absurd hlt (Nat.lt_irrefl _)
  · exact hno (hrest rfl)

theorem Catalog.Newer.grows {ch : Change} (h : d.Newer) (hgrows : ch.Grows d d')
    (hmeta : ∀ on column, ch = .addColumn on column → fold "meta".toList ≠ fold on) : d'.Newer := by
  obtain ⟨v, hv, hnewer⟩ := h
  refine ⟨v, ?_, hnewer⟩
  unfold Catalog.metaValue at hv ⊢
  cases ht : d.table? "meta".toList with
  | none =>
    rw [ht] at hv
    cases hv
  | some t =>
    rw [ht] at hv
    rw [hgrows.table? ht hmeta]
    exact hv

/-- One change. -/
theorem Underway.step {ch : Catalog → Change} (h : Underway c all (ch c :: rest) d)
    (hmeta : ∀ on column, ch d = .addColumn on column → fold "meta".toList ≠ fold on) :
    (∀ d', (ch d).exec B d = .ok d' → Underway c all rest d') ∧
    (∀ y, (ch d).exec B d = .error y → Stops c all calm d) := by
  rcases (ch d).exec_cases B d with ⟨hp, hr, hx⟩ | ⟨hp, hr, y, hx⟩ | ⟨hp, hr, d₁, hx, hgrows⟩
  · -- the change finds what it would make
    refine ⟨fun d' hd' => ?_, fun y hy => (by rw [hx] at hy; cases hy)⟩
    rw [hx] at hd'
    cases hd'
    refine ⟨h.newer, fun hs => ?_, fun hs => ?_⟩
    · obtain ⟨rfl, hrest⟩ := h.settled hs
      exact ⟨rfl, (hrest.resolve_left hr).2⟩
    · refine (h.moved hs).imp_right ?_
      rintro ⟨rfl, hno⟩
      exact ⟨rfl, fun hrest => hno (.inr ⟨hp, hrest⟩)⟩
  · refine ⟨fun d' hd' => (by rw [hx] at hd'; cases hd'), fun z hz => h.stops ?_⟩
    rintro rfl
    exact .inl hr
  · -- the change makes it
    refine ⟨fun d' hd' => ?_, fun y hy => (by rw [hx] at hy; cases hy)⟩
    rw [hx] at hd'
    cases hd'
    refine ⟨h.newer.grows hgrows hmeta, fun hs => ?_, fun hs => .inl ?_⟩
    · obtain ⟨rfl, hrest⟩ := h.settled hs
      exact absurd (hrest.resolve_left hr).1 hp
    · rcases h.moved hs with hlt | ⟨rfl, -⟩
      · exact hlt.trans hgrows.size
      · exact hgrows.size

/-! ## Programs -/

variable {allow : Req Stmt → Outcome RowId SqlError → Catalog → Txn Catalog → Prop} {α β : Type}

/-- Run alone from `d` with no transaction open, the program returns with `P` or leaves the
file as `Stops` says. -/
def Opens (B : Backend) (allow : Req Stmt → Outcome RowId SqlError → Catalog → Txn Catalog → Prop)
    (c : Catalog) (all : List Change) (calm : Prop) (p : Sql α) (d : Catalog)
    (P : α → Catalog → Prop) : Prop :=
  wp (catalogEngine B) (crashRules allow fun _ => True) p (fun r d' t => match r with
    | .ok a => t = .idle ∧ P a d'
    | .error _ => Stops c all calm d') d .idle

theorem opens_pure {a : α} {P : α → Catalog → Prop} (h : P a d) :
    Opens B allow c all calm (.pure a) d P := ⟨rfl, h⟩

theorem opens_throw {y : Error} {P : α → Catalog → Prop} (h : Stops c all calm d) :
    Opens B allow c all calm (.throw y) d P := h

theorem opens_bind {p : Sql α} {f : α → Sql β} {P : α → Catalog → Prop} {P' : β → Catalog → Prop}
    (hp : Opens B allow c all calm p d P) (hf : ∀ a d', P a d' → Opens B allow c all calm (f a) d' P') :
    Opens B allow c all calm (p >>= f) d P' := by
  refine (wp_bind p f _ _ _).2 (wp_mono (fun r d' t hq => ?_) hp)
  rcases r with y | a
  · exact hq
  · obtain ⟨rfl, ha⟩ := hq
    exact hf a d' ha

theorem opens_mapError {p : Sql α} {g : Error → Error} {P : α → Catalog → Prop}
    (h : Opens B allow c all calm p d P) : Opens B allow c all calm (p.mapError g) d P := by
  refine (wp_mapError p g _ _ _).2 (wp_mono (fun r d' t hq => ?_) h)
  rcases r with y | a
  · exact hq
  · exact hq

/-- A statement: it answers, it is refused, or a fault keeps it from running. -/
theorem opens_execute {err : SqlError → Error} {s : Stmt} {P : s.Resp → Catalog → Prop}
    (hok : ∀ x r d', catalogExec B s x d = .ok (r, d') → P r d')
    (herr : ∀ x y, catalogExec B s x d = .error y → Stops c all calm d)
    (hfault : (∃ o, allow (.stmt s) o d .idle ∧ ∀ x, o ≠ .run x) → Stops c all calm d) :
    Opens B allow c all calm (Prog.execute err s) d P := by
  intro d₁ hd o ho
  cases hd
  cases o with
  | fail y | abort y => exact ⟨.inr trivial, hfault ⟨_, ho, by simp⟩⟩
  | run x =>
    refine ⟨.inr trivial, ?_⟩
    simp only [Engine.step]
    cases hx : (catalogEngine B).exec s x d with
    | ok rc => exact ⟨rfl, hok x rc.1 rc.2 hx⟩
    | error y => exact herr x y hx

/-- The statement makes that change, and nothing else. -/
def Shapes (B : Backend) (s : Stmt) (ch : Catalog → Change) : Prop :=
  ∀ x d, (catalogExec B s x d).map Prod.snd = (ch d).exec B d

theorem map_done (r : Except SqlError Catalog) : (done r).map Prod.snd = r := by
  cases r <;> rfl

theorem shapes_createChunks : Shapes B .createChunks fun _ => createChunksChange :=
  fun _ _ => map_done _

theorem shapes_createChunksVec (dim : Nat) :
    Shapes B (.createChunksVec dim) fun d => createVirtual "chunks_vec" (B.vec0 dim d) :=
  fun _ _ => map_done _

theorem shapes_addKind : Shapes B .alterChunksAddKind fun _ => addKindChange :=
  fun _ _ => map_done _

theorem shapes_create (t : CreatedTable) : Shapes B (.create t) fun d => createdChange B d t :=
  fun _ _ => map_done _

/-- Only `chunks` gets a column. -/
theorem createdChange_ne_addColumn (t : CreatedTable) (on : Text) (col : Column) :
    createdChange B d t ≠ .addColumn on col := by
  cases t <;> simp [createdChange, createPlain, createVirtual]

theorem exec_selectMeta_newer {x : RowId} {r : Option Text} (h : d.Newer)
    (hx : catalogExec B (.selectMeta metaSchemaVersion) x d = .ok (r, d')) :
    d' = d ∧ ∃ t bits n, r = some t ∧ parseUnsigned bits t = some n ∧ schemaVersion < n := by
  obtain ⟨v, hv, hnewer⟩ := h
  change (d.metaValue metaSchemaVersion >>= fun v => getText B v >>= fun s => pure (s, d)) =
    .ok (r, d') at hx
  rw [hv] at hx
  cases v with
  | text t =>
    cases hx
    obtain ⟨bits, n, hn, hlt⟩ := hnewer
    exact ⟨rfl, t, bits, n, rfl, hn, hlt⟩
  | _ => cases hx

/-- What the gate reads on a newer file, if SQLite answers, is a later version or no number. -/
theorem opens_readSchemaVersion (h : Underway c all [] d) :
    Opens B allow c all calm readSchemaVersion d fun v d' =>
      d' = d ∧ ∃ n, v = some n ∧ schemaVersion < n := by
  have hstops : Stops c all calm d := h.stops fun _ => trivial
  refine opens_bind (P := fun s d' => d' = d ∧ ∃ t bits n, s = some t ∧
    parseUnsigned bits t = some n ∧ schemaVersion < n) ?_ fun s d' hs => ?_
  · exact opens_execute (fun x r d' hx => exec_selectMeta_newer h.newer hx)
      (fun _ _ _ => hstops) fun _ => hstops
  · obtain ⟨rfl, t, bits, n, rfl, hn, hlt⟩ := hs
    dsimp only
    cases hparse : parseUnsigned 32 t with
    | none => exact opens_throw hstops
    | some m =>
      have hm : m = n := parseUnsigned_agree hparse hn
      exact opens_pure ⟨rfl, m, rfl, hm ▸ hlt⟩

/-- The gate. -/
theorem opens_gate (h : Underway c all [] d) :
    Opens B allow c all calm migrateFilesSchema d fun _ _ => False := by
  unfold migrateFilesSchema
  refine opens_bind (opens_readSchemaVersion h) fun v d' hv => ?_
  obtain ⟨rfl, n, rfl, hlt⟩ := hv
  extract_lets rest
  show Opens B allow c all calm (if schemaVersion < n then _ else _) d' _
  rw [if_pos hlt]
  exact opens_throw (h.stops fun _ => trivial)

section
variable (hcalm : calm → ∀ q o c t, allow q o c t → ∃ x, o = .run x)
include hcalm

/-- What a fault stops before its statement. -/
theorem Underway.faulted {s : Stmt} (h : Underway c all rest d)
    (hfault : ∃ o, allow (.stmt s) o d .idle ∧ ∀ x, o ≠ .run x) : Stops c all calm d := by
  obtain ⟨o, ho, hrun⟩ := hfault
  refine h.fault fun hc => ?_
  obtain ⟨x, hx⟩ := hcalm hc _ _ _ _ ho
  exact hrun x hx

theorem opens_change {err : SqlError → Error} {s : Stmt} {ch : Catalog → Change}
    (hs : Shapes B s ch) (hmeta : ∀ d on column, ch d = .addColumn on column →
      fold "meta".toList ≠ fold on) (h : Underway c all (ch c :: rest) d) :
    Opens B allow c all calm (Prog.execute err s) d fun _ d' => Underway c all rest d' := by
  obtain ⟨hok, herr⟩ := h.step (hmeta d)
  refine opens_execute (fun x r d' hx => hok d' ?_) (fun x y hx => herr y ?_) (h.faulted hcalm)
  · rw [← hs x d, hx]
    rfl
  · rw [← hs x d, hx]
    rfl

/-- A query before the gate changes nothing. -/
theorem opens_probe {err : SqlError → Error} {s : Stmt} {a : s.Resp} (h : Underway c all rest d)
    (hs : ∀ x, catalogExec B s x d = .ok (a, d)) :
    Opens B allow c all calm (Prog.execute err s) d fun r d' => r = a ∧ d' = d := by
  refine opens_execute (fun x r d' hx => ?_) (fun x y hx => ?_) (h.faulted hcalm)
  · rw [hs x] at hx
    cases hx
    exact ⟨rfl, rfl⟩
  · rw [hs x] at hx
    cases hx

/-- The `CREATE` batch of `migrate`. -/
theorem opens_creates {err : SqlError → Error} (ts : List CreatedTable) :
    ∀ d, Underway c all (ts.map (createdChange B c)) d →
      Opens B allow c all calm (Prog.batch err (ts.map fun t => .stmt (.create t))) d
        fun _ d' => Underway c all [] d' := by
  induction ts with
  | nil => exact fun d h => opens_pure h
  | cons t ts ih =>
    intro d h
    rw [List.map_cons, batch_stmt_cons]
    refine opens_bind (opens_change hcalm (shapes_create t) ?_ h) fun _ d' h' => ih d' h'
    exact fun d on col hch => absurd hch (createdChange_ne_addColumn t on col)

/-- Opening the file. -/
theorem opens_openDbWith {dim : Nat} (h : Underway c (openingChanges B dim c) (openingChanges B dim c) d) :
    Opens B allow c (openingChanges B dim c) calm (openDbWith dim) d fun _ d' =>
      Underway c (openingChanges B dim c)
        (kindChanges c ++ structuralTables.map (createdChange B c)) d' := by
  unfold openDbWith
  rw [batch_stmt_cons]
  refine opens_bind (opens_change hcalm shapes_createChunks ?_ h) fun _ d₁ h₁ => ?_
  · simp [createChunksChange, createPlain]
  rw [batch_stmt_cons]
  refine opens_bind (opens_change hcalm (shapes_createChunksVec dim) ?_ h₁) fun _ d₂ h₂ => ?_
  · simp [createVirtual]
  exact opens_pure h₂

/-- `migrate` never returns on a newer file. -/
theorem opens_migrate (h : Underway c all (kindChanges c ++ structuralTables.map (createdChange B c)) d) :
    Opens B allow c all calm migrate d fun _ _ => False := by
  unfold migrate
  rw [batch_stmt_cons, batch_stmt_cons]
  refine opens_bind (P := fun _ d' => d' = d) ?_ fun _ d' hd => ?_
  · refine opens_bind (opens_probe hcalm h fun _ => rfl) fun _ d' hd => ?_
    rw [hd.2]
    refine opens_bind (opens_probe hcalm h fun _ => rfl) fun _ d' hd => ?_
    rw [hd.2]
    exact opens_pure rfl
  subst hd
  refine opens_bind (P := fun listed d₁ => d₁ = d' ∧
    listed = (d'.info "chunks".toList).any fun col => decide (col.1 = "kind".toList)) ?_
    fun listed d₁ hd => ?_
  · refine opens_bind (opens_probe hcalm h fun _ => rfl) fun info d₁ hd => ?_
    rw [hd.1, hd.2]
    exact opens_pure ⟨rfl, rfl⟩
  obtain ⟨rfl, rfl⟩ := hd
  -- the program looks at the file as it is by now
  have h' : Underway c all (kindChanges d₁ ++ structuralTables.map (createdChange B c)) d₁ :=
    h.congr fun heq => by rw [heq]
  extract_lets rest
  have hrest : ∀ d₂, Underway c all (structuralTables.map (createdChange B c)) d₂ →
      Opens B allow c all calm (rest ()) d₂ fun _ _ => False := by
    intro d₂ h₂
    refine opens_bind (opens_creates hcalm structuralTables d₂ h₂) fun _ d₃ h₃ => ?_
    exact opens_mapError (opens_gate h₃)
  unfold kindChanges at h'
  split at h'
  · next hlisted =>
    rw [hlisted]
    exact hrest d₁ h'
  · next hlisted =>
    rw [Bool.not_eq_true] at hlisted
    rw [hlisted]
    refine opens_bind (opens_change hcalm shapes_addKind ?_ h') fun _ d₂ h₂ => hrest d₂ h₂
    rintro d on col ⟨⟩
    decide

end

theorem opens_openAndMigrate (hcalm : calm → ∀ q o c t, allow q o c t → ∃ x, o = .run x) {dim : Nat}
    (h : c.Newer) : Opens B allow c (openingChanges B dim c) calm (openAndMigrate dim) c
      fun _ _ => False :=
  opens_bind (opens_openDbWith hcalm (.start h)) fun _ _ h' => opens_migrate hcalm h'

end

/-! ## Newer files -/

theorem finishes_stops {B : Backend} {c c' : Catalog} {calm : Prop} {dim : Nat}
    {allow : Req Stmt → Outcome RowId SqlError → Catalog → Txn Catalog → Prop}
    {r : Except Error Unit} (hcalm : calm → ∀ q o c t, allow q o c t → ∃ x, o = .run x)
    (h : c.Newer) (hf : Finishes (catalogEngine B) allow (openAndMigrate dim) c r c') :
    (∃ y, r = .error y) ∧ Stops c (openingChanges B dim c) calm c' := by
  obtain ⟨t, hq⟩ := wp_finishes (U := crashRules allow fun _ => True)
    (opens_openAndMigrate hcalm h) hf
  cases r with
  | ok a => exact hq.2.elim
  | error y => exact ⟨⟨y, rfl⟩, hq⟩

/-- Opening a newer file and migrating it fails, whatever else goes wrong.  No such run
changes the file if and only if everything that the statements before the gate make is
there, up to the first of them that SQLite refuses. -/
theorem newer_refused_untouched_iff (B : Backend) (dim : Nat) (c : Catalog) (h : c.Newer) :
    (∀ r c', Finishes (catalogEngine B) (fun _ _ _ _ => True) (openAndMigrate dim) c r c' →
      ∃ y, r = .error y) ∧
    ((∀ r c', Finishes (catalogEngine B) (fun _ _ _ _ => True) (openAndMigrate dim) c r c' →
      (∃ y, r = .error y) ∧ c' = c) ↔ Settled c (openingChanges B dim c)) := by
  have hany : ∀ r c', Finishes (catalogEngine B) (fun _ _ _ _ => True) (openAndMigrate dim) c r c' →
      (∃ y, r = .error y) ∧ Stops c (openingChanges B dim c) False c' :=
    fun _ _ hf => finishes_stops False.elim h hf
  refine ⟨fun r c' hf => (hany r c' hf).1, fun huntouched => ?_, fun hs r c' hf => ?_⟩
  · by_contra hno
    -- a run at which SQLite fails only where it refuses
    have hcalm : ∀ q c t, (noFault : Req Stmt → Outcome RowId SqlError → Catalog → Txn Catalog → Prop)
        q (.run 0) c t := fun _ _ _ => ⟨0, rfl⟩
    obtain ⟨p', c', t', r, hrun, hr⟩ :=
      run_total (E := catalogEngine B) (fun _ _ _ => .run 0) hcalm (openAndMigrate dim) c .idle
    have hstops : Stops c (openingChanges B dim c) True c' :=
      (finishes_stops (fun _ _ _ _ _ ho => ho) h ⟨p', t', hrun, hr⟩).2
    have hsame := huntouched r c' ⟨p', t', hrun.mono fun _ _ _ _ _ => trivial, hr⟩
    exact hstops.moved trivial hno hsame.2
  · obtain ⟨hr, hstops⟩ := hany r c' hf
    exact ⟨hr, hstops.settled hs⟩

/-- A file of a later version: its tables have other columns. -/
def laterCatalog (names : List String) : Catalog :=
  { tables :=
      plainTable "chunks" [column "id" "TEXT PRIMARY KEY" 1, column "kind" "TEXT" 0] ::
      { plainTable "meta" [column "key" "TEXT PRIMARY KEY" 1, column "value" "TEXT NOT NULL" 0] with
        rows := [[.text metaSchemaVersion, .text "2".toList]] } ::
      names.map fun name => plainTable name [column "file_path" "TEXT NOT NULL" 0]
    indexes := [⟨"idx_file_imports_path".toList, "file_imports".toList, ["file_path".toList]⟩,
      ⟨"idx_file_exports_path".toList, "file_exports".toList, ["file_path".toList]⟩] }

def laterTables : List String := ["chunks_vec", "chunks_fts", "files", "file_imports", "file_exports"]

/-- Modules that make no table, and nothing after the gate. -/
def plainBackend : Backend :=
  { vec0 := fun _ _ => .error .io, fts5 := fun _ => .error .io, refusal := .io,
    rest := fun _ _ _ => .error .io }

theorem newer_later (names : List String) : (laterCatalog names).Newer :=
  ⟨.text "2".toList, rfl, 32, 2, by decide, by decide⟩

/-- A later version that has every object is refused and stays as it was. -/
theorem newer_refused_untouched_complete : (laterCatalog ("symbols" :: laterTables)).Newer ∧
    ∀ r c', Finishes (catalogEngine plainBackend) (fun _ _ _ _ => True) (openAndMigrate 384)
      (laterCatalog ("symbols" :: laterTables)) r c' →
      (∃ y, r = .error y) ∧ c' = laterCatalog ("symbols" :: laterTables) := by
  refine ⟨newer_later _, (newer_refused_untouched_iff plainBackend 384 _ (newer_later _)).2.2 ?_⟩
  have hkind : kindChanges (laterCatalog ("symbols" :: laterTables)) = [] :=
    if_pos (by decide +kernel)
  apply settled_of_present
  unfold openingChanges
  rw [hkind, List.nil_append]
  intro ch hch
  simp only [List.mem_cons, List.mem_map] at hch
  rcases hch with rfl | rfl | ⟨t, -, rfl⟩
  · show Option.isSome _ = true
    decide +kernel
  · show Option.isSome _ = true
    decide +kernel
  · cases t with
    | fileImportsIdx => exact ⟨⟨_, rfl, rfl⟩, by decide +kernel, by decide +kernel⟩
    | fileExportsIdx => exact ⟨⟨_, rfl, rfl⟩, by decide +kernel, by decide +kernel⟩
    | _ =>
      show Option.isSome _ = true
      decide +kernel

/-- A file of a later version that has dropped `symbols`, after it was refused. -/
def refusedCatalog : Catalog :=
  (replay (catalogEngine plainBackend) (succeed 20) (openAndMigrate 384) (laterCatalog laterTables)
    .idle).2.1

/-- It has a `symbols` table again. -/
theorem dropped_table_recreated : (laterCatalog laterTables).Newer ∧
    Finishes (catalogEngine plainBackend) noFault (openAndMigrate 384) (laterCatalog laterTables)
      (.error (.context "migrate files schema to v0.7 (composite PK)".toList
        (.message (newerSchemaMessage 2)))) refusedCatalog ∧
    (laterCatalog laterTables).table? "symbols".toList = none ∧
    (refusedCatalog.table? "symbols".toList).isSome = true := by
  have run : ∀ o ∈ succeed 20, ∀ (q : Req Stmt) (c : Catalog) (t : Txn Catalog), noFault q o c t :=
    fun o ho _ _ _ => ⟨7, (List.mem_replicate.1 ho).2⟩
  have hrun := run_replay (E := catalogEngine plainBackend) (succeed 20) run (openAndMigrate 384)
    (laterCatalog laterTables) .idle
  exact ⟨newer_later _, ⟨_, _, hrun, by decide +kernel⟩, by decide +kernel, by decide +kernel⟩

end CodeSearch
