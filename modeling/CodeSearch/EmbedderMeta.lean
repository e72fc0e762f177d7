import CodeSearch.Migration

/-!
# The recorded embedder

`meta` records the embedder an index was built with, `chunks_vec` has the width
it was created with, and a run may use any embedder.  `Described U c`: the
recorded dimension is the width, and every stored vector was made by an embedder
among `U` with the recorded id and dimension.

Opening and migrating keep this whatever the embedder.  A full run does when
`chunks_vec` has the embedder's width; an incremental run does, unless it stamps
an unrecorded index that has another width or vectors of another embedder
(`Fitting`).
-/

namespace CodeSearch

open Relational Store

/-! ## What meta records -/

/-- A vector made by an embedder among `U` with that id and dimension. -/
def Made (U : Embedder → Prop) (id : Text) (dim : Nat) (vector : List UInt8) : Prop :=
  ∃ e, U e ∧ e.id = id ∧ e.dim = dim ∧ ∃ text, vector = e.bytes text

structure Described (U : Embedder → Prop) (c : Db) : Prop where
  width : ∀ dim, c.recordedDim = some dim → ∃ v, c.chunksVec = some v ∧ v.width = dim
  made : ∀ id dim, c.embedder = some (id, dim) → ∀ r ∈ c.vecRows, Made U id dim r.embedding

/-- The index is recorded as the embedder's, and is. -/
structure Owned (U : Embedder → Prop) (e : Embedder) (c : Db) : Prop where
  id : c.metaValue metaEmbedderId = some e.id
  dim : c.recordedDim = some e.dim
  width : ∃ v, c.chunksVec = some v ∧ v.width = e.dim
  made : ∀ r ∈ c.vecRows, Made U e.id e.dim r.embedding

theorem Owned.described {U : Embedder → Prop} {e : Embedder} {c : Db} (h : Owned U e c) :
    Described U c where
  width := by
    intro dim hd
    rw [h.dim] at hd
    cases hd
    exact h.width
  made := by
    intro id dim he
    obtain ⟨hi, hd⟩ := embedder_eq_some.1 he
    rw [h.id] at hi
    rw [h.dim] at hd
    cases hi; cases hd
    exact h.made

/-- Without a recorded embedder there is nothing to describe. -/
theorem described_unrecorded {U : Embedder → Prop} {c : Db}
    (hid : c.metaValue metaEmbedderId = none) (hdim : c.metaValue metaEmbedderDim = none) :
    Described U c where
  width := fun dim hd => by
    unfold Db.recordedDim at hd
    rw [hdim] at hd; cases hd
  made := fun id dim he => by
    rw [(embedder_eq_some.1 he).1] at hid; cases hid

/-! ## Opening and migrating -/

theorem metaValue_otherMeta (c : Db) {key : Text} (hkey : key ≠ metaSchemaVersion) :
    c.metaValue key = (c.otherMeta.find? fun r => r.key = key).map (·.value) := by
  unfold Db.metaValue Db.otherMeta
  rw [List.find?_filter]
  congr 2
  funext r
  by_cases h : r.key = key
  · simp [h, hkey]
  · simp [h]

/-- No schema statement touches what is described. -/
theorem Described.schema {U : Embedder → Prop} {c c' : Db} (h : Described U c) (hg : Grows c c')
    (hd : SameData c c') : Described U c' := by
  have hid : c'.metaValue metaEmbedderId = c.metaValue metaEmbedderId := by
    rw [metaValue_otherMeta c' (by decide), metaValue_otherMeta c (by decide), hd.otherMeta]
  have hdim : c'.metaValue metaEmbedderDim = c.metaValue metaEmbedderDim := by
    rw [metaValue_otherMeta c' (by decide), metaValue_otherMeta c (by decide), hd.otherMeta]
  have hrec : c'.recordedDim = c.recordedDim := by
    unfold Db.recordedDim; rw [hdim]
  constructor
  · intro dim hdim'
    rw [hrec] at hdim'
    obtain ⟨v, hv, hw⟩ := h.width dim hdim'
    obtain ⟨v', hv', hw'⟩ := hg.vec v hv
    exact ⟨v', hv', hw'.trans hw⟩
  · intro id dim he
    rw [embedder_eq_some, hid, hrec, ← embedder_eq_some] at he
    rw [hd.vec]
    exact h.made id dim he

/-! ## The statements of a run -/

section
variable {U : Embedder → Prop} {e : Embedder} {repoId : Text} {c c' : Db} {x : RowId}

theorem metaValue_replace {m : MetaTable} {key value : Text} (hm : c.metaTable = some m)
    (k : Text) : ({ c with metaTable := some (m.replace ⟨key, value⟩) } : Db).metaValue k =
      if k = key then some value else c.metaValue k := by
  unfold Db.metaValue Db.metaRows
  rw [hm]
  show ((m.replace ⟨key, value⟩).rows.find? _).map _ = _
  by_cases hk : k = key
  · subst hk
    rw [find?_replace, if_pos rfl]
    rfl
  · rw [if_neg hk, ← List.head?_filter, replace_filter_other, List.head?_filter]
    · rfl
    · intro r hr
      rw [hr]
      exact decide_eq_false fun h => hk h.symm

/-- The two writes of a stamp. -/
theorem metaValue_stamp {m : MetaTable} {id : Text} (hm : c.metaTable = some m) :
    ({ c with metaTable := some (m.replace ⟨metaEmbedderId, id⟩) } : Db).metaValue metaEmbedderId =
      some id := by
  rw [metaValue_replace hm, if_pos rfl]

theorem recordedDim_id {m : MetaTable} {id : Text} (hm : c.metaTable = some m) :
    ({ c with metaTable := some (m.replace ⟨metaEmbedderId, id⟩) } : Db).recordedDim =
      c.recordedDim := by
  unfold Db.recordedDim
  rw [metaValue_replace hm, if_neg (by decide)]

theorem metaValue_dim {m : MetaTable} {dim : Text} (hm : c.metaTable = some m) :
    ({ c with metaTable := some (m.replace ⟨metaEmbedderDim, dim⟩) } : Db).metaValue
      metaEmbedderId = c.metaValue metaEmbedderId := by
  rw [metaValue_replace hm, if_neg (by decide)]

theorem recordedDim_stamp {m : MetaTable} (hm : c.metaTable = some m) :
    ({ c with metaTable := some (m.replace ⟨metaEmbedderDim, decimal e.dim⟩) } : Db).recordedDim =
      some e.dim := by
  unfold Db.recordedDim
  rw [metaValue_replace hm, if_pos rfl]
  exact parseUnsigned_decimal 64 e.dim e.dim_lt

/-- What a statement of a run does to the vectors and to the record. -/
structure Records (e : Embedder) (c c' : Db) : Prop where
  vec : ∀ r ∈ c'.vecRows, r ∈ c.vecRows ∨ ∃ text, r.embedding = e.bytes text
  id : c'.metaValue metaEmbedderId = c.metaValue metaEmbedderId ∨
    c'.metaValue metaEmbedderId = some e.id
  dim : c'.recordedDim = c.recordedDim ∨ c'.recordedDim = some e.dim

/-- The record is in `meta`. -/
theorem recorded_same (hm : c'.metaTable = c.metaTable) :
    (∀ k, c'.metaValue k = c.metaValue k) ∧ c'.recordedDim = c.recordedDim := by
  have hmeta : ∀ k, c'.metaValue k = c.metaValue k := fun k => by
    unfold Db.metaValue Db.metaRows; rw [hm]
  refine ⟨hmeta, ?_⟩
  unfold Db.recordedDim
  rw [hmeta]

/-- A change of the other tables. -/
theorem records_other (hv : c'.chunksVec = c.chunksVec) (hm : c'.metaTable = c.metaTable) :
    Records e c c' := by
  obtain ⟨hmeta, hdim⟩ := recorded_same hm
  refine ⟨fun r hr => .inl ?_, .inl (hmeta _), .inl hdim⟩
  unfold Db.vecRows at hr ⊢
  rwa [hv] at hr

/-- A change of the vectors only. -/
theorem records_vec {v : ChunksVec} {table : VecTable} (hv : c.chunksVec = some v)
    (h : ∀ r ∈ table.rows, r ∈ v.table.rows ∨ ∃ text, r.embedding = e.bytes text) :
    Records e c { c with chunksVec := some { v with table } } := by
  refine ⟨fun r hr => ?_, .inl rfl, .inl rfl⟩
  unfold Db.vecRows
  rw [hv]
  exact h r hr

/-- A statement of a run stores no vector but the embedder's, and records
nothing but the embedder. -/
theorem records_runStmt {s : Stmt} {r : s.Resp} (hs : RunStmt repoId e s)
    (h : exec s x c = .ok (r, c')) : Records e c c' := by
  have hedits := edits_of_exec hs.onRows h
  clear h r
  cases hedits with
  | metaTable hm =>
    rcases hs with ⟨rfl, rfl⟩ | ⟨rfl, rfl⟩
    · exact ⟨fun r hr => .inl hr, .inr (metaValue_stamp hm), .inl (recordedDim_id hm)⟩
    · exact ⟨fun r hr => .inl hr, .inl (metaValue_dim hm), .inr (recordedDim_stamp hm)⟩
  | chunksVec hv rows =>
    refine records_vec hv fun r hr => (rows r hr).imp_right ?_
    rintro ⟨id, rfl⟩
    exact hs
  | read | files | filesCleared | chunks | chunksFts | symbols | fileImports | fileExports =>
    exact records_other rfl rfl

/-- The width of `chunks_vec`, which no statement of a run changes. -/
theorem width_of_shape (h : c'.shape = c.shape) {w : Nat}
    (hw : ∃ v, c.chunksVec = some v ∧ v.width = w) : ∃ v, c'.chunksVec = some v ∧ v.width = w := by
  obtain ⟨v, hv, hw⟩ := hw
  obtain ⟨v', hv', hw'⟩ := (grows_of_shape h).vec v hv
  exact ⟨v', hv', hw'.trans hw⟩

/-- Once the index is the embedder's, its runs leave it so. -/
theorem owned_runStmt {s : Stmt} {r : s.Resp} (hU : U e) (hR : repoId ≠ migrationPlaceholderRepoId)
    (hs : RunStmt repoId e s) (hx : exec s x c = .ok (r, c')) (h : Owned U e c) : Owned U e c' := by
  have hrec := records_runStmt hs hx
  constructor
  · rcases hrec.id with hid | hid
    · exact hid.trans h.id
    · exact hid
  · rcases hrec.dim with hdim | hdim
    · exact hdim.trans h.dim
    · exact hdim
  · exact width_of_shape (exec_runStmt hR hs hx).1 h.width
  · intro row hrow
    rcases hrec.vec row hrow with hold | ⟨text, htext⟩
    · exact h.made row hold
    · exact ⟨e, hU, rfl, rfl, text, htext⟩

/-- A program of such statements. -/
theorem guards_owned {α : Type} {p : Sql α} (hU : U e) (hR : repoId ≠ migrationPlaceholderRepoId)
    (hp : p.Only (RunStmt repoId e)) (h : Owned U e c) :
    wp engine (crashRules anyOutcome (Described U)) p (fun _ c' _ => Owned U e c') c .idle :=
  wp_only (U := crashRules anyOutcome (Described U)) (K := Owned U e) (G := fun a b => Owned U e a → Owned U e b) (fun _ h => h)
    (fun _ _ _ h h' ha => h' (h ha)) (fun _ _ _ _ _ hs hx ha => owned_runStmt hU hR hs hx ha)
    (fun _ _ ha h => h ha) (fun _ _ hb ha => by cases hb; exact ha)
    (fun _ _ ha h => .inr (h ha).described) hp h (fun _ hw => by cases hw)

/-! ## The phases of a run -/

/-- An unrecorded index that the embedder may be recorded for. -/
structure Stampable (U : Embedder → Prop) (e : Embedder) (c : Db) : Prop where
  width : ∃ v, c.chunksVec = some v ∧ v.width = e.dim
  made : ∀ r ∈ c.vecRows, Made U e.id e.dim r.embedding

/-- The state a run with `e` starts from lets it keep the record right: a full
run needs a `chunks_vec` of its width, an incremental one that stamps an
unrecorded index needs it, and vectors, to be its own. -/
def Fitting (U : Embedder → Prop) (e : Embedder) (c : Db) : Bool → Prop
  | true => ∀ v, c.chunksVec = some v → v.width = e.dim
  | false => c.embedder = none → Stampable U e c

/-- The record depends on two tables. -/
theorem Described.same (h : Described U c) (hv : c'.chunksVec = c.chunksVec)
    (hm : c'.metaTable = c.metaTable) : Described U c' := by
  obtain ⟨hmeta, hdim⟩ := recorded_same hm
  have hrows : c'.vecRows = c.vecRows := by unfold Db.vecRows; rw [hv]
  constructor
  · intro dim hd
    rw [hv]
    exact h.width dim (hdim ▸ hd)
  · intro id dim he
    rw [embedder_eq_some, hmeta, hdim, ← embedder_eq_some] at he
    rw [hrows]
    exact h.made id dim he

theorem guards_rewrite (h : Described U c) :
    Guards engine anyOutcome (Described U) (rewritePlaceholderRepoId repoId) c
      fun _ c' => Described U c' ∧ c'.chunksVec = c.chunksVec ∧ c'.metaTable = c.metaTable := by
  refine guards_execute fun x r c' _ hx => ?_
  obtain ⟨t, -, hx⟩ := needFiles_bind_eq_ok.1 hx
  obtain ⟨t', -, hx⟩ := checked_bind_eq_ok.1 hx
  cases hx
  have h' : Described U { c with files := some (.current t') } := h.same rfl rfl
  exact ⟨.inr h', h', rfl, rfl⟩

/-- Recording the embedder: after the first write the record may mix two
embedders of one dimension, of which only one has vectors. -/
theorem guards_stamp (h : Described U c) (hs : Stampable U e c) :
    Guards engine anyOutcome (Described U) (writeEmbedderMeta e.id e.dim) c
      fun _ c' => Owned U e c' := by
  obtain ⟨v, hv, hw⟩ := hs.width
  refine guards_bind (P := fun _ c' => Described U c' ∧ Stampable U e c' ∧
    c'.metaValue metaEmbedderId = some e.id) ?_ fun _ c₁ h₁ => ?_
  · refine guards_execute fun x r c' _ hx => ?_
    obtain ⟨m, hm, hx⟩ := need_bind_eq_ok.1 hx
    cases hx
    have hid : ({ c with metaTable := some (m.replace ⟨metaEmbedderId, e.id⟩) } : Db).metaValue
        metaEmbedderId = some e.id := metaValue_stamp hm
    have hdim : ({ c with metaTable := some (m.replace ⟨metaEmbedderId, e.id⟩) } : Db).recordedDim =
        c.recordedDim := recordedDim_id hm
    refine ⟨.inr ?_, ?_, ⟨hs.width, hs.made⟩, hid⟩
    all_goals
      refine ⟨fun dim hd => h.width dim (hdim ▸ hd), fun id dim he => ?_⟩
      rw [embedder_eq_some, hid, hdim] at he
      obtain ⟨hi, hd⟩ := he
      cases hi
      obtain ⟨v', hv', hw'⟩ := h.width dim hd
      cases hv.symm.trans hv'
      rw [← hw', hw]
      exact hs.made
  · obtain ⟨-, hs₁, hid₁⟩ := h₁
    refine guards_execute fun x r c' _ hx => ?_
    obtain ⟨m, hm, hx⟩ := need_bind_eq_ok.1 hx
    cases hx
    have hown : Owned U e { c₁ with metaTable := some (m.replace ⟨metaEmbedderDim, decimal e.dim⟩) } :=
      ⟨(metaValue_dim hm).trans hid₁, recordedDim_stamp hm, hs₁.width, hs₁.made⟩
    exact ⟨.inr hown.described, hown⟩

/-- After its check an incremental run's index is the embedder's. -/
theorem guards_checkEmbedder (h : Described U c) (hs : c.embedder = none → Stampable U e c) :
    Guards engine anyOutcome (Described U) (checkEmbedder e) c fun _ c' => Owned U e c' := by
  refine guards_bind (P := fun _ c' => c' = c ∧
    (c.embedder = none ∨ c.embedder = some (e.id, e.dim))) ?_ fun _ c₁ h₁ => ?_
  · refine guards_mapError (guards_bind guards_readEmbedderMeta fun stored c' hc => ?_)
    obtain ⟨rfl, hst⟩ := hc
    cases stored with
    | none => exact guards_pure ⟨rfl, .inl hst.symm⟩
    | some pair =>
      obtain ⟨id, dim⟩ := pair
      simp only
      split
      · exact guards_throw
      · next hsame =>
        rw [not_or, not_not, not_not] at hsame
        obtain ⟨rfl, rfl⟩ := hsame
        exact guards_pure ⟨rfl, .inr hst.symm⟩
  · obtain ⟨rfl, hst⟩ := h₁
    refine guards_bind guards_readEmbedderMeta fun stored c' hc => ?_
    obtain ⟨rfl, hstored⟩ := hc
    rw [hstored]
    rcases hst with hst | hst
    · rw [hst]
      exact guards_mapError (guards_stamp h (hs hst))
    · rw [hst]
      obtain ⟨hid, hdim⟩ := embedder_eq_some.1 hst
      exact guards_pure ⟨hid, hdim, h.width _ hdim, h.made _ _ hst⟩

/-- Every delete of the wipe keeps the record, and an empty `chunks_vec`. -/
theorem exec_wipe {t : WipedTable} {r : Unit} {w : Nat} (h : exec (.deleteAll t) x c = .ok (r, c'))
    (hv : ∃ v, c.chunksVec = some v ∧ v.width = w ∧ v.table.rows = []) :
    c'.metaTable = c.metaTable ∧ ∃ v, c'.chunksVec = some v ∧ v.width = w ∧ v.table.rows = [] := by
  cases t with
  | chunksVec =>
    obtain ⟨v, hv, hw, -⟩ := hv
    obtain ⟨v', hv', h⟩ := need_bind_eq_ok.1 h
    cases hv.symm.trans hv'
    cases h
    exact ⟨rfl, _, rfl, hw, rfl⟩
  | _ =>
    obtain ⟨_, -, h⟩ := need_bind_eq_ok.1 h
    cases h
    exact ⟨rfl, hv⟩

/-- The wipe keeps the record and the width, and leaves no vector. -/
theorem guards_wipeAll (h : Described U c) (hfit : ∀ v, c.chunksVec = some v → v.width = e.dim) :
    Guards engine anyOutcome (Described U) wipeAll c fun _ c' => Described U c' ∧ Stampable U e c' := by
  refine guards_batch_txn fun t hc => ?_
  -- the first statement finds `chunks_vec` and empties it
  obtain ⟨-, x, _, w, -, hx, hc⟩ := completes_batch_cons.1 hc
  obtain ⟨v, hv, hx⟩ := need_bind_eq_ok.1 hx
  cases hx
  have hkeep := completes_only (φ := fun s => ∃ t, s = .deleteAll t)
    (K := fun w => w.metaTable = c.metaTable ∧
      ∃ v', w.chunksVec = some v' ∧ v'.width = e.dim ∧ v'.table.rows = []) hc
    (only_batch _ fun s hs => by
      obtain ⟨s', hs', heq⟩ := List.mem_map.1 hs
      cases heq
      obtain ⟨t, -, rfl⟩ := List.mem_map.1 hs'
      exact ⟨t, rfl⟩)
    (fun s x w r w' hs hw hx => by
      obtain ⟨t, rfl⟩ := hs
      obtain ⟨hm, hvec⟩ := exec_wipe (x := x) hx hw.2
      exact ⟨hm.trans hw.1, hvec⟩)
    ⟨rfl, _, rfl, hfit v hv, rfl⟩
  obtain ⟨hm, v', hv', hw', hempty⟩ := hkeep
  have hrows : ∀ P : VecRow → Prop, ∀ r ∈ (t.view c).vecRows, P r := by
    intro P r hr
    unfold Db.vecRows at hr
    rw [hv', Option.map_some, Option.getD_some, hempty] at hr
    cases hr
  obtain ⟨-, hdim⟩ := recorded_same hm
  have hdes : Described U (t.view c) := by
    refine ⟨fun dim hd => ?_, fun _ _ _ => hrows _⟩
    rw [hdim] at hd
    obtain ⟨v₀, hv₀, hw₀⟩ := h.width dim hd
    exact ⟨v', hv', by rw [hw', ← hw₀, hfit v₀ hv₀]⟩
  exact ⟨.inr hdes, hdes, ⟨v', hv', hw'⟩, hrows _⟩

/-- A run by its parts: the gate, in a full run the wipe and the stamp, give what the
statements of the files then keep. -/
theorem wp_reindexWith {allow : Req Stmt → Outcome RowId SqlError → Db → Txn Db → Prop}
    {I A B K : Db → Prop} (D : Deps) (view : RepoView) (force : Bool)
    (rewrite : Guards engine allow I (rewritePlaceholderRepoId (repoIdFor D view.canonicalRoot)) c
      fun _ => A)
    (check : force = false → ∀ c₁, A c₁ → Guards engine allow I (checkEmbedder e) c₁ fun _ => K)
    (wipe : force = true → ∀ c₁, A c₁ → Guards engine allow I wipeAll c₁ fun _ => B)
    (stamp : ∀ c₂, B c₂ → Guards engine allow I (writeEmbedderMeta e.id e.dim) c₂ fun _ => K)
    (files : ∀ {α : Type} {p : Sql α} {c : Db}, p.Only (RunStmt (repoIdFor D view.canonicalRoot) e) →
      K c → wp engine (crashRules allow I) p (fun _ c' _ => K c') c .idle) :
    wp engine (crashRules allow I) (reindexWith D view force e)
      (fun r c' _ => ∀ a, r = .ok a → K c') c .idle := by
  have hallows := runAllows_runStmt D (repoIdFor D view.canonicalRoot) e
  refine wp_guards_bind rewrite fun _ c₁ h₁ => ?_
  cases force with
  | false =>
    refine wp_guards_bind (check rfl c₁ h₁) fun _ c₂ h₂ => ?_
    exact wp_mono (fun _ _ _ h _ _ => h)
      (files (only_bind (only_reindexFiles hallows (fun _ _ => trivial) false) fun _ => trivial) h₂)
  | true =>
    have hfiles : wp engine (crashRules allow I)
        (reindexFiles D view (repoIdFor D view.canonicalRoot) true e)
        (fun r c' _ => ∀ a, r = .ok a → K c') c₁ .idle := by
      refine wp_guards_bind (wipe rfl c₁ h₁) fun _ c₂ h₂ => ?_
      refine wp_guards_bind (guards_mapError (stamp c₂ h₂)) fun _ c₃ h₃ => ?_
      exact wp_mono (fun _ _ _ h _ _ => h) (files (only_foldlM view.walked
        (fun f _ counts => only_forceStep hallows view counts trivial) (0, 0)) h₃)
    refine (wp_bind _ _ _ _ _).2 ((wp_bind _ _ _ _ _).2 (wp_mono (fun r c t hq => ?_) hfiles))
    rcases r with y | counts
    · exact fun a ha => by cases ha
    · exact fun _ _ => hq counts rfl

/-- After the gate and, in a full run, the wipe and the stamp, the index is the
embedder's. -/
theorem guards_reindexWith (D : Deps) (view : RepoView) (force : Bool) (hU : U e)
    (h : Described U c) (hfit : Fitting U e c force) :
    wp engine (crashRules anyOutcome (Described U)) (reindexWith D view force e)
      (fun r c' _ => ∀ a, r = .ok a → Owned U e c') c .idle := by
  refine wp_reindexWith (B := fun c => Described U c ∧ Stampable U e c) D view force
    (guards_rewrite h) ?_ ?_ ?_ (guards_owned hU
      (repoIdFor_ne_placeholder D view.canonicalRoot))
  · rintro rfl c₁ ⟨h₁, hv₁, hm₁⟩
    obtain ⟨hmeta, hdim⟩ := recorded_same hm₁
    have hs : c₁.embedder = none → Stampable U e c₁ := by
      intro hnone
      have hnone' : c.embedder = none := by
        unfold Db.embedder at hnone ⊢
        rwa [hmeta, hdim] at hnone
      have hrows : c₁.vecRows = c.vecRows := by unfold Db.vecRows; rw [hv₁]
      obtain ⟨hw, hmade⟩ := hfit hnone'
      exact ⟨hv₁ ▸ hw, hrows ▸ hmade⟩
    exact guards_checkEmbedder h₁ hs
  · rintro rfl c₁ ⟨h₁, hv₁, -⟩
    exact guards_wipeAll h₁ fun v hv => hfit v (hv₁ ▸ hv)
  · rintro c₂ ⟨h₂, hs₂⟩
    exact guards_stamp h₂ hs₂

end

/-! ## Histories of embedders -/

/-- What a sequence of opens, migrations and runs leaves of `db₀`, each with an
embedder among `U` and cut short anywhere; `ok` is asked of the state a run
starts from. -/
inductive EmbedderHistory (U : Embedder → Prop) (ok : Embedder → Db → Bool → Prop) (db₀ : Db) :
    Db → Prop
  | start : EmbedderHistory U ok db₀ db₀
  | opened {db db' : Db} (e : Embedder) : EmbedderHistory U ok db₀ db → U e →
      Crash engine anyOutcome (openDbWith e.dim) db db' → EmbedderHistory U ok db₀ db'
  | migrated {db db' : Db} : EmbedderHistory U ok db₀ db → Crash engine anyOutcome migrate db db' →
      EmbedderHistory U ok db₀ db'
  | reindexed {db db' : Db} (D : Deps) (view : RepoView) (force : Bool) (e : Embedder) :
      EmbedderHistory U ok db₀ db → U e → ok e db force →
      Crash engine anyOutcome (reindexWith D view force e) db db' → EmbedderHistory U ok db₀ db'

section
variable {U : Embedder → Prop} {ok : Embedder → Db → Bool → Prop} {db₀ db db' : Db}

/-- Opening and migrating are schema programs. -/
theorem crash_openDbWith {dim : Nat} (h : Crash engine anyOutcome (openDbWith dim) db db') :
    Grows db db' ∧ SameData db db' :=
  crash_schema (returns_openDbWith
    { migrationRules_alone anyOutcome with benign := False.elim, kind := False.elim } dim) h

theorem crash_migrate (h : Crash engine anyOutcome migrate db db') :
    Grows db db' ∧ SameData db db' :=
  crash_schema (returns_migrate
    { migrationRules_alone anyOutcome with benign := False.elim, kind := False.elim } False.elim) h

/-- What changes of the schema keep, and runs too, holds to the end. -/
theorem EmbedderHistory.keeps {P : Db → Prop} (h : EmbedderHistory U ok db₀ db) (h₀ : P db₀)
    (schema : ∀ {c c'}, P c → Grows c c' → SameData c c' → P c')
    (run : ∀ D view force e {c c'}, U e → ok e c force →
      Crash engine anyOutcome (reindexWith D view force e) c c' → P c → P c') : P db := by
  induction h with
  | start => exact h₀
  | opened e _ _ hc ih =>
    obtain ⟨hg, hd⟩ := crash_openDbWith hc
    exact schema ih hg hd
  | migrated _ hc ih =>
    obtain ⟨hg, hd⟩ := crash_migrate hc
    exact schema ih hg hd
  | reindexed D view force e _ hU hok hc ih => exact run D view force e hU hok hc ih

theorem EmbedderHistory.described (h : EmbedderHistory U (Fitting U) db₀ db)
    (h₀ : Described U db₀) : Described U db := by
  refine h.keeps h₀ Described.schema fun D view force e c c' hU hfit hc hdescribed => ?_
  rcases crash_of_wp (guards_reindexWith D view force hU hdescribed hfit) hc with rfl | h
  · exact hdescribed
  · exact h

/-- A database this version can migrate and run on: no `files_new` table, a stamp
it accepts, and placeholder rows only before the first run. -/
structure Usable (c : Db) : Prop where
  filesNew : c.filesNew = none
  stamped : c.Stamped
  rows : NoPlaceholder c ∨ ∀ r ∈ c.fileEntries, r.repoId = migrationPlaceholderRepoId

theorem Usable.schema {c c' : Db} (h : Usable c) (hg : Grows c c') (hd : SameData c c') :
    Usable c' where
  filesNew := hg.filesNew h.filesNew
  stamped := hg.stamped h.stamped
  rows := by
    unfold NoPlaceholder
    rw [hd.files]
    exact h.rows

/-- A run keeps the schema. -/
theorem crash_reindexWith_shape {D : Deps} {view : RepoView} {force : Bool} {e : Embedder}
    (h : Crash engine anyOutcome (reindexWith D view force e) db db') : db'.shape = db.shape := by
  have hR := repoIdFor_ne_placeholder D view.canonicalRoot
  have hwp := wp_only (E := engine)
    (U := crashRules anyOutcome fun c : Db => c.shape = db.shape) (K := fun c => c.shape = db.shape)
    (G := fun a b => b.shape = a.shape) (c := db) (fun _ => rfl) (fun _ _ _ h h' => h'.trans h)
    (fun _ _ _ _ _ hs hx => (exec_runStmt hR hs hx).1) (fun _ _ ha h => h.trans ha)
    (fun _ _ hb ha => by cases hb; exact ha) (fun _ _ ha h => .inr (h.trans ha))
    (t := .idle) (only_reindexWith (runAllows_runStmt D _ e) (fun _ _ => trivial) force) rfl (fun w hw => by cases hw)
  rcases crash_of_wp hwp h with rfl | h
  · rfl
  · exact h

theorem EmbedderHistory.usable (h : EmbedderHistory U ok db₀ db) (h₀ : Usable db₀) : Usable db := by
  refine h.keeps h₀ Usable.schema fun D view force e c c' _ _ hc husable => ?_
  have hg := grows_of_shape (crash_reindexWith_shape hc)
  refine ⟨hg.filesNew husable.filesNew, hg.stamped husable.stamped, ?_⟩
  rcases crash_reindexWith_placeholder hc with rfl | h
  · exact husable.rows
  · exact .inl h

theorem Usable.noConflict {c : Db} {repoId : Text} (h : Usable c)
    (hR : repoId ≠ migrationPlaceholderRepoId) : NoConflict repoId c.fileEntries := by
  intro r hr s hs hrp hsR
  rcases h.rows with hno | hall
  · exact absurd hrp (hno r hr)
  · exact absurd (hsR.symm.trans (hall s hs)) hR

end

/-! ## A full run of any embedder -/

section
variable {U : Embedder → Prop} {e : Embedder} {ix : Index} {db db' : Db}

/-- Opening with an embedder gives a new `chunks_vec` its width. -/
theorem width_openAndMigrate {allow : Req Stmt → Outcome RowId SqlError → Db → Txn Db → Prop}
    (hfit : ∀ v, db.chunksVec = some v → v.width = e.dim)
    (hf : Finishes engine allow (openAndMigrate e.dim) db (.ok ()) db') :
    ∃ v, db'.chunksVec = some v ∧ v.width = e.dim := by
  have H : MigrationRules (migratingAlone allow) False :=
    { migrationRules_alone allow with benign := False.elim, kind := False.elim }
  have hopen : Returns engine (migratingAlone allow) False (openDbWith e.dim) db .idle
      fun _ c t => t = .idle ∧ ∃ v, c.chunksVec = some v ∧ v.width = e.dim := by
    unfold openDbWith
    rw [batch_stmt_cons, batch_stmt_cons]
    refine returns_bind (P := fun _ c t => t = .idle ∧ c.chunksVec = db.chunksVec) ?_ fun _ c₁ t h => ?_
    · refine returns_schema H (fun c₁ x r c₂ _ hr _ hx => ?_) False.elim
      obtain ⟨hg, hd, -⟩ := exec_createChunks hx
      cases hx
      cases hr
      exact ⟨hg, hd, rfl, rfl⟩
    obtain ⟨rfl, hv₁⟩ := h
    refine returns_bind (P := fun _ c t => t = .idle ∧
      c.chunksVec = some (c₁.chunksVec.getD ⟨e.dim, .empty⟩)) ?_ fun _ c₂ t h => ?_
    · refine returns_schema H (fun c₂ x r c₃ _ hr _ hx => ?_) False.elim
      obtain ⟨hg, hd, hv⟩ := exec_createChunksVec hx
      cases hr
      exact ⟨hg, hd, rfl, hv⟩
    obtain ⟨rfl, hv₂⟩ := h
    refine returns_pure ⟨rfl, _, hv₂, ?_⟩
    rw [hv₁]
    cases hv : db.chunksVec with
    | none => rfl
    | some v => exact hfit v hv
  have hall : Returns engine (migratingAlone allow) False (openAndMigrate e.dim) db .idle
      fun _ c _ => ∃ v, c.chunksVec = some v ∧ v.width = e.dim := by
    refine returns_bind hopen fun _ c t h => ?_
    obtain ⟨rfl, v, hv, hw⟩ := h
    refine returns_mono ?_ (returns_migrate H False.elim)
    rintro _ c' t ⟨-, hg, -⟩
    obtain ⟨v', hv', hw'⟩ := hg.vec v hv
    exact ⟨v', hv', hw'.trans hw⟩
  obtain ⟨t, h⟩ := (returns_finishes hall hf).1 () rfl
  exact h

theorem succeeds_readMeta (key : Text) :
    Succeeds (readMeta key) ix fun v ix' => ix' = ix ∧ v = ix.toDb.metaValue key :=
  succeeds_execute fun _ => ⟨_, ix, rfl, rfl, rfl⟩

/-- The embedder an index is recorded as passes the check. -/
theorem succeeds_verifyEmbedderMeta (h : Owned U e ix.toDb) :
    Succeeds (verifyEmbedderMeta e.id e.dim) ix fun _ ix' => ix' = ix := by
  refine succeeds_bind (P := fun v ix' => ix' = ix ∧ v = some (e.id, e.dim)) ?_ fun v ix' hv => ?_
  · refine succeeds_bind (succeeds_readMeta metaEmbedderId) fun id ix₁ h₁ => ?_
    obtain ⟨rfl, rfl⟩ := h₁
    refine succeeds_bind (succeeds_readMeta metaEmbedderDim) fun dimS ix₂ h₂ => ?_
    obtain ⟨rfl, rfl⟩ := h₂
    obtain ⟨s, hs, hdim⟩ := Option.bind_eq_some_iff.1 h.dim
    rw [h.id, hs]
    simp only [hdim]
    exact succeeds_pure ⟨rfl, rfl⟩
  · obtain ⟨rfl, rfl⟩ := hv
    simp only [ne_eq, not_true_eq_false, or_self, if_false]
    exact succeeds_pure rfl

/-- On a described index whose `chunks_vec` has its width, a full run of an
embedder returns, and leaves the index its own. -/
theorem finishes_reindexWith_force {D : Deps} {view : RepoView} (hU : U e)
    (hd : Described U ix.toDb) (hi : Indexable D view.walked) (hw : ix.width = e.dim)
    (hno : NoConflict (repoIdFor D view.canonicalRoot) ix.files.rows) :
    ∃ report ix', Finishes engine noFault (reindexWith D view true e) ix.toDb (.ok report)
      (Index.toDb ix') ∧ Owned U e (Index.toDb ix') := by
  have hR := repoIdFor_ne_placeholder D view.canonicalRoot
  obtain ⟨report, ix', hf, -⟩ := succeeds_finishes
    (succeeds_reindexWith_force D e hi hw ((rewrite_isSome hR ix.files).2 hno))
  refine ⟨report, ix', hf, ?_⟩
  have hfit : Fitting U e ix.toDb true := by
    intro v hv
    cases hv
    exact hw
  obtain ⟨p, t, hrun, hr⟩ := hf
  have hany : Finishes engine anyOutcome (reindexWith D view true e) ix.toDb (.ok report)
      (Index.toDb ix') := ⟨p, t, hrun.mono fun _ _ _ _ _ => trivial, hr⟩
  obtain ⟨t', hown⟩ := wp_finishes (U := crashRules anyOutcome (Described U))
    (guards_reindexWith D view true hU hd hfit) hany
  exact hown report rfl

end

/-- From an index that records no embedder, whatever embedders open it, migrate it
and run on it, and wherever they are stopped, as long as runs start from fitting
states: what is recorded describes the vectors, and an index whose run returned
is the run's embedder's.  A full run of a fitting embedder on a migrated such
index returns, and the embedder's check then passes. -/
theorem embedders_never_mixed (U : Embedder → Prop) (db₀ db : Db)
    (hid : db₀.metaValue metaEmbedderId = none) (hdim : db₀.metaValue metaEmbedderDim = none)
    (h : EmbedderHistory U (Fitting U) db₀ db) :
    Described U db ∧
    (∀ (D : Deps) (view : RepoView) (force : Bool) (e : Embedder), U e → Fitting U e db force →
      ∀ report db', Finishes engine anyOutcome (reindexWith D view force e) db (.ok report) db' →
      Owned U e db') ∧
    (Usable db₀ → ∀ (D : Deps) (view : RepoView) (e : Embedder), U e → Fitting U e db true →
      Indexable D view.walked →
      ∃ ix : Index, Finishes engine noFault (openAndMigrate e.dim) db (.ok ()) ix.toDb ∧
        ∃ (report : ReindexReport) (ix' : Index),
          Finishes engine noFault (reindexWith D view true e) ix.toDb (.ok report) ix'.toDb ∧
          Owned U e ix'.toDb ∧
          Finishes engine noFault (verifyEmbedderMeta e.id e.dim) ix'.toDb (.ok ()) ix'.toDb) := by
  have hdes := h.described (described_unrecorded hid hdim)
  refine ⟨hdes, fun D view force e hU hfit report db' hf => ?_,
    fun husable D view e hU hfit hi => ?_⟩
  · obtain ⟨t, hown⟩ := wp_finishes (U := crashRules anyOutcome (Described U))
      (guards_reindexWith D view force hU hdes hfit) hf
    exact hown report rfl
  · have huse := h.usable husable
    obtain ⟨db₁, hopen⟩ := finishes_openAndMigrate huse.filesNew huse.stamped e.dim
    obtain ⟨ix, rfl, -⟩ := index_openAndMigrate huse.filesNew hopen
    obtain ⟨v, hv, hw⟩ := width_openAndMigrate hfit hopen
    cases hv
    obtain ⟨hg, hd⟩ := crash_openAndMigrate hopen.crash
    have hno := (huse.schema hg hd).noConflict (repoIdFor_ne_placeholder D view.canonicalRoot)
    obtain ⟨report, ix', hf, hown⟩ := finishes_reindexWith_force hU (hdes.schema hg hd) hi hw hno
    obtain ⟨_, ix'', hverify, hsame⟩ := succeeds_finishes (succeeds_verifyEmbedderMeta hown)
    rw [hsame] at hverify
    exact ⟨ix, hopen, report, ix', hf, hown, hverify⟩

/-- A new database opened by an embedder of one dimension, then migrated, then
indexed by it. -/
def openedDb : Db := (replay engine (succeed 10) (openDbWith 1) Db.empty .idle).2.1
def migratedDb : Db := (replay engine (succeed 40) migrate openedDb .idle).2.1
def narrowDb : Db :=
  (replay engine (succeed 40) (reindexWith .plain oneFileView true oneFileEmbedder) migratedDb
    .idle).2.1

/-- Another embedder of one dimension. -/
def secondEmbedder : Embedder := .const "n".toList 1 1 oneFileEmbedder.dim_lt

/-- One of the two embedders of one dimension. -/
def OfTwo (e : Embedder) : Prop := e = oneFileEmbedder ∨ e = secondEmbedder

theorem anyOutcome_of (o : Outcome RowId SqlError) (q : Req Stmt) (c : Db) (t : Txn Db) :
    anyOutcome q o c t := trivial

/-- The history of a database that an embedder opened, migrated and indexed, each as far as it
got. -/
theorem history_played {U : Embedder → Prop} {ok : Embedder → Db → Bool → Prop} {e : Embedder}
    (hU : U e) (i j k : Nat) :
    let opened := (replay engine (succeed i) (openDbWith e.dim) Db.empty .idle).2.1
    let migrated := (replay engine (succeed j) migrate opened .idle).2.1
    ok e migrated true → EmbedderHistory U ok Db.empty
      (replay engine (succeed k) (reindexWith .plain oneFileView true e) migrated .idle).2.1 := by
  intro opened migrated hok
  have hopened : EmbedderHistory U ok Db.empty opened :=
    .opened e .start hU (crash_replay _ (fun o _ => anyOutcome_of o) _ _)
  have hmigrated : EmbedderHistory U ok Db.empty migrated :=
    .migrated hopened (crash_replay _ (fun o _ => anyOutcome_of o) _ _)
  exact .reindexed .plain oneFileView true e hmigrated hU hok
    (crash_replay _ (fun o _ => anyOutcome_of o) _ _)

theorem history_narrowDb {U : Embedder → Prop} {ok : Embedder → Db → Bool → Prop}
    (hU : U oneFileEmbedder) (hok : ok oneFileEmbedder migratedDb true) :
    EmbedderHistory U ok Db.empty narrowDb := history_played hU 10 40 40 hok

/-- The index of the first embedder is described; a full run of the second makes it its own. -/
theorem embedders_never_mixed_second :
    EmbedderHistory OfTwo (Fitting OfTwo) Db.empty narrowDb ∧
    narrowDb.embedder = some (oneFileEmbedder.id, 1) ∧ narrowDb.vecRows.length = 1 ∧
    Described OfTwo narrowDb ∧
    ∃ ix : Index, Finishes engine noFault (openAndMigrate 1) narrowDb (.ok ()) ix.toDb ∧
      ∃ (report : ReindexReport) (ix' : Index),
        Finishes engine noFault (reindexWith .plain oneFileView true secondEmbedder) ix.toDb
          (.ok report) ix'.toDb ∧
        Owned OfTwo secondEmbedder ix'.toDb ∧
        Finishes engine noFault (verifyEmbedderMeta secondEmbedder.id 1) ix'.toDb (.ok ())
          ix'.toDb := by
  have husable : Usable Db.empty := ⟨rfl, fun s hs => (by cases hs), .inl fun r hr => (by cases hr)⟩
  have hi : Indexable .plain oneFileView.walked :=
    ⟨by decide +kernel, by decide +kernel, by decide +kernel, by decide +kernel⟩
  have hfit : ∀ c : Db, (c.chunksVec.map fun v => v.width) = some 1 → ∀ e : Embedder, e.dim = 1 →
      Fitting OfTwo e c true := by
    intro c hwidth e he v hv
    rw [hv] at hwidth
    rw [he]
    exact Option.some.inj hwidth
  have hhistory : EmbedderHistory OfTwo (Fitting OfTwo) Db.empty narrowDb :=
    history_narrowDb (.inl rfl) (hfit migratedDb (by decide +kernel) oneFileEmbedder rfl)
  obtain ⟨hdescribed, -, hnext⟩ := embedders_never_mixed OfTwo Db.empty narrowDb rfl rfl hhistory
  exact ⟨hhistory, by decide +kernel, by decide +kernel, hdescribed,
    hnext husable .plain oneFileView secondEmbedder (.inr rfl)
      (hfit narrowDb (by decide +kernel) secondEmbedder rfl) hi⟩

/-! ## Changing the dimension -/

/-- Another embedder, of two dimensions. -/
def wideEmbedder : Embedder := .const "w".toList 2 0 (by decide)

/-- What a full run of the wider embedder leaves. -/
def widenedDb : Db :=
  (replay engine (succeed 40) (reindexWith .plain oneFileView true wideEmbedder) narrowDb .idle).2.1

/-- The full run that changes the dimension, as the mismatch error advises, is
refused at its first vector, and the index records an embedder of two dimensions
over vectors of one. -/
theorem force_mixes_dimensions :
    EmbedderHistory (fun _ => True) (fun _ _ _ => True) Db.empty narrowDb ∧
    Finishes engine noFault (reindexWith .plain oneFileView true wideEmbedder) narrowDb
      (.error (.context "insert chunk".toList (.context "insert chunk embedding".toList
        (.sql .dimensionMismatch)))) widenedDb ∧
    EmbedderHistory (fun _ => True) (fun _ _ _ => True) Db.empty widenedDb ∧
    widenedDb.embedder = some (wideEmbedder.id, 2) ∧
    widenedDb.chunksVec = some ⟨1, .empty⟩ ∧ ¬ Described (fun _ => True) widenedDb := by
  have quiet : ∀ o ∈ succeed 40, ∀ (q : Req Stmt) (c : Db) (t : Txn Db), noFault q o c t :=
    fun o ho _ _ _ => ⟨7, (List.mem_replicate.1 ho).2⟩
  have hnarrow : EmbedderHistory (fun _ => True) (fun _ _ _ => True) Db.empty narrowDb :=
    history_narrowDb trivial trivial
  have hwidened : EmbedderHistory (fun _ => True) (fun _ _ _ => True) Db.empty widenedDb :=
    .reindexed .plain oneFileView true wideEmbedder hnarrow trivial trivial
      (crash_replay _ (fun o _ => anyOutcome_of o) _ _)
  have hdim : widenedDb.recordedDim = some 2 := by decide +kernel
  have hvec : widenedDb.chunksVec = some ⟨1, .empty⟩ := by decide +kernel
  refine ⟨hnarrow, ⟨_, _, run_replay _ quiet _ _ _, by decide +kernel⟩, hwidened,
    by decide +kernel, hvec, fun hd => ?_⟩
  obtain ⟨v, hv, hw⟩ := hd.width 2 hdim
  rw [hvec] at hv
  cases hv
  cases hw

end CodeSearch
