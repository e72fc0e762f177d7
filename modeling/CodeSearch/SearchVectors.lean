import CodeSearch.EmbedderMeta
import CodeSearch.Hits

/-!
# Whose vectors a search compares

Runs of any embedders, full and incremental, stopped anywhere, on one new database:
`Unmixed U c` says that without a recorded embedder there is no vector, and that every
vector was made by an embedder with the recorded id and dimension.  Unlike `Described` it
asks nothing of the width of `chunks_vec`, and every such history keeps it
(`EmbedderHistory.unmixed`).  A search that opens the database compares its query with
vectors of its own embedder's id and dimension only (`search_own_vectors`).
-/

namespace CodeSearch

open Relational Store

/-- What is recorded describes the vectors. -/
structure Unmixed (U : Embedder → Prop) (c : Db) : Prop where
  unrecorded : c.embedder = none → c.vecRows = []
  made : ∀ id dim, c.embedder = some (id, dim) → ∀ r ∈ c.vecRows, Made U id dim r.embedding

/-- The index is recorded as the embedder's, and so are its vectors. -/
structure VectorsOf (U : Embedder → Prop) (e : Embedder) (c : Db) : Prop where
  id : c.metaValue metaEmbedderId = some e.id
  dim : c.recordedDim = some e.dim
  made : ∀ r ∈ c.vecRows, Made U e.id e.dim r.embedding

section
variable {U : Embedder → Prop} {e : Embedder} {repoId : Text} {c c' : Db}

theorem unmixed_of_empty (h : c.vecRows = []) : Unmixed U c where
  unrecorded _ := h
  made _ _ _ r hr := by
    rw [h] at hr
    cases hr

theorem VectorsOf.unmixed (h : VectorsOf U e c) : Unmixed U c := by
  have hrecorded : c.embedder = some (e.id, e.dim) := embedder_eq_some.2 ⟨h.id, h.dim⟩
  constructor
  · intro hnone
    rw [hrecorded] at hnone
    cases hnone
  · intro id dim hsome
    rw [hrecorded] at hsome
    cases hsome
    exact h.made

/-- What is recorded and what is stored is as before. -/
theorem Unmixed.same (h : Unmixed U c) (hembedder : c'.embedder = c.embedder)
    (hrows : c'.vecRows = c.vecRows) : Unmixed U c' := by
  constructor
  · rw [hembedder, hrows]
    exact h.unrecorded
  · rw [hembedder, hrows]
    exact h.made

theorem Unmixed.schema (h : Unmixed U c) (hd : SameData c c') : Unmixed U c' := by
  refine h.same ?_ hd.vec
  unfold Db.embedder Db.recordedDim
  rw [metaValue_otherMeta c' (by decide), metaValue_otherMeta c' (by decide),
    metaValue_otherMeta c (by decide), metaValue_otherMeta c (by decide), hd.otherMeta]

/-! ## A run -/

theorem vectorsOf_runStmt {s : Stmt} {x : RowId} {r : s.Resp} (hU : U e) (hs : RunStmt repoId e s)
    (hx : exec s x c = .ok (r, c')) (h : VectorsOf U e c) : VectorsOf U e c' := by
  have hrec := records_runStmt hs hx
  constructor
  · exact hrec.id.elim (fun hid => hid.trans h.id) id
  · exact hrec.dim.elim (fun hdim => hdim.trans h.dim) id
  · intro row hrow
    rcases hrec.vec row hrow with hold | ⟨text, htext⟩
    · exact h.made row hold
    · exact ⟨e, hU, rfl, rfl, text, htext⟩

theorem guards_vectorsOf {α : Type} {p : Sql α} (hU : U e) (hp : p.Only (RunStmt repoId e))
    (h : VectorsOf U e c) :
    wp engine (crashRules anyOutcome (Unmixed U)) p (fun _ c' _ => VectorsOf U e c') c .idle :=
  wp_only (U := crashRules anyOutcome (Unmixed U)) (K := VectorsOf U e)
    (G := fun a b => VectorsOf U e a → VectorsOf U e b) (fun _ h => h) (fun _ _ _ h h' ha => h' (h ha))
    (fun _ _ _ _ _ hs hx ha => vectorsOf_runStmt hU hs hx ha) (fun _ _ ha h => h ha)
    (fun _ _ hb ha => by cases hb; exact ha) (fun _ _ ha h => .inr (h ha).unmixed) hp h
    (fun _ hw => by cases hw)

theorem guards_rewrite_unmixed (h : Unmixed U c) : Guards engine anyOutcome (Unmixed U)
    (rewritePlaceholderRepoId repoId) c fun _ c' => Unmixed U c' := by
  refine guards_execute fun x r c' _ hx => ?_
  obtain ⟨t, -, hx⟩ := needFiles_bind_eq_ok.1 hx
  obtain ⟨t', -, hx⟩ := checked_bind_eq_ok.1 hx
  cases hx
  have h' : Unmixed U { c with files := some (.current t') } := h.same rfl rfl
  exact ⟨.inr h', h'⟩

/-- Recording an embedder while there are no vectors. -/
theorem guards_stamp_empty (hempty : c.vecRows = []) : Guards engine anyOutcome (Unmixed U)
    (writeEmbedderMeta e.id e.dim) c fun _ c' => VectorsOf U e c' := by
  refine guards_bind (P := fun _ c' => c'.vecRows = [] ∧ c'.metaValue metaEmbedderId = some e.id) ?_
    fun _ c₁ h₁ => ?_
  · refine guards_execute fun x r c' _ hx => ?_
    obtain ⟨m, hm, hx⟩ := need_bind_eq_ok.1 hx
    cases hx
    exact ⟨.inr (unmixed_of_empty hempty), hempty, metaValue_stamp hm⟩
  · obtain ⟨hempty₁, hid⟩ := h₁
    refine guards_execute fun x r c' _ hx => ?_
    obtain ⟨m, hm, hx⟩ := need_bind_eq_ok.1 hx
    cases hx
    refine ⟨.inr (unmixed_of_empty hempty₁), (metaValue_dim hm).trans hid, recordedDim_stamp hm, ?_⟩
    intro r hr
    change r ∈ c₁.vecRows at hr
    rw [hempty₁] at hr
    cases hr

/-- After its check an incremental run has an index of its own embedder's vectors. -/
theorem guards_checkEmbedder_unmixed (h : Unmixed U c) : Guards engine anyOutcome (Unmixed U)
    (checkEmbedder e) c fun _ c' => VectorsOf U e c' := by
  refine guards_bind (guards_mapError (guards_verified e.id e.dim)) fun _ c₁ h₁ => ?_
  obtain ⟨rfl, hrecorded⟩ := h₁
  refine guards_bind guards_readEmbedderMeta fun stored c' hc => ?_
  obtain ⟨rfl, hstored⟩ := hc
  rw [hstored]
  rcases hrecorded with hnone | hsome
  · rw [hnone]
    exact guards_mapError (guards_stamp_empty (h.unrecorded hnone))
  · rw [hsome]
    obtain ⟨hid, hdim⟩ := embedder_eq_some.1 hsome
    exact guards_pure ⟨hid, hdim, h.made _ _ hsome⟩

/-- The wipe leaves no vector. -/
theorem guards_wipeAll_unmixed :
    Guards engine anyOutcome (Unmixed U) wipeAll c fun _ c' => c'.vecRows = [] := by
  refine guards_batch_txn fun t hc => ?_
  obtain ⟨-, x, _, w, -, hx, hc⟩ := completes_batch_cons.1 hc
  obtain ⟨v, hv, hx⟩ := need_bind_eq_ok.1 hx
  cases hx
  have hkeep := completes_only (φ := fun s => ∃ t, s = .deleteAll t)
    (K := fun w => ∃ v', w.chunksVec = some v' ∧ v'.width = v.width ∧ v'.table.rows = []) hc
    (only_batch _ fun s hs => by
      obtain ⟨s', hs', heq⟩ := List.mem_map.1 hs
      cases heq
      obtain ⟨t, -, rfl⟩ := List.mem_map.1 hs'
      exact ⟨t, rfl⟩)
    (fun s x w r w' hs hw hx => by
      obtain ⟨t, rfl⟩ := hs
      exact (exec_wipe (x := x) hx hw).2)
    ⟨_, rfl, rfl, rfl⟩
  obtain ⟨v', hv', -, hrows⟩ := hkeep
  have hempty : (t.view c).vecRows = [] := by
    unfold Db.vecRows
    rw [hv', Option.map_some, Option.getD_some, hrows]
  exact ⟨.inr (unmixed_of_empty hempty), hempty⟩

/-- A run of any embedder. -/
theorem guards_reindexWith_unmixed (D : Deps) (view : RepoView) (force : Bool) (hU : U e)
    (h : Unmixed U c) : wp engine (crashRules anyOutcome (Unmixed U)) (reindexWith D view force e)
      (fun r c' _ => ∀ a, r = .ok a → VectorsOf U e c') c .idle :=
  wp_reindexWith (A := Unmixed U) (B := fun c => c.vecRows = []) D view force (guards_rewrite_unmixed h)
    (fun _ _ h₁ => guards_checkEmbedder_unmixed h₁) (fun _ _ _ => guards_wipeAll_unmixed)
    (fun _ h₂ => guards_stamp_empty h₂) (fun hp hc => guards_vectorsOf hU hp hc)

end

/-! ## A search -/

/-- No history of a new database mixes vectors. -/
theorem EmbedderHistory.unmixed {U : Embedder → Prop} {ok : Embedder → Db → Bool → Prop}
    {db₀ db : Db} (h : EmbedderHistory U ok db₀ db) (h₀ : Unmixed U db₀) : Unmixed U db := by
  refine h.keeps h₀ (fun h _ hd => h.schema hd) fun D view force e c c' hU _ hc hunmixed => ?_
  rcases crash_of_wp (guards_reindexWith_unmixed D view force hU hunmixed) hc with rfl | h
  · exact hunmixed
  · exact h

/-- Whatever embedders ran on a new database, and wherever they were stopped: once a search has
it open, every vector that it can compare its query with was made by an embedder with the id
and the dimension of its own. -/
theorem search_own_vectors (U : Embedder → Prop) (db db' : Db)
    (h : EmbedderHistory U (fun _ _ _ => True) Db.empty db) (e : QueryEmbedder)
    (allow : Req Stmt → Outcome RowId SqlError → Db → Txn Db → Prop)
    (hopen : Finishes engine allow (openIndex e) db (.ok ()) db') :
    ∀ r ∈ db'.vecRows, Made U e.id e.dim r.embedding := by
  obtain ⟨hdata, hrecorded⟩ := finishes_openIndex hopen
  have hunmixed : Unmixed U db' := (h.unmixed (unmixed_of_empty rfl)).schema hdata
  rcases hrecorded with hnone | hsome
  · intro r hr
    rw [hunmixed.unrecorded hnone] at hr
    cases hr
  · exact hunmixed.made _ _ hsome

/-- After the run of the wider embedder that is refused at its first vector, a full run of the
second. -/
def secondDb : Db :=
  (replay engine (succeed 40) (reindexWith .plain oneFileView true secondEmbedder) widenedDb
    .idle).2.1

def secondQuery : QueryEmbedder := { secondEmbedder with embedQuery := fun _ => [0] }

/-- A search with the second embedder opens it. -/
def secondOpened : Db := (replay engine (succeed 60) (openIndex secondQuery) secondDb .idle).2.1

/-- Three embedders ran on the index, and all vectors are the last one's. -/
theorem search_own_vectors_second :
    narrowDb.vecRows.map (·.embedding) = [[0, 0, 0, 0]] ∧
    Finishes engine anyOutcome (openIndex secondQuery) secondDb (.ok ()) secondOpened ∧
    secondOpened.vecRows.map (·.embedding) = [[1, 0, 0, 0]] ∧
    ∀ r ∈ secondOpened.vecRows, Made (fun e => e ∈ [oneFileEmbedder, wideEmbedder, secondEmbedder])
      secondEmbedder.id 1 r.embedding := by
  have hnarrow : EmbedderHistory (fun e => e ∈ [oneFileEmbedder, wideEmbedder, secondEmbedder])
      (fun _ _ _ => True) Db.empty narrowDb := history_narrowDb (.head _) trivial
  have hwidened : EmbedderHistory (fun e => e ∈ [oneFileEmbedder, wideEmbedder, secondEmbedder])
      (fun _ _ _ => True) Db.empty widenedDb :=
    .reindexed .plain oneFileView true wideEmbedder hnarrow (.tail _ (.head _)) trivial
      (crash_replay _ (fun o _ => anyOutcome_of o) _ _)
  have hsecond : EmbedderHistory (fun e => e ∈ [oneFileEmbedder, wideEmbedder, secondEmbedder])
      (fun _ _ _ => True) Db.empty secondDb :=
    .reindexed .plain oneFileView true secondEmbedder hwidened (.tail _ (.tail _ (.head _))) trivial
      (crash_replay _ (fun o _ => anyOutcome_of o) _ _)
  have hopen : Finishes engine anyOutcome (openIndex secondQuery) secondDb (.ok ()) secondOpened :=
    finishes_replay (fun o (_ : o ∈ succeed 60) => anyOutcome_of o) (by decide +kernel)
  exact ⟨by decide +kernel, hopen, by decide +kernel,
    search_own_vectors _ secondDb secondOpened hsecond secondQuery anyOutcome hopen⟩

end CodeSearch
