import CodeSearch.Fusion

/-!
# Dominance and promotion in a fusion

With positive weights a better rank is a higher contribution, so an id that
dominates another in both lists precedes it in the result, and an id that is moved
up in one list overtakes others and is overtaken by none.  Sums are exact, for
every `k_rrf`.
-/

namespace CodeSearch

open Ranking

section
variable {F : Type} [Field F] [LinearOrder F]

/-! ## The ids of a result -/

variable {order : Order Text F} {bm25 : List (Text × Float)} {vector : List KnnHit} {kRrf : Nat}
  {bm25Weight vectorWeight : F}

/-- The ids of the result, best first. -/
def fusedIds (order : Order Text F) (bm25 : List (Text × Float)) (vector : List KnnHit)
    (kRrf : Nat) (bm25Weight vectorWeight : F) : List Text :=
  (rrfFuseWeighted .exact order bm25 vector kRrf bm25Weight vectorWeight).map Prod.fst

theorem mem_fusedIds {id : Text} : id ∈ fusedIds order bm25 vector kRrf bm25Weight vectorWeight ↔
    id ∈ bm25.map Prod.fst ∨ id ∈ vector.map KnnHit.chunkId := by
  constructor
  · intro h
    obtain ⟨⟨_, score⟩, hmem, rfl⟩ := List.mem_map.1 h
    exact ((mem_rrfFuseWeighted (.inl rfl) _ _).1 hmem).1
  · intro h
    exact List.mem_map.2 ⟨(id, _), (mem_rrfFuseWeighted (.inl rfl) id _).2 ⟨h, rfl⟩, rfl⟩

/-- They are ordered by the three keys of their scores. -/
theorem pairwise_fusedIds :
    (fusedIds order bm25 vector kRrf bm25Weight vectorWeight).Pairwise fun a b =>
      RankedBefore (bm25.map Prod.fst)
        (a, fusedScore kRrf bm25Weight vectorWeight (bm25.map Prod.fst)
          (vector.map KnnHit.chunkId) a)
        (b, fusedScore kRrf bm25Weight vectorWeight (bm25.map Prod.fst)
          (vector.map KnnHit.chunkId) b) := by
  refine List.pairwise_map.2 (ranked_rrfFuseWeighted.imp_of_mem fun {a b} ha hb h => ?_)
  obtain ⟨a, sa⟩ := a
  obtain ⟨b, sb⟩ := b
  have hsa := ((mem_rrfFuseWeighted (.inl rfl) a sa).1 ha).2
  have hsb := ((mem_rrfFuseWeighted (.inl rfl) b sb).1 hb).2
  subst hsa hsb
  exact h

/-- A higher score comes first. -/
theorem before_of_score {a b : Text}
    (ha : a ∈ fusedIds order bm25 vector kRrf bm25Weight vectorWeight)
    (h : fusedScore kRrf bm25Weight vectorWeight (bm25.map Prod.fst) (vector.map KnnHit.chunkId) b <
      fusedScore kRrf bm25Weight vectorWeight (bm25.map Prod.fst) (vector.map KnnHit.chunkId) a) :
    firstRank (fusedIds order bm25 vector kRrf bm25Weight vectorWeight) a <
      firstRank (fusedIds order bm25 vector kRrf bm25Weight vectorWeight) b := by
  refine firstRank_lt_of_rel pairwise_fusedIds ha (fun hab => ?_) fun hba => ?_
  · rw [hab] at h
    exact lt_irrefl _ h
  · rcases hba with hba | ⟨heq, -⟩
    · exact lt_asymm h hba
    · exact h.ne heq

/-- What comes first has no lower score. -/
theorem score_le_of_before {a b : Text}
    (hb : b ∈ fusedIds order bm25 vector kRrf bm25Weight vectorWeight)
    (h : firstRank (fusedIds order bm25 vector kRrf bm25Weight vectorWeight) a <
      firstRank (fusedIds order bm25 vector kRrf bm25Weight vectorWeight) b) :
    fusedScore kRrf bm25Weight vectorWeight (bm25.map Prod.fst) (vector.map KnnHit.chunkId) b ≤
      fusedScore kRrf bm25Weight vectorWeight (bm25.map Prod.fst) (vector.map KnnHit.chunkId) a := by
  rcases rel_of_firstRank_lt pairwise_fusedIds hb h with hlt | ⟨heq, -⟩
  · exact hlt.le
  · exact heq.ge

/-- One list is changed, by promoting `b` in it. -/
def PromotedIn (b : Text) (bm25 bm25' : List (Text × Float)) (vector vector' : List KnnHit) : Prop :=
  Promoted b (bm25.map Prod.fst) (bm25'.map Prod.fst) ∧
      vector'.map KnnHit.chunkId = vector.map KnnHit.chunkId ∨
    Promoted b (vector.map KnnHit.chunkId) (vector'.map KnnHit.chunkId) ∧
      bm25'.map Prod.fst = bm25.map Prod.fst

variable {bm25' : List (Text × Float)} {vector' : List KnnHit}

theorem PromotedIn.mem {b : Text} (h : PromotedIn b bm25 bm25' vector vector') :
    b ∈ fusedIds order bm25' vector' kRrf bm25Weight vectorWeight := by
  rcases h with ⟨hp, -⟩ | ⟨hp, -⟩
  · exact mem_fusedIds.2 (.inl hp.mem)
  · exact mem_fusedIds.2 (.inr hp.mem)

theorem PromotedIn.mem_other {b c : Text} (h : PromotedIn b bm25 bm25' vector vector')
    (hne : c ≠ b) : c ∈ fusedIds order bm25' vector' kRrf bm25Weight vectorWeight ↔
      c ∈ fusedIds order bm25 vector kRrf bm25Weight vectorWeight := by
  rw [mem_fusedIds, mem_fusedIds]
  rcases h with ⟨hp, hsame⟩ | ⟨hp, hsame⟩
  · rw [hsame, hp.mem_iff hne]
  · rw [hsame, hp.mem_iff hne]

variable [IsStrictOrderedRing F]

/-! ## Contributions -/

/-- A better rank contributes more. -/
theorem rankTerm_lt {kRrf : Nat} {weight : F} (hw : 0 < weight) {ids ids' : List Text} {a b : Text}
    (h : firstRank ids a < firstRank ids' b) :
    rankTerm kRrf weight (firstRank ids' b) < rankTerm kRrf weight (firstRank ids a) := by
  have ha : a ∈ ids := firstRank_lt_top.1 (h.trans_le le_top)
  rw [firstRank_of_mem ha] at h ⊢
  have hpos : (0 : F) < (kRrf + (ids.idxOf a + 1) : Nat) := Nat.cast_pos.2 (by omega)
  by_cases hb : b ∈ ids'
  · rw [firstRank_of_mem hb] at h ⊢
    have hlt : ids.idxOf a + 1 < ids'.idxOf b + 1 := WithTop.coe_lt_coe.1 h
    exact div_lt_div_of_pos_left hw hpos (Nat.cast_lt.2 (by omega))
  · rw [firstRank_of_notMem hb]
    exact div_pos hw hpos

theorem rankTerm_le {kRrf : Nat} {weight : F} (hw : 0 < weight) {ids ids' : List Text} {a b : Text}
    (h : firstRank ids a ≤ firstRank ids' b) :
    rankTerm kRrf weight (firstRank ids' b) ≤ rankTerm kRrf weight (firstRank ids a) := by
  rcases h.eq_or_lt with heq | hlt
  · rw [heq]
  · exact (rankTerm_lt hw hlt).le

/-! ## Dominance -/

/-- Ahead in one list and not behind in the other. -/
def Dominates (bm25 : List (Text × Float)) (vector : List KnnHit) (a b : Text) : Prop :=
  firstRank (bm25.map Prod.fst) a < firstRank (bm25.map Prod.fst) b ∧
      firstRank (vector.map KnnHit.chunkId) a ≤ firstRank (vector.map KnnHit.chunkId) b ∨
    firstRank (vector.map KnnHit.chunkId) a < firstRank (vector.map KnnHit.chunkId) b ∧
      firstRank (bm25.map Prod.fst) a ≤ firstRank (bm25.map Prod.fst) b

theorem before_of_dominates (hb : 0 < bm25Weight) (hv : 0 < vectorWeight) {a b : Text}
    (h : Dominates bm25 vector a b) :
    firstRank (fusedIds order bm25 vector kRrf bm25Weight vectorWeight) a <
      firstRank (fusedIds order bm25 vector kRrf bm25Weight vectorWeight) b := by
  rcases h with ⟨hlt, hle⟩ | ⟨hlt, hle⟩
  · refine before_of_score (mem_fusedIds.2 (.inl (firstRank_lt_top.1 (hlt.trans_le le_top)))) ?_
    exact add_lt_add_of_lt_of_le (rankTerm_lt hb hlt) (rankTerm_le hv hle)
  · refine before_of_score (mem_fusedIds.2 (.inr (firstRank_lt_top.1 (hlt.trans_le le_top)))) ?_
    exact add_lt_add_of_le_of_lt (rankTerm_le hb hle) (rankTerm_lt hv hlt)

/-! ## Promotion -/

/-- The promoted id scores higher, or nothing has changed. -/
theorem PromotedIn.self (hb : 0 < bm25Weight) (hv : 0 < vectorWeight) {b : Text}
    (h : PromotedIn b bm25 bm25' vector vector') :
    (bm25'.map Prod.fst = bm25.map Prod.fst ∧
      vector'.map KnnHit.chunkId = vector.map KnnHit.chunkId) ∨
    fusedScore kRrf bm25Weight vectorWeight (bm25.map Prod.fst) (vector.map KnnHit.chunkId) b <
      fusedScore kRrf bm25Weight vectorWeight (bm25'.map Prod.fst) (vector'.map KnnHit.chunkId)
        b := by
  rcases h with ⟨hp, hsame⟩ | ⟨hp, hsame⟩
  · rcases hp.self with heq | hlt
    · exact .inl ⟨heq, hsame⟩
    · refine .inr ?_
      unfold fusedScore
      rw [hsame]
      exact add_lt_add_of_lt_of_le (rankTerm_lt hb hlt) (le_refl _)
  · rcases hp.self with heq | hlt
    · exact .inl ⟨hsame, heq⟩
    · refine .inr ?_
      unfold fusedScore
      rw [hsame]
      exact add_lt_add_of_le_of_lt (le_refl _) (rankTerm_lt hv hlt)

/-- The others score no higher. -/
theorem PromotedIn.other (hb : 0 < bm25Weight) (hv : 0 < vectorWeight) {b c : Text}
    (h : PromotedIn b bm25 bm25' vector vector') (hne : c ≠ b) :
    fusedScore kRrf bm25Weight vectorWeight (bm25'.map Prod.fst) (vector'.map KnnHit.chunkId) c ≤
      fusedScore kRrf bm25Weight vectorWeight (bm25.map Prod.fst) (vector.map KnnHit.chunkId)
        c := by
  unfold fusedScore
  rcases h with ⟨hp, hsame⟩ | ⟨hp, hsame⟩
  · rw [hsame]
    exact add_le_add (rankTerm_le hb (hp.other hne)) (le_refl _)
  · rw [hsame]
    exact add_le_add (le_refl _) (rankTerm_le hv (hp.other hne))

/-- What was after the promoted id stays after it. -/
theorem before_of_promoted (hb : 0 < bm25Weight) (hv : 0 < vectorWeight) {b c : Text}
    (h : PromotedIn b bm25 bm25' vector vector')
    (hbc : firstRank (fusedIds order bm25 vector kRrf bm25Weight vectorWeight) b <
      firstRank (fusedIds order bm25 vector kRrf bm25Weight vectorWeight) c) :
    firstRank (fusedIds order bm25' vector' kRrf bm25Weight vectorWeight) b <
      firstRank (fusedIds order bm25' vector' kRrf bm25Weight vectorWeight) c := by
  have hne : c ≠ b := fun hcb => by
    rw [hcb] at hbc
    exact lt_irrefl _ hbc
  rcases PromotedIn.self hb hv h with ⟨hsame, hsame'⟩ | hscore
  · have hids : fusedIds order bm25' vector' kRrf bm25Weight vectorWeight =
        fusedIds order bm25 vector kRrf bm25Weight vectorWeight :=
      congrArg (List.map Prod.fst) (rrfFuseWeighted_congr hsame hsame')
    rwa [hids]
  · by_cases hc : c ∈ fusedIds order bm25 vector kRrf bm25Weight vectorWeight
    · refine before_of_score h.mem ?_
      calc _ ≤ _ := h.other hb hv hne
        _ ≤ _ := score_le_of_before hc hbc
        _ < _ := hscore
    · rw [firstRank_of_notMem (mt (h.mem_other hne).1 hc)]
      exact firstRank_lt_top.2 h.mem

end

/-- Rank fusion with positive weights respects dominance, and an id promoted in
one list keeps what was after it after it. -/
theorem rrf_fuse_weighted_monotone {F : Type} [Field F] [LinearOrder F] [IsStrictOrderedRing F]
    (order : Order Text F) (bm25 : List (Text × Float)) (vector : List KnnHit) (kRrf : Nat)
    (bm25Weight vectorWeight : F) (hb : 0 < bm25Weight) (hv : 0 < vectorWeight) :
    (∀ a b, Dominates bm25 vector a b →
      firstRank (fusedIds order bm25 vector kRrf bm25Weight vectorWeight) a <
        firstRank (fusedIds order bm25 vector kRrf bm25Weight vectorWeight) b) ∧
    ∀ (b : Text) (bm25' : List (Text × Float)) (vector' : List KnnHit),
      PromotedIn b bm25 bm25' vector vector' → ∀ c,
      firstRank (fusedIds order bm25 vector kRrf bm25Weight vectorWeight) b <
        firstRank (fusedIds order bm25 vector kRrf bm25Weight vectorWeight) c →
      firstRank (fusedIds order bm25' vector' kRrf bm25Weight vectorWeight) b <
        firstRank (fusedIds order bm25' vector' kRrf bm25Weight vectorWeight) c :=
  ⟨fun _ _ h => before_of_dominates hb hv h, fun _ _ _ h _ hbc => before_of_promoted hb hv h hbc⟩

/-- The id of both lists precedes the others. -/
theorem rrf_fuse_weighted_monotone_shared :
    (0 : Rat) < 1 ∧
    Dominates [("x".toList, -2), ("y".toList, -1)] [⟨"x".toList, 0⟩] "x".toList "y".toList ∧
    firstRank (fusedIds (F := Rat) .listed [("x".toList, -2), ("y".toList, -1)]
        [⟨"x".toList, 0⟩] 60 1 1) "x".toList <
      firstRank (fusedIds (F := Rat) .listed [("x".toList, -2), ("y".toList, -1)]
        [⟨"x".toList, 0⟩] 60 1 1) "y".toList := by
  have hdom : Dominates [("x".toList, -2), ("y".toList, -1)] [⟨"x".toList, 0⟩] "x".toList
      "y".toList := .inl (by decide)
  exact ⟨by decide, hdom,
    (rrf_fuse_weighted_monotone .listed _ _ 60 1 1 (by decide) (by decide)).1 _ _ hdom⟩

end CodeSearch
