import Mathlib.Algebra.Field.Rat
import Mathlib.Algebra.Order.Field.Basic
import Mathlib.Algebra.Order.Ring.Rat
import CodeSearch.Lib.Ranking
import CodeSearch.Lib.Entries
import CodeSearch.Text

/-!
# Reciprocal rank fusion

`rrfFuseWeighted` merges a lexical and a vector list by rank.  Scores are in any
ordered field, the exact arithmetic of `f64`; `usize` sums are exact or wrap
(`Sums`), and the hash map is iterated in any order.

While no sum wraps the result has each id of the two lists once, with the score of
its first positions, in the strict order of the three keys; so it depends on the two
id sequences only.  It respects dominance, and promoting an id moves nothing ahead of it.
-/

namespace CodeSearch

open Ranking

/-- How `usize` sums are computed. -/
inductive Sums where
  | exact
  | wrapping

def Sums.add : Sums → Nat → Nat → Nat
  | .exact, a, b => a + b
  | .wrapping, a, b => (a + b) % 2 ^ 64

/-- A vector hit. -/
structure KnnHit where
  chunkId : Text
  distance : Float32

/-! ## Fusion -/

section
variable {F : Type} [Field F]

/-- `(k_rrf + rank + 1) as f64`. -/
def Sums.denominator (u : Sums) (kRrf rank : Nat) : F := (u.add (u.add kRrf rank) 1 : Nat)

/-- The `bm25_rank` map: the first rank of an id wins. -/
def bm25Ranks (ids : List Text) : Entries Text Nat :=
  ids.zipIdx.foldl (fun ranks entry => ranks.orInsert entry.1 (entry.2 + 1)) .empty

/-- One round of an accumulation loop: an id already seen in this list is skipped. -/
def rankStep (u : Sums) (kRrf : Nat) (weight : F) (acc : List Text × Entries Text F)
    (entry : Text × Nat) : List Text × Entries Text F :=
  if entry.1 ∈ acc.1 then acc
  else
    (entry.1 :: acc.1,
      acc.2.alter entry.1 fun old => old.getD 0 + weight / u.denominator kRrf entry.2)

/-- Accumulate one list into the fused scores. -/
def addRanks (u : Sums) (kRrf : Nat) (weight : F) (ids : List Text) (fused : Entries Text F) :
    Entries Text F :=
  (ids.zipIdx.foldl (rankStep u kRrf weight) ([], fused)).2

section
variable [LinearOrder F]

/-- Fused score descending, BM25 rank ascending, id ascending. -/
def fusedCmp (bm25Rank : Text → Nat) (a b : Text × F) : Ordering :=
  ((compare b.2 a.2).then (compare (bm25Rank a.1) (bm25Rank b.1))).then (compare a.1 b.1)

/-- Weighted reciprocal rank fusion. -/
def rrfFuseWeighted (u : Sums) (order : Order Text F) (bm25 : List (Text × Float))
    (vector : List KnnHit) (kRrf : Nat) (bm25Weight vectorWeight : F) : List (Text × F) :=
  let bm25Rank := bm25Ranks (bm25.map Prod.fst)
  let fused := addRanks u kRrf bm25Weight (bm25.map Prod.fst) .empty
  let fused := addRanks u kRrf vectorWeight (vector.map KnnHit.chunkId) fused
  let sentinel := bm25.length + vector.length + 1
  sortBy (fusedCmp fun id => (bm25Rank.get? id).getD sentinel) (order.iter fused)

/-- Reciprocal rank fusion with equal weights. -/
def rrfFuse (u : Sums) (order : Order Text F) (bm25 : List (Text × Float)) (vector : List KnnHit)
    (kRrf : Nat) : List (Text × F) :=
  rrfFuseWeighted u order bm25 vector kRrf 1 1

end

/-! ## What the loops compute -/

/-- The contribution of a list in which the id has this rank. -/
def rankTerm (kRrf : Nat) (weight : F) : WithTop Nat → F
  | none => 0
  | some r => weight / (kRrf + r : Nat)

@[simp] theorem rankTerm_top (kRrf : Nat) (weight : F) : rankTerm kRrf weight ⊤ = 0 := rfl

@[simp] theorem rankTerm_some (kRrf : Nat) (weight : F) (r : Nat) :
    rankTerm kRrf weight (WithTop.some r) = weight / (kRrf + r : Nat) := rfl

/-- The sum over the lists of the contribution of the first rank. -/
def fusedScore (kRrf : Nat) (bm25Weight vectorWeight : F) (lexical vector : List Text) (id : Text) :
    F :=
  rankTerm kRrf bm25Weight (firstRank lexical id) + rankTerm kRrf vectorWeight (firstRank vector id)

theorem get?_rankSteps (u : Sums) (kRrf : Nat) (weight : F) (ids : List Text) (id : Text) :
    ∀ (n : Nat) (seen : List Text) (fused : Entries Text F),
    ((ids.zipIdx n).foldl (rankStep u kRrf weight) (seen, fused)).2.get? id =
      if id ∈ ids ∧ id ∉ seen then
        some ((fused.get? id).getD 0 + weight / u.denominator kRrf (n + ids.idxOf id))
      else fused.get? id := by
  induction ids with
  | nil => intro n seen fused; simp
  | cons x ids ih =>
    intro n seen fused
    have hidx : id ≠ x → n + 1 + ids.idxOf id = n + (x :: ids).idxOf id := by
      intro hid
      rw [List.idxOf_cons_ne _ (Ne.symm hid)]
      omega
    rw [List.zipIdx_cons, List.foldl_cons, rankStep]
    by_cases hx : x ∈ seen
    · rw [if_pos hx, ih]
      by_cases hid : id = x
      · subst hid
        simp [hx]
      · rw [hidx hid]
        simp [hid]
    · rw [if_neg hx, ih, get?_alter]
      by_cases hid : id = x
      · subst hid
        simp [hx]
      · rw [hidx hid]
        simp [hid]

/-- Nothing wraps while `k_rrf` and the list fit into `usize`. -/
theorem denominator_eq {u : Sums} {kRrf rank : Nat} (h : u = .exact ∨ kRrf + rank + 1 < 2 ^ 64) :
    (u.denominator kRrf rank : F) = (kRrf + (rank + 1) : Nat) := by
  unfold Sums.denominator
  rcases h with rfl | h
  · rfl
  · cases u with
    | exact => rfl
    | wrapping =>
      show (((kRrf + rank) % 2 ^ 64 + 1) % 2 ^ 64 : Nat) = ((kRrf + (rank + 1) : Nat) : F)
      rw [Nat.mod_eq_of_lt (by omega : kRrf + rank < 2 ^ 64), Nat.mod_eq_of_lt h]
      rfl

theorem get?_addRanks {u : Sums} {kRrf : Nat} {weight : F} {ids : List Text}
    {fused : Entries Text F} (h : u = .exact ∨ kRrf + ids.length < 2 ^ 64) (id : Text) :
    (addRanks u kRrf weight ids fused).get? id =
      if id ∈ ids then some ((fused.get? id).getD 0 + rankTerm kRrf weight (firstRank ids id))
      else fused.get? id := by
  unfold addRanks
  rw [get?_rankSteps]
  by_cases hid : id ∈ ids
  · have hlt := List.idxOf_lt_length_of_mem hid
    rw [if_pos ⟨hid, List.not_mem_nil⟩, if_pos hid, firstRank_of_mem hid, Nat.zero_add,
      denominator_eq (h.imp_right fun h => by omega), rankTerm_some]
  · rw [if_neg fun h => hid h.1, if_neg hid]

theorem get?_bm25Ranks_from (ids : List Text) (id : Text) : ∀ (n : Nat) (ranks : Entries Text Nat),
    ((ids.zipIdx n).foldl (fun ranks entry => ranks.orInsert entry.1 (entry.2 + 1)) ranks).get? id =
      if id ∈ ids ∧ ranks.get? id = none then some (n + ids.idxOf id + 1) else ranks.get? id := by
  induction ids with
  | nil => intro n ranks; simp
  | cons x ids ih =>
    intro n ranks
    rw [List.zipIdx_cons, List.foldl_cons, ih, get?_orInsert]
    by_cases hid : id = x
    · subst hid
      cases hr : ranks.get? id <;> simp
    · have hidx : n + 1 + ids.idxOf id + 1 = n + (x :: ids).idxOf id + 1 := by
        rw [List.idxOf_cons_ne _ (Ne.symm hid)]; omega
      rw [hidx]
      simp [hid]

theorem get?_bm25Ranks (ids : List Text) (id : Text) :
    (bm25Ranks ids).get? id = if id ∈ ids then some (ids.idxOf id + 1) else none := by
  unfold bm25Ranks
  rw [get?_bm25Ranks_from]
  simp

end

/-! ## The order of the result -/

section
variable {F : Type} [LinearOrder F]

/-- The three keys, an id absent from the lexical list being after those in it. -/
def RankedBefore (lexical : List Text) (a b : Text × F) : Prop :=
  b.2 < a.2 ∨ a.2 = b.2 ∧ (firstRank lexical a.1 < firstRank lexical b.1 ∨
    firstRank lexical a.1 = firstRank lexical b.1 ∧ compare a.1 b.1 = .lt)

instance transCmp_fusedCmp (bm25Rank : Text → Nat) :
    Std.TransCmp (fusedCmp bm25Rank : Text × F → Text × F → Ordering) :=
  inferInstanceAs (Std.TransCmp (compareLex (compareLex
    (fun a b : Text × F => compareOn Prod.snd b a) (compareOn fun a => bm25Rank a.1))
    (compareOn Prod.fst)))

theorem fst_eq_of_fusedCmp {bm25Rank : Text → Nat} {a b : Text × F}
    (h : fusedCmp bm25Rank a b = .eq) : a.1 = b.1 := by
  unfold fusedCmp at h
  rw [Ordering.then_eq_eq] at h
  exact Std.LawfulEqOrd.eq_of_compare h.2

/-- The sentinel stands after every rank. -/
def sentinelRank (lexical : List Text) (sentinel : Nat) (id : Text) : Nat :=
  ((bm25Ranks lexical).get? id).getD sentinel

theorem sentinelRank_eq (lexical : List Text) (sentinel : Nat) (id : Text) :
    sentinelRank lexical sentinel id = if id ∈ lexical then lexical.idxOf id + 1 else sentinel := by
  unfold sentinelRank
  rw [get?_bm25Ranks]
  split <;> rfl

theorem sentinelRank_lt_iff {lexical : List Text} {sentinel : Nat} (hs : lexical.length < sentinel)
    (a b : Text) : sentinelRank lexical sentinel a < sentinelRank lexical sentinel b ↔
      firstRank lexical a < firstRank lexical b := by
  rw [sentinelRank_eq, sentinelRank_eq]
  by_cases ha : a ∈ lexical
  · have hlt := List.idxOf_lt_length_of_mem ha
    rw [if_pos ha, firstRank_of_mem ha]
    by_cases hb : b ∈ lexical
    · rw [if_pos hb, firstRank_of_mem hb, WithTop.coe_lt_coe]
    · rw [if_neg hb, firstRank_of_notMem hb]
      exact ⟨fun _ => WithTop.coe_lt_top _, fun _ => by omega⟩
  · rw [if_neg ha, firstRank_of_notMem ha]
    by_cases hb : b ∈ lexical
    · have hlt := List.idxOf_lt_length_of_mem hb
      rw [if_pos hb, firstRank_of_mem hb]
      exact ⟨fun h => by omega, fun h => absurd h not_top_lt⟩
    · rw [if_neg hb, firstRank_of_notMem hb]
      simp

theorem rankedBefore_of_fusedCmp {lexical : List Text} {sentinel : Nat}
    (hs : lexical.length < sentinel) {a b : Text × F}
    (h : fusedCmp (sentinelRank lexical sentinel) a b = .lt) : RankedBefore lexical a b := by
  unfold fusedCmp at h
  rw [Ordering.then_eq_lt, Ordering.then_eq_lt, Ordering.then_eq_eq] at h
  rcases h with (hscore | ⟨heq, hrank⟩) | ⟨⟨heq, hrank⟩, hid⟩
  · exact .inl (compare_lt_iff_lt.1 hscore)
  · refine .inr ⟨(compare_eq_iff_eq.1 heq).symm, .inl ?_⟩
    exact (sentinelRank_lt_iff hs _ _).1 (compare_lt_iff_lt.1 hrank)
  · refine .inr ⟨(compare_eq_iff_eq.1 heq).symm, .inr ⟨?_, hid⟩⟩
    have hsame := compare_eq_iff_eq.1 hrank
    have hle := mt (sentinelRank_lt_iff hs b.1 a.1).2 (by omega)
    have hge := mt (sentinelRank_lt_iff hs a.1 b.1).2 (by omega)
    exact le_antisymm (not_lt.1 hle) (not_lt.1 hge)

/-- The entries of a map differ in their ids. -/
theorem distinct_iter (order : Order Text F) (m : Entries Text F) (bm25Rank : Text → Nat) :
    (order.iter m).Pairwise fun a b => fusedCmp bm25Rank a b ≠ .eq :=
  (List.pairwise_map.1 (order.nodup_iter m)).imp fun h he => h (fst_eq_of_fusedCmp he)

end

/-! ## The result of a fusion -/

section
variable {F : Type} [Field F]

/-- Sums that do not wrap on these lists. -/
def Sums.Fits (u : Sums) (kRrf : Nat) (bm25 : List (Text × Float)) (vector : List KnnHit) : Prop :=
  u = .exact ∨ kRrf + bm25.length < 2 ^ 64 ∧ kRrf + vector.length < 2 ^ 64

/-- The fused map has the ids of the two lists, each with its score. -/
theorem get?_fused {u : Sums} {bm25 : List (Text × Float)} {vector : List KnnHit} {kRrf : Nat}
    {bm25Weight vectorWeight : F} (hu : u.Fits kRrf bm25 vector) (id : Text) :
    (addRanks u kRrf vectorWeight (vector.map KnnHit.chunkId)
      (addRanks u kRrf bm25Weight (bm25.map Prod.fst) .empty)).get? id =
    if id ∈ bm25.map Prod.fst ∨ id ∈ vector.map KnnHit.chunkId then
      some (fusedScore kRrf bm25Weight vectorWeight (bm25.map Prod.fst)
        (vector.map KnnHit.chunkId) id)
    else none := by
  have hl : u = .exact ∨ kRrf + (bm25.map Prod.fst).length < 2 ^ 64 := by
    rw [List.length_map]; exact hu.imp_right And.left
  have hv : u = .exact ∨ kRrf + (vector.map KnnHit.chunkId).length < 2 ^ 64 := by
    rw [List.length_map]; exact hu.imp_right And.right
  rw [get?_addRanks hv, get?_addRanks hl, get?_empty]
  unfold fusedScore
  by_cases hb : id ∈ bm25.map Prod.fst
  · by_cases hid : id ∈ vector.map KnnHit.chunkId
    · simp [hb, hid]
    · rw [if_neg hid, if_pos hb, if_pos (.inl hb), firstRank_of_notMem hid]
      simp
  · by_cases hid : id ∈ vector.map KnnHit.chunkId
    · rw [if_pos hid, if_neg hb, if_pos (.inr hid), firstRank_of_notMem hb]
      simp
    · rw [if_neg hid, if_neg hb, if_neg fun h => h.elim hb hid]

variable [LinearOrder F] {u : Sums} {order : Order Text F} {bm25 : List (Text × Float)}
  {vector : List KnnHit} {kRrf : Nat} {bm25Weight vectorWeight : F}

theorem mem_rrfFuseWeighted (hu : u.Fits kRrf bm25 vector) (id : Text) (score : F) :
    (id, score) ∈ rrfFuseWeighted u order bm25 vector kRrf bm25Weight vectorWeight ↔
      (id ∈ bm25.map Prod.fst ∨ id ∈ vector.map KnnHit.chunkId) ∧
        score = fusedScore kRrf bm25Weight vectorWeight (bm25.map Prod.fst)
          (vector.map KnnHit.chunkId) id := by
  unfold rrfFuseWeighted
  rw [mem_sortBy, (order.perm _).mem_iff, mem_list_iff, get?_fused hu]
  split
  · next h => rw [Option.some_inj, and_iff_right h, eq_comm]
  · next h => exact ⟨fun hno => (by cases hno), fun hin => absurd hin.1 h⟩

/-- Only ids of the two lists are fused, whatever the sums do. -/
theorem id_mem_of_mem_rrfFuseWeighted {entry : Text × F}
    (h : entry ∈ rrfFuseWeighted u order bm25 vector kRrf bm25Weight vectorWeight) :
    entry.1 ∈ bm25.map Prod.fst ∨ entry.1 ∈ vector.map KnnHit.chunkId := by
  unfold rrfFuseWeighted addRanks at h
  rw [mem_sortBy, (order.perm _).mem_iff, mem_list_iff, get?_rankSteps, get?_rankSteps] at h
  by_contra hno
  rw [not_or] at hno
  rw [if_neg fun hv => hno.2 hv.1, if_neg fun hb => hno.1 hb.1] at h
  cases h

theorem nodup_rrfFuseWeighted :
    ((rrfFuseWeighted u order bm25 vector kRrf bm25Weight vectorWeight).map Prod.fst).Nodup :=
  ((sortBy_perm _ _).map Prod.fst).nodup_iff.2 (order.nodup_iter _)

theorem ranked_rrfFuseWeighted :
    (rrfFuseWeighted u order bm25 vector kRrf bm25Weight vectorWeight).Pairwise
      (RankedBefore (bm25.map Prod.fst)) := by
  refine (sortBy_strict (distinct_iter order _ _)).imp fun {a b} h => ?_
  exact rankedBefore_of_fusedCmp (by rw [List.length_map]; omega) h

/-- Raw scores, distances and iteration orders do not matter. -/
theorem rrfFuseWeighted_congr {order' : Order Text F} {bm25' : List (Text × Float)}
    {vector' : List KnnHit} (hb : bm25'.map Prod.fst = bm25.map Prod.fst)
    (hv : vector'.map KnnHit.chunkId = vector.map KnnHit.chunkId) :
    rrfFuseWeighted u order' bm25' vector' kRrf bm25Weight vectorWeight =
      rrfFuseWeighted u order bm25 vector kRrf bm25Weight vectorWeight := by
  have hbl : bm25'.length = bm25.length := by simpa using congrArg List.length hb
  have hvl : vector'.length = vector.length := by simpa using congrArg List.length hv
  unfold rrfFuseWeighted
  rw [hb, hv, hbl, hvl]
  exact sortBy_eq_of_perm ((order'.perm _).trans (order.perm _).symm) (distinct_iter order' _ _)

/-- Rank fusion computes its specification. -/
theorem rrf_fuse_weighted_spec (order : Order Text F) (bm25 : List (Text × Float))
    (vector : List KnnHit) (kRrf : Nat) (bm25Weight vectorWeight : F)
    (hb : kRrf + bm25.length < 2 ^ 64) (hv : kRrf + vector.length < 2 ^ 64) :
    let out := rrfFuseWeighted .wrapping order bm25 vector kRrf bm25Weight vectorWeight
    (out.map Prod.fst).Nodup ∧
    (∀ id, id ∈ out.map Prod.fst ↔ id ∈ bm25.map Prod.fst ∨ id ∈ vector.map KnnHit.chunkId) ∧
    (∀ id score, (id, score) ∈ out → score = fusedScore kRrf bm25Weight vectorWeight
      (bm25.map Prod.fst) (vector.map KnnHit.chunkId) id) ∧
    out.Pairwise (RankedBefore (bm25.map Prod.fst)) ∧
    (∀ (order' : Order Text F) (bm25' : List (Text × Float)) (vector' : List KnnHit),
      bm25'.map Prod.fst = bm25.map Prod.fst →
      vector'.map KnnHit.chunkId = vector.map KnnHit.chunkId →
      rrfFuseWeighted .wrapping order' bm25' vector' kRrf bm25Weight vectorWeight = out) ∧
    rrfFuse .wrapping order bm25 vector kRrf =
      rrfFuseWeighted .wrapping order bm25 vector kRrf 1 1 := by
  intro out
  have hu : Sums.wrapping.Fits kRrf bm25 vector := .inr ⟨hb, hv⟩
  refine ⟨nodup_rrfFuseWeighted, fun id => ?_, fun id score h => ?_, ranked_rrfFuseWeighted,
    fun order' bm25' vector' hb hv => rrfFuseWeighted_congr hb hv, rfl⟩
  · constructor
    · intro h
      obtain ⟨⟨_, score⟩, hmem, rfl⟩ := List.mem_map.1 h
      exact ((mem_rrfFuseWeighted hu _ _).1 hmem).1
    · intro h
      exact List.mem_map.2 ⟨(id, _), (mem_rrfFuseWeighted hu id _).2 ⟨h, rfl⟩, rfl⟩
  · exact ((mem_rrfFuseWeighted hu id score).1 h).2

/-- An id of both lists, fused with one of each. -/
theorem rrf_fuse_weighted_spec_shared :
    60 + 2 < 2 ^ 64 ∧
    rrfFuseWeighted .wrapping .listed [("x:1-1".toList, -2), ("y:1-1".toList, -1)]
      [⟨"y:1-1".toList, 0⟩, ⟨"z:1-1".toList, 1⟩] 60 1 1 =
      [("y:1-1".toList, (1 / 62 + 1 / 61 : Rat)), ("x:1-1".toList, 1 / 61),
        ("z:1-1".toList, 1 / 62)] ∧
    ∀ id, id ∈ (rrfFuseWeighted (F := Rat) .wrapping .listed
        [("x:1-1".toList, -2), ("y:1-1".toList, -1)]
        [⟨"y:1-1".toList, 0⟩, ⟨"z:1-1".toList, 1⟩] 60 1 1).map Prod.fst ↔
      id ∈ ["x:1-1".toList, "y:1-1".toList] ∨ id ∈ ["y:1-1".toList, "z:1-1".toList] :=
  ⟨by decide, by decide +kernel,
    (rrf_fuse_weighted_spec .listed _ _ 60 1 1 (by decide) (by decide)).2.1⟩

end

end CodeSearch
