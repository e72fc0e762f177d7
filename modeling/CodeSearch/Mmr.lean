import Mathlib.Algebra.Field.Rat
import Mathlib.Algebra.Order.BigOperators.Group.List
import Mathlib.Algebra.Order.Field.Basic
import Mathlib.Algebra.Order.Ring.Rat
import Mathlib.Data.List.Induction
import CodeSearch.Index
import CodeSearch.Lib.Entries
import CodeSearch.Lib.Greedy

/-!
# Maximal marginal relevance

`mmrRerank` takes the candidates out one at a time, the one with the best trade-off
between its own score and its similarity to those already taken.  It reorders and
rewrites nothing (`mmrRerank_perm`), and every round takes the first of the best of
what is left (`mmr_rerank_greedy`), with the trade-off as the mathematics has it
(`TradeOff`).

`f64` arithmetic is exact, in any ordered field; what a bit pattern stands for and
the square root are parameters.
-/

namespace CodeSearch

open Greedy Ranking

/-- What the similarity takes from the machine. -/
structure Floats (F : Type) where
  ofBits : UInt32 → F
  sqrt : F → F

/-! ## Embeddings -/

/-- `f32::from_le_bytes`, as a bit pattern. -/
def f32FromLeBytes (b₀ b₁ b₂ b₃ : UInt8) : UInt32 :=
  b₀.toUInt32 ||| (b₁.toUInt32 <<< 8) ||| (b₂.toUInt32 <<< 16) ||| (b₃.toUInt32 <<< 24)

/-- Decode a blob; trailing bytes that complete no lane are ignored. -/
def leBytesToF32 : List UInt8 → List UInt32
  | b₀ :: b₁ :: b₂ :: b₃ :: rest => f32FromLeBytes b₀ b₁ b₂ b₃ :: leBytesToF32 rest
  | _ => []

/-- `SELECT v.embedding FROM chunks_vec v INNER JOIN chunks c ... WHERE c.id = ?`. -/
def Index.embeddingOf (ix : Index) (id : Text) : Option (List UInt8) := do
  let c ← ix.chunks.rows.find? fun c => c.id = id
  let v ← ix.vec.rows.find? fun v => v.rowid = c.rowid
  pure v.embedding

/-! ## Re-ranking -/

section
variable {F : Type} [Field F] [LinearOrder F]

/-- Cosine similarity; no similarity to an empty, a longer or a zero vector. -/
def cosine (M : Floats F) (a b : List UInt32) : F :=
  if a.isEmpty || a.length != b.length then 0
  else
    let dot := (a.zip b).foldl (fun acc xy => acc + M.ofBits xy.1 * M.ofBits xy.2) 0
    let na := (a.zip b).foldl (fun acc xy => acc + M.ofBits xy.1 * M.ofBits xy.1) 0
    let nb := (a.zip b).foldl (fun acc xy => acc + M.ofBits xy.2 * M.ofBits xy.2) 0
    if na ≤ 0 ∨ nb ≤ 0 then 0 else dot / (M.sqrt na * M.sqrt nb)

/-- Min-max normalized score; all alike in a degenerate range. -/
def rel (low high s : F) : F := if 0 < high - low then (s - low) / (high - low) else 1

/-- One candidate of a round, `none` being `f64::NEG_INFINITY`; ties stay with the
earlier one. -/
def pickStep (value : Text × F → F) (best : Nat × Option F) (entry : (Text × F) × Nat) :
    Nat × Option F :=
  let mmr := value entry.1
  match best.2 with
  | some bestMmr => if bestMmr < mmr then (entry.2, some mmr) else best
  | none => (entry.2, some mmr)

/-- The position of the best of `remaining`. -/
def bestPos (value : Text × F → F) (remaining : List (Text × F)) : Nat :=
  (remaining.zipIdx.foldl (pickStep value) (0, none)).1

/-- Greedy re-rank of the candidates. -/
def mmrRerank (M : Floats F) (candidates : List (Text × F))
    (embeddings : Entries Text (List UInt32)) (lambda : F) : List (Text × F) :=
  match candidates with
  | [] => []
  | [c] => [c]
  | first :: rest =>
    let low := rest.foldl (fun low c => min low c.2) first.2
    let high := rest.foldl (fun high c => max high c.2) first.2
    let vecOf (id : Text) := (embeddings.get? id).getD []
    let maxSim (selected : List (Text × F)) (c : Text × F) :=
      (selected.map fun s => cosine M (vecOf c.1) (vecOf s.1)).foldl max 0
    runPicks (fun selected remaining =>
      bestPos (fun c => lambda * rel low high c.2 - (1 - lambda) * maxSim selected c) remaining)
      (first :: rest)

end

/-! ## The trade-off -/

section
variable {F : Type} [Field F] [LinearOrder F] (M : Floats F)

def dotProduct (a b : List UInt32) : F :=
  (List.zipWith (fun x y => M.ofBits x * M.ofBits y) a b).sum

/-- The cosine of the angle between two vectors of one length other than zero; otherwise
there is no similarity. -/
def IsCosine (a b : List UInt32) (x : F) : Prop :=
  if a.length = b.length ∧ (∃ u ∈ a, M.ofBits u ≠ 0) ∧ ∃ v ∈ b, M.ofBits v ≠ 0 then
    x = dotProduct M a b / (M.sqrt (dotProduct M a a) * M.sqrt (dotProduct M b b))
  else x = 0

/-- The score of a candidate in its range against its largest similarity to those taken. -/
def TradeOff (embeddings : Entries Text (List UInt32)) (lambda low high : F)
    (selected : List (Text × F)) (c : Text × F) (value : F) : Prop :=
  ∃ similarity, IsGreatest {x | x = 0 ∨ ∃ s ∈ selected,
      IsCosine M ((embeddings.get? c.1).getD []) ((embeddings.get? s.1).getD []) x} similarity ∧
    value = lambda * (if low = high then 1 else (c.2 - low) / (high - low)) -
      (1 - lambda) * similarity

end

/-! ## Lemmas -/

section
variable {F : Type} [LinearOrder F]

/-- The best of a round is the first of the greatest. -/
theorem best_split (value : Text × F → F) (l : List (Text × F)) (h : l ≠ []) :
    ∃ pre c post, l = pre ++ c :: post ∧
      l.zipIdx.foldl (pickStep value) (0, none) = (pre.length, some (value c)) ∧
      (∀ d ∈ pre, value d < value c) ∧ ∀ d ∈ post, value d ≤ value c := by
  induction l using List.reverseRecOn with
  | nil => exact absurd rfl h
  | append_singleton l x ih =>
    rw [List.zipIdx_append, List.foldl_append]
    by_cases hl : l = []
    · subst hl
      exact ⟨[], x, [], rfl, rfl, by simp, by simp⟩
    · obtain ⟨pre, c, post, hsplit, hbest, hpre, hpost⟩ := ih hl
      have hle : ∀ d ∈ l, value d ≤ value c := by
        intro d hd
        rw [hsplit, List.mem_append, List.mem_cons] at hd
        rcases hd with hd | rfl | hd
        · exact (hpre d hd).le
        · exact le_rfl
        · exact hpost d hd
      rw [hbest]
      show ∃ pre' c' post', l ++ [x] = pre' ++ c' :: post' ∧
        (if value c < value x then (0 + l.length, some (value x)) else (pre.length, some (value c))) =
          (pre'.length, some (value c')) ∧ _ ∧ _
      by_cases hx : value c < value x
      · refine ⟨l, x, [], rfl, ?_, fun d hd => (hle d hd).trans_lt hx, by simp⟩
        rw [if_pos hx, Nat.zero_add]
      · refine ⟨pre, c, post ++ [x], ?_, if_neg hx, hpre, fun d hd => ?_⟩
        · rw [hsplit]
          simp
        · rw [List.mem_append, List.mem_singleton] at hd
          rcases hd with hd | rfl
          · exact hpost d hd
          · exact not_lt.1 hx

/-- The position chosen is that of the first of the greatest. -/
theorem bestPos_split (value : Text × F → F) {l : List (Text × F)} {c : Text × F}
    (h : l[bestPos value l]? = some c) : ∃ pre post, l = pre ++ c :: post ∧
      bestPos value l = pre.length ∧ (∀ d ∈ pre, value d < value c) ∧
      ∀ d ∈ post, value d ≤ value c := by
  have hl : l ≠ [] := by
    rintro rfl
    cases h
  obtain ⟨pre, x, post, hsplit, hbest, hpre, hpost⟩ := best_split value l hl
  have hpos : bestPos value l = pre.length := congrArg Prod.fst hbest
  have hx : x = c := by
    rw [hpos, hsplit, List.getElem?_append_right (Nat.le_refl _), Nat.sub_self] at h
    exact Option.some.inj h
  subst hx
  exact ⟨pre, post, hsplit, hpos, hpre, hpost⟩

theorem bestPos_lt (value : Text × F → F) {remaining : List (Text × F)} (h : remaining ≠ []) :
    bestPos value remaining < remaining.length := by
  obtain ⟨pre, c, post, hsplit, hbest, -⟩ := best_split value remaining h
  have hpos : bestPos value remaining = pre.length := congrArg Prod.fst hbest
  rw [hpos, hsplit, List.length_append, List.length_cons]
  omega

theorem bestPos_eq_zero {value : Text × F → F} {c : Text × F} {l : List (Text × F)}
    (h : ∀ d ∈ l, value d ≤ value c) : bestPos value (c :: l) = 0 := by
  obtain ⟨pre, x, post, hsplit, hbest, hpre, -⟩ := best_split value (c :: l) (List.cons_ne_nil c l)
  have hpos : bestPos value (c :: l) = pre.length := congrArg Prod.fst hbest
  rw [hpos, List.length_eq_zero_iff]
  by_contra hne
  obtain ⟨y, pre, rfl⟩ := List.exists_cons_of_ne_nil hne
  rw [List.cons_append, List.cons.injEq] at hsplit
  obtain ⟨rfl, rfl⟩ := hsplit
  have hlt := hpre c List.mem_cons_self
  exact absurd (h x (by simp)) (not_le.2 hlt)

theorem mmrRerank_perm [Field F] (M : Floats F) (candidates : List (Text × F))
    (embeddings : Entries Text (List UInt32)) (lambda : F) :
    (mmrRerank M candidates embeddings lambda).Perm candidates := by
  unfold mmrRerank
  split
  · exact List.Perm.refl _
  · exact List.Perm.refl _
  · exact runPicks_perm (fun _ _ hne => bestPos_lt _ hne) _

end

/-! ## What every round takes -/

section
variable {F : Type} [LinearOrder F]

theorem isLeast_foldl_min {α : Type} (f : α → F) (l : List α) : ∀ init : F,
    IsLeast {x | x = init ∨ ∃ c ∈ l, x = f c} (l.foldl (fun low c => min low (f c)) init) := by
  induction l with
  | nil =>
    intro init
    refine ⟨.inl rfl, ?_⟩
    rintro x (rfl | ⟨c, hc, -⟩)
    · exact le_rfl
    · cases hc
  | cons c l ih =>
    intro init
    obtain ⟨hmem, hle⟩ := ih (min init (f c))
    refine ⟨?_, ?_⟩
    · rcases hmem with heq | ⟨d, hd, heq⟩
      · rw [List.foldl_cons, heq]
        rcases min_choice init (f c) with hmin | hmin
        · exact .inl hmin
        · exact .inr ⟨c, List.mem_cons_self, hmin⟩
      · exact .inr ⟨d, List.mem_cons_of_mem c hd, heq⟩
    · have hinit : _ ≤ min init (f c) := hle (.inl rfl)
      rintro x (rfl | ⟨d, hd, rfl⟩)
      · exact hinit.trans (min_le_left x (f c))
      · rcases List.mem_cons.1 hd with rfl | hd
        · exact hinit.trans (min_le_right init (f d))
        · exact hle (.inr ⟨d, hd, rfl⟩)

theorem isGreatest_foldl_max {α : Type} (f : α → F) (l : List α) (init : F) :
    IsGreatest {x | x = init ∨ ∃ c ∈ l, x = f c} (l.foldl (fun high c => max high (f c)) init) :=
  isLeast_foldl_min (F := OrderDual F) f l init

end

section
variable {F : Type} [Field F] [LinearOrder F] (M : Floats F)
  (embeddings : Entries Text (List UInt32)) (lambda : F)

/-- The largest similarity to something taken, at least zero. -/
def maxSim (selected : List (Text × F)) (c : Text × F) : F :=
  (selected.map fun s => cosine M ((embeddings.get? c.1).getD [])
    ((embeddings.get? s.1).getD [])).foldl max 0

/-- What a round compares. -/
def mmrValue (low high : F) (selected : List (Text × F)) (c : Text × F) : F :=
  lambda * rel low high c.2 - (1 - lambda) * maxSim M embeddings selected c

theorem isGreatest_maxSim (selected : List (Text × F)) (c : Text × F) :
    IsGreatest {x | x = 0 ∨ ∃ s ∈ selected, x = cosine M ((embeddings.get? c.1).getD [])
      ((embeddings.get? s.1).getD [])} (maxSim M embeddings selected c) := by
  unfold maxSim
  rw [List.foldl_map]
  exact isGreatest_foldl_max _ selected 0

omit [Field F] [LinearOrder F] in
theorem setOf_scores (first : Text × F) (rest : List (Text × F)) :
    {s | ∃ c ∈ first :: rest, s = c.2} = {s | s = first.2 ∨ ∃ c ∈ rest, s = c.2} := by
  ext s
  simp

/-- The rounds, with the ends of the range of the scores. -/
theorem mmrRerank_rounds (candidates : List (Text × F)) {low high : F}
    (hlow : IsLeast {s | ∃ c ∈ candidates, s = c.2} low)
    (hhigh : IsGreatest {s | ∃ c ∈ candidates, s = c.2} high) :
    mmrRerank M candidates embeddings lambda =
      runPicks (fun selected remaining =>
        bestPos (mmrValue M embeddings lambda low high selected) remaining) candidates := by
  unfold mmrRerank
  split
  · rfl
  · rfl
  · next first rest _ =>
    rw [setOf_scores] at hlow hhigh
    rw [hlow.unique (isLeast_foldl_min Prod.snd rest first.2),
      hhigh.unique (isGreatest_foldl_max Prod.snd rest first.2)]
    rfl

/-- Every candidate list has such ends. -/
theorem exists_rounds {candidates : List (Text × F)} (hne : candidates ≠ []) : ∃ low high,
    mmrRerank M candidates embeddings lambda = runPicks (fun selected remaining =>
      bestPos (mmrValue M embeddings lambda low high selected) remaining) candidates := by
  obtain ⟨first, rest, rfl⟩ := List.exists_cons_of_ne_nil hne
  refine ⟨rest.foldl (fun low c => min low c.2) first.2,
    rest.foldl (fun high c => max high c.2) first.2, mmrRerank_rounds M embeddings lambda _ ?_ ?_⟩
  · rw [setOf_scores]
    exact isLeast_foldl_min Prod.snd rest first.2
  · rw [setOf_scores]
    exact isGreatest_foldl_max Prod.snd rest first.2

variable {M embeddings lambda} {candidates : List (Text × F)}

theorem mmrRerank_takes {low high : F} (hlow : IsLeast {s | ∃ c ∈ candidates, s = c.2} low)
    (hhigh : IsGreatest {s | ∃ c ∈ candidates, s = c.2} high) {pre post : List (Text × F)}
    {c d : Text × F} (hout : mmrRerank M candidates embeddings lambda = pre ++ c :: post)
    (hd : d ∈ post) :
    mmrValue M embeddings lambda low high pre d ≤ mmrValue M embeddings lambda low high pre c ∧
    (mmrValue M embeddings lambda low high pre d = mmrValue M embeddings lambda low high pre c →
      [c, d].Sublist candidates) := by
  rw [mmrRerank_rounds M embeddings lambda candidates hlow hhigh] at hout
  obtain ⟨left, hsub, hperm, hget⟩ := runPicks_split _ (fun _ _ hne => bestPos_lt _ hne) hout
  obtain ⟨before, later, rfl, -, hbefore, hlater⟩ := bestPos_split _ hget
  have hrest : (before ++ later).Perm post :=
    List.Perm.cons_inv (List.perm_middle.symm.trans hperm)
  rcases List.mem_append.1 (hrest.symm.subset hd) with hd | hd
  · exact ⟨(hbefore d hd).le, fun heq => absurd heq (hbefore d hd).ne⟩
  · refine ⟨hlater d hd, fun _ => ?_⟩
    have hpair : [c, d].Sublist (c :: later) := (List.singleton_sublist.2 hd).cons_cons c
    exact (hpair.trans (List.sublist_append_right before _)).trans hsub

variable [IsStrictOrderedRing F]

omit [LinearOrder F] [IsStrictOrderedRing F] in
theorem foldl_dot (f g : UInt32 × UInt32 → F) (l : List (UInt32 × UInt32)) : ∀ acc : F,
    l.foldl (fun acc xy => acc + f xy * g xy) acc = acc + (l.map fun xy => f xy * g xy).sum := by
  induction l with
  | nil => exact fun acc => (add_zero acc).symm
  | cons xy l ih =>
    intro acc
    rw [List.foldl_cons, ih, List.map_cons, List.sum_cons, add_assoc]

/-- The square of a vector is zero only if the vector is. -/
theorem dotProduct_self_le_iff (a : List UInt32) :
    dotProduct M a a ≤ 0 ↔ ¬ ∃ u ∈ a, M.ofBits u ≠ 0 := by
  have hself : dotProduct M a a = (a.map fun u => M.ofBits u * M.ofBits u).sum := by
    unfold dotProduct
    rw [List.zipWith_self]
  have hnonneg : ∀ y ∈ a.map fun u => M.ofBits u * M.ofBits u, 0 ≤ y := by
    intro y hy
    obtain ⟨u, -, rfl⟩ := List.mem_map.1 hy
    exact mul_self_nonneg _
  rw [hself]
  constructor
  · rintro hle ⟨u, hu, hne⟩
    have hzero := List.all_zero_of_le_zero_le_of_sum_eq_zero hnonneg
      (le_antisymm hle (List.sum_nonneg hnonneg)) (List.mem_map_of_mem hu)
    exact hne (mul_self_eq_zero.1 hzero)
  · intro hnone
    refine (List.sum_eq_zero fun y hy => ?_).le
    obtain ⟨u, hu, rfl⟩ := List.mem_map.1 hy
    by_contra hne
    exact hnone ⟨u, hu, fun hzero => hne (by rw [hzero, mul_zero])⟩

/-- What is computed is the cosine. -/
theorem isCosine_cosine (a b : List UInt32) : IsCosine M a b (cosine M a b) := by
  unfold IsCosine cosine
  by_cases hlen : a.length = b.length
  · have hdot : (a.zip b).foldl (fun acc xy => acc + M.ofBits xy.1 * M.ofBits xy.2) 0 =
        dotProduct M a b := by
      rw [foldl_dot (fun xy => M.ofBits xy.1) fun xy => M.ofBits xy.2, zero_add, List.zip_eq_zipWith,
        List.map_zipWith]
      rfl
    have hna : (a.zip b).foldl (fun acc xy => acc + M.ofBits xy.1 * M.ofBits xy.1) 0 =
        dotProduct M a a := by
      rw [foldl_dot (fun xy => M.ofBits xy.1) fun xy => M.ofBits xy.1, zero_add]
      conv_rhs => rw [dotProduct, List.zipWith_self, ← List.map_fst_zip hlen.le, List.map_map]
      rfl
    have hnb : (a.zip b).foldl (fun acc xy => acc + M.ofBits xy.2 * M.ofBits xy.2) 0 =
        dotProduct M b b := by
      rw [foldl_dot (fun xy => M.ofBits xy.2) fun xy => M.ofBits xy.2, zero_add]
      conv_rhs => rw [dotProduct, List.zipWith_self, ← List.map_snd_zip hlen.ge, List.map_map]
      rfl
    dsimp only
    rw [hdot, hna, hnb]
    by_cases hboth : (∃ u ∈ a, M.ofBits u ≠ 0) ∧ ∃ v ∈ b, M.ofBits v ≠ 0
    · obtain ⟨u, hu, -⟩ := hboth.1
      have hguard : ¬ (a.isEmpty || a.length != b.length) = true := by
        simp [hlen, List.isEmpty_iff, List.ne_nil_of_mem hu]
      have hpos : ¬ (dotProduct M a a ≤ 0 ∨ dotProduct M b b ≤ 0) := by
        rw [dotProduct_self_le_iff, dotProduct_self_le_iff, not_or, not_not, not_not]
        exact hboth
      rw [if_neg hguard, if_neg hpos, if_pos ⟨hlen, hboth⟩]
    · have hzero : dotProduct M a a ≤ 0 ∨ dotProduct M b b ≤ 0 := by
        rw [dotProduct_self_le_iff, dotProduct_self_le_iff]
        exact not_and_or.1 hboth
      rw [if_pos hzero, ite_self, if_neg fun h => hboth h.2]
  · have hguard : (a.isEmpty || a.length != b.length) = true := by simp [hlen]
    rw [if_pos hguard, if_neg fun h => hlen h.1]

theorem isCosine_iff {a b : List UInt32} {x : F} : IsCosine M a b x ↔ x = cosine M a b := by
  have hcosine := isCosine_cosine (M := M) a b
  unfold IsCosine at hcosine ⊢
  by_cases hsome : a.length = b.length ∧ (∃ u ∈ a, M.ofBits u ≠ 0) ∧ ∃ v ∈ b, M.ofBits v ≠ 0
  · rw [if_pos hsome] at hcosine ⊢
    rw [hcosine]
  · rw [if_neg hsome] at hcosine ⊢
    rw [hcosine]

/-- What a round compares is the trade-off. -/
theorem tradeOff_mmrValue {low high : F} (h : low ≤ high) (selected : List (Text × F))
    (c : Text × F) :
    TradeOff M embeddings lambda low high selected c (mmrValue M embeddings lambda low high selected c) := by
  refine ⟨maxSim M embeddings selected c, ?_, ?_⟩
  · simp only [isCosine_iff]
    exact isGreatest_maxSim M embeddings selected c
  · have hrel : rel low high c.2 = if low = high then 1 else (c.2 - low) / (high - low) := by
      unfold rel
      rcases h.eq_or_lt with heq | hlt
      · rw [if_neg (by rw [heq, sub_self]; exact lt_irrefl 0), if_pos heq]
      · rw [if_pos (sub_pos.2 hlt), if_neg hlt.ne]
    rw [mmrValue, hrel]

theorem rel_mono (low high : F) {s t : F} (h : s ≤ t) : rel low high s ≤ rel low high t := by
  unfold rel
  split
  · next hpos => exact div_le_div_of_nonneg_right (sub_le_sub_right h low) hpos.le
  · exact le_rfl

/-- Before anything is taken, and where diversity counts nothing, a round goes by score. -/
theorem mmrValue_mono {low high : F} {selected : List (Text × F)}
    (hfree : lambda = 1 ∨ selected = []) (hlambda : 0 ≤ lambda) {c d : Text × F} (h : d.2 ≤ c.2) :
    mmrValue M embeddings lambda low high selected d ≤
      mmrValue M embeddings lambda low high selected c := by
  have hrel : lambda * rel low high d.2 ≤ lambda * rel low high c.2 :=
    mul_le_mul_of_nonneg_left (rel_mono low high h) hlambda
  have hsim : (1 - lambda) * maxSim M embeddings selected d =
      (1 - lambda) * maxSim M embeddings selected c := by
    rcases hfree with rfl | rfl
    · rw [sub_self, zero_mul, zero_mul]
    · rfl
  unfold mmrValue
  rw [hsim]
  exact sub_le_sub_right hrel _

/-- Where a round goes by score, it takes the first of what is left. -/
theorem bestPos_by_score (hsorted : candidates.Pairwise fun a b => b.2 ≤ a.2) (hlambda : 0 ≤ lambda)
    {low high : F} {selected : List (Text × F)} (hfree : lambda = 1 ∨ selected = [])
    {c : Text × F} {l : List (Text × F)} (hsub : (c :: l).Sublist candidates) :
    bestPos (mmrValue M embeddings lambda low high selected) (c :: l) = 0 := by
  have hle := (List.pairwise_cons.1 (hsorted.sublist hsub)).1
  exact bestPos_eq_zero fun d hd => mmrValue_mono hfree hlambda (hle d hd)

theorem mmrRerank_head (hsorted : candidates.Pairwise fun a b => b.2 ≤ a.2) (hlambda : 0 ≤ lambda) :
    (mmrRerank M candidates embeddings lambda).head? = candidates.head? := by
  by_cases hne : candidates = []
  · subst hne
    rfl
  · have hperm := mmrRerank_perm M candidates embeddings lambda
    obtain ⟨low, high, hrounds⟩ := exists_rounds M embeddings lambda hne
    cases hout : mmrRerank M candidates embeddings lambda with
    | nil =>
      rw [hout] at hperm
      rw [hperm.nil_eq]
    | cons c post =>
      rw [hout] at hperm
      rw [hrounds] at hout
      obtain ⟨left, hsub, hleft, hget⟩ := runPicks_split []
        (fun _ _ hne => bestPos_lt _ hne) hout
      -- nothing is taken yet, so all candidates are left
      have hall : left = candidates := hsub.eq_of_length (hleft.trans hperm).length_eq
      subst hall
      obtain ⟨first, rest, rfl⟩ := List.exists_cons_of_ne_nil hne
      rw [bestPos_by_score hsorted hlambda (.inr rfl) (List.Sublist.refl _)] at hget
      exact hget.symm

theorem mmrRerank_one (hsorted : candidates.Pairwise fun a b => b.2 ≤ a.2) :
    mmrRerank M candidates embeddings 1 = candidates := by
  by_cases hne : candidates = []
  · subst hne
    rfl
  · obtain ⟨low, high, hrounds⟩ := exists_rounds M embeddings 1 hne
    rw [hrounds]
    apply runPicks_eq_self
    intro pre post hsplit hpost
    obtain ⟨c, l, rfl⟩ := List.exists_cons_of_ne_nil hpost
    apply bestPos_by_score hsorted zero_le_one (.inl rfl)
    rw [hsplit]
    exact List.sublist_append_right pre _

/-- Of candidates by score: nothing is lost, the best score stays first, every round takes the
first of those with the greatest trade-off, and without diversity nothing moves. -/
theorem mmr_rerank_greedy (M : Floats F) (candidates : List (Text × F))
    (embeddings : Entries Text (List UInt32)) (lambda : F) (hlambda : 0 ≤ lambda)
    (hsorted : candidates.Pairwise fun a b => b.2 ≤ a.2) :
    (mmrRerank M candidates embeddings lambda).Perm candidates ∧
    (mmrRerank M candidates embeddings lambda).head? = candidates.head? ∧
    (∀ low high, IsLeast {s | ∃ c ∈ candidates, s = c.2} low →
      IsGreatest {s | ∃ c ∈ candidates, s = c.2} high → ∀ pre c post,
      mmrRerank M candidates embeddings lambda = pre ++ c :: post → ∀ d ∈ post,
        ∃ valueC valueD, TradeOff M embeddings lambda low high pre c valueC ∧
          TradeOff M embeddings lambda low high pre d valueD ∧
          valueD ≤ valueC ∧ (valueD = valueC → [c, d].Sublist candidates)) ∧
    (lambda = 1 → mmrRerank M candidates embeddings lambda = candidates) := by
  refine ⟨mmrRerank_perm M candidates embeddings lambda, mmrRerank_head hsorted hlambda,
    fun low high hlow hhigh pre c post hout d hd => ?_, ?_⟩
  · have hrange : low ≤ high := hlow.2 hhigh.1
    exact ⟨_, _, tradeOff_mmrValue hrange pre c, tradeOff_mmrValue hrange pre d,
      mmrRerank_takes hlow hhigh hout hd⟩
  · rintro rfl
    exact mmrRerank_one hsorted

/-- Three hits, the second with the vector of the first. -/
def threeHits : List (Text × Rat) := [("a".toList, 3), ("b".toList, 2), ("c".toList, 1)]

def threeVectors : Entries Text (List UInt32) :=
  [("a".toList, [0x3F800000, 0]), ("b".toList, [0x3F800000, 0]),
    ("c".toList, [0, 0x3F800000])].foldl (fun es e => es.orInsert e.1 e.2) .empty

/-- `1.0` and `0.0`, and the roots of 1. -/
def unitFloats : Floats Rat := ⟨fun bits => if bits = 0x3F800000 then 1 else 0, fun x => x⟩

/-- The hit that repeats the first one's vector is taken last. -/
theorem mmr_rerank_greedy_apart :
    mmrRerank unitFloats threeHits threeVectors (1 / 2) =
      [("a".toList, 3), ("c".toList, 1), ("b".toList, 2)] ∧
    ∃ v w, TradeOff unitFloats threeVectors (1 / 2) 1 3 [("a".toList, 3)] ("c".toList, 1) v ∧
      TradeOff unitFloats threeVectors (1 / 2) 1 3 [("a".toList, 3)] ("b".toList, 2) w ∧ w ≤ v := by
  have hout : mmrRerank unitFloats threeHits threeVectors (1 / 2) =
      [("a".toList, 3), ("c".toList, 1), ("b".toList, 2)] := by decide +kernel
  obtain ⟨v, w, hv, hw, hle, -⟩ :=
    (mmr_rerank_greedy unitFloats threeHits threeVectors (1 / 2) (by decide +kernel)
      (by decide +kernel)).2.2.1 1 3
      ⟨⟨("c".toList, 1), by decide, rfl⟩, by rintro s ⟨c, hc, rfl⟩; revert c; decide +kernel⟩
      ⟨⟨("a".toList, 3), by decide, rfl⟩, by rintro s ⟨c, hc, rfl⟩; revert c; decide +kernel⟩
      [("a".toList, 3)] ("c".toList, 1) [("b".toList, 2)] hout ("b".toList, 2) (by decide)
  exact ⟨hout, v, w, hv, hw, hle⟩

end

end CodeSearch
