import Mathlib.Data.List.Induction
import Mathlib.Data.List.Perm.Basic

/-!
# Keeping what repeats nothing kept

`keepFirst dup l` walks a list and keeps an element unless `dup` relates it to one
kept before.  What is kept is a sublist with no repeat (`keepFirst_pairwise`), and
whatever is not kept repeats something kept before it (`kept_or_dup`).

`runPicks pick l` takes the elements of a list out one at a time, each time at the
position `pick` chooses from those taken and those left.  It is a permutation, and what
is left at each round is in the order of the list (`runPicks_split`).
-/

namespace Greedy

variable {α : Type}

/-! ## Algorithm -/

/-- Keep `x` unless it repeats something kept. -/
def keepStep (dup : α → α → Bool) (kept : List α) (x : α) : List α :=
  if kept.any (dup x) then kept else kept ++ [x]

def keepFirst (dup : α → α → Bool) (l : List α) : List α := l.foldl (keepStep dup) []

/-- The places the walk keeps. -/
def keptPlaces (dup : α → α → Bool) (l : List α) : List (α × Nat) :=
  keepFirst (fun p q => dup p.1 q.1) l.zipIdx

/-- Take out the elements of `left`, one a round, at the positions `pick` chooses. -/
def takeOut (pick : List α → List α → Nat) : Nat → List α → List α → List α
  | 0, taken, _ => taken
  | fuel + 1, taken, left =>
    match left[pick taken left]? with
    | some x => takeOut pick fuel (taken ++ [x]) (left.eraseIdx (pick taken left))
    | none => taken

def runPicks (pick : List α → List α → Nat) (l : List α) : List α := takeOut pick l.length [] l

/-! ## What is kept -/

section
variable {dup : α → α → Bool}

theorem keepFirst_append (dup : α → α → Bool) (l l' : List α) :
    keepFirst dup (l ++ l') = l'.foldl (keepStep dup) (keepFirst dup l) := List.foldl_append

theorem keepFirst_concat (l : List α) (x : α) :
    keepFirst dup (l ++ [x]) = keepStep dup (keepFirst dup l) x := keepFirst_append dup l [x]

/-- What comes later is appended, and comes from what is walked later. -/
theorem foldl_keepStep (dup : α → α → Bool) (l : List α) : ∀ kept : List α,
    ∃ more, l.foldl (keepStep dup) kept = kept ++ more ∧ more.Sublist l := by
  induction l with
  | nil => exact fun kept => ⟨[], (List.append_nil kept).symm, List.Sublist.refl _⟩
  | cons x l ih =>
    intro kept
    rw [List.foldl_cons]
    unfold keepStep
    split
    · obtain ⟨more, heq, hsub⟩ := ih kept
      exact ⟨more, heq, hsub.cons x⟩
    · obtain ⟨more, heq, hsub⟩ := ih (kept ++ [x])
      refine ⟨x :: more, heq.trans ?_, hsub.cons_cons x⟩
      rw [List.append_assoc, List.singleton_append]

/-- Later elements remove nothing. -/
theorem prefix_keepFirst (dup : α → α → Bool) (l l' : List α) :
    keepFirst dup l <+: keepFirst dup (l ++ l') := by
  obtain ⟨more, heq, -⟩ := foldl_keepStep dup l' (keepFirst dup l)
  rw [keepFirst_append, heq]
  exact List.prefix_append _ _

theorem keepFirst_sublist (dup : α → α → Bool) (l : List α) : (keepFirst dup l).Sublist l := by
  induction l using List.reverseRecOn with
  | nil => exact List.Sublist.refl _
  | append_singleton l x ih =>
    rw [keepFirst_concat]
    unfold keepStep
    split
    · exact ih.trans (List.sublist_append_left l [x])
    · exact ih.append (List.Sublist.refl [x])

/-- Nothing kept repeats what is kept before it. -/
theorem keepFirst_pairwise (dup : α → α → Bool) (l : List α) :
    (keepFirst dup l).Pairwise fun a b => dup b a = false := by
  induction l using List.reverseRecOn with
  | nil => exact List.Pairwise.nil
  | append_singleton l x ih =>
    rw [keepFirst_concat]
    unfold keepStep
    split
    · exact ih
    · next h =>
      refine List.pairwise_append.2 ⟨ih, List.pairwise_singleton _ _, fun a ha b hb => ?_⟩
      rw [List.mem_singleton.1 hb]
      by_contra hdup
      exact h (List.any_eq_true.2 ⟨a, ha, by simpa using hdup⟩)

theorem keepFirst_map {β : Type} (dup : β → β → Bool) (f : α → β) (l : List α) :
    keepFirst dup (l.map f) = (keepFirst (fun x y => dup (f x) (f y)) l).map f := by
  induction l using List.reverseRecOn with
  | nil => rfl
  | append_singleton l x ih =>
    rw [List.map_append, List.map_singleton, keepFirst_concat, keepFirst_concat, ih]
    unfold keepStep
    rw [List.any_map]
    show (if (keepFirst _ l).any (fun y => dup (f x) (f y)) = true then _ else _) = _
    split
    · rfl
    · rw [List.map_append, List.map_singleton]

/-- Only what a later element says of an earlier one counts. -/
theorem keepFirst_congr {dup dup' : α → α → Bool} {l : List α}
    (h : l.Pairwise fun y x => dup x y = dup' x y) : keepFirst dup l = keepFirst dup' l := by
  induction l using List.reverseRecOn with
  | nil => rfl
  | append_singleton l x ih =>
    rw [List.pairwise_append] at h
    have hany : (keepFirst dup' l).any (dup x) = (keepFirst dup' l).any (dup' x) := by
      rw [Bool.eq_iff_iff, List.any_eq_true, List.any_eq_true]
      refine exists_congr fun y => and_congr_right fun hy => ?_
      rw [h.2.2 y ((keepFirst_sublist dup' l).subset hy) x (List.mem_singleton.2 rfl)]
    rw [keepFirst_concat, keepFirst_concat, ih h.1, keepStep, keepStep, hany]

/-- An element is kept, or it repeats something that was kept before it. -/
theorem kept_or_dup (dup : α → α → Bool) (l : List α) (x : α) (l' : List α) :
    x ∈ keepFirst dup (l ++ x :: l') ∨ ∃ y ∈ keepFirst dup l, dup x y = true := by
  have hsplit : l ++ x :: l' = (l ++ [x]) ++ l' := by simp
  rw [hsplit]
  by_cases h : (keepFirst dup l).any (dup x) = true
  · exact .inr (List.any_eq_true.1 h)
  · left
    refine (prefix_keepFirst dup (l ++ [x]) l').subset ?_
    rw [keepFirst_concat]
    unfold keepStep
    rw [if_neg h]
    simp

/-- Where a repeat is an equal key, the first element of each key is kept. -/
theorem filter_keepFirst {β : Type} [DecidableEq β] (key : α → β) (l : List α) (k : β) :
    (keepFirst (fun x y => decide (key x = key y)) l).filter (fun x => decide (key x = k)) =
      (l.find? fun x => decide (key x = k)).toList := by
  induction l using List.reverseRecOn with
  | nil => rfl
  | append_singleton l x ih =>
    rw [keepFirst_concat, List.find?_append]
    unfold keepStep
    have hfound : ∀ y ∈ keepFirst (fun x y => decide (key x = key y)) l, key y = k →
        (l.find? fun x => decide (key x = k)).isSome := by
      intro y hy hk
      rw [List.find?_isSome]
      exact ⟨y, (keepFirst_sublist _ l).subset hy, decide_eq_true hk⟩
    split
    · next hany =>
      obtain ⟨y, hy, hdup⟩ := List.any_eq_true.1 hany
      have hxy : key x = key y := of_decide_eq_true hdup
      rw [ih]
      by_cases hx : key x = k
      · obtain ⟨first, hfirst⟩ := Option.isSome_iff_exists.1 (hfound y hy (hxy ▸ hx))
        rw [hfirst]
        rfl
      · simp [hx]
    · next hany =>
      rw [List.filter_append, ih]
      by_cases hx : key x = k
      · -- nothing with this key was seen before
        cases hfirst : l.find? fun x => decide (key x = k) with
        | none => simp [hx]
        | some first =>
          rw [hfirst] at ih
          have hmem : first ∈ (keepFirst (fun x y => decide (key x = key y)) l).filter
              fun x => decide (key x = k) := by
            rw [ih]
            exact List.mem_singleton.2 rfl
          obtain ⟨hkept, hk⟩ := List.mem_filter.1 hmem
          refine absurd (List.any_eq_true.2 ⟨first, hkept, ?_⟩) hany
          show decide (key x = key first) = true
          rw [hx, of_decide_eq_true hk, decide_eq_true_eq]
      · simp [hx]

end

/-! ## Selections -/

/-- Places of `l` of which none repeats an earlier one, and every other place repeats one. -/
structure IsSelection (dup : α → α → Prop) (l : List α) (K : List (α × Nat)) : Prop where
  sublist : K.Sublist l.zipIdx
  apart : K.Pairwise fun p q => ¬ dup q.1 p.1
  dropped : ∀ p ∈ l.zipIdx, p ∉ K → ∃ q ∈ K, q.2 < p.2 ∧ dup p.1 q.1

theorem pairwise_zipIdx (l : List α) : l.zipIdx.Pairwise fun p q => p.2 < q.2 := by
  rw [← List.pairwise_map (f := Prod.snd) (R := (· < ·)), List.zipIdx_map_snd]
  exact List.pairwise_lt_range'

section
variable {dup : α → α → Prop} {l : List α} {K K' : List (α × Nat)}

theorem IsSelection.increasing (h : IsSelection dup l K) : K.Pairwise fun p q => p.2 < q.2 :=
  (pairwise_zipIdx l).sublist h.sublist

theorem IsSelection.not_dup (h : IsSelection dup l K) : ∀ p ∈ K, ∀ q ∈ K, q.2 < p.2 →
    ¬ dup p.1 q.1 := by
  have hboth : K.Pairwise fun q p => q.2 < p.2 ∧ ¬ dup p.1 q.1 := h.increasing.and h.apart
  intro p hp q hq hlt
  have hpair := List.Pairwise.forall_of_forall_of_flip (R := fun q p => q.2 < p.2 → ¬ dup p.1 q.1)
    (fun x _ hx => absurd hx (Nat.lt_irrefl _)) (hboth.imp fun hab _ => hab.2)
    (hboth.imp fun hab hba => absurd hba (Nat.lt_asymm hab.1))
  exact hpair hq hp hlt

/-- What one selection has the other has too: otherwise a first difference repeats nothing. -/
theorem IsSelection.subset (h : IsSelection dup l K) (h' : IsSelection dup l K') :
    ∀ n, ∀ p ∈ l.zipIdx, p.2 = n → (p ∈ K ↔ p ∈ K') := by
  intro n
  induction n using Nat.strongRecOn with
  | _ n ih =>
    intro p hp hn
    have half : ∀ {A B : List (α × Nat)}, IsSelection dup l A → IsSelection dup l B →
        (∀ q ∈ l.zipIdx, q.2 < n → (q ∈ B → q ∈ A)) → p ∈ A → p ∈ B := by
      intro A B hA hB hlower hpA
      by_contra hpB
      obtain ⟨q, hq, hlt, hdup⟩ := hB.dropped p hp hpB
      have hqA := hlower q (hB.sublist.subset hq) (by omega) hq
      exact hA.not_dup p hpA q hqA hlt hdup
    constructor
    · exact half h h' fun q hq hlt => (ih q.2 hlt q hq rfl).2
    · exact half h' h fun q hq hlt => (ih q.2 hlt q hq rfl).1

/-- The conditions leave no choice. -/
theorem IsSelection.unique (h : IsSelection dup l K) (h' : IsSelection dup l K') : K = K' := by
  have nodup : ∀ {A : List (α × Nat)}, IsSelection dup l A → A.Nodup := by
    intro A hA
    refine List.Pairwise.imp ?_ hA.increasing
    rintro p q hlt rfl
    exact Nat.lt_irrefl _ hlt
  have hperm : K.Perm K' := by
    rw [List.perm_ext_iff_of_nodup (nodup h) (nodup h')]
    intro p
    constructor
    · intro hp
      exact (h.subset h' p.2 p (h.sublist.subset hp) rfl).1 hp
    · intro hp
      exact (h.subset h' p.2 p (h'.sublist.subset hp) rfl).2 hp
  refine hperm.eq_of_pairwise ?_ h.increasing h'.increasing
  intro a b _ _ hab hba
  exact absurd hab (Nat.lt_asymm hba)

end

section
variable {dup dup' : α → α → Bool}

/-- Where an element stands does not matter to the walk. -/
theorem map_keptPlaces (dup : α → α → Bool) (l : List α) :
    (keptPlaces dup l).map Prod.fst = keepFirst dup l := by
  induction l using List.reverseRecOn with
  | nil => rfl
  | append_singleton l x ih =>
    unfold keptPlaces at ih ⊢
    rw [List.zipIdx_append, List.zipIdx_singleton, keepFirst_concat, keepFirst_concat, ← ih]
    unfold keepStep
    rw [List.any_map]
    show List.map Prod.fst (if (_ : List (α × Nat)).any (dup x ∘ Prod.fst) = true then _ else _) = _
    split
    · rfl
    · rw [List.map_append]
      rfl

/-- The walk selects. -/
theorem isSelection_keptPlaces (dup : α → α → Bool) (l : List α) :
    IsSelection (fun x y => dup x y = true) l (keptPlaces dup l) where
  sublist := keepFirst_sublist _ _
  apart := (keepFirst_pairwise _ _).imp fun h => by simpa using h
  dropped := by
    intro p hp hdropped
    obtain ⟨pre, post, hsplit⟩ := List.append_of_mem hp
    have hcase := kept_or_dup (fun p q : α × Nat => dup p.1 q.1) pre p post
    rw [← hsplit] at hcase
    rcases hcase with hkept | ⟨q, hq, hdup⟩
    · exact absurd hkept hdropped
    · have hpre : q ∈ pre := (keepFirst_sublist _ pre).subset hq
      have hord := pairwise_zipIdx l
      rw [hsplit, List.pairwise_append] at hord
      refine ⟨q, ?_, hord.2.2 q hpre p List.mem_cons_self, hdup⟩
      unfold keptPlaces
      rw [hsplit]
      exact (prefix_keepFirst _ pre (p :: post)).subset hq

/-- All of a list is kept exactly if nothing in it repeats what comes before. -/
theorem keepFirst_eq_self_iff (dup : α → α → Bool) (l : List α) :
    keepFirst dup l = l ↔ l.Pairwise fun a b => dup b a = false := by
  constructor
  · intro h
    rw [← h]
    exact keepFirst_pairwise dup l
  · intro h
    induction l using List.reverseRecOn with
    | nil => rfl
    | append_singleton l x ih =>
      rw [List.pairwise_append] at h
      rw [keepFirst_concat, ih h.1, keepStep, if_neg]
      intro hany
      obtain ⟨y, hy, hdup⟩ := List.any_eq_true.1 hany
      rw [h.2.2 y hy x (List.mem_singleton.2 rfl)] at hdup
      cases hdup

/-- Nothing that is kept is dropped again. -/
theorem keepFirst_idem (dup : α → α → Bool) (l : List α) :
    keepFirst dup (keepFirst dup l) = keepFirst dup l :=
  (keepFirst_eq_self_iff dup _).2 (keepFirst_pairwise dup l)

/-- What the walk does not keep repeats something it keeps. -/
theorem mem_or_dup (dup : α → α → Bool) {l : List α} {x : α} (hx : x ∈ l) :
    x ∈ keepFirst dup l ∨ ∃ y ∈ keepFirst dup l, dup x y = true := by
  obtain ⟨pre, post, rfl⟩ := List.append_of_mem hx
  refine (kept_or_dup dup pre x post).imp_right ?_
  rintro ⟨y, hy, hdup⟩
  exact ⟨y, (prefix_keepFirst dup pre (x :: post)).subset hy, hdup⟩

/-- Where two tests keep the same of a longer list, they did so before its last element. -/
theorem keepFirst_eq_of_concat {l : List α} {x : α}
    (hsub : ∀ y ∈ l ++ [x], ∀ z ∈ l ++ [x], dup' y z = true → dup y z = true)
    (h : keepFirst dup' (l ++ [x]) = keepFirst dup (l ++ [x])) : keepFirst dup' l = keepFirst dup l := by
  have hx : x ∈ l ++ [x] := by simp
  have hl : ∀ y ∈ l, y ∈ l ++ [x] := fun y hy => List.mem_append_left _ hy
  rw [keepFirst_concat, keepFirst_concat] at h
  unfold keepStep at h
  split at h
  · next hany' =>
    split at h
    · exact h
    · next hany =>
      -- `x` would be last of what `dup'` keeps, and repeat something there
      obtain ⟨y, hy, hdup⟩ := List.any_eq_true.1 hany'
      have hxl : x ∈ l := (keepFirst_sublist dup' l).subset (by rw [h]; simp)
      exfalso
      apply hany
      rw [List.any_eq_true]
      rcases mem_or_dup dup hxl with hkept | hrep
      · rw [h, List.mem_append, List.mem_singleton] at hy
        rcases hy with hy | rfl
        · exact ⟨y, hy, hsub x hx y (hl y ((keepFirst_sublist dup l).subset hy)) hdup⟩
        · exact ⟨y, hkept, hsub y hx y hx hdup⟩
      · exact hrep
  · split at h
    · next hany =>
      -- `x` would be last of what `dup` keeps, and repeat nothing there
      obtain ⟨y, hy, hdup⟩ := List.any_eq_true.1 hany
      have hxl : x ∈ l := (keepFirst_sublist dup l).subset (by rw [← h]; simp)
      have hpair := keepFirst_pairwise dup l
      rw [← h, List.pairwise_append] at hpair
      have hlast : ∀ z ∈ keepFirst dup' l, dup x z = false := fun z hz =>
        hpair.2.2 z hz x (List.mem_singleton.2 rfl)
      have hself : x ∈ keepFirst dup' l := by
        rcases mem_or_dup dup' hxl with hkept | ⟨z, hz, hdup'⟩
        · exact hkept
        · have := hsub x hx z (hl z ((keepFirst_sublist dup' l).subset hz)) hdup'
          rw [hlast z hz] at this
          cases this
      rw [← h, List.mem_append, List.mem_singleton] at hy
      have hno : dup x y = false := by
        rcases hy with hy | rfl
        · exact hlast y hy
        · exact hlast y hself
      rw [hno] at hdup
      cases hdup
    · exact (List.append_inj' h rfl).1

/-- The condition at every element of a longer list is that of the list and that at its end. -/
theorem forall_split_concat {P : List α → α → Prop} {l : List α} {x : α} :
    (∀ pre y post, l ++ [x] = pre ++ y :: post → P pre y) ↔
      (∀ pre y post, l = pre ++ y :: post → P pre y) ∧ P l x := by
  constructor
  · refine fun h => ⟨fun pre y post hl => h pre y (post ++ [x]) ?_, h l x [] rfl⟩
    rw [hl]
    simp
  · rintro ⟨hl, hx⟩ pre y post h
    rcases List.eq_nil_or_concat post with rfl | ⟨post, z, rfl⟩
    · obtain ⟨rfl, heq⟩ := List.append_inj' h rfl
      obtain rfl : x = y := by simpa using heq
      exact hx
    · apply hl pre y post
      rw [List.concat_eq_append, ← List.cons_append, ← List.append_assoc] at h
      exact (List.append_inj' h rfl).1

/-- A test that finds only repeats keeps the same elements exactly if it finds one of every
element that repeats something kept. -/
theorem keepFirst_eq_iff (dup dup' : α → α → Bool) (l : List α)
    (hsub : ∀ x ∈ l, ∀ y ∈ l, dup' x y = true → dup x y = true) :
    keepFirst dup' l = keepFirst dup l ↔ ∀ pre x post, l = pre ++ x :: post →
      (∃ y ∈ keepFirst dup pre, dup x y = true) → ∃ y ∈ keepFirst dup pre, dup' x y = true := by
  induction l using List.reverseRecOn with
  | nil => exact iff_of_true rfl fun pre x post h => absurd h (by simp)
  | append_singleton l x ih =>
    have hl : ∀ y ∈ l, y ∈ l ++ [x] := fun y hy => List.mem_append_left _ hy
    rw [forall_split_concat, ← ih fun y hy z hz => hsub y (hl y hy) z (hl z hz)]
    constructor
    · intro h
      have hlx := keepFirst_eq_of_concat hsub h
      refine ⟨hlx, fun hrep => ?_⟩
      by_contra hno
      have hlen := congrArg List.length h
      rw [keepFirst_concat, keepFirst_concat, hlx, keepStep, keepStep,
        if_neg (by rwa [List.any_eq_true]), if_pos (List.any_eq_true.2 hrep), List.length_append,
        List.length_singleton] at hlen
      omega
    · rintro ⟨hlx, hrep⟩
      rw [keepFirst_concat, keepFirst_concat, hlx]
      unfold keepStep
      by_cases hany : (keepFirst dup l).any (dup x) = true
      · rw [if_pos hany, if_pos (List.any_eq_true.2 (hrep (List.any_eq_true.1 hany)))]
      · rw [if_neg hany, if_neg]
        rw [List.any_eq_true] at hany ⊢
        rintro ⟨y, hy, hdup⟩
        exact hany ⟨y, hy, hsub x (by simp) y (hl y ((keepFirst_sublist dup l).subset hy)) hdup⟩

/-- The places kept before a place are those kept of what is before it. -/
theorem mem_keptPlaces_before {l pre post : List α} {x : α} (h : l = pre ++ x :: post)
    {q : α × Nat} : q ∈ keptPlaces dup l ∧ q.2 < pre.length ↔ q ∈ keptPlaces dup pre := by
  have hzip : l.zipIdx = pre.zipIdx ++ (x, pre.length) :: post.zipIdx (pre.length + 1) := by
    rw [h, List.zipIdx_append, List.zipIdx_cons, Nat.zero_add]
  obtain ⟨more, heq, hsub⟩ := foldl_keepStep (fun p q : α × Nat => dup p.1 q.1)
    ((x, pre.length) :: post.zipIdx (pre.length + 1)) (keptPlaces dup pre)
  have hkept : keptPlaces dup l = keptPlaces dup pre ++ more := by
    rw [keptPlaces, hzip, keepFirst_append]
    exact heq
  have hlow : ∀ p ∈ keptPlaces dup pre, p.2 < pre.length := by
    intro p hp
    have := (List.mem_zipIdx ((keepFirst_sublist _ _).subset hp)).2.1
    omega
  have hhigh : ∀ p ∈ more, pre.length ≤ p.2 := by
    intro p hp
    rcases List.mem_cons.1 (hsub.subset hp) with rfl | hp
    · exact Nat.le_refl _
    · have := (List.mem_zipIdx hp).1
      omega
  rw [hkept, List.mem_append]
  constructor
  · rintro ⟨hq | hq, hlt⟩
    · exact hq
    · have := hhigh q hq
      omega
  · exact fun hq => ⟨.inl hq, hlow q hq⟩

/-- A place is kept unless it repeats one kept before it. -/
theorem mem_keptPlaces (dup : α → α → Bool) {l pre post : List α} {x : α} (h : l = pre ++ x :: post) :
    (x, pre.length) ∈ keptPlaces dup l ↔ ¬ ∃ y ∈ keepFirst dup pre, dup x y = true := by
  have hzip : l.zipIdx = pre.zipIdx ++ (x, pre.length) :: post.zipIdx (pre.length + 1) := by
    rw [h, List.zipIdx_append, List.zipIdx_cons, Nat.zero_add]
  have hbefore : (∃ y ∈ keepFirst dup pre, dup x y = true) ↔
      ∃ q ∈ keptPlaces dup pre, dup x q.1 = true := by
    rw [← map_keptPlaces dup pre]
    constructor
    · rintro ⟨y, hy, hdup⟩
      obtain ⟨q, hq, rfl⟩ := List.mem_map.1 hy
      exact ⟨q, hq, hdup⟩
    · rintro ⟨q, hq, hdup⟩
      exact ⟨q.1, List.mem_map_of_mem hq, hdup⟩
  have hcase := kept_or_dup (fun p q : α × Nat => dup p.1 q.1) pre.zipIdx (x, pre.length)
    (post.zipIdx (pre.length + 1))
  rw [← hzip] at hcase
  rw [hbefore]
  constructor
  · rintro hkept ⟨q, hq, hdup⟩
    obtain ⟨hql, hlt⟩ := (mem_keptPlaces_before h).2 hq
    exact (isSelection_keptPlaces dup l).not_dup _ hkept q hql hlt hdup
  · exact fun hno => hcase.resolve_right hno

end

/-! ## Picks -/

theorem takeOut_perm {pick : List α → List α → Nat}
    (hpick : ∀ taken left, left ≠ [] → pick taken left < left.length) :
    ∀ (fuel : Nat) (taken left : List α), left.length ≤ fuel →
      (takeOut pick fuel taken left).Perm (taken ++ left) := by
  intro fuel
  induction fuel with
  | zero =>
    intro taken left h
    rw [List.length_eq_zero_iff.1 (Nat.le_zero.1 h), List.append_nil]
    exact List.Perm.refl _
  | succ fuel ih =>
    intro taken left h
    unfold takeOut
    by_cases hleft : left = []
    · subst hleft
      simp
    · have hlt := hpick taken left hleft
      rw [List.getElem?_eq_getElem hlt]
      have hlen : (left.eraseIdx (pick taken left)).length ≤ fuel := by
        rw [List.length_eraseIdx_of_lt hlt]
        omega
      refine (ih _ _ hlen).trans ?_
      rw [List.append_assoc]
      exact (List.getElem_cons_eraseIdx_perm hlt).append_left taken

theorem runPicks_perm {pick : List α → List α → Nat}
    (hpick : ∀ taken left, left ≠ [] → pick taken left < left.length) (l : List α) :
    (runPicks pick l).Perm l := takeOut_perm hpick l.length [] l (Nat.le_refl _)

theorem prefix_takeOut (pick : List α → List α → Nat) : ∀ (fuel : Nat) (taken left : List α),
    taken <+: takeOut pick fuel taken left := by
  intro fuel
  induction fuel with
  | zero => exact fun taken left => List.prefix_rfl
  | succ fuel ih =>
    intro taken left
    unfold takeOut
    split
    · exact (List.prefix_append taken _).trans (ih _ _)
    · exact List.prefix_rfl

/-- The round that takes `c` chooses it from what is not taken yet, in its order. -/
theorem takeOut_split {pick : List α → List α → Nat}
    (hpick : ∀ taken left, left ≠ [] → pick taken left < left.length) :
    ∀ (fuel : Nat) (taken left pre : List α) (c : α) (post : List α), left.length ≤ fuel →
      takeOut pick fuel taken left = taken ++ (pre ++ c :: post) →
      ∃ rest, rest.Sublist left ∧ rest.Perm (c :: post) ∧ rest[pick (taken ++ pre) rest]? = some c := by
  intro fuel
  induction fuel with
  | zero =>
    intro taken left pre c post _ h
    have hlen := congrArg List.length h
    unfold takeOut at hlen
    simp only [List.length_append, List.length_cons] at hlen
    omega
  | succ fuel ih =>
    intro taken left pre c post hfuel h
    have hperm := takeOut_perm hpick (fuel + 1) taken left hfuel
    rw [h, List.perm_append_left_iff] at hperm
    have hleft : left ≠ [] := by
      rintro rfl
      simpa using hperm.length_eq
    have hlt := hpick taken left hleft
    unfold takeOut at h
    rw [List.getElem?_eq_getElem hlt] at h
    have hnext := prefix_takeOut pick fuel (taken ++ [left[pick taken left]])
      (left.eraseIdx (pick taken left))
    dsimp only at h
    rw [h, List.prefix_append_right_inj] at hnext
    cases pre with
    | nil =>
      have hc : left[pick taken left] = c := by simpa using hnext
      refine ⟨left, List.Sublist.refl _, hperm.symm, ?_⟩
      rw [List.append_nil, List.getElem?_eq_getElem hlt, hc]
    | cons x pre =>
      have hx : left[pick taken left] = x := by simpa using hnext
      have hlen : (left.eraseIdx (pick taken left)).length ≤ fuel := by
        rw [List.length_eraseIdx_of_lt hlt]
        omega
      obtain ⟨rest, hsub, hrest, hget⟩ := ih (taken ++ [x]) _ pre c post hlen (by
        rw [← hx, h, hx]
        simp)
      refine ⟨rest, hsub.trans (List.eraseIdx_sublist _ _), hrest, ?_⟩
      rw [← hget]
      simp

theorem runPicks_split {pick : List α → List α → Nat} (pre : List α)
    (hpick : ∀ taken left, left ≠ [] → pick taken left < left.length) {l : List α} {c : α}
    {post : List α} (h : runPicks pick l = pre ++ c :: post) :
    ∃ left, left.Sublist l ∧ left.Perm (c :: post) ∧ left[pick pre left]? = some c :=
  takeOut_split hpick l.length [] l pre c post (Nat.le_refl _) h

/-- Where the first of what is left is always taken, the order stays. -/
theorem takeOut_eq_self {pick : List α → List α → Nat} : ∀ (fuel : Nat) (taken left : List α),
    left.length ≤ fuel → (∀ pre post, left = pre ++ post → post ≠ [] → pick (taken ++ pre) post = 0) →
    takeOut pick fuel taken left = taken ++ left := by
  intro fuel
  induction fuel with
  | zero =>
    intro taken left h _
    rw [List.length_eq_zero_iff.1 (Nat.le_zero.1 h), List.append_nil]
    rfl
  | succ fuel ih =>
    intro taken left hfuel hpick
    unfold takeOut
    cases left with
    | nil => simp
    | cons x left =>
      have hzero : pick taken (x :: left) = 0 := by
        simpa using hpick [] (x :: left) rfl (List.cons_ne_nil x left)
      rw [hzero]
      show takeOut pick fuel (taken ++ [x]) left = _
      rw [ih _ _ (Nat.le_of_succ_le_succ hfuel), List.append_assoc, List.singleton_append]
      intro pre post hsplit hpost
      rw [List.append_assoc]
      exact hpick (x :: pre) post (by rw [hsplit, List.cons_append]) hpost

theorem runPicks_eq_self {pick : List α → List α → Nat} {l : List α}
    (h : ∀ pre post, l = pre ++ post → post ≠ [] → pick pre post = 0) : runPicks pick l = l :=
  takeOut_eq_self l.length [] l (Nat.le_refl _) h

end Greedy
