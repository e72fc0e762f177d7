import Mathlib.Algebra.BigOperators.Group.Finset.Basic
import Mathlib.Algebra.BigOperators.Ring.Finset
import CodeSearch.Lib.Binary
import CodeSearch.Search

/-!
# The feature-hash embedding

`featureHashEmbed` lowercases a text, splits it at every non-alphanumeric character
and adds each word's sign to the bucket its digest names, then scales the vector to
unit length.  It has words of its own: `codeTokens` also splits inside them.

    the signs of the words of s and of t add up alike, lane by lane and up to a power of two →
      ∀ d, 1 ≤ d → featureHashEmbed s d = featureHashEmbed t d         (featureHashEmbed_agree)
    ∀ d, 1 ≤ d → featureHashEmbed s d = featureHashEmbed t d →
      in every lane they add up to the same sign                      (featureHashEmbed_agree)

Below 2^24 words the counts in the buckets are exact; the norm and the quotients are
rounded.  BLAKE3 is a parameter.
-/

namespace CodeSearch

open Binary

/-! ## Algorithm -/

/-- The bytes of the BLAKE3 digest of a text. -/
abbrev Blake3 := Text → Fin 32 → UInt8

section
variable (U : CharTables) (blake3 : Blake3)

/-- Split the lowercased text on non-alphanumerics; empty words are dropped. -/
def featureWords (text : Text) : List Text :=
  ((U.toLowercase text).splitOnP fun c => !U.isAlphanumeric c).filter fun w => !w.isEmpty

/-- `u32::from_le_bytes` of the first four bytes. -/
def hashLane (tok : Text) : UInt32 :=
  f32FromLeBytes (blake3 tok 0) (blake3 tok 1) (blake3 tok 2) (blake3 tok 3)

/-- The sign in bit 0 of the fifth byte. -/
def hashSign (tok : Text) : Int := if blake3 tok 4 &&& 1 = 0 then 1 else -1

/-- `vec[bucket] += sign`. -/
def addWord (dim : Nat) (vec : List F32) (tok : Text) : List F32 :=
  vec.modify ((hashLane blake3 tok).toNat % dim) (· + .ofInt (hashSign blake3 tok))

/-- Divide by the L2 norm, unless it is zero. -/
def l2Normalize (vec : List F32) : List F32 :=
  let norm := ((vec.map fun v => v * v).foldl (· + ·) (Number.round 0)).sqrt
  if Number.lt (.round 0) norm then vec.map (· / norm) else vec

/-- A feature-hashed embedding of `text` with `dim` buckets. -/
def featureHashEmbed (text : Text) (dim : Nat) : List F32 :=
  let vec : List F32 := List.replicate dim (.round 0)
  let tokens := featureWords U text
  if tokens.isEmpty then vec
  else l2Normalize (tokens.foldl (addWord blake3 dim) vec)

end

/-! ## Buckets -/

section
variable {blake3 : Blake3}

/-- The signs of the words in the lanes `p` holds of, added up. -/
def signTotal (blake3 : Blake3) (p : UInt32 → Bool) (toks : List Text) : Int :=
  ((toks.filter fun tok => p (hashLane blake3 tok)).map (hashSign blake3)).sum

/-- The signs of the words in a lane, added up. -/
def laneTotal (blake3 : Blake3) (b : UInt32) (toks : List Text) : Int :=
  signTotal blake3 (fun lane => decide (lane = b)) toks

theorem signTotal_cons (p : UInt32 → Bool) (tok : Text) (toks : List Text) :
    signTotal blake3 p (tok :: toks) =
      (if p (hashLane blake3 tok) then hashSign blake3 tok else 0) + signTotal blake3 p toks := by
  unfold signTotal
  by_cases h : p (hashLane blake3 tok) = true
  · rw [List.filter_cons, if_pos h, if_pos h, List.map_cons, List.sum_cons]
  · rw [List.filter_cons, if_neg h, if_neg h, zero_add]

/-- The total of some lanes is the sum over these lanes. -/
theorem signTotal_eq_sum (p : UInt32 → Bool) (lanes : Finset UInt32) (toks : List Text)
    (h : ∀ tok ∈ toks, hashLane blake3 tok ∈ lanes) :
    signTotal blake3 p toks = ∑ b ∈ lanes with p b = true, laneTotal blake3 b toks := by
  induction toks with
  | nil => exact (Finset.sum_eq_zero fun _ _ => rfl).symm
  | cons tok toks ih =>
    have hmem : hashLane blake3 tok ∈ lanes := h tok List.mem_cons_self
    have hlane : ∀ b, laneTotal blake3 b (tok :: toks) =
        (if hashLane blake3 tok = b then hashSign blake3 tok else 0) + laneTotal blake3 b toks := by
      intro b
      unfold laneTotal
      rw [signTotal_cons]
      simp only [decide_eq_true_eq]
    rw [signTotal_cons, ih fun tok htok => h tok (List.mem_cons_of_mem _ htok)]
    simp only [hlane]
    rw [Finset.sum_add_distrib, Finset.sum_ite_eq]
    congr 1
    by_cases hp : p (hashLane blake3 tok) = true
    · rw [if_pos hp, if_pos (Finset.mem_filter.2 ⟨hmem, hp⟩)]
    · have hin : hashLane blake3 tok ∉ lanes.filter fun b => p b = true :=
        fun hin => hp (Finset.mem_filter.1 hin).2
      rw [if_neg hp, if_neg hin]

/-- Integers are added without rounding, as far as they fit. -/
theorem ofInt_eq {n : Int} (h : |n| < 2 ^ 24) :
    (Number.ofInt n : F32) = .finite n (fits_intCast h) := by
  have hfits : Binary.Fits binary32 (n : Rat) := fits_intCast h
  have hnear := nearest_of_fits hfits
  have hround : (Number.round n : F32) = .finite (nearest binary32 n) _ :=
    dif_pos (hnear.symm ▸ hfits.lt)
  exact hround.trans (by simp only [hnear])

theorem ofInt_add {m n : Int} (hm : |m| < 2 ^ 24) (hn : |n| < 2 ^ 24) :
    (Number.ofInt m + Number.ofInt n : F32) = .ofInt (m + n) := by
  rw [ofInt_eq hm, ofInt_eq hn]
  show Number.round ((m : Rat) + n) = Number.round ((m + n : Int) : Rat)
  rw [Int.cast_add]

theorem abs_hashSign (tok : Text) : |hashSign blake3 tok| = 1 := by
  unfold hashSign
  split <;> rfl

/-- Before it is scaled, a bucket holds the signs of the words whose lane falls in it: the counts
of fewer than 2^24 words are exact. -/
theorem foldl_addWord (dim : Nat) : ∀ (toks : List Text) (f : Nat → Int), 0 < dim →
    (∀ i, |f i| + toks.length < 2 ^ 24) →
    toks.foldl (addWord blake3 dim) ((List.range dim).map fun i => .ofInt (f i)) =
      (List.range dim).map fun i =>
        .ofInt (f i + signTotal blake3 (fun lane => decide (lane.toNat % dim = i)) toks) := by
  intro toks
  induction toks with
  | nil =>
    intro f _ _
    refine List.map_congr_left fun i _ => ?_
    show Number.ofInt (f i) = Number.ofInt (f i + 0)
    rw [add_zero]
  | cons tok toks ih =>
    intro f hdim hlen
    let g : Nat → Int := fun i =>
      f i + if (hashLane blake3 tok).toNat % dim = i then hashSign blake3 tok else 0
    have hsign : |hashSign blake3 tok| = 1 := abs_hashSign tok
    have hstep : addWord blake3 dim ((List.range dim).map fun i => .ofInt (f i)) tok =
        (List.range dim).map fun i => .ofInt (g i) := by
      unfold addWord
      refine List.ext_getElem (by simp) fun i hi _ => ?_
      have hfi : |f i| < 2 ^ 24 := by
        have := hlen i
        omega
      rw [List.getElem_modify]
      by_cases hb : (hashLane blake3 tok).toNat % dim = i
      · simp only [hb, if_true, List.getElem_map, List.getElem_range, g]
        exact ofInt_add hfi (hsign.trans_lt (by decide))
      · simp only [hb, if_false, List.getElem_map, List.getElem_range, g, add_zero]
    have hnext : ∀ i, |g i| + toks.length < 2 ^ 24 := by
      intro i
      have hfi := hlen i
      have hle : |g i| ≤ |f i| + 1 := by
        refine (abs_add_le _ _).trans (Int.add_le_add_left ?_ _)
        split
        · exact hsign.le
        · decide
      rw [List.length_cons, Nat.cast_succ] at hfi
      omega
    rw [List.foldl_cons, hstep, ih g hdim hnext]
    refine List.map_congr_left fun i _ => ?_
    rw [signTotal_cons, add_assoc]
    simp only [decide_eq_true_eq]

end

/-! ## The norm -/

section

/-- A sum of squares in the making: zero, or at least one and in range. -/
structure SquareSum (s : Rat) : Prop where
  zero_or_one_le : s = 0 ∨ 1 ≤ s
  le : s ≤ 2 ^ (73 : Int)

theorem SquareSum.nonneg {s : Rat} (h : SquareSum s) : 0 ≤ s :=
  h.zero_or_one_le.elim (fun h => h.ge) zero_le_one.trans

theorem one_le_nearest32 {x : Rat} (h : 1 ≤ x) : 1 ≤ nearest binary32 x := by
  have hlow : (2 : Rat) ^ (0 : Int) ≤ nearest binary32 x :=
    two_zpow_le_nearest (by decide) (by rw [zpow_zero]; exact h)
  rwa [zpow_zero] at hlow

theorem zero_or_one_le_nearest {x : Rat} (h : x = 0 ∨ 1 ≤ x) :
    nearest binary32 x = 0 ∨ 1 ≤ nearest binary32 x :=
  h.imp (fun hx => by rw [hx, nearest_zero]) one_le_nearest32

theorem zero_of_nearest {x : Rat} (h : x = 0 ∨ 1 ≤ x) (hzero : nearest binary32 x = 0) : x = 0 := by
  refine h.resolve_right fun hx => ?_
  linarith [one_le_nearest32 hx]

theorem zero_or_one_le_add {x y : Rat} (hx : x = 0 ∨ 1 ≤ x) (hy : y = 0 ∨ 1 ≤ y) :
    x + y = 0 ∨ 1 ≤ x + y := by
  rcases hx with hx | hx <;> rcases hy with hy | hy
  · exact .inl (by rw [hx, hy, add_zero])
  all_goals exact .inr (by linarith)

/-- Rounding commutes with powers of two where a value is zero or at least one. -/
theorem nearest_scale (j : Nat) {x : Rat} (h : x = 0 ∨ 1 ≤ x) :
    nearest binary32 (2 ^ j * x) = 2 ^ j * nearest binary32 x := by
  rcases h with hx | hx
  · rw [hx, mul_zero, nearest_zero, mul_zero]
  · have hsmall : (2 : Rat) ^ (binary32.minExp + binary32.digits) ≤ 1 := by decide +kernel
    have hx' : 1 ≤ 2 ^ j * x := one_le_mul_of_one_le_of_one_le (one_le_pow₀ one_le_two) hx
    have hscale := nearest_two_zpow_mul (j := j) (hsmall.trans (hx.trans (le_abs_self x)))
    rw [zpow_natCast] at hscale
    exact hscale (hsmall.trans (hx'.trans (le_abs_self _)))

/-- The square of an entry, rounded. -/
theorem square_entry {a : Int} (h : |a| < 2 ^ 24) :
    ((a : Rat) * a = 0 ∨ 1 ≤ (a : Rat) * a) ∧ nearest binary32 (a * a) ≤ 2 ^ (48 : Int) := by
  have hsq : a * a = |a| * |a| := (abs_mul_abs_self a).symm
  have hle : a * a ≤ 2 ^ 48 := by
    have := abs_nonneg a
    nlinarith
  constructor
  · by_cases ha : a = 0
    · left
      rw [ha, Int.cast_zero, mul_zero]
    · right
      have hpos := abs_pos.2 ha
      have hone : 1 ≤ a * a := by nlinarith
      exact_mod_cast hone
  · have habs : |(a : Rat) * a| ≤ 2 ^ (48 : Int) := by
      rw [abs_mul_self]
      exact_mod_cast hle
    exact (le_abs_self _).trans (abs_nearest_le_zpow (by decide) habs)

/-- One more square: past the range nothing is added any more. -/
theorem SquareSum.add {s : Rat} (hs : SquareSum s) {a : Int} (ha : |a| < 2 ^ 24) :
    SquareSum (nearest binary32 (s + nearest binary32 (a * a))) := by
  obtain ⟨hone, hle⟩ := square_entry ha
  have hsum := zero_or_one_le_add hs.zero_or_one_le (zero_or_one_le_nearest hone)
  refine ⟨zero_or_one_le_nearest hsum, ?_⟩
  rcases hsum with hzero | hpos
  · rw [hzero, nearest_zero]
    exact (two_zpow_pos 73).le
  · apply nearest_le_two_zpow (by decide) (by linarith)
    have hhalf : (2 : Rat) ^ (48 : Int) < 2 ^ (73 - binary32.digits : Int) := by decide +kernel
    linarith [hs.le]

/-- The sum in machine arithmetic. -/
theorem SquareSum.add_eq {s : Rat} (hfits : Binary.Fits binary32 s) (hs : SquareSum s) {a : Int}
    (ha : |a| < 2 ^ 24) : ∃ hfits',
    (.finite s hfits + Number.ofInt a * Number.ofInt a : F32) =
      .finite (nearest binary32 (s + nearest binary32 (a * a))) hfits' := by
  obtain ⟨hone, hle⟩ := square_entry ha
  have hq := zero_or_one_le_nearest hone
  have hq0 : 0 ≤ nearest binary32 (a * a) := hq.elim (fun h => h.ge) zero_le_one.trans
  obtain ⟨hsq, heq⟩ : ∃ hsq, (Number.round ((a : Rat) * a) : F32) = .finite _ hsq := by
    refine Number.round_eq (k := 48) (by decide) (by decide) ?_
    rw [abs_mul_self]
    have hint : a * a ≤ 2 ^ 48 := by
      have := abs_mul_abs_self a
      have := abs_nonneg a
      nlinarith
    exact_mod_cast hint
  have hmul : (Number.ofInt a * Number.ofInt a : F32) = Number.round ((a : Rat) * a) := by
    rw [ofInt_eq ha]
    rfl
  rw [hmul, heq]
  refine Number.round_eq (k := 74) (by decide) (by decide) ?_
  rw [abs_of_nonneg (add_nonneg hs.nonneg hq0)]
  have hpow : (2 : Rat) ^ (73 : Int) + 2 ^ (48 : Int) ≤ 2 ^ (74 : Int) := by decide +kernel
  linarith [hs.le]

/-- Scaling the entries by a power of two scales the sum of their squares. -/
theorem square_scale (j : Nat) {s : Rat} (hs : SquareSum s) {a : Int} (ha : |a| < 2 ^ 24) :
    nearest binary32 (2 ^ (2 * j) * s + nearest binary32 ((2 ^ j * a : Int) * (2 ^ j * a : Int))) =
      2 ^ (2 * j) * nearest binary32 (s + nearest binary32 (a * a)) := by
  have hone := (square_entry ha).1
  have hsq : ((2 ^ j * a : Int) : Rat) * (2 ^ j * a : Int) = 2 ^ (2 * j) * ((a : Rat) * a) := by
    push_cast
    ring
  rw [hsq, nearest_scale _ hone, ← mul_add,
    nearest_scale _ (zero_or_one_le_add hs.zero_or_one_le (zero_or_one_le_nearest hone))]

theorem abs_lt_of_scaled {j : Nat} {a n : Int} (h : |2 ^ j * a| < n) : |a| < n := by
  rw [abs_mul, abs_of_pos (pow_pos two_pos j)] at h
  exact (le_mul_of_one_le_left (abs_nonneg a) (one_le_pow₀ one_le_two)).trans_lt h

/-- The sums of squares of the entries and of the entries scaled by a power of two. -/
theorem foldl_squares (j : Nat) (v : List Int) : (∀ a ∈ v, |2 ^ j * a| < 2 ^ 24) →
    ∀ (s : Rat) (hs : Binary.Fits binary32 s) (hs' : Binary.Fits binary32 (2 ^ (2 * j) * s)),
      SquareSum s → SquareSum (2 ^ (2 * j) * s) →
    ∃ t ht ht', SquareSum t ∧ SquareSum (2 ^ (2 * j) * t) ∧ (t = 0 → s = 0 ∧ ∀ a ∈ v, a = 0) ∧
      ((v.map Number.ofInt).map fun x : F32 => x * x).foldl (· + ·) (.finite s hs) = .finite t ht ∧
      ((v.map fun a => Number.ofInt (2 ^ j * a)).map fun x : F32 => x * x).foldl (· + ·)
        (.finite (2 ^ (2 * j) * s) hs') = .finite (2 ^ (2 * j) * t) ht' := by
  induction v with
  | nil => exact fun _ s hs hs' hsum hsum' => ⟨s, hs, hs', hsum, hsum', by simp, rfl, rfl⟩
  | cons a v ih =>
    intro hv s hs hs' hsum hsum'
    have hscaled := hv a List.mem_cons_self
    have ha := abs_lt_of_scaled hscaled
    obtain ⟨hfits, heq⟩ := hsum.add_eq hs ha
    obtain ⟨hfits', heq'⟩ := hsum'.add_eq hs' hscaled
    have hnext' := hsum'.add hscaled
    simp only [square_scale j hsum ha] at hnext' heq'
    rw [square_scale j hsum ha] at hfits'
    obtain ⟨t, ht, ht', hsum₁, hsum₂, hzero, hfold, hfold'⟩ := ih
      (fun b hb => hv b (List.mem_cons_of_mem a hb)) _ hfits hfits' (hsum.add ha) hnext'
    refine ⟨t, ht, ht', hsum₁, hsum₂, fun h => ?_, ?_, ?_⟩
    · obtain ⟨hstep, hrest⟩ := hzero h
      have hone := (square_entry ha).1
      have hadd := zero_of_nearest
        (zero_or_one_le_add hsum.zero_or_one_le (zero_or_one_le_nearest hone)) hstep
      have hq := (zero_or_one_le_nearest hone).elim (fun h => h.ge) zero_le_one.trans
      have hs0 : s = 0 := by linarith [hsum.nonneg]
      have ha0 : (a : Rat) * a = 0 := zero_of_nearest hone (by linarith)
      refine ⟨hs0, fun b hb => ?_⟩
      rcases List.mem_cons.1 hb with rfl | hb
      · exact_mod_cast mul_self_eq_zero.1 ha0
      · exact hrest b hb
    · rw [List.map_cons, List.map_cons, List.foldl_cons, heq]
      exact hfold
    · rw [List.map_cons, List.map_cons, List.foldl_cons, heq']
      exact hfold'

/-! ## Scaled vectors -/

/-- What the entries of a vector with that sum of squares are divided by. -/
def divisor (t : Rat) : Rat := if t = 0 then 1 else nearestSqrt binary32 t

theorem one_le_divisor {t : Rat} (h : SquareSum t) : 1 ≤ divisor t := by
  unfold divisor
  rcases h.zero_or_one_le with hzero | hone
  · rw [if_pos hzero]
  · rw [if_neg (by linarith)]
    have hpow : (2 : Rat) ^ (2 * 0 : Int) ≤ t := by simpa using hone
    exact (zpow_zero (2 : Rat)).symm.le.trans (zpow_le_nearestSqrt (by decide) hpow)

theorem divisor_le {t : Rat} (h : SquareSum t) : divisor t ≤ 2 ^ (37 : Int) := by
  unfold divisor
  split
  · decide +kernel
  · exact nearestSqrt_le_zpow (by decide) h.nonneg (h.le.trans (two_zpow_le (by decide)))

theorem divisor_scale (j : Nat) {t : Rat} (hone : 1 ≤ t) :
    divisor (2 ^ (2 * j) * t) = 2 ^ j * divisor t := by
  have hone' : 1 ≤ 2 ^ (2 * j) * t := one_le_mul_of_one_le_of_one_le (one_le_pow₀ one_le_two) hone
  have hsmall : (2 : Rat) ^ (2 * (binary32.minExp + binary32.digits)) ≤ 1 := by decide +kernel
  have hpow : (2 : Rat) ^ (2 * j : Int) = 2 ^ (2 * j) := by exact_mod_cast zpow_natCast (2 : Rat) (2 * j)
  have hscale := nearestSqrt_two_zpow_mul (j := j) (hsmall.trans hone)
  rw [hpow, zpow_natCast] at hscale
  unfold divisor
  rw [if_neg (by linarith), if_neg (by linarith)]
  exact hscale (hsmall.trans hone')

/-- The entries are divided by the norm; only a vector of zeros has none. -/
theorem l2Normalize_eq {v : List Int} (hv : ∀ a ∈ v, |a| < 2 ^ 24) {t : Rat} (ht : Binary.Fits binary32 t)
    (hsum : SquareSum t) (hzero : t = 0 → ∀ a ∈ v, a = 0)
    (heq : ((v.map Number.ofInt).map fun x : F32 => x * x).foldl (· + ·) (.round 0) = .finite t ht) :
    l2Normalize (v.map .ofInt) = v.map fun a => .round (a / divisor t) := by
  obtain ⟨hroot, hsqrt⟩ := Number.sqrt_eq (k := 37) (by decide) (by decide) hsum.nonneg
    (hsum.le.trans (two_zpow_le (by decide))) ht
  obtain ⟨hfz, hz⟩ : ∃ hfz, (Number.round 0 : F32) = .finite 0 hfz := Number.round_zero
  have htest : Number.lt (.finite 0 hfz) (.finite _ hroot) =
    decide (0 < nearestSqrt binary32 t) := rfl
  unfold l2Normalize
  dsimp only
  rw [heq, hsqrt, hz]
  rcases hsum.zero_or_one_le with rfl | hone
  · rw [if_neg (by rw [htest, nearestSqrt_zero]; decide)]
    refine List.map_congr_left fun a ha => ?_
    rw [hzero rfl a ha, Int.cast_zero, zero_div]
    rfl
  · have hne : t ≠ 0 := by linarith
    have hdiv : nearestSqrt binary32 t = divisor t := (if_neg hne).symm
    have hpos := one_le_divisor hsum
    rw [← hdiv] at hpos ⊢
    rw [if_pos (by rw [htest]; exact decide_eq_true (by linarith)), List.map_map]
    refine List.map_congr_left fun a ha => ?_
    show Number.ofInt a / Number.finite _ hroot = _
    rw [ofInt_eq (hv a ha)]
    exact if_neg (by linarith)

/-- The entries of a scaled vector are rounded quotients by a divisor in range, the same ones
when the vector was scaled by a power of two before. -/
theorem l2Normalize_scale (j : Nat) {v : List Int} (hv : ∀ a ∈ v, |2 ^ j * a| < 2 ^ 24) :
    ∃ norm : Rat, 1 ≤ norm ∧ norm ≤ 2 ^ (37 : Int) ∧
      l2Normalize (v.map .ofInt) = v.map (fun a => .round (a / norm)) ∧
      l2Normalize (v.map fun a => .ofInt (2 ^ j * a)) = v.map fun a => .round (a / norm) := by
  obtain ⟨hfz, hz⟩ : ∃ hfz, (Number.round 0 : F32) = .finite 0 hfz := Number.round_zero
  have hsum0 : SquareSum 0 := ⟨.inl rfl, (two_zpow_pos 73).le⟩
  have hfz' : Binary.Fits binary32 (2 ^ (2 * j) * 0) := by rwa [mul_zero]
  have hz' : (Number.round 0 : F32) = .finite (2 ^ (2 * j) * 0) hfz' := by
    rw [hz]
    simp only [mul_zero]
  obtain ⟨t, ht, ht', hsum, hsum', hzero, hfold, hfold'⟩ :=
    foldl_squares j v hv 0 hfz hfz' hsum0 (by rwa [mul_zero])
  rw [← hz] at hfold
  rw [← hz'] at hfold'
  have hscaled : (v.map fun a => Number.ofInt (2 ^ j * a) : List F32) =
      (v.map (2 ^ j * ·)).map .ofInt := by
    rw [List.map_map]
    rfl
  rw [hscaled] at hfold' ⊢
  have hsmall : ∀ a ∈ v, |a| < 2 ^ 24 := fun a ha => abs_lt_of_scaled (hv a ha)
  refine ⟨divisor t, one_le_divisor hsum, divisor_le hsum,
    l2Normalize_eq hsmall ht hsum (fun h => (hzero h).2) hfold, ?_⟩
  rw [l2Normalize_eq (List.forall_mem_map.2 hv) ht' hsum' (fun h => ?_) hfold', List.map_map]
  · refine List.map_congr_left fun a ha => ?_
    rcases hsum.zero_or_one_le with rfl | hone
    · rw [Function.comp_apply, (hzero rfl).2 a ha, mul_zero, mul_zero]
    · show Number.round (((2 ^ j * a : Int) : Rat) / divisor (2 ^ (2 * j) * t)) = _
      rw [divisor_scale j hone]
      push_cast
      rw [mul_div_mul_left _ _ (pow_pos two_pos j).ne']
  · refine List.forall_mem_map.2 fun a ha => ?_
    have ht0 : t = 0 := (mul_eq_zero.1 h).resolve_left (pow_pos two_pos _).ne'
    rw [(hzero ht0).2 a ha, mul_zero]

end

/-! ## Agreement -/

section
variable {U : CharTables} {blake3 : Blake3}

/-- The signs of the words in a bucket, added up. -/
def bucketTotal (blake3 : Blake3) (dim i : Nat) (toks : List Text) : Int :=
  signTotal blake3 (fun lane => decide (lane.toNat % dim = i)) toks

theorem abs_signTotal_le (p : UInt32 → Bool) (toks : List Text) :
    |signTotal blake3 p toks| ≤ toks.length := by
  induction toks with
  | nil => exact le_refl 0
  | cons tok toks ih =>
    have hhead : |if p (hashLane blake3 tok) then hashSign blake3 tok else 0| ≤ 1 := by
      split
      · exact (abs_hashSign tok).le
      · decide
    have hadd := abs_add_le (if p (hashLane blake3 tok) then hashSign blake3 tok else 0)
      (signTotal blake3 p toks)
    rw [signTotal_cons, List.length_cons, Nat.cast_succ]
    omega

theorem abs_bucketTotal_lt {dim i : Nat} {toks : List Text} (h : toks.length < 2 ^ 24) :
    |bucketTotal blake3 dim i toks| < 2 ^ 24 :=
  (abs_signTotal_le _ toks).trans_lt (by exact_mod_cast h)

/-- The buckets of fewer than 2^24 words are their totals, scaled. -/
theorem featureHashEmbed_eq {dim : Nat} (hdim : 0 < dim) {text : Text}
    (hlen : (featureWords U text).length < 2 ^ 24) :
    featureHashEmbed U blake3 text dim = l2Normalize (((List.range dim).map fun i =>
      bucketTotal blake3 dim i (featureWords U text)).map .ofInt) := by
  have hzero : List.replicate dim (.round 0 : F32) = (List.range dim).map fun _ => .ofInt 0 := by
    rw [List.map_const', List.length_range]
    rfl
  have hshort : ∀ i : Nat, |(fun _ : Nat => (0 : Int)) i| + (featureWords U text).length < 2 ^ 24 := by
    intro i
    rw [abs_zero, zero_add]
    exact_mod_cast hlen
  have hfold : (featureWords U text).foldl (addWord blake3 dim)
      ((List.range dim).map fun _ => .ofInt 0) = _ := foldl_addWord dim _ _ hdim hshort
  unfold featureHashEmbed
  dsimp only
  rw [hzero, hfold, List.map_map]
  simp only [zero_add]
  by_cases hnone : (featureWords U text).isEmpty = true
  · -- without words the totals are zero, and nothing is scaled
    have htotal : (List.range dim).map (fun i => bucketTotal blake3 dim i (featureWords U text)) =
        (List.range dim).map fun _ => 0 := by
      rw [List.isEmpty_iff.1 hnone]
      rfl
    obtain ⟨norm, -, -, hscaled, -⟩ := l2Normalize_scale 0 (v := (List.range dim).map fun _ => 0)
      (by simp)
    rw [if_pos hnone, ← List.map_map, htotal, hscaled, List.map_map]
    refine List.map_congr_left fun i _ => ?_
    show Number.round _ = Number.round ((0 : Int) / norm)
    rw [Int.cast_zero, zero_div]
  · rw [if_neg hnone]
    rfl

/-- The words of two texts hash alike: they are the same, or not too many and their signs add up
to the same in every lane, up to a power of two. -/
def HashAlike (blake3 : Blake3) (xs ys : List Text) : Prop :=
  xs = ys ∨ xs.length < 2 ^ 24 ∧ ys.length < 2 ^ 24 ∧
    ∃ m n : Nat, ∀ b, 2 ^ m * laneTotal blake3 b xs = 2 ^ n * laneTotal blake3 b ys

/-- The order of the words does not matter. -/
theorem hashAlike_of_perm {xs ys : List Text} (h : xs.Perm ys) (hlen : xs.length < 2 ^ 24) :
    HashAlike blake3 xs ys := by
  refine .inr ⟨hlen, h.length_eq ▸ hlen, 0, 0, fun b => ?_⟩
  have htotal : laneTotal blake3 b xs = laneTotal blake3 b ys := ((h.filter _).map _).sum_eq
  rw [htotal]

/-- What holds of the lanes holds of the buckets. -/
theorem bucketTotal_scale {xs ys : List Text} {m n : Int}
    (h : ∀ b, m * laneTotal blake3 b xs = n * laneTotal blake3 b ys) (dim i : Nat) :
    m * bucketTotal blake3 dim i xs = n * bucketTotal blake3 dim i ys := by
  let lanes := ((xs ++ ys).map (hashLane blake3)).toFinset
  have hmem : ∀ tok ∈ xs ++ ys, hashLane blake3 tok ∈ lanes :=
    fun tok htok => List.mem_toFinset.2 (List.mem_map_of_mem htok)
  unfold bucketTotal
  rw [signTotal_eq_sum _ lanes _ fun tok htok => hmem tok (List.mem_append_left _ htok),
    signTotal_eq_sum _ lanes _ fun tok htok => hmem tok (List.mem_append_right _ htok),
    Finset.mul_sum, Finset.mul_sum]
  exact Finset.sum_congr rfl fun b _ => h b

/-- At width 2^32 every lane has a bucket of its own. -/
theorem bucketTotal_size (b : UInt32) (toks : List Text) :
    bucketTotal blake3 UInt32.size b.toNat toks = laneTotal blake3 b toks := by
  have hown : (fun lane : UInt32 => decide (lane.toNat % UInt32.size = b.toNat)) =
      fun lane => decide (lane = b) := by
    funext lane
    rw [Nat.mod_eq_of_lt lane.toNat_lt_size]
    exact decide_eq_decide.2 UInt32.toNat_inj
  unfold bucketTotal laneTotal
  rw [hown]

/-- Buckets that are a power of two times the others are scaled to the same vector. -/
theorem featureHashEmbed_eq_of_scale {dim : Nat} (hdim : 0 < dim) {s t : Text} (j : Nat)
    (hs : (featureWords U s).length < 2 ^ 24) (ht : (featureWords U t).length < 2 ^ 24)
    (h : ∀ i, bucketTotal blake3 dim i (featureWords U s) =
      2 ^ j * bucketTotal blake3 dim i (featureWords U t)) :
    featureHashEmbed U blake3 s dim = featureHashEmbed U blake3 t dim := by
  obtain ⟨norm, -, -, hplain, hscaled⟩ := l2Normalize_scale j
    (v := (List.range dim).map fun i => bucketTotal blake3 dim i (featureWords U t))
    (List.forall_mem_map.2 fun i _ => by
      rw [← h i]
      exact abs_bucketTotal_lt hs)
  have hvec : ((List.range dim).map fun i => bucketTotal blake3 dim i (featureWords U s)) =
      ((List.range dim).map fun i => bucketTotal blake3 dim i (featureWords U t)).map (2 ^ j * ·) := by
    rw [List.map_map]
    exact List.map_congr_left fun i _ => h i
  rw [featureHashEmbed_eq hdim hs, featureHashEmbed_eq hdim ht, hvec, hplain, List.map_map]
  exact hscaled

/-- Rounding keeps the sign of a quotient by a norm. -/
theorem sign_entry {a : Int} (ha : |a| < 2 ^ 24) {norm : Rat} (hone : 1 ≤ norm)
    (hle : norm ≤ 2 ^ (37 : Int)) : ∃ x hx, (.round (a / norm) : F32) = .finite x hx ∧
      SignType.sign x = SignType.sign (a : Rat) := by
  have hpos : 0 < norm := by linarith
  have habs : |(a : Rat) / norm| = |(a : Rat)| / norm := by rw [abs_div, abs_of_pos hpos]
  obtain ⟨hfits, heq⟩ : ∃ hfits, (Number.round (a / norm) : F32) = .finite _ hfits := by
    refine Number.round_eq (k := 24) (by decide) (by decide) ?_
    rw [habs]
    have ha' : |(a : Rat)| ≤ 2 ^ (24 : Int) := by exact_mod_cast ha.le
    exact (div_le_self (abs_nonneg _) hone).trans ha'
  refine ⟨_, hfits, heq, ?_⟩
  rw [sign_nearest fun hne => ?_]
  · rcases lt_trichotomy (a : Rat) 0 with hneg | hzero | hposa
    · rw [sign_neg (div_neg_of_neg_of_pos hneg hpos), sign_neg hneg]
    · rw [hzero, zero_div]
    · rw [sign_pos (div_pos hposa hpos), sign_pos hposa]
  · have ha0 : a ≠ 0 := by
      rintro rfl
      exact hne (by rw [Int.cast_zero, zero_div])
    have hone' : (1 : Rat) ≤ |(a : Rat)| := by exact_mod_cast Int.one_le_abs ha0
    rw [habs, le_div_iff₀ hpos]
    refine le_trans (mul_le_mul_of_nonneg_left hle (two_zpow_pos _).le) (le_trans ?_ hone')
    decide +kernel

/-- Equal vectors have totals of one sign, bucket by bucket. -/
theorem sign_bucketTotal {dim : Nat} {s t : Text}
    (hs : (featureWords U s).length < 2 ^ 24) (ht : (featureWords U t).length < 2 ^ 24)
    (h : featureHashEmbed U blake3 s dim = featureHashEmbed U blake3 t dim) {i : Nat} (hi : i < dim) :
    (bucketTotal blake3 dim i (featureWords U s)).sign =
      (bucketTotal blake3 dim i (featureWords U t)).sign := by
  have scaled : ∀ {u : Text}, (featureWords U u).length < 2 ^ 24 → ∃ norm : Rat,
      1 ≤ norm ∧ norm ≤ 2 ^ (37 : Int) ∧ featureHashEmbed U blake3 u dim =
        (List.range dim).map fun i => .round (bucketTotal blake3 dim i (featureWords U u) / norm) := by
    intro u hu
    obtain ⟨norm, hone, hle, hplain, -⟩ := l2Normalize_scale 0
      (v := (List.range dim).map fun i => bucketTotal blake3 dim i (featureWords U u))
      (List.forall_mem_map.2 fun i _ => by
        rw [pow_zero, one_mul]
        exact abs_bucketTotal_lt hu)
    refine ⟨norm, hone, hle, ?_⟩
    rw [featureHashEmbed_eq (by omega) hu, hplain, List.map_map]
    rfl
  obtain ⟨norm, hone, hle, hvec⟩ := scaled hs
  obtain ⟨norm', hone', hle', hvec'⟩ := scaled ht
  rw [hvec, hvec', List.map_inj_left] at h
  have hentry := h i (List.mem_range.2 hi)
  obtain ⟨x, hx, heq, hsign⟩ := sign_entry (abs_bucketTotal_lt hs) hone hle
  obtain ⟨y, hy, heq', hsign'⟩ := sign_entry (abs_bucketTotal_lt ht) hone' hle'
  rw [heq, heq', Number.finite.injEq] at hentry
  have hcast : ∀ n : Int, n.sign = SignType.sign (n : Rat) := fun n => by
    rw [sign_intCast, Int.sign_eq_sign]
  rw [hcast, hcast, ← hsign, ← hsign', hentry]

/-- Of two texts with the same code tokens: the lexical query is the same; the vectors agree at
every width if the words of their lowercased forms hash alike; and where they do agree, the signs
of the words have totals of the same sign in every lane. -/
theorem featureHashEmbed_agree (U : CharTables) (blake3 : Blake3) (s t : Text)
    (h : codeTokens U s = codeTokens U t) :
    (∀ S ix k, bm25Query S U ix s k = bm25Query S U ix t k) ∧
    (HashAlike blake3 (featureWords U s) (featureWords U t) → ∀ dim, 1 ≤ dim →
      featureHashEmbed U blake3 s dim = featureHashEmbed U blake3 t dim) ∧
    ((featureWords U s).length < 2 ^ 24 → (featureWords U t).length < 2 ^ 24 →
      (∀ dim, 1 ≤ dim → featureHashEmbed U blake3 s dim = featureHashEmbed U blake3 t dim) →
        ∀ b, (laneTotal blake3 b (featureWords U s)).sign =
          (laneTotal blake3 b (featureWords U t)).sign) := by
  refine ⟨fun S ix k => ?_, fun halike dim hdim => ?_, fun hs ht hall b => ?_⟩
  · have hempty : ∀ u : Text, (u.isEmpty || (codeTokens U u).isEmpty) = (codeTokens U u).isEmpty := by
      intro u
      cases u with
      | nil => rw [codeTokens_nil]; rfl
      | cons c u => rfl
    unfold bm25Query
    dsimp only
    rw [hempty s, hempty t, h]
  · rcases halike with hsame | ⟨hs, ht, m, n, hlanes⟩
    · unfold featureHashEmbed
      rw [hsame]
    · have hbuckets := bucketTotal_scale hlanes dim
      -- the smaller of the two powers is divided out
      rcases le_total m n with hle | hle
      · refine featureHashEmbed_eq_of_scale hdim (n - m) hs ht fun i => ?_
        have hi := hbuckets i
        rw [← Nat.add_sub_cancel' hle, pow_add, mul_assoc] at hi
        exact mul_left_cancel₀ (pow_ne_zero m two_ne_zero) hi
      · refine (featureHashEmbed_eq_of_scale hdim (m - n) ht hs fun i => ?_).symm
        have hi := hbuckets i
        rw [← Nat.add_sub_cancel' hle, pow_add, mul_assoc] at hi
        exact (mul_left_cancel₀ (pow_ne_zero n two_ne_zero) hi).symm
  · have hb := sign_bucketTotal hs ht (hall UInt32.size (by decide)) b.toNat_lt_size
    rwa [bucketTotal_size, bucketTotal_size] at hb

/-- The leading bytes of the BLAKE3 digests of three words. -/
def wordDigests : List (Text × List UInt8) :=
  [("parse".toList, [182, 163, 143, 126, 217]), ("string".toList, [28, 71, 23, 76, 12]),
   ("parsestring".toList, [41, 66, 147, 92, 191])]

def wordBlake3 : Blake3 := fun tok i => ((wordDigests.lookup tok).getD [])[i.val]?.getD 0

/-- Both spellings in one order and in the other: the same words, so the same vector. -/
theorem featureHashEmbed_agree_swapped :
    featureWords .ascii "parseString parse_string".toList ≠
      featureWords .ascii "parse_string parseString".toList ∧
    featureHashEmbed .ascii wordBlake3 "parseString parse_string".toList 384 =
      featureHashEmbed .ascii wordBlake3 "parse_string parseString".toList 384 := by
  have hperm : (featureWords .ascii "parseString parse_string".toList).Perm
      (featureWords .ascii "parse_string parseString".toList) := by decide
  exact ⟨by decide, (featureHashEmbed_agree .ascii wordBlake3 _ _ (by decide)).2.1
    (hashAlike_of_perm hperm (by decide)) 384 (by decide)⟩

/-- A camelCase name and its snake_case spelling: the same tokens, another vector. -/
theorem camel_snake_vectors_differ :
    codeTokens .ascii "parseString".toList = codeTokens .ascii "parse_string".toList ∧
    featureHashEmbed .ascii wordBlake3 "parseString".toList 384 ≠
      featureHashEmbed .ascii wordBlake3 "parse_string".toList 384 := by
  refine ⟨by decide, fun heq => ?_⟩
  have hsign := sign_bucketTotal (i := 169) (by decide) (by decide) heq (by decide)
  have hcamel : bucketTotal wordBlake3 384 169 (featureWords .ascii "parseString".toList) = -1 := by
    decide +kernel
  have hsnake : bucketTotal wordBlake3 384 169 (featureWords .ascii "parse_string".toList) = 0 := by
    decide +kernel
  rw [hcamel, hsnake] at hsign
  exact absurd hsign (by decide)

end

end CodeSearch
