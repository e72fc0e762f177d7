import Mathlib.Algebra.Order.Field.Power
import Mathlib.Algebra.Order.Ring.Rat
import Mathlib.Data.Int.Log
import Mathlib.Data.Rat.Floor
import Mathlib.Data.Sign.Basic
import Mathlib.Tactic.Linarith
import Mathlib.Tactic.Positivity
import Mathlib.Tactic.Ring

/-!
# Binary floating-point arithmetic

`nearest x` is the multiple of the last place of `x` nearest to it, ties to even; a
`Number` of a format is a number that fits its digits, an infinity or not a number.
Zeros are unsigned, and a quotient by zero has the sign of what is divided.

Rounding is monotone (`nearest_mono`), stays within powers of two
(`abs_nearest_le_zpow`), keeps what fits (`nearest_of_fits`) and commutes with powers
of two (`nearest_two_zpow_mul`).
-/

namespace Binary

/-! ## Rounding to integers -/

/-- The nearest integer, ties to even. -/
def roundEven (q : Rat) : Int :=
  if q - ⌊q⌋ < 1 / 2 then ⌊q⌋
  else if 1 / 2 < q - ⌊q⌋ then ⌊q⌋ + 1
  else ⌊q⌋ + ⌊q⌋ % 2

theorem floor_le_roundEven (q : Rat) : ⌊q⌋ ≤ roundEven q := by
  unfold roundEven
  split
  · omega
  · split <;> omega

theorem roundEven_le_floor_add_one (q : Rat) : roundEven q ≤ ⌊q⌋ + 1 := by
  unfold roundEven
  split
  · omega
  · split <;> omega

theorem roundEven_mono {p q : Rat} (h : p ≤ q) : roundEven p ≤ roundEven q := by
  rcases (Int.floor_mono h).lt_or_eq with hlt | heq
  · calc roundEven p ≤ ⌊p⌋ + 1 := roundEven_le_floor_add_one p
      _ ≤ ⌊q⌋ := hlt
      _ ≤ roundEven q := floor_le_roundEven q
  · have hfrac : p - ⌊q⌋ ≤ q - ⌊q⌋ := sub_le_sub_right h _
    unfold roundEven
    rw [heq]
    split_ifs <;> first | omega | linarith

@[simp] theorem roundEven_intCast (n : Int) : roundEven n = n := by
  simp [roundEven]

theorem le_roundEven {n : Int} {q : Rat} (h : (n : Rat) ≤ q) : n ≤ roundEven q := by
  rw [← roundEven_intCast n]
  exact roundEven_mono h

theorem roundEven_le {n : Int} {q : Rat} (h : q ≤ n) : roundEven q ≤ n := by
  rw [← roundEven_intCast n]
  exact roundEven_mono h

/-- Past the middle of two integers the result is the greater one. -/
theorem lt_roundEven {n : Int} {q : Rat} (h : (n : Rat) + 1 / 2 < q) : n < roundEven q := by
  have hfloor : n ≤ ⌊q⌋ := Int.le_floor.2 (by linarith)
  rcases hfloor.lt_or_eq with hlt | heq
  · exact hlt.trans_le (floor_le_roundEven q)
  · unfold roundEven
    rw [← heq, if_neg (by linarith), if_pos (by linarith)]
    omega

/-- Short of the middle it is the lesser one. -/
theorem roundEven_le_of_lt {n : Int} {q : Rat} (h : q < (n : Rat) + 1 / 2) : roundEven q ≤ n := by
  have hfloor : ⌊q⌋ < n + 1 := Int.floor_lt.2 (by push_cast; linarith)
  rcases (Int.lt_add_one_iff.1 hfloor).lt_or_eq with hlt | heq
  · exact (roundEven_le_floor_add_one q).trans hlt
  · unfold roundEven
    rw [heq, if_pos (by linarith)]

theorem roundEven_neg (q : Rat) : roundEven (-q) = -roundEven q := by
  by_cases hint : q = ⌊q⌋
  · rw [hint, ← Int.cast_neg, roundEven_intCast, roundEven_intCast]
  · -- the fractions add up to one
    have hlt : (⌊q⌋ : Rat) < q := lt_of_le_of_ne (Int.floor_le q) (Ne.symm hint)
    have hfloor : ⌊-q⌋ = -⌊q⌋ - 1 := by
      rw [Int.floor_eq_iff]
      push_cast
      constructor <;> linarith [Int.lt_floor_add_one q]
    unfold roundEven
    rw [hfloor]
    push_cast
    split_ifs <;> first | omega | linarith

/-! ## Formats -/

/-- A binary format: the digits of its numbers, the least exponent of a last place, and the
power of two that is out of range. -/
structure Format where
  digits : Nat
  minExp : Int
  maxExp : Int
  digits_pos : 0 < digits
  minExp_le : minExp ≤ 0
  digits_le : digits ≤ maxExp

theorem Format.maxExp_pos (fmt : Format) : 0 < fmt.maxExp := by
  have := fmt.digits_pos
  have := fmt.digits_le
  omega

def binary32 : Format := ⟨24, -149, 128, by decide, by decide, by decide⟩

def binary64 : Format := ⟨53, -1074, 1024, by decide, by decide, by decide⟩

/-! ## The last place -/

/-- The exponent of the last place of the numbers of the size of `x`. -/
def ulpExponent (fmt : Format) (x : Rat) : Int :=
  max (Int.log 2 |x| + 1 - fmt.digits) fmt.minExp

/-- The multiple of the last place nearest to `x`. -/
def nearest (fmt : Format) (x : Rat) : Rat :=
  roundEven (x / 2 ^ ulpExponent fmt x) * 2 ^ ulpExponent fmt x

theorem two_zpow_pos (e : Int) : (0 : Rat) < 2 ^ e := zpow_pos (by decide +kernel) e

theorem two_zpow_le {d e : Int} (h : d ≤ e) : (2 : Rat) ^ d ≤ 2 ^ e :=
  zpow_le_zpow_right₀ (by decide +kernel) h

/-- A power of two is a multiple of any smaller one. -/
theorem two_zpow_natMultiple {d e : Int} (h : d ≤ e) : ∃ n : Nat, (2 : Rat) ^ e = n * 2 ^ d := by
  refine ⟨2 ^ (e - d).toNat, ?_⟩
  have hexp : ((e - d).toNat : Int) + d = e := by omega
  rw [Nat.cast_pow, Nat.cast_ofNat, ← zpow_natCast, ← zpow_add₀ (by decide +kernel), hexp]

theorem two_zpow_multiple {d e : Int} (h : d ≤ e) : ∃ n : Int, (2 : Rat) ^ e = n * 2 ^ d := by
  obtain ⟨n, hn⟩ := two_zpow_natMultiple h
  exact ⟨n, by rw [Int.cast_natCast, hn]⟩

theorem abs_lt_two_zpow_log (x : Rat) : |x| < 2 ^ (Int.log 2 |x| + 1) :=
  Int.lt_zpow_succ_log_self (by decide) |x|

theorem le_log {x : Rat} {k : Int} (h : 2 ^ k ≤ x) : k ≤ Int.log 2 x := by
  rw [← Int.zpow_le_iff_le_log (by decide) ((two_zpow_pos k).trans_le h)]
  exact h

variable {fmt : Format}

theorem ulpExponent_mono {x y : Rat} (hx : x ≠ 0) (h : |x| ≤ |y|) :
    ulpExponent fmt x ≤ ulpExponent fmt y :=
  max_le_max
    (sub_le_sub_right (Int.add_le_add_right (Int.log_mono_right (abs_pos.2 hx) h) 1) _) le_rfl

/-- What is within a power of two has its last place below it. -/
theorem ulpExponent_le {x : Rat} (hx : x ≠ 0) {k : Int} (hk : fmt.minExp ≤ k) (h : |x| ≤ 2 ^ k) :
    ulpExponent fmt x ≤ k := by
  have hlog : Int.log 2 |x| ≤ k := by
    rw [← Int.log_zpow (R := Rat) (by decide : 1 < 2) k]
    exact Int.log_mono_right (abs_pos.2 hx) (by exact_mod_cast h)
  have := fmt.digits_pos
  unfold ulpExponent
  omega

/-! ## Rounding -/

/-- A multiple of the last place is not passed. -/
theorem nearest_le {x y : Rat} {n : Int} (hy : y = n * 2 ^ ulpExponent fmt x) (h : x ≤ y) :
    nearest fmt x ≤ y := by
  have hpos := two_zpow_pos (ulpExponent fmt x)
  have hround : roundEven (x / 2 ^ ulpExponent fmt x) ≤ n := by
    apply roundEven_le
    rw [div_le_iff₀ hpos, ← hy]
    exact h
  rw [hy]
  exact mul_le_mul_of_nonneg_right (by exact_mod_cast hround) hpos.le

theorem le_nearest {x y : Rat} {n : Int} (hy : y = n * 2 ^ ulpExponent fmt x) (h : y ≤ x) :
    y ≤ nearest fmt x := by
  have hpos := two_zpow_pos (ulpExponent fmt x)
  have hround : n ≤ roundEven (x / 2 ^ ulpExponent fmt x) := by
    apply le_roundEven
    rw [le_div_iff₀ hpos, ← hy]
    exact h
  rw [hy]
  exact mul_le_mul_of_nonneg_right (by exact_mod_cast hround) hpos.le

@[simp] theorem nearest_zero : nearest fmt 0 = 0 := by
  have hround : roundEven 0 = 0 := by exact_mod_cast roundEven_intCast 0
  rw [nearest, zero_div, hround, Int.cast_zero, zero_mul]

/-- Rounding stays within powers of two. -/
theorem abs_nearest_le_zpow {x : Rat} {k : Int} (hk : fmt.minExp ≤ k) (h : |x| ≤ 2 ^ k) :
    |nearest fmt x| ≤ 2 ^ k := by
  by_cases hx : x = 0
  · subst hx
    rw [nearest_zero, abs_zero]
    exact (two_zpow_pos k).le
  · obtain ⟨n, hn⟩ := two_zpow_multiple (ulpExponent_le hx hk h)
    rw [abs_le] at h ⊢
    constructor
    · refine le_nearest (n := -n) ?_ h.1
      rw [hn, Int.cast_neg, neg_mul]
    · exact nearest_le hn h.2

theorem two_zpow_le_nearest {x : Rat} {k : Int} (hk : fmt.minExp ≤ k) (h : 2 ^ k ≤ x) :
    2 ^ k ≤ nearest fmt x := by
  have hx : 0 < x := (two_zpow_pos k).trans_le h
  by_cases hulp : ulpExponent fmt x ≤ k
  · obtain ⟨n, hn⟩ := two_zpow_multiple hulp
    exact le_nearest hn h
  · -- the last place is above `2 ^ k`, and the first is not below the last
    have := fmt.digits_pos
    have hlog : ulpExponent fmt x = Int.log 2 |x| + 1 - fmt.digits := by
      unfold ulpExponent at hulp ⊢
      omega
    obtain ⟨n, hn⟩ := two_zpow_multiple (d := ulpExponent fmt x) (e := Int.log 2 |x|) (by omega)
    have hself : (2 : Rat) ^ Int.log 2 |x| ≤ x := by
      have := Int.zpow_log_le_self (by decide : 1 < 2) (abs_pos.2 hx.ne')
      rw [abs_of_pos hx] at this ⊢
      exact_mod_cast this
    exact (two_zpow_le (by omega)).trans (le_nearest hn hself)

theorem nearest_mono {x y : Rat} (hx : 0 < x) (h : x ≤ y) : nearest fmt x ≤ nearest fmt y := by
  have hy : 0 < y := hx.trans_le h
  have habs : |x| ≤ |y| := by
    rw [abs_of_pos hx, abs_of_pos hy]
    exact h
  have hmono : ulpExponent fmt x ≤ ulpExponent fmt y := ulpExponent_mono hx.ne' habs
  rcases hmono.lt_or_eq with hlt | heq
  · -- a power of two lies between
    have hdigits := fmt.digits_pos
    have hlog : ulpExponent fmt y = Int.log 2 |y| + 1 - fmt.digits := by
      unfold ulpExponent at hlt ⊢
      omega
    have hlow : (2 : Rat) ^ Int.log 2 |y| ≤ y := by
      have := Int.zpow_log_le_self (by decide : 1 < 2) (abs_pos.2 hy.ne')
      rw [abs_of_pos hy] at this ⊢
      exact_mod_cast this
    have hxlog : Int.log 2 |x| < Int.log 2 |y| := by
      unfold ulpExponent at hlt hlog
      omega
    have hhigh : |x| ≤ 2 ^ Int.log 2 |y| :=
      (abs_lt_two_zpow_log x).le.trans (two_zpow_le (by omega))
    have hk : fmt.minExp ≤ Int.log 2 |y| := by
      unfold ulpExponent at hlog
      omega
    calc nearest fmt x ≤ |nearest fmt x| := le_abs_self _
      _ ≤ 2 ^ Int.log 2 |y| := abs_nearest_le_zpow hk hhigh
      _ ≤ nearest fmt y := two_zpow_le_nearest hk hlow
  · unfold nearest
    rw [heq]
    have hpos := two_zpow_pos (ulpExponent fmt y)
    refine mul_le_mul_of_nonneg_right ?_ hpos.le
    exact_mod_cast roundEven_mono (div_le_div_of_nonneg_right h hpos.le)

theorem nearest_neg (x : Rat) : nearest fmt (-x) = -nearest fmt x := by
  have hulp : ulpExponent fmt (-x) = ulpExponent fmt x := by
    unfold ulpExponent
    rw [abs_neg]
  unfold nearest
  rw [hulp, neg_div, roundEven_neg, Int.cast_neg, neg_mul]

/-- Rounding keeps the sign of what is not too small. -/
theorem sign_nearest {x : Rat} (h : x ≠ 0 → 2 ^ fmt.minExp ≤ |x|) :
    SignType.sign (nearest fmt x) = SignType.sign x := by
  rcases lt_trichotomy x 0 with hneg | hzero | hpos
  · have hlow := two_zpow_le_nearest le_rfl ((h hneg.ne).trans_eq (abs_of_neg hneg))
    rw [nearest_neg] at hlow
    rw [sign_neg hneg, sign_neg (by linarith [two_zpow_pos fmt.minExp])]
  · rw [hzero, nearest_zero]
  · have hlow := two_zpow_le_nearest le_rfl ((h hpos.ne').trans_eq (abs_of_pos hpos))
    rw [sign_pos hpos, sign_pos ((two_zpow_pos _).trans_le hlow)]

/-- Scaling by a power of two moves the logarithm along. -/
theorem log_two_zpow_mul {x : Rat} (hx : 0 < x) (j : Int) :
    Int.log 2 (2 ^ j * x) = j + Int.log 2 x := by
  have hscaled : 0 < 2 ^ j * x := mul_pos (two_zpow_pos j) hx
  have hlow : (2 : Rat) ^ Int.log 2 x ≤ x := by
    exact_mod_cast Int.zpow_log_le_self (by decide : 1 < 2) hx
  have hhigh : x < (2 : Rat) ^ (Int.log 2 x + 1) := by
    exact_mod_cast Int.lt_zpow_succ_log_self (by decide : 1 < 2) x
  apply le_antisymm
  · rw [← Int.lt_add_one_iff, ← Int.lt_zpow_iff_log_lt (by decide) hscaled]
    show _ < (2 : Rat) ^ (j + Int.log 2 x + 1)
    rw [add_assoc, zpow_add₀ (by decide +kernel)]
    exact mul_lt_mul_of_pos_left hhigh (two_zpow_pos j)
  · apply le_log
    rw [zpow_add₀ (by decide +kernel)]
    exact mul_le_mul_of_nonneg_left hlow (two_zpow_pos j).le

/-- Rounding commutes with powers of two, for what is not too small. -/
theorem nearest_two_zpow_mul {x : Rat} {j : Int} (h : 2 ^ (fmt.minExp + fmt.digits) ≤ |x|)
    (hj : 2 ^ (fmt.minExp + fmt.digits) ≤ |2 ^ j * x|) :
    nearest fmt (2 ^ j * x) = 2 ^ j * nearest fmt x := by
  have hx : 0 < |x| := (two_zpow_pos _).trans_le h
  have hlog : Int.log 2 |2 ^ j * x| = j + Int.log 2 |x| := by
    rw [abs_mul, abs_of_pos (two_zpow_pos j), log_two_zpow_mul hx]
  have hulp : ulpExponent fmt (2 ^ j * x) = j + ulpExponent fmt x := by
    have hlow := le_log h
    have hlow' := le_log hj
    unfold ulpExponent
    omega
  unfold nearest
  rw [hulp, zpow_add₀ (by decide +kernel), mul_div_mul_left _ _ (two_zpow_pos j).ne']
  ring

/-- A quotient is above a half if it is by more than half a last place. -/
theorem half_lt_nearest (hfmt : fmt.minExp ≤ -fmt.digits) {q : Rat}
    (h : 1 / 2 + 2 ^ (-fmt.digits - 1 : Int) < q) : 1 / 2 < nearest fmt q := by
  have hhalf : (1 / 2 : Rat) < q := lt_trans (lt_add_of_pos_right _ (two_zpow_pos _)) h
  by_cases hone : 1 ≤ q
  · have hle : (2 : Rat) ^ (0 : Int) ≤ nearest fmt q :=
      two_zpow_le_nearest fmt.minExp_le (by rw [zpow_zero]; exact hone)
    rw [zpow_zero] at hle
    linarith
  · have hpos : 0 < q := lt_trans (by decide +kernel) hhalf
    have hlog : Int.log 2 |q| = -1 := by
      rw [abs_of_pos hpos]
      apply le_antisymm
      · rw [← Int.lt_add_one_iff, ← Int.lt_zpow_iff_log_lt (by decide) hpos]
        show q < ((2 : Nat) : Rat) ^ (0 : Int)
        rw [zpow_zero]
        exact not_le.1 hone
      · refine le_log (le_trans (le_of_eq ?_) hhalf.le)
        decide +kernel
    have hulp : ulpExponent fmt q = -fmt.digits := by
      unfold ulpExponent
      omega
    have hscale : ∀ e : Int, (2 : Rat) ^ (e - fmt.digits) = 2 ^ e * 2 ^ (-fmt.digits : Int) := by
      intro e
      rw [← zpow_add₀ (by decide +kernel), sub_eq_add_neg]
    have hdigits : (1 / 2 : Rat) = (2 ^ (fmt.digits - 1) : Int) * 2 ^ (-fmt.digits : Int) := by
      have hexp : ((fmt.digits - 1 : Nat) : Int) + -fmt.digits = -1 := by
        have := fmt.digits_pos
        omega
      rw [Int.cast_pow, Int.cast_ofNat, ← zpow_natCast, ← zpow_add₀ (by decide +kernel), hexp]
      decide +kernel
    have hround : (2 ^ (fmt.digits - 1) : Int) < roundEven (q / 2 ^ (-fmt.digits : Int)) := by
      apply lt_roundEven
      rw [lt_div_iff₀ (two_zpow_pos _), add_mul, ← hdigits]
      refine lt_of_eq_of_lt ?_ h
      rw [show (-fmt.digits - 1 : Int) = -1 - fmt.digits by ring, hscale, zpow_neg_one, one_div]
    unfold nearest
    rw [hulp, hdigits]
    exact mul_lt_mul_of_pos_right (by exact_mod_cast hround) (two_zpow_pos _)

/-- What is less than half a last place above a power of two is rounded back to it. -/
theorem nearest_le_two_zpow {x : Rat} {k : Int} (hk : fmt.minExp + fmt.digits ≤ k + 1) (hx : 0 < x)
    (h : x < 2 ^ k + 2 ^ (k - fmt.digits)) : nearest fmt x ≤ 2 ^ k := by
  have := fmt.digits_pos
  by_cases hle : x ≤ 2 ^ k
  · have habs : |x| ≤ 2 ^ k := by rwa [abs_of_pos hx]
    exact (le_abs_self _).trans (abs_nearest_le_zpow (by omega) habs)
  · have hnext : x < 2 ^ (k + 1) := by
      have hpow : (2 : Rat) ^ (k - fmt.digits) ≤ 2 ^ k := two_zpow_le (by omega)
      rw [zpow_add_one₀ (by decide +kernel)]
      linarith
    have hlog : Int.log 2 |x| = k := by
      rw [abs_of_pos hx]
      apply le_antisymm
      · rw [← Int.lt_add_one_iff, ← Int.lt_zpow_iff_log_lt (by decide) hx]
        exact hnext
      · exact le_log (not_le.1 hle).le
    have hulp : ulpExponent fmt x = k + 1 - fmt.digits := by
      unfold ulpExponent
      omega
    have hunit : (2 : Rat) ^ k = (2 ^ (fmt.digits - 1) : Int) * 2 ^ (k + 1 - fmt.digits) := by
      have hexp : ((fmt.digits - 1 : Nat) : Int) + (k + 1 - fmt.digits) = k := by omega
      rw [Int.cast_pow, Int.cast_ofNat, ← zpow_natCast, ← zpow_add₀ (by decide +kernel), hexp]
    have hround : roundEven (x / 2 ^ (k + 1 - fmt.digits : Int)) ≤ 2 ^ (fmt.digits - 1) := by
      apply roundEven_le_of_lt
      rw [div_lt_iff₀ (two_zpow_pos _), add_mul, ← hunit]
      refine h.trans_eq ?_
      rw [show (k + 1 - fmt.digits : Int) = k - fmt.digits + 1 by ring,
        zpow_add_one₀ (by decide +kernel)]
      ring
    unfold nearest
    rw [hulp, hunit]
    exact mul_le_mul_of_nonneg_right (by exact_mod_cast hround) (two_zpow_pos _).le

/-! ## Square roots -/

/-- The integer nearest to the square root of what is not negative. -/
def roundSqrt (q : Rat) : Int :=
  let m : Int := Nat.sqrt ⌊q⌋.toNat
  if q < (m + 1 / 2) ^ 2 then m
  else if (m + 1 / 2) ^ 2 < q then m + 1
  else m + m % 2

/-- The exponent of the last place of the square root of `x`. -/
def sqrtExponent (fmt : Format) (x : Rat) : Int :=
  max (Int.log 2 x / 2 + 1 - fmt.digits) fmt.minExp

/-- The multiple of the last place nearest to the square root of `x`. -/
def nearestSqrt (fmt : Format) (x : Rat) : Rat :=
  roundSqrt (x / (2 ^ sqrtExponent fmt x) ^ 2) * 2 ^ sqrtExponent fmt x

theorem le_roundSqrt {n : Nat} {q : Rat} (h : (n : Rat) ^ 2 ≤ q) : n ≤ roundSqrt q := by
  have hfloor : ((n * n : Nat) : Int) ≤ ⌊q⌋ := by
    rw [Int.le_floor]
    push_cast
    rwa [← sq]
  have hsqrt : n ≤ Nat.sqrt ⌊q⌋.toNat := Nat.le_sqrt.2 (by omega)
  unfold roundSqrt
  dsimp only
  split
  · omega
  · split <;> omega

theorem roundSqrt_le {n : Nat} {q : Rat} (h : q ≤ (n : Rat) ^ 2) : roundSqrt q ≤ n := by
  have hfloor : ⌊q⌋.toNat ≤ n * n := by
    have hle : ⌊q⌋ ≤ ((n * n : Nat) : Int) := by
      have hcast : (⌊q⌋ : Rat) ≤ ((n * n : Nat) : Int) := by
        push_cast
        rw [← sq]
        exact (Int.floor_le q).trans h
      exact_mod_cast hcast
    omega
  have hsqrt : Nat.sqrt ⌊q⌋.toNat ≤ n := (Nat.sqrt_le_sqrt hfloor).trans_eq (Nat.sqrt_eq n)
  unfold roundSqrt
  dsimp only
  rcases hsqrt.lt_or_eq with hlt | heq
  · split
    · omega
    · split <;> omega
  · rw [heq, if_pos]
    refine h.trans_lt ?_
    have hn : (0 : Rat) ≤ n := Nat.cast_nonneg n
    rw [Int.cast_natCast]
    nlinarith

theorem roundSqrt_nonneg (q : Rat) : 0 ≤ roundSqrt q := by
  unfold roundSqrt
  dsimp only
  split
  · omega
  · split <;> omega

/-- A multiple of the last place is not passed. -/
theorem le_nearestSqrt {x y : Rat} {n : Nat} (hy : y = n * 2 ^ sqrtExponent fmt x) (h : y ^ 2 ≤ x) :
    y ≤ nearestSqrt fmt x := by
  have hpos := two_zpow_pos (sqrtExponent fmt x)
  have hround : (n : Int) ≤ roundSqrt (x / (2 ^ sqrtExponent fmt x) ^ 2) := by
    apply le_roundSqrt
    rw [le_div_iff₀ (pow_pos hpos 2), ← mul_pow, ← hy]
    exact h
  rw [hy]
  exact mul_le_mul_of_nonneg_right (by exact_mod_cast hround) hpos.le

theorem nearestSqrt_le {x y : Rat} {n : Nat} (hy : y = n * 2 ^ sqrtExponent fmt x)
    (h : x ≤ y ^ 2) : nearestSqrt fmt x ≤ y := by
  have hpos := two_zpow_pos (sqrtExponent fmt x)
  have hround : roundSqrt (x / (2 ^ sqrtExponent fmt x) ^ 2) ≤ n := by
    apply roundSqrt_le
    rw [div_le_iff₀ (pow_pos hpos 2), ← mul_pow, ← hy]
    exact h
  rw [hy]
  exact mul_le_mul_of_nonneg_right (by exact_mod_cast hround) hpos.le

theorem nearestSqrt_nonneg (x : Rat) : 0 ≤ nearestSqrt fmt x :=
  mul_nonneg (by exact_mod_cast roundSqrt_nonneg _) (two_zpow_pos _).le

@[simp] theorem nearestSqrt_zero : nearestSqrt fmt 0 = 0 := by
  refine le_antisymm (nearestSqrt_le (n := 0) ?_ ?_) (nearestSqrt_nonneg 0)
  · rw [Nat.cast_zero, zero_mul]
  · rw [zero_pow two_ne_zero]

theorem two_zpow_sq (k : Int) : ((2 : Rat) ^ k) ^ 2 = 2 ^ (2 * k) := by
  rw [← zpow_natCast, ← zpow_mul, mul_comm]
  rfl

/-- The square root stays within powers of two. -/
theorem nearestSqrt_le_zpow {x : Rat} {k : Int} (hk : fmt.minExp ≤ k) (hx : 0 ≤ x)
    (h : x ≤ 2 ^ (2 * k)) : nearestSqrt fmt x ≤ 2 ^ k := by
  rcases hx.eq_or_lt with rfl | hpos
  · rw [nearestSqrt_zero]
    exact (two_zpow_pos k).le
  · have hlog : Int.log 2 x ≤ 2 * k := by
      rw [← Int.log_zpow (R := Rat) (by decide : 1 < 2) (2 * k)]
      exact Int.log_mono_right hpos (by exact_mod_cast h)
    have hexp : sqrtExponent fmt x ≤ k := by
      have := fmt.digits_pos
      unfold sqrtExponent
      omega
    obtain ⟨n, hn⟩ := two_zpow_natMultiple hexp
    exact nearestSqrt_le hn (h.trans_eq (two_zpow_sq k).symm)

theorem zpow_le_nearestSqrt {x : Rat} {k : Int} (hk : fmt.minExp ≤ k) (h : 2 ^ (2 * k) ≤ x) :
    2 ^ k ≤ nearestSqrt fmt x := by
  have hx : 0 < x := (two_zpow_pos _).trans_le h
  have hlog := le_log h
  have hself : (2 : Rat) ^ Int.log 2 x ≤ x := by
    exact_mod_cast Int.zpow_log_le_self (by decide : 1 < 2) hx
  -- the first place of the square root is at least that of `2 ^ k` and not below its last
  have hexp : sqrtExponent fmt x ≤ Int.log 2 x / 2 := by
    have := fmt.digits_pos
    unfold sqrtExponent
    omega
  obtain ⟨n, hn⟩ := two_zpow_natMultiple hexp
  have hfirst : (2 : Rat) ^ (Int.log 2 x / 2) ≤ nearestSqrt fmt x := by
    refine le_nearestSqrt hn ?_
    rw [two_zpow_sq]
    exact (two_zpow_le (by omega)).trans hself
  exact (two_zpow_le (by omega)).trans hfirst

/-- The square root of four times as much is twice as much. -/
theorem nearestSqrt_two_zpow_mul {x : Rat} {j : Int}
    (h : 2 ^ (2 * (fmt.minExp + fmt.digits)) ≤ x)
    (hj : 2 ^ (2 * (fmt.minExp + fmt.digits)) ≤ 2 ^ (2 * j) * x) :
    nearestSqrt fmt (2 ^ (2 * j) * x) = 2 ^ j * nearestSqrt fmt x := by
  have hx : 0 < x := (two_zpow_pos _).trans_le h
  have hexp : sqrtExponent fmt (2 ^ (2 * j) * x) = j + sqrtExponent fmt x := by
    have hlow := le_log h
    have hlow' := le_log hj
    rw [log_two_zpow_mul hx] at hlow'
    unfold sqrtExponent
    rw [log_two_zpow_mul hx]
    omega
  unfold nearestSqrt
  rw [hexp, zpow_add₀ (by decide +kernel), mul_pow, two_zpow_sq,
    mul_div_mul_left _ _ (two_zpow_pos _).ne']
  ring

/-! ## What fits -/

/-- A number of at most the format's digits, in the range of the exponents. -/
structure Fits (fmt : Format) (x : Rat) : Prop where
  bits : ∃ m e : Int, |m| < 2 ^ fmt.digits ∧ fmt.minExp ≤ e ∧ x = m * 2 ^ e
  lt : |x| < 2 ^ fmt.maxExp

/-- What fits is a multiple of the last place of anything no greater. -/
theorem Fits.multiple {x y : Rat} (hy : Fits fmt y) (hx : x ≠ 0) (h : |x| ≤ |y|) :
    ∃ n : Int, y = n * 2 ^ ulpExponent fmt x := by
  obtain ⟨m, e, hm, he, hval⟩ := hy.bits
  have hlt : |x| < ((2 : Nat) : Rat) ^ (fmt.digits + e) := by
    refine h.trans_lt ?_
    rw [hval, abs_mul, abs_of_pos (two_zpow_pos e)]
    show _ < (2 : Rat) ^ (fmt.digits + e)
    rw [zpow_add₀ (by decide +kernel), zpow_natCast]
    refine mul_lt_mul_of_pos_right ?_ (two_zpow_pos e)
    exact_mod_cast hm
  have hlog : Int.log 2 |x| < fmt.digits + e :=
    (Int.lt_zpow_iff_log_lt (by decide) (abs_pos.2 hx)).1 hlt
  have hulp : ulpExponent fmt x ≤ e := by
    unfold ulpExponent
    omega
  obtain ⟨n, hn⟩ := two_zpow_multiple hulp
  refine ⟨m * n, ?_⟩
  rw [Int.cast_mul, mul_assoc, ← hn]
  exact hval

theorem nearest_of_fits {x : Rat} (h : Fits fmt x) : nearest fmt x = x := by
  by_cases hx : x = 0
  · rw [hx, nearest_zero]
  · obtain ⟨n, hn⟩ := h.multiple hx le_rfl
    exact le_antisymm (nearest_le hn le_rfl) (le_nearest hn le_rfl)

/-- Rounding does not pass what fits. -/
theorem abs_nearest_le {x y : Rat} (hy : Fits fmt y) (h : |x| ≤ |y|) : |nearest fmt x| ≤ |y| := by
  by_cases hx : x = 0
  · rw [hx, nearest_zero, abs_zero]
    exact abs_nonneg y
  · obtain ⟨n, hn⟩ := hy.multiple hx h
    have hmul : |y| = (|n| : Int) * 2 ^ ulpExponent fmt x := by
      rw [hn, abs_mul, abs_of_pos (two_zpow_pos _), Int.cast_abs]
    rw [abs_le] at h ⊢
    constructor
    · refine le_nearest (n := -|n|) ?_ h.1
      rw [hmul, Int.cast_neg, neg_mul]
    · exact nearest_le hmul h.2

theorem fits_intCast {n : Int} (h : |n| < 2 ^ fmt.digits) : Fits fmt n := by
  refine ⟨⟨n, 0, h, fmt.minExp_le, ?_⟩, ?_⟩
  · rw [zpow_zero, mul_one]
  · have hn : |(n : Rat)| < 2 ^ (fmt.digits : Int) := by
      rw [zpow_natCast]
      exact_mod_cast h
    exact hn.trans_le (two_zpow_le fmt.digits_le)

/-- So many last places fit; the carry goes to the exponent. -/
theorem fits_scaled {m e : Int} (hm : |m| ≤ 2 ^ fmt.digits) (he : fmt.minExp ≤ e)
    (h : |(m * 2 ^ e : Rat)| < 2 ^ fmt.maxExp) : Fits fmt (m * 2 ^ e) := by
  refine ⟨?_, h⟩
  rcases hm.lt_or_eq with hlt | heq
  · exact ⟨m, e, hlt, he, rfl⟩
  · have hpow : (2 : Int) ^ fmt.digits = 2 * 2 ^ (fmt.digits - 1) := by
      rw [← pow_succ', Nat.sub_add_cancel fmt.digits_pos]
    have hhalf : m = 2 * (m / 2) ∧ |m / 2| < 2 ^ fmt.digits := by
      have hpos : (0 : Int) < 2 ^ (fmt.digits - 1) := pow_pos two_pos _
      rw [hpow] at heq ⊢
      rw [abs_lt]
      rcases abs_cases m with ⟨habs, -⟩ | ⟨habs, -⟩ <;> omega
    refine ⟨m / 2, e + 1, hhalf.2, by omega, ?_⟩
    rw [zpow_add_one₀ (by decide +kernel)]
    conv_lhs => rw [hhalf.1]
    push_cast
    ring

/-- What is rounded fits, if it is in the range. -/
theorem fits_nearest {x : Rat} (h : |nearest fmt x| < 2 ^ fmt.maxExp) : Fits fmt (nearest fmt x) := by
  refine fits_scaled ?_ (le_max_right _ _) h
  have hpos := two_zpow_pos (ulpExponent fmt x)
  have hscaled : |x / 2 ^ ulpExponent fmt x| < ((2 ^ fmt.digits : Int) : Rat) := by
    rw [abs_div, abs_of_pos hpos, div_lt_iff₀ hpos]
    have hpow : (2 : Rat) ^ (Int.log 2 |x| + 1) ≤ 2 ^ (fmt.digits + ulpExponent fmt x) := by
      apply two_zpow_le
      unfold ulpExponent
      omega
    rw [zpow_add₀ (by decide +kernel) (fmt.digits : Int), zpow_natCast] at hpow
    rw [Int.cast_pow, Int.cast_ofNat]
    exact (abs_lt_two_zpow_log x).trans_le hpow
  rw [abs_lt] at hscaled
  rw [abs_le]
  constructor
  · apply le_roundEven
    rw [Int.cast_neg]
    exact hscaled.1.le
  · exact roundEven_le hscaled.2.le

theorem fits_nearestSqrt {x : Rat} (h : |nearestSqrt fmt x| < 2 ^ fmt.maxExp) :
    Fits fmt (nearestSqrt fmt x) := by
  refine fits_scaled ?_ (le_max_right _ _) h
  rw [abs_of_nonneg (roundSqrt_nonneg _)]
  have hpos := two_zpow_pos (sqrtExponent fmt x)
  have hround : roundSqrt (x / (2 ^ sqrtExponent fmt x) ^ 2) ≤ (2 ^ fmt.digits : Nat) := by
    apply roundSqrt_le
    rw [div_le_iff₀ (pow_pos hpos 2), Nat.cast_pow, Nat.cast_ofNat, ← mul_pow,
      ← zpow_natCast (2 : Rat) fmt.digits, ← zpow_add₀ (by decide +kernel), ← zpow_natCast, ← zpow_mul]
    have hlog : x < 2 ^ (Int.log 2 x + 1) := by
      exact_mod_cast Int.lt_zpow_succ_log_self (by decide : 1 < 2) x
    refine hlog.le.trans (two_zpow_le ?_)
    unfold sqrtExponent
    omega
  exact_mod_cast hround

/-! ## Numbers -/

/-- A value of a format. -/
inductive Number (fmt : Format) where
  | finite (x : Rat) (h : Fits fmt x)
  | infinite (negative : Bool)
  | nan

abbrev F32 := Number binary32

abbrev F64 := Number binary64

namespace Number

def round (x : Rat) : Number fmt :=
  if h : |nearest fmt x| < 2 ^ fmt.maxExp then .finite (nearest fmt x) (fits_nearest h)
  else .infinite (decide (x < 0))

/-- Conversion of an integer. -/
def ofInt (n : Int) : Number fmt := round n

def add : Number fmt → Number fmt → Number fmt
  | .nan, _ => .nan
  | _, .nan => .nan
  | .infinite s, .infinite t => if s = t then .infinite s else .nan
  | .infinite s, .finite _ _ => .infinite s
  | .finite _ _, .infinite t => .infinite t
  | .finite x _, .finite y _ => round (x + y)

def mul : Number fmt → Number fmt → Number fmt
  | .nan, _ => .nan
  | _, .nan => .nan
  | .infinite s, .infinite t => .infinite (s != t)
  | .infinite s, .finite y _ => if y = 0 then .nan else .infinite (s != decide (y < 0))
  | .finite x _, .infinite t => if x = 0 then .nan else .infinite (decide (x < 0) != t)
  | .finite x _, .finite y _ => round (x * y)

def div : Number fmt → Number fmt → Number fmt
  | .nan, _ => .nan
  | _, .nan => .nan
  | .infinite _, .infinite _ => .nan
  | .infinite s, .finite y _ => .infinite (s != decide (y < 0))
  | .finite _ _, .infinite _ => round 0
  | .finite x _, .finite y _ =>
    if y = 0 then if x = 0 then .nan else .infinite (decide (x < 0)) else round (x / y)

def sqrt : Number fmt → Number fmt
  | .nan => .nan
  | .infinite s => if s then .nan else .infinite false
  | .finite x _ =>
    if x < 0 then .nan
    else if h : |nearestSqrt fmt x| < 2 ^ fmt.maxExp then
      .finite (nearestSqrt fmt x) (fits_nearestSqrt h)
    else .infinite false

/-- Nothing is less than what is not a number, nor greater. -/
def lt : Number fmt → Number fmt → Bool
  | .nan, _ => false
  | _, .nan => false
  | .infinite s, .infinite t => s && !t
  | .infinite s, .finite _ _ => s
  | .finite _ _, .infinite t => !t
  | .finite x _, .finite y _ => decide (x < y)

def le : Number fmt → Number fmt → Bool
  | .nan, _ => false
  | _, .nan => false
  | .infinite s, .infinite t => s || !t
  | .infinite s, .finite _ _ => s
  | .finite _ _, .infinite t => !t
  | .finite x _, .finite y _ => decide (x ≤ y)

/-- The lesser; the other one where one is not a number. -/
def min (a b : Number fmt) : Number fmt :=
  match a, b with
  | .nan, b => b
  | a, .nan => a
  | a, b => if lt b a then b else a

instance : Add (Number fmt) := ⟨add⟩
instance : Mul (Number fmt) := ⟨mul⟩
instance : Div (Number fmt) := ⟨div⟩

/-- What stays within a power of two in the range is rounded to a number. -/
theorem round_eq {x : Rat} {k : Int} (hk : fmt.minExp ≤ k) (hlt : k < fmt.maxExp) (h : |x| ≤ 2 ^ k) :
    ∃ hfits, (round x : Number fmt) = finite (nearest fmt x) hfits := by
  have hrange : |nearest fmt x| < 2 ^ fmt.maxExp :=
    (abs_nearest_le_zpow hk h).trans_lt (zpow_lt_zpow_right₀ (by decide +kernel) hlt)
  exact ⟨fits_nearest hrange, dif_pos hrange⟩

theorem sqrt_eq {x : Rat} {k : Int} (hk : fmt.minExp ≤ k) (hlt : k < fmt.maxExp) (hx : 0 ≤ x)
    (h : x ≤ 2 ^ (2 * k)) (hfits : Fits fmt x) :
    ∃ hroot, sqrt (.finite x hfits) = finite (nearestSqrt fmt x) hroot := by
  have hrange : |nearestSqrt fmt x| < 2 ^ fmt.maxExp := by
    rw [abs_of_nonneg (nearestSqrt_nonneg x)]
    exact (nearestSqrt_le_zpow hk hx h).trans_lt (zpow_lt_zpow_right₀ (by decide +kernel) hlt)
  refine ⟨fits_nearestSqrt hrange, ?_⟩
  show (if x < 0 then _ else _) = _
  rw [if_neg (not_lt.2 hx)]
  exact dif_pos hrange

theorem round_zero : ∃ hfits, (round 0 : Number fmt) = finite 0 hfits := by
  obtain ⟨hfits, heq⟩ := round_eq (x := 0) (k := 0) fmt.minExp_le fmt.maxExp_pos (by simp)
  rw [nearest_zero] at hfits
  refine ⟨hfits, heq.trans ?_⟩
  simp only [nearest_zero]

/-- The lesser of two numbers is at most a third if one of them is. -/
theorem le_min_finite {x y z : Rat} (hx : Fits fmt x) (hy : Fits fmt y) (hz : Fits fmt z) :
    le (min (.finite x hx) (.finite y hy)) (.finite z hz) = true ↔ x ≤ z ∨ y ≤ z := by
  show le (if decide (y < x) = true then _ else _) _ = true ↔ _
  by_cases hlt : y < x
  · rw [if_pos (decide_eq_true hlt)]
    show decide (y ≤ z) = true ↔ _
    rw [decide_eq_true_eq]
    exact ⟨.inr, fun h => h.elim hlt.le.trans id⟩
  · rw [if_neg (by simpa using hlt)]
    show decide (x ≤ z) = true ↔ _
    rw [decide_eq_true_eq]
    exact ⟨.inl, fun h => h.elim id (not_lt.1 hlt).trans⟩

/-- Conversion keeps the order of positive integers, so it keeps the lesser one. -/
theorem min_ofInt {m n : Int} (hm : 0 < m) (hn : 0 < n) {k : Int} (hk : fmt.minExp ≤ k)
    (hlt : k < fmt.maxExp) (hmk : (m : Rat) ≤ 2 ^ k) (hnk : (n : Rat) ≤ 2 ^ k) :
    min (ofInt m) (ofInt n) = (ofInt (Min.min m n) : Number fmt) := by
  have hm' : (0 : Rat) < m := by exact_mod_cast hm
  have hn' : (0 : Rat) < n := by exact_mod_cast hn
  obtain ⟨hfm, hem⟩ := round_eq hk hlt (by rwa [abs_of_pos hm'])
  obtain ⟨hfn, hen⟩ := round_eq hk hlt (by rwa [abs_of_pos hn'])
  unfold ofInt
  rcases le_total m n with hle | hle
  · have hle' : (m : Rat) ≤ n := by exact_mod_cast hle
    rw [min_eq_left hle, hem, hen]
    show (if decide (nearest fmt n < nearest fmt m) then _ else _) = _
    rw [if_neg]
    simpa using nearest_mono hm' hle'
  · have hle' : (n : Rat) ≤ m := by exact_mod_cast hle
    rw [min_eq_right hle, hem, hen]
    show (if decide (nearest fmt n < nearest fmt m) then _ else _) = _
    rcases (nearest_mono hn' hle').lt_or_eq with hlt | heq
    · rw [if_pos (decide_eq_true hlt)]
    · simp only [heq, lt_irrefl, decide_false, Bool.false_eq_true, if_false]

/-- A number. -/
def IsFinite : Number fmt → Prop
  | .finite _ _ => True
  | _ => False

/-- A number within a power of two. -/
def Within (k : Int) : Number fmt → Prop
  | .finite x _ => |x| ≤ 2 ^ k
  | _ => False

theorem Within.isFinite {k : Int} {a : Number fmt} (h : a.Within k) : a.IsFinite := by
  cases a with
  | finite x hx => trivial
  | infinite s => exact h.elim
  | nan => exact h.elim

theorem Within.mono {j k : Int} (hjk : j ≤ k) {a : Number fmt} (h : a.Within j) : a.Within k := by
  cases a with
  | finite x hx => exact le_trans (show |x| ≤ 2 ^ j from h) (two_zpow_le hjk)
  | infinite s => exact h.elim
  | nan => exact h.elim

theorem within_zero (k : Int) : (round 0 : Number fmt).Within k := by
  obtain ⟨hfits, heq⟩ := round_zero
  rw [heq]
  show |(0 : Rat)| ≤ 2 ^ k
  rw [abs_zero]
  exact (two_zpow_pos k).le

/-- A sum is within the next power of two. -/
theorem Within.add {k : Int} (hk : fmt.minExp ≤ k + 1) (hlt : k + 1 < fmt.maxExp) {a b : Number fmt}
    (ha : a.Within k) (hb : b.Within k) : (Number.add a b).Within (k + 1) := by
  cases a with
  | infinite s => exact ha.elim
  | nan => exact ha.elim
  | finite x hx =>
    cases b with
    | infinite s => exact hb.elim
    | nan => exact hb.elim
    | finite y hy =>
      have hsum : |x + y| ≤ 2 ^ (k + 1) := by
        have hx' : |x| ≤ 2 ^ k := ha
        have hy' : |y| ≤ 2 ^ k := hb
        rw [zpow_add_one₀ (by decide +kernel)]
        linarith [abs_add_le x y]
      obtain ⟨hfits, heq⟩ := round_eq hk hlt hsum
      show (round (x + y) : Number fmt).Within (k + 1)
      rw [heq]
      exact abs_nearest_le_zpow hk hsum

/-- A number divided by one that is at least 1 is a number, and no greater. -/
theorem div_le {x d : Rat} (hx : Fits fmt x) (hd : Fits fmt d) (hone : 1 ≤ d) :
    ∃ y hy, Number.div (.finite x hx) (.finite d hd) = .finite y hy ∧ |y| ≤ |x| := by
  have hpos : 0 < d := lt_of_lt_of_le one_pos hone
  have hquot : |x / d| ≤ |x| := by
    rw [abs_div, abs_of_pos hpos]
    exact div_le_self (abs_nonneg x) hone
  have hle : |nearest fmt (x / d)| ≤ |x| := abs_nearest_le hx hquot
  refine ⟨nearest fmt (x / d), fits_nearest (hle.trans_lt hx.lt), ?_, hle⟩
  show (if d = 0 then _ else round (x / d)) = _
  rw [if_neg hpos.ne']
  exact dif_pos (hle.trans_lt hx.lt)

end Number

end Binary
