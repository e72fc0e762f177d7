import CodeSearch.Dedup
import CodeSearch.Lib.Binary

/-!
# Overlaps in machine arithmetic

Stage A counts lines in `i64`, which wraps, and compares in `f64`, which rounds.
`overlapFraction64` is that computation.  It finds no overlap that is not there
(`shares_of_overlaps64`) and, of ranges shorter than 2^53 lines, every one that is
(`overlaps64_of_shares`), so there `dedupOverlapping64` is the greedy selection and
agrees with `dedupOverlapping`.
-/

namespace CodeSearch

open Binary Greedy

/-! ## The computation -/

/-- An `i64` sum that wraps. -/
def wrapI64 (n : Int) : Int := (n + 2 ^ 63) % 2 ^ 64 - 2 ^ 63

/-- `OVERLAP_FRACTION` as an `f64`. -/
def overlapLimit64 : F64 := .round overlapLimit

/-- Fraction of the shorter of two inclusive ranges that they overlap. -/
def overlapFraction64 (a b : Int × Int) : F64 :=
  let lo := max a.1 b.1
  let hi := min a.2 b.2
  if hi < lo then .round 0
  else
    let overlap : F64 := .ofInt (wrapI64 (wrapI64 (hi - lo) + 1))
    let lenA : F64 := .ofInt (max (wrapI64 (wrapI64 (a.2 - a.1) + 1)) 0)
    let lenB : F64 := .ofInt (max (wrapI64 (wrapI64 (b.2 - b.1) + 1)) 0)
    let shorter := Number.min lenA lenB
    if Number.le shorter (.round 0) then .round 0 else overlap / shorter

/-- The test of one kept id. -/
def overlapsKept64 (id kept : Text) : Bool :=
  match parseChunkId id, parseChunkId kept with
  | some (path, start, fin), some (kpath, kstart, kfin) =>
    kpath = path && Number.lt overlapLimit64 (overlapFraction64 (start, fin) (kstart, kfin))
  | _, _ => false

/-- Drop the candidates that overlap a higher one of their file. -/
def dedupOverlapping64 {F : Type} (fused : List (Text × F)) : List (Text × F) :=
  keepFirst (fun entry kept => overlapsKept64 entry.1 kept.1) fused

/-! ## Ranges that an id can hold -/

theorem notMem_splitOnce {c : Char} {s a b : Text} (h : splitOnce c s = some (a, b)) : c ∉ a := by
  induction s generalizing a with
  | nil => cases h
  | cons d s ih =>
    unfold splitOnce at h
    split at h
    · cases h
      exact List.not_mem_nil
    · next hd =>
      obtain ⟨p, hp, heq⟩ := Option.map_eq_some_iff.1 h
      cases heq
      rw [List.mem_cons, not_or]
      exact ⟨fun hc => hd hc.symm, ih hp⟩

theorem parseSigned_lt {bits : Nat} {s : Text} {n : Int} (h : parseSigned bits s = some n) :
    n < 2 ^ (bits - 1) := by
  have hpos : (0 : Int) < 2 ^ (bits - 1) := by positivity
  unfold parseSigned at h
  split at h
  · split at h
    · cases h
      omega
    · cases h
  · obtain ⟨m, hm, rfl⟩ := Option.map_eq_some_iff.1 h
    show (m : Int) < _
    exact_mod_cast parseUnsigned_lt hm

theorem parseSigned_nonneg {bits : Nat} {s : Text} {n : Int} (h : parseSigned bits s = some n)
    (hs : '-' ∉ s) : 0 ≤ n := by
  unfold parseSigned at h
  split at h
  · exact absurd List.mem_cons_self hs
  · obtain ⟨m, -, rfl⟩ := Option.map_eq_some_iff.1 h
    exact Int.natCast_nonneg m

/-- The range of an id starts at zero or later and ends within `i64`. -/
structure InI64 (r : Int × Int) : Prop where
  nonneg : 0 ≤ r.1
  le : r.1 ≤ r.2
  lt : r.2 < 2 ^ 63

theorem parseChunkId_range {id path : Text} {start fin : Int}
    (h : parseChunkId id = some (path, start, fin)) (hle : start ≤ fin) : InI64 (start, fin) := by
  unfold parseChunkId at h
  simp only [Option.bind_eq_bind, Option.bind_eq_some_iff] at h
  obtain ⟨⟨p, range⟩, -, ⟨st, en⟩, hsplit, s, hs, e, he, heq⟩ := h
  cases heq
  exact ⟨parseSigned_nonneg hs (notMem_splitOnce hsplit), hle, parseSigned_lt he⟩

/-! ## What is computed -/

/-- How many lines a range has. -/
def lineCount (r : Int × Int) : Int := r.2 - r.1 + 1

/-- How many lines two ranges share, if they meet. -/
def sharedCount (a b : Int × Int) : Int := min a.2 b.2 - max a.1 b.1 + 1

/-- The ranges share more than half of the shorter one's lines. -/
def SharesHalf (a b : Int × Int) : Prop := min (lineCount a) (lineCount b) < 2 * sharedCount a b

theorem nearest_half : nearest binary64 (1 / 2) = 1 / 2 := by
  refine nearest_of_fits ⟨⟨1, -1, by decide, by decide, by decide +kernel⟩, ?_⟩
  exact lt_of_lt_of_le (by decide +kernel) (two_zpow_le (d := 0) (by decide))

theorem one_le_nearest {n : Int} (h : 0 < n) : 1 ≤ nearest binary64 n := by
  have hone : (2 : Rat) ^ (0 : Int) ≤ n := by
    rw [zpow_zero]
    exact_mod_cast h
  exact (zpow_zero (2 : Rat)).symm.le.trans (two_zpow_le_nearest (by decide) hone)

/-- What the quotient of the rounded counts is rounded to is above a half only if the quotient
of the counts is. -/
theorem half_lt_of_rounded {m n : Int} (hm : 0 < m) (hn : 0 < n)
    (h : 1 / 2 < nearest binary64 (nearest binary64 m / nearest binary64 n)) : n < 2 * m := by
  by_contra hle
  have hm' : (1 : Rat) ≤ m := by exact_mod_cast hm
  have hdouble : 2 * nearest binary64 m ≤ nearest binary64 n := by
    have hsmall : (2 : Rat) ^ (binary64.minExp + binary64.digits) ≤ 1 := by decide +kernel
    have hscale := nearest_two_zpow_mul (j := 1) (hsmall.trans (hm'.trans (le_abs_self _)))
      (hsmall.trans (le_trans (by rw [zpow_one]; linarith) (le_abs_self _)))
    rw [zpow_one] at hscale
    rw [← hscale]
    apply nearest_mono
    · linarith
    · exact_mod_cast not_lt.1 hle
  have hquot : nearest binary64 m / nearest binary64 n ≤ 2 ^ (-1 : Int) := by
    have hpos : 0 < nearest binary64 n := lt_of_lt_of_le one_pos (one_le_nearest hn)
    rw [div_le_iff₀ hpos, zpow_neg_one]
    linarith
  have hnonneg : 0 ≤ nearest binary64 m / nearest binary64 n :=
    div_nonneg (by linarith [one_le_nearest hm]) (by linarith [one_le_nearest hn])
  have hround : |nearest binary64 (nearest binary64 m / nearest binary64 n)| ≤ 2 ^ (-1 : Int) :=
    abs_nearest_le_zpow (by decide) ((abs_of_nonneg hnonneg).le.trans hquot)
  rw [zpow_neg_one] at hround
  linarith [le_abs_self (nearest binary64 (nearest binary64 m / nearest binary64 n))]

/-- Below 2^53 nothing is lost. -/
theorem rounded_half_lt {m n : Int} (hm : 0 < m) (hn : 0 < n) (hmn : m ≤ n) (hlt : n < 2 ^ 53)
    (h : n < 2 * m) : 1 / 2 < nearest binary64 (nearest binary64 m / nearest binary64 n) := by
  have exactInt : ∀ k : Int, 0 < k → k < 2 ^ 53 → nearest binary64 k = k := by
    intro k hk hk53
    refine nearest_of_fits (fits_intCast ?_)
    rw [abs_of_pos hk]
    exact hk53
  rw [exactInt m hm (by omega), exactInt n hn hlt]
  apply half_lt_nearest (by decide)
  have hn' : (0 : Rat) < n := by exact_mod_cast hn
  have hn53 : (n : Rat) < 2 ^ 53 := by exact_mod_cast hlt
  have hnext : (n : Rat) + 1 ≤ 2 * m := by exact_mod_cast h
  rw [lt_div_iff₀ hn']
  have hlast : (2 : Rat) ^ (-(binary64.digits : Int) - 1) = 1 / 2 ^ 54 := by decide +kernel
  have hsmall : 1 / 2 ^ 54 * (n : Rat) < 1 / 2 := by
    rw [one_div, inv_mul_lt_iff₀ (by decide +kernel)]
    linarith
  rw [hlast]
  linarith

/-- The count of a range, which wraps for the whole of `i64`. -/
theorem count_eq {r : Int × Int} (h : InI64 r) :
    max (wrapI64 (wrapI64 (r.2 - r.1) + 1)) 0 = if lineCount r < 2 ^ 63 then lineCount r else 0 := by
  obtain ⟨hnonneg, hle, hlt⟩ := h
  unfold wrapI64 lineCount
  split <;> omega

theorem cast_le_two_zpow {n : Int} (h : n ≤ 2 ^ 63) : (n : Rat) ≤ 2 ^ (63 : Int) := by
  exact_mod_cast h

theorem ofInt_pos {n : Int} (hpos : 0 < n) (h : n ≤ 2 ^ 63) :
    ∃ hfits, (Number.ofInt n : F64) = .finite (nearest binary64 n) hfits := by
  have hpos' : (0 : Rat) < n := by exact_mod_cast hpos
  exact Number.round_eq (k := 63) (by decide) (by decide) ((abs_of_pos hpos').le.trans (cast_le_two_zpow h))

theorem limit_lt {x : Rat} {h : Binary.Fits binary64 x} : Number.lt overlapLimit64 (.finite x h) = true ↔ 1 / 2 < x := by
  obtain ⟨hfits, heq⟩ : ∃ hfits, (Number.round overlapLimit : F64) = .finite (nearest binary64 _) hfits :=
    Number.round_eq (k := 0) (by decide) (by decide) (by rw [overlapLimit, zpow_zero]; decide +kernel)
  rw [overlapLimit64, heq]
  show decide (nearest binary64 (1 / 2) < x) = true ↔ _
  rw [nearest_half, decide_eq_true_eq]

theorem lineCount_pos {r : Int × Int} (h : r.1 ≤ r.2) : 0 < lineCount r := by
  unfold lineCount
  omega

theorem sharedCount_le (a b : Int × Int) : sharedCount a b ≤ min (lineCount a) (lineCount b) := by
  unfold sharedCount lineCount
  omega

/-- The shared count does not wrap where a range's own count does not. -/
theorem sharedCount_eq {a b : Int × Int} (ha : InI64 a) (hA : lineCount a < 2 ^ 63)
    (hdis : ¬ min a.2 b.2 < max a.1 b.1) :
    wrapI64 (wrapI64 (min a.2 b.2 - max a.1 b.1) + 1) = sharedCount a b := by
  have := ha.nonneg
  have := ha.lt
  unfold lineCount at hA
  unfold wrapI64 sharedCount
  omega

/-- A count as a number; one that wraps is clamped to zero. -/
theorem count_number {n : Int} (hn : 0 < n) : ∃ x hx,
    (Number.ofInt (if n < 2 ^ 63 then n else 0) : F64) = .finite x hx ∧ (¬ n < 2 ^ 63 → x ≤ 0) := by
  by_cases hlt : n < 2 ^ 63
  · obtain ⟨hfits, heq⟩ := ofInt_pos hn hlt.le
    rw [if_pos hlt]
    exact ⟨_, hfits, heq, fun hno => absurd hlt hno⟩
  · obtain ⟨hfz, hz⟩ := Number.round_zero
    rw [if_neg hlt]
    exact ⟨0, hfz, hz, fun _ => le_rfl⟩

theorem quotient_le_one {m n : Int} (hm : 0 < m) (hle : m ≤ n) :
    |nearest binary64 m / nearest binary64 n| ≤ 2 ^ (0 : Int) := by
  have hone := one_le_nearest (hm.trans_le hle)
  have hnonneg : 0 ≤ nearest binary64 m := zero_le_one.trans (one_le_nearest hm)
  rw [zpow_zero, abs_of_nonneg (div_nonneg hnonneg (by linarith)), div_le_one (by linarith)]
  exact nearest_mono (by exact_mod_cast hm) (by exact_mod_cast hle)

/-- The test in full: neither count wraps, and the rounded quotient is above a half. -/
theorem overlaps64_iff {a b : Int × Int} (ha : InI64 a) (hb : InI64 b) :
    Number.lt overlapLimit64 (overlapFraction64 a b) = true ↔
      0 < sharedCount a b ∧ lineCount a < 2 ^ 63 ∧ lineCount b < 2 ^ 63 ∧
      1 / 2 < nearest binary64 (nearest binary64 (sharedCount a b) /
        nearest binary64 (min (lineCount a) (lineCount b) : Int)) := by
  obtain ⟨hfz, hz⟩ := Number.round_zero
  have hzero : ¬ Number.lt overlapLimit64 (.round 0) = true := by
    rw [hz, limit_lt]
    decide +kernel
  have hposA := lineCount_pos ha.le
  have hposB := lineCount_pos hb.le
  unfold overlapFraction64
  dsimp only
  by_cases hdis : min a.2 b.2 < max a.1 b.1
  · rw [if_pos hdis]
    refine iff_of_false hzero fun h => ?_
    have := h.1
    unfold sharedCount at this
    omega
  have hshared : 0 < sharedCount a b := by
    unfold sharedCount
    omega
  rw [if_neg hdis, count_eq ha, count_eq hb]
  by_cases hfull : lineCount a < 2 ^ 63 ∧ lineCount b < 2 ^ 63
  · obtain ⟨hA, hB⟩ := hfull
    have hle := sharedCount_le a b
    have hmin : 0 < min (lineCount a) (lineCount b) := lt_min hposA hposB
    have hminLe : min (lineCount a) (lineCount b) ≤ 2 ^ 63 := (min_le_left _ _).trans hA.le
    have hone := one_le_nearest hmin
    obtain ⟨hfo, ho⟩ := ofInt_pos hshared (hle.trans hminLe)
    obtain ⟨hfs, hs⟩ := ofInt_pos hmin hminLe
    obtain ⟨hfq, hq⟩ : ∃ hfits, (Number.round (nearest binary64 (sharedCount a b) /
        nearest binary64 (min (lineCount a) (lineCount b) : Int)) : F64) = .finite _ hfits :=
      Number.round_eq (by decide) (by decide) (quotient_le_one hshared hle)
    rw [if_pos hA, if_pos hB, sharedCount_eq ha hA hdis, Number.min_ofInt hposA hposB (k := 63)
      (by decide) (by decide) (cast_le_two_zpow hA.le) (cast_le_two_zpow hB.le), ho, hs, hz]
    have hnot : ¬ Number.le (.finite (nearest binary64 (min (lineCount a) (lineCount b) : Int)) hfs)
        (.finite 0 hfz) = true := by
      show ¬ decide (_ ≤ (0 : Rat)) = true
      rw [decide_eq_true_eq]
      linarith
    rw [if_neg hnot]
    show Number.lt overlapLimit64 (if _ = (0 : Rat) then _ else _) = true ↔ _
    rw [if_neg (by linarith), hq, limit_lt]
    exact ⟨fun h => ⟨hshared, hA, hB, h⟩, fun h => h.2.2.2⟩
  · -- a count is zero
    rw [if_pos]
    · exact iff_of_false hzero fun h => hfull ⟨h.2.1, h.2.2.1⟩
    · obtain ⟨x, hx, hxeq, hxle⟩ := count_number hposA
      obtain ⟨y, hy, hyeq, hyle⟩ := count_number hposB
      rw [hxeq, hyeq, hz, Number.le_min_finite]
      rw [not_and_or] at hfull
      exact hfull.imp hxle hyle

/-- No overlap is found that is not there. -/
theorem shares_of_overlaps64 {a b : Int × Int} (ha : InI64 a) (hb : InI64 b)
    (h : Number.lt overlapLimit64 (overlapFraction64 a b) = true) : SharesHalf a b := by
  obtain ⟨hpos, -, -, hhalf⟩ := (overlaps64_iff ha hb).1 h
  exact half_lt_of_rounded hpos (lt_min (lineCount_pos ha.le) (lineCount_pos hb.le)) hhalf

/-- Of short ranges every overlap is found. -/
theorem overlaps64_of_shares {a b : Int × Int} (ha : InI64 a) (hb : InI64 b)
    (hsa : lineCount a < 2 ^ 53) (hsb : lineCount b < 2 ^ 53) (h : SharesHalf a b) :
    Number.lt overlapLimit64 (overlapFraction64 a b) = true := by
  have hposA := lineCount_pos ha.le
  have hposB := lineCount_pos hb.le
  have hpos : 0 < sharedCount a b := by
    unfold SharesHalf at h
    omega
  refine (overlaps64_iff ha hb).2 ⟨hpos, by omega, by omega, ?_⟩
  exact rounded_half_lt hpos (by omega) (sharedCount_le a b) (by omega) h

/-! ## The selection -/

/-- The ids name ranges of one file that share more than half of the shorter one's lines. -/
def Overlapping (id kept : Text) : Prop :=
  match parseChunkId id, parseChunkId kept with
  | some (path, start, fin), some (kpath, kstart, kfin) =>
    kpath = path ∧ SharesHalf (start, fin) (kstart, kfin)
  | _, _ => False

instance (id kept : Text) : Decidable (Overlapping id kept) := by
  unfold Overlapping SharesHalf
  split <;> infer_instance

section
variable {F : Type}

/-- The parseable ids have ranges. -/
def Ranged (l : List (Text × F)) : Prop :=
  ∀ entry ∈ l, ∀ path start fin, parseChunkId entry.1 = some (path, start, fin) → start ≤ fin

/-- Places of `l` of which no later one overlaps an earlier one, and every other place has an
id that parses and overlaps one before it; sharing just half is no overlap. -/
structure OverlapSelection (l : List (Text × F)) (K : List ((Text × F) × Nat)) : Prop where
  sublist : K.Sublist l.zipIdx
  unparseable : ∀ p ∈ l.zipIdx, parseChunkId p.1.1 = none → p ∈ K
  apart : K.Pairwise fun p q => ¬ Overlapping q.1.1 p.1.1
  dropped : ∀ p ∈ l.zipIdx, p ∉ K → ∃ q ∈ K, q.2 < p.2 ∧ Overlapping p.1.1 q.1.1

theorem not_overlapping_of_none {id : Text} (h : parseChunkId id = none) (kept : Text) :
    ¬ Overlapping id kept := by
  unfold Overlapping
  rw [h]
  exact fun hover => hover

theorem overlapSelection_iff {l : List (Text × F)} {K : List ((Text × F) × Nat)} :
    OverlapSelection l K ↔ IsSelection (fun x y => Overlapping x.1 y.1) l K := by
  constructor
  · exact fun h => ⟨h.sublist, h.apart, h.dropped⟩
  · refine fun h => ⟨h.sublist, fun p hp hnone => ?_, h.apart, h.dropped⟩
    by_contra hno
    obtain ⟨q, -, -, hover⟩ := h.dropped p hp hno
    exact not_overlapping_of_none hnone _ hover

/-- What the selection keeps, taken from the ids. -/
def overlapKept (l : List (Text × F)) : List (Text × F) :=
  keepFirst (fun entry kept => decide (Overlapping entry.1 kept.1)) l

/-- The result is the one selection, and is a fixed point. -/
def SelectsOverlaps (dedup : List (Text × F) → List (Text × F)) (l : List (Text × F)) : Prop :=
  (∃ K, OverlapSelection l K ∧ dedup l = K.map Prod.fst ∧ ∀ K', OverlapSelection l K' → K' = K) ∧
  dedup (dedup l) = dedup l

theorem selectsOverlaps_iff (l : List (Text × F)) :
    SelectsOverlaps dedupOverlapping64 l ↔ dedupOverlapping64 l = overlapKept l := by
  have hwalk : OverlapSelection l (keptPlaces (fun x y => decide (Overlapping x.1 y.1)) l) := by
    rw [overlapSelection_iff]
    have h := isSelection_keptPlaces (fun x y : Text × F => decide (Overlapping x.1 y.1)) l
    simpa only [decide_eq_true_eq] using h
  have hkept := map_keptPlaces (fun x y : Text × F => decide (Overlapping x.1 y.1)) l
  constructor
  · rintro ⟨⟨K, hK, hout, huniq⟩, -⟩
    rw [hout, ← huniq _ hwalk]
    exact hkept
  · refine fun h => ⟨⟨_, hwalk, h.trans hkept.symm, fun K' hK' => ?_⟩, keepFirst_idem _ l⟩
    rw [overlapSelection_iff] at hK' hwalk
    exact hK'.unique hwalk

theorem overlapping_of_kept64 {l : List (Text × F)} (hl : Ranged l) {x y : Text × F} (hx : x ∈ l)
    (hy : y ∈ l) (h : overlapsKept64 x.1 y.1 = true) : Overlapping x.1 y.1 := by
  unfold overlapsKept64 at h
  unfold Overlapping
  split at h
  · next path start fin kpath kstart kfin hpx hpy =>
    rw [Bool.and_eq_true, decide_eq_true_eq] at h
    have hrx := parseChunkId_range hpx (hl x hx _ _ _ hpx)
    have hry := parseChunkId_range hpy (hl y hy _ _ _ hpy)
    exact ⟨h.1, shares_of_overlaps64 hrx hry h.2⟩
  · cases h

theorem kept64_of_overlapping {l : List (Text × F)} (hl : Ranged l)
    (hshort : ∀ entry ∈ l, ∀ path start fin, parseChunkId entry.1 = some (path, start, fin) →
      fin - start + 1 < 2 ^ 53)
    {x y : Text × F} (hx : x ∈ l) (hy : y ∈ l) (h : Overlapping x.1 y.1) :
    overlapsKept64 x.1 y.1 = true := by
  unfold Overlapping at h
  unfold overlapsKept64
  split at h
  · next path start fin kpath kstart kfin hpx hpy =>
    have hrx := parseChunkId_range hpx (hl x hx _ _ _ hpx)
    have hry := parseChunkId_range hpy (hl y hy _ _ _ hpy)
    have hover := overlaps64_of_shares hrx hry (hshort x hx _ _ _ hpx) (hshort y hy _ _ _ hpy) h.2
    simp only [h.1, hover, decide_true, Bool.and_self]
  · exact h.elim

theorem limit_lt_iff_sharesHalf {a b : Int × Int} (ha : InI64 a) (hb : InI64 b) :
    overlapLimit < overlapFraction a b ↔ SharesHalf a b := by
  obtain ⟨a₁, a₂⟩ := a
  obtain ⟨b₁, b₂⟩ := b
  have hna := ha.nonneg
  have hnb := hb.nonneg
  have hla := ha.le
  have hlb := hb.le
  dsimp only at hna hnb hla hlb
  lift a₁ to Nat using hna
  lift b₁ to Nat using hnb
  lift a₂ to Nat using by omega
  lift b₂ to Nat using by omega
  rw [limit_lt_overlapFraction (a := (a₁, a₂)) (b := (b₁, b₂)) (by exact_mod_cast hla)
    (by exact_mod_cast hlb)]
  unfold ShareMoreThanHalf SharesHalf lineCount sharedCount
  omega

/-- Of short ranges the machine selects what exact arithmetic selects. -/
theorem dedupOverlapping64_eq {l : List (Text × F)} (hl : Ranged l)
    (hshort : ∀ entry ∈ l, ∀ path start fin, parseChunkId entry.1 = some (path, start, fin) →
      fin - start + 1 < 2 ^ 53) : dedupOverlapping64 l = dedupOverlapping l := by
  have agree : ∀ x ∈ l, ∀ y ∈ l, overlapsKept64 x.1 y.1 = overlapsKept x.1 y.1 := by
    intro x hx y hy
    unfold overlapsKept64 overlapsKept
    cases hpx : parseChunkId x.1 with
    | none => rfl
    | some px =>
      cases hpy : parseChunkId y.1 with
      | none => rfl
      | some py =>
        have hrx := parseChunkId_range hpx (hl x hx _ _ _ hpx)
        have hry := parseChunkId_range hpy (hl y hy _ _ _ hpy)
        have htest : Number.lt overlapLimit64 (overlapFraction64 px.2 py.2) =
            decide (overlapLimit < overlapFraction px.2 py.2) := by
          rw [Bool.eq_iff_iff, decide_eq_true_eq, limit_lt_iff_sharesHalf hrx hry]
          exact ⟨shares_of_overlaps64 hrx hry,
            overlaps64_of_shares hrx hry (hshort x hx _ _ _ hpx) (hshort y hy _ _ _ hpy)⟩
        exact congrArg (decide (py.1 = px.1) && ·) htest
  unfold dedupOverlapping64 dedupOverlapping
  rw [keepFirst_eq_iff _ _ l fun x hx y hy h => (agree x hx y hy) ▸ h]
  rintro pre x post rfl ⟨y, hy, hdup⟩
  refine ⟨y, hy, ?_⟩
  rw [agree x (by simp) y (List.mem_append_left _ ((keepFirst_sublist _ pre).subset hy))]
  exact hdup

/-- Stage A is the greedy selection exactly if the machine test finds, of every candidate that
overlaps a selected one before it, one that it overlaps; of short ranges it does. -/
theorem dedup_overlapping_selects_iff (l : List (Text × F)) (hl : Ranged l) :
    (SelectsOverlaps dedupOverlapping64 l ↔ ∀ pre entry post, l = pre ++ entry :: post →
      (∃ kept ∈ overlapKept pre, Overlapping entry.1 kept.1) →
        ∃ kept ∈ overlapKept pre, overlapsKept64 entry.1 kept.1 = true) ∧
    ((∀ entry ∈ l, ∀ path start fin, parseChunkId entry.1 = some (path, start, fin) →
      fin - start + 1 < 2 ^ 53) → SelectsOverlaps dedupOverlapping64 l) := by
  have hiff : SelectsOverlaps dedupOverlapping64 l ↔ ∀ pre entry post, l = pre ++ entry :: post →
      (∃ kept ∈ overlapKept pre, Overlapping entry.1 kept.1) →
        ∃ kept ∈ overlapKept pre, overlapsKept64 entry.1 kept.1 = true := by
    have hwalks := keepFirst_eq_iff (fun x y => decide (Overlapping x.1 y.1))
      (fun x y : Text × F => overlapsKept64 x.1 y.1) l
      (fun x hx y hy h => decide_eq_true (overlapping_of_kept64 hl hx hy h))
    simp only [decide_eq_true_eq] at hwalks
    rw [selectsOverlaps_iff]
    exact hwalks
  refine ⟨hiff, fun hshort => hiff.2 ?_⟩
  rintro pre entry post rfl ⟨kept, hkept, hover⟩
  have hmem : kept ∈ pre ++ entry :: post :=
    List.mem_append_left _ ((keepFirst_sublist _ pre).subset hkept)
  exact ⟨kept, hkept, kept64_of_overlapping hl hshort (by simp) hmem hover⟩

end

/-- The whole of `i64` twice: its count wraps to zero lines, and both stay. -/
def wholeTwice : List (Text × Nat) :=
  [("p:0-9223372036854775807".toList, 2), ("p:0-9223372036854775807".toList, 1)]

theorem wholeTwice_kept : ¬ SelectsOverlaps dedupOverlapping64 wholeTwice := by
  have hparse : parseChunkId "p:0-9223372036854775807".toList = some ("p".toList, 0, 2 ^ 63 - 1) := by
    decide +kernel
  have hrange : InI64 (0, 2 ^ 63 - 1) := ⟨by decide, by decide, by decide⟩
  have hno : overlapsKept64 "p:0-9223372036854775807".toList "p:0-9223372036854775807".toList =
      false := by
    unfold overlapsKept64
    rw [hparse]
    show (decide ("p".toList = "p".toList) && _) = false
    rw [Bool.and_eq_false_iff]
    right
    rw [← Bool.not_eq_true, overlaps64_iff hrange hrange]
    rintro ⟨-, hcount, -⟩
    exact absurd hcount (by decide)
  have hpair : ∀ x y : Text × Nat, overlapsKept64 y.1 x.1 = false →
      dedupOverlapping64 [x, y] = [x, y] := by
    intro x y h
    simp [dedupOverlapping64, keepFirst, keepStep, h]
  have hboth : dedupOverlapping64 wholeTwice = wholeTwice := hpair _ _ hno
  have hone : (overlapKept wholeTwice).length = 1 := by decide +kernel
  rw [selectsOverlaps_iff, hboth]
  intro h
  rw [← h] at hone
  cases hone

theorem dedup_overlapping_selects_half :
    SelectsOverlaps dedupOverlapping64 [("p:1-4".toList, 2), ("p:3-6".toList, 1)] := by
  have hfirst : parseChunkId "p:1-4".toList = some ("p".toList, 1, 4) := by decide +kernel
  have hsecond : parseChunkId "p:3-6".toList = some ("p".toList, 3, 6) := by decide +kernel
  have hparse : ∀ entry ∈ [("p:1-4".toList, 2), ("p:3-6".toList, 1)], ∀ path start fin,
      parseChunkId entry.1 = some (path, start, fin) → start ≤ fin ∧ fin - start + 1 < 2 ^ 53 := by
    intro entry hentry path start fin h
    rcases List.mem_cons.1 hentry with rfl | hentry
    · rw [hfirst] at h
      cases h
      decide
    · rw [List.mem_singleton.1 hentry, hsecond] at h
      cases h
      decide
  exact (dedup_overlapping_selects_iff _ fun entry he path start fin h =>
    (hparse entry he path start fin h).1).2 fun entry he path start fin h =>
      (hparse entry he path start fin h).2

end CodeSearch
