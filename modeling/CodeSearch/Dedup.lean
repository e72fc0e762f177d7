import Mathlib.Algebra.Order.Field.Basic
import Mathlib.Algebra.Order.Ring.Rat
import Mathlib.Data.Finset.Card
import CodeSearch.ChunkId
import CodeSearch.Lib.Greedy
import CodeSearch.Tokens

/-!
# Near-duplicates

Stage A drops a candidate that overlaps a kept one of its file by more than half of
the shorter range; it reads the ranges off the ids.  Stage B drops a hydrated hit
whose tokens are nearly those of a kept one.  Both are `keepFirst`: the survivors
keep their order, no two of them are near-duplicates, and everything dropped has a
survivor before it to blame.
-/

namespace CodeSearch

open Greedy

/-! ## Stage A: ranges of one file -/

/-- `OVERLAP_FRACTION`. -/
def overlapLimit : Rat := 1 / 2

/-- Fraction of the shorter of two inclusive ranges that they overlap. -/
def overlapFraction (a b : Int × Int) : Rat :=
  let lo := max a.1 b.1
  let hi := min a.2 b.2
  if hi < lo then 0
  else
    let overlap : Rat := (hi - lo + 1 : Int)
    let lenA : Rat := (max (a.2 - a.1 + 1) 0 : Int)
    let lenB : Rat := (max (b.2 - b.1 + 1) 0 : Int)
    let shorter := min lenA lenB
    if shorter ≤ 0 then 0 else overlap / shorter

/-- The test of one kept id; an id that does not parse is never a duplicate. -/
def overlapsKept (id kept : Text) : Bool :=
  match parseChunkId id, parseChunkId kept with
  | some (path, start, fin), some (kpath, kstart, kfin) =>
    kpath = path && overlapLimit < overlapFraction (start, fin) (kstart, kfin)
  | _, _ => false

/-- Drop the candidates that overlap a higher one of their file. -/
def dedupOverlapping {F : Type} (fused : List (Text × F)) : List (Text × F) :=
  keepFirst (fun entry kept => overlapsKept entry.1 kept.1) fused

/-! ## Stage B: content -/

/-- `CONTENT_JACCARD_THRESHOLD`. -/
def contentJaccardThreshold : Rat := 9 / 10

structure ImportDto where
  source : Text
  kind : Text
  line : Nat
deriving DecidableEq

structure ExportDto where
  detail : Text
  line : Nat
deriving DecidableEq

/-- A chunk with its location, signature, snippet and its file's imports and exports. -/
structure HydratedHit where
  chunkId : Text
  filePath : Text
  startLine : Nat
  endLine : Nat
  kind : Text
  signature : Option Text
  snippet : Text
  imports : List ImportDto
  exports : List ExportDto
deriving DecidableEq

/-- The set of tokens of the snippet and the signature. -/
def contentFingerprint (U : CharTables) (hit : HydratedHit) : Finset Text :=
  (codeTokens U hit.snippet).toFinset ∪
    match hit.signature with
    | some sig => (codeTokens U sig).toFinset
    | none => ∅

/-- Common over all tokens; no similarity between two empty sets. -/
def jaccard (a b : Finset Text) : Rat :=
  if a = ∅ ∧ b = ∅ then 0
  else
    let inter : Rat := (a ∩ b).card
    let union : Rat := (a ∪ b).card
    if union = 0 then 0 else inter / union

/-- One round: the kept hits, and their fingerprints beside them. -/
def dedupContentStep {F : Type} (U : CharTables) (acc : List (HydratedHit × F) × List (Finset Text))
    (entry : HydratedHit × F) : List (HydratedHit × F) × List (Finset Text) :=
  let fp := contentFingerprint U entry.1
  if acc.2.any fun keptFp => contentJaccardThreshold ≤ jaccard fp keptFp then acc
  else (acc.1 ++ [entry], acc.2 ++ [fp])

/-- Drop the hits nearly equal in content to a higher one. -/
def dedupContent {F : Type} (U : CharTables) (hits : List (HydratedHit × F)) :
    List (HydratedHit × F) :=
  (hits.foldl (dedupContentStep U) ([], [])).1

/-! ## Lemmas -/

/-- The two inclusive ranges share more than half of the shorter one's lines. -/
def ShareMoreThanHalf (a b : Nat × Nat) : Prop :=
  min (a.2 + 1 - a.1) (b.2 + 1 - b.1) < 2 * (min a.2 b.2 + 1 - max a.1 b.1)

instance (a b : Nat × Nat) : Decidable (ShareMoreThanHalf a b) := Nat.decLt _ _

theorem ShareMoreThanHalf.symm {a b : Nat × Nat} (h : ShareMoreThanHalf a b) :
    ShareMoreThanHalf b a := by
  unfold ShareMoreThanHalf at *
  omega

theorem limit_lt_overlapFraction {a b : Nat × Nat} (ha : a.1 ≤ a.2) (hb : b.1 ≤ b.2) :
    overlapLimit < overlapFraction ((a.1 : Int), (a.2 : Int)) ((b.1 : Int), (b.2 : Int)) ↔
      ShareMoreThanHalf a b := by
  unfold overlapFraction ShareMoreThanHalf overlapLimit
  by_cases hdis : min a.2 b.2 < max a.1 b.1
  · rw [if_pos (by show min (a.2 : Int) b.2 < max (a.1 : Int) b.1; omega)]
    constructor
    · intro h
      exact absurd h (by decide +kernel)
    · intro h
      omega
  · rw [if_neg (by show ¬ min (a.2 : Int) b.2 < max (a.1 : Int) b.1; omega)]
    have hover : min (a.2 : Int) b.2 - max (a.1 : Int) b.1 + 1 =
        ((min a.2 b.2 + 1 - max a.1 b.1 : Nat) : Int) := by omega
    have hlenA : max ((a.2 : Int) - a.1 + 1) 0 = ((a.2 + 1 - a.1 : Nat) : Int) := by omega
    have hlenB : max ((b.2 : Int) - b.1 + 1) 0 = ((b.2 + 1 - b.1 : Nat) : Int) := by omega
    have hshort : min (((a.2 + 1 - a.1 : Nat) : Int) : Rat) (((b.2 + 1 - b.1 : Nat) : Int) : Rat) =
        ((min (a.2 + 1 - a.1) (b.2 + 1 - b.1) : Nat) : Rat) := by
      rw [Int.cast_natCast, Int.cast_natCast, Nat.cast_min]
    show (1 / 2 : Rat) < (if min ((max ((a.2 : Int) - a.1 + 1) 0 : Int) : Rat)
      ((max ((b.2 : Int) - b.1 + 1) 0 : Int) : Rat) ≤ 0 then 0 else
        ((min (a.2 : Int) b.2 - max (a.1 : Int) b.1 + 1 : Int) : Rat) /
          min ((max ((a.2 : Int) - a.1 + 1) 0 : Int) : Rat)
            ((max ((b.2 : Int) - b.1 + 1) 0 : Int) : Rat)) ↔ _
    rw [hover, hlenA, hlenB, hshort, Int.cast_natCast]
    generalize hs : min (a.2 + 1 - a.1) (b.2 + 1 - b.1) = s
    generalize min a.2 b.2 + 1 - max a.1 b.1 = o
    have hpos : (0 : Rat) < (s : Rat) := by
      rw [Nat.cast_pos]
      omega
    rw [if_neg (not_le.2 hpos), div_lt_div_iff₀ (by decide +kernel) hpos, one_mul, mul_comm]
    exact_mod_cast Iff.rfl

/-- The sets have at least nine tenths of all their elements in common. -/
def NearlySame (a b : Finset Text) : Prop :=
  (a ∪ b).Nonempty ∧ (9 / 10 : Rat) ≤ ((a ∩ b).card : Rat) / (a ∪ b).card

theorem NearlySame.symm {a b : Finset Text} (h : NearlySame a b) : NearlySame b a := by
  unfold NearlySame at *
  rwa [Finset.inter_comm, Finset.union_comm]

theorem threshold_le_jaccard_iff {a b : Finset Text} :
    contentJaccardThreshold ≤ jaccard a b ↔ NearlySame a b := by
  have hlow : ¬ contentJaccardThreshold ≤ 0 := by decide +kernel
  unfold jaccard NearlySame
  by_cases hempty : a = ∅ ∧ b = ∅
  · rw [if_pos hempty, hempty.1, hempty.2]
    exact iff_of_false hlow fun h => Finset.not_nonempty_empty h.1
  · have hunion : (a ∪ b).Nonempty := by
      rw [Finset.nonempty_iff_ne_empty]
      exact fun h => hempty (Finset.union_eq_empty.1 h)
    have hcard : ((a ∪ b).card : Rat) ≠ 0 := Nat.cast_ne_zero.2 hunion.card_pos.ne'
    rw [if_neg hempty]
    dsimp only
    rw [if_neg hcard]
    exact ⟨fun h => ⟨hunion, h⟩, fun h => h.2⟩

section
variable {F : Type} {U : CharTables}

/-- The fingerprints beside the kept hits are theirs. -/
theorem dedupContent_eq (hits : List (HydratedHit × F)) : dedupContent U hits =
    keepFirst (fun entry kept => decide (contentJaccardThreshold ≤
      jaccard (contentFingerprint U entry.1) (contentFingerprint U kept.1))) hits := by
  let fps : List (HydratedHit × F) → List (Finset Text) :=
    fun kept => kept.map fun entry => contentFingerprint U entry.1
  have steps : ∀ (hits kept : List (HydratedHit × F)),
      hits.foldl (dedupContentStep U) (kept, fps kept) =
        let out := hits.foldl (keepStep fun entry kept => decide (contentJaccardThreshold ≤
          jaccard (contentFingerprint U entry.1) (contentFingerprint U kept.1))) kept
        (out, fps out) := by
    intro hits
    induction hits with
    | nil => exact fun kept => rfl
    | cons entry hits ih =>
      intro kept
      rw [List.foldl_cons, List.foldl_cons, ← ih]
      congr 1
      unfold dedupContentStep keepStep
      simp only [fps, List.any_map, Function.comp_def]
      split
      · rfl
      · rw [List.map_append]
        rfl
  exact congrArg Prod.fst (steps hits [])

end

end CodeSearch
