import Mathlib.Algebra.Group.Nat.Defs
import Mathlib.Data.List.Basic
import Mathlib.Data.List.ReduceOption
import Mathlib.Tactic.SplitIfs

/-!
# Decoding UTF-8

`decode` reads bytes one by one: a well-formed sequence gives its character, and an
ill-formed one, cut where the first byte that cannot continue it stands, gives nothing.
`toStringLossy` writes U+FFFD for the latter, `toStr?` refuses them.

A byte below 0x80 is always a character of its own, whatever came before it, and such a
character has no other origin:

    toStringLossy (a ++ x :: b) = toStringLossy a ++ x :: toStringLossy b   (toStringLossy_append)
    c ∈ toStringLossy bytes → its byte ∈ bytes                              (mem_toStringLossy)

Bytes that are UTF-8 are told by their text (`toStr_injective`).
-/

namespace Utf8

/-! ## The decoder -/

/-- A sequence begun: its bits so far, the bytes owed after the next one, and the range
the next one must lie in. -/
structure Pending where
  bits : Nat
  owed : Nat
  low : Nat
  high : Nat

/-- The sequence that a byte begins. -/
def lead (b : Nat) : Option Pending :=
  if 0xC2 ≤ b ∧ b ≤ 0xDF then some ⟨b - 0xC0, 0, 0x80, 0xBF⟩
  else if b = 0xE0 then some ⟨0, 1, 0xA0, 0xBF⟩
  else if b = 0xED then some ⟨0xD, 1, 0x80, 0x9F⟩
  else if 0xE1 ≤ b ∧ b ≤ 0xEF then some ⟨b - 0xE0, 1, 0x80, 0xBF⟩
  else if b = 0xF0 then some ⟨0, 2, 0x90, 0xBF⟩
  else if 0xF1 ≤ b ∧ b ≤ 0xF3 then some ⟨b - 0xF0, 2, 0x80, 0xBF⟩
  else if b = 0xF4 then some ⟨4, 2, 0x80, 0x8F⟩
  else none

/-- A byte between sequences: what it gives, and what is pending after it. -/
def first (b : Nat) : List (Option Char) × Option Pending :=
  if b < 0x80 then ([some (Char.ofNat b)], none)
  else match lead b with
    | some p => ([], some p)
    | none => ([none], none)

/-- A byte after a sequence was begun.  One that cannot continue it ends it and is read
anew. -/
def Pending.take (p : Pending) (b : Nat) : List (Option Char) × Option Pending :=
  if p.low ≤ b ∧ b ≤ p.high then
    match p.owed with
    | 0 => ([some (Char.ofNat (p.bits * 64 + b % 64))], none)
    | n + 1 => ([], some ⟨p.bits * 64 + b % 64, n, 0x80, 0xBF⟩)
  else (none :: (first b).1, (first b).2)

def step : Option Pending → Nat → List (Option Char) × Option Pending
  | none, b => first b
  | some p, b => p.take b

def decodeFrom : Option Pending → List UInt8 → List (Option Char)
  | none, [] => []
  | some _, [] => [none]
  | s, b :: bytes => (step s b.toNat).1 ++ decodeFrom (step s b.toNat).2 bytes

def decode (bytes : List UInt8) : List (Option Char) := decodeFrom none bytes

/-- `String::from_utf8_lossy`. -/
def toStringLossy (bytes : List UInt8) : List Char :=
  (decode bytes).map (·.getD (Char.ofNat 0xFFFD))

/-- `String::from_utf8`, and `to_str` of a name. -/
def toStr? (bytes : List UInt8) : Option (List Char) :=
  if none ∈ decode bytes then none else some (toStringLossy bytes)

example : toStr? [0x61, 0xE2, 0x82, 0xAC] = some ['a', '€'] := by decide
example : toStringLossy [0xE2, 0x82, 0x61, 0xFF] = ['\uFFFD', 'a', '\uFFFD'] := by decide
example : toStringLossy [0xED, 0xA0] = ['\uFFFD', '\uFFFD'] := by decide

/-! ## What a sequence can become -/

/-- Every way to go on gives a scalar value that is not ASCII. -/
structure Pending.Sound (p : Pending) : Prop where
  low : 0x80 ≤ p.low
  high : p.high ≤ 0xBF
  scalar : ∀ n, (p.bits * 64 + (p.low - 0x80)) * 64 ^ p.owed ≤ n →
    n < (p.bits * 64 + (p.high - 0x80) + 1) * 64 ^ p.owed → n.isValidChar ∧ 0x80 ≤ n

theorem Pending.sound_mk {bits owed low high : Nat} (hlow : 0x80 ≤ low) (hhigh : high ≤ 0xBF)
    (h : ∀ n, (bits * 64 + (low - 0x80)) * 64 ^ owed ≤ n →
      n < (bits * 64 + (high - 0x80) + 1) * 64 ^ owed →
      (n < 0xD800 ∨ 0xDFFF < n ∧ n < 0x110000) ∧ 0x80 ≤ n) :
    (Pending.mk bits owed low high).Sound :=
  ⟨hlow, hhigh, h⟩

theorem lead_sound {b : Nat} {p : Pending} (h : lead b = some p) : p.Sound := by
  unfold lead at h
  split_ifs at h
  all_goals
    rw [← Option.some.inj h]
    refine Pending.sound_mk (by omega) (by omega) fun n hlow hhigh => ?_
    simp only [Nat.pow_zero, Nat.pow_one, Nat.reducePow] at hlow hhigh
    omega

/-- A continuation byte narrows what a sequence can become. -/
theorem Pending.Sound.next {bits n low high b : Nat} (h : (Pending.mk bits (n + 1) low high).Sound)
    (hlow : low ≤ b) (hhigh : b ≤ high) : (Pending.mk (bits * 64 + b % 64) n 0x80 0xBF).Sound := by
  obtain ⟨hl, hh, hs⟩ := h
  simp only at hl hh hs
  refine Pending.sound_mk (Nat.le_refl _) (Nat.le_refl _) fun v hv hv' => hs v ?_ ?_
  · refine Nat.le_trans ?_ hv
    rw [Nat.pow_succ', ← Nat.mul_assoc]
    exact Nat.mul_le_mul_right _ (by omega)
  · refine Nat.lt_of_lt_of_le hv' ?_
    rw [Nat.pow_succ', ← Nat.mul_assoc]
    exact Nat.mul_le_mul_right _ (by omega)

theorem toNat_ofNat {n : Nat} (h : n.isValidChar) : (Char.ofNat n).toNat = n := by
  unfold Char.ofNat
  rw [dif_pos h]
  rfl

theorem Pending.Sound.last {bits low high b : Nat} (h : (Pending.mk bits 0 low high).Sound)
    (hlow : low ≤ b) (hhigh : b ≤ high) : 0x80 ≤ (Char.ofNat (bits * 64 + b % 64)).toNat := by
  obtain ⟨hl, hh, hs⟩ := h
  simp only [Nat.pow_zero, Nat.mul_one] at hl hh hs
  obtain ⟨hvalid, hge⟩ := hs (bits * 64 + b % 64) (by omega) (by omega)
  rw [toNat_ofNat hvalid]
  exact hge

/-- Nothing is pending, or a sequence that can still become a character. -/
def SoundState (s : Option Pending) : Prop := ∀ p, s = some p → p.Sound

theorem soundState_none : SoundState none := fun _ h => by cases h

theorem first_sound (b : Nat) : SoundState (first b).2 := by
  unfold first
  by_cases hb : b < 0x80
  · rw [if_pos hb]
    exact soundState_none
  · rw [if_neg hb]
    cases hlead : lead b with
    | none => exact soundState_none
    | some p =>
      rintro q ⟨⟩
      exact lead_sound hlead

theorem Pending.Sound.take {p : Pending} (h : p.Sound) (b : Nat) : SoundState (p.take b).2 := by
  obtain ⟨bits, owed, low, high⟩ := p
  unfold Pending.take
  split
  · next hin =>
    cases owed with
    | zero => exact soundState_none
    | succ n =>
      rintro q ⟨⟩
      exact h.next hin.1 hin.2
  · exact first_sound b

theorem step_sound {s : Option Pending} (hs : SoundState s) (b : Nat) : SoundState (step s b).2 := by
  cases s with
  | none => exact first_sound b
  | some p => exact (hs p rfl).take b

/-! ## Bytes below 0x80 -/

/-- What is left undone gives nothing. -/
def flush : Option Pending → List (Option Char)
  | none => []
  | some _ => [none]

theorem decodeFrom_nil (s : Option Pending) : decodeFrom s [] = flush s := by
  cases s <;> rfl

theorem decodeFrom_cons (s : Option Pending) (b : UInt8) (bytes : List UInt8) :
    decodeFrom s (b :: bytes) = (step s b.toNat).1 ++ decodeFrom (step s b.toNat).2 bytes := by
  cases s <;> rfl

theorem first_ascii {b : Nat} (h : b < 0x80) : first b = ([some (Char.ofNat b)], none) := by
  unfold first
  rw [if_pos h]

theorem step_ascii {s : Option Pending} (hs : SoundState s) {b : Nat} (h : b < 0x80) :
    step s b = (flush s ++ [some (Char.ofNat b)], none) := by
  cases s with
  | none => exact first_ascii h
  | some p =>
    have hout : ¬ (p.low ≤ b ∧ b ≤ p.high) := fun hin => by
      have := (hs p rfl).low
      omega
    show p.take b = _
    unfold Pending.take
    rw [if_neg hout, first_ascii h]
    rfl

/-- Decoding starts over at a byte below 0x80. -/
theorem decodeFrom_append {s : Option Pending} (hs : SoundState s) (a b : List UInt8) {x : UInt8}
    (hx : x.toNat < 0x80) : decodeFrom s (a ++ x :: b) =
      decodeFrom s a ++ some (Char.ofNat x.toNat) :: decode b := by
  induction a generalizing s with
  | nil => 
    rw [List.nil_append, decodeFrom_cons, step_ascii hs hx, decodeFrom_nil, List.append_assoc]
    rfl
  | cons y a ih =>
    rw [List.cons_append, decodeFrom_cons, decodeFrom_cons, ih (step_sound hs _), List.append_assoc]

theorem first_origin {b : Nat} {c : Char} (h : some c ∈ (first b).1) : c = Char.ofNat b ∧ b < 0x80 := by
  by_cases hb : b < 0x80
  · rw [first_ascii hb] at h
    exact ⟨Option.some.inj (List.mem_singleton.1 h), hb⟩
  · unfold first at h
    rw [if_neg hb] at h
    cases hlead : lead b <;> simp [hlead] at h

/-- A character below 0x80 is the byte that gave it. -/
theorem step_origin {s : Option Pending} (hs : SoundState s) {b : Nat} {c : Char}
    (h : some c ∈ (step s b).1) (hc : c.toNat < 0x80) : c = Char.ofNat b ∧ b < 0x80 := by
  cases s with
  | none => exact first_origin h
  | some p =>
    obtain ⟨bits, owed, low, high⟩ := p
    have h : some c ∈ (Pending.take ⟨bits, owed, low, high⟩ b).1 := h
    unfold Pending.take at h
    split at h
    · next hin =>
      cases owed with
      | zero =>
        cases List.mem_singleton.1 h
        exact absurd hc (Nat.not_lt.2 ((hs _ rfl).last hin.1 hin.2))
      | succ n => cases h
    · rcases List.mem_cons.1 h with h | h
      · cases h
      · exact first_origin h

theorem mem_decodeFrom {s : Option Pending} (hs : SoundState s) {bytes : List UInt8} {c : Char}
    (h : some c ∈ decodeFrom s bytes) (hc : c.toNat < 0x80) :
    ∃ b ∈ bytes, c = Char.ofNat b.toNat ∧ b.toNat < 0x80 := by
  induction bytes generalizing s with
  | nil =>
    rw [decodeFrom_nil] at h
    cases s with
    | none => cases h
    | some p => cases List.mem_singleton.1 h
  | cons b bytes ih =>
    rw [decodeFrom_cons, List.mem_append] at h
    rcases h with h | h
    · exact ⟨b, List.mem_cons_self, step_origin hs h hc⟩
    · obtain ⟨x, hx, horigin⟩ := ih (step_sound hs _) h
      exact ⟨x, List.mem_cons_of_mem _ hx, horigin⟩

/-! ## Texts -/

/-- Bytes that are UTF-8 lose nothing. -/
theorem toStringLossy_of_toStr {bytes : List UInt8} {t : List Char}
    (h : toStr? bytes = some t) : toStringLossy bytes = t := by
  unfold toStr? at h
  split at h
  · cases h
  · exact Option.some.inj h

/-- Bytes that are not show it. -/
theorem replacement_mem {bytes : List UInt8} (h : toStr? bytes = none) :
    Char.ofNat 0xFFFD ∈ toStringLossy bytes := by
  unfold toStr? at h
  split at h
  · next hnone => exact List.mem_map.2 ⟨none, hnone, rfl⟩
  · cases h

theorem toStringLossy_append (a b : List UInt8) {x : UInt8} (hx : x.toNat < 0x80) :
    toStringLossy (a ++ x :: b) = toStringLossy a ++ Char.ofNat x.toNat :: toStringLossy b := by
  unfold toStringLossy decode
  rw [decodeFrom_append soundState_none a b hx, List.map_append, List.map_cons]
  rfl

theorem toNat_ofNat_ascii {n : Nat} (h : n < 0x80) : (Char.ofNat n).toNat = n :=
  toNat_ofNat (.inl (by omega))

theorem mem_toStringLossy {bytes : List UInt8} {x : UInt8} (hx : x.toNat < 0x80)
    (h : Char.ofNat x.toNat ∈ toStringLossy bytes) : x ∈ bytes := by
  have hval := toNat_ofNat_ascii hx
  obtain ⟨o, ho, heq⟩ := List.mem_map.1 h
  cases o with
  | none =>
    have hval' : (Char.ofNat 0xFFFD).toNat = x.toNat := by rw [← hval, ← heq]; rfl
    have hfffd : (Char.ofNat 0xFFFD).toNat = 0xFFFD := by decide
    omega
  | some c =>
    rw [Option.getD_some] at heq
    subst heq
    obtain ⟨b, hb, hc, hlow⟩ := mem_decodeFrom soundState_none ho (by omega)
    have : b = x := UInt8.toNat_inj.1 (by rw [← toNat_ofNat_ascii hlow, ← hc, hval])
    rwa [← this]

/-- Something is read from every byte. -/
theorem decodeFrom_some_ne_nil (p : Pending) (bytes : List UInt8) :
    decodeFrom (some p) bytes ≠ [] := by
  induction bytes generalizing p with
  | nil => exact List.cons_ne_nil _ _
  | cons b bytes ih =>
    rw [decodeFrom_cons]
    show (p.take b.toNat).1 ++ decodeFrom (p.take b.toNat).2 bytes ≠ []
    unfold Pending.take
    split
    · cases p.owed with
      | zero => exact List.cons_ne_nil _ _
      | succ n => exact ih _
    · exact List.cons_ne_nil _ _

theorem toStringLossy_eq_nil {bytes : List UInt8} (h : toStringLossy bytes = []) : bytes = [] := by
  cases bytes with
  | nil => rfl
  | cons b bytes =>
    exfalso
    have h : (first b.toNat).1 ++ decodeFrom (first b.toNat).2 bytes = [] := List.map_eq_nil_iff.1 h
    unfold first at h
    split at h
    · cases h
    · cases hlead : lead b.toNat with
      | none => simp [hlead] at h
      | some p =>
        simp only [hlead, List.nil_append] at h
        exact decodeFrom_some_ne_nil p bytes h

/-! ## Well-formed bytes -/

/-- The sequence of a scalar value. -/
def encode (v : Nat) : List Nat :=
  if v < 0x80 then [v]
  else if v < 0x800 then [v / 64 + 0xC0, v % 64 + 0x80]
  else if v < 0x10000 then [v / 4096 + 0xE0, v / 64 % 64 + 0x80, v % 64 + 0x80]
  else [v / 262144 + 0xF0, v / 4096 % 64 + 0x80, v / 64 % 64 + 0x80, v % 64 + 0x80]

/-- The last bytes of a sequence, one more than `n`. -/
def tail : Nat → Nat → List Nat
  | 0, v => [v % 64 + 0x80]
  | n + 1, v => (v / 64 ^ (n + 1) % 64 + 0x80) :: tail n v

/-- The bytes read are the first ones of whatever the sequence can become. -/
def Begins (bits owed low high : Nat) (l : List Nat) : Prop :=
  ∀ v, (bits * 64 + (low - 0x80)) * 64 ^ owed ≤ v → v < (bits * 64 + (high - 0x80) + 1) * 64 ^ owed →
    encode v = l ++ tail owed v

theorem lead_begins {b bits owed low high : Nat} (h : lead b = some ⟨bits, owed, low, high⟩) :
    Begins bits owed low high [b] := by
  unfold lead at h
  split_ifs at h
  all_goals
    simp only [Option.some.injEq, Pending.mk.injEq] at h
    obtain ⟨rfl, rfl, rfl, rfl⟩ := h
    intro v hlow hhigh
    simp only [Nat.pow_zero, Nat.pow_one, Nat.reducePow, Nat.reduceSub, Nat.reduceMul] at hlow hhigh
    simp only [encode, tail, List.singleton_append, Nat.reducePow, Nat.reduceAdd]
    split_ifs <;> simp only [List.cons.injEq, and_true, reduceCtorEq, and_false] <;> omega

theorem Begins.next {bits n low high b : Nat} {l : List Nat} (h : Begins bits (n + 1) low high l)
    (hl : 0x80 ≤ low) (hh : high ≤ 0xBF) (hlow : low ≤ b) (hhigh : b ≤ high) :
    Begins (bits * 64 + b % 64) n 0x80 0xBF (l ++ [b]) := by
  intro v hv hv'
  simp only [Nat.reduceSub, Nat.add_zero] at hv hv'
  have hv : (bits * 64 + b % 64) * 64 ^ (n + 1) ≤ v := by
    rw [Nat.pow_succ', ← Nat.mul_assoc]
    exact hv
  have hv' : v < (bits * 64 + b % 64 + 1) * 64 ^ (n + 1) := by
    rw [Nat.pow_succ', ← Nat.mul_assoc]
    exact Nat.lt_of_lt_of_le hv' (Nat.mul_le_mul_right _ (by omega))
  have hdiv : v / 64 ^ (n + 1) = bits * 64 + b % 64 := Nat.div_eq_of_lt_le hv hv'
  have hbyte : (bits * 64 + b % 64) % 64 + 0x80 = b := by omega
  have henc := h v (Nat.le_trans (Nat.mul_le_mul_right _ (by omega)) hv)
    (Nat.lt_of_lt_of_le hv' (Nat.mul_le_mul_right _ (by omega)))
  rw [henc, List.append_assoc]
  show l ++ (v / 64 ^ (n + 1) % 64 + 0x80) :: tail n v = l ++ b :: tail n v
  rw [hdiv, hbyte]

/-- The bytes of the sequence that is pending. -/
def Pends (s : Option Pending) (l : List Nat) : Prop :=
  match s with
  | none => l = []
  | some p => p.Sound ∧ Begins p.bits p.owed p.low p.high l

theorem first_encode {b : Nat} (h : none ∉ (first b).1) :
    (∃ c, first b = ([some c], none) ∧ encode c.toNat = [b]) ∨
      ∃ s, first b = ([], s) ∧ Pends s [b] := by
  by_cases hb : b < 0x80
  · refine .inl ⟨Char.ofNat b, first_ascii hb, ?_⟩
    rw [toNat_ofNat_ascii hb]
    unfold encode
    rw [if_pos hb]
  · unfold first at h ⊢
    rw [if_neg hb] at h ⊢
    cases hlead : lead b with
    | none => simp [hlead] at h
    | some p => exact .inr ⟨some p, rfl, lead_sound hlead, lead_begins hlead⟩

/-- A byte that is read without a loss completes a character or goes on with it. -/
theorem step_encode {s : Option Pending} {l : List Nat} (hs : Pends s l) {b : Nat}
    (h : none ∉ (step s b).1) :
    (∃ c, step s b = ([some c], none) ∧ encode c.toNat = l ++ [b]) ∨
      ∃ s', step s b = ([], s') ∧ Pends s' (l ++ [b]) := by
  cases s with
  | none =>
    cases hs
    exact first_encode h
  | some p =>
    obtain ⟨bits, owed, low, high⟩ := p
    obtain ⟨hsound, hbegins⟩ := hs
    have h : none ∉ (Pending.take ⟨bits, owed, low, high⟩ b).1 := h
    show (∃ c, Pending.take ⟨bits, owed, low, high⟩ b = _ ∧ _) ∨
      ∃ s', Pending.take ⟨bits, owed, low, high⟩ b = _ ∧ _
    unfold Pending.take at h ⊢
    split at h
    · next hin =>
      rw [if_pos hin]
      cases owed with
      | zero =>
        have hl : 0x80 ≤ low := hsound.low
        have hh : high ≤ 0xBF := hsound.high
        have hin : low ≤ b ∧ b ≤ high := hin
        have hlow : (bits * 64 + (low - 0x80)) * 64 ^ 0 ≤ bits * 64 + b % 64 := by omega
        have hhigh : bits * 64 + b % 64 < (bits * 64 + (high - 0x80) + 1) * 64 ^ 0 := by omega
        refine .inl ⟨_, rfl, ?_⟩
        rw [toNat_ofNat (hsound.scalar _ hlow hhigh).1, hbegins _ hlow hhigh]
        have hbyte : (bits * 64 + b % 64) % 64 + 0x80 = b := by omega
        show l ++ [(bits * 64 + b % 64) % 64 + 0x80] = l ++ [b]
        rw [hbyte]
      | succ n =>
        exact .inr ⟨_, rfl, hsound.next hin.1 hin.2,
          hbegins.next hsound.low hsound.high hin.1 hin.2⟩
    · exact absurd List.mem_cons_self h

theorem encode_decodeFrom {s : Option Pending} {l : List Nat} (hs : Pends s l)
    {bytes : List UInt8} (h : none ∉ decodeFrom s bytes) :
    ((decodeFrom s bytes).reduceOption.flatMap fun c => encode c.toNat) =
      l ++ bytes.map UInt8.toNat := by
  induction bytes generalizing s l with
  | nil =>
    rw [decodeFrom_nil] at h ⊢
    cases s with
    | none =>
      cases hs
      rfl
    | some p => exact absurd List.mem_cons_self h
  | cons b bytes ih =>
    rw [decodeFrom_cons, List.mem_append, not_or] at h
    rw [decodeFrom_cons, List.map_cons]
    rcases step_encode hs h.1 with ⟨c, hstep, hc⟩ | ⟨s', hstep, hs'⟩
    · rw [hstep] at h ⊢
      have hrest := ih (s := none) (l := []) rfl h.2
      show ((some c :: decodeFrom none bytes).reduceOption.flatMap _) = _
      rw [List.reduceOption_cons_of_some, List.flatMap_cons, hrest, hc, List.append_assoc]
      rfl
    · rw [hstep] at h ⊢
      have hrest := ih hs' h.2
      show ((decodeFrom s' bytes).reduceOption.flatMap _) = _
      rw [hrest, List.append_assoc]
      rfl

theorem map_getD {α : Type} {l : List (Option α)} (h : none ∉ l) (x : α) :
    l.map (·.getD x) = l.reduceOption := by
  induction l with
  | nil => rfl
  | cons o l ih =>
    rw [List.mem_cons, not_or] at h
    cases o with
    | none => exact absurd rfl h.1
    | some a => rw [List.map_cons, ih h.2, List.reduceOption_cons_of_some, Option.getD_some]

/-- Bytes that are UTF-8 are the encoding of their text. -/
theorem encode_toStr {bytes : List UInt8} {t : List Char} (h : toStr? bytes = some t) :
    (t.flatMap fun c => encode c.toNat) = bytes.map UInt8.toNat := by
  have ht := toStringLossy_of_toStr h
  unfold toStr? at h
  split at h
  · cases h
  · next hnone =>
    have hall : toStringLossy bytes = (decode bytes).reduceOption := map_getD hnone _
    rw [← ht, hall]
    exact encode_decodeFrom (s := none) (l := []) rfl hnone

theorem toStr_injective {a b : List UInt8} {t : List Char} (ha : toStr? a = some t)
    (hb : toStr? b = some t) : a = b := by
  have hmap : a.map UInt8.toNat = b.map UInt8.toNat :=
    (encode_toStr ha).symm.trans (encode_toStr hb)
  exact List.map_injective_iff.2 (fun _ _ => UInt8.toNat_inj.1) hmap

end Utf8
