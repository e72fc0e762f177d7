import Mathlib.Algebra.BigOperators.Group.List.Basic
import Mathlib.Algebra.GroupWithZero.Nat
import Mathlib.Data.Bool.AllAny
import Mathlib.Data.List.Basic

/-!
# Text: UTF-8 lengths, lines, decimal numbers

Rust's `str` is the list of its scalar values; `byteLen` is the length of its
UTF-8 encoding.  `lines`, `isBlank` and `decimal` are `str::lines`,
`trim().is_empty()` and `to_string` on an unsigned integer.

`truncateOnCharBoundary s n` is the longest prefix of whole characters within
`n` bytes: it is `s` itself iff `byteLen s ≤ n` (`truncate_eq_self_iff`).
-/

namespace CodeSearch

abbrev Text := List Char

instance : LawfulBEq Text := inferInstanceAs (LawfulBEq (List Char))

/-! ## Bytes -/

/-- `str::len`: the length of the UTF-8 encoding. -/
def byteLen (s : Text) : Nat := (s.map Char.utf8Size).sum

@[simp] theorem byteLen_nil : byteLen [] = 0 := rfl

@[simp] theorem byteLen_cons (c : Char) (s : Text) : byteLen (c :: s) = c.utf8Size + byteLen s := by
  simp [byteLen]

@[simp] theorem byteLen_append (s t : Text) : byteLen (s ++ t) = byteLen s + byteLen t := by
  simp [byteLen]

theorem byteLen_replicate (n : Nat) (c : Char) : byteLen (List.replicate n c) = n * c.utf8Size := by
  simp [byteLen]

/-- `str::is_char_boundary`. -/
def isCharBoundary : Text → Nat → Bool
  | _, 0 => true
  | [], _ + 1 => false
  | c :: s, n + 1 => decide (c.utf8Size ≤ n + 1) && isCharBoundary s (n + 1 - c.utf8Size)

/-- `while end > 0 && !s.is_char_boundary(end) { end -= 1 }`. -/
def boundaryBelow (s : Text) : Nat → Nat
  | 0 => 0
  | n + 1 => if isCharBoundary s (n + 1) then n + 1 else boundaryBelow s n

/-- `&s[..n]` for a boundary `n`: the characters of the first `n` bytes. -/
def takeBytes : Text → Nat → Text
  | [], _ => []
  | c :: s, n => if c.utf8Size ≤ n then c :: takeBytes s (n - c.utf8Size) else []

/-- Truncate `s` to at most `maxBytes`, cutting on a char boundary. -/
def truncateOnCharBoundary (s : Text) (maxBytes : Nat) : Text :=
  if byteLen s ≤ maxBytes then s else takeBytes s (boundaryBelow s maxBytes)

theorem byteLen_takeBytes_le (s : Text) (n : Nat) : byteLen (takeBytes s n) ≤ n := by
  induction s generalizing n with
  | nil => simp [takeBytes]
  | cons c s ih =>
    unfold takeBytes
    split
    · have := ih (n - c.utf8Size)
      rw [byteLen_cons]; omega
    · simp

theorem boundaryBelow_le (s : Text) (n : Nat) : boundaryBelow s n ≤ n := by
  induction n with
  | zero => simp [boundaryBelow]
  | succ n ih =>
    unfold boundaryBelow
    split
    · exact Nat.le_refl _
    · omega

theorem byteLen_truncate_le (s : Text) (n : Nat) : byteLen (truncateOnCharBoundary s n) ≤ n := by
  unfold truncateOnCharBoundary
  split
  · next h => exact h
  · exact Nat.le_trans (byteLen_takeBytes_le _ _) (boundaryBelow_le _ _)

theorem truncate_eq_self_iff (s : Text) (n : Nat) :
    truncateOnCharBoundary s n = s ↔ byteLen s ≤ n := by
  constructor
  · intro h
    rw [← h]; exact byteLen_truncate_le s n
  · intro h
    unfold truncateOnCharBoundary; rw [if_pos h]

/-- Where every character is one byte, the cut is at exactly `n` characters. -/
theorem takeBytes_ascii (s : Text) (h : ∀ c ∈ s, c.utf8Size = 1) (n : Nat) :
    takeBytes s n = s.take n := by
  induction s generalizing n with
  | nil => simp [takeBytes]
  | cons c s ih =>
    have hc := h c List.mem_cons_self
    unfold takeBytes
    rw [hc]
    cases n with
    | zero => simp
    | succ n => simp [ih (fun d hd => h d (List.mem_cons_of_mem _ hd)) n]

theorem isCharBoundary_ascii (s : Text) (h : ∀ c ∈ s, c.utf8Size = 1) (n : Nat)
    (hn : n ≤ s.length) : isCharBoundary s n = true := by
  induction s generalizing n with
  | nil => cases n <;> simp_all [isCharBoundary]
  | cons c s ih =>
    cases n with
    | zero => rfl
    | succ n =>
      have hc := h c List.mem_cons_self
      simp only [isCharBoundary, hc, Bool.and_eq_true, decide_eq_true_eq]
      exact ⟨by omega, ih (fun d hd => h d (List.mem_cons_of_mem _ hd)) n (by simpa using hn)⟩

theorem truncate_ascii (s : Text) (h : ∀ c ∈ s, c.utf8Size = 1) (n : Nat) (hn : n ≤ s.length) :
    truncateOnCharBoundary s n = s.take n := by
  have hb : boundaryBelow s n = n := by
    cases n with
    | zero => rfl
    | succ n => unfold boundaryBelow; rw [if_pos (isCharBoundary_ascii s h _ hn)]
  have hl : byteLen s = s.length := by
    unfold byteLen
    rw [List.map_congr_left (g := fun _ => 1) h]
    simp
  unfold truncateOnCharBoundary
  rw [hb, takeBytes_ascii s h]
  split
  · rw [List.take_of_length_le (by omega)]
  · rfl

/-! ## Lines -/

/-- `str::split_inclusive('\n')`: each line with its newline. -/
def splitInclusive : Text → List Text
  | [] => []
  | c :: s =>
    if c = '\n' then [c] :: splitInclusive s
    else match splitInclusive s with
      | [] => [[c]]
      | l :: ls => (c :: l) :: ls

/-- A line without its ending: `\n` or `\r\n`. -/
def stripEol (line : Text) : Text :=
  match line.reverse with
  | '\n' :: '\r' :: r => r.reverse
  | '\n' :: r => r.reverse
  | _ => line

/-- `str::lines`. -/
def lines (content : Text) : List Text := (splitInclusive content).map stripEol

/-- `[l₁, l₂, ...].join("\n")`. -/
def joinLines : List Text → Text
  | [] => []
  | [l] => l
  | l :: l' :: ls => l ++ '\n' :: joinLines (l' :: ls)

theorem joinLines_cons (l : Text) (ls : List Text) (h : ls ≠ []) :
    joinLines (l :: ls) = l ++ '\n' :: joinLines ls := by
  cases ls with
  | nil => exact absurd rfl h
  | cons l' ls => rfl

/-- Joining adds one newline between two lines. -/
theorem byteLen_joinLines (ls : List Text) (h : ls ≠ []) :
    byteLen (joinLines ls) + 1 = (ls.map fun l => byteLen l + 1).sum := by
  induction ls with
  | nil => exact absurd rfl h
  | cons l ls ih =>
    by_cases hls : ls = []
    · subst hls; simp [joinLines]
    · have := ih hls
      rw [joinLines_cons l ls hls]
      simp only [byteLen_append, byteLen_cons, List.map_cons, List.sum_cons]
      have hn : Char.utf8Size '\n' = 1 := by decide
      omega

theorem splitInclusive_append (l rest : Text) (h : '\n' ∉ l) :
    splitInclusive (l ++ '\n' :: rest) = (l ++ ['\n']) :: splitInclusive rest := by
  induction l with
  | nil => simp [splitInclusive]
  | cons c l ih =>
    rw [List.mem_cons, not_or] at h
    have := ih h.2
    simp only [List.cons_append, splitInclusive]
    rw [if_neg (Ne.symm h.1), this]

theorem splitInclusive_last (l : Text) (h : '\n' ∉ l) (hne : l ≠ []) : splitInclusive l = [l] := by
  induction l with
  | nil => exact absurd rfl hne
  | cons c l ih =>
    rw [List.mem_cons, not_or] at h
    simp only [splitInclusive]
    rw [if_neg (Ne.symm h.1)]
    by_cases hl : l = []
    · subst hl; rfl
    · rw [ih h.2 hl]

/-- A line without line-ending characters, before and after a newline is added. -/
theorem stripEol_line (l : Text) (h : '\n' ∉ l ∧ '\r' ∉ l) :
    stripEol (l ++ ['\n']) = l ∧ stripEol l = l := by
  have hn : '\n' ∉ l.reverse := by rw [List.mem_reverse]; exact h.1
  have hr : '\r' ∉ l.reverse := by rw [List.mem_reverse]; exact h.2
  constructor
  · unfold stripEol
    rw [List.reverse_append]
    simp only [List.reverse_cons, List.reverse_nil, List.nil_append, List.singleton_append]
    cases hl : l.reverse with
    | nil =>
      have : l = [] := List.reverse_eq_nil_iff.1 hl
      subst this; rfl
    | cons c r =>
      have hc : c ≠ '\r' := fun heq => hr (by rw [hl, heq]; exact List.mem_cons_self)
      have hlr : l = (c :: r).reverse := by rw [← hl, List.reverse_reverse]
      split
      · next r' heq =>
        rw [List.cons.injEq, List.cons.injEq] at heq
        exact absurd heq.2.1 hc
      · next r' _ heq =>
        rw [List.cons.injEq] at heq
        rw [hlr, heq.2]
      · next h1 h2 => exact absurd rfl (h2 _)
  · unfold stripEol
    split
    · next r heq => exact absurd (by rw [heq]; exact List.mem_cons_self) hn
    · next r _ heq => exact absurd (by rw [heq]; exact List.mem_cons_self) hn
    · rfl

/-- The lines of joined lines are the lines, unless the last is empty or one
holds a line-ending character. -/
theorem lines_joinLines (ls : List Text) (h : ∀ l ∈ ls, '\n' ∉ l ∧ '\r' ∉ l)
    (hlast : ls.getLast? ≠ some []) : lines (joinLines ls) = ls := by
  induction ls with
  | nil => rfl
  | cons l ls ih =>
    have hl := h l List.mem_cons_self
    by_cases hls : ls = []
    · subst hls
      have hne : l ≠ [] := fun heq => hlast (by rw [heq]; rfl)
      unfold lines joinLines
      rw [splitInclusive_last l hl.1 hne]
      simp [(stripEol_line l hl).2]
    · rw [joinLines_cons l ls hls]
      unfold lines at ih ⊢
      rw [splitInclusive_append l _ hl.1, List.map_cons, (stripEol_line l hl).1,
        ih (fun l' hl' => h l' (List.mem_cons_of_mem _ hl')) (by
          cases ls with
          | nil => exact absurd rfl hls
          | cons l' ls => simpa using hlast)]

/-- `char::is_whitespace`: the Unicode `White_Space` property. -/
def isWhitespace (c : Char) : Bool :=
  let n := c.toNat
  (9 ≤ n && n ≤ 13) || n == 0x20 || n == 0x85 || n == 0xa0 || n == 0x1680 ||
    (0x2000 ≤ n && n ≤ 0x200a) || n == 0x2028 || n == 0x2029 || n == 0x202f || n == 0x205f ||
    n == 0x3000

/-- `line.trim().is_empty()`. -/
def isBlank (line : Text) : Bool := line.all isWhitespace

/-! ## Decimal numbers -/

/-- `n.to_string()`. -/
def decimal (n : Nat) : Text := Nat.toDigits 10 n

theorem isDigit_decimal {n : Nat} {c : Char} (h : c ∈ decimal n) : c.isDigit = true :=
  Nat.isDigit_of_mem_toDigits (by omega) (by omega) h

theorem decimal_ne_nil (n : Nat) : decimal n ≠ [] := Nat.toDigits_ne_nil

theorem decimal_injective {m n : Nat} (h : decimal m = decimal n) : m = n := by
  unfold decimal at h
  rw [← Nat.ofDigitChars_ten_toDigits (n := m), h, Nat.ofDigitChars_ten_toDigits]

/-- `s.parse()` into an unsigned integer of that many bits: an optional `+`,
then digits, no overflow. -/
def parseUnsigned (bits : Nat) (s : Text) : Option Nat :=
  let digits := match s with
    | '+' :: ds => ds
    | ds => ds
  if digits ≠ [] ∧ digits.all Char.isDigit ∧ Nat.ofDigitChars 10 digits 0 < 2 ^ bits then
    some (Nat.ofDigitChars 10 digits 0)
  else none

theorem parseUnsigned_decimal (bits n : Nat) (h : n < 2 ^ bits) :
    parseUnsigned bits (decimal n) = some n := by
  have hd : (match decimal n with
      | '+' :: ds => ds
      | ds => ds) = decimal n := by
    split
    · next ds hds =>
      have := isDigit_decimal (n := n) (c := '+') (by rw [hds]; exact List.mem_cons_self)
      cases this
    · rfl
  have hv : Nat.ofDigitChars 10 (decimal n) 0 = n := Nat.ofDigitChars_ten_toDigits
  unfold parseUnsigned
  simp only [hd, hv]
  rw [if_pos ⟨decimal_ne_nil n, List.all_eq_true.2 fun c hc => isDigit_decimal hc, h⟩]

theorem parseUnsigned_lt {bits : Nat} {s : Text} {n : Nat} (h : parseUnsigned bits s = some n) :
    n < 2 ^ bits := by
  unfold parseUnsigned at h
  rw [Option.ite_none_right_eq_some] at h
  obtain ⟨⟨-, -, hlt⟩, heq⟩ := h
  exact Option.some.inj heq ▸ hlt

/-- The width decides whether a number is read, not which. -/
theorem parseUnsigned_agree {b b' m n : Nat} {s : Text} (hm : parseUnsigned b s = some m)
    (hn : parseUnsigned b' s = some n) : m = n := by
  simp only [parseUnsigned, Option.ite_none_right_eq_some, Option.some.injEq] at hm hn
  exact hm.2.symm.trans hn.2

/-- `pieces.join(sep)`. -/
def joinWith (sep : Text) : List Text → Text
  | [] => []
  | [p] => p
  | p :: p' :: ps => p ++ sep ++ joinWith sep (p' :: ps)

theorem joinWith_cons (sep p : Text) {ps : List Text} (h : ps ≠ []) :
    joinWith sep (p :: ps) = p ++ sep ++ joinWith sep ps := by
  cases ps with
  | nil => exact absurd rfl h
  | cons p' ps => rfl

/-- What stands before the first `x`. -/
theorem takeWhile_ne_append {x : Char} {s rest : Text} (h : x ∉ s)
    (hrest : rest = [] ∨ rest.head? = some x) : (s ++ rest).takeWhile (· ≠ x) = s := by
  have hplain : ∀ c ∈ s, decide (c ≠ x) = true := by
    intro c hc
    refine decide_eq_true ?_
    rintro rfl
    exact h hc
  rw [List.takeWhile_append_of_pos hplain]
  rcases hrest with rfl | hhead
  · exact List.append_nil _
  · cases rest with
    | nil => cases hhead
    | cons c rest =>
      cases hhead
      rw [List.takeWhile_cons_of_neg (by simp), List.append_nil]

/-- The first piece of a join, and the rest. -/
theorem joinWith_split (x : Char) (s : Text) (ss : List Text) : ∃ rest,
    joinWith [x] (s :: ss) = s ++ rest ∧ (rest = [] ∨ rest.head? = some x) ∧
      (ss = [] ∧ rest = [] ∨ ss ≠ [] ∧ rest = x :: joinWith [x] ss) := by
  by_cases hss : ss = []
  · subst hss
    exact ⟨[], (List.append_nil s).symm, .inl rfl, .inl ⟨rfl, rfl⟩⟩
  · refine ⟨x :: joinWith [x] ss, ?_, .inr rfl, .inr ⟨hss, rfl⟩⟩
    rw [joinWith_cons _ _ hss, List.append_assoc]
    rfl

/-- Pieces that are not empty and do not hold the separator can be told from their join. -/
theorem joinWith_injective {x : Char} {ps qs : List Text} (hp : ∀ s ∈ ps, s ≠ [] ∧ x ∉ s)
    (hq : ∀ s ∈ qs, s ≠ [] ∧ x ∉ s) (h : joinWith [x] ps = joinWith [x] qs) : ps = qs := by
  induction ps generalizing qs with
  | nil =>
    cases qs with
    | nil => rfl
    | cons q qs =>
      obtain ⟨rest, hsplit, -⟩ := joinWith_split x q qs
      rw [hsplit] at h
      exact absurd (List.append_eq_nil_iff.1 h.symm).1 (hq q List.mem_cons_self).1
  | cons p ps ih =>
    cases qs with
    | nil =>
      obtain ⟨rest, hsplit, -⟩ := joinWith_split x p ps
      rw [hsplit] at h
      exact absurd (List.append_eq_nil_iff.1 h).1 (hp p List.mem_cons_self).1
    | cons q qs =>
      obtain ⟨rp, hps, htp, hrp⟩ := joinWith_split x p ps
      obtain ⟨rq, hqs, htq, hrq⟩ := joinWith_split x q qs
      rw [hps, hqs] at h
      have hpq : p = q := by
        rw [← takeWhile_ne_append (hp p List.mem_cons_self).2 htp, h,
          takeWhile_ne_append (hq q List.mem_cons_self).2 htq]
      subst hpq
      have hrest : rp = rq := List.append_cancel_left h
      rcases hrp with ⟨rfl, rfl⟩ | ⟨-, rfl⟩
      · rcases hrq with ⟨rfl, -⟩ | ⟨-, rfl⟩
        · rfl
        · cases hrest
      · rcases hrq with ⟨-, rfl⟩ | ⟨-, rfl⟩
        · cases hrest
        · rw [ih (fun s hs => hp s (List.mem_cons_of_mem _ hs))
            (fun s hs => hq s (List.mem_cons_of_mem _ hs)) (List.cons.inj hrest).2]

end CodeSearch
