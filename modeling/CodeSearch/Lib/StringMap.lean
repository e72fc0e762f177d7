import Mathlib.Data.Char
import Mathlib.Data.Fintype.Basic
import Mathlib.Data.List.Lex
import Mathlib.Tactic.FinCases
import CodeSearch.Lib.SortedMap

/-!
# The pretty JSON of a map of strings

`pretty m` is a JSON object with an entry a line, `read s` reads this layout back:

    read (pretty m) = some m                                             (read_pretty)
-/

namespace StringJson

open Sorted

abbrev StringMap := SortedMap (List Char) (List Char)

/-! ## Strings -/

/-- The escape of a control character. -/
def controlEscape (n : Nat) : List Char :=
  match n with
  | 8 => ['\\', 'b']
  | 9 => ['\\', 't']
  | 10 => ['\\', 'n']
  | 12 => ['\\', 'f']
  | 13 => ['\\', 'r']
  | n => ['\\', 'u', '0', '0', Nat.digitChar (n / 16), Nat.digitChar (n % 16)]

def escape (c : Char) : List Char :=
  if c = '"' then ['\\', '"']
  else if c = '\\' then ['\\', '\\']
  else if c.toNat < 32 then controlEscape c.toNat
  else [c]

def quote (s : List Char) : List Char := '"' :: s.flatMap escape ++ ['"']

def hexValue (c : Char) : Nat := if c.isDigit then c.toNat - 48 else c.toNat - 87

/-- The character of a one-letter escape. -/
def unescape (c : Char) : Char :=
  match c with
  | 'b' => Char.ofNat 8
  | 't' => Char.ofNat 9
  | 'n' => Char.ofNat 10
  | 'f' => Char.ofNat 12
  | 'r' => Char.ofNat 13
  | c => c

/-- A string up to its closing quote, and what follows. -/
def readString : List Char → Option (List Char × List Char)
  | [] => none
  | '"' :: rest => some ([], rest)
  | '\\' :: 'u' :: _ :: _ :: h :: l :: rest =>
    (readString rest).map fun r => (Char.ofNat (16 * hexValue h + hexValue l) :: r.1, r.2)
  | '\\' :: e :: rest => (readString rest).map fun r => (unescape e :: r.1, r.2)
  | c :: rest => (readString rest).map fun r => (c :: r.1, r.2)

theorem readString_control (n : Fin 32) (rest : List Char) :
    readString (controlEscape n ++ rest) =
      (readString rest).map fun r => (Char.ofNat n :: r.1, r.2) := by
  fin_cases n <;> rfl

theorem readString_escape (c : Char) (rest : List Char) :
    readString (escape c ++ rest) = (readString rest).map fun r => (c :: r.1, r.2) := by
  unfold escape
  by_cases hquote : c = '"'
  · subst hquote
    rfl
  · rw [if_neg hquote]
    by_cases hback : c = '\\'
    · subst hback
      rfl
    · rw [if_neg hback]
      by_cases hcontrol : c.toNat < 32
      · rw [if_pos hcontrol, readString_control ⟨c.toNat, hcontrol⟩, Char.ofNat_toNat]
      · rw [if_neg hcontrol]
        show readString (c :: rest) = _
        rw [readString]
        · exact hquote
        · exact fun _ _ _ _ _ h => absurd h hback
        · exact fun _ _ h => absurd h hback

theorem readString_quote (s rest : List Char) :
    readString (s.flatMap escape ++ '"' :: rest) = some (s, rest) := by
  induction s with
  | nil => rfl
  | cons c s ih => rw [List.flatMap_cons, List.append_assoc, readString_escape, ih, Option.map_some]

/-! ## Objects -/

/-- An entry on a line of its own. -/
def prettyEntry (e : List Char × List Char) : List Char :=
  "\n  ".toList ++ quote e.1 ++ ": ".toList ++ quote e.2

/-- The entries, separated by commas, and the closing brace. -/
def prettyEntries : List (List Char × List Char) → List Char
  | [] => ['}']
  | [e] => prettyEntry e ++ "\n\x7d".toList
  | e :: l => prettyEntry e ++ ',' :: prettyEntries l

def pretty (m : StringMap) : List Char := '{' :: prettyEntries m.list

/-- Read an entry and what follows it. -/
def readEntry : List Char → Option ((List Char × List Char) × List Char)
  | '\n' :: ' ' :: ' ' :: '"' :: rest => do
    let (key, rest) ← readString rest
    match rest with
    | ':' :: ' ' :: '"' :: rest => do
      let (value, rest) ← readString rest
      pure ((key, value), rest)
    | _ => none
  | _ => none

def readEntries : Nat → List Char → Option (List (List Char × List Char))
  | 0, _ => none
  | fuel + 1, s =>
    match readEntry s with
    | some (e, ['\n', '}']) => some [e]
    | some (e, ',' :: rest) => (readEntries fuel rest).map (e :: ·)
    | some _ => none
    | none => if s = ['}'] then some [] else none

/-- Read an object in the layout of `pretty`. -/
def read : List Char → Option StringMap
  | '{' :: s => do
    let l ← readEntries (s.length + 1) s
    if h : l.Pairwise fun a b => a.1 < b.1 then pure ⟨l, h⟩ else none
  | _ => none

theorem readEntry_pretty (e : List Char × List Char) (rest : List Char) :
    readEntry (prettyEntry e ++ rest) = some (e, rest) := by
  have hshape : prettyEntry e ++ rest = '\n' :: ' ' :: ' ' :: '"' ::
      (e.1.flatMap escape ++ '"' :: ':' :: ' ' :: '"' :: (e.2.flatMap escape ++ '"' :: rest)) := by
    simp [prettyEntry, quote]
  rw [hshape]
  simp only [readEntry, readString_quote, Option.bind_eq_bind, Option.bind_some]
  rfl

theorem readEntries_pretty : ∀ (l : List (List Char × List Char)) (fuel : Nat), l.length ≤ fuel →
    readEntries (fuel + 1) (prettyEntries l) = some l := by
  intro l
  induction l with
  | nil => exact fun fuel _ => rfl
  | cons e l ih =>
    intro fuel hfuel
    unfold readEntries
    cases l with
    | nil =>
      rw [show prettyEntries [e] = prettyEntry e ++ "\n\x7d".toList from rfl, readEntry_pretty]
      rfl
    | cons e' l =>
      obtain ⟨n, rfl⟩ : ∃ n, fuel = n + 1 := ⟨fuel - 1, by rw [List.length_cons] at hfuel; omega⟩
      rw [show prettyEntries (e :: e' :: l) = prettyEntry e ++ ',' :: prettyEntries (e' :: l) from rfl,
        readEntry_pretty]
      show (readEntries (n + 1) (prettyEntries (e' :: l))).map (e :: ·) = _
      rw [ih n (Nat.le_of_succ_le_succ hfuel), Option.map_some]

theorem length_prettyEntries (l : List (List Char × List Char)) :
    l.length ≤ (prettyEntries l).length := by
  induction l with
  | nil => exact Nat.zero_le _
  | cons e l ih =>
    have hpos : 1 ≤ (prettyEntry e).length := by simp [prettyEntry]
    cases l with
    | nil =>
      simp only [prettyEntries, List.length_append, List.length_cons, List.length_nil]
      omega
    | cons e' l =>
      simp only [prettyEntries, List.length_append, List.length_cons] at ih ⊢
      omega

theorem read_pretty (m : StringMap) : read (pretty m) = some m := by
  show (do
    let l ← readEntries ((prettyEntries m.list).length + 1) (prettyEntries m.list)
    if h : l.Pairwise fun a b => a.1 < b.1 then pure ⟨l, h⟩ else none) = some m
  rw [readEntries_pretty m.list _ (length_prettyEntries m.list)]
  exact dif_pos m.sorted

end StringJson
