import CodeSearch.Chunker

/-!
# Chunk ids

A chunk's id is `path:start-end`.  `parseChunkId` splits it at its last `:`, so the
path may hold anything, and gives back what `chunkId` was given
(`parseChunkId_chunkId`).
-/

namespace CodeSearch

/-! ## Splitting -/

/-- `split_once`. -/
def splitOnce (c : Char) : Text → Option (Text × Text)
  | [] => none
  | d :: s => if d = c then some ([], s) else (splitOnce c s).map fun p => (d :: p.1, p.2)

/-- `rsplit_once`. -/
def rsplitOnce (c : Char) (s : Text) : Option (Text × Text) :=
  (splitOnce c s.reverse).map fun p => (p.2.reverse, p.1.reverse)

theorem splitOnce_append {c : Char} {s : Text} (h : c ∉ s) (t : Text) :
    splitOnce c (s ++ c :: t) = some (s, t) := by
  induction s with
  | nil => simp [splitOnce]
  | cons d s ih =>
    rw [List.mem_cons, not_or] at h
    rw [List.cons_append, splitOnce, if_neg (Ne.symm h.1), ih h.2]
    rfl

theorem rsplitOnce_append {c : Char} {t : Text} (h : c ∉ t) (s : Text) :
    rsplitOnce c (s ++ c :: t) = some (s, t) := by
  have hrev : (s ++ c :: t).reverse = t.reverse ++ c :: s.reverse := by simp
  unfold rsplitOnce
  rw [hrev, splitOnce_append (by simpa using h)]
  simp

/-! ## Parsing -/

/-- `s.parse()` into a signed integer of that many bits. -/
def parseSigned (bits : Nat) : Text → Option Int
  | '-' :: digits =>
    if digits ≠ [] ∧ digits.all Char.isDigit ∧ Nat.ofDigitChars 10 digits 0 ≤ 2 ^ (bits - 1) then
      some (-(Nat.ofDigitChars 10 digits 0 : Int))
    else none
  | s => (parseUnsigned (bits - 1) s).map Int.ofNat

theorem parseSigned_decimal (bits n : Nat) (h : n < 2 ^ (bits - 1)) :
    parseSigned bits (decimal n) = some (n : Int) := by
  unfold parseSigned
  split
  · next ds hds =>
    have := isDigit_decimal (n := n) (c := '-') (by rw [hds]; exact List.mem_cons_self)
    cases this
  · rw [parseUnsigned_decimal _ _ h]
    rfl

/-- A number that does not fit is not read. -/
theorem parseSigned_decimal_eq_none (bits n : Nat) (h : 2 ^ (bits - 1) ≤ n) :
    parseSigned bits (decimal n) = none := by
  unfold parseSigned
  split
  · next ds hds =>
    have := isDigit_decimal (n := n) (c := '-') (by rw [hds]; exact List.mem_cons_self)
    cases this
  · rw [Option.map_eq_none_iff, Option.eq_none_iff_forall_ne_some]
    intro m hm
    have hn := parseUnsigned_decimal n n Nat.lt_two_pow_self
    have hlt := parseUnsigned_lt hm
    rw [parseUnsigned_agree hm hn] at hlt
    omega

/-- Parse a `path:start-end` chunk id. -/
def parseChunkId (id : Text) : Option (Text × Int × Int) := do
  let (path, range) ← rsplitOnce ':' id
  let (start, fin) ← splitOnce '-' range
  let start ← parseSigned 64 start
  let fin ← parseSigned 64 fin
  pure (path, start, fin)

theorem notMem_decimal {n : Nat} {c : Char} (hc : c.isDigit = false) : c ∉ decimal n := by
  intro h
  have hd := isDigit_decimal h
  rw [hc] at hd
  cases hd

/-- The last `:` of an id ends the path. -/
theorem rsplitOnce_chunkId (path : Text) (start fin : Nat) :
    rsplitOnce ':' (chunkId path start fin) = some (path, decimal start ++ '-' :: decimal fin) := by
  have hid : chunkId path start fin = path ++ ':' :: (decimal start ++ '-' :: decimal fin) := by
    simp [chunkId]
  have hcolon : ':' ∉ decimal start ++ '-' :: decimal fin := by
    rw [List.mem_append, List.mem_cons, not_or, not_or]
    exact ⟨notMem_decimal (by decide), by decide, notMem_decimal (by decide)⟩
  rw [hid, rsplitOnce_append hcolon]

theorem splitOnce_range (start fin : Nat) :
    splitOnce '-' (decimal start ++ '-' :: decimal fin) = some (decimal start, decimal fin) :=
  splitOnce_append (notMem_decimal (by decide)) _

/-- An id says which lines of which file it names. -/
theorem chunkId_injective {path path' : Text} {start start' fin fin' : Nat}
    (h : chunkId path start fin = chunkId path' start' fin') :
    path = path' ∧ start = start' ∧ fin = fin' := by
  have hsplit := congrArg (rsplitOnce ':') h
  rw [rsplitOnce_chunkId, rsplitOnce_chunkId, Option.some.injEq, Prod.mk.injEq] at hsplit
  have hrange := congrArg (splitOnce '-') hsplit.2
  rw [splitOnce_range, splitOnce_range, Option.some.injEq, Prod.mk.injEq] at hrange
  exact ⟨hsplit.1, decimal_injective hrange.1, decimal_injective hrange.2⟩

theorem parseChunkId_chunkId (path : Text) {start fin : Nat} (hs : start < 2 ^ 63)
    (hf : fin < 2 ^ 63) : parseChunkId (chunkId path start fin) = some (path, (start : Int), (fin : Int)) := by
  unfold parseChunkId
  rw [rsplitOnce_chunkId]
  show (splitOnce '-' (decimal start ++ '-' :: decimal fin)).bind _ = _
  rw [splitOnce_range]
  show (parseSigned 64 (decimal start)).bind _ = _
  rw [parseSigned_decimal 64 start hs]
  show (parseSigned 64 (decimal fin)).bind _ = _
  rw [parseSigned_decimal 64 fin hf]
  rfl

/-- A last line that is no `i64` is not read. -/
theorem parseChunkId_chunkId_eq_none (path : Text) (start : Nat) {fin : Nat} (h : 2 ^ 63 ≤ fin) :
    parseChunkId (chunkId path start fin) = none := by
  have hnone := parseSigned_decimal_eq_none 64 fin h
  unfold parseChunkId
  simp only [rsplitOnce_chunkId, splitOnce_range, hnone, Option.bind_eq_bind, Option.bind_some,
    Option.bind_none, Option.bind_fun_none]

end CodeSearch
