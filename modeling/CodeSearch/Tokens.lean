import CodeSearch.Text

/-!
# The code tokenizer

`codeTokens s` splits `s` at every non-alphanumeric character, splits each
segment at camelCase and acronym boundaries, and lowercases the pieces.  The
index stores `codeTokens body` and a query goes through the same function.

The Unicode character classes are a parameter (`CharTables`); on ASCII they are
fixed.  A separator splits the tokens of a text too:

    codeTokens (s ++ c :: t) = codeTokens s ++ codeTokens t     (codeTokens_append_cons)
-/

namespace CodeSearch

/-- `char::is_alphanumeric`, `is_uppercase`, `is_lowercase` and
`str::to_lowercase`, as Unicode defines them. -/
structure CharTables where
  isAlphanumeric : Char → Bool
  isUppercase : Char → Bool
  isLowercase : Char → Bool
  toLowercase : Text → Text
  isAlphanumeric_ascii : ∀ c : Char, c.toNat < 128 → isAlphanumeric c = c.isAlphanum
  isUppercase_ascii : ∀ c : Char, c.toNat < 128 → isUppercase c = c.isUpper
  isLowercase_ascii : ∀ c : Char, c.toNat < 128 → isLowercase c = c.isLower
  toLowercase_ascii : ∀ s : Text, (∀ c ∈ s, c.toNat < 128) → toLowercase s = s.map Char.toLower

/-- The tables cut down to ASCII. -/
def CharTables.ascii : CharTables where
  isAlphanumeric := Char.isAlphanum
  isUppercase := Char.isUpper
  isLowercase := Char.isLower
  toLowercase s := s.map Char.toLower
  isAlphanumeric_ascii _ _ := rfl
  isUppercase_ascii _ _ := rfl
  isLowercase_ascii _ _ := rfl
  toLowercase_ascii _ _ := rfl

variable (U : CharTables)

/-- A token boundary before `chars[i]`: at an uppercase letter after a lowercase
letter or a digit, or at the last capital of an acronym. -/
def isBoundary (chars : Text) (i : Nat) : Bool :=
  match chars[i - 1]?, chars[i]? with
  | some prev, some cur =>
    if !U.isUppercase cur then false
    else if U.isLowercase prev || prev.isDigit then true
    else U.isUppercase prev && (chars[i + 1]?.map U.isLowercase).getD false
  | _, _ => false

/-- One round of the loop: `start` is where the open token begins. -/
def splitStep (chars : Text) (acc : Nat × List Text) (i : Nat) : Nat × List Text :=
  if isBoundary U chars i then
    (i, acc.2 ++ [U.toLowercase ((chars.take i).drop acc.1)])
  else acc

/-- Split one alphanumeric segment, pushing each lowercased piece onto `out`. -/
def splitSegment (segment : Text) (out : List Text) : List Text :=
  let n := segment.length
  let (start, out) := (List.range' 1 (n - 1)).foldl (splitStep U segment) (0, out)
  if start < n then out ++ [U.toLowercase (segment.drop start)] else out

/-- One segment of the split: an empty one pushes nothing. -/
def pushSegment (out : List Text) (segment : Text) : List Text :=
  if segment.isEmpty then out else splitSegment U segment out

/-- Tokenize `s` into lowercased code tokens. -/
def codeTokens (s : Text) : List Text :=
  (s.splitOnP fun c => !U.isAlphanumeric c).foldl (pushSegment U) []

/-! ## Tokens of a concatenation -/

theorem splitStep_out (chars : Text) (is : List Nat) : ∀ (start : Nat) (out : List Text),
    is.foldl (splitStep U chars) (start, out) =
      ((is.foldl (splitStep U chars) (start, [])).1,
        out ++ (is.foldl (splitStep U chars) (start, [])).2) := by
  induction is with
  | nil => intro start out; simp
  | cons i is ih =>
    intro start out
    simp only [List.foldl_cons, splitStep]
    split
    · rw [ih, ih i ([] ++ _)]
      simp
    · exact ih start out

theorem splitSegment_out (segment : Text) (out : List Text) :
    splitSegment U segment out = out ++ splitSegment U segment [] := by
  simp only [splitSegment]
  rw [splitStep_out]
  split <;> simp

theorem pushSegment_out (segments : List Text) : ∀ out : List Text,
    segments.foldl (pushSegment U) out = out ++ segments.foldl (pushSegment U) [] := by
  induction segments with
  | nil => intro out; simp
  | cons seg segments ih =>
    intro out
    simp only [List.foldl_cons]
    rw [ih, ih (pushSegment U [] seg), ← List.append_assoc]
    congr 1
    unfold pushSegment
    split
    · simp
    · exact splitSegment_out U seg out

/-- A non-alphanumeric character separates the tokens before it from those after. -/
theorem codeTokens_append_cons (s t : Text) (c : Char) (hc : U.isAlphanumeric c = false) :
    codeTokens U (s ++ c :: t) = codeTokens U s ++ codeTokens U t := by
  have hsep : (!U.isAlphanumeric c) = true := by rw [hc]; rfl
  unfold codeTokens
  rw [List.splitOnP_append_cons s t (p := fun c => !U.isAlphanumeric c) hsep, List.foldl_append,
    pushSegment_out]

theorem isAlphanumeric_newline : U.isAlphanumeric '\n' = false := by
  rw [U.isAlphanumeric_ascii _ (by decide)]; decide

theorem codeTokens_nil : codeTokens U [] = [] := by
  simp [codeTokens, pushSegment]

/-- The tokens of joined lines are the tokens of the lines, in order. -/
theorem codeTokens_joinLines (ls : List Text) :
    codeTokens U (joinLines ls) = ls.flatMap (codeTokens U) := by
  induction ls with
  | nil => simpa [joinLines] using codeTokens_nil U
  | cons l ls ih =>
    rcases ls with _ | ⟨l', ls⟩
    · simp [joinLines]
    · rw [joinLines_cons l _ (by simp), codeTokens_append_cons U _ _ _ (isAlphanumeric_newline U),
        ih, List.flatMap_cons (x := l)]

theorem toLower_of_not_upper {c : Char} (h : c.isUpper = false) : c.toLower = c := by
  unfold Char.toLower
  split
  · next hc =>
    have hu : c.isUpper = true := decide_eq_true hc
    rw [hu] at h; cases h
  · rfl

/-- A word of lowercase letters and digits is its own token. -/
theorem codeTokens_word (w : Text) (hne : w ≠ [])
    (h : ∀ c ∈ w, c.toNat < 128 ∧ c.isAlphanum = true ∧ c.isUpper = false) :
    codeTokens U w = [w] := by
  have hsplit : (w.splitOnP fun c => !U.isAlphanumeric c) = [w] := by
    refine List.splitOnP_eq_singleton fun c hc => ?_
    obtain ⟨h1, h2, _⟩ := h c hc
    rw [U.isAlphanumeric_ascii c h1, h2]; rfl
  have hno : ∀ i, isBoundary U w i = false := by
    intro i
    unfold isBoundary
    split
    · next prev cur _ hcur =>
      obtain ⟨h1, _, h3⟩ := h cur (List.mem_of_getElem? hcur)
      rw [U.isUppercase_ascii cur h1, h3]; rfl
    · rfl
  have hloop : ∀ (is : List Nat) acc, is.foldl (splitStep U w) acc = acc := by
    intro is
    induction is with
    | nil => intro acc; rfl
    | cons i is ih =>
      intro acc
      rw [List.foldl_cons, splitStep, if_neg (by rw [hno i]; simp), ih]
  have hlower : U.toLowercase w = w := by
    rw [U.toLowercase_ascii w fun c hc => (h c hc).1]
    calc w.map Char.toLower = w.map id :=
          List.map_congr_left fun c hc => toLower_of_not_upper (h c hc).2.2
      _ = w := List.map_id w
  have hlen : 0 < w.length := List.length_pos_iff.2 hne
  unfold codeTokens
  rw [hsplit]
  simp [pushSegment, hne, splitSegment, hloop, hlower]

/-- Digits before an uppercase letter split, an acronym keeps its capitals. -/
example : codeTokens CharTables.ascii "parseHTTPRequest utf8Decode sha256sum".toList =
    ["parse".toList, "http".toList, "request".toList, "utf8".toList, "decode".toList,
      "sha256sum".toList] := by decide

end CodeSearch
