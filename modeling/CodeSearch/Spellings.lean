import CodeSearch.Search
import CodeSearch.Storage
import CodeSearch.TokenPieces

/-!
# Spellings of an identifier

The words of an identifier may be joined by separators or by capitals.  Either way
the tokens are the words (`codeTokens_spelling`), so a query finds the same chunks,
and the same tokens are stored of a body, as long as the body is not cut off
(`spellings_agree`).
-/

namespace CodeSearch

open Chop

/-! ## Words and spellings -/

/-- At least two ASCII characters: a lowercase letter, then lowercase letters and digits. -/
structure IsWord (w : Text) : Prop where
  length : 2 ≤ w.length
  head : ∀ c ∈ w.head?, c.isLower = true
  chars : ∀ c ∈ w, c.isLower = true ∨ c.isDigit = true

/-- Letters followed by digits. -/
def LettersThenDigits (w : Text) : Prop :=
  ∃ letters digits, w = letters ++ digits ∧ (∀ c ∈ letters, c.isLower = true) ∧
    ∀ c ∈ digits, c.isDigit = true

/-- The word with its first letter in upper case. -/
def capitalize : Text → Text
  | [] => []
  | c :: w => c.toUpper :: w

/-- The texts that spell the words. -/
inductive Spelling (ws : List Text) : Text → Prop
  | snake : Spelling ws (joinWith ['_'] ws)
  | kebab : Spelling ws (joinWith ['-'] ws)
  | spaced : Spelling ws (joinWith [' '] ws)
  | dotted : Spelling ws (joinWith ['.'] ws)
  | colons : Spelling ws (joinWith [':', ':'] ws)
  | lowerCamel {w : Text} {rest : List Text} (h : ws = w :: rest) :
      Spelling ws (w ++ (rest.map capitalize).flatten)
  | pascal : Spelling ws (ws.map capitalize).flatten
  | screaming (h : ∀ w ∈ ws, LettersThenDigits w) :
      Spelling ws (joinWith ['_'] (ws.map fun w => w.map Char.toUpper))

/-! ## Characters -/

theorem isLower_ascii {c : Char} (h : c.isLower = true) : c.toNat < 128 := by
  unfold Char.isLower at h
  rw [Bool.and_eq_true, decide_eq_true_eq, decide_eq_true_eq] at h
  have := UInt32.le_iff_toNat_le.1 h.2
  show c.val.toNat < 128
  exact lt_of_le_of_lt this (by decide)

theorem isDigit_ascii {c : Char} (h : c.isDigit = true) : c.toNat < 128 := by
  unfold Char.isDigit at h
  rw [Bool.and_eq_true, decide_eq_true_eq, decide_eq_true_eq] at h
  have := UInt32.le_iff_toNat_le.1 h.2
  show c.val.toNat < 128
  exact lt_of_le_of_lt this (by decide)

/-- A lowercase letter of ASCII, and its capital. -/
@[mk_iff]
structure LowerCase (c : Char) : Prop where
  not_upper : c.isUpper = false
  not_digit : c.isDigit = false
  alphanum : c.isAlphanum = true
  toLower : c.toLower = c
  capital_ascii : c.toUpper.toNat < 128
  capital_upper : c.toUpper.isUpper = true
  capital_not_lower : c.toUpper.isLower = false
  capital_not_digit : c.toUpper.isDigit = false
  capital_alphanum : c.toUpper.isAlphanum = true
  capital_toLower : c.toUpper.toLower = c

/-- A digit: it has no case. -/
@[mk_iff]
structure DigitCase (c : Char) : Prop where
  not_upper : c.isUpper = false
  not_lower : c.isLower = false
  alphanum : c.isAlphanum = true
  toLower : c.toLower = c
  toUpper : c.toUpper = c

instance (c : Char) : Decidable (LowerCase c) := decidable_of_iff _ (lowerCase_iff c).symm

instance (c : Char) : Decidable (DigitCase c) := decidable_of_iff _ (digitCase_iff c).symm

theorem lowerCase_of_isLower {c : Char} (h : c.isLower = true) : LowerCase c := by
  have table : ∀ n < 128, (Char.ofNat n).isLower = true → LowerCase (Char.ofNat n) := by
    decide +kernel
  have hc := table c.toNat (isLower_ascii h)
  rw [Char.ofNat_toNat] at hc
  exact hc h

theorem digitCase_of_isDigit {c : Char} (h : c.isDigit = true) : DigitCase c := by
  have table : ∀ n < 128, (Char.ofNat n).isDigit = true → DigitCase (Char.ofNat n) := by
    decide +kernel
  have hc := table c.toNat (isDigit_ascii h)
  rw [Char.ofNat_toNat] at hc
  exact hc h

/-! ## Capitals -/

section
variable (U : CharTables)

/-- A piece that the next capital ends: no capital but its first, and not one at its end. -/
structure Hump (p : Text) : Prop where
  ne_nil : p ≠ []
  tail : ∀ c ∈ p.tail, U.isUppercase c = false
  last : U.isLowercase (p.getLast ne_nil) = true ∨ (p.getLast ne_nil).isDigit = true

variable {U}

theorem Hump.unbroken {p : Text} (h : Hump U p) (next : Option Char) :
    Unbroken (caseBreak U) p next := by
  rintro pre a c post rfl
  have hc : c ∈ (pre ++ a :: c :: post).tail := by
    cases pre <;> simp
  unfold caseBreak
  rw [h.tail c hc]
  rfl

/-- Pieces that begin with capitals are chopped apart. -/
theorem chop_humps (ps : List Text) : ∀ p, Hump U p →
    (∀ q ∈ ps, Hump U q ∧ ∀ c ∈ q.head?, U.isUppercase c = true) →
    chop (caseBreak U) (p ++ ps.flatten) = p :: ps := by
  induction ps with
  | nil =>
    intro p hp _
    rw [List.flatten_nil, List.append_nil]
    exact chop_of_unbroken hp.ne_nil (hp.unbroken none)
  | cons q ps ih =>
    intro p hp hps
    obtain ⟨hq, hupper⟩ := hps q List.mem_cons_self
    obtain ⟨c, q', hcons⟩ := List.exists_cons_of_ne_nil hq.ne_nil
    have hv : (q :: ps).flatten ≠ [] := by
      rw [List.flatten_cons, hcons]
      simp
    have hhead : (q :: ps).flatten.head hv = c := by
      simp [hcons]
    have hcut : caseBreak U (p.getLast hp.ne_nil) ((q :: ps).flatten.head hv)
        (q :: ps).flatten.tail.head? = true := by
      unfold caseBreak
      rw [hhead, hupper c (by rw [hcons]; rfl)]
      rcases hp.last with hlow | hdig
      · rw [hlow]
        rfl
      · rw [hdig, Bool.or_true]
        rfl
    rw [chop_append hp.ne_nil hv (hp.unbroken _) hcut, List.flatten_cons,
      ih q hq fun r hr => hps r (List.mem_cons_of_mem q hr)]

theorem IsWord.ascii {w : Text} (h : IsWord w) {c : Char} (hc : c ∈ w) : c.toNat < 128 :=
  (h.chars c hc).elim isLower_ascii isDigit_ascii

/-- A word is a first letter and more. -/
theorem IsWord.cons {w : Text} (h : IsWord w) : ∃ c d rest, w = c :: d :: rest ∧ c.isLower = true ∧
    ∀ x ∈ d :: rest, x.isLower = true ∨ x.isDigit = true := by
  have hlen := h.length
  match w, h with
  | c :: d :: rest, h =>
    exact ⟨c, d, rest, rfl, h.head c rfl, fun x hx => h.chars x (List.mem_cons_of_mem c hx)⟩

/-- Whatever its first letter, a word is a piece. -/
theorem hump_of_tail {c d : Char} {rest : Text}
    (h : ∀ x ∈ d :: rest, x.isLower = true ∨ x.isDigit = true) : Hump U (c :: d :: rest) := by
  have hlast : (c :: d :: rest).getLast (List.cons_ne_nil c _) ∈ d :: rest := by
    rw [List.getLast_cons (List.cons_ne_nil d rest)]
    exact List.getLast_mem _
  refine ⟨List.cons_ne_nil c _, fun x hx => ?_, ?_⟩
  · rcases h x hx with hlow | hdig
    · rw [U.isUppercase_ascii x (isLower_ascii hlow), (lowerCase_of_isLower hlow).not_upper]
    · rw [U.isUppercase_ascii x (isDigit_ascii hdig), (digitCase_of_isDigit hdig).not_upper]
  · refine (h _ hlast).imp_left fun hlow => ?_
    rw [U.isLowercase_ascii _ (isLower_ascii hlow), hlow]

theorem IsWord.lower {w : Text} (h : IsWord w) : U.toLowercase w = w := by
  rw [U.toLowercase_ascii w fun c hc => h.ascii hc]
  calc w.map Char.toLower = w.map id := List.map_congr_left fun c hc =>
        (h.chars c hc).elim (fun hlow => (lowerCase_of_isLower hlow).toLower)
          fun hdig => (digitCase_of_isDigit hdig).toLower
    _ = w := List.map_id w

theorem IsWord.alphanumeric {w : Text} (h : IsWord w) {c : Char} (hc : c ∈ w) :
    U.isAlphanumeric c = true := by
  rw [U.isAlphanumeric_ascii c (h.ascii hc)]
  exact (h.chars c hc).elim (fun hlow => (lowerCase_of_isLower hlow).alphanum)
    fun hdig => (digitCase_of_isDigit hdig).alphanum

theorem IsWord.capitalize_cons {w : Text} (h : IsWord w) : ∃ c rest, w = c :: rest ∧
    LowerCase c ∧ capitalize w = c.toUpper :: rest ∧ Hump U (capitalize w) := by
  obtain ⟨c, d, rest, rfl, hc, hrest⟩ := h.cons
  exact ⟨c, d :: rest, rfl, lowerCase_of_isLower hc, rfl, hump_of_tail hrest⟩

theorem IsWord.capitalize_head {w : Text} (h : IsWord w) :
    ∀ c ∈ (capitalize w).head?, U.isUppercase c = true := by
  obtain ⟨c, rest, rfl, hc, heq, -⟩ := h.capitalize_cons (U := U)
  intro x hx
  obtain rfl : c.toUpper = x := Option.some.inj hx
  rw [U.isUppercase_ascii _ hc.capital_ascii, hc.capital_upper]

theorem IsWord.capitalize_alphanumeric {w : Text} (h : IsWord w) :
    ∀ c ∈ capitalize w, U.isAlphanumeric c = true := by
  obtain ⟨c, rest, rfl, hc, heq, -⟩ := h.capitalize_cons (U := U)
  intro x hx
  rcases List.mem_cons.1 hx with rfl | hx
  · rw [U.isAlphanumeric_ascii _ hc.capital_ascii, hc.capital_alphanum]
  · exact h.alphanumeric (List.mem_cons_of_mem c hx)

/-- Lowercasing undoes the capital. -/
theorem IsWord.lower_capitalize {w : Text} (h : IsWord w) : U.toLowercase (capitalize w) = w := by
  obtain ⟨c, rest, rfl, hc, heq, -⟩ := h.capitalize_cons (U := U)
  have hlower := h.lower (U := U)
  rw [U.toLowercase_ascii _ fun x hx => h.ascii hx, List.map_cons, List.cons.injEq] at hlower
  rw [heq, U.toLowercase_ascii, List.map_cons, hlower.2, hc.capital_toLower]
  intro x hx
  rcases List.mem_cons.1 hx with rfl | hx
  · exact hc.capital_ascii
  · exact h.ascii (List.mem_cons_of_mem c hx)

/-- A first piece and capitalized words, written together. -/
theorem codeTokens_camel {p : Text} {rest : List Text} (hp : Hump U p)
    (hal : ∀ c ∈ p, U.isAlphanumeric c = true) (hrest : ∀ w ∈ rest, IsWord w) :
    codeTokens U (p ++ (rest.map capitalize).flatten) = U.toLowercase p :: rest := by
  have hchars : ∀ c ∈ p ++ (rest.map capitalize).flatten, U.isAlphanumeric c = true := by
    intro c hc
    rcases List.mem_append.1 hc with hc | hc
    · exact hal c hc
    · obtain ⟨q, hq, hc⟩ := List.mem_flatten.1 hc
      obtain ⟨w, hw, rfl⟩ := List.mem_map.1 hq
      exact (hrest w hw).capitalize_alphanumeric c hc
  have hhumps : ∀ q ∈ rest.map capitalize, Hump U q ∧ ∀ c ∈ q.head?, U.isUppercase c = true := by
    intro q hq
    obtain ⟨w, hw, rfl⟩ := List.mem_map.1 hq
    obtain ⟨-, -, -, -, -, hhump⟩ := (hrest w hw).capitalize_cons (U := U)
    exact ⟨hhump, (hrest w hw).capitalize_head⟩
  rw [codeTokens_eq_map, codePieces_of_alphanumeric U hchars, chop_humps _ p hp hhumps,
    List.map_cons, List.map_map]
  congr 1
  calc rest.map (U.toLowercase ∘ capitalize) = rest.map id :=
        List.map_congr_left fun w hw => (hrest w hw).lower_capitalize
    _ = rest := List.map_id rest

/-! ## Acronyms -/

/-- After a digit come digits only. -/
theorem LettersThenDigits.pairwise {w : Text} (h : LettersThenDigits w) :
    w.Pairwise fun a c => a.isDigit = true → c.isDigit = true := by
  obtain ⟨letters, digits, rfl, hletters, hdigits⟩ := h
  rw [List.pairwise_append]
  refine ⟨?_, List.pairwise_of_forall_mem_list fun a _ c hc _ => hdigits c hc,
    fun a _ c hc _ => hdigits c hc⟩
  refine List.pairwise_of_forall_mem_list fun a ha c _ hdig => ?_
  rw [(lowerCase_of_isLower (hletters a ha)).not_digit] at hdig
  cases hdig

/-- Nothing of a word in capitals is lowercase. -/
theorem IsWord.capitals_not_lower {w : Text} (h : IsWord w) {c : Char} (hc : c ∈ w) :
    U.isLowercase c.toUpper = false := by
  rcases h.chars c hc with hlow | hdig
  · have hletter := lowerCase_of_isLower hlow
    rw [U.isLowercase_ascii _ hletter.capital_ascii, hletter.capital_not_lower]
  · have hdigit := digitCase_of_isDigit hdig
    rw [hdigit.toUpper, U.isLowercase_ascii c (isDigit_ascii hdig), hdigit.not_lower]

/-- Capitals followed by digits are one piece. -/
theorem unbroken_screaming {w : Text} (hword : IsWord w) (hw : LettersThenDigits w) :
    Unbroken (caseBreak U) (w.map Char.toUpper) none := by
  have hord := hw.pairwise
  intro pre a c post hmap
  obtain ⟨pre, mid, hpre, rfl, hmid⟩ := List.map_eq_append_iff.1 hmap
  obtain ⟨a, mid, rfl, rfl, hlast⟩ := List.map_eq_cons_iff.1 hmid
  obtain ⟨c, post, rfl, rfl, rfl⟩ := List.map_eq_cons_iff.1 hlast
  have hmem : ∀ x ∈ a :: c :: post, x ∈ w := by
    intro x hx
    rw [hpre]
    exact List.mem_append_right pre hx
  have hnext : (((post.map Char.toUpper).head?.or none).map U.isLowercase).getD false = false := by
    cases post with
    | nil => rfl
    | cons x post => exact hword.capitals_not_lower (hmem x (by simp))
  rw [hpre, List.pairwise_append, List.pairwise_cons] at hord
  unfold caseBreak
  rw [hnext, Bool.and_false]
  rcases hword.chars c (hmem c (by simp)) with hcl | hcd
  · -- a digit before it would make it a digit
    have hal : a.isLower = true := by
      refine (hword.chars a (hmem a List.mem_cons_self)).resolve_right fun hdig => ?_
      have := hord.2.1.1 c List.mem_cons_self hdig
      rw [(lowerCase_of_isLower hcl).not_digit] at this
      cases this
    have hletter := lowerCase_of_isLower hal
    rw [U.isLowercase_ascii _ hletter.capital_ascii, hletter.capital_not_lower,
      hletter.capital_not_digit]
    split <;> rfl
  · have hdigit := digitCase_of_isDigit hcd
    rw [hdigit.toUpper, U.isUppercase_ascii c (isDigit_ascii hcd), hdigit.not_upper]
    rfl

theorem codeTokens_screaming {w : Text} (hword : IsWord w) (hw : LettersThenDigits w) :
    codeTokens U (w.map Char.toUpper) = [w] := by
  have hupper : ∀ c ∈ w, c.toUpper.toNat < 128 ∧ c.toUpper.isAlphanum = true ∧
      c.toUpper.toLower = c := by
    intro c hc
    rcases hword.chars c hc with h | h
    · have hletter := lowerCase_of_isLower h
      exact ⟨hletter.capital_ascii, hletter.capital_alphanum, hletter.capital_toLower⟩
    · have hdigit := digitCase_of_isDigit h
      rw [hdigit.toUpper]
      exact ⟨isDigit_ascii h, hdigit.alphanum, hdigit.toLower⟩
  have hal : ∀ c ∈ w.map Char.toUpper, U.isAlphanumeric c = true := by
    intro c hc
    obtain ⟨d, hd, rfl⟩ := List.mem_map.1 hc
    rw [U.isAlphanumeric_ascii _ (hupper d hd).1, (hupper d hd).2.1]
  have hne : w.map Char.toUpper ≠ [] := by
    obtain ⟨c, d, rest, rfl, -⟩ := hword.cons
    simp
  have hlower : U.toLowercase (w.map Char.toUpper) = w := by
    rw [U.toLowercase_ascii, List.map_map]
    · calc w.map (Char.toLower ∘ Char.toUpper) = w.map id :=
            List.map_congr_left fun c hc => (hupper c hc).2.2
        _ = w := List.map_id w
    · intro c hc
      obtain ⟨d, hd, rfl⟩ := List.mem_map.1 hc
      exact (hupper d hd).1
  rw [codeTokens_eq_map, codePieces_of_alphanumeric U hal,
    chop_of_unbroken hne (unbroken_screaming hword hw), List.map_singleton, hlower]

/-! ## All spellings -/

theorem flatMap_singletons {α : Type} {f : α → List α} {l : List α} (h : ∀ x ∈ l, f x = [x]) :
    l.flatMap f = l := by
  refine (flatMap_eq_self_iff fun x hx => ?_).2 h
  rw [h x hx]
  exact List.cons_ne_nil x []

theorem codeTokens_joined {sep : Text} (hne : sep ≠ []) (hsep : ∀ c ∈ sep, c.toNat < 128 ∧
    c.isAlphanum = false) {ws : List Text} (hws : ∀ w ∈ ws, IsWord w) :
    codeTokens U (joinWith sep ws) = ws := by
  rw [codeTokens_joinWith U hne fun c hc => by rw [U.isAlphanumeric_ascii c (hsep c hc).1, (hsep c hc).2]]
  apply flatMap_singletons
  intro w hw
  obtain ⟨c, d, rest, hcons, -⟩ := (hws w hw).cons
  refine codeTokens_word U w (by rw [hcons]; exact List.cons_ne_nil _ _) fun x hx => ?_
  refine ⟨(hws w hw).ascii hx, ?_, ?_⟩
  · rw [← U.isAlphanumeric_ascii x ((hws w hw).ascii hx)]
    exact (hws w hw).alphanumeric hx
  · exact ((hws w hw).chars x hx).elim (fun h => (lowerCase_of_isLower h).not_upper)
      fun h => (digitCase_of_isDigit h).not_upper

/-- Every spelling has the words as its tokens. -/
theorem codeTokens_spelling {ws : List Text} (hws : ∀ w ∈ ws, IsWord w) {s : Text}
    (h : Spelling ws s) : codeTokens U s = ws := by
  cases h with
  | snake => exact codeTokens_joined (by decide) (List.all_iff_forall_prop.1 (by decide)) hws
  | kebab => exact codeTokens_joined (by decide) (List.all_iff_forall_prop.1 (by decide)) hws
  | spaced => exact codeTokens_joined (by decide) (List.all_iff_forall_prop.1 (by decide)) hws
  | dotted => exact codeTokens_joined (by decide) (List.all_iff_forall_prop.1 (by decide)) hws
  | colons => exact codeTokens_joined (by decide) (List.all_iff_forall_prop.1 (by decide)) hws
  | @lowerCamel w rest hcons =>
    subst hcons
    have hw := hws w List.mem_cons_self
    obtain ⟨c, d, tail, rfl, -, htail⟩ := hw.cons
    rw [codeTokens_camel (hump_of_tail htail) (fun c hc => hw.alphanumeric hc) fun v hv =>
      hws v (List.mem_cons_of_mem _ hv), hw.lower]
  | pascal =>
    cases ws with
    | nil => exact codeTokens_nil U
    | cons w rest =>
      have hw := hws w List.mem_cons_self
      obtain ⟨-, -, -, -, -, hhump⟩ := hw.capitalize_cons (U := U)
      rw [List.map_cons, List.flatten_cons, codeTokens_camel hhump hw.capitalize_alphanumeric
        fun v hv => hws v (List.mem_cons_of_mem w hv), hw.lower_capitalize]
  | screaming hletters =>
    rw [codeTokens_joinWith U (List.cons_ne_nil _ _) fun c hc => by
      rw [List.mem_singleton.1 hc, U.isAlphanumeric_ascii _ (by decide)]; decide]
    rw [List.flatMap_map]
    exact flatMap_singletons fun w hw => codeTokens_screaming (hws w hw) (hletters w hw)

end

/-- A query finds what its tokens find. -/
theorem bm25Query_congr (S : Sqlite) (U : CharTables) (ix : Index) (k : Nat) {q q' : Text}
    (h : codeTokens U q = codeTokens U q') : bm25Query S U ix q k = bm25Query S U ix q' k := by
  have hempty : ∀ s : Text, (s.isEmpty || (codeTokens U s).isEmpty) = (codeTokens U s).isEmpty := by
    intro s
    cases s with
    | nil => rw [codeTokens_nil]; rfl
    | cons c s => rfl
  unfold bm25Query
  dsimp only
  rw [hempty, hempty, h]

/-- What stands around a spelling does not run into it. -/
structure Apart (U : CharTables) (pre post : Text) : Prop where
  left : ∀ c ∈ pre.getLast?, U.isAlphanumeric c = false
  right : ∀ c ∈ post.head?, U.isAlphanumeric c = false

theorem codeTokens_around {U : CharTables} {pre post : Text} (h : Apart U pre post) (s : Text) :
    codeTokens U (pre ++ s ++ post) = codeTokens U pre ++ codeTokens U s ++ codeTokens U post := by
  have hpost : codeTokens U (s ++ post) = codeTokens U s ++ codeTokens U post := by
    cases post with
    | nil => rw [codeTokens_nil, List.append_nil, List.append_nil]
    | cons c post =>
      have hc := h.right c rfl
      have hnil := codeTokens_append_cons U [] post c hc
      rw [codeTokens_nil, List.nil_append, List.nil_append] at hnil
      rw [codeTokens_append_cons U s post c hc, hnil]
  rw [List.append_assoc, List.append_assoc, ← hpost]
  rcases List.eq_nil_or_concat pre with rfl | ⟨pre, c, rfl⟩
  · rw [codeTokens_nil, List.nil_append, List.nil_append]
  · have hc := h.left c (by simp)
    rw [List.concat_eq_append, List.append_assoc, List.singleton_append,
      codeTokens_append_cons U pre _ c hc, codeTokens_append_cons U pre [] c hc, codeTokens_nil,
      List.append_nil]

/-- All spellings have the same tokens, as queries find the same chunks, and in a body that is
not cut off store the same tokens. -/
theorem spellings_agree (ws : List Text) (hws : ∀ w ∈ ws, IsWord w) :
    (∀ U s, Spelling ws s → codeTokens U s = ws) ∧
    ∀ s s', Spelling ws s → Spelling ws s' →
      (∀ S U ix k, bm25Query S U ix s k = bm25Query S U ix s' k) ∧
      ∀ D pre post, Apart D.chars pre post → byteLen (pre ++ s ++ post) ≤ maxChunkBytes →
        byteLen (pre ++ s' ++ post) ≤ maxChunkBytes →
        bodyTokens D (pre ++ s ++ post) = bodyTokens D (pre ++ s' ++ post) := by
  refine ⟨fun U s h => codeTokens_spelling hws h, fun s s' h h' => ⟨fun S U ix k => ?_, ?_⟩⟩
  · apply bm25Query_congr
    rw [codeTokens_spelling hws h, codeTokens_spelling hws h']
  · intro D pre post hapart hfits hfits'
    unfold bodyTokens indexedText
    rw [(truncate_eq_self_iff _ _).2 hfits, (truncate_eq_self_iff _ _).2 hfits',
      codeTokens_around hapart, codeTokens_around hapart, codeTokens_spelling hws h,
      codeTokens_spelling hws h']

theorem isWord_foo : IsWord "foo".toList := ⟨by decide, fun _ hc => by cases hc; rfl, List.all_iff_forall_prop.1 (by decide)⟩

theorem isWord_bar : IsWord "bar".toList := ⟨by decide, fun _ hc => by cases hc; rfl, List.all_iff_forall_prop.1 (by decide)⟩

/-- Two spellings of `foo bar`: their tokens, the queries for them, and calls of them. -/
theorem spellings_agree_fooBar :
    (codeTokens CharTables.ascii "fooBar".toList = ["foo".toList, "bar".toList] ∧
      codeTokens CharTables.ascii "FOO_BAR".toList = ["foo".toList, "bar".toList]) ∧
    (∀ S U ix k, bm25Query S U ix "fooBar".toList k = bm25Query S U ix "FOO_BAR".toList k) ∧
    bodyTokens .plain ("let x = ".toList ++ "fooBar".toList ++ "(1);".toList) =
      bodyTokens .plain ("let x = ".toList ++ "FOO_BAR".toList ++ "(1);".toList) := by
  have hws : ∀ w ∈ ["foo".toList, "bar".toList], IsWord w := by
    intro w hw
    rcases List.mem_cons.1 hw with rfl | hw
    · exact isWord_foo
    · rw [List.mem_singleton.1 hw]
      exact isWord_bar
  have hletters : ∀ w ∈ ["foo".toList, "bar".toList], LettersThenDigits w := by
    intro w hw
    refine ⟨w, [], (List.append_nil w).symm, ?_, by simp⟩
    rcases List.mem_cons.1 hw with rfl | hw
    · exact List.all_iff_forall_prop.1 (by decide)
    · rw [List.mem_singleton.1 hw]
      exact List.all_iff_forall_prop.1 (by decide)
  have hcamel : Spelling ["foo".toList, "bar".toList] "fooBar".toList := .lowerCamel rfl
  have hscreaming : Spelling ["foo".toList, "bar".toList] "FOO_BAR".toList := .screaming hletters
  obtain ⟨htokens, hagree⟩ := spellings_agree ["foo".toList, "bar".toList] hws
  obtain ⟨hqueries, hbodies⟩ := hagree "fooBar".toList "FOO_BAR".toList hcamel hscreaming
  have hapart : Apart Deps.plain.chars "let x = ".toList "(1);".toList := by
    refine ⟨fun c hc => ?_, fun c hc => ?_⟩
    · obtain rfl : ' ' = c := Option.some.inj hc
      rfl
    · obtain rfl : '(' = c := Option.some.inj hc
      rfl
  exact ⟨⟨htokens _ _ hcamel, htokens _ _ hscreaming⟩, hqueries,
    hbodies .plain "let x = ".toList "(1);".toList hapart (by decide +kernel) (by decide +kernel)⟩

/-- Where the body is cut off within the identifier, its spelling decides where. -/
theorem spelling_cut_off : Spelling ["foo".toList, "bar".toList] "fooBar".toList ∧
    Spelling ["foo".toList, "bar".toList] "foo_bar".toList ∧
    bodyTokens .plain (List.replicate 8188 '\n' ++ "fooBar".toList) ≠
      bodyTokens .plain (List.replicate 8188 '\n' ++ "foo_bar".toList) := by
  have hstored : ∀ s : Text, s.length = 6 ∨ s.length = 7 → (∀ c ∈ s, c.utf8Size = 1) →
      bodyTokens .plain (List.replicate 8188 '\n' ++ s) =
        joinWith [' '] (codeTokens CharTables.ascii (s.take 4)) := by
    intro s hlen hs
    have hone : ∀ c ∈ List.replicate 8188 '\n' ++ s, c.utf8Size = 1 := by
      intro c hc
      rcases List.mem_append.1 hc with hc | hc
      · rw [List.eq_of_mem_replicate hc]
        decide
      · exact hs c hc
    have hcut : indexedText (List.replicate 8188 '\n' ++ s) = List.replicate 8188 '\n' ++ s.take 4 := by
      unfold indexedText maxChunkBytes
      rw [truncate_ascii _ hone _ (by rw [List.length_append, List.length_replicate]; omega),
        List.take_append, List.length_replicate, List.take_of_length_le (by rw [List.length_replicate]; omega)]
    unfold bodyTokens
    rw [hcut]
    show joinWith [' '] (codeTokens CharTables.ascii _) = _
    rw [codeTokens_separators]
    intro c hc
    rw [List.eq_of_mem_replicate hc]
    exact isAlphanumeric_newline _
  refine ⟨.lowerCamel rfl, .snake, ?_⟩
  rw [hstored _ (.inl rfl) (List.all_iff_forall_prop.1 (by decide)),
    hstored _ (.inr rfl) (List.all_iff_forall_prop.1 (by decide))]
  decide +kernel

end CodeSearch
