import CodeSearch.Lib.Chop
import CodeSearch.Tokens

/-!
# The pieces that tokens are made of

`codePieces s` is what `codeTokens` cuts `s` into before it lowercases
(`codeTokens_eq_map`); the pieces hold the alphanumeric characters of `s`, in order.
Lowercasing may take a piece out of the alphabet, or give it a new boundary.  Where
it does not the tokens are alphanumeric and tokenizing them again changes nothing
(`code_tokens_laws_iff`).
-/

namespace CodeSearch

open Chop

variable (U : CharTables)

/-! ## Segments -/

/-- The rule for a boundary, on the characters it reads. -/
def caseBreak : Break Char := fun prev cur next =>
  if !U.isUppercase cur then false
  else if U.isLowercase prev || prev.isDigit then true
  else U.isUppercase prev && (next.map U.isLowercase).getD false

theorem isBoundary_append (pre : Text) (prev cur : Char) (rest : Text) :
    isBoundary U (pre ++ prev :: cur :: rest) (pre.length + 1) = caseBreak U prev cur rest.head? := by
  have hprev : (pre ++ prev :: cur :: rest)[pre.length + 1 - 1]? = some prev := by
    rw [Nat.add_sub_cancel, List.getElem?_append_right (Nat.le_refl _), Nat.sub_self]
    rfl
  have hcur : (pre ++ prev :: cur :: rest)[pre.length + 1]? = some cur := by
    rw [List.getElem?_append_right (by omega), Nat.add_sub_cancel_left]
    rfl
  have hnext : (pre ++ prev :: cur :: rest)[pre.length + 1 + 1]? = rest.head? := by
    have hidx : pre.length + 1 + 1 - pre.length = 2 := by omega
    rw [List.getElem?_append_right (by omega), hidx]
    show rest[0]? = _
    rw [List.head?_eq_getElem?]
  unfold isBoundary caseBreak
  rw [hprev, hcur, hnext]

/-- The pieces when the loop is through: the open one is the last. -/
def finishSegment (segment : Text) (acc : Nat × List Text) : List Text :=
  if acc.1 < segment.length then acc.2 ++ [U.toLowercase (segment.drop acc.1)] else acc.2

/-- The loop chops what it has not looked at yet. -/
theorem splitSteps_eq {segment : Text} (rest : Text) :
    ∀ (pre front : Text) (last : Char) (out : List Text), segment = pre ++ (front ++ last :: rest) →
    finishSegment U segment ((List.range' (pre.length + front.length + 1) rest.length).foldl
      (splitStep U segment) (pre.length, out)) =
      out ++ (chopFrom (caseBreak U) front last rest).map U.toLowercase := by
  induction rest with
  | nil =>
    rintro pre front last out rfl
    simp [finishSegment, chopFrom]
  | cons c rest ih =>
    intro pre front last out hseg
    have hbreak : isBoundary U segment (pre.length + front.length + 1) =
        caseBreak U last c rest.head? := by
      have h := isBoundary_append U (pre ++ front) last c rest
      rwa [List.append_assoc, ← hseg, List.length_append] at h
    rw [List.length_cons, List.range'_succ, List.foldl_cons, splitStep, hbreak, chopFrom]
    by_cases hcut : caseBreak U last c rest.head? = true
    · have hsplit : segment = (pre ++ (front ++ [last])) ++ ([] ++ c :: rest) := by
        rw [hseg]
        simp
      have htake : (segment.take (pre.length + front.length + 1)).drop pre.length = front ++ [last] := by
        rw [hsplit, List.take_left' (by simp; omega), List.drop_left]
      have hlen : pre.length + front.length + 1 = (pre ++ (front ++ [last])).length := by
        simp
        omega
      rw [if_pos hcut, if_pos hcut, htake, hlen]
      refine (ih (pre ++ (front ++ [last])) [] c (out ++ [U.toLowercase (front ++ [last])])
        hsplit).trans ?_
      simp
    · have hsplit : segment = pre ++ ((front ++ [last]) ++ c :: rest) := by
        rw [hseg]
        simp
      have hlen : pre.length + front.length + 1 = pre.length + (front ++ [last]).length := by
        simp
        omega
      rw [if_neg hcut, if_neg hcut, hlen, ih pre _ c out hsplit]

theorem splitSegment_eq (segment : Text) :
    splitSegment U segment [] = (chop (caseBreak U) segment).map U.toLowercase := by
  cases segment with
  | nil => rfl
  | cons c rest => exact splitSteps_eq U rest [] [] c [] rfl

/-! ## Texts -/

/-- The pieces before they are lowercased. -/
def codePieces (s : Text) : List Text :=
  (s.splitOnP fun c => !U.isAlphanumeric c).flatMap (chop (caseBreak U))

theorem codeTokens_eq_map (s : Text) : codeTokens U s = (codePieces U s).map U.toLowercase := by
  have steps : ∀ segments : List Text, segments.foldl (pushSegment U) [] =
      (segments.flatMap (chop (caseBreak U))).map U.toLowercase := by
    intro segments
    induction segments with
    | nil => rfl
    | cons segment segments ih =>
      have hfirst : pushSegment U [] segment = (chop (caseBreak U) segment).map U.toLowercase := by
        unfold pushSegment
        split
        · next hempty =>
          rw [List.isEmpty_iff.1 hempty]
          rfl
        · exact splitSegment_eq U segment
      rw [List.foldl_cons, pushSegment_out, ih, hfirst, List.flatMap_cons, List.map_append]
  exact steps _

theorem flatten_splitOnP (p : Char → Bool) (s : Text) :
    (s.splitOnP p).flatten = s.filter fun c => !p c := by
  induction s with
  | nil => rfl
  | cons c s ih =>
    rw [List.splitOnP_cons_eq_if_modifyHead]
    by_cases hc : p c = true
    · rw [if_pos hc, List.flatten_cons, List.nil_append, ih, List.filter_cons_of_neg (by simp [hc])]
    · rw [if_neg hc, List.filter_cons_of_pos (by simpa using hc), ← ih]
      obtain ⟨segment, segments, hsplit⟩ := List.exists_cons_of_ne_nil (List.splitOnP_ne_nil p s)
      rw [hsplit]
      rfl

theorem flatten_codePieces (s : Text) : (codePieces U s).flatten = s.filter U.isAlphanumeric := by
  have hflat : ∀ segments : List Text,
      (segments.flatMap (chop (caseBreak U))).flatten = segments.flatten := by
    intro segments
    induction segments with
    | nil => rfl
    | cons segment segments ih =>
      rw [List.flatMap_cons, List.flatten_append, ih, flatten_chop, List.flatten_cons]
  rw [codePieces, hflat, flatten_splitOnP]
  simp

theorem ne_nil_of_mem_codePieces {p s : Text} (h : p ∈ codePieces U s) : p ≠ [] := by
  obtain ⟨segment, -, hp⟩ := List.mem_flatMap.1 h
  exact ne_nil_of_mem_chop hp

theorem mem_of_mem_codePieces {p s : Text} (h : p ∈ codePieces U s) {c : Char} (hc : c ∈ p) :
    c ∈ s ∧ U.isAlphanumeric c = true := by
  rw [← List.mem_filter, ← flatten_codePieces U s, List.mem_flatten]
  exact ⟨p, h, hc⟩

/-! ## The laws -/

/-- A text of alphanumeric characters is one segment. -/
theorem codePieces_of_alphanumeric {t : Text} (h : ∀ c ∈ t, U.isAlphanumeric c = true) :
    codePieces U t = chop (caseBreak U) t := by
  have hsplit : (t.splitOnP fun c => !U.isAlphanumeric c) = [t] :=
    List.splitOnP_eq_singleton fun c hc => by rw [h c hc]; rfl
  rw [codePieces, hsplit, List.flatMap_cons, List.flatMap_nil, List.append_nil]

theorem unbroken_iff {t : Text} : Unbroken (caseBreak U) t none ↔
    ∀ i, 0 < i → isBoundary U t i = false := by
  constructor
  · intro h i hi
    cases hcur : t[i]? with
    | none =>
      unfold isBoundary
      rw [hcur]
      split
      · next heq => cases heq
      · rfl
    | some cur =>
      -- the characters before and after the position
      obtain ⟨hlt, hcur⟩ := List.getElem?_eq_some_iff.1 hcur
      have hsplit : t = t.take (i - 1) ++ t[i - 1] :: cur :: t.drop (i + 1) := by
        conv_lhs => rw [← List.take_append_drop (i - 1) t, List.drop_eq_getElem_cons (by omega)]
        have hnext : i - 1 + 1 = i := by omega
        rw [hnext, List.drop_eq_getElem_cons hlt, hcur]
      have hlen : (t.take (i - 1)).length + 1 = i := by
        rw [List.length_take]
        omega
      have hb := isBoundary_append U (t.take (i - 1)) t[i - 1] cur (t.drop (i + 1))
      rw [← hsplit, hlen] at hb
      rw [hb]
      simpa using h _ _ _ _ hsplit
  · rintro h pre a c post rfl
    rw [Option.or_none, ← isBoundary_append U pre a c post]
    exact h _ (Nat.succ_pos _)

/-- Lowercasing the piece gives a token: alphanumeric, in lower case and without a boundary. -/
structure LowersToToken (p : Text) : Prop where
  ne_nil : U.toLowercase p ≠ []
  alphanumeric : ∀ c ∈ U.toLowercase p, U.isAlphanumeric c = true
  fixed : U.toLowercase (U.toLowercase p) = U.toLowercase p
  whole : ∀ i, 0 < i → isBoundary U (U.toLowercase p) i = false

/-- Tokenizing `s` is compositional, loses nothing, gives tokens and is stable. -/
structure TokenLaws (s : Text) : Prop where
  compositional : ∀ (t : Text) (c : Char), U.isAlphanumeric c = false →
    codeTokens U (s ++ c :: t) = codeTokens U s ++ codeTokens U t
  pieces : codeTokens U s = (codePieces U s).map U.toLowercase
  lossless : (codePieces U s).flatten = s.filter U.isAlphanumeric
  tokens : ∀ t ∈ codeTokens U s, t ≠ [] ∧ ∀ c ∈ t, U.isAlphanumeric c = true
  stable : codeTokens U (joinWith [' '] (codeTokens U s)) = codeTokens U s

/-- An alphanumeric text is its own one token exactly if nothing is left to do. -/
theorem codeTokens_eq_singleton_iff {t : Text} (hne : t ≠ [])
    (h : ∀ c ∈ t, U.isAlphanumeric c = true) :
    codeTokens U t = [t] ↔ U.toLowercase t = t ∧ ∀ i, 0 < i → isBoundary U t i = false := by
  rw [codeTokens_eq_map, codePieces_of_alphanumeric U h, ← unbroken_iff, ← chop_eq_singleton_iff hne]
  constructor
  · intro heq
    obtain ⟨q, hq, hlower⟩ := List.map_eq_singleton_iff.1 heq
    have hflat := flatten_chop (caseBreak U) t
    rw [hq, List.flatten_singleton] at hflat
    subst hflat
    exact ⟨hlower, hq⟩
  · rintro ⟨hlower, hchop⟩
    rw [hchop, List.map_singleton, hlower]

theorem isAlphanumeric_space : U.isAlphanumeric ' ' = false := by
  rw [U.isAlphanumeric_ascii _ (by decide)]
  decide

theorem codeTokens_separators {sep : Text} (hsep : ∀ c ∈ sep, U.isAlphanumeric c = false) (t : Text) :
    codeTokens U (sep ++ t) = codeTokens U t := by
  induction sep with
  | nil => rfl
  | cons c sep ih =>
    have h := codeTokens_append_cons U [] (sep ++ t) c (hsep c List.mem_cons_self)
    rw [codeTokens_nil, List.nil_append, List.nil_append] at h
    rw [List.cons_append, h, ih fun d hd => hsep d (List.mem_cons_of_mem c hd)]

/-- The tokens of joined texts are the tokens of the texts, in order. -/
theorem codeTokens_joinWith {sep : Text} (hne : sep ≠ [])
    (hsep : ∀ c ∈ sep, U.isAlphanumeric c = false) (ts : List Text) :
    codeTokens U (joinWith sep ts) = ts.flatMap (codeTokens U) := by
  obtain ⟨c, sep, rfl⟩ := List.exists_cons_of_ne_nil hne
  induction ts with
  | nil => simpa [joinWith] using codeTokens_nil U
  | cons t ts ih =>
    rcases ts with _ | ⟨t', ts⟩
    · simp [joinWith]
    · rw [joinWith, List.append_assoc, List.cons_append,
        codeTokens_append_cons U _ _ _ (hsep c List.mem_cons_self),
        codeTokens_separators U fun d hd => hsep d (List.mem_cons_of_mem c hd), ih,
        List.flatMap_cons (x := t)]

/-- The stored form of tokens is tokenized one by one. -/
theorem codeTokens_stored (ts : List Text) :
    codeTokens U (joinWith [' '] ts) = ts.flatMap (codeTokens U) := by
  apply codeTokens_joinWith U (List.cons_ne_nil _ _)
  intro c hc
  rw [List.mem_singleton.1 hc]
  exact isAlphanumeric_space U

/-- A map to non-empty lists that keeps the length keeps every element. -/
theorem flatMap_eq_self_iff {α : Type} {f : α → List α} {l : List α} (h : ∀ x ∈ l, f x ≠ []) :
    l.flatMap f = l ↔ ∀ x ∈ l, f x = [x] := by
  have hlong : ∀ l : List α, (∀ x ∈ l, f x ≠ []) → l.length ≤ (l.flatMap f).length := by
    intro l
    induction l with
    | nil => simp
    | cons x l ih =>
      intro h
      have hx : 0 < (f x).length := List.length_pos_iff.2 (h x List.mem_cons_self)
      have hl := ih fun y hy => h y (List.mem_cons_of_mem x hy)
      rw [List.flatMap_cons, List.length_append, List.length_cons]
      omega
  induction l with
  | nil => simp
  | cons x l ih =>
    have hl : ∀ y ∈ l, f y ≠ [] := fun y hy => h y (List.mem_cons_of_mem x hy)
    have hrest := ih hl
    rw [List.flatMap_cons, List.forall_mem_cons]
    constructor
    · intro heq
      obtain ⟨y, rest, hfx⟩ := List.exists_cons_of_ne_nil (h x List.mem_cons_self)
      rw [hfx, List.cons_append, List.cons.injEq] at heq
      have hnil : rest = [] := by
        have hlen := congrArg List.length heq.2
        have := hlong l hl
        rw [List.length_append] at hlen
        exact List.length_eq_zero_iff.1 (by omega)
      rw [hnil, List.nil_append] at heq
      rw [hfx, heq.1, hnil]
      exact ⟨rfl, hrest.1 heq.2⟩
    · rintro ⟨hfx, heq⟩
      rw [hfx, hrest.2 heq]
      rfl

/-- The laws hold of a text exactly if its pieces lower to tokens. -/
theorem tokenLaws_iff {s : Text} : TokenLaws U s ↔ ∀ p ∈ codePieces U s, LowersToToken U p := by
  have hmem : ∀ {t}, t ∈ codeTokens U s ↔ ∃ p ∈ codePieces U s, U.toLowercase p = t := by
    intro t
    rw [codeTokens_eq_map, List.mem_map]
  constructor
  · intro h p hp
    have htok := h.tokens _ (hmem.2 ⟨p, hp, rfl⟩)
    have hstable := h.stable
    rw [codeTokens_stored, flatMap_eq_self_iff] at hstable
    · obtain ⟨hfixed, hwhole⟩ := (codeTokens_eq_singleton_iff U htok.1 htok.2).1
        (hstable _ (hmem.2 ⟨p, hp, rfl⟩))
      exact ⟨htok.1, htok.2, hfixed, hwhole⟩
    · -- a text with alphanumeric characters has tokens
      intro t ht hnil
      have htok := h.tokens t ht
      rw [codeTokens_eq_map, List.map_eq_nil_iff, codePieces_of_alphanumeric U htok.2] at hnil
      have hflat := flatten_chop (caseBreak U) t
      rw [hnil] at hflat
      exact htok.1 hflat.symm
  · intro h
    have htok : ∀ t ∈ codeTokens U s, t ≠ [] ∧ ∀ c ∈ t, U.isAlphanumeric c = true := by
      intro t ht
      obtain ⟨p, hp, rfl⟩ := hmem.1 ht
      exact ⟨(h p hp).ne_nil, (h p hp).alphanumeric⟩
    have hself : ∀ t ∈ codeTokens U s, codeTokens U t = [t] := by
      intro t ht
      rw [codeTokens_eq_singleton_iff U (htok t ht).1 (htok t ht).2]
      obtain ⟨p, hp, rfl⟩ := hmem.1 ht
      exact ⟨(h p hp).fixed, (h p hp).whole⟩
    refine ⟨fun t c hc => codeTokens_append_cons U s t c hc, codeTokens_eq_map U s,
      flatten_codePieces U s, htok, ?_⟩
    rw [codeTokens_stored, flatMap_eq_self_iff]
    · exact hself
    · intro t ht hnil
      rw [hself t ht] at hnil
      cases hnil

/-! ## ASCII -/

theorem toLower_ascii {c : Char} (h : c.toNat < 128) :
    c.toLower.toNat < 128 ∧ c.toLower.isUpper = false ∧ c.toLower.isAlphanum = c.isAlphanum := by
  have table : ∀ n < 128, (Char.ofNat n).toLower.toNat < 128 ∧ (Char.ofNat n).toLower.isUpper = false ∧
      (Char.ofNat n).toLower.isAlphanum = (Char.ofNat n).isAlphanum := by
    decide +kernel
  have hc := table c.toNat h
  rwa [Char.ofNat_toNat] at hc

theorem lowersToToken_ascii {p : Text} (hne : p ≠ [])
    (h : ∀ c ∈ p, c.toNat < 128 ∧ U.isAlphanumeric c = true) : LowersToToken U p := by
  have hlower : U.toLowercase p = p.map Char.toLower := U.toLowercase_ascii p fun c hc => (h c hc).1
  have hascii : ∀ c ∈ p.map Char.toLower, c.toNat < 128 ∧ c.isUpper = false ∧ c.isAlphanum = true := by
    intro c hc
    obtain ⟨d, hd, rfl⟩ := List.mem_map.1 hc
    obtain ⟨hlt, hup, hal⟩ := toLower_ascii (h d hd).1
    rw [← U.isAlphanumeric_ascii d (h d hd).1, (h d hd).2] at hal
    exact ⟨hlt, hup, hal⟩
  refine ⟨?_, fun c hc => ?_, ?_, fun i _ => ?_⟩
  · rw [hlower]
    simpa using hne
  · rw [hlower] at hc
    rw [U.isAlphanumeric_ascii c (hascii c hc).1]
    exact (hascii c hc).2.2
  · rw [hlower, U.toLowercase_ascii _ fun c hc => (hascii c hc).1]
    calc (p.map Char.toLower).map Char.toLower = (p.map Char.toLower).map id :=
          List.map_congr_left fun c hc => toLower_of_not_upper (hascii c hc).2.1
      _ = p.map Char.toLower := List.map_id _
  · rw [hlower]
    unfold isBoundary
    split
    · next prev cur _ hcur =>
      have hc := hascii cur (List.mem_of_getElem? hcur)
      rw [U.isUppercase_ascii cur hc.1, hc.2.1]
      rfl
    · rfl

/-- Tokenizing is compositional and lossless; it gives tokens and is stable exactly if every
piece lowers to a token, as in ASCII it does. -/
theorem code_tokens_laws_iff (s : Text) :
    (TokenLaws U s ↔ ∀ p ∈ codePieces U s, LowersToToken U p) ∧
    ((∀ c ∈ s, c.toNat < 128) → TokenLaws U s) := by
  refine ⟨tokenLaws_iff U, fun h => (tokenLaws_iff U).2 fun p hp => ?_⟩
  apply lowersToToken_ascii U (ne_nil_of_mem_codePieces U hp)
  intro c hc
  obtain ⟨hs, hal⟩ := mem_of_mem_codePieces U hp hc
  exact ⟨h c hs, hal⟩

theorem code_tokens_laws_iff_request : TokenLaws CharTables.ascii "parseHTTPRequest".toList :=
  (code_tokens_laws_iff CharTables.ascii "parseHTTPRequest".toList).2
    (List.all_iff_forall_prop.1 (by decide))

/-- The tables with `İ`, whose lower case is `i` and a combining dot. -/
def dottedTables : CharTables where
  isAlphanumeric c := c.isAlphanum || decide (c = 'İ')
  isUppercase c := c.isUpper || decide (c = 'İ')
  isLowercase := Char.isLower
  toLowercase s := s.flatMap fun c => if c = 'İ' then ['i', Char.ofNat 0x307] else [c.toLower]
  isAlphanumeric_ascii c h := by
    have hc : c ≠ 'İ' := by
      rintro rfl
      exact absurd h (by decide)
    simp [hc]
  isUppercase_ascii c h := by
    have hc : c ≠ 'İ' := by
      rintro rfl
      exact absurd h (by decide)
    simp [hc]
  isLowercase_ascii := CharTables.ascii.isLowercase_ascii
  toLowercase_ascii s h := by
    induction s with
    | nil => rfl
    | cons c s ih =>
      have hc : c ≠ 'İ' := by
        rintro rfl
        exact absurd (h _ List.mem_cons_self) (by decide)
      rw [List.flatMap_cons, if_neg hc, List.map_cons, ih fun d hd => h d (List.mem_cons_of_mem c hd)]
      rfl

/-- A token with a character that is not alphanumeric. -/
theorem dotted_not_token : ¬ TokenLaws dottedTables "İ".toList := by
  intro h
  have htok : codeTokens dottedTables "İ".toList = [['i', Char.ofNat 0x307]] := by decide +kernel
  have hdot := (h.tokens ['i', Char.ofNat 0x307] (by rw [htok]; exact List.mem_singleton.2 rfl)).2
    (Char.ofNat 0x307) (by simp)
  exact absurd hdot (by decide)

end CodeSearch
