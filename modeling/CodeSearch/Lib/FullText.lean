import Mathlib.Data.List.Basic
import Mathlib.Data.List.Infix

/-!
# Full-text queries

A tokenizer cuts a document into terms and does not look past a separator.  A phrase matches
a document whose terms contain its own, in order and adjacent; so a document of words between
separators is matched by every word that has a term (`matches_of_mem`).

A query is a disjunction of phrases, each written as a literal between quotes, in which a
quote is written twice.  It reads back as its phrases (`readDisjunction_disjunction`), so that
no part of a phrase is an operator.
-/

namespace FullText

variable {α τ : Type}

/-! ## Phrases -/

/-- A tokenizer that a separator stops. -/
structure Tokenizer (α τ : Type) (sep : α) where
  terms : List α → List τ
  terms_sep : ∀ xs ys, terms (xs ++ sep :: ys) = terms xs ++ terms ys

section
variable {sep : α} (T : Tokenizer α τ sep)

/-- The terms of the phrase stand in the document, and there are some. -/
structure Tokenizer.Matches (phrase doc : List α) : Prop where
  nonempty : T.terms phrase ≠ []
  occurs : T.terms phrase <:+: T.terms doc

/-- The terms of a word are among those of the words it stands with. -/
theorem terms_isInfix {word : List α} : ∀ {words : List (List α)}, word ∈ words →
    T.terms word <:+: T.terms ([sep].intercalate words) := by
  intro words
  induction words with
  | nil => exact fun h => absurd h List.not_mem_nil
  | cons w words ih =>
    intro h
    cases words with
    | nil =>
      rw [List.mem_singleton.1 h, List.intercalate_singleton]
    | cons v words =>
      rw [List.intercalate_cons_cons, List.append_assoc, List.singleton_append, T.terms_sep]
      rcases List.mem_cons.1 h with rfl | h
      · exact (List.prefix_append _ _).isInfix
      · exact (ih h).trans (List.suffix_append _ _).isInfix

theorem matches_of_mem {word : List α} {words : List (List α)} (h : word ∈ words)
    (hterms : T.terms word ≠ []) : T.Matches word ([sep].intercalate words) :=
  ⟨hterms, terms_isInfix T h⟩

end

/-! ## Expressions -/

section
variable [DecidableEq α]

/-- What stands between the quotes. -/
def escaped (quote : α) (phrase : List α) : List α :=
  phrase.flatMap fun c => if c = quote then [quote, quote] else [c]

/-- A phrase between quotes. -/
def literal (quote : α) (phrase : List α) : List α := quote :: (escaped quote phrase ++ [quote])

/-- The literals with the operator between them. -/
def disjunction (quote : α) (op : List α) (phrases : List (List α)) : List α :=
  op.intercalate (phrases.map (literal quote))

/-- The phrase up to the quote that no quote follows, and what stands behind it. -/
def readPhrase (quote : α) : List α → Option (List α × List α)
  | [] => none
  | c :: s =>
    if c = quote then
      match s with
      | [] => some ([], [])
      | d :: s' =>
        if d = quote then (readPhrase quote s').map fun r => (quote :: r.1, r.2)
        else some ([], d :: s')
    else (readPhrase quote s).map fun r => (c :: r.1, r.2)

/-- At most that many phrases. -/
def readPhrases (quote : α) (op : List α) : Nat → List α → Option (List (List α))
  | 0, _ => none
  | _ + 1, [] => none
  | n + 1, c :: s =>
    if c = quote then
      (readPhrase quote s).bind fun r =>
        if r.2 = [] then some [r.1]
        else if op.isPrefixOf r.2 then (readPhrases quote op n (r.2.drop op.length)).map (r.1 :: ·)
        else none
    else none

/-- The phrases of an expression. -/
def readDisjunction (quote : α) (op : List α) (expr : List α) : Option (List (List α)) :=
  readPhrases quote op expr.length expr

variable {quote : α}

theorem escaped_quote (p : List α) : escaped quote (quote :: p) = quote :: quote :: escaped quote p := by
  unfold escaped
  rw [List.flatMap_cons, if_pos rfl]
  rfl

theorem escaped_cons {c : α} (hc : c ≠ quote) (p : List α) :
    escaped quote (c :: p) = c :: escaped quote p := by
  unfold escaped
  rw [List.flatMap_cons, if_neg hc]
  rfl

theorem escaped_of_not_mem {phrase : List α} (h : quote ∉ phrase) : escaped quote phrase = phrase := by
  induction phrase with
  | nil => rfl
  | cons c phrase ih =>
    rw [List.mem_cons, not_or] at h
    rw [escaped_cons (Ne.symm h.1), ih h.2]

theorem readPhrase_cons {c : α} (hc : c ≠ quote) (s : List α) :
    readPhrase quote (c :: s) = (readPhrase quote s).map fun r => (c :: r.1, r.2) := by
  cases s <;> simp [readPhrase, hc]

theorem readPhrase_escaped {rest : List α} (hrest : rest.head? ≠ some quote) : ∀ p : List α,
    readPhrase quote (escaped quote p ++ quote :: rest) = some (p, rest) := by
  intro p
  induction p with
  | nil =>
    cases rest with
    | nil => simp [escaped, readPhrase]
    | cons d rest =>
      have hd : d ≠ quote := fun h => hrest (congrArg some h)
      simp [escaped, readPhrase, hd]
  | cons c p ih =>
    by_cases hc : c = quote
    · subst hc
      rw [escaped_quote]
      simp [readPhrase, ih]
    · rw [escaped_cons hc, List.cons_append, readPhrase_cons hc, ih]
      rfl

variable {op : List α}

theorem readPhrases_disjunction (hne : op ≠ []) (hop : op.head? ≠ some quote) :
    ∀ {ps : List (List α)}, ps ≠ [] → ∀ n, ps.length ≤ n →
      readPhrases quote op n (disjunction quote op ps) = some ps := by
  intro ps
  induction ps with
  | nil => exact fun h => absurd rfl h
  | cons p ps ih =>
    intro _ n hn
    obtain ⟨n, rfl⟩ : ∃ m, n = m + 1 := ⟨n - 1, by rw [List.length_cons] at hn; omega⟩
    unfold disjunction at ih ⊢
    cases ps with
    | nil =>
      have hread : readPhrase quote (escaped quote p ++ [quote]) = some (p, []) :=
        readPhrase_escaped (by simp) p
      rw [List.map_singleton, List.intercalate_singleton]
      simp [literal, readPhrases, hread]
    | cons p' ps =>
      have hmore := ih (List.cons_ne_nil _ _) n (by rw [List.length_cons] at hn; omega)
      rw [List.map_cons] at hmore ⊢
      rw [List.map_cons, List.intercalate_cons_cons]
      generalize op.intercalate (literal quote p' :: ps.map (literal quote)) = rest at hmore ⊢
      have hhead : (op ++ rest).head? ≠ some quote := by
        rw [List.head?_append_of_ne_nil _ hne]
        exact hop
      have hread : readPhrase quote (escaped quote p ++ quote :: (op ++ rest)) = some (p, op ++ rest) :=
        readPhrase_escaped hhead p
      unfold literal
      simp only [List.cons_append, List.append_assoc, List.nil_append, readPhrases, if_true, hread,
        Option.bind_some]
      rw [if_neg (List.append_ne_nil_of_left_ne_nil hne rest),
        if_pos (List.isPrefixOf_iff_prefix.2 (List.prefix_append _ _)), List.drop_left, hmore]
      rfl

theorem length_le_disjunction (quote : α) (op : List α) : ∀ ps : List (List α),
    ps.length ≤ (disjunction quote op ps).length := by
  intro ps
  unfold disjunction
  induction ps with
  | nil => exact Nat.zero_le _
  | cons p ps ih =>
    cases ps with
    | nil =>
      rw [List.map_singleton, List.intercalate_singleton]
      exact Nat.succ_le_succ (Nat.zero_le _)
    | cons p' ps =>
      rw [List.map_cons] at ih ⊢
      rw [List.map_cons, List.intercalate_cons_cons, List.length_append, List.length_append,
        List.length_cons]
      unfold literal at ih ⊢
      simp only [List.length_cons, List.length_append] at ih ⊢
      omega

/-- A disjunction reads back. -/
theorem readDisjunction_disjunction (hne : op ≠ []) (hop : op.head? ≠ some quote)
    {ps : List (List α)} (hps : ps ≠ []) :
    readDisjunction quote op (disjunction quote op ps) = some ps :=
  readPhrases_disjunction hne hop hps _ (length_le_disjunction quote op ps)

end

end FullText
