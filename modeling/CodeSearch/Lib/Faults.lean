import CodeSearch.Lib.Crash

/-!
# Failing requests

`Ends p c t fs r c' t'`: the connection alone runs `p` to its end `r`, the requests
that fail are `fs`, in order, and at none of them does the store roll back by itself.
These are all the runs without such a rollback (`ends_iff_run`).

A failing request leaves what the connection reads and whether a transaction is
open (`step_error`).  So what a failing program leaves is decided by its requests
alone: a transaction rolls back unless its `COMMIT` or the `ROLLBACK` fails
(`ends_transaction`), a batch in an open transaction leaves it open
(`ends_batch_error`), and statements that change nothing leave an idle connection as
it was (`Ends.still`).
-/

namespace Store

variable {S : Type} {R : S → Type} {e ε α β σ χ : Type}

/-! ## Runs -/

/-- The store does not roll back by itself. -/
def Outcome.Lasting : Outcome χ e → Prop
  | .abort _ => False
  | _ => True

inductive Ends (E : Engine S R e σ χ) : Prog S R e ε α → σ → Txn σ → List (Req S) → Except ε α →
    σ → Txn σ → Prop
  | pure (a : α) (c : σ) (t : Txn σ) : Ends E (.pure a) c t [] (.ok a) c t
  | throw (y : ε) (c : σ) (t : Txn σ) : Ends E (.throw y) c t [] (.error y) c t
  | ok {q : Req S} {k : Except e (q.Resp R) → Prog S R e ε α} {c c₁ c' : σ} {t t₁ t' : Txn σ}
      {o : Outcome χ e} {a : q.Resp R} {fs : List (Req S)} {r : Except ε α} :
      o.Lasting → E.step q o c t = (.ok a, c₁, t₁) → Ends E (k (.ok a)) c₁ t₁ fs r c' t' →
      Ends E (.call q k) c t fs r c' t'
  | error {q : Req S} {k : Except e (q.Resp R) → Prog S R e ε α} {c c₁ c' : σ} {t t₁ t' : Txn σ}
      {o : Outcome χ e} {y : e} {fs : List (Req S)} {r : Except ε α} :
      o.Lasting → E.step q o c t = (.error y, c₁, t₁) → Ends E (k (.error y)) c₁ t₁ fs r c' t' →
      Ends E (.call q k) c t (q :: fs) r c' t'

variable {E : Engine S R e σ χ} {c c' : σ} {t t' : Txn σ} {fs : List (Req S)}

theorem ends_iff_run {p : Prog S R e ε α} {r : Except ε α} :
    (∃ fs, Ends E p c t fs r c' t') ↔
      ∃ p', Run E (fun _ o _ _ => o.Lasting) p c t p' c' t' ∧ p'.result? = some r := by
  constructor
  · rintro ⟨fs, h⟩
    induction h with
    | pure a c t => exact ⟨_, .refl _ _ _, rfl⟩
    | throw y c t => exact ⟨_, .refl _ _ _, rfl⟩
    | ok ho hstep _ ih | error ho hstep _ ih =>
      obtain ⟨p', hrun, hr⟩ := ih
      refine ⟨p', .step ho ?_, hr⟩
      rw [hstep]
      exact hrun
  · rintro ⟨p', hrun, hr⟩
    induction hrun with
    | refl p c t =>
      cases p with
      | pure a => cases hr; exact ⟨[], .pure _ _ _⟩
      | throw y => cases hr; exact ⟨[], .throw _ _ _⟩
      | call q k => cases hr
    | @step q k c t o p' c' t' ho _ ih =>
      obtain ⟨fs, h⟩ := ih hr
      generalize hstep : E.step q o c t = s at h
      obtain ⟨answer, c₁, t₁⟩ := s
      cases answer with
      | ok a => exact ⟨fs, .ok ho hstep h⟩
      | error y => exact ⟨q :: fs, .error ho hstep h⟩

/-! ## One request -/

/-- A failing request publishes nothing, undoes nothing and neither begins nor ends a
transaction. -/
theorem step_error {q : Req S} {o : Outcome χ e} {y : e} (ho : o.Lasting)
    (h : E.step q o c t = (.error y, c', t')) :
    c' = c ∧ t'.view c = t.view c ∧ (t' = .idle ↔ t = .idle) := by
  cases o with
  | abort z => exact ho.elim
  | fail z =>
    cases h
    exact ⟨rfl, rfl, Iff.rfl⟩
  | run x =>
    cases q with
    | stmt s =>
      cases t with
      | idle =>
        simp only [Engine.step] at h
        split at h
        · cases h
        · cases h
          exact ⟨rfl, rfl, Iff.rfl⟩
      | begun | active w =>
        simp only [Engine.step] at h
        split at h
        · cases h
        · cases h
          exact ⟨rfl, rfl, by simp⟩
    | begin | commit | rollback =>
      cases t <;> (cases h; try exact ⟨rfl, rfl, Iff.rfl⟩)

/-- A statement in an open transaction publishes nothing and leaves it open. -/
theorem step_stmt_open {s : S} {o : Outcome χ e} {a : Except e (R s)} (ho : o.Lasting)
    (ht : t ≠ .idle) (h : E.step (.stmt s) o c t = (a, c', t')) : c' = c ∧ t' ≠ .idle := by
  cases a with
  | error y =>
    obtain ⟨hc, -, hidle⟩ := step_error ho h
    exact ⟨hc, fun hi => ht (hidle.1 hi)⟩
  | ok a =>
    cases o with
    | abort z | fail z => cases h
    | run x =>
      cases t with
      | idle => exact absurd rfl ht
      | begun | active w =>
        simp only [Engine.step] at h
        split at h
        · cases h
          exact ⟨rfl, by simp⟩
        · cases h

theorem step_begin_ok {o : Outcome χ e} {u : Unit}
    (h : E.step .begin o c .idle = (.ok u, c', t')) : c' = c ∧ t' = .begun := by
  cases o with
  | abort z | fail z => cases h
  | run x =>
    cases h
    exact ⟨rfl, rfl⟩

theorem step_rollback_ok {o : Outcome χ e} {u : Unit}
    (h : E.step .rollback o c t = (.ok u, c', t')) : c' = c ∧ t' = .idle := by
  cases o with
  | abort z | fail z => cases h
  | run x => cases t <;> (cases h; try exact ⟨rfl, rfl⟩)

/-! ## Parts of a program -/

/-- The run of a sequence is that of its first part, and of the second if it returned. -/
theorem Ends.bind_cases {p : Prog S R e ε α} {f : α → Prog S R e ε β} {r : Except ε β}
    (h : Ends E (p >>= f) c t fs r c' t') :
    (∃ y, r = .error y ∧ Ends E p c t fs (.error y) c' t') ∨
    ∃ a fs₁ fs₂ c₁ t₁, fs = fs₁ ++ fs₂ ∧ Ends E p c t fs₁ (.ok a) c₁ t₁ ∧
      Ends E (f a) c₁ t₁ fs₂ r c' t' := by
  induction p generalizing c t fs with
  | pure a => exact .inr ⟨a, [], fs, c, t, rfl, .pure _ _ _, h⟩
  | throw y =>
    cases h
    exact .inl ⟨y, rfl, .throw _ _ _⟩
  | call q k ih =>
    cases h with
    | ok ho hstep h =>
      rcases ih _ h with ⟨y, hy, h⟩ | ⟨a, fs₁, fs₂, c₁, t₁, hfs, h₁, h₂⟩
      · exact .inl ⟨y, hy, .ok ho hstep h⟩
      · exact .inr ⟨a, fs₁, fs₂, c₁, t₁, hfs, .ok ho hstep h₁, h₂⟩
    | error ho hstep h =>
      rcases ih _ h with ⟨y, hy, h⟩ | ⟨a, fs₁, fs₂, c₁, t₁, rfl, h₁, h₂⟩
      · exact .inl ⟨y, hy, .error ho hstep h⟩
      · exact .inr ⟨a, q :: fs₁, fs₂, c₁, t₁, rfl, .error ho hstep h₁, h₂⟩

theorem Ends.attempt_cases {p : Prog S R e ε α} {r : Except ε (Except ε α)}
    (h : Ends E p.attempt c t fs r c' t') : ∃ r', r = .ok r' ∧ Ends E p c t fs r' c' t' := by
  induction p generalizing c t fs with
  | pure a =>
    cases h
    exact ⟨.ok a, rfl, .pure _ _ _⟩
  | throw y =>
    cases h
    exact ⟨.error y, rfl, .throw _ _ _⟩
  | call q k ih =>
    cases h with
    | ok ho hstep h =>
      obtain ⟨r', hr, h⟩ := ih _ h
      exact ⟨r', hr, .ok ho hstep h⟩
    | error ho hstep h =>
      obtain ⟨r', hr, h⟩ := ih _ h
      exact ⟨r', hr, .error ho hstep h⟩

/-! ## Strict programs -/

theorem only_true (p : Prog S R e ε α) : p.Only fun _ => True := by
  induction p with
  | pure a => trivial
  | throw y => trivial
  | call q k ih => exact ⟨fun _ _ => trivial, ih⟩

/-- A strict program fails only at its own statements, and at none if it returns. -/
theorem Ends.strict_fails {φ : S → Prop} {p : Prog S R e ε α} {r : Except ε α} (hs : p.Strict)
    (hφ : p.Only φ) (h : Ends E p c t fs r c' t') :
    (∀ q ∈ fs, ∃ s, φ s ∧ q = .stmt s) ∧ ∀ a, r = .ok a → fs = [] := by
  induction h with
  | pure a c t => exact ⟨by simp, fun _ _ => rfl⟩
  | throw y c t => exact ⟨by simp, fun _ _ => rfl⟩
  | ok ho hstep h ih => exact ih (hs.2.2 _) (hφ.2 _)
  | @error q k c c₁ c' t t₁ t' o y fs r ho hstep h ih =>
    obtain ⟨⟨s, rfl⟩, hk, -⟩ := hs
    obtain ⟨z, hz⟩ := (Prog.isThrow_iff _).1 (hk y)
    rw [hz] at h
    cases h
    refine ⟨fun q hq => ?_, fun a ha => by cases ha⟩
    rw [List.mem_singleton.1 hq]
    exact ⟨s, hφ.1 s rfl, rfl⟩

/-- In an open transaction a strict program publishes nothing and leaves it open. -/
theorem Ends.strict_open {p : Prog S R e ε α} {r : Except ε α} (hs : p.Strict) (ht : t ≠ .idle)
    (h : Ends E p c t fs r c' t') : c' = c ∧ t' ≠ .idle := by
  induction h with
  | pure a c t => exact ⟨rfl, ht⟩
  | throw y c t => exact ⟨rfl, ht⟩
  | @ok q k c c₁ c' t t₁ t' o a fs r ho hstep h ih =>
    obtain ⟨⟨s, rfl⟩, -, hr⟩ := hs
    obtain ⟨rfl, ht₁⟩ := step_stmt_open ho ht hstep
    exact ih (hr a) ht₁
  | @error q k c c₁ c' t t₁ t' o y fs r ho hstep h ih =>
    obtain ⟨⟨s, rfl⟩, hk, -⟩ := hs
    obtain ⟨rfl, ht₁⟩ := step_stmt_open ho ht hstep
    obtain ⟨z, hz⟩ := (Prog.isThrow_iff _).1 (hk y)
    rw [hz] at h
    cases h
    exact ⟨rfl, ht₁⟩

/-- A strict program of statements that change nothing leaves an idle connection as it
was. -/
theorem Ends.still {φ : S → Prop} {p : Prog S R e ε α} {r : Except ε α} (hs : p.Strict)
    (hφ : p.Only φ) (hstill : ∀ s x a c c', φ s → E.exec s x c = .ok (a, c') → c' = c)
    (h : Ends E p c .idle fs r c' t') : c' = c ∧ t' = .idle := by
  generalize ht : Txn.idle = t at h
  induction h with
  | pure a c t => exact ⟨rfl, rfl⟩
  | throw y c t => exact ⟨rfl, rfl⟩
  | @ok q k c c₁ c' t t₁ t' o a fs r ho hstep h ih =>
    subst ht
    obtain ⟨⟨s, rfl⟩, -, hr⟩ := hs
    have hsame : c₁ = c ∧ t₁ = .idle := by
      cases o with
      | abort z | fail z => cases hstep
      | run x =>
        simp only [Engine.step] at hstep
        split at hstep
        · next hexec =>
          cases hstep
          exact ⟨hstill s x _ _ _ (hφ.1 s rfl) hexec, rfl⟩
        · cases hstep
    obtain ⟨rfl, rfl⟩ := hsame
    exact ih (hr a) (hφ.2 _) rfl
  | @error q k c c₁ c' t t₁ t' o y fs r ho hstep h ih =>
    subst ht
    obtain ⟨z, hz⟩ := (Prog.isThrow_iff _).1 (hs.2.1 y)
    obtain ⟨rfl, -, hidle⟩ := step_error ho hstep
    rw [hz] at h
    cases h
    exact ⟨rfl, hidle.2 rfl⟩

/-! ## Transactions and batches -/

/-- A statement that fails outside a transaction. -/
theorem ends_execute_error {err : e → ε} {s : S} {y : ε}
    (h : Ends E (Prog.execute err s) c .idle fs (.error y) c' t') :
    c' = c ∧ t' = .idle ∧ fs = [.stmt s] := by
  cases h with
  | ok ho hstep h => cases h
  | error ho hstep h =>
    cases h
    obtain ⟨rfl, -, hidle⟩ := step_error ho hstep
    exact ⟨rfl, hidle.2 rfl, rfl⟩

/-- The end of a transaction: its `COMMIT` succeeds, or leaves it open. -/
theorem ends_commit_error {err : e → ε} {a : α} {y : ε} (ht : t ≠ .idle)
    (h : Ends E (Prog.commitWith err a) c t fs (.error y) c' t') :
    fs = [.commit] ∧ t' ≠ .idle := by
  cases h with
  | ok ho hstep h => cases h
  | error ho hstep h =>
    cases h
    exact ⟨rfl, fun hi => ht ((step_error ho hstep).2.2.1 hi)⟩

/-- The end of a transaction whose body failed: the `ROLLBACK` closes it, or leaves it
open. -/
theorem ends_rollback {y : ε} {r : Except ε α} (ht : t ≠ .idle)
    (h : Ends E (.call .rollback fun _ => .throw y) c t fs r c' t') :
    c' = c ∧ (t' = .idle ∧ fs = [] ∨ t' ≠ .idle ∧ fs = [.rollback]) := by
  cases h with
  | ok ho hstep h =>
    cases h
    obtain ⟨rfl, rfl⟩ := step_rollback_ok hstep
    exact ⟨rfl, .inl ⟨rfl, rfl⟩⟩
  | error ho hstep h =>
    cases h
    obtain ⟨rfl, -, hidle⟩ := step_error ho hstep
    exact ⟨rfl, .inr ⟨fun hi => ht (hidle.1 hi), rfl⟩⟩

/-- A failing transaction leaves the connection as it was unless its `COMMIT` or its
`ROLLBACK` is what failed. -/
theorem ends_transaction {beginErr commitErr : e → ε} {bodyErr : ε → ε} {body : Prog S R e ε α}
    {y : ε} (hs : body.Strict) (h : Ends E (Prog.transaction beginErr commitErr bodyErr body) c .idle
      fs (.error y) c' t') :
    t'.view c' = c ∧ t' = .idle ↔ .commit ∉ fs ∧ .rollback ∉ fs := by
  cases h with
  | error ho hstep h =>
    obtain ⟨rfl, -, hidle⟩ := step_error ho hstep
    cases h
    have ht := hidle.2 rfl
    subst ht
    exact iff_of_true ⟨rfl, rfl⟩ (by simp)
  | ok ho hstep h =>
    obtain ⟨rfl, rfl⟩ := step_begin_ok hstep
    rcases h.bind_cases with ⟨z, hz, h⟩ | ⟨r, fs₁, fs₂, c₂, t₂, rfl, h, hend⟩
    · obtain ⟨r, hr, -⟩ := h.attempt_cases
      cases hr
    · obtain ⟨r', hr', h⟩ := h.attempt_cases
      cases hr'
      obtain ⟨rfl, ht₂⟩ := h.strict_open hs (by simp)
      -- only statements of the body failed so far
      have hfs : .commit ∉ fs₁ ∧ .rollback ∉ fs₁ := by
        obtain ⟨hstmts, -⟩ := h.strict_fails hs (only_true body)
        refine ⟨fun hq => ?_, fun hq => ?_⟩
        · obtain ⟨s, -, hs⟩ := hstmts _ hq
          cases hs
        · obtain ⟨s, -, hs⟩ := hstmts _ hq
          cases hs
      simp only [List.mem_append, not_or, hfs, not_false_eq_true, true_and]
      cases r with
      | ok a =>
        obtain ⟨rfl, ht'⟩ := ends_commit_error ht₂ hend
        exact iff_of_false (fun h => ht' h.2) (by simp)
      | error z =>
        rcases ends_rollback ht₂ hend with ⟨rfl, ⟨rfl, rfl⟩ | ⟨ht', rfl⟩⟩
        · exact iff_of_true ⟨rfl, rfl⟩ (by simp)
        · exact iff_of_false (fun h => ht' h.2) (by simp)

/-- A batch in an open transaction, its `COMMIT` included: one of its requests fails,
and leaves the transaction open. -/
theorem ends_batch_error {err : e → ε} {ss : List S} {tail : List (Req S)} {y : ε}
    (htail : tail = [] ∨ tail = [.commit]) (ht : t ≠ .idle)
    (h : Ends E (Prog.batch err (ss.map .stmt ++ tail)) c t fs (.error y) c' t') :
    t' ≠ .idle ∧ ∃ q ∈ ss.map .stmt ++ tail, fs = [q] := by
  induction ss generalizing c t with
  | nil =>
    rcases htail with rfl | rfl
    · cases h
    · rw [List.map_nil, List.nil_append, Prog.batch_commit] at h
      obtain ⟨rfl, ht'⟩ := ends_commit_error ht h
      exact ⟨ht', _, by simp, rfl⟩
  | cons s ss ih =>
    cases h with
    | ok ho hstep h =>
      obtain ⟨ht', q, hq, hfs⟩ := ih (step_stmt_open ho ht hstep).2 h
      exact ⟨ht', q, List.mem_cons_of_mem _ hq, hfs⟩
    | error ho hstep h =>
      cases h
      exact ⟨(step_stmt_open ho ht hstep).2, _, List.mem_cons_self, rfl⟩

/-- A batch that begins a transaction fails at its `BEGIN`, or leaves it open. -/
theorem ends_batch_begin {err : e → ε} {ss : List S} {tail : List (Req S)} {y : ε}
    (htail : tail = [] ∨ tail = [.commit])
    (h : Ends E (Prog.batch err (.begin :: (ss.map .stmt ++ tail))) c .idle fs (.error y) c' t') :
    (c' = c ∧ t' = .idle ∧ fs = [.begin]) ∨
      (t' ≠ .idle ∧ ∃ q ∈ ss.map .stmt ++ tail, fs = [q]) := by
  cases h with
  | error ho hstep h =>
    cases h
    obtain ⟨rfl, -, hidle⟩ := step_error ho hstep
    exact .inl ⟨rfl, hidle.2 rfl, rfl⟩
  | ok ho hstep h =>
    obtain ⟨rfl, rfl⟩ := step_begin_ok hstep
    exact .inr (ends_batch_error htail (by simp) h)

/-- A batch that begins a transaction and succeeds. -/
theorem ends_batch_begun {err : e → ε} {ss : List S} {u : Unit}
    (h : Ends E (Prog.batch err (.begin :: ss.map .stmt)) c .idle fs (.ok u) c' t') :
    c' = c ∧ t' ≠ .idle ∧ fs = [] := by
  cases h with
  | error ho hstep h => cases h
  | ok ho hstep h =>
    obtain ⟨rfl, rfl⟩ := step_begin_ok hstep
    obtain ⟨rfl, ht'⟩ := h.strict_open (Prog.strict_batch err ss) (by simp)
    obtain ⟨-, hfs⟩ := h.strict_fails (Prog.strict_batch err ss) (only_true _)
    exact ⟨rfl, ht', hfs u rfl⟩

end Store
