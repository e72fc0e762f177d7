import CodeSearch.Lib.Prog

/-!
# Transactions: a strict body is judged by its completed runs

`Completes c p t a t'`: run inside an open transaction `t` over committed state
`c`, every statement of `p` succeeds and `p` returns `a`.  A `Strict` body that
does not complete throws, and nothing it did is published; so for a transaction
it is enough to look at the working copy of a completed body.

    Strict body → (∀ completed body: guar c (working copy) ∧ Q (.ok a)) →
      (∀ errors: Q (.error y)) → wp (transaction body) Q                (wp_transaction)

`wp_batch_txn` is the same for a batch `BEGIN; ...; COMMIT` without a rollback,
which leaves the transaction open when a statement fails.
-/

namespace Store

variable {S : Type} {R : S → Type} {e ε α β σ χ : Type}

/-! ## Strict bodies -/

namespace Prog

theorem strict_bind {p : Prog S R e ε α} {f : α → Prog S R e ε β} (hp : p.Strict)
    (hf : ∀ a, (f a).Strict) : (p >>= f).Strict := by
  induction p with
  | pure a => exact hf a
  | throw y => trivial
  | call q k ih =>
    obtain ⟨hq, hk, hr⟩ := hp
    refine ⟨hq, fun y => ?_, fun r => ih _ (hr r)⟩
    obtain ⟨z, hz⟩ := (isThrow_iff _).1 (hk y)
    exact (isThrow_iff _).2 ⟨z, by show k (.error y) >>= f = _; rw [hz]; rfl⟩

theorem strict_execute (err : e → ε) (s : S) :
    (execute err s : Prog S R e ε (R s)).Strict :=
  ⟨⟨s, rfl⟩, fun _ => rfl, fun _ => trivial⟩

theorem strict_mapError {p : Prog S R e ε α} (g : ε → ε) (hp : p.Strict) :
    (p.mapError g).Strict := by
  induction p with
  | pure a => trivial
  | throw y => trivial
  | call q k ih =>
    obtain ⟨hq, hk, hr⟩ := hp
    refine ⟨hq, fun y => ?_, fun r => ih _ (hr r)⟩
    obtain ⟨z, hz⟩ := (isThrow_iff _).1 (hk y)
    exact (isThrow_iff _).2 ⟨g z, by show (k (.error y)).mapError g = _; rw [hz]; rfl⟩

theorem strict_batch (err : e → ε) (ss : List S) :
    (batch err (ss.map .stmt) : Prog S R e ε Unit).Strict := by
  induction ss with
  | nil => trivial
  | cons s ss ih => exact ⟨⟨s, rfl⟩, fun _ => rfl, fun _ => ih⟩

theorem batch_append (err : e → ε) (qs rs : List (Req S)) :
    (batch err (qs ++ rs) : Prog S R e ε Unit) = batch err qs >>= fun _ => batch err rs := by
  induction qs with
  | nil => rfl
  | cons q qs ih =>
    simp only [List.cons_append, batch, call_bind, call.injEq, heq_eq_eq, true_and]
    funext r
    cases r with
    | ok a => exact ih
    | error y => rfl

end Prog

/-! ## Completed bodies -/

/-- Inside transaction `t` over committed `c`, every statement of the program
succeeds and it returns `a`, leaving transaction `t'`. -/
inductive Completes (E : Engine S R e σ χ) (allow : Req S → Outcome χ e → σ → Txn σ → Prop)
    (c : σ) : Prog S R e ε α → Txn σ → α → Txn σ → Prop
  | pure (a : α) (t : Txn σ) : Completes E allow c (.pure a) t a t
  | stmt {s : S} {k : Except e (R s) → Prog S R e ε α} {t t' : Txn σ} {x : χ} {r : R s} {w : σ}
      {a : α} : t ≠ .idle → allow (.stmt s) (.run x) c t → E.exec s x (t.view c) = .ok (r, w) →
      Completes E allow c (k (.ok r)) (.active w) a t' → Completes E allow c (.call (.stmt s) k) t a t'

section
variable {E : Engine S R e σ χ} {allow : Req S → Outcome χ e → σ → Txn σ → Prop} {c : σ}

theorem completes_pure {a b : α} {t t' : Txn σ} :
    Completes E allow c (Pure.pure a : Prog S R e ε α) t b t' ↔ b = a ∧ t' = t := by
  constructor
  · intro h; cases h; exact ⟨rfl, rfl⟩
  · rintro ⟨rfl, rfl⟩; exact .pure _ _

theorem completes_throw {y : ε} {b : α} {t t' : Txn σ} :
    ¬ Completes E allow c (.throw y : Prog S R e ε α) t b t' := by
  intro h; cases h

theorem completes_bind {p : Prog S R e ε α} {f : α → Prog S R e ε β} {b : β} {t t' : Txn σ} :
    Completes E allow c (p >>= f) t b t' ↔
      ∃ a t₁, Completes E allow c p t a t₁ ∧ Completes E allow c (f a) t₁ b t' := by
  constructor
  · intro h
    induction p generalizing t with
    | pure a => exact ⟨a, t, .pure a t, h⟩
    | throw y => cases h
    | call q k ih =>
      cases h with
      | stmt ht ha hx hk =>
        obtain ⟨a, t₁, h₁, h₂⟩ := ih _ hk
        exact ⟨a, t₁, .stmt ht ha hx h₁, h₂⟩
  · rintro ⟨a, t₁, h₁, h₂⟩
    induction h₁ with
    | pure a t => exact h₂
    | stmt ht ha hx _ ih => exact .stmt ht ha hx (ih h₂)

theorem completes_execute {err : e → ε} {s : S} {r : R s} {t t' : Txn σ} :
    Completes E allow c (Prog.execute err s : Prog S R e ε (R s)) t r t' ↔
      t ≠ .idle ∧ ∃ x w, allow (.stmt s) (.run x) c t ∧ E.exec s x (t.view c) = .ok (r, w) ∧
        t' = .active w := by
  constructor
  · intro h
    cases h with
    | stmt ht ha hx hk =>
      cases hk
      exact ⟨ht, _, _, ha, hx, rfl⟩
  · rintro ⟨ht, x, w, ha, hx, rfl⟩
    exact .stmt ht ha hx (.pure _ _)

theorem completes_mapError {p : Prog S R e ε α} {g : ε → ε} {b : α} {t t' : Txn σ} :
    Completes E allow c (p.mapError g) t b t' ↔ Completes E allow c p t b t' := by
  constructor
  · intro h
    induction p generalizing t with
    | pure a => cases h; exact .pure _ _
    | throw y => cases h
    | call q k ih =>
      cases h with
      | stmt ht ha hx hk => exact .stmt ht ha hx (ih _ hk)
  · intro h
    induction h with
    | pure a t => exact .pure _ _
    | stmt ht ha hx _ ih => exact .stmt ht ha hx ih

/-- A batch of statements completes when each of them does. -/
theorem completes_batch_cons {err : e → ε} {s : S} {qs : List (Req S)} {u : Unit} {t t' : Txn σ} :
    Completes E allow c (Prog.batch err (.stmt s :: qs) : Prog S R e ε Unit) t u t' ↔
      t ≠ .idle ∧ ∃ x r w, allow (.stmt s) (.run x) c t ∧ E.exec s x (t.view c) = .ok (r, w) ∧
        Completes E allow c (Prog.batch err qs : Prog S R e ε Unit) (.active w) u t' := by
  constructor
  · intro h
    cases h with
    | stmt ht ha hx hk => exact ⟨ht, _, _, _, ha, hx, hk⟩
  · rintro ⟨ht, x, r, w, ha, hx, hk⟩
    exact .stmt ht ha hx hk

theorem completes_batch_nil {err : e → ε} {u : Unit} {t t' : Txn σ} :
    Completes E allow c (Prog.batch err [] : Prog S R e ε Unit) t u t' ↔ t' = t := by
  constructor
  · intro h; cases h; rfl
  · rintro rfl; exact .pure _ _

/-- Once a statement has run, the transaction stays active. -/
theorem Completes.active {p : Prog S R e ε α} {w : σ} {a : α} {t' : Txn σ}
    (h : Completes E allow c p (.active w) a t') : ∃ w', t' = .active w' := by
  generalize ht : Txn.active w = t at h
  induction h generalizing w with
  | pure a t => exact ⟨w, ht.symm⟩
  | stmt _ _ _ _ ih => exact ih rfl

/-- What every statement that may run keeps of the working copy, a completed
body keeps. -/
theorem Completes.keeps {P : σ → Prop} {φ : S → Prop}
    (hφ : ∀ s x w r w', φ s → P w → E.exec s x w = .ok (r, w') → P w')
    {p : Prog S R e ε α} {t t' : Txn σ} {a : α} (h : Completes E allow c p t a t')
    (hs : ∀ s x c t, allow (.stmt s) (.run x) c t → φ s) (hP : P (t.view c)) :
    P (t'.view c) := by
  induction h with
  | pure a t => exact hP
  | stmt ht ha hx _ ih => exact ih (hφ _ _ _ _ _ (hs _ _ _ _ ha) hP hx)

end

/-! ## The rules -/

variable {E : Engine S R e σ χ} {U : Rules S e σ χ}

/-- A strict body in an open transaction completes, or throws with the
committed state as it was. -/
theorem wp_strict {p : Prog S R e ε α} (hs : p.Strict) {Q : Except ε α → σ → Txn σ → Prop}
    {c : σ} {t : Txn σ} (ht : t ≠ .idle)
    (hok : ∀ a c₁ t', U.relyOn t c c₁ → Completes E U.allow c₁ p t a t' → Q (.ok a) c₁ t')
    (herr : ∀ y c₁ t', U.rely c c₁ → Q (.error y) c₁ t') : wp E U p Q c t := by
  induction p generalizing c t with
  | pure a => exact hok a c t (U.relyOn_refl t c) (.pure a t)
  | throw y => exact herr y c t (U.rely_refl c)
  | call q k ih =>
    obtain ⟨⟨s, rfl⟩, hk, hr⟩ := hs
    intro c₁ hc o ho
    have hrely := U.relyOn_rely hc
    -- a failing statement makes the body throw at once
    have fails : ∀ y t', wp E U (k (.error y)) Q c₁ t' := by
      intro y t'
      obtain ⟨z, hz⟩ := (Prog.isThrow_iff _).1 (hk y)
      rw [hz]
      exact herr z c₁ t' hrely
    cases o with
    | fail y => exact ⟨U.guar_refl _, fails y _⟩
    | abort y => exact ⟨U.guar_refl _, fails y _⟩
    | run x =>
      cases hx : E.exec s x (t.view c₁) with
      | error y =>
        rw [E.step_open_error ht hx]
        exact ⟨U.guar_refl _, fails y _⟩
      | ok rw =>
        obtain ⟨r, w⟩ := rw
        rw [E.step_open_ok ht hx]
        refine ⟨U.guar_refl _, ih (.ok r) (hr r) (by simp) (fun a c₂ t' hc₂ hcomp => ?_)
          (fun y c₂ t' hc₂ => herr y c₂ t' (U.rely_trans _ _ _ hrely hc₂))⟩
        cases hc₂
        exact hok a c₁ t' hc (.stmt ht ho hx hcomp)

/-- Publishing the working copy of a completed body. -/
theorem wp_commit {err : e → ε} {a : α} {p : Prog S R e ε β} {b : β}
    {Q : Except ε α → σ → Txn σ → Prop} {c : σ} {t : Txn σ}
    (hcomp : Completes E U.allow c p .begun b t)
    (hok : ∀ c₁, U.rely c c₁ → (∃ t', Completes E U.allow c₁ p .begun b t' ∧
      t'.view c₁ = t.view c₁) → U.guar c₁ (t.view c₁) ∧ Q (.ok a) (t.view c₁) .idle)
    (herr : ∀ y c₁ t', U.rely c c₁ → Q (.error y) c₁ t') :
    wp E U (Prog.commitWith err a) Q c t := by
  intro c₁ hc o ho
  have hrely := U.relyOn_rely hc
  cases o with
  | fail y => exact ⟨U.guar_refl _, herr _ _ _ hrely⟩
  | abort y => exact ⟨U.guar_refl _, herr _ _ _ hrely⟩
  | run x =>
    cases t with
    | idle => exact ⟨U.guar_refl _, herr _ _ _ hrely⟩
    | active w =>
      cases hc
      exact hok c (U.rely_refl c) ⟨_, hcomp, rfl⟩
    | begun =>
      -- no statement ran: the body completes from any committed state
      have hp : Completes E U.allow c₁ p .begun b .begun := by
        cases hcomp with
        | pure a t => exact .pure _ _
        | stmt _ _ _ hk => obtain ⟨w, hw⟩ := hk.active; cases hw
      exact hok c₁ hrely ⟨_, hp, rfl⟩

/-- A transaction is judged by its completed body. -/
theorem wp_transaction {beginErr commitErr : e → ε} {bodyErr : ε → ε} {body : Prog S R e ε α}
    (hs : body.Strict) {Q : Except ε α → σ → Txn σ → Prop} {c : σ} {t : Txn σ}
    (hok : ∀ c₁ a t', U.rely c c₁ → Completes E U.allow c₁ body .begun a t' →
      U.guar c₁ (t'.view c₁) ∧ Q (.ok a) (t'.view c₁) .idle)
    (herr : ∀ y c₁ t', U.rely c c₁ → Q (.error y) c₁ t') :
    wp E U (Prog.transaction beginErr commitErr bodyErr body) Q c t := by
  intro c₁ hc o ho
  have hrely := U.relyOn_rely hc
  have fails : ∀ y, Q (.error (beginErr y)) c₁ t ∧ Q (.error (beginErr y)) c₁ .idle :=
    fun y => ⟨herr _ _ _ hrely, herr _ _ _ hrely⟩
  cases o with
  | fail y => exact ⟨U.guar_refl _, (fails y).1⟩
  | abort y => exact ⟨U.guar_refl _, (fails y).2⟩
  | run x =>
    cases t with
    | begun | active w => exact ⟨U.guar_refl _, (fails E.nested).1⟩
    | idle =>
      refine ⟨U.guar_refl _, ?_⟩
      show wp E U (body.attempt >>= _) Q c₁ .begun
      rw [wp_bind, wp_attempt]
      refine wp_strict hs (by simp) (fun a c₂ t' hc₂ hcomp => ?_) (fun y c₂ t' hc₂ => ?_)
      · have h₂ : U.rely c c₂ := U.rely_trans _ _ _ hrely (U.relyOn_rely hc₂)
        refine wp_commit hcomp (fun c₃ hc₃ ⟨t₃, hcomp₃, hview⟩ => ?_)
          (fun y c₃ t₃ hc₃ => herr y c₃ t₃ (U.rely_trans _ _ _ h₂ hc₃))
        rw [← hview]
        exact hok c₃ a t₃ (U.rely_trans _ _ _ h₂ hc₃) hcomp₃
      · have h₂ : U.rely c c₂ := U.rely_trans _ _ _ hrely hc₂
        intro c₃ hc₃ o₃ ho₃
        have h₃ : U.rely c c₃ := U.rely_trans _ _ _ h₂ (U.relyOn_rely hc₃)
        -- the rollback, whatever its own outcome, publishes nothing
        have hstep : (E.step .rollback o₃ c₃ t').2.1 = c₃ := by
          cases o₃ <;> cases t' <;> rfl
        rw [hstep]
        exact ⟨U.guar_refl _, herr _ _ _ h₃⟩

/-- `BEGIN; ss; COMMIT` run as a batch: a failing statement leaves the
transaction open, and nothing is published. -/
theorem wp_batch_txn {err : e → ε} {ss : List S} {Q : Except ε Unit → σ → Txn σ → Prop} {c : σ}
    {t : Txn σ}
    (hok : ∀ c₁ t', U.rely c c₁ →
      Completes E U.allow c₁ (Prog.batch err (ss.map .stmt) : Prog S R e ε Unit) .begun () t' →
      U.guar c₁ (t'.view c₁) ∧ Q (.ok ()) (t'.view c₁) .idle)
    (herr : ∀ y c₁ t', U.rely c c₁ → Q (.error y) c₁ t') :
    wp E U (Prog.batch err (.begin :: (ss.map .stmt ++ [.commit]))) Q c t := by
  intro c₁ hc o ho
  have hrely := U.relyOn_rely hc
  cases o with
  | fail y => exact ⟨U.guar_refl _, herr _ _ _ hrely⟩
  | abort y => exact ⟨U.guar_refl _, herr _ _ _ hrely⟩
  | run x =>
    cases t with
    | begun | active w => exact ⟨U.guar_refl _, herr _ _ _ hrely⟩
    | idle =>
      refine ⟨U.guar_refl _, ?_⟩
      show wp E U (Prog.batch err (ss.map .stmt ++ [.commit])) Q c₁ .begun
      rw [Prog.batch_append, wp_bind]
      refine wp_strict (Prog.strict_batch err ss) (by simp) (fun u c₂ t' hc₂ hcomp => ?_)
        (fun y c₂ t' hc₂ => herr y c₂ t' (U.rely_trans _ _ _ hrely hc₂))
      have h₂ : U.rely c c₂ := U.rely_trans _ _ _ hrely (U.relyOn_rely hc₂)
      show wp E U (Prog.batch err [.commit]) Q c₂ t'
      rw [Prog.batch_commit]
      refine wp_commit hcomp (fun c₃ hc₃ ⟨t₃, hcomp₃, hview⟩ => ?_)
        (fun y c₃ t₃ hc₃ => herr y c₃ t₃ (U.rely_trans _ _ _ h₂ hc₃))
      rw [← hview]
      exact hok c₃ t₃ (U.rely_trans _ _ _ h₂ hc₃) hcomp₃

end Store
