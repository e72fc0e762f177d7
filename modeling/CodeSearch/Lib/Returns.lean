import CodeSearch.Lib.Crash

/-!
# Programs that must return

`Returns U B p c t P`: under the rules `U`, every change `p` makes keeps to
`U.guar`; if it returns `a` then `P a` holds of the committed state and the
transaction it leaves; and in the benign case `B` it does return.  One derivation
serves for both: what a run that returned has done, whatever failed, and that a
run without faults returns.

`P` is stated at the last state the connection saw; the next request finds a
state others may have moved on along `U.rely`.
-/

namespace Store

variable {S : Type} {R : S → Type} {e ε α β σ χ : Type}

/-- If `p` returns, then with `P`; in the benign case it does. -/
def Returns (E : Engine S R e σ χ) (U : Rules S e σ χ) (B : Prop) (p : Prog S R e ε α) (c : σ)
    (t : Txn σ) (P : α → σ → Txn σ → Prop) : Prop :=
  wp E U p (fun r c' t' => (∀ a, r = .ok a → P a c' t') ∧ (B → ∃ a, r = .ok a)) c t

section
variable {E : Engine S R e σ χ} {U : Rules S e σ χ} {B : Prop} {c : σ} {t : Txn σ}
  {P : α → σ → Txn σ → Prop} {P' : β → σ → Txn σ → Prop}

theorem returns_pure {a : α} (h : P a c t) :
    Returns E U B (.pure a : Prog S R e ε α) c t P :=
  ⟨fun _ ha => by cases ha; exact h, fun _ => ⟨a, rfl⟩⟩

theorem returns_throw {y : ε} (h : ¬ B) : Returns E U B (.throw y : Prog S R e ε α) c t P :=
  ⟨fun _ ha => (by cases ha), fun hB => absurd hB h⟩

theorem returns_mono {p : Prog S R e ε α} {P₂ : α → σ → Txn σ → Prop}
    (hP : ∀ a c t, P a c t → P₂ a c t) (h : Returns E U B p c t P) : Returns E U B p c t P₂ :=
  wp_mono (fun _ _ _ hq => ⟨fun a ha => hP _ _ _ (hq.1 a ha), hq.2⟩) h

theorem returns_bind {p : Prog S R e ε α} {f : α → Prog S R e ε β} (hp : Returns E U B p c t P)
    (hf : ∀ a c' t', P a c' t' → Returns E U B (f a) c' t' P') :
    Returns E U B (p >>= f) c t P' := by
  refine (wp_bind p f _ _ _).2 (wp_mono (fun r c' t' hq => ?_) hp)
  rcases r with y | a
  · refine ⟨fun b hb => (by cases hb), fun hB => ?_⟩
    obtain ⟨a, ha⟩ := hq.2 hB
    cases ha
  · exact hf a c' t' (hq.1 a rfl)

theorem returns_mapError {p : Prog S R e ε α} {g : ε → ε} (h : Returns E U B p c t P) :
    Returns E U B (p.mapError g) c t P := by
  refine (wp_mapError p g _ _ _).2 (wp_mono (fun r c' t' hq => ?_) h)
  rcases r with y | b
  · refine ⟨fun a ha => (by cases ha), fun hB => ?_⟩
    obtain ⟨a, ha⟩ := hq.2 hB
    cases ha
  · exact ⟨fun a ha => hq.1 a ha, fun _ => ⟨b, rfl⟩⟩

/-- A statement outside a transaction. -/
theorem returns_execute {err : e → ε} {s : S} {P : R s → σ → Txn σ → Prop}
    (hok : ∀ c₁ x r c₂, U.rely c c₁ → U.allow (.stmt s) (.run x) c₁ .idle →
      E.exec s x c₁ = .ok (r, c₂) → U.guar c₁ c₂ ∧ P r c₂ .idle)
    (hB : B → ∀ c₁, U.rely c c₁ → ∀ o, U.allow (.stmt s) o c₁ .idle →
      ∃ x, o = .run x ∧ ∃ r c₂, E.exec s x c₁ = .ok (r, c₂)) :
    Returns E U B (Prog.execute err s) c .idle P := by
  intro c₁ hc o ho
  cases o with
  | run x =>
    cases hx : E.exec s x c₁ with
    | ok rc =>
      obtain ⟨r, c₂⟩ := rc
      obtain ⟨hg, hP⟩ := hok c₁ x r c₂ hc ho hx
      simp only [Engine.step, hx]
      exact ⟨hg, fun a ha => by cases ha; exact hP, fun _ => ⟨r, rfl⟩⟩
    | error y =>
      simp only [Engine.step, hx]
      refine ⟨U.guar_refl _, fun a ha => (by cases ha), fun hb => ?_⟩
      obtain ⟨x', hx', r, c₂, hok⟩ := hB hb c₁ hc _ ho
      cases hx'
      rw [hx] at hok
      cases hok
  | fail y | abort y =>
    refine ⟨U.guar_refl _, fun a ha => (by cases ha), fun hb => ?_⟩
    obtain ⟨x, hx, -⟩ := hB hb c₁ hc _ ho
    cases hx

/-- A statement in an open transaction: nothing is committed. -/
theorem returns_execute_open {err : e → ε} {s : S} {P : R s → σ → Txn σ → Prop} (ht : t ≠ .idle)
    (hok : ∀ c₁ x r w, U.relyOn t c c₁ → U.allow (.stmt s) (.run x) c₁ t →
      E.exec s x (t.view c₁) = .ok (r, w) → P r c₁ (.active w))
    (hB : B → ∀ c₁, U.relyOn t c c₁ → ∀ o, U.allow (.stmt s) o c₁ t →
      ∃ x, o = .run x ∧ ∃ r w, E.exec s x (t.view c₁) = .ok (r, w)) :
    Returns E U B (Prog.execute err s) c t P := by
  intro c₁ hc o ho
  cases o with
  | run x =>
    cases hx : E.exec s x (t.view c₁) with
    | ok rw =>
      obtain ⟨r, w⟩ := rw
      rw [E.step_open_ok ht hx]
      have hP := hok c₁ x r w hc ho hx
      exact ⟨U.guar_refl _, fun a ha => by cases ha; exact hP, fun _ => ⟨r, rfl⟩⟩
    | error y =>
      rw [E.step_open_error ht hx]
      refine ⟨U.guar_refl _, fun a ha => (by cases ha), fun hb => ?_⟩
      obtain ⟨x', hx', r, w, hok⟩ := hB hb c₁ hc _ ho
      cases hx'
      rw [hx] at hok
      cases hok
  | fail y | abort y =>
    refine ⟨U.guar_refl _, fun a ha => (by cases ha), fun hb => ?_⟩
    obtain ⟨x, hx, -⟩ := hB hb c₁ hc _ ho
    cases hx

/-- A batch, one statement at a time. -/
theorem batch_stmt_cons (err : e → ε) (s : S) (qs : List (Req S)) :
    (Prog.batch err (.stmt s :: qs) : Prog S R e ε Unit) =
      Prog.execute err s >>= fun _ => Prog.batch err qs := by
  simp only [Prog.batch, Prog.execute, Prog.call_bind, Prog.call.injEq, heq_eq_eq, true_and]
  funext r
  cases r <;> rfl

/-- A batch that begins a transaction. -/
theorem returns_batch_begin {err : e → ε} {qs : List (Req S)} {P : Unit → σ → Txn σ → Prop}
    (h : ∀ c₁, U.rely c c₁ → Returns E U B (Prog.batch err qs) c₁ .begun P)
    (hB : B → ∀ c₁ o, U.allow .begin o c₁ .idle → ∃ x, o = .run x) :
    Returns E U B (Prog.batch err (.begin :: qs)) c .idle P := by
  intro c₁ hc o ho
  cases o with
  | run x => exact ⟨U.guar_refl _, h c₁ hc⟩
  | fail y | abort y =>
    refine ⟨U.guar_refl _, fun a ha => (by cases ha), fun hb => ?_⟩
    obtain ⟨x, hx⟩ := hB hb c₁ _ ho
    cases hx

/-- A batch that commits: the working copy is published. -/
theorem returns_batch_commit {err : e → ε} {w : σ} {P : Unit → σ → Txn σ → Prop}
    (hguar : U.guar c w) (hP : P () w .idle)
    (hB : B → ∀ o, U.allow .commit o c (.active w) → ∃ x, o = .run x) :
    Returns E U B (Prog.batch err [.commit]) c (.active w) P := by
  intro c₁ hc o ho
  cases hc
  cases o with
  | run x => exact ⟨hguar, fun a ha => by cases ha; exact hP, fun _ => ⟨(), rfl⟩⟩
  | fail y | abort y =>
    refine ⟨U.guar_refl _, fun a ha => (by cases ha), fun hb => ?_⟩
    obtain ⟨x, hx⟩ := hB hb _ ho
    cases hx

/-- `p`, whose error is handled by a rollback and thrown again. -/
theorem returns_attempt_rollback {p : Prog S R e ε α} {f : α → Prog S R e ε β}
    {p' : Prog S R e ε β} (hp' : p' = p.attempt >>= fun r => match r with
      | .ok a => f a
      | .error y => .call .rollback fun _ => .throw y)
    (hp : Returns E U B p c t P) (hf : ∀ a c' t', P a c' t' → Returns E U B (f a) c' t' P') :
    Returns E U B p' c t P' := by
  subst hp'
  refine (wp_bind _ _ _ _ _).2 ((wp_attempt _ _ _ _).2 (wp_mono (fun r c' t' hq => ?_) hp))
  rcases r with y | a
  · intro c₁ hc o ho
    have hstep : (E.step .rollback o c₁ t').2.1 = c₁ := by
      cases o <;> cases t' <;> rfl
    rw [hstep]
    refine ⟨U.guar_refl _, fun b hb => (by cases hb), fun hB => ?_⟩
    obtain ⟨a, ha⟩ := hq.2 hB
    cases ha
  · exact hf a c' t' (hq.1 a rfl)

/-- The answer of a run alone: what a run that returned did. -/
theorem returns_finishes {p : Prog S R e ε α} {r : Except ε α} {c' : σ}
    (h : Returns E U B p c .idle P) (hf : Finishes E U.allow p c r c') :
    (∀ a, r = .ok a → ∃ t', P a c' t') ∧ (B → ∃ a, r = .ok a) := by
  obtain ⟨t', hq⟩ := wp_finishes (U := U) h hf
  exact ⟨fun a ha => ⟨t', hq.1 a ha⟩, hq.2⟩

end

end Store
