import CodeSearch.Lib.Invariant

/-!
# Runs without faults

`Progress c p t`: run inside the open transaction `t` over committed state `c`,
with whatever the store chooses but no fault, `p` meets no failing statement and
throws nothing.  A transaction whose body progresses commits when no request
fails (`solo_transaction_progress`), and so a program made of such pieces
returns: its `wp` under `noFault` gives a run that ends in a value
(`finishes_of_wp`).
-/

namespace Store

variable {S : Type} {R : S → Type} {e ε α β γ σ χ : Type}

/-- No request fails by itself. -/
def noFault : Req S → Outcome χ e → σ → Txn σ → Prop := fun _ o _ _ => ∃ x, o = .run x

variable (E : Engine S R e σ χ) (c : σ)

/-- Every statement succeeds, whatever the store chooses, and nothing is thrown. -/
def Progress : Prog S R e ε α → Txn σ → Prop
  | .pure _, _ => True
  | .throw _, _ => False
  | .call (.stmt s) k, t => ∀ x : χ, ∃ r w, E.exec s x (t.view c) = .ok (r, w) ∧
      Progress (k (.ok r)) (.active w)
  | .call _ _, _ => False

variable {E c}

theorem progress_execute {err : e → ε} {s : S} {t : Txn σ}
    (h : ∀ x, ∃ r w, E.exec s x (t.view c) = .ok (r, w)) :
    Progress E c (Prog.execute err s : Prog S R e ε (R s)) t := by
  intro x
  obtain ⟨r, w, hx⟩ := h x
  exact ⟨r, w, hx, trivial⟩

theorem progress_bind {p : Prog S R e ε α} {f : α → Prog S R e ε β} {t : Txn σ} (ht : t ≠ .idle)
    (hp : Progress E c p t)
    (hf : ∀ a t', t' ≠ .idle → Completes E noFault c p t a t' → Progress E c (f a) t') :
    Progress E c (p >>= f) t := by
  induction p generalizing t with
  | pure a => exact hf a t ht (.pure a t)
  | throw y => exact hp.elim
  | call q k ih =>
    cases q with
    | stmt s =>
      intro x
      obtain ⟨r, w, hx, hk⟩ := hp x
      exact ⟨r, w, hx, ih (.ok r) (by simp) hk fun a t' ht' hc =>
        hf a t' ht' (.stmt ht ⟨x, rfl⟩ hx hc)⟩
    | _ => exact hp.elim

theorem progress_mapError {p : Prog S R e ε α} {g : ε → ε} {t : Txn σ} (h : Progress E c p t) :
    Progress E c (p.mapError g) t := by
  induction p generalizing t with
  | pure a => trivial
  | throw y => exact h.elim
  | call q k ih =>
    cases q with
    | stmt s =>
      intro x
      obtain ⟨r, w, hx, hk⟩ := h x
      exact ⟨r, w, hx, ih (.ok r) hk⟩
    | _ => exact h.elim

/-- Each round of a loop progresses from where the rounds before it lead. -/
theorem progress_forM (l : List γ) {f : γ → Prog S R e ε PUnit} (I : List γ → Txn σ → Prop)
    (hf : ∀ x l t, t ≠ .idle → I (x :: l) t → Progress E c (f x) t ∧
      ∀ a t', Completes E noFault c (f x) t a t' → I l t') {t : Txn σ} (ht : t ≠ .idle)
    (hI : I l t) : Progress E c (l.forM f) t := by
  induction l generalizing t with
  | nil => trivial
  | cons x l ih =>
    obtain ⟨hp, hnext⟩ := hf x l t ht hI
    exact progress_bind ht hp fun a t' ht' hc => ih ht' (hnext a t' hc)

/-- A body that progresses, in an open transaction. -/
theorem wp_progress {p : Prog S R e ε α} {Q : Except ε α → σ → Txn σ → Prop} {t : Txn σ}
    (ht : t ≠ .idle) (hp : Progress E c p t)
    (hQ : ∀ a t', t' ≠ .idle → Completes E noFault c p t a t' → Q (.ok a) c t') :
    wp E (soloRules noFault) p Q c t := by
  induction p generalizing t with
  | pure a => exact hQ a t ht (.pure a t)
  | throw y => exact hp.elim
  | call q k ih =>
    cases q with
    | stmt s =>
      intro c₁ hc o ho
      obtain ⟨x, rfl⟩ := ho
      have hc : c₁ = c := by
        cases t with
        | active w => exact hc
        | _ => exact hc
      subst hc
      obtain ⟨r, w, hx, hk⟩ := hp x
      rw [E.step_open_ok ht hx]
      exact ⟨trivial, ih (.ok r) (by simp) hk fun a t' ht' hcomp =>
        hQ a t' ht' (.stmt ht ⟨x, rfl⟩ hx hcomp)⟩
    | _ => exact hp.elim

/-- Committing an open transaction. -/
theorem solo_commitWith {err : e → ε} {a : α} {Q : Except ε α → σ → Txn σ → Prop} {t : Txn σ}
    (ht : t ≠ .idle) (hQ : Q (.ok a) (t.view c) .idle) :
    wp E (soloRules noFault) (Prog.commitWith err a) Q c t := by
  intro c₁ hc o ho
  have hc : c₁ = c := by
    cases t with
    | active w => exact hc
    | _ => exact hc
  subst hc
  obtain ⟨x, rfl⟩ := ho
  have hstep : E.step (R := R) .commit (.run x) c₁ t = (.ok (), t.view c₁, .idle) := by
    cases t with
    | idle => exact absurd rfl ht
    | _ => rfl
  rw [hstep]
  exact ⟨trivial, hQ⟩

/-- A transaction whose body progresses commits. -/
theorem solo_transaction_progress {beginErr commitErr : e → ε} {bodyErr : ε → ε}
    {body : Prog S R e ε α} {Q : Except ε α → σ → Txn σ → Prop}
    (hp : Progress E c body .begun)
    (hQ : ∀ a t', Completes E noFault c body .begun a t' → Q (.ok a) (t'.view c) .idle) :
    wp E (soloRules noFault) (Prog.transaction beginErr commitErr bodyErr body) Q c .idle := by
  intro c₁ hc o ho
  cases hc
  obtain ⟨x, rfl⟩ := ho
  refine ⟨trivial, ?_⟩
  show wp E _ (body.attempt >>= _) Q c .begun
  rw [wp_bind, wp_attempt]
  exact wp_progress (by simp) hp fun a t' ht' hcomp => solo_commitWith ht' (hQ a t' hcomp)

/-- A statement that cannot fail, outside a transaction. -/
theorem solo_execute_progress {err : e → ε} {s : S} {Q : Except ε (R s) → σ → Txn σ → Prop}
    (h : ∀ x, ∃ r c', E.exec s x c = .ok (r, c') ∧ Q (.ok r) c' .idle) :
    wp E (soloRules noFault) (Prog.execute err s) Q c .idle := by
  intro c₁ hc o ho
  cases hc
  obtain ⟨x, rfl⟩ := ho
  obtain ⟨r, c', hx, hQ⟩ := h x
  simp only [Engine.step, hx]
  exact ⟨trivial, hQ⟩

/-- A `BEGIN; ...; COMMIT` batch whose statements progress commits. -/
theorem solo_batch_txn_progress {err : e → ε} {ss : List S}
    {Q : Except ε Unit → σ → Txn σ → Prop}
    (hp : Progress E c (Prog.batch err (ss.map .stmt) : Prog S R e ε Unit) .begun)
    (hQ : ∀ t', Completes E noFault c (Prog.batch err (ss.map .stmt) : Prog S R e ε Unit)
      .begun () t' → Q (.ok ()) (t'.view c) .idle) :
    wp E (soloRules noFault) (Prog.batch err (.begin :: (ss.map .stmt ++ [.commit]))) Q c .idle := by
  intro c₁ hc o ho
  cases hc
  obtain ⟨x, rfl⟩ := ho
  refine ⟨trivial, ?_⟩
  show wp E _ (Prog.batch err (ss.map .stmt ++ [.commit])) Q c .begun
  rw [Prog.batch_append, wp_bind]
  refine wp_progress (by simp) hp fun u t' ht' hcomp => ?_
  show wp E _ (Prog.batch err [.commit]) Q c t'
  rw [Prog.batch_commit]
  exact solo_commitWith ht' (hQ t' hcomp)

/-- A program whose `wp` without faults promises a value has a run that ends in one. -/
theorem finishes_of_wp [Nonempty χ] {p : Prog S R e ε α} {P : α → σ → Prop}
    (h : wp E (soloRules noFault) p (fun r c' _ => ∃ a, r = .ok a ∧ P a c') c .idle) :
    ∃ a c', Finishes E noFault p c (.ok a) c' ∧ P a c' := by
  obtain ⟨x⟩ := ‹Nonempty χ›
  obtain ⟨p', c', t', r, hrun, hr⟩ := run_total (E := E) (fun _ _ _ => .run x)
    (show ∀ q c t, noFault q (.run x) c t from fun _ _ _ => ⟨x, rfl⟩) p c .idle
  obtain ⟨t'', a, ha, hP⟩ := wp_finishes (U := soloRules noFault) h ⟨p', t', hrun, hr⟩
  exact ⟨a, c', ⟨p', t', hrun, by rw [hr, ha]⟩, hP⟩

end Store
