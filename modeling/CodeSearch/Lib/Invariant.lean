import CodeSearch.Lib.Run

/-!
# Invariants of the committed state

`Keeps I p`: whatever the other connections commit, and however the requests of
`p` end, every change `p` makes to the committed state keeps `I`.  It is closed
under sequencing and loops, a statement keeps `I` when its effect does, and a
transaction when its completed body does, so a program is checked piece by
piece.

    Keeps I p → Crash p c c' → I c → I c'                      (keeps_crash)
    every job Keeps I → Reachable s s' → I s.db → I s'.db      (keeps_reachable)
-/

namespace Store

variable {S : Type} {R : S → Type} {e ε α β σ χ : Type}

/-- Anybody may commit anything; this connection keeps `I`. -/
def keepRules (allow : Req S → Outcome χ e → σ → Txn σ → Prop) (I : σ → Prop) :
    Rules S e σ χ where
  rely _ _ := True
  guar c c' := I c → I c'
  allow := allow
  rely_refl _ := trivial
  rely_trans _ _ _ _ _ := trivial
  guar_refl _ h := h

variable (E : Engine S R e σ χ) (allow : Req S → Outcome χ e → σ → Txn σ → Prop) (I : σ → Prop)

/-- Every change the program makes to the committed state keeps `I`. -/
def Keeps (p : Prog S R e ε α) : Prop :=
  ∀ c t, wp E (keepRules allow I) p (fun _ _ _ => True) c t

variable {E allow I}

/-! ## Composition -/

theorem keeps_pure (a : α) : Keeps E allow I (.pure a : Prog S R e ε α) := fun _ _ => trivial

theorem keeps_throw (y : ε) : Keeps E allow I (.throw y : Prog S R e ε α) := fun _ _ => trivial

theorem keeps_bind {p : Prog S R e ε α} {f : α → Prog S R e ε β} (hp : Keeps E allow I p)
    (hf : ∀ a, Keeps E allow I (f a)) : Keeps E allow I (p >>= f) := by
  intro c t
  rw [wp_bind]
  refine wp_mono (fun r c' t' _ => ?_) (hp c t)
  rcases r with y | a
  · trivial
  · exact hf a c' t'

theorem keeps_mapError {p : Prog S R e ε α} (g : ε → ε) (hp : Keeps E allow I p) :
    Keeps E allow I (p.mapError g) := by
  intro c t
  rw [wp_mapError]
  exact hp c t

theorem keeps_attempt {p : Prog S R e ε α} (hp : Keeps E allow I p) :
    Keeps E allow I p.attempt := by
  intro c t
  rw [wp_attempt]
  exact hp c t

theorem keeps_forM {γ : Type} (l : List γ) {f : γ → Prog S R e ε PUnit}
    (hf : ∀ x ∈ l, Keeps E allow I (f x)) : Keeps E allow I (l.forM f) := by
  induction l with
  | nil => exact keeps_pure _
  | cons x l ih =>
    exact keeps_bind (hf x List.mem_cons_self)
      fun _ => ih fun y hy => hf y (List.mem_cons_of_mem _ hy)

theorem keeps_foldlM {γ : Type} (l : List γ) {f : β → γ → Prog S R e ε β}
    (hf : ∀ x ∈ l, ∀ b, Keeps E allow I (f b x)) : ∀ b, Keeps E allow I (l.foldlM f b) := by
  induction l with
  | nil => exact fun b => keeps_pure b
  | cons x l ih =>
    exact fun b => keeps_bind (hf x List.mem_cons_self b)
      fun b' => ih (fun y hy => hf y (List.mem_cons_of_mem _ hy)) b'

/-! ## Statements and transactions -/

/-- A statement keeps `I` when its effect outside a transaction does. -/
theorem keeps_execute {err : e → ε} {s : S}
    (h : ∀ c x r c', allow (.stmt s) (.run x) c .idle → E.exec s x c = .ok (r, c') → I c → I c') :
    Keeps E allow I (Prog.execute err s : Prog S R e ε (R s)) := by
  intro c t c₁ _ o ho
  refine ⟨?_, ?_⟩
  · cases t with
    | idle =>
      cases o with
      | run x =>
        simp only [Engine.step]
        split
        · next r c' hx => exact h c₁ x r c' ho hx
        · exact fun hI => hI
      | _ => exact fun hI => hI
    | _ =>
      cases o with
      | run x => simp only [Engine.step]; split <;> exact fun hI => hI
      | _ => exact fun hI => hI
  · generalize (E.step (.stmt s) o c₁ t).1 = r
    cases r <;> trivial

/-- A transaction keeps `I` when its completed body does. -/
theorem keeps_transaction {beginErr commitErr : e → ε} {bodyErr : ε → ε} {body : Prog S R e ε α}
    (hs : body.Strict)
    (h : ∀ c a t, Completes E allow c body .begun a t → I c → I (t.view c)) :
    Keeps E allow I (Prog.transaction beginErr commitErr bodyErr body) := fun _ _ =>
  wp_transaction hs (fun c₁ a t' _ hc => ⟨h c₁ a t' hc, trivial⟩) fun _ _ _ _ => trivial

theorem keeps_batch_txn {err : e → ε} {ss : List S}
    (h : ∀ c t, Completes E allow c (Prog.batch err (ss.map .stmt) : Prog S R e ε Unit) .begun () t →
      I c → I (t.view c)) :
    Keeps E allow I (Prog.batch err (.begin :: (ss.map .stmt ++ [.commit]))) := fun _ _ =>
  wp_batch_txn (fun c₁ t' _ hc => ⟨h c₁ t' hc, trivial⟩) fun _ _ _ _ => trivial

/-! ## What it gives -/

/-- The committed state of a run that was cut short anywhere. -/
theorem keeps_run {p p' : Prog S R e ε α} {c c' : σ} {t t' : Txn σ} (h : Keeps E allow I p)
    (hr : Run E allow p c t p' c' t') (hI : I c) : I c' := by
  have hg := (wp_run (U := keepRules allow I) (h c t) hr).2
  clear hr
  induction hg with
  | refl => exact hI
  | tail _ hstep ih => exact hstep ih

theorem keeps_crash {p : Prog S R e ε α} {c c' : σ} (h : Keeps E allow I p)
    (hc : Crash E allow p c c') (hI : I c) : I c' := by
  obtain ⟨p', t', hr⟩ := hc
  exact keeps_run h hr hI

theorem keeps_finishes {p : Prog S R e ε α} {c c' : σ} {r : Except ε α} (h : Keeps E allow I p)
    (hf : Finishes E allow p c r c') (hI : I c) : I c' := keeps_crash h hf.crash hI

/-- Any number of connections, each running programs that keep `I`. -/
theorem keeps_reachable {L ι : Type} [DecidableEq ι]
    {starts : Client S R e ε α σ L → L → Prog S R e ε α → Prop}
    (hstarts : ∀ cl ℓ p, starts cl ℓ p → Keeps E allow I p) {s s' : Pool S R e ε α σ L ι}
    (hI : I s.db) (hidle : ∀ i, s.client i = ⟨none, .idle⟩)
    (h : Pool.Reachable E allow starts s s') : I s'.db := by
  have H : Pool.Composes E (fun _ : L => keepRules allow I) (fun _ _ _ _ => True) I allow
      starts :=
    { guar_rely := fun _ _ _ _ _ => trivial
      guar_inv := fun _ _ _ hc hg => hg hc
      stable := fun _ _ _ _ _ _ _ => trivial
      allowed := fun _ _ _ _ _ ho => ho
      started := fun d cl ℓ p _ _ hst => hstarts cl ℓ p hst d cl.txn }
  have h0 : Pool.Safe E (fun _ : L => keepRules allow I) (fun _ _ _ _ => True) I s :=
    { inv := hI
      lock := fun i j hi _ => by rw [hidle i] at hi; exact hi.elim
      jobs := fun i ℓ p hj => by rw [hidle i] at hj; cases hj }
  exact (Pool.safe_reachable H h0 h).inv

/-! ## One connection alone -/

/-- Nobody else commits; no obligation on what this connection commits. -/
def soloRules (allow : Req S → Outcome χ e → σ → Txn σ → Prop) : Rules S e σ χ where
  rely c c' := c' = c
  guar _ _ := True
  allow := allow
  rely_refl _ := rfl
  rely_trans _ _ _ h h' := h'.trans h
  guar_refl _ := trivial

/-- A statement outside a transaction, alone. -/
theorem solo_execute {err : e → ε} {s : S} {Q : Except ε (R s) → σ → Txn σ → Prop} {c : σ}
    (hok : ∀ x r c', allow (.stmt s) (.run x) c .idle → E.exec s x c = .ok (r, c') →
      Q (.ok r) c' .idle)
    (herr : ∀ y, Q (.error (err y)) c .idle) :
    wp E (soloRules allow) (Prog.execute err s) Q c .idle := by
  refine wp_execute_idle (fun c₁ x r c₂ hc ho hx => ⟨trivial, ?_⟩) (fun y c₁ hc => ?_)
  · cases hc; exact hok x r c₂ ho hx
  · cases hc; exact herr y

/-- A transaction, alone: its completed body, or nothing. -/
theorem solo_transaction {beginErr commitErr : e → ε} {bodyErr : ε → ε} {body : Prog S R e ε α}
    (hs : body.Strict) {Q : Except ε α → σ → Txn σ → Prop} {c : σ} {t : Txn σ}
    (hok : ∀ a t', Completes E allow c body .begun a t' → Q (.ok a) (t'.view c) .idle)
    (herr : ∀ y t', Q (.error y) c t') :
    wp E (soloRules allow) (Prog.transaction beginErr commitErr bodyErr body) Q c t := by
  refine wp_transaction hs (fun c₁ a t' hc hcomp => ⟨trivial, ?_⟩) (fun y c₁ t' hc => ?_)
  · cases hc; exact hok a t' hcomp
  · cases hc; exact herr y t'

/-- A `BEGIN; ...; COMMIT` batch, alone. -/
theorem solo_batch_txn {err : e → ε} {ss : List S} {Q : Except ε Unit → σ → Txn σ → Prop} {c : σ}
    {t : Txn σ}
    (hok : ∀ t', Completes E allow c (Prog.batch err (ss.map .stmt) : Prog S R e ε Unit)
      .begun () t' → Q (.ok ()) (t'.view c) .idle)
    (herr : ∀ y t', Q (.error y) c t') :
    wp E (soloRules allow) (Prog.batch err (.begin :: (ss.map .stmt ++ [.commit]))) Q c t := by
  refine wp_batch_txn (fun c₁ t' hc hcomp => ⟨trivial, ?_⟩) (fun y c₁ t' hc => ?_)
  · cases hc; exact hok t' hcomp
  · cases hc; exact herr y t'

end Store
