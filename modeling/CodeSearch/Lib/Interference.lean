import CodeSearch.Lib.Run

/-!
# What a program secures while others commit

`Secures U P p Q`: the others commit within `U.rely`.  From a committed state with `P`, with no
transaction open, `p` commits within `U.guar`, and if it returns `a`, no transaction is open
and `Q a` holds.  Between two requests the others may act, so what is known there must be
`Stable`; a statement and a transaction then need to be judged at one state only.

If the programs of any number of connections secure their `Q`, and each guarantees what all
rely on, what a program secured when it returned stays true (`holds_after`).
-/

namespace Store

variable {S : Type} {R : S → Type} {e ε α β γ σ χ : Type}

/-- The others cannot break it. -/
def Stable (U : Rules S e σ χ) (P : σ → Prop) : Prop := ∀ c c', U.rely c c' → P c → P c'

def Secures (E : Engine S R e σ χ) (U : Rules S e σ χ) (P : σ → Prop) (p : Prog S R e ε α)
    (Q : α → σ → Prop) : Prop :=
  ∀ c, P c → wp E U p (fun r c' t => ∀ a, r = .ok a → t = .idle ∧ Q a c') c .idle

variable {E : Engine S R e σ χ} {U : Rules S e σ χ} {P : σ → Prop}

/-! ## Composition -/

theorem secures_pure {a : α} {Q : α → σ → Prop} (h : ∀ c, P c → Q a c) :
    Secures E U P (.pure a : Prog S R e ε α) Q := by
  rintro c hP _ ⟨⟩
  exact ⟨rfl, h c hP⟩

theorem secures_throw {y : ε} {Q : α → σ → Prop} :
    Secures E U P (.throw y : Prog S R e ε α) Q := by
  rintro c _ _ ⟨⟩

theorem secures_mono {P' : σ → Prop} {p : Prog S R e ε α} {Q Q' : α → σ → Prop}
    (hP : ∀ c, P' c → P c) (hQ : ∀ a c, Q a c → Q' a c) (h : Secures E U P p Q) :
    Secures E U P' p Q' := fun c hc =>
  wp_mono (fun _ c _ hq a ha => ⟨(hq a ha).1, hQ a c (hq a ha).2⟩) (h c (hP c hc))

theorem secures_bind {p : Prog S R e ε α} {f : α → Prog S R e ε β} {Q : α → σ → Prop}
    {Q' : β → σ → Prop} (hp : Secures E U P p Q) (hf : ∀ a, Secures E U (Q a) (f a) Q') :
    Secures E U P (p >>= f) Q' := by
  intro c hc
  refine (wp_bind p f _ _ _).2 (wp_mono (fun r c' t hq => ?_) (hp c hc))
  rcases r with y | a
  · rintro _ ⟨⟩
  · obtain ⟨rfl, ha⟩ := hq a rfl
    exact hf a c' ha

theorem secures_mapError {p : Prog S R e ε α} {g : ε → ε} {Q : α → σ → Prop}
    (h : Secures E U P p Q) : Secures E U P (p.mapError g) Q := by
  intro c hc
  refine (wp_mapError p g _ _ _).2 (wp_mono (fun r c' t hq a ha => ?_) (h c hc))
  rcases r with y | b
  · cases ha
  · exact hq a ha

/-- A loop: `I done` is what has been secured for the elements that are done. -/
theorem secures_foldlM (l : List γ) {f : β → γ → Prog S R e ε β} (I : List γ → σ → Prop)
    (hf : ∀ pre x post, l = pre ++ x :: post →
      ∀ b, Secures E U (I pre) (f b x) fun _ => I (pre ++ [x])) :
    ∀ b, Secures E U (I []) (l.foldlM f b) fun _ => I l := by
  suffices hrest : ∀ rest pre, l = pre ++ rest →
      ∀ b, Secures E U (I pre) (rest.foldlM f b) fun _ => I l from hrest l [] rfl
  intro rest
  induction rest with
  | nil =>
    intro pre hl b
    rw [List.append_nil] at hl
    exact secures_pure fun c hc => hl ▸ hc
  | cons x rest ih =>
    intro pre hl b
    refine secures_bind (hf pre x rest hl b) fun b' => ih (pre ++ [x]) ?_ b'
    rw [hl, List.append_assoc]
    rfl

theorem secures_forM (l : List γ) {f : γ → Prog S R e ε PUnit} (I : List γ → σ → Prop)
    (hf : ∀ pre x post, l = pre ++ x :: post → Secures E U (I pre) (f x) fun _ => I (pre ++ [x])) :
    Secures E U (I []) (l.forM f) fun _ => I l := by
  suffices hrest : ∀ rest pre, l = pre ++ rest →
      Secures E U (I pre) (rest.forM f) fun _ => I l from hrest l [] rfl
  intro rest
  induction rest with
  | nil =>
    intro pre hl
    rw [List.append_nil] at hl
    exact secures_pure fun c hc => hl ▸ hc
  | cons x rest ih =>
    intro pre hl
    refine secures_bind (hf pre x rest hl) fun _ => ih (pre ++ [x]) ?_
    rw [hl, List.append_assoc]
    rfl

/-! ## Statements and transactions -/

theorem secures_execute {err : e → ε} {s : S} {Q : R s → σ → Prop} (hP : Stable U P)
    (h : ∀ c x r c', P c → E.exec s x c = .ok (r, c') → U.guar c c' ∧ Q r c') :
    Secures E U P (Prog.execute err s : Prog S R e ε (R s)) Q := by
  intro c hc
  refine wp_execute_idle (fun c₁ x r c₂ hrely _ hx => ?_) fun y c₁ _ a ha => ?_
  · obtain ⟨hguar, hQ⟩ := h c₁ x r c₂ (hP c c₁ hrely hc) hx
    exact ⟨hguar, fun a ha => by cases ha; exact ⟨rfl, hQ⟩⟩
  · cases ha

/-- A statement whose error is a value. -/
theorem secures_attempt_execute {err : e → ε} {s : S} {Q : Except ε (R s) → σ → Prop}
    (hP : Stable U P)
    (h : ∀ c x r c', P c → E.exec s x c = .ok (r, c') → U.guar c c' ∧ Q (.ok r) c')
    (herr : ∀ c y, P c → Q (.error y) c) :
    Secures E U P (Prog.execute err s : Prog S R e ε (R s)).attempt Q := by
  intro c hc
  refine (wp_attempt _ _ _ _).2 (wp_execute_idle (fun c₁ x r c₂ hrely _ hx => ?_)
    fun y c₁ hrely a ha => ?_)
  · obtain ⟨hguar, hQ⟩ := h c₁ x r c₂ (hP c c₁ hrely hc) hx
    exact ⟨hguar, fun a ha => by cases ha; exact ⟨rfl, hQ⟩⟩
  · cases ha
    exact ⟨rfl, herr c₁ _ (hP c c₁ hrely hc)⟩

/-- A transaction is judged by what its completed body makes of one committed state. -/
theorem secures_transaction {beginErr commitErr : e → ε} {bodyErr : ε → ε} {body : Prog S R e ε α}
    {Q : α → σ → Prop} (hs : body.Strict) (hP : Stable U P)
    (h : ∀ c a t, P c → Completes E U.allow c body .begun a t →
      U.guar c (t.view c) ∧ Q a (t.view c)) :
    Secures E U P (Prog.transaction beginErr commitErr bodyErr body) Q := by
  intro c hc
  refine wp_transaction hs (fun c₁ a t hrely hcomp => ?_) fun y c₁ t _ a ha => ?_
  · obtain ⟨hguar, hQ⟩ := h c₁ a t (hP c c₁ hrely hc) hcomp
    exact ⟨hguar, fun b hb => by cases hb; exact ⟨rfl, hQ⟩⟩
  · cases ha

/-! ## Any number of connections -/

section
variable {L ι : Type} [DecidableEq ι] {I : σ → Prop} {Q : L → α → σ → Prop}
  {allow : Req S → Outcome χ e → σ → Txn σ → Prop}
  {starts : Client S R e ε α σ L → L → Prog S R e ε α → Prop}

/-- What a program secured when it returned holds from then on. -/
theorem holds_after (hrely : ∀ c c', U.guar c c' → U.rely c c')
    (hallow : ∀ q o c t, allow q o c t → U.allow q o c t)
    (hkeep : ∀ c c', I c → U.guar c c' → I c') (hstable : ∀ ℓ a, Stable U (Q ℓ a))
    (hstarts : ∀ cl ℓ p, starts cl ℓ p → cl.txn = .idle ∧ Secures E U I p (Q ℓ))
    {s₀ s s' : Pool S R e ε α σ L ι} (hI : I s₀.db) (hidle : ∀ i, s₀.client i = ⟨none, .idle⟩)
    (h : Pool.Reachable E allow starts s₀ s) {i : ι} {ℓ : L} {a : α}
    (hreturned : (s.client i).job = some (ℓ, .pure a))
    (h' : Pool.Reachable E allow starts s s') : I s'.db ∧ Q ℓ a s'.db := by
  have H : Pool.Composes E (fun _ : L => U)
      (fun ℓ r c t => ∀ a, r = .ok a → t = .idle ∧ Q ℓ a c) I allow starts :=
    { guar_rely := fun _ _ c c' hg => hrely c c' hg
      guar_inv := fun _ c c' hc hg => hkeep c c' hc hg
      stable := fun ℓ r c c' t hrel hq a ha => by
        obtain ⟨rfl, hQ⟩ := hq a ha
        exact ⟨rfl, hstable ℓ a c c' hrel hQ⟩
      allowed := fun _ q o c t ho => hallow q o c t ho
      started := fun d cl ℓ p hd _ hst => by
        obtain ⟨htxn, hsecures⟩ := hstarts cl ℓ p hst
        rw [htxn]
        exact hsecures d hd }
  have h₀ : Pool.Safe E (fun _ : L => U) (fun ℓ r c t => ∀ a, r = .ok a → t = .idle ∧ Q ℓ a c) I s₀ :=
    { inv := hI
      lock := fun i j hi _ => by rw [hidle i] at hi; exact hi.elim
      jobs := fun i ℓ p hj => by rw [hidle i] at hj; cases hj }
  have hs := Pool.safe_reachable H h₀ h
  suffices hboth : Pool.Safe E (fun _ : L => U)
      (fun ℓ r c t => ∀ a, r = .ok a → t = .idle ∧ Q ℓ a c) I s' ∧ Q ℓ a s'.db from
    ⟨hboth.1.inv, hboth.2⟩
  induction h' with
  | refl =>
    have hjob : ∀ b, Except.ok a = (Except.ok b : Except ε α) → (s.client i).txn = .idle ∧ Q ℓ b s.db :=
      hs.jobs i ℓ _ hreturned
    exact ⟨hs, (hjob a rfl).2⟩
  | tail _ hstep ih =>
    obtain ⟨hsafe, hQ⟩ := ih
    obtain ⟨hsafe', hdb⟩ := Pool.safe_step H hsafe hstep
    refine ⟨hsafe', ?_⟩
    rcases hdb with hdb | ⟨j, ℓ', p, -, -, hguar⟩
    · rw [hdb]
      exact hQ
    · exact hstable ℓ a _ _ (hrely _ _ hguar) hQ

end

end Store
