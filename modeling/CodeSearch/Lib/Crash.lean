import CodeSearch.Lib.Invariant

/-!
# What a killed program leaves

`Guards I p c P`: run alone from the committed state `c`, with no transaction
open, every state `p` commits has `I`, and if `p` returns `a`, no transaction is
open and the committed state has `P a`.  `I` is the crash condition: it is the
same for all of a program, while `P` passes facts from one part to the next.

    Guards I p c P → Crash p c c' → c' = c ∨ I c'              (guards_crash)
    Guards I p c P → Finishes p c (.ok a) c' → P a c'          (guards_finishes)

`p.Only φ` says which statements a program issues at all; what each of them does
to the database, a whole program does (`wp_only`, `completes_only`).
-/

namespace Store

variable {S : Type} {R : S → Type} {e ε α β σ χ : Type}

/-! ## One connection and its crash condition -/

/-- Nobody else commits, and every state this connection commits has `I`. -/
def crashRules (allow : Req S → Outcome χ e → σ → Txn σ → Prop) (I : σ → Prop) :
    Rules S e σ χ where
  rely c c' := c' = c
  guar c c' := c' = c ∨ I c'
  allow := allow
  rely_refl _ := rfl
  rely_trans _ _ _ h h' := h'.trans h
  guar_refl _ := .inl rfl

variable (E : Engine S R e σ χ) (allow : Req S → Outcome χ e → σ → Txn σ → Prop) (I : σ → Prop)

def Guards (p : Prog S R e ε α) (c : σ) (P : α → σ → Prop) : Prop :=
  wp E (crashRules allow I) p (fun r c' t => ∀ a, r = .ok a → t = .idle ∧ P a c') c .idle

variable {E allow I} {c c' : σ} {P : α → σ → Prop} {P' : β → σ → Prop}

theorem guards_pure {a : α} (h : P a c) : Guards E allow I (.pure a : Prog S R e ε α) c P := by
  rintro _ ⟨⟩
  exact ⟨rfl, h⟩

theorem guards_throw {y : ε} : Guards E allow I (.throw y : Prog S R e ε α) c P := by
  rintro _ ⟨⟩

theorem guards_mono {p : Prog S R e ε α} {P₂ : α → σ → Prop} (hP : ∀ a c, P a c → P₂ a c)
    (h : Guards E allow I p c P) : Guards E allow I p c P₂ :=
  wp_mono (fun _ c _ hq a ha => ⟨(hq a ha).1, hP a c (hq a ha).2⟩) h

/-- A weaker crash condition. -/
theorem guards_weaken {I' : σ → Prop} (hI : ∀ c, I c → I' c) {p : Prog S R e ε α}
    (h : Guards E allow I p c P) : Guards E allow I' p c P := by
  have hguar : ∀ a b, (crashRules allow I).guar a b → (crashRules allow I').guar a b :=
    fun a b hg => hg.imp_right (hI b)
  show wp E (crashRules allow I') p _ c .idle
  refine wp_weaken (U := crashRules allow I) ?_ hguar ?_ h
  · exact fun _ _ _ hc => hc
  · exact fun _ _ _ _ ho => ho

/-- After a guarded part, where only a returned value counts. -/
theorem wp_guards_bind {p : Prog S R e ε α} {f : α → Prog S R e ε β} {Q : β → σ → Txn σ → Prop}
    (hp : Guards E allow I p c P) (hf : ∀ a c', P a c' →
      wp E (crashRules allow I) (f a) (fun r c' t => ∀ b, r = .ok b → Q b c' t) c' .idle) :
    wp E (crashRules allow I) (p >>= f) (fun r c' t => ∀ b, r = .ok b → Q b c' t) c .idle := by
  refine (wp_bind p f _ _ _).2 (wp_mono (fun r c t hq => ?_) hp)
  rcases r with y | a
  · rintro _ ⟨⟩
  · obtain ⟨rfl, ha⟩ := hq a rfl
    exact hf a c ha

theorem guards_bind {p : Prog S R e ε α} {f : α → Prog S R e ε β} (hp : Guards E allow I p c P)
    (hf : ∀ a c', P a c' → Guards E allow I (f a) c' P') : Guards E allow I (p >>= f) c P' :=
  wp_guards_bind hp hf

theorem guards_mapError {p : Prog S R e ε α} {g : ε → ε} (h : Guards E allow I p c P) :
    Guards E allow I (p.mapError g) c P := by
  refine (wp_mapError p g _ _ _).2 (wp_mono (fun r c t hq a ha => ?_) h)
  rcases r with y | b
  · cases ha
  · exact hq a ha

/-- A statement: what it commits, and what it answers. -/
theorem guards_execute {err : e → ε} {s : S} {P : R s → σ → Prop}
    (h : ∀ x r c', allow (.stmt s) (.run x) c .idle → E.exec s x c = .ok (r, c') →
      (c' = c ∨ I c') ∧ P r c') : Guards E allow I (Prog.execute err s) c P := by
  refine wp_execute_idle (fun c₁ x r c₂ hc ho hx => ?_) (fun y c₁ hc a ha => ?_)
  · cases hc
    obtain ⟨hI, hP⟩ := h x r c₂ ho hx
    exact ⟨hI, fun a ha => by cases ha; exact ⟨rfl, hP⟩⟩
  · cases ha

/-- A transaction commits the working copy of its completed body. -/
theorem guards_transaction {beginErr commitErr : e → ε} {bodyErr : ε → ε} {body : Prog S R e ε α}
    (hs : body.Strict) (h : ∀ a t, Completes E allow c body .begun a t →
      (t.view c = c ∨ I (t.view c)) ∧ P a (t.view c)) :
    Guards E allow I (Prog.transaction beginErr commitErr bodyErr body) c P := by
  refine wp_transaction hs (fun c₁ a t hc hcomp => ?_) (fun y c₁ t hc a ha => ?_)
  · cases hc
    obtain ⟨hI, hP⟩ := h a t hcomp
    exact ⟨hI, fun b hb => by cases hb; exact ⟨rfl, hP⟩⟩
  · cases ha

theorem guards_batch_txn {err : e → ε} {ss : List S} {P : Unit → σ → Prop}
    (h : ∀ t, Completes E allow c (Prog.batch err (ss.map .stmt) : Prog S R e ε Unit) .begun () t →
      (t.view c = c ∨ I (t.view c)) ∧ P () (t.view c)) :
    Guards E allow I (Prog.batch err (.begin :: (ss.map .stmt ++ [.commit]))) c P := by
  refine wp_batch_txn (fun c₁ t hc hcomp => ?_) (fun y c₁ t hc a ha => ?_)
  · cases hc
    obtain ⟨hI, hP⟩ := h t hcomp
    exact ⟨hI, fun b hb => by cases hb; exact ⟨rfl, hP⟩⟩
  · cases ha

/-- Every committed state of a run that was cut short anywhere. -/
theorem crash_of_wp {p : Prog S R e ε α} {Q : Except ε α → σ → Txn σ → Prop}
    (h : wp E (crashRules allow I) p Q c .idle) (hc : Crash E allow p c c') : c' = c ∨ I c' := by
  have hg := wp_crash (U := crashRules allow I) h hc
  clear hc
  induction hg with
  | refl => exact .inl rfl
  | tail _ hstep ih =>
    rcases hstep with rfl | hI
    · exact ih
    · exact .inr hI

theorem guards_crash {p : Prog S R e ε α} (h : Guards E allow I p c P)
    (hc : Crash E allow p c c') : c' = c ∨ I c' := crash_of_wp h hc

theorem guards_finishes {p : Prog S R e ε α} {a : α} (h : Guards E allow I p c P)
    (hf : Finishes E allow p c (.ok a) c') : P a c' := by
  obtain ⟨t, hq⟩ := wp_finishes (U := crashRules allow I) h hf
  exact (hq a rfl).2

/-! ## The statements of a program -/

/-- Every statement the program may issue satisfies `φ`. -/
def Prog.Only (φ : S → Prop) : Prog S R e ε α → Prop
  | .pure _ => True
  | .throw _ => True
  | .call q k => (∀ s, q = .stmt s → φ s) ∧ ∀ r, (k r).Only φ

section
variable {φ : S → Prop}

theorem only_execute {err : e → ε} {s : S} (h : φ s) :
    (Prog.execute err s : Prog S R e ε (R s)).Only φ :=
  ⟨fun _ hs => by cases hs; exact h, fun r => by cases r <;> trivial⟩

theorem only_bind {p : Prog S R e ε α} {f : α → Prog S R e ε β} (hp : p.Only φ)
    (hf : ∀ a, (f a).Only φ) : (p >>= f).Only φ := by
  induction p with
  | pure a => exact hf a
  | throw y => trivial
  | call q k ih => exact ⟨hp.1, fun r => ih r (hp.2 r)⟩

theorem only_mapError {p : Prog S R e ε α} {g : ε → ε} (hp : p.Only φ) : (p.mapError g).Only φ := by
  induction p with
  | pure a => trivial
  | throw y => trivial
  | call q k ih => exact ⟨hp.1, fun r => ih r (hp.2 r)⟩

theorem only_attempt {p : Prog S R e ε α} (hp : p.Only φ) : p.attempt.Only φ := by
  induction p with
  | pure a => trivial
  | throw y => trivial
  | call q k ih => exact ⟨hp.1, fun r => ih r (hp.2 r)⟩

theorem only_forM {γ : Type} (l : List γ) {f : γ → Prog S R e ε PUnit}
    (hf : ∀ x ∈ l, (f x).Only φ) : (l.forM f).Only φ := by
  induction l with
  | nil => trivial
  | cons x l ih =>
    exact only_bind (hf x List.mem_cons_self) fun _ => ih fun y hy => hf y (List.mem_cons_of_mem _ hy)

theorem only_foldlM {γ : Type} (l : List γ) {f : β → γ → Prog S R e ε β}
    (hf : ∀ x ∈ l, ∀ b, (f b x).Only φ) : ∀ b, (l.foldlM f b).Only φ := by
  induction l with
  | nil => exact fun _ => trivial
  | cons x l ih =>
    exact fun b => only_bind (hf x List.mem_cons_self b)
      fun b' => ih (fun y hy => hf y (List.mem_cons_of_mem _ hy)) b'

theorem only_batch {err : e → ε} (qs : List (Req S)) (h : ∀ s, .stmt s ∈ qs → φ s) :
    (Prog.batch err qs : Prog S R e ε Unit).Only φ := by
  induction qs with
  | nil => trivial
  | cons q qs ih =>
    refine ⟨fun s hs => h s (by simp [hs]), fun r => ?_⟩
    cases r with
    | ok a => exact ih fun s hs => h s (List.mem_cons_of_mem _ hs)
    | error y => trivial

theorem only_transaction {beginErr commitErr : e → ε} {bodyErr : ε → ε} {body : Prog S R e ε α}
    (h : body.Only φ) : (Prog.transaction beginErr commitErr bodyErr body).Only φ := by
  refine ⟨fun s hs => (by cases hs), fun r => ?_⟩
  cases r with
  | error y => trivial
  | ok u =>
    refine only_bind (only_attempt h) fun r => ?_
    cases r with
    | ok a =>
      refine ⟨fun s hs => (by cases hs), fun r => ?_⟩
      cases r <;> trivial
    | error y => exact ⟨fun s hs => (by cases hs), fun _ => trivial⟩

/-- What every statement of a completed body keeps of the working copy, it keeps. -/
theorem completes_only {K : σ → Prop} {p : Prog S R e ε α} {t t' : Txn σ} {a : α}
    (h : Completes E allow c p t a t') (hp : p.Only φ)
    (hK : ∀ s x w r w', φ s → K w → E.exec s x w = .ok (r, w') → K w') (h0 : K (t.view c)) :
    K (t'.view c) := by
  induction h with
  | pure a t => exact h0
  | stmt ht ha hx _ ih =>
    exact ih (hp.2 _) (hK _ _ _ _ _ (hp.1 _ rfl) h0 hx)

/-- One request: what it commits is along `G` if its statement is, and an open working copy
stays ahead of what is committed. -/
theorem step_ahead {G : σ → σ → Prop} (hrefl : ∀ c, G c c)
    (htrans : ∀ a b c, G a b → G b c → G a c) {q : Req S} {o : Outcome χ e} {t : Txn σ}
    (hexec : ∀ s x c r c', q = .stmt s → E.exec s x c = .ok (r, c') → G c c')
    (ht : ∀ w, t = .active w → G c w) :
    G c (E.step q o c t).2.1 ∧
      ∀ w, (E.step q o c t).2.2 = .active w → G (E.step q o c t).2.1 w := by
  cases o with
  | fail y => exact ⟨hrefl _, ht⟩
  | abort y => exact ⟨hrefl _, fun w hw => by cases hw⟩
  | run x =>
    cases q with
    | begin =>
      cases t with
      | idle => exact ⟨hrefl _, fun w hw => by cases hw⟩
      | begun | active w => exact ⟨hrefl _, ht⟩
    | commit =>
      cases t with
      | idle => exact ⟨hrefl _, ht⟩
      | begun => exact ⟨hrefl _, fun w hw => by cases hw⟩
      | active w => exact ⟨ht w rfl, fun w hw => by cases hw⟩
    | rollback =>
      cases t with
      | idle => exact ⟨hrefl _, ht⟩
      | begun | active w => exact ⟨hrefl _, fun w hw => by cases hw⟩
    | stmt s =>
      have hview : G c (t.view c) := by
        cases t with
        | idle | begun => exact hrefl c
        | active w => exact ht w rfl
      by_cases hidle : t = .idle
      · subst hidle
        simp only [Engine.step]
        split
        · next r c' hx => exact ⟨hexec s x _ _ _ rfl hx, fun w hw => by cases hw⟩
        · exact ⟨hrefl _, fun w hw => by cases hw⟩
      · cases hx : E.exec s x (t.view c) with
        | ok rw =>
          obtain ⟨r, w⟩ := rw
          rw [E.step_open_ok hidle hx]
          refine ⟨hrefl _, fun w' hw => ?_⟩
          cases hw
          exact htrans _ _ _ hview (hexec s x _ _ _ rfl hx)
        | error y =>
          rw [E.step_open_error hidle hx]
          exact ⟨hrefl _, fun w hw => by cases hw; exact hview⟩

/-- When every statement moves the database along `G`, every change the program
commits is along `G`, in whatever transactions and whatever others commit, and an open
working copy is ahead of the committed state along `G`.  `K` holds of every committed
state. -/
theorem wp_only_ahead {U : Rules S e σ χ} {K : σ → Prop} {G : σ → σ → Prop} (hrefl : ∀ c, G c c)
    (htrans : ∀ a b c, G a b → G b c → G a c)
    (hexec : ∀ s x c r c', φ s → E.exec s x c = .ok (r, c') → G c c')
    (hK : ∀ c c', K c → G c c' → K c') (hrely : ∀ c c', U.rely c c' → K c → K c')
    (hguar : ∀ c c', K c → G c c' → U.guar c c') {p : Prog S R e ε α} (hp : p.Only φ) (h0 : K c)
    {t : Txn σ} (ht : ∀ w, t = .active w → G c w) :
    wp E U p (fun _ c' t' => K c' ∧ ∀ w, t' = .active w → G c' w) c t := by
  induction p generalizing c t with
  | pure a => exact ⟨h0, ht⟩
  | throw y => exact ⟨h0, ht⟩
  | call q k ih =>
    intro c₁ hc o ho
    have hk₁ := hrely _ _ (U.relyOn_rely hc) h0
    -- the working copy is still ahead of what is committed
    have ht₁ : ∀ w, t = .active w → G c₁ w := by
      rintro w rfl
      cases hc
      exact ht w rfl
    have hstep := step_ahead (E := E) (o := o) hrefl htrans
      (fun s x c r c' hs hx => hexec s x c r c' (hp.1 s hs) hx) ht₁
    exact ⟨hguar _ _ hk₁ hstep.1, ih _ (hp.2 _) (hK _ _ hk₁ hstep.1) hstep.2⟩

theorem wp_only {U : Rules S e σ χ} {K : σ → Prop} {G : σ → σ → Prop} (hrefl : ∀ c, G c c)
    (htrans : ∀ a b c, G a b → G b c → G a c)
    (hexec : ∀ s x c r c', φ s → E.exec s x c = .ok (r, c') → G c c')
    (hK : ∀ c c', K c → G c c' → K c') (hrely : ∀ c c', U.rely c c' → K c → K c')
    (hguar : ∀ c c', K c → G c c' → U.guar c c') {p : Prog S R e ε α} (hp : p.Only φ) (h0 : K c)
    {t : Txn σ} (ht : ∀ w, t = .active w → G c w) : wp E U p (fun _ c' _ => K c') c t :=
  wp_mono (fun _ _ _ h => h.1) (wp_only_ahead hrefl htrans hexec hK hrely hguar hp h0 ht)

end

end Store
