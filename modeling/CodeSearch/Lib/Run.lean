import Mathlib.Algebra.GroupWithZero.Nat
import Mathlib.Data.Fintype.Defs
import Mathlib.Logic.Function.Basic
import CodeSearch.Lib.Transaction

/-!
# Runs of one connection, and pools of connections

`Run p c t p' c' t'`: the connection alone issues some requests of `p`.  A
program stopped after any of them leaves the committed state `c'`, so a crash
is a run that was cut short.  Programs are finite trees: every one of them can
be run to its end (`run_total`).

A `Pool` is one store with any number of connections.  Each is idle or in the
middle of a labelled job; a step starts a job, issues one request of one job,
or kills a connection with its open transaction.  A request that writes waits
until no other connection is in an active transaction.

    Safe s → Step s s' → Safe s'                                    (safe_step)

is the rely/guarantee composition: every job keeps its `wp` whatever the others
commit, because each guarantees what every other relies on.
-/

namespace Store

variable {S : Type} {R : S → Type} {e ε α β σ χ : Type}

/-! ## One connection -/

/-- The connection issues some requests of the program. -/
inductive Run (E : Engine S R e σ χ) (allow : Req S → Outcome χ e → σ → Txn σ → Prop) :
    Prog S R e ε α → σ → Txn σ → Prog S R e ε α → σ → Txn σ → Prop
  | refl (p : Prog S R e ε α) (c : σ) (t : Txn σ) : Run E allow p c t p c t
  | step {q : Req S} {k : Except e (q.Resp R) → Prog S R e ε α} {c : σ} {t : Txn σ}
      {o : Outcome χ e} {p' : Prog S R e ε α} {c' : σ} {t' : Txn σ} :
      allow q o c t →
      Run E allow (k (E.step q o c t).1) (E.step q o c t).2.1 (E.step q o c t).2.2 p' c' t' →
      Run E allow (.call q k) c t p' c' t'

/-- The committed states a program leaves when it is stopped anywhere. -/
def Crash (E : Engine S R e σ χ) (allow : Req S → Outcome χ e → σ → Txn σ → Prop)
    (p : Prog S R e ε α) (c c' : σ) : Prop :=
  ∃ p' t', Run E allow p c .idle p' c' t'

/-- The value or error a finished program ended in. -/
def Prog.result? : Prog S R e ε α → Option (Except ε α)
  | .pure a => some (.ok a)
  | .throw y => some (.error y)
  | .call _ _ => none

/-- The value a finished program returned. -/
def Prog.value? : Prog S R e ε α → Option α
  | .pure a => some a
  | .throw _ => none
  | .call _ _ => none

theorem Prog.eq_pure_of_value? {p : Prog S R e ε α} {a : α} (h : p.value? = some a) :
    p = .pure a := by
  cases p with
  | pure b => cases h; rfl
  | throw y => cases h
  | call q k => cases h

theorem Prog.eq_pure_of_result? {p : Prog S R e ε α} {a : α} (h : p.result? = some (.ok a)) :
    p = .pure a := by
  cases p with
  | pure b => cases h; rfl
  | throw y => cases h
  | call q k => cases h

/-- The program ran to its end. -/
def Finishes (E : Engine S R e σ χ) (allow : Req S → Outcome χ e → σ → Txn σ → Prop)
    (p : Prog S R e ε α) (c : σ) (r : Except ε α) (c' : σ) : Prop :=
  ∃ p' t', Run E allow p c .idle p' c' t' ∧ p'.result? = some r

section
variable {E : Engine S R e σ χ} {allow : Req S → Outcome χ e → σ → Txn σ → Prop}

theorem Finishes.crash {p : Prog S R e ε α} {c c' : σ} {r : Except ε α}
    (h : Finishes E allow p c r c') : Crash E allow p c c' := by
  obtain ⟨p', t', h, -⟩ := h
  exact ⟨p', t', h⟩

theorem Run.mono {allow' : Req S → Outcome χ e → σ → Txn σ → Prop}
    (hallow : ∀ q o c t, allow q o c t → allow' q o c t) {p p' : Prog S R e ε α} {c c' : σ}
    {t t' : Txn σ} (h : Run E allow p c t p' c' t') : Run E allow' p c t p' c' t' := by
  induction h with
  | refl p c t => exact .refl p c t
  | step ho _ ih => exact .step (hallow _ _ _ _ ho) ih

theorem Run.trans {p p' p'' : Prog S R e ε α} {c c' c'' : σ} {t t' t'' : Txn σ}
    (h : Run E allow p c t p' c' t') (h' : Run E allow p' c' t' p'' c'' t'') :
    Run E allow p c t p'' c'' t'' := by
  induction h with
  | refl p c t => exact h'
  | step ho _ ih => exact .step ho (ih h')

/-- A run of a sequence is in its first part, or in what that part's value leads to. -/
theorem run_bind {f : α → Prog S R e ε β} {p : Prog S R e ε α} {q : Prog S R e ε β} {c' : σ}
    {t' : Txn σ} : ∀ {c t}, Run E allow (p >>= f) c t q c' t' →
      (∃ p', Run E allow p c t p' c' t' ∧ q.value? = none) ∨
      ∃ a c₁ t₁, Run E allow p c t (.pure a) c₁ t₁ ∧ Run E allow (f a) c₁ t₁ q c' t' := by
  induction p with
  | pure a => exact fun {c t} h => .inr ⟨a, c, t, .refl _ _ _, h⟩
  | throw y =>
    intro c t h
    cases h with
    | refl => exact .inl ⟨.throw y, .refl _ _ _, rfl⟩
  | call req k ih =>
    intro c t h
    cases h with
    | refl => exact .inl ⟨.call req k, .refl _ _ _, rfl⟩
    | step ho hrun =>
      rcases ih _ hrun with ⟨p', hp', hq⟩ | ⟨a, c₁, t₁, hp, hf⟩
      · exact .inl ⟨p', .step ho hp', hq⟩
      · exact .inr ⟨a, c₁, t₁, .step ho hp, hf⟩

theorem Run.bind {f : α → Prog S R e ε β} {p : Prog S R e ε α} {q : Prog S R e ε β} {a : α}
    {c c₁ c' : σ} {t t₁ t' : Txn σ} (h : Run E allow p c t (.pure a) c₁ t₁)
    (h' : Run E allow (f a) c₁ t₁ q c' t') : Run E allow (p >>= f) c t q c' t' := by
  generalize hq : (Prog.pure a : Prog S R e ε α) = p' at h
  induction h with
  | refl p c t =>
    subst hq
    exact h'
  | step ho _ ih => exact .step ho (ih h' hq)

/-- A program with its errors renamed runs as the program does. -/
theorem run_mapError {g : ε → ε} {p q : Prog S R e ε α} {c' : σ} {t' : Txn σ} :
    ∀ {c t}, Run E allow (p.mapError g) c t q c' t' →
      ∃ p', Run E allow p c t p' c' t' ∧ q = p'.mapError g := by
  induction p with
  | pure a =>
    intro c t h
    cases h with
    | refl => exact ⟨.pure a, .refl _ _ _, rfl⟩
  | throw y =>
    intro c t h
    cases h with
    | refl => exact ⟨.throw y, .refl _ _ _, rfl⟩
  | call req k ih =>
    intro c t h
    cases h with
    | refl => exact ⟨.call req k, .refl _ _ _, rfl⟩
    | step ho hrun =>
      obtain ⟨p', hp', rfl⟩ := ih _ hrun
      exact ⟨p', .step ho hp', rfl⟩

theorem Prog.mapError_eq_pure {g : ε → ε} {p : Prog S R e ε α} {a : α} (h : p.mapError g = .pure a) :
    p = .pure a := by
  cases p with
  | pure b => cases h; rfl
  | throw y => cases h
  | call q k => cases h

/-- Nobody else touches the store: what holds by `wp` holds along every run. -/
theorem wp_run {U : Rules S e σ χ} {p p' : Prog S R e ε α}
    {Q : Except ε α → σ → Txn σ → Prop} {c c' : σ} {t t' : Txn σ}
    (h : wp E U p Q c t) (hrun : Run E U.allow p c t p' c' t') :
    wp E U p' Q c' t' ∧ Relation.ReflTransGen U.guar c c' := by
  induction hrun with
  | refl p c t => exact ⟨h, .refl⟩
  | @step q k c t o p' c' t' ho _ ih =>
    obtain ⟨hg, hk⟩ := h c (U.relyOn_refl t c) o ho
    obtain ⟨hp, hc⟩ := ih hk
    exact ⟨hp, .head hg hc⟩

theorem wp_finishes {U : Rules S e σ χ} {p : Prog S R e ε α}
    {Q : Except ε α → σ → Txn σ → Prop} {c c' : σ} {r : Except ε α}
    (h : wp E U p Q c .idle) (hf : Finishes E U.allow p c r c') : ∃ t', Q r c' t' := by
  obtain ⟨p', t', hrun, hr⟩ := hf
  have hp := (wp_run h hrun).1
  refine ⟨t', ?_⟩
  cases p' with
  | pure a => cases hr; exact hp
  | throw y => cases hr; exact hp
  | call q k => cases hr

theorem wp_crash {U : Rules S e σ χ} {p : Prog S R e ε α}
    {Q : Except ε α → σ → Txn σ → Prop} {c c' : σ}
    (h : wp E U p Q c .idle) (hf : Crash E U.allow p c c') :
    Relation.ReflTransGen U.guar c c' := by
  obtain ⟨p', t', hrun⟩ := hf
  exact (wp_run h hrun).2

/-- Every program can be run to its end, each request ending as `pick` says. -/
theorem run_total (pick : Req S → σ → Txn σ → Outcome χ e)
    (hpick : ∀ q c t, allow q (pick q c t) c t) (p : Prog S R e ε α) :
    ∀ (c : σ) (t : Txn σ), ∃ p' c' t' r, Run E allow p c t p' c' t' ∧ p'.result? = some r := by
  induction p with
  | pure a => exact fun c t => ⟨_, c, t, .ok a, .refl _ _ _, rfl⟩
  | throw y => exact fun c t => ⟨_, c, t, .error y, .refl _ _ _, rfl⟩
  | call q k ih =>
    intro c t
    obtain ⟨p', c', t', r, hrun, hr⟩ := ih _ (E.step q (pick q c t) c t).2.1
      (E.step q (pick q c t) c t).2.2
    exact ⟨p', c', t', r, .step (hpick q c t) hrun, hr⟩

/-- The requests of the program, ending one after the other as listed. -/
def replay (E : Engine S R e σ χ) :
    List (Outcome χ e) → Prog S R e ε α → σ → Txn σ → Prog S R e ε α × σ × Txn σ
  | o :: os, .call q k, c, t =>
    replay E os (k (E.step q o c t).1) (E.step q o c t).2.1 (E.step q o c t).2.2
  | _, p, c, t => (p, c, t)

theorem run_replay : ∀ (os : List (Outcome χ e)), (∀ o ∈ os, ∀ q c t, allow q o c t) →
    ∀ (p : Prog S R e ε α) (c : σ) (t : Txn σ),
    Run E allow p c t (replay E os p c t).1 (replay E os p c t).2.1 (replay E os p c t).2.2 := by
  intro os
  induction os with
  | nil => intro _ p c t; exact .refl _ _ _
  | cons o os ih =>
    intro h p c t
    cases p with
    | pure a => exact .refl _ _ _
    | throw y => exact .refl _ _ _
    | call q k =>
      exact .step (h o List.mem_cons_self q c t)
        (ih (fun o' ho' => h o' (List.mem_cons_of_mem _ ho')) _ _ _)

/-- Every request of the replay is issued where `ok` holds. -/
def replayed (E : Engine S R e σ χ) (ok : Req S → σ → Txn σ → Bool) :
    List (Outcome χ e) → Prog S R e ε α → σ → Txn σ → Bool
  | o :: os, .call q k, c, t =>
    ok q c t && replayed E ok os (k (E.step q o c t).1) (E.step q o c t).2.1 (E.step q o c t).2.2
  | _, _, _, _ => true

theorem run_replayed {ok : Req S → σ → Txn σ → Bool} : ∀ (os : List (Outcome χ e)),
    (∀ o ∈ os, ∀ q c t, ok q c t = true → allow q o c t) →
    ∀ (p : Prog S R e ε α) (c : σ) (t : Txn σ), replayed E ok os p c t = true →
    Run E allow p c t (replay E os p c t).1 (replay E os p c t).2.1 (replay E os p c t).2.2 := by
  intro os
  induction os with
  | nil => intro _ p c t _; exact .refl _ _ _
  | cons o os ih =>
    intro h p c t hok
    cases p with
    | pure a => exact .refl _ _ _
    | throw y => exact .refl _ _ _
    | call q k =>
      unfold replayed at hok
      rw [Bool.and_eq_true] at hok
      exact .step (h o List.mem_cons_self q c t hok.1)
        (ih (fun o' ho' => h o' (List.mem_cons_of_mem _ ho')) _ _ _ hok.2)

theorem crash_replay (os : List (Outcome χ e)) (hos : ∀ o ∈ os, ∀ q c t, allow q o c t)
    (p : Prog S R e ε α) (c : σ) : Crash E allow p c (replay E os p c .idle).2.1 :=
  ⟨_, _, run_replay os hos p c .idle⟩

theorem finishes_replay {os : List (Outcome χ e)} (hos : ∀ o ∈ os, ∀ q c t, allow q o c t)
    {p : Prog S R e ε α} {c : σ} {a : α} (h : (replay E os p c .idle).1.value? = some a) :
    Finishes E allow p c (.ok a) (replay E os p c .idle).2.1 := by
  refine ⟨_, _, run_replay os hos p c .idle, ?_⟩
  rw [Prog.eq_pure_of_value? h]
  rfl

end

/-! ## Many connections -/

/-- A connection: the job it is in the middle of, and its open transaction. -/
structure Client (S : Type) (R : S → Type) (e ε α σ L : Type) where
  job : Option (L × Prog S R e ε α)
  txn : Txn σ

/-- One store and its connections. -/
structure Pool (S : Type) (R : S → Type) (e ε α σ L ι : Type) where
  db : σ
  client : ι → Client S R e ε α σ L

/-- Two connections are `0` and `1` of `Fin 2`. -/
instance neZeroTwo : NeZero 2 := ⟨by decide⟩

def Txn.isActive : Txn σ → Prop
  | .active _ => True
  | _ => False

instance (t : Txn σ) : Decidable t.isActive :=
  match t with
  | .active _ => .isTrue trivial
  | .idle => .isFalse fun h => h
  | .begun => .isFalse fun h => h

variable {L ι : Type} [DecidableEq ι]

namespace Pool

/-- One step of the pool.  A request that changes the store, or leaves its
connection in an active transaction, needs the write lock. -/
inductive Step (E : Engine S R e σ χ) (allow : Req S → Outcome χ e → σ → Txn σ → Prop)
    (starts : Client S R e ε α σ L → L → Prog S R e ε α → Prop) :
    Pool S R e ε α σ L ι → Pool S R e ε α σ L ι → Prop
  | start {s : Pool S R e ε α σ L ι} (i : ι) (ℓ : L) (p : Prog S R e ε α) :
      (∀ ℓ' p', (s.client i).job = some (ℓ', p') → p'.result?.isSome) →
      starts (s.client i) ℓ p →
      Step E allow starts s
        { s with client := Function.update s.client i ⟨some (ℓ, p), (s.client i).txn⟩ }
  | exec {s : Pool S R e ε α σ L ι} (i : ι) {ℓ : L} {q : Req S}
      {k : Except e (q.Resp R) → Prog S R e ε α} {t : Txn σ} (o : Outcome χ e) :
      s.client i = ⟨some (ℓ, .call q k), t⟩ →
      ((E.step q o s.db t).2.1 ≠ s.db ∨ (E.step q o s.db t).2.2.isActive →
        ∀ j, j ≠ i → ¬ (s.client j).txn.isActive) →
      allow q o s.db t →
      Step E allow starts s
        { db := (E.step q o s.db t).2.1
          client := Function.update s.client i
            ⟨some (ℓ, k (E.step q o s.db t).1), (E.step q o s.db t).2.2⟩ }
  | kill {s : Pool S R e ε α σ L ι} (i : ι) :
      Step E allow starts s { s with client := Function.update s.client i ⟨none, .idle⟩ }

/-- The pool after any number of steps. -/
def Reachable (E : Engine S R e σ χ) (allow : Req S → Outcome χ e → σ → Txn σ → Prop)
    (starts : Client S R e ε α σ L → L → Prog S R e ε α → Prop) :
    Pool S R e ε α σ L ι → Pool S R e ε α σ L ι → Prop :=
  Relation.ReflTransGen (Step E allow starts)

variable (E : Engine S R e σ χ) (U : L → Rules S e σ χ)
  (Q : L → Except ε α → σ → Txn σ → Prop) (I : σ → Prop)

/-- The invariant of the composition: at most one active transaction, and every
job still satisfies its precondition at the current committed state. -/
structure Safe (s : Pool S R e ε α σ L ι) : Prop where
  inv : I s.db
  lock : ∀ i j, (s.client i).txn.isActive → (s.client j).txn.isActive → i = j
  jobs : ∀ i ℓ p, (s.client i).job = some (ℓ, p) → wp E (U ℓ) p (Q ℓ) s.db (s.client i).txn

/-- What makes the jobs compose: each label guarantees what every label relies
on and keeps `I`, no postcondition can be broken by others, and a job that starts
satisfies its precondition. -/
structure Composes (allow : Req S → Outcome χ e → σ → Txn σ → Prop)
    (starts : Client S R e ε α σ L → L → Prog S R e ε α → Prop) : Prop where
  guar_rely : ∀ ℓ ℓ' c c', (U ℓ).guar c c' → (U ℓ').rely c c'
  guar_inv : ∀ ℓ c c', I c → (U ℓ).guar c c' → I c'
  stable : ∀ ℓ r c c' t, (U ℓ).relyOn t c c' → Q ℓ r c t → Q ℓ r c' t
  allowed : ∀ ℓ q o c t, allow q o c t → (U ℓ).allow q o c t
  started : ∀ (d : σ) (cl : Client S R e ε α σ L) ℓ p, I d →
    (∀ ℓ' p', cl.job = some (ℓ', p') → wp E (U ℓ') p' (Q ℓ') d cl.txn) →
    starts cl ℓ p → wp E (U ℓ) p (Q ℓ) d cl.txn

variable {E U Q I} {allow : Req S → Outcome χ e → σ → Txn σ → Prop}
  {starts : Client S R e ε α σ L → L → Prog S R e ε α → Prop}

/-- One step of a safe pool, and what it does to the store: a change is a
guaranteed one of the connection that moves. -/
theorem safe_step (H : Composes E U Q I allow starts) {s s' : Pool S R e ε α σ L ι}
    (hs : Safe E U Q I s) (h : Step E allow starts s s') :
    Safe E U Q I s' ∧ (s'.db = s.db ∨ ∃ i ℓ p, (s.client i).job = some (ℓ, p) ∧
      (∀ j, j ≠ i → s'.client j = s.client j) ∧ (U ℓ).guar s.db s'.db) := by
  cases h with
  | start i ℓ p hidle hst =>
    refine ⟨⟨hs.inv, fun a b ha hb => hs.lock a b ?_ ?_, fun j ℓ' p' hj => ?_⟩, .inl rfl⟩
    · by_cases hai : a = i
      · subst hai; simpa using ha
      · simpa [Function.update_of_ne hai] using ha
    · by_cases hbi : b = i
      · subst hbi; simpa using hb
      · simpa [Function.update_of_ne hbi] using hb
    · by_cases hji : j = i
      · subst hji
        simp only [Function.update_self, Option.some.injEq, Prod.mk.injEq] at hj ⊢
        obtain ⟨rfl, rfl⟩ := hj
        exact H.started s.db _ _ _ hs.inv (hs.jobs j) hst
      · simp only [Function.update_of_ne hji] at hj ⊢
        exact hs.jobs j ℓ' p' hj
  | kill i =>
    have idle : ∀ a, (Function.update s.client i ⟨none, .idle⟩ a).txn.isActive →
        (s.client a).txn.isActive := by
      intro a ha
      by_cases hai : a = i
      · subst hai; simp [Txn.isActive] at ha
      · simpa [Function.update_of_ne hai] using ha
    refine ⟨⟨hs.inv, fun a b ha hb => hs.lock a b (idle a ha) (idle b hb), fun j ℓ' p' hj => ?_⟩,
      .inl rfl⟩
    by_cases hji : j = i
    · subst hji; simp at hj
    · simp only [Function.update_of_ne hji] at hj ⊢
      exact hs.jobs j ℓ' p' hj
  | @exec i ℓ q k t o hi hlock ho =>
    have hjob : wp E (U ℓ) (.call q k) (Q ℓ) s.db t := by
      have := hs.jobs i ℓ (.call q k) (by rw [hi])
      rwa [hi] at this
    obtain ⟨hguar, hk⟩ := hjob s.db ((U ℓ).relyOn_refl t s.db) o (H.allowed ℓ q o _ _ ho)
    -- nobody else is in an active transaction when this request can change the store
    have others : ∀ j, j ≠ i → (s.client j).txn.isActive →
        (E.step q o s.db t).2.1 = s.db ∧ ¬ (E.step q o s.db t).2.2.isActive := by
      intro j hji hact
      have hl := fun hn => hlock hn j hji hact
      exact ⟨by_contra fun h => hl (.inl h), fun h => hl (.inr h)⟩
    refine ⟨⟨H.guar_inv ℓ _ _ hs.inv hguar, fun a b ha hb => ?_, fun j ℓ' p' hj => ?_⟩,
      .inr ⟨i, ℓ, _, by rw [hi], fun j hji => Function.update_of_ne hji _ _, hguar⟩⟩
    · by_cases hai : a = i
      · by_cases hbi : b = i
        · rw [hai, hbi]
        · subst hai
          simp only [Function.update_self, Function.update_of_ne hbi] at ha hb
          exact absurd ha (others b hbi hb).2
      · by_cases hbi : b = i
        · subst hbi
          simp only [Function.update_self, Function.update_of_ne hai] at ha hb
          exact absurd hb (others a hai ha).2
        · simp only [Function.update_of_ne hai, Function.update_of_ne hbi] at ha hb
          exact hs.lock a b ha hb
    · by_cases hji : j = i
      · subst hji
        simp only [Function.update_self, Option.some.injEq, Prod.mk.injEq] at hj ⊢
        obtain ⟨rfl, rfl⟩ := hj
        exact hk
      · simp only [Function.update_of_ne hji] at hj ⊢
        refine wp_rely (H.stable ℓ') ?_ (hs.jobs j ℓ' p' hj)
        -- an active transaction keeps everybody else from committing
        cases hjt : (s.client j).txn with
        | active w => exact (others j hji (by rw [hjt]; trivial)).1
        | _ => exact H.guar_rely ℓ ℓ' _ _ hguar

theorem safe_reachable (H : Composes E U Q I allow starts)
    {s s' : Pool S R e ε α σ L ι} (hs : Safe E U Q I s)
    (h : Reachable E allow starts s s') : Safe E U Q I s' := by
  induction h with
  | refl => exact hs
  | tail _ hstep ih => exact (safe_step H ih hstep).1

/-! A run of one connection is a run of the pool. -/

theorem reachable_run {i : ι} {ℓ : L} {p p' : Prog S R e ε α} {c c' : σ} {t t' : Txn σ}
    (hrun : Run E allow p c t p' c' t') : ∀ s : Pool S R e ε α σ L ι, s.db = c →
    s.client i = ⟨some (ℓ, p), t⟩ → (∀ j, j ≠ i → ¬ (s.client j).txn.isActive) →
    Reachable E allow starts s
      { db := c', client := Function.update s.client i ⟨some (ℓ, p'), t'⟩ } := by
  induction hrun with
  | refl p c t =>
    rintro s rfl hi _
    rw [← hi, Function.update_eq_self]
    exact .refl
  | @step q k c t o p' c' t' ho _ ih =>
    rintro s rfl hi hothers
    have h := ih
      { db := (E.step q o s.db t).2.1
        client := Function.update s.client i
          ⟨some (ℓ, k (E.step q o s.db t).1), (E.step q o s.db t).2.2⟩ } rfl
      (Function.update_self _ _ _)
      (fun j hj => by simpa only [Function.update_of_ne hj] using hothers j hj)
    rw [Function.update_idem] at h
    exact .head (.exec i o hi (fun _ => hothers) ho) h

theorem reachable_of_run {i : ι} {ℓ : L} {p p' : Prog S R e ε α} {c' : σ} {t' : Txn σ}
    {s : Pool S R e ε α σ L ι} (hi : s.client i = ⟨none, .idle⟩)
    (hothers : ∀ j, j ≠ i → ¬ (s.client j).txn.isActive) (hst : starts (s.client i) ℓ p)
    (hrun : Run E allow p s.db .idle p' c' t') :
    Reachable E allow starts s
      { db := c', client := Function.update s.client i ⟨some (ℓ, p'), t'⟩ } := by
  let s₁ := { s with client := Function.update s.client i ⟨some (ℓ, p), (s.client i).txn⟩ }
  have hstart : Step E allow starts s s₁ :=
    .start i ℓ p (fun ℓ' p' hj => by rw [hi] at hj; cases hj) hst
  have hothers₁ : ∀ j, j ≠ i → ¬ (s₁.client j).txn.isActive := fun j hj => by
    simpa only [s₁, Function.update_of_ne hj] using hothers j hj
  have h : Reachable E allow starts s₁ _ :=
    reachable_run (i := i) (ℓ := ℓ) hrun s₁ rfl (by simp [s₁, hi]) hothers₁
  simp only [s₁, Function.update_idem] at h
  exact .head hstart h

/-! Scripted runs of a pool. -/

/-- Connection `i` starts a job. -/
def launch (s : Pool S R e ε α σ L ι) (i : ι) (ℓ : L) (p : Prog S R e ε α) :
    Pool S R e ε α σ L ι :=
  { s with client := Function.update s.client i ⟨some (ℓ, p), (s.client i).txn⟩ }

/-- Connection `i` issues its next requests, ending as listed. -/
def play (E : Engine S R e σ χ) (s : Pool S R e ε α σ L ι) (i : ι) (os : List (Outcome χ e)) :
    Pool S R e ε α σ L ι :=
  match (s.client i).job with
  | none => s
  | some (ℓ, p) =>
    let after := replay E os p s.db (s.client i).txn
    { db := after.2.1, client := Function.update s.client i ⟨some (ℓ, after.1), after.2.2⟩ }

/-- Its requests are issued where `ok` holds, and nobody else is in a transaction. -/
def playable [Fintype ι] (E : Engine S R e σ χ) (ok : Req S → σ → Txn σ → Bool)
    (s : Pool S R e ε α σ L ι) (i : ι) (os : List (Outcome χ e)) : Bool :=
  match (s.client i).job with
  | none => true
  | some (_, p) => replayed E ok os p s.db (s.client i).txn &&
    decide (∀ j, j ≠ i → ¬ (s.client j).txn.isActive)

theorem reachable_launch {s s₀ : Pool S R e ε α σ L ι} {i : ι} {ℓ : L} {p : Prog S R e ε α}
    (h : Reachable E allow starts s₀ s)
    (hidle : ∀ ℓ' p', (s.client i).job = some (ℓ', p') → p'.result?.isSome)
    (hst : starts (s.client i) ℓ p) : Reachable E allow starts s₀ (s.launch i ℓ p) :=
  .tail h (.start i ℓ p hidle hst)

theorem reachable_play [Fintype ι] {ok : Req S → σ → Txn σ → Bool} {s s₀ : Pool S R e ε α σ L ι}
    {i : ι} {os : List (Outcome χ e)} (h : Reachable E allow starts s₀ s)
    (hallow : ∀ o ∈ os, ∀ q c t, ok q c t = true → allow q o c t)
    (hok : s.playable E ok i os = true) : Reachable E allow starts s₀ (s.play E i os) := by
  unfold play
  unfold playable at hok
  split at hok
  · exact h
  · next ℓ p hj =>
    rw [Bool.and_eq_true, decide_eq_true_eq] at hok
    have hrun := run_replayed os hallow p s.db (s.client i).txn hok.1
    have hi : s.client i = ⟨some (ℓ, p), (s.client i).txn⟩ := by
      rw [← hj]
    exact h.trans (reachable_run hrun s rfl hi hok.2)

/-- One request of a job that has not ended is one step. -/
theorem step_play [Fintype ι] {ok : Req S → σ → Txn σ → Bool} {s : Pool S R e ε α σ L ι} {i : ι}
    {o : Outcome χ e} (hbusy : ((s.client i).job.any fun job => job.2.result?.isNone) = true)
    (hallow : ∀ q c t, ok q c t = true → allow q o c t) (hok : s.playable E ok i [o] = true) :
    Step E allow starts s (s.play E i [o]) := by
  unfold play
  unfold playable at hok
  split at hok
  · next hnone =>
    rw [hnone] at hbusy
    cases hbusy
  · next ℓ p hj =>
    rw [hj] at hbusy
    rw [Bool.and_eq_true, decide_eq_true_eq] at hok
    cases p with
    | pure a => cases hbusy
    | throw y => cases hbusy
    | call q k =>
      have hi : s.client i = ⟨some (ℓ, .call q k), (s.client i).txn⟩ := by
        rw [← hj]
      have hissued := hok.1
      unfold replayed at hissued
      rw [Bool.and_eq_true] at hissued
      exact .exec i o hi (fun _ => hok.2) (hallow _ _ _ hissued.1)

/-- The requests of one connection change no other. -/
theorem play_other {s : Pool S R e ε α σ L ι} {i j : ι} (hj : j ≠ i) (os : List (Outcome χ e)) :
    (s.play E i os).client j = s.client j := by
  unfold play
  split
  · rfl
  · exact Function.update_of_ne hj _ _

/-- A connection that issues requests goes on with its job. -/
theorem play_job {s : Pool S R e ε α σ L ι} {i : ι} {ℓ : L}
    (h : ∃ p, (s.client i).job = some (ℓ, p)) (os : List (Outcome χ e)) :
    ∃ p, ((s.play E i os).client i).job = some (ℓ, p) := by
  obtain ⟨p, hj⟩ := h
  unfold play
  rw [hj]
  dsimp only
  rw [Function.update_self]
  exact ⟨_, rfl⟩

end Pool

end Store
