import Mathlib.Logic.Relation

/-!
# Programs over a transactional store

A program on one connection is a tree of requests (`BEGIN`, `COMMIT`,
`ROLLBACK`, or a statement of the store's language); it sees only the answers.
An `Engine` says what a statement does to a database.  `Engine.step` adds the
connection's transaction: outside one a statement commits by itself, inside one
it changes a working copy that only `COMMIT` publishes.  An `Outcome` lets any
request fail without an effect, with or without the store rolling the open
transaction back.

`wp` is the weakest precondition of a program whose committed state other
connections may change between two requests (`Rules.rely`), and which answers
for every change it makes itself (`Rules.guar`):

    wp p Q c t → Run p c t p' c' t' → wp p' Q c' t' ∧ c ⟶* c' by `guar`   (wp_run)

`Strict` programs stop at the first failing request.  In a transaction such a
body either completes (`Completes`) or leaves the committed state alone, so a
transaction is judged by its completed body only (`wp_transaction`).
-/

namespace Store

/-! ## Requests, programs, transactions -/

/-- One request on a connection. -/
inductive Req (S : Type) where
  | begin
  | commit
  | rollback
  | stmt (s : S)
deriving DecidableEq

/-- The answer to a request that succeeds. -/
def Req.Resp {S : Type} (R : S → Type) : Req S → Type
  | .stmt s => R s
  | _ => Unit

/-- A program: it issues requests, sees each answer or the store's error `e`,
and ends in a value or an error of its own. -/
inductive Prog (S : Type) (R : S → Type) (e ε α : Type) where
  | pure (a : α)
  | throw (y : ε)
  | call (q : Req S) (k : Except e (q.Resp R) → Prog S R e ε α)

/-- The open transaction of a connection.  `BEGIN` is deferred: the working
copy is taken at the first statement. -/
inductive Txn (σ : Type) where
  | idle
  | begun
  | active (w : σ)
deriving DecidableEq

/-- What the connection reads. -/
def Txn.view {σ : Type} (c : σ) : Txn σ → σ
  | .active w => w
  | _ => c

/-- How one request ends: it runs with a choice of the store (a row number),
or it fails without an effect, or it fails and the store rolls back. -/
inductive Outcome (χ e : Type) where
  | run (x : χ)
  | fail (y : e)
  | abort (y : e)

/-- What each statement does to a database, and the two errors of a misplaced
`BEGIN` or `COMMIT`. -/
structure Engine (S : Type) (R : S → Type) (e σ χ : Type) where
  exec : (s : S) → χ → σ → Except e (R s × σ)
  nested : e
  noTxn : e

variable {S : Type} {R : S → Type} {e ε α β σ χ : Type}

/-- One request on a connection with transaction `t` over committed state `c`. -/
def Engine.step (E : Engine S R e σ χ) :
    (q : Req S) → Outcome χ e → σ → Txn σ → Except e (q.Resp R) × σ × Txn σ
  | _, .fail y, c, t => (.error y, c, t)
  | _, .abort y, c, _ => (.error y, c, .idle)
  | .begin, .run _, c, .idle => (.ok (), c, .begun)
  | .begin, .run _, c, t => (.error E.nested, c, t)
  | .commit, .run _, c, .idle => (.error E.noTxn, c, .idle)
  | .commit, .run _, c, t => (.ok (), t.view c, .idle)
  | .rollback, .run _, c, .idle => (.error E.noTxn, c, .idle)
  | .rollback, .run _, c, _ => (.ok (), c, .idle)
  | .stmt s, .run x, c, .idle =>
    match E.exec s x c with
    | .ok (r, c') => (.ok r, c', .idle)
    | .error y => (.error y, c, .idle)
  | .stmt s, .run x, c, t =>
    match E.exec s x (t.view c) with
    | .ok (r, w) => (.ok r, c, .active w)
    | .error y => (.error y, c, .active (t.view c))

/-- A statement of an open transaction runs on its view and commits nothing. -/
theorem Engine.step_open_ok {E : Engine S R e σ χ} {s : S} {x : χ} {c : σ} {t : Txn σ} {r : R s}
    {w : σ} (ht : t ≠ .idle) (h : E.exec s x (t.view c) = .ok (r, w)) :
    E.step (.stmt s) (.run x) c t = (.ok r, c, .active w) := by
  cases t with
  | idle => exact absurd rfl ht
  | begun | active w' => simp only [Engine.step, h]

theorem Engine.step_open_error {E : Engine S R e σ χ} {s : S} {x : χ} {c : σ} {t : Txn σ} {y : e}
    (ht : t ≠ .idle) (h : E.exec s x (t.view c) = .error y) :
    E.step (.stmt s) (.run x) c t = (.error y, c, .active (t.view c)) := by
  cases t with
  | idle => exact absurd rfl ht
  | begun | active w => simp only [Engine.step, h]

namespace Prog

def bind : Prog S R e ε α → (α → Prog S R e ε β) → Prog S R e ε β
  | .pure a, f => f a
  | .throw y, _ => .throw y
  | .call q k, f => .call q fun r => (k r).bind f

instance : Monad (Prog S R e ε) where
  pure := .pure
  bind := .bind

@[simp] theorem pure_bind' (a : α) (f : α → Prog S R e ε β) : (Prog.pure a >>= f) = f a := rfl
@[simp] theorem throw_bind (y : ε) (f : α → Prog S R e ε β) :
    (Prog.throw y >>= f) = (Prog.throw y : Prog S R e ε β) := rfl
@[simp] theorem call_bind (q : Req S) (k : Except e (q.Resp R) → Prog S R e ε α)
    (f : α → Prog S R e ε β) : (Prog.call q k >>= f) = Prog.call q fun r => k r >>= f := rfl

/-- The result of a program as a value: an error is returned, not thrown. -/
def attempt : Prog S R e ε α → Prog S R e ε (Except ε α)
  | .pure a => .pure (.ok a)
  | .throw y => .pure (.error y)
  | .call q k => .call q fun r => (k r).attempt

/-- The program with its own errors renamed. -/
def mapError (g : ε → ε) : Prog S R e ε α → Prog S R e ε α
  | .pure a => .pure a
  | .throw y => .throw (g y)
  | .call q k => .call q fun r => (k r).mapError g

/-- Run one statement; a store error becomes the program's error. -/
def execute (err : e → ε) (s : S) : Prog S R e ε (R s) :=
  .call (.stmt s) fun
    | .ok r => .pure r
    | .error y => .throw (err y)

/-- Run the requests in order, stopping at the first that fails. -/
def batch (err : e → ε) : List (Req S) → Prog S R e ε Unit
  | [] => .pure ()
  | q :: qs => .call q fun
    | .ok _ => batch err qs
    | .error y => .throw (err y)

/-- `COMMIT`, then return `a`. -/
def commitWith (err : e → ε) (a : α) : Prog S R e ε α :=
  .call .commit fun
    | .ok _ => .pure a
    | .error y => .throw (err y)

theorem batch_commit (err : e → ε) :
    (batch err [.commit] : Prog S R e ε Unit) = commitWith err () := by
  simp only [batch, commitWith, call.injEq, heq_eq_eq, true_and]
  funext r
  cases r <;> rfl

/-- `BEGIN`, the body, then `COMMIT` if it returned and `ROLLBACK` (whose own
failure is ignored) if it did not. -/
def transaction (beginErr commitErr : e → ε) (bodyErr : ε → ε) (body : Prog S R e ε α) :
    Prog S R e ε α :=
  .call .begin fun
    | .error y => .throw (beginErr y)
    | .ok _ => body.attempt >>= fun
      | .ok a => commitWith commitErr a
      | .error y => .call .rollback fun _ => .throw (bodyErr y)

def isThrow : Prog S R e ε α → Bool
  | .throw _ => true
  | _ => false

theorem isThrow_iff (p : Prog S R e ε α) : p.isThrow = true ↔ ∃ y, p = .throw y := by
  cases p <;> simp [isThrow]

/-- A body of statements that stops at the first that fails. -/
def Strict : Prog S R e ε α → Prop
  | .pure _ => True
  | .throw _ => True
  | .call q k => (∃ s, q = .stmt s) ∧ (∀ y, (k (.error y)).isThrow = true) ∧
      ∀ r, (k (.ok r)).Strict

end Prog

/-! ## Rules and weakest preconditions -/

/-- What other connections may do to the committed state between two requests,
what this one may do to it, and which requests may end how. -/
structure Rules (S e σ χ : Type) where
  rely : σ → σ → Prop
  guar : σ → σ → Prop
  allow : Req S → Outcome χ e → σ → Txn σ → Prop
  rely_refl : ∀ c, rely c c
  rely_trans : ∀ a b c, rely a b → rely b c → rely a c
  guar_refl : ∀ c, guar c c

/-- An active transaction holds the write lock: nobody else commits. -/
def Rules.relyOn (U : Rules S e σ χ) : Txn σ → σ → σ → Prop
  | .active _, c, c' => c' = c
  | _, c, c' => U.rely c c'

theorem Rules.relyOn_rely (U : Rules S e σ χ) {t : Txn σ} {c c' : σ} (h : U.relyOn t c c') :
    U.rely c c' := by
  cases t with
  | active w => cases h; exact U.rely_refl c
  | _ => exact h

theorem Rules.relyOn_refl (U : Rules S e σ χ) (t : Txn σ) (c : σ) : U.relyOn t c c := by
  cases t with
  | active w => rfl
  | _ => exact U.rely_refl c

theorem Rules.relyOn_trans (U : Rules S e σ χ) {t : Txn σ} {a b c : σ} (h : U.relyOn t a b)
    (h' : U.relyOn t b c) : U.relyOn t a c := by
  cases t with
  | active w => cases h; exact h'
  | _ => exact U.rely_trans _ _ _ h h'

variable (E : Engine S R e σ χ) (U : Rules S e σ χ)

/-- Whatever the other connections commit in between and however the requests
end, every change made to the committed state keeps to `guar`, and the program
ends as `Q` says. -/
def wp : Prog S R e ε α → (Except ε α → σ → Txn σ → Prop) → σ → Txn σ → Prop
  | .pure a, Q, c, t => Q (.ok a) c t
  | .throw y, Q, c, t => Q (.error y) c t
  | .call q k, Q, c, t => ∀ c₁, U.relyOn t c c₁ → ∀ o, U.allow q o c₁ t →
      U.guar c₁ (E.step q o c₁ t).2.1 ∧
      wp (k (E.step q o c₁ t).1) Q (E.step q o c₁ t).2.1 (E.step q o c₁ t).2.2

@[simp] theorem wp_pure (a : α) (Q : Except ε α → σ → Txn σ → Prop) (c : σ) (t : Txn σ) :
    wp E U (.pure a) Q c t = Q (.ok a) c t := rfl

@[simp] theorem wp_pure' (a : α) (Q : Except ε α → σ → Txn σ → Prop) (c : σ) (t : Txn σ) :
    wp E U (Pure.pure a) Q c t = Q (.ok a) c t := rfl

@[simp] theorem wp_throw (y : ε) (Q : Except ε α → σ → Txn σ → Prop) (c : σ) (t : Txn σ) :
    wp E U (.throw y) Q c t = Q (.error y) c t := rfl

variable {E U}

theorem wp_mono {p : Prog S R e ε α} {Q Q' : Except ε α → σ → Txn σ → Prop}
    (h : ∀ r c t, Q r c t → Q' r c t) : ∀ {c t}, wp E U p Q c t → wp E U p Q' c t := by
  induction p with
  | pure a => exact fun hp => h _ _ _ hp
  | throw y => exact fun hp => h _ _ _ hp
  | call q k ih => exact fun hp c₁ hc o ho => ⟨(hp c₁ hc o ho).1, ih _ (hp c₁ hc o ho).2⟩

/-- Weaker rules: others do less, fewer outcomes, and less is promised. -/
theorem wp_weaken {U' : Rules S e σ χ} {p : Prog S R e ε α} {Q : Except ε α → σ → Txn σ → Prop}
    (hrely : ∀ t c c', U'.relyOn t c c' → U.relyOn t c c')
    (hguar : ∀ c c', U.guar c c' → U'.guar c c')
    (hallow : ∀ q o c t, U'.allow q o c t → U.allow q o c t) :
    ∀ {c t}, wp E U p Q c t → wp E U' p Q c t := by
  induction p with
  | pure a => exact fun h => h
  | throw y => exact fun h => h
  | call q k ih =>
    intro c t h c₁ hc o ho
    obtain ⟨hg, hk⟩ := h c₁ (hrely _ _ _ hc) o (hallow _ _ _ _ ho)
    exact ⟨hguar _ _ hg, ih _ hk⟩

/-- Sequencing. -/
theorem wp_bind (p : Prog S R e ε α) (f : α → Prog S R e ε β)
    (Q : Except ε β → σ → Txn σ → Prop) : ∀ (c : σ) (t : Txn σ),
    wp E U (p >>= f) Q c t ↔ wp E U p (fun r c t => match r with
      | .ok a => wp E U (f a) Q c t
      | .error y => Q (.error y) c t) c t := by
  induction p with
  | pure a => exact fun _ _ => Iff.rfl
  | throw y => exact fun _ _ => Iff.rfl
  | call q k ih =>
    intro c t
    simp only [Prog.call_bind, wp, ih]

theorem wp_attempt (p : Prog S R e ε α) (Q : Except ε (Except ε α) → σ → Txn σ → Prop) :
    ∀ (c : σ) (t : Txn σ),
    wp E U p.attempt Q c t ↔ wp E U p (fun r c t => Q (.ok r) c t) c t := by
  induction p with
  | pure a => exact fun _ _ => Iff.rfl
  | throw y => exact fun _ _ => Iff.rfl
  | call q k ih =>
    intro c t
    simp only [Prog.attempt, wp, ih]

theorem wp_mapError (p : Prog S R e ε α) (g : ε → ε) (Q : Except ε α → σ → Txn σ → Prop) :
    ∀ (c : σ) (t : Txn σ),
    wp E U (p.mapError g) Q c t ↔ wp E U p (fun r c t => Q (r.mapError g) c t) c t := by
  induction p with
  | pure a => exact fun _ _ => Iff.rfl
  | throw y => exact fun _ _ => Iff.rfl
  | call q k ih =>
    intro c t
    simp only [Prog.mapError, wp, ih]

/-- A postcondition that other connections cannot break may be judged before
or after they act. -/
theorem wp_rely {p : Prog S R e ε α} {Q : Except ε α → σ → Txn σ → Prop}
    (hQ : ∀ r c c' t, U.relyOn t c c' → Q r c t → Q r c' t) {c c' : σ} {t : Txn σ}
    (hc : U.relyOn t c c') (h : wp E U p Q c t) : wp E U p Q c' t := by
  cases p with
  | pure a => exact hQ _ _ _ _ hc h
  | throw y => exact hQ _ _ _ _ hc h
  | call q k => exact fun c₁ hc₁ o ho => h c₁ (U.relyOn_trans hc hc₁) o ho

/-! ## Statements one at a time -/

/-- A statement outside a transaction. -/
theorem wp_execute_idle {err : e → ε} {s : S} {Q : Except ε (R s) → σ → Txn σ → Prop} {c : σ}
    (hok : ∀ c₁ x r c₂, U.rely c c₁ → U.allow (.stmt s) (.run x) c₁ .idle →
      E.exec s x c₁ = .ok (r, c₂) → U.guar c₁ c₂ ∧ Q (.ok r) c₂ .idle)
    (herr : ∀ y c₁, U.rely c c₁ → Q (.error (err y)) c₁ .idle) :
    wp E U (Prog.execute err s) Q c .idle := by
  intro c₁ hc o ho
  cases o with
  | run x =>
    simp only [Engine.step]
    split
    · next r c₂ hx => exact hok c₁ x r c₂ hc ho hx
    · next y _ => exact ⟨U.guar_refl _, herr y c₁ hc⟩
  | fail y => exact ⟨U.guar_refl _, herr y c₁ hc⟩
  | abort y => exact ⟨U.guar_refl _, herr y c₁ hc⟩

end Store
