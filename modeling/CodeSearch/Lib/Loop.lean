import Mathlib.Data.List.Basic

/-!
# Loops that may fail

`xs.foldlM f s` in `Option` is a `for` loop whose body may fail.  An invariant
of the prefix already consumed, kept by every round that starts in it, gives
that no round fails and that the invariant holds at the end.
-/

namespace Store

variable {σ α : Type}

/-- The loop rule, with an invariant over the consumed prefix. -/
theorem foldlM_of_invariant {f : σ → α → Option σ} (xs : List α) (I : List α → σ → Prop)
    (hstep : ∀ seen x rest s, xs = seen ++ x :: rest → I seen s →
      ∃ s', f s x = some s' ∧ I (seen ++ [x]) s') {s : σ} (h0 : I [] s) :
    ∃ s', xs.foldlM f s = some s' ∧ I xs s' := by
  suffices h : ∀ rest seen s, xs = seen ++ rest → I seen s →
      ∃ s', rest.foldlM f s = some s' ∧ I xs s' from h xs [] s rfl h0
  intro rest
  induction rest with
  | nil =>
    intro seen s hxs hI
    rw [List.append_nil] at hxs
    exact ⟨s, rfl, hxs ▸ hI⟩
  | cons x rest ih =>
    intro seen s hxs hI
    obtain ⟨t, ht, hIt⟩ := hstep seen x rest s hxs hI
    obtain ⟨s', hs', hI'⟩ := ih (seen ++ [x]) t (by simpa using hxs) hIt
    exact ⟨s', by rw [List.foldlM_cons, ht]; exact hs', hI'⟩

/-- `for i in start..start + n`: an invariant over the index of the next round. -/
theorem foldlM_range'_of_invariant {f : σ → Nat → Option σ} (I : Nat → σ → Prop)
    (n : Nat) : ∀ (start : Nat) (s : σ),
    (∀ i s, start ≤ i → i < start + n → I i s → ∃ s', f s i = some s' ∧ I (i + 1) s') →
    I start s → ∃ s', (List.range' start n).foldlM f s = some s' ∧ I (start + n) s' := by
  induction n with
  | zero => intro start s _ h0; exact ⟨s, rfl, h0⟩
  | succ n ih =>
    intro start s hstep h0
    obtain ⟨t, ht, hIt⟩ := hstep start s (Nat.le_refl _) (by omega) h0
    obtain ⟨s', hs', hI'⟩ := ih (start + 1) t
      (fun i s hi hlt hI => hstep i s (by omega) (by omega) hI) hIt
    refine ⟨s', ?_, ?_⟩
    · rw [List.range'_succ, List.foldlM_cons, ht]
      exact hs'
    · have : start + (n + 1) = start + 1 + n := by omega
      rw [this]; exact hI'

end Store
