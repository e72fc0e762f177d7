import Mathlib.Logic.Function.Basic

/-!
# Scanning cells that change

A scan reads the cells one after another, each once, while others write them.
`Current scan now marked`: every cell read so far still holds the value read, or
is marked.  A read keeps this, and so does a write that marks the cell it changes
(`Current.write`).  A scan that is over and unmarked is a snapshot of the
present (`Current.complete`).
-/

namespace Store

variable {κ ν : Type}

/-- The value read from each cell, `none` for a cell not read yet. -/
abbrev Scan (κ ν : Type) := κ → Option ν

namespace Scan

/-- Nothing read. -/
def empty : Scan κ ν := fun _ => none

/-- Read the cells of `picked` that are not read yet. -/
def look (scan : Scan κ ν) (now : κ → ν) (picked : κ → Bool) : Scan κ ν := fun k =>
  match scan k with
  | some v => some v
  | none => if picked k then some (now k) else none

/-- What was read is what is there, `marked` cells apart. -/
def Current (scan : Scan κ ν) (now : κ → ν) (marked : κ → Prop) : Prop :=
  ∀ k v, scan k = some v → now k = v ∨ marked k

variable {scan : Scan κ ν} {now : κ → ν} {marked : κ → Prop}

theorem current_empty : Current (empty : Scan κ ν) now marked := fun _ _ h => by cases h

theorem Current.mono {marked' : κ → Prop} (h : Current scan now marked)
    (hm : ∀ k, marked k → marked' k) : Current scan now marked' :=
  fun k v hk => (h k v hk).imp_right (hm k)

theorem Current.look (h : Current scan now marked) (picked : κ → Bool) :
    Current (scan.look now picked) now marked := by
  intro k v hk
  unfold Scan.look at hk
  split at hk
  · next v' hv =>
    cases hk
    exact h k v hv
  · split at hk
    · cases hk; exact .inl rfl
    · cases hk

/-- A write to a cell that is unread, or marked, or keeps its value. -/
theorem Current.write [DecidableEq κ] (h : Current scan now marked) {k : κ} {v : ν}
    (hk : scan k = none ∨ now k = v ∨ marked k) :
    Current scan (Function.update now k v) marked := by
  intro k' v' hv
  by_cases heq : k' = k
  · subst heq
    rw [Function.update_self]
    rcases hk with hk | hk | hk
    · rw [hk] at hv; cases hv
    · rw [← hk]; exact h k' v' hv
    · exact .inr hk
  · rw [Function.update_of_ne heq]
    exact h k' v' hv

/-- A scan that read every unmarked cell has the present value of each. -/
theorem Current.complete (h : Current scan now marked) {k : κ} (hm : ¬ marked k)
    (hall : (scan k).isSome) : scan k = some (now k) := by
  obtain ⟨v, hv⟩ := Option.isSome_iff_exists.1 hall
  rcases h k v hv with hn | hn
  · rw [hv, hn]
  · exact absurd hn hm

end Scan

end Store
