import Mathlib.Data.List.Nodup
import Mathlib.Order.Lattice

/-!
# Maps sorted by key

`SortedMap κ ν` is a list of entries with increasing keys.  What an operation does is
said of the entries:

    e ∈ (m.insert k v).list ↔ e = (k, v) ∨ (e.1 ≠ k ∧ e ∈ m.list)        (mem_insert)
    e ∈ (m.erase k).list ↔ e.1 ≠ k ∧ e ∈ m.list                          (mem_erase)
-/

namespace Sorted

variable {κ ν ω : Type} [LinearOrder κ]

/-- Entries by increasing key. -/
structure SortedMap (κ ν : Type) [LinearOrder κ] where
  list : List (κ × ν)
  sorted : list.Pairwise fun a b => a.1 < b.1
deriving DecidableEq

/-! ## Algorithm -/

/-- Insert into sorted entries, replacing the one of the same key. -/
def insertEntry (k : κ) (v : ν) : List (κ × ν) → List (κ × ν)
  | [] => [(k, v)]
  | e :: l => if k < e.1 then (k, v) :: e :: l else if e.1 < k then e :: insertEntry k v l else (k, v) :: l

theorem mem_insertEntry {k : κ} {v : ν} {e : κ × ν} {l : List (κ × ν)}
    (hl : l.Pairwise fun a b => a.1 < b.1) :
    e ∈ insertEntry k v l ↔ e = (k, v) ∨ (e.1 ≠ k ∧ e ∈ l) := by
  induction l with
  | nil => simp [insertEntry]
  | cons a l ih =>
    obtain ⟨ha, hl⟩ := List.pairwise_cons.1 hl
    unfold insertEntry
    by_cases hlt : k < a.1
    · rw [if_pos hlt, List.mem_cons]
      have hne : ∀ b ∈ a :: l, b.1 ≠ k := by
        intro b hb
        rcases List.mem_cons.1 hb with rfl | hb
        · exact hlt.ne'
        · exact (hlt.trans (ha b hb)).ne'
      exact or_congr_right ⟨fun h => ⟨hne e h, h⟩, fun h => h.2⟩
    · rw [if_neg hlt]
      by_cases hgt : a.1 < k
      · rw [if_pos hgt, List.mem_cons, List.mem_cons, ih hl]
        constructor
        · rintro (rfl | h | ⟨hne, h⟩)
          · exact .inr ⟨hgt.ne, .inl rfl⟩
          · exact .inl h
          · exact .inr ⟨hne, .inr h⟩
        · rintro (h | ⟨hne, rfl | h⟩)
          · exact .inr (.inl h)
          · exact .inl rfl
          · exact .inr (.inr ⟨hne, h⟩)
      · have heq : a.1 = k := le_antisymm (not_lt.1 hlt) (not_lt.1 hgt)
        rw [if_neg hgt, List.mem_cons, List.mem_cons]
        constructor
        · rintro (h | h)
          · exact .inl h
          · exact .inr ⟨heq ▸ (ha e h).ne', .inr h⟩
        · rintro (h | ⟨hne, rfl | h⟩)
          · exact .inl h
          · exact absurd heq hne
          · exact .inr h

theorem sorted_insertEntry (k : κ) (v : ν) {l : List (κ × ν)}
    (hl : l.Pairwise fun a b => a.1 < b.1) :
    (insertEntry k v l).Pairwise fun a b => a.1 < b.1 := by
  induction l with
  | nil => exact List.pairwise_singleton _ _
  | cons a l ih =>
    obtain ⟨ha, hrest⟩ := List.pairwise_cons.1 hl
    unfold insertEntry
    by_cases hlt : k < a.1
    · rw [if_pos hlt]
      refine List.pairwise_cons.2 ⟨fun b hb => ?_, hl⟩
      rcases List.mem_cons.1 hb with rfl | hb
      · exact hlt
      · exact hlt.trans (ha b hb)
    · rw [if_neg hlt]
      by_cases hgt : a.1 < k
      · rw [if_pos hgt]
        refine List.pairwise_cons.2 ⟨fun b hb => ?_, ih hrest⟩
        rcases (mem_insertEntry hrest).1 hb with rfl | ⟨-, hb⟩
        · exact hgt
        · exact ha b hb
      · have heq : a.1 = k := le_antisymm (not_lt.1 hlt) (not_lt.1 hgt)
        rw [if_neg hgt]
        exact List.pairwise_cons.2 ⟨fun b hb => heq ▸ ha b hb, hrest⟩

namespace SortedMap

def empty : SortedMap κ ν := ⟨[], List.Pairwise.nil⟩

def insert (m : SortedMap κ ν) (k : κ) (v : ν) : SortedMap κ ν :=
  ⟨insertEntry k v m.list, sorted_insertEntry k v m.sorted⟩

/-- Drop the entry of a key. -/
def erase (m : SortedMap κ ν) (k : κ) : SortedMap κ ν :=
  ⟨m.list.filter fun e => decide (e.1 ≠ k), m.sorted.filter _⟩

/-- Change the values. -/
def mapValues (f : ν → ω) (m : SortedMap κ ν) : SortedMap κ ω :=
  ⟨m.list.map fun e => (e.1, f e.2), m.sorted.map _ fun _ _ h => h⟩

/-! ## Entries -/

variable {m : SortedMap κ ν} {k : κ} {v : ν} {e : κ × ν}

@[simp] theorem mem_empty : e ∈ (empty : SortedMap κ ν).list ↔ False := by simp [empty]

@[simp] theorem mem_insert : e ∈ (m.insert k v).list ↔ e = (k, v) ∨ (e.1 ≠ k ∧ e ∈ m.list) :=
  mem_insertEntry m.sorted

@[simp] theorem mem_erase : e ∈ (m.erase k).list ↔ e.1 ≠ k ∧ e ∈ m.list := by
  unfold erase
  rw [List.mem_filter, decide_eq_true_eq, and_comm]

@[simp] theorem mem_mapValues {f : ν → ω} {e : κ × ω} :
    e ∈ (m.mapValues f).list ↔ ∃ v, (e.1, v) ∈ m.list ∧ f v = e.2 := by
  unfold mapValues
  rw [List.mem_map]
  constructor
  · rintro ⟨a, ha, rfl⟩
    exact ⟨a.2, ha, rfl⟩
  · rintro ⟨v, hv, hf⟩
    exact ⟨_, hv, Prod.ext rfl hf⟩

/-- A key has one entry. -/
theorem entry_unique {a b : κ × ν} (ha : a ∈ m.list) (hb : b ∈ m.list) (h : a.1 = b.1) : a = b := by
  have hnodup : (m.list.map Prod.fst).Nodup :=
    List.pairwise_map.2 (m.sorted.imp fun hlt => hlt.ne)
  exact List.inj_on_of_nodup_map hnodup ha hb h

theorem mapValues_mapValues {α : Type} (f : ν → ω) (g : ω → α) :
    (m.mapValues f).mapValues g = m.mapValues fun v => g (f v) := by
  unfold mapValues
  simp only [List.map_map, Function.comp_def]

end SortedMap

end Sorted
