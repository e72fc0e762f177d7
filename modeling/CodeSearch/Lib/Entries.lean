import Mathlib.Data.List.Basic
import Mathlib.Data.List.Perm.Basic
import Mathlib.Data.List.Nodup

/-!
# Hash maps

`Entries κ ν` is a finite map; its list of entries has one for each key, in an
order that means nothing: `Order` is an iteration order, any permutation of the
entries of each map.
-/

namespace Ranking

variable {κ ν : Type}

/-- A finite map. -/
structure Entries (κ ν : Type) where
  list : List (κ × ν)
  nodup : (list.map Prod.fst).Nodup

def Entries.empty : Entries κ ν := ⟨[], List.nodup_nil⟩

/-- An iteration order of hash maps. -/
structure Order (κ ν : Type) where
  iter : Entries κ ν → List (κ × ν)
  perm : ∀ m, (iter m).Perm m.list

/-- Each key is visited once. -/
theorem Order.nodup_iter (order : Order κ ν) (m : Entries κ ν) :
    ((order.iter m).map Prod.fst).Nodup := ((order.perm m).map Prod.fst).nodup_iff.2 m.nodup

/-- The order of the list itself. -/
def Order.listed : Order κ ν := ⟨Entries.list, fun _ => .refl _⟩

section
variable [DecidableEq κ]

theorem lookup_cons (k j : κ) (v : ν) (l : List (κ × ν)) :
    ((j, v) :: l).lookup k = if k = j then some v else l.lookup k := by
  rw [List.lookup_cons]
  by_cases h : k = j
  · simp [h]
  · rw [if_neg h, beq_false_of_ne h]

/-- `get`. -/
def Entries.get? (m : Entries κ ν) (k : κ) : Option ν := m.list.lookup k

/-- The value of `k` becomes `f` of the old one. -/
def alterList (k : κ) (f : Option ν → ν) : List (κ × ν) → List (κ × ν)
  | [] => [(k, f none)]
  | (k', v) :: l => if k' = k then (k, f (some v)) :: l else (k', v) :: alterList k f l

theorem mem_keys_alterList {k k' : κ} {f : Option ν → ν} {l : List (κ × ν)} :
    k' ∈ (alterList k f l).map Prod.fst ↔ k' = k ∨ k' ∈ l.map Prod.fst := by
  induction l with
  | nil => simp [alterList]
  | cons e l ih =>
    unfold alterList
    split
    · next h =>
      simp only [List.map_cons, List.mem_cons, h]
      tauto
    · simp only [List.map_cons, List.mem_cons, ih]
      tauto

theorem nodup_alterList {k : κ} {f : Option ν → ν} {l : List (κ × ν)}
    (h : (l.map Prod.fst).Nodup) : ((alterList k f l).map Prod.fst).Nodup := by
  induction l with
  | nil => simp [alterList]
  | cons e l ih =>
    rw [List.map_cons, List.nodup_cons] at h
    unfold alterList
    split
    · next he =>
      rw [List.map_cons, List.nodup_cons]
      exact ⟨he ▸ h.1, h.2⟩
    · next he =>
      rw [List.map_cons, List.nodup_cons, mem_keys_alterList]
      exact ⟨fun hk => hk.elim he h.1, ih h.2⟩

theorem lookup_alterList {k k' : κ} {f : Option ν → ν} {l : List (κ × ν)} :
    (alterList k f l).lookup k' = if k' = k then some (f (l.lookup k)) else l.lookup k' := by
  induction l with
  | nil => rw [alterList, lookup_cons, List.lookup_nil]; rfl
  | cons e l ih =>
    obtain ⟨j, v⟩ := e
    unfold alterList
    by_cases hj : j = k
    · subst hj
      rw [if_pos rfl, lookup_cons, lookup_cons k', lookup_cons j, if_pos rfl]
      by_cases h : k' = j
      · rw [if_pos h, if_pos h]
      · rw [if_neg h, if_neg h, if_neg h]
    · rw [if_neg hj, lookup_cons, lookup_cons k', lookup_cons k, if_neg (Ne.symm hj), ih]
      by_cases h : k' = j
      · rw [if_pos h, if_pos h, if_neg fun hk => hj (h.symm.trans hk)]
      · rw [if_neg h, if_neg h]

/-- `*entry(k) = f(..)`, on a present value or on none. -/
def Entries.alter (m : Entries κ ν) (k : κ) (f : Option ν → ν) : Entries κ ν :=
  ⟨alterList k f m.list, nodup_alterList m.nodup⟩

/-- `entry(k).or_insert(v)`. -/
def Entries.orInsert (m : Entries κ ν) (k : κ) (v : ν) : Entries κ ν := m.alter k fun old => old.getD v

@[simp] theorem get?_empty (k : κ) : (Entries.empty : Entries κ ν).get? k = none := rfl

theorem get?_alter (m : Entries κ ν) (k k' : κ) (f : Option ν → ν) :
    (m.alter k f).get? k' = if k' = k then some (f (m.get? k)) else m.get? k' := lookup_alterList

theorem get?_orInsert (m : Entries κ ν) (k k' : κ) (v : ν) :
    (m.orInsert k v).get? k' = if k' = k then some ((m.get? k).getD v) else m.get? k' :=
  get?_alter m k k' _

/-- The entries are the graph of `get?`. -/
theorem mem_list_iff (m : Entries κ ν) (k : κ) (v : ν) : (k, v) ∈ m.list ↔ m.get? k = some v := by
  obtain ⟨l, hl⟩ := m
  show (k, v) ∈ l ↔ l.lookup k = some v
  induction l with
  | nil => simp
  | cons e l ih =>
    obtain ⟨j, w⟩ := e
    rw [List.map_cons, List.nodup_cons] at hl
    rw [List.mem_cons, lookup_cons, ih hl.2]
    by_cases hkj : k = j
    · subst hkj
      have hno : l.lookup k ≠ some v := by
        intro h
        exact hl.1 (List.mem_map.2 ⟨(k, v), (ih hl.2).2 h, rfl⟩)
      simp [hno, eq_comm]
    · have hne : ¬ (k, v) = (j, w) := fun h => hkj (Prod.mk.inj h).1
      rw [if_neg hkj, or_iff_right hne]

end

end Ranking
