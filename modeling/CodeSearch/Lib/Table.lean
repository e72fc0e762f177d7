import Mathlib.Data.List.Pairwise
import Mathlib.Data.List.Basic

/-!
# Tables with a uniqueness constraint

A table is a list of rows, no two of which clash.  `clash` is whatever the
table's unique indexes forbid (equal primary keys, equal rowids), so a table
that breaks its constraint cannot be built.  The order of the rows carries no
meaning; `insert?`, `update?` and `ofRows?` refuse a change that would make two
rows clash, `replace` first drops the rows the new one clashes with.
-/

namespace Relational

/-- A list of rows, no two of which clash. -/
@[ext] structure Table (ρ : Type) (clash : ρ → ρ → Prop) where
  rows : List ρ
  distinct : rows.Pairwise fun a b => ¬ clash a b

namespace Table

variable {ρ : Type} {clash : ρ → ρ → Prop}

instance [DecidableEq ρ] : DecidableEq (Table ρ clash) := fun a b =>
  decidable_of_iff (a.rows = b.rows) Table.ext_iff.symm

instance : Inhabited (Table ρ clash) := ⟨⟨[], .nil⟩⟩

def empty : Table ρ clash := ⟨[], .nil⟩

@[simp] theorem rows_empty : (empty : Table ρ clash).rows = [] := rfl

/-- `DELETE ... WHERE p`. -/
def delete (t : Table ρ clash) (p : ρ → Bool) : Table ρ clash :=
  ⟨t.rows.filter fun r => !p r, t.distinct.filter _⟩

@[simp] theorem rows_delete (t : Table ρ clash) (p : ρ → Bool) :
    (t.delete p).rows = t.rows.filter fun r => !p r := rfl

theorem mem_delete (t : Table ρ clash) (p : ρ → Bool) (r : ρ) :
    r ∈ (t.delete p).rows ↔ r ∈ t.rows ∧ p r = false := by
  simp [List.mem_filter]

@[simp] theorem delete_true (t : Table ρ clash) : t.delete (fun _ => true) = empty := by
  ext1
  simp

@[simp] theorem delete_empty (p : ρ → Bool) : (empty : Table ρ clash).delete p = empty := rfl

/-- Two different stored rows do not clash. -/
theorem not_clash_of_mem (hs : ∀ a b, clash a b → clash b a) (t : Table ρ clash) {a b : ρ}
    (ha : a ∈ t.rows) (hb : b ∈ t.rows) (hne : a ≠ b) : ¬ clash a b := by
  have key : t.rows.Pairwise fun x y => x ≠ y → ¬ clash x y :=
    t.distinct.imp fun {x y} h (_ : x ≠ y) => h
  have flip : t.rows.Pairwise (Function.swap fun x y => x ≠ y → ¬ clash x y) :=
    t.distinct.imp fun {x y} h (_ : y ≠ x) hc => h (hs _ _ hc)
  exact List.Pairwise.forall_of_forall_of_flip (fun x _ hx => absurd rfl hx) key flip ha hb hne

section
variable [DecidableRel clash]

/-- The table with exactly these rows, if no two of them clash. -/
def ofRows? (rows : List ρ) : Option (Table ρ clash) :=
  if h : rows.Pairwise fun a b => ¬ clash a b then some ⟨rows, h⟩ else none

theorem ofRows?_eq_some (rows : List ρ) (t : Table ρ clash) :
    ofRows? rows = some t ↔ t.rows = rows := by
  unfold ofRows?
  constructor
  · intro h
    split at h
    · cases h; rfl
    · cases h
  · rintro rfl
    rw [dif_pos t.distinct]

theorem ofRows?_isSome (rows : List ρ) :
    (ofRows? rows : Option (Table ρ clash)).isSome ↔ rows.Pairwise fun a b => ¬ clash a b := by
  unfold ofRows?
  split <;> simp_all

@[simp] theorem ofRows?_rows (t : Table ρ clash) : ofRows? t.rows = some t :=
  (ofRows?_eq_some _ _).2 rfl

/-- `INSERT`: refused when the new row clashes with a stored one. -/
def insert? (t : Table ρ clash) (r : ρ) : Option (Table ρ clash) := ofRows? (t.rows ++ [r])

theorem insert?_eq_some (t t' : Table ρ clash) (r : ρ) :
    t.insert? r = some t' ↔ t'.rows = t.rows ++ [r] := ofRows?_eq_some _ _

theorem insert?_isSome (t : Table ρ clash) (r : ρ) :
    (t.insert? r).isSome ↔ ∀ a ∈ t.rows, ¬ clash a r := by
  rw [insert?, ofRows?_isSome, List.pairwise_append]
  constructor
  · rintro ⟨-, -, h⟩ a ha
    exact h a ha r (List.mem_singleton.2 rfl)
  · intro h
    refine ⟨t.distinct, List.pairwise_singleton _ _, fun a ha b hb => ?_⟩
    rw [List.mem_singleton.1 hb]
    exact h a ha

/-- `UPDATE ... SET f WHERE p`: refused when the updated rows clash. -/
def update? (t : Table ρ clash) (p : ρ → Bool) (f : ρ → ρ) : Option (Table ρ clash) :=
  ofRows? (t.rows.map fun r => if p r then f r else r)

theorem update?_eq_some (t t' : Table ρ clash) (p : ρ → Bool) (f : ρ → ρ) :
    t.update? p f = some t' ↔ t'.rows = t.rows.map fun r => if p r then f r else r :=
  ofRows?_eq_some _ _

variable [DecidableEq ρ]

/-- `INSERT OR REPLACE`: the rows the new one clashes with are dropped.  A row
that is already stored is left where it is. -/
def replace (t : Table ρ clash) (r : ρ) : Table ρ clash :=
  if r ∈ t.rows then t
  else ⟨(t.rows.filter fun a => !decide (clash a r)) ++ [r], by
    rw [List.pairwise_append]
    refine ⟨t.distinct.filter _, List.pairwise_singleton _ _, fun a ha b hb => ?_⟩
    rw [List.mem_singleton.1 hb]
    simpa using (List.mem_filter.1 ha).2⟩

theorem replace_self (t : Table ρ clash) (r : ρ) (h : r ∈ t.rows) : t.replace r = t := by
  unfold replace; rw [if_pos h]

/-- With a symmetric clash, a replace keeps exactly the rows that do not clash
with the new one. -/
theorem mem_replace (hs : ∀ a b, clash a b → clash b a) (t : Table ρ clash) (r a : ρ) :
    a ∈ (t.replace r).rows ↔ a = r ∨ (a ∈ t.rows ∧ ¬ clash a r) := by
  unfold replace
  split
  · next h =>
    constructor
    · intro ha
      by_cases har : a = r
      · exact .inl har
      · exact .inr ⟨ha, t.not_clash_of_mem hs ha h har⟩
    · rintro (rfl | ⟨ha, -⟩)
      · exact h
      · exact ha
  · simp only [List.mem_append, List.mem_filter, List.mem_singleton, Bool.not_eq_true',
      decide_eq_false_iff_not]
    tauto

end

end Table

end Relational
