import Mathlib.Data.List.Flatten
import Mathlib.Data.List.Forall2
import CodeSearch.Lib.TreeWalk

/-!
# The nodes that a walk comes to

`nodes` lists the nodes of a tree, each before those below it; `outside stop` leaves out
those below a node with `stop`.  A walk that visits all children or none puts out what its
rules do at the nodes outside those where it stops (`visit_flatMap`).

`OneEach` says that each node wanted gets one row with the value wanted.  Where a node puts
out no more than one row, that is so exactly if the walk stops above no wanted node and does
the right thing at each (`oneEach_iff`).
-/

namespace TreeWalk

variable {α M β γ : Type}

namespace RoseTree

mutual

/-- The nodes that are not below a node with `stop`, each before those below it. -/
def outside (stop : RoseTree α → Bool) : RoseTree α → List (RoseTree α)
  | .node a ts => .node a ts :: if stop (.node a ts) then [] else outsideAll stop ts

def outsideAll (stop : RoseTree α → Bool) : List (RoseTree α) → List (RoseTree α)
  | [] => []
  | t :: ts => outside stop t ++ outsideAll stop ts

end

/-- All nodes. -/
def nodes (t : RoseTree α) : List (RoseTree α) := t.outside fun _ => false

theorem outsideAll_eq (stop : RoseTree α → Bool) (ts : List (RoseTree α)) :
    outsideAll stop ts = ts.flatMap (outside stop) := by
  induction ts with
  | nil => rfl
  | cons t ts ih => rw [outsideAll, ih, List.flatMap_cons]

theorem outside_stop {stop : RoseTree α → Bool} {t : RoseTree α} (h : stop t = true) :
    t.outside stop = [t] := by
  obtain ⟨a, ts⟩ := t
  rw [outside, if_pos h]

theorem outside_children {stop : RoseTree α → Bool} {t : RoseTree α} (h : ¬ stop t = true) :
    t.outside stop = t :: t.children.flatMap (outside stop) := by
  obtain ⟨a, ts⟩ := t
  rw [outside, if_neg h, outsideAll_eq]
  rfl

theorem self_mem_outside (stop : RoseTree α → Bool) (t : RoseTree α) : t ∈ t.outside stop := by
  obtain ⟨a, ts⟩ := t
  rw [outside]
  exact List.mem_cons_self

/-- Stopping at more nodes leaves fewer. -/
theorem outside_sublist {stop stop' : RoseTree α → Bool} (h : ∀ t, stop t = true → stop' t = true)
    (t : RoseTree α) : (t.outside stop').Sublist (t.outside stop) := by
  induction t using RoseTree.induct with
  | node t ih =>
    by_cases hs' : stop' t = true
    · rw [outside_stop hs', List.singleton_sublist]
      exact self_mem_outside stop t
    · rw [outside_children hs', outside_children fun hs => hs' (h t hs)]
      exact (flatMap_sublist ih).cons_cons t

/-- Stopping at more nodes loses no node with `q` exactly if there is none below these. -/
theorem filter_outside_eq_iff {stop stop' : RoseTree α → Bool}
    (h : ∀ t, stop t = true → stop' t = true) (q : RoseTree α → Bool) (t : RoseTree α) :
    (t.outside stop').filter q = (t.outside stop).filter q ↔
      ∀ s ∈ t.outside stop', stop' s = true → ¬ stop s = true →
        ∀ c ∈ s.children, ∀ r ∈ c.outside stop, ¬ q r = true := by
  induction t using RoseTree.induct with
  | node t ih =>
    have hcons : ∀ ts, (t :: ts).filter q = [t].filter q ++ ts.filter q := List.filter_append [t]
    by_cases hs : stop t = true
    · rw [outside_stop hs, outside_stop (h t hs), List.forall_mem_singleton]
      exact iff_of_true rfl fun _ hnot => absurd hs hnot
    by_cases hs' : stop' t = true
    · rw [outside_stop hs', outside_children hs, hcons (t.children.flatMap _),
        List.self_eq_append_right, List.filter_eq_nil_iff, List.forall_mem_singleton]
      simp only [List.mem_flatMap, forall_exists_index, and_imp]
      exact ⟨fun hnone _ _ c hc r hr => hnone r c hc hr, fun hnone r c hc hr => hnone hs' hs c hc r hr⟩
    · rw [outside_children hs', outside_children hs, hcons (t.children.flatMap (outside stop')),
        hcons (t.children.flatMap (outside stop)), List.append_cancel_left_eq, List.filter_flatMap,
        List.filter_flatMap, List.forall_mem_cons]
      constructor
      · intro heq
        have hchild := eq_of_flatMap_eq (fun c _ => (outside_sublist h c).filter q) heq
        refine ⟨fun hstop => absurd hstop hs', fun s hsmem => ?_⟩
        obtain ⟨c, hc, hsc⟩ := List.mem_flatMap.1 hsmem
        exact (ih c hc).1 (hchild c hc) s hsc
      · rintro ⟨-, hall⟩
        exact List.flatMap_congr fun c hc => (ih c hc).2 fun s hsc =>
          hall s (List.mem_flatMap.2 ⟨c, hc, hsc⟩)

end RoseTree

open RoseTree

/-! ## Walks that visit all children or none -/

/-- The walk stops at the nodes with `stop` and goes on to the children of the others. -/
def StopsAt (rules : Rules α M β) (stop : RoseTree α → Bool) : Prop :=
  ∀ mode t, if stop t = true then (rules mode t).next = .stop
    else ∃ mode', (rules mode t).next = .children mode'

/-- What is put out where the mode makes no difference to it. -/
theorem visit_flatMap {rules : Rules α M β} {stop : RoseTree α → Bool} {f : β → List γ}
    {e : RoseTree α → List γ} (hstop : StopsAt rules stop)
    (hemit : ∀ mode t, (rules mode t).emit.flatMap f = e t) (mode : M) (t : RoseTree α) :
    (visit rules mode t).flatMap f = (t.outside stop).flatMap e := by
  induction t using RoseTree.induct generalizing mode with
  | node t ih =>
    have hnext := hstop mode t
    by_cases hs : stop t = true
    · rw [if_pos hs] at hnext
      rw [visit_stop (v := (mode, t)) hnext, hemit, outside_stop hs, List.flatMap_singleton]
    · rw [if_neg hs] at hnext
      obtain ⟨mode', hnext⟩ := hnext
      have htargets : targets rules (mode, t) = t.children.map fun s => (mode', s) := by
        unfold targets
        rw [hnext]
        rfl
      rw [visit_eq_targets rules (mode, t), htargets, List.flatMap_append, hemit,
        outside_children hs, List.flatMap_cons, List.flatMap_map, List.flatMap_assoc,
        List.flatMap_assoc]
      congr 1
      exact List.flatMap_congr fun s hsmem => ih s hsmem mode'

theorem visit_eq_outside {rules : Rules α M β} {stop : RoseTree α → Bool} {e : RoseTree α → List β}
    (hstop : StopsAt rules stop) (hemit : ∀ mode t, (rules mode t).emit = e t) (mode : M)
    (t : RoseTree α) : visit rules mode t = (t.outside stop).flatMap e := by
  rw [← visit_flatMap (f := List.singleton) hstop (fun mode t => ?_) mode t]
  · exact (List.flatMap_singleton' _).symm
  · exact (List.flatMap_singleton' _).trans (hemit mode t)

theorem flatMap_filter (p : α → Bool) (f : α → List β) (l : List α) :
    (l.filter p).flatMap f = l.flatMap fun x => if p x then f x else [] := by
  induction l with
  | nil => rfl
  | cons x l ih =>
    by_cases h : p x = true
    · rw [List.filter_cons_of_pos h, List.flatMap_cons, List.flatMap_cons, ih, if_pos h]
    · rw [List.filter_cons_of_neg h, List.flatMap_cons, ih, if_neg h, List.nil_append]

/-- Of elements that make something, none is left out if all that they make is there. -/
theorem eq_of_flatMap_eq_of_ne_nil {e : α → List β} {xs ys : List α} (hsub : xs.Sublist ys)
    (hne : ∀ y ∈ ys, e y ≠ []) (heq : xs.flatMap e = ys.flatMap e) : xs = ys := by
  induction hsub with
  | slnil => rfl
  | cons y hsub ih =>
    -- the rest makes as much as it does with `y`
    have hle := (hsub.flatMap e).length_le
    have hpos := List.length_pos_of_ne_nil (hne y List.mem_cons_self)
    rw [heq, List.flatMap_cons, List.length_append] at hle
    omega
  | cons_cons y _ ih =>
    rw [List.flatMap_cons, List.flatMap_cons, List.append_cancel_left_eq] at heq
    rw [ih (fun z hz => hne z (List.mem_cons_of_mem _ hz)) heq]

/-- Stopping at more nodes loses nothing that `e` makes exactly if it makes nothing below these. -/
theorem flatMap_outside_eq_iff {stop stop' : RoseTree α → Bool}
    (h : ∀ t, stop t = true → stop' t = true) (e : RoseTree α → List β) (t : RoseTree α) :
    (t.outside stop').flatMap e = (t.outside stop).flatMap e ↔
      ∀ s ∈ t.outside stop', stop' s = true → ¬ stop s = true →
        ∀ c ∈ s.children, ∀ r ∈ c.outside stop, e r = [] := by
  let q : RoseTree α → Bool := fun s => !(e s).isEmpty
  have hq : ∀ s, q s = true ↔ e s ≠ [] := fun s => by simp [q]
  have hfilter : ∀ l : List (RoseTree α), l.flatMap e = (l.filter q).flatMap e := by
    intro l
    rw [flatMap_filter]
    refine List.flatMap_congr fun s _ => ?_
    by_cases hs : q s = true
    · rw [if_pos hs]
    · rw [if_neg hs]
      exact not_not.1 fun hne => hs ((hq s).2 hne)
  have hcongr := filter_outside_eq_iff h q t
  simp only [hq, not_not] at hcongr
  rw [← hcongr, hfilter, hfilter (t.outside stop)]
  refine ⟨eq_of_flatMap_eq_of_ne_nil ((outside_sublist h t).filter q) fun s hs => ?_, fun heq => ?_⟩
  · exact (hq s).1 (List.mem_filter.1 hs).2
  · rw [heq]

/-! ## One row each -/

/-- The rules that put out each row with the node that it is for. -/
def withNode (rules : Rules α M β) : Rules α M (RoseTree α × β) := fun mode t =>
  ⟨(rules mode t).emit.map fun row => (t, row), (rules mode t).next⟩

theorem visit_withNode (rules : Rules α M β) (mode : M) (t : RoseTree α) :
    (visit (withNode rules) mode t).map Prod.snd = visit rules mode t := by
  have hrules : mapEmit (fun row => [row.2]) (withNode rules) = rules := by
    funext mode t
    simp [mapEmit, withNode, List.flatMap_map]
  have hvisit := visit_mapEmit (fun row : RoseTree α × β => [row.2]) (withNode rules) (mode, t)
  rw [hrules] at hvisit
  rw [hvisit, List.map_eq_flatMap]

/-- The nodes outside `stop` for which a value is wanted have one row each, with that value. -/
def OneEach (rules : Rules α M β) (mode : M) (stop : RoseTree α → Bool)
    (want : RoseTree α → Option γ) (value : β → γ) (t : RoseTree α) : Prop :=
  ((visit (withNode rules) mode t).filter fun row => (want row.1).isSome).map
      (fun row => (row.1, some (value row.2))) =
    ((t.outside stop).filter fun s => (want s).isSome).map fun s => (s, want s)

theorem length_flatMap_le {xs : List α} {f : α → List β} (hone : ∀ x ∈ xs, (f x).length ≤ 1) :
    (xs.flatMap f).length ≤ xs.length := by
  induction xs with
  | nil => exact Nat.le_refl 0
  | cons x xs ih =>
    have hx := hone x List.mem_cons_self
    have hrest := ih fun y hy => hone y (List.mem_cons_of_mem _ hy)
    rw [List.flatMap_cons, List.length_append, List.length_cons]
    omega

/-- Where an element makes no more than one row, the rows are related to the elements one by one
exactly if each makes a row that is. -/
theorem forall₂_flatMap_iff {R : α → β → Prop} {xs : List α} {f : α → List β}
    (hone : ∀ x ∈ xs, (f x).length ≤ 1) :
    List.Forall₂ R xs (xs.flatMap f) ↔ ∀ x ∈ xs, ∃ b, f x = [b] ∧ R x b := by
  induction xs with
  | nil => exact iff_of_true .nil nofun
  | cons x xs ih =>
    have hrest : ∀ y ∈ xs, (f y).length ≤ 1 := fun y hy => hone y (List.mem_cons_of_mem _ hy)
    have hx := hone x List.mem_cons_self
    rw [List.flatMap_cons, List.forall_mem_cons, ← ih hrest]
    match hfx : f x with
    | [] =>
      -- one row too few
      refine iff_of_false (fun h => ?_) (by rintro ⟨⟨b, hb, -⟩, -⟩; cases hb)
      have hlength := h.length_eq
      have hle := length_flatMap_le hrest
      rw [List.nil_append, List.length_cons] at hlength
      omega
    | [b] =>
      rw [List.singleton_append, List.forall₂_cons]
      refine and_congr_left' ⟨fun h => ⟨b, rfl, h⟩, ?_⟩
      rintro ⟨b', hb', h⟩
      cases hb'
      exact h
    | b :: b' :: bs =>
      rw [hfx] at hx
      exact absurd (Nat.le_of_succ_le_succ hx) (Nat.not_succ_le_zero _)

/-- Of a list that leaves elements out no more than one row each is made: these are the rows of
the whole list exactly if nothing is left out and each row is right. -/
theorem flatMap_eq_map_iff {xs ys : List α} {f : α → List β} {g : α → β} (hsub : xs.Sublist ys)
    (hone : ∀ x ∈ xs, (f x).length ≤ 1) :
    xs.flatMap f = ys.map g ↔ xs = ys ∧ ∀ x ∈ ys, f x = [g x] := by
  constructor
  · intro heq
    have hle := length_flatMap_le hone
    rw [heq, List.length_map] at hle
    obtain rfl := hsub.eq_of_length_le hle
    refine ⟨rfl, fun x hx => ?_⟩
    have hrows : List.Forall₂ (fun x b => b = g x) xs (xs.flatMap f) := by
      rw [heq, List.forall₂_map_right_iff, List.forall₂_same]
      exact fun _ _ => rfl
    obtain ⟨b, hb, rfl⟩ := (forall₂_flatMap_iff hone).1 hrows x hx
    exact hb
  · rintro ⟨rfl, hall⟩
    rw [List.map_eq_flatMap]
    exact List.flatMap_congr hall

/-- Where `q` is asked for too, nothing is lost exactly if there is nothing where only `p` holds. -/
theorem flatMap_ite_eq_iff {p q : α → Prop} [DecidablePred p] [DecidablePred q] {f : α → List β}
    {l : List α} :
    ((l.flatMap fun x => if p x then f x else []) = l.flatMap fun x => if p x ∧ q x then f x else []) ↔
      ∀ x ∈ l, p x → ¬ q x → f x = [] := by
  have hsub : ∀ x ∈ l, (if p x ∧ q x then f x else []).Sublist (if p x then f x else []) := by
    intro x _
    by_cases hboth : p x ∧ q x
    · rw [if_pos hboth, if_pos hboth.1]
    · rw [if_neg hboth]
      exact List.nil_sublist _
  constructor
  · intro heq x hx hp hq
    have hpoint := eq_of_flatMap_eq hsub heq.symm x hx
    rw [if_neg fun hboth => hq hboth.2, if_pos hp] at hpoint
    exact hpoint.symm
  · intro h
    refine List.flatMap_congr fun x hx => ?_
    by_cases hp : p x
    · by_cases hq : q x
      · rw [if_pos hp, if_pos ⟨hp, hq⟩]
      · rw [if_pos hp, if_neg fun hboth => hq hboth.2, h x hx hp hq]
    · rw [if_neg hp, if_neg fun hboth => hp hboth.1]

theorem oneEach_iff {rules : Rules α M β} {mode : M} {stop stop' : RoseTree α → Bool}
    {want : RoseTree α → Option γ} {value : β → γ} {e : RoseTree α → List γ}
    (hstop : StopsAt rules stop') (hle : ∀ t, stop t = true → stop' t = true)
    (hemit : ∀ mode t, (rules mode t).emit.map value = e t)
    (hone : ∀ t, (want t).isSome → (e t).length ≤ 1) (t : RoseTree α) :
    OneEach rules mode stop want value t ↔
      (∀ s ∈ t.outside stop', stop' s = true → ¬ stop s = true →
        ∀ c ∈ s.children, ∀ r ∈ c.outside stop, want r = none) ∧
      ∀ s ∈ t.outside stop, ∀ v, want s = some v → e s = [v] := by
  let rows : RoseTree α → List (RoseTree α × Option γ) := fun s => (e s).map fun v => (s, some v)
  have hrow : ∀ mode s, ((withNode rules) mode s).emit.flatMap (fun row =>
      if (want row.1).isSome then [(row.1, some (value row.2))] else []) =
        if (want s).isSome then rows s else [] := by
    intro mode s
    show (List.map _ _).flatMap _ = _
    rw [List.flatMap_map]
    by_cases hw : (want s).isSome = true
    · simp only [hw, if_true, rows]
      rw [← hemit mode s, List.map_map, List.map_eq_flatMap]
      rfl
    · simp only [hw]
      exact List.flatMap_eq_nil_iff.2 fun _ _ => rfl
  have hstopNode : StopsAt (withNode rules) stop' := hstop
  have hrows := visit_flatMap hstopNode hrow mode t
  rw [← flatMap_filter, ← flatMap_filter, ← List.map_eq_flatMap] at hrows
  unfold OneEach
  rw [hrows, flatMap_eq_map_iff ((outside_sublist hle t).filter _), filter_outside_eq_iff hle]
  · refine and_congr ?_ ?_
    · simp only [Bool.not_eq_true, Option.isSome_eq_false_iff, Option.isNone_iff_eq_none]
    · simp only [List.mem_filter, and_imp]
      refine forall₂_congr fun s _ => ⟨fun h v hv => ?_, fun h hw => ?_⟩
      · have hs := h (Option.isSome_iff_exists.2 ⟨v, hv⟩)
        obtain ⟨v', hv', heq⟩ := List.map_eq_singleton_iff.1 hs
        rw [hv, Prod.mk.injEq] at heq
        rw [hv', Option.some.inj heq.2]
      · obtain ⟨v, hv⟩ := Option.isSome_iff_exists.1 hw
        show (e s).map _ = _
        rw [h v hv, hv]
        rfl
  · intro s hs
    show ((e s).map _).length ≤ 1
    rw [List.length_map]
    exact hone s (List.mem_filter.1 hs).2

end TreeWalk
