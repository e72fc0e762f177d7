import Mathlib.Data.List.Pairwise
import CodeSearch.Lib.TreeNodes

/-!
# Trees laid out in intervals

A parser gives every node of its tree an interval of the input.  `Nested` says that the
intervals of the children lie in that of their parent, one after the other.  Then those of
any two nodes are nested or apart (`Nested.laminar`), and the nodes are listed in the order
in which their intervals start (`Nested.starts`).
-/

namespace TreeWalk

variable {α β γ M : Type}

/-- From `start` up to `stop`, which is not in it. -/
structure Interval where
  start : Nat
  stop : Nat
  le : start ≤ stop
deriving DecidableEq

namespace Interval

def Within (i j : Interval) : Prop := j.start ≤ i.start ∧ i.stop ≤ j.stop

/-- One is over when the other starts. -/
def Before (i j : Interval) : Prop := i.stop ≤ j.start

theorem Within.refl (i : Interval) : i.Within i := ⟨Nat.le_refl _, Nat.le_refl _⟩

theorem Within.trans {i j k : Interval} (h : i.Within j) (h' : j.Within k) : i.Within k :=
  ⟨Nat.le_trans h'.1 h.1, Nat.le_trans h.2 h'.2⟩

theorem Before.mono {i i' j j' : Interval} (h : i.Before j) (hi : i'.Within i) (hj : j'.Within j) :
    i'.Before j' := Nat.le_trans hi.2 (Nat.le_trans h hj.1)

theorem Before.start_le {i j : Interval} (h : i.Before j) : i.start ≤ j.start :=
  Nat.le_trans i.le h

/-- One is inside the other, or over before it starts. -/
def Laminar (i j : Interval) : Prop := i.Within j ∨ j.Within i ∨ i.Before j ∨ j.Before i

theorem Laminar.symm {i j : Interval} (h : i.Laminar j) : j.Laminar i := by
  rcases h with h | h | h | h
  · exact .inr (.inl h)
  · exact .inl h
  · exact .inr (.inr (.inr h))
  · exact .inr (.inr (.inl h))

end Interval

namespace RoseTree

/-! ## Trees with other labels -/

mutual

def map (f : α → β) : RoseTree α → RoseTree β
  | .node a ts => .node (f a) (mapAll f ts)

def mapAll (f : α → β) : List (RoseTree α) → List (RoseTree β)
  | [] => []
  | t :: ts => map f t :: mapAll f ts

end

theorem mapAll_eq (f : α → β) (ts : List (RoseTree α)) : mapAll f ts = ts.map (map f) := by
  induction ts with
  | nil => rfl
  | cons t ts ih => rw [mapAll, ih, List.map_cons]

@[simp] theorem label_map (f : α → β) (t : RoseTree α) : (t.map f).label = f t.label := by
  obtain ⟨a, ts⟩ := t
  rfl

@[simp] theorem children_map (f : α → β) (t : RoseTree α) :
    (t.map f).children = t.children.map (map f) := by
  obtain ⟨a, ts⟩ := t
  exact mapAll_eq f ts

/-! ## The nodes of a tree -/

theorem nodes_eq (t : RoseTree α) : t.nodes = t :: t.children.flatMap nodes :=
  outside_children Bool.false_ne_true

theorem self_mem_nodes (t : RoseTree α) : t ∈ t.nodes := self_mem_outside _ t

theorem mem_nodes_iff {s t : RoseTree α} : s ∈ t.nodes ↔ s = t ∨ ∃ c ∈ t.children, s ∈ c.nodes := by
  rw [nodes_eq, List.mem_cons, List.mem_flatMap]

theorem mem_nodes_of_child {s c t : RoseTree α} (hc : c ∈ t.children) (hs : s ∈ c.nodes) :
    s ∈ t.nodes := mem_nodes_iff.2 (.inr ⟨c, hc, hs⟩)

theorem child_mem_nodes {c t : RoseTree α} (hc : c ∈ t.children) : c ∈ t.nodes :=
  mem_nodes_of_child hc (self_mem_nodes c)

theorem nodes_trans {r s t : RoseTree α} (hr : r ∈ s.nodes) (hs : s ∈ t.nodes) : r ∈ t.nodes := by
  induction t using RoseTree.induct with
  | node t ih =>
    rcases mem_nodes_iff.1 hs with rfl | ⟨c, hc, hsc⟩
    · exact hr
    · exact mem_nodes_of_child hc (ih c hc hsc)

theorem nodes_map (f : α → β) (t : RoseTree α) : (t.map f).nodes = t.nodes.map (map f) := by
  induction t using RoseTree.induct with
  | node t ih =>
    rw [nodes_eq, nodes_eq t, children_map, List.map_cons, List.flatMap_map, List.map_flatMap]
    congr 1
    exact List.flatMap_congr ih

/-! ## Intervals -/

/-- The intervals of the children lie in that of their parent, one after the other. -/
inductive Nested (place : α → Interval) : RoseTree α → Prop
  | node {a : α} {ts : List (RoseTree α)} :
      (∀ t ∈ ts, (place t.label).Within (place a)) →
      ts.Pairwise (fun s t => (place s.label).Before (place t.label)) →
      (∀ t ∈ ts, Nested place t) → Nested place (.node a ts)

namespace Nested
variable {place : α → Interval} {t : RoseTree α}

theorem child_within (h : Nested place t) :
    ∀ c ∈ t.children, (place c.label).Within (place t.label) := by
  cases h with
  | node hwithin _ _ => exact hwithin

theorem children_before (h : Nested place t) :
    t.children.Pairwise fun s c => (place s.label).Before (place c.label) := by
  cases h with
  | node _ hbefore _ => exact hbefore

theorem child (h : Nested place t) : ∀ c ∈ t.children, Nested place c := by
  cases h with
  | node _ _ hchild => exact hchild

theorem within (h : Nested place t) : ∀ s ∈ t.nodes, (place s.label).Within (place t.label) := by
  induction t using RoseTree.induct with
  | node t ih =>
    intro s hs
    rcases mem_nodes_iff.1 hs with rfl | ⟨c, hc, hsc⟩
    · exact .refl _
    · exact (ih c hc (h.child c hc) s hsc).trans (h.child_within c hc)

theorem of_mem (h : Nested place t) {s : RoseTree α} (hs : s ∈ t.nodes) : Nested place s := by
  induction t using RoseTree.induct with
  | node t ih =>
    rcases mem_nodes_iff.1 hs with rfl | ⟨c, hc, hsc⟩
    · exact h
    · exact ih c hc (h.child c hc) hsc

/-- Below two children the intervals are apart. -/
theorem apart (h : Nested place t) : t.children.Pairwise fun c d =>
    ∀ s ∈ c.nodes, ∀ r ∈ d.nodes, (place s.label).Before (place r.label) := by
  refine (List.pairwise_iff_forall_sublist.2 fun {c d} hsub => ?_)
  have hbefore := List.pairwise_iff_forall_sublist.1 h.children_before hsub
  have hc : c ∈ t.children := hsub.subset List.mem_cons_self
  have hd : d ∈ t.children := hsub.subset (List.mem_cons_of_mem _ List.mem_cons_self)
  intro s hs r hr
  exact hbefore.mono ((h.child c hc).within s hs) ((h.child d hd).within r hr)

/-- The intervals of two nodes are nested or apart. -/
theorem laminar (h : Nested place t) :
    ∀ s ∈ t.nodes, ∀ r ∈ t.nodes, (place s.label).Laminar (place r.label) := by
  induction t using RoseTree.induct with
  | node t ih =>
    intro s hs r hr
    rcases mem_nodes_iff.1 hs with rfl | ⟨c, hc, hsc⟩
    · exact .inr (.inl (h.within r hr))
    rcases mem_nodes_iff.1 hr with rfl | ⟨d, hd, hrd⟩
    · exact .inl (h.within s hs)
    by_cases hcd : c = d
    · subst hcd
      exact ih c hc (h.child c hc) s hsc r hrd
    · have hsymm : Std.Symm fun c d : RoseTree α =>
          ∀ s ∈ c.nodes, ∀ r ∈ d.nodes, (place s.label).Laminar (place r.label) :=
        ⟨fun _ _ hcd s hs r hr => (hcd r hr s hs).symm⟩
      have hall : t.children.Pairwise fun c d : RoseTree α =>
          ∀ s ∈ c.nodes, ∀ r ∈ d.nodes, (place s.label).Laminar (place r.label) :=
        h.apart.imp fun hbefore s hs r hr => .inr (.inr (.inl (hbefore s hs r hr)))
      exact hall.forall hc hd hcd s hsc r hrd

/-- The nodes are listed in the order in which their intervals start. -/
theorem starts (h : Nested place t) :
    t.nodes.Pairwise fun s r => (place s.label).start ≤ (place r.label).start := by
  induction t using RoseTree.induct with
  | node t ih =>
    rw [nodes_eq, List.pairwise_cons]
    constructor
    · intro r hr
      exact (h.within r (by rw [nodes_eq]; exact List.mem_cons_of_mem _ hr)).1
    · rw [List.pairwise_flatMap]
      refine ⟨fun c hc => ih c hc (h.child c hc), h.apart.imp fun hbefore s hs r hr => ?_⟩
      exact (hbefore s hs r hr).start_le

/-- The labels and the intervals change, and the latter keep their order. -/
theorem map {place' : β → Interval} {f : α → β}
    (hwithin : ∀ a b, (place a).Within (place b) → (place' (f a)).Within (place' (f b)))
    (hbefore : ∀ a b, (place a).Before (place b) → (place' (f a)).Before (place' (f b)))
    (h : Nested place t) : Nested place' (t.map f) := by
  induction t using RoseTree.induct with
  | node t ih =>
    obtain ⟨a, ts⟩ := t
    rw [RoseTree.map, mapAll_eq]
    refine .node ?_ ?_ ?_
    · rw [List.forall_mem_map]
      intro c hc
      rw [label_map]
      exact hwithin _ _ (h.child_within c hc)
    · rw [List.pairwise_map]
      refine h.children_before.imp fun {c d} hcd => ?_
      rw [label_map, label_map]
      exact hbefore _ _ hcd
    · rw [List.forall_mem_map]
      exact fun c hc => ih c hc (h.child c hc)

end Nested

/-! ## Checking a tree -/

mutual

/-- The intervals are `Nested`. -/
def laidOut (place : α → Interval) : RoseTree α → Bool
  | .node a ts => laidOutAll place (place a) (place a).start ts

/-- Those of the trees lie in the interval from a position on, one after the other. -/
def laidOutAll (place : α → Interval) (outer : Interval) (position : Nat) :
    List (RoseTree α) → Bool
  | [] => true
  | t :: ts => decide (position ≤ (place t.label).start) && decide ((place t.label).stop ≤ outer.stop) &&
      laidOut place t && laidOutAll place outer (place t.label).stop ts

end

theorem laidOutAll_spec {place : α → Interval} {outer : Interval} {ts : List (RoseTree α)} :
    ∀ {position : Nat}, laidOutAll place outer position ts = true →
      (∀ t ∈ ts, position ≤ (place t.label).start ∧ (place t.label).stop ≤ outer.stop ∧
        laidOut place t = true) ∧
      ts.Pairwise fun s t => (place s.label).Before (place t.label) := by
  induction ts with
  | nil => exact fun _ => ⟨nofun, .nil⟩
  | cons t ts ih =>
    intro position h
    rw [laidOutAll, Bool.and_eq_true, Bool.and_eq_true, Bool.and_eq_true, decide_eq_true_eq,
      decide_eq_true_eq] at h
    obtain ⟨⟨⟨hstart, hstop⟩, ht⟩, hts⟩ := h
    obtain ⟨hall, hbefore⟩ := ih hts
    have hle := (place t.label).le
    constructor
    · intro s hs
      rcases List.mem_cons.1 hs with rfl | hs
      · exact ⟨hstart, hstop, ht⟩
      · obtain ⟨hfrom, hrest⟩ := hall s hs
        exact ⟨Nat.le_trans hstart (Nat.le_trans hle hfrom), hrest⟩
    · exact List.pairwise_cons.2 ⟨fun s hs => (hall s hs).1, hbefore⟩

theorem nested_of_laidOut {place : α → Interval} {t : RoseTree α} (h : laidOut place t = true) :
    Nested place t := by
  induction t using RoseTree.induct with
  | node t ih =>
    obtain ⟨a, ts⟩ := t
    rw [laidOut] at h
    obtain ⟨hall, hbefore⟩ := laidOutAll_spec h
    refine .node (fun t ht => ?_) hbefore fun t ht => ih t ht (hall t ht).2.2
    exact ⟨(hall t ht).1, (hall t ht).2.1⟩

end RoseTree

open RoseTree

/-! ## What a walk puts out, and for which node -/

theorem target_mem_nodes {rules : Rules α M β} {v w : M × RoseTree α} (h : w ∈ targets rules v) :
    w.2 ∈ v.2.nodes := by
  rcases mem_targets h with hchild | ⟨c, hc, hchild⟩
  · exact child_mem_nodes hchild
  · exact mem_nodes_of_child hc (child_mem_nodes hchild)

theorem visits_mem_nodes {rules : Rules α M β} {v w : M × RoseTree α} (h : Visits rules v w) :
    w.2 ∈ v.2.nodes := by
  induction h with
  | refl => exact self_mem_nodes _
  | tail _ hstep ih => exact nodes_trans (target_mem_nodes hstep) ih

/-- If a mode holds only nodes that the walk has come by, then a visited node's does. -/
theorem held_of_visits {rules : Rules α M β} {held : M → List (RoseTree α)}
    (hstep : ∀ v, ∀ w ∈ targets rules v, ∀ p ∈ held w.1, p ∈ held v.1 ∨ p ∈ v.2.nodes)
    {v w : M × RoseTree α} (h : Visits rules v w) :
    ∀ p ∈ held w.1, p ∈ held v.1 ∨ p ∈ v.2.nodes := by
  induction h with
  | refl => exact fun p hp => .inl hp
  | tail hvisits hw ih =>
    intro p hp
    rcases hstep _ _ hw p hp with hheld | hnode
    · exact ih p hheld
    · exact .inr (nodes_trans hnode (visits_mem_nodes hvisits))

/-- Whatever is put out is so for a visited node. -/
theorem mem_visit {rules : Rules α M β} {v : M × RoseTree α} {b : β}
    (h : b ∈ visit rules v.1 v.2) : ∃ w, Visits rules v w ∧ b ∈ (rules w.1 w.2).emit := by
  induction v using visit_induct rules with
  | step v ih =>
    rw [visit_eq_targets, List.mem_append, List.mem_flatMap] at h
    rcases h with hemit | ⟨w, hw, hb⟩
    · exact ⟨v, .refl, hemit⟩
    · obtain ⟨u, hu, hemit⟩ := ih w hw hb
      exact ⟨u, .head hw hu, hemit⟩

theorem mem_walk {rules : Rules α M β} {mode : M} {t : RoseTree α} {b : β}
    (h : b ∈ walk rules mode t) : ∃ mode', ∃ s ∈ t.nodes, b ∈ (rules mode' s).emit := by
  rw [walk_eq, List.mem_flatMap] at h
  obtain ⟨c, hc, hb⟩ := h
  obtain ⟨w, hw, hemit⟩ := mem_visit (v := (mode, c)) hb
  exact ⟨w.1, w.2, mem_nodes_of_child hc (visits_mem_nodes hw), hemit⟩

/-! ## Walks in order -/

/-- The positions are in the interval, and in order. -/
structure OrderedIn (i : Interval) (position : β → Nat) (bs : List β) : Prop where
  sorted : bs.Pairwise fun b c => position b ≤ position c
  bounds : ∀ b ∈ bs, i.start ≤ position b ∧ position b ≤ i.stop

/-- What is put out has the start of the node as its position; where the walk stops it may have
positions further on in the node. -/
def EmitsAt (place : α → Interval) (position : β → Nat) (s : RoseTree α) (rule : Rule α M β) : Prop :=
  OrderedIn (place s.label) position rule.emit ∧
    (rule.next = .stop ∨ ∀ b ∈ rule.emit, position b = (place s.label).start)

section
variable {place : α → Interval} {position : β → Nat}

theorem orderedIn_start {i : Interval} {bs : List β} (h : ∀ b ∈ bs, position b = i.start) :
    OrderedIn i position bs where
  sorted := List.pairwise_of_forall_mem_list fun b hb c hc =>
    Nat.le_of_eq ((h b hb).trans (h c hc).symm)
  bounds := fun b hb => by
    rw [h b hb]
    exact ⟨Nat.le_refl _, i.le⟩

theorem OrderedIn.mono {i j : Interval} {bs : List β} (h : OrderedIn i position bs)
    (hij : i.Within j) : OrderedIn j position bs where
  sorted := h.sorted
  bounds := fun b hb => ⟨Nat.le_trans hij.1 (h.bounds b hb).1, Nat.le_trans (h.bounds b hb).2 hij.2⟩

theorem emitsAt_start {s : RoseTree α} {rule : Rule α M β}
    (h : ∀ b ∈ rule.emit, position b = (place s.label).start) : EmitsAt place position s rule :=
  ⟨orderedIn_start h, .inr h⟩

/-- Lists for intervals that come one after the other. -/
theorem orderedIn_flatMap {γ : Type} {i : Interval} (q : γ → Interval) {xs : List γ}
    (hwithin : ∀ x ∈ xs, (q x).Within i) (hbefore : xs.Pairwise fun x y => (q x).Before (q y))
    {f : γ → List β} (hf : ∀ x ∈ xs, OrderedIn (q x) position (f x)) :
    OrderedIn i position (xs.flatMap f) where
  sorted := by
    rw [List.pairwise_flatMap]
    refine ⟨fun x hx => (hf x hx).sorted, ?_⟩
    refine List.Pairwise.imp_of_mem (fun {x y} hx hy hxy b hb b' hb' => ?_) hbefore
    exact Nat.le_trans ((hf x hx).bounds b hb).2 (Nat.le_trans hxy ((hf y hy).bounds b' hb').1)
  bounds := by
    intro b hb
    obtain ⟨x, hx, hbx⟩ := List.mem_flatMap.1 hb
    exact ((hf x hx).mono (hwithin x hx)).bounds b hbx

/-- The targets of a node lie in it, one after the other. -/
theorem nested_targets {t : RoseTree α} (h : Nested place t) (next : Next α M) :
    (∀ w ∈ next.targets t.children, Nested place w.2 ∧ (place w.2.label).Within (place t.label)) ∧
      (next.targets t.children).Pairwise fun v w => (place v.2.label).Before (place w.2.label) := by
  cases next with
  | stop => exact ⟨fun w hw => absurd hw List.not_mem_nil, .nil⟩
  | children mode =>
    constructor
    · rw [Next.targets, List.forall_mem_map]
      exact fun c hc => ⟨h.child c hc, h.child_within c hc⟩
    · rw [Next.targets, List.pairwise_map]
      exact h.children_before
  | below pick mode =>
    rw [Next.targets]
    cases hfind : t.children.find? fun c => pick c.label with
    | none => exact ⟨fun w hw => absurd hw List.not_mem_nil, .nil⟩
    | some c =>
      have hc := List.mem_of_find?_eq_some hfind
      have hchild := h.child c hc
      rw [Option.elim_some, List.forall_mem_map, List.pairwise_map]
      refine ⟨fun s hs => ⟨hchild.child s hs, ?_⟩, hchild.children_before⟩
      exact (hchild.child_within s hs).trans (h.child_within c hc)
  | child pick mode =>
    rw [Next.targets, List.forall_mem_map, List.pairwise_map]
    cases hfind : t.children.find? fun c => pick c.label with
    | none => exact ⟨fun c hc => absurd hc List.not_mem_nil, .nil⟩
    | some found =>
      refine ⟨fun c hc => ?_, List.pairwise_singleton _ _⟩
      rw [List.mem_singleton.1 hc]
      have hfound := List.mem_of_find?_eq_some hfind
      exact ⟨h.child found hfound, h.child_within found hfound⟩

/-- A walk puts things out in the order of their positions. -/
theorem visit_ordered {rules : Rules α M β}
    (hemit : ∀ mode s, Nested place s → EmitsAt place position s (rules mode s)) (mode : M)
    {t : RoseTree α} (h : Nested place t) :
    OrderedIn (place t.label) position (visit rules mode t) := by
  suffices hall : ∀ v : M × RoseTree α, Nested place v.2 →
      OrderedIn (place v.2.label) position (visit rules v.1 v.2) from hall (mode, t) h
  intro v
  induction v using visit_induct rules with
  | step v ih =>
    intro h
    obtain ⟨mode, t⟩ := v
    obtain ⟨hordered, hnext⟩ := hemit mode t h
    obtain ⟨hnested, hbefore⟩ := nested_targets h (rules mode t).next
    rw [visit_eq_targets rules (mode, t)]
    rcases hnext with hstop | hstart
    · rw [targets_stop hstop, List.flatMap_nil, List.append_nil]
      exact hordered
    · have hbelow := orderedIn_flatMap (fun w => place w.2.label) (fun w hw => (hnested w hw).2)
        hbefore fun w hw => ih w hw (hnested w hw).1
      constructor
      · refine List.pairwise_append.2 ⟨hordered.sorted, hbelow.sorted, fun b hb c hc => ?_⟩
        rw [hstart b hb]
        exact (hbelow.bounds c hc).1
      · exact fun b hb => (List.mem_append.1 hb).elim (hordered.bounds b) (hbelow.bounds b)

theorem walk_ordered {rules : Rules α M β}
    (hemit : ∀ mode s, Nested place s → EmitsAt place position s (rules mode s)) (mode : M)
    {t : RoseTree α} (h : Nested place t) : OrderedIn (place t.label) position (walk rules mode t) := by
  rw [walk_eq]
  exact orderedIn_flatMap (fun c => place c.label) h.child_within h.children_before fun c hc =>
    visit_ordered hemit mode (h.child c hc)

/-! ## Which node something is for -/

/-- What the rule puts out is for the node, or, where the walk stops, for one child of it or for
its children in their order. -/
inductive PutsOut (of : RoseTree α → β → Prop) (t : RoseTree α) (rule : Rule α M β) : Prop
  | own (h : ∀ b ∈ rule.emit, of t b)
  | child (stop : rule.next = .stop) (c : RoseTree α) (mem : c ∈ t.children)
      (h : ∀ b ∈ rule.emit, of c b)
  | children (stop : rule.next = .stop) (f : RoseTree α → List β)
      (emit : rule.emit = t.children.flatMap f) (h : ∀ c ∈ t.children, ∀ b ∈ f c, of c b)

theorem PutsOut.below {of : RoseTree α → β → Prop} {t : RoseTree α} {rule : Rule α M β}
    (h : PutsOut of t rule) : ∀ b ∈ rule.emit, ∃ s ∈ t.nodes, of s b := by
  intro b hb
  cases h with
  | own h => exact ⟨t, self_mem_nodes t, h b hb⟩
  | child stop c mem h => exact ⟨c, child_mem_nodes mem, h b hb⟩
  | children stop f emit h =>
    rw [emit] at hb
    obtain ⟨c, hc, hbc⟩ := List.mem_flatMap.1 hb
    exact ⟨c, child_mem_nodes hc, h c hc b hbc⟩

theorem PutsOut.emitsAt {of : RoseTree α → β → Prop} {t : RoseTree α} {rule : Rule α M β}
    (h : PutsOut of t rule) (hof : ∀ s b, of s b → position b = (place s.label).start)
    (ht : Nested place t) : EmitsAt place position t rule := by
  cases h with
  | own h => exact emitsAt_start fun b hb => hof t b (h b hb)
  | child stop c mem h =>
    exact ⟨(orderedIn_start fun b hb => hof c b (h b hb)).mono (ht.child_within c mem), .inl stop⟩
  | children stop f emit h =>
    refine ⟨?_, .inl stop⟩
    rw [emit]
    exact orderedIn_flatMap (fun c => place c.label) ht.child_within ht.children_before
      fun c hc => orderedIn_start fun b hb => hof c b (h c hc b hb)

end

end TreeWalk
