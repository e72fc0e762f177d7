import Mathlib.Data.List.Basic
import Mathlib.Logic.Relation

/-!
# Walks over a tree, by rules

A walk visits the children of a node.  What it does at a child is a rule: what it puts
out, and where it goes on below the child, possibly in another mode.

Two walks agree when the second does what the rules of the first say at every node that
the first visits (`walk_eq_walk`).  When the first has less than the second where they
part, and stops there, this is also necessary (`agree_at_found`).
-/

namespace TreeWalk

inductive RoseTree (α : Type) where
  | node (label : α) (children : List (RoseTree α))

namespace RoseTree
variable {α : Type}

def label : RoseTree α → α
  | node a _ => a

def children : RoseTree α → List (RoseTree α)
  | node _ ts => ts

theorem induct {motive : RoseTree α → Prop}
    (node : ∀ t : RoseTree α, (∀ s ∈ t.children, motive s) → motive t) (t : RoseTree α) : motive t :=
  @RoseTree.rec α motive (fun ts => ∀ s ∈ ts, motive s)
    (fun a ts ih => node (.node a ts) ih) (fun _ h => absurd h List.not_mem_nil)
    (fun _ _ ih ihs _ h => (List.mem_cons.1 h).elim (fun heq => heq ▸ ih) (ihs _)) t

end RoseTree

/-- Where a walk goes on below a node. -/
inductive Next (α M : Type) where
  | stop
  | children (mode : M)
  /-- The children of the first child that is picked. -/
  | below (pick : α → Bool) (mode : M)
  /-- The first child that is picked. -/
  | child (pick : α → Bool) (mode : M)

structure Rule (α M β : Type) where
  emit : List β
  next : Next α M

/-- The rules of a walk. -/
abbrev Rules (α M β : Type) := M → RoseTree α → Rule α M β

section
variable {α M β γ : Type}

mutual

/-- The walk comes to a node. -/
def visit (rules : Rules α M β) (mode : M) : RoseTree α → List β
  | .node a ts =>
    (rules mode (.node a ts)).emit ++
      match (rules mode (.node a ts)).next with
      | .stop => []
      | .children mode' => visitAll rules mode' ts
      | .below pick mode' => visitBelow rules pick mode' ts
      | .child pick mode' => visitFirst rules pick mode' ts

def visitAll (rules : Rules α M β) (mode : M) : List (RoseTree α) → List β
  | [] => []
  | t :: ts => visit rules mode t ++ visitAll rules mode ts

def visitBelow (rules : Rules α M β) (pick : α → Bool) (mode : M) : List (RoseTree α) → List β
  | [] => []
  | .node a ts :: rest => if pick a then visitAll rules mode ts else visitBelow rules pick mode rest

def visitFirst (rules : Rules α M β) (pick : α → Bool) (mode : M) : List (RoseTree α) → List β
  | [] => []
  | .node a ts :: rest =>
    if pick a then visit rules mode (.node a ts) else visitFirst rules pick mode rest

end

/-- The walk of a tree visits the children of its root. -/
def walk (rules : Rules α M β) (mode : M) (t : RoseTree α) : List β := visitAll rules mode t.children

/-- The nodes that are visited next, with their modes. -/
def Next.targets (ts : List (RoseTree α)) : Next α M → List (M × RoseTree α)
  | .stop => []
  | .children mode => ts.map fun t => (mode, t)
  | .below pick mode =>
    (ts.find? fun t => pick t.label).elim [] fun t => t.children.map fun s => (mode, s)
  | .child pick mode => (ts.find? fun t => pick t.label).toList.map fun t => (mode, t)

/-- What is visited next after a node. -/
def targets (rules : Rules α M β) (v : M × RoseTree α) : List (M × RoseTree α) :=
  (rules v.1 v.2).next.targets v.2.children

theorem visitAll_eq (rules : Rules α M β) (mode : M) (ts : List (RoseTree α)) :
    visitAll rules mode ts = (ts.map fun t => (mode, t)).flatMap fun v => visit rules v.1 v.2 := by
  induction ts with
  | nil => rfl
  | cons t ts ih =>
    rw [visitAll, ih]
    rfl

theorem visitBelow_eq (rules : Rules α M β) (pick : α → Bool) (mode : M) (ts : List (RoseTree α)) :
    visitBelow rules pick mode ts =
      (Next.targets ts (.below pick mode)).flatMap fun v => visit rules v.1 v.2 := by
  induction ts with
  | nil => rfl
  | cons t ts ih =>
    obtain ⟨a, cs⟩ := t
    by_cases h : pick a = true
    · simp only [visitBelow, Next.targets, List.find?_cons, RoseTree.label, h, if_true]
      exact visitAll_eq rules mode cs
    · simp only [visitBelow, Next.targets, List.find?_cons, RoseTree.label, h]
      exact ih

theorem visitFirst_eq (rules : Rules α M β) (pick : α → Bool) (mode : M) (ts : List (RoseTree α)) :
    visitFirst rules pick mode ts =
      (Next.targets ts (.child pick mode)).flatMap fun v => visit rules v.1 v.2 := by
  induction ts with
  | nil => rfl
  | cons t ts ih =>
    obtain ⟨a, cs⟩ := t
    by_cases h : pick a = true
    · simp only [visitFirst, Next.targets, List.find?_cons, RoseTree.label, h, if_true]
      exact (List.append_nil _).symm
    · simp only [visitFirst, Next.targets, List.find?_cons, RoseTree.label, h]
      exact ih

/-- A visit puts out what its rule says, and then what the visits that follow do. -/
theorem visit_eq_targets (rules : Rules α M β) (v : M × RoseTree α) :
    visit rules v.1 v.2 =
      (rules v.1 v.2).emit ++ (targets rules v).flatMap fun w => visit rules w.1 w.2 := by
  obtain ⟨mode, ⟨a, ts⟩⟩ := v
  rw [visit, targets]
  congr 1
  show _ = ((rules mode (.node a ts)).next.targets ts).flatMap _
  cases (rules mode (.node a ts)).next with
  | stop => rfl
  | children mode' => exact visitAll_eq rules mode' ts
  | below pick mode' => exact visitBelow_eq rules pick mode' ts
  | child pick mode' => exact visitFirst_eq rules pick mode' ts

theorem walk_eq (rules : Rules α M β) (mode : M) (t : RoseTree α) :
    walk rules mode t = t.children.flatMap fun s => visit rules mode s := by
  rw [walk, visitAll_eq, List.flatMap_map]

/-- A node with nothing to put out whose children are all visited. -/
theorem visit_children {rules : Rules α M β} {v : M × RoseTree α} {mode : M}
    (h : rules v.1 v.2 = ⟨[], .children mode⟩) :
    visit rules v.1 v.2 = v.2.children.flatMap fun s => visit rules mode s := by
  rw [visit_eq_targets, targets, h]
  exact List.flatMap_map _ _ _

/-- A node below which the children of a picked child are visited. -/
theorem flatMap_targets_below {rules : Rules α M β} {v : M × RoseTree α} {emit : List β}
    {pick : α → Bool} {mode : M} (h : rules v.1 v.2 = ⟨emit, .below pick mode⟩)
    (f : M × RoseTree α → List γ) :
    (targets rules v).flatMap f = (v.2.children.find? fun t => pick t.label).elim []
      fun t => t.children.flatMap fun s => f (mode, s) := by
  rw [targets, h]
  show List.flatMap f (Option.elim _ _ _) = _
  cases v.2.children.find? fun t => pick t.label with
  | none => rfl
  | some t => exact List.flatMap_map _ _ _

/-- A node of which a picked child is visited. -/
theorem visit_child {rules : Rules α M β} {v : M × RoseTree α} {emit : List β}
    {pick : α → Bool} {mode : M} (h : rules v.1 v.2 = ⟨emit, .child pick mode⟩) :
    visit rules v.1 v.2 =
      emit ++ (v.2.children.find? fun t => pick t.label).elim [] fun t => visit rules mode t := by
  rw [visit_eq_targets, targets, h]
  congr 1
  show List.flatMap _ (List.map _ (Option.toList _)) = _
  cases v.2.children.find? fun t => pick t.label with
  | none => rfl
  | some t => exact List.append_nil _

/-- The nodes a walk visits from one on. -/
def Visits (rules : Rules α M β) : M × RoseTree α → M × RoseTree α → Prop :=
  Relation.ReflTransGen fun v w => w ∈ targets rules v

theorem mem_targets {rules : Rules α M β} {v w : M × RoseTree α} (h : w ∈ targets rules v) :
    w.2 ∈ v.2.children ∨ ∃ t ∈ v.2.children, w.2 ∈ t.children := by
  unfold targets at h
  cases hnext : (rules v.1 v.2).next with
  | stop =>
    rw [hnext] at h
    cases h
  | children mode =>
    rw [hnext] at h
    obtain ⟨t, ht, rfl⟩ := List.mem_map.1 h
    exact .inl ht
  | below pick mode =>
    rw [hnext] at h
    simp only [Next.targets] at h
    cases hfind : v.2.children.find? fun t => pick t.label with
    | none =>
      rw [hfind] at h
      cases h
    | some t =>
      rw [hfind] at h
      obtain ⟨s, hs, rfl⟩ := List.mem_map.1 h
      exact .inr ⟨t, List.mem_of_find?_eq_some hfind, hs⟩
  | child pick mode =>
    rw [hnext] at h
    obtain ⟨t, ht, rfl⟩ := List.mem_map.1 h
    exact .inl (List.mem_of_find?_eq_some (Option.mem_toList.1 ht))

/-- The mode in which a walk goes on. -/
def Next.mode? : Next α M → Option M
  | .stop => none
  | .children mode | .below _ mode | .child _ mode => some mode

theorem mode_of_mem_targets {rules : Rules α M β} {v w : M × RoseTree α}
    (h : w ∈ targets rules v) : (rules v.1 v.2).next.mode? = some w.1 := by
  unfold targets at h
  cases hnext : (rules v.1 v.2).next with
  | stop =>
    rw [hnext] at h
    cases h
  | children mode =>
    rw [hnext] at h
    obtain ⟨t, -, rfl⟩ := List.mem_map.1 h
    rfl
  | below pick mode =>
    rw [hnext] at h
    simp only [Next.targets] at h
    cases hfind : v.2.children.find? fun t => pick t.label with
    | none =>
      rw [hfind] at h
      cases h
    | some t =>
      rw [hfind] at h
      obtain ⟨s, -, rfl⟩ := List.mem_map.1 h
      rfl
  | child pick mode =>
    rw [hnext] at h
    obtain ⟨t, -, rfl⟩ := List.mem_map.1 h
    rfl

/-- What is proved of a node from what is visited next holds of every node. -/
theorem visit_induct (rules : Rules α M β) {motive : M × RoseTree α → Prop}
    (step : ∀ v, (∀ w ∈ targets rules v, motive w) → motive v) (v : M × RoseTree α) : motive v := by
  obtain ⟨mode, t⟩ := v
  -- A target is a child, or a child's child: the induction carries both.
  have hboth : (∀ mode, motive (mode, t)) ∧ ∀ s ∈ t.children, ∀ mode, motive (mode, s) := by
    induction t using RoseTree.induct with
    | node t ih =>
      refine ⟨fun mode => step _ fun w hw => ?_, fun s hs => (ih s hs).1⟩
      rcases mem_targets hw with hchild | ⟨s, hs, hchild⟩
      · exact (ih w.2 hchild).1 w.1
      · exact (ih s hs).2 w.2 hchild w.1
  exact hboth.1 mode

/-! ## What a walk puts out -/

/-- The rules that put out `f` of what others do. -/
def mapEmit (f : β → List γ) (rules : Rules α M β) : Rules α M γ := fun mode t =>
  ⟨(rules mode t).emit.flatMap f, (rules mode t).next⟩

theorem visit_mapEmit (f : β → List γ) (rules : Rules α M β) (v : M × RoseTree α) :
    visit (mapEmit f rules) v.1 v.2 = (visit rules v.1 v.2).flatMap f := by
  induction v using visit_induct rules with
  | step v ih =>
    rw [visit_eq_targets, visit_eq_targets rules, List.flatMap_append, List.flatMap_assoc]
    congr 1
    exact List.flatMap_congr ih

theorem walk_mapEmit (f : β → List γ) (rules : Rules α M β) (mode : M) (t : RoseTree α) :
    walk (mapEmit f rules) mode t = (walk rules mode t).flatMap f := by
  rw [walk_eq, walk_eq, List.flatMap_assoc]
  exact List.flatMap_congr fun s _ => visit_mapEmit f rules (mode, s)

/-- Nothing is put out from a node on. -/
def Silent (rules : Rules α M β) (v : M × RoseTree α) : Prop :=
  ∀ w, Visits rules v w → (rules w.1 w.2).emit = []

theorem visit_eq_nil_iff (rules : Rules α M β) (v : M × RoseTree α) :
    visit rules v.1 v.2 = [] ↔ Silent rules v := by
  constructor
  · intro h w hw
    induction hw using Relation.ReflTransGen.head_induction_on with
    | refl =>
      rw [visit_eq_targets, List.append_eq_nil_iff] at h
      exact h.1
    | head hstep _ ih =>
      rw [visit_eq_targets, List.append_eq_nil_iff, List.flatMap_eq_nil_iff] at h
      exact ih (h.2 _ hstep)
  · intro h
    induction v using visit_induct rules with
    | step v ih =>
      rw [visit_eq_targets, List.append_eq_nil_iff, List.flatMap_eq_nil_iff]
      exact ⟨h v .refl, fun w hw => ih w hw fun u hu => h u (.head hw hu)⟩

theorem silent_iff_targets {rules : Rules α M β} {v : M × RoseTree α}
    (h : (rules v.1 v.2).emit = []) :
    visit rules v.1 v.2 = [] ↔ ∀ w ∈ targets rules v, Silent rules w := by
  rw [visit_eq_targets, h, List.nil_append, List.flatMap_eq_nil_iff]
  exact forall₂_congr fun w _ => visit_eq_nil_iff rules w

/-- A node whose children are all visited. -/
theorem silent_iff_children {rules : Rules α M β} {v : M × RoseTree α} {mode : M}
    (h : rules v.1 v.2 = ⟨[], .children mode⟩) :
    visit rules v.1 v.2 = [] ↔ ∀ s ∈ v.2.children, Silent rules (mode, s) := by
  rw [silent_iff_targets (by rw [h])]
  unfold targets
  rw [h]
  exact List.forall_mem_map

/-- A node below which the children of a picked child are visited. -/
theorem silent_iff_below {rules : Rules α M β} {v : M × RoseTree α} {pick : α → Bool} {mode : M}
    (h : rules v.1 v.2 = ⟨[], .below pick mode⟩) :
    visit rules v.1 v.2 = [] ↔ ∀ t, (v.2.children.find? fun t => pick t.label) = some t →
      ∀ s ∈ t.children, Silent rules (mode, s) := by
  rw [silent_iff_targets (by rw [h])]
  unfold targets
  rw [h]
  show (∀ w ∈ Option.elim _ _ _, _) ↔ _
  cases v.2.children.find? fun t => pick t.label with
  | none => exact ⟨fun _ _ h => absurd h nofun, fun _ _ h => absurd h List.not_mem_nil⟩
  | some t =>
    refine List.forall_mem_map.trans ⟨fun hall s hs => ?_, fun hall => hall t rfl⟩
    cases hs
    exact hall

/-! ## Two walks -/

/-- At this node the second walk does what the rule of the first says. -/
def Follows (rules rules' : Rules α M β) (v : M × RoseTree α) : Prop :=
  (rules v.1 v.2).emit ++ ((targets rules v).flatMap fun w => visit rules' w.1 w.2) =
    visit rules' v.1 v.2

theorem follows_of_rule {rules rules' : Rules α M β} {v : M × RoseTree α}
    (h : rules v.1 v.2 = rules' v.1 v.2) : Follows rules rules' v := by
  have htargets : targets rules v = targets rules' v := by
    unfold targets
    rw [h]
  unfold Follows
  rw [htargets, h]
  exact (visit_eq_targets rules' v).symm

theorem targets_stop {rules : Rules α M β} {v : M × RoseTree α}
    (h : (rules v.1 v.2).next = .stop) : targets rules v = [] := by
  unfold targets
  rw [h]
  rfl

theorem visit_stop {rules : Rules α M β} {v : M × RoseTree α}
    (h : (rules v.1 v.2).next = .stop) : visit rules v.1 v.2 = (rules v.1 v.2).emit := by
  rw [visit_eq_targets, targets_stop h, List.flatMap_nil, List.append_nil]

/-- The walks agree if the second does what the first says wherever that one goes. -/
theorem visit_eq {rules rules' : Rules α M β} {v : M × RoseTree α}
    (h : ∀ w, Visits rules v w → Follows rules rules' w) :
    visit rules v.1 v.2 = visit rules' v.1 v.2 := by
  induction v using visit_induct rules with
  | step v ih =>
    rw [visit_eq_targets, ← h v .refl]
    congr 1
    exact List.flatMap_congr fun w hw => ih w hw fun u hu => h u (.head hw hu)

theorem flatMap_sublist {f g : α → List β} {l : List α} (h : ∀ a ∈ l, (f a).Sublist (g a)) :
    (l.flatMap f).Sublist (l.flatMap g) := by
  induction l with
  | nil => exact .slnil
  | cons a l ih =>
    rw [List.flatMap_cons, List.flatMap_cons]
    exact (h a List.mem_cons_self).append (ih fun b hb => h b (List.mem_cons_of_mem _ hb))

theorem sublist_flatMap_of_mem {f : α → List β} {l : List α} {a : α} (h : a ∈ l) :
    (f a).Sublist (l.flatMap f) := by
  obtain ⟨pre, post, rfl⟩ := List.append_of_mem h
  rw [List.flatMap_append, List.flatMap_cons]
  exact (List.sublist_append_left _ _).trans (List.sublist_append_right _ _)

theorem eq_of_append_eq {a b c d : List α} (hac : a.Sublist c) (hbd : b.Sublist d)
    (h : a ++ b = c ++ d) : a = c ∧ b = d := by
  have hlength := congrArg List.length h
  rw [List.length_append, List.length_append] at hlength
  have ha := hac.length_le
  have hb := hbd.length_le
  exact ⟨hac.eq_of_length (by omega), hbd.eq_of_length (by omega)⟩

/-- Lists that are pieced together from sublists are equal only piece by piece. -/
theorem eq_of_flatMap_eq {f g : α → List β} {l : List α} (h : ∀ a ∈ l, (f a).Sublist (g a))
    (heq : l.flatMap f = l.flatMap g) : ∀ a ∈ l, f a = g a := by
  induction l with
  | nil => nofun
  | cons a l ih =>
    rw [List.flatMap_cons, List.flatMap_cons] at heq
    have hrest : ∀ b ∈ l, (f b).Sublist (g b) := fun b hb => h b (List.mem_cons_of_mem _ hb)
    obtain ⟨hhead, htail⟩ := eq_of_append_eq (h a List.mem_cons_self) (flatMap_sublist hrest) heq
    intro b hb
    rcases List.mem_cons.1 hb with rfl | hb
    · exact hhead
    · exact ih hrest htail b hb

/-- The second walk does what the first says at this node, or the first stops here with less. -/
def Lesser (rules rules' : Rules α M β) (v : M × RoseTree α) : Prop :=
  Follows rules rules' v ∨
    (rules v.1 v.2).next = .stop ∧ (rules v.1 v.2).emit.Sublist (visit rules' v.1 v.2)

theorem visit_sublist {rules rules' : Rules α M β} {v : M × RoseTree α}
    (h : ∀ w, Visits rules v w → Lesser rules rules' w) :
    (visit rules v.1 v.2).Sublist (visit rules' v.1 v.2) := by
  induction v using visit_induct rules with
  | step v ih =>
    rcases h v .refl with hfollows | ⟨hstop, hemit⟩
    · rw [visit_eq_targets, ← hfollows]
      exact (List.Sublist.refl _).append
        (flatMap_sublist fun w hw => ih w hw fun u hu => h u (.head hw hu))
    · rw [visit_stop hstop]
      exact hemit

/-- If the lesser walk puts out the same, it does so at every node it visits. -/
theorem agree_at_visited {rules rules' : Rules α M β} {v : M × RoseTree α}
    (h : ∀ w, Visits rules v w → Lesser rules rules' w)
    (heq : visit rules v.1 v.2 = visit rules' v.1 v.2) :
    ∀ w, Visits rules v w → visit rules w.1 w.2 = visit rules' w.1 w.2 := by
  intro w hw
  induction hw using Relation.ReflTransGen.head_induction_on with
  | refl => exact heq
  | @head v u hstep hrest ih =>
    refine ih (fun x hx => h x (.head hstep hx)) ?_
    rcases h v .refl with hfollows | ⟨hstop, -⟩
    · rw [visit_eq_targets, ← hfollows] at heq
      refine eq_of_flatMap_eq (fun x hx => ?_) (List.append_cancel_left heq) u hstep
      exact visit_sublist fun y hy => h y (.head hx hy)
    · rw [targets_stop hstop] at hstep
      cases hstep

/-- The nodes that the walk of a tree visits. -/
def Found (rules : Rules α M β) (mode : M) (t : RoseTree α) (v : M × RoseTree α) : Prop :=
  ∃ s ∈ t.children, Visits rules (mode, s) v

theorem emit_sublist_visit {rules : Rules α M β} {v w : M × RoseTree α} (h : Visits rules v w) :
    (rules w.1 w.2).emit.Sublist (visit rules v.1 v.2) := by
  induction h using Relation.ReflTransGen.head_induction_on with
  | refl =>
    rw [visit_eq_targets]
    exact List.sublist_append_left _ _
  | head hstep _ ih =>
    have hbelow := sublist_flatMap_of_mem (f := fun u => visit rules u.1 u.2) hstep
    rw [visit_eq_targets]
    exact (ih.trans hbelow).trans (List.sublist_append_right _ _)

/-- What is put out at a node is among what the walk puts out. -/
theorem emit_sublist_walk {rules : Rules α M β} {mode : M} {t : RoseTree α} {v : M × RoseTree α}
    (h : Found rules mode t v) : (rules v.1 v.2).emit.Sublist (walk rules mode t) := by
  obtain ⟨s, hs, hv⟩ := h
  rw [walk_eq]
  exact (emit_sublist_visit hv).trans (sublist_flatMap_of_mem hs)

theorem walk_eq_walk {rules rules' : Rules α M β} {mode : M} {t : RoseTree α}
    (h : ∀ v, Found rules mode t v → Follows rules rules' v) :
    walk rules mode t = walk rules' mode t := by
  rw [walk_eq, walk_eq]
  exact List.flatMap_congr fun s hs => visit_eq (v := (mode, s)) fun w hw => h w ⟨s, hs, hw⟩

theorem agree_at_found {rules rules' : Rules α M β} {mode : M} {t : RoseTree α}
    (h : ∀ v, Found rules mode t v → Lesser rules rules' v)
    (heq : walk rules mode t = walk rules' mode t) :
    ∀ v, Found rules mode t v → visit rules v.1 v.2 = visit rules' v.1 v.2 := by
  rintro v ⟨s, hs, hv⟩
  rw [walk_eq, walk_eq] at heq
  have hchild := eq_of_flatMap_eq
    (fun r hr => visit_sublist (v := (mode, r)) fun w hw => h w ⟨r, hr, hw⟩) heq s hs
  exact agree_at_visited (fun w hw => h w ⟨s, hs, hw⟩) hchild v hv

/-- A walk that has less than another at the nodes where they part, and stops there, puts out the
same if and only if the other has nothing more at any of them. -/
theorem walk_eq_iff {rules rules' : Rules α M β} {mode : M} {t : RoseTree α}
    (parts : M × RoseTree α → Prop)
    (same : ∀ v, Found rules mode t v → ¬ parts v → Follows rules rules' v)
    (less : ∀ v, Found rules mode t v → parts v → (rules v.1 v.2).next = .stop ∧
      (rules v.1 v.2).emit.Sublist (visit rules' v.1 v.2)) :
    walk rules mode t = walk rules' mode t ↔
      ∀ v, Found rules mode t v → parts v → (rules v.1 v.2).emit = visit rules' v.1 v.2 := by
  constructor
  · intro heq v hv hparts
    have hlesser : ∀ w, Found rules mode t w → Lesser rules rules' w := by
      intro w hw
      by_cases hpartsw : parts w
      · exact .inr (less w hw hpartsw)
      · exact .inl (same w hw hpartsw)
    rw [← visit_stop (less v hv hparts).1]
    exact agree_at_found hlesser heq v hv
  · intro h
    refine walk_eq_walk fun v hv => ?_
    by_cases hparts : parts v
    · unfold Follows
      rw [targets_stop (less v hv hparts).1, List.flatMap_nil, List.append_nil]
      exact h v hv hparts
    · exact same v hv hparts

end

end TreeWalk
