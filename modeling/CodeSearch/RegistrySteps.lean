import CodeSearch.ChunkId
import CodeSearch.Lib.StringMap
import CodeSearch.Registry

/-!
# One step of a call to the registry

`Stage.Moves` lists what a step can be; every invariant is a case analysis on it.
`Fs.Sound` is what a step keeps: the registry file holds what one completed save wrote, and
a call that is writing its temporary file is the only one that knows it.
-/

namespace CodeSearch

open Sorted

section
variable {P : Type} {J : Json} {A : PathApi P} {dir : Path}

/-! ## What a step can be -/

/-- The steps of a call, with what they rely on. -/
inductive Stage.Moves (J : Json) (A : PathApi P) (dir : Path) (request : Request P) (fs : Fs)
    (present : P → Bool) : Stage P → Fs → Stage P → Event P → Prop
  | configDir (n : Nat) (s : Stage P) (hs : s = .opening ∨ s = .returned none) :
      Moves J A dir request fs present .configDir (fs.createDirAll dir n).1 s
        (.created (fs.createDirAll dir n).2)
  | absent (h : fs.node (registryPath dir) = none) :
      Moves J A dir request fs present .opening fs (afterLoad request .empty) .absent
  | opened (inode : Nat) (h : fs.node (registryPath dir) = some (.file inode)) :
      Moves J A dir request fs present .opening fs (.reading inode []) .opened
  | read (inode n : Nat) (acc : List UInt8) :
      Moves J A dir request fs present (.reading inode acc) fs
        (.reading inode (acc ++ ((fs.data inode).drop acc.length).take n)) .quiet
  | parsed (inode : Nat) (acc : List UInt8) (registry : Option (Registry P))
      (hend : (fs.data inode).length ≤ acc.length) (h : parseRegistry J A acc = registry)
      (s : Stage P) (hs : s = match registry with
        | some registry => .pruning registry registry.list
        | none => .returned none) :
      Moves J A dir request fs present (.reading inode acc) fs s (.parsed registry)
  | pruned (registry : Registry P) :
      Moves J A dir request fs present (.pruning registry []) fs (afterLoad request registry) .quiet
  | prune (registry : Registry P) (entry : Text × P) (todo : List (Text × P)) :
      Moves J A dir request fs present (.pruning registry (entry :: todo)) fs
        (.pruning (if present entry.2 then registry else registry.erase entry.1) todo) .quiet
  | insert (registry : Registry P) (root indexDb : P) (path : Option P)
      (h : request = .register root indexDb) :
      Moves J A dir request fs present (.inserting registry) fs
        (.parentDir (registry.insert (canonicalKey A root path) indexDb))
        (.inserted (canonicalKey A root path) indexDb)
  | parentDir (registry : Registry P) (n : Nat) (s : Stage P)
      (hs : s = .drawing registry ∨ s = .returned none) :
      Moves J A dir request fs present (.parentDir registry) (fs.createDirAll dir n).1 s
        (.created (fs.createDirAll dir n).2)
  | draw (registry : Registry P) (pid nonce : Nat) :
      Moves J A dir request fs present (.drawing registry) fs
        (.creating registry (tmpPath dir pid nonce)) (.drew pid nonce)
  | truncate (registry : Registry P) (tmp : Path) (inode : Nat)
      (h : fs.node tmp = some (.file inode)) :
      Moves J A dir request fs present (.creating registry tmp) (fs.truncate inode)
        (.writing registry tmp inode (asBytes (toJson J A registry))) (.wrote tmp)
  | create (registry : Registry P) (tmp : Path) (h : fs.node tmp = none)
      (hdir : fs.node dir = some .dir) :
      Moves J A dir request fs present (.creating registry tmp) (fs.create tmp)
        (.writing registry tmp fs.unused (asBytes (toJson J A registry))) (.wrote tmp)
  | write (registry : Registry P) (tmp : Path) (inode : Nat) (piece rest : List UInt8) :
      Moves J A dir request fs present (.writing registry tmp inode (piece ++ rest))
        (fs.append inode piece) (.writing registry tmp inode rest) (.wrote tmp)
  | written (registry : Registry P) (tmp : Path) (inode : Nat) :
      Moves J A dir request fs present (.writing registry tmp inode []) fs
        (.replacing registry tmp) .quiet
  | rename (registry : Registry P) (tmp : Path) (inode : Nat)
      (h : fs.node tmp = some (.file inode)) (hdst : fs.node (registryPath dir) ≠ some .dir) :
      Moves J A dir request fs present (.replacing registry tmp)
        (fs.rename tmp (registryPath dir) inode) (.returned (some registry)) (.saved registry tmp)
  | renameFailed (registry : Registry P) (tmp : Path) :
      Moves J A dir request fs present (.replacing registry tmp) fs (.cleaning tmp) .quiet
  | clean (tmp : Path) (inode : Nat) (h : fs.node tmp = some (.file inode)) :
      Moves J A dir request fs present (.cleaning tmp) (fs.remove tmp) (.returned none) (.removed tmp)
  | fail (s : Stage P) : Moves J A dir request fs present s fs (.returned none) .quiet

theorem moves_of_next {request : Request P} {fs fs' : Fs} {present : P → Bool} {s s' : Stage P}
    {choice : Choice P} {ev : Event P}
    (h : s.next J A dir request fs present choice = some (fs', s', ev)) :
    s.Moves J A dir request fs present fs' s' ev := by
  unfold Stage.next at h
  split at h
  · cases h
    refine .configDir _ _ ?_
    split
    · exact .inl rfl
    · exact .inr rfl
  · split at h <;> cases h
    · exact .absent ‹_›
    · exact .opened _ ‹_›
    · exact .fail _
  · cases h
    exact .fail _
  · next inode acc n =>
    split at h
    · next hnil =>
      have hend : (fs.data inode).length ≤ acc.length := by
        rw [List.take_eq_nil_iff] at hnil
        exact List.drop_eq_nil_iff.1 (hnil.resolve_left (by omega))
      split at h <;> cases h
      · next hp => exact .parsed _ _ _ hend hp _ rfl
      · next hp => exact .parsed _ _ _ hend hp _ rfl
    · cases h
      exact .read _ _ _
  · cases h
    exact .fail _
  · cases h
    exact .pruned _
  · cases h
    exact .prune _ _ _
  · split at h <;> cases h
    exact .insert _ _ _ _ rfl
  · cases h
    refine .parentDir _ _ _ ?_
    split
    · exact .inl rfl
    · exact .inr rfl
  · cases h
    exact .draw _ _ _
  · split at h
    · cases h
      exact .truncate _ _ _ ‹_›
    · cases h
      exact .fail _
    · split at h <;> cases h
      · exact .create _ _ ‹_› ‹_›
      · exact .fail _
  · cases h
    exact .fail _
  · cases h
    exact .written _ _ _
  · next registry tmp inode b rest n =>
    cases h
    have hsplit : b :: rest = (b :: rest.take n) ++ rest.drop n := by
      rw [List.cons_append, List.take_append_drop]
    rw [hsplit]
    exact .write _ _ _ _ _
  · cases h
    exact .fail _
  · split at h
    · cases h
      exact .renameFailed _ _
    · next hnotdir =>
      cases h
      exact .rename _ _ _ ‹_› hnotdir
    · cases h
      exact .renameFailed _ _
  · cases h
    exact .renameFailed _ _
  · split at h <;> cases h
    · exact .clean _ _ ‹_›
    · exact .fail _
  · cases h
    exact .fail _
  · cases h

end

/-! ## Names -/

theorem tmpName_injective {pid pid' nonce nonce' : Nat} (h : tmpName pid nonce = tmpName pid' nonce') :
    pid = pid' ∧ nonce = nonce' := by
  have hdot : ∀ n, '.' ∉ decimal n := fun n => notMem_decimal (by decide)
  unfold tmpName at h
  simp only [List.append_assoc, List.cons_append] at h
  have hsplit := congrArg (splitOnce '.') (List.append_cancel_left h)
  rw [splitOnce_append (hdot pid), splitOnce_append (hdot pid'), Option.some.injEq,
    Prod.mk.injEq] at hsplit
  exact ⟨decimal_injective hsplit.1, decimal_injective (List.append_cancel_right hsplit.2)⟩

theorem tmpPath_injective {dir : Path} {pid pid' nonce nonce' : Nat}
    (h : tmpPath dir pid nonce = tmpPath dir pid' nonce') : (pid, nonce) = (pid', nonce') := by
  obtain ⟨hpid, hnonce⟩ := tmpName_injective (List.singleton_inj.1 (List.append_cancel_left h))
  rw [hpid, hnonce]

theorem tmpPath_ne_registryPath (dir : Path) (pid nonce : Nat) :
    tmpPath dir pid nonce ≠ registryPath dir := by
  intro h
  have hname := List.singleton_inj.1 (List.append_cancel_left h)
  have hhead : some '.' = some 'r' := congrArg List.head? hname
  cases hhead

/-! ## Reading back -/

section
variable {P : Type} {J : Json} {A : PathApi P}

theorem fromUtf8_asBytes (s : Text) : fromUtf8 (asBytes s) = some s := by
  have hbytes : ByteArray.mk (asBytes s).toArray = s.utf8Encode := by
    unfold asBytes List.utf8Encode
    rw [← List.data_toByteArray]
  unfold fromUtf8
  rw [hbytes, List.utf8Decode?_utf8Encode]
  rfl

/-- What the file stores of a registry. -/
def rendered (A : PathApi P) (registry : Registry P) : Registry P :=
  registry.mapValues fun path => A.ofText (A.toStringLossy path)

theorem parseRegistry_asBytes (hJ : J.RoundTrips) (registry : Registry P) :
    parseRegistry J A (asBytes (toJson J A registry)) = some (rendered A registry) := by
  obtain ⟨rest, hbrace⟩ := hJ.brace (registry.mapValues A.toStringLossy)
  have hblank : isBlank (toJson J A registry) = false := by
    unfold toJson isBlank
    rw [hbrace]
    rfl
  unfold parseRegistry fromJson
  rw [fromUtf8_asBytes, Option.bind_some, hblank]
  unfold toJson
  simp only [Bool.false_eq_true, if_false]
  rw [hJ.parse, Option.map_some, SortedMap.mapValues_mapValues]
  rfl

/-- Storing it again changes nothing. -/
theorem rendered_parsed {bytes : List UInt8} {registry : Registry P}
    (h : parseRegistry J A bytes = some registry) : rendered A registry = registry := by
  obtain ⟨s, -, hs⟩ := Option.bind_eq_some_iff.1 h
  unfold fromJson at hs
  split at hs
  · cases hs
    rfl
  · obtain ⟨m, -, rfl⟩ := Option.map_eq_some_iff.1 hs
    unfold rendered
    rw [SortedMap.mapValues_mapValues]
    simp only [A.lossy_ofText]

end

/-! ## The invariant -/

section
variable {P : Type} {J : Json} {A : PathApi P} {dir : Path} {fs fs' : Fs} {saves : List (Registry P)}
  {drawn : List (Nat × Nat)}

/-- The content is what some completed save wrote. -/
def Fs.Saved (J : Json) (A : PathApi P) (fs : Fs) (saves : List (Registry P)) (inode : Nat) : Prop :=
  ∃ m ∈ saves, parseRegistry J A (fs.data inode) = some (rendered A m)

/-- A file has one name, and the registry is whole. -/
structure Fs.Sound (J : Json) (A : PathApi P) (dir : Path) (fs : Fs) (saves : List (Registry P)) :
    Prop where
  links : ∀ p q n, fs.node p = some (.file n) → fs.node q = some (.file n) → p = q
  unused : ∀ p n, fs.node p = some (.file n) → n < fs.unused
  absent : (∀ n, fs.node (registryPath dir) ≠ some (.file n)) → saves = []
  registry : ∀ n, fs.node (registryPath dir) = some (.file n) → fs.Saved J A saves n

/-- The temporary file a call works on. -/
def Stage.tmp? : Stage P → Option Path
  | .creating _ tmp | .writing _ tmp _ _ | .replacing _ tmp | .cleaning tmp => some tmp
  | _ => none

/-- What a call knows: an opened registry stays as it was, a temporary file holds what was
written to it. -/
def Stage.Sound (J : Json) (A : PathApi P) (dir : Path) (fs : Fs) (saves : List (Registry P)) :
    Stage P → Prop
  | .reading inode acc => inode < fs.unused ∧ fs.Saved J A saves inode ∧
      (∀ p, fs.node p = some (.file inode) → p = registryPath dir) ∧ acc <+: fs.data inode
  | .writing m tmp inode rest => fs.node tmp = some (.file inode) ∧
      fs.data inode ++ rest = asBytes (toJson J A m)
  | .replacing m tmp => ∃ inode, fs.node tmp = some (.file inode) ∧
      fs.data inode = asBytes (toJson J A m)
  | _ => True

/-- The temporary file's name has a drawn pair. -/
def Stage.Drawn (dir : Path) (drawn : List (Nat × Nat)) (s : Stage P) : Prop :=
  ∀ tmp, s.tmp? = some tmp → ∃ pair ∈ drawn, tmp = tmpPath dir pair.1 pair.2

/-- What a caller whose temporary file is `own` leaves of the others' files. -/
structure Fs.Frame (dir : Path) (own : Option Path) (fs fs' : Fs) : Prop where
  unused : fs.unused ≤ fs'.unused
  others : ∀ p n, fs.node p = some (.file n) → p ≠ registryPath dir → own ≠ some p →
    fs'.node p = some (.file n) ∧ fs'.data n = fs.data n
  read : ∀ n, n < fs.unused → (∀ p, fs.node p = some (.file n) → p = registryPath dir) →
    fs'.data n = fs.data n ∧ ∀ p, fs'.node p = some (.file n) → p = registryPath dir

theorem Fs.Frame.refl (own : Option Path) : Fs.Frame dir own fs fs :=
  ⟨Nat.le_refl _, fun _ _ h _ _ => ⟨h, rfl⟩, fun _ _ h => ⟨rfl, h⟩⟩

/-- Creating directories adds no file and removes none. -/
theorem makeDirs_files (qs : List Path) : ∀ fs : Fs,
    (∀ p n, (fs.makeDirs qs).1.node p = some (.file n) ↔ fs.node p = some (.file n)) ∧
      (fs.makeDirs qs).1.data = fs.data ∧ (fs.makeDirs qs).1.unused = fs.unused := by
  induction qs with
  | nil => exact fun fs => ⟨fun _ _ => Iff.rfl, rfl, rfl⟩
  | cons q qs ih =>
    intro fs
    unfold Fs.makeDirs
    split
    · next hnew =>
      obtain ⟨hnode, hdata, hunused⟩ := ih { fs with node := Function.update fs.node q (some .dir) }
      refine ⟨fun p n => (hnode p n).trans ?_, hdata, hunused⟩
      show Function.update fs.node q (some .dir) p = some (.file n) ↔ _
      by_cases hp : p = q
      · subst hp
        rw [Function.update_self, hnew.1]
        simp
      · rw [Function.update_of_ne hp]
    · exact ih fs

theorem frame_createDirAll (own : Option Path) (path : Path) (n : Nat) :
    Fs.Frame dir own fs (fs.createDirAll path n).1 := by
  obtain ⟨hnode, hdata, hunused⟩ := makeDirs_files (path.inits.take n) fs
  refine ⟨hunused.ge, fun p n h _ _ => ⟨(hnode p n).2 h, congrFun hdata n⟩, fun n _ h =>
    ⟨congrFun hdata n, fun p hp => h p ((hnode p n).1 hp)⟩⟩

theorem frame_write {tmp : Path} {inode : Nat} (hs : fs.Sound J A dir saves)
    (htmp : fs.node tmp = some (.file inode)) (hne : tmp ≠ registryPath dir) (bytes : List UInt8) :
    Fs.Frame dir (some tmp) fs { fs with data := Function.update fs.data inode bytes } := by
  refine ⟨Nat.le_refl _, fun p n h _ hown => ⟨h, Function.update_of_ne ?_ _ _⟩, fun n _ h =>
    ⟨Function.update_of_ne ?_ _ _, h⟩⟩
  · rintro rfl
    exact hown (congrArg some (hs.links _ _ _ htmp h))
  · rintro rfl
    exact hne (h tmp htmp)

theorem node_create (fs : Fs) (path p : Path) :
    (fs.create path).node p = if p = path then some (.file fs.unused) else fs.node p := by
  unfold Fs.create
  dsimp only
  by_cases h : p = path
  · rw [if_pos h, h, Function.update_self]
  · rw [if_neg h, Function.update_of_ne h]

theorem node_remove (fs : Fs) (path p : Path) :
    (fs.remove path).node p = if p = path then none else fs.node p := by
  unfold Fs.remove
  dsimp only
  by_cases h : p = path
  · rw [if_pos h, h, Function.update_self]
  · rw [if_neg h, Function.update_of_ne h]

theorem node_rename (fs : Fs) (src dst : Path) (inode : Nat) (p : Path) :
    (fs.rename src dst inode).node p =
      if p = dst then some (.file inode) else if p = src then none else fs.node p := by
  unfold Fs.rename
  dsimp only
  by_cases hdst : p = dst
  · rw [if_pos hdst, hdst, Function.update_self]
  · rw [if_neg hdst, Function.update_of_ne hdst]
    by_cases hsrc : p = src
    · rw [if_pos hsrc, hsrc, Function.update_self]
    · rw [if_neg hsrc, Function.update_of_ne hsrc]

theorem frame_create {tmp : Path} (hs : fs.Sound J A dir saves) :
    Fs.Frame dir (some tmp) fs (fs.create tmp) := by
  refine ⟨Nat.le_succ _, fun p n h _ hown => ⟨?_, ?_⟩, fun n hn h => ⟨?_, fun p hp => ?_⟩⟩
  · rw [node_create, if_neg fun heq => hown (congrArg some heq.symm), h]
  · exact Function.update_of_ne (hs.unused p n h).ne _ _
  · exact Function.update_of_ne hn.ne _ _
  · rw [node_create] at hp
    split at hp
    · cases hp
      exact absurd hn (lt_irrefl _)
    · exact h p hp

theorem frame_remove (tmp : Path) : Fs.Frame dir (some tmp) fs (fs.remove tmp) := by
  refine ⟨Nat.le_refl _, fun p n h _ hown => ⟨?_, rfl⟩, fun n _ h => ⟨rfl, fun p hp => ?_⟩⟩
  · rw [node_remove, if_neg fun heq => hown (congrArg some heq.symm), h]
  · rw [node_remove] at hp
    split at hp
    · cases hp
    · exact h p hp

theorem frame_rename (tmp : Path) (inode : Nat) :
    Fs.Frame dir (some tmp) fs (fs.rename tmp (registryPath dir) inode) := by
  refine ⟨Nat.le_refl _, fun p n h hp hown => ⟨?_, rfl⟩, fun n _ h => ⟨rfl, fun p hp => ?_⟩⟩
  · rw [node_rename, if_neg hp, if_neg fun heq => hown (congrArg some heq.symm), h]
  · rw [node_rename] at hp
    split at hp
    · next heq => exact heq
    · split at hp
      · cases hp
      · exact h p hp

theorem Stage.Drawn.ne_registryPath {s : Stage P} (h : s.Drawn dir drawn) {tmp : Path}
    (htmp : s.tmp? = some tmp) : tmp ≠ registryPath dir := by
  obtain ⟨pair, -, rfl⟩ := h tmp htmp
  exact tmpPath_ne_registryPath dir _ _

/-- A step leaves the others' files alone. -/
theorem frame_moves {request : Request P} {present : P → Bool} {s s' : Stage P} {ev : Event P}
    (hfs : fs.Sound J A dir saves) (hs : s.Sound J A dir fs saves) (hd : s.Drawn dir drawn)
    (h : s.Moves J A dir request fs present fs' s' ev) : Fs.Frame dir s.tmp? fs fs' := by
  cases h with
  | configDir n s' h => exact frame_createDirAll _ _ _
  | parentDir m n s' h => exact frame_createDirAll _ _ _
  | truncate m tmp inode htmp => exact frame_write hfs htmp (hd.ne_registryPath rfl) _
  | create m tmp h hdir => exact frame_create hfs
  | write m tmp inode piece rest => exact frame_write hfs hs.1 (hd.ne_registryPath rfl) _
  | rename m tmp inode h hdst => exact frame_rename _ _
  | clean tmp => exact frame_remove _
  | _ => exact .refl _

/-- The saves after a step. -/
def savesAfter (saves : List (Registry P)) : Event P → List (Registry P)
  | .saved m _ => m :: saves
  | _ => saves

theorem Fs.Saved.mono {inode : Nat} (h : fs.Saved J A saves inode) (ev : Event P)
    (hdata : fs'.data inode = fs.data inode) : fs'.Saved J A (savesAfter saves ev) inode := by
  obtain ⟨m, hm, hparse⟩ := h
  refine ⟨m, ?_, by rw [hdata, hparse]⟩
  cases ev with
  | saved m' tmp => exact List.mem_cons_of_mem _ hm
  | _ => exact hm

/-- Others lose nothing. -/
theorem Stage.Sound.frame {s : Stage P} {own : Option Path} (hf : Fs.Frame dir own fs fs')
    (h : s.Sound J A dir fs saves) (hd : s.Drawn dir drawn) (hown : ∀ tmp, s.tmp? = some tmp → own ≠ some tmp)
    (ev : Event P) : s.Sound J A dir fs' (savesAfter saves ev) := by
  cases s with
  | reading inode acc =>
    obtain ⟨hlt, hsaved, honly, hacc⟩ := h
    obtain ⟨hdata, hnode⟩ := hf.read inode hlt honly
    exact ⟨hlt.trans_le hf.unused, hsaved.mono ev hdata, hnode, hdata ▸ hacc⟩
  | writing m tmp inode rest =>
    obtain ⟨hnode, hdata⟩ := h
    obtain ⟨hnode', hdata'⟩ := hf.others tmp inode hnode (hd.ne_registryPath rfl) (hown tmp rfl)
    exact ⟨hnode', hdata' ▸ hdata⟩
  | replacing m tmp =>
    obtain ⟨inode, hnode, hdata⟩ := h
    obtain ⟨hnode', hdata'⟩ := hf.others tmp inode hnode (hd.ne_registryPath rfl) (hown tmp rfl)
    exact ⟨inode, hnode', hdata' ▸ hdata⟩
  | _ => trivial

theorem fsSound_createDirAll (hfs : fs.Sound J A dir saves) (path : Path) (n : Nat) :
    (fs.createDirAll path n).1.Sound J A dir saves := by
  obtain ⟨hnode, hdata, hunused⟩ := makeDirs_files (path.inits.take n) fs
  refine ⟨fun p q n hp hq => hfs.links p q n ((hnode p n).1 hp) ((hnode q n).1 hq),
    fun p n hp => hunused.symm ▸ hfs.unused p n ((hnode p n).1 hp),
    fun hno => hfs.absent fun n hn => hno n ((hnode _ n).2 hn), fun n hn => ?_⟩
  obtain ⟨m, hm, hparse⟩ := hfs.registry n ((hnode _ n).1 hn)
  exact ⟨m, hm, (congrArg (parseRegistry J A) (congrFun hdata n)).trans hparse⟩

/-- Writing to another file does not touch the registry's content. -/
theorem fsSound_write (hfs : fs.Sound J A dir saves) {tmp : Path} {inode : Nat}
    (htmp : fs.node tmp = some (.file inode)) (hne : tmp ≠ registryPath dir)
    (bytes : List UInt8) :
    Fs.Sound J A dir { fs with data := Function.update fs.data inode bytes } saves := by
  refine ⟨hfs.links, hfs.unused, hfs.absent, fun n hn => ?_⟩
  obtain ⟨m, hm, hparse⟩ := hfs.registry n hn
  have hother : n ≠ inode := by
    rintro rfl
    exact hne (hfs.links _ _ _ htmp hn)
  exact ⟨m, hm, (congrArg (parseRegistry J A) (Function.update_of_ne hother _ _)).trans hparse⟩

theorem fsSound_create (hfs : fs.Sound J A dir saves) {tmp : Path} (hne : tmp ≠ registryPath dir) :
    (fs.create tmp).Sound J A dir saves := by
  have hnode : ∀ p n, (fs.create tmp).node p = some (.file n) →
      (p = tmp ∧ n = fs.unused) ∨ fs.node p = some (.file n) := by
    intro p n hp
    rw [node_create] at hp
    split at hp
    · cases hp
      exact .inl ⟨‹_›, rfl⟩
    · exact .inr hp
  refine ⟨fun p q n hp hq => ?_, fun p n hp => ?_, fun hno => hfs.absent fun n hn => hno n ?_,
    fun n hn => ?_⟩
  · rcases hnode p n hp with ⟨hpt, hn⟩ | hp
    · rcases hnode q n hq with ⟨hqt, -⟩ | hq
      · rw [hpt, hqt]
      · exact absurd hn (hfs.unused q n hq).ne
    · rcases hnode q n hq with ⟨-, hn⟩ | hq
      · exact absurd hn (hfs.unused p n hp).ne
      · exact hfs.links p q n hp hq
  · rcases hnode p n hp with ⟨-, rfl⟩ | hp
    · exact Nat.lt_succ_self _
    · exact (hfs.unused p n hp).trans (Nat.lt_succ_self _)
  · rw [node_create, if_neg hne.symm, hn]
  · rcases hnode _ n hn with ⟨heq, -⟩ | hn
    · exact absurd heq.symm hne
    · obtain ⟨m, hm, hparse⟩ := hfs.registry n hn
      exact ⟨m, hm, (congrArg (parseRegistry J A)
        (Function.update_of_ne (hfs.unused _ _ hn).ne _ _)).trans hparse⟩

/-- The registry file is then what the temporary one was: all of what is saved. -/
theorem fsSound_rename (hJ : J.RoundTrips) (hfs : fs.Sound J A dir saves) {m : Registry P}
    {tmp : Path} {inode : Nat} (htmp : fs.node tmp = some (.file inode))
    (hdata : fs.data inode = asBytes (toJson J A m)) :
    (fs.rename tmp (registryPath dir) inode).Sound J A dir (m :: saves) := by
  have hnode : ∀ p n, (fs.rename tmp (registryPath dir) inode).node p = some (.file n) →
      (p = registryPath dir ∧ n = inode) ∨ (p ≠ tmp ∧ fs.node p = some (.file n)) := by
    intro p n hp
    rw [node_rename] at hp
    split at hp
    · cases hp
      exact .inl ⟨‹_›, rfl⟩
    · split at hp
      · cases hp
      · exact .inr ⟨‹_›, hp⟩
  refine ⟨fun p q n hp hq => ?_, fun p n hp => ?_, fun hno => ?_, fun n hn => ?_⟩
  · rcases hnode p n hp with ⟨hpr, hn⟩ | ⟨hpt, hp⟩
    · rcases hnode q n hq with ⟨hqr, -⟩ | ⟨hqt, hq⟩
      · rw [hpr, hqr]
      · exact absurd (hfs.links q tmp n hq (hn ▸ htmp)) hqt
    · rcases hnode q n hq with ⟨-, hn⟩ | ⟨-, hq⟩
      · exact absurd (hfs.links p tmp n hp (hn ▸ htmp)) hpt
      · exact hfs.links p q n hp hq
  · rcases hnode p n hp with ⟨-, rfl⟩ | ⟨-, hp⟩
    · exact hfs.unused _ _ htmp
    · exact hfs.unused p n hp
  · exact absurd (by rw [node_rename, if_pos rfl]) (hno inode)
  · rw [node_rename, if_pos rfl] at hn
    cases hn
    refine ⟨m, List.mem_cons_self, ?_⟩
    show parseRegistry J A (fs.data inode) = _
    rw [hdata]
    exact parseRegistry_asBytes hJ m

theorem fsSound_remove (hfs : fs.Sound J A dir saves) {tmp : Path} (hne : tmp ≠ registryPath dir) :
    (fs.remove tmp).Sound J A dir saves := by
  have hnode : ∀ p n, (fs.remove tmp).node p = some (.file n) → fs.node p = some (.file n) := by
    intro p n hp
    rw [node_remove] at hp
    split at hp
    · cases hp
    · exact hp
  refine ⟨fun p q n hp hq => hfs.links p q n (hnode p n hp) (hnode q n hq),
    fun p n hp => hfs.unused p n (hnode p n hp), fun hno => hfs.absent fun n hn => hno n ?_,
    fun n hn => hfs.registry n (hnode _ n hn)⟩
  rw [node_remove, if_neg hne.symm, hn]

/-- The registry stays whole: the file renamed over it holds all of its registry. -/
theorem fsSound_moves (hJ : J.RoundTrips) {request : Request P} {present : P → Bool} {s s' : Stage P}
    {ev : Event P} (hfs : fs.Sound J A dir saves) (hs : s.Sound J A dir fs saves)
    (hd : s.Drawn dir drawn) (h : s.Moves J A dir request fs present fs' s' ev) :
    fs'.Sound J A dir (savesAfter saves ev) := by
  cases h with
  | configDir n s' h => exact fsSound_createDirAll hfs _ _
  | parentDir m n s' h => exact fsSound_createDirAll hfs _ _
  | truncate m tmp inode htmp => exact fsSound_write hfs htmp (hd.ne_registryPath rfl) _
  | write m tmp inode piece rest => exact fsSound_write hfs hs.1 (hd.ne_registryPath rfl) _
  | create m tmp h hdir => exact fsSound_create hfs (hd.ne_registryPath rfl)
  | rename m tmp inode htmp hdst =>
    obtain ⟨inode', htmp', hdata⟩ := hs
    rw [htmp] at htmp'
    cases htmp'
    exact fsSound_rename hJ hfs htmp hdata
  | clean tmp => exact fsSound_remove hfs (hd.ne_registryPath rfl)
  | _ => exact hfs

/-- A call that has read the whole file read what some save wrote. -/
theorem Stage.Sound.parsed {inode : Nat} {acc : List UInt8}
    (h : (Stage.reading inode acc : Stage P).Sound J A dir fs saves)
    (hend : (fs.data inode).length ≤ acc.length) :
    ∃ m ∈ saves, parseRegistry J A acc = some (rendered A m) := by
  obtain ⟨-, ⟨m, hm, hparse⟩, -, hacc⟩ := h
  exact ⟨m, hm, hacc.eq_of_length_le hend ▸ hparse⟩

theorem sound_afterLoad (request : Request P) (m : Registry P) :
    (afterLoad request m).Sound J A dir fs saves := by
  cases request <;> trivial

/-- The caller itself keeps its bearings. -/
theorem stageSound_moves {request : Request P} {present : P → Bool} {s s' : Stage P} {ev : Event P}
    (hfs : fs.Sound J A dir saves) (hs : s.Sound J A dir fs saves)
    (h : s.Moves J A dir request fs present fs' s' ev) :
    s'.Sound J A dir fs' (savesAfter saves ev) := by
  cases h with
  | configDir n s' h => rcases h with rfl | rfl <;> trivial
  | parentDir m n s' h => rcases h with rfl | rfl <;> trivial
  | absent h => exact sound_afterLoad _ _
  | pruned m => exact sound_afterLoad _ _
  | opened inode h =>
    exact ⟨hfs.unused _ _ h, hfs.registry _ h, fun p hp => hfs.links _ _ _ hp h, List.nil_prefix⟩
  | read inode n acc =>
    obtain ⟨hlt, hsaved, honly, t, ht⟩ := hs
    refine ⟨hlt, hsaved, honly, ?_⟩
    rw [← ht, List.drop_left]
    exact (List.prefix_append_right_inj acc).2 (List.take_prefix n t)
  | parsed inode acc m hend hparse s' h =>
    cases m <;> (rw [h]; trivial)
  | truncate m tmp inode htmp => exact ⟨htmp, by
      show Function.update fs.data inode [] inode ++ _ = _
      rw [Function.update_self, List.nil_append]⟩
  | create m tmp htmp hdir => exact ⟨by rw [node_create, if_pos rfl], by
      show Function.update fs.data fs.unused [] fs.unused ++ _ = _
      rw [Function.update_self, List.nil_append]⟩
  | write m tmp inode piece rest => exact ⟨hs.1, by
      show Function.update fs.data inode (fs.data inode ++ piece) inode ++ rest = _
      rw [Function.update_self, List.append_assoc]
      exact hs.2⟩
  | written m tmp inode => exact ⟨inode, hs.1, by
      have hdata := hs.2
      rwa [List.append_nil] at hdata⟩
  | _ => trivial

/-- The pairs after a step. -/
def drawnAfter (drawn : List (Nat × Nat)) : Event P → List (Nat × Nat)
  | .drew pid nonce => (pid, nonce) :: drawn
  | _ => drawn

theorem mem_drawnAfter {pair : Nat × Nat} (h : pair ∈ drawn) (ev : Event P) :
    pair ∈ drawnAfter drawn ev := by
  cases ev with
  | drew pid nonce => exact List.mem_cons_of_mem _ h
  | _ => exact h

theorem tmp?_afterLoad (request : Request P) (m : Registry P) : (afterLoad request m).tmp? = none := by
  cases request <;> rfl

/-- A step keeps the temporary file, drops it or draws a new one. -/
theorem tmp?_moves {request : Request P} {present : P → Bool} {s s' : Stage P} {ev : Event P}
    (h : s.Moves J A dir request fs present fs' s' ev) : s'.tmp? = s.tmp? ∨ s'.tmp? = none ∨
      ∃ pid nonce, ev = .drew pid nonce ∧ s'.tmp? = some (tmpPath dir pid nonce) := by
  cases h with
  | configDir n s' h => rcases h with rfl | rfl <;> exact .inl rfl
  | parentDir m n s' h => rcases h with rfl | rfl <;> exact .inl rfl
  | absent h => exact .inl (tmp?_afterLoad _ _)
  | pruned m => exact .inl (tmp?_afterLoad _ _)
  | parsed inode acc m hend hparse s' h => cases m <;> (rw [h]; exact .inl rfl)
  | draw m pid nonce => exact .inr (.inr ⟨pid, nonce, rfl, rfl⟩)
  | rename m tmp inode h hdst => exact .inr (.inl rfl)
  | clean tmp => exact .inr (.inl rfl)
  | fail s => exact .inr (.inl rfl)
  | _ => exact .inl rfl

theorem drawn_moves {request : Request P} {present : P → Bool} {s s' : Stage P} {ev : Event P}
    (hd : s.Drawn dir drawn) (h : s.Moves J A dir request fs present fs' s' ev) :
    s'.Drawn dir (drawnAfter drawn ev) := by
  intro tmp htmp
  rcases tmp?_moves h with heq | hnone | ⟨pid, nonce, rfl, heq⟩
  · obtain ⟨pair, hpair, htmp⟩ := hd tmp (heq ▸ htmp)
    exact ⟨pair, mem_drawnAfter hpair ev, htmp⟩
  · rw [hnone] at htmp
    cases htmp
  · rw [heq] at htmp
    cases htmp
    exact ⟨(pid, nonce), List.mem_cons_self, rfl⟩

/-! ## Where entries come from -/

/-- The entry is one of the known ones, as the file would store it. -/
def Sourced (A : PathApi P) (known : List (Text × P)) (e : Text × P) : Prop :=
  ∃ src ∈ known, src.1 = e.1 ∧ A.toStringLossy src.2 = A.toStringLossy e.2

/-- The registry a call has in hand. -/
def Stage.held? : Stage P → Option (Registry P)
  | .pruning m _ | .inserting m | .parentDir m | .drawing m | .creating m _ | .writing m _ _ _
  | .replacing m _ => some m
  | .returned m => m
  | _ => none

/-- The entries passed to `register` after a step. -/
def passedAfter (passed : List (Text × P)) : Event P → List (Text × P)
  | .inserted key indexDb => (key, indexDb) :: passed
  | _ => passed

theorem Sourced.mono {init passed : List (Text × P)} {e : Text × P}
    (h : Sourced A (passed ++ init) e) (ev : Event P) :
    Sourced A (passedAfter passed ev ++ init) e := by
  obtain ⟨src, hsrc, hsame⟩ := h
  refine ⟨src, ?_, hsame⟩
  cases ev with
  | inserted key indexDb => exact List.mem_cons_of_mem _ hsrc
  | _ => exact hsrc

theorem sourced_rendered {known : List (Text × P)} {m : Registry P}
    (h : ∀ e ∈ m.list, Sourced A known e) : ∀ e ∈ (rendered A m).list, Sourced A known e := by
  intro e he
  obtain ⟨path, hmem, heq⟩ := SortedMap.mem_mapValues.1 he
  obtain ⟨src, hsrc, hkey, hlossy⟩ := h _ hmem
  refine ⟨src, hsrc, hkey, ?_⟩
  rw [hlossy, ← heq, A.lossy_ofText]

theorem held?_afterLoad (request : Request P) (m : Registry P) :
    (afterLoad request m).held? = some m := by
  cases request <;> rfl

/-- A step makes up no entry. -/
theorem sourced_moves {request : Request P} {present : P → Bool} {s s' : Stage P} {ev : Event P}
    {init passed : List (Text × P)} (hs : s.Sound J A dir fs saves)
    (hsaves : ∀ m ∈ saves, ∀ e ∈ m.list, Sourced A (passed ++ init) e)
    (hreg : ∀ m, s.held? = some m → ∀ e ∈ m.list, Sourced A (passed ++ init) e)
    (h : s.Moves J A dir request fs present fs' s' ev) :
    ∀ m, s'.held? = some m → ∀ e ∈ m.list, Sourced A (passedAfter passed ev ++ init) e := by
  intro m hm e he
  cases h with
  | configDir n s' h => rcases h with rfl | rfl <;> cases hm
  | parentDir m' n s' h =>
    rcases h with rfl | rfl
    · exact hreg m hm e he
    · cases hm
  | absent h =>
    rw [held?_afterLoad] at hm
    cases hm
    cases he
  | pruned m' =>
    rw [held?_afterLoad] at hm
    exact hreg m hm e he
  | prune m' entry todo =>
    cases hm
    refine hreg m' rfl e ?_
    split at he
    · exact he
    · exact (SortedMap.mem_erase.1 he).2
  | parsed inode acc m' hend hparse s' h =>
    obtain ⟨m₀, hm₀, hread⟩ := hs.parsed hend
    rw [hread] at hparse
    subst hparse
    rw [h] at hm
    cases hm
    exact sourced_rendered (hsaves m₀ hm₀) e he
  | insert m' root indexDb path hreq =>
    cases hm
    rcases SortedMap.mem_insert.1 he with rfl | ⟨-, hold⟩
    · exact ⟨_, List.mem_cons_self, rfl, rfl⟩
    · exact (hreg m' rfl e hold).mono (.inserted (canonicalKey A root path) indexDb)
  | opened inode h => cases hm
  | read inode n acc => cases hm
  | renameFailed m' tmp => cases hm
  | clean tmp => cases hm
  | fail s => cases hm
  | rename m' tmp inode h hdst => exact hreg m hm e he
  | _ => exact hreg m hm e he

/-- After inserting, `register` has its own entry in hand. -/
def OwnEntry (A : PathApi P) (request : Request P) : Stage P → Prop
  | .parentDir m | .drawing m | .creating m _ | .writing m _ _ _ | .replacing m _ =>
    ∃ root indexDb path, request = .register root indexDb ∧
      (canonicalKey A root path, indexDb) ∈ m.list
  | _ => True

theorem ownEntry_moves {request : Request P} {present : P → Bool} {s s' : Stage P} {ev : Event P}
    (hs : OwnEntry A request s) (h : s.Moves J A dir request fs present fs' s' ev) :
    OwnEntry A request s' := by
  cases h with
  | configDir n s' h => rcases h with rfl | rfl <;> trivial
  | parentDir m n s' h =>
    rcases h with rfl | rfl
    · exact hs
    · trivial
  | absent h => cases request <;> trivial
  | pruned m => cases request <;> trivial
  | parsed inode acc m hend hparse s' h => cases m <;> (rw [h]; trivial)
  | insert m root indexDb path hreq =>
    exact ⟨root, indexDb, path, hreq, SortedMap.mem_insert.2 (.inl rfl)⟩
  | draw m pid nonce => exact hs
  | truncate m tmp inode htmp => exact hs
  | create m tmp htmp hdir => exact hs
  | write m tmp inode piece rest => exact hs
  | written m tmp inode => exact hs
  | _ => trivial

end

end CodeSearch
