import CodeSearch.SearchShape

/-!
# Near-equal contents

Stage B compares what `hydrate` shows of the bodies, at most `snippetMax` characters.
Of hits whose whole bodies are nearly the same wherever what is shown of them is, in
particular of bodies that fit, every hit it drops is nearly the same as one it keeps
(`dedup_content_keeps_distinct_iff`); two longer bodies may differ only past the cut,
and then one of them is lost.
-/

namespace CodeSearch

open Greedy

section
variable {F : Type} (U : CharTables) (ix : Index)

/-- The tokens of a text of the chunk and of the chunk's signature. -/
def textFingerprint (c : ChunkRow) (text : Text) : Finset Text :=
  (codeTokens U text).toFinset ∪
    match (hydratedHit ix c).signature with
    | some sig => (codeTokens U sig).toFinset
    | none => ∅

/-- The chunks are nearly the same in what `hydrate` shows of their bodies. -/
def SnippetsAlike (x y : ChunkRow × F) : Prop :=
  NearlySame (textFingerprint U ix x.1 (x.1.body.take snippetMax))
    (textFingerprint U ix y.1 (y.1.body.take snippetMax))

/-- The chunks are nearly the same in their whole bodies. -/
def BodiesAlike (x y : ChunkRow × F) : Prop :=
  NearlySame (textFingerprint U ix x.1 x.1.body) (textFingerprint U ix y.1 y.1.body)

/-- The hydrated hits of ranked chunks. -/
def hydratedHits (ranked : List (ChunkRow × F)) : List (HydratedHit × F) :=
  ranked.map fun r => (hydratedHit ix r.1, r.2)

/-- Stage B keeps some of the hits, in order and with the first, and drops only what is nearly
the same in its whole body as a hit it keeps before. -/
def KeepsDistinct (ranked : List (ChunkRow × F)) : Prop :=
  ∃ places : List ((ChunkRow × F) × Nat),
    dedupContent U (hydratedHits ix ranked) = hydratedHits ix (places.map Prod.fst) ∧
    places.Sublist ranked.zipIdx ∧ (∀ r ∈ ranked.head?, (r, 0) ∈ places) ∧
    ∀ p ∈ ranked.zipIdx, p ∉ places → ∃ q ∈ places, q.2 < p.2 ∧ BodiesAlike U ix p.1 q.1

/-- The test of stage B on two chunks. -/
def repeatsSnippet (x y : ChunkRow × F) : Bool :=
  sameContent U (hydratedHit ix x.1, x.2) (hydratedHit ix y.1, y.2)

variable {U ix}

theorem repeatsSnippet_iff {x y : ChunkRow × F} :
    repeatsSnippet U ix x y = true ↔ SnippetsAlike U ix x y := sameContent_iff

/-- The walk over the hits is the walk over their chunks. -/
theorem dedupContent_hydrated (ranked : List (ChunkRow × F)) :
    dedupContent U (hydratedHits ix ranked) =
      hydratedHits ix (keepFirst (repeatsSnippet U ix) ranked) := by
  rw [dedupContent_eq]
  exact keepFirst_map (sameContent U) (fun r : ChunkRow × F => (hydratedHit ix r.1, r.2)) ranked

/-- A short body is shown whole. -/
theorem bodiesAlike_of_short {x y : ChunkRow × F} (hx : x.1.body.length ≤ snippetMax)
    (hy : y.1.body.length ≤ snippetMax) (h : SnippetsAlike U ix x y) : BodiesAlike U ix x y := by
  unfold SnippetsAlike at h
  rwa [List.take_of_length_le hx, List.take_of_length_le hy] at h

/-- Hits that `hydrate` gave for stored ids are those of their chunks. -/
theorem hydratedHits_of_hydrateAll [Field F] [LinearOrder F] {M : Machine F} {l : List (Text × F)}
    {hits : List (HydratedHit × F)} (hstored : ∀ cand ∈ l, Stored ix cand.1)
    (h : hydrateAll M ix l = .ok hits) :
    ∃ ranked, hits = hydratedHits ix ranked ∧ ∀ r ∈ ranked, r.1 ∈ ix.chunks.rows := by
  have chosen : ∀ hits : List (HydratedHit × F),
      (∀ hit ∈ hits, ∃ c ∈ ix.chunks.rows, hit.1 = hydratedHit ix c) →
      ∃ ranked, hits = hydratedHits ix ranked ∧ ∀ r ∈ ranked, r.1 ∈ ix.chunks.rows := by
    intro hits
    induction hits with
    | nil => exact fun _ => ⟨[], rfl, by simp⟩
    | cons hit hits ih =>
      intro hrows
      obtain ⟨c, hc, hhit⟩ := hrows hit List.mem_cons_self
      obtain ⟨ranked, rfl, hranked⟩ := ih fun x hx => hrows x (List.mem_cons_of_mem hit hx)
      refine ⟨(c, hit.2) :: ranked, ?_, List.forall_mem_cons.2 ⟨hc, hranked⟩⟩
      show hit :: _ = (hydratedHit ix c, hit.2) :: _
      rw [← hhit]
      rfl
  exact chosen hits (hydrateAll_spec hstored h).2

/-- Where the chunks are nearly the same in their bodies wherever they are in what is shown,
nothing distinct is dropped. -/
theorem keepsDistinct_of_pairwise {ranked : List (ChunkRow × F)}
    (h : ranked.Pairwise fun x y => SnippetsAlike U ix y x → BodiesAlike U ix y x) :
    KeepsDistinct U ix ranked := by
  have hwalk := isSelection_keptPlaces (repeatsSnippet U ix) ranked
  refine ⟨keptPlaces (repeatsSnippet U ix) ranked, ?_, hwalk.sublist, fun r hr => ?_,
    fun p hp hdropped => ?_⟩
  · rw [map_keptPlaces]
    exact dedupContent_hydrated ranked
  · obtain ⟨post, rfl⟩ := List.head?_eq_some_iff.1 hr
    refine (mem_keptPlaces _ (List.nil_append (r :: post)).symm).2 ?_
    rintro ⟨y, hy, -⟩
    cases hy
  · obtain ⟨q, hq, hlt, hrepeats⟩ := hwalk.dropped p hp hdropped
    refine ⟨q, hq, hlt, ?_⟩
    have hqget := List.mem_zipIdx' (hwalk.sublist.subset hq)
    have hpget := List.mem_zipIdx' hp
    have hpair := List.pairwise_iff_getElem.1 h q.2 p.2 hqget.1 hpget.1 hlt
    rw [← hqget.2, ← hpget.2] at hpair
    exact hpair (repeatsSnippet_iff.1 hrepeats)

/-- Of two hits the second is dropped if it looks like the first. -/
theorem bodiesAlike_of_keepsDistinct {x y : ChunkRow × F} (h : KeepsDistinct U ix [x, y])
    (halike : SnippetsAlike U ix y x) : BodiesAlike U ix y x := by
  obtain ⟨places, heq, hsub, hfirst, hdropped⟩ := h
  have hone : places.length = 1 := by
    have hkept : keepFirst (repeatsSnippet U ix) [x, y] = [x] := by
      show keepStep _ [x] y = [x]
      unfold keepStep
      rw [if_pos]
      rw [List.any_cons, repeatsSnippet_iff.2 halike, Bool.true_or]
    rw [dedupContent_hydrated, hkept] at heq
    have hlen := congrArg List.length heq
    unfold hydratedHits at hlen
    rw [List.length_map, List.length_map, List.length_map] at hlen
    exact hlen.symm
  obtain ⟨p, rfl⟩ := List.length_eq_one_iff.1 hone
  have hp : p = (x, 0) := (List.mem_singleton.1 (hfirst x rfl)).symm
  subst hp
  obtain ⟨q, hq, -, hbodies⟩ := hdropped (y, 1) (by simp [List.zipIdx_cons]) (by simp)
  rw [List.mem_singleton.1 hq] at hbodies
  exact hbodies

/-- Nothing distinct is dropped of a ranking, whichever of its hits are ranked, exactly if its
chunks are nearly the same in their whole bodies wherever they are in what is shown; where all
bodies are shown whole they are. -/
theorem dedup_content_keeps_distinct_iff (U : CharTables) (ix : Index)
    (ranked : List (ChunkRow × F)) :
    ((∀ l, l.Sublist ranked → KeepsDistinct U ix l) ↔
      ranked.Pairwise fun x y => SnippetsAlike U ix y x → BodiesAlike U ix y x) ∧
    ((∀ r ∈ ranked, r.1.body.length ≤ snippetMax) → KeepsDistinct U ix ranked) := by
  refine ⟨⟨fun h => ?_, fun h l hl => keepsDistinct_of_pairwise (h.sublist hl)⟩, fun hshort => ?_⟩
  · rw [List.pairwise_iff_forall_sublist]
    exact fun hpair => bodiesAlike_of_keepsDistinct (h _ hpair)
  · refine keepsDistinct_of_pairwise (List.pairwise_of_forall_mem_list fun x hx y hy => ?_)
    exact bodiesAlike_of_short (hshort y hy) (hshort x hx)

end

/-- Of two hits with one body the second is dropped, which is nearly the same as the first. -/
theorem dedup_content_keeps_distinct_repeated :
    let ranked := [((⟨⟨"a:1-1".toList, "a".toList, 1, 1, "x y".toList, none⟩, 7⟩ : ChunkRow), 2),
      ((⟨⟨"b:1-1".toList, "b".toList, 1, 1, "y x".toList, none⟩, 8⟩ : ChunkRow), 1)]
    KeepsDistinct CharTables.ascii (Index.empty 1) ranked ∧
      (dedupContent CharTables.ascii (hydratedHits (Index.empty 1) ranked)).map (·.1.chunkId) =
        ["a:1-1".toList] :=
  ⟨(dedup_content_keeps_distinct_iff CharTables.ascii (Index.empty 1) _).2 (by decide),
    by decide +kernel⟩

/-! ## A long prologue -/

/-- A body with a prologue as long as the cut, and one word more. -/
def prologueRow (id word : Text) (rowid : RowId) : ChunkRow :=
  ⟨⟨id, "p".toList, 1, 1, List.replicate 2000 'a' ++ ' ' :: word, some "window".toList⟩, rowid⟩

/-- The two chunks share the prologue only, and both are shown as the prologue only. -/
def prologueRanked : List (ChunkRow × Nat) :=
  [(prologueRow "p:1-1".toList "x".toList 1, 2), (prologueRow "p:2-2".toList "y".toList 2, 1)]

theorem not_nearlySame_pairs {a b c : Text} (hab : a ≠ b) (hac : a ≠ c) (hbc : b ≠ c) :
    ¬ NearlySame [a, b].toFinset [a, c].toFinset := by
  rw [List.toFinset_cons, List.toFinset_cons, List.toFinset_cons, List.toFinset_cons,
    List.toFinset_nil, insert_empty_eq, insert_empty_eq]
  have hinter : ({a, b} : Finset Text) ∩ {a, c} = {a} := by
    ext t
    simp only [Finset.mem_inter, Finset.mem_insert, Finset.mem_singleton]
    grind
  have hunion : ({a, b} : Finset Text) ∪ {a, c} = {a, b, c} := by
    ext t
    simp only [Finset.mem_union, Finset.mem_insert, Finset.mem_singleton]
    grind
  have hthree : ({a, b, c} : Finset Text).card = 3 :=
    Finset.card_eq_three.2 ⟨a, b, c, hab, hac, hbc, rfl⟩
  rintro ⟨-, h⟩
  rw [hinter, hunion, hthree, Finset.card_singleton] at h
  exact absurd h (by decide +kernel)

/-- They are all that is stored. -/
def prologueIndex : Index :=
  { Index.empty 1 with
    chunks := ⟨[prologueRow "p:1-1".toList "x".toList 1, prologueRow "p:2-2".toList "y".toList 2],
      List.pairwise_pair.2 fun h =>
        h.elim (fun h => absurd h (by decide)) fun h => absurd h (by decide)⟩ }

theorem codeTokens_prologue (word : Text) (hne : word ≠ [])
    (hword : ∀ c ∈ word, c.toNat < 128 ∧ c.isAlphanum = true ∧ c.isUpper = false) :
    codeTokens CharTables.ascii (List.replicate 2000 'a') = [List.replicate 2000 'a'] ∧
    codeTokens CharTables.ascii (List.replicate 2000 'a' ++ ' ' :: word) =
      [List.replicate 2000 'a', word] := by
  have hlong : codeTokens CharTables.ascii (List.replicate 2000 'a') = [List.replicate 2000 'a'] := by
    apply codeTokens_word
    · exact List.ne_nil_of_length_pos (by rw [List.length_replicate]; decide)
    · intro c hc
      rw [List.eq_of_mem_replicate hc]
      decide
  refine ⟨hlong, ?_⟩
  rw [codeTokens_append_cons _ _ _ _ (by decide), hlong, codeTokens_word _ word hne hword]
  rfl

theorem prologue_dropped : ¬ KeepsDistinct CharTables.ascii prologueIndex prologueRanked := by
  intro h
  have hx := codeTokens_prologue "x".toList (by decide) (List.all_iff_forall_prop.1 (by decide))
  have hy := codeTokens_prologue "y".toList (by decide) (List.all_iff_forall_prop.1 (by decide))
  have hshown : ∀ (id word : Text) (rowid : RowId), textFingerprint CharTables.ascii prologueIndex
      (prologueRow id word rowid) ((prologueRow id word rowid).body.take snippetMax) =
        {List.replicate 2000 'a'} := by
    intro id word rowid
    have hcut : (List.replicate 2000 'a' ++ ' ' :: word).take snippetMax = List.replicate 2000 'a' :=
      List.take_left' List.length_replicate
    show (codeTokens _ ((List.replicate 2000 'a' ++ ' ' :: word).take snippetMax)).toFinset ∪ ∅ = _
    rw [hcut, hx.1, Finset.union_empty]
    rfl
  have hbodies := bodiesAlike_of_keepsDistinct h (by
    unfold SnippetsAlike NearlySame
    rw [hshown, hshown, Finset.inter_self, Finset.union_self, Finset.card_singleton]
    exact ⟨Finset.singleton_nonempty _, by decide +kernel⟩)
  have hbody : ∀ (id word : Text) (rowid : RowId), textFingerprint CharTables.ascii prologueIndex
      (prologueRow id word rowid) (prologueRow id word rowid).body =
        (codeTokens CharTables.ascii (List.replicate 2000 'a' ++ ' ' :: word)).toFinset :=
    fun id word rowid => Finset.union_empty _
  have hlen : ∀ word : Text, word.length = 1 → List.replicate 2000 'a' ≠ word := by
    rintro word hone rfl
    rw [List.length_replicate] at hone
    exact absurd hone (by decide)
  unfold BodiesAlike at hbodies
  rw [hbody, hbody, hx.2, hy.2] at hbodies
  exact not_nearlySame_pairs (hlen _ rfl) (hlen _ rfl) (by decide) hbodies

end CodeSearch
