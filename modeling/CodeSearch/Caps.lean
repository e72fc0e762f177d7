import CodeSearch.Lexical

/-!
# The caps of module sub-chunks

The sub-chunks of a run tile it and are cut where the run overflows, and none has
more than `maxChunkLines` lines.  The byte cap is only looked at before a cut: the
lines carried over a cut and the line that overflowed go into the next sub-chunk
unseen, so it holds if and only if they fit together (`splitModuleRun_caps_iff`).
-/

namespace CodeSearch

open Store

/-- The line numbers of a chunk. -/
def ChunkSpec.lineNumbers (spec : ChunkSpec) : List Nat :=
  List.range' spec.startLine (spec.endLine + 1 - spec.startLine)

/-- The sub-chunks of the run `s..e`: they tile it, they respect both caps, and each but
the last is cut at its overflow. -/
structure Capped (ls : List Text) (s e : Nat) (chunks : List ChunkSpec) : Prop where
  bodies : ∀ spec ∈ chunks, spec = moduleChunk ls spec.startLine spec.endLine
  tiles : chunks.flatMap ChunkSpec.lineNumbers = List.range' s (e + 1 - s)
  nonempty : ∀ spec ∈ chunks, spec.startLine ≤ spec.endLine
  lineCap : ∀ spec ∈ chunks, spec.endLine + 1 - spec.startLine ≤ maxChunkLines
  byteCap : ∀ spec ∈ chunks, byteLen spec.body ≤ maxChunkBytes
  cuts : ∀ spec ∈ chunks.dropLast, ∃ l, l ≤ e ∧ Overflow ls s spec.startLine l spec.endLine

/-! ## Lemmas -/

section
variable {ls : List Text} {s e a : Nat} {closed : List ChunkSpec}

theorem Trail.start_le (h : Trail ls s e a closed) : s ≤ a := by
  induction h with
  | start => exact Nat.le_refl s
  | cut _ hle _ _ ih => omega

/-- One more piece after those that tile the lines before it. -/
theorem tiles_concat {b z : Nat} (hsb : s ≤ b) (hbz : b ≤ z)
    (htiles : closed.flatMap ChunkSpec.lineNumbers = List.range' s (b - s)) :
    (closed ++ [moduleChunk ls b z]).flatMap ChunkSpec.lineNumbers = List.range' s (z + 1 - s) := by
  have hlines : (moduleChunk ls b z).lineNumbers = List.range' (s + (b - s)) (z + 1 - b) := by
    rw [Nat.add_sub_cancel' hsb]
    rfl
  rw [List.flatMap_append, htiles, List.flatMap_singleton, hlines, List.range'_append_1]
  congr 1
  omega

/-- The closed pieces tile the run up to the open one. -/
theorem Trail.tiles (h : Trail ls s e a closed) :
    closed.flatMap ChunkSpec.lineNumbers = List.range' s (a - s) := by
  induction h with
  | start =>
    rw [Nat.sub_self]
    rfl
  | cut htrail hle _ _ ih => exact tiles_concat htrail.start_le hle ih

theorem Trail.of_mem (h : Trail ls s e a closed) : ∀ spec ∈ closed,
    ∃ b z, spec = moduleChunk ls b z ∧ s ≤ b ∧ b ≤ z ∧ ∃ l, l ≤ e ∧ Overflow ls s b l z := by
  induction h with
  | start => intro spec h; cases h
  | @cut a l z closed htrail hle hl hover ih =>
    intro spec hspec
    rcases List.mem_append.1 hspec with hold | hnew
    · exact ih spec hold
    · rw [List.mem_singleton.1 hnew]
      exact ⟨a, z, rfl, htrail.start_le, hle, l, hl, hover⟩

/-- A piece that opens with `a..f` and goes on through `z`, no line being too many, is
within the line cap if its opening is. -/
theorem lines_le_of_not_exceeds {a f z : Nat} (hf : f + 1 - a ≤ maxChunkLines) (hfz : f ≤ z)
    (h : f < z → ¬ Exceeds ls a z) : z + 1 - a ≤ maxChunkLines := by
  rcases Nat.eq_or_lt_of_le hfz with rfl | hlt
  · exact hf
  · have hno := h hlt
    unfold Exceeds at hno
    unfold maxChunkLines at *
    omega

/-- The lines carried over a cut are fewer than the piece had. -/
theorem Piece.opening_lines {f : Nat} (h : Piece ls s a f) : f + 1 - a ≤ maxChunkLines := by
  induction h with
  | first =>
    unfold maxChunkLines
    omega
  | @next a f l z hp hlt _ hfirst hcut ih =>
    have haf := hp.le
    have hfz := hp.le_cut hlt hcut
    have hz := hcut.lt
    have hlines := lines_le_of_not_exceeds ih (by omega : f ≤ l - 1)
      fun hgt => hfirst (l - 1) hgt (by omega)
    omega

theorem Overflow.lines {l z : Nat} (h : Overflow ls s a l z) : z + 1 - a ≤ maxChunkLines := by
  obtain ⟨f, hp, hlt, hfirst⟩ := h.first
  exact lines_le_of_not_exceeds hp.opening_lines (hp.le_cut hlt h.cut)
    fun hgt => hfirst z hgt h.cut.lt

theorem Overflow.next {l z : Nat} (h : Overflow ls s a l z) : Piece ls s (z + 1) l := by
  obtain ⟨f, hp, hlt, hfirst⟩ := h.first
  exact .next hp hlt h.exceeds hfirst h.cut

/-- Every piece but the first opens at an overflow. -/
theorem Piece.first_or_overflow {f : Nat} (h : Piece ls s a f) :
    a = s ∧ f = s ∨ ∃ b z, a = z + 1 ∧ Overflow ls s b f z := by
  cases h with
  | first => exact .inl ⟨rfl, rfl⟩
  | next hp hlt hex hfirst hcut => exact .inr ⟨_, _, rfl, hex, hcut, _, hp, hlt, hfirst⟩

theorem lineBytes_self (h1 : 1 ≤ s) {text : Text} (h : ls[s - 1]? = some text) :
    lineBytes ls s s = byteLen text + 1 := by
  obtain ⟨b, rfl⟩ : ∃ b, s = b + 1 := ⟨s - 1, by omega⟩
  rw [Nat.add_sub_cancel] at h
  rw [lineBytes_succ (a := b + 1) ls (Nat.le_refl _) h, lineBytes_empty ls (by omega)]
  omega

/-- The closed pieces and the last one respect everything but, perhaps, the byte cap. -/
theorem Trail.capped {b f : Nat} (htrail : Trail ls s e b closed) (hbe : b ≤ e)
    (hp : Piece ls s b f) (hfe : f ≤ e) (hfits : f < e → ¬ Exceeds ls b e)
    (hbytes : ∀ spec ∈ closed ++ [moduleChunk ls b e], byteLen spec.body ≤ maxChunkBytes) :
    Capped ls s e (closed ++ [moduleChunk ls b e]) := by
  have hsb := htrail.start_le
  have hlast : ∀ spec ∈ closed ++ [moduleChunk ls b e], spec ∈ closed ∨ spec = moduleChunk ls b e :=
    fun spec hspec => (List.mem_append.1 hspec).imp_right List.mem_singleton.1
  refine ⟨fun spec hspec => ?_, ?_, fun spec hspec => ?_, fun spec hspec => ?_, hbytes,
    fun spec hspec => ?_⟩
  · rcases hlast spec hspec with hold | rfl
    · obtain ⟨a, z, rfl, -⟩ := htrail.of_mem spec hold
      rfl
    · rfl
  · exact tiles_concat hsb hbe htrail.tiles
  · rcases hlast spec hspec with hold | rfl
    · obtain ⟨a, z, rfl, -, hle, -⟩ := htrail.of_mem spec hold
      exact hle
    · exact hbe
  · rcases hlast spec hspec with hold | rfl
    · obtain ⟨a, z, rfl, -, -, l, -, hover⟩ := htrail.of_mem spec hold
      exact hover.lines
    · exact lines_le_of_not_exceeds hp.opening_lines hfe hfits
  · rw [List.dropLast_concat] at hspec
    obtain ⟨a, z, rfl, -, -, hover⟩ := htrail.of_mem spec hspec
    exact hover

end

/-! ## The caps -/

/-- The sub-chunks of a run of walkable lines tile it, respect both caps and are cut at their
overflows if and only if whatever is carried over a cut fits together with the line that
overflowed. -/
theorem splitModuleRun_caps_iff {ls : List Text} {s e : Nat} (hs : 1 ≤ s) (hse : s ≤ e)
    (he : e ≤ ls.length) (hline : ∀ l text, s ≤ l → l ≤ e → ls[l - 1]? = some text →
      byteLen text ≤ maxLineBytes) (given : List ChunkSpec) :
    (∃ chunks, splitModuleRun ls s e given = some (given ++ chunks) ∧ Capped ls s e chunks) ↔
      ∀ a l z, l ≤ e → Overflow ls s a l z →
        byteLen (joinRange ls (z + 1) l) ≤ maxChunkBytes := by
  obtain ⟨b, closed, hsplit, hbe, htrail, hchunks, f, hp, hfe, hfits⟩ :=
    splitModuleRun_trail hs hse he given
  have hwithin := hchunks.within_iff hs he
  have hopening : ∀ {a l z}, l ≤ e → Overflow ls s a l z →
      byteLen (joinRange ls (z + 1) l) + 1 = lineBytes ls (z + 1) l := by
    intro a l z hl h
    have hz := h.cut.lt
    exact byteLen_joinRange ls (by omega) (by omega) (by omega)
  constructor
  · rintro ⟨chunks, hout, hcap⟩ a l z hl hover
    rw [hsplit, Option.some.injEq, List.append_cancel_left_eq] at hout
    subst hout
    have hbytes := hwithin.1 hcap.byteCap _ _ hover.next hl
    have hjoin := hopening hl hover
    omega
  · intro hcond
    have hlast : f < e → ¬ Exceeds ls b e := fun hgt => hfits e hgt (Nat.le_refl e)
    refine ⟨_, hsplit, htrail.capped hbe hp hfe hlast (hwithin.2 fun a f' hp' hf' => ?_)⟩
    rcases hp'.first_or_overflow with ⟨rfl, rfl⟩ | ⟨b', z, rfl, hover⟩
    · -- the first piece opens with one line
      have hget : ls[f' - 1]? = some ls[f' - 1] := List.getElem?_eq_getElem (by omega)
      have hlen := hline f' _ (Nat.le_refl _) hse hget
      rw [lineBytes_self hs hget]
      unfold maxLineBytes at hlen
      unfold maxChunkBytes
      omega
    · have hjoin := hopening hf' hover
      have hfit := hcond b' f' z hf' hover
      omega

/-- A run of 202 lines, the last blank one of which is the 198th. -/
def longRun : List Text := List.replicate 197 "x".toList ++ [] :: List.replicate 4 "y".toList

/-- The 201st line overflows.  The run is cut at the blank line, and two lines are carried over. -/
theorem splitModuleRun_caps_iff_longRun : ∃ chunks,
    splitModuleRun longRun 1 202 [] = some ([] ++ chunks) ∧
      chunks.map (fun spec => (spec.startLine, spec.endLine)) = [(1, 198), (199, 202)] ∧
      Capped longRun 1 202 chunks := by
  have hall : lineBytes longRun 1 202 = 403 := by decide +kernel
  have hranges : (splitModuleRun longRun 1 202 []).map
      (List.map fun spec => (spec.startLine, spec.endLine)) = some [(1, 198), (199, 202)] := by
    decide +kernel
  have hlength : longRun.length = 202 := by decide +kernel
  have hshort : ∀ l text, 1 ≤ l → l ≤ 202 → longRun[l - 1]? = some text →
      byteLen text ≤ maxLineBytes := by
    intro l text h1 h2 hl
    have hmem : text ∈ longRun := List.mem_of_getElem? hl
    unfold longRun at hmem
    rw [List.mem_append, List.mem_cons] at hmem
    rcases hmem with hx | rfl | hy
    · rw [List.eq_of_mem_replicate hx]
      decide
    · decide
    · rw [List.eq_of_mem_replicate hy]
      decide
  have hcarried : ∀ a l z, l ≤ 202 → Overflow longRun 1 a l z →
      byteLen (joinRange longRun (z + 1) l) ≤ maxChunkBytes := by
    intro a l z hl hover
    have hz := hover.cut.lt
    have hjoin := byteLen_joinRange longRun (by omega : 1 ≤ z + 1) (by omega : z + 1 ≤ l)
      (by omega : z + 1 ≤ longRun.length)
    have hmono := lineBytes_mono longRun (by omega : 1 ≤ z + 1) hl
    unfold maxChunkBytes
    omega
  obtain ⟨chunks, hchunks, hcapped⟩ :=
    (splitModuleRun_caps_iff (by decide) (by decide) hlength.ge hshort []).2 hcarried
  refine ⟨chunks, hchunks, ?_, hcapped⟩
  rw [hchunks] at hranges
  exact Option.some.inj hranges

/-- A blank line, then two lines as long as the walker admits. -/
def carriedLines : List Text := [[], List.replicate 4096 'a', List.replicate 4096 'b']

/-- The third line overflows, the cut is at the blank line, and the second line is carried
into a sub-chunk that takes the third unseen. -/
theorem carried_line_overflows :
    (∀ l text, 1 ≤ l → l ≤ 3 → carriedLines[l - 1]? = some text → byteLen text ≤ maxLineBytes) ∧
    ¬ ∃ chunks, splitModuleRun carriedLines 1 3 [] = some ([] ++ chunks) ∧
      Capped carriedLines 1 3 chunks := by
  constructor
  · intro l text h1 h3 hl
    have hmem : text ∈ carriedLines := List.mem_of_getElem? hl
    unfold carriedLines at hmem
    rw [List.mem_cons, List.mem_cons, List.mem_singleton] at hmem
    rcases hmem with rfl | rfl | rfl
    · decide
    · rw [byteLen_replicate]; decide
    · rw [byteLen_replicate]; decide
  · rintro ⟨chunks, hout, hcap⟩
    obtain ⟨chunks', hsplit, hchunks⟩ := @splitModuleRun_spec carriedLines 1 3
      (by decide) (by decide) (by decide) []
    rw [hsplit, Option.some.injEq, List.append_cancel_left_eq] at hout
    subst hout
    have hthree : ∀ x y z : Text, lineBytes [x, y, z] 1 2 = byteLen x + 1 + (byteLen y + 1) ∧
        lineBytes [x, y, z] 1 3 = byteLen x + 1 + (byteLen y + 1 + (byteLen z + 1)) ∧
        lineBytes [x, y, z] 2 3 = byteLen y + 1 + (byteLen z + 1) := fun x y z => ⟨rfl, rfl, rfl⟩
    obtain ⟨hsecond, hall, hcarried⟩ :=
      hthree [] (List.replicate 4096 'a') (List.replicate 4096 'b')
    rw [byteLen_replicate] at hsecond hall hcarried
    rw [byteLen_replicate] at hall hcarried
    have hblank : BlankLine carriedLines 1 := ⟨[], rfl, rfl⟩
    have hnonblank : ¬ BlankLine carriedLines 2 := by
      rintro ⟨text, htext, hb⟩
      cases htext
      unfold isBlank at hb
      rw [List.all_replicate] at hb
      revert hb
      decide
    have hopens : Piece carriedLines 1 2 3 := by
      refine .next .first (by omega) ⟨by omega, .inr ?_⟩ (fun m h1 h3 => ?_)
        (.inl ⟨Nat.le_refl 1, by omega, hblank, fun m h1 h3 => ?_⟩)
      · unfold carriedLines
        rw [hall]
        decide
      · obtain rfl : m = 2 := by omega
        unfold Exceeds carriedLines
        rw [hsecond]
        decide
      · obtain rfl : m = 2 := by omega
        exact hnonblank
    have hfit := (hchunks.within_iff (by decide) (by decide)).1 hcap.byteCap 2 3 hopens (by decide)
    unfold carriedLines at hfit
    rw [hcarried] at hfit
    revert hfit
    decide

end CodeSearch
