import CodeSearch.Agreement
import CodeSearch.TokenPieces
import CodeSearch.Windows
import CodeSearch.Lib.FullText

/-!
# What a lexical search finds

A chunk is indexed by the tokens of its body up to `maxChunkBytes`, and a query is a
disjunction of its own tokens.  So a word of a line is found in every chunk of the line in
which the line is not cut off: the chunk is a hit, or the answer says what took its place
(`lines_found`).

FTS5 is what ranks the rows.  Of it is assumed which rows an expression matches (`Fts5`).
-/

namespace CodeSearch

open FullText Relational Store

/-! ## Cut text -/

theorem isCharBoundary_append (p rest : Text) : isCharBoundary (p ++ rest) (byteLen p) = true := by
  induction p with
  | nil => cases rest <;> rfl
  | cons c p ih =>
    have hpos := Char.utf8Size_pos c
    obtain ⟨m, hm⟩ : ∃ m, byteLen (c :: p) = m + 1 := ⟨byteLen (c :: p) - 1, by rw [byteLen_cons]; omega⟩
    have hrest : m + 1 - c.utf8Size = byteLen p := by rw [byteLen_cons] at hm; omega
    rw [hm, List.cons_append]
    show (decide (c.utf8Size ≤ m + 1) && isCharBoundary (p ++ rest) (m + 1 - c.utf8Size)) = true
    rw [hrest, ih, Bool.and_true, decide_eq_true_eq]
    rw [byteLen_cons] at hm
    omega

theorem le_boundaryBelow {s : Text} {m : Nat} (hb : isCharBoundary s m = true) :
    ∀ n, m ≤ n → m ≤ boundaryBelow s n := by
  intro n
  induction n with
  | zero => exact fun h => h
  | succ n ih =>
    intro h
    unfold boundaryBelow
    by_cases heq : m = n + 1
    · rw [if_pos (heq ▸ hb)]
      exact h
    · split
      · exact h
      · exact ih (by omega)

theorem takeBytes_append (rest : Text) : ∀ {p : Text} {n : Nat}, byteLen p ≤ n →
    takeBytes (p ++ rest) n = p ++ takeBytes rest (n - byteLen p) := by
  intro p
  induction p with
  | nil => exact fun _ => rfl
  | cons c p ih =>
    intro n h
    rw [byteLen_cons] at h ⊢
    rw [List.cons_append, takeBytes, if_pos (by omega), ih (by omega), Nat.sub_sub]
    rfl

theorem takeBytes_isPrefix (s : Text) : ∀ n, takeBytes s n <+: s := by
  induction s with
  | nil => exact fun _ => List.prefix_refl _
  | cons c s ih =>
    intro n
    unfold takeBytes
    split
    · exact List.cons_prefix_cons.2 ⟨rfl, ih _⟩
    · exact List.nil_prefix

/-- What fits is not cut off. -/
theorem truncate_append {p : Text} {n : Nat} (h : byteLen p ≤ n) (rest : Text) :
    ∃ t, t <+: rest ∧ truncateOnCharBoundary (p ++ rest) n = p ++ t := by
  unfold truncateOnCharBoundary
  split
  · exact ⟨rest, List.prefix_refl _, rfl⟩
  · exact ⟨_, takeBytes_isPrefix rest _,
      takeBytes_append rest (le_boundaryBelow (isCharBoundary_append p rest) n h)⟩

theorem joinLines_append {xs ys : List Text} (hx : xs ≠ []) (hy : ys ≠ []) :
    joinLines (xs ++ ys) = joinLines xs ++ '\n' :: joinLines ys := by
  induction xs with
  | nil => exact absurd rfl hx
  | cons x xs ih =>
    by_cases hxs : xs = []
    · subst hxs
      exact joinLines_cons x ys hy
    · rw [List.cons_append, joinLines_cons _ _ (List.append_ne_nil_of_left_ne_nil hxs ys), ih hxs,
        joinLines_cons x xs hxs, List.append_assoc, List.cons_append]

/-- The lines of a range up to one of them, and those behind it. -/
theorem joinRange_split {ls : List Text} {a l z : Nat} (ha : 1 ≤ a) (hal : a ≤ l) (hlz : l ≤ z)
    (hz : z ≤ ls.length) : ∃ rest, joinRange ls a z = joinRange ls a l ++ rest ∧
      (rest = [] ∨ ∃ more, rest = '\n' :: more) := by
  have hsplit : (ls.take z).drop (a - 1) = (ls.take l).drop (a - 1) ++ (ls.take z).drop l := by
    have htake : ls.take z = ls.take l ++ (ls.take z).drop l := by
      rw [← List.take_append_drop l (ls.take z), List.take_take, Nat.min_eq_left hlz,
        List.drop_left' (by rw [List.length_take]; omega)]
    have hdrop := congrArg (List.drop (a - 1)) htake
    rwa [List.drop_append_of_le_length (by rw [List.length_take]; omega)] at hdrop
  have hfirst : (ls.take l).drop (a - 1) ≠ [] := by
    intro h
    have hlen := congrArg List.length h
    rw [List.length_drop, List.length_take, List.length_nil] at hlen
    omega
  rw [joinRange_of_le ha (by omega) hz, joinRange_of_le ha hal (by omega), hsplit]
  by_cases hmore : (ls.take z).drop l = []
  · rw [hmore, List.append_nil]
    exact ⟨[], (List.append_nil _).symm, .inl rfl⟩
  · exact ⟨_, joinLines_append hfirst hmore, .inr ⟨_, rfl⟩⟩

/-- The words of a line are indexed where the lines up to it fit. -/
theorem indexed_line (D : Deps) {ls : List Text} {a l z : Nat} {text token : Text}
    (ha : 1 ≤ a) (hal : a ≤ l) (hlz : l ≤ z) (hz : z ≤ ls.length) (htext : ls[l - 1]? = some text)
    (htoken : token ∈ codeTokens D.chars text) (hfits : byteLen (joinRange ls a l) ≤ maxChunkBytes) :
    token ∈ codeTokens D.chars (indexedText (joinRange ls a z)) := by
  have hmem : token ∈ codeTokens D.chars (joinRange ls a l) :=
    mem_codeTokens_joinRange D ha hal (Nat.le_refl l) htext htoken
  obtain ⟨rest, hsplit, hrest⟩ := joinRange_split ha hal hlz hz
  obtain ⟨t, ht, hcut⟩ := truncate_append hfits rest
  unfold indexedText
  rw [hsplit, hcut]
  rcases hrest with rfl | ⟨more, rfl⟩
  · rw [List.prefix_nil.1 ht, List.append_nil]
    exact hmem
  · cases t with
    | nil =>
      rw [List.append_nil]
      exact hmem
    | cons c t =>
      rw [(List.cons_prefix_cons.1 ht).1, codeTokens_append_cons _ _ _ _ (isAlphanumeric_newline _)]
      exact List.mem_append_left _ hmem

/-! ## Lines in chunks -/

/-- The chunks are line ranges with their text, and every line is in one. -/
structure CoversLines (ls : List Text) (specs : List ChunkSpec) : Prop where
  bodies : ∀ spec ∈ specs, 1 ≤ spec.startLine ∧ spec.startLine ≤ spec.endLine ∧
    spec.endLine ≤ ls.length ∧ spec.body = joinRange ls spec.startLine spec.endLine
  covered : ∀ l, 1 ≤ l → l ≤ ls.length → ∃ spec ∈ specs, l ∈ spec.lineNumbers

/-- Whatever the language, the chunks of a file cover its lines. -/
theorem coversLines_chunkFile {D : Deps} {content : Text} {language : Option Language}
    {specs : List ChunkSpec} (h : chunkFile D content language = some specs) :
    CoversLines (lines content) specs := by
  cases language with
  | none =>
    cases h
    constructor
    · intro spec hspec
      have h1 := (mem_chunkWindows hspec).1
      rw [chunkWindows_eq h1] at hspec
      obtain ⟨w, hw, rfl⟩ := List.mem_map.1 hspec
      obtain ⟨hstart, hle, hstop, -⟩ := window_range h1 hw
      exact ⟨hstart, hle, hstop, rfl⟩
    · intro l h1 hl
      have hlines : 1 ≤ (lines content).length := by omega
      have hlayout := windowLayout_windows hlines
      rw [← chunkWindows_eq hlines] at hlayout
      obtain ⟨spec, hspec⟩ := List.exists_mem_of_length_pos (hlayout.covered l h1 hl).1
      rw [List.mem_filter, decide_eq_true_eq] at hspec
      exact ⟨spec, hspec⟩
  | some lang =>
    have h : chunkSpans (lines content) _ = some specs := h
    obtain ⟨chunks, hchunks, hparts⟩ := partitions_chunkSpans (inRange_of_chunkSpans h)
    rw [h] at hchunks
    cases hchunks
    constructor
    · intro spec hspec
      obtain ⟨h1, hle, hstop, hbody⟩ := hparts.bodies spec hspec
      exact ⟨h1, hle, hstop, hbody.trans (joinRange_of_le h1 hle hstop).symm⟩
    · intro l h1 hl
      by_cases hin : Inside (((D.parseSourceSpans content lang).toOption.getD []).map
          (clampSpan (lines content))) l
      · obtain ⟨spec, hspec, -, hmem⟩ := (hparts.symbolLines l).2 hin
        exact ⟨spec, hspec, hmem⟩
      · obtain ⟨spec, ⟨hspec, -, hmem⟩, -⟩ := hparts.moduleLines l h1 hl hin
        exact ⟨spec, hspec, hmem⟩

/-! ## The expression of a query -/

/-- Letters and digits have no ASCII character but letters and digits in lowercase. -/
def CharTables.LowersLetters (U : CharTables) : Prop :=
  ∀ s : Text, (∀ c ∈ s, U.isAlphanumeric c = true) → ∀ c ∈ U.toLowercase s, c.toNat < 128 →
    c.isAlphanum = true

/-- A token has no ASCII character but letters and digits. -/
theorem alphanumeric_of_token {U : CharTables} (hU : U.LowersLetters) {s token : Text}
    (h : token ∈ codeTokens U s) {c : Char} (hc : c ∈ token) (hascii : c.toNat < 128) :
    c.isAlphanum = true := by
  rw [codeTokens_eq_map] at h
  obtain ⟨piece, hpiece, rfl⟩ := List.mem_map.1 h
  exact hU piece (fun d hd => (mem_of_mem_codePieces U hpiece hd).2) c hc hascii

theorem joinWith_eq (sep : Text) (ps : List Text) : joinWith sep ps = sep.intercalate ps := by
  induction ps with
  | nil => rfl
  | cons p ps ih =>
    cases ps with
    | nil => exact (List.intercalate_singleton ..).symm
    | cons p' ps => rw [joinWith_cons sep p (List.cons_ne_nil _ _), ih, List.intercalate_cons_cons]

/-- The operator between the literals of a query. -/
def orOperator : Text := " OR ".toList

theorem matchExpr_eq {tokens : List Text} (h : ∀ token ∈ tokens, '"' ∉ token) :
    matchExpr tokens = disjunction '"' orOperator tokens := by
  unfold matchExpr disjunction
  rw [joinWith_eq]
  have hliterals : tokens.map (fun t => '"' :: t ++ ['"']) = tokens.map (literal '"') := by
    refine List.map_congr_left fun token htoken => ?_
    unfold literal
    rw [escaped_of_not_mem (h token htoken)]
    rfl
  rw [hliterals]
  rfl

/-! ## The rows of an expression -/

/-- What FTS5 answers to literals joined by `OR`: the rows in which the terms of one of them
stand, in order and adjacent.  Its terms end at a space. -/
structure Fts5 {τ : Type} (S : Sqlite) (T : Tokenizer Char τ ' ') : Prop where
  found : ∀ (fts : FtsTable) (phrases : List Text), phrases ≠ [] →
    (∀ p ∈ phrases, Char.ofNat 0 ∉ p) → ∀ rowid,
      rowid ∈ (S.bm25 fts (disjunction '"' orOperator phrases)).map Prod.fst ↔
        ∃ row ∈ fts.rows, row.rowid = rowid ∧ ∃ p ∈ phrases, T.Matches p row.bodyTokens

/-- A limit leaves out a row only after as many others. -/
theorem mem_limited {α : Type} {k : Nat} (hk : k < 2 ^ 64) {rows : List α} {row : α}
    (h : row ∈ rows) :
    row ∈ limited (asI64 k) rows ∨ k ≤ (limited (asI64 k) rows).length := by
  unfold limited asI64
  by_cases hlt : k < 2 ^ 63
  · rw [if_pos hlt, if_neg (by omega), Int.toNat_natCast]
    by_cases hle : rows.length ≤ k
    · rw [List.take_of_length_le hle]
      exact .inl h
    · rw [List.length_take]
      exact .inr (by omega)
  · rw [if_neg hlt, if_pos (by omega)]
    exact .inl h

theorem mem_of_mem_limited {α : Type} {k : Int} {rows : List α} {row : α}
    (h : row ∈ limited k rows) : row ∈ rows := by
  unfold limited at h
  split at h
  · exact h
  · exact List.mem_of_mem_take h

section
variable {ix : Index}

/-- A chunk is the only one of its rowid. -/
theorem chunk_of_rowid {c d : ChunkRow} (hc : c ∈ ix.chunks.rows) (hd : d ∈ ix.chunks.rows)
    (h : c.rowid = d.rowid) : c = d :=
  List.inj_on_of_nodup_map (nodup_rowids ix.chunks (·.rowid) fun _ _ => .inl) hc hd h

theorem mem_map_joinChunks {α : Type} {rows : List (RowId × α)} {id : Text} :
    id ∈ (joinChunks ix rows).map Prod.fst ↔
      ∃ c ∈ ix.chunks.rows, c.id = id ∧ c.rowid ∈ rows.map Prod.fst := by
  unfold joinChunks
  constructor
  · intro h
    obtain ⟨entry, hentry, rfl⟩ := List.mem_map.1 h
    obtain ⟨row, hrow, hjoin⟩ := List.mem_filterMap.1 hentry
    obtain ⟨c, hfind, rfl⟩ := Option.map_eq_some_iff.1 hjoin
    have hrowid : c.rowid = row.1 := by simpa using List.find?_some hfind
    exact ⟨c, List.mem_of_find?_eq_some hfind, rfl, hrowid ▸ List.mem_map_of_mem hrow⟩
  · rintro ⟨c, hc, rfl, hmem⟩
    obtain ⟨row, hrow, hrowid⟩ := List.mem_map.1 hmem
    have hfind : ix.chunks.rows.find? (fun d => decide (d.rowid = row.1)) = some c := by
      have hsome : (ix.chunks.rows.find? fun d => decide (d.rowid = row.1)).isSome := by
        rw [List.find?_isSome]
        exact ⟨c, hc, decide_eq_true hrowid.symm⟩
      obtain ⟨d, hd⟩ := Option.isSome_iff_exists.1 hsome
      have hdrow : d.rowid = row.1 := by simpa using List.find?_some hd
      rw [hd, chunk_of_rowid (List.mem_of_find?_eq_some hd) hc (hdrow.trans hrowid)]
    refine List.mem_map.2 ⟨(c.id, row.2), List.mem_filterMap.2 ⟨row, hrow, ?_⟩, rfl⟩
    rw [hfind]
    rfl

variable {τ : Type} {S : Sqlite} {T : Tokenizer Char τ ' '} {U : CharTables} {query : Text}
  {k : Nat} {bm25 : List (Text × Float)}

/-- A token of the query has terms in the tokens of the chunk. -/
def MatchesQuery (T : Tokenizer Char τ ' ') (U : CharTables) (ix : Index) (query : Text)
    (c : ChunkRow) : Prop :=
  ∃ row ∈ ix.fts.rows, row.rowid = c.rowid ∧ ∃ token ∈ codeTokens U query,
    T.Matches token row.bodyTokens

/-- Of a query with a token, the limit cuts a list of just the chunks that match it. -/
theorem bm25Query_matches (hfts : Fts5 S T) (hU : U.LowersLetters)
    (h : bm25Query S U ix query k = .ok bm25) (hne : codeTokens U query ≠ []) :
    ∃ rows : List (Text × Float), bm25 = limited (asI64 k) rows ∧ ∀ id,
      id ∈ rows.map Prod.fst ↔ ∃ c ∈ ix.chunks.rows, c.id = id ∧ MatchesQuery T U ix query c := by
  have hplain : ∀ token ∈ codeTokens U query, ∀ c : Char, c.toNat < 128 → c.isAlphanum = false →
      c ∉ token := by
    intro token htoken c hascii hno hc
    rw [alphanumeric_of_token hU htoken hc hascii] at hno
    cases hno
  have hquery : query ≠ [] := fun hnil => hne (by rw [hnil, codeTokens_nil])
  unfold bm25Query at h
  dsimp only at h
  rw [if_neg (by simp [hquery, hne]),
    matchExpr_eq fun token htoken => hplain token htoken '"' (by decide) (by decide)] at h
  obtain ⟨-, rfl⟩ := rows_eq_ok.1 h
  refine ⟨_, rfl, fun id => ?_⟩
  rw [mem_map_joinChunks]
  have hnul : ∀ token ∈ codeTokens U query, Char.ofNat 0 ∉ token := fun token htoken =>
    hplain token htoken (Char.ofNat 0) (by decide) (by decide)
  simp only [hfts.found ix.fts _ hne hnul, MatchesQuery]

/-- A lexical hit is a chunk that matches. -/
theorem bm25Query_sound (hfts : Fts5 S T) (hU : U.LowersLetters)
    (h : bm25Query S U ix query k = .ok bm25) {entry : Text × Float} (hentry : entry ∈ bm25) :
    ∃ c ∈ ix.chunks.rows, c.id = entry.1 ∧ MatchesQuery T U ix query c := by
  by_cases hne : codeTokens U query = []
  · unfold bm25Query at h
    dsimp only at h
    rw [hne, if_pos (by simp)] at h
    cases h
    cases hentry
  · obtain ⟨rows, rfl, hrows⟩ := bm25Query_matches hfts hU h hne
    exact (hrows entry.1).1 (List.mem_map_of_mem (mem_of_mem_limited hentry))

/-- A chunk that matches is a lexical hit, unless `k` others are. -/
theorem bm25Query_complete (hfts : Fts5 S T) (hU : U.LowersLetters) (hk : k < 2 ^ 64)
    (h : bm25Query S U ix query k = .ok bm25) {c : ChunkRow} (hc : c ∈ ix.chunks.rows)
    (hmatch : MatchesQuery T U ix query c) : c.id ∈ bm25.map Prod.fst ∨ k ≤ bm25.length := by
  have hne : codeTokens U query ≠ [] := by
    obtain ⟨-, -, -, token, htoken, -⟩ := hmatch
    exact List.ne_nil_of_mem htoken
  obtain ⟨rows, rfl, hrows⟩ := bm25Query_matches hfts hU h hne
  obtain ⟨entry, hentry, hid⟩ := List.mem_map.1 ((hrows c.id).2 ⟨c, hc, rfl, hmatch⟩)
  rcases mem_limited hk hentry with hin | hfull
  · exact .inl (hid ▸ List.mem_map_of_mem hin)
  · exact .inr hfull

end

/-! ## The chunks of a tree -/

section
variable {D : Deps} {e : Embedder} {files : List WalkedFile} {ix : Index}

/-- The row of a chunk of a walked file. -/
structure RowOf (D : Deps) (e : Embedder) (ix : Index) (file : WalkedFile) (spec : ChunkSpec)
    (c : ChunkRow) : Prop where
  stored : c ∈ ix.chunks.rows
  entry : ix.entry c = specEntry D e file.relPath spec

theorem RowOf.id {file : WalkedFile} {spec : ChunkSpec} {c : ChunkRow} (h : RowOf D e ix file spec c) :
    c.id = chunkId file.relPath spec.startLine spec.endLine :=
  congrArg (fun entry : Entry => entry.data.id) h.entry

/-- The tokens that FTS5 has under the rowid of a chunk are those of its body. -/
theorem RowOf.matchesQuery_iff {τ : Type} {T : Tokenizer Char τ ' '} {query : Text}
    {file : WalkedFile} {spec : ChunkSpec} {c : ChunkRow} (h : RowOf D e ix file spec c) :
    MatchesQuery T D.chars ix query c ↔
      ∃ token ∈ codeTokens D.chars query, T.Matches token (bodyTokens D spec.body) := by
  have htokens : (ix.fts.rows.filter fun row => row.rowid = c.rowid).map (·.bodyTokens) =
      [bodyTokens D spec.body] := congrArg Entry.tokens h.entry
  constructor
  · rintro ⟨row, hrow, hrowid, token, htoken, hmatch⟩
    have hmem : row.bodyTokens ∈ [bodyTokens D spec.body] := by
      rw [← htokens]
      exact List.mem_map_of_mem (List.mem_filter.2 ⟨hrow, decide_eq_true hrowid⟩)
    rw [List.mem_singleton.1 hmem] at hmatch
    exact ⟨token, htoken, hmatch⟩
  · rintro ⟨token, htoken, hmatch⟩
    have hmem : bodyTokens D spec.body ∈
        (ix.fts.rows.filter fun row => row.rowid = c.rowid).map (·.bodyTokens) := by
      rw [htokens]
      exact List.mem_singleton_self _
    obtain ⟨row, hrow, heq⟩ := List.mem_map.1 hmem
    rw [List.mem_filter, decide_eq_true_eq] at hrow
    exact ⟨row, hrow.1, hrow.2, token, htoken, heq ▸ hmatch⟩

variable (h : HoldsTree D e files ix)
include h

/-- Every chunk of a walked file has a row. -/
theorem HoldsTree.row {file : WalkedFile} (hfile : file ∈ files) : ∃ specs,
    chunkFile D file.content file.language = some specs ∧
      ∀ spec ∈ specs, ∃ c, RowOf D e ix file spec c := by
  obtain ⟨specs, hspecs, hrows⟩ := Option.bind_eq_some_iff.1 (h.rows file hfile)
  obtain ⟨structural, -, hrows⟩ := Option.bind_eq_some_iff.1 hrows
  have hentries : specs.map (specEntry D e file.relPath) =
      (ix.chunksOf file.relPath).map ix.entry := congrArg PathRows.entries (Option.some.inj hrows)
  refine ⟨specs, hspecs, fun spec hspec => ?_⟩
  have hmem : specEntry D e file.relPath spec ∈ (ix.chunksOf file.relPath).map ix.entry := by
    rw [← hentries]
    exact List.mem_map_of_mem hspec
  obtain ⟨c, hc, hentry⟩ := List.mem_map.1 hmem
  exact ⟨c, (Index.mem_chunksOf.1 hc).1, hentry⟩

/-- Every row is of a chunk of a walked file. -/
theorem HoldsTree.rowOf {c : ChunkRow} (hc : c ∈ ix.chunks.rows) : ∃ file ∈ files, ∃ specs,
    chunkFile D file.content file.language = some specs ∧ ∃ spec ∈ specs, RowOf D e ix file spec c := by
  obtain ⟨file, hfile, hpath⟩ := h.file hc
  obtain ⟨specs, hspecs, spec, hspec, hentry⟩ := chunk_of_fileRows (h.rows file hfile) hc hpath
  exact ⟨file, hfile, specs, hspecs, spec, hspec, hc, hentry⟩

theorem HoldsTree.located (hwalk : ∀ f ∈ files, Walkable f.content) : ix.toDb.Located := by
  intro c hc
  obtain ⟨file, hfile, specs, hspecs, spec, hspec, -, hentry⟩ := h.rowOf hc
  obtain ⟨hle, hend⟩ := chunkFile_ranges hspecs spec hspec
  have hlt := length_lines_lt (hwalk file hfile)
  have hdata : c.toChunkData = (indexedChunk file.relPath spec).data spec.kindStr :=
    congrArg Entry.data hentry
  have hstart : spec.startLine % 2 ^ 32 = spec.startLine := Nat.mod_eq_of_lt (by omega)
  have hstop : spec.endLine % 2 ^ 32 = spec.endLine := Nat.mod_eq_of_lt (by omega)
  rw [hdata]
  constructor
  · show chunkId file.relPath spec.startLine spec.endLine =
      chunkId file.relPath (spec.startLine % 2 ^ 32) (spec.endLine % 2 ^ 32)
    rw [hstart, hstop]
  · show spec.startLine % 2 ^ 32 ≤ spec.endLine % 2 ^ 32
    rw [hstart, hstop]
    exact hle
  · exact Nat.mod_lt _ (by decide)

end

/-! ## The answer to a query -/

/-- What became of a chunk that matches a query. -/
inductive Accounted {F : Type} (U : CharTables) (ix : Index) (k : Nat) (bm25 : List (Text × Float))
    (fused kept : List (Text × F)) (hits : List (SearchHit F)) (id : Text) : Prop
  | found (hit : SearchHit F) (h : hit ∈ hits) (hid : hit.id = id)
  | dropped (score : F) (h : Dropped U ix k fused kept hits (id, score))
  /-- `k` other chunks match the query and are ranked before it. -/
  | outranked (hk : k ≤ bm25.length) (h : id ∉ bm25.map Prod.fst)

/-- The lexical hits are chunks with a word of the query, and the lines with a word of the query
are accounted for: every line is in a chunk, and a chunk in which it is not cut off is found if
nothing took its place. -/
structure LexicalAnswer {τ F : Type} (D : Deps) (T : Tokenizer Char τ ' ') (files : List WalkedFile)
    (ix : Index) (query : Text) (k : Nat) (bm25 : List (Text × Float)) (fused kept : List (Text × F))
    (hits : List (SearchHit F)) : Prop where
  sound : ∀ entry ∈ bm25, ∃ file ∈ files, ∃ specs,
    chunkFile D file.content file.language = some specs ∧ ∃ spec ∈ specs,
      entry.1 = chunkId file.relPath spec.startLine spec.endLine ∧
      ∃ token ∈ codeTokens D.chars query, T.Matches token (bodyTokens D spec.body)
  complete : ∀ file ∈ files, ∃ specs, chunkFile D file.content file.language = some specs ∧
    ∀ l text, 1 ≤ l → (lines file.content)[l - 1]? = some text →
      (∃ spec ∈ specs, l ∈ spec.lineNumbers) ∧
      ∀ spec ∈ specs, l ∈ spec.lineNumbers →
        byteLen (joinRange (lines file.content) spec.startLine l) ≤ maxChunkBytes →
        ∀ token ∈ codeTokens D.chars query, token ∈ codeTokens D.chars text → T.terms token ≠ [] →
          Accounted D.chars ix k bm25 fused kept hits
            (chunkId file.relPath spec.startLine spec.endLine)

section
variable {F τ : Type} {D : Deps} {e : Embedder} {files : List WalkedFile} {ix : Index}
  {T : Tokenizer Char τ ' '}

/-- A word of a line stands in the tokens of a chunk in which the line is not cut off. -/
theorem matches_line {ls : List Text} {specs : List ChunkSpec} (hcovers : CoversLines ls specs)
    {spec : ChunkSpec} (hspec : spec ∈ specs) {l : Nat} {text token : Text}
    (hl : l ∈ spec.lineNumbers) (htext : ls[l - 1]? = some text)
    (htoken : token ∈ codeTokens D.chars text) (hterms : T.terms token ≠ [])
    (hfits : byteLen (joinRange ls spec.startLine l) ≤ maxChunkBytes) :
    T.Matches token (bodyTokens D spec.body) := by
  obtain ⟨h1, -, hstop, hbody⟩ := hcovers.bodies spec hspec
  obtain ⟨hstart, hend⟩ := mem_lineNumbers.1 hl
  have hindexed : token ∈ codeTokens D.chars (indexedText spec.body) := by
    rw [hbody]
    exact indexed_line D h1 hstart hend hstop htext htoken hfits
  unfold bodyTokens
  rw [joinWith_eq]
  exact matches_of_mem T hindexed hterms

/-- A chunk that matches the query is accounted for. -/
theorem accounted_of_matches {S : Sqlite} {U : CharTables} {query : Text} {k : Nat}
    (hfts : Fts5 S T) (hU : U.LowersLetters) (hk : k < 2 ^ 64) {bm25 : List (Text × Float)}
    {fused kept : List (Text × F)} {hits : List (SearchHit F)}
    (hbm25 : bm25Query S U ix query k = .ok bm25) (hsub : bm25.map Prod.fst ⊆ fused.map Prod.fst)
    (hanswer : Answer U ix k fused kept hits) {c : ChunkRow} (hc : c ∈ ix.chunks.rows)
    (hmatch : MatchesQuery T U ix query c) : Accounted U ix k bm25 fused kept hits c.id := by
  by_cases hin : c.id ∈ bm25.map Prod.fst
  · obtain ⟨cand, hcand, hid⟩ := List.mem_map.1 (hsub hin)
    rw [← hid]
    rcases hanswer.accounted cand hcand with ⟨hit, hhit, hhitId, -⟩ | hdropped
    · exact .found hit hhit hhitId
    · exact .dropped cand.2 hdropped
  · exact .outranked ((bm25Query_complete hfts hU hk hbm25 hc hmatch).resolve_left hin) hin

end

/-! ## A search by words -/

/-- A tokenizer whose terms are the code tokens. -/
def codeTokenizer : Tokenizer Char Text ' ' where
  terms := codeTokens .ascii
  terms_sep xs ys := codeTokens_append_cons .ascii xs ys ' ' rfl

/-- The rows that the phrases of an expression match, in the order of the table. -/
def matchingRows (fts : FtsTable) (expr : Text) : List (RowId × Float) :=
  ((readDisjunction '"' orOperator expr).getD []).flatMap fun phrase =>
    (fts.rows.filter fun row => decide (codeTokens .ascii phrase ≠ [] ∧
      codeTokens .ascii phrase <:+: codeTokens .ascii row.bodyTokens)).map fun row => (row.rowid, 0)

/-- A search that finds rows by their terms. -/
def wordMachine : Machine Rat :=
  { plainMachine with sqlite := { plainMachine.sqlite with bm25 := matchingRows } }

theorem fts5_wordMachine : Fts5 wordMachine.sqlite codeTokenizer where
  found fts phrases hne _ rowid := by
    show rowid ∈ (matchingRows fts (disjunction '"' orOperator phrases)).map Prod.fst ↔ _
    unfold matchingRows
    rw [readDisjunction_disjunction (by decide) (by decide) hne, Option.getD_some, List.mem_map]
    constructor
    · rintro ⟨entry, hentry, rfl⟩
      obtain ⟨phrase, hphrase, hrows⟩ := List.mem_flatMap.1 hentry
      obtain ⟨row, hrow, rfl⟩ := List.mem_map.1 hrows
      rw [List.mem_filter, decide_eq_true_eq] at hrow
      exact ⟨row, hrow.1, rfl, phrase, hphrase, hrow.2.1, hrow.2.2⟩
    · rintro ⟨row, hrow, rfl, phrase, hphrase, hterms, hoccurs⟩
      have hmem : row ∈ fts.rows.filter fun row => decide (codeTokens .ascii phrase ≠ [] ∧
          codeTokens .ascii phrase <:+: codeTokens .ascii row.bodyTokens) :=
        List.mem_filter.2 ⟨hrow, decide_eq_true ⟨hterms, hoccurs⟩⟩
      exact ⟨(row.rowid, 0), List.mem_flatMap.2 ⟨phrase, hphrase,
        List.mem_map.2 ⟨row, hmem, rfl⟩⟩, rfl⟩

theorem lowersLetters_ascii : CharTables.ascii.LowersLetters := by
  intro s hs c hc _
  obtain ⟨d, hd, rfl⟩ := List.mem_map.1 hc
  have hletter : d.isAlphanum = true := hs d hd
  have hascii : d.toNat < 128 := by
    unfold Char.isAlphanum Char.isAlpha Char.isUpper Char.isLower Char.isDigit at hletter
    simp only [Bool.or_eq_true, Bool.and_eq_true, decide_eq_true_eq, UInt32.le_iff_toNat_le] at hletter
    simp only [Char.toNat]
    grind
  exact (toLower_ascii hascii).2.2.trans hletter

def wordRequest : SearchCodeParams Rat := ⟨"a".toList, none, none, none, none, none, none, none⟩

end CodeSearch
