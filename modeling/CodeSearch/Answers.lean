import CodeSearch.Hits
import CodeSearch.SourceChunks

/-!
# Answers about a source tree

The hits of a search after a run that returned, told by the syntax trees of the files that
the run walked: a hit is a declaration of its file or lines outside of all declarations, its
text stands on its lines, and its imports and exports are those of the file's tree
(`hits_of_tree`).
-/

namespace CodeSearch

open Relational Store TreeWalk

/-- What a hit tells of an import, and of an export. -/
def importDto (imp : ImportStatement) : ImportDto := ⟨imp.source, importKindTag imp.importKind, imp.line⟩
def exportDto (exp : ExportStatement) : ExportDto := ⟨exportDetail exp.exportKind, exp.line⟩

section
variable {F : Type}

/-- What a hit in a parsed file is. -/
inductive HitIn {content : Text} (language : Language) (tree : SourceTree content)
    (hit : SearchHit F) : Prop
  /-- A declaration, with its own lines and signature. -/
  | declaration (span : SymbolSpan) (hspan : span ∈ spansOfTree language tree.root)
      (t : RoseTree Token) (ht : Declares tree t span)
      (start : hit.startLine = rowAt content t.label.place.start + 1)
      (stop : hit.endLine = min (rowAt content t.label.place.stop + 1) (lines content).length)
      (kind : hit.kind = (spanChunk (lines content) span).kindStr)
      (signature : hit.signature = some (renderSignature span.1 hit.kind))
  /-- Lines outside of all declarations. -/
  | outside (kind : hit.kind = "module".toList) (signature : hit.signature = none)
      (apart : ∀ span ∈ spansOfTree language tree.root, ∀ l, hit.startLine ≤ l → l ≤ hit.endLine →
        ¬ (span.2.2.1 ≤ l ∧ l ≤ span.2.2.2))

/-- What a hit tells of its file: the text of some of its lines, and what its tree declares,
imports and exports. -/
structure HitOf (parse : TreeSitter) (file : WalkedFile) (hit : SearchHit F) : Prop where
  path : hit.file = file.relPath
  inside : 1 ≤ hit.startLine ∧ hit.startLine ≤ hit.endLine ∧ hit.endLine ≤ (lines file.content).length
  snippet : hit.snippet =
    (joinLines (((lines file.content).take hit.endLine).drop (hit.startLine - 1))).take snippetMax
  unparsed : file.language = none →
    hit.kind = "window".toList ∧ hit.signature = none ∧ hit.imports = [] ∧ hit.exports = []
  parsed : ∀ language, file.language = some language → ∃ tree,
    parse file.content language = .ok tree ∧ HitIn language tree hit ∧
      hit.imports = (importsOfTree language tree.root).map importDto ∧
      hit.exports = (exportsOfTree language tree.root).map exportDto

end

section
variable {F : Type} {parse : TreeSitter} {D : Deps} {file : WalkedFile} {hit : SearchHit F}

/-- A window of an unparsed file. -/
theorem hitOf_window (hlanguage : file.language = none) {spec : ChunkSpec}
    (hspec : spec ∈ chunkWindows file.content) (hshows : Shows D hit file spec) :
    HitOf parse file hit := by
  obtain ⟨h1, -⟩ := mem_chunkWindows hspec
  rw [chunkWindows_eq h1] at hspec
  obtain ⟨w, hw, rfl⟩ := List.mem_map.1 hspec
  obtain ⟨hstart, hle, hstop, -⟩ := window_range h1 hw
  constructor
  · exact hshows.path
  · rw [hshows.startLine, hshows.endLine]
    exact ⟨hstart, hle, hstop⟩
  · rw [hshows.snippet, hshows.startLine, hshows.endLine]
    exact congrArg (List.take snippetMax) (joinRange_of_le hstart hle hstop)
  · intro _
    obtain ⟨rows, hrows, himports, hexports⟩ := hshows.structural
    unfold structuralRows at hrows
    rw [hlanguage] at hrows
    cases hrows
    exact ⟨hshows.kind, hshows.signature, himports, hexports⟩
  · intro language hsome
    rw [hlanguage] at hsome
    cases hsome

/-- A chunk of a parsed file: a declaration, or lines outside of them. -/
theorem hitIn_chunk {language : Language} {tree : SourceTree file.content} {specs : List ChunkSpec}
    (hspecs : chunkSpans (lines file.content) (spansOfTree language tree.root) = some specs)
    {spec : ChunkSpec} (hspec : spec ∈ specs) (hshows : Shows D hit file spec) :
    HitIn language tree hit := by
  obtain ⟨hin, modules, rfl, hold⟩ := chunkSpans_parts hspecs
  have hstarts := (inRange_clampSpan_iff _ _).1 hin
  rcases List.mem_append.1 hspec with hsymbol | hmodule
  · obtain ⟨clamped, hclamped, rfl⟩ := List.mem_map.1 hsymbol
    obtain ⟨span, hspan, rfl⟩ := List.mem_map.1 (mem_firstSpans hclamped)
    obtain ⟨t, ht⟩ := exists_declares tree span hspan
    have hrange := ht.clamped (Nat.le_trans (Nat.le_max_left _ 1) (hstarts span hspan))
    refine .declaration span hspan t ht ?_ ?_ hshows.kind ?_
    · exact hshows.startLine.trans (congrArg Prod.fst hrange)
    · exact hshows.endLine.trans (congrArg Prod.snd hrange)
    · rw [hshows.signature, hshows.kind]
      rfl
  · have hkind := hold.kind hmodule
    have hplain := (hold.ranges spec hmodule).1
    refine .outside ?_ ?_ fun span hspan l hl hl' hinside => ?_
    · rw [hshows.kind]
      unfold ChunkSpec.kindStr
      rw [hkind]
    · rw [hshows.signature, hplain]
      rfl
    · rw [hshows.startLine] at hl
      rw [hshows.endLine] at hl'
      obtain ⟨hl1, hln, hout⟩ := hold.mem_iff.1 ⟨spec, hmodule, mem_lineNumbers.2 ⟨hl, hl'⟩⟩
      refine hout ⟨clampSpan (lines file.content) span, List.mem_map_of_mem hspan, ?_⟩
      show max span.2.2.1 1 ≤ l ∧ l ≤ max (min span.2.2.2 (lines file.content).length) (max span.2.2.1 1)
      omega

/-- The structural rows of a parsed file are those of its tree. -/
theorem structuralRows_parsing {language : Language} (hlanguage : file.language = some language)
    {rows : List ImportRow × List ExportRow}
    (h : structuralRows (D.parsing parse) file = some rows) :
    ∃ tree, parse file.content language = .ok tree ∧
      rows = ((importsOfTree language tree.root).map (importRow file.relPath),
        (exportsOfTree language tree.root).map (exportRow file.relPath)) := by
  unfold structuralRows at h
  rw [hlanguage] at h
  dsimp only at h
  cases hparse : parse file.content language with
  | error err =>
    have hfails : (D.parsing parse).parseSourceImportsExports file.content language = .error err := by
      show (parse.root file.content language).map _ = _
      unfold TreeSitter.root
      rw [hparse]
      rfl
    rw [hfails] at h
    cases h
  | ok tree =>
    rw [parseSourceImportsExports_parsing D hparse] at h
    exact ⟨tree, rfl, (Option.some.inj h).symm⟩

/-- What shows a chunk of a file tells what the parser found there. -/
theorem hitOf_shows {specs : List ChunkSpec}
    (hspecs : chunkFile (D.parsing parse) file.content file.language = some specs)
    {spec : ChunkSpec} (hspec : spec ∈ specs) (hshows : Shows (D.parsing parse) hit file spec) :
    HitOf parse file hit := by
  cases hlanguage : file.language with
  | none =>
    rw [hlanguage] at hspecs
    exact hitOf_window hlanguage (Option.some.inj hspecs ▸ hspec) hshows
  | some language =>
    rw [hlanguage] at hspecs
    obtain ⟨rows, hrows, himports, hexports⟩ := hshows.structural
    obtain ⟨tree, hparse, rfl⟩ := structuralRows_parsing hlanguage hrows
    rw [chunkFile_parsing D hparse] at hspecs
    obtain ⟨chunks, hchunks, hpartition⟩ := partitions_chunkSpans (inRange_of_chunkSpans hspecs)
    rw [hspecs] at hchunks
    cases hchunks
    obtain ⟨hstart, hle, hstop, hbody⟩ := hpartition.bodies spec hspec
    constructor
    · exact hshows.path
    · rw [hshows.startLine, hshows.endLine]
      exact ⟨hstart, hle, hstop⟩
    · rw [hshows.snippet, hshows.startLine, hshows.endLine, hbody]
    · intro hnone
      rw [hlanguage] at hnone
      cases hnone
    · intro language' hsome
      rw [hlanguage] at hsome
      cases hsome
      rw [List.map_map] at himports hexports
      exact ⟨tree, hparse, hitIn_chunk hspecs hspec hshows, himports, hexports⟩

/-- After any history of a repository, a run that returns and a search of what it left: the hits
are about the files that the run walked, as they are in the walk. -/
theorem hits_of_tree (D : Deps) (parse : TreeSitter) (e : QueryEmbedder) (root : Text) (db : Db)
    (h : History (D.parsing parse) e.toEmbedder root db) (view : RepoView)
    (hroot : view.canonicalRoot = root) (hv : ValidTree view.walked)
    (hwalk : ∀ f ∈ view.walked, Walkable f.content) (force : Bool)
    (hinj : force = false → NoCollision D view.walked)
    (allow : Req Stmt → Outcome RowId SqlError → Db → Txn Db → Prop) (report : ReindexReport)
    (db' : Db) (hf : Finishes engine allow
      (reindexWith (D.parsing parse) view force e.toEmbedder) db (.ok report) db')
    (hits : List (SearchHit F)) (hsearch : Searches e db' hits) :
    ∀ hit ∈ hits, ∃ file ∈ view.walked, HitOf parse file hit := by
  subst hroot
  obtain ⟨ix, rfl, htree⟩ := holdsTree_of_coherent h.coherent hv hinj hf
  intro hit hhit
  obtain ⟨file, hfile, specs, hspecs, spec, hspec, hshows⟩ := hsearch.shows htree hwalk hit hhit
  exact ⟨file, hfile, hitOf_shows hspecs hspec hshows⟩

end

/-! ## A search of one source -/

def traitDigest : Text :=
  "0d1195f02dbe8918314631b7550f4eba4b1cbe35516023e1cc71a3777ee103c1".toList

/-- The dependencies on the trait, too. -/
def Deps.trait : Deps :=
  { Deps.plain with
    blake3Hex := fun s => if s = traitSource then traitDigest else Deps.plain.blake3Hex s
    blake3Hex_hex := fun s => by
      have hdigest : traitDigest.all (fun c =>
        c.isDigit || (decide ('a' ≤ c) && decide (c ≤ 'f'))) = true := by decide +kernel
      by_cases h : s = traitSource
      · rw [if_pos h]
        intro c hc
        simpa using List.all_eq_true.1 hdigest c hc
      · rw [if_neg h]
        exact Deps.plain.blake3Hex_hex s }

/-- A tree of that file. -/
def traitView : RepoView where
  canonicalRoot := "/old".toList
  walked := [⟨"t.rs".toList, some .rust, traitSource⟩]
  mtime _ := 0
  durationMs := 0

/-- A full run of another tree, and an incremental one of this. -/
def traitBefore : Db :=
  (replay engine (succeed 40) (reindexWith (Deps.trait.parsing traitParser) oneFileView true
    oneFileEmbedder) (Index.fresh 1 .empty).toDb .idle).2.1
def traitIndexed : Db :=
  (replay engine (succeed 40) (reindexWith (Deps.trait.parsing traitParser) traitView false
    oneFileEmbedder) traitBefore .idle).2.1

/-- What a search opens then. -/
def traitIndex : Index where
  width := 1
  chunks := ⟨[
    ⟨⟨"t.rs:1-3".toList, "t.rs".toList, 1, 3, "trait T \x7b\n  fn x(&self);\n\x7d".toList,
      some "trait".toList⟩, 7⟩,
    ⟨⟨"t.rs:2-2".toList, "t.rs".toList, 2, 2, "  fn x(&self);".toList,
      some "method".toList⟩, 8⟩], by decide +kernel⟩
  vec := ⟨[⟨7, [0, 0, 0, 0]⟩, ⟨8, [0, 0, 0, 0]⟩], by decide +kernel⟩
  fts := ⟨[⟨7, "trait t fn x self".toList⟩, ⟨8, "fn x self".toList⟩], by decide +kernel⟩
  symbols := ⟨[
    ⟨"t.rs:1-3".toList, "T".toList, "trait T".toList, "trait".toList, 1⟩,
    ⟨"t.rs:2-2".toList, "x".toList, "x(self: &self)".toList, "method".toList, 2⟩], by decide +kernel⟩
  imports := []
  exports := []
  files := ⟨[filesRow ⟨"t.rs".toList, some .rust, traitSource⟩ traitDigest 0
    (repoIdFor .plain "/old".toList)], by simp⟩
  metaRows := ⟨[⟨metaEmbedderId, "m".toList⟩, ⟨metaEmbedderDim, "1".toList⟩,
    ⟨metaSchemaVersion, "1".toList⟩], by decide +kernel⟩

theorem noCollision_trait : NoCollision Deps.trait traitView.walked := by
  intro f hf content hhash
  rw [List.mem_singleton.1 hf] at hhash ⊢
  by_contra hne
  have hplain : Deps.plain.blake3Hex content = traitDigest := by
    have hsplit : ∀ s : Text, Deps.trait.blake3Hex s =
        if s = traitSource then traitDigest else Deps.plain.blake3Hex s := fun _ => rfl
    rw [hsplit, hsplit, if_neg hne, if_pos rfl] at hhash
    exact hhash
  have hlisted : ∀ d ∈ digests, d.2 ≠ traitDigest := by decide +kernel
  have hlookup : (digests.lookup content).getD [] = traitDigest := hplain
  cases hd : digests.lookup content with
  | none =>
    rw [hd] at hlookup
    exact absurd hlookup (by decide)
  | some d =>
    rw [hd] at hlookup
    obtain ⟨l, r, hl, -⟩ := List.lookup_eq_some_iff.1 hd
    exact hlisted (content, d) (by rw [hl]; simp) hlookup

/-- The file of the earlier run is gone, and the hit is the trait. -/
theorem hits_of_tree_trait : ∃ hits : List (SearchHit Rat),
    searchCode plainMachine traitIndex ⟨"x".toList, none, none, none, none, none, none, none⟩ =
      .ok hits ∧ hits.map SearchHit.id = ["t.rs:1-3".toList] ∧
    ∀ hit ∈ hits, ∃ file ∈ traitView.walked, HitOf traitParser file hit := by
  have hv : ValidTree traitView.walked := by
    refine ⟨by decide +kernel, fun f hf => ?_⟩
    rw [List.mem_singleton.1 hf]
    decide +kernel
  have hwalk : ∀ f ∈ traitView.walked, Walkable f.content := by
    intro f hf
    rw [List.mem_singleton.1 hf]
    exact ⟨by decide +kernel, by decide +kernel⟩
  have hhistory : History (Deps.trait.parsing traitParser) oneFileEmbedder "/old".toList traitBefore :=
    .run oneFileView true (.fresh .empty) rfl (validTree_plain _ _ (by decide) (by decide))
      (crash_replay _ (fun _ _ _ _ _ => trivial) _ _)
  have hrun : Finishes engine anyOutcome (reindexWith (Deps.trait.parsing traitParser) traitView false
      oneFileEmbedder) traitBefore (.ok ⟨1, 2, 0, true⟩) traitIndexed :=
    finishes_replay (fun o (_ : o ∈ succeed 40) _ _ _ => trivial) (by decide +kernel)
  have hopen : Finishes engine anyOutcome (openIndex plainMachine.embedder) traitIndexed (.ok ())
      traitIndex.toDb := by
    have hdb : traitIndex.toDb =
        (replay engine (succeed 60) (openIndex plainMachine.embedder) traitIndexed .idle).2.1 := by
      decide +kernel
    rw [hdb]
    exact finishes_replay (fun o (_ : o ∈ succeed 60) _ _ _ => trivial) (by decide +kernel)
  have hfound : (searchCode plainMachine traitIndex
      ⟨"x".toList, none, none, none, none, none, none, none⟩).toOption.map
        (fun hits => hits.map SearchHit.id) = some ["t.rs:1-3".toList] := by decide +kernel
  cases hsearch : searchCode plainMachine traitIndex
      ⟨"x".toList, none, none, none, none, none, none, none⟩ with
  | error e =>
    rw [hsearch] at hfound
    cases hfound
  | ok hits =>
    rw [hsearch] at hfound
    refine ⟨hits, rfl, Option.some.inj hfound, ?_⟩
    exact hits_of_tree Deps.trait traitParser plainMachine.embedder "/old".toList traitBefore hhistory
      traitView rfl hv hwalk false (fun _ => noCollision_trait) anyOutcome ⟨1, 2, 0, true⟩
      traitIndexed hrun hits
      (.search plainMachine rfl _ traitIndex hopen hsearch)

end CodeSearch
