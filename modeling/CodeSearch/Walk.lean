import Mathlib.Data.List.TakeWhile
import Mathlib.Data.Option.Basic
import CodeSearch.Lib.Utf8
import CodeSearch.Lexical
import CodeSearch.Watch

/-!
# The walk of a tree whose names are bytes

A file name is any bytes but `/` and NUL.  `walkRepo` takes what the ignore-aware walker
visits and keeps the files worth indexing; each is keyed by its `relPath`, the names of its
path decoded one by one, joined by `/`.

The decoding loses what is not UTF-8, so two files can have one key.  Nothing else does: a
key names the decoded names it was made of (`normalizeRelPath_eq_iff`), and tells the
language that was detected from the bytes (`walkEntry_language`).
-/

namespace CodeSearch

open Utf8

/-! ## Names and entries -/

/-- A name in a directory. -/
structure Name where
  bytes : List UInt8
  nonempty : bytes ≠ []
  /-- `/` separates names. -/
  slash : 0x2F ∉ bytes
  /-- NUL ends a path. -/
  nul : 0 ∉ bytes
  /-- `.` and `..` name the directory itself and its parent. -/
  dots : bytes ≠ [0x2E] ∧ bytes ≠ [0x2E, 0x2E]
deriving DecidableEq

/-- `to_string_lossy`. -/
def Name.lossy (name : Name) : Text := toStringLossy name.bytes

/-- `ignore::DirEntry`: the path below the root, and what the file system answers. -/
structure DirEntry where
  path : List Name
  isFile : Bool
  /-- `metadata().len()` -/
  len : Option Nat
  /-- `fs::read` -/
  content : Option (List UInt8)
  /-- The root is a directory. -/
  root : path = [] → isFile = false
deriving DecidableEq

/-- What a walk yields, an error in some places; it comes to no path twice. -/
structure Walk where
  visits : List (Option DirEntry)
  distinct : (visits.reduceOption.map (·.path)).Nodup

/-! ## The walker -/

/-- `normalize_rel_path`, of a path below the root. -/
def normalizeRelPath (path : List Name) : Text := joinWith ['/'] (path.map Name.lossy)

/-- What follows the last dot, unless the dot comes first. -/
def afterLastDot {α : Type} [DecidableEq α] (dot : α) (name : List α) : Option (List α) :=
  match name.reverse.span (· ≠ dot) with
  | (ext, _ :: _ :: _) => some ext.reverse
  | _ => none

/-- `path.extension()` of the last name. -/
def pathExtension (path : List Name) : Option (List UInt8) :=
  path.getLast?.bind fun name => afterLastDot 0x2E name.bytes

/-- The table of `detect_language`. -/
def languageOfExtension : Option Text → Option Language
  | none => none
  | some ext =>
    if ["ts".toList, "tsx".toList, "mts".toList, "cts".toList].contains ext then some .typeScript
    else if ext = "rs".toList then some .rust
    else if ext = "py".toList then some .python
    else if ext = "go".toList then some .go
    else if ["bash".toList, "sh".toList].contains ext then some .bash
    else if ext = "java".toList then some .java
    else if ["c".toList, "h".toList].contains ext then some .c
    else if ext = "rb".toList then some .ruby
    else if ["cpp".toList, "cc".toList, "cxx".toList, "hpp".toList, "hxx".toList,
      "hh".toList].contains ext then some .cpp
    else none

/-- `detect_language` of a path of bytes. -/
def detectLanguageOf (path : List Name) : Option Language :=
  languageOfExtension ((pathExtension path).bind toStr?)

/-- One turn of the loop of `walk_repo`. -/
def walkEntry (entry : DirEntry) : Option WalkedFile := do
  guard entry.isFile
  let relPath := normalizeRelPath entry.path
  guard !isIndexPath relPath
  let len ← entry.len
  guard (len ≤ maxFileBytes)
  let bytes ← entry.content
  let content ← toStr? bytes
  guard !((lines content).any fun line => decide (maxLineBytes < byteLen line))
  pure { relPath, language := detectLanguageOf entry.path, content }

def Walk.entries (walk : Walk) : List DirEntry := walk.visits.reduceOption

/-- `walk_repo`. -/
def walkRepo (walk : Walk) : List WalkedFile := walk.entries.filterMap walkEntry

theorem walkEntry_eq_some {entry : DirEntry} {f : WalkedFile} (h : walkEntry entry = some f) :
    entry.isFile = true ∧ f.relPath = normalizeRelPath entry.path ∧
      f.language = detectLanguageOf entry.path := by
  unfold walkEntry at h
  simp only [Option.bind_eq_bind, Option.bind_eq_some_iff, Option.guard_eq_some', Option.pure_def,
    Option.some.injEq] at h
  obtain ⟨-, hfile, -, -, len, -, -, -, bytes, -, content, -, -, -, rfl⟩ := h
  exact ⟨hfile, rfl, rfl⟩

/-! ## Keys -/

theorem Name.lossy_piece (name : Name) : name.lossy ≠ [] ∧ '/' ∉ name.lossy :=
  ⟨fun h => name.nonempty (toStringLossy_eq_nil h),
    fun h => name.slash (mem_toStringLossy (x := 0x2F) (by decide) h)⟩

theorem lossy_pieces (path : List Name) : ∀ s ∈ path.map Name.lossy, s ≠ [] ∧ '/' ∉ s := by
  intro s hs
  obtain ⟨name, -, rfl⟩ := List.mem_map.1 hs
  exact name.lossy_piece

/-- A key is its decoded names. -/
theorem normalizeRelPath_eq_iff {p q : List Name} :
    normalizeRelPath p = normalizeRelPath q ↔ p.map Name.lossy = q.map Name.lossy :=
  ⟨joinWith_injective (lossy_pieces p) (lossy_pieces q), congrArg _⟩

/-- A name that is UTF-8 is its decoding. -/
theorem Name.lossy_injective {n m : Name} (hn : (toStr? n.bytes).isSome)
    (hm : (toStr? m.bytes).isSome) (h : n.lossy = m.lossy) : n = m := by
  obtain ⟨s, hs⟩ := Option.isSome_iff_exists.1 hn
  obtain ⟨t, ht⟩ := Option.isSome_iff_exists.1 hm
  have hst : s = t := by
    rw [← toStringLossy_of_toStr hs, ← toStringLossy_of_toStr ht]
    exact h
  subst hst
  have hbytes := toStr_injective hs ht
  cases n
  cases m
  simp only [Name.mk.injEq]
  exact hbytes

/-! ## Languages -/

theorem detectLanguage_eq (path : Text) : detectLanguage path = languageOfExtension (extension path) :=
  rfl

theorem extension_eq (path : Text) : extension path = afterLastDot '.' (fileName path) := by
  unfold extension afterLastDot
  generalize (fileName path).reverse.span (· ≠ '.') = parts
  obtain ⟨ext, _ | ⟨c, _ | ⟨d, rest⟩⟩⟩ := parts <;> rfl

section
variable {α : Type} [DecidableEq α] {dot : α}

theorem afterLastDot_none {name : List α} (h : dot ∉ name) : afterLastDot dot name = none := by
  unfold afterLastDot
  rw [List.span_eq_takeWhile_dropWhile]
  have hdrop : name.reverse.dropWhile (· ≠ dot) = [] := by
    rw [List.dropWhile_eq_nil_iff]
    intro c hc
    refine decide_eq_true ?_
    rintro rfl
    exact h (List.mem_reverse.1 hc)
  rw [hdrop]

theorem afterLastDot_append (a : List α) {b : List α} (h : dot ∉ b) :
    afterLastDot dot (a ++ dot :: b) = if a = [] then none else some b := by
  have hplain : ∀ c ∈ b.reverse, decide (c ≠ dot) = true := by
    intro c hc
    refine decide_eq_true ?_
    rintro rfl
    exact h (List.mem_reverse.1 hc)
  have hrev : (a ++ dot :: b).reverse = b.reverse ++ dot :: a.reverse := by
    rw [List.reverse_append, List.reverse_cons, List.append_assoc]
    rfl
  unfold afterLastDot
  rw [hrev, List.span_eq_takeWhile_dropWhile, List.takeWhile_append_of_pos hplain,
    List.dropWhile_append_of_pos hplain, List.takeWhile_cons_of_neg (by simp),
    List.dropWhile_cons_of_neg (by simp), List.append_nil]
  cases ha : a.reverse with
  | nil =>
    rw [List.reverse_eq_nil_iff] at ha
    rw [if_pos ha]
  | cons c a' =>
    have hne : a ≠ [] := by
      rintro rfl
      cases ha
    rw [if_neg hne]
    show some b.reverse.reverse = some b
    rw [List.reverse_reverse]

/-- A list holds no dot, or has a last one. -/
theorem lastDot (dot : α) (name : List α) :
    dot ∉ name ∨ ∃ a b, name = a ++ dot :: b ∧ dot ∉ b := by
  induction name with
  | nil => exact .inl List.not_mem_nil
  | cons c name ih =>
    rcases ih with h | ⟨a, b, rfl, hb⟩
    · by_cases hc : dot = c
      · subst hc
        exact .inr ⟨[], name, rfl, h⟩
      · exact .inl fun hmem => (List.mem_cons.1 hmem).elim hc h
    · exact .inr ⟨c :: a, b, rfl, hb⟩

end

/-- Slashes before the last name do not matter. -/
theorem fileName_append_slash (a t : Text) : fileName (a ++ '/' :: t) = fileName t := by
  have hrev : (a ++ '/' :: t).reverse = t.reverse ++ '/' :: a.reverse := by
    rw [List.reverse_append, List.reverse_cons, List.append_assoc]
    rfl
  unfold fileName
  rw [hrev, List.takeWhile_append, List.takeWhile_cons_of_neg (by simp), List.append_nil]
  split
  · next h => rw [(List.takeWhile_prefix _).eq_of_length h]
  · rfl

theorem fileName_joinWith (ps : List Text) {last : Text} (h : '/' ∉ last) :
    fileName (joinWith ['/'] (ps ++ [last])) = last := by
  induction ps with
  | nil =>
    have hrev : (last.reverse ++ []).takeWhile (· ≠ '/') = last.reverse :=
      takeWhile_ne_append (fun hmem => h (List.mem_reverse.1 hmem)) (.inl rfl)
    rw [List.append_nil] at hrev
    show fileName last = last
    unfold fileName
    rw [hrev, List.reverse_reverse]
  | cons p ps ih =>
    rw [List.cons_append, joinWith_cons _ _ (by simp), List.append_assoc]
    exact (fileName_append_slash _ _).trans ih

/-- An extension that was not UTF-8 is in no table. -/
theorem languageOfExtension_toStr (ext : List UInt8) :
    languageOfExtension (toStr? ext) = languageOfExtension (some (toStringLossy ext)) := by
  cases h : toStr? ext with
  | some t => rw [toStringLossy_of_toStr h]
  | none =>
    have hmem := replacement_mem h
    have absent : ∀ s : Text, Char.ofNat 0xFFFD ∉ s → toStringLossy ext ≠ s := by
      rintro s hs rfl
      exact hs hmem
    simp only [languageOfExtension, List.contains_eq_mem, List.mem_cons, List.not_mem_nil, or_false,
      decide_eq_true_eq]
    simp [absent]

theorem afterLastDot_lossy (name : Name) :
    (afterLastDot 0x2E name.bytes).map toStringLossy = afterLastDot '.' name.lossy := by
  unfold Name.lossy
  rcases lastDot (0x2E : UInt8) name.bytes with h | ⟨a, b, heq, hb⟩
  · rw [afterLastDot_none h, afterLastDot_none]
    · rfl
    · exact fun hmem => h (mem_toStringLossy (x := 0x2E) (by decide) hmem)
  · have hdot : toStringLossy (a ++ 0x2E :: b) = toStringLossy a ++ '.' :: toStringLossy b :=
      toStringLossy_append a b (x := 0x2E) (by decide)
    have hb' : '.' ∉ toStringLossy b := fun hmem => hb (mem_toStringLossy (x := 0x2E) (by decide) hmem)
    rw [heq, hdot, afterLastDot_append a hb, afterLastDot_append _ hb']
    by_cases ha : a = []
    · subst ha
      rfl
    · rw [if_neg ha, if_neg fun h => ha (toStringLossy_eq_nil h)]
      rfl

/-- The key tells the language. -/
theorem detectLanguageOf_eq (path : List Name) :
    detectLanguageOf path = detectLanguage (normalizeRelPath path) := by
  unfold detectLanguageOf pathExtension normalizeRelPath
  rw [detectLanguage_eq, extension_eq]
  rcases List.eq_nil_or_concat path with rfl | ⟨init, name, rfl⟩
  · rfl
  · rw [List.concat_eq_append, List.getLast?_concat, List.map_append, List.map_singleton,
      fileName_joinWith _ name.lossy_piece.2, ← afterLastDot_lossy, Option.bind_some]
    cases afterLastDot 0x2E name.bytes with
    | none => rfl
    | some ext => exact languageOfExtension_toStr ext

theorem walkEntry_language {entry : DirEntry} {f : WalkedFile} (h : walkEntry entry = some f) :
    f.language = detectLanguage f.relPath := by
  obtain ⟨-, hrel, hlang⟩ := walkEntry_eq_some h
  rw [hlang, hrel, detectLanguageOf_eq]

end CodeSearch
