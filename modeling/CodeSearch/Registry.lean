import Mathlib.Data.Char
import Mathlib.Data.List.Infix
import Mathlib.Data.List.Lex
import Mathlib.Logic.Function.Basic
import CodeSearch.Lib.SortedMap
import CodeSearch.Text

/-!
# The sidecar registry

A JSON file maps canonical repository roots to index databases.  `register` loads it,
inserts an entry and saves: it writes a temporary file piece by piece and renames it
over the registry.  Between any two of these steps other callers may take theirs, and
every step may fail, so a call is a machine (`Stage.next`) over a file system whose
names and contents are apart: who opened a file keeps its content when the name goes to
another one.

How JSON is written and read, and how paths are rendered, are parameters.
-/

namespace CodeSearch

open Sorted

/-! ## Files -/

/-- An absolute path: the names on the way down. -/
abbrev Path := List Text

inductive FsNode where
  | dir
  | file (inode : Nat)
deriving DecidableEq

/-- What the names stand for, and the contents; inodes from `unused` on are free. -/
structure Fs where
  node : Path → Option FsNode
  data : Nat → List UInt8
  unused : Nat

namespace Fs

/-- Create the directories of a list of paths that do not exist and can be created. -/
def makeDirs (fs : Fs) : List Path → Fs × List Path
  | [] => (fs, [])
  | q :: qs =>
    if fs.node q = none ∧ fs.node q.dropLast = some .dir then
      let made := makeDirs { fs with node := Function.update fs.node q (some .dir) } qs
      (made.1, q :: made.2)
    else makeDirs fs qs

/-- `create_dir_all`, which gets through `n` of the path's ancestors and itself. -/
def createDirAll (fs : Fs) (path : Path) (n : Nat) : Fs × List Path :=
  fs.makeDirs (path.inits.take n)

/-- `O_CREAT | O_TRUNC` of a file that exists. -/
def truncate (fs : Fs) (inode : Nat) : Fs :=
  { fs with data := Function.update fs.data inode [] }

/-- `O_CREAT | O_TRUNC` of a file that does not. -/
def create (fs : Fs) (path : Path) : Fs :=
  { node := Function.update fs.node path (some (.file fs.unused))
    data := Function.update fs.data fs.unused []
    unused := fs.unused + 1 }

def append (fs : Fs) (inode : Nat) (bytes : List UInt8) : Fs :=
  { fs with data := Function.update fs.data inode (fs.data inode ++ bytes) }

def remove (fs : Fs) (path : Path) : Fs := { fs with node := Function.update fs.node path none }

/-- `rename` of a file over another name. -/
def rename (fs : Fs) (src dst : Path) (inode : Nat) : Fs :=
  { fs with
    node := Function.update (Function.update fs.node src none) dst (some (.file inode)) }

end Fs

/-! ## The registry -/

/-- `to_string_lossy` and `PathBuf::from`. -/
structure PathApi (P : Type) where
  toStringLossy : P → Text
  ofText : Text → P
  lossy_ofText : ∀ t, toStringLossy (ofText t) = t

/-- `serde_json` on a map of strings. -/
structure Json where
  toStringPretty : SortedMap Text Text → Text
  fromStr : Text → Option (SortedMap Text Text)

/-- What is written is read back; it starts with a brace. -/
structure Json.RoundTrips (J : Json) : Prop where
  parse : ∀ m, J.fromStr (J.toStringPretty m) = some m
  brace : ∀ m, ∃ rest, J.toStringPretty m = '{' :: rest

/-- The bytes of a string. -/
def asBytes (s : Text) : List UInt8 := s.flatMap String.utf8EncodeChar

/-- The string of the bytes, if they are UTF-8. -/
def fromUtf8 (bytes : List UInt8) : Option Text :=
  (ByteArray.mk bytes.toArray).utf8Decode?.map Array.toList

def appConfigDir : Text := "apohara-codesearch".toList
def registryFile : Text := "registry.json".toList

/-- `.registry.<pid>.<nonce>.tmp`. -/
def tmpName (pid nonce : Nat) : Text :=
  ".registry.".toList ++ decimal pid ++ '.' :: decimal nonce ++ ".tmp".toList

section
variable {P : Type} (J : Json) (A : PathApi P)

/-- The `path -> index.db` map. -/
abbrev Registry (P : Type) := SortedMap Text P

/-- The key of a root, given what canonicalizing it returns. -/
def canonicalKey (root : P) (canonical : Option P) : Text := A.toStringLossy (canonical.getD root)

def toJson (registry : Registry P) : Text := J.toStringPretty (registry.mapValues A.toStringLossy)

/-- Blank text is a fresh install. -/
def fromJson (s : Text) : Option (Registry P) :=
  if isBlank s then some .empty else (J.fromStr s).map fun map => map.mapValues A.ofText

/-- `read_to_string` and `from_json`. -/
def parseRegistry (bytes : List UInt8) : Option (Registry P) := (fromUtf8 bytes).bind (fromJson J A)

/-! ## A call -/

/-- A call of `load` or of `register`. -/
inductive Request (P : Type) where
  | load
  | register (root indexDb : P)

/-- Where a call stands. -/
inductive Stage (P : Type) where
  /-- `registry_path`: about to create the config directory. -/
  | configDir
  | opening
  /-- The bytes read so far. -/
  | reading (inode : Nat) (acc : List UInt8)
  /-- The entries still to be looked at. -/
  | pruning (registry : Registry P) (todo : List (Text × P))
  | inserting (registry : Registry P)
  /-- `save`: about to create the parent directory. -/
  | parentDir (registry : Registry P)
  | drawing (registry : Registry P)
  | creating (registry : Registry P) (tmp : Path)
  /-- The bytes still to be written. -/
  | writing (registry : Registry P) (tmp : Path) (inode : Nat) (rest : List UInt8)
  | replacing (registry : Registry P) (tmp : Path)
  | cleaning (tmp : Path)
  /-- The call returned; a failed one returned no registry. -/
  | returned (registry : Option (Registry P))

/-- What the world decides about a step. -/
inductive Choice (P : Type) where
  | go
  | fail
  /-- `create_dir_all` gets this far. -/
  | dirs (n : Nat)
  /-- At most `n + 1` bytes are read or written. -/
  | chunk (n : Nat)
  /-- What `canonicalize` returns. -/
  | canonical (path : Option P)
  | draw (pid nonce : Nat)

/-- What a step does that others can see, or the history remembers. -/
inductive Event (P : Type) where
  | quiet
  /-- There is no registry file. -/
  | absent
  | opened
  /-- The whole file was read, with this result. -/
  | parsed (registry : Option (Registry P))
  | inserted (key : Text) (indexDb : P)
  | created (dirs : List Path)
  | drew (pid nonce : Nat)
  | wrote (path : Path)
  | saved (registry : Registry P) (tmp : Path)
  | removed (path : Path)

variable (dir : Path)

def registryPath : Path := dir ++ [registryFile]

def tmpPath (pid nonce : Nat) : Path := dir ++ [tmpName pid nonce]

/-- After the loading: `load` returns, `register` inserts. -/
def afterLoad (request : Request P) (registry : Registry P) : Stage P :=
  match request with
  | .load => .returned (some registry)
  | .register _ _ => .inserting registry

/-- One step of a call in the directory `dir`; `present` tells which index databases exist. -/
def Stage.next (request : Request P) (fs : Fs) (present : P → Bool) :
    Stage P → Choice P → Option (Fs × Stage P × Event P)
  | .configDir, .dirs n =>
    let made := fs.createDirAll dir n
    some (made.1, if made.1.node dir = some .dir then .opening else .returned none, .created made.2)
  | .opening, .go =>
    match fs.node (registryPath dir) with
    | none => some (fs, afterLoad request .empty, .absent)
    | some (.file inode) => some (fs, .reading inode [], .opened)
    | some .dir => some (fs, .returned none, .quiet)
  | .opening, .fail => some (fs, .returned none, .quiet)
  | .reading inode acc, .chunk n =>
    match ((fs.data inode).drop acc.length).take (n + 1) with
    | [] =>
      match parseRegistry J A acc with
      | some registry => some (fs, .pruning registry registry.list, .parsed (some registry))
      | none => some (fs, .returned none, .parsed none)
    | piece => some (fs, .reading inode (acc ++ piece), .quiet)
  | .reading _ _, .fail => some (fs, .returned none, .quiet)
  | .pruning registry [], .go => some (fs, afterLoad request registry, .quiet)
  | .pruning registry (entry :: todo), .go =>
    some (fs, .pruning (if present entry.2 then registry else registry.erase entry.1) todo, .quiet)
  | .inserting registry, .canonical path =>
    match request with
    | .register root indexDb =>
      let key := canonicalKey A root path
      some (fs, .parentDir (registry.insert key indexDb), .inserted key indexDb)
    | .load => none
  | .parentDir registry, .dirs n =>
    let made := fs.createDirAll dir n
    some (made.1, if made.1.node dir = some .dir then .drawing registry else .returned none,
      .created made.2)
  | .drawing registry, .draw pid nonce =>
    some (fs, .creating registry (tmpPath dir pid nonce), .drew pid nonce)
  | .creating registry tmp, .go =>
    let bytes := asBytes (toJson J A registry)
    match fs.node tmp with
    | some (.file inode) => some (fs.truncate inode, .writing registry tmp inode bytes, .wrote tmp)
    | some .dir => some (fs, .returned none, .quiet)
    | none =>
      if fs.node dir = some .dir then
        some (fs.create tmp, .writing registry tmp fs.unused bytes, .wrote tmp)
      else some (fs, .returned none, .quiet)
  | .creating _ _, .fail => some (fs, .returned none, .quiet)
  | .writing registry tmp _ [], .go => some (fs, .replacing registry tmp, .quiet)
  | .writing registry tmp inode (b :: rest), .chunk n =>
    some (fs.append inode (b :: rest.take n), .writing registry tmp inode (rest.drop n), .wrote tmp)
  | .writing _ _ _ _, .fail => some (fs, .returned none, .quiet)
  | .replacing registry tmp, .go =>
    match fs.node tmp, fs.node (registryPath dir) with
    | some (.file _), some .dir => some (fs, .cleaning tmp, .quiet)
    | some (.file inode), _ =>
      some (fs.rename tmp (registryPath dir) inode, .returned (some registry), .saved registry tmp)
    | _, _ => some (fs, .cleaning tmp, .quiet)
  | .replacing _ tmp, .fail => some (fs, .cleaning tmp, .quiet)
  | .cleaning tmp, .go =>
    match fs.node tmp with
    | some (.file _) => some (fs.remove tmp, .returned none, .removed tmp)
    | _ => some (fs, .returned none, .quiet)
  | .cleaning _, .fail => some (fs, .returned none, .quiet)
  | _, _ => none

end

end CodeSearch
