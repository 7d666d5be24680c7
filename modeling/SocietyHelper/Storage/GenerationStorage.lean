import SocietyHelper.Library.Folder
import SocietyHelper.Library.Sha256

/-! # Moving the previous model cache

The cache is moved entry by entry, and a file whose place is taken is given up
only for a file of the same digest. A run may be cancelled between two entries,
and every call to the file system may fail; what it leaves is taken up by the
next run.
-/

namespace SocietyHelper.Storage

open Library

/-- Reads of the flag and calls to the file system, numbered in the order in which they are made. -/
structure Environment where
  cancelled : Nat → Bool
  fails : Nat → Bool

namespace Environment

/-- Nothing fails and nobody cancels. -/
def calm : Environment := ⟨fun _ => false, fun _ => false⟩

end Environment

section

variable (e : Environment)

def blockSize : Nat := 1024 * 1024

/-- The reads that are left until the end of a file. -/
def digestFrom (bytes : Bytes) : Nat → Nat → Text × Nat
  | 0, n => (sha256 bytes, n)
  | blocks + 1, n =>
    if e.cancelled n || e.fails (n + 1) then ([], n + 2) else digestFrom bytes blocks (n + 2)

/-- Only a file can be opened for reading. An empty digest is a failure. -/
def digest (place : Place) (n : Nat) : Text × Nat :=
  match place with
  | .file bytes =>
    if e.fails n then ([], n + 1)
    else digestFrom e bytes ((bytes.length + (blockSize - 1)) / blockSize) (n + 1)
  | _ => ([], n + 1)

/-- One file of the listing: the clock afterwards, and the destination if the file has left the source.
Renaming never overwrites, and a rename that fails leaves both sides as they were. -/
def moveFile (name : Text) (bytes : Bytes) (into : Place) (n : Nat) : Nat × Option Place :=
  if e.cancelled n then (n + 1, none)
  else match into.child name with
    | none => (n + 2, if e.fails (n + 1) then none else into.put name (.file bytes))
    | some target =>
      let original := digest e (.file bytes) (n + 1)
      let found := digest e target original.2
      if original.1 = [] || !target.regular || original.1 ≠ found.1 || e.cancelled found.2 || e.fails (found.2 + 1)
      then (found.2 + 2, none)
      else (found.2 + 2, some into)

/-- The directory that a directory of the listing is moved into: the destination and what stands there. -/
def openTarget (name : Text) (into : Place) (n : Nat) : Option (Place × Folder) :=
  if e.cancelled n then none
  else match into.child name with
    | none =>
      if e.fails (n + 1) then none
      else (into.put name (.directory .nil)).map fun made => (made, .nil)
    | some (.directory entries) => if entries.regular then some (into, entries) else none
    | some _ => none

/-- What a loop over a listing leaves. -/
structure Moved where
  left : Folder
  into : Place
  clock : Nat
  done : Bool

/-- A listing that fails shows no entries, which leaves a loop nothing to do. -/
def listed (from_ : Folder) (into : Place) (n : Nat) (loop : Moved) : Moved :=
  if e.fails n then ⟨from_, into, n + 1, true⟩ else loop

/-- Only an empty directory can be removed. -/
def emptied (m : Moved) : Bool := m.done && m.left = .nil && !e.fails m.clock

/-- The loop of `move` over the entries of a directory. -/
def moveEntries : Folder → Place → Nat → Moved
  | .nil, into, n => ⟨.nil, into, n, true⟩
  | .file name bytes rest, into, n =>
    match moveFile e name bytes into n with
    | (n, none) => ⟨.file name bytes rest, into, n, false⟩
    | (n, some into) => moveEntries rest into n
  | .directory name inner rest, into, n =>
    match openTarget e name into n with
    | none => ⟨.directory name inner rest, into, n + 2, false⟩
    | some (into, target) =>
      let m := listed e inner (.directory target) (n + 2) (moveEntries inner (.directory target) (n + 3))
      -- The directory keeps what its own move has left of it.
      let into := (into.put name m.into).getD into
      if emptied e m then moveEntries rest into (m.clock + 1)
      else ⟨.directory name m.left rest, into, m.clock + 1, false⟩
  | .link name rest, into, n => ⟨.link name rest, into, n, false⟩ -- kept out by `regularTree`

/-- Whether the directory is gone at the end. -/
def move (from_ : Folder) (into : Place) (n : Nat) : Moved × Bool :=
  let m := listed e from_ into n (moveEntries e from_ into (n + 1))
  (m, emptied e m)

end

/-- A path, what stands there, and whether the path is its own canonical form. -/
structure Location where
  path : Text
  stored : Option Place
  canonical : Bool

namespace Location

/-- Nothing stands at the empty path. -/
def place (l : Location) : Option Place := if l.path = [] then none else l.stored

def fileAt (l : Location) (path : List Text) : Option Bytes := l.place.bind fun p => p.fileAt path

def contents (l : Location) : List Bytes :=
  match l.place with
  | some p => p.contents
  | none => []

def regularTree (l : Location) : Bool :=
  l.canonical && match l.place with
    | some p => p.regular
    | none => false

end Location

def nested (source destination : Text) : Bool :=
  source = destination || (source ++ ['/']).isPrefixOf destination || (destination ++ ['/']).isPrefixOf source

structure Migration where
  source : Location
  destination : Location
  error : Option Text

def redirectedError : Text := text "The previous model cache was redirected and has been preserved."
def cancelledError : Text := text "Model cache migration was cancelled."
def preservedError : Text :=
  text "Cannot move the previous model cache to Society. Existing files were preserved."

/-- `true` is the answer without an error. -/
def migrateLegacyCache (e : Environment) (source destination : Location) : Migration :=
  match source.place, destination.place with
  | none, _ => ⟨source, destination, none⟩
  | some from_, some into =>
    if !source.regularTree || !destination.regularTree || nested source.path destination.path then
      ⟨source, destination, some redirectedError⟩
    else match from_ with
      | .directory entries =>
        let m := move e entries into 0
        ⟨{ source with stored := if m.2 then none else some (.directory m.1.left) },
          { destination with stored := some m.1.into },
          if m.2 then none else some (if e.cancelled (m.1.clock + 1) then cancelledError else preservedError)⟩
      -- A file has no entries and is not removed as a directory.
      | _ => ⟨source, destination, some (if e.cancelled 1 then cancelledError else preservedError)⟩
  | some _, none => ⟨source, destination, some redirectedError⟩

end SocietyHelper.Storage
