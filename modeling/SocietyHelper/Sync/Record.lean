import SocietyHelper.Library.Sha256
import SocietyHelper.Library.Json

/-! # Replica records

One record describes one logical path: its kind, size, content hash, vector
clock and version, and, depending on where it stands, the members that tie it to
the host's journal or to the revision an offline edit started from.
-/

namespace SocietyHelper.Sync

open Library

def maxCounter : Nat := 9007199254740991

def digest (bytes : Bytes) : Text := sha256 bytes

def number (v : Value) : Option Nat :=
  match toLongLong v.text with
  | some n => if 0 ≤ n ∧ n ≤ maxCounter then some n.toNat else none
  | none => none

/-! ## Vector clocks -/

/-- The members of a clock object in key order: replica ids with decimal counters. -/
abbrev Clock := List (Text × Value)

namespace Clock

def value : Clock → Text → Value
  | [], _ => .undefined
  | (j, v) :: c, k => if j = k then v else value c k

def insert : Clock → Text → Value → Clock
  | [], k, v => [(k, v)]
  | (j, w) :: c, k, v =>
    if j = k then (k, v) :: c
    else if Json.keyLe k j then (k, v) :: (j, w) :: c
    else (j, w) :: insert c k v

def counter (c : Clock) (k : Text) : Int := (toLongLong (c.value k).text).getD 0

def keys (c : Clock) : List Text := c.map Prod.fst

end Clock

/-- 1: incoming dominates; -1: local dominates; 0: equal; 2: concurrent. -/
def compare (incoming local_ : Clock) : Int :=
  let keys := incoming.keys ++ local_.keys
  let greater := keys.any fun k => local_.counter k < incoming.counter k
  let less := keys.any fun k => incoming.counter k < local_.counter k
  if greater && less then 2 else if greater then 1 else if less then -1 else 0

def joined (a b : Clock) : Clock :=
  b.foldl (fun c m => if c.counter m.1 < (toLongLong m.2.text).getD 0 then c.insert m.1 m.2 else c) a

/-! ## Entries -/

/-- A record as a JSON object: `space` is its member `namespace`, `extra` the
members that no function here names. -/
structure Entry where
  path : Value := .undefined
  kind : Value := .undefined
  size : Value := .undefined
  hash : Value := .undefined
  clock : Option Clock := none
  version : Value := .undefined
  space : Value := .undefined
  authority : Value := .undefined
  revision : Value := .undefined
  sequence : Value := .undefined
  baseRevision : Value := .undefined
  extra : List (Text × Value) := []
  deriving DecidableEq

def file : Text := text "file"
def directory : Text := text "directory"
def deleted : Text := text "deleted"

namespace Entry

def isEmpty (e : Entry) : Bool := e = {}

/-- The clock as an object, empty where the member is missing. -/
def clockObject (e : Entry) : Clock := e.clock.getD []

def isKind (e : Entry) (kind : Text) : Bool := e.kind = .string kind

def clockField (c : Option Clock) : List (Text × Text) :=
  match c with
  | none => []
  | some c => [(text "clock", Json.object (c.flatMap fun m => Json.field m.1 m.2))]

def members (e : Entry) : List (Text × Text) :=
  Json.field (text "authority") e.authority ++ Json.field (text "baseRevision") e.baseRevision ++
  clockField e.clock ++ Json.field (text "hash") e.hash ++ Json.field (text "kind") e.kind ++
  Json.field (text "namespace") e.space ++ Json.field (text "path") e.path ++
  Json.field (text "revision") e.revision ++ Json.field (text "sequence") e.sequence ++
  Json.field (text "size") e.size ++ Json.field (text "version") e.version ++
  e.extra.flatMap fun m => Json.field m.1 m.2

def json (e : Entry) : Text := Json.object e.members

end Entry

def payload (e : Entry) : Entry :=
  { path := e.path, kind := e.kind, size := e.size, hash := e.hash, clock := e.clock }

def versioned (e : Entry) : Entry :=
  { payload e with version := .string (digest (utf8 (payload e).json)) }

def contentEqual (a b : Entry) : Bool := a.kind = b.kind && a.hash = b.hash && a.size = b.size

def rank (e : Entry) : Nat := if e.isKind directory then 2 else if e.isKind file then 1 else 0

/-! ## Paths -/

/-- A store section of the container: its logical key and the name of its directory. -/
structure StoreSection where
  key : Text
  name : Text

/-- What the libraries of the container decide: its sections, which names are control files
of the file provider, and which documents are presentations that it wrote for a file. -/
class StoreLayout where
  sections : List StoreSection
  controlFile : Text → Bool
  ownedPresentation : Bytes → Bool

/-- A container with three sections and no control files of its own. -/
@[reducible] def plainLayout : StoreLayout where
  sections := [⟨text "files", text "Files"⟩, ⟨text "models", text "Models"⟩, ⟨text "photos", text "Photos"⟩]
  controlFile := fun _ => false
  ownedPresentation := fun _ => false

/-- A path below the container root, one component after the other. -/
abbrev NativePath := List Text

def controlPrefix (part : Text) : Bool :=
  (text ".society-").isPrefixOf part || (text ".iiwebserver-").isPrefixOf part

def supportedComponent (part : Text) : Bool :=
  part ≠ [] && part ≠ text "." && part ≠ text ".." && utf8Size part ≤ 220 &&
    !controlPrefix part && part ≠ text ".iisacc-temporary.lock"

/-- The path of a logical key below the root, empty where the key is refused. -/
def physical [layout : StoreLayout] (key : Text) : NativePath :=
  match key.splitOn '/' with
  | [] => []
  | section_ :: tail =>
    if tail.isEmpty || tail = [[]] || 3500 < utf16Size key || key.contains '\\' || key.contains ':' ||
        key.contains '\x00' || !(section_ :: tail).all supportedComponent then []
    else match layout.sections.find? fun s => s.key = section_ with
      | some s => s.name :: tail
      | none => []

/-- A key up to its last slash, and what follows it. -/
def parentPart (key : Text) : Text := (key.reverse.dropWhile (· ≠ '/')).reverse
def namePart (key : Text) : Text := (key.reverse.takeWhile (· ≠ '/')).reverse

def conflictPath (loser : Entry) : Text :=
  let path := loser.path.text
  let name := namePart path
  parentPart path ++ (if utf8Size name ≤ 160 then name else file) ++
    text ".sync-conflict-" ++ loser.version.text.take 32

/-! ## Validity -/

def uuidCharacter (c : Char) (i : Nat) : Bool :=
  if i = 8 || i = 13 || i = 18 || i = 23 then c = '-'
  else c.isDigit || ('a' ≤ c && c ≤ 'f') || ('A' ≤ c && c ≤ 'F')

/-- A non-null UUID, with or without braces. -/
def uuid (t : Text) : Bool :=
  let bare := if t.head? = some '{' && t.getLast? = some '}' then (t.drop 1).dropLast else t
  bare.length = 36 && (bare.zipIdx.all fun p => uuidCharacter p.1 p.2) &&
    bare.any fun c => c ≠ '0' && c ≠ '-'

def validClock (c : Clock) : Bool :=
  !c.isEmpty && c.length ≤ 64 && c.all fun m => uuid m.1 && match number m.2 with
    | some n => n ≠ 0
    | none => false

def validBase (v : Value) : Bool :=
  !v.defined || (v.isString && (v.text = [] || hex v.text))

def validRecord [StoreLayout] (e : Entry) : Bool :=
  let kind := e.kind.text
  physical e.path.text ≠ [] && e.version.text = (versioned e).version.text &&
  (match number e.size with
    | none => false
    | some size =>
      (kind = file || kind = directory || kind = deleted) &&
      (if kind = file then hex e.hash.text else size = 0 && e.hash.text = [])) &&
  validBase e.baseRevision && validClock e.clockObject && utf8Size e.json ≤ 16384

structure Valid [StoreLayout] (e : Entry) : Prop where
  path : physical e.path.text ≠ []
  version : e.version.text = (versioned e).version.text
  size : ∃ n, number e.size = some n ∧ ((e.kind.text = file ∧ hex e.hash.text) ∨
    ((e.kind.text = directory ∨ e.kind.text = deleted) ∧ n = 0 ∧ e.hash.text = []))
  base : validBase e.baseRevision
  clock : validClock e.clockObject
  fits : utf8Size e.json ≤ 16384

theorem file_ne_directory : file ≠ directory := by decide
theorem file_ne_deleted : file ≠ deleted := by decide
theorem directory_ne_deleted : directory ≠ deleted := by decide

theorem validRecord_iff [StoreLayout] {e : Entry} : validRecord e ↔ Valid e := by
  rw [validRecord]
  constructor
  · intro h
    simp only [Bool.and_eq_true, decide_eq_true_eq] at h
    obtain ⟨⟨⟨⟨⟨hpath, hversion⟩, hsize⟩, hbase⟩, hclock⟩, hfits⟩ := h
    refine ⟨hpath, hversion, ?_, hbase, hclock, hfits⟩
    split at hsize
    · cases hsize
    · rename_i n hn
      refine ⟨n, hn, ?_⟩
      by_cases hkind : e.kind.text = file
      · simp only [hkind, if_true, Bool.and_eq_true] at hsize
        exact Or.inl ⟨hkind, hsize.2⟩
      · simpa [hkind] using hsize
  · rintro ⟨hpath, hversion, ⟨n, hn, hsize⟩, hbase, hclock, hfits⟩
    simp only [Bool.and_eq_true, decide_eq_true_eq]
    refine ⟨⟨⟨⟨⟨hpath, hversion⟩, ?_⟩, hbase⟩, hclock⟩, hfits⟩
    rw [hn]
    rcases hsize with ⟨hkind, hhash⟩ | ⟨hkind | hkind, hzero, hhash⟩
    · simp [hkind, hhash]
    · simp [hkind, hzero, hhash, file_ne_directory.symm]
    · simp [hkind, hzero, hhash, file_ne_deleted.symm]

end SocietyHelper.Sync
