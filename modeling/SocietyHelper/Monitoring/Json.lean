import SocietyHelper.Library.Utf8
import SocietyHelper.Monitoring.Publisher

/-! # The monitor's own JSON

The reader works on the bytes that are left and keeps, of an object, the scalar
members; the rest it only checks. The writer puts a state into one object.
-/

namespace SocietyHelper.Monitoring.Json

open Library

inductive Kind where
  | string
  | number
  | other
  deriving DecidableEq

structure Scalar where
  kind : Kind := .other
  value : Bytes := []
  deriving DecidableEq

def isSpace (c : UInt8) : Bool := c = ascii ' ' || c = ascii '\r' || c = ascii '\n' || c = ascii '\t'

def space (b : Bytes) : Bytes := b.dropWhile isSpace

def take (c : Char) (b : Bytes) : Option Bytes :=
  match space b with
  | [] => none
  | d :: rest => if d = ascii c then some rest else none

/-! ## Strings -/

def digit (c : UInt8) : Option Nat :=
  if ascii '0' ≤ c ∧ c ≤ ascii '9' then some (c.toNat - 48)
  else if ascii 'a' ≤ c ∧ c ≤ ascii 'f' then some (c.toNat - 97 + 10)
  else if ascii 'A' ≤ c ∧ c ≤ ascii 'F' then some (c.toNat - 65 + 10)
  else none

/-- Digits that are still to be read, after `v`. -/
def hex : Nat → Nat → Bytes → Option (Nat × Bytes)
  | 0, v, b => some (v, b)
  | _ + 1, _, [] => none
  | n + 1, v, c :: b => match digit c with
    | some d => hex n (v * 16 + d) b
    | none => none

def hex4 (b : Bytes) : Option (Nat × Bytes) := hex 4 0 b

def append (c : Nat) : Bytes :=
  let char (n : Nat) := UInt8.ofNat n
  if c < 0x80 then [char c]
  else if c < 0x800 then [char (0xc0 ||| c >>> 6), char (0x80 ||| c &&& 63)]
  else if c < 0x10000 then [char (0xe0 ||| c >>> 12), char (0x80 ||| (c >>> 6) &&& 63), char (0x80 ||| c &&& 63)]
  else [char (0xf0 ||| c >>> 18), char (0x80 ||| (c >>> 12) &&& 63), char (0x80 ||| (c >>> 6) &&& 63),
    char (0x80 ||| c &&& 63)]

/-- The escape after `\u`; a high surrogate needs the escape of a low one behind it. -/
def unicode (b : Bytes) : Option (Bytes × Bytes) :=
  match hex4 b with
  | none => none
  | some (code, b) =>
    if 0xd800 ≤ code ∧ code ≤ 0xdbff then
      match b with
      | s :: u :: b =>
        if s = ascii '\\' ∧ u = ascii 'u' then
          match hex4 b with
          | none => none
          | some (low, b) =>
            if low < 0xdc00 ∨ 0xdfff < low then none
            else some (append (0x10000 + (code - 0xd800) <<< 10 + low - 0xdc00), b)
        else none
      | _ => none
    else if 0xdc00 ≤ code ∧ code ≤ 0xdfff then none
    else some (append code, b)

/-- Escapes of one letter. -/
def simple (e : UInt8) : Option UInt8 :=
  if e = ascii '"' then some (ascii '"')
  else if e = ascii '\\' then some (ascii '\\')
  else if e = ascii '/' then some (ascii '/')
  else if e = ascii 'b' then some 8
  else if e = ascii 'f' then some 12
  else if e = ascii 'n' then some 10
  else if e = ascii 'r' then some 13
  else if e = ascii 't' then some 9
  else none

/-- What follows a byte that is not the closing quote. -/
def character (c : UInt8) (b : Bytes) : Option (Bytes × Bytes) :=
  if c < 32 then none
  else if c ≠ ascii '\\' then some ([c], b)
  else match b with
    | [] => none
    | e :: b => match simple e with
      | some out => some ([out], b)
      | none => if e = ascii 'u' then unicode b else none

/-- What was read goes before what the rest of the string gives. -/
def before (out : Bytes) (more : Bytes × Bytes) : Bytes × Bytes := (out ++ more.1, more.2)

/-- The loop over a string, with one round for each byte at most. -/
def characters : Nat → Bytes → Option (Bytes × Bytes)
  | 0, _ => none
  | _ + 1, [] => none
  | n + 1, c :: b =>
    if c = ascii '"' then some ([], b)
    else match character c b with
      | none => none
      | some (out, b) => (characters n b).map (before out)

def string (b : Bytes) : Option (Bytes × Bytes) :=
  match take '"' b with
  | none => none
  | some b => characters b.length b

/-! ## Numbers -/

def isDigit (c : UInt8) : Bool := ascii '0' ≤ c && c ≤ ascii '9'

def digits (b : Bytes) : Bytes := b.dropWhile isDigit

/-- One digit at least. -/
def someDigits (b : Bytes) : Option Bytes := if (digits b).length = b.length then none else some (digits b)

def minus : Bytes → Bytes
  | [] => []
  | c :: b => if c = ascii '-' then b else c :: b

def integer : Bytes → Option Bytes
  | [] => none
  | c :: b =>
    if c = ascii '0' then some b
    else if c < ascii '1' ∨ ascii '9' < c then none
    else some (digits (c :: b))

def fraction : Bytes → Option Bytes
  | [] => some []
  | c :: b => if c = ascii '.' then someDigits b else some (c :: b)

def sign : Bytes → Bytes
  | [] => []
  | c :: b => if c = ascii '+' ∨ c = ascii '-' then b else c :: b

def exponent : Bytes → Option Bytes
  | [] => some []
  | c :: b => if c = ascii 'e' ∨ c = ascii 'E' then someDigits (sign b) else some (c :: b)

def number (b : Bytes) : Option (Bytes × Bytes) :=
  let start := space b
  ((integer (minus start)).bind fun b => (fraction b).bind exponent).map fun rest =>
    (start.take (start.length - rest.length), rest)

/-! ## Values -/

section

variable {σ : Type}

/-- `do { item } while (take(','))`, over what has been gathered and the bytes that are left. -/
def doWhile (item : σ × Bytes → Option (σ × Bytes)) : Nat → σ × Bytes → Option (σ × Bytes)
  | 0, _ => none
  | n + 1, s =>
    match item s with
    | none => none
    | some s => match take ',' s.2 with
      | some b => doWhile item n (s.1, b)
      | none => some s

/-- What stands between an opening character and its closing one. -/
def enclosed (close : Char) (item : σ × Bytes → Option (σ × Bytes)) (s : σ × Bytes) : Option (σ × Bytes) :=
  match take close s.2 with
  | some b => some (s.1, b)
  | none => (doWhile item s.2.length s).bind fun s => (take close s.2).map fun b => (s.1, b)

end

/-- A key, a colon and what the reader of values makes of the rest. -/
def member (value : Bytes → Option (Scalar × Bytes)) (b : Bytes) : Option ((Bytes × Scalar) × Bytes) :=
  (string b).bind fun (key, b) => (take ':' b).bind fun b => (value b).map fun (scalar, b) => ((key, scalar), b)

/-- Nothing is kept of what is nested. -/
def ignoring {α : Type} (read : Bytes → Option (α × Bytes)) (s : Unit × Bytes) : Option (Unit × Bytes) :=
  (read s.2).map fun r => ((), r.2)

def literal (b : Bytes) : Option Bytes :=
  [text "true", text "false", text "null"].findSome? fun t =>
    if (utf8 t).isPrefixOf b then some (b.drop (utf8 t).length) else none

/-- A value within the levels that are left of 25. -/
def value : Nat → Bytes → Option (Scalar × Bytes)
  | 0, _ => none
  | levels + 1, b =>
    match space b with
    | [] => none
    | c :: rest =>
      if c = ascii '"' then (string (c :: rest)).map fun (v, r) => (⟨.string, v⟩, r)
      else if c = ascii '\x7b' then
        (enclosed '\x7d' (ignoring (member (value levels))) ((), rest)).map fun s => ({}, s.2)
      else if c = ascii '[' then (enclosed ']' (ignoring (value levels)) ((), rest)).map fun s => ({}, s.2)
      else match literal (c :: rest) with
        | some r => some ({}, r)
        | none => (number (c :: rest)).map fun (v, r) => (⟨.number, v⟩, r)

def levels : Nat := 25

/-- A key that is already there is refused. -/
def emplaced (s : List (Bytes × Scalar) × Bytes) : Option (List (Bytes × Scalar) × Bytes) :=
  (member (value levels) s.2).bind fun (m, b) => if m.1 ∈ s.1.map Prod.fst then none else some (s.1 ++ [m], b)

def members (b : Bytes) : Except Text (List (Bytes × Scalar) × Bytes) :=
  match take '\x7d' b with
  | some b => .ok ([], b)
  | none => match doWhile emplaced b.length ([], b) with
    | none => .error (text "Invalid JSON object")
    | some s => match take '\x7d' s.2 with
      | none => .error (text "Invalid JSON object terminator")
      | some b => .ok (s.1, b)

/-- The serializer of the library refuses what is not UTF-8. -/
def object (serializes : Bytes → Bool) (b : Bytes) : Except Text (List (Bytes × Scalar)) :=
  if !serializes b then .error (text "JSON is not UTF-8")
  else match take '\x7b' b with
    | none => .error (text "Expected a JSON object")
    | some b => match members b with
      | .error e => .error e
      | .ok (result, b) => if space b ≠ [] then .error (text "Trailing JSON data") else .ok result

/-! ## Writing -/

def hexDigit (n : Nat) : UInt8 := ascii (Nat.digitChar n)

def escaped (c : UInt8) : Bytes :=
  if c = ascii '"' then [ascii '\\', ascii '"']
  else if c = ascii '\\' then [ascii '\\', ascii '\\']
  else if c = ascii '\n' then [ascii '\\', ascii 'n']
  else if c = ascii '\r' then [ascii '\\', ascii 'r']
  else if c = ascii '\t' then [ascii '\\', ascii 't']
  else if c < 32 then
    [ascii '\\', ascii 'u', ascii '0', ascii '0', hexDigit (c.toNat / 16), hexDigit (c.toNat % 16)]
  else [c]

def quote (value : Bytes) : Bytes := ascii '"' :: (value.flatMap escaped ++ [ascii '"'])

structure State where
  schemaVersion : Nat := 1
  instanceId : Text := []
  containerId : Text := []
  root : Text := []
  revision : Nat := 0
  observedAtMs : Int := 0
  available : Bool := false
  complete : Bool := true
  daemonRunning : Bool := false
  error : Text := []
  sections : List Section := []
  changedSections : List Text := []
  deriving DecidableEq

def boolean (b : Bool) : Bytes := utf8 (text (if b then "true" else "false"))

/-- What the loops of the writer put between the elements of an array. -/
def commas : List Bytes → Bytes
  | [] => []
  | [b] => b
  | b :: c :: bs => b ++ (ascii ',' :: commas (c :: bs))

def objectJson (members : List (Text × Bytes)) : Bytes :=
  ascii '\x7b' :: (commas (members.map fun m => ascii '"' :: (utf8 m.1 ++ ascii '"' :: ascii ':' :: m.2)) ++ [ascii '\x7d'])

def arrayJson (items : List Bytes) : Bytes := ascii '[' :: (commas items ++ [ascii ']'])

def sectionJson (s : Section) : Bytes :=
  objectJson [
    (text "key", quote (utf8 s.key)),
    (text "files", utf8 (decimal s.files)),
    (text "directories", utf8 (decimal s.directories)),
    (text "bytes", utf8 (decimal s.bytes)),
    (text "fingerprint", quote (utf8 (decimal s.fingerprint.toNat))),
    (text "lastModified", utf8 (decimalInt s.lastModified)),
    (text "available", boolean s.available),
    (text "complete", boolean s.complete)]

def toJson (value : State) : Bytes :=
  objectJson [
    (text "schemaVersion", utf8 (decimal value.schemaVersion)),
    (text "instanceId", quote (utf8 value.instanceId)),
    (text "containerId", quote (utf8 value.containerId)),
    (text "rootPath", quote (utf8 value.root)),
    (text "revision", quote (utf8 (decimal value.revision))),
    (text "observedAtMs", utf8 (decimalInt value.observedAtMs)),
    (text "available", boolean value.available),
    (text "complete", boolean value.complete),
    (text "daemonRunning", boolean value.daemonRunning),
    (text "error", quote (utf8 value.error)),
    (text "sections", arrayJson (value.sections.map sectionJson)),
    (text "changedSections", arrayJson (value.changedSections.map fun key => quote (utf8 key)))]

end SocietyHelper.Monitoring.Json
