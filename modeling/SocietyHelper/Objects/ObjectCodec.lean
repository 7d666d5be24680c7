import SocietyHelper.Library.Base64
import SocietyHelper.Library.Json
import SocietyHelper.Library.Utf16

/-! # The object codec

A value travels as what the stream operators of its type write. An object is
captured as a snapshot first: the values it reads, with every object among
them captured in its place. The graph of the objects and the registered types
are parameters.
-/

namespace SocietyHelper.Objects

open Library

abbrev QString := List UInt16

/-- A value of one of the types the codec looks into, or of any other type. -/
inductive Variant (Id V : Type) where
  | invalid
  | null
  | object (target : Option Id)
  | map (entries : List (QString × Variant Id V))
  | hash (entries : List (QString × Variant Id V))
  | list (entries : List (Variant Id V))
  | snapshot (className : QString) (properties : List (QString × Variant Id V))
  | other (value : V)

abbrev Entries (Id V : Type) := List (QString × Variant Id V)

inductive MetaType (T : Type) where
  | null | object | map | hash | list | snapshot
  | other (type : T)
  deriving DecidableEq

/-- How a stream operator ends: it throws, leaves the stream in error, or is done. -/
inductive Streamed (α : Type) where
  | threw
  | failed
  | done (a : α)

def Streamed.bind {α β : Type} : Streamed α → (α → Streamed β) → Streamed β
  | threw, _ => threw
  | failed, _ => failed
  | done a, f => f a

/-- What the process knows of its types. -/
structure Types (Id T V : Type) where
  typeOf : V → T
  name : MetaType T → Text
  isPointer : T → Bool
  hasDataStreamOperators : T → Bool
  defaultConstructible : T → Bool
  fromName : Text → Option (MetaType T)
  saveString : QString → Streamed Bytes
  loadString : Bytes → Streamed (QString × Bytes)
  saveValue : Variant Id V → Streamed Bytes
  loadValue : MetaType T → Bytes → Streamed (Variant Id V × Bytes)

def maximumPayloadBytes : Nat := 64 * 1024
def maximumStreamBytes : Nat := 48 * 1024
def maximumDepth : Nat := 16
def maximumNodes : Nat := 4096
def format : Text := text "iisacc.qt-object"
def streamVersion : Text := text "22"

def isValidUtf16 (s : QString) : Bool := (fromUtf16 s).isSome

def validName (name : QString) : Bool := name ≠ [] && name.length ≤ 256 && isValidUtf16 name && !name.contains 0

def exceeded : Text := text "Object exceeds the depth or collection limit."

section

variable {Id T V : Type} (q : Types Id T V)

/-- The type of a value, none for the invalid one. -/
def Types.metaType : Variant Id V → Option (MetaType T)
  | .invalid => none
  | .null => some .null
  | .object _ => some .object
  | .map _ => some .map
  | .hash _ => some .hash
  | .list _ => some .list
  | .snapshot _ _ => some .snapshot
  | .other v => some (.other (q.typeOf v))

def Types.pointerType : MetaType T → Bool
  | .object => true
  | .other t => q.isPointer t
  | _ => false

def Types.hasRegisteredDataStreamOperators : MetaType T → Bool
  | .other t => q.hasDataStreamOperators t
  | _ => true

def Types.isDefaultConstructible : MetaType T → Bool
  | .other t => q.defaultConstructible t
  | _ => true

/-- The stream operators of a snapshot are its two members', one after the other. -/
def Types.save : Variant Id V → Streamed Bytes
  | .snapshot className properties =>
    (q.saveString className).bind fun head => (q.saveValue (.map properties)).bind fun tail => .done (head ++ tail)
  | v => q.saveValue v

def Types.load (type : MetaType T) (stream : Bytes) : Streamed (Variant Id V × Bytes) :=
  match type with
  | .snapshot =>
    (q.loadString stream).bind fun s => (q.loadValue .map s.2).bind fun m =>
      match m.1 with
      | .map properties => .done (.snapshot s.1 properties, m.2)
      | _ => .failed
  | type => q.loadValue type stream

def checkEntry (check : Variant Id V → Nat → Except Text Nat) (nodes : Nat) (e : QString × Variant Id V) :
    Except Text Nat :=
  if isValidUtf16 e.1 then check e.2 nodes else .error (text "Invalid object property name.")

/-- `levels` are left where the source counts a depth; the result is the number of nodes so far. -/
def Types.checkValue : Nat → Variant Id V → Nat → Except Text Nat
  | 0, _, _ => .error exceeded
  | levels + 1, v, nodes =>
    if maximumNodes < nodes + 1 then .error exceeded
    else
      match q.metaType v with
      | none => .ok (nodes + 1)
      | some type =>
        if q.pointerType type then
          .error (text "Pointer values cannot be transferred; pass QObject directly for a snapshot.")
        else if !q.hasRegisteredDataStreamOperators type then
          .error (text "Object type has no QDataStream operators: " ++ q.name type ++ text ".")
        else
          match v with
          | .snapshot className properties =>
            if validName className then Types.checkValue levels (.map properties) (nodes + 1)
            else .error (text "Invalid snapshot class name.")
          | .map entries => entries.foldlM (checkEntry (Types.checkValue levels)) (nodes + 1)
          | .hash entries => entries.foldlM (checkEntry (Types.checkValue levels)) (nodes + 1)
          | .list entries => entries.foldlM (fun nodes v => Types.checkValue levels v nodes) (nodes + 1)
          | _ => .ok (nodes + 1)

abbrev Payload := List (Text × Value)

namespace Payload

def value (payload : Payload) (key : String) : Value := (payload.lookup (text key)).getD .undefined

/-- The compact text of the object a map of values is read as. -/
def toJson (payload : Payload) : Text := Json.object (payload.flatMap fun m => Json.field m.1 m.2)

end Payload

/-- The buffer takes no more than its bound: the stream is in error past it. -/
def boundedBuffer : Streamed Bytes → Streamed Bytes
  | .done bytes => if bytes.length ≤ maximumStreamBytes then .done bytes else .failed
  | s => s

def payloadOf (name data : Text) : Payload :=
  [(text "data", .string data), (text "format", .string format), (text "streamVersion", .other streamVersion),
    (text "typeName", .string name), (text "version", .other (text "1"))]

def Types.encode (v : Variant Id V) : Except Text Payload :=
  match q.metaType v with
  | none => .error (text "Cannot transfer an invalid QVariant.")
  | some type =>
    (q.checkValue (maximumDepth + 1) v 0).bind fun _ =>
      if validName (utf16 (q.name type)) then
        match boundedBuffer (q.save v) with
        | .threw => .error (text "Object serializer threw an exception.")
        | .failed => .error (text "Object serialization failed or exceeds the 64 KiB message limit.")
        | .done bytes =>
          if maximumPayloadBytes < utf8Size (payloadOf (q.name type) (Base64.encode bytes)).toJson then
            .error (text "Encoded object exceeds the 64 KiB message limit.")
          else .ok (payloadOf (q.name type) (Base64.encode bytes))
      else .error (text "Invalid object metatype name.")

/-- Each unit past the first 256 becomes a question mark. -/
def toLatin1 (t : Text) : Text :=
  t.flatMap fun c => if c.toNat < 256 then [c] else List.replicate (utf16Encode c).length '?'

def Types.decode (payload : Payload) : Except Text (Variant Id V) :=
  if payload.length ≠ 5 ∨ payload.value "format" ≠ .string format ∨ ¬(payload.value "typeName").isString ∨
      ¬(payload.value "data").isString ∨ maximumPayloadBytes < utf16Size (payload.value "data").text then
    .error (text "Invalid Society object envelope.")
  else if payload.value "version" ≠ .other (text "1") ∨ payload.value "streamVersion" ≠ .other streamVersion ∨
      maximumPayloadBytes < utf8Size payload.toJson then
    .error (text "Unsupported or oversized Society object envelope.")
  else if !validName (utf16 (payload.value "typeName").text) then .error (text "Invalid object metatype name.")
  else
    match (q.fromName (payload.value "typeName").text).filter fun type =>
        !q.pointerType type && q.isDefaultConstructible type && q.hasRegisteredDataStreamOperators type with
    | none => .error (text "Register the receiving object's metatype and QDataStream operators before decoding.")
    | some type =>
      match (Base64.decode (toLatin1 (payload.value "data").text)).filter fun bytes =>
          bytes.length ≤ maximumStreamBytes && Base64.encode bytes = toLatin1 (payload.value "data").text with
      | none => .error (text "Invalid Society object Base64 data.")
      | some bytes =>
        match q.load type bytes with
        | .threw => .error (text "Object deserializer threw an exception.")
        | .done (v, []) => (q.checkValue (maximumDepth + 1) v 0).map fun _ => v
        | _ => .error (text "Truncated, incompatible or trailing object stream data.")

end

/-! ## Snapshots -/

/-- What calling a getter comes to; it may delete its own object. -/
inductive Reading (α : Type) where
  | threw
  | destroyed
  | value (a : α)

def Reading.get {α : Type} : Reading α → Except Text α
  | threw => .error (text "QObject snapshot getter threw an exception.")
  | destroyed => .error (text "QObject was destroyed while capturing its values.")
  | value a => .ok a

structure Property (Id V : Type) where
  name : QString
  isReadable : Bool
  isStored : Bool
  read : Reading (Variant Id V)

/-- The contract of an object is its `toVariantMap()`, whose call may fail. -/
structure QObject (Id V : Type) where
  onCurrentThread : Bool
  className : QString
  toVariantMap : Option (Reading (Option (Entries Id V)))
  properties : List (Property Id V)

abbrev Graph (Id V : Type) := Id → QObject Id V

section

variable {Id V : Type}

def Variant.toMap : Variant Id V → Entries Id V
  | .map entries => entries
  | _ => []

/-- Insertion into a map, whose keys are in the order of their units. -/
def insertEntry (entries : Entries Id V) (entry : QString × Variant Id V) : Entries Id V :=
  match entries with
  | [] => [entry]
  | e :: es =>
    if entry.1 = e.1 then entry :: es
    else if entry.1 < e.1 then entry :: e :: es
    else e :: insertEntry es entry

def insertAll (entries : Entries Id V) : Entries Id V := entries.foldl insertEntry []

/-- One step after the other, the number of nodes carried along. -/
def eachOf {α β : Type} (f : α → Nat → Except Text (β × Nat)) : List α → Nat → Except Text (List β × Nat)
  | [], nodes => .ok ([], nodes)
  | a :: as, nodes =>
    (f a nodes).bind fun b => (eachOf f as b.2).bind fun bs => .ok (b.1 :: bs.1, bs.2)

def captureEntry (captureValue : Variant Id V → Nat → Except Text (Variant Id V × Nat))
    (e : QString × Variant Id V) (nodes : Nat) : Except Text ((QString × Variant Id V) × Nat) :=
  (captureValue e.2 nodes).map fun u => ((e.1, u.1), u.2)

def captureProperty (captureValue : Variant Id V → Nat → Except Text (Variant Id V × Nat))
    (p : Property Id V) (nodes : Nat) : Except Text ((QString × Variant Id V) × Nat) :=
  p.read.get.bind fun v =>
    match v with
    | .invalid =>
      .error (text "Could not read QObject property: " ++ ((fromUtf16 p.name).getD []) ++ text ".")
    | v => captureEntry captureValue (p.name, v) nodes

variable [DecidableEq Id] (g : Graph Id V)

-- A captured map keeps the order of the map it is read from.
mutual

def captureValue : Nat → List Id → Variant Id V → Nat → Except Text (Variant Id V × Nat)
  | 0, _, _, _ => .error exceeded
  | levels + 1, active, v, nodes =>
    if maximumNodes < nodes + 1 then .error exceeded
    else
      match v with
      | .object none => .ok (.null, nodes + 1)
      | .object (some o) =>
        (capture levels active (some o) (nodes + 1)).map fun s => (.snapshot s.1.1 s.1.2, s.2)
      | .map values =>
        (eachOf (captureEntry (captureValue levels active)) values (nodes + 1)).map fun s => (.map s.1, s.2)
      | .hash values =>
        (eachOf (captureEntry (captureValue levels active)) values (nodes + 1)).map fun s => (.hash s.1, s.2)
      | .list values =>
        (eachOf (captureValue levels active) values (nodes + 1)).map fun s => (.list s.1, s.2)
      | v => .ok (v, nodes + 1)

def capture : Nat → List Id → Option Id → Nat → Except Text ((QString × Entries Id V) × Nat)
  | _, _, none, _ => .error (text "Cannot transfer a null QObject.")
  | levels, active, some o, nodes =>
    if !(g o).onCurrentThread then .error (text "Capture QObject on its owning thread.")
    else
      match levels with
      | 0 => .error exceeded
      | levels + 1 =>
        if maximumNodes < nodes + 1 then .error exceeded
        else if o ∈ active then .error (text "QObject snapshot contains a reference cycle.")
        else
          match (g o).toVariantMap with
          | some reading =>
            reading.get.bind fun contract =>
              match contract with
              | none => .error (text "Could not read the object's toVariantMap contract.")
              | some properties =>
                (captureValue levels (o :: active) (.map properties) (nodes + 1)).map fun s =>
                  (((g o).className, s.1.toMap), s.2)
          | none =>
            (eachOf (captureProperty (captureValue levels (o :: active)))
              ((g o).properties.filter fun p => p.isReadable && p.isStored) (nodes + 1)).map fun s =>
              (((g o).className, insertAll s.1), s.2)

end

def encodeObject {T : Type} (q : Types Id T V) (object : Option Id) : Except Text Payload :=
  (capture g (maximumDepth + 1) [] object 0).bind fun s => q.encode (.snapshot s.1.1 s.1.2)

end

end SocietyHelper.Objects
