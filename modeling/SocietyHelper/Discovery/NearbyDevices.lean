import SocietyHelper.Library.Table
import SocietyHelper.Library.Json

/-! # Nearby devices

Devices of an account discover each other and exchange datagrams. A host invites
a device with a link, and the device remembers the tokens of the requests it has
seen until they expire, so that a copy of an invitation is not presented again.
-/

namespace SocietyHelper.Discovery

open Library

/-- The members of a record or of a packet. -/
abbrev Object := Table Text Value

def Object.value (o : Object) (key : String) : Value := (o.find? (text key)).getD .undefined

def Object.has (o : Object) (key : String) (value : String) : Bool := o.value key = .string (text value)

def isTokenChar (c : Char) : Bool := c.isAlphanum || c ∈ ['_', '.', ':', '-']

def token (t : Text) : Bool := 1 ≤ t.length && t.length ≤ 128 && t.all isTokenChar

def hash (t : Text) : Bool := t.length = 64 && t.all fun c => c.isDigit || ('a' ≤ c && c ≤ 'f')

def validRecord (r : Object) : Bool :=
  let name := (r.value "name").text
  r.has "v" "1" && hash (r.value "scope").text && token (r.value "id").text && token (r.value "nonce").text &&
    name ≠ [] && utf16Size name ≤ 128 && !name.any (fun c => c.toNat < 32 || c.toNat = 127) &&
    (r.value "kind").text ∈ [text "pc", text "phone", text "tablet"] &&
    (r.value "host").text ∈ [text "0", text "1"] &&
    ((r.value "primary").text = [] || token (r.value "primary").text) &&
    utf8Size (Json.object (r.rows.flatMap fun m => Json.field m.1 m.2)) ≤ 1024

/-- A packet may hold the record of its sender as one more object. -/
structure Packet where
  members : Object
  record : Object := .empty

structure Endpoint where
  service : Text
  record : Object
  address : Text
  port : Nat
  seen : Nat

structure LanLink where
  hostId : Text
  addresses : List Text
  expiresAt : Nat
  deriving DecidableEq

structure Incoming where
  sender : Text
  request : Text
  automatic : Bool
  expires : Nat

structure Outgoing where
  receiver : Text
  request : Text
  automatic : Bool
  expires : Nat

/-- An invitation that the user has been shown: who sent it, its token and its link. -/
structure Invitation where
  sender : Text
  request : Text
  link : Text
  deriving DecidableEq

/-- A device with an identity, its clock and the invitations it has presented, the latest first. -/
structure NearbyDevices where
  now : Nat
  record : Object
  endpoints : Table Text Endpoint := .empty
  seenRequests : Table Text Nat := .empty
  retiredInstances : Table Text Nat := .empty
  incoming : Option Incoming := none
  accepted : Option Incoming := none
  outgoing : Option Outgoing := none
  remoteVerificationCode : Text := []
  resumeHost : Text := []
  resumeRoutes : List (Text × Nat) := []
  resumeChallenge : Text := []
  resumeDeadline : Nat := 0
  presented : List Invitation := []

/-- What stands for other libraries: how a link is read, and what the proof check answers at some moment. -/
structure Platform where
  decode : Text → Option LanLink
  verify : Nat → Object → Bool
  verifyPacket : Nat → Packet → Bool

/-- A packet as it arrives, with its source. An unreadable datagram is an empty packet. -/
structure Datagram where
  packet : Packet
  address : Text
  port : Nat
  size : Nat
  localAddress : Bool

namespace NearbyDevices

variable (lib : Platform) (s : NearbyDevices)

def deviceId : Text := (s.record.value "id").text

def primaryHost : Text := (s.record.value "primary").text

def desktop : Bool := s.record.has "host" "1"

def automaticHostAvailable : Bool := s.desktop && s.record.has "autoHost" "1"

/-- The first fresh endpoint of a device, at a source if one is given. -/
def endpoint (id : Value) (source : Option (Text × Nat)) : Option Endpoint :=
  (s.endpoints.rows.map Prod.snd).find? fun e =>
    e.record.value "id" = id && s.now - e.seen < 25000 && source.all fun (address, port) => e.address = address && e.port = port

/-! ## Invitations end -/

def decline : NearbyDevices := { s with incoming := none }

def cancel : NearbyDevices := { s with incoming := none, outgoing := none, accepted := none, remoteVerificationCode := [] }

def complete : NearbyDevices := { s with outgoing := none, accepted := none, remoteVerificationCode := [] }

def accept : NearbyDevices :=
  match s.incoming with
  | none => s.decline
  | some incoming =>
    if incoming.expires ≤ s.now then s.decline
    else match s.endpoint (.string incoming.sender) none with
      | none => s.decline
      | some peer =>
        if incoming.automatic ∧ ¬lib.verify s.now peer.record then s.decline
        else { s with accepted := if incoming.automatic then some incoming else none, incoming := none }

/-! ## Discovery -/

def instanceOf (record : Object) : Text := (record.value "id").text ++ '/' :: (record.value "nonce").text

/-- Whether an endpoint belongs to an older process of a device whose record has been verified. -/
def restarted (record : Object) (verified : Bool) (old : Endpoint) : Bool :=
  verified && old.record.value "id" = record.value "id" && old.record.value "nonce" ≠ record.value "nonce"

def retire (retired : Table Text Nat) (old : Endpoint) : Table Text Nat :=
  (if 128 ≤ retired.rows.length then ⟨retired.rows.tail, retired.unique.sublist ((List.tail_sublist _).map _)⟩ else retired).insert
    (instanceOf old.record) (s.now + 70000)

/-- Whether a device takes part in an invitation. -/
def concerns (id : Text) : Bool :=
  s.outgoing.any (fun outgoing => outgoing.receiver = id) || s.incoming.any (fun incoming => incoming.sender = id) ||
    s.accepted.any fun accepted => accepted.sender = id

def found (service : Text) (record : Object) (address : Text) (port : Nat) (localAddress freshProof : Bool) : NearbyDevices :=
  if 512 < utf16Size service ∨ ¬validRecord record ∨ port = 0 ∨ ¬localAddress ∨
      record.value "scope" ≠ s.record.value "scope" ∨ record.value "id" = s.record.value "id" then s
  else
    let verified := lib.verify s.now record
    if ¬freshProof ∧ s.now < (s.retiredInstances.find? (instanceOf record)).getD 0 then s
    else
      let s : NearbyDevices := if freshProof then { s with retiredInstances := s.retiredInstances.erase (instanceOf record) } else s
      let older := s.endpoints.rows.filter fun e => restarted record verified e.2
      let s : NearbyDevices := if freshProof then { s with
        retiredInstances := older.foldl (fun retired e => s.retire retired e.2) s.retiredInstances } else s
      let s : NearbyDevices := { s with endpoints := s.endpoints.filter fun _ old => !restarted record verified old &&
        !(old.service = service && (old.port ≠ port || old.record.value "id" ≠ record.value "id" ||
          old.record.value "nonce" ≠ record.value "nonce")) }
      let key := service ++ '/' :: address
      if s.endpoints.find? key = none ∧ 128 ≤ s.endpoints.rows.length then s
      else
        let s : NearbyDevices := { s with endpoints := s.endpoints.insert key ⟨service, record, address, port, s.now⟩ }
        -- A fresh process cannot answer an invitation bound to its old nonce.
        if older.length ≠ 0 ∧ s.concerns (record.value "id").text then s.cancel else s

def lost (service : Text) : NearbyDevices := { s with endpoints := s.endpoints.filter fun _ e => e.service ≠ service }

/-! ## Datagrams -/

/-- What both resume packets need. -/
def resumable (p : Packet) : Bool :=
  let expires := (toLongLong (p.members.value "expires").text).getD 0
  p.members.has "v" "1" && p.members.value "to" = .string s.deviceId && p.members.value "scope" = s.record.value "scope" &&
    token (p.members.value "request").text && (s.now : Int) < expires && expires ≤ s.now + 6000 && validRecord p.record &&
    p.record.value "id" = p.members.value "from" && p.record.value "id" ≠ .string s.deviceId &&
    p.record.value "scope" = s.record.value "scope" && lib.verifyPacket s.now p && lib.verify s.now p.record

def receiveResume (d : Datagram) : NearbyDevices :=
  let p := d.packet
  let request := (p.members.value "request").text
  let expires := (toLongLong (p.members.value "expires").text).getD 0
  let service := text "resume:" ++ (p.record.value "id").text
  if ¬s.resumable lib p then s
  else if p.members.has "op" "resume" then
    if ¬s.automaticHostAvailable ∨ s.primaryHost ≠ s.deviceId ∨ p.record.value "primary" ≠ .string s.deviceId ∨
        ¬p.record.has "host" "0" ∨ request ∈ s.seenRequests.keys ∨ 128 ≤ s.seenRequests.rows.length then s
    else ({ s with seenRequests := s.seenRequests.insert request expires.toNat }).found lib service p.record d.address d.port
      d.localAddress true
  else if s.desktop ∨ p.members.value "from" ≠ .string s.resumeHost ∨ request ≠ s.resumeChallenge ∨
      s.resumeDeadline ≤ s.now ∨ ¬p.record.has "autoHost" "1" ∨ p.record.value "primary" ≠ .string s.resumeHost then s
  else if (d.address, d.port) ∉ s.resumeRoutes then s
  else ({ s with resumeChallenge := [] }).found lib service p.record d.address d.port d.localAddress true

/-- An invitation from a discovered peer. -/
def receiveInvite (p : Object) (peer : Endpoint) (automatic : Bool) : NearbyDevices :=
  let request := (p.value "request").text
  match lib.decode (p.value "link").text with
  | none => s
  | some link =>
    if ¬peer.record.has "host" "1" ∨ p.value "nonce" ≠ s.record.value "nonce" ∨ request ∈ s.seenRequests.keys ∨
        s.incoming.isSome ∨ link.hostId ≠ (peer.record.value "id").text ∨ link.expiresAt ≤ s.now ∨
        s.now + 65000 < link.expiresAt then s
    -- A discovered peer cannot redirect this device to another LAN host.
    else if peer.address ∉ link.addresses then s
    else { s with
      incoming := some ⟨(p.value "from").text, request, automatic, link.expiresAt⟩
      seenRequests := s.seenRequests.insert request (s.now + 70000)
      presented := ⟨(p.value "from").text, request, (p.value "link").text⟩ :: s.presented }

def isCode (t : Text) : Bool :=
  let digit := fun c : Char => c.isDigit || ('A' ≤ c && c ≤ 'F')
  (t.splitOn '-').map List.length = [4, 4, 4] && t.all fun c => c = '-' || digit c

/-- An answer to an invitation of this device. -/
def receiveAnswer (p : Object) (automatic : Bool) : NearbyDevices :=
  match s.outgoing with
  | none => s
  | some outgoing =>
    if p.value "request" ≠ .string outgoing.request ∨ p.value "from" ≠ .string outgoing.receiver ∨
        automatic ≠ outgoing.automatic then s
    else if p.has "op" "verify" then
      if automatic ∧ isCode (p.value "code").text then { s with remoteVerificationCode := (p.value "code").text } else s
    else if p.has "op" "decline" then { s with outgoing := none }
    else s

def receiveCancel (p : Object) (automatic : Bool) : NearbyDevices :=
  match s.incoming with
  | none => s
  | some incoming =>
    if p.value "request" = .string incoming.request ∧ p.value "from" = .string incoming.sender ∧
        automatic = incoming.automatic then { s with incoming := none } else s

def receive (d : Datagram) : NearbyDevices :=
  let p := d.packet.members
  if 4096 < d.size ∨ ¬d.localAddress then s
  else if p.has "op" "resume" ∨ p.has "op" "resume-ready" then s.receiveResume lib d
  else match s.endpoint (.string (p.value "from").text) (some (d.address, d.port)) with
    | none => s
    | some peer =>
      if ¬p.has "v" "1" ∨ p.value "scope" ≠ s.record.value "scope" ∨ p.value "to" ≠ s.record.value "id" ∨
          ¬token (p.value "request").text then s
      else
        let automatic := p.has "automatic" "1"
        if automatic ∧ (¬lib.verifyPacket s.now d.packet ∨ ¬lib.verify s.now peer.record ∨
            p.value "nonce" ≠ s.record.value "nonce" ∨ p.value "senderNonce" ≠ peer.record.value "nonce") then s
        else if p.has "op" "invite" then s.receiveInvite lib p peer automatic
        else if p.has "op" "decline" ∨ p.has "op" "accept" ∨ p.has "op" "verify" then s.receiveAnswer p automatic
        else if p.has "op" "cancel" then s.receiveCancel p automatic
        else s

/-! ## Invitations and the clock -/

/-- The tokens that are left when the expired ones have been removed. -/
def remembered : Table Text Nat := s.seenRequests.filter fun _ expires => s.now < expires

def tick : NearbyDevices :=
  { s with
    endpoints := s.endpoints.filter fun _ e => s.now - e.seen < 25000
    seenRequests := if 128 < s.remembered.rows.length then .empty else s.remembered
    retiredInstances := s.retiredInstances.filter fun _ expires => s.now < expires
    incoming := s.incoming.filter fun incoming => s.now < incoming.expires
    outgoing := s.outgoing.filter fun outgoing => s.now < outgoing.expires }

/-- The token of a new invitation is drawn at random. -/
def invite (id link nonce : Text) (automatic : Bool) : NearbyDevices :=
  match s.endpoint (.string id) none, lib.decode link with
  | some peer, some decoded =>
    if ¬s.desktop ∨ decoded.hostId ≠ s.deviceId ∨ decoded.expiresAt ≤ s.now ∨ (automatic ∧ ¬lib.verify s.now peer.record) then s
    else { s.cancel with outgoing := some ⟨id, nonce, automatic, decoded.expiresAt⟩ }
  | _, _ => s

def setCredentials (hostAvailable : Bool) (primaryHost : Text) : NearbyDevices :=
  let record := s.record.insert (text "autoHost") (.string (if hostAvailable && s.desktop then ['1'] else ['0']))
  { s with record := if primaryHost = [] then record.erase (text "primary") else record.insert (text "primary") (.string primaryHost) }

def setResume (host challenge : Text) (routes : List (Text × Nat)) : NearbyDevices :=
  { s with resumeHost := host, resumeRoutes := routes, resumeChallenge := challenge, resumeDeadline := s.now + 5000 }

end NearbyDevices

inductive Action where
  | receive (d : Datagram)
  | tick
  | accept
  | decline
  | cancel
  | complete
  | found (service : Text) (record : Object) (address : Text) (port : Nat) (localAddress : Bool)
  | lost (service : Text)
  | invite (id link nonce : Text) (automatic : Bool)
  | setCredentials (hostAvailable : Bool) (primaryHost : Text)
  | setResume (host challenge : Text) (routes : List (Text × Nat))

namespace NearbyDevices

def act (lib : Platform) (s : NearbyDevices) : Action → NearbyDevices
  | .receive d => s.receive lib d
  | .tick => s.tick
  | .accept => s.accept lib
  | .decline => s.decline
  | .cancel => s.cancel
  | .complete => s.complete
  | .found service record address port localAddress => s.found lib service record address port localAddress false
  | .lost service => s.lost service
  | .invite id link nonce automatic => s.invite lib id link nonce automatic
  | .setCredentials hostAvailable primaryHost => s.setCredentials hostAvailable primaryHost
  | .setResume host challenge routes => s.setResume host challenge routes

def wait (elapsed : Nat) (s : NearbyDevices) : NearbyDevices := { s with now := s.now + elapsed }

/-- Every action comes some time after the one before it. -/
def run (lib : Platform) (s : NearbyDevices) (actions : List (Nat × Action)) : NearbyDevices :=
  actions.foldl (fun s action => (s.wait action.1).act lib action.2) s

/-- A device that has just been given its identity. -/
def start (now : Nat) (record : Object) : NearbyDevices := { now, record }

end NearbyDevices

end SocietyHelper.Discovery
