import SocietyHelper.Library.Table
import SocietyHelper.Library.Text

/-! # Automatic pairing

Verified devices of one account agree on a leader, which invites the others. A
device chooses its leader from the devices it sees; an open connection of its own
holds it to the leader it had while that one is not seen. Identifiers are ASCII,
so they are ordered by their characters.
-/

namespace SocietyHelper.Discovery

open Library

/-- An address at which a device was discovered, with its record and the answer of the proof check on it. -/
structure Sighting where
  id : Text
  name : Text
  verified : Bool
  autoHost : Bool
  primary : Text
  seen : Nat
  deriving DecidableEq

/-- What a device meets when it is pumped: the clock, its own record, the devices it has discovered,
an invitation that is waiting, and what the transport answers. -/
structure Turn where
  now : Nat := 0
  authenticated : Bool := true
  deviceId : Text
  automaticHostAvailable : Bool
  primaryHost : Text := []
  endpoints : List Sighting
  incoming : Option (Text × Bool) := none
  remoteVerificationCode : Text := []
  connected : Bool := false
  pairedDeviceIds : List Text := []
  phase : Text := []
  verificationCode : Text := []
  confirmed : Bool := true
  link : Text := []
  joined : Bool := true
  hosted : Bool := true
  invited : Bool := true

/-- One row per device, from the first of its endpoints that is fresh. The rows are sorted by name. -/
def devices (collate : Text → Text → Bool) (t : Turn) : List Sighting :=
  (t.endpoints.foldl (fun result e =>
    if e.id ∈ result.map Sighting.id ∨ 25000 ≤ t.now - e.seen then result else result ++ [e]) []).insertionSort
      fun a b => collate a.name b.name

/-- What the pump asks of the other parts of the program. -/
inductive Call where
  | cancel
  | complete
  | cancelPairing
  | stop
  | decline
  | accept
  | join (link : Text)
  | prove (code : Text)
  | confirm
  | host
  | invite (id : Text)
  deriving DecidableEq

structure AutomaticPairing where
  enabled : Bool := true
  queue : List Text := []
  current : Text := []
  leader : Text := []
  retryAt : Table Text Nat := .empty
  attempts : Table Text Nat := .empty
  deadline : Nat := 0
  ownsTransport : Bool := false
  calls : List Call := []

namespace AutomaticPairing

def call (s : AutomaticPairing) (calls : List Call) : AutomaticPairing := { s with calls := s.calls ++ calls }

def finish (now : Nat) (success : Bool) (s : AutomaticPairing) : AutomaticPairing :=
  if s.current = [] then s
  else
    let id := s.current
    let s := { s with current := [] }
    if success then { s with retryAt := s.retryAt.erase id, attempts := s.attempts.erase id }.call [.complete]
    else
      let attempts := min ((s.attempts.find? id).getD 0 + 1) 5
      { s with
        attempts := s.attempts.insert id attempts
        retryAt := s.retryAt.insert id (now + min 8000 (250 * 2 ^ (attempts - 1))) }.call [.cancel, .cancelPairing]

def reset (s : AutomaticPairing) : AutomaticPairing :=
  let owned := s.ownsTransport
  let s := { s with ownsTransport := false, current := [], queue := [], leader := [], retryAt := .empty, attempts := .empty }
  if owned then s.call [.cancel, .stop] else s

def setEnabled (enabled : Bool) (s : AutomaticPairing) : AutomaticPairing :=
  if s.enabled = enabled then s
  else if enabled then { s with enabled }
  else
    let s := if s.current ≠ [] then s.call [.cancel, .cancelPairing] else s
    { s with enabled, current := [], queue := [] }

/-! ## The pump -/

/-- The verified devices of a turn. -/
def verified (collate : Text → Text → Bool) (t : Turn) : List Sighting := (devices collate t).filter Sighting.verified

/-- Whether an open connection of its own holds a device to the leader it had. -/
def holds (collate : Text → Text → Bool) (t : Turn) (s : AutomaticPairing) : Bool :=
  t.primaryHost = [] && s.ownsTransport && t.connected && s.leader ∉ (verified collate t).map Sighting.id

def hosts (collate : Text → Text → Bool) (t : Turn) : List Text :=
  (((verified collate t).filter Sighting.autoHost).map Sighting.id ++
    if t.automaticHostAvailable then [t.deviceId] else []).insertionSort (· ≤ ·)

def established (collate : Text → Text → Bool) (t : Turn) : List Text :=
  (((verified collate t).map Sighting.primary).filter (· ≠ [])).dedup.insertionSort (· ≤ ·)

def choose (collate : Text → Text → Bool) (t : Turn) (s : AutomaticPairing) : Text :=
  let leader := (hosts collate t).head?.getD []
  -- A replica follows its durable primary even while that host is offline.
  let leader := if t.primaryHost ≠ [] then t.primaryHost else (established collate t).head?.getD leader
  if holds collate t s then s.leader else leader

def follow (t : Turn) (leader : Text) (s : AutomaticPairing) : AutomaticPairing :=
  if leader = s.leader then s
  else
    let s := if s.current ≠ [] then s.finish t.now false else s
    let s := if s.ownsTransport then { s with ownsTransport := false }.call [.stop] else s
    { s with leader }

def refresh (devices : List Text) (t : Turn) (host : Bool) (s : AutomaticPairing) : AutomaticPairing :=
  { s with
    queue := devices.filter fun id => id ∉ t.pairedDeviceIds && (host || id = s.leader)
    retryAt := s.retryAt.filter fun id _ => id ∈ devices
    attempts := s.attempts.filter fun id _ => (s.retryAt.find? id).isNone || id ∈ devices }

/-- While a connection is being made. -/
def attend (devices : List Text) (t : Turn) (host : Bool) (s : AutomaticPairing) : AutomaticPairing :=
  if s.current ∉ devices ∨ s.deadline ≤ t.now ∨ t.phase = text "error" then s.finish t.now false
  else if t.phase = text "confirming" then
    if host then
      if t.remoteVerificationCode = [] then s
      else if t.remoteVerificationCode ≠ t.verificationCode then s.finish t.now false
      else if t.confirmed then s.call [.confirm]
      else (s.call [.confirm]).finish t.now false
    else s.call [.prove t.verificationCode]
  else s

def acceptIncoming (t : Turn) (host : Bool) (sender : Text) (s : AutomaticPairing) : AutomaticPairing :=
  if host ∨ sender ≠ s.leader ∨ s.leader ∈ t.pairedDeviceIds then s.call [.decline]
  else
    let s := { s with current := s.leader, deadline := t.now + 20000, ownsTransport := true }.call [.accept]
    if t.link = [] then s.finish t.now false
    else if t.joined then s.call [.join t.link]
    else (s.call [.join t.link]).finish t.now false

def inviteNext (t : Turn) (s : AutomaticPairing) : AutomaticPairing :=
  match s.queue.find? fun id => (s.retryAt.find? id).getD 0 ≤ t.now with
  | none => s
  | some id =>
    let s := { s with current := id, deadline := t.now + 20000, ownsTransport := true }.call [.host]
    if ¬t.hosted then s.finish t.now false
    else if t.invited then s.call [.invite id]
    else (s.call [.invite id]).finish t.now false

def pump (collate : Text → Text → Bool) (t : Turn) (s : AutomaticPairing) : AutomaticPairing :=
  if ¬t.authenticated then s
  else if ¬s.enabled then
    if t.incoming.any Prod.snd then s.call [.decline] else s
  else
    let devices := ((verified collate t).map Sighting.id).insertionSort (· ≤ ·)
    let leader := choose collate t s
    -- Giving a connection up cancels an invitation that is waiting.
    let incoming := if leader ≠ s.leader ∧ s.current ≠ [] then none else t.incoming
    let host := decide (leader ≠ [] ∧ leader = t.deviceId)
    let s := (s.follow t leader).refresh devices t host
    if s.current ≠ [] then s.attend devices t host
    else match incoming with
      | some (sender, true) => s.acceptIncoming t host sender
      | some (_, false) => s
      | none =>
        if ¬host ∨ s.queue = [] then s
        else if t.phase ∈ [text "showing", text "connecting", text "verifying", text "confirming"] then s
        else s.inviteNext t

end AutomaticPairing

/-- What happens to a device's pairing: pumps, the end of an identity, the switch, and connections that
are paired or that end. -/
inductive PairingEvent where
  | pump (t : Turn)
  | reset
  | setEnabled (enabled : Bool)
  | invitationEnded (now : Nat)
  | paired (id : Text)

namespace AutomaticPairing

def step (collate : Text → Text → Bool) (s : AutomaticPairing) : PairingEvent → AutomaticPairing
  | .pump t => s.pump collate t
  | .reset => s.reset
  | .setEnabled enabled => s.setEnabled enabled
  | .invitationEnded now => if s.current ≠ [] then s.finish now false else s
  | .paired id => if id = s.current then s.finish 0 true else s

def run (collate : Text → Text → Bool) (events : List PairingEvent) : AutomaticPairing := events.foldl (step collate) {}

end AutomaticPairing

end SocietyHelper.Discovery
