import SocietyHelper.Library.Table
import SocietyHelper.Library.Text

/-! # Presence of the other helpers

Every helper writes a record with a heartbeat number into a shared directory and
scans the records of the others. A record seen once proves nothing; its owner is
visible once the number has grown, until it has not grown for too long.
-/

namespace SocietyHelper.Core

open Library

structure ApplicationInfo where
  id : Text
  name : Text
  version : Text
  deriving DecidableEq

inductive Activity where
  | unknown
  | foreground
  | background
  deriving DecidableEq

structure Peer where
  application : ApplicationInfo
  instanceId : Text
  processId : Int
  activity : Activity
  startedAt : Nat
  lastSeenAt : Option Nat
  deriving DecidableEq

def sameMetadata (a b : Peer) : Bool :=
  a.application = b.application && a.processId = b.processId && a.activity = b.activity && a.startedAt = b.startedAt

structure Record where
  peer : Peer
  sequence : Nat
  deriving DecidableEq

/-! ## Reading the records -/

/-- The object a record file holds; a member that is missing or of another type reads as empty or zero. -/
structure Document where
  protocol : Int
  instanceId : Text
  applicationId : Text
  name : Text
  version : Text
  processId : Int
  startedAt : Text
  activity : Text
  heartbeat : Text

/-- A file of the directory. What it holds is absent if it cannot be read or grows too long meanwhile. -/
structure File where
  redirected : Bool
  size : Nat
  content : Option Document

def maximumRecordBytes : Nat := 8192

/-- The text of an identifier that is not null, in lower case and without braces. -/
def uuid (t : Text) : Bool :=
  (t.splitOn '-').map List.length = [8, 4, 4, 4, 12] && t.any (fun c => c ≠ '-' && c ≠ '0') &&
    t.all fun c => c = '-' || c.isDigit || ('a' ≤ c && c ≤ 'f')

def isSpace (c : Char) : Bool :=
  c.toNat ∈ [0x20, 0x85, 0xA0, 0x1680, 0x2028, 0x2029, 0x202F, 0x205F, 0x3000] ||
    (9 ≤ c.toNat && c.toNat ≤ 13) || (0x2000 ≤ c.toNat && c.toNat ≤ 0x200A)

/-- At least two words of letters and digits with a dot or a hyphen between them. -/
def reverseDomain (t : Text) : Bool :=
  -- The end of the pattern also matches before a last line feed.
  let words := (if t.getLast? = some '\n' then t.dropLast else t).splitOnP fun c => c = '.' || c = '-'
  2 ≤ words.length && words.all fun word => word ≠ [] && word.all Char.isAlphanum

def validApplication (app : ApplicationInfo) : Bool :=
  utf16Size app.id ≤ 255 && reverseDomain app.id && !app.name.all isSpace && utf16Size app.name ≤ 256 &&
    utf16Size app.version ≤ 128

/-- Base ten with an optional plus sign and surrounding blanks, inside 64 bits. -/
def toULongLong (t : Text) : Option Nat :=
  let value := match trimmed t with
    | '+' :: digits => decimalValue digits
    | digits => decimalValue digits
  value.filter (· < 2 ^ 64)

def activity (t : Text) : Option Activity :=
  if t = text "foreground" then some .foreground
  else if t = text "background" then some .background
  else if t = text "unknown" then some .unknown
  else none

section

-- How a point in time is read: it stands for the date library.
variable (fromString : Text → Option Nat)

def readRecord (inst : Text) (file : File) : Option Record :=
  if file.redirected ∨ maximumRecordBytes < file.size ∨ ¬uuid inst then none
  else file.content.bind fun object =>
    if object.protocol ≠ 1 ∨ object.instanceId ≠ inst then none
    else (activity object.activity).bind fun activity => (fromString object.startedAt).bind fun startedAt =>
      (toULongLong object.heartbeat).bind fun sequence =>
        if ¬validApplication ⟨object.applicationId, object.name, object.version⟩ ∨ object.processId ≤ 0 ∨ sequence = 0 then none
        else some ⟨⟨⟨object.applicationId, object.name, object.version⟩, inst, object.processId, activity, startedAt, none⟩,
          sequence⟩

/-- One cycle: the files that the directory lists under their instances, the time that has passed on
the monotonic clock since the last scan, and the time of day. -/
structure Cycle where
  files : Table Text File
  elapsed : Nat
  today : Nat

def Cycle.records (c : Cycle) (here : Text) : List Record :=
  c.files.rows.filterMap fun file => (readRecord fromString file.1 file.2).filter fun r => r.peer.instanceId ≠ here

def Cycle.presentRecords (c : Cycle) (here : Text) : List Text :=
  c.files.keys.filter fun inst => uuid inst && inst ≠ here

end

/-! ## Scanning -/

structure Observation where
  record : Record
  lastAdvance : Nat
  visible : Bool
  deriving DecidableEq

inductive DepartureReason where
  | timedOut
  | withdrawn
  deriving DecidableEq

inductive Event where
  | appeared (peer : Peer)
  | updated (peer : Peer)
  | disappeared (peer : Peer) (reason : DepartureReason)
  deriving DecidableEq

/-- What `start` accepts. -/
structure ObservationOptions where
  heartbeatIntervalMs : Nat
  peerTimeoutMs : Nat
  interval : 20 ≤ heartbeatIntervalMs ∧ heartbeatIntervalMs ≤ 60000
  timeout : heartbeatIntervalMs * 3 ≤ peerTimeoutMs ∧ peerTimeoutMs ≤ 300000

theorem ObservationOptions.peerTimeoutMs_pos (options : ObservationOptions) : 0 < options.peerTimeoutMs := by
  have hinterval := options.interval
  have htimeout := options.timeout
  omega

/-- A helper that keeps running, with the events it has announced. -/
structure Helper where
  here : Text
  lastScan : Nat
  observations : Table Text Observation := .empty
  events : List Event := []

/-- The observations while the records of one scan are gone through. -/
structure Pass where
  observations : Table Text Observation
  appeared : List Peer := []
  updated : List Peer := []

def Pass.observe (now today : Nat) (pass : Pass) (record : Record) : Pass :=
  match pass.observations.find? record.peer.instanceId with
  -- Seeing a file once is not evidence that its owner is alive.
  | none => { pass with observations := pass.observations.insert record.peer.instanceId ⟨record, now, false⟩ }
  | some it =>
    if it.record.sequence < record.sequence then
      let record := { record with peer := { record.peer with lastSeenAt := some today } }
      { observations := pass.observations.insert record.peer.instanceId ⟨record, now, true⟩
        appeared := if it.visible then pass.appeared else pass.appeared ++ [record.peer]
        updated := if it.visible ∧ ¬sameMetadata record.peer it.record.peer then pass.updated ++ [record.peer]
          else pass.updated }
    else pass

def Observation.expired (timeout now : Nat) (o : Observation) : Bool := o.visible && timeout ≤ now - o.lastAdvance

/-- Why a visible peer is announced as gone at the end of a scan. -/
def Observation.departure (timeout now : Nat) (present : List Text) (id : Text) (o : Observation) :
    Option DepartureReason :=
  if ¬o.visible then none
  else if id ∉ present then some .withdrawn
  else if timeout ≤ now - o.lastAdvance then some .timedOut
  else none

def Observation.settle (timeout now : Nat) (o : Observation) : Observation :=
  if o.expired timeout now then { o with visible := false } else o

namespace Helper

variable (fromString : Text → Option Nat) (options : ObservationOptions)

def peers (s : Helper) : List Peer :=
  s.observations.rows.filterMap fun row => if row.2.visible then some row.2.record.peer else none

/-- After its own event loop resumes, old files cannot prove current presence. -/
def remembered (s : Helper) (elapsed : Nat) : Table Text Observation :=
  if options.peerTimeoutMs ≤ elapsed then .empty else s.observations

def scan (s : Helper) (records : List Record) (presentRecords : List Text) (elapsed today : Nat) : Helper :=
  let now := s.lastScan + elapsed
  let pass := records.foldl (Pass.observe now today) { observations := s.remembered options elapsed }
  let present := presentRecords ++ records.map fun r => r.peer.instanceId
  let departed := (if options.peerTimeoutMs ≤ elapsed then s.peers.map fun peer => Event.disappeared peer .timedOut else []) ++
    pass.observations.rows.filterMap fun row =>
      (row.2.departure options.peerTimeoutMs now present row.1).map (.disappeared row.2.record.peer)
  { s with
    lastScan := now
    observations := (pass.observations.filter fun id _ => id ∈ present).mapValues fun _ => .settle options.peerTimeoutMs now
    events := s.events ++ (pass.appeared.map .appeared ++ pass.updated.map .updated ++ departed) }

def cycle (s : Helper) (c : Cycle) : Helper :=
  s.scan options (c.records fromString s.here) (c.presentRecords s.here) c.elapsed c.today

/-- A helper that has just started under an identifier of its own. -/
def start (here : Text) (now : Nat) : Helper := { here, lastScan := now }

/-- The helper after its cycles, the latest of which comes first. -/
def run (s : Helper) : List Cycle → Helper
  | [] => s
  | c :: earlier => (run s earlier).cycle fromString options c

end Helper

end SocietyHelper.Core
