import SocietyHelper.Library.Effect
import SocietyHelper.Library.Table
import SocietyHelper.Sync.Record

/-! # The delivery store

Messages wait in an outbox until the daemon moves them into the inbox, in
batches inside one transaction. Consumers read the inbox behind a cursor that
they acknowledge. All processes share one database; a failed transaction leaves
no trace in it.
-/

namespace SocietyHelper.Delivery

open Library Effect

structure Message where
  id : Text
  sender : Bytes
  topic : Text
  payload : Bytes
  queuedAt : Text
  deriving DecidableEq

/-- `rowid` is the implicit key that the outbox is ordered by. -/
structure OutboxRow where
  rowid : Int
  message : Message
  deriving DecidableEq

structure InboxRow where
  sequence : Int
  message : Message
  receivedAt : Text
  deriving DecidableEq

/-- `lastSequence` is what the database remembers of the inbox's own counter; `faults` says of each
coming statement whether it fails. -/
structure Store where
  outbox : List OutboxRow := []
  inbox : List InboxRow := []
  lastSequence : Int := 0
  consumers : Table Text Int := .empty
  faults : List Bool := []

/-- The instance that sends a message, and its record as it is stored. -/
structure Peer where
  applicationId : Text
  instanceId : Text
  json : Bytes

namespace Store

def refused : Text := text "database error"

/-- One statement; `none` stands for a violated constraint. -/
def statement (write : Store → Option Store) : Effect Store Unit := fun s =>
  match s.faults with
  | true :: faults => .error refused { s with faults }
  | faults =>
    match write s with
    | some t => .ok () { t with faults := faults.tail }
    | none => .error refused { s with faults := faults.tail }

def ready : Effect Store Unit := statement some

def restore (before after : Store) : Store := { before with faults := after.faults }

def nameCharacter (c : Char) : Bool := c.isAlphanum || c = '.' || c = '_' || c = '-'

/-- Names of topics and consumers. The expression ends with `$`, so one line end may follow. -/
def validName (value : Text) : Bool :=
  let name := if value.getLast? = some '\n' then value.dropLast else value
  match name with
  | [] => false
  | c :: rest => c.isAlphanum && rest.length ≤ 127 && rest.all nameCharacter

/-! ## The two queues -/

/-- The key that a new row of the outbox is given: one more than the largest. -/
def nextRowid (rows : List OutboxRow) : Int := ((rows.map OutboxRow.rowid).max?).getD 0 + 1

def insertOutbox (message : Message) (s : Store) : Option Store :=
  if s.outbox.any fun r => r.message.id = message.id then none
  else some { s with outbox := s.outbox ++ [⟨nextRowid s.outbox, message⟩] }

/-- The largest sequence of the inbox, 0 where it is empty. -/
def maxSequence (s : Store) : Int := ((s.inbox.map InboxRow.sequence).max?).getD 0

/-- Add a message to the inbox unless it is there; sequences are never given twice. -/
def insertInbox (now : Text) (message : Message) (s : Store) : Option Store :=
  if s.inbox.any fun r => r.message.id = message.id then some s
  else
    let sequence := max s.lastSequence (maxSequence s) + 1
    some { s with inbox := s.inbox ++ [⟨sequence, message, now⟩], lastSequence := sequence }

def removeOutbox (id : Text) (s : Store) : Option Store :=
  some { s with outbox := s.outbox.filter fun r => r.message.id ≠ id }

/-- Queue a message under a new id; the answer is the id. -/
def enqueue (sender : Peer) (topic : Text) (payload : Bytes) (id now : Text) : Effect Store Text := do
  ready
  if ¬validName topic ∨ sender.applicationId = [] ∨ ¬Sync.uuid sender.instanceId ∨ 65536 < payload.length then
    throw (text "Provide a valid topic, sender instance and JSON object no larger than 64 KiB.")
  else
    statement (insertOutbox { id, sender := sender.json, topic, payload, queuedAt := now })
    pure id

/-- The outbox in the order of its keys. -/
def pending (s : Store) : List OutboxRow := s.outbox.insertionSort fun a b => a.rowid ≤ b.rowid

def receiveAll (now : Text) : List OutboxRow → Effect Store Unit
  | [] => pure ()
  | row :: rows => do
    statement (insertInbox now row.message)
    statement (removeOutbox row.message.id)
    receiveAll now rows

/-- Move the oldest messages into the inbox; the answer is their number. -/
def receivePending (limit : Int) (now : Text) : Effect Store Nat := do
  ready
  if limit < 1 ∨ 256 < limit then throw (text "Receipt batch size must be 1–256.")
  else
    statement some
    rollback restore do
      statement some
      let s ← get
      let rows := (pending s).take limit.toNat
      receiveAll now rows
      statement some
      pure rows.length

/-! ## Consumers -/

def readAfter (sequence limit : Int) : Effect Store (List InboxRow) := do
  ready
  if sequence < 0 ∨ limit < 1 ∨ 256 < limit then throw (text "Invalid Society inbox cursor or page size.")
  else
    statement some
    let s ← get
    pure (((s.inbox.filter fun r => sequence < r.sequence).insertionSort fun a b => a.sequence ≤ b.sequence).take limit.toNat)

/-- The first statement of `acknowledge`: only what has been received can be acknowledged. -/
def checkReceived (consumer : Text) (sequence : Int) : Effect Store Unit := do
  ready
  if ¬validName consumer ∨ sequence < 0 then throw (text "Invalid Society consumer or acknowledgement.")
  else
    statement some
    let s ← get
    if maxSequence s < sequence then throw (text "Cannot acknowledge data the daemon has not received.")

/-- The second statement of `acknowledge`: a cursor never moves back. -/
def storeCursor (consumer : Text) (sequence : Int) : Effect Store Unit :=
  statement fun s => some { s with
    consumers := s.consumers.insert consumer (max ((s.consumers.find? consumer).getD sequence) sequence) }

def acknowledge (consumer : Text) (sequence : Int) : Effect Store Unit := do
  checkReceived consumer sequence
  storeCursor consumer sequence

def acknowledged (consumer : Text) : Effect Store Int := do
  ready
  statement some
  let s ← get
  pure ((s.consumers.find? consumer).getD 0)

end Store

end SocietyHelper.Delivery
