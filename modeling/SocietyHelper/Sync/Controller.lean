import SocietyHelper.Library.History
import SocietyHelper.Library.Table
import SocietyHelper.Sync.Requests

/-! # The controller of a host

Peers poll for the result of a request by sending its envelope again. The
controller keeps a table of the requests it has accepted, under the peer and the
token of the envelope; a worker runs them, and its results come back as signals.
Finished requests leave the table when they are old or when it is full.
-/

namespace SocietyHelper.Sync

open Library

deriving instance DecidableEq for Request

/-- What a request is answered: an error, or what the replica says. -/
abbrev Reply := Except Text Response

structure Envelope where
  op : Value := .undefined
  protocol : Value := .undefined
  namespaceVersion : Value := .undefined
  scope : Value := .undefined
  token : Value := .undefined
  message : Option Request := none
  extra : List (Text × Value) := []
  deriving DecidableEq

namespace Envelope

def members (e : Envelope) : List (Text × Text) :=
  (match e.message with
    | none => []
    | some r => [(text "message", r.json)]) ++
  Json.field (text "namespaceVersion") e.namespaceVersion ++ Json.field (text "op") e.op ++
  Json.field (text "protocol") e.protocol ++ Json.field (text "scope") e.scope ++
  Json.field (text "token") e.token ++ e.extra.flatMap fun m => Json.field m.1 m.2

def json (e : Envelope) : Text := Json.object e.members

end Envelope

structure Job where
  request : Envelope
  result : Reply := .error []
  finished : Bool := false
  created : Int
  peer : Text

/-- A call of `handleJob`: waiting in the queue of the worker, or behind a timer for another attempt. -/
structure Work where
  key : Text
  peer : Text
  message : Request
  deadline : Int

/-- What happened to a key, for the record only: the replica was asked, or a finished request left the table. -/
inductive Controller.Event where
  | executed (key peer : Text) (message : Request) (reply : Reply)
  | evicted (key : Text)

/-- A controller whose container is open. `results` are the signals that are still on their way. -/
structure Controller where
  scope : Text
  hostAccess : Bool := false
  ready : Bool := true
  authorized : List Text := []
  jobs : Table Text Job := .empty
  works : List Work := []
  results : List (Text × Reply) := []
  log : List Controller.Event := []

def busy : Text := text "sync_store_busy"

namespace Controller

/-! ## Accepting a request -/

def jobKey (peer token : Text) : Text := peer ++ '/' :: token

/-- A message that carries a file must propose it against a base. -/
def proposal [StoreLayout] (r : Request) : Bool :=
  let entry := r.entry.getD {}
  entry.baseRevision.defined && !entry.revision.defined && validRecord entry

/-- What is wrong with an envelope, whoever sends it. -/
def malformed [StoreLayout] (hostAccess : Bool) (e : Envelope) : Option Text :=
  if e.namespaceVersion ≠ .other (text "1") then some (text "namespace_authority_protocol_required")
  else match e.message with
    | none => some (text "invalid_sync_envelope")
    | some message =>
      if e.op ≠ .string (text "society.sync") ∨ e.protocol ≠ .other (text "2") ∨ ¬uuid e.token.text ∨
          410000 < utf8Size e.json then some (text "invalid_sync_envelope")
      else if hostAccess ∧ ¬(text "drive.").isPrefixOf message.action then some (text "host_access_operation_required")
      else if message.action ∈ [text "begin", text "chunk", text "commit", text "apply"] ∧ ¬proposal message then
        some (text "namespace_proposal_required")
      else if message.action ≠ text "describe" ∧ ¬uuid message.container.text then
        some (text "logical_container_required")
      else none

def refused [StoreLayout] (s : Controller) (peer : Text) (e : Envelope) : Option Text :=
  if peer ∉ s.authorized ∨ s.scope = [] ∨ e.scope.text ≠ s.scope then some (text "sync_peer_not_authorized")
  else if ¬s.ready then some (text "sync_container_unavailable")
  else malformed s.hostAccess e

/-! ## The table -/

/-- The code units that texts are compared by. -/
def codeUnits (t : Text) : List Nat :=
  t.flatMap fun c => if c.toNat < 0x10000 then [c.toNat]
    else [0xD800 + (c.toNat - 0x10000) / 0x400, 0xDC00 + (c.toNat - 0x10000) % 0x400]

def unitsLe : List Nat → List Nat → Bool
  | [], _ => true
  | _ :: _, [] => false
  | a :: s, b :: t => a < b || (a == b && unitsLe s t)

/-- The rows of the table in the order of their keys. -/
def ordered (jobs : Table Text Job) : List (Text × Job) :=
  jobs.rows.insertionSort fun a b => unitsLe (codeUnits a.1) (codeUnits b.1)

/-- Of two rows the one to be evicted: a finished row, the one that was created earlier. -/
def older (best : Option (Text × Job)) (row : Text × Job) : Option (Text × Job) :=
  match best with
  | none => if row.2.finished then some row else none
  | some b => if row.2.finished ∧ row.2.created < b.2.created then some row else some b

/-- The first of the finished rows that were created earliest. -/
def oldest (rows : List (Text × Job)) : Option (Text × Job) := rows.foldl older none

def expired (now : Int) (job : Job) : Bool := job.finished && 60000 < now - job.created

def maxJobs : Nat := 32

/-- Remove finished rows, the oldest first, until there is room for one more; false where no row can go. -/
def makeRoom : Nat → Table Text Job → Table Text Job × Bool
  | 0, jobs => (jobs, true)
  | n + 1, jobs =>
    if jobs.rows.length < maxJobs then (jobs, true)
    else match oldest (ordered jobs) with
      | none => (jobs, false)
      | some row => makeRoom n (jobs.erase row.1)

/-- The table when a new request is to be entered. -/
def vacate (now : Int) (jobs : Table Text Job) : Table Text Job × Bool :=
  let kept := jobs.filter fun _ job => !expired now job
  makeRoom kept.rows.length kept

inductive Answer where
  | failed (error : Text)
  | pending
  | result (reply : Reply)

def evictions (before after : Table Text Job) : List Event :=
  (before.keys.filter fun key => key ∉ after.keys).map .evicted

/-- An envelope that a peer delivers at some time. -/
def handle [StoreLayout] (s : Controller) (peer : Text) (e : Envelope) (now : Int) : Answer × Controller :=
  match s.refused peer e with
  | some error => (.failed error, s)
  | none =>
    let key := jobKey peer e.token.text
    match s.jobs.find? key with
    | some job =>
      if job.request ≠ e then (.failed (text "different_request_token_reuse"), s)
      else if job.finished then (.result job.result, s)
      else (.pending, s)
    | none =>
      let (jobs, room) := vacate now s.jobs
      let log := s.log ++ evictions s.jobs jobs
      if room then
        (.pending, { s with
          jobs := jobs.insert key { request := e, created := now, peer }
          works := s.works ++ [⟨key, peer, e.message.getD {}, now + 120000⟩]
          log })
      else (.failed (text "sync_endpoint_busy"), { s with jobs, log })

/-! ## The worker -/

/-- What the worker meets when it runs one call: the time before and after, whether the primary host is pinned,
whether the replica is bound to another host, and what the replica answers. -/
structure Turn where
  start : Int
  stop : Int
  pinned : Bool := true
  bound : Bool := false
  reply : Reply

def handleJob (s : Controller) (work : Work) (turn : Turn) : Controller :=
  if work.deadline ≤ turn.start then { s with results := s.results ++ [(work.key, .error (text "sync_request_timeout"))] }
  else if ¬turn.pinned then { s with results := s.results ++ [(work.key, .error (text "primary_host_unavailable"))] }
  else if turn.bound then { s with results := s.results ++ [(work.key, .error (text "mirror_cannot_be_primary_host"))] }
  else
    let log := s.log ++ [.executed work.key work.peer work.message turn.reply]
    match turn.reply with
    | .error error =>
      if error = busy ∧ turn.stop < work.deadline then { s with works := s.works ++ [work], log }
      else { s with results := s.results ++ [(work.key, turn.reply)], log }
    | .ok _ => { s with results := s.results ++ [(work.key, turn.reply)], log }

/-- A result of the worker arrives. -/
def finish (s : Controller) (key : Text) (reply : Reply) : Controller :=
  match s.jobs.find? key with
  | some job => { s with jobs := s.jobs.insert key { job with result := reply, finished := true } }
  | none => s

/-! ## Runs -/

/-- While the container stays open, envelopes are delivered and the worker takes its calls and its results
arrive in any order; the authorized peers and the availability of the store may change. -/
inductive Action where
  | deliver (peer : Text) (envelope : Envelope) (now : Int)
  | work (index : Nat) (turn : Turn)
  | arrive (index : Nat)
  | setPeers (authorized : List Text)
  | available (ready : Bool)

def perform [StoreLayout] (s : Controller) : Action → Controller
  | .deliver peer envelope now => (s.handle peer envelope now).2
  | .work index turn =>
    match s.works[index]? with
    | some work => handleJob { s with works := s.works.eraseIdx index } work turn
    | none => s
  | .arrive index =>
    match s.results[index]? with
    | some (key, reply) => finish { s with results := s.results.eraseIdx index } key reply
    | none => s
  | .setPeers authorized => { s with authorized }
  | .available ready => { s with ready }

def run [StoreLayout] (actions : List Action) (s : Controller) : Controller := actions.foldl perform s

end Controller

end SocietyHelper.Sync
