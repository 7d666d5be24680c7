import SocietyHelper.Generation.Host

/-! # A remote job

A client submits its job, asks for its status until it is completed, and reads
the image piece by piece. One request is pending at a time; an answer that does
not belong to it is ignored. A cancelled job asks for nothing but to be
cancelled.
-/

namespace SocietyHelper.Generation

open Library

/-- How a job ended, and the image where it is complete. -/
structure Finish where
  state : Text
  image : Bytes
  generation : Option Origin
  error : Text

/-- One remote job: `result` is the status of the completed job, `image` what has been read of it. -/
structure Remote where
  job : Option Input := none
  result : Option Response := none
  image : Bytes := []
  pending : Text := []
  action : Text := []
  accepted : Bool := false
  cancelled : Bool := false
  paused : Bool := false

namespace Remote

def active (r : Remote) : Bool := r.job.isSome

def jobId (r : Remote) : Value := (r.job.getD {}).id

/-- The job ends: the answer is what is signalled. -/
def complete (r : Remote) (state error : Text) : Finish × Remote :=
  ({ state, image := if state = text "completed" then r.image else [],
     generation := (r.result.getD {}).generation, error },
   { r with job := none, pending := [], image := [], result := none })

def start (r : Remote) (job : Input) : Remote :=
  if r.active ∨ ¬Sync.uuid job.id.text then r
  else { r with job := some job, result := none, image := [], pending := [], accepted := false, cancelled := false }

def setPaused (r : Remote) (paused : Bool) : Remote := { r with paused, pending := [] }

/-- The clocks that a tick looks at: the age of the pending request, and the time since the host last answered. -/
structure Clocks where
  pendingAge : Nat
  disconnected : Nat

/-- What a tick does: nothing, end the job, or send a request. -/
inductive Tick where
  | nothing (r : Remote)
  | ends (finish : Finish) (r : Remote)
  | sends (request : Request) (r : Remote)

def nextAction (r : Remote) : Text :=
  if r.cancelled then text "cancel"
  else if ¬r.accepted then text "submit"
  else if r.result.isNone then text "status"
  else text "read"

def request (r : Remote) (action : Text) : Request where
  op := .string (text "society.generation")
  schema := .other (text "1")
  action := .string action
  id := r.jobId
  job := if action = text "submit" then r.job.getD {} else {}
  offset := if action = text "read" then .other (decimal r.image.length) else .undefined

def tick (r : Remote) (clocks : Clocks) : Tick :=
  if ¬r.active ∨ r.paused then .nothing r
  else if r.pending ≠ [] ∧ clocks.pendingAge < 10000 then .nothing r
  else if 120000 < clocks.disconnected then
    let error := if r.cancelled
      then text "The host could not confirm cancellation. Reconnect to Society to inspect the host job."
      else text "The Society host is unavailable. Reconnect and try again."
    let (finish, ended) := { r with pending := [] }.complete (text "failed") error
    .ends finish ended
  else .sends (r.request r.nextAction) { r with pending := [], action := r.nextAction }

/-- Where a job is cancelled its pending request is forgotten; a tick follows. -/
def cancel (r : Remote) : Remote :=
  if r.active then { r with cancelled := true, pending := [] } else r

/-! ## Answers -/

/-- Errors of the transport: the request is repeated. -/
def transportErrors : List Text :=
  [text "timeout", text "peer_unavailable", text "host_unavailable", text "disconnected", text "connection_lost",
    text "not_connected_or_busy", text "stopped", text "transport_unavailable"]

/-- What an answer leads to: the job goes on or ends. -/
inductive Step where
  | goes (r : Remote)
  | ends (finish : Finish) (r : Remote)

def fails (r : Remote) (error : Text) : Step :=
  let (finish, ended) := r.complete (text "failed") error
  .ends finish ended

def receiveRead (r : Remote) (response : Response) : Step :=
  let size := toInteger (r.result.getD {}).bytes 0
  match Base64.decode response.data.text with
  | none => r.fails (text "The remote image transfer is invalid.")
  | some decoded =>
    if 350000 < response.data.text.length ∨ decoded = [] ∨ toInteger response.offset (-1) ≠ r.image.length ∨
        size < r.image.length + decoded.length then r.fails (text "The remote image transfer is invalid.")
    else
      let grown := { r with image := r.image ++ decoded }
      if (grown.image.length : Int) = size then
        if sha256 grown.image ≠ (r.result.getD {}).sha256.text then
          grown.fails (text "The remote image checksum does not match.")
        else
          let (finish, ended) := grown.complete (text "completed") []
          .ends finish ended
      else .goes grown

/-- The status in an answer, once the job is accepted. -/
def receiveStatus (r : Remote) (response : Response) : Step :=
  let state := response.state.text
  if state = text "failed" ∨ state = text "cancelled" then
    let (finish, ended) := r.complete state response.error.text
    .ends finish ended
  else if state = text "completed" then
    let bytes := toInteger response.bytes 0
    if bytes ≤ 0 ∨ 64 * 1024 * 1024 < bytes ∨ utf16Size response.sha256.text ≠ 64 then
      r.fails (text "The remote image exceeds the supported transfer size.")
    else
      let known := { r with result := some response }
      if r.cancelled then
        let (finish, ended) := known.complete (text "cancelled") []
        .ends finish ended
      else .goes known
  else if state ≠ text "queued" ∧ state ≠ text "running" ∧ state ≠ text "cancelling" then
    r.fails (text "The Society host returned an invalid job state.")
  else .goes r

/-- What the first part of `receive` decides: it is over, or the status of the answer is looked at, where
`announce` says whether the application is told first that the job was accepted. -/
inductive Received where
  | over (step : Step)
  | status (announce : Bool) (r : Remote)

def receive (r : Remote) (id : Text) (response : Response) : Received :=
  if ¬r.active ∨ r.paused ∨ id ≠ r.pending ∨ id = [] then .over (.goes r)
  else
    let r := { r with pending := [] }
    if ¬response.ok.toBool then
      let error := response.error.text
      if error ∈ transportErrors then .over (.goes r)
      else .over (r.fails (if error = [] then text "The Society host rejected remote generation." else error))
    else if toInteger response.schema 0 ≠ 1 ∨ response.id ≠ r.jobId then
      .over (r.fails (text "The Society host returned an invalid generation response."))
    else if r.action = text "read" then .over (r.receiveRead response)
    else if ¬r.accepted ∧ r.action = text "submit" then .status true { r with accepted := true }
    else .status false r

end Remote

end SocietyHelper.Generation
