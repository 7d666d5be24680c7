import SocietyHelper.Library.Base64
import SocietyHelper.Library.Json
import SocietyHelper.Library.Sha256
import SocietyHelper.Library.Table
import SocietyHelper.Sync.Record

/-! # The host of remote generation

Jobs are queued under the id that their owner chose and run one after the other.
The engine runs on a thread of its own: it ends, what it made is saved, and only
then is the host told. A cancelled job keeps its record, so a submission that
comes late finds it.
-/

namespace SocietyHelper.Generation

open Library

/-! ## Messages -/

/-- A number as it stands in a message; anything else counts as the default. -/
def toInteger (v : Value) (default : Int) : Int :=
  match v with
  | .other t => (toLongLong t).getD default
  | _ => default

def integer (v : Value) (minimum maximum : Int) : Bool :=
  match v with
  | .other t => match toLongLong t with
    | some n => minimum ≤ n && n ≤ maximum
    | none => false
  | _ => false

structure ModelReference where
  format : Value := .undefined
  extra : List (Text × Value) := []
  deriving DecidableEq

structure Input where
  id : Value := .undefined
  prompt : Value := .undefined
  model : ModelReference := {}
  width : Value := .undefined
  height : Value := .undefined
  steps : Value := .undefined
  seed : Value := .undefined
  extra : List (Text × Value) := []
  deriving DecidableEq

def Input.isEmpty (input : Input) : Bool := input = {}

structure Request where
  op : Value := .undefined
  schema : Value := .undefined
  action : Value := .undefined
  id : Value := .undefined
  job : Input := {}
  offset : Value := .undefined
  deriving DecidableEq

/-- How an image was made, as the status of its job tells it. -/
structure Origin where
  seed : Int
  model : ModelReference
  width : Int
  height : Int
  steps : Int
  deriving DecidableEq

structure Response where
  ok : Value := .undefined
  error : Value := .undefined
  schema : Value := .undefined
  id : Value := .undefined
  state : Value := .undefined
  phase : Value := .undefined
  step : Value := .undefined
  total : Value := .undefined
  bytes : Value := .undefined
  sha256 : Value := .undefined
  offset : Value := .undefined
  data : Value := .undefined
  generation : Option Origin := none
  deriving DecidableEq

def failure (error : Text) : Response := { ok := .bool false, error := .string error }

def queued : Value := .string (text "queued")
def running : Value := .string (text "running")
def cancelling : Value := .string (text "cancelling")
def cancelled : Value := .string (text "cancelled")
def completed : Value := .string (text "completed")
def failed : Value := .string (text "failed")

/-! ## The state of a host -/

structure Job where
  peer : Text
  input : Input := {}
  status : Response
  cancelled : Bool := false

structure Result where
  error : Text := []
  hash : Text := []
  bytes : Nat := 0
  cancelled : Bool := false

/-- What the thread of a run does: the engine works, an image waits to be saved, or the result is there. -/
inductive Phase where
  | engine
  | encoded (png : Bytes)
  | done (result : Result)

structure Run where
  id : Text
  phase : Phase := .engine

def Run.isDone (run : Run) : Bool :=
  match run.phase with
  | .done _ => true
  | _ => false

/-- What the engine reports while it runs. -/
structure Progress where
  stage : Text
  step : Nat
  total : Nat

/-- A host whose container is open. `runs` are all runs of the engine that were started; the last one is watched,
and `signalled` says whether the host was told of its end. -/
structure Host where
  jobs : Table Text Job := .empty
  queue : List Text := []
  runs : List Run := []
  signalled : Bool := true
  active : Text := []
  reports : List (Text × Progress) := []
  files : Table Text Bytes := .empty

namespace Host

def identifier (id : Text) : Bool :=
  Sync.uuid id && id.length = 36 && id.all fun c => !('A' ≤ c && c ≤ 'F')

/-- The blanks that a prompt is trimmed of. -/
def blank (c : Char) : Bool :=
  (9 ≤ c.toNat && c.toNat ≤ 13) || c.toNat = 32 || c.toNat = 0x85 || c.toNat = 0xA0 || c.toNat = 0x1680 ||
    (0x2000 ≤ c.toNat && c.toNat ≤ 0x200A) || c.toNat = 0x2028 || c.toNat = 0x2029 || c.toNat = 0x202F ||
    c.toNat = 0x205F || c.toNat = 0x3000

def setStatus (s : Host) (id : Text) (update : Response → Response) : Host :=
  match s.jobs.find? id with
  | some job => { s with jobs := s.jobs.insert id { job with status := update job.status } }
  | none => s

def isRunning (s : Host) : Bool :=
  match s.runs.getLast? with
  | some run => !run.isDone
  | none => false

/-! ## Requests -/

def invalidParameters (id : Text) (input : Input) : Bool :=
  input.id.text ≠ id || input.prompt.text.all blank || 32000 < utf16Size input.prompt.text ||
    !integer input.width 64 4096 || toInteger input.width 0 % 8 ≠ 0 ||
    !integer input.height 64 4096 || toInteger input.height 0 % 8 ≠ 0 || !integer input.steps 1 1000

def supportedFormat (model : ModelReference) : Bool :=
  model.format = .string (text "safetensors") || model.format = .string (text "unified")

def accepted (id : Text) (state : Value) : Response :=
  { ok := .bool true, schema := .other (text "1"), id := .string id, state }

/-- `modelError` is what resolving the model says, none where it is found. -/
def submit (s : Host) (peer id : Text) (input : Input) (modelError : Option Text) : Response × Host :=
  match s.jobs.find? id with
  | some job =>
    if ¬job.input.isEmpty ∧ job.input ≠ input then (failure (text "generation_id_conflict"), s)
    else (job.status, s)
  | none =>
    if invalidParameters id input then (failure (text "invalid_generation_parameters"), s)
    else if ¬supportedFormat input.model then (failure (text "remote_generation_model_format_unsupported"), s)
    else match modelError with
      | some error => (failure error, s)
      | none =>
        if 64 ≤ s.queue.length ∨ 4096 ≤ s.jobs.rows.length then (failure (text "generation_queue_full"), s)
        else
          let status := accepted id queued
          (status, { s with jobs := s.jobs.insert id { peer, input, status }, queue := s.queue ++ [id] })

/-- A job that is cancelled before it is submitted leaves a record. -/
def cancelUnknown (s : Host) (peer id : Text) : Response × Host :=
  if 4096 ≤ s.jobs.rows.length then (failure (text "generation_queue_full"), s)
  else
    let status := accepted id cancelled
    (status, { s with jobs := s.jobs.insert id { peer, status, cancelled := true } })

def cancelKnown (s : Host) (id : Text) (job : Job) : Response × Host :=
  let state := job.status.state
  if state = queued ∨ state = running ∨ state = cancelling then
    let status := { job.status with state := if state = queued then cancelled else cancelling }
    (status, { s with jobs := s.jobs.insert id { job with status, cancelled := true } })
  else (job.status, s)

def chunk : Nat := 192 * 1024

/-- `file` is what the file of the result holds, none where it cannot be opened. -/
def read (id : Text) (job : Job) (offset : Int) (file : Option Bytes) : Response :=
  match file with
  | none => failure (text "invalid_generation_result_offset")
  | some content =>
    if offset < 0 ∨ toInteger job.status.bytes 0 ≤ offset then failure (text "invalid_generation_result_offset")
    else
      let data := (content.drop offset.toNat).take chunk
      if data = [] then failure (text "generation_result_unavailable")
      else { ok := .bool true, schema := .other (text "1"), id := .string id, offset := .other (decimalInt offset),
             data := .string (Base64.encode data) }

/-- What the container says while a request is handled. -/
structure Storage where
  modelError : Option Text := none
  file : Option Bytes := none

def handle (s : Host) (peer : Text) (request : Request) (storage : Storage) : Response × Host :=
  let id := request.id.text
  let action := request.action.text
  if peer = [] then (failure (text "generation_host_unavailable"), s)
  else if request.op ≠ .string (text "society.generation") ∨ toInteger request.schema 0 ≠ 1 ∨ ¬identifier id then
    (failure (text "invalid_generation_request"), s)
  else match s.jobs.find? id with
    | none =>
      if action = text "submit" then s.submit peer id request.job storage.modelError
      else if action = text "cancel" then s.cancelUnknown peer id
      else (failure (text "generation_job_not_found"), s)
    | some job =>
      if job.peer ≠ peer then (failure (text "generation_owner_mismatch"), s)
      else if action = text "submit" then s.submit peer id request.job storage.modelError
      else if action = text "status" then (job.status, s)
      else if action = text "cancel" then s.cancelKnown id job
      else if action = text "read" ∧ job.status.state = completed then
        (read id job (toInteger request.offset (-1)) storage.file, s)
      else (failure (text "invalid_generation_action"), s)

/-! ## The queue and the engine -/

/-- Start the next job; `error` is what preparing its files says, none where all are there. -/
def pump (s : Host) (error : Option Text) : Host :=
  if s.active ≠ [] ∨ s.isRunning then s
  else match s.queue with
    | [] => s
    | id :: queue =>
      match s.jobs.find? id with
      | none => { s with queue }
      | some job =>
        if job.cancelled then { s with queue }
        else match error with
          | some error => { s with queue }.setStatus id fun status =>
            { status with state := failed, error := .string error }
          | none =>
            let origin : Origin := ⟨toInteger job.input.seed 0, job.input.model, toInteger job.input.width 0,
              toInteger job.input.height 0, toInteger job.input.steps 0⟩
            let started := { s with queue }.setStatus id fun status =>
              { status with state := running, generation := some origin }
            { started with active := id, runs := s.runs ++ [⟨id, .engine⟩], signalled := false }

/-- Whether a run sees that its job was cancelled. -/
def sees (s : Host) (run : Run) : Bool :=
  match s.jobs.find? run.id with
  | some job => job.cancelled
  | none => false

/-- How the engine ends: cancelled, with an error, or with an image, whose encoding may fail. -/
inductive Ending where
  | cancelled
  | error (error : Text)
  | image (png : Option Bytes)

def setPhase (s : Host) (i : Nat) (phase : Phase) : Host :=
  { s with runs := s.runs.modify i fun run => { run with phase } }

/-- The engine of a run returns. -/
def engineReturns (s : Host) (i : Nat) (ending : Ending) : Host :=
  match s.runs[i]? with
  | some ⟨id, .engine⟩ =>
    if s.sees ⟨id, .engine⟩ then s.setPhase i (.done { cancelled := true })
    else match ending with
      | .cancelled => s.setPhase i (.done { cancelled := true })
      | .error error => s.setPhase i (.done { error })
      | .image none => s.setPhase i (.done { error := text "Cannot encode the generated host image." })
      | .image (some png) =>
        if 64 * 1024 * 1024 < png.length then
          s.setPhase i (.done { error := text "Cannot encode the generated host image." })
        else s.setPhase i (.encoded png)
  | _ => s

/-- The image of a run is saved, unless `saved` says that it cannot be. -/
def save (s : Host) (i : Nat) (saved : Bool) : Host :=
  match s.runs[i]? with
  | some ⟨id, .encoded png⟩ =>
    if s.sees ⟨id, .encoded png⟩ then s.setPhase i (.done { cancelled := true })
    else if (s.files.find? id).isSome then
      s.setPhase i (.done { error := text "A host result already exists for this job." })
    else if ¬saved then s.setPhase i (.done { error := text "Cannot save the generated host image." })
    else { s.setPhase i (.done { bytes := png.length, hash := Library.sha256 png }) with
      files := s.files.insert id png }
  | _ => s

/-- A run reports how far it is; the host is told later. -/
def report (s : Host) (i : Nat) (progress : Progress) : Host :=
  match s.runs[i]? with
  | some ⟨id, .engine⟩ => { s with reports := s.reports ++ [(id, progress)] }
  | _ => s

def progressed (s : Host) (i : Nat) : Host :=
  match s.reports[i]? with
  | some (id, progress) =>
    { s with reports := s.reports.eraseIdx i }.setStatus id fun status =>
      { status with phase := .string progress.stage, step := .other (decimal progress.step),
                    total := .other (decimal progress.total) }
  | none => s

/-- What becomes of a job when its run is over. -/
def conclude (job : Job) (result : Result) : Response :=
  let isCancelled := result.cancelled || job.cancelled
  let state := if isCancelled then cancelled else if result.error = [] then completed else failed
  let status := { job.status with state, error := .string result.error }
  if ¬isCancelled ∧ result.error = [] then
    { status with bytes := .other (decimal result.bytes), sha256 := .string result.hash }
  else status

/-- The host is told of the end of the run that it watches, and looks at the queue. -/
def finished (s : Host) (error : Option Text) : Host :=
  match s.runs.getLast? with
  | some ⟨id, .done result⟩ =>
    if s.signalled then s
    else
      let told := { s with active := [], signalled := true }
      match s.jobs.find? id with
      | some job => { told with jobs := s.jobs.insert id { job with status := conclude job result } }.pump error
      | none => told.pump error
  | _ => s

end Host

end SocietyHelper.Generation
