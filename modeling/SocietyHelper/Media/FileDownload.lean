import SocietyHelper.Sync.Requests

/-! # One explicit download

A selected file is fetched from the host of its container. The session lives on
the thread of the interface; a worker with a thread of its own hands the bytes to
the local replica, one posted operation after the other. Both sides only see each
other through queues, so a step here is what one of them does without waiting.
-/

namespace SocietyHelper.Media

open Library Sync

/-! ## The worker -/

/-- What a replica is bound to. -/
structure Binding where
  container : Value := .undefined
  scope : Value := .undefined
  host : Value := .undefined
  complete : Value := .undefined
  others : List (Text × Value) := []
  deriving DecidableEq

structure Result where
  ok : Bool
  error : Value := .undefined
  complete : Bool := false
  offset : Value := .undefined
  size : Value := .undefined
  binding : Binding := {}

def failure (error : Text) : Result := { ok := false, error := .string error }

/-- The file that a session has selected, in the container it was selected in. -/
structure Order where
  root : Text
  id : Text
  key : Text
  version : Text
  deriving DecidableEq

inductive Operation where
  | prepare (o : Order)
  | chunk (position : Int) (encoded : Text)
  | commit
  deriving DecidableEq

/-- One turn of the loop around a busy store: whether the session is cancelled before it, what the
store answers and whether the two seconds are over behind it. -/
structure Try where
  cancelled : Bool := false
  answer : Result
  late : Bool := false

/-- Where the tries are over, the session is cancelled. -/
def retryBusy : List Try → Result
  | [] => failure (text "cancelled")
  | t :: rest =>
    if t.cancelled then failure (text "cancelled")
    else if t.answer.error ≠ .string (text "sync_store_busy") ∨ t.late then t.answer
    else retryBusy rest

/-- What the replica of the worker does in one operation. -/
structure Attempt where
  binding : Binding := {}
  opens : Bool := true
  errorString : Text := []
  containerId : Text := []
  bound : Binding := {}
  record : Sync.Entry := {}
  tries : List Try := []
  publishing : List Try := []

structure DownloadWorker where
  replica : Bool := false
  entry : Sync.Entry := {}
  binding : Binding := {}

namespace DownloadWorker

def close (_ : DownloadWorker) : DownloadWorker := {}

/-- The message that reaches the replica, with the entry that was selected. -/
def message (w : DownloadWorker) (r : Request) : Request :=
  { r with entry := some w.entry, expectedVersion := w.entry.version }

/-- The message is passed on once at least unless the session is cancelled before. -/
def handle (w : DownloadWorker) (r : Request) (tries : List Try) : Result × Option Request :=
  if ¬w.replica then (failure (text "download_closed"), none)
  else (retryBusy tries, if tries.head?.any fun t => !t.cancelled then some (w.message r) else none)

def prepare (o : Order) (a : Attempt) : Result × Option Request × DownloadWorker :=
  let w : DownloadWorker := { binding := a.binding }
  if a.binding.container ≠ .string o.id ∨ ¬a.binding.complete.toBool then
    (failure (text "download_replica_unavailable"), none, w)
  else
    let w := { w with replica := true }
    if ¬a.opens then (failure a.errorString, none, w)
    else if a.containerId ≠ o.id ∨ a.bound ≠ a.binding then (failure (text "remote_container_changed"), none, w)
    else
      let w := { w with entry := a.record }
      if ¬a.record.isKind file ∨ a.record.version ≠ .string o.version then
        (failure (text "object_changed_select_again"), none, w)
      else
        let (result, sent) := w.handle { action := text "begin" } a.tries
        ({ result with size := a.record.size, binding := a.binding }, sent, w)

def commit (w : DownloadWorker) (a : Attempt) : Result × Option Request :=
  let (result, sent) := w.handle { action := text "commit" } a.tries
  if result.ok then (retryBusy a.publishing, sent) else (result, sent)

def perform (w : DownloadWorker) (a : Attempt) : Operation → Result × Option Request × DownloadWorker
  | .prepare o => prepare o a
  | .chunk position encoded =>
    let (result, sent) := w.handle
      { action := text "chunk", offset := .string (decimalInt position), data := .string encoded } a.tries
    (result, sent, w)
  | .commit =>
    let (result, sent) := w.commit a
    (result, sent, w)

end DownloadWorker

/-! ## The session -/

/-- What the drive shows of a file. -/
structure FileAlias where
  name : Value := .undefined
  «exists» : Bool := false
  available : Bool := false
  containerId : Value := .undefined
  version : Value := .undefined

/-- What the host answers to a question about a file. -/
structure Response where
  ok : Bool
  error : Value := .undefined
  path : Value := .undefined
  kind : Value := .undefined
  size : Value := .undefined
  version : Value := .undefined
  offset : Value := .undefined
  data : Value := .undefined
  eof : Value := .undefined

/-- What is asked of the host. -/
inductive Question where
  | stat (key : Text)
  | read (key : Text) (offset : Int) (version : Text)
  deriving DecidableEq

/-- What becomes of the result of an operation. -/
inductive Callback where
  | prepared
  | stored (next : Int)
  | committed
  deriving DecidableEq

structure Post where
  generation : Nat
  operation : Operation
  callback : Callback

inductive Job where
  | close
  | post (p : Post)

/-- What a step reads of the world around it. A step that looks at the drive more than once reads
two of these; `resynchronized` is the drive as the signal of a synchronization finds it. -/
structure Surroundings where
  storage : Option (Text × Text) := none
  resynchronized : Option (Text × Text) := none
  file : FileAlias := {}
  client : Bool := true
  hosted : Bool := true
  connected : Bool := true
  hostBinding : Binding := {}
  token : Text := []
  ticked : Bool := true

/-- What happens, in the order in which it happens. -/
inductive Output where
  | started (session : Nat) (o : Order) (available : Bool)
  | asked (session : Nat) (token : Text) (q : Question)
  | performed (session : Nat) (op : Operation) (sent : Option Request) (r : Result)
  | ready (session : Nat) (file : FileAlias)

/-- What the interface shows. -/
structure Shown where
  state : Text := text "idle"
  key : Text := []
  containerId : Text := []
  name : Value := .undefined
  completed : Int := 0
  total : Int := 0
  error : Text := []

/-- A session with its worker; `cancelled` holds the sessions whose flag has been raised, and
`log` is read by no function. -/
structure FileDownload where
  epoch : Nat := 0
  cancelled : List Nat := [0]
  value : Shown := {}
  root : Text := []
  id : Text := []
  key : Text := []
  request : Text := []
  nativeVersion : Text := []
  binding : Binding := {}
  offset : Int := 0
  total : Int := 0
  active : Bool := false
  prepared : Bool := false
  pending : Bool := false
  deadline : Bool := false
  scheduled : List Nat := []
  worker : Option DownloadWorker := none
  jobs : List Job := []
  running : Option Post := none
  results : List (Post × Result) := []
  log : List Output := []

namespace FileDownload

variable (s : FileDownload)

def note (o : Output) : FileDownload := { s with log := s.log ++ [o] }

def sameStorage (storage : Option (Text × Text)) : Bool := storage = some (s.id, s.root)

def closeWorker : FileDownload := if s.worker.isSome then { s with jobs := s.jobs ++ [.close] } else s

def post (operation : Operation) (callback : Callback) : FileDownload :=
  { s with
    worker := some (s.worker.getD {})
    pending := true
    jobs := s.jobs ++ [.post { generation := s.epoch, operation, callback }] }

def finish (state error : Text) : FileDownload :=
  { s with
    active := false
    prepared := false
    pending := false
    request := []
    deadline := false
    cancelled := s.epoch :: s.cancelled
    value := { s.value with state, error, completed := s.offset } }.closeWorker

def accepted (r : Result) : Except FileDownload Unit :=
  if r.ok then .ok ()
  else .error (s.finish (text "failed") (if r.error.isString then r.error.text else text "download_failed"))

/-- The file is in place: it is looked up once more before it is shown. -/
def complete (c : Surroundings) : FileDownload :=
  if ¬s.sameStorage c.storage then s.finish (text "cancelled") (text "remote_container_changed")
  else
    let s := if s.active ∧ ¬s.sameStorage c.resynchronized then
        s.finish (text "cancelled") (text "remote_container_changed")
      else s
    if ¬c.file.available ∨ ¬c.file.exists ∨ c.file.containerId ≠ .string s.id then
      s.finish (text "failed") (text "downloaded_file_unavailable")
    else ({ s with offset := s.total }.finish (text "ready") []).note (.ready s.epoch c.file)

/-- Ask the host; without a transport there is no token. -/
def ask (q : Question) (token : Text) : FileDownload :=
  if token = [] then s.finish (text "failed") (text "host_transport_unavailable")
  else { s with request := token, deadline := true }.note (.asked s.epoch token q)

def sameHost (session binding : Binding) : Bool :=
  session.scope = binding.scope && session.host = binding.host && session.container = binding.container

def advance (c : Surroundings) : FileDownload :=
  if ¬s.active ∨ ¬s.prepared ∨ s.pending ∨ s.request ≠ [] ∨ ¬c.client then s
  else if ¬s.sameStorage c.storage then s.finish (text "cancelled") (text "remote_container_changed")
  else if ¬c.connected then s
  else if ¬sameHost c.hostBinding s.binding then s.finish (text "failed") (text "remote_container_changed")
  else
    let s := { s with value.state := text "downloading" }
    if s.nativeVersion = [] then s.ask (.stat s.key) c.token
    else if s.offset < s.total then s.ask (.read s.key s.offset s.nativeVersion) c.token
    else { s with value.state := text "verifying", deadline := true }.post .commit .committed

/-! ## The host -/

def chunkBytes : Int := Replica.chunkBytes

/-- The answer is about the selected file in the version that was found first. -/
def validFile (r : Response) : Bool :=
  r.path = .string s.key && r.kind = .string file && toLongLong r.size.text = some s.total && r.version.text ≠ [] &&
    (s.nativeVersion = [] || r.version.text = s.nativeVersion)

/-- The bytes of a chunk that continues the file without a gap. -/
def chunkOf (r : Response) : Option Bytes :=
  match Base64.decode r.data.text with
  | some bytes =>
    if utf16Size r.data.text ≤ (Replica.chunkBytes + 2) / 3 * 4 ∧ toLongLong r.offset.text = some s.offset ∧
        r.data.isString ∧ (bytes.length : Int) = min chunkBytes (s.total - s.offset) ∧
        Base64.encode bytes = r.data.text ∧ r.eof = .bool (s.offset + bytes.length = s.total) then some bytes
    else none
  | none => none

def response (token : Text) (r : Response) (c c' : Surroundings) : FileDownload :=
  if ¬s.active ∨ token ≠ s.request then s
  else
    let s := { s with request := [] }
    if ¬r.ok then s.finish (text "failed") r.error.text
    else if ¬s.sameStorage c.storage then s.finish (text "cancelled") (text "remote_container_changed")
    else if ¬s.validFile r then s.finish (text "failed") (text "invalid_download_response")
    else if s.nativeVersion = [] then { s with nativeVersion := r.version.text }.advance c'
    else match s.chunkOf r with
      | none => s.finish (text "failed") (text "invalid_download_chunk")
      | some bytes => s.post (.chunk s.offset r.data.text) (.stored (s.offset + bytes.length))

/-! ## Results of the worker -/

def prepared_ (r : Result) (c c' : Surroundings) : FileDownload :=
  match s.accepted r with
  | .error s => s
  | .ok _ =>
    match toLongLong r.size.text, toLongLong (if r.offset.isString then r.offset.text else text "0") with
    | some total, some offset =>
      let s := { s with total, offset }
      if offset < 0 ∨ total < offset then s.finish (text "failed") (text "invalid_download_size")
      else
        let s := { s with value.total := total, value.completed := offset }
        if r.complete then s.complete c
        else
          let s := { s with binding := r.binding, prepared := true, value.state := text "connecting" }
          if ¬c.client ∨ ¬c.hosted then s.finish (text "failed") (text "host_session_unavailable")
          else s.advance c'
    | total, offset =>
      { s with total := total.getD 0, offset := offset.getD 0 }.finish (text "failed") (text "invalid_download_size")

def stored (next : Int) (r : Result) (c c' : Surroundings) : FileDownload :=
  match s.accepted r with
  | .error s => s
  | .ok _ =>
    let s := { s with offset := next, deadline := true }
    let s := if c.ticked ∨ s.offset = s.total then { s with value.completed := s.offset } else s
    s.advance c'

def committed (r : Result) (c : Surroundings) : FileDownload :=
  match s.accepted r with
  | .error s => s
  | .ok _ => s.complete c

def callback (f : Callback) (r : Result) (c c' : Surroundings) : FileDownload :=
  match f with
  | .prepared => s.prepared_ r c c'
  | .stored next => s.stored next r c c'
  | .committed => s.committed r c

/-- The result that has waited longest; that of another session, or of a cancelled one, is dropped. -/
def deliver (c c' : Surroundings) : FileDownload :=
  match s.results with
  | [] => s
  | (p, r) :: rest =>
    let s := { s with results := rest }
    if p.generation ≠ s.epoch ∨ p.generation ∈ s.cancelled then s
    else { s with pending := false }.callback p.callback r c c'

/-- The worker takes its next job. An operation of a cancelled session is answered at once. -/
def take : FileDownload :=
  match s.running, s.jobs with
  | none, .close :: rest => { s with jobs := rest, worker := s.worker.map DownloadWorker.close }
  | none, .post p :: rest =>
    if p.generation ∈ s.cancelled then
      { s with jobs := rest, results := s.results ++ [(p, failure (text "cancelled"))] }
    else { s with jobs := rest, running := some p }
  | _, _ => s

/-- The worker carries out the operation that it has taken. -/
def perform (a : Attempt) : FileDownload :=
  match s.running with
  | none => s
  | some p =>
    let (r, sent, worker) := (s.worker.getD {}).perform a p.operation
    { s with running := none, worker := some worker, results := s.results ++ [(p, r)] }.note
      (.performed p.generation p.operation sent r)

/-! ## The interface -/

def cancel : FileDownload := if s.active then s.finish (text "cancelled") [] else s

def timeout : FileDownload := if s.deadline then s.finish (text "failed") (text "download_timeout") else s

/-- The order of a new session, as the drive shows its file. -/
def order (key id : Text) (c : Surroundings) : Order :=
  { root := (c.storage.map Prod.snd).getD [], id, key, version := c.file.version.text }

def begin [StoreLayout] (key id : Text) (c : Surroundings) : FileDownload :=
  let o := order key id c
  let s : FileDownload := { s.cancel with
    epoch := s.epoch + 1
    key
    id
    root := o.root
    offset := 0
    total := 0
    nativeVersion := []
    binding := {}
    value := { state := text "preparing", key, containerId := id } }
  if ¬s.sameStorage c.storage ∨ physical key = [] then s.finish (text "failed") (text "remote_container_changed")
  else
    let s := { s with value.name := c.file.name }
    if ¬c.file.exists then s.finish (text "failed") (text "download_file_not_found")
    else
      let s := { s with active := true, deadline := true }.note (.started s.epoch o c.file.available)
      if c.file.available then { s with scheduled := s.scheduled ++ [s.epoch] }
      else s.post (.prepare o) .prepared

/-- Selecting the active file again does not start another session. -/
def start [StoreLayout] (key id : Text) (c c' : Surroundings) : FileDownload :=
  if s.active ∧ s.key = key ∧ s.id = id ∧ s.sameStorage c.storage then s else s.begin key id c'

/-- The completion of a file that was there at once. -/
def later (c : Surroundings) : FileDownload :=
  match s.scheduled with
  | [] => s
  | n :: rest =>
    let s := { s with scheduled := rest }
    if s.active ∧ s.epoch = n then s.complete c else s

def storageChanged (c : Surroundings) : FileDownload :=
  if s.active ∧ ¬s.sameStorage c.storage then s.finish (text "cancelled") (text "remote_container_changed") else s

end FileDownload

inductive Event where
  | start (key id : Text) (c c' : Surroundings)
  | cancel
  | timeout
  | later (c : Surroundings)
  | storageChanged (c : Surroundings)
  | clientChanged (c : Surroundings)
  | response (token : Text) (r : Response) (c c' : Surroundings)
  | take
  | perform (a : Attempt)
  | deliver (c c' : Surroundings)

namespace FileDownload

def step [StoreLayout] (s : FileDownload) : Event → FileDownload
  | .start key id c c' => s.start key id c c'
  | .cancel => s.cancel
  | .timeout => s.timeout
  | .later c => s.later c
  | .storageChanged c => s.storageChanged c
  | .clientChanged c => s.advance c
  | .response token r c c' => s.response token r c c'
  | .take => s.take
  | .perform a => s.perform a
  | .deliver c c' => s.deliver c c'

def run [StoreLayout] (s : FileDownload) (events : List Event) : FileDownload := events.foldl step s

end FileDownload

end SocietyHelper.Media
