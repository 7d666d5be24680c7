import SocietyHelper.Client.Inspection

/-! # Requests to a host drive

A client sends requests to the drive of its host, asks again while the host is
busy or not done, and reports every request of a caller once. Signals call slots
that may use the client again, so a function that has called out leaves a frame
with the rest of its work, and anything may happen before that frame is resumed.
-/

namespace SocietyHelper.Client

open Library Sync

/-- Identifiers of requests, transports, inspections and snapshots, and tokens. One counter
stands for the identifiers that are drawn at random. -/
abbrev Id := Nat

structure Message where
  action : Text
  members : List (Text × Value) := []

structure Envelope where
  scope : Text
  token : Id
  message : Message

structure Snapshot where
  id : Id
  revision : Text := []
  cursor : Text := []

/-- What a request does that the client has made for itself. -/
inductive Completion where
  | inspect (id : Id)
  | describe (snapshot : Id)
  | catalog (snapshot : Snapshot)

structure DriveRequest where
  envelope : Envelope
  completion : Option Completion
  transport : Option Id := none
  pollDelay : Nat := 10

/-- Single shots that have not fired yet. -/
inductive Timer where
  | transmit (id : Id) (delay : Nat)
  | requestTimeout (id : Id)
  | inspect (id : Id)
  | inspectTimeout (id : Id)
  | refresh

/-- The rest of a function that has called out. -/
inductive Frame where
  | cancelRequests (ids : List Id) (error : Text)
  | cancelInspections (ids : List Id) (error : Text)
  | answer (id : Id) (result : Result)
  | handled (id : Id)
  | changed

/-- A response of a transport, or of the local host. -/
structure Response where
  ok : Value := .undefined
  error : Value := .undefined
  pending : Value := .undefined
  result : Option Result := none

inductive Verdict where
  | pending
  | busy
  | final (result : Result)

/-- What has been sent, and which responses have come to a request. A local host has no transport. -/
inductive Entry where
  | sent (id token : Id) (transport : Option Id)
  | answered (id : Id) (transport : Option Id) (verdict : Verdict)

/-- The client's part in a drive. `fits` says that it is active and that its account, its host and
its container are those it has registered. The last three fields are read by no function: the
identifiers that callers got, the reports and, newest first, the responses and what was sent. -/
structure Drive where
  online : Bool := false
  fits : Bool
  isLocal : Bool
  container : Text
  scope : Text
  fresh : Id := 0
  driveRequests : Table Id DriveRequest := .empty
  driveTransports : Table Id Id := .empty
  inspections : Table Id Inspection := .empty
  snapshot : Option Id := none
  refreshAgain : Bool := false
  timers : List Timer := []
  frames : List Frame := []
  returned : List Id := []
  reported : List (Id × Report) := []
  log : List Entry := []

/-- The checks that are not about the course of requests: of paths, of the document of an
inspection, of a description of the drive and of a page of its catalog. -/
structure Checks where
  drivePath : Text → Bool
  parse : Bytes → Option Information
  maximum : Nat
  described : Result → Option Text
  cataloged : Snapshot → Result → Except Text Snapshot

namespace Drive

def connected (s : Drive) : Bool := s.online && s.fits

def report (s : Drive) (id : Id) (r : Report) : Drive := { s with reported := s.reported ++ [(id, r)] }

def publicIds (s : Drive) : List Id := (s.driveRequests.filter fun _ r => r.completion.isNone).keys

def clearDrive (error : Text) (s : Drive) : Drive :=
  { s with
    snapshot := none, refreshAgain := false, driveRequests := .empty, driveTransports := .empty
    frames := .cancelRequests s.publicIds error :: s.frames }

def finishInspection (id : Id) (r : Report) (s : Drive) : Drive :=
  match s.inspections.find? id with
  | none => s
  | some _ => { s with inspections := s.inspections.erase id }.report id r

def ask (message : Message) (completion : Option Completion) (s : Drive) : Drive :=
  { s with
    fresh := s.fresh + 2
    driveRequests := s.driveRequests.insert s.fresh
      { envelope := ⟨s.scope, s.fresh + 1,
          { message with members := message.members ++ [(text "container", .string s.container)] }⟩
        completion }
    timers := s.timers ++ [.transmit s.fresh 0, .requestTimeout s.fresh]
    returned := if completion.isNone then s.returned ++ [s.fresh] else s.returned }

/-- The identifier of the new request, if there is one. -/
def requestDrive (message : Message) (completion : Option Completion) (s : Drive) : Option Id × Drive :=
  if ¬s.connected ∨ 16 ≤ s.driveRequests.rows.length then (none, s)
  else (some s.fresh, s.ask message completion)

def finishSnapshot (state : Id) (s : Drive) : Drive :=
  if s.snapshot = some state then { s with snapshot := none, frames := .changed :: s.frames } else s

def catalogPage (state : Snapshot) (s : Drive) : Drive :=
  let message : Message :=
    { action := text "drive.catalog"
      members := if state.cursor = [] then []
        else [(text "cursor", .string state.cursor), (text "revision", .string state.revision)] }
  match s.requestDrive message (some (.catalog state)) with
  | (none, s) => s.finishSnapshot state.id
  | (some _, s) => s

def refreshHost (s : Drive) : Drive :=
  if ¬s.connected then s
  else if s.snapshot.isSome then { s with refreshAgain := true }
  else
    let state := s.fresh
    match { s with fresh := s.fresh + 1, snapshot := some state }.requestDrive { action := text "drive.describe" }
      (some (.describe state)) with
    | (none, s) => s.finishSnapshot state
    | (some _, s) => s

def inspectPage (id : Id) (s : Drive) : Drive :=
  match s.inspections.find? id with
  | none => s
  | some state =>
    let r := state.request
    let message : Message :=
      { action := text "drive.inspect"
        members := [(text "path", .string r.path), (text "offset", r.offset)] ++
          if r.version.defined then [(text "version", r.version), (text "informationVersion", r.informationVersion)]
          else [] }
    match s.requestDrive message (some (.inspect id)) with
    | (none, s) => s.finishInspection id (.host (driveError (text "host_request_capacity")))
    | (some _, s) => s

def complete (c : Checks) (completion : Completion) (result : Result) (s : Drive) : Drive :=
  match completion with
  | .inspect id =>
    match s.inspections.find? id with
    | none => s
    | some state =>
      match state.page c.parse c.maximum s.container result with
      | .finished r => s.finishInspection id r
      | .again next => { s with inspections := s.inspections.insert id next }.inspectPage id
  | .describe state =>
    if s.snapshot ≠ some state then s
    else if ¬result.ok.toBool ∨ (c.described result).isSome then s.finishSnapshot state
    else s.catalogPage { id := state }
  | .catalog state =>
    if s.snapshot ≠ some state.id then s
    else if ¬result.ok.toBool then s.finishSnapshot state.id
    else match c.cataloged state result with
      | .error _ => s.finishSnapshot state.id
      | .ok next => if next.cursor = [] then s.finishSnapshot state.id else s.catalogPage { next with id := state.id }

/-- A drive without a request and its transport. -/
def without (s : Drive) (id : Id) (request : DriveRequest) : Drive :=
  { s with
    driveRequests := s.driveRequests.erase id
    driveTransports := match request.transport with
      | some transport => s.driveTransports.erase transport
      | none => s.driveTransports }

def finishDrive (c : Checks) (id : Id) (result : Result) (s : Drive) : Drive :=
  match s.driveRequests.find? id with
  | none => s
  | some request =>
    let s := s.without id request
    match request.completion with
    | some completion => s.complete c completion result
    | none =>
      let action := request.envelope.message.action
      if result.ok.toBool ∧ (action = text "drive.write" ∨ action = text "drive.mkdir") then
        { s with frames := .answer id result :: s.frames }.refreshHost
      else s.report id (.host result)

/-- `accepted` says whether the transport has taken the request. -/
def transmitDrive (c : Checks) (id : Id) (accepted : Bool) (s : Drive) : Drive :=
  match s.driveRequests.find? id with
  | none => s
  | some request =>
    if ¬s.connected then s.finishDrive c id (driveError (text "host_disconnected"))
    else if s.isLocal then
      { s with frames := .handled id :: s.frames, log := .sent id request.envelope.token none :: s.log }
    else if ¬accepted then s.finishDrive c id (driveError (text "host_transport_unavailable"))
    else { s with
      fresh := s.fresh + 1
      driveRequests := s.driveRequests.insert id { request with transport := some s.fresh }
      driveTransports := s.driveTransports.insert s.fresh id
      log := .sent id request.envelope.token (some s.fresh) :: s.log }

def isBusy (error : Value) : Bool := error.text = text "sync_store_busy" || error.text = text "sync_endpoint_busy"

def verdict (s : Drive) (response : Response) : Verdict :=
  if ¬s.connected then .final (driveError (text "host_disconnected"))
  else if ¬response.ok.toBool then
    if isBusy response.error then .busy else .final { ok := response.ok, error := response.error }
  else if response.pending.toBool ∧ response.result.isNone then .pending
  else
    let result := response.result.getD {}
    if ¬result.ok.toBool ∧ isBusy result.error then .busy else .final (result.checked s.container)

def poll (id : Id) (request : DriveRequest) (s : Drive) : Drive :=
  { s with
    driveRequests := s.driveRequests.insert id { request with pollDelay := min 250 (request.pollDelay * 2) }
    timers := s.timers ++ [.transmit id request.pollDelay] }

def receiveDrive (c : Checks) (id : Id) (transport : Option Id) (response : Response) (s : Drive) : Drive :=
  match s.driveRequests.find? id with
  | none => s
  | some request =>
    let request := { request with transport := none }
    let verdict := s.verdict response
    let s := { s with driveRequests := s.driveRequests.insert id request, log := .answered id transport verdict :: s.log }
    match verdict with
    | .pending => s.poll id request
    | .busy =>
      { s with fresh := s.fresh + 1 }.poll id { request with envelope := { request.envelope with token := s.fresh } }
    | .final result => s.finishDrive c id result

/-- The signal `completed` of a transport. -/
def completed (c : Checks) (transport : Id) (response : Response) (s : Drive) : Drive :=
  match s.driveTransports.find? transport with
  | none => s
  | some id =>
    { s with driveTransports := s.driveTransports.erase transport }.receiveDrive c id (some transport) response

/-- The innermost function that has called out goes on. `response` is what a local host has returned. -/
def resume (c : Checks) (response : Response) (s : Drive) : Drive :=
  match s.frames with
  | [] => s
  | .cancelRequests (id :: ids) error :: frames =>
    { s with frames := .cancelRequests ids error :: frames }.report id (.host (driveError error))
  | .cancelRequests [] error :: frames =>
    { s with inspections := .empty, frames := .cancelInspections s.inspections.keys error :: frames }
  | .cancelInspections (id :: ids) error :: frames =>
    { s with frames := .cancelInspections ids error :: frames }.report id (.host (driveError error))
  | .cancelInspections [] _ :: frames => { s with frames }
  | .answer id result :: frames => { s with frames }.report id (.host result)
  | .handled id :: frames => { s with frames }.receiveDrive c id none response
  | .changed :: frames =>
    if s.refreshAgain then { s with frames, refreshAgain := false, timers := s.timers ++ [.refresh] }
    else { s with frames }

def peers (online : Bool) (s : Drive) : Drive :=
  if s.online ∧ ¬online then { s with online }.clearDrive (text "host_disconnected")
  else if ¬s.online ∧ online then { s with online }.refreshHost
  else { s with online }

def transportStop (s : Drive) : Drive := { s with online := false }.clearDrive (text "host_disconnected")

def inspectHostFile (c : Checks) (path : Text) (s : Drive) : Drive :=
  if ¬c.drivePath path ∨ '/' ∉ path ∨ ¬s.connected ∨ 8 ≤ s.inspections.rows.length then s
  else { s with
    fresh := s.fresh + 1
    inspections := s.inspections.insert s.fresh { path }
    timers := s.timers ++ [.inspect s.fresh, .inspectTimeout s.fresh]
    returned := s.returned ++ [s.fresh] }

end Drive

/-! ## Callers -/

inductive Call where
  | listHostDirectory (path cursor version : Text)
  | statHostEntry (path : Text)
  | readHostFile (path : Text) (offset : Int) (version : Text)
  | writeHostFile (path : Text) (data : Bytes)
  | createHostDirectory (path : Text)

/-- The message of a call, if its arguments pass. -/
def Call.message (c : Checks) : Call → Option Message
  | .listHostDirectory path cursor version =>
    if (path ≠ [] ∧ ¬c.drivePath path) ∨
        (cursor ≠ [] ∧ ('/' ∈ cursor ∨ ¬c.drivePath (path ++ '/' :: cursor) ∨ version = [])) then none
    else some
      { action := text "drive.list"
        members := (text "path", .string path) :: ((if cursor = [] then [] else [(text "cursor", .string cursor)]) ++
          if version = [] then [] else [(text "version", .string version)]) }
  | .statHostEntry path =>
    if c.drivePath path then some { action := text "drive.stat", members := [(text "path", .string path)] } else none
  | .readHostFile path offset version =>
    if ¬c.drivePath path ∨ '/' ∉ path ∨ offset < 0 ∨ (maxCounter : Int) < offset ∨ 256 < utf16Size version then none
    else some
      { action := text "drive.read"
        members := [(text "path", .string path), (text "offset", .string (decimalInt offset))] ++
          if version = [] then [] else [(text "version", .string version)] }
  | .writeHostFile path data =>
    if ¬c.drivePath path ∨ '/' ∉ path ∨ chunkBytes < data.length then none
    else some
      { action := text "drive.write"
        members := [(text "path", .string path), (text "data", .string (Base64.encode data))] }
  | .createHostDirectory path =>
    if c.drivePath path ∧ '/' ∈ path then
      some { action := text "drive.mkdir", members := [(text "path", .string path)] }
    else none

/-- Whatever may happen to a client: calls, timers in any order, responses that may come late or
repeatedly, returns of slots, changes of the peers, of the account and of the host. -/
inductive Event where
  | call (call : Call)
  | inspectHostFile (path : Text)
  | refreshHost
  | fire (timer : Nat) (accepted : Bool)
  | completed (transport : Id) (response : Response)
  | resume (response : Response)
  | peers (online : Bool)
  | transportStop
  | account (fits isLocal : Bool) (container scope : Text)

namespace Drive

def fire (c : Checks) (accepted : Bool) (timer : Timer) (s : Drive) : Drive :=
  match timer with
  | .transmit id _ => s.transmitDrive c id accepted
  | .requestTimeout id => s.finishDrive c id (driveError (text "host_request_timeout"))
  | .inspect id => s.inspectPage id
  | .inspectTimeout id => s.finishInspection id (.host (driveError (text "host_request_timeout")))
  | .refresh => s.refreshHost

def step (c : Checks) (s : Drive) : Event → Drive
  | .call call => match call.message c with
    | none => s
    | some message => (s.requestDrive message none).2
  | .inspectHostFile path => s.inspectHostFile c path
  | .refreshHost => s.refreshHost
  | .fire i accepted => match s.timers[i]? with
    | none => s
    | some timer => { s with timers := s.timers.eraseIdx i }.fire c accepted timer
  | .completed transport response => s.completed c transport response
  | .resume response => s.resume c response
  | .peers online => s.peers online
  | .transportStop => s.transportStop
  | .account fits isLocal container scope => { s with fits, isLocal, container, scope }

def run (c : Checks) (s : Drive) (events : List Event) : Drive := events.foldl (step c) s

end Drive

end SocietyHelper.Client
