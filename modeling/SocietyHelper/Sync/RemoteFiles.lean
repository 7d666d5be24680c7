import SocietyHelper.Library.Base64

/-! # Downloads from a remote drive

The owner asks the host for a file's size and version and then for one chunk
after the other. A worker on its own thread decodes the chunks, writes them to a
temporary file and publishes that file with its last chunk. The two exchange
queued calls and signals; the owner may cancel between any two steps of a worker.
-/

namespace SocietyHelper.Sync

open Library

namespace RemoteFiles

/-- What the owner and the worker read of a reply. -/
structure Result where
  ok : Bool := false
  error : Option Text := none
  entries : List Text := []
  nextCursor : Text := []
  size : Text := []
  version : Text := []
  offset : Text := []
  data : Text := []
  eof : Bool := false

/-- A call that waits in the queue of a worker. -/
inductive Call where
  | open
  | write (result : Result) (received expected : Int) (version : Text)
  | close

/-- A signal that waits in the queue of the owner. -/
inductive Signal where
  | opened (ok : Bool)
  | stored (received : Int) (destination : Option Text) (error : Text)

/-- Where a worker stands. Between any two of these points the owner may act. -/
inductive Phase where
  | idle
  | opening
  | opened (ok : Bool)
  | writing (result : Result) (received expected : Int) (version : Text)
  | wrote (eof : Bool) (received expected : Int)
  | committing (received : Int)
  | quit

inductive SaveFile where
  | null
  | closed
  | opened (bytes : Bytes)

/-- A chunk that a worker has accepted. -/
structure Chunk where
  offset : Int
  size : Int
  version : Text
  bytes : Bytes

/-- One download with its worker. The last three fields are read by no function: the size and
version that `stat` announced, the accepted chunks and the number of read requests. -/
structure Download where
  destination : Text
  cancelled : Bool := false
  calls : List Call := [.open]
  phase : Phase := .idle
  file : SaveFile := .null
  signals : List Signal := []
  announced : Option (Int × Text) := none
  accepted : List Chunk := []
  reads : Nat := 0

/-- How the file system answers a worker: whether it opens or commits a file, and where a write
falls short. -/
structure Answer where
  ok : Bool := true
  short : Option Nat := none

namespace Download

def emit (d : Download) (signal : Signal) : Download := { d with phase := .idle, signals := d.signals ++ [signal] }

def fail (d : Download) (error : String) : Download := d.emit (.stored 0 none (text error))

def changed : String := "The file changed or the transfer is incomplete."

/-- The first part of `DownloadWorker::write`, up to the bytes in the temporary file. -/
def write (d : Download) (chunkBytes : Nat) (a : Answer) (result : Result) (received expected : Int)
    (version : Text) : Download :=
  match Base64.decode result.data, toLongLong result.offset, toLongLong result.size, d.file with
  | some bytes, some offset, some size, .opened stored =>
    if offset ≠ received ∨ size ≠ expected ∨ result.version ≠ version ∨ chunkBytes < bytes.length ∨
        expected - received < bytes.length ∨ (bytes = [] ∧ received ≠ expected) then d.fail changed
    else match a.short with
      | some n => { d with file := .opened (stored ++ bytes.take n) }.fail changed
      | none => { d with
          file := .opened (stored ++ bytes)
          phase := .wrote result.eof (received + bytes.length) expected
          accepted := d.accepted ++ [⟨offset, size, result.version, bytes⟩] }
  | _, _, _, _ => d.fail changed

/-- The second part: what follows from the mark of the end. -/
def finish (d : Download) (eof : Bool) (received expected : Int) : Download :=
  if d.cancelled then { d with phase := .idle }
  else if eof then
    if received ≠ expected then d.fail "The transfer ended before the file was complete."
    else { d with phase := .committing received }
  else if received = expected then d.fail "The host returned an invalid end-of-file marker."
  else d.emit (.stored received none [])

def commit (d : Download) (a : Answer) (received : Int) : Download × Option Bytes :=
  match a.ok, d.file with
  | true, .opened bytes => ({ d with file := .null }.emit (.stored received (some d.destination) []), some bytes)
  | _, _ => ({ d with file := .closed }.fail "The downloaded file could not be saved.", none)

def start (d : Download) : Download :=
  match d.calls with
  | [] => d
  | .open :: calls => { d with calls, phase := if d.cancelled then .idle else .opening }
  | .write result received expected version :: calls =>
    { d with calls, phase := if d.cancelled then .idle else .writing result received expected version }
  | .close :: calls => { d with calls, file := .null, phase := .quit }

/-- One step of a worker, and the file that it publishes. -/
def work (d : Download) (chunkBytes : Nat) (a : Answer) : Download × Option Bytes :=
  match d.phase with
  | .idle => (d.start, none)
  | .opening => ({ d with file := if a.ok then .opened [] else .closed, phase := .opened a.ok }, none)
  | .opened ok => (if d.cancelled then { d with phase := .idle } else d.emit (.opened ok), none)
  | .writing result received expected version => (d.write chunkBytes a result received expected version, none)
  | .wrote eof received expected => (d.finish eof received expected, none)
  | .committing received => d.commit a received
  | .quit => (d, none)

/-- What `~Download` does. -/
def cancel (d : Download) : Download := { d with cancelled := true, calls := d.calls ++ [.close] }

end Download

inductive Operation where
  | none
  | list
  | opening
  | stat
  | read
  | saving
  deriving DecidableEq

structure Published where
  download : Nat
  destination : Text
  bytes : Bytes

structure State where
  status : Text := []
  host : Text := []
  path : Text := []
  cursor : Text := []
  transport : Text := []
  entries : List Text := []
  request : Text := []
  operation : Operation := .none
  downloadPath : Text := []
  version : Text := []
  received : Int := 0
  expected : Int := 0
  download : Option Nat := none
  downloads : List Download := []
  published : List Published := []
  finished : List Text := []

namespace State

def busy (s : State) : Bool := s.download.isSome || s.request ≠ []

def onDownload (s : State) (n : Nat) (f : Download → Download) : State := { s with downloads := s.downloads.modify n f }

/-- `m_download.reset()` -/
def drop (s : State) : State :=
  match s.download with
  | none => s
  | some n => { s.onDownload n Download.cancel with download := none }

def fail (s : State) (message : Text) : State := { s.drop with status := message, request := [] }

def reset (s : State) : State :=
  { s.drop with
    request := []
    operation := .none
    entries := []
    host := []
    path := []
    cursor := []
    transport := []
    status := [] }

/-- Make a request; the transport answers with its number, or with nothing. -/
def send (s : State) (operation : Operation) (id : Text) : State :=
  if id = [] then { s with operation, request := id }.fail (text "The file request failed.")
  else { s with operation, request := id }

def browse (s : State) (host path cursor id : Text) : State :=
  if s.busy then s
  else { s with
    host
    path
    cursor := []
    operation := .list
    entries := if cursor = [] then [] else s.entries
    request := id }

/-- `destination` is nothing where the URL names no absolute local path. -/
def startDownload (s : State) (path : Text) (destination : Option Text) : State :=
  if s.busy ∨ s.host = [] then s
  else match destination with
  | none => s.fail (text "Choose a local destination file.")
  | some destination => { s with
      downloadPath := path
      received := 0
      operation := .opening
      download := some s.downloads.length
      downloads := s.downloads ++ [{ destination }] }

def nextChunk (s : State) (id : Text) : State :=
  match s.download with
  | none => s.send .read id
  | some n => (s.onDownload n fun d => { d with reads := d.reads + 1 }).send .read id

def receiveStat (s : State) (n : Nat) (result : Result) (next : Text) : State :=
  match toLongLong result.size with
  | none => { s with expected := 0, version := result.version }.fail (text "The host returned invalid file metadata.")
  | some expected =>
    if expected < 0 ∨ result.version = [] then
      { s with expected, version := result.version }.fail (text "The host returned invalid file metadata.")
    else
      ({ s with expected, version := result.version }.onDownload n fun d =>
        { d with announced := some (expected, result.version) }).nextChunk next

/-- `next` is the number of the request that an accepted reply leads to. -/
def receive (s : State) (id : Text) (result : Result) (transport next : Text) : State :=
  if s.request = [] ∨ id ≠ s.request then s
  else
    let s := { s with request := [], transport }
    if result.ok = false then s.fail (result.error.getD (text "The file request failed."))
    else if s.operation = .list then
      { s with
        entries := s.entries ++ result.entries
        cursor := result.nextCursor
        status := text "Files on your device." }
    else match s.download with
    | none => s.fail (text "The download was cancelled.")
    | some n =>
      if s.operation = .stat then s.receiveStat n result next
      else { s.onDownload n fun d => { d with
          calls := d.calls ++ [.write result s.received s.expected s.version] } with operation := .saving }

def handle (s : State) (signal : Signal) (next : Text) : State :=
  match signal with
  | .opened ok => if ok then s.send .stat next else s.fail (text "The destination cannot be opened.")
  | .stored received destination error =>
    if error ≠ [] then s.fail error
    else match destination with
    | some file => { { s with received }.drop with
        status := text "Download complete.", finished := s.finished ++ [file] }
    | none => { s with received }.nextChunk next

/-- The owner takes the first signal of a download; one that was cancelled tells it nothing. -/
def deliver (s : State) (n : Nat) (next : Text) : State :=
  match s.downloads[n]? with
  | none => s
  | some d =>
    match d.signals with
    | [] => s
    | signal :: signals =>
      let s := s.onDownload n fun d => { d with signals }
      if d.cancelled then s else s.handle signal next

def work (s : State) (chunkBytes n : Nat) (a : Answer) : State :=
  match s.downloads[n]? with
  | none => s
  | some d =>
    { s with
      downloads := s.downloads.set n (d.work chunkBytes a).1
      published := s.published ++ ((d.work chunkBytes a).2.map fun bytes => ⟨n, d.destination, bytes⟩).toList }

end State

inductive Event where
  | browse (host path cursor id : Text)
  | download (path : Text) (destination : Option Text)
  | receive (id : Text) (result : Result) (transport next : Text)
  | reset
  | deliver (n : Nat) (next : Text)
  | work (n : Nat) (a : Answer)

def step (chunkBytes : Nat) (s : State) : Event → State
  | .browse host path cursor id => s.browse host path cursor id
  | .download path destination => s.startDownload path destination
  | .receive id result transport next => s.receive id result transport next
  | .reset => s.reset
  | .deliver n next => s.deliver n next
  | .work n a => s.work chunkBytes n a

def run (chunkBytes : Nat) (events : List Event) : State := events.foldl (step chunkBytes) {}

/-! ## What one worker has -/

/-- The bytes of the accepted chunks, one after the other. -/
def content (chunks : List Chunk) : Bytes := chunks.flatMap Chunk.bytes

/-- Chunks that follow one another and report the announced size and version. -/
def Accepted (expected : Int) (version : Text) (chunks : List Chunk) : Prop :=
  ∀ before c after, chunks = before ++ c :: after → c.offset = ((content before).length : Int) ∧
    c.size = expected ∧ c.version = version ∧ (after ≠ [] → c.bytes ≠ [])

theorem Accepted.concat {expected : Int} {version : Text} {chunks : List Chunk} (h : Accepted expected version chunks)
    (hfull : ∀ c ∈ chunks, c.bytes ≠ []) {c : Chunk} (hoffset : c.offset = ((content chunks).length : Int))
    (hsize : c.size = expected) (hversion : c.version = version) : Accepted expected version (chunks ++ [c]) := by
  intro before d after heq
  rcases List.eq_nil_or_concat after with rfl | ⟨rest, last, rfl⟩
  · obtain ⟨rfl, hlast⟩ := List.append_inj' heq rfl
    cases hlast
    exact ⟨hoffset, hsize, hversion, fun hne => absurd rfl hne⟩
  · rw [List.concat_eq_append, ← List.cons_append, ← List.append_assoc] at heq
    have hchunks := (List.append_inj' heq rfl).1
    obtain ⟨hd, hs, hv, -⟩ := h before d rest hchunks
    exact ⟨hd, hs, hv, fun _ => hfull d (by rw [hchunks]; simp)⟩

theorem length_le_content {chunks : List Chunk} (hfull : ∀ c ∈ chunks, c.bytes ≠ []) :
    chunks.length ≤ (content chunks).length := by
  induction chunks with
  | nil => exact Nat.le_refl 0
  | cons c chunks ih =>
    have hc := List.length_pos_iff.mpr (hfull c List.mem_cons_self)
    have hrest := ih fun d hd => hfull d (List.mem_cons_of_mem c hd)
    simp only [content, List.flatMap_cons, List.length_append, List.length_cons] at hrest ⊢
    omega

/-- A download whose temporary file has all bytes received so far, all of them from chunks that
were not empty; `outstanding` read requests are not answered by an accepted chunk yet. -/
structure Ready (d : Download) (received expected : Int) (version : Text) (outstanding : Nat) : Prop where
  announced : d.announced = some (expected, version)
  file : d.file = .opened (content d.accepted)
  length : received = ((content d.accepted).length : Int)
  full : ∀ c ∈ d.accepted, c.bytes ≠ []
  reads : d.reads = d.accepted.length + outstanding
  room : received < expected ∨ d.accepted = []
  positive : 0 ≤ expected

def CallOk (d : Download) : Call → Prop
  | .open => d.announced = none
  | .write _ received expected version => Ready d received expected version 1
  | .close => True

def SignalOk (d : Download) : Signal → Prop
  | .opened ok => d.announced = none ∧ (ok = true → d.file = .opened [])
  | .stored received none [] => ∃ expected version, received < expected ∧ Ready d received expected version 0
  | .stored _ _ _ => True

/-- A temporary file that has all the announced bytes. -/
def Whole (d : Download) (bytes : Bytes) : Prop :=
  ∃ expected version, d.announced = some (expected, version) ∧ bytes = content d.accepted ∧
    (bytes.length : Int) = expected

def PhaseOk (d : Download) : Phase → Prop
  | .idle | .quit => True
  | .opening => d.announced = none
  | .opened ok => d.announced = none ∧ (ok = true → d.file = .opened [])
  | .writing _ received expected version => Ready d received expected version 1
  | .wrote _ received expected => ∃ version, d.announced = some (expected, version) ∧
      d.file = .opened (content d.accepted) ∧ received = ((content d.accepted).length : Int) ∧ received ≤ expected ∧
      d.reads = d.accepted.length ∧ (received ≠ expected → ∀ c ∈ d.accepted, c.bytes ≠ [])
  | .committing _ => d.file = .opened (content d.accepted) ∧ Whole d (content d.accepted)

def Call.isTask : Call → Bool
  | .close => false
  | _ => true

def Phase.busy : Phase → Bool
  | .idle | .quit => false
  | _ => true

/-- How much a download has under way beside a request of its owner. -/
def tasks (d : Download) : Nat := d.calls.countP Call.isTask + (if d.phase.busy then 1 else 0) + d.signals.length

/-- Only the end of the thread waits in the queue. -/
def Quiet (calls : List Call) : Prop := ∀ c ∈ calls, c = .close

/-- What holds of a download at every time. -/
structure Valid (d : Download) : Prop where
  single : tasks d ≤ 1
  live : d.cancelled = false → .close ∉ d.calls
  closes : ∀ before after, d.calls = before ++ .close :: after → Quiet after
  calls : ∀ c ∈ d.calls, CallOk d c
  phase : PhaseOk d d.phase
  signals : d.cancelled = false → ∀ σ ∈ d.signals, SignalOk d σ
  unannounced : d.announced = none → d.accepted = [] ∧ d.reads = 0
  announced : ∀ expected version, d.announced = some (expected, version) →
    Accepted expected version d.accepted ∧ (d.reads : Int) ≤ expected + 1

theorem countP_eq_zero {calls : List Call} : calls.countP Call.isTask = 0 ↔ Quiet calls := by
  rw [List.countP_eq_zero]
  refine forall₂_congr fun c _ => ?_
  cases c <;> simp [Call.isTask]

theorem Quiet.callOk {calls : List Call} (h : Quiet calls) (d : Download) : ∀ c ∈ calls, CallOk d c := by
  intro c hc
  rw [h c hc]
  trivial

theorem Quiet.closes {calls : List Call} (h : Quiet calls) :
    ∀ before after, calls = before ++ .close :: after → Quiet after := by
  rintro before after rfl c hc
  exact h c (List.mem_append_right _ (List.mem_cons_of_mem _ hc))

theorem tasks_eq_zero {d : Download} : tasks d = 0 ↔ Quiet d.calls ∧ d.phase.busy = false ∧ d.signals = [] := by
  rw [tasks, ← countP_eq_zero, ← List.length_eq_zero_iff]
  cases d.phase.busy <;> simp

theorem PhaseOk.of_idle {d : Download} {phase : Phase} (h : phase.busy = false) : PhaseOk d phase := by
  cases phase with
  | idle => trivial
  | quit => trivial
  | _ => cases h

theorem Valid.of_busy {d : Download} (h : Valid d) (hbusy : d.phase.busy = true) : Quiet d.calls ∧ d.signals = [] := by
  have hsingle := h.single
  rw [tasks, if_pos hbusy] at hsingle
  exact ⟨countP_eq_zero.mp (by omega), List.length_eq_zero_iff.mp (by omega)⟩

theorem Valid.of_call {d : Download} (h : Valid d) {c : Call} {calls : List Call} (hcalls : d.calls = c :: calls)
    (hc : c.isTask = true) : Quiet calls ∧ d.signals = [] ∧ d.phase.busy = false := by
  have hsingle := h.single
  rw [tasks, hcalls, List.countP_cons_of_pos hc] at hsingle
  refine ⟨countP_eq_zero.mp (by omega), List.length_eq_zero_iff.mp (by omega), ?_⟩
  by_contra hbusy
  rw [if_pos (by simpa using hbusy)] at hsingle
  omega

theorem Valid.of_signal {d : Download} (h : Valid d) {σ : Signal} {signals : List Signal}
    (hsignals : d.signals = σ :: signals) : Quiet d.calls ∧ signals = [] ∧ d.phase.busy = false := by
  have hsingle := h.single
  rw [tasks, hsignals, List.length_cons] at hsingle
  refine ⟨countP_eq_zero.mp (by omega), List.length_eq_zero_iff.mp (by omega), ?_⟩
  by_contra hbusy
  rw [if_pos (by simpa using hbusy)] at hsingle
  omega

/-- A download in which nothing waits but the end of its thread. -/
theorem valid_of_quiet {d : Download} (hcalls : Quiet d.calls) (hlive : d.cancelled = false → .close ∉ d.calls)
    (hsignals : d.signals = []) (hphase : PhaseOk d d.phase) (hnone : d.announced = none → d.accepted = [] ∧ d.reads = 0)
    (hsome : ∀ expected version, d.announced = some (expected, version) →
      Accepted expected version d.accepted ∧ (d.reads : Int) ≤ expected + 1) : Valid d where
  single := by
    rw [tasks, countP_eq_zero.mpr hcalls, hsignals]
    split <;> simp
  live := hlive
  closes := hcalls.closes
  calls := hcalls.callOk d
  phase := hphase
  signals _ := by simp [hsignals]
  unannounced := hnone
  announced := hsome

theorem valid_emit {d : Download} (hcalls : Quiet d.calls) (hlive : d.cancelled = false → .close ∉ d.calls)
    (hsignals : d.signals = []) {σ : Signal} (hsignal : SignalOk (d.emit σ) σ) (hnone : d.announced = none → d.accepted = [] ∧ d.reads = 0)
    (hsome : ∀ expected version, d.announced = some (expected, version) →
      Accepted expected version d.accepted ∧ (d.reads : Int) ≤ expected + 1) : Valid (d.emit σ) where
  single := by
    rw [tasks, Download.emit]
    simp only [countP_eq_zero.mpr hcalls, hsignals]
    simp [Phase.busy]
  live := hlive
  closes := hcalls.closes
  calls := hcalls.callOk _
  phase := trivial
  signals := by
    intro _ τ hτ
    simp only [Download.emit, hsignals, List.nil_append, List.mem_singleton] at hτ
    rw [hτ]
    exact hsignal
  unannounced := hnone
  announced := hsome

/-! ## What one step of a worker does -/

variable {chunkBytes : Nat} {a : Answer}

theorem signalOk_failed (d : Download) {error : String} (h : text error ≠ []) :
    SignalOk d (.stored 0 none (text error)) := by
  rw [SignalOk.eq_def]
  cases hd : text error with
  | nil => exact absurd hd h
  | cons c rest => trivial

theorem Valid.failed {d : Download} (h : Valid d) (hbusy : d.phase.busy = true) (file : SaveFile) {error : String}
    (herror : text error ≠ []) : Valid ({ d with file }.fail error) := by
  obtain ⟨hcalls, hsignals⟩ := h.of_busy hbusy
  exact valid_emit (d := { d with file }) hcalls h.live hsignals (signalOk_failed _ herror) h.unannounced h.announced

theorem Valid.write {d : Download} (h : Valid d) {result : Result} {received expected : Int} {version : Text}
    (hphase : d.phase = .writing result received expected version) :
    Valid (d.write chunkBytes a result received expected version) := by
  have hbusy : d.phase.busy = true := by rw [hphase]; rfl
  have hready : Ready d received expected version 1 := by
    have hok := h.phase
    rw [hphase] at hok
    exact hok
  have hfail : ∀ file, Valid ({ d with file }.fail Download.changed) := fun file => h.failed hbusy file (by decide)
  obtain ⟨hcalls, hsignals⟩ := h.of_busy hbusy
  rw [Download.write]
  split
  · rename_i bytes offset size stored hdecoded hoffset hsize hfile
    split
    · exact hfail d.file
    · rename_i hgood
      simp only [not_or, not_and, ne_eq, not_not] at hgood
      obtain ⟨rfl, rfl, hversion, -, hroom, hempty⟩ := hgood
      split
      · exact hfail _
      · rw [hready.file] at hfile
        cases hfile
        have hlength : (content (d.accepted ++ [⟨offset, size, result.version, bytes⟩])) = content d.accepted ++ bytes := by
          simp [content]
        have haccepted := (h.announced _ _ hready.announced).1.concat hready.full
          (c := ⟨offset, size, result.version, bytes⟩) hready.length rfl hversion
        refine valid_of_quiet hcalls h.live hsignals ?_ ?_ ?_
        · refine ⟨version, hready.announced, ?_, ?_, ?_, ?_, ?_⟩
          · exact congrArg SaveFile.opened hlength.symm
          · rw [hlength, List.length_append, hready.length]
            push_cast
            ring
          · omega
          · simp only [hready.reads, List.length_append, List.length_singleton]
          · intro hne c hc
            rcases List.mem_append.mp hc with hc | hc
            · exact hready.full c hc
            · rw [List.mem_singleton.mp hc]
              rintro rfl
              have hall := hempty rfl
              simp only [List.length_nil, Nat.cast_zero] at hne
              omega
        · intro hnone
          rw [hready.announced] at hnone
          cases hnone
        · intro expected' version' hsome
          rw [hready.announced] at hsome
          cases hsome
          exact ⟨haccepted, (h.announced _ _ hready.announced).2⟩
  · exact hfail d.file

theorem Valid.finish {d : Download} (h : Valid d) {eof : Bool} {received expected : Int}
    (hphase : d.phase = .wrote eof received expected) : Valid (d.finish eof received expected) := by
  have hbusy : d.phase.busy = true := by rw [hphase]; rfl
  obtain ⟨hcalls, hsignals⟩ := h.of_busy hbusy
  obtain ⟨version, hannounced, hfile, hlength, hle, hreads, hfull⟩ :
      PhaseOk d (.wrote eof received expected) := by rw [← hphase]; exact h.phase
  rw [Download.finish]
  split
  · exact valid_of_quiet hcalls h.live hsignals trivial h.unannounced h.announced
  · split
    · split
      · exact h.failed hbusy d.file (by decide)
      · rename_i heq
        have hall : received = expected := not_not.mp heq
        refine valid_of_quiet hcalls h.live hsignals ?_ h.unannounced h.announced
        exact ⟨hfile, expected, version, hannounced, rfl, by rw [← hlength, hall]⟩
    · split
      · exact h.failed hbusy d.file (by decide)
      · rename_i hne
        refine valid_emit hcalls h.live hsignals ?_ h.unannounced h.announced
        have hlt : received < expected := by omega
        exact ⟨expected, version, hlt, hannounced, hfile, hlength, hfull hne, hreads, Or.inl hlt, by omega⟩

/-- After a file is published nothing of its download will write again. -/
structure Done (d : Download) : Prop where
  calls : Quiet d.calls
  phase : d.phase.busy = false
  file : d.file = .null
  signals : ∀ σ ∈ d.signals, ∃ received destination, σ = .stored received (some destination) []

theorem Valid.commit {d : Download} (h : Valid d) {received : Int} (hphase : d.phase = .committing received) :
    Valid (d.commit a received).1 ∧ ∀ bytes, (d.commit a received).2 = some bytes →
      Done (d.commit a received).1 ∧ Whole d bytes ∧ Whole (d.commit a received).1 bytes := by
  have hbusy : d.phase.busy = true := by rw [hphase]; rfl
  obtain ⟨hcalls, hsignals⟩ := h.of_busy hbusy
  obtain ⟨hfile, hwhole⟩ : PhaseOk d (.committing received) := by rw [← hphase]; exact h.phase
  rw [Download.commit]
  split
  · rename_i bytes hok hopened
    rw [hfile] at hopened
    cases hopened
    have hsignal : SignalOk d (.stored received (some d.destination) []) := trivial
    refine ⟨valid_emit (d := { d with file := .null }) hcalls h.live hsignals hsignal h.unannounced h.announced, ?_⟩
    intro bytes hbytes
    cases hbytes
    refine ⟨⟨hcalls, rfl, rfl, ?_⟩, hwhole, hwhole⟩
    intro σ hσ
    simp only [Download.emit, hsignals, List.nil_append, List.mem_singleton] at hσ
    exact ⟨received, d.destination, hσ⟩
  · exact ⟨h.failed hbusy _ (by decide), fun bytes hbytes => by cases hbytes⟩

theorem Valid.start {d : Download} (h : Valid d) : Valid d.start := by
  have htail : ∀ c calls, d.calls = c :: calls → d.cancelled = false → Call.close ∉ calls :=
    fun c calls hcalls hlive hmem => h.live hlive (by rw [hcalls]; exact List.mem_cons_of_mem c hmem)
  rw [Download.start]
  split
  · exact h
  · rename_i calls hcalls
    obtain ⟨hquiet, hsignals, -⟩ := h.of_call hcalls rfl
    have hnone : CallOk d .open := h.calls _ (by rw [hcalls]; exact List.mem_cons_self)
    refine valid_of_quiet hquiet (htail _ _ hcalls) hsignals ?_ h.unannounced h.announced
    cases d.cancelled
    · exact hnone
    · trivial
  · rename_i result received expected version calls hcalls
    obtain ⟨hquiet, hsignals, -⟩ := h.of_call hcalls rfl
    have hready : CallOk d (.write result received expected version) :=
      h.calls _ (by rw [hcalls]; exact List.mem_cons_self)
    refine valid_of_quiet hquiet (htail _ _ hcalls) hsignals ?_ h.unannounced h.announced
    cases d.cancelled
    · exact ⟨hready.announced, hready.file, hready.length, hready.full, hready.reads, hready.room, hready.positive⟩
    · trivial
  · rename_i calls hcalls
    have hcancelled : d.cancelled = true := by
      by_contra hlive
      exact h.live (by simpa using hlive) (by rw [hcalls]; exact List.mem_cons_self)
    have hquiet : Quiet calls := h.closes [] calls hcalls
    have hsingle := h.single
    rw [tasks, hcalls, List.countP_cons_of_neg (by simp [Call.isTask])] at hsingle
    constructor
    · rw [tasks]
      simp only [Phase.busy, Bool.false_eq_true, if_false]
      omega
    · exact fun hlive => absurd hlive (by simp [hcancelled])
    · exact hquiet.closes
    · exact hquiet.callOk _
    · trivial
    · exact fun hlive => absurd hlive (by simp [hcancelled])
    · exact h.unannounced
    · exact h.announced

theorem Valid.work {d : Download} (h : Valid d) (chunkBytes : Nat) (a : Answer) :
    Valid (d.work chunkBytes a).1 ∧ ∀ bytes, (d.work chunkBytes a).2 = some bytes →
      Done (d.work chunkBytes a).1 ∧ Whole d bytes ∧ Whole (d.work chunkBytes a).1 bytes := by
  have hbusy : ∀ phase, d.phase = phase → phase.busy = true → Quiet d.calls ∧ d.signals = [] := by
    rintro phase rfl h'
    exact h.of_busy h'
  rw [Download.work]
  split
  · exact ⟨h.start, fun bytes hbytes => by cases hbytes⟩
  · rename_i hphase
    obtain ⟨hcalls, hsignals⟩ := hbusy _ hphase rfl
    have hnone : PhaseOk d .opening := by rw [← hphase]; exact h.phase
    refine ⟨valid_of_quiet hcalls h.live hsignals ⟨hnone, fun hok => ?_⟩ h.unannounced h.announced, fun bytes hbytes => by
      cases hbytes⟩
    simp only [hok, if_true]
  · rename_i ok hphase
    obtain ⟨hcalls, hsignals⟩ := hbusy _ hphase rfl
    have hopened : PhaseOk d (.opened ok) := by rw [← hphase]; exact h.phase
    refine ⟨?_, fun bytes hbytes => by cases hbytes⟩
    split
    · exact valid_of_quiet hcalls h.live hsignals trivial h.unannounced h.announced
    · exact valid_emit hcalls h.live hsignals hopened h.unannounced h.announced
  · rename_i result received expected version hphase
    exact ⟨h.write hphase, fun bytes hbytes => by cases hbytes⟩
  · rename_i eof received expected hphase
    exact ⟨h.finish hphase, fun bytes hbytes => by cases hbytes⟩
  · rename_i received hphase
    exact h.commit hphase
  · exact ⟨h, fun bytes hbytes => by cases hbytes⟩

/-- A step of a worker changes neither what was announced nor how often was read. -/
theorem work_keeps (d : Download) (chunkBytes : Nat) (a : Answer) :
    (d.work chunkBytes a).1.announced = d.announced ∧ (d.work chunkBytes a).1.reads = d.reads ∧
      (d.work chunkBytes a).1.destination = d.destination ∧ (d.work chunkBytes a).1.cancelled = d.cancelled := by
  rw [Download.work]
  split
  · rw [Download.start]
    split <;> exact ⟨rfl, rfl, rfl, rfl⟩
  · exact ⟨rfl, rfl, rfl, rfl⟩
  · split <;> exact ⟨rfl, rfl, rfl, rfl⟩
  · simp only [Download.write]
    split
    · split
      · exact ⟨rfl, rfl, rfl, rfl⟩
      · split <;> exact ⟨rfl, rfl, rfl, rfl⟩
    · exact ⟨rfl, rfl, rfl, rfl⟩
  · simp only [Download.finish]
    split_ifs <;> exact ⟨rfl, rfl, rfl, rfl⟩
  · rw [Download.commit]
    split <;> exact ⟨rfl, rfl, rfl, rfl⟩
  · exact ⟨rfl, rfl, rfl, rfl⟩

theorem Done.work {d : Download} (h : Done d) (chunkBytes : Nat) (a : Answer) :
    Done (d.work chunkBytes a).1 ∧ (d.work chunkBytes a).1.accepted = d.accepted ∧ (d.work chunkBytes a).2 = none := by
  have hphase := h.phase
  rw [Download.work]
  split
  · rw [Download.start]
    split
    · exact ⟨h, rfl, rfl⟩
    · rename_i calls hcalls
      cases h.calls .open (by rw [hcalls]; exact List.mem_cons_self)
    · rename_i result received expected version calls hcalls
      cases h.calls (.write result received expected version) (by rw [hcalls]; exact List.mem_cons_self)
    · rename_i calls hcalls
      refine ⟨⟨fun c hc => h.calls c (by rw [hcalls]; exact List.mem_cons_of_mem _ hc), rfl, rfl, h.signals⟩, rfl, rfl⟩
  · rename_i hbusy
    rw [hbusy] at hphase
    cases hphase
  · rename_i hbusy
    rw [hbusy] at hphase
    cases hphase
  · rename_i hbusy
    rw [hbusy] at hphase
    cases hphase
  · rename_i hbusy
    rw [hbusy] at hphase
    cases hphase
  · rename_i hbusy
    rw [hbusy] at hphase
    cases hphase
  · exact ⟨h, rfl, rfl⟩

/-- A worker without a task does nothing. -/
theorem work_idle {d : Download} (htasks : tasks d = 0) (hlive : d.cancelled = false) (h : Valid d) :
    (d.work chunkBytes a).1 = d := by
  obtain ⟨hquiet, hidle, -⟩ := tasks_eq_zero.mp htasks
  have hnil : d.calls = [] := by
    by_contra hne
    obtain ⟨c, hc⟩ := List.exists_mem_of_ne_nil _ hne
    exact h.live hlive (hquiet c hc ▸ hc)
  rw [Download.work]
  cases hphase : d.phase with
  | idle =>
    simp only
    rw [Download.start, hnil]
  | quit => rfl
  | _ =>
    rw [hphase] at hidle
    cases hidle

/-! ## What the owner does -/

theorem Valid.cancel {d : Download} (h : Valid d) (hlive : d.cancelled = false) : Valid d.cancel where
  single := by
    have hsingle := h.single
    rw [tasks] at hsingle ⊢
    rw [Download.cancel, List.countP_append]
    simpa [Call.isTask] using hsingle
  live hfalse := by cases hfalse
  closes := by
    intro before after heq
    rcases List.eq_nil_or_concat after with rfl | ⟨rest, last, rfl⟩
    · intro c hc
      cases hc
    · rw [Download.cancel, List.concat_eq_append, ← List.cons_append, ← List.append_assoc] at heq
      exact absurd ((List.append_inj' heq rfl).1 ▸ by simp) (h.live hlive)
  calls := by
    intro c hc
    rcases List.mem_append.mp hc with hc | hc
    · have hok := h.calls c hc
      cases c with
      | «open» => exact hok
      | write result received expected version =>
        exact ⟨hok.announced, hok.file, hok.length, hok.full, hok.reads, hok.room, hok.positive⟩
      | close => trivial
    · rw [List.mem_singleton.mp hc]
      trivial
  phase := by
    have hok := h.phase
    rw [Download.cancel]
    cases hphase : d.phase with
    | idle => trivial
    | opening => rwa [hphase] at hok
    | opened ok => rwa [hphase] at hok
    | writing result received expected version =>
      rw [hphase] at hok
      exact ⟨hok.announced, hok.file, hok.length, hok.full, hok.reads, hok.room, hok.positive⟩
    | wrote eof received expected => rwa [hphase] at hok
    | committing received => rwa [hphase] at hok
    | quit => trivial
  signals hfalse := by cases hfalse
  unannounced := h.unannounced
  announced := h.announced

theorem Done.cancel {d : Download} (h : Done d) : Done d.cancel where
  calls := by
    intro c hc
    rcases List.mem_append.mp hc with hc | hc
    · exact h.calls c hc
    · exact List.mem_singleton.mp hc
  phase := h.phase
  file := h.file
  signals := h.signals

/-- What holds of the downloads of an owner, whatever it waits for. -/
structure Sound (s : State) : Prop where
  valid : ∀ (n : Nat) (d : Download), s.downloads[n]? = some d → Valid d
  live : ∀ n : Nat, s.download = some n → ∃ d, s.downloads[n]? = some d ∧ d.cancelled = false
  others : ∀ (n : Nat) (d : Download), s.downloads[n]? = some d → s.download ≠ some n → d.cancelled = true
  published : ∀ p ∈ s.published, ∃ d, s.downloads[p.download]? = some d ∧ d.destination = p.destination ∧ Done d ∧
    Whole d p.bytes
  distinct : (s.published.map Published.download).Nodup

/-- What the owner's own fields say of its download. -/
structure Linked (s : State) (d : Download) : Prop where
  known : ∀ expected version, d.announced = some (expected, version) → s.expected = expected ∧ s.version = version
  unknown : d.announced = none → s.received = 0
  request : s.request ≠ [] → tasks d = 0 ∧ ((s.operation = .stat ∧ d.announced = none ∧ d.file = .opened []) ∨
    (s.operation = .read ∧ Ready d s.received s.expected s.version 1))

structure Invariant (s : State) : Prop where
  sound : Sound s
  linked : ∀ (n : Nat) (d : Download), s.download = some n → s.downloads[n]? = some d → Linked s d

/-- A change of one download that takes back nothing of what was published. -/
theorem Sound.onDownload {s : State} (h : Sound s) {n : Nat} {f : Download → Download}
    (hvalid : ∀ d, s.downloads[n]? = some d → Valid (f d))
    (hcancelled : ∀ d, s.downloads[n]? = some d → (f d).cancelled = d.cancelled)
    (hdone : ∀ d, s.downloads[n]? = some d → Done d → (f d).destination = d.destination ∧ Done (f d) ∧
      ∀ bytes, Whole d bytes → Whole (f d) bytes) : Sound (s.onDownload n f) where
  valid k d hd := by
    rw [State.onDownload, List.getElem?_modify] at hd
    obtain ⟨e, he, rfl⟩ := Option.map_eq_some_iff.mp hd
    by_cases hk : n = k
    · subst hk
      simpa using hvalid e he
    · simpa [hk] using h.valid k e he
  live k hk := by
    obtain ⟨d, hd, hlive⟩ := h.live k hk
    refine ⟨if n = k then f d else d, ?_, ?_⟩
    · rw [State.onDownload, List.getElem?_modify, hd]
      rfl
    · split
      · rename_i heq
        subst heq
        rw [hcancelled d hd, hlive]
      · exact hlive
  others k d hd hk := by
    rw [State.onDownload, List.getElem?_modify] at hd
    obtain ⟨e, he, rfl⟩ := Option.map_eq_some_iff.mp hd
    have hother := h.others k e he hk
    by_cases hnk : n = k
    · subst hnk
      simpa [hcancelled e he] using hother
    · simpa [hnk] using hother
  published p hp := by
    obtain ⟨d, hd, hdestination, hd', hwhole⟩ := h.published p hp
    refine ⟨if n = p.download then f d else d, ?_, ?_⟩
    · rw [State.onDownload, List.getElem?_modify, hd]
      rfl
    · split
      · rename_i heq
        subst heq
        obtain ⟨hsame, hdone', hkept⟩ := hdone d hd hd'
        exact ⟨hsame.trans hdestination, hdone', hkept _ hwhole⟩
      · exact ⟨hdestination, hd', hwhole⟩
  distinct := h.distinct

theorem Sound.drop {s : State} (h : Sound s) : Sound s.drop ∧ s.drop.download = none := by
  rw [State.drop]
  cases hdownload : s.download with
  | none => exact ⟨h, hdownload⟩
  | some n =>
    obtain ⟨d, hd, hlive⟩ := h.live n hdownload
    refine ⟨⟨?_, ?_, ?_, ?_, h.distinct⟩, rfl⟩
    · intro k e he
      simp only [State.onDownload, List.getElem?_modify] at he
      obtain ⟨e', he', rfl⟩ := Option.map_eq_some_iff.mp he
      by_cases hk : n = k
      · subst hk
        rw [hd] at he'
        cases he'
        simpa using (h.valid n d hd).cancel hlive
      · simpa [hk] using h.valid k e' he'
    · intro k hk
      cases hk
    · intro k e he _
      simp only [State.onDownload, List.getElem?_modify] at he
      obtain ⟨e', he', rfl⟩ := Option.map_eq_some_iff.mp he
      by_cases hk : n = k
      · simp [hk, Download.cancel]
      · simpa [hk] using h.others k e' he' (by rw [hdownload]; simpa using hk)
    · intro p hp
      obtain ⟨e, he, hdestination, hdone, hwhole⟩ := h.published p hp
      refine ⟨if n = p.download then e.cancel else e, ?_, ?_⟩
      · simp only [State.onDownload, List.getElem?_modify, he]
        rfl
      · split
        · exact ⟨hdestination, hdone.cancel, hwhole⟩
        · exact ⟨hdestination, hdone, hwhole⟩

/-- An owner without a download. -/
theorem Sound.invariant {s : State} (h : Sound s) (hdownload : s.download = none) : Invariant s :=
  ⟨h, fun n d hn => by rw [hdownload] at hn; cases hn⟩

theorem Sound.fail {s : State} (h : Sound s) (message : Text) : Invariant (s.fail message) := by
  obtain ⟨hs, hdownload⟩ := h.drop
  exact Sound.invariant ⟨hs.valid, hs.live, hs.others, hs.published, hs.distinct⟩ hdownload

theorem Sound.send {s : State} (h : Sound s) {operation : Operation} {id : Text}
    (hlinked : id ≠ [] → ∀ (n : Nat) (d : Download), s.download = some n → s.downloads[n]? = some d →
      Linked { s with operation, request := id } d) : Invariant (s.send operation id) := by
  have hs : Sound { s with operation, request := id } := ⟨h.valid, h.live, h.others, h.published, h.distinct⟩
  rw [State.send]
  split
  · exact hs.fail _
  · rename_i hid
    exact ⟨hs, hlinked hid⟩

/-- The owner asks for the chunk that follows what the temporary file has. -/
theorem Sound.nextChunk {s : State} (h : Sound s)
    (hready : ∀ (n : Nat) (d : Download), s.download = some n → s.downloads[n]? = some d →
      tasks d = 0 ∧ Ready d s.received s.expected s.version 0) (next : Text) : Invariant (s.nextChunk next) := by
  rw [State.nextChunk]
  cases hdownload : s.download with
  | none => exact h.send fun _ n d hn => by rw [hdownload] at hn; cases hn
  | some n =>
    simp only
    have hsound : Sound (s.onDownload n fun d => { d with reads := d.reads + 1 }) := by
      apply h.onDownload
      · intro d hd
        obtain ⟨-, hr⟩ := hready n d hdownload hd
        have hvalid := h.valid n d hd
        have hlength := length_le_content hr.full
        have hreads := hr.reads
        obtain ⟨hquiet, hidle, hsignals⟩ := tasks_eq_zero.mp (hready n d hdownload hd).1
        refine valid_of_quiet hquiet hvalid.live hsignals (PhaseOk.of_idle hidle) ?_ ?_
        · intro hnone
          rw [hr.announced] at hnone
          cases hnone
        · intro expected version hsome
          rw [hr.announced] at hsome
          cases hsome
          refine ⟨(hvalid.announced _ _ hr.announced).1, ?_⟩
          have hpositive := hr.positive
          have hsame := hr.length
          rcases hr.room with hlt | hnil
          · push_cast
            omega
          · rw [hnil] at hreads
            simp only [List.length_nil] at hreads
            push_cast
            omega
      · exact fun d _ => rfl
      · exact fun d _ hdone => ⟨rfl, ⟨hdone.calls, hdone.phase, hdone.file, hdone.signals⟩, fun _ hwhole => hwhole⟩
    apply hsound.send
    intro _ k d' hk hd'
    change s.download = some k at hk
    rw [hdownload] at hk
    cases hk
    rw [State.onDownload, List.getElem?_modify] at hd'
    obtain ⟨d, hd, rfl⟩ := Option.map_eq_some_iff.mp hd'
    obtain ⟨htasks, hr⟩ := hready n d hdownload hd
    simp only [if_true]
    refine ⟨?_, ?_, fun _ => ⟨htasks, Or.inr ⟨rfl, hr.announced, hr.file, hr.length, hr.full, ?_, hr.room, hr.positive⟩⟩⟩
    · intro expected version hsome
      change d.announced = _ at hsome
      rw [hr.announced] at hsome
      cases hsome
      exact ⟨rfl, rfl⟩
    · intro hnone
      change d.announced = _ at hnone
      rw [hr.announced] at hnone
      cases hnone
    · change d.reads + 1 = d.accepted.length + 1
      rw [hr.reads]

/-- A signal of the download that is under way. -/
theorem Sound.handle {s : State} (h : Sound s) {n : Nat} {d : Download} (hn : s.download = some n)
    (hd : s.downloads[n]? = some d) (htasks : tasks d = 0)
    (hknown : ∀ expected version, d.announced = some (expected, version) → s.expected = expected ∧ s.version = version)
    (hunknown : d.announced = none → s.received = 0) {σ : Signal} (hσ : SignalOk d σ) (next : Text) :
    Invariant (s.handle σ next) := by
  have honly : ∀ k e, s.download = some k → s.downloads[k]? = some e → e = d := by
    intro k e hk he
    rw [hn] at hk
    cases hk
    rw [hd] at he
    exact (Option.some.inj he).symm
  cases σ with
  | opened ok =>
    rw [State.handle]
    cases ok with
    | false => exact h.fail _
    | true =>
      simp only [if_true]
      apply h.send
      intro _ k e hk he
      rw [honly k e hk he]
      exact ⟨hknown, hunknown, fun _ => ⟨htasks, Or.inl ⟨rfl, hσ.1, hσ.2 rfl⟩⟩⟩
  | stored received destination error =>
    simp only [State.handle]
    by_cases herror : error = []
    · subst herror
      rw [if_neg (by simp)]
      cases destination with
      | some file =>
        have hs : Sound { s with received } := ⟨h.valid, h.live, h.others, h.published, h.distinct⟩
        obtain ⟨hdrop, hnone⟩ := hs.drop
        exact Sound.invariant ⟨hdrop.valid, hdrop.live, hdrop.others, hdrop.published, hdrop.distinct⟩ hnone
      | none =>
        obtain ⟨expected, version, -, hready⟩ := hσ
        obtain ⟨hexpected, hversion⟩ := hknown _ _ hready.announced
        have hs : Sound { s with received } := ⟨h.valid, h.live, h.others, h.published, h.distinct⟩
        apply hs.nextChunk
        intro k e hk he
        rw [honly k e hk he]
        refine ⟨htasks, ?_⟩
        simp only [hexpected, hversion]
        exact hready
    · rw [if_pos herror]
      exact h.fail _

theorem Invariant.deliver {s : State} (h : Invariant s) (n : Nat) (next : Text) : Invariant (s.deliver n next) := by
  rw [State.deliver]
  cases hd : s.downloads[n]? with
  | none => exact h
  | some d =>
    simp only
    cases hsignals : d.signals with
    | nil => exact h
    | cons σ rest =>
      simp only
      have hvalid := h.sound.valid n d hd
      obtain ⟨hquiet, rfl, hidle⟩ := hvalid.of_signal hsignals
      have htasks : tasks { d with signals := [] } = 0 := tasks_eq_zero.mpr ⟨hquiet, hidle, rfl⟩
      have hsound : Sound (s.onDownload n fun d => { d with signals := [] }) := by
        apply h.sound.onDownload
        · intro e he
          rw [hd] at he
          cases he
          exact valid_of_quiet hquiet hvalid.live rfl (PhaseOk.of_idle hidle) hvalid.unannounced hvalid.announced
        · exact fun e _ => rfl
        · exact fun e _ hdone => ⟨rfl, ⟨hdone.calls, hdone.phase, hdone.file, by simp⟩, fun _ hwhole => hwhole⟩
      have hd' : (s.onDownload n fun d => { d with signals := [] }).downloads[n]? = some { d with signals := [] } := by
        rw [State.onDownload, List.getElem?_modify, hd]
        simp
      by_cases hcancelled : d.cancelled = true
      · rw [if_pos hcancelled]
        refine ⟨hsound, fun k e hk he => ?_⟩
        have hne : n ≠ k := by
          rintro rfl
          obtain ⟨d', hd'', hlive⟩ := h.sound.live n hk
          rw [hd] at hd''
          cases hd''
          rw [hcancelled] at hlive
          cases hlive
        rw [State.onDownload, List.getElem?_modify_ne _ _ hne] at he
        have hl := h.linked k e hk he
        exact ⟨hl.known, hl.unknown, hl.request⟩
      · rw [if_neg hcancelled]
        have hn : s.download = some n := by
          by_contra hne
          exact hcancelled (h.sound.others n d hd hne)
        have hl := h.linked n d hn hd
        have hσ := hvalid.signals (Bool.eq_false_iff.mpr hcancelled) σ (by rw [hsignals]; exact List.mem_cons_self)
        apply hsound.handle hn hd' htasks hl.known hl.unknown
        cases σ with
        | opened ok => exact hσ
        | stored received destination error =>
          cases destination with
          | some file => trivial
          | none =>
            cases error with
            | nil =>
              obtain ⟨expected, version, hlt, hr⟩ := hσ
              exact ⟨expected, version, hlt, hr.announced, hr.file, hr.length, hr.full, hr.reads, hr.room, hr.positive⟩
            | cons c cs => trivial

/-- The state after a reply was taken, whatever it says. -/
theorem Invariant.taken {s : State} (h : Invariant s) (transport : Text) :
    Invariant { s with request := [], transport } :=
  ⟨⟨h.sound.valid, h.sound.live, h.sound.others, h.sound.published, h.sound.distinct⟩, fun n d hn hd =>
    ⟨(h.linked n d hn hd).known, (h.linked n d hn hd).unknown, fun hne => absurd rfl hne⟩⟩

theorem Sound.receiveStat {s : State} (h : Sound s) {n : Nat} (hn : s.download = some n)
    (hquiet : ∀ d, s.downloads[n]? = some d → tasks d = 0 ∧ d.announced = none ∧ d.file = .opened [] ∧ s.received = 0)
    (result : Result) (next : Text) : Invariant (s.receiveStat n result next) := by
  rw [State.receiveStat]
  cases hsize : toLongLong result.size with
  | none =>
    have hs : Sound { s with expected := 0, version := result.version } :=
      ⟨h.valid, h.live, h.others, h.published, h.distinct⟩
    exact hs.fail _
  | some expected =>
    have hs : Sound { s with expected, version := result.version } :=
      ⟨h.valid, h.live, h.others, h.published, h.distinct⟩
    simp only
    split
    · exact hs.fail _
    · rename_i hgood
      have hpositive : 0 ≤ expected := by
        by_contra hneg
        exact hgood (Or.inl (by omega))
      apply Sound.nextChunk
      · apply hs.onDownload
        · intro d hd
          obtain ⟨htasks, hnone, -, -⟩ := hquiet d hd
          obtain ⟨hcalls, hidle, hsignals⟩ := tasks_eq_zero.mp htasks
          obtain ⟨haccepted, hreads⟩ := (h.valid n d hd).unannounced hnone
          refine valid_of_quiet hcalls (h.valid n d hd).live hsignals (PhaseOk.of_idle hidle) (fun hnone => ?_) ?_
          · cases hnone
          · intro e v hev
            cases hev
            simp only [haccepted, hreads]
            refine ⟨?_, by simpa using (by omega : (0 : Int) ≤ expected + 1)⟩
            intro before c after heq
            cases before <;> cases heq
        · exact fun d _ => rfl
        · intro d hd hdone
          have hnull := hdone.file
          rw [(hquiet d hd).2.2.1] at hnull
          cases hnull
      · intro k e hk he
        change s.download = some k at hk
        rw [hn] at hk
        cases hk
        rw [State.onDownload, List.getElem?_modify] at he
        obtain ⟨d, hd, rfl⟩ := Option.map_eq_some_iff.mp he
        obtain ⟨htasks, hnone, hfile, hreceived⟩ := hquiet d hd
        obtain ⟨haccepted, hreads⟩ := (h.valid n d hd).unannounced hnone
        simp only [if_true]
        refine ⟨htasks, rfl, ?_, ?_, ?_, ?_, Or.inr haccepted, hpositive⟩
        · simp only [hfile, haccepted]
          rfl
        · simp only [haccepted]
          exact hreceived
        · simp [haccepted]
        · simp only [hreads, haccepted]
          rfl

/-- A write call that is put into the queue of an idle worker. -/
theorem Valid.push {d : Download} (h : Valid d) (htasks : tasks d = 0) (hlive : d.cancelled = false) (result : Result)
    {received expected : Int} {version : Text} (hready : Ready d received expected version 1) :
    Valid { d with calls := d.calls ++ [.write result received expected version] } := by
  obtain ⟨hquiet, hidle, hsignals⟩ := tasks_eq_zero.mp htasks
  have hnil : d.calls = [] := by
    by_contra hne
    obtain ⟨c, hc⟩ := List.exists_mem_of_ne_nil _ hne
    exact h.live hlive (hquiet c hc ▸ hc)
  constructor
  · rw [tasks]
    simp [hnil, hidle, hsignals, Call.isTask]
  · simp [hnil]
  · intro before after heq
    simp only [hnil, List.nil_append] at heq
    cases before with
    | nil => cases heq
    | cons b before => simp at heq
  · intro c hc
    simp only [hnil, List.nil_append, List.mem_singleton] at hc
    rw [hc]
    exact ⟨hready.announced, hready.file, hready.length, hready.full, hready.reads, hready.room, hready.positive⟩
  · exact PhaseOk.of_idle hidle
  · simp [hsignals]
  · exact h.unannounced
  · exact h.announced

theorem Invariant.receive {s : State} (h : Invariant s) (id : Text) (result : Result) (transport next : Text) :
    Invariant (s.receive id result transport next) := by
  rw [State.receive]
  split
  · exact h
  · rename_i hid
    simp only [not_or] at hid
    have htaken := h.taken transport
    simp only
    split
    · exact htaken.sound.fail _
    · split
      · exact ⟨⟨htaken.sound.valid, htaken.sound.live, htaken.sound.others, htaken.sound.published,
          htaken.sound.distinct⟩, fun n d hn hd => ⟨(htaken.linked n d hn hd).known, (htaken.linked n d hn hd).unknown,
          fun hne => absurd rfl hne⟩⟩
      · split
        · exact htaken.sound.fail _
        · rename_i n hdownload
          obtain ⟨d, hd, hlive⟩ := h.sound.live n hdownload
          have hl := h.linked n d hdownload hd
          obtain ⟨htasks, hstage⟩ := hl.request hid.1
          split
          · rename_i hstat
            apply htaken.sound.receiveStat hdownload
            intro e he
            change s.downloads[n]? = some e at he
            rw [hd] at he
            cases he
            rcases hstage with ⟨-, hnone, hfile⟩ | ⟨hread, -⟩
            · exact ⟨htasks, hnone, hfile, hl.unknown hnone⟩
            · rw [hread] at hstat
              cases hstat
          · rename_i hstat
            rcases hstage with ⟨hstat', -⟩ | ⟨-, hready⟩
            · exact absurd hstat' hstat
            · have hs : Sound ({ s with request := [], transport }.onDownload n fun d => { d with
                  calls := d.calls ++ [Call.write result s.received s.expected s.version] }) := by
                apply htaken.sound.onDownload
                · intro e he
                  change s.downloads[n]? = some e at he
                  rw [hd] at he
                  cases he
                  exact (h.sound.valid n d hd).push htasks hlive result hready
                · exact fun e _ => rfl
                · intro e he hdone
                  change s.downloads[n]? = some e at he
                  rw [hd] at he
                  cases he
                  have hnull := hdone.file
                  rw [hready.file] at hnull
                  cases hnull
              refine ⟨⟨hs.valid, hs.live, hs.others, hs.published, hs.distinct⟩, fun k e hk he => ?_⟩
              change s.download = some k at hk
              rw [hdownload] at hk
              cases hk
              simp only [State.onDownload, List.getElem?_modify] at he
              obtain ⟨d', hd', rfl⟩ := Option.map_eq_some_iff.mp he
              rw [hd] at hd'
              cases hd'
              simp only [if_true]
              exact ⟨hl.known, hl.unknown, fun hne => absurd rfl hne⟩

theorem Invariant.work {s : State} (h : Invariant s) (chunkBytes n : Nat) (a : Answer) :
    Invariant (s.work chunkBytes n a) := by
  rw [State.work]
  cases hd : s.downloads[n]? with
  | none => exact h
  | some d =>
    simp only
    have hn : n < s.downloads.length := (List.getElem?_eq_some_iff.mp hd).1
    obtain ⟨hannounced, hreads, hdestination, hcancelled⟩ := work_keeps d chunkBytes a
    obtain ⟨hvalid, hcommit⟩ := (h.sound.valid n d hd).work chunkBytes a
    have hget : ∀ k e, (s.downloads.set n (d.work chunkBytes a).1)[k]? = some e →
        k = n ∧ e = (d.work chunkBytes a).1 ∨ s.downloads[k]? = some e ∧ n ≠ k := by
      intro k e he
      rw [List.getElem?_set] at he
      split at he
      · rename_i hk
        exact Or.inl ⟨hk.symm, (Option.some.inj he).symm⟩
      · rename_i hk
        exact Or.inr ⟨he, hk⟩
    refine ⟨⟨?_, ?_, ?_, ?_, ?_⟩, ?_⟩
    · intro k e he
      rcases hget k e he with ⟨-, rfl⟩ | ⟨he, -⟩
      · exact hvalid
      · exact h.sound.valid k e he
    · intro k hk
      obtain ⟨e, he, hlive⟩ := h.sound.live k hk
      by_cases hkn : n = k
      · subst hkn
        rw [hd] at he
        cases he
        refine ⟨_, List.getElem?_set_self hn, ?_⟩
        rw [hcancelled, hlive]
      · exact ⟨e, by simpa [List.getElem?_set_ne hkn] using he, hlive⟩
    · intro k e he hk
      rcases hget k e he with ⟨rfl, rfl⟩ | ⟨he, -⟩
      · rw [hcancelled]
        exact h.sound.others k d hd hk
      · exact h.sound.others k e he hk
    · intro p hp
      rcases List.mem_append.mp hp with hp | hp
      · obtain ⟨e, he, hsame, hdone, hwhole⟩ := h.sound.published p hp
        by_cases hkn : n = p.download
        · rw [← hkn, hd] at he
          cases he
          obtain ⟨hdone', haccepted, -⟩ := hdone.work chunkBytes a
          obtain ⟨expected, version, hsome, hbytes, hlength⟩ := hwhole
          refine ⟨_, hkn ▸ List.getElem?_set_self hn, hdestination.trans hsame, hdone', ?_⟩
          exact ⟨expected, version, hannounced.trans hsome, by rw [haccepted]; exact hbytes, hlength⟩
        · exact ⟨e, by simpa [List.getElem?_set_ne hkn] using he, hsame, hdone, hwhole⟩
      · rw [Option.mem_toList, Option.map_eq_some_iff] at hp
        obtain ⟨bytes, hbytes, rfl⟩ := hp
        obtain ⟨hdone, -, hwhole⟩ := hcommit bytes hbytes
        exact ⟨_, List.getElem?_set_self hn, hdestination, hdone, hwhole⟩
    · rw [List.map_append, List.nodup_append]
      refine ⟨h.sound.distinct, ?_, ?_⟩
      · cases (d.work chunkBytes a).2 <;> simp
      · rintro k hk m hm rfl
        obtain ⟨p, hp, rfl⟩ := List.mem_map.mp hk
        obtain ⟨q, hq, hqp⟩ := List.mem_map.mp hm
        rw [Option.mem_toList, Option.map_eq_some_iff] at hq
        obtain ⟨bytes, hbytes, rfl⟩ := hq
        obtain ⟨e, he, -, hdone, -⟩ := h.sound.published p hp
        rw [← hqp, hd] at he
        cases he
        rw [(hdone.work chunkBytes a).2.2] at hbytes
        cases hbytes
    · intro k e hk he
      rcases hget k e he with ⟨rfl, rfl⟩ | ⟨he, -⟩
      · have hl := h.linked k d hk hd
        refine ⟨fun expected version hsome => hl.known _ _ (hannounced ▸ hsome), fun hnone =>
          hl.unknown (hannounced ▸ hnone), fun hne => ?_⟩
        obtain ⟨htasks, hstage⟩ := hl.request hne
        obtain ⟨e, he, hlive⟩ := h.sound.live k hk
        rw [hd] at he
        cases he
        rw [work_idle htasks hlive (h.sound.valid k d hd)]
        exact ⟨htasks, hstage⟩
      · have hl := h.linked k e hk he
        exact ⟨hl.known, hl.unknown, hl.request⟩

theorem not_busy {s : State} (h : ¬s.busy = true) : s.download = none ∧ s.request = [] := by
  simpa [State.busy] using h

theorem Invariant.browse {s : State} (h : Invariant s) (host path cursor id : Text) :
    Invariant (s.browse host path cursor id) := by
  rw [State.browse]
  split
  · exact h
  · rename_i hbusy
    exact Sound.invariant ⟨h.sound.valid, h.sound.live, h.sound.others, h.sound.published, h.sound.distinct⟩
      (not_busy hbusy).1

theorem Invariant.startDownload {s : State} (h : Invariant s) (path : Text) (destination : Option Text) :
    Invariant (s.startDownload path destination) := by
  unfold State.startDownload
  split
  · exact h
  · rename_i hfree
    obtain ⟨hdownload, hrequest⟩ := not_busy fun hbusy => hfree (Or.inl hbusy)
    cases destination with
    | none => exact h.sound.fail _
    | some destination =>
      have hfresh : Valid ({ destination } : Download) := by
        constructor
        · simp [tasks, Call.isTask, Phase.busy]
        · simp
        · intro before after heq
          cases before with
          | nil => cases heq
          | cons b before => simp at heq
        · intro c hc
          rw [List.mem_singleton.mp hc]
          rfl
        · trivial
        · simp
        · exact fun _ => ⟨rfl, rfl⟩
        · intro expected version hsome
          cases hsome
      have hget : ∀ k e, (s.downloads ++ [({ destination } : Download)])[k]? = some e →
          s.downloads[k]? = some e ∨ k = s.downloads.length ∧ e = { destination } := by
        intro k e he
        rcases Nat.lt_trichotomy k s.downloads.length with hlt | rfl | hgt
        · rw [List.getElem?_append_left hlt] at he
          exact Or.inl he
        · rw [List.getElem?_concat_length] at he
          exact Or.inr ⟨rfl, (Option.some.inj he).symm⟩
        · rw [List.getElem?_eq_none (by simp only [List.length_append, List.length_singleton]; omega)] at he
          cases he
      simp only
      refine ⟨⟨?_, ?_, ?_, ?_, h.sound.distinct⟩, ?_⟩
      · intro k e he
        rcases hget k e he with he | ⟨-, rfl⟩
        · exact h.sound.valid k e he
        · exact hfresh
      · intro k hk
        cases hk
        exact ⟨_, List.getElem?_concat_length, rfl⟩
      · intro k e he hk
        rcases hget k e he with he | ⟨rfl, -⟩
        · exact h.sound.others k e he (by simp [hdownload])
        · exact absurd rfl hk
      · intro p hp
        obtain ⟨e, he, hrest⟩ := h.sound.published p hp
        exact ⟨e, by rw [List.getElem?_append_left (List.getElem?_eq_some_iff.mp he).1, he], hrest⟩
      · intro k e hk he
        cases hk
        rw [List.getElem?_concat_length] at he
        cases he
        exact ⟨fun _ _ hsome => (by cases hsome), fun _ => rfl, fun hne => absurd hrequest hne⟩

theorem Invariant.reset {s : State} (h : Invariant s) : Invariant s.reset := by
  obtain ⟨hdrop, hnone⟩ := h.sound.drop
  exact Sound.invariant ⟨hdrop.valid, hdrop.live, hdrop.others, hdrop.published, hdrop.distinct⟩ hnone

theorem Invariant.step {s : State} (h : Invariant s) (chunkBytes : Nat) (e : Event) : Invariant (step chunkBytes s e) := by
  cases e with
  | browse host path cursor id => exact h.browse host path cursor id
  | download path destination => exact h.startDownload path destination
  | receive id result transport next => exact h.receive id result transport next
  | reset => exact h.reset
  | deliver n next => exact h.deliver n next
  | work n a => exact h.work chunkBytes n a

theorem invariant_run (chunkBytes : Nat) (events : List Event) : Invariant (run chunkBytes events) := by
  have hfirst : Invariant {} :=
    Sound.invariant ⟨by simp, by simp, by simp, by simp, by simp⟩ rfl
  have hfold : ∀ s, Invariant s → Invariant (events.foldl (RemoteFiles.step chunkBytes) s) := by
    induction events with
    | nil => exact fun s h => h
    | cons e events ih => exact fun s h => ih _ (h.step chunkBytes e)
  exact hfold _ hfirst

/-! ## The result -/

/-- Whatever a host replies and whenever the owner cancels: a published file has exactly the
announced bytes, each download publishes once at most, accepted chunks follow one another, only
the last of them may be empty, and reading ends. -/
theorem download_publishes_whole (chunkBytes : Nat) (events : List Event) :
    (∀ p ∈ (run chunkBytes events).published, ∃ d expected version,
      (run chunkBytes events).downloads[p.download]? = some d ∧ d.destination = p.destination ∧
      d.announced = some (expected, version) ∧ Accepted expected version d.accepted ∧
      p.bytes = content d.accepted ∧ (p.bytes.length : Int) = expected) ∧
    ((run chunkBytes events).published.map Published.download).Nodup ∧
    ∀ d ∈ (run chunkBytes events).downloads, (d.announced = none → d.reads = 0) ∧
      ∀ expected version, d.announced = some (expected, version) →
        Accepted expected version d.accepted ∧ (d.reads : Int) ≤ expected + 1 := by
  have hinv := invariant_run chunkBytes events
  refine ⟨fun p hp => ?_, hinv.sound.distinct, fun d hd => ?_⟩
  · obtain ⟨d, hd, hsame, -, expected, version, hsome, hbytes, hlength⟩ := hinv.sound.published p hp
    have haccepted := ((hinv.sound.valid p.download d hd).announced expected version hsome).1
    exact ⟨d, expected, version, hd, hsame, hsome, haccepted, hbytes, hlength⟩
  · obtain ⟨n, hn⟩ := List.getElem?_of_mem hd
    have hvalid := hinv.sound.valid n d hn
    exact ⟨fun hnone => (hvalid.unannounced hnone).2, hvalid.announced⟩

/-- A file of two bytes in one chunk. -/
example :
    ((run 4 [.browse (text "host") [] [] (text "1"), .receive (text "1") { ok := true } [] [],
      .download (text "a") (some (text "/a")), .work 0 {}, .work 0 {}, .work 0 {}, .deliver 0 (text "2"),
      .receive (text "2") { ok := true, size := text "2", version := text "v" } [] (text "3"),
      .receive (text "3")
        { ok := true, size := text "2", version := text "v", offset := text "0", data := text "AQI=", eof := true } [] [],
      .work 0 {}, .work 0 {}, .work 0 {}, .work 0 {}]).published.map Published.bytes) = [[1, 2]] := by
  decide +kernel

end RemoteFiles

end SocietyHelper.Sync
