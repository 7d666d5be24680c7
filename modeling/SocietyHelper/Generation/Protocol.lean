import SocietyHelper.Generation.Jobs
import SocietyHelper.Generation.Remote

/-! # Remotes and their host

Requests and answers travel over a network that may lose, repeat and delay them:
what was sent once may be delivered at any later time, any number of times, or
never. Each request is sent under an id of its own.
-/

namespace SocietyHelper.Generation

open Library

/-- A request under way, or delivered: `client` sent it. -/
structure Sent where
  client : Nat
  id : Text
  request : Request

structure Answered where
  client : Nat
  id : Text
  response : Response

/-- A signal that a client's job ended; `cancelled` says whether the client had cancelled it. -/
structure Ended where
  client : Nat
  job : Value
  cancelled : Bool
  finish : Finish

structure System where
  host : Host := {}
  remotes : Nat → Remote := fun _ => {}
  sent : List Sent := []
  answers : List Answered := []
  serial : Nat := 0
  ended : List Ended := []

/-- What the application does when it is told that its job was accepted. -/
inductive Reaction where
  | cancel (sent : Bool)
  | setPaused (paused : Bool)

/-- Steps of the clients, of the transport and of the host; `sent` says whether the transport takes a request. -/
inductive Action where
  | start (client : Nat) (job : Input)
  | setPaused (client : Nat) (paused : Bool)
  | cancel (client : Nat) (clocks : Remote.Clocks) (sent : Bool)
  | tick (client : Nat) (clocks : Remote.Clocks) (sent : Bool)
  | receive (client answer : Nat) (slot : List Reaction)
  | lose (client : Nat) (id error : Text)
  | deliver (message : Nat) (storage : Host.Storage)
  | pump (error : Option Text)
  | engineReturns (run : Nat) (ending : Host.Ending)
  | save (run : Nat) (saved : Bool)
  | report (run : Nat) (progress : Progress)
  | progressed (report : Nat)
  | finished (error : Option Text)

namespace System

def setRemote (s : System) (client : Nat) (r : Remote) : System :=
  { s with remotes := Function.update s.remotes client r }

@[simp] theorem setRemote_self (s : System) (client : Nat) (r : Remote) : (s.setRemote client r).remotes client = r :=
  Function.update_self ..

def end_ (s : System) (client : Nat) (before : Remote) (finish : Finish) (r : Remote) : System :=
  { s.setRemote client r with
    ended := s.ended ++ [⟨client, before.jobId, before.cancelled, finish⟩] }

def tick (s : System) (client : Nat) (clocks : Remote.Clocks) (sent : Bool) : System :=
  match (s.remotes client).tick clocks with
  | .nothing r => s.setRemote client r
  | .ends finish r => s.end_ client (s.remotes client) finish r
  | .sends request r =>
    if sent then
      { s.setRemote client { r with pending := decimal s.serial } with
        sent := s.sent ++ [⟨client, decimal s.serial, request⟩]
        serial := s.serial + 1 }
    else s.setRemote client r

def cancel (s : System) (client : Nat) (clocks : Remote.Clocks) (sent : Bool) : System :=
  if (s.remotes client).active then (s.setRemote client (s.remotes client).cancel).tick client clocks sent else s

def afterStep (s : System) (client : Nat) : Remote.Step → System
  | .goes r => s.setRemote client r
  | .ends finish r => s.end_ client (s.remotes client) finish r

/-- The host was heard of just now, so no tick of a reaction ends the job. -/
def react (s : System) (client : Nat) : Reaction → System
  | .cancel sent => s.cancel client { pendingAge := 0, disconnected := 0 } sent
  | .setPaused paused => s.setRemote client ((s.remotes client).setPaused paused)

def received (s : System) (client : Nat) (id : Text) (response : Response) (slot : List Reaction) : System :=
  match (s.remotes client).receive id response with
  | .over step => s.afterStep client step
  | .status announce r =>
    let known := s.setRemote client r
    let told := if announce then slot.foldl (fun s reaction => s.react client reaction) known else known
    if (told.remotes client).active then told.afterStep client ((told.remotes client).receiveStatus response)
    else told

/-- `peers` are the authenticated names of the clients. -/
def perform (peers : Nat → Text) (s : System) : Action → System
  | .start client job => s.setRemote client ((s.remotes client).start job)
  | .setPaused client paused => s.setRemote client ((s.remotes client).setPaused paused)
  | .cancel client clocks sent => s.cancel client clocks sent
  | .tick client clocks sent => s.tick client clocks sent
  | .receive client answer slot =>
    match s.answers[answer]? with
    | some a => if a.client = client then s.received client a.id a.response slot else s
    | none => s
  | .lose client id error => s.received client id (failure error) []
  | .deliver message storage =>
    match s.sent[message]? with
    | some m =>
      let (response, host) := s.host.handle (peers m.client) m.request storage
      { s with host, answers := s.answers ++ [⟨m.client, m.id, response⟩] }
    | none => s
  | .pump error => { s with host := s.host.pump error }
  | .engineReturns run ending => { s with host := s.host.engineReturns run ending }
  | .save run saved => { s with host := s.host.save run saved }
  | .report run progress => { s with host := s.host.report run progress }
  | .progressed report => { s with host := s.host.progressed report }
  | .finished error => { s with host := s.host.finished error }

def run (peers : Nat → Text) (actions : List Action) (s : System) : System := actions.foldl (perform peers) s

end System

/-! ## What the host answers -/

/-- The status of a completed job, as the host keeps it for its owner. -/
def Published (s : Host) (peer id : Text) (response : Response) : Prop :=
  ∃ job, s.jobs.find? id = some job ∧ job.peer = peer ∧ job.status.state = completed ∧
    job.status.bytes = response.bytes ∧ job.status.sha256 = response.sha256

def Withdrawn (s : Host) (id : Text) : Prop :=
  ∃ job, s.jobs.find? id = some job ∧ (job.cancelled = true ∨ job.status.state = cancelled)

theorem Published.follows {s t : Host} (h : Follows s t) {peer id : Text} {response : Response}
    (hp : Published s peer id response) : Published t peer id response := by
  obtain ⟨job, hjob, hpeer, hstate, hbytes, hhash⟩ := hp
  obtain ⟨after, hafter, hpeer', -, hover⟩ := h id job hjob
  obtain ⟨hstate', hbytes', hhash'⟩ := hover (Or.inl hstate)
  exact ⟨after, hafter, hpeer'.trans hpeer, hstate'.trans hstate, hbytes'.trans hbytes, hhash'.trans hhash⟩

theorem Withdrawn.follows {s t : Host} (h : Follows s t) {id : Text} (hw : Withdrawn s id) : Withdrawn t id := by
  obtain ⟨job, hjob, hcancelled | hstate⟩ := hw
  · obtain ⟨after, hafter, -, hflag, -⟩ := h id job hjob
    exact ⟨after, hafter, Or.inl (hflag hcancelled)⟩
  · obtain ⟨after, hafter, -, -, hover⟩ := h id job hjob
    exact ⟨after, hafter, Or.inr ((hover (Or.inr (Or.inr hstate))).1.trans hstate)⟩

theorem Withdrawn.not_completed {s : Host} (hs : HostSound s) {id : Text} (hw : Withdrawn s id) {job : Job}
    (hjob : s.jobs.find? id = some job) : job.status.state ≠ completed := by
  obtain ⟨other, hother, hwhy⟩ := hw
  cases hjob.symm.trans hother
  rcases hwhy with hcancelled | hstate
  · rcases hs.flagged id job hjob hcancelled with hstate | hstate
    · rw [hstate]
      decide
    · rw [hstate]
      decide
  · rw [hstate]
    decide

section

variable {s : Host} {peer : Text} {request : Request} {storage : Host.Storage}

theorem not_completed_failure (error : Text) : (failure error).state ≠ completed := by
  rintro ⟨⟩

theorem not_completed_read (id : Text) (job : Job) (offset : Int) (file : Option Bytes) :
    (Host.read id job offset file).state ≠ completed := by
  rw [Host.read.eq_def]
  split
  · exact not_completed_failure _
  · split
    · exact not_completed_failure _
    · dsimp only
      split
      · exact not_completed_failure _
      · rintro ⟨⟩

theorem submit_published {id : Text} {input : Input} {modelError : Option Text}
    (howner : ∀ job, s.jobs.find? id = some job → job.peer = peer)
    (h : (s.submit peer id input modelError).1.state = completed) :
    Published (s.submit peer id input modelError).2 peer id (s.submit peer id input modelError).1 := by
  rw [Host.submit.eq_def] at h ⊢
  cases hjob : s.jobs.find? id with
  | some job =>
    rw [hjob] at h
    dsimp only at h ⊢
    split at h
    · exact absurd h (not_completed_failure _)
    · rename_i hsame
      rw [if_neg hsame]
      exact ⟨job, hjob, howner job hjob, h, rfl, rfl⟩
  | none =>
    rw [hjob] at h
    dsimp only at h
    split at h
    · exact absurd h (not_completed_failure _)
    · split at h
      · exact absurd h (not_completed_failure _)
      · cases modelError with
        | some error => exact absurd h (not_completed_failure _)
        | none =>
          dsimp only at h
          split at h
          · exact absurd h (not_completed_failure _)
          · exact absurd (show queued = completed from h) (by decide)

theorem cancelKnown_published {id : Text} {job : Job} (hjob : s.jobs.find? id = some job) (hpeer : job.peer = peer)
    (h : (s.cancelKnown id job).1.state = completed) :
    Published (s.cancelKnown id job).2 peer id (s.cancelKnown id job).1 := by
  rw [Host.cancelKnown] at h ⊢
  dsimp only at h ⊢
  split at h
  · dsimp only at h
    split at h
    · exact absurd h (by decide)
    · exact absurd h (by decide)
  · rename_i hstate
    rw [if_neg hstate]
    exact ⟨job, hjob, hpeer, h, rfl, rfl⟩

theorem handle_published (h : (s.handle peer request storage).1.state = completed) :
    Published (s.handle peer request storage).2 peer request.id.text (s.handle peer request storage).1 := by
  rw [Host.handle] at h ⊢
  split at h
  · exact absurd h (not_completed_failure _)
  · rename_i hpeer
    rw [if_neg hpeer]
    split at h
    · exact absurd h (not_completed_failure _)
    · rename_i hvalid
      rw [if_neg hvalid]
      cases hjob : s.jobs.find? request.id.text with
      | none =>
        rw [hjob] at h
        dsimp only at h ⊢
        split at h
        · rename_i hsubmit
          rw [if_pos hsubmit]
          apply submit_published _ h
          intro job hfound
          rw [hjob] at hfound
          cases hfound
        · split at h
          · rw [Host.cancelUnknown] at h
            split at h
            · exact absurd h (not_completed_failure _)
            · exact absurd (show cancelled = completed from h) (by decide)
          · exact absurd h (not_completed_failure _)
      | some job =>
        rw [hjob] at h
        dsimp only at h ⊢
        split at h
        · exact absurd h (not_completed_failure _)
        · rename_i howner
          rw [Decidable.not_not] at howner
          rw [if_neg (not_not_intro howner)]
          split at h
          · rename_i hsubmit
            rw [if_pos hsubmit]
            apply submit_published _ h
            intro other hother
            cases hjob.symm.trans hother
            exact howner
          · rename_i hsubmit
            rw [if_neg hsubmit]
            split at h
            · rename_i hstatus
              rw [if_pos hstatus]
              exact ⟨job, hjob, howner, h, rfl, rfl⟩
            · rename_i hstatus
              rw [if_neg hstatus]
              split at h
              · rename_i hcancel
                rw [if_pos hcancel]
                exact cancelKnown_published hjob howner h
              · split at h
                · exact absurd h (not_completed_read _ _ _ _)
                · exact absurd h (not_completed_failure _)

theorem handle_withdrawn (haction : request.action.text = text "cancel")
    (h : (s.handle peer request storage).1.state = cancelled ∨ (s.handle peer request storage).1.state = cancelling) :
    Withdrawn (s.handle peer request storage).2 request.id.text := by
  have hfailure : ∀ error, ¬((failure error).state = cancelled ∨ (failure error).state = cancelling) := by
    rintro error (hstate | hstate)
    · exact absurd hstate (by rintro ⟨⟩)
    · exact absurd hstate (by rintro ⟨⟩)
  have hsubmit : request.action.text ≠ text "submit" := by
    rw [haction]
    decide
  have hstatus : request.action.text ≠ text "status" := by
    rw [haction]
    decide
  rw [Host.handle] at h ⊢
  split at h
  · exact absurd h (hfailure _)
  · rename_i hpeer
    rw [if_neg hpeer]
    split at h
    · exact absurd h (hfailure _)
    · rename_i hvalid
      rw [if_neg hvalid]
      cases hjob : s.jobs.find? request.id.text with
      | none =>
        rw [hjob] at h
        dsimp only at h ⊢
        simp only [if_neg hsubmit, if_pos haction, Host.cancelUnknown] at h ⊢
        split at h
        · exact absurd h (hfailure _)
        · rename_i hroom
          rw [if_neg hroom]
          refine ⟨_, Table.find?_insert_self _ _ _, Or.inl ?_⟩
          rfl
      | some job =>
        rw [hjob] at h
        dsimp only at h ⊢
        split at h
        · exact absurd h (hfailure _)
        · rename_i howner
          rw [if_neg howner]
          simp only [if_neg hsubmit, if_neg hstatus, if_pos haction, Host.cancelKnown] at h ⊢
          split at h
          · rename_i hstate
            rw [if_pos hstate]
            refine ⟨_, Table.find?_insert_self _ _ _, Or.inl ?_⟩
            rfl
          · rename_i hstate
            rw [if_neg hstate]
            refine ⟨job, hjob, Or.inr ?_⟩
            rcases h with h | h
            · exact h
            · exact absurd (Or.inr (Or.inr h)) hstate

/-- What every client writes into its requests. -/
structure WellFormed (request : Request) : Prop where
  op : request.op = .string (text "society.generation")
  schema : toInteger request.schema 0 = 1

theorem handle_owner (hs : HostSound s) (hrequest : WellFormed request) (hpeer : peer ≠ []) {job : Job}
    (hjob : s.jobs.find? request.id.text = some job) (hother : job.peer ≠ peer) :
    s.handle peer request storage = (failure (text "generation_owner_mismatch"), s) := by
  have hid := (hs.named _ job hjob).1
  rw [Host.handle, if_neg hpeer, if_neg]
  · rw [hjob]
    dsimp only
    rw [if_pos hother]
  · simp [hrequest.op, hrequest.schema, hid]

end

/-! ## The invariant -/

/-- The image that a client was given is the one whose length and hash the host published. -/
def Delivered (s : Host) (peer id : Text) (image : Bytes) : Prop :=
  ∃ job, s.jobs.find? id = some job ∧ job.peer = peer ∧ job.status.state = completed ∧
    toInteger job.status.bytes 0 = image.length ∧ job.status.sha256.text = sha256 image

structure RemoteSound (peers : Nat → Text) (host : Host) (sent : List Sent) (client : Nat) (r : Remote) : Prop where
  pending : r.pending ≠ [] → ∃ m ∈ sent, m.client = client ∧ m.id = r.pending ∧
    m.request.action = .string r.action ∧ m.request.id = r.jobId ∧ (r.cancelled = true → r.action = text "cancel")
  result : ∀ response, r.result = some response → Published host (peers client) r.jobId.text response

structure SystemSound (peers : Nat → Text) (s : System) : Prop where
  host : HostSound s.host
  serial : ∀ m ∈ s.sent, ∃ n < s.serial, m.id = decimal n
  ids : (s.sent.map Sent.id).Nodup
  formed : ∀ m ∈ s.sent, WellFormed m.request
  answers : ∀ a ∈ s.answers, ∃ m ∈ s.sent, m.client = a.client ∧ m.id = a.id ∧
    (a.response.state = completed → Published s.host (peers m.client) m.request.id.text a.response) ∧
    (m.request.action = .string (text "cancel") → a.response.state = cancelled ∨ a.response.state = cancelling →
      Withdrawn s.host m.request.id.text)
  remotes : ∀ client, RemoteSound peers s.host s.sent client (s.remotes client)
  ended : ∀ e ∈ s.ended, e.finish.state = text "completed" →
    e.cancelled = false ∧ Delivered s.host (peers e.client) e.job.text e.finish.image

theorem Delivered.follows {s t : Host} (h : Follows s t) {peer id : Text} {image : Bytes}
    (hd : Delivered s peer id image) : Delivered t peer id image := by
  obtain ⟨job, hjob, hpeer, hstate, hbytes, hhash⟩ := hd
  obtain ⟨after, hafter, hpeer', -, hover⟩ := h id job hjob
  obtain ⟨hstate', hbytes', hhash'⟩ := hover (Or.inl hstate)
  exact ⟨after, hafter, hpeer'.trans hpeer, hstate'.trans hstate, hbytes' ▸ hbytes, hhash' ▸ hhash⟩

/-- A client without a pending request that knows nothing yet. -/
theorem RemoteSound.fresh {peers : Nat → Text} {host : Host} {sent : List Sent} {client : Nat} {r : Remote}
    (hpending : r.pending = []) (hresult : r.result = none) : RemoteSound peers host sent client r := by
  constructor
  · intro hne
    exact absurd hpending hne
  · intro response hresponse
    rw [hresult] at hresponse
    cases hresponse

/-- A client forgets its pending request. -/
theorem RemoteSound.forget {peers : Nat → Text} {host : Host} {sent : List Sent} {client : Nat} {r k : Remote}
    (h : RemoteSound peers host sent client r) (hpending : k.pending = []) (hresult : k.result = r.result)
    (hjob : k.job = r.job) : RemoteSound peers host sent client k := by
  constructor
  · intro hne
    exact absurd hpending hne
  · intro response hresponse
    rw [Remote.jobId, hjob]
    exact h.result response (hresult ▸ hresponse)

theorem RemoteSound.grow {peers : Nat → Text} {s t : Host} {sent later : List Sent} {client : Nat} {r : Remote}
    (h : RemoteSound peers s sent client r) (hhost : Follows s t) (hsent : sent ⊆ later) :
    RemoteSound peers t later client r := by
  constructor
  · intro hne
    obtain ⟨m, hm, hrest⟩ := h.pending hne
    exact ⟨m, hsent hm, hrest⟩
  · intro response hresponse
    exact (h.result response hresponse).follows hhost

namespace SystemSound

variable {peers : Nat → Text} {s : System}

theorem start : SystemSound peers {} where
  host := HostSound.start
  serial := by
    rintro m ⟨⟩
  ids := List.nodup_nil
  formed := by
    rintro m ⟨⟩
  answers := by
    rintro a ⟨⟩
  remotes := fun _ => RemoteSound.fresh rfl rfl
  ended := by
    rintro e ⟨⟩

theorem setRemote (h : SystemSound peers s) {client : Nat} {r : Remote}
    (hr : RemoteSound peers s.host s.sent client r) : SystemSound peers (s.setRemote client r) := by
  refine { h with remotes := ?_ }
  intro other
  change RemoteSound peers s.host s.sent other (Function.update s.remotes client r other)
  by_cases hother : other = client
  · rw [hother, Function.update_self]
    exact hr
  · rw [Function.update_of_ne hother]
    exact h.remotes other

theorem end_ (h : SystemSound peers s) {client : Nat} {before r : Remote} {finish : Finish}
    (hr : RemoteSound peers s.host s.sent client r)
    (hfinish : finish.state = text "completed" →
      before.cancelled = false ∧ Delivered s.host (peers client) before.jobId.text finish.image) :
    SystemSound peers (s.end_ client before finish r) := by
  refine { h.setRemote hr with ended := ?_ }
  intro e he
  change e ∈ s.ended ++ [⟨client, before.jobId, before.cancelled, finish⟩] at he
  rw [List.mem_append, List.mem_singleton] at he
  rcases he with he | rfl
  · exact h.ended e he
  · exact hfinish

/-- The host takes a step. -/
theorem setHost (h : SystemSound peers s) {host : Host} (hhost : HostSound host ∧ Follows s.host host) :
    SystemSound peers { s with host } := by
  constructor
  · exact hhost.1
  · exact h.serial
  · exact h.ids
  · exact h.formed
  · intro a ha
    obtain ⟨m, hm, hclient, hid, hpublished, hwithdrawn⟩ := h.answers a ha
    refine ⟨m, hm, hclient, hid, ?_, ?_⟩
    · intro hstate
      exact (hpublished hstate).follows hhost.2
    · intro haction hstate
      exact (hwithdrawn haction hstate).follows hhost.2
  · intro client
    exact (h.remotes client).grow hhost.2 (List.Subset.refl _)
  · intro e he hstate
    obtain ⟨hcancelled, hdelivered⟩ := h.ended e he hstate
    exact ⟨hcancelled, hdelivered.follows hhost.2⟩

theorem deliver (h : SystemSound peers s) {m : Sent} (hm : m ∈ s.sent) (storage : Host.Storage) :
    SystemSound peers { s with
      host := (s.host.handle (peers m.client) m.request storage).2
      answers := s.answers ++ [⟨m.client, m.id, (s.host.handle (peers m.client) m.request storage).1⟩] } := by
  have hsound := h.setHost (h.host.handle (peers m.client) m.request storage)
  refine { hsound with answers := ?_ }
  intro a ha
  rw [List.mem_append, List.mem_singleton] at ha
  rcases ha with ha | rfl
  · exact hsound.answers a ha
  · refine ⟨m, hm, rfl, rfl, ?_, ?_⟩
    · exact handle_published
    · intro haction
      apply handle_withdrawn
      rw [haction, Value.text_string]

/-! ## What clients do -/

/-- A request is sent under the next id. -/
theorem send (h : SystemSound peers s) {client : Nat} {r : Remote} {request : Request} (hformed : WellFormed request)
    (haction : request.action = .string r.action) (hid : request.id = r.jobId)
    (hcancel : r.cancelled = true → r.action = text "cancel")
    (hr : RemoteSound peers s.host s.sent client r) :
    SystemSound peers { s.setRemote client { r with pending := decimal s.serial } with
      sent := s.sent ++ [⟨client, decimal s.serial, request⟩]
      serial := s.serial + 1 } := by
  have hsub : s.sent ⊆ s.sent ++ [⟨client, decimal s.serial, request⟩] := List.subset_append_left _ _
  have hnew : RemoteSound peers s.host (s.sent ++ [⟨client, decimal s.serial, request⟩]) client
      { r with pending := decimal s.serial } := by
    constructor
    · intro _
      exact ⟨_, List.mem_append_right _ (List.mem_singleton_self _), rfl, rfl, haction, hid, hcancel⟩
    · exact (hr.grow (Follows.refl _) hsub).result
  constructor
  · exact h.host
  · intro m hm
    dsimp only at hm ⊢
    rw [List.mem_append, List.mem_singleton] at hm
    rcases hm with hm | rfl
    · obtain ⟨n, hn, hid⟩ := h.serial m hm
      exact ⟨n, Nat.lt_succ_of_lt hn, hid⟩
    · exact ⟨s.serial, Nat.lt_succ_self _, rfl⟩
  · dsimp only
    rw [List.map_append, List.map_singleton, List.nodup_append]
    refine ⟨h.ids, List.nodup_singleton _, ?_⟩
    intro a ha b hb hab
    obtain ⟨m, hm, rfl⟩ := List.mem_map.mp ha
    obtain ⟨n, hn, hid⟩ := h.serial m hm
    rw [hid, List.mem_singleton.mp hb] at hab
    exact absurd (decimal_injective hab) hn.ne
  · intro m hm
    dsimp only at hm
    rw [List.mem_append, List.mem_singleton] at hm
    rcases hm with hm | rfl
    · exact h.formed m hm
    · exact hformed
  · intro a ha
    obtain ⟨m, hm, hrest⟩ := h.answers a ha
    exact ⟨m, hsub hm, hrest⟩
  · intro other
    change RemoteSound peers s.host _ other (Function.update s.remotes client _ other)
    by_cases hother : other = client
    · rw [hother, Function.update_self]
      exact hnew
    · rw [Function.update_of_ne hother]
      exact (h.remotes other).grow (Follows.refl _) hsub
  · exact h.ended

theorem request_formed (r : Remote) (action : Text) : WellFormed (r.request action) :=
  ⟨rfl, rfl⟩

theorem tick (h : SystemSound peers s) (client : Nat) (clocks : Remote.Clocks) (sent : Bool) :
    SystemSound peers (s.tick client clocks sent) := by
  have hr := h.remotes client
  rw [System.tick, Remote.tick]
  split
  · rename_i r hnothing
    split at hnothing
    · cases hnothing
      exact h.setRemote hr
    · split at hnothing
      · cases hnothing
        exact h.setRemote hr
      · split at hnothing <;> cases hnothing
  · rename_i finish r hends
    split at hends
    · cases hends
    · split at hends
      · cases hends
      · split at hends
        · cases hends
          apply h.end_ (RemoteSound.fresh rfl rfl)
          intro hfinish
          exact absurd (show text "failed" = text "completed" from hfinish) (by decide)
        · cases hends
  · rename_i request r hsends
    split at hsends
    · cases hsends
    · split at hsends
      · cases hsends
      · split at hsends
        · cases hsends
        · cases hsends
          have hforget := hr.forget (k := { s.remotes client with pending := [], action := (s.remotes client).nextAction })
            rfl rfl rfl
          split
          · apply h.send (request_formed _ _) rfl rfl _ hforget
            intro hcancelled
            dsimp only at hcancelled ⊢
            rw [Remote.nextAction, if_pos hcancelled]
          · exact h.setRemote hforget

theorem cancel (h : SystemSound peers s) (client : Nat) (clocks : Remote.Clocks) (sent : Bool) :
    SystemSound peers (s.cancel client clocks sent) := by
  rw [System.cancel]
  split
  · rename_i hactive
    apply tick
    apply h.setRemote
    rw [Remote.cancel, if_pos hactive]
    exact (h.remotes client).forget rfl rfl rfl
  · exact h

theorem setPaused (h : SystemSound peers s) (client : Nat) (paused : Bool) :
    SystemSound peers (s.setRemote client ((s.remotes client).setPaused paused)) :=
  h.setRemote ((h.remotes client).forget rfl rfl rfl)

end SystemSound

/-! ## What clients make of answers -/

/-- A piece of the image either goes on with the job or ends it; the job is only completed by an image that
fits the status it was read by. -/
theorem receiveRead_spec (r : Remote) (response : Response) :
    match r.receiveRead response with
    | .goes k => ∃ image, k = { r with image }
    | .ends finish k => k.pending = [] ∧ k.result = none ∧ (finish.state = text "completed" →
        ∃ status, r.result = some status ∧ toInteger status.bytes 0 = finish.image.length ∧
          status.sha256.text = sha256 finish.image) := by
  have hfails : ∀ (k : Remote) (error : Text), text "failed" = text "completed" →
      ∃ status, r.result = some status ∧ toInteger status.bytes 0 = (k.complete (text "failed") error).1.image.length ∧
        status.sha256.text = sha256 (k.complete (text "failed") error).1.image := by
    intro k error hfalse
    exact absurd hfalse (by decide)
  rw [Remote.receiveRead]
  cases hdecoded : Base64.decode response.data.text with
  | none => exact ⟨rfl, rfl, hfails _ _⟩
  | some decoded =>
    dsimp only
    split
    · rename_i hif
      split at hif
      · cases hif
      · split at hif
        · split at hif <;> cases hif
        · cases hif
          exact ⟨_, rfl⟩
    · rename_i finish k hif
      split at hif
      · cases hif
        exact ⟨rfl, rfl, hfails _ _⟩
      · rename_i hvalid
        split at hif
        · rename_i hsize
          split at hif
          · cases hif
            exact ⟨rfl, rfl, hfails _ _⟩
          · rename_i hhash
            cases hif
            refine ⟨rfl, rfl, ?_⟩
            intro _
            rw [Decidable.not_not] at hhash
            cases hresult : r.result with
            | none =>
              -- without a status the size is 0, and the piece was not empty
              rw [hresult, Option.getD_none] at hvalid
              simp only [not_or] at hvalid
              have hpositive := List.length_pos_iff.mpr hvalid.2.1
              have hzero : toInteger ({} : Response).bytes 0 = 0 := rfl
              rw [hzero] at hvalid
              omega
            | some status =>
              rw [hresult, Option.getD_some] at hsize hhash
              exact ⟨status, rfl, hsize.symm, hhash.symm⟩
        · cases hif

/-- The status of a job never completes it; at most it becomes known. -/
theorem receiveStatus_spec (r : Remote) (response : Response) :
    match r.receiveStatus response with
    | .goes k => k = r ∨ response.state.text = text "completed" ∧ k = { r with result := some response }
    | .ends finish k => k.pending = [] ∧ k.result = none ∧ finish.state ≠ text "completed" := by
  have hfailed : text "failed" ≠ text "completed" := by decide
  rw [Remote.receiveStatus]
  dsimp only
  split
  · rename_i k hif
    split at hif
    · cases hif
    · split at hif
      · rename_i hstate
        split at hif
        · cases hif
        · split at hif
          · cases hif
          · cases hif
            exact Or.inr ⟨hstate, rfl⟩
      · split at hif
        · cases hif
        · cases hif
          exact Or.inl rfl
  · rename_i finish k hif
    split at hif
    · rename_i hstate
      cases hif
      refine ⟨rfl, rfl, ?_⟩
      change response.state.text ≠ text "completed"
      rcases hstate with hstate | hstate
      · rw [hstate]
        decide
      · rw [hstate]
        decide
    · split at hif
      · split at hif
        · cases hif
          exact ⟨rfl, rfl, hfailed⟩
        · split at hif
          · cases hif
            refine ⟨rfl, rfl, ?_⟩
            change text "cancelled" ≠ text "completed"
            decide
          · cases hif
      · split at hif
        · cases hif
          exact ⟨rfl, rfl, hfailed⟩
        · cases hif

/-! ## The host is left alone by its clients -/

theorem setRemote_host (s : System) (client : Nat) (r : Remote) : (s.setRemote client r).host = s.host := rfl

theorem tick_host (s : System) (client : Nat) (clocks : Remote.Clocks) (sent : Bool) :
    (s.tick client clocks sent).host = s.host := by
  rw [System.tick]
  split
  · rfl
  · rfl
  · split <;> rfl

theorem cancel_host (s : System) (client : Nat) (clocks : Remote.Clocks) (sent : Bool) :
    (s.cancel client clocks sent).host = s.host := by
  rw [System.cancel]
  split
  · rw [tick_host, setRemote_host]
  · rfl

namespace SystemSound

variable {peers : Nat → Text} {s : System}

/-- What the application does when it hears that its job was accepted leaves the job and the host as they are. -/
theorem react (h : SystemSound peers s) (client : Nat) (reaction : Reaction) :
    SystemSound peers (s.react client reaction) ∧ (s.react client reaction).host = s.host ∧
      ((s.react client reaction).remotes client).job = (s.remotes client).job := by
  cases reaction with
  | setPaused paused =>
    refine ⟨h.setPaused client paused, rfl, ?_⟩
    rw [System.react, System.setRemote_self]
    rfl
  | cancel sent =>
    refine ⟨h.cancel client _ sent, ?_⟩
    rw [System.react, System.cancel]
    split
    · rename_i hactive
      rw [System.tick, System.setRemote_self, Remote.cancel, if_pos hactive, Remote.tick]
      split
      · rename_i r hnothing
        split at hnothing
        · cases hnothing
          exact ⟨rfl, by rw [System.setRemote_self]⟩
        · split at hnothing
          · cases hnothing
            exact ⟨rfl, by rw [System.setRemote_self]⟩
          · split at hnothing <;> cases hnothing
      · rename_i finish r hends
        split at hends
        · cases hends
        · split at hends
          · cases hends
          · split at hends
            · rename_i hlate
              exact absurd hlate (by decide)
            · cases hends
      · rename_i request r hsends
        split at hsends
        · cases hsends
        · split at hsends
          · cases hsends
          · split at hsends
            · cases hsends
            · cases hsends
              split
              · exact ⟨rfl, by rw [System.setRemote_self]⟩
              · exact ⟨rfl, by rw [System.setRemote_self]⟩
    · exact ⟨rfl, rfl⟩

theorem reacts (h : SystemSound peers s) (client : Nat) (slot : List Reaction) :
    SystemSound peers (slot.foldl (fun s reaction => s.react client reaction) s) ∧
      (slot.foldl (fun s reaction => s.react client reaction) s).host = s.host ∧
      ((slot.foldl (fun s reaction => s.react client reaction) s).remotes client).job = (s.remotes client).job := by
  induction slot generalizing s with
  | nil => exact ⟨h, rfl, rfl⟩
  | cons reaction slot ih =>
    obtain ⟨hsound, hhost, hjob⟩ := h.react client reaction
    obtain ⟨hrest, hhost', hjob'⟩ := ih hsound
    exact ⟨hrest, hhost'.trans hhost, hjob'.trans hjob⟩

theorem received_host (s : System) (client : Nat) (id : Text) (response : Response) (slot : List Reaction) :
    (s.received client id response slot).host = s.host := by
  have hstep : ∀ (t : System) (step : Remote.Step), (t.afterStep client step).host = t.host := by
    intro t step
    cases step <;> rfl
  rw [System.received]
  split
  · exact hstep s _
  · rename_i announce r hreceived
    have htold : ∀ (l : List Reaction) (t : System),
        (l.foldl (fun s reaction => s.react client reaction) t).host = t.host := by
      intro l
      induction l with
      | nil => exact fun _ => rfl
      | cons reaction l ih =>
        intro t
        rw [List.foldl_cons, ih]
        cases reaction with
        | setPaused paused => rfl
        | cancel sent => exact cancel_host t client _ sent
    dsimp only
    generalize hresult : (if announce = true then slot.foldl (fun s reaction => s.react client reaction)
      (s.setRemote client r) else s.setRemote client r) = told
    have hhost : told.host = s.host := by
      rw [← hresult]
      split
      · rw [htold, setRemote_host]
      · rfl
    split
    · rw [hstep, hhost]
    · exact hhost

/-- An answer is received that tells the truth about the request it belongs to. -/
theorem received (h : SystemSound peers s) (client : Nat) (id : Text) (response : Response) (slot : List Reaction)
    (htruth : ∀ m ∈ s.sent, m.client = client → m.id = id → response.state = completed →
      Published s.host (peers client) m.request.id.text response) :
    SystemSound peers (s.received client id response slot) := by
  have hr := h.remotes client
  have hforget : ∀ k : Remote, k.pending = [] → k.result = (s.remotes client).result →
      k.job = (s.remotes client).job → RemoteSound peers s.host s.sent client k := by
    intro k hpending hresult hjob
    exact hr.forget hpending hresult hjob
  have hfails : ∀ (k : Remote) (error : Text),
      SystemSound peers (s.afterStep client (k.fails error)) := by
    intro k error
    apply h.end_ (RemoteSound.fresh rfl rfl)
    intro hfinish
    exact absurd (show text "failed" = text "completed" from hfinish) (by decide)
  rw [System.received, Remote.receive]
  by_cases hmatch : ¬(s.remotes client).active = true ∨ (s.remotes client).paused = true ∨
      id ≠ (s.remotes client).pending ∨ id = []
  · rw [if_pos hmatch]
    exact h.setRemote hr
  · rw [if_neg hmatch]
    simp only [not_or, Decidable.not_not] at hmatch
    obtain ⟨-, -, hid, hne⟩ := hmatch
    obtain ⟨m, hm, hclient, hmid, haction, hmjob, hcancel⟩ := hr.pending (hid ▸ hne)
    have hpublished : response.state = completed →
        Published s.host (peers client) (s.remotes client).jobId.text response := by
      intro hstate
      rw [← hmjob]
      exact htruth m hm hclient (hmid.trans hid.symm) hstate
    dsimp only
    by_cases hok : ¬response.ok.toBool = true
    · rw [if_pos hok]
      split
      · rename_i step hover
        split at hover
        · cases hover
          exact h.setRemote (hforget _ rfl rfl rfl)
        · cases hover
          exact hfails _ _
      · rename_i announce r hstatus
        split at hstatus <;> cases hstatus
    · rw [if_neg hok]
      by_cases hinvalid : toInteger response.schema 0 ≠ 1 ∨
          response.id ≠ Remote.jobId { s.remotes client with pending := [] }
      · rw [if_pos hinvalid]
        exact hfails _ _
      · rw [if_neg hinvalid]
        by_cases hread : (s.remotes client).action = text "read"
        · -- a cancelled client asks for nothing but to be cancelled
          have hnot : (s.remotes client).cancelled = false := by
            cases hcancelled : (s.remotes client).cancelled with
            | false => rfl
            | true =>
              rw [hcancel hcancelled] at hread
              exact absurd hread (by decide)
          rw [if_pos hread]
          dsimp only
          have hspec := receiveRead_spec { s.remotes client with pending := [] } response
          cases hstep : Remote.receiveRead { s.remotes client with pending := [] } response with
          | goes k =>
            rw [hstep] at hspec
            obtain ⟨image, rfl⟩ := hspec
            exact h.setRemote (hforget _ rfl rfl rfl)
          | ends finish k =>
            rw [hstep] at hspec
            obtain ⟨hpending, hnone, hfinish⟩ := hspec
            apply h.end_ (RemoteSound.fresh hpending hnone)
            intro hstate
            obtain ⟨status, hresult, hbytes, hhash⟩ := hfinish hstate
            obtain ⟨job, hjob, hpeer, hcompleted, hjobBytes, hjobHash⟩ := hr.result status hresult
            exact ⟨hnot, job, hjob, hpeer, hcompleted, hjobBytes ▸ hbytes, hjobHash ▸ hhash⟩
        · rw [if_neg hread]
          -- what is left is a status, which is looked at after the application was told
          have hstatus : ∀ (known : Remote) (announce : Bool), known.pending = [] →
              known.result = (s.remotes client).result → known.job = (s.remotes client).job →
              SystemSound peers (
                let told := if announce then slot.foldl (fun s reaction => s.react client reaction)
                  (s.setRemote client known) else s.setRemote client known
                if (told.remotes client).active then told.afterStep client ((told.remotes client).receiveStatus response)
                else told) := by
            intro known announce hpending hresult hjob
            have hknown := h.setRemote (hforget known hpending hresult hjob)
            have hknownJob : ((s.setRemote client known).remotes client).job = (s.remotes client).job := by
              rw [System.setRemote_self, hjob]
            generalize htold : (if announce = true then slot.foldl (fun s reaction => s.react client reaction)
              (s.setRemote client known) else s.setRemote client known) = told
            have hsound : SystemSound peers told ∧ told.host = s.host ∧
                (told.remotes client).job = (s.remotes client).job := by
              rw [← htold]
              split
              · obtain ⟨hsound, hhost, hsame⟩ := hknown.reacts client slot
                exact ⟨hsound, hhost, hsame.trans hknownJob⟩
              · exact ⟨hknown, rfl, hknownJob⟩
            obtain ⟨hsound, hhost, hsame⟩ := hsound
            dsimp only
            split
            · have hspec := receiveStatus_spec (told.remotes client) response
              have hold := hsound.remotes client
              cases hstep : (told.remotes client).receiveStatus response with
              | goes k =>
                rw [hstep] at hspec
                rcases hspec with rfl | ⟨hstate, rfl⟩
                · exact hsound.setRemote hold
                · refine hsound.setRemote ⟨hold.pending, ?_⟩
                  intro status hstatus
                  cases hstatus
                  rw [hhost]
                  have hcompleted : response.state = completed := by
                    have hstring := (Value.isString_iff response.state).mp
                      (Value.isString_of_text_ne (by rw [hstate]; decide))
                    rw [hstring, hstate]
                    rfl
                  have hpub := hpublished hcompleted
                  rw [Remote.jobId] at hpub ⊢
                  rw [hsame]
                  exact hpub
              | ends finish k =>
                rw [hstep] at hspec
                obtain ⟨hpending, hnone, hfinish⟩ := hspec
                apply hsound.end_ (RemoteSound.fresh hpending hnone)
                intro hstate
                exact absurd hstate hfinish
            · exact hsound
          split
          · rename_i step hover
            split at hover <;> cases hover
          · rename_i announce r hreceived
            split at hreceived
            · cases hreceived
              exact hstatus _ true rfl rfl rfl
            · cases hreceived
              exact hstatus _ false rfl rfl rfl

/-- The transport gives up on a request. -/
theorem lose (h : SystemSound peers s) (client : Nat) (id error : Text) :
    SystemSound peers (s.received client id (failure error) []) := by
  apply h.received
  rintro m hm hclient hid ⟨⟩

theorem perform (h : SystemSound peers s) (action : Action) :
    SystemSound peers (s.perform peers action) ∧ Follows s.host (s.perform peers action).host := by
  cases action with
  | start client job =>
    refine ⟨h.setRemote ?_, Follows.refl _⟩
    rw [Remote.start]
    split
    · exact h.remotes client
    · exact RemoteSound.fresh rfl rfl
  | setPaused client paused => exact ⟨h.setPaused client paused, Follows.refl _⟩
  | cancel client clocks sent =>
    refine ⟨h.cancel client clocks sent, ?_⟩
    rw [System.perform, cancel_host]
    exact Follows.refl _
  | tick client clocks sent =>
    refine ⟨h.tick client clocks sent, ?_⟩
    rw [System.perform, tick_host]
    exact Follows.refl _
  | receive client answer slot =>
    rw [System.perform]
    cases ha : s.answers[answer]? with
    | none => exact ⟨h, Follows.refl _⟩
    | some a =>
      dsimp only
      split
      · rename_i hclient
        rw [received_host]
        refine ⟨h.received client a.id a.response slot ?_, Follows.refl _⟩
        intro m hm hmine hid hstate
        obtain ⟨other, hother, hotherClient, hotherId, hpublished, -⟩ := h.answers a (List.mem_of_getElem? ha)
        have hsame : other = m := List.inj_on_of_nodup_map h.ids hother hm (hotherId.trans hid.symm)
        rw [← hsame, ← hclient, ← hotherClient]
        exact hpublished hstate
      · exact ⟨h, Follows.refl _⟩
  | lose client id error =>
    rw [System.perform, received_host]
    exact ⟨h.lose client id error, Follows.refl _⟩
  | deliver message storage =>
    rw [System.perform]
    cases hm : s.sent[message]? with
    | none => exact ⟨h, Follows.refl _⟩
    | some m => exact ⟨h.deliver (List.mem_of_getElem? hm) storage, (h.host.handle _ m.request storage).2⟩
  | pump error => exact ⟨h.setHost (h.host.pump error), (h.host.pump error).2⟩
  | engineReturns run ending => exact ⟨h.setHost (h.host.engineReturns run ending), (h.host.engineReturns run ending).2⟩
  | save run saved => exact ⟨h.setHost (h.host.save run saved), (h.host.save run saved).2⟩
  | report run progress => exact ⟨h.setHost (h.host.report run progress), (h.host.report run progress).2⟩
  | progressed report => exact ⟨h.setHost (h.host.progressed report), (h.host.progressed report).2⟩
  | finished error => exact ⟨h.setHost (h.host.finished error), (h.host.finished error).2⟩

theorem run (h : SystemSound peers s) (actions : List Action) :
    SystemSound peers (s.run peers actions) ∧ Follows s.host (s.run peers actions).host := by
  induction actions generalizing s with
  | nil => exact ⟨h, Follows.refl _⟩
  | cons action actions ih =>
    obtain ⟨hsound, hfollows⟩ := h.perform action
    obtain ⟨hlast, hrest⟩ := ih hsound
    exact ⟨hlast, hfollows.trans hrest⟩

end SystemSound

/-! ## The protocol -/

/-- The engine runs for one job at a time and once for each; what was cancelled is never completed; jobs answer
to their owners only; and an image is given to a client that did not cancel, as the host published it. -/
structure Protocol (peers : Nat → Text) (s : System) : Prop where
  alone : (s.host.runs.filter fun run => !run.isDone).length ≤ 1
  once : (s.host.runs.map Run.id).Nodup
  withdrawn : ∀ a ∈ s.answers, ∀ m ∈ s.sent, m.id = a.id → m.request.action = .string (text "cancel") →
    a.response.state = cancelled ∨ a.response.state = cancelling →
    ∀ job, s.host.jobs.find? m.request.id.text = some job → job.status.state ≠ completed
  owned : ∀ m ∈ s.sent, ∀ job storage, s.host.jobs.find? m.request.id.text = some job → peers m.client ≠ [] →
    job.peer ≠ peers m.client →
    s.host.handle (peers m.client) m.request storage = (failure (text "generation_owner_mismatch"), s.host)
  delivered : ∀ e ∈ s.ended, e.finish.state = text "completed" →
    e.cancelled = false ∧ Delivered s.host (peers e.client) e.job.text e.finish.image

theorem SystemSound.protocol {peers : Nat → Text} {s : System} (h : SystemSound peers s) : Protocol peers s where
  alone := by
    have hlast : ∀ l : List Run, (∀ i run, l[i]? = some run → run.isDone = false → i + 1 = l.length) →
        (l.filter fun run => !run.isDone).length ≤ 1 := by
      intro l hl
      rcases List.eq_nil_or_concat l with rfl | ⟨front, last, rfl⟩
      · exact Nat.zero_le _
      · have hfront : front.filter (fun run => !run.isDone) = [] := by
          rw [List.filter_eq_nil_iff]
          intro run hrun hopen
          obtain ⟨i, hlt, hi⟩ := List.getElem_of_mem hrun
          have hmem : (front.concat last)[i]? = some run := by
            rw [List.concat_eq_append, List.getElem?_append_left hlt, List.getElem?_eq_getElem hlt, hi]
          have hlength := hl i run hmem (by simpa using hopen)
          rw [List.length_concat] at hlength
          omega
        rw [List.concat_eq_append, List.filter_append, hfront, List.nil_append]
        exact List.length_filter_le _ _
    exact hlast _ fun i run hrun hopen => (h.host.unfinished i run hrun hopen).1
  once := h.host.once
  withdrawn := by
    intro a ha m hm hid haction hstate job hjob
    obtain ⟨other, hother, -, hotherId, -, hwithdrawn⟩ := h.answers a ha
    have hsame : other = m := List.inj_on_of_nodup_map h.ids hother hm (hotherId.trans hid.symm)
    subst hsame
    exact (hwithdrawn haction hstate).not_completed h.host hjob
  owned := by
    intro m hm job storage hjob hpeer hother
    exact handle_owner h.host (h.formed m hm) hpeer hjob hother
  delivered := h.ended

/-- In every run the protocol holds, and a job that is over stays as it ended. -/
theorem generation_protocol (peers : Nat → Text) (actions later : List Action) :
    Protocol peers (System.run peers actions {}) ∧
    ∀ id job, (System.run peers actions {}).host.jobs.find? id = some job → job.status.over →
      ∃ after, (System.run peers later (System.run peers actions {})).host.jobs.find? id = some after ∧
        after.status.state = job.status.state := by
  have h := (@SystemSound.start peers).run actions
  refine ⟨h.1.protocol, ?_⟩
  intro id job hjob hover
  obtain ⟨after, hafter, -, -, hsame⟩ := (h.1.run later).2 id job hjob
  exact ⟨after, hafter, (hsame hover).1⟩

end SocietyHelper.Generation
