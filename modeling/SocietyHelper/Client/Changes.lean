import SocietyHelper.Client.Drive

/-! # What can happen to a drive

Every function of the client is a sequence of a few changes. In between, a timer
that has fired, a request that is about to be sent or a response that has come is
in nobody's list: it is in hand.
-/

namespace SocietyHelper.Client

open Library Sync

def Frame.owed : Frame → List Id
  | .cancelRequests ids _ | .cancelInspections ids _ => ids
  | .answer id _ => [id]
  | .handled _ | .changed => []

def Frame.handles (id : Id) : Frame → Bool
  | .handled j => j = id
  | _ => false

def Timer.sends (id : Id) : Timer → Bool
  | .transmit j _ => j = id
  | _ => false

inductive Hand where
  | empty
  | timeout (timer : Timer)
  | send (id : Id)
  | receive (id : Id) (transport : Option Id)
  | done (id : Id)

namespace Hand

def of : Timer → Hand
  | .transmit id _ => .send id
  | timer => .timeout timer

/-- What is in hand concerns nothing that is still there. -/
def Spent (s : Drive) : Hand → Prop
  | .empty | .timeout (.transmit _ _) | .timeout (.inspect _) | .timeout .refresh => True
  | .timeout (.inspectTimeout id) => s.inspections.find? id = none
  | .timeout (.requestTimeout id) | .send id | .receive id _ | .done id => s.driveRequests.find? id = none

/-- What is in hand ends with a request. -/
def About (id : Id) : Hand → Prop
  | .empty => True
  | .timeout (.requestTimeout j) | .send j | .receive j _ | .done j => j = id
  | .timeout _ => False

end Hand

inductive Change : Hand × Drive → Hand × Drive → Prop
  | kept {h s} (online fits isLocal container scope fresh snapshot refreshAgain) :
      s.fresh ≤ fresh →
      Change (h, s) (h, { s with online, fits, isLocal, container, scope, fresh, snapshot, refreshAgain })
  | scheduled {h s} : Change (h, s) (h, { s with timers := s.timers ++ [.refresh] })
  | asked {h s} (message completion) : Change (h, s) (h, s.ask message completion)
  | opened {h s} (state : Inspection) : Change (h, s) (h, { s with
      fresh := s.fresh + 1
      inspections := s.inspections.insert s.fresh state
      timers := s.timers ++ [.inspect s.fresh, .inspectTimeout s.fresh]
      returned := s.returned ++ [s.fresh] })
  | grown {h s id old} (next) : s.inspections.find? id = some old →
      Change (h, s) (h, { s with inspections := s.inspections.insert id next })
  | told {h s id old} (report) : s.inspections.find? id = some old →
      Change (h, s) (h, { s with inspections := s.inspections.erase id }.report id report)
  | dropped {h s id request} : s.driveRequests.find? id = some request → request.completion.isSome →
      Change (h, s) (h, s.without id request)
  | answered {h s id request} (report) : s.driveRequests.find? id = some request → request.completion = none →
      Change (h, s) (h, (s.without id request).report id report)
  | owed {h s id request} (result) : s.driveRequests.find? id = some request → request.completion = none →
      Change (h, s) (h, { s.without id request with frames := .answer id result :: s.frames })
  | cleared {h s} (error) : Change (h, s) (h, s.clearDrive error)
  | pushed {h s} : Change (h, s) (h, { s with frames := .changed :: s.frames })
  | popped {h s frame frames} : s.frames = frame :: frames → frame.owed = [] → (∀ id, frame.handles id = false) →
      Change (h, s) (h, { s with frames })
  | paid {h s frame frames id} (rest report) : s.frames = frame :: frames → frame.owed = id :: rest.flatMap Frame.owed →
      (∀ f ∈ frame :: rest, ∀ j, f.handles j = false) →
      Change (h, s) (h, { s with frames := rest ++ frames }.report id report)
  | emptied {h s frames} (error) : s.frames = .cancelRequests [] error :: frames →
      Change (h, s) (h, { s with
        inspections := .empty, frames := .cancelInspections s.inspections.keys error :: frames })
  | fired {s timer} (i) : s.timers[i]? = some timer →
      Change (.empty, s) (Hand.of timer, { s with timers := s.timers.eraseIdx i })
  | sentLocal {s id request} : s.driveRequests.find? id = some request → Change (.send id, s) (.empty, { s with
      frames := .handled id :: s.frames
      log := .sent id request.envelope.token none :: s.log })
  | sent {s id request} : s.driveRequests.find? id = some request → Change (.send id, s) (.empty, { s with
      fresh := s.fresh + 1
      driveRequests := s.driveRequests.insert id { request with transport := some s.fresh }
      driveTransports := s.driveTransports.insert s.fresh id
      log := .sent id request.envelope.token (some s.fresh) :: s.log })
  | handed {s id frames} : s.frames = .handled id :: frames → Change (.empty, s) (.receive id none, { s with frames })
  | taken {s id request transport} : s.driveTransports.find? transport = some id →
      s.driveRequests.find? id = some request → Change (.empty, s) (.receive id (some transport), { s with
        driveTransports := s.driveTransports.erase transport
        driveRequests := s.driveRequests.insert id { request with transport := none } })
  | missed {s id transport} : s.driveTransports.find? transport = some id → s.driveRequests.find? id = none →
      Change (.empty, s) (.empty, { s with driveTransports := s.driveTransports.erase transport })
  | polled {s id request transport} (delay pollDelay) : s.driveRequests.find? id = some request →
      Change (.receive id transport, s) (.empty, { s with
        driveRequests := s.driveRequests.insert id { request with transport := none, pollDelay }
        timers := s.timers ++ [.transmit id delay]
        log := .answered id transport .pending :: s.log })
  | retried {s id request transport} (delay pollDelay) : s.driveRequests.find? id = some request →
      Change (.receive id transport, s) (.empty, { s with
        fresh := s.fresh + 1
        driveRequests := s.driveRequests.insert id { request with
          envelope := { request.envelope with token := s.fresh }, transport := none, pollDelay }
        timers := s.timers ++ [.transmit id delay]
        log := .answered id transport .busy :: s.log })
  | ended {s id request transport} (result) : s.driveRequests.find? id = some request →
      Change (.receive id transport, s) (.done id, { s with
        driveRequests := s.driveRequests.insert id { request with transport := none }
        log := .answered id transport (.final result) :: s.log })
  | letGo {h s} : Hand.Spent s h → Change (h, s) (.empty, s)

abbrev Changes := Relation.ReflTransGen Change

namespace Drive

variable {c : Checks} {hand : Hand} {s : Drive} {id : Id}

theorem finishInspection_changes (r : Report) : Changes (hand, s) (hand, s.finishInspection id r) := by
  rw [finishInspection]
  split
  · exact .refl
  · rename_i old hold
    exact .single (.told r hold)

theorem requestDrive_changes (message : Message) (completion : Option Completion) :
    Changes (hand, s) (hand, (s.requestDrive message completion).2) := by
  rw [requestDrive]
  split
  · exact .refl
  · exact .single (.asked message completion)

theorem finishSnapshot_changes (state : Id) : Changes (hand, s) (hand, s.finishSnapshot state) := by
  rw [finishSnapshot]
  split
  · exact .tail (.single (.kept s.online s.fits s.isLocal s.container s.scope s.fresh none s.refreshAgain (Nat.le_refl _)))
      .pushed
  · exact .refl

theorem catalogPage_changes (state : Snapshot) : Changes (hand, s) (hand, s.catalogPage state) := by
  rw [catalogPage]
  generalize Message.mk (text "drive.catalog") _ = message
  have hrequest : Changes (hand, s) (hand, (s.requestDrive message (some (.catalog state))).2) :=
    requestDrive_changes message _
  split
  · rename_i t heq
    rw [heq] at hrequest
    exact hrequest.trans (finishSnapshot_changes state.id)
  · rename_i t heq
    rw [heq] at hrequest
    exact hrequest

theorem refreshHost_changes : Changes (hand, s) (hand, s.refreshHost) := by
  rw [refreshHost]
  split
  · exact .refl
  split
  · exact .single (.kept s.online s.fits s.isLocal s.container s.scope s.fresh s.snapshot true (Nat.le_refl _))
  · have hkept : Change (hand, s) (hand, { s with fresh := s.fresh + 1, snapshot := some s.fresh }) :=
      .kept s.online s.fits s.isLocal s.container s.scope (s.fresh + 1) (some s.fresh) s.refreshAgain (Nat.le_succ _)
    have hrequest := (Relation.ReflTransGen.single hkept).trans
      (requestDrive_changes { action := text "drive.describe" } (some (.describe s.fresh)))
    dsimp only
    split
    · rename_i t heq
      rw [heq] at hrequest
      exact hrequest.trans (finishSnapshot_changes s.fresh)
    · rename_i t heq
      rw [heq] at hrequest
      exact hrequest

theorem inspectPage_changes : Changes (hand, s) (hand, s.inspectPage id) := by
  rw [inspectPage]
  split
  · exact .refl
  · rename_i state hstate
    dsimp only
    generalize Message.mk (text "drive.inspect") _ = message
    have hrequest : Changes (hand, s) (hand, (s.requestDrive message (some (.inspect id))).2) :=
      requestDrive_changes message _
    split
    · rename_i t heq
      rw [heq] at hrequest
      exact hrequest.trans (finishInspection_changes _)
    · rename_i t heq
      rw [heq] at hrequest
      exact hrequest

theorem complete_changes (completion : Completion) (result : Result) :
    Changes (hand, s) (hand, s.complete c completion result) := by
  rw [complete.eq_def]
  cases completion with
  | inspect id =>
    dsimp only
    split
    · exact .refl
    · rename_i state hstate
      split
      · exact finishInspection_changes _
      · exact (Relation.ReflTransGen.single (.grown _ hstate)).trans inspectPage_changes
  | describe state =>
    dsimp only
    split
    · exact .refl
    split
    · exact finishSnapshot_changes state
    · exact catalogPage_changes _
  | catalog state =>
    dsimp only
    split
    · exact .refl
    split
    · exact finishSnapshot_changes state.id
    split
    · exact finishSnapshot_changes state.id
    · split
      · exact finishSnapshot_changes state.id
      · exact catalogPage_changes _

theorem find?_without (request : DriveRequest) : (s.without id request).driveRequests.find? id = none := by
  rw [without, Table.find?_erase, if_pos rfl]

theorem spent_of_about (habout : hand.About id) (hnone : s.driveRequests.find? id = none) : hand.Spent s := by
  cases hand with
  | empty => trivial
  | timeout timer =>
    cases timer with
    | requestTimeout j => exact habout ▸ hnone
    | transmit j delay => trivial
    | inspect j => trivial
    | inspectTimeout j => exact habout.elim
    | refresh => trivial
  | send j => exact habout ▸ hnone
  | receive j transport => exact habout ▸ hnone
  | done j => exact habout ▸ hnone

/-- A request that is finished leaves nothing in hand. -/
theorem finishDrive_changes (habout : hand.About id) (result : Result) :
    Changes (hand, s) (.empty, s.finishDrive c id result) := by
  rw [finishDrive]
  split
  · rename_i hnone
    exact .single (.letGo (spent_of_about habout hnone))
  · rename_i request hrequest
    dsimp only
    split
    · rename_i completion hcompletion
      have hsome : request.completion.isSome := by rw [hcompletion]; rfl
      exact ((Relation.ReflTransGen.single (.dropped hrequest hsome)).tail (.letGo (spent_of_about habout (find?_without request)))).trans
        (complete_changes completion result)
    · rename_i hcompletion
      split
      · exact ((Relation.ReflTransGen.single (.owed result hrequest hcompletion)).tail
          (.letGo (spent_of_about habout (find?_without request)))).trans refreshHost_changes
      · exact (Relation.ReflTransGen.single (.answered _ hrequest hcompletion)).tail
          (.letGo (spent_of_about habout (find?_without request)))

theorem transmitDrive_changes (accepted : Bool) : Changes (.send id, s) (.empty, s.transmitDrive c id accepted) := by
  have habout : (Hand.send id).About id := rfl
  rw [transmitDrive]
  split
  · rename_i hnone
    exact .single (.letGo hnone)
  · rename_i request hrequest
    split
    · exact finishDrive_changes habout _
    split
    · exact .single (.sentLocal hrequest)
    split
    · exact finishDrive_changes habout _
    · exact .single (.sent hrequest)

theorem receiveDrive_changes (transport : Option Id) (response : Response) :
    Changes (.receive id transport, s) (.empty, s.receiveDrive c id transport response) := by
  rw [receiveDrive]
  split
  · rename_i hnone
    exact .single (.letGo hnone)
  · rename_i request hrequest
    cases hverdict : s.verdict response with
    | pending =>
      simp only [poll, Table.insert_insert]
      exact .single (.polled _ _ hrequest)
    | busy =>
      simp only [poll, Table.insert_insert]
      exact .single (.retried _ _ hrequest)
    | final result =>
      have habout : (Hand.done id).About id := rfl
      exact (Relation.ReflTransGen.single (.ended result hrequest)).trans (finishDrive_changes habout result)

theorem completed_changes (transport : Id) (response : Response) :
    Changes (.empty, s) (.empty, s.completed c transport response) := by
  rw [completed]
  split
  · exact .refl
  · rename_i id hid
    cases hrequest : s.driveRequests.find? id with
    | none =>
      rw [receiveDrive]
      simp only [hrequest]
      exact .single (.missed hid hrequest)
    | some request =>
      have hreceive := @receiveDrive_changes c { s with
        driveTransports := s.driveTransports.erase transport
        driveRequests := s.driveRequests.insert id { request with transport := none } } id (some transport) response
      have hsame : receiveDrive c id (some transport) response { s with
          driveTransports := s.driveTransports.erase transport
          driveRequests := s.driveRequests.insert id { request with transport := none } } =
          receiveDrive c id (some transport) response { s with driveTransports := s.driveTransports.erase transport } := by
        simp only [receiveDrive, hrequest, Table.find?_insert_self, Table.insert_insert]
        rfl
      rw [hsame] at hreceive
      exact (Relation.ReflTransGen.single (.taken hid hrequest)).trans hreceive

theorem resume_changes (response : Response) : Changes (.empty, s) (.empty, s.resume c response) := by
  rw [resume]
  split
  · exact .refl
  · rename_i id ids error frames hframes
    exact .single (.paid [.cancelRequests ids error] _ hframes (by simp [Frame.owed]) (by simp [Frame.handles]))
  · rename_i error frames hframes
    exact .single (.emptied error hframes)
  · rename_i id ids error frames hframes
    exact .single (.paid [.cancelInspections ids error] _ hframes (by simp [Frame.owed]) (by simp [Frame.handles]))
  · rename_i error frames hframes
    exact .single (.popped hframes rfl fun _ => rfl)
  · rename_i id result frames hframes
    exact .single (.paid [] _ hframes rfl (by simp [Frame.handles]))
  · rename_i id frames hframes
    exact (Relation.ReflTransGen.single (.handed hframes)).trans (receiveDrive_changes none response)
  · rename_i frames hframes
    have hpopped : Change (.empty, s) (.empty, { s with frames }) := .popped hframes rfl fun _ => rfl
    split
    · exact ((Relation.ReflTransGen.single hpopped).tail (.kept s.online s.fits s.isLocal s.container s.scope s.fresh
        s.snapshot false (Nat.le_refl _))).tail .scheduled
    · exact .single hpopped

theorem fire_changes (accepted : Bool) (timer : Timer) : Changes (Hand.of timer, s) (.empty, s.fire c accepted timer) := by
  cases timer with
  | transmit id delay => exact transmitDrive_changes accepted
  | requestTimeout id =>
    have habout : (Hand.timeout (.requestTimeout id)).About id := rfl
    exact finishDrive_changes habout _
  | inspect id => exact (Relation.ReflTransGen.single (.letGo trivial)).trans inspectPage_changes
  | inspectTimeout id =>
    refine (finishInspection_changes (.host (driveError (text "host_request_timeout")))).tail (.letGo ?_)
    show (s.finishInspection id _).inspections.find? id = none
    rw [finishInspection]
    split
    · assumption
    · rw [report, Table.find?_erase, if_pos rfl]
  | refresh => exact (Relation.ReflTransGen.single (.letGo trivial)).trans refreshHost_changes

/-- Every event is a sequence of changes, from empty hands to empty hands. -/
theorem step_changes (e : Event) : Changes (.empty, s) (.empty, s.step c e) := by
  have hkept : ∀ online, Change (.empty, s) (.empty, { s with online }) := fun online =>
    .kept online s.fits s.isLocal s.container s.scope s.fresh s.snapshot s.refreshAgain (Nat.le_refl _)
  cases e with
  | call call =>
    rw [step]
    split
    · exact .refl
    · exact requestDrive_changes _ none
  | inspectHostFile path =>
    rw [step, inspectHostFile]
    split
    · exact .refl
    · exact .single (.opened _)
  | refreshHost => exact refreshHost_changes
  | fire i accepted =>
    rw [step]
    split
    · exact .refl
    · rename_i timer htimer
      exact (Relation.ReflTransGen.single (.fired i htimer)).trans (fire_changes accepted timer)
  | completed transport response => exact completed_changes transport response
  | resume response => exact resume_changes response
  | peers online =>
    rw [step, peers]
    split
    · exact (Relation.ReflTransGen.single (hkept online)).tail (.cleared _)
    split
    · exact (Relation.ReflTransGen.single (hkept online)).trans refreshHost_changes
    · exact .single (hkept online)
  | transportStop => exact (Relation.ReflTransGen.single (hkept false)).tail (.cleared _)
  | account fits isLocal container scope =>
    exact .single (.kept s.online fits isLocal container scope s.fresh s.snapshot s.refreshAgain (Nat.le_refl _))

theorem run_changes (events : List Event) : Changes (.empty, s) (.empty, s.run c events) := by
  induction events generalizing s with
  | nil => exact .refl
  | cons e events ih => exact (step_changes e).trans ih

end Drive

end SocietyHelper.Client
