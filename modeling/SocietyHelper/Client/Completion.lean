import SocietyHelper.Client.Tokens

/-! # Drive requests complete exactly once

Whatever happens, a request of a caller is reported at most once, functions that have
called out come to their end, and then a request that is not yet reported has a
timeout whose firing reports it.
-/

namespace SocietyHelper.Client

open Library Sync

namespace Drive

variable {c : Checks} {s t : Drive} {id : Id}

/-! ## Functions that have called out -/

def weight : Frame → Nat
  | .cancelRequests ids _ => ids.length + 2
  | .cancelInspections ids _ => ids.length + 1
  | .answer _ _ | .changed => 1
  | .handled _ => 4

/-- How often the frames can be resumed. -/
def load (s : Drive) : Nat := (s.frames.map weight).sum + s.inspections.rows.length

theorem load_finishInspection (s : Drive) (id : Id) (r : Report) : (s.finishInspection id r).load ≤ s.load := by
  rw [finishInspection]
  split
  · exact Nat.le_refl _
  · exact Nat.add_le_add_left (List.length_filter_le _ _) _

theorem load_requestDrive (s : Drive) (message : Message) (completion : Option Completion) :
    (s.requestDrive message completion).2.load = s.load := by
  rw [requestDrive]
  split
  · rfl
  · rfl

theorem load_finishSnapshot (s : Drive) (state : Id) : (s.finishSnapshot state).load ≤ s.load + 1 := by
  rw [finishSnapshot]
  split
  · simp only [load, List.map_cons, List.sum_cons, weight]
    omega
  · exact Nat.le_succ _

theorem load_catalogPage (s : Drive) (state : Snapshot) : (s.catalogPage state).load ≤ s.load + 1 := by
  rw [catalogPage]
  generalize Message.mk (text "drive.catalog") _ = message
  have hload := load_requestDrive s message (some (.catalog state))
  split
  · rename_i t heq
    rw [heq] at hload
    exact (load_finishSnapshot t state.id).trans_eq (congrArg (· + 1) hload)
  · rename_i t heq
    rw [heq] at hload
    exact hload.trans_le (Nat.le_succ _)

theorem load_refreshHost (s : Drive) : s.refreshHost.load ≤ s.load + 1 := by
  rw [refreshHost]
  split
  · exact Nat.le_succ _
  split
  · exact Nat.le_succ _
  · have hload := load_requestDrive { s with fresh := s.fresh + 1, snapshot := some s.fresh }
      { action := text "drive.describe" } (some (.describe s.fresh))
    dsimp only
    split
    · rename_i t heq
      rw [heq] at hload
      exact (load_finishSnapshot t s.fresh).trans_eq (congrArg (· + 1) hload)
    · rename_i t heq
      rw [heq] at hload
      exact hload.trans_le (Nat.le_succ _)

theorem load_inspectPage (s : Drive) (id : Id) : (s.inspectPage id).load ≤ s.load := by
  rw [inspectPage]
  split
  · exact Nat.le_refl _
  · dsimp only
    generalize Message.mk (text "drive.inspect") _ = message
    have hload := load_requestDrive s message (some (.inspect id))
    split
    · rename_i t heq
      rw [heq] at hload
      exact (load_finishInspection t id _).trans_eq hload
    · rename_i t heq
      rw [heq] at hload
      exact hload.le

theorem load_complete (s : Drive) (completion : Completion) (result : Result) :
    (s.complete c completion result).load ≤ s.load + 1 := by
  rw [complete.eq_def]
  cases completion with
  | inspect id =>
    dsimp only
    split
    · exact Nat.le_succ _
    · rename_i state hstate
      split
      · exact (load_finishInspection s id _).trans (Nat.le_succ _)
      · rename_i next _
        have hload : ({ s with inspections := s.inspections.insert id next } : Drive).load = s.load :=
          congrArg ((s.frames.map weight).sum + ·) (Table.length_insert_of_find? s.inspections next hstate)
        exact ((load_inspectPage _ id).trans_eq hload).trans (Nat.le_succ _)
  | describe state =>
    dsimp only
    split
    · exact Nat.le_succ _
    split
    · exact load_finishSnapshot s state
    · exact load_catalogPage s _
  | catalog state =>
    dsimp only
    split
    · exact Nat.le_succ _
    split
    · exact load_finishSnapshot s state.id
    split
    · exact load_finishSnapshot s state.id
    · split
      · exact load_finishSnapshot s state.id
      · exact load_catalogPage s _

theorem load_finishDrive (s : Drive) (id : Id) (result : Result) : (s.finishDrive c id result).load ≤ s.load + 2 := by
  rw [finishDrive]
  split
  · exact Nat.le_add_right _ _
  · rename_i request hrequest
    dsimp only
    have hload : (s.without id request).load = s.load := rfl
    split
    · have hcomplete := load_complete (c := c) (s.without id request) ‹Completion› result
      omega
    · split
      · have hrefresh := load_refreshHost { s.without id request with
          frames := .answer id result :: (s.without id request).frames }
        refine hrefresh.trans ?_
        simp only [load, List.map_cons, List.sum_cons, weight] at hload ⊢
        omega
      · exact hload.trans_le (Nat.le_add_right _ _)

theorem load_receiveDrive (s : Drive) (id : Id) (transport : Option Id) (response : Response) :
    (s.receiveDrive c id transport response).load ≤ s.load + 2 := by
  rw [receiveDrive]
  split
  · exact Nat.le_add_right _ _
  · dsimp only
    split
    · exact Nat.le_add_right _ _
    · exact Nat.le_add_right _ _
    · exact load_finishDrive _ id _

theorem load_resume (response : Response) (h : s.frames ≠ []) : (s.resume c response).load < s.load := by
  rw [resume]
  split
  · rename_i hnil
    exact absurd hnil h
  · rename_i id ids error frames hframes
    simp only [load, report, hframes, List.map_cons, List.sum_cons, weight, List.length_cons]
    omega
  · rename_i error frames hframes
    have hlength : s.inspections.keys.length = s.inspections.rows.length := List.length_map _
    have hempty : (Table.empty : Table Id Inspection).rows.length = 0 := rfl
    simp only [load, hframes, List.map_cons, List.sum_cons, weight, List.length_nil]
    omega
  · rename_i id ids error frames hframes
    simp only [load, report, hframes, List.map_cons, List.sum_cons, weight, List.length_cons]
    omega
  · rename_i error frames hframes
    simp only [load, hframes, List.map_cons, List.sum_cons, weight]
    omega
  · rename_i id result frames hframes
    simp only [load, report, hframes, List.map_cons, List.sum_cons, weight]
    omega
  · rename_i id frames hframes
    have hreceive := load_receiveDrive (c := c) { s with frames } id none response
    refine hreceive.trans_lt ?_
    simp only [load, hframes, List.map_cons, List.sum_cons, weight]
    omega
  · rename_i frames hframes
    split
    · simp only [load, hframes, List.map_cons, List.sum_cons, weight]
      omega
    · simp only [load, hframes, List.map_cons, List.sum_cons, weight]
      omega

theorem resume_nil (response : Response) (h : s.frames = []) : s.resume c response = s := by
  rw [resume, h]

theorem run_resume_nil (responses : List Response) (h : s.frames = []) : s.run c (responses.map .resume) = s := by
  induction responses with
  | nil => rfl
  | cons response responses ih =>
    show (s.resume c response).run c (responses.map .resume) = s
    rw [resume_nil response h]
    exact ih

/-- Slots that return let every function come to its end. -/
theorem frames_resumed (responses : List Response) (h : s.load ≤ responses.length) :
    (s.run c (responses.map .resume)).frames = [] := by
  induction responses generalizing s with
  | nil =>
    cases hframes : s.frames with
    | nil => exact hframes
    | cons frame frames =>
      have hless := load_resume (c := c) {} (s := s) (by rw [hframes]; exact List.cons_ne_nil _ _)
      rw [List.length_nil] at h
      omega
  | cons response responses ih =>
    by_cases hframes : s.frames = []
    · rw [run_resume_nil _ hframes]
      exact hframes
    · have hless := load_resume (c := c) response hframes
      rw [List.length_cons] at h
      exact ih (s := s.resume c response) (by omega)

/-! ## Runs -/

theorem accounts_changes {hand next : Hand} (hchanges : Changes (hand, s) (next, t)) (h : Accounts s) : Accounts t := by
  have hall : ∀ b, Changes (hand, s) b → Accounts b.2 := by
    intro b hb
    induction hb with
    | refl => exact h
    | tail _ hchange ih => exact ih.step hchange
  exact hall _ hchanges

theorem timeouts_changes {hand next : Hand} (hchanges : Changes (hand, s) (next, t)) (h : Timeouts hand s) :
    Timeouts next t := by
  have hall : ∀ b, Changes (hand, s) b → Timeouts b.1 b.2 := by
    intro b hb
    induction hb with
    | refl => exact h
    | tail _ hchange ih => exact ih.step hchange
  exact hall _ hchanges

theorem moves_changes {hand next : Hand} (hchanges : Changes (hand, s) (next, t)) (h : Moves hand s) : Moves next t := by
  have hall : ∀ b, Changes (hand, s) b → Moves b.1 b.2 := by
    intro b hb
    induction hb with
    | refl => exact h
    | tail _ hchange ih => exact ih.step hchange
  exact hall _ hchanges

theorem returned_changes {hand next : Hand} (hchanges : Changes (hand, s) (next, t)) (hid : id ∈ s.returned) :
    id ∈ t.returned := by
  have hall : ∀ b, Changes (hand, s) b → id ∈ b.2.returned := by
    intro b hb
    induction hb with
    | refl => exact hid
    | tail _ hchange ih => exact returned_step hchange ih
  exact hall _ hchanges

/-- A client that has not been used. -/
def start (fits isLocal : Bool) (container scope : Text) : Drive := { fits, isLocal, container, scope }

section

variable (fits isLocal : Bool) (container scope : Text)

theorem accounts_start : Accounts (start fits isLocal container scope) :=
  ⟨fun _ => rfl, List.nodup_nil, fun _ hid => nomatch hid⟩

theorem timeouts_start : Timeouts .empty (start fits isLocal container scope) :=
  ⟨fun _ hid => (nomatch hid), fun _ hid => (nomatch hid)⟩

theorem moves_start : Moves .empty (start fits isLocal container scope) := by
  constructor
  · exact fun _ _ hrequest => nomatch hrequest
  · exact fun _ _ _ _ hrequest => nomatch hrequest
  · exact fun _ _ => rfl
  · exact fun _ _ hrequest => nomatch hrequest
  · intro transport id
    constructor
    · exact fun hid => nomatch hid
    · rintro ⟨request, hrequest, -⟩
      cases hrequest
  · exact fun _ _ hrequest => nomatch hrequest
  · exact fun _ _ hrequest => nomatch hrequest
  · exact fun _ he => nomatch he
  · trivial

end

/-! ## Completion -/

def Timer.timesOut (id : Id) (timer : Timer) : Prop := timer = .requestTimeout id ∨ timer = .inspectTimeout id

/-- The timeout of a request of a caller, or of an inspection, reports it. -/
theorem fire_timeout (haccounts : Accounts s) (htimeouts : Timeouts .empty s) (hid : id ∈ s.returned)
    (hframes : s.frames = []) (hreports : s.reports id = 0) :
    ∃ i timer, s.timers[i]? = some timer ∧ Timer.timesOut id timer ∧
      ∀ accepted, (s.step c (.fire i accepted)).reports id = 1 := by
  have hone := haccounts.placed id
  rw [List.count_eq_one_of_mem haccounts.once hid, places, hreports, owed, hframes, waiting] at hone
  cases hstate : s.inspections.find? id with
  | some state =>
    have hmem := (htimeouts.inspections id (by rw [hstate]; rfl)).resolve_left fun h => by cases h
    obtain ⟨i, hi, hget⟩ := List.getElem_of_mem hmem
    have htimer : s.timers[i]? = some (.inspectTimeout id) := List.getElem?_eq_some_iff.mpr ⟨hi, hget⟩
    refine ⟨i, _, htimer, Or.inr rfl, fun accepted => ?_⟩
    rw [step, htimer]
    simp only [fire, finishInspection, hstate]
    rw [reports_report, if_pos rfl]
    exact congrArg (· + 1) hreports
  | none =>
    cases hrequest : s.driveRequests.find? id with
    | none =>
      rw [hstate, hrequest] at hone
      cases hone
    | some request =>
      have hnone : request.completion = none := by
        cases hcompletion : request.completion with
        | none => rfl
        | some completion =>
          simp [hstate, hrequest, hcompletion] at hone
      have hmem := (htimeouts.requests id (by rw [hrequest]; rfl)).resolve_left fun h => by cases h
      obtain ⟨i, hi, hget⟩ := List.getElem_of_mem hmem
      have htimer : s.timers[i]? = some (.requestTimeout id) := List.getElem?_eq_some_iff.mpr ⟨hi, hget⟩
      refine ⟨i, _, htimer, Or.inl rfl, fun accepted => ?_⟩
      have hbad : ¬((driveError (text "host_request_timeout")).ok.toBool = true ∧
          (request.envelope.message.action = text "drive.write" ∨
            request.envelope.message.action = text "drive.mkdir")) := fun hboth => by cases hboth.1
      rw [step, htimer]
      simp only [fire, finishDrive, hrequest, hnone]
      rw [if_neg hbad, reports_report, if_pos rfl]
      exact congrArg (· + 1) hreports

/-- What a polite log says of a response. -/
theorem polite_answered {log front rest : List Entry} {transport : Option Id} {verdict : Verdict} (h : Polite log)
    (hlog : log = front ++ .answered id transport verdict :: rest) : ∃ token, Away rest id token transport := by
  subst hlog
  induction front with
  | nil => exact h.2
  | cons e front ih =>
    cases e with
    | sent j token via => exact ih h.1
    | answered j via verdict => exact ih h.1

theorem polite_sent {log front rest : List Entry} {token : Id} {transport : Option Id} (h : Polite log)
    (hlog : log = front ++ .sent id token transport :: rest) :
    Ready rest id token ∧ ∀ t, transport = some t → ∀ e ∈ rest, e.transport? ≠ some t := by
  subst hlog
  induction front with
  | nil => exact h.2
  | cons e front ih =>
    cases e with
    | sent j token via => exact ih h.1
    | answered j via verdict => exact ih h.1

/-- Two requests are not sent with one transport identifier. -/
theorem polite_transport {log : List Entry} (h : Polite log) {i j a b via : Id}
    (hi : .sent i a (some via) ∈ log) (hj : .sent j b (some via) ∈ log) : i = j := by
  induction log with
  | nil => cases hi
  | cons e log ih =>
    rcases List.mem_cons.mp hi with rfl | hiold
    · rcases List.mem_cons.mp hj with hsame | hjold
      · cases hsame
        rfl
      · exact absurd rfl (h.2.2 via rfl _ hjold)
    · rcases List.mem_cons.mp hj with rfl | hjold
      · exact absurd rfl (h.2.2 via rfl _ hiold)
      · cases e with
        | sent k token transport => exact ih h.1 hiold hjold
        | answered k transport verdict => exact ih h.1 hiold hjold

/-- In every run each identifier that a caller got is reported at most once, and nothing else is
reported. Once the slots have returned, it has been reported, or its timeout is pending and reports
it. A response comes to the request that was last sent with its transport, and a request is sent
again under its token after a response that was pending, and under a new one after a busy host. -/
theorem completes_once (c : Checks) (fits isLocal : Bool) (container scope : Text) (events : List Event) :
    let s := (start fits isLocal container scope).run c events
    (∀ id, s.reports id ≤ 1 ∧ (0 < s.reports id → id ∈ s.returned)) ∧
    (∀ id ∈ s.returned, ∀ responses : List Response, s.load ≤ responses.length →
      let t := s.run c (responses.map .resume)
      t.frames = [] ∧ (t.reports id = 1 ∨ ∃ i timer, t.timers[i]? = some timer ∧ Timer.timesOut id timer ∧
        ∀ accepted, (t.step c (.fire i accepted)).reports id = 1)) ∧
    (∀ front rest id transport verdict, s.log = front ++ .answered id transport verdict :: rest →
      (∃ token, Away rest id token transport) ∧
        ∀ other token via, transport = some via → .sent other token (some via) ∈ s.log → other = id) ∧
    ∀ front rest id token transport, s.log = front ++ .sent id token transport :: rest → Ready rest id token := by
  intro s
  have hchanges : Changes (.empty, start fits isLocal container scope) (.empty, s) := run_changes events
  have haccounts := accounts_changes hchanges (accounts_start fits isLocal container scope)
  have htimeouts := timeouts_changes hchanges (timeouts_start fits isLocal container scope)
  have hpolite := (moves_changes hchanges (moves_start fits isLocal container scope)).polite
  refine ⟨fun id => ?_, fun id hid responses hresponses => ?_, fun front rest id transport verdict hlog => ?_,
    fun front rest id token transport hlog => (polite_sent hpolite hlog).1⟩
  · have hplaced := haccounts.placed id
    have honce := List.nodup_iff_count_le_one.mp haccounts.once id
    rw [places] at hplaced
    refine ⟨by omega, fun hpositive => List.count_pos_iff.mp ?_⟩
    omega
  · intro t
    have hafter : Changes (.empty, s) (.empty, t) := run_changes (responses.map .resume)
    have hframes : t.frames = [] := frames_resumed responses hresponses
    have hmoved := accounts_changes hafter haccounts
    have hmem := returned_changes hafter hid
    refine ⟨hframes, ?_⟩
    by_cases hreports : t.reports id = 0
    · exact Or.inr (fire_timeout hmoved (timeouts_changes hafter htimeouts) hmem hframes hreports)
    · have hplaced := hmoved.placed id
      rw [List.count_eq_one_of_mem hmoved.once hmem, places] at hplaced
      exact Or.inl (by omega)
  · obtain ⟨token, haway⟩ := polite_answered hpolite hlog
    refine ⟨⟨token, haway⟩, fun other old via htransport hsent => ?_⟩
    subst htransport
    have hmem : .sent id token (some via) ∈ s.log := by
      rw [hlog]
      exact List.mem_append_right _ (List.mem_cons_of_mem _ (List.mem_of_find?_eq_some haway))
    exact polite_transport hpolite hsent hmem

/-- A host that is busy at first, and answers twice afterwards. -/
example :
    let checks : Checks := ⟨fun _ => true, fun _ => none, 1, fun _ => none, fun s _ => .ok s⟩
    let s := (start true false [] []).run checks [.peers true, .call (.statHostEntry (text "documents/a.txt")),
      .fire 2 true, .completed 5 { ok := .bool false, error := .string (text "sync_store_busy") }, .fire 3 true,
      .completed 7 { ok := .bool true, result := some { ok := .bool true, container := .string [] } },
      .completed 7 { ok := .bool true }]
    s.returned = [3] ∧ s.reports 3 = 1 := by
  decide +kernel

end Drive

end SocietyHelper.Client
