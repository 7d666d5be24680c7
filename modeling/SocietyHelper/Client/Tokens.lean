import SocietyHelper.Client.Reports

/-! # Transports and tokens

A request is in one stage at a time: it waits for a timer to send it, a transport
or the local host has it, or it is in hand. So a response comes to the request it was
sent for, a request that the host has not finished is asked for again under its
token, and one that a busy host has refused gets a token that was never sent.
-/

namespace SocietyHelper.Client

open Library Sync

namespace Entry

def id : Entry → Id
  | sent id _ _ | answered id _ _ => id

def token? : Entry → Option Id
  | sent _ token _ => some token
  | answered _ _ _ => none

def transport? : Entry → Option Id
  | sent _ _ transport => transport
  | answered _ _ _ => none

end Entry

/-! ## The log -/

/-- The last entry about a request. -/
def lastEntry (log : List Entry) (id : Id) : Option Entry := log.find? fun e => e.id = id

/-- The token under which a request was sent last. -/
def lastToken (log : List Entry) (id : Id) : Option Id :=
  log.findSome? fun
    | .sent j token _ => if j = id then some token else none
    | .answered _ _ _ => none

/-- A request may be sent under a token: it is the last one after a poll, and otherwise new. -/
def Ready (log : List Entry) (id token : Id) : Prop :=
  match lastEntry log id with
  | none | some (.answered _ _ .busy) => ∀ e ∈ log, e.token? ≠ some token
  | some (.answered _ _ .pending) => lastToken log id = some token
  | some (.answered _ _ (.final _)) | some (.sent _ _ _) => False

/-- A request was sent and has had no response. -/
def Away (log : List Entry) (id token : Id) (transport : Option Id) : Prop :=
  lastEntry log id = some (.sent id token transport)

/-- A log, newest first, in which every response follows what it is a response to, every
transport is new and every request is sent under the right token. -/
def Polite : List Entry → Prop
  | [] => True
  | .sent id token transport :: log =>
    Polite log ∧ Ready log id token ∧ ∀ t, transport = some t → ∀ e ∈ log, e.transport? ≠ some t
  | .answered id transport _ :: log => Polite log ∧ ∃ token, Away log id token transport

variable {log : List Entry} {id token : Id} {transport : Option Id}

theorem lastEntry_self (e : Entry) : lastEntry (e :: log) e.id = some e := by
  simp [lastEntry]

theorem lastEntry_other {e : Entry} (h : e.id ≠ id) : lastEntry (e :: log) id = lastEntry log id := by
  simp [lastEntry, h]

theorem lastToken_other {e : Entry} (h : e.id ≠ id) : lastToken (e :: log) id = lastToken log id := by
  cases e with
  | sent j token transport => simp [lastToken, show j ≠ id from h]
  | answered j transport verdict => simp [lastToken]

theorem Away.lastToken (h : Away log id token transport) : lastToken log id = some token := by
  induction log with
  | nil => cases h
  | cons e log ih =>
    by_cases he : e.id = id
    · have hentry : lastEntry (e :: log) id = some e := he ▸ lastEntry_self e
      rw [Away, hentry] at h
      rw [Option.some.inj h]
      simp [Client.lastToken]
    · rw [Away, lastEntry_other he] at h
      rw [lastToken_other he]
      exact ih h

theorem Ready.other {e : Entry} (h : Ready log id token) (he : e.id ≠ id) (htoken : e.token? ≠ some token) :
    Ready (e :: log) id token := by
  rw [Ready, lastEntry_other he, lastToken_other he]
  rw [Ready] at h
  split at h
  · simpa [htoken] using h
  · simpa [htoken] using h
  · exact h
  · exact h
  · exact h

theorem Away.other {e : Entry} (h : Away log id token transport) (he : e.id ≠ id) : Away (e :: log) id token transport := by
  rw [Away, lastEntry_other he]
  exact h

/-! ## Stages -/

namespace Hand

def moves (id : Id) : Hand → Nat
  | .send j | .receive j _ | .done j => if j = id then 1 else 0
  | .empty | .timeout _ => 0

end Hand

namespace Drive

variable {s t : Drive} {hand next : Hand}

def timersFor (s : Drive) (id : Id) : Nat := s.timers.countP (Timer.sends id)

def framesFor (s : Drive) (id : Id) : Nat := s.frames.countP (Frame.handles id)

structure Moves (hand : Hand) (s : Drive) : Prop where
  requests : ∀ id request, s.driveRequests.find? id = some request → id < s.fresh ∧ request.envelope.token < s.fresh
  distinct : ∀ i j a b, s.driveRequests.find? i = some a → s.driveRequests.find? j = some b →
    a.envelope.token = b.envelope.token → i = j
  quiet : ∀ id, s.fresh ≤ id → s.timersFor id + s.framesFor id + hand.moves id = 0
  moving : ∀ id request, s.driveRequests.find? id = some request →
    s.timersFor id + s.framesFor id + hand.moves id + request.transport.toList.length = 1
  mapped : ∀ transport id, s.driveTransports.find? transport = some id ↔
    ∃ request, s.driveRequests.find? id = some request ∧ request.transport = some transport
  ready : ∀ id request, s.driveRequests.find? id = some request → 0 < s.timersFor id ∨ hand = .send id →
    Ready s.log id request.envelope.token
  away : ∀ id request, s.driveRequests.find? id = some request → ∀ transport,
    (request.transport = transport ∧ transport.isSome) ∨ (0 < s.framesFor id ∧ transport = none) ∨
      hand = .receive id transport → Away s.log id request.envelope.token transport
  entries : ∀ e ∈ s.log, e.id < s.fresh ∧ (∀ token, e.token? = some token → token < s.fresh) ∧
    ∀ transport, e.transport? = some transport → transport < s.fresh
  polite : Polite s.log

/-- Changes of what is not about the course of requests. -/
theorem Moves.same (h : Moves hand s) (hrequests : t.driveRequests = s.driveRequests)
    (htransports : t.driveTransports = s.driveTransports) (hlog : t.log = s.log) (hfresh : s.fresh ≤ t.fresh)
    (htimers : ∀ id, t.timersFor id = s.timersFor id) (hframes : ∀ id, t.framesFor id = s.framesFor id) : Moves hand t := by
  constructor
  · intro id request hrequest
    rw [hrequests] at hrequest
    obtain ⟨hid, htoken⟩ := h.requests id request hrequest
    exact ⟨hid.trans_le hfresh, htoken.trans_le hfresh⟩
  · rw [hrequests]
    exact h.distinct
  · intro id hid
    rw [htimers, hframes]
    exact h.quiet id (hfresh.trans hid)
  · intro id request hrequest
    rw [hrequests] at hrequest
    rw [htimers, hframes]
    exact h.moving id request hrequest
  · rw [hrequests, htransports]
    exact h.mapped
  · intro id request hrequest hready
    rw [hrequests] at hrequest
    rw [htimers] at hready
    rw [hlog]
    exact h.ready id request hrequest hready
  · intro id request hrequest transport haway
    rw [hrequests] at hrequest
    rw [hframes] at haway
    rw [hlog]
    exact h.away id request hrequest transport haway
  · rw [hlog]
    intro e he
    obtain ⟨hid, htoken, htransport⟩ := h.entries e he
    exact ⟨hid.trans_le hfresh, fun token ht => (htoken token ht).trans_le hfresh,
      fun transport ht => (htransport transport ht).trans_le hfresh⟩
  · rw [hlog]
    exact h.polite

theorem Moves.without (h : Moves hand s) {request : DriveRequest} (hrequest : s.driveRequests.find? id = some request) :
    Moves hand (s.without id request) := by
  have hfind : ∀ j r, (s.without id request).driveRequests.find? j = some r →
      j ≠ id ∧ s.driveRequests.find? j = some r := by
    intro j r hj
    rw [Drive.without, Table.find?_erase] at hj
    split at hj
    · cases hj
    · rename_i hne
      exact ⟨hne, hj⟩
  constructor
  · intro j r hj
    exact h.requests j r (hfind j r hj).2
  · intro i j a b hi hj hab
    exact h.distinct i j a b (hfind i a hi).2 (hfind j b hj).2 hab
  · exact h.quiet
  · intro j r hj
    exact h.moving j r (hfind j r hj).2
  · intro transport j
    have hkey : (s.without id request).driveTransports.find? transport = some j ↔
        request.transport ≠ some transport ∧ s.driveTransports.find? transport = some j := by
      rw [Drive.without]
      cases hof : request.transport with
      | none => simp
      | some old =>
        simp only [Table.find?_erase]
        by_cases hne : transport = old
        · simp [hne]
        · simp [hne, Ne.symm hne]
    rw [hkey, h.mapped]
    constructor
    · rintro ⟨hne, r, hr, htransport⟩
      refine ⟨r, ?_, htransport⟩
      rw [Drive.without, Table.find?_erase, if_neg, hr]
      rintro rfl
      rw [hrequest] at hr
      cases hr
      exact hne htransport
    · rintro ⟨r, hr, htransport⟩
      obtain ⟨hne, hold⟩ := hfind j r hr
      refine ⟨fun hsame => hne ?_, r, hold, htransport⟩
      have hfirst := (h.mapped transport id).mpr ⟨request, hrequest, hsame⟩
      have hsecond := (h.mapped transport j).mpr ⟨r, hold, htransport⟩
      rw [hfirst] at hsecond
      exact (Option.some.inj hsecond).symm
  · intro j r hj
    exact h.ready j r (hfind j r hj).2
  · intro j r hj
    exact h.away j r (hfind j r hj).2
  · exact h.entries
  · exact h.polite

theorem Moves.clear (h : Moves hand s) (error : Text) : Moves hand (s.clearDrive error) := by
  constructor
  · intro id request hrequest
    cases hrequest
  · intro i j a b hi
    cases hi
  · exact h.quiet
  · intro id request hrequest
    cases hrequest
  · intro transport id
    constructor
    · intro hid
      cases hid
    · rintro ⟨request, hrequest, -⟩
      cases hrequest
  · intro id request hrequest
    cases hrequest
  · intro id request hrequest
    cases hrequest
  · exact h.entries
  · exact h.polite

theorem find?_insert_cases {ν : Type} {table : Table Id ν} {k j : Id} {new v : ν} (h : (table.insert k new).find? j = some v) :
    (j = k ∧ v = new) ∨ (j ≠ k ∧ table.find? j = some v) := by
  rw [Table.find?_insert] at h
  split at h
  · rename_i hj
    exact Or.inl ⟨hj, (Option.some.inj h).symm⟩
  · rename_i hj
    exact Or.inr ⟨hj, h⟩

theorem timersFor_append (s : Drive) (more : List Timer) (id : Id) :
    ({ s with timers := s.timers ++ more } : Drive).timersFor id = s.timersFor id + more.countP (Timer.sends id) :=
  List.countP_append

theorem framesFor_cons {frame : Frame} {frames : List Frame} (h : s.frames = frame :: frames) (id : Id) :
    s.framesFor id = frames.countP (Frame.handles id) + if frame.handles id then 1 else 0 := by
  rw [framesFor, h, List.countP_cons]

theorem Moves.ask (h : Moves hand s) (message : Message) (completion : Option Completion) :
    Moves hand (s.ask message completion) := by
  have hquiet := h.quiet s.fresh (Nat.le_refl _)
  have hnone : s.driveRequests.find? s.fresh = none := by
    cases hfind : s.driveRequests.find? s.fresh with
    | none => rfl
    | some request => exact absurd (h.requests _ _ hfind).1 (Nat.lt_irrefl _)
  have htimers : ∀ id, (s.ask message completion).timersFor id = s.timersFor id + if s.fresh = id then 1 else 0 := by
    intro id
    refine (timersFor_append s _ id).trans ?_
    simp [Timer.sends, List.countP_cons]
  have hframes : ∀ id, (s.ask message completion).framesFor id = s.framesFor id := fun _ => rfl
  have hfresh : (s.ask message completion).fresh = s.fresh + 2 := rfl
  constructor
  · intro id request hrequest
    rw [hfresh]
    rcases find?_insert_cases hrequest with ⟨rfl, rfl⟩ | ⟨-, hold⟩
    · exact ⟨Nat.lt_add_of_pos_right (by decide), Nat.lt_succ_self _⟩
    · obtain ⟨hid, htoken⟩ := h.requests id request hold
      exact ⟨Nat.lt_add_right 2 hid, Nat.lt_add_right 2 htoken⟩
  · intro i j a b hi hj hab
    rcases find?_insert_cases hi with ⟨rfl, rfl⟩ | ⟨hine, hi⟩
    · rcases find?_insert_cases hj with ⟨rfl, -⟩ | ⟨-, hj⟩
      · rfl
      · have hlt := (h.requests j b hj).2
        rw [← hab] at hlt
        exact absurd hlt (Nat.not_lt.mpr (Nat.le_succ _))
    · rcases find?_insert_cases hj with ⟨rfl, rfl⟩ | ⟨-, hj⟩
      · have hlt := (h.requests i a hi).2
        rw [hab] at hlt
        exact absurd hlt (Nat.not_lt.mpr (Nat.le_succ _))
      · exact h.distinct i j a b hi hj hab
  · intro id hid
    rw [hfresh] at hid
    have hlt : s.fresh < id := Nat.lt_of_succ_lt (Nat.lt_of_succ_le hid)
    rw [htimers, hframes, if_neg (Nat.ne_of_lt hlt)]
    exact h.quiet id hlt.le
  · intro id request hrequest
    rw [htimers, hframes]
    rcases find?_insert_cases hrequest with ⟨rfl, rfl⟩ | ⟨hne, hold⟩
    · simp only [if_true, Option.toList_none, List.length_nil]
      omega
    · rw [if_neg (Ne.symm hne)]
      exact h.moving id request hold
  · intro transport id
    refine (h.mapped transport id).trans ⟨?_, ?_⟩
    · rintro ⟨request, hrequest, htransport⟩
      refine ⟨request, ?_, htransport⟩
      rw [Drive.ask, Table.find?_insert_ne, hrequest]
      rintro rfl
      rw [hnone] at hrequest
      cases hrequest
    · rintro ⟨request, hrequest, htransport⟩
      rcases find?_insert_cases hrequest with ⟨rfl, rfl⟩ | ⟨-, hold⟩
      · cases htransport
      · exact ⟨request, hold, htransport⟩
  · intro id request hrequest hready
    rcases find?_insert_cases hrequest with ⟨rfl, rfl⟩ | ⟨hne, hold⟩
    · have hlast : lastEntry s.log s.fresh = none := by
        refine List.find?_eq_none.mpr fun e he => ?_
        have hlt := (h.entries e he).1
        simpa using Nat.ne_of_lt hlt
      show Ready s.log s.fresh (s.fresh + 1)
      rw [Ready, hlast]
      intro e he htoken
      exact absurd ((h.entries e he).2.1 _ htoken) (Nat.not_lt.mpr (Nat.le_succ _))
    · rw [htimers, if_neg (Ne.symm hne)] at hready
      exact h.ready id request hold hready
  · intro id request hrequest transport haway
    rcases find?_insert_cases hrequest with ⟨rfl, rfl⟩ | ⟨-, hold⟩
    · rw [hframes] at haway
      rcases haway with ⟨rfl, hsome⟩ | ⟨hpositive, -⟩ | rfl
      · cases hsome
      · omega
      · simp [Hand.moves] at hquiet
    · exact h.away id request hold transport haway
  · intro e he
    obtain ⟨hid, htoken, htransport⟩ := h.entries e he
    exact ⟨Nat.lt_add_right 2 hid, fun token ht => Nat.lt_add_right 2 (htoken token ht),
      fun transport ht => Nat.lt_add_right 2 (htransport transport ht)⟩
  · exact h.polite

theorem Moves.fire (h : Moves .empty s) {i : Nat} {timer : Timer} (htimer : s.timers[i]? = some timer) :
    Moves (Hand.of timer) { s with timers := s.timers.eraseIdx i } := by
  obtain ⟨hlt, hget⟩ := List.getElem?_eq_some_iff.mp htimer
  have hperm := List.getElem_cons_eraseIdx_perm hlt
  rw [hget] at hperm
  have hcount : ∀ id, (s.timers.eraseIdx i).countP (Timer.sends id) + (Hand.of timer).moves id = s.timersFor id := by
    intro id
    rw [timersFor, ← hperm.countP_eq, List.countP_cons]
    cases timer <;> simp [Hand.of, Hand.moves, Timer.sends]
  constructor
  · exact h.requests
  · exact h.distinct
  · intro id hid
    have hquiet := h.quiet id hid
    have hid := hcount id
    simp only [Hand.moves, timersFor, framesFor] at hquiet hid ⊢
    omega
  · intro id request hrequest
    have hmoving := h.moving id request hrequest
    have hid := hcount id
    simp only [Hand.moves, timersFor, framesFor] at hmoving hid ⊢
    omega
  · exact h.mapped
  · intro id request hrequest hready
    refine h.ready id request hrequest (Or.inl ?_)
    have hid := hcount id
    rcases hready with hpositive | hsend
    · simp only [timersFor] at hpositive hid ⊢
      omega
    · rw [hsend] at hid
      simp only [Hand.moves, if_true] at hid
      omega
  · intro id request hrequest transport haway
    refine h.away id request hrequest transport ?_
    rcases haway with hwith | hframe | hreceive
    · exact Or.inl hwith
    · exact Or.inr (Or.inl hframe)
    · cases timer <;> cases hreceive
  · exact h.entries
  · exact h.polite

theorem Moves.handed (h : Moves .empty s) {frames : List Frame} (hframes : s.frames = .handled id :: frames) :
    Moves (.receive id none) { s with frames } := by
  have hcount : ∀ j, frames.countP (Frame.handles j) + (Hand.receive id none).moves j = s.framesFor j := by
    intro j
    rw [framesFor_cons hframes]
    simp [Frame.handles, Hand.moves]
  constructor
  · exact h.requests
  · exact h.distinct
  · intro j hj
    have hquiet := h.quiet j hj
    have hid := hcount j
    simp only [Hand.moves, timersFor, framesFor] at hquiet hid ⊢
    omega
  · intro j request hrequest
    have hmoving := h.moving j request hrequest
    have hid := hcount j
    simp only [Hand.moves, timersFor, framesFor] at hmoving hid ⊢
    omega
  · exact h.mapped
  · intro j request hrequest hready
    rcases hready with hpositive | hsend
    · exact h.ready j request hrequest (Or.inl hpositive)
    · cases hsend
  · intro j request hrequest transport haway
    have hid := hcount j
    refine h.away j request hrequest transport ?_
    rcases haway with hwith | ⟨hpositive, hnone⟩ | hreceive
    · exact Or.inl hwith
    · refine Or.inr (Or.inl ⟨?_, hnone⟩)
      simp only [framesFor] at hpositive hid ⊢
      omega
    · cases hreceive
      refine Or.inr (Or.inl ⟨?_, rfl⟩)
      simp only [Hand.moves, if_true] at hid
      omega
  · exact h.entries
  · exact h.polite

theorem Moves.letGo (h : Moves hand s) (hspent : hand.Spent s) : Moves .empty s := by
  have hmoves : ∀ j request, s.driveRequests.find? j = some request → hand.moves j = 0 := by
    intro j request hrequest
    cases hand with
    | empty => rfl
    | timeout timer => rfl
    | send id =>
      refine if_neg ?_
      rintro rfl
      rw [show s.driveRequests.find? id = none from hspent] at hrequest
      cases hrequest
    | receive id transport =>
      refine if_neg ?_
      rintro rfl
      rw [show s.driveRequests.find? id = none from hspent] at hrequest
      cases hrequest
    | done id =>
      refine if_neg ?_
      rintro rfl
      rw [show s.driveRequests.find? id = none from hspent] at hrequest
      cases hrequest
  constructor
  · exact h.requests
  · exact h.distinct
  · intro j hj
    have hquiet := h.quiet j hj
    rw [Hand.moves]
    omega
  · intro j request hrequest
    have hmoving := h.moving j request hrequest
    rw [hmoves j request hrequest] at hmoving
    exact hmoving
  · exact h.mapped
  · intro j request hrequest hready
    rcases hready with hpositive | hsend
    · exact h.ready j request hrequest (Or.inl hpositive)
    · cases hsend
  · intro j request hrequest transport haway
    rcases haway with hwith | hframe | hreceive
    · exact h.away j request hrequest transport (Or.inl hwith)
    · exact h.away j request hrequest transport (Or.inr (Or.inl hframe))
    · cases hreceive
  · exact h.entries
  · exact h.polite

/-- What the log of a request that was sent says of the others. -/
theorem Moves.readyOther (h : Moves hand s) {e : Entry} {j : Id} {r : DriveRequest}
    (hr : s.driveRequests.find? j = some r) (hready : 0 < s.timersFor j) (he : e.id ≠ j)
    (htoken : e.token? ≠ some r.envelope.token) : Ready (e :: s.log) j r.envelope.token :=
  (h.ready j r hr (Or.inl hready)).other he htoken

theorem Moves.sent (h : Moves (.send id) s) {request : DriveRequest} (hrequest : s.driveRequests.find? id = some request) :
    Moves .empty { s with
      fresh := s.fresh + 1
      driveRequests := s.driveRequests.insert id { request with transport := some s.fresh }
      driveTransports := s.driveTransports.insert s.fresh id
      log := .sent id request.envelope.token (some s.fresh) :: s.log } := by
  have hmoving := h.moving id request hrequest
  simp only [Hand.moves, if_true] at hmoving
  have hnone : request.transport = none := by
    cases htransport : request.transport with
    | none => rfl
    | some transport =>
      rw [htransport, Option.toList_some, List.length_singleton] at hmoving
      omega
  have hnew : s.driveTransports.find? s.fresh = none := by
    cases hfind : s.driveTransports.find? s.fresh with
    | none => rfl
    | some j =>
      obtain ⟨r, hr, htransport⟩ := (h.mapped _ _).mp hfind
      have haway := h.away j r hr (some s.fresh) (Or.inl ⟨htransport, rfl⟩)
      have hlt := (h.entries _ (List.mem_of_find?_eq_some haway)).2.2 _ rfl
      exact absurd hlt (Nat.lt_irrefl _)
  constructor
  · intro j r hj
    rcases find?_insert_cases hj with ⟨rfl, rfl⟩ | ⟨-, hold⟩
    · obtain ⟨hid, htoken⟩ := h.requests j request hrequest
      exact ⟨Nat.lt_succ_of_lt hid, Nat.lt_succ_of_lt htoken⟩
    · obtain ⟨hid, htoken⟩ := h.requests j r hold
      exact ⟨Nat.lt_succ_of_lt hid, Nat.lt_succ_of_lt htoken⟩
  · intro i j a b hi hj hab
    rcases find?_insert_cases hi with ⟨rfl, rfl⟩ | ⟨-, hfirst⟩
    · rcases find?_insert_cases hj with ⟨rfl, -⟩ | ⟨-, hsecond⟩
      · rfl
      · exact h.distinct i j request b hrequest hsecond hab
    · rcases find?_insert_cases hj with ⟨rfl, rfl⟩ | ⟨-, hsecond⟩
      · exact h.distinct i j a request hfirst hrequest hab
      · exact h.distinct i j a b hfirst hsecond hab
  · intro j hj
    have hquiet := h.quiet j (Nat.le_of_succ_le hj)
    simp only [Hand.moves, timersFor, framesFor] at hquiet ⊢
    omega
  · intro j r hj
    rcases find?_insert_cases hj with ⟨rfl, rfl⟩ | ⟨hne, hold⟩
    · simp only [Hand.moves, timersFor, framesFor, Option.toList_some, List.length_singleton] at hmoving ⊢
      omega
    · have hother := h.moving j r hold
      simp only [Hand.moves, if_neg (Ne.symm hne)] at hother
      exact hother
  · intro transport j
    rw [Table.find?_insert]
    by_cases hkey : transport = s.fresh
    · subst hkey
      rw [if_pos rfl]
      constructor
      · intro hj
        cases hj
        exact ⟨_, Table.find?_insert_self _ _ _, rfl⟩
      · rintro ⟨r, hr, htransport⟩
        rcases find?_insert_cases hr with ⟨rfl, -⟩ | ⟨-, hold⟩
        · rfl
        · rw [(h.mapped _ _).mpr ⟨r, hold, htransport⟩] at hnew
          cases hnew
    · rw [if_neg hkey, h.mapped]
      constructor
      · rintro ⟨r, hr, htransport⟩
        refine ⟨r, ?_, htransport⟩
        rw [Table.find?_insert_ne, hr]
        rintro rfl
        rw [hrequest] at hr
        cases hr
        rw [hnone] at htransport
        cases htransport
      · rintro ⟨r, hr, htransport⟩
        rcases find?_insert_cases hr with ⟨rfl, rfl⟩ | ⟨-, hold⟩
        · exact absurd (Option.some.inj htransport).symm hkey
        · exact ⟨r, hold, htransport⟩
  · intro j r hj hready
    have hpositive : 0 < s.timersFor j := hready.elim (fun hp => hp) fun hno => nomatch hno
    rcases find?_insert_cases hj with ⟨rfl, rfl⟩ | ⟨hne, hold⟩
    · omega
    · refine h.readyOther hold hpositive (Ne.symm hne) fun hsame => hne ?_
      exact (h.distinct id j request r hrequest hold (Option.some.inj hsame)).symm
  · intro j r hj transport haway
    rcases find?_insert_cases hj with ⟨rfl, rfl⟩ | ⟨hne, hold⟩
    · rcases haway with ⟨rfl, -⟩ | ⟨hpositive, -⟩ | hno
      · exact lastEntry_self _
      · simp only [framesFor] at hpositive hmoving
        omega
      · cases hno
    · refine Away.other (h.away j r hold transport ?_) (Ne.symm hne)
      exact haway.imp_right fun hrest => hrest.imp_right fun hno => nomatch hno
  · intro e he
    rcases List.mem_cons.mp he with rfl | hold
    · obtain ⟨hid, htoken⟩ := h.requests id request hrequest
      refine ⟨Nat.lt_succ_of_lt hid, fun token ht => ?_, fun transport ht => ?_⟩
      · cases ht
        exact Nat.lt_succ_of_lt htoken
      · cases ht
        exact Nat.lt_succ_self _
    · obtain ⟨hid, htoken, htransport⟩ := h.entries e hold
      exact ⟨Nat.lt_succ_of_lt hid, fun token ht => Nat.lt_succ_of_lt (htoken token ht),
        fun transport ht => Nat.lt_succ_of_lt (htransport transport ht)⟩
  · refine ⟨h.polite, h.ready id request hrequest (Or.inr rfl), fun transport ht e he hsame => ?_⟩
    cases ht
    exact Nat.lt_irrefl _ ((h.entries e he).2.2 _ hsame)

theorem Moves.sentLocal (h : Moves (.send id) s) {request : DriveRequest}
    (hrequest : s.driveRequests.find? id = some request) :
    Moves .empty { s with
      frames := .handled id :: s.frames, log := .sent id request.envelope.token none :: s.log } := by
  have hmoving := h.moving id request hrequest
  simp only [Hand.moves, if_true] at hmoving
  have hframes : ∀ j, (s.frames.countP (Frame.handles j) + if (Frame.handled id).handles j then 1 else 0) =
      s.framesFor j + (Hand.send id).moves j := by
    intro j
    simp [framesFor, Frame.handles, Hand.moves]
  have hcons : ∀ j, (Frame.handled id :: s.frames).countP (Frame.handles j) = s.framesFor j + (Hand.send id).moves j := by
    intro j
    rw [List.countP_cons]
    exact hframes j
  constructor
  · exact h.requests
  · exact h.distinct
  · intro j hj
    have hquiet := h.quiet j hj
    have hcount := hcons j
    simp only [Hand.moves, timersFor, framesFor] at hquiet hcount ⊢
    omega
  · intro j r hj
    have hother := h.moving j r hj
    have hcount := hcons j
    simp only [Hand.moves, timersFor, framesFor] at hother hcount ⊢
    omega
  · exact h.mapped
  · intro j r hj hready
    have hpositive : 0 < s.timersFor j := hready.elim (fun hp => hp) fun hno => by cases hno
    by_cases hne : j = id
    · subst hne
      omega
    · refine h.readyOther hj hpositive (Ne.symm hne) fun hsame => hne ?_
      exact (h.distinct id j request r hrequest hj (Option.some.inj hsame)).symm
  · intro j r hj transport haway
    by_cases hne : j = id
    · subst hne
      rw [hrequest] at hj
      cases hj
      rcases haway with ⟨rfl, hsome⟩ | ⟨-, rfl⟩ | hno
      · obtain ⟨old, hold⟩ := Option.isSome_iff_exists.mp hsome
        rw [hold, Option.toList_some, List.length_singleton] at hmoving
        omega
      · exact lastEntry_self _
      · cases hno
    · refine Away.other (h.away j r hj transport ?_) (Ne.symm hne)
      have hcount := hcons j
      rcases haway with hwith | ⟨hpositive, hnone⟩ | hno
      · exact Or.inl hwith
      · refine Or.inr (Or.inl ⟨?_, hnone⟩)
        simp only [Hand.moves, if_neg (Ne.symm hne), framesFor] at hcount hpositive ⊢
        omega
      · cases hno
  · intro e he
    rcases List.mem_cons.mp he with rfl | hold
    · obtain ⟨hid, htoken⟩ := h.requests id request hrequest
      refine ⟨hid, fun token ht => ?_, fun transport ht => ?_⟩
      · cases ht
        exact htoken
      · cases ht
    · exact h.entries e hold
  · exact ⟨h.polite, h.ready id request hrequest (Or.inr rfl), fun transport ht => by cases ht⟩

theorem Moves.taken (h : Moves .empty s) {request : DriveRequest} {transport : Id}
    (htransport : s.driveTransports.find? transport = some id) (hrequest : s.driveRequests.find? id = some request) :
    Moves (.receive id (some transport)) { s with
      driveTransports := s.driveTransports.erase transport
      driveRequests := s.driveRequests.insert id { request with transport := none } } := by
  obtain ⟨same, hsame, hof⟩ := (h.mapped transport id).mp htransport
  rw [hrequest] at hsame
  cases hsame
  have hmoving := h.moving id request hrequest
  rw [hof, Option.toList_some, List.length_singleton] at hmoving
  simp only [Hand.moves] at hmoving
  constructor
  · intro j r hj
    rcases find?_insert_cases hj with ⟨rfl, rfl⟩ | ⟨-, hold⟩
    · exact h.requests j request hrequest
    · exact h.requests j r hold
  · intro i j a b hi hj hab
    rcases find?_insert_cases hi with ⟨rfl, rfl⟩ | ⟨-, hfirst⟩
    · rcases find?_insert_cases hj with ⟨rfl, -⟩ | ⟨-, hsecond⟩
      · rfl
      · exact h.distinct i j request b hrequest hsecond hab
    · rcases find?_insert_cases hj with ⟨rfl, rfl⟩ | ⟨-, hsecond⟩
      · exact h.distinct i j a request hfirst hrequest hab
      · exact h.distinct i j a b hfirst hsecond hab
  · intro j hj
    have hquiet := h.quiet j hj
    have hid := (h.requests id request hrequest).1
    have hne : id ≠ j := (hid.trans_le hj).ne
    simp only [Hand.moves, if_neg hne, timersFor, framesFor] at hquiet ⊢
    omega
  · intro j r hj
    rcases find?_insert_cases hj with ⟨rfl, rfl⟩ | ⟨hne, hold⟩
    · simp only [Hand.moves, if_true, timersFor, framesFor, Option.toList_none, List.length_nil] at hmoving ⊢
      omega
    · have hother := h.moving j r hold
      simp only [Hand.moves, if_neg (Ne.symm hne)] at hother ⊢
      exact hother
  · intro key j
    rw [Table.find?_erase]
    by_cases hkey : key = transport
    · subst hkey
      rw [if_pos rfl]
      constructor
      · intro hj
        cases hj
      · rintro ⟨r, hr, hr'⟩
        rcases find?_insert_cases hr with ⟨rfl, rfl⟩ | ⟨hne, hold⟩
        · cases hr'
        · have hsecond := (h.mapped key j).mpr ⟨r, hold, hr'⟩
          rw [htransport] at hsecond
          exact absurd (Option.some.inj hsecond).symm hne
    · rw [if_neg hkey, h.mapped]
      constructor
      · rintro ⟨r, hr, hr'⟩
        refine ⟨r, ?_, hr'⟩
        rw [Table.find?_insert_ne, hr]
        rintro rfl
        rw [hrequest] at hr
        cases hr
        rw [hof] at hr'
        exact hkey (Option.some.inj hr').symm
      · rintro ⟨r, hr, hr'⟩
        rcases find?_insert_cases hr with ⟨rfl, rfl⟩ | ⟨-, hold⟩
        · cases hr'
        · exact ⟨r, hold, hr'⟩
  · intro j r hj hready
    have hpositive : 0 < s.timersFor j := hready.elim (fun hp => hp) fun hno => nomatch hno
    rcases find?_insert_cases hj with ⟨rfl, rfl⟩ | ⟨-, hold⟩
    · omega
    · exact h.ready j r hold (Or.inl hpositive)
  · intro j r hj via haway
    rcases find?_insert_cases hj with ⟨rfl, rfl⟩ | ⟨hne, hold⟩
    · rcases haway with ⟨rfl, hsome⟩ | ⟨hpositive, -⟩ | hreceive
      · cases hsome
      · simp only [framesFor] at hpositive hmoving
        omega
      · cases hreceive
        exact h.away j request hrequest (some transport) (Or.inl ⟨hof, rfl⟩)
    · refine h.away j r hold via (haway.imp_right fun hrest => hrest.imp_right fun hreceive => ?_)
      cases hreceive
      exact absurd rfl hne
  · exact h.entries
  · exact h.polite

/-- A response is taken from hand: a request in the table whose course changes, with an entry in the log. -/
theorem Moves.received (h : Moves (.receive id transport) s) {request new : DriveRequest}
    (hrequest : s.driveRequests.find? id = some request) (verdict : Verdict) (fresh : Id) (timers : List Timer)
    (hnext : ∀ j, next.moves j + timers.countP (Timer.sends j) = if id = j then 1 else 0)
    (hsend : ∀ j, next ≠ .send j) (hreceive : ∀ j via, next ≠ .receive j via) (hfresh : s.fresh ≤ fresh)
    (htransport : new.transport = none) (htoken : new.envelope.token = request.envelope.token ∨
      (new.envelope.token = s.fresh ∧ s.fresh < fresh))
    (hready : 0 < timers.countP (Timer.sends id) →
      Ready (.answered id transport verdict :: s.log) id new.envelope.token) :
    Moves next { s with
      fresh, driveRequests := s.driveRequests.insert id new, timers := s.timers ++ timers
      log := .answered id transport verdict :: s.log } := by
  have hmoving := h.moving id request hrequest
  simp only [Hand.moves, if_true] at hmoving
  have hnone : request.transport = none := by
    cases hof : request.transport with
    | none => rfl
    | some old =>
      rw [hof, Option.toList_some, List.length_singleton] at hmoving
      omega
  have hbefore := h.requests id request hrequest
  constructor
  · intro j r hj
    rcases find?_insert_cases hj with ⟨rfl, rfl⟩ | ⟨-, hold⟩
    · refine ⟨hbefore.1.trans_le hfresh, ?_⟩
      rcases htoken with hsame | ⟨hnew, hlt⟩
      · rw [hsame]
        exact hbefore.2.trans_le hfresh
      · rw [hnew]
        exact hlt
    · obtain ⟨hid, hold⟩ := h.requests j r hold
      exact ⟨hid.trans_le hfresh, hold.trans_le hfresh⟩
  · intro i j a b hi hj hab
    have hfirst : ∀ k r, k ≠ id → s.driveRequests.find? k = some r → r.envelope.token ≠ new.envelope.token := by
      intro k r hk hr hsame
      rcases htoken with hold | ⟨hnew, -⟩
      · exact hk (h.distinct k id r request hr hrequest (hsame.trans hold))
      · have hlt := (h.requests k r hr).2
        rw [hsame, hnew] at hlt
        exact Nat.lt_irrefl _ hlt
    rcases find?_insert_cases hi with ⟨rfl, rfl⟩ | ⟨hine, hiold⟩
    · rcases find?_insert_cases hj with ⟨rfl, -⟩ | ⟨hjne, hjold⟩
      · rfl
      · exact absurd hab.symm (hfirst j b hjne hjold)
    · rcases find?_insert_cases hj with ⟨rfl, rfl⟩ | ⟨-, hjold⟩
      · exact absurd hab (hfirst i a hine hiold)
      · exact h.distinct i j a b hiold hjold hab
  · intro j hj
    have hquiet := h.quiet j (hfresh.trans hj)
    have hne : id ≠ j := ((hbefore.1.trans_le hfresh).trans_le hj).ne
    have hcount := hnext j
    simp only [Hand.moves, if_neg hne, timersFor, framesFor, List.countP_append] at hquiet hcount ⊢
    omega
  · intro j r hj
    have hcount := hnext j
    rcases find?_insert_cases hj with ⟨rfl, rfl⟩ | ⟨hne, hold⟩
    · rw [hnone] at hmoving
      rw [htransport]
      simp only [timersFor, framesFor, List.countP_append, if_true, Option.toList_none, List.length_nil] at hmoving hcount ⊢
      omega
    · have hother := h.moving j r hold
      simp only [Hand.moves, if_neg (Ne.symm hne), timersFor, framesFor, List.countP_append] at hother hcount ⊢
      omega
  · intro key j
    rw [h.mapped]
    constructor
    · rintro ⟨r, hr, hof⟩
      refine ⟨r, ?_, hof⟩
      rw [Table.find?_insert_ne, hr]
      rintro rfl
      rw [hrequest] at hr
      cases hr
      rw [hnone] at hof
      cases hof
    · rintro ⟨r, hr, hof⟩
      rcases find?_insert_cases hr with ⟨rfl, rfl⟩ | ⟨-, hold⟩
      · rw [htransport] at hof
        cases hof
      · exact ⟨r, hold, hof⟩
  · intro j r hj hpositive
    have hpositive := hpositive.resolve_right (hsend j)
    have hcount := hnext j
    rw [timersFor, List.countP_append] at hpositive
    rcases find?_insert_cases hj with ⟨rfl, rfl⟩ | ⟨hne, hold⟩
    · refine hready ?_
      simp only [timersFor] at hmoving
      omega
    · refine h.readyOther hold ?_ (Ne.symm hne) nofun
      rw [if_neg (Ne.symm hne)] at hcount
      rw [timersFor]
      omega
  · intro j r hj via haway
    rcases find?_insert_cases hj with ⟨rfl, rfl⟩ | ⟨hne, hold⟩
    · rcases haway with ⟨rfl, hsome⟩ | ⟨hpositive, -⟩ | hno
      · rw [htransport] at hsome
        cases hsome
      · simp only [framesFor] at hpositive hmoving
        omega
      · exact absurd hno (hreceive _ _)
    · refine Away.other (h.away j r hold via ?_) (Ne.symm hne)
      exact haway.imp_right fun hrest => hrest.imp_right fun hno => absurd hno (hreceive _ _)
  · intro e he
    rcases List.mem_cons.mp he with rfl | hold
    · exact ⟨hbefore.1.trans_le hfresh, nofun, nofun⟩
    · obtain ⟨hid, holdToken, holdTransport⟩ := h.entries e hold
      exact ⟨hid.trans_le hfresh, fun token ht => (holdToken token ht).trans_le hfresh,
        fun key ht => (holdTransport key ht).trans_le hfresh⟩
  · exact ⟨h.polite, _, h.away id request hrequest transport (Or.inr (Or.inr rfl))⟩

/-- Frames that handle no request do not matter. -/
theorem Moves.frames (h : Moves hand s) {frames : List Frame}
    (hframes : ∀ id, frames.countP (Frame.handles id) = s.framesFor id) : Moves hand { s with frames } :=
  h.same rfl rfl rfl (Nat.le_refl _) (fun _ => rfl) hframes

theorem Moves.step (hchange : Change (hand, s) (next, t)) (h : Moves hand s) : Moves next t := by
  cases hchange with
  | kept online fits isLocal container scope fresh snapshot refreshAgain hfresh =>
    exact h.same rfl rfl rfl hfresh (fun _ => rfl) fun _ => rfl
  | scheduled =>
    refine h.same rfl rfl rfl (Nat.le_refl _) (fun id => ?_) fun _ => rfl
    rw [timersFor_append]
    rfl
  | asked message completion => exact h.ask message completion
  | opened state =>
    refine h.same rfl rfl rfl (Nat.le_succ _) (fun id => ?_) fun _ => rfl
    exact timersFor_append s _ id
  | grown next hold => exact h.same rfl rfl rfl (Nat.le_refl _) (fun _ => rfl) fun _ => rfl
  | told report hold => exact h.same rfl rfl rfl (Nat.le_refl _) (fun _ => rfl) fun _ => rfl
  | dropped hrequest _ => exact h.without hrequest
  | answered report hrequest _ =>
    exact (h.without hrequest).same rfl rfl rfl (Nat.le_refl _) (fun _ => rfl) fun _ => rfl
  | owed result hrequest _ =>
    refine (h.without hrequest).frames fun id => ?_
    rw [List.countP_cons]
    rfl
  | cleared error => exact h.clear error
  | pushed =>
    refine h.frames fun id => ?_
    rw [List.countP_cons]
    rfl
  | popped hframes _ hhandles =>
    refine h.frames fun id => ?_
    rw [framesFor_cons hframes, hhandles]
    rfl
  | paid rest report hframes _ hhandles =>
    rename_i frame frames id hpaid
    have hrest : ∀ id, rest.countP (Frame.handles id) = 0 := fun id =>
      List.countP_eq_zero.mpr fun f hf => by rw [hhandles f (List.mem_cons_of_mem _ hf)]; exact Bool.false_ne_true
    have hsame : Moves hand { s with frames := rest ++ frames } := by
      refine h.frames fun id => ?_
      rw [framesFor_cons hframes, List.countP_append, hrest, hhandles _ List.mem_cons_self]
      simp
    exact hsame.same rfl rfl rfl (Nat.le_refl _) (fun _ => rfl) fun _ => rfl
  | emptied error hframes =>
    rename_i frames
    have hsame : Moves hand { s with frames := .cancelInspections s.inspections.keys error :: frames } := by
      refine h.frames fun id => ?_
      rw [framesFor_cons hframes, List.countP_cons]
      rfl
    exact hsame.same rfl rfl rfl (Nat.le_refl _) (fun _ => rfl) fun _ => rfl
  | fired i htimer => exact h.fire htimer
  | sentLocal hrequest => exact h.sentLocal hrequest
  | sent hrequest => exact h.sent hrequest
  | handed hframes => exact h.handed hframes
  | taken htransport hrequest => exact h.taken htransport hrequest
  | missed htransport hnone =>
    obtain ⟨request, hrequest, -⟩ := (h.mapped _ _).mp htransport
    rw [hnone] at hrequest
    cases hrequest
  | polled delay pollDelay hrequest =>
    rename_i id request transport
    have haway := h.away id request hrequest transport (Or.inr (Or.inr rfl))
    refine h.received hrequest .pending s.fresh [.transmit id delay] (fun j => ?_) nofun nofun (Nat.le_refl _) rfl
      (Or.inl rfl) fun _ => ?_
    · simp [Hand.moves, Timer.sends, List.countP_cons]
    · have hlast : lastEntry (.answered id transport .pending :: s.log) id = some (.answered id transport .pending) :=
        lastEntry_self (.answered id transport .pending)
      rw [Ready, hlast]
      exact haway.lastToken
  | retried delay pollDelay hrequest =>
    rename_i id request transport
    refine h.received hrequest .busy (s.fresh + 1) [.transmit id delay] (fun j => ?_) nofun nofun (Nat.le_succ _) rfl
      (Or.inr ⟨rfl, Nat.lt_succ_self _⟩) fun _ => ?_
    · simp [Hand.moves, Timer.sends, List.countP_cons]
    · have hlast : lastEntry (.answered id transport .busy :: s.log) id = some (.answered id transport .busy) :=
        lastEntry_self (.answered id transport .busy)
      rw [Ready, hlast]
      intro e he htoken
      rcases List.mem_cons.mp he with rfl | hold
      · cases htoken
      · exact Nat.lt_irrefl _ ((h.entries e hold).2.1 _ htoken)
  | ended result hrequest =>
    rename_i id request transport
    have hnext : ∀ j, (Hand.done id).moves j + ([] : List Timer).countP (Timer.sends j) = if id = j then 1 else 0 :=
      fun _ => rfl
    have hended : Moves (.done id) { s with
        fresh := s.fresh
        driveRequests := s.driveRequests.insert id { request with transport := none }
        timers := s.timers ++ [], log := .answered id transport (.final result) :: s.log } :=
      h.received hrequest (.final result) s.fresh [] hnext nofun nofun (Nat.le_refl _) rfl (Or.inl rfl) fun hno =>
        absurd hno (Nat.lt_irrefl 0)
    rwa [List.append_nil] at hended
  | letGo hspent => exact h.letGo hspent

end Drive

end SocietyHelper.Client
