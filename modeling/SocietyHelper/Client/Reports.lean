import SocietyHelper.Client.Changes

/-! # Every request of a caller is reported once

An identifier that a caller got is in exactly one place: among the requests or the
inspections, in the rest of a function that has called out, or among the reports.
While it is among the requests or the inspections, its timeout has not fired.
-/

namespace SocietyHelper.Client

open Library Sync

namespace Drive

variable {c : Checks} {s t : Drive} {id : Id} {hand next : Hand}

/-! ## One place for each identifier -/

/-- Whether a request that was looked up is a caller's. -/
def asked : Option DriveRequest → Nat
  | some request => if request.completion.isNone then 1 else 0
  | none => 0

def opened : Option Inspection → Nat
  | some _ => 1
  | none => 0

@[simp] theorem asked_some (request : DriveRequest) :
    asked (some request) = if request.completion.isNone then 1 else 0 := rfl
@[simp] theorem asked_none : asked none = 0 := rfl
@[simp] theorem opened_some (state : Inspection) : opened (some state) = 1 := rfl
@[simp] theorem opened_none : opened none = 0 := rfl

def owed (s : Drive) : List Id := s.frames.flatMap Frame.owed

def reports (s : Drive) (id : Id) : Nat := (s.reported.map Prod.fst).count id

def waiting (s : Drive) (id : Id) : Nat := asked (s.driveRequests.find? id) + opened (s.inspections.find? id)

def places (s : Drive) (id : Id) : Nat := s.reports id + s.waiting id + s.owed.count id

theorem count_publicIds (s : Drive) (id : Id) : s.publicIds.count id = asked (s.driveRequests.find? id) := by
  rw [publicIds, Table.count_keys, Table.find?_filter]
  cases s.driveRequests.find? id with
  | none => rfl
  | some request => cases h : request.completion <;> simp [h]

theorem count_inspections (s : Drive) (id : Id) : s.inspections.keys.count id = opened (s.inspections.find? id) := by
  rw [Table.count_keys]
  cases s.inspections.find? id with
  | none => rfl
  | some state => rfl

theorem reports_report (s : Drive) (id j : Id) (r : Report) :
    (s.report id r).reports j = s.reports j + if id = j then 1 else 0 := by
  simp [report, reports, List.count_singleton]

theorem places_report (s : Drive) (id j : Id) (r : Report) :
    (s.report id r).places j = s.places j + if id = j then 1 else 0 := by
  have hreports := reports_report s id j r
  have hwaiting : (s.report id r).waiting j = s.waiting j := rfl
  have howed : (s.report id r).owed = s.owed := rfl
  rw [places, places, howed]
  omega

theorem count_owed {frame : Frame} {frames : List Frame} (h : s.frames = frame :: frames) (j : Id) :
    s.owed.count j = frame.owed.count j + (frames.flatMap Frame.owed).count j := by
  rw [owed, h, List.flatMap_cons, List.count_append]

theorem asked_without {request : DriveRequest} (hrequest : s.driveRequests.find? id = some request) (j : Id) :
    asked ((s.without id request).driveRequests.find? j) + (if id = j ∧ request.completion.isNone then 1 else 0) =
      asked (s.driveRequests.find? j) := by
  rw [without, Table.find?_erase]
  by_cases hj : j = id
  · subst hj
    simp [hrequest]
  · simp [hj, Ne.symm hj]

structure Accounts (s : Drive) : Prop where
  placed : ∀ id, s.places id = s.returned.count id
  once : s.returned.Nodup
  young : ∀ id ∈ s.returned, id < s.fresh

theorem Accounts.moved (h : Accounts s) (hreturned : t.returned = s.returned) (hfresh : s.fresh ≤ t.fresh)
    (hplaces : ∀ j, t.places j = s.places j) : Accounts t := by
  refine ⟨fun j => ?_, ?_, fun j hj => ?_⟩
  · rw [hplaces, hreturned]
    exact h.placed j
  · rw [hreturned]
    exact h.once
  · rw [hreturned] at hj
    exact (h.young j hj).trans_le hfresh

theorem Accounts.absent (h : Accounts s) : s.places s.fresh = 0 := by
  rw [h.placed]
  apply List.count_eq_zero_of_not_mem
  intro hmem
  exact Nat.lt_irrefl _ (h.young s.fresh hmem)

theorem Accounts.returns (h : Accounts s) (hreturned : t.returned = s.returned ++ [s.fresh]) (hfresh : s.fresh < t.fresh)
    (hplaces : ∀ j, t.places j = s.places j + if s.fresh = j then 1 else 0) : Accounts t := by
  refine ⟨fun j => ?_, ?_, fun j hj => ?_⟩
  · rw [hplaces, hreturned, h.placed, List.count_append, List.count_singleton]
    simp
  · rw [hreturned, List.nodup_append]
    refine ⟨h.once, List.nodup_singleton _, fun a ha b hb hab => ?_⟩
    have hlt := h.young a ha
    rw [hab, List.mem_singleton.mp hb] at hlt
    exact Nat.lt_irrefl _ hlt
  · rw [hreturned] at hj
    rcases List.mem_append.mp hj with hold | hnew
    · exact (h.young j hold).trans hfresh
    · rw [List.mem_singleton.mp hnew]
      exact hfresh

theorem Accounts.ask (h : Accounts s) (message : Message) (completion : Option Completion) :
    Accounts (s.ask message completion) := by
  have hasked : ∀ j, asked ((s.ask message completion).driveRequests.find? j) = asked (s.driveRequests.find? j) +
      if s.fresh = j ∧ completion.isNone then 1 else 0 := by
    intro j
    rw [Drive.ask, Table.find?_insert]
    by_cases hj : j = s.fresh
    · subst hj
      have habsent := h.absent
      rw [places, waiting] at habsent
      have hzero : asked (s.driveRequests.find? s.fresh) = 0 := by omega
      simp [hzero]
    · simp [hj, Ne.symm hj]
  have hplaces : ∀ j, (s.ask message completion).places j = s.places j +
      if s.fresh = j ∧ completion.isNone then 1 else 0 := by
    intro j
    have hone := hasked j
    have hsame : (s.ask message completion).reports j = s.reports j ∧
        (s.ask message completion).inspections = s.inspections ∧ (s.ask message completion).owed = s.owed :=
      ⟨rfl, rfl, rfl⟩
    rw [places, places, waiting, waiting, hsame.1, hsame.2.1, hsame.2.2]
    omega
  have hfresh : s.fresh < s.fresh + 2 := Nat.lt_add_of_pos_right (by decide)
  cases completion with
  | none => exact h.returns rfl hfresh (by simpa using hplaces)
  | some completion => exact h.moved rfl hfresh.le (by simpa using hplaces)

theorem Accounts.without (h : Accounts s) {request : DriveRequest}
    (hrequest : s.driveRequests.find? id = some request) (j : Id) :
    (s.without id request).places j + (if id = j ∧ request.completion.isNone then 1 else 0) = s.returned.count j := by
  have hasked := asked_without hrequest j
  have hsame : (s.without id request).reports j = s.reports j ∧
      (s.without id request).inspections = s.inspections ∧ (s.without id request).owed = s.owed := ⟨rfl, rfl, rfl⟩
  rw [← h.placed, places, places, waiting, waiting, hsame.1, hsame.2.1, hsame.2.2]
  omega

/-- A request keeps its place when its course changes. -/
theorem asked_insert {old : DriveRequest} (hold : s.driveRequests.find? id = some old) {envelope : Envelope}
    {transport : Option Id} {pollDelay : Nat} (j : Id) :
    asked ((s.driveRequests.insert id { old with envelope, transport, pollDelay }).find? j) =
      asked (s.driveRequests.find? j) := by
  rw [Table.find?_insert]
  by_cases hj : j = id
  · subst hj
    simp [hold]
  · simp [hj]

theorem Accounts.step (hchange : Change (hand, s) (next, t)) (h : Accounts s) : Accounts t := by
  cases hchange with
  | kept online fits isLocal container scope fresh snapshot refreshAgain hfresh =>
    exact h.moved rfl hfresh fun _ => rfl
  | scheduled => exact h.moved rfl (Nat.le_refl _) fun _ => rfl
  | asked message completion => exact h.ask message completion
  | opened state =>
    refine h.returns rfl (Nat.lt_succ_self _) fun j => ?_
    have hone : Drive.opened ((s.inspections.insert s.fresh state).find? j) = Drive.opened (s.inspections.find? j) +
        if s.fresh = j then 1 else 0 := by
      rw [Table.find?_insert]
      by_cases hj : j = s.fresh
      · subst hj
        have habsent := h.absent
        rw [places, waiting] at habsent
        have hzero : Drive.opened (s.inspections.find? s.fresh) = 0 := by omega
        simp [hzero]
      · simp [hj, Ne.symm hj]
    simp only [places, waiting, reports, Drive.owed]
    omega
  | grown next hold =>
    rename_i id old
    refine h.moved rfl (Nat.le_refl _) fun j => ?_
    have hone : Drive.opened ((s.inspections.insert id next).find? j) = Drive.opened (s.inspections.find? j) := by
      rw [Table.find?_insert]
      by_cases hj : j = id
      · subst hj
        simp [hold]
      · simp [hj]
    simp only [places, waiting, reports, Drive.owed, hone]
  | told report hold =>
    rename_i id old
    refine h.moved rfl (Nat.le_refl _) fun j => ?_
    have hone : Drive.opened ((s.inspections.erase id).find? j) + (if id = j then 1 else 0) =
        Drive.opened (s.inspections.find? j) := by
      rw [Table.find?_erase]
      by_cases hj : j = id
      · subst hj
        simp [hold]
      · simp [hj, Ne.symm hj]
    rw [places_report]
    simp only [places, waiting, reports, Drive.owed]
    omega
  | dropped hrequest hsome =>
    rename_i id request
    have hpublic : request.completion.isNone = false := by
      cases hcompletion : request.completion with
      | none => rw [hcompletion] at hsome; cases hsome
      | some completion => rfl
    refine h.moved rfl (Nat.le_refl _) fun j => ?_
    have hplaces := h.without hrequest j
    rw [hpublic] at hplaces
    rw [h.placed, ← hplaces]
    simp
  | answered report hrequest hnone =>
    rename_i id request
    refine h.moved rfl (Nat.le_refl _) fun j => ?_
    have hplaces := h.without hrequest j
    rw [hnone] at hplaces
    rw [places_report, h.placed, ← hplaces]
    simp
  | owed result hrequest hnone =>
    rename_i id request
    refine h.moved rfl (Nat.le_refl _) fun j => ?_
    have hplaces := h.without hrequest j
    rw [hnone] at hplaces
    rw [h.placed, ← hplaces]
    simp only [places, waiting, reports, Drive.owed, List.flatMap_cons, Frame.owed, List.count_append,
      List.count_singleton, beq_iff_eq, Option.isNone_none, and_true]
    have hframes : (s.without id request).frames = s.frames := rfl
    rw [hframes]
    omega
  | cleared error =>
    refine h.moved rfl (Nat.le_refl _) fun j => ?_
    have hcount := count_publicIds s j
    simp only [places, waiting, reports, Drive.owed, clearDrive, List.flatMap_cons, Frame.owed, List.count_append,
      Table.find?_empty, asked_none]
    omega
  | pushed => exact h.moved rfl (Nat.le_refl _) fun _ => rfl
  | popped hframes hnone _ =>
    refine h.moved rfl (Nat.le_refl _) fun j => ?_
    have hcount := count_owed hframes j
    rw [hnone, List.count_nil] at hcount
    simp only [places, waiting, reports]
    rw [hcount]
    simp only [Drive.owed]
    omega
  | paid rest report hframes hpaid _ =>
    rename_i frame frames id
    refine h.moved rfl (Nat.le_refl _) fun j => ?_
    have hcount := count_owed hframes j
    rw [hpaid, List.count_cons] at hcount
    rw [places_report]
    simp only [places, waiting, reports]
    rw [hcount]
    simp only [Drive.owed, List.flatMap_append, List.count_append, beq_iff_eq]
    omega
  | emptied error hframes =>
    refine h.moved rfl (Nat.le_refl _) fun j => ?_
    have hcount := count_owed hframes j
    have hinspections := count_inspections s j
    rw [Frame.owed, List.count_nil] at hcount
    simp only [places, waiting, reports]
    rw [hcount]
    simp only [Drive.owed, List.flatMap_cons, List.count_append, Frame.owed, Table.find?_empty, opened_none]
    omega
  | fired i htimer => exact h.moved rfl (Nat.le_refl _) fun _ => rfl
  | sentLocal hrequest => exact h.moved rfl (Nat.le_refl _) fun _ => rfl
  | sent hrequest =>
    refine h.moved rfl (Nat.le_succ _) fun j => ?_
    simp only [places, waiting, reports, Drive.owed]
    rw [asked_insert hrequest]
  | handed hframes =>
    refine h.moved rfl (Nat.le_refl _) fun j => ?_
    have hcount := count_owed hframes j
    rw [Frame.owed, List.count_nil] at hcount
    simp only [places, waiting, reports]
    rw [hcount]
    simp only [Drive.owed]
    omega
  | taken htransport hrequest =>
    refine h.moved rfl (Nat.le_refl _) fun j => ?_
    simp only [places, waiting, reports, Drive.owed]
    rw [asked_insert hrequest]
  | missed _ _ => exact h.moved rfl (Nat.le_refl _) fun _ => rfl
  | polled delay pollDelay hrequest =>
    refine h.moved rfl (Nat.le_refl _) fun j => ?_
    simp only [places, waiting, reports, Drive.owed]
    rw [asked_insert hrequest]
  | retried delay pollDelay hrequest =>
    refine h.moved rfl (Nat.le_succ _) fun j => ?_
    simp only [places, waiting, reports, Drive.owed]
    rw [asked_insert hrequest]
  | ended result hrequest =>
    refine h.moved rfl (Nat.le_refl _) fun j => ?_
    simp only [places, waiting, reports, Drive.owed]
    rw [asked_insert hrequest]
  | letGo _ => exact h

/-! ## Timeouts -/

/-- Requests and inspections whose timeouts have not fired, the one in hand apart. -/
structure Timeouts (hand : Hand) (s : Drive) : Prop where
  requests : ∀ id, (s.driveRequests.find? id).isSome → hand = .timeout (.requestTimeout id) ∨ .requestTimeout id ∈ s.timers
  inspections : ∀ id, (s.inspections.find? id).isSome →
    hand = .timeout (.inspectTimeout id) ∨ .inspectTimeout id ∈ s.timers

theorem Timeouts.fewer (h : Timeouts hand s)
    (hrequests : ∀ id, (t.driveRequests.find? id).isSome → (s.driveRequests.find? id).isSome)
    (hinspections : ∀ id, (t.inspections.find? id).isSome → (s.inspections.find? id).isSome)
    (htimers : ∀ timer ∈ s.timers, timer ∈ t.timers) : Timeouts hand t := by
  constructor
  · intro id hid
    exact (h.requests id (hrequests id hid)).imp_right (htimers _)
  · intro id hid
    exact (h.inspections id (hinspections id hid)).imp_right (htimers _)

theorem Timeouts.rest (h : Timeouts hand s) (hno : ∀ timer, hand ≠ .timeout timer) (next : Hand) : Timeouts next s := by
  constructor
  · intro id hid
    exact Or.inr ((h.requests id hid).resolve_left (hno _))
  · intro id hid
    exact Or.inr ((h.inspections id hid).resolve_left (hno _))

theorem Timeouts.letGo (h : Timeouts hand s) (hspent : hand.Spent s) : Timeouts .empty s := by
  constructor
  · intro id hid
    rcases h.requests id hid with rfl | hmem
    · have hnone : s.driveRequests.find? id = none := hspent
      rw [hnone] at hid
      cases hid
    · exact Or.inr hmem
  · intro id hid
    rcases h.inspections id hid with rfl | hmem
    · have hnone : s.inspections.find? id = none := hspent
      rw [hnone] at hid
      cases hid
    · exact Or.inr hmem

theorem isSome_insert {ν : Type} {table : Table Id ν} {old new : ν} (hold : table.find? id = some old) (j : Id)
    (h : ((table.insert id new).find? j).isSome) : (table.find? j).isSome := by
  rw [Table.find?_insert] at h
  by_cases hj : j = id
  · subst hj
    rw [hold]
    rfl
  · rwa [if_neg hj] at h

theorem isSome_erase {ν : Type} {table : Table Id ν} (j : Id) (h : ((table.erase id).find? j).isSome) :
    (table.find? j).isSome := by
  rw [Table.find?_erase] at h
  split at h
  · cases h
  · exact h

theorem mem_eraseIdx {timers : List Timer} {i : Nat} {timer other : Timer} (hi : timers[i]? = some timer)
    (h : other ∈ timers) : other = timer ∨ other ∈ timers.eraseIdx i := by
  obtain ⟨hlt, hget⟩ := List.getElem?_eq_some_iff.mp hi
  have hperm := List.getElem_cons_eraseIdx_perm hlt
  rw [hget] at hperm
  exact List.mem_cons.mp (hperm.mem_iff.mpr h)

theorem Timeouts.step (hchange : Change (hand, s) (next, t)) (h : Timeouts hand s) : Timeouts next t := by
  have hsame : ∀ j, (s.driveRequests.find? j).isSome → (s.driveRequests.find? j).isSome := fun _ hj => hj
  have hsection : ∀ j, (s.inspections.find? j).isSome → (s.inspections.find? j).isSome := fun _ hj => hj
  have hkept : ∀ timer ∈ s.timers, timer ∈ s.timers := fun _ hm => hm
  have hadded : ∀ more : List Timer, ∀ timer ∈ s.timers, timer ∈ s.timers ++ more := fun _ _ hm =>
    List.mem_append_left _ hm
  cases hchange with
  | kept => exact h.fewer hsame hsection hkept
  | scheduled => exact h.fewer hsame hsection (hadded _)
  | asked message completion =>
    refine ⟨fun id hid => ?_, fun id hid => (h.inspections id hid).imp_right (hadded _ _)⟩
    rw [Drive.ask, Table.find?_insert] at hid
    by_cases hj : id = s.fresh
    · subst hj
      exact Or.inr (List.mem_append_right _ (by simp))
    · rw [if_neg hj] at hid
      exact (h.requests id hid).imp_right (hadded _ _)
  | opened state =>
    refine ⟨fun id hid => (h.requests id hid).imp_right (hadded _ _), fun id hid => ?_⟩
    rw [Table.find?_insert] at hid
    by_cases hj : id = s.fresh
    · subst hj
      exact Or.inr (List.mem_append_right _ (by simp))
    · rw [if_neg hj] at hid
      exact (h.inspections id hid).imp_right (hadded _ _)
  | grown next hold => exact h.fewer hsame (isSome_insert hold) hkept
  | told report hold => exact h.fewer hsame isSome_erase hkept
  | dropped _ _ => exact h.fewer isSome_erase hsection hkept
  | answered _ _ _ => exact h.fewer isSome_erase hsection hkept
  | owed _ _ _ => exact h.fewer isSome_erase hsection hkept
  | cleared error => exact h.fewer (fun _ hj => nomatch hj) hsection hkept
  | pushed => exact h.fewer hsame hsection hkept
  | popped _ _ _ => exact h.fewer hsame hsection hkept
  | paid _ _ _ _ _ => exact h.fewer hsame hsection hkept
  | emptied _ _ => exact h.fewer hsame (fun _ hj => nomatch hj) hkept
  | fired i htimer =>
    rename_i timer
    constructor
    · intro id hid
      rcases h.requests id hid with hno | hmem
      · cases hno
      · rcases mem_eraseIdx htimer hmem with rfl | hrest
        · exact Or.inl rfl
        · exact Or.inr hrest
    · intro id hid
      rcases h.inspections id hid with hno | hmem
      · cases hno
      · rcases mem_eraseIdx htimer hmem with rfl | hrest
        · exact Or.inl rfl
        · exact Or.inr hrest
  | sentLocal _ => exact (h.rest (fun _ => nofun) _).fewer hsame hsection hkept
  | sent hrequest => exact (h.rest (fun _ => nofun) _).fewer (isSome_insert hrequest) hsection hkept
  | handed hframes => exact (h.rest (fun _ => nofun) _).fewer hsame hsection hkept
  | taken htransport hrequest => exact (h.rest (fun _ => nofun) _).fewer (isSome_insert hrequest) hsection hkept
  | missed _ _ => exact h.fewer hsame hsection hkept
  | polled delay pollDelay hrequest =>
    exact (h.rest (fun _ => nofun) _).fewer (isSome_insert hrequest) hsection (hadded _)
  | retried delay pollDelay hrequest =>
    exact (h.rest (fun _ => nofun) _).fewer (isSome_insert hrequest) hsection (hadded _)
  | ended result hrequest => exact (h.rest (fun _ => nofun) _).fewer (isSome_insert hrequest) hsection hkept
  | letGo hspent => exact h.letGo hspent

theorem returned_step (hchange : Change (hand, s) (next, t)) (hid : id ∈ s.returned) : id ∈ t.returned := by
  cases hchange with
  | asked message completion =>
    cases completion with
    | none => exact List.mem_append_left _ hid
    | some completion => exact hid
  | opened state => exact List.mem_append_left _ hid
  | _ => exact hid

end Drive

end SocietyHelper.Client
