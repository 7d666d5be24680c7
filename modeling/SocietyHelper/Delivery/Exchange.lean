import SocietyHelper.Delivery.Ordered

/-! # Processes that share a delivery store

Any process may queue, receive, read or acknowledge at any time; the two
statements of one acknowledgement are steps of their own, and each step is told
which of its statements fail. One consumer reads in a loop: it asks for its
cursor, reads a page behind it, and acknowledges the last row of the page before
it reads again.
-/

namespace SocietyHelper.Delivery

open Library Effect

/-- Where the loop of the reading consumer stands. -/
inductive Phase
  | idle
  | asked (cursor : Int)
  | holding (page : List InboxRow)
  | checked (page : List InboxRow)
  deriving DecidableEq

def Phase.page : Phase → List InboxRow
  | .holding page | .checked page => page
  | .idle | .asked _ => []

/-- The sequence of the last row, 0 where there is none. -/
def lastOf (rows : List InboxRow) : Int := (rows.getLast?.map InboxRow.sequence).getD 0

/-- `enqueued` lists the messages in the order in which their rows were committed, `returned` the ids that
callers were told. `checked` holds the acknowledgements between their two statements. `received` are the rows
of all pages the consumer was given, `settled` those of the pages it acknowledged; `rounds` counts its finished
turns, and `interrupted` says whether a restart took a page from it. -/
structure System where
  store : Store := {}
  drawn : Nat := 0
  enqueued : List Message := []
  returned : List Text := []
  checked : Table Nat (Text × Int) := .empty
  phase : Phase := .idle
  received : List InboxRow := []
  settled : List InboxRow := []
  rounds : Nat := 0
  interrupted : Bool := false

inductive Operation
  | enqueue (sender : Peer) (topic : Text) (payload : Bytes) (now : Text) (answered : Bool)
  | receivePending (limit : Int) (now : Text)
  | readAfter (sequence limit : Int)
  | acknowledged (consumer : Text)
  | check (process : Nat) (consumer : Text) (sequence : Int)
  | write (process : Nat)
  | restart (process : Nat)
  | ask
  | read (limit : Int)
  | checkPage
  | writePage
  | restartReader

structure Step where
  operation : Operation
  faults : List Bool := []

/-- Run one call with its own faults; what is left of them is forgotten. -/
def attempt {α : Type} (m : Effect Store α) (faults : List Bool) (s : Store) : Option α × Store :=
  match m { s with faults } with
  | .ok a t => (some a, t.content)
  | .error _ t => (none, t.content)

/-- `supply` are the ids that the calls of `enqueue` draw, one after the other. -/
def perform (supply : Nat → Text) (reader : Text) (step : Step) (s : System) : System :=
  match step.operation with
  | .enqueue sender topic payload now answered =>
    match attempt (Store.enqueue sender topic payload (supply s.drawn) now) step.faults s.store with
    | (some id, store) => { s with
        store
        drawn := s.drawn + 1
        enqueued := s.enqueued ++ [{ id := supply s.drawn, sender := sender.json, topic, payload, queuedAt := now }]
        returned := if answered then s.returned ++ [id] else s.returned }
    | (none, store) => { s with store, drawn := s.drawn + 1 }
  | .receivePending limit now => { s with store := (attempt (Store.receivePending limit now) step.faults s.store).2 }
  | .readAfter sequence limit => { s with store := (attempt (Store.readAfter sequence limit) step.faults s.store).2 }
  | .acknowledged consumer => { s with store := (attempt (Store.acknowledged consumer) step.faults s.store).2 }
  | .check process consumer sequence =>
    match attempt (Store.checkReceived consumer sequence) step.faults s.store with
    | (some _, store) => { s with store, checked := s.checked.insert process (consumer, sequence) }
    | (none, store) => { s with store, checked := s.checked.erase process }
  | .write process =>
    match s.checked.find? process with
    | some (consumer, sequence) => { s with
        store := (attempt (Store.storeCursor consumer sequence) step.faults s.store).2
        checked := s.checked.erase process }
    | none => s
  | .restart process => { s with checked := s.checked.erase process }
  | .ask =>
    match s.phase with
    | .idle =>
      match attempt (Store.acknowledged reader) step.faults s.store with
      | (some cursor, store) => { s with store, phase := .asked cursor }
      | (none, store) => { s with store }
    | _ => s
  | .read limit =>
    match s.phase with
    | .asked cursor =>
      match attempt (Store.readAfter cursor limit) step.faults s.store with
      | (some [], store) => { s with store, phase := .idle, rounds := s.rounds + 1 }
      | (some (row :: rows), store) => { s with
          store
          phase := .holding (row :: rows)
          received := s.received ++ row :: rows }
      | (none, store) => { s with store, phase := .idle }
    | _ => s
  | .checkPage =>
    match s.phase with
    | .holding page =>
      match attempt (Store.checkReceived reader (lastOf page)) step.faults s.store with
      | (some _, store) => { s with store, phase := .checked page }
      | (none, store) => { s with store }
    | _ => s
  | .writePage =>
    match s.phase with
    | .checked page =>
      match attempt (Store.storeCursor reader (lastOf page)) step.faults s.store with
      | (some _, store) => { s with
          store
          phase := .idle
          settled := s.settled ++ page
          rounds := s.rounds + 1 }
      | (none, store) => { s with store, phase := .holding page }
    | _ => s
  | .restartReader => { s with phase := .idle, interrupted := s.interrupted || !s.phase.page.isEmpty }

def run (supply : Nat → Text) (reader : Text) (steps : List Step) (s : System) : System :=
  steps.foldl (fun s step => perform supply reader step s) s

theorem attempt_some {α : Type} {m : Effect Store α} {faults : List Bool} {s t : Store} {a : α}
    (h : attempt m faults s = (some a, t)) : ∃ u, m { s with faults } = .ok a u ∧ Store.Same.rel u t := by
  rw [attempt] at h
  split at h
  · rename_i b u hok
    cases h
    exact ⟨u, hok, rfl⟩
  · cases h

theorem attempt_none {α : Type} {m : Effect Store α} {faults : List Bool} {s t : Store}
    (h : attempt m faults s = (none, t)) : ∃ e u, m { s with faults } = .error e u ∧ Store.Same.rel u t := by
  rw [attempt] at h
  split at h
  · cases h
  · rename_i e u herror
    cases h
    exact ⟨e, u, herror, rfl⟩

theorem attempt_keeps {α : Type} {m : Effect Store α} (hm : Keeps Store.Same m) (faults : List Bool) (s : Store) :
    Store.Same.rel s (attempt m faults s).2 := by
  have h := hm { s with faults }
  rw [attempt]
  split
  · rename_i a u hok
    rw [hok] at h
    exact h
  · rename_i e u herror
    rw [herror] at h
    exact h

/-! ## What one step can do to the store -/

namespace Store

inductive Change (s t : Store) : Prop
  | same (h : Same.rel s t)
  | queued (message : Message) (fresh : message.id ∉ s.queue.map Message.id)
      (h : Same.rel { s with outbox := s.outbox ++ [⟨nextRowid s.outbox, message⟩] } t)
  | received (ordered : Ordered t) (consumers : t.consumers = s.consumers) (queue : t.queue = s.queue)
      (inbox : s.inbox <+: t.inbox)
  | acknowledged (consumer : Text) (sequence : Int) (nonneg : 0 ≤ sequence) (bound : sequence ≤ s.maxSequence)
      (h : Same.rel { s with
        consumers := s.consumers.insert consumer (max ((s.consumers.find? consumer).getD sequence) sequence) } t)

namespace Change

variable {s t : Store}

theorem ordered (h : Change s t) (hs : Ordered s) : Ordered t := by
  cases h with
  | same h => exact hs.same h
  | queued message fresh h => exact (hs.queued fresh).same h
  | received ordered => exact ordered
  | acknowledged consumer sequence nonneg bound h => exact (hs.acknowledged nonneg bound).same h

theorem inbox_front (h : Change s t) : s.inbox <+: t.inbox := by
  cases h with
  | same h => rw [(same_fields h).2.1]
  | queued message fresh h => rw [(same_fields h).2.1]
  | received _ _ _ inbox => exact inbox
  | acknowledged consumer sequence nonneg bound h => rw [(same_fields h).2.1]

theorem cursor_mono (h : Change s t) {consumer : Text} {v : Int} (hv : s.consumers.find? consumer = some v) :
    ∃ w, t.consumers.find? consumer = some w ∧ v ≤ w := by
  cases h with
  | same h => exact ⟨v, (same_fields h).2.2.2 ▸ hv, le_refl v⟩
  | queued message fresh h => exact ⟨v, (same_fields h).2.2.2 ▸ hv, le_refl v⟩
  | received _ consumers => exact ⟨v, consumers ▸ hv, le_refl v⟩
  | acknowledged other sequence nonneg bound h =>
    rw [(same_fields h).2.2.2, Table.find?_insert]
    split
    · rename_i hother
      subst hother
      rw [hv, Option.getD_some]
      exact ⟨_, rfl, le_max_left v sequence⟩
    · exact ⟨v, hv, le_refl v⟩

end Change

theorem receivePending_change {limit : Int} {now : Text} {faults : List Bool} {s t : Store} {answer : Option Nat}
    (h : Ordered s) (hattempt : attempt (receivePending limit now) faults s = (answer, t)) :
    Change s t ∧ t.queue = s.queue ∧ t.consumers = s.consumers := by
  cases answer with
  | none =>
    obtain ⟨e, u, herror, hu⟩ := attempt_none hattempt
    have hsame : Same.rel { s with faults } t := Same.trans (receivePending_error herror) hu
    exact ⟨.same hsame, queue_same hsame, (same_fields hsame).2.2.2⟩
  | some count =>
    obtain ⟨u, hok, hu⟩ := attempt_some hattempt
    obtain ⟨hordered, hconsumers, hqueue, hinbox⟩ := receivePending_ok (s := { s with faults }) (h.same rfl) hok
    obtain ⟨-, hinboxt, -, hconsumerst⟩ := same_fields hu
    have hqueuet : t.queue = s.queue := (queue_same hu).trans hqueue
    have hconsumerss : t.consumers = s.consumers := hconsumerst.trans hconsumers
    exact ⟨.received (hordered.same hu) hconsumerss hqueuet (hinboxt ▸ hinbox), hqueuet, hconsumerss⟩

theorem storeCursor_none {consumer : Text} {sequence : Int} {faults : List Bool} {s t : Store}
    (hattempt : attempt (storeCursor consumer sequence) faults s = (none, t)) : Same.rel s t := by
  obtain ⟨e, u, herror, hu⟩ := attempt_none hattempt
  exact Same.trans (statement_error (s := { s with faults }) herror) hu

theorem storeCursor_some {consumer : Text} {sequence : Int} {faults : List Bool} {s t : Store} {answer : Unit}
    (hattempt : attempt (storeCursor consumer sequence) faults s = (some answer, t)) :
    Same.rel { s with
      consumers := s.consumers.insert consumer (max ((s.consumers.find? consumer).getD sequence) sequence) } t := by
  obtain ⟨u, hok, hu⟩ := attempt_some hattempt
  exact Same.trans (storeCursor_ok (s := { s with faults }) hok) hu

theorem storeCursor_change {consumer : Text} {sequence : Int} {faults : List Bool} {s t : Store}
    {answer : Option Unit} (hzero : 0 ≤ sequence) (hmax : sequence ≤ s.maxSequence)
    (hattempt : attempt (storeCursor consumer sequence) faults s = (answer, t)) :
    Change s t ∧ t.queue = s.queue := by
  cases answer with
  | none =>
    have hsame := storeCursor_none hattempt
    exact ⟨.same hsame, queue_same hsame⟩
  | some _ =>
    have ht := storeCursor_some hattempt
    exact ⟨.acknowledged consumer sequence hzero hmax ht, (queue_same ht :)⟩

end Store

/-! ## Whole runs -/

structure Sound (supply : Nat → Text) (s : System) : Prop where
  ordered : s.store.Ordered
  queue : s.store.queue = s.enqueued
  drawn : ∀ m ∈ s.enqueued, ∃ n < s.drawn, m.id = supply n
  returned : ∀ id ∈ s.returned, id ∈ s.enqueued.map Message.id
  checked : ∀ p c v, s.checked.find? p = some (c, v) → 0 ≤ v ∧ v ≤ s.store.maxSequence
  page : ∀ rows, s.phase = .checked rows → 0 ≤ lastOf rows ∧ lastOf rows ≤ s.store.maxSequence

namespace Sound

variable {supply : Nat → Text} {s : System}

theorem start : Sound supply {} where
  ordered := Store.Ordered.empty
  queue := rfl
  drawn := by
    intro m hm
    cases hm
  returned := by
    intro id hid
    cases hid
  checked := by
    intro p c v hv
    cases hv
  page := by
    intro rows hrows
    cases hrows

theorem store_change (h : Sound supply s) {t : Store} (hchange : Store.Change s.store t)
    (hqueue : t.queue = s.store.queue) : Sound supply { s with store := t } := by
  have hordered := hchange.ordered h.ordered
  have hmono : s.store.maxSequence ≤ t.maxSequence :=
    Store.maxSequence_mono hchange.inbox_front fun r hr => (hordered.given r hr).1
  constructor
  · exact hordered
  · exact hqueue.trans h.queue
  · exact h.drawn
  · exact h.returned
  · intro p c v hv
    have hcursor := h.checked p c v hv
    exact ⟨hcursor.1, hcursor.2.trans hmono⟩
  · intro rows hrows
    have hlast := h.page rows hrows
    exact ⟨hlast.1, hlast.2.trans hmono⟩

theorem store_same (h : Sound supply s) {t : Store} (hsame : Store.Same.rel s.store t) :
    Sound supply { s with store := t } :=
  h.store_change (.same hsame) (Store.queue_same hsame)

theorem forget_checked (h : Sound supply s) (process : Nat) :
    Sound supply { s with checked := s.checked.erase process } := by
  refine { h with checked := ?_ }
  intro p c v hv
  rw [Table.find?_erase] at hv
  split at hv
  · cases hv
  · exact h.checked p c v hv

theorem set_phase (h : Sound supply s) {phase : Phase} (hphase : ∀ rows, phase ≠ .checked rows) :
    Sound supply { s with phase } :=
  { h with page := fun rows hrows => absurd hrows (hphase rows) }

end Sound

theorem perform_spec {supply : Nat → Text} (hsupply : Function.Injective supply) (reader : Text) (step : Step)
    {s : System} (h : Sound supply s) :
    Store.Change s.store (perform supply reader step s).store ∧ Sound supply (perform supply reader step s) ∧
      s.enqueued <+: (perform supply reader step s).enqueued := by
  obtain ⟨operation, faults⟩ := step
  cases operation with
  | enqueue sender topic payload now answered =>
    cases hattempt : attempt (Store.enqueue sender topic payload (supply s.drawn) now) faults s.store with
    | mk answer t =>
      simp only [perform, hattempt]
      cases answer with
      | none =>
        obtain ⟨e, u, herror, hu⟩ := attempt_none hattempt
        have hsame : Store.Same.rel { s.store with faults } t := Store.Same.trans (Store.enqueue_error herror) hu
        have hsound := h.store_same hsame
        refine ⟨.same hsame, { hsound with drawn := ?_ }, List.prefix_refl _⟩
        intro m hm
        obtain ⟨n, hn, hid⟩ := h.drawn m hm
        exact ⟨n, Nat.lt_succ_of_lt hn, hid⟩
      | some id =>
        obtain ⟨u, hok, hu⟩ := attempt_some hattempt
        obtain ⟨rfl, hrow⟩ := Store.enqueue_ok hok
        have ht : Store.Same.rel { s.store with outbox := s.store.outbox ++ [⟨Store.nextRowid s.store.outbox,
            { id := supply s.drawn, sender := sender.json, topic, payload, queuedAt := now }⟩] } t :=
          Store.Same.trans hrow hu
        have hfresh : supply s.drawn ∉ s.store.queue.map Message.id := by
          rw [h.queue]
          intro hmem
          obtain ⟨m, hm, hid⟩ := List.mem_map.mp hmem
          obtain ⟨n, hn, hdrawn⟩ := h.drawn m hm
          have heq := hsupply (hdrawn.symm.trans hid)
          omega
        have hchange : Store.Change s.store t := .queued _ hfresh ht
        have hqueue : t.queue = s.enqueued ++
            [{ id := supply s.drawn, sender := sender.json, topic, payload, queuedAt := now }] := by
          rw [Store.queue_same ht, ← h.queue]
          simp [Store.queue]
        have hmax : t.maxSequence = s.store.maxSequence := (Store.maxSequence_same ht :)
        refine ⟨hchange, ⟨hchange.ordered h.ordered, hqueue, ?_, ?_, ?_, ?_⟩, List.prefix_append _ _⟩
        · intro m hm
          rw [List.mem_append, List.mem_singleton] at hm
          rcases hm with hm | rfl
          · obtain ⟨n, hn, hid⟩ := h.drawn m hm
            exact ⟨n, Nat.lt_succ_of_lt hn, hid⟩
          · exact ⟨s.drawn, Nat.lt_succ_self _, rfl⟩
        · have hreturned : ∀ id ∈ s.returned ++ [supply s.drawn], id ∈ s.enqueued.map Message.id ∨ id = supply s.drawn := by
            intro id hid
            rw [List.mem_append, List.mem_singleton] at hid
            exact hid.imp_left (h.returned id)
          intro id hid
          rw [List.map_append, List.mem_append, List.map_singleton, List.mem_singleton]
          apply hreturned
          dsimp only at hid
          split at hid
          · exact hid
          · exact List.mem_append_left _ hid
        · intro p c v hv
          rw [hmax]
          exact h.checked p c v hv
        · intro rows hrows
          rw [hmax]
          exact h.page rows hrows
  | receivePending limit now =>
    obtain ⟨hchange, hqueue, -⟩ := @Store.receivePending_change limit now faults _ _ _ h.ordered rfl
    exact ⟨hchange, h.store_change hchange hqueue, List.prefix_refl _⟩
  | readAfter sequence limit =>
    have hsame := attempt_keeps (Store.readAfter_keeps sequence limit) faults s.store
    exact ⟨.same hsame, h.store_same hsame, List.prefix_refl _⟩
  | acknowledged consumer =>
    have hsame := attempt_keeps (Store.acknowledged_keeps consumer) faults s.store
    exact ⟨.same hsame, h.store_same hsame, List.prefix_refl _⟩
  | check process consumer sequence =>
    have hsame := attempt_keeps (Store.checkReceived_keeps consumer sequence) faults s.store
    cases hattempt : attempt (Store.checkReceived consumer sequence) faults s.store with
    | mk answer t =>
      rw [hattempt] at hsame
      simp only [perform, hattempt]
      cases answer with
      | none => exact ⟨.same hsame, (h.store_same hsame).forget_checked process, List.prefix_refl _⟩
      | some _ =>
        obtain ⟨u, hok, hu⟩ := attempt_some hattempt
        obtain ⟨hkept, hzero, hmax⟩ := Store.checkReceived_ok hok
        refine ⟨.same hsame, { h.store_same hsame with checked := ?_ }, List.prefix_refl _⟩
        intro p c v hv
        dsimp only at hv ⊢
        rw [Table.find?_insert] at hv
        rw [Store.maxSequence_same hsame]
        split at hv
        · cases hv
          exact ⟨hzero, hmax⟩
        · exact h.checked p c v hv
  | write process =>
    cases hfind : s.checked.find? process with
    | none =>
      simp only [perform, hfind]
      exact ⟨.same rfl, h, List.prefix_refl _⟩
    | some pair =>
      obtain ⟨consumer, sequence⟩ := pair
      simp only [perform, hfind]
      obtain ⟨hzero, hmax⟩ := h.checked process consumer sequence hfind
      obtain ⟨hchange, hqueue⟩ := @Store.storeCursor_change consumer sequence faults _ _ _ hzero hmax rfl
      exact ⟨hchange, (h.store_change hchange hqueue).forget_checked process, List.prefix_refl _⟩
  | restart process =>
    exact ⟨.same rfl, h.forget_checked process, List.prefix_refl _⟩
  | ask =>
    have hsame := attempt_keeps (Store.acknowledged_keeps reader) faults s.store
    cases hphase : s.phase with
    | asked cursor | holding page | checked page =>
      simp only [perform, hphase]
      exact ⟨.same rfl, h, List.prefix_refl _⟩
    | idle =>
      cases hattempt : attempt (Store.acknowledged reader) faults s.store with
      | mk answer t =>
        rw [hattempt] at hsame
        simp only [perform, hphase, hattempt]
        cases answer with
        | none => exact ⟨.same hsame, (h.store_same hsame).set_phase (by rintro rows ⟨⟩), List.prefix_refl _⟩
        | some cursor =>
          exact ⟨.same hsame, (h.store_same hsame).set_phase (by rintro rows ⟨⟩), List.prefix_refl _⟩
  | read limit =>
    cases hphase : s.phase with
    | idle | holding page | checked page =>
      simp only [perform, hphase]
      exact ⟨.same rfl, h, List.prefix_refl _⟩
    | asked cursor =>
      have hsame := attempt_keeps (Store.readAfter_keeps cursor limit) faults s.store
      cases hattempt : attempt (Store.readAfter cursor limit) faults s.store with
      | mk answer t =>
        rw [hattempt] at hsame
        simp only [perform, hphase, hattempt]
        have hsound := h.store_same hsame
        cases answer with
        | none => exact ⟨.same hsame, hsound.set_phase (by rintro rows ⟨⟩), List.prefix_refl _⟩
        | some rows =>
          cases rows with
          | nil =>
            exact ⟨.same hsame, { @Sound.set_phase supply _ hsound .idle (by rintro rows ⟨⟩) with }, List.prefix_refl _⟩
          | cons row rows =>
            exact ⟨.same hsame, { @Sound.set_phase supply _ hsound (.holding (row :: rows)) (by rintro rows ⟨⟩) with },
              List.prefix_refl _⟩
  | checkPage =>
    cases hphase : s.phase with
    | idle | asked cursor | checked page =>
      simp only [perform, hphase]
      exact ⟨.same rfl, h, List.prefix_refl _⟩
    | holding page =>
      have hsame := attempt_keeps (Store.checkReceived_keeps reader (lastOf page)) faults s.store
      cases hattempt : attempt (Store.checkReceived reader (lastOf page)) faults s.store with
      | mk answer t =>
        rw [hattempt] at hsame
        simp only [perform, hphase, hattempt]
        cases answer with
        | none => exact ⟨.same hsame, (h.store_same hsame).set_phase (by rintro rows ⟨⟩), List.prefix_refl _⟩
        | some _ =>
          obtain ⟨u, hok, hu⟩ := attempt_some hattempt
          obtain ⟨hkept, hzero, hmax⟩ := Store.checkReceived_ok hok
          refine ⟨.same hsame, { h.store_same hsame with page := ?_ }, List.prefix_refl _⟩
          intro rows hrows
          cases hrows
          dsimp only
          rw [Store.maxSequence_same hsame]
          exact ⟨hzero, hmax⟩
  | writePage =>
    cases hphase : s.phase with
    | idle | asked cursor | holding page =>
      simp only [perform, hphase]
      exact ⟨.same rfl, h, List.prefix_refl _⟩
    | checked page =>
      obtain ⟨hzero, hmax⟩ := h.page page hphase
      cases hattempt : attempt (Store.storeCursor reader (lastOf page)) faults s.store with
      | mk answer t =>
        obtain ⟨hchange, hqueue⟩ := Store.storeCursor_change hzero hmax hattempt
        have hsound := h.store_change hchange hqueue
        simp only [perform, hphase, hattempt]
        cases answer with
        | none => exact ⟨hchange, hsound.set_phase (by rintro rows ⟨⟩), List.prefix_refl _⟩
        | some _ =>
          exact ⟨hchange, { @Sound.set_phase supply _ hsound .idle (by rintro rows ⟨⟩) with }, List.prefix_refl _⟩
  | restartReader =>
    exact ⟨.same rfl, { @Sound.set_phase supply _ h .idle (by rintro rows ⟨⟩) with }, List.prefix_refl _⟩

end SocietyHelper.Delivery
