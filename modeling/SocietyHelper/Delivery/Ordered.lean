import SocietyHelper.Delivery.Store

/-! # What the operations do to an ordered store

The inbox followed by the outbox is one queue: `receivePending` only moves the
boundary between the two, `enqueue` adds at the end. A failed operation changes
nothing. -/

namespace SocietyHelper.Delivery

open Library Effect

namespace Store

/-- What processes see of a store: everything but the coming faults. -/
def content (s : Store) : Store := { s with faults := [] }

def Same : Frame Store where
  rel s t := t.content = s.content
  refl _ := rfl
  trans h h' := h'.trans h

theorem same_fields {s t : Store} (h : Same.rel s t) :
    t.outbox = s.outbox ∧ t.inbox = s.inbox ∧ t.lastSequence = s.lastSequence ∧ t.consumers = s.consumers := by
  have hfields : t.content = s.content := h
  simp only [content, Store.mk.injEq, and_true] at hfields
  exact hfields

theorem statement_ok {write : Store → Option Store} {s t : Store} (h : statement write s = .ok () t) :
    ∃ v, write s = some v ∧ t.content = v.content := by
  rw [statement] at h
  split at h
  · cases h
  · cases hwrite : write s with
    | some v =>
      rw [hwrite] at h
      cases h
      exact ⟨v, rfl, rfl⟩
    | none =>
      rw [hwrite] at h
      cases h

theorem statement_error {write : Store → Option Store} {e : Text} {s t : Store}
    (h : statement write s = .error e t) : Same.rel s t := by
  rw [statement] at h
  split at h
  · cases h
    rfl
  · cases hwrite : write s with
    | some v =>
      rw [hwrite] at h
      cases h
    | none =>
      rw [hwrite] at h
      cases h
      rfl

theorem query_keeps : Keeps Same (statement some) := by
  intro s
  cases h : statement some s with
  | ok _ t =>
    obtain ⟨v, hv, ht⟩ := statement_ok h
    cases hv
    exact ht
  | error e t => exact statement_error h

theorem query_ok {s t : Store} (h : statement some s = .ok () t) : Same.rel s t := by
  have hkeeps := query_keeps s
  rwa [h] at hkeeps

theorem restore_same (s t : Store) : Same.rel s (restore s t) := rfl

theorem checkReceived_keeps (consumer : Text) (sequence : Int) : Keeps Same (checkReceived consumer sequence) := by
  apply Keeps.bind query_keeps
  intro _
  apply Keeps.ite
  · intro _
    exact Keeps.throw _
  · intro _
    apply Keeps.bind query_keeps
    intro _
    apply Keeps.bind Keeps.get
    intro s
    apply Keeps.ite
    · intro _
      exact Keeps.throw _
    · intro _
      exact Keeps.pure _

theorem readAfter_keeps (sequence limit : Int) : Keeps Same (readAfter sequence limit) := by
  apply Keeps.bind query_keeps
  intro _
  apply Keeps.ite
  · intro _
    exact Keeps.throw _
  · intro _
    apply Keeps.bind query_keeps
    intro _
    exact Keeps.bind Keeps.get fun _ => Keeps.pure _

theorem acknowledged_keeps (consumer : Text) : Keeps Same (acknowledged consumer) := by
  apply Keeps.bind query_keeps
  intro _
  apply Keeps.bind query_keeps
  intro _
  exact Keeps.bind Keeps.get fun _ => Keeps.pure _

/-! ## The invariant -/

def queue (s : Store) : List Message := s.inbox.map InboxRow.message ++ s.outbox.map OutboxRow.message

structure Ordered (s : Store) : Prop where
  keys : (s.outbox.map OutboxRow.rowid).Pairwise (· < ·)
  sequences : (s.inbox.map InboxRow.sequence).Pairwise (· < ·)
  given : ∀ r ∈ s.inbox, 1 ≤ r.sequence ∧ r.sequence ≤ s.lastSequence
  counted : 0 ≤ s.lastSequence
  distinct : (s.queue.map Message.id).Nodup
  cursors : ∀ c v, s.consumers.find? c = some v → 0 ≤ v ∧ v ≤ s.maxSequence

theorem ordered_content {s : Store} : Ordered s.content ↔ Ordered s := by
  constructor
  · intro h
    exact ⟨h.keys, h.sequences, h.given, h.counted, h.distinct, h.cursors⟩
  · intro h
    exact ⟨h.keys, h.sequences, h.given, h.counted, h.distinct, h.cursors⟩

theorem Ordered.same {s t : Store} (h : Ordered s) (hst : Same.rel s t) : Ordered t := by
  have hcontent : t.content = s.content := hst
  rw [← ordered_content, hcontent, ordered_content]
  exact h

theorem Ordered.empty : Ordered {} where
  keys := List.Pairwise.nil
  sequences := List.Pairwise.nil
  given := by
    intro r hr
    cases hr
  counted := le_refl 0
  distinct := List.nodup_nil
  cursors := by
    intro c v hv
    cases hv

theorem queue_same {s t : Store} (hst : Same.rel s t) : t.queue = s.queue := by
  obtain ⟨houtbox, hinbox, -⟩ := same_fields hst
  rw [queue, queue, houtbox, hinbox]

theorem maxSequence_same {s t : Store} (hst : Same.rel s t) : t.maxSequence = s.maxSequence := by
  rw [maxSequence, maxSequence, (same_fields hst).2.1]

theorem le_largest {l : List Int} {a : Int} (ha : a ∈ l) : a ≤ l.max?.getD 0 := by
  cases hmax : l.max? with
  | none =>
    rw [List.max?_eq_none_iff.mp hmax] at ha
    cases ha
  | some m => exact (List.max?_eq_some_iff.mp hmax).2 a ha

theorem largest_le {l : List Int} {b : Int} (hb : 0 ≤ b) (h : ∀ a ∈ l, a ≤ b) : l.max?.getD 0 ≤ b := by
  cases hmax : l.max? with
  | none => exact hb
  | some m => exact h m (List.max?_eq_some_iff.mp hmax).1

theorem le_maxSequence {s : Store} {r : InboxRow} (hr : r ∈ s.inbox) : r.sequence ≤ s.maxSequence :=
  le_largest (List.mem_map_of_mem hr)

theorem Ordered.maxSequence_le {s : Store} (h : Ordered s) : s.maxSequence ≤ s.lastSequence := by
  apply largest_le h.counted
  intro a ha
  obtain ⟨r, hr, rfl⟩ := List.mem_map.mp ha
  exact (h.given r hr).2

theorem maxSequence_mono {s t : Store} (h : s.inbox <+: t.inbox) (ht : ∀ r ∈ t.inbox, 1 ≤ r.sequence) :
    s.maxSequence ≤ t.maxSequence := by
  cases hmax : (s.inbox.map InboxRow.sequence).max? with
  | none =>
    rw [maxSequence, hmax, Option.getD_none]
    cases hin : t.inbox with
    | nil =>
      rw [maxSequence, hin]
      exact le_refl 0
    | cons r rows =>
      have hr : r ∈ t.inbox := hin ▸ List.mem_cons_self
      have hone := ht r hr
      have hle := le_maxSequence hr
      omega
  | some m =>
    rw [maxSequence, hmax, Option.getD_some]
    obtain ⟨r, hr, hm⟩ := List.mem_map.mp (List.max?_eq_some_iff.mp hmax).1
    rw [← hm]
    exact le_maxSequence (h.subset hr)

theorem Ordered.maxSequence_nonneg {s : Store} (h : Ordered s) : 0 ≤ s.maxSequence :=
  @maxSequence_mono { s with inbox := [] } s List.nil_prefix fun r hr => (h.given r hr).1

/-! ## Queueing -/

theorem enqueue_error {sender : Peer} {topic : Text} {payload : Bytes} {id now e : Text} {s t : Store}
    (h : enqueue sender topic payload id now s = .error e t) : Same.rel s t := by
  rw [enqueue] at h
  cases hready : ready s with
  | error e' u =>
    rw [bind_of_error hready] at h
    cases h
    exact statement_error hready
  | ok _ u =>
    rw [bind_of_ok hready] at h
    have hu : Same.rel s u := query_ok hready
    split at h
    · cases h
      exact hu
    · cases hinsert : statement (insertOutbox { id, sender := sender.json, topic, payload, queuedAt := now }) u with
      | error e' v =>
        rw [bind_of_error hinsert] at h
        cases h
        exact Same.trans hu (statement_error hinsert)
      | ok _ v =>
        rw [bind_of_ok hinsert] at h
        cases h

theorem enqueue_ok {sender : Peer} {topic : Text} {payload : Bytes} {id now answer : Text} {s t : Store}
    (h : enqueue sender topic payload id now s = .ok answer t) :
    answer = id ∧ Same.rel { s with outbox := s.outbox ++
      [⟨nextRowid s.outbox, { id, sender := sender.json, topic, payload, queuedAt := now }⟩] } t := by
  rw [enqueue] at h
  cases hready : ready s with
  | error e' u =>
    rw [bind_of_error hready] at h
    cases h
  | ok _ u =>
    rw [bind_of_ok hready] at h
    have hu : Same.rel s u := query_ok hready
    split at h
    · cases h
    · cases hinsert : statement (insertOutbox { id, sender := sender.json, topic, payload, queuedAt := now }) u with
      | error e' v =>
        rw [bind_of_error hinsert] at h
        cases h
      | ok _ v =>
        rw [bind_of_ok hinsert] at h
        cases h
        obtain ⟨w, hw, ht⟩ := statement_ok hinsert
        rw [insertOutbox] at hw
        split at hw
        · cases hw
        · cases hw
          obtain ⟨houtbox, hinbox, hlast, hconsumers⟩ := same_fields hu
          refine ⟨rfl, ?_⟩
          change t.content = _
          rw [ht, houtbox]
          simp only [content, hinbox, hlast, hconsumers]

/-- A message under an id that is nowhere in the queue goes to its end. -/
theorem Ordered.queued {s : Store} (h : Ordered s) {message : Message} (hfresh : message.id ∉ s.queue.map Message.id) :
    Ordered { s with outbox := s.outbox ++ [⟨nextRowid s.outbox, message⟩] } where
  keys := by
    rw [List.map_append, List.map_singleton, List.pairwise_append]
    refine ⟨h.keys, List.pairwise_singleton _ _, ?_⟩
    intro a ha b hb
    rw [List.mem_singleton.mp hb]
    exact Int.lt_add_one_of_le (le_largest ha)
  sequences := h.sequences
  given := h.given
  counted := h.counted
  distinct := by
    have hqueue : queue { s with outbox := s.outbox ++ [⟨nextRowid s.outbox, message⟩] } = s.queue ++ [message] := by
      simp [queue]
    rw [hqueue, List.map_append, List.map_singleton, List.nodup_append]
    refine ⟨h.distinct, List.nodup_singleton _, ?_⟩
    intro a ha b hb hab
    rw [hab, List.mem_singleton.mp hb] at ha
    exact hfresh ha
  cursors := h.cursors

/-! ## Receiving -/

/-- The head of the outbox, received: first inserted, then removed. -/
theorem receive_head {now : Text} {row : OutboxRow} {rest : List OutboxRow} {s t u : Store} (h : Ordered s)
    (hs : s.outbox = row :: rest) (hinsert : statement (insertInbox now row.message) s = .ok () t)
    (hremove : statement (removeOutbox row.message.id) t = .ok () u) :
    Ordered u ∧ u.outbox = rest ∧ u.consumers = s.consumers ∧
      ∃ r : InboxRow, r.message = row.message ∧ u.inbox = s.inbox ++ [r] := by
  have hids : row.message.id ∉ s.inbox.map (fun r => r.message.id) ∧ row.message.id ∉ rest.map (fun r => r.message.id) := by
    have hdistinct := h.distinct
    rw [queue, hs, List.map_append, List.nodup_append] at hdistinct
    obtain ⟨-, hrest, hdisjoint⟩ := hdistinct
    constructor
    · intro hmem
      exact hdisjoint _ (by simpa using hmem) _ (by simp) rfl
    · rw [List.map_cons, List.map_cons, List.nodup_cons] at hrest
      simpa using hrest.1
  obtain ⟨v, hv, ht⟩ := statement_ok hinsert
  rw [insertInbox, if_neg (by simpa using hids.1)] at hv
  cases hv
  obtain ⟨w, hw, hu⟩ := statement_ok hremove
  cases hw
  obtain ⟨houtbox, hinbox, hlast, hconsumers⟩ := same_fields (show Same.rel _ t from ht)
  obtain ⟨houtbox', hinbox', hlast', hconsumers'⟩ := same_fields (show Same.rel _ u from hu)
  dsimp only at houtbox hinbox hlast hconsumers houtbox' hinbox' hlast' hconsumers'
  rw [houtbox, hs] at houtbox'
  rw [hinbox] at hinbox'
  rw [hlast, max_eq_left h.maxSequence_le] at hlast'
  rw [max_eq_left h.maxSequence_le] at hinbox'
  rw [hconsumers] at hconsumers'
  have hfilter : u.outbox = rest := by
    rw [houtbox', List.filter_cons_of_neg (by simp), List.filter_eq_self]
    intro r hr
    rw [decide_eq_true_eq]
    intro hid
    exact hids.2 (hid ▸ List.mem_map_of_mem hr)
  have hgiven : ∀ r ∈ u.inbox, 1 ≤ r.sequence ∧ r.sequence ≤ u.lastSequence := by
    intro r hr
    rw [hinbox', List.mem_append, List.mem_singleton] at hr
    have hcounted := h.counted
    rw [hlast']
    rcases hr with hr | rfl
    · have hgiven := h.given r hr
      omega
    · dsimp only
      omega
  have hordered : Ordered u := by
    have hqueue : u.queue = s.queue := by
      rw [queue, queue, hfilter, hinbox', hs]
      simp
    constructor
    · have hkeys := h.keys
      rw [hs, List.map_cons, List.pairwise_cons] at hkeys
      rw [hfilter]
      exact hkeys.2
    · rw [hinbox', List.map_append, List.map_singleton, List.pairwise_append]
      refine ⟨h.sequences, List.pairwise_singleton _ _, ?_⟩
      intro a ha b hb
      obtain ⟨r, hr, rfl⟩ := List.mem_map.mp ha
      rw [List.mem_singleton.mp hb]
      exact Int.lt_add_one_of_le (h.given r hr).2
    · exact hgiven
    · have hcounted := h.counted
      omega
    · rw [hqueue]
      exact h.distinct
    · intro c v hv
      rw [hconsumers'] at hv
      have hcursor := h.cursors c v hv
      have hmono : s.maxSequence ≤ u.maxSequence := by
        apply maxSequence_mono
        · rw [hinbox']
          exact List.prefix_append _ _
        · intro r hr
          exact (hgiven r hr).1
      omega
  exact ⟨hordered, hfilter, hconsumers', _, rfl, hinbox'⟩

/-- What receiving the first rows of the outbox leaves behind. -/
structure Received (rows : List OutboxRow) (s t : Store) : Prop where
  ordered : Ordered t
  consumers : t.consumers = s.consumers
  inbox : ∃ added : List InboxRow, added.map InboxRow.message = rows.map OutboxRow.message ∧ t.inbox = s.inbox ++ added

theorem receiveAll_ok {now : Text} {rows rest : List OutboxRow} {s t : Store} (h : Ordered s)
    (hs : s.outbox = rows ++ rest) (hok : receiveAll now rows s = .ok () t) :
    t.outbox = rest ∧ Received rows s t := by
  induction rows generalizing s with
  | nil =>
    cases hok
    exact ⟨hs, h, rfl, [], rfl, (List.append_nil _).symm⟩
  | cons row rows ih =>
    rw [receiveAll] at hok
    obtain ⟨_, u, hinsert, hok⟩ := bind_eq_ok.mp hok
    obtain ⟨_, v, hremove, hok⟩ := bind_eq_ok.mp hok
    obtain ⟨hv, houtbox, hconsumers, r, hr, hinbox⟩ := receive_head h hs hinsert hremove
    obtain ⟨hrest, ht, hconsumers', added, hadded, hinbox'⟩ := ih hv houtbox hok
    refine ⟨hrest, ht, hconsumers'.trans hconsumers, r :: added, ?_, ?_⟩
    · rw [List.map_cons, List.map_cons, hr, hadded]
    · rw [hinbox', hinbox, List.append_assoc, List.singleton_append]

theorem Ordered.pending_eq {s : Store} (h : Ordered s) : pending s = s.outbox := by
  apply List.Pairwise.insertionSort_eq
  exact (List.pairwise_map.mp h.keys).imp fun hlt => by simpa using hlt.le

theorem receivePending_error {limit : Int} {now e : Text} {s t : Store} (h : receivePending limit now s = .error e t) :
    Same.rel s t := by
  rw [receivePending] at h
  cases hready : ready s with
  | error e' u =>
    rw [bind_of_error hready] at h
    cases h
    exact statement_error hready
  | ok _ u =>
    rw [bind_of_ok hready] at h
    have hu : Same.rel s u := query_ok hready
    split at h
    · cases h
      exact hu
    · cases hbegin : statement some u with
      | error e' v =>
        rw [bind_of_error hbegin] at h
        cases h
        exact Same.trans hu (statement_error hbegin)
      | ok _ v =>
        rw [bind_of_ok hbegin] at h
        have hv : Same.rel s v := Same.trans hu (query_ok hbegin)
        rw [rollback] at h
        split at h
        · cases h
        · cases h
          exact Same.trans hv (restore_same _ _)

theorem receivePending_ok {limit : Int} {now : Text} {count : Nat} {s t : Store} (h : Ordered s)
    (hok : receivePending limit now s = .ok count t) :
    Ordered t ∧ t.consumers = s.consumers ∧ t.queue = s.queue ∧ s.inbox <+: t.inbox := by
  rw [receivePending] at hok
  obtain ⟨_, u, hready, hok⟩ := bind_eq_ok.mp hok
  have hu : Same.rel s u := query_ok hready
  split at hok
  · cases hok
  · obtain ⟨_, v, hbegin, hok⟩ := bind_eq_ok.mp hok
    rw [rollback_eq_ok] at hok
    obtain ⟨_, w, hselect, hok⟩ := bind_eq_ok.mp hok
    have hw : Same.rel s w := Same.trans (Same.trans hu (query_ok hbegin)) (query_ok hselect)
    have hordered := h.same hw
    rw [bind_of_ok (get_apply w), hordered.pending_eq] at hok
    obtain ⟨_, x, hreceive, hok⟩ := bind_eq_ok.mp hok
    obtain ⟨_, y, hcommit, hok⟩ := bind_eq_ok.mp hok
    cases hok
    have ht : Same.rel x t := query_ok hcommit
    obtain ⟨hrest, hx, hconsumers, added, hadded, hinbox⟩ :=
      receiveAll_ok hordered (List.take_append_drop limit.toNat w.outbox).symm hreceive
    obtain ⟨-, hinboxw, -, hconsumersw⟩ := same_fields hw
    obtain ⟨-, hinboxt, -, hconsumerst⟩ := same_fields ht
    refine ⟨hx.same ht, ?_, ?_, ?_⟩
    · rw [hconsumerst, hconsumers, hconsumersw]
    · rw [queue_same ht, ← queue_same hw, queue, queue, hrest, hinbox, List.map_append, hadded, List.append_assoc,
        ← List.map_append, List.take_append_drop]
    · rw [hinboxt, hinbox, hinboxw]
      exact List.prefix_append _ _

/-! ## Acknowledging -/

theorem checkReceived_ok {consumer : Text} {sequence : Int} {s t : Store}
    (h : checkReceived consumer sequence s = .ok () t) :
    Same.rel s t ∧ 0 ≤ sequence ∧ sequence ≤ s.maxSequence := by
  have hkeeps := checkReceived_keeps consumer sequence s
  rw [h] at hkeeps
  rw [checkReceived] at h
  obtain ⟨_, u, hready, h⟩ := bind_eq_ok.mp h
  split at h
  · cases h
  · rename_i hvalid
    obtain ⟨_, v, hselect, h⟩ := bind_eq_ok.mp h
    rw [bind_of_ok (get_apply v)] at h
    split at h
    · cases h
    · rename_i hmax
      rw [maxSequence_same (Same.trans (query_ok hready) (query_ok hselect))] at hmax
      refine ⟨hkeeps, ?_, ?_⟩
      · omega
      · omega

theorem storeCursor_ok {consumer : Text} {sequence : Int} {s t : Store} (h : storeCursor consumer sequence s = .ok () t) :
    Same.rel { s with
      consumers := s.consumers.insert consumer (max ((s.consumers.find? consumer).getD sequence) sequence) } t := by
  obtain ⟨v, hv, ht⟩ := statement_ok h
  cases hv
  exact ht

theorem Ordered.acknowledged {s : Store} (h : Ordered s) {consumer : Text} {sequence : Int} (hzero : 0 ≤ sequence)
    (hmax : sequence ≤ s.maxSequence) :
    Ordered { s with
      consumers := s.consumers.insert consumer (max ((s.consumers.find? consumer).getD sequence) sequence) } where
  keys := h.keys
  sequences := h.sequences
  given := h.given
  counted := h.counted
  distinct := h.distinct
  cursors := by
    intro c v hv
    rw [Table.find?_insert] at hv
    split at hv
    · cases hv
      cases hc : s.consumers.find? consumer with
      | none =>
        rw [Option.getD_none, max_self]
        exact ⟨hzero, hmax⟩
      | some old =>
        obtain ⟨hold, hle⟩ := h.cursors consumer old hc
        rw [Option.getD_some]
        exact ⟨hold.trans (le_max_left _ _), max_le hle hmax⟩
    · exact h.cursors c v hv

/-! ## Reading -/

theorem readAfter_ok {sequence limit : Int} {page : List InboxRow} {s t : Store} (h : Ordered s)
    (hok : readAfter sequence limit s = .ok page t) :
    Same.rel s t ∧ 1 ≤ limit ∧ page = (s.inbox.filter fun r => sequence < r.sequence).take limit.toNat := by
  have hkeeps := readAfter_keeps sequence limit s
  rw [hok] at hkeeps
  rw [readAfter] at hok
  obtain ⟨_, u, hready, hok⟩ := bind_eq_ok.mp hok
  split at hok
  · cases hok
  · rename_i hvalid
    obtain ⟨_, v, hselect, hok⟩ := bind_eq_ok.mp hok
    cases hok
    refine ⟨hkeeps, by omega, ?_⟩
    rw [(same_fields (Same.trans (query_ok hready) (query_ok hselect))).2.1]
    congr 1
    apply List.Pairwise.insertionSort_eq
    apply List.Pairwise.filter
    exact (List.pairwise_map.mp h.sequences).imp fun hlt => by simpa using hlt.le

theorem acknowledged_ok {consumer : Text} {answer : Int} {s t : Store} (h : acknowledged consumer s = .ok answer t) :
    Same.rel s t ∧ answer = (s.consumers.find? consumer).getD 0 := by
  have hkeeps := acknowledged_keeps consumer s
  rw [h] at hkeeps
  rw [acknowledged] at h
  obtain ⟨_, u, hready, h⟩ := bind_eq_ok.mp h
  obtain ⟨_, v, hselect, h⟩ := bind_eq_ok.mp h
  cases h
  rw [(same_fields (Same.trans (query_ok hready) (query_ok hselect))).2.2.2]
  exact ⟨hkeeps, rfl⟩

end Store

end SocietyHelper.Delivery
