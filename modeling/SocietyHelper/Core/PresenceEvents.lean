import SocietyHelper.Core.Presence

/-! # Presence events are consistent

Per instance, one scan announces exactly the change between the visibility
before it and after it. What makes a peer visible is kept in the history: two
cycles with a smaller and a greater heartbeat number.
-/

namespace SocietyHelper.Core

open Library

theorem readRecord_instanceId {fromString : Text → Option Nat} {inst : Text} {file : File} {r : Record}
    (h : readRecord fromString inst file = some r) : r.peer.instanceId = inst := by
  rw [readRecord] at h
  split at h
  · cases h
  · obtain ⟨object, -, h⟩ := Option.bind_eq_some_iff.mp h
    split at h
    · cases h
    · obtain ⟨activity, -, h⟩ := Option.bind_eq_some_iff.mp h
      obtain ⟨startedAt, -, h⟩ := Option.bind_eq_some_iff.mp h
      obtain ⟨sequence, -, h⟩ := Option.bind_eq_some_iff.mp h
      split at h
      · cases h
      · cases h
        rfl

theorem Cycle.records_nodup (fromString : Text → Option Nat) (c : Cycle) (here : Text) :
    ((c.records fromString here).map fun r => r.peer.instanceId).Nodup := by
  have hread : ∀ file : Text × File, ∀ r, (readRecord fromString file.1 file.2).filter (fun r => r.peer.instanceId ≠ here) =
      some r → r.peer.instanceId = file.1 := by
    intro file r hr
    exact readRecord_instanceId (Option.filter_eq_some_iff.mp hr).1
  have hsub : ∀ rows : List (Text × File), ((rows.filterMap fun file =>
      (readRecord fromString file.1 file.2).filter fun r => r.peer.instanceId ≠ here).map fun r =>
        r.peer.instanceId).Sublist (rows.map Prod.fst) := by
    intro rows
    induction rows with
    | nil => exact List.Sublist.slnil
    | cons file rows ih =>
      rw [List.filterMap_cons]
      cases hfile : (readRecord fromString file.1 file.2).filter fun r => r.peer.instanceId ≠ here with
      | none => exact ih.cons file.1
      | some r =>
        simp only [List.map_cons, hread file r hfile]
        exact ih.cons_cons file.1
  exact (hsub c.files.rows).nodup c.files.unique

/-! ## One record -/

/-- What an instance's observation becomes with one of its records. -/
def Observation.heard (now today : Nat) (record : Record) : Option Observation → Observation
  | none => ⟨record, now, false⟩
  | some it => if it.record.sequence < record.sequence then
      ⟨{ record with peer := { record.peer with lastSeenAt := some today } }, now, true⟩ else it

def Observation.grows (record : Record) (o : Option Observation) : Bool :=
  o.any fun it => it.record.sequence < record.sequence

def shown (o : Option Observation) : Bool := o.any Observation.visible

/-- The changes of visibility of an instance that an event announces. -/
def Event.change (id : Text) : Event → Option Bool
  | appeared peer => if peer.instanceId = id then some true else none
  | updated _ => none
  | disappeared peer _ => if peer.instanceId = id then some false else none

def changes (id : Text) (events : List Event) : List Bool := events.filterMap (Event.change id)

@[simp] theorem changes_append (id : Text) (a b : List Event) : changes id (a ++ b) = changes id a ++ changes id b :=
  List.filterMap_append

@[simp] theorem changes_updated (id : Text) (peers : List Peer) : changes id (peers.map .updated) = [] := by
  rw [changes, List.filterMap_map]
  exact List.filterMap_eq_nil_iff.mpr fun _ _ => rfl

namespace Pass

variable (now today : Nat) (pass : Pass) (record : Record)

theorem observations_observe (id : Text) : (pass.observe now today record).observations.find? id =
    if id = record.peer.instanceId then some (.heard now today record (pass.observations.find? id))
    else pass.observations.find? id := by
  rw [observe]
  cases hit : pass.observations.find? record.peer.instanceId with
  | none =>
    dsimp only
    rw [Table.find?_insert]
    split
    · rename_i hid
      rw [hid, hit]
      rfl
    · rfl
  | some it =>
    dsimp only
    split
    · rename_i hgrows
      dsimp only
      rw [Table.find?_insert]
      split
      · rename_i hid
        rw [hid, hit, Observation.heard, if_pos hgrows]
      · rfl
    · rename_i hgrows
      split
      · rename_i hid
        rw [hid, hit, Observation.heard, if_neg hgrows]
      · rfl

theorem appeared_observe (id : Text) : changes id ((pass.observe now today record).appeared.map .appeared) =
    changes id (pass.appeared.map .appeared) ++
      if id = record.peer.instanceId ∧ Observation.grows record (pass.observations.find? id) ∧
        ¬shown (pass.observations.find? id) then [true] else [] := by
  rw [observe]
  cases hit : pass.observations.find? record.peer.instanceId with
  | none =>
    rw [if_neg, List.append_nil]
    rintro ⟨rfl, hgrows, -⟩
    simp [hit, Observation.grows] at hgrows
  | some it =>
    dsimp only
    split
    · rename_i hgrows
      cases hvisible : it.visible with
      | true =>
        have hnot : ¬(id = record.peer.instanceId ∧ Observation.grows record (pass.observations.find? id) ∧
            ¬shown (pass.observations.find? id)) := by
          rintro ⟨rfl, -, hshown⟩
          simp [hit, shown, hvisible] at hshown
        simp only [if_true, if_neg hnot, List.append_nil]
      | false =>
        simp only [Bool.false_eq_true, if_false, List.map_append, changes_append]
        congr 1
        by_cases hid : record.peer.instanceId = id
        · subst hid
          simp [changes, Event.change, hit, Observation.grows, shown, hvisible, hgrows]
        · simp [changes, Event.change, hid, Ne.symm hid]
    · rename_i hgrows
      rw [if_neg, List.append_nil]
      rintro ⟨rfl, hgrows', -⟩
      simp [hit, Observation.grows, hgrows] at hgrows'

end Pass

/-! ## One scan -/

theorem Pass.observations_foldl (now today : Nat) (pass : Pass) {records : List Record}
    (h : (records.map fun r => r.peer.instanceId).Nodup) (id : Text) :
    (records.foldl (Pass.observe now today) pass).observations.find? id =
      (records.find? fun r => r.peer.instanceId = id).elim (pass.observations.find? id) fun r =>
        some (.heard now today r (pass.observations.find? id)) := by
  induction records generalizing pass with
  | nil => rfl
  | cons r records ih =>
    obtain ⟨hr, hrecords⟩ := List.nodup_cons.mp h
    rw [List.foldl_cons, ih _ hrecords, List.find?_cons, observations_observe]
    by_cases hid : r.peer.instanceId = id
    · have hnone : (records.find? fun r => r.peer.instanceId = id) = none := by
        refine List.find?_eq_none.mpr fun q hq => ?_
        rw [decide_eq_true_eq]
        rintro rfl
        exact hr (List.mem_map.mpr ⟨q, hq, hid.symm⟩)
      simp [hid, hnone]
    · simp [hid, Ne.symm hid]

theorem Pass.appeared_foldl (now today : Nat) (pass : Pass) {records : List Record}
    (h : (records.map fun r => r.peer.instanceId).Nodup) (id : Text) :
    changes id ((records.foldl (Pass.observe now today) pass).appeared.map .appeared) =
      changes id (pass.appeared.map .appeared) ++
        if (records.find? fun r => r.peer.instanceId = id).any (fun r => Observation.grows r (pass.observations.find? id)) ∧
          ¬shown (pass.observations.find? id) then [true] else [] := by
  induction records generalizing pass with
  | nil => simp
  | cons r records ih =>
    obtain ⟨hr, hrecords⟩ := List.nodup_cons.mp h
    rw [List.foldl_cons, ih _ hrecords, appeared_observe, observations_observe, List.find?_cons]
    by_cases hid : r.peer.instanceId = id
    · have hnone : (records.find? fun r => r.peer.instanceId = id) = none := by
        refine List.find?_eq_none.mpr fun q hq => ?_
        rw [decide_eq_true_eq]
        rintro rfl
        exact hr (List.mem_map.mpr ⟨q, hq, hid.symm⟩)
      simp [hid, hnone]
    · simp [hid, Ne.symm hid]

/-- Every observation is kept under the instance of its record. -/
def Keyed (observations : Table Text Observation) : Prop :=
  ∀ id o, observations.find? id = some o → o.record.peer.instanceId = id

theorem Keyed.foldl {now today : Nat} {pass : Pass} (h : Keyed pass.observations) {records : List Record}
    (hrecords : (records.map fun r => r.peer.instanceId).Nodup) :
    Keyed (records.foldl (Pass.observe now today) pass).observations := by
  intro id o ho
  rw [Pass.observations_foldl now today pass hrecords] at ho
  cases hr : records.find? fun r => r.peer.instanceId = id with
  | none =>
    rw [hr] at ho
    exact h id o ho
  | some r =>
    rw [hr] at ho
    have hid : r.peer.instanceId = id := by simpa using List.find?_some hr
    cases hit : pass.observations.find? id with
    | none =>
      rw [hit] at ho
      cases ho
      exact hid
    | some it =>
      rw [hit] at ho
      simp only [Option.elim_some, Observation.heard, Option.some.injEq] at ho
      split at ho
      · cases ho
        exact hid
      · cases ho
        exact h id _ hit

/-- The changes that the peers of one instance in a table announce when they go. -/
theorem changes_departed {observations : Table Text Observation} (h : Keyed observations) (id : Text)
    (reason : Text → Observation → Option DepartureReason) :
    changes id (observations.rows.filterMap fun row =>
      (reason row.1 row.2).map (.disappeared row.2.record.peer)) =
      if (observations.find? id).any (fun o => (reason id o).isSome) then [false] else [] := by
  have hrow : ∀ row ∈ observations.rows,
      ((reason row.1 row.2).map (Event.disappeared row.2.record.peer)).bind (Event.change id) =
        if row.1 = id then (reason id row.2).map (fun _ => false) else none := by
    intro row hmem
    have hkey := h row.1 row.2 ((observations.mem_rows_iff row.1 row.2).mp hmem)
    split
    · rename_i hid
      subst hid
      cases reason row.1 row.2 with
      | none => rfl
      | some why => simp [Event.change, hkey]
    · rename_i hid
      cases reason row.1 row.2 with
      | none => rfl
      | some why => simp [Event.change, hkey, hid]
  rw [changes, List.filterMap_filterMap, List.filterMap_congr hrow,
    Table.filterMap_rows observations id fun o => (reason id o).map fun _ => false]
  cases observations.find? id with
  | none => rfl
  | some o => cases hreason : reason id o <;> simp [hreason]

/-- What one scan makes of the observation that an instance has after a pause. -/
def Observation.next (timeout now today : Nat) (present : Bool) (record : Option Record) (o : Option Observation) :
    Option Observation :=
  if present then (record.elim o fun r => some (.heard now today r o)).map (.settle timeout now) else none

/-- The announcement of a visibility that changes. -/
def toggle : Bool → Bool → List Bool
  | false, true => [true]
  | true, false => [false]
  | _, _ => []

theorem departure_isSome (timeout now : Nat) (present : List Text) (id : Text) (o : Observation) :
    (o.departure timeout now present id).isSome =
      (o.visible && !(decide (id ∈ present) && (o.settle timeout now).visible)) := by
  rw [Observation.departure, Observation.settle, Observation.expired]
  cases hvisible : o.visible with
  | false => rfl
  | true =>
    by_cases hpresent : id ∈ present
    · by_cases hlong : timeout ≤ now - o.lastAdvance <;> simp [hpresent, hlong, hvisible]
    · simp [hpresent]

theorem settle_visible_le (timeout now : Nat) {o : Observation} (h : (o.settle timeout now).visible) : o.visible := by
  rw [Observation.settle] at h
  split at h
  · cases h
  · exact h

theorem settle_fresh {timeout now : Nat} (htimeout : 0 < timeout) {o : Observation} (h : o.lastAdvance = now) :
    o.settle timeout now = o := by
  have hexpired : o.expired timeout now = false := by
    simp only [Observation.expired, h, Nat.sub_self, Bool.and_eq_false_imp, decide_eq_false_iff_not]
    omega
  rw [Observation.settle, hexpired]
  rfl

/-- Going through the records announces the change of an instance, in two parts one of which is empty. -/
theorem toggle_next {timeout : Nat} (htimeout : 0 < timeout) (now today : Nat) (present : List Text) (id : Text)
    (record : Option Record) (hpresent : record.isSome → id ∈ present) (o : Option Observation) :
    (if record.any (fun r => Observation.grows r o) ∧ ¬shown o then [true] else []) ++
      (if (record.elim o fun r => some (.heard now today r o)).any
        (fun o => (o.departure timeout now present id).isSome) then [false] else []) =
      toggle (shown o) (shown (Observation.next timeout now today (id ∈ present) record o)) := by
  cases record with
  | none =>
    cases o with
    | none => simp [shown, Observation.next, toggle]
    | some o =>
      simp only [Option.any_none, Bool.false_eq_true, false_and, if_false, List.nil_append, Option.elim_none,
        Option.any_some, departure_isSome, shown, Observation.next, Option.map_some]
      by_cases hid : id ∈ present
      · simp only [hid, decide_true, Bool.true_and, if_true, Option.any_some]
        cases hsettle : (o.settle timeout now).visible with
        | true => simp [settle_visible_le timeout now hsettle, toggle]
        | false => cases hvisible : o.visible <;> simp [toggle]
      · cases hvisible : o.visible <;> simp [hid, toggle]
  | some r =>
    have hid := hpresent rfl
    simp only [Option.any_some, Option.elim_some, departure_isSome, Observation.next, hid, decide_true, if_true,
      Option.map_some, shown, Bool.true_and]
    cases o with
    | none =>
      rw [Observation.heard, settle_fresh htimeout (o := ⟨r, now, false⟩) rfl]
      rfl
    | some o =>
      rw [Observation.heard]
      by_cases hgrows : o.record.sequence < r.sequence
      · rw [if_pos hgrows, settle_fresh htimeout (o := ⟨_, now, true⟩) rfl]
        cases hvisible : o.visible <;> simp [Observation.grows, hgrows, hvisible, toggle]
      · rw [if_neg hgrows]
        cases hsettle : (o.settle timeout now).visible with
        | true => simp [Observation.grows, hgrows, settle_visible_le timeout now hsettle, toggle]
        | false => cases hvisible : o.visible <;> simp [Observation.grows, hgrows, hvisible, toggle]

theorem shown_next_none (timeout now today : Nat) (present : Bool) (record : Option Record) :
    shown (Observation.next timeout now today present record none) = false := by
  rw [Observation.next]
  cases present with
  | false => rfl
  | true =>
    cases record with
    | none => rfl
    | some r => rfl

section

variable (options : ObservationOptions) (s : Helper) {records : List Record} (presentRecords : List Text)
  (elapsed today : Nat)

/-- What is left of an observation if the helper itself has paused for too long. -/
def unpaused (o : Option Observation) : Option Observation := if options.peerTimeoutMs ≤ elapsed then none else o

theorem find?_remembered (id : Text) : (s.remembered options elapsed).find? id =
    unpaused options elapsed (s.observations.find? id) := by
  rw [Helper.remembered, unpaused]
  split <;> rfl

theorem scan_observations (h : (records.map fun r => r.peer.instanceId).Nodup) (id : Text) :
    (s.scan options records presentRecords elapsed today).observations.find? id =
      Observation.next options.peerTimeoutMs (s.lastScan + elapsed) today
        (id ∈ presentRecords ++ records.map fun r => r.peer.instanceId) (records.find? fun r => r.peer.instanceId = id)
        (unpaused options elapsed (s.observations.find? id)) := by
  rw [Helper.scan, Observation.next, Table.find?_mapValues, Table.find?_filter, Pass.observations_foldl _ _ _ h,
    find?_remembered]
  by_cases hid : id ∈ presentRecords ++ records.map fun r => r.peer.instanceId
  · simp only [hid, decide_true, if_true]
    cases (records.find? fun r => r.peer.instanceId = id).elim (unpaused options elapsed (s.observations.find? id)) fun r =>
      some (Observation.heard (s.lastScan + elapsed) today r (unpaused options elapsed (s.observations.find? id))) <;> rfl
  · simp only [hid, decide_false, Bool.false_eq_true, if_false]
    cases (records.find? fun r => r.peer.instanceId = id).elim (unpaused options elapsed (s.observations.find? id)) fun r =>
      some (Observation.heard (s.lastScan + elapsed) today r (unpaused options elapsed (s.observations.find? id))) <;> rfl

/-- A scan announces the change of each instance and nothing else. -/
theorem scan_changes (h : (records.map fun r => r.peer.instanceId).Nodup) (hkeyed : Keyed s.observations) (id : Text) :
    changes id (s.scan options records presentRecords elapsed today).events =
      changes id s.events ++ toggle (shown (s.observations.find? id))
        (shown ((s.scan options records presentRecords elapsed today).observations.find? id)) := by
  have hpeers : changes id (s.peers.map fun peer => Event.disappeared peer .timedOut) =
      if shown (s.observations.find? id) then [false] else [] := by
    have hmap : (s.peers.map fun peer => Event.disappeared peer .timedOut) = s.observations.rows.filterMap fun row =>
        (if row.2.visible then some DepartureReason.timedOut else none).map (.disappeared row.2.record.peer) := by
      rw [Helper.peers, List.map_filterMap]
      apply List.filterMap_congr
      intro row _
      cases hvisible : row.2.visible <;> simp
    rw [hmap, changes_departed hkeyed id fun _ o => if o.visible then some .timedOut else none]
    have hsome : ∀ o : Observation, (if o.visible then some DepartureReason.timedOut else none).isSome = o.visible := by
      intro o
      cases o.visible <;> rfl
    simp only [hsome]
    rfl
  have hpresent : (records.find? fun r => r.peer.instanceId = id).isSome →
      id ∈ presentRecords ++ records.map fun r => r.peer.instanceId := by
    intro hsome
    obtain ⟨r, hr⟩ := Option.isSome_iff_exists.mp hsome
    have hid : r.peer.instanceId = id := by simpa using List.find?_some hr
    exact List.mem_append_right _ (List.mem_map.mpr ⟨r, List.mem_of_find?_eq_some hr, hid⟩)
  rw [scan_observations options s presentRecords elapsed today h]
  simp only [Helper.scan, changes_append, changes_updated, Pass.appeared_foldl _ _ _ h]
  have hkeyed' : Keyed (s.remembered options elapsed) := by
    rw [Helper.remembered]
    split
    · intro id o ho
      cases ho
    · exact hkeyed
  have hpass : Keyed (records.foldl (Pass.observe (s.lastScan + elapsed) today)
      { observations := s.remembered options elapsed }).observations := Keyed.foldl hkeyed' h
  rw [changes_departed hpass id fun id o => o.departure options.peerTimeoutMs (s.lastScan + elapsed)
    (presentRecords ++ records.map fun r => r.peer.instanceId) id, Pass.observations_foldl _ _ _ h, find?_remembered]
  have htoggle := toggle_next options.peerTimeoutMs_pos (s.lastScan + elapsed) today _ id _ hpresent
    (unpaused options elapsed (s.observations.find? id))
  rw [List.append_assoc, List.append_assoc]
  congr 1
  by_cases hlong : options.peerTimeoutMs ≤ elapsed
  · -- The pause leaves nothing to compare with, so no peer can appear in this scan.
    simp only [unpaused, if_pos hlong] at htoggle ⊢
    rw [shown_next_none] at htoggle ⊢
    obtain ⟨happeared, hdeparted⟩ := List.append_eq_nil_iff.mp htoggle
    rw [happeared, hdeparted, hpeers]
    cases shown (s.observations.find? id) <;> rfl
  · simp only [unpaused, if_neg hlong] at htoggle ⊢
    exact htoggle

theorem Keyed.scan (h : (records.map fun r => r.peer.instanceId).Nodup) (hkeyed : Keyed s.observations) :
    Keyed (s.scan options records presentRecords elapsed today).observations := by
  intro id o ho
  have hstart : Keyed (s.remembered options elapsed) := by
    rw [Helper.remembered]
    split
    · intro id o ho
      cases ho
    · exact hkeyed
  have hpass : Keyed (records.foldl (Pass.observe (s.lastScan + elapsed) today)
      { observations := s.remembered options elapsed }).observations := Keyed.foldl hstart h
  simp only [Helper.scan, Table.find?_mapValues, Table.find?_filter, Option.map_eq_some_iff,
    Option.filter_eq_some_iff] at ho
  obtain ⟨it, ⟨hit, -⟩, rfl⟩ := ho
  have hid := hpass id it hit
  rw [Observation.settle]
  split
  · exact hid
  · exact hid

end

/-! ## Runs -/

/-- Appearing and disappearing alternate, and appearing comes first. -/
def Alternates (l : List Bool) : Prop := l.IsChain (· ≠ ·) ∧ ∀ b ∈ l.head?, b = true

theorem Alternates.toggle {l : List Bool} (h : Alternates l) {before : Bool} (hbefore : before ↔ l.getLast? = some true)
    (after : Bool) : Alternates (l ++ toggle before after) ∧ (after ↔ (l ++ Core.toggle before after).getLast? = some true) := by
  have hone : ∀ b : Bool, l.getLast? ≠ some b → (l = [] → b = true) → Alternates (l ++ [b]) := by
    intro b hlast hfirst
    constructor
    · apply List.isChain_append.mpr
      refine ⟨h.1, List.isChain_singleton b, ?_⟩
      intro x hx y hy
      cases hy
      rintro rfl
      exact hlast hx
    · intro x hx
      cases l with
      | nil =>
        cases hx
        exact hfirst rfl
      | cons a l => exact h.2 x hx
  cases before with
  | false =>
    have hlast : l.getLast? ≠ some true := by simpa using hbefore
    cases after with
    | false => simpa [Core.toggle] using ⟨h, hlast⟩
    | true => exact ⟨hone true hlast fun _ => rfl, by simp [Core.toggle]⟩
  | true =>
    have hlast : l.getLast? = some true := hbefore.mp rfl
    cases after with
    | false =>
      refine ⟨hone false (by simp [hlast]) ?_, by simp [Core.toggle]⟩
      rintro rfl
      cases hlast
    | true => simpa [Core.toggle] using ⟨h, hlast⟩

/-- A cycle reads a record of an instance with a heartbeat number. -/
def Cycle.Reads (fromString : Text → Option Nat) (here : Text) (c : Cycle) (id : Text) (n : Nat) : Prop :=
  ∃ r ∈ c.records fromString here, r.peer.instanceId = id ∧ r.sequence = n

section

variable (fromString : Text → Option Nat) (options : ObservationOptions) (s : Helper)

/-- Where the number of an observation was read; the instance has been known since then, with no greater number. -/
def Heard (history : List Cycle) (id : Text) (n : Nat) : Prop :=
  ∃ after d before, history = after ++ d :: before ∧ d.Reads fromString s.here id n ∧
    (∀ c ∈ after, ∀ m, c.Reads fromString s.here id m → m ≤ n) ∧
    ∀ recent older, after = recent ++ older →
      ((s.run fromString options (older ++ d :: before)).observations.find? id).isSome

/-- The latest growth of a heartbeat number that was observed, at a point in time. -/
def Grown (history : List Cycle) (id : Text) (time : Nat) : Prop :=
  ∃ recent c between d before m n, history = recent ++ c :: (between ++ d :: before) ∧
    d.Reads fromString s.here id m ∧ c.Reads fromString s.here id n ∧ m < n ∧
    time = (s.run fromString options (c :: (between ++ d :: before))).lastScan

structure Tracked (history : List Cycle) (id : Text) (o : Observation) : Prop where
  heard : Heard fromString options s history id o.record.sequence
  grown : o.visible → Grown fromString options s history id o.lastAdvance
  fresh : o.visible → (s.run fromString options history).lastScan - o.lastAdvance < options.peerTimeoutMs

@[simp] theorem run_here (history : List Cycle) : (s.run fromString options history).here = s.here := by
  induction history with
  | nil => rfl
  | cons c earlier ih => exact ih

theorem run_lastScan (history : List Cycle) :
    (s.run fromString options history).lastScan = s.lastScan + (history.map Cycle.elapsed).sum := by
  induction history with
  | nil => rfl
  | cons c earlier ih =>
    have hstep : (s.run fromString options (c :: earlier)).lastScan = (s.run fromString options earlier).lastScan + c.elapsed := rfl
    rw [hstep, ih, List.map_cons, List.sum_cons]
    omega

variable {fromString options s} {history : List Cycle} {id : Text}

/-- A cycle that reads no greater number keeps what was heard. -/
theorem Heard.cons {n : Nat} (h : Heard fromString options s history id n) {c : Cycle}
    (hc : ∀ m, c.Reads fromString s.here id m → m ≤ n)
    (hknown : ((s.run fromString options (c :: history)).observations.find? id).isSome) :
    Heard fromString options s (c :: history) id n := by
  obtain ⟨after, d, before, rfl, hread, hmax, hall⟩ := h
  refine ⟨c :: after, d, before, rfl, hread, ?_, ?_⟩
  · intro e he
    cases List.mem_cons.mp he with
    | inl heq => exact heq ▸ hc
    | inr hmem => exact hmax e hmem
  · intro recent older hsplit
    cases recent with
    | nil =>
      rw [List.nil_append] at hsplit
      rw [← hsplit]
      exact hknown
    | cons e recent => exact hall recent older (List.cons.inj hsplit).2

theorem Heard.new {c : Cycle} {n : Nat} (hread : c.Reads fromString s.here id n)
    (hknown : ((s.run fromString options (c :: history)).observations.find? id).isSome) :
    Heard fromString options s (c :: history) id n := by
  refine ⟨[], c, history, rfl, hread, ?_, ?_⟩
  · intro e he
    cases he
  · intro recent older hsplit
    obtain ⟨-, rfl⟩ := List.append_eq_nil_iff.mp hsplit.symm
    exact hknown

theorem Grown.cons {time : Nat} (h : Grown fromString options s history id time) (c : Cycle) :
    Grown fromString options s (c :: history) id time := by
  obtain ⟨recent, e, between, d, before, m, n, rfl, hrest⟩ := h
  exact ⟨c :: recent, e, between, d, before, m, n, rfl, hrest⟩

theorem reads_find? {c : Cycle} {here : Text} {n : Nat} : c.Reads fromString here id n ↔
    ∃ r, (c.records fromString here).find? (fun r => r.peer.instanceId = id) = some r ∧ r.sequence = n := by
  constructor
  · rintro ⟨r, hr, hid, hn⟩
    have hsome : ((c.records fromString here).find? fun r => r.peer.instanceId = id).isSome :=
      List.find?_isSome.mpr ⟨r, hr, decide_eq_true hid⟩
    obtain ⟨q, hq⟩ := Option.isSome_iff_exists.mp hsome
    have hqid : q.peer.instanceId = id := by simpa using List.find?_some hq
    have heq := List.inj_on_of_nodup_map (c.records_nodup fromString here) (List.mem_of_find?_eq_some hq) hr
      (hqid.trans hid.symm)
    exact ⟨q, hq, heq ▸ hn⟩
  · rintro ⟨r, hr, hn⟩
    exact ⟨r, List.mem_of_find?_eq_some hr, by simpa using List.find?_some hr, hn⟩

theorem settle_eq {timeout now : Nat} {o o' : Observation} (h : o.settle timeout now = o') :
    o'.record = o.record ∧ o'.lastAdvance = o.lastAdvance ∧
      (o'.visible → o.visible ∧ now - o.lastAdvance < timeout) := by
  subst h
  rw [Observation.settle]
  split
  · exact ⟨rfl, rfl, fun hvisible => by cases hvisible⟩
  · rename_i hexpired
    refine ⟨rfl, rfl, fun hvisible => ⟨hvisible, ?_⟩⟩
    simp only [Observation.expired, hvisible, Bool.true_and, decide_eq_true_eq] at hexpired
    omega

/-- One cycle keeps track of every observation. -/
theorem tracked_cycle (c : Cycle)
    (h : ∀ o, (s.run fromString options history).observations.find? id = some o → Tracked fromString options s history id o)
    {o' : Observation} (ho : (s.run fromString options (c :: history)).observations.find? id = some o') :
    Tracked fromString options s (c :: history) id o' := by
  have hknown : ((s.run fromString options (c :: history)).observations.find? id).isSome := by rw [ho]; rfl
  have hrun : s.run fromString options (c :: history) = (s.run fromString options history).scan options
      (c.records fromString s.here) (c.presentRecords s.here) c.elapsed c.today := by
    rw [Helper.run, Helper.cycle, run_here]
  rw [hrun, scan_observations _ _ _ _ _ (c.records_nodup fromString s.here), Observation.next] at ho
  have hnow : (s.run fromString options (c :: history)).lastScan = (s.run fromString options history).lastScan + c.elapsed := rfl
  split at ho
  · obtain ⟨o, hbefore, hsettle⟩ := Option.map_eq_some_iff.mp ho
    obtain ⟨hrecord, htime, hvisible⟩ := settle_eq hsettle
    -- It is enough to keep track of the observation before its timeout is checked.
    have hdone : Heard fromString options s (c :: history) id o.record.sequence →
        (o.visible → Grown fromString options s (c :: history) id o.lastAdvance) →
        Tracked fromString options s (c :: history) id o' := by
      intro hheard hgrown
      refine ⟨hrecord ▸ hheard, ?_, ?_⟩
      · intro hv
        exact htime ▸ hgrown (hvisible hv).1
      · intro hv
        rw [hnow, htime]
        exact (hvisible hv).2
    have hold : ∀ it, unpaused options c.elapsed ((s.run fromString options history).observations.find? id) = some it →
        Tracked fromString options s history id it := by
      intro it hit
      rw [unpaused] at hit
      split at hit
      · cases hit
      · exact h it hit
    cases hr : (c.records fromString s.here).find? fun r => r.peer.instanceId = id with
    | none =>
      rw [hr] at hbefore
      have hit := hold o hbefore
      apply hdone
      · apply hit.heard.cons _ hknown
        intro m hm
        obtain ⟨r, hread, -⟩ := reads_find?.mp hm
        rw [hr] at hread
        cases hread
      · intro hv
        exact (hit.grown hv).cons c
    | some r =>
      have hread : c.Reads fromString s.here id r.sequence := reads_find?.mpr ⟨r, hr, rfl⟩
      rw [hr, Option.elim_some, Option.some.injEq] at hbefore
      cases hit : unpaused options c.elapsed ((s.run fromString options history).observations.find? id) with
      | none =>
        rw [hit, Observation.heard] at hbefore
        subst hbefore
        apply hdone (Heard.new hread hknown)
        intro hv
        cases hv
      | some it =>
        have htracked := hold it hit
        rw [hit, Observation.heard] at hbefore
        split at hbefore
        · rename_i hgrows
          subst hbefore
          apply hdone (Heard.new hread hknown)
          intro _
          obtain ⟨after, d, before, rfl, hd, -, -⟩ := htracked.heard
          exact ⟨[], c, after, d, before, it.record.sequence, r.sequence, rfl, hd, hread, hgrows, hnow.symm⟩
        · rename_i hgrows
          subst hbefore
          apply hdone
          · apply htracked.heard.cons _ hknown
            intro m hm
            obtain ⟨q, hq, rfl⟩ := reads_find?.mp hm
            rw [hr] at hq
            cases hq
            omega
          · intro hv
            exact (htracked.grown hv).cons c
  · cases ho

theorem tracked_run (here : Text) (now : Nat) (history : List Cycle) (id : Text) (o : Observation)
    (ho : ((Helper.start here now).run fromString options history).observations.find? id = some o) :
    Tracked fromString options (.start here now) history id o := by
  induction history generalizing o with
  | nil => cases ho
  | cons c earlier ih => exact tracked_cycle c ih ho

theorem keyed_run (here : Text) (now : Nat) (history : List Cycle) :
    Keyed ((Helper.start here now).run fromString options history).observations := by
  induction history with
  | nil =>
    intro id o ho
    cases ho
  | cons c earlier ih => exact Keyed.scan _ _ _ _ _ (c.records_nodup fromString _) ih

theorem alternates_run (here : Text) (now : Nat) (history : List Cycle) (id : Text) :
    let s := (Helper.start here now).run fromString options history
    Alternates (changes id s.events) ∧ (shown (s.observations.find? id) ↔ (changes id s.events).getLast? = some true) := by
  induction history with
  | nil =>
    refine ⟨⟨List.isChain_nil, ?_⟩, ?_⟩
    · intro b hb
      cases hb
    · simp [shown, Helper.run, Helper.start, changes]
  | cons c earlier ih =>
    have hscan := scan_changes options ((Helper.start here now).run fromString options earlier) (c.presentRecords here)
      c.elapsed c.today (c.records_nodup fromString here) (keyed_run here now earlier) id
    rw [Helper.run, Helper.cycle, run_here]
    dsimp only
    rw [show (Helper.start here now).here = here from rfl, hscan]
    exact ih.1.toggle ih.2 _

theorem mem_peers_iff {t : Helper} (h : Keyed t.observations) (id : Text) :
    id ∈ t.peers.map Peer.instanceId ↔ shown (t.observations.find? id) := by
  rw [List.mem_map]
  constructor
  · rintro ⟨peer, hpeer, rfl⟩
    obtain ⟨⟨key, o⟩, hrow, hvisible⟩ := List.mem_filterMap.mp hpeer
    have ho := (t.observations.mem_rows_iff key o).mp hrow
    dsimp only at hvisible
    split at hvisible
    · rename_i hshown
      cases hvisible
      rw [h key o ho, ho]
      exact hshown
    · cases hvisible
  · intro hshown
    cases ho : t.observations.find? id with
    | none =>
      rw [ho] at hshown
      cases hshown
    | some o =>
      rw [ho] at hshown
      refine ⟨o.record.peer, List.mem_filterMap.mpr ⟨(id, o), (t.observations.mem_rows_iff id o).mpr ho, ?_⟩, h id o ho⟩
      exact if_pos hshown

/-- A peer becomes visible only with a number greater than the one before it. -/
theorem next_shown {timeout now today : Nat} {present : Bool} {record : Option Record} {o : Option Observation}
    (hbefore : ¬shown o) (hafter : shown (Observation.next timeout now today present record o)) :
    ∃ it r, o = some it ∧ record = some r ∧ it.record.sequence < r.sequence := by
  rw [Observation.next] at hafter
  split at hafter
  · cases record with
    | none =>
      cases o with
      | none => cases hafter
      | some it => exact absurd (settle_visible_le _ _ hafter) hbefore
    | some r =>
      cases o with
      | none => cases (settle_visible_le _ _ hafter)
      | some it =>
        have hvisible := settle_visible_le _ _ hafter
        rw [Observation.heard] at hvisible
        split at hvisible
        · rename_i hgrows
          exact ⟨it, r, rfl, rfl, hgrows⟩
        · exact absurd hvisible hbefore
  · cases hafter

theorem appears_run {here : Text} {now : Nat} {c : Cycle} {earlier : List Cycle}
    (hbefore : ¬shown (((Helper.start here now).run fromString options earlier).observations.find? id))
    (hafter : shown (((Helper.start here now).run fromString options (c :: earlier)).observations.find? id)) :
    ∃ m n, Heard fromString options (.start here now) earlier id m ∧ c.Reads fromString here id n ∧ m < n := by
  rw [Helper.run, Helper.cycle, run_here, scan_observations _ _ _ _ _ (c.records_nodup fromString _)] at hafter
  have hnot : ¬shown (unpaused options c.elapsed
      (((Helper.start here now).run fromString options earlier).observations.find? id)) := by
    rw [unpaused]
    split
    · simp [shown]
    · exact hbefore
  obtain ⟨it, r, hit, hr, hgrows⟩ := next_shown hnot hafter
  rw [unpaused] at hit
  split at hit
  · cases hit
  · exact ⟨it.record.sequence, r.sequence, (tracked_run here now earlier id it hit).heard,
      reads_find?.mpr ⟨r, hr, rfl⟩, hgrows⟩

end

/-- What a run says about one instance. The latest cycle of a history comes first. -/
theorem presence_consistent (fromString : Text → Option Nat) (options : ObservationOptions) (here : Text) (now : Nat)
    (history : List Cycle) (id : Text) :
    let run := (Helper.start here now).run fromString options
    -- Appearing and disappearing alternate, and a peer is visible after it has appeared.
    Alternates (changes id (run history).events) ∧
    (id ∈ (run history).peers.map Peer.instanceId ↔ (changes id (run history).events).getLast? = some true) ∧
    -- A peer that becomes visible has been known since a cycle that read a smaller number, the greatest until then.
    (∀ later c earlier, history = later ++ c :: earlier → id ∉ (run earlier).peers.map Peer.instanceId →
      id ∈ (run (c :: earlier)).peers.map Peer.instanceId →
        ∃ m n, Heard fromString options (.start here now) earlier id m ∧ c.Reads fromString here id n ∧ m < n) ∧
    -- The latest growth of a visible peer's number is more recent than the timeout.
    (id ∈ (run history).peers.map Peer.instanceId →
      ∃ recent c between d before m n, history = recent ++ c :: (between ++ d :: before) ∧
        d.Reads fromString here id m ∧ c.Reads fromString here id n ∧ m < n ∧
        (recent.map Cycle.elapsed).sum < options.peerTimeoutMs) := by
  have hpeers : ∀ history, id ∈ ((Helper.start here now).run fromString options history).peers.map Peer.instanceId ↔
      shown (((Helper.start here now).run fromString options history).observations.find? id) :=
    fun history => mem_peers_iff (keyed_run here now history) id
  have halternates := @alternates_run fromString options here now history id
  refine ⟨halternates.1, ?_, ?_, ?_⟩
  · rw [hpeers]
    exact halternates.2
  · rintro later c earlier - hbefore hafter
    rw [hpeers] at hbefore hafter
    exact appears_run hbefore hafter
  · intro hvisible
    rw [hpeers] at hvisible
    cases ho : ((Helper.start here now).run fromString options history).observations.find? id with
    | none =>
      rw [ho] at hvisible
      cases hvisible
    | some o =>
      rw [ho] at hvisible
      have htracked := tracked_run here now history id o ho
      obtain ⟨recent, c, between, d, before, m, n, rfl, hm, hn, hlt, htime⟩ := htracked.grown hvisible
      have hfresh := htracked.fresh hvisible
      rw [htime, run_lastScan, run_lastScan, List.map_append, List.sum_append] at hfresh
      refine ⟨recent, c, between, d, before, m, n, rfl, hm, hn, hlt, ?_⟩
      omega

end SocietyHelper.Core
