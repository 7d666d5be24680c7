import SocietyHelper.Library.History
import SocietyHelper.Sync.Transfers

/-! # What a session does with its windows

What a session has done is a list grown at its end. Each item is justified by
the ones before it: chunks are handed on in line, windows are opened where the
last one has ended, and a slice ends only after something was moved in it.
-/

namespace SocietyHelper.Sync.Synchronizer

open Library Replica

/-! ## The story that a log tells -/

/-- The transfer that is under way, and the answers of its open window. -/
structure Visit where
  push : Bool
  entry : Entry
  offset : Int
  base : Int
  asked : List Int := []
  answers : List (Int × Answer) := []

namespace Visit

def next (v : Visit) : Int → Int := after (Replica.sizeOf v.entry)

def answered (v : Visit) : List Int := v.answers.map Prod.fst

def follow (v : Option Visit) : Output → Option Visit
  | .began push entry offset => some { push, entry, offset, base := offset }
  | .opened _ positions => v.map fun v => { v with base := v.offset, asked := positions, answers := [] }
  | .answered position a => v.map fun v => { v with answers := v.answers ++ [(position, a)] }
  | .handed _ offset _ => v.map fun v => { v with offset := v.next offset }
  | .advanced _ _ next => v.map fun v => { v with offset := next }
  | .started => none
  | .restarted => none

end Visit

def visit (log : List Output) : Option Visit := log.foldl Visit.follow none

@[simp] theorem visit_concat (log : List Output) (o : Output) : visit (log ++ [o]) = Visit.follow (visit log) o := by
  simp [visit]

/-- The entries whose chunks were moved since the list was made, and the first one asked for. -/
structure Slice where
  first : Option Entry := none
  moved : List Entry := []

namespace Slice

def follow (t : Slice) : Output → Slice
  | .started => {}
  | .restarted => {}
  | .opened e _ => { t with first := t.first.or (some e) }
  | .handed e _ _ => { t with moved := t.moved ++ [e] }
  | .advanced e _ _ => { t with moved := t.moved ++ [e] }
  | .began _ _ _ => t
  | .answered _ _ => t

/-- A chunk of the first transfer was moved. -/
def Advanced (t : Slice) : Prop := ∃ e, t.first = some e ∧ e ∈ t.moved

end Slice

def slice (log : List Output) : Slice := log.foldl Slice.follow {}

@[simp] theorem slice_concat (log : List Output) (o : Output) : slice (log ++ [o]) = (slice log).follow o := by
  simp [slice]

/-- The next chunk of a transfer is where it stands, and it was answered in the open window. -/
structure Moves (log : List Output) (push : Bool) (e : Entry) (offset : Int) (v : Visit) : Prop where
  told : visit log = some v
  way : v.push = push
  whose : v.entry = e
  place : v.offset = offset
  low : 0 ≤ offset
  high : offset < Replica.sizeOf e
  asked : offset ∈ v.asked

/-- A chunk of a download has the bytes that were asked for. -/
structure Fits (v : Visit) (position : Int) (a : Answer) : Prop where
  bytes : ∃ bytes, Base64.decode a.data.text = some bytes ∧
    (bytes.length : Int) = min chunkBytes (Replica.sizeOf v.entry - position)
  offset : nonnegative a.offset = some position
  version : a.version = v.entry.version

def Justified (log : List Output) : Output → Prop
  | .started => True
  | .began _ e offset => 0 ≤ offset ∧ offset ≤ Replica.sizeOf e
  | .opened e positions => ∃ v, visit log = some v ∧ v.entry = e ∧ lineEnd v.next v.base v.asked = v.offset ∧
      positions ≠ [] ∧ positions.length ≤ 4 ∧ Line v.next v.offset positions ∧
      ∀ p ∈ positions, 0 ≤ p ∧ p < Replica.sizeOf e
  | .answered position a => ∃ v, visit log = some v ∧ position ∈ v.asked ∧ position ∉ v.answered ∧ a.ok ∧
      (v.push = false → Fits v position a)
  | .handed e offset a => ∃ v, Moves log false e offset v ∧ (offset, a) ∈ v.answers
  | .advanced e offset next => ∃ v, Moves log true e offset v ∧ next = v.next offset ∧ offset ∈ v.answered
  | .restarted => (slice log).Advanced

/-! ## What holds of every session -/

/-- The scheduled calls that would still run. -/
def tasks (s : Session) : List Task := (s.scheduled.filter fun t => t.1 = s.generation).map Prod.snd

def Purpose.quiet : Purpose → Prop
  | .plan => True
  | .begin_ _ _ _ => True
  | .commit _ => True
  | .read _ _ _ => False
  | .chunk _ _ _ _ => False

/-- The acknowledged part of an upload is what was answered without a gap. -/
def Settled (log : List Output) : Prop :=
  ∀ v, visit log = some v → v.push → v.offset = prefixEnd v.next v.answered v.base v.asked

structure Base (s : Session) : Prop where
  linked : Linked Justified s.log
  generations : ∀ t ∈ s.scheduled, t.1 ≤ s.generation
  drawn : ∀ id ∈ s.requests.keys, id < s.drawn
  configured : 1 ≤ s.configuredWindow ∧ s.configuredWindow ≤ 4
  window : 1 ≤ s.window ∧ s.window ≤ 4

/-- A session that waits for nothing and holds nothing back. -/
structure Calm (s : Session) : Prop extends Base s where
  active : s.active
  settled : Settled s.log
  requests : s.requests.rows = []
  tasks : tasks s = []
  received : s.receivedChunks.rows = []
  acknowledged : s.acknowledgedChunks.rows = []

/-- The slice has not asked for anything, or it has moved something. -/
def Timely (s : Session) : Prop :=
  (s.transferSlice = none ∧ (slice s.log).first = none) ∨ (s.transferSlice.isSome ∧ (slice s.log).Advanced)

/-- Between two windows of the current entry. -/
def Stands (s : Session) (push : Bool) : Prop :=
  ∃ v, visit s.log = some v ∧ v.push = push ∧ v.entry = s.current ∧ v.offset = s.offset ∧
    lineEnd v.next v.base v.asked = v.offset ∧ 0 ≤ s.offset ∧ s.offset ≤ Replica.sizeOf s.current

def Purpose.position : Purpose → Int
  | .read _ _ position => position
  | .chunk _ _ position _ => position
  | _ => 0

/-- The request that a window makes for a position. -/
def windowed (push : Bool) (e : Entry) (position : Int) : Purpose :=
  if push then .chunk e (Replica.sizeOf e) position (after (Replica.sizeOf e) position)
  else .read e (Replica.sizeOf e) position

@[simp] theorem position_windowed (push : Bool) (e : Entry) (position : Int) :
    (windowed push e position).position = position := by
  cases push <;> rfl

/-- The positions whose requests are unanswered. -/
def waiting (s : Session) : List Int := s.requests.rows.map fun r => r.2.position

/-- The positions whose answers are held back. -/
def held (s : Session) (push : Bool) : List Int := if push then s.acknowledgedChunks.keys else s.receivedChunks.keys

/-- An open window: `rest` are its positions that were not moved yet. -/
structure Window (s : Session) (push : Bool) (v : Visit) (done rest : List Int) : Prop extends Base s where
  active : s.active
  tasks : tasks s = []
  told : visit s.log = some v
  way : v.push = push
  whose : v.entry = s.current
  place : v.offset = s.offset
  split : v.asked = done ++ rest
  ended : lineEnd v.next v.base done = v.offset
  line : Line v.next s.offset rest
  bounds : 0 ≤ s.offset ∧ s.offset ≤ Replica.sizeOf s.current
  range : ∀ p ∈ rest, 0 ≤ p ∧ p < Replica.sizeOf s.current
  requests : ∀ r ∈ s.requests.rows, r.2 = windowed push s.current r.2.position
  perm : (waiting s ++ held s push).Perm rest
  count : s.pendingChunks = s.requests.rows.length
  past : ∀ p ∈ done, p ∈ v.answered
  ahead : ∀ p ∈ rest, p ∈ v.answered ↔ p ∈ held s push
  received : ∀ r ∈ s.receivedChunks.rows, push = false ∧ r ∈ v.answers
  acknowledged : ∀ r ∈ s.acknowledgedChunks.rows, push = true ∧ r.2 = v.next r.1
  slice : s.transferSlice.isSome ∧ ∃ e, (slice s.log).first = some e ∧ (e ∈ (slice s.log).moved ∨ e = s.current ∧ rest ≠ [])

inductive Mode (s : Session) : Prop where
  | closed : s.active = false → s.requests.rows = [] → s.receivedChunks.rows = [] → s.acknowledgedChunks.rows = [] →
      (∀ t ∈ s.scheduled, t.1 < s.generation) → Mode s
  | asking (p : Purpose) : s.active → s.requests.rows.map Prod.snd = [p] → p.quiet → tasks s = [] →
      s.receivedChunks.rows = [] → s.acknowledgedChunks.rows = [] → Timely s → Mode s
  | ready (t : Task) : s.active → s.requests.rows = [] → tasks s = [t] →
      s.receivedChunks.rows = [] → s.acknowledgedChunks.rows = [] → Timely s →
      (t = .pullChunk → Stands s false) → (t = .pushChunk → Stands s true) → Mode s
  | window (push : Bool) (v : Visit) (done rest : List Int) : Window s push v done rest → s.offset ∉ held s push → Mode s

structure Inv (s : Session) : Prop extends Base s where
  settled : Settled s.log
  mode : Mode s

/-! ## Steps that open nothing -/

theorem Base.erase {s : Session} (h : Base s) (id : Nat) : Base { s with requests := s.requests.erase id } where
  linked := h.linked
  generations := h.generations
  drawn := by
    intro k hk
    obtain ⟨r, hr, rfl⟩ := List.mem_map.mp hk
    exact h.drawn r.1 (List.mem_map_of_mem (List.mem_of_mem_filter hr))
  configured := h.configured
  window := h.window

theorem active_finish (s : Session) : s.finish.active = false := by
  rw [Session.finish]
  split
  · rename_i h
    exact Bool.eq_false_iff.mpr h
  · rfl

theorem Base.finish {s : Session} (h : Base s) (hsettled : Settled s.log) (hactive : s.active) : Inv s.finish := by
  have heq : s.finish = { s with
      active := false, earlyPush := false, generation := s.generation + 1, requests := .empty, pendingChunks := 0
      receivedChunks := .empty, acknowledgedChunks := .empty, entries := [] } := if_neg (not_not.mpr hactive)
  rw [heq]
  refine ⟨⟨h.linked, fun t ht => ?_, fun id hid => absurd hid List.not_mem_nil, h.configured, h.window⟩, hsettled, ?_⟩
  · exact Nat.le_succ_of_le (h.generations t ht)
  · exact .closed rfl rfl rfl rfl fun t ht => Nat.lt_succ_of_le (h.generations t ht)

namespace Calm

variable {s : Session} (h : Calm s)

include h

/-- The list, the store and the flags are no part of it. -/
theorem update (store : World) (entries : List Entry) (index : Nat) (current : Entry) (offset pendingChunks : Int)
    (earlyPush : Bool) (transferSlice : Option Nat) (transferredInSlice : Bool) :
    Calm { s with store, entries, index, current, offset, pendingChunks, earlyPush, transferSlice, transferredInSlice } :=
  ⟨⟨h.linked, h.generations, h.drawn, h.configured, h.window⟩, h.active, h.settled, h.requests, h.tasks, h.received,
    h.acknowledged⟩

theorem finish : Inv s.finish := h.toBase.finish h.settled h.active

theorem keys : s.requests.keys = [] := by rw [Table.keys, h.requests, List.map_nil]

theorem send (htimely : Timely s) {p : Purpose} (hp : p.quiet) : Inv (s.send p) := by
  have hrows : (s.requests.insert s.drawn p).rows = [(s.drawn, p)] := by
    rw [Table.rows_insert_of_fresh (by rw [h.keys]; exact List.not_mem_nil), h.requests, List.nil_append]
  have heq : s.send p = { s with requests := s.requests.insert s.drawn p, drawn := s.drawn + 1 } :=
    if_neg (not_not.mpr h.active)
  rw [heq]
  refine ⟨⟨h.linked, h.generations, fun id hid => ?_, h.configured, h.window⟩, h.settled, ?_⟩
  · rw [Table.keys, hrows] at hid
    exact Nat.lt_succ_of_le (List.mem_singleton.mp hid).le
  · exact .asking p h.active (by rw [hrows]; rfl) hp h.tasks h.received h.acknowledged htimely

theorem schedule (htimely : Timely s) {t : Task} (hpull : t = .pullChunk → Stands s false)
    (hpush : t = .pushChunk → Stands s true) : Inv (s.schedule t) := by
  refine ⟨⟨h.linked, fun r hr => ?_, h.drawn, h.configured, h.window⟩, h.settled, ?_⟩
  · cases List.mem_append.mp hr with
    | inl hr => exact h.generations r hr
    | inr hr =>
      rw [List.mem_singleton.mp hr]
      exact Nat.le_refl s.generation
  · refine .ready t h.active h.requests ?_ h.received h.acknowledged htimely hpull hpush
    have htasks := h.tasks
    rw [Synchronizer.tasks] at htasks ⊢
    rw [Session.schedule, List.filter_append, List.map_append, htasks]
    simp

theorem scheduleNext (htimely : Timely s) : Inv (s.schedule .pullNext) :=
  h.schedule htimely (fun hpull => nomatch hpull) (fun hpush => nomatch hpush)

/-- Something that is no window and no chunk happens. -/
theorem note (htimely : Timely s) {o : Output} (hjustified : Justified s.log o) (hsettled : Settled (s.log ++ [o]))
    (hslice : (slice s.log).follow o = slice s.log) : Calm (s.note o) ∧ Timely (s.note o) := by
  refine ⟨⟨⟨Linked.concat_iff.mpr ⟨h.linked, hjustified⟩, h.generations, h.drawn, h.configured, h.window⟩, h.active,
    hsettled, h.requests, h.tasks, h.received, h.acknowledged⟩, ?_⟩
  rw [Timely] at htimely ⊢
  rw [Session.note, slice_concat, hslice]
  exact htimely

/-- A begin was answered with an offset. -/
theorem began (htimely : Timely s) (push : Bool) {offset : Int} (hlow : 0 ≤ offset)
    (hhigh : offset ≤ Replica.sizeOf s.current) :
    Calm ({ s with offset }.note (.began push s.current offset)) ∧
    Timely ({ s with offset }.note (.began push s.current offset)) ∧
    Stands ({ s with offset }.note (.began push s.current offset)) push := by
  have hcalm : Calm { s with offset } := h.update _ _ _ _ _ _ _ _ _
  have hsettled : Settled (s.log ++ [.began push s.current offset]) := by
    intro v hv _
    rw [visit_concat] at hv
    cases hv
    rfl
  have hjustified : Justified s.log (.began push s.current offset) := ⟨hlow, hhigh⟩
  obtain ⟨hnoted, htimely'⟩ := hcalm.note htimely hjustified hsettled rfl
  refine ⟨hnoted, htimely', _, visit_concat _ _, rfl, rfl, rfl, rfl, hlow, hhigh⟩

/-- Between two windows the session goes on, or its list is dropped. -/
theorem refreshBetweenChunks [StoreLayout] (htimely : Timely s) (c : Surroundings) :
    (∃ since, s.refreshBetweenChunks c = (false, { s with transferSlice := some since })) ∨
      ∃ t, s.refreshBetweenChunks c = (true, t) ∧ Inv t := by
  rw [Session.refreshBetweenChunks]
  by_cases hgo : ¬s.transferredInSlice ∨ c.now - s.transferSlice.getD c.now ≤ 1000
  · exact Or.inl ⟨_, if_pos hgo⟩
  · right
    have hslice : (slice s.log).Advanced := by
      cases htimely with
      | inl hnone =>
        rw [hnone.1] at hgo
        simp at hgo
      | inr hsome => exact hsome.2
    have hcalm : Calm ({ s with
        transferSlice := none, transferredInSlice := false, entries := [], index := 0, earlyPush := false }.note .restarted) := by
      have hbase := h.update s.store [] 0 s.current s.offset s.pendingChunks false none false
      refine ⟨⟨Linked.concat_iff.mpr ⟨h.linked, hslice⟩, hbase.generations, hbase.drawn, hbase.configured, hbase.window⟩,
        hbase.active, fun v hv _ => ?_, hbase.requests, hbase.tasks, hbase.received, hbase.acknowledged⟩
      rw [Session.note, visit_concat] at hv
      cases hv
    have htimely' : Timely ({ s with
        transferSlice := none, transferredInSlice := false, entries := [], index := 0, earlyPush := false }.note .restarted) := by
      left
      rw [Session.note, slice_concat]
      exact ⟨rfl, rfl⟩
    dsimp only
    rw [if_neg hgo]
    by_cases hboot : c.bootstrapping
    · rw [if_pos hboot]
      exact ⟨_, rfl, hcalm.send htimely' trivial⟩
    · rw [if_neg hboot]
      cases hscan : Replica.scan s.store with
      | ok a w =>
        simp only [Session.note, hscan]
        exact ⟨_, rfl, (hcalm.update w [] 0 _ _ _ _ _ _).send htimely' trivial⟩
      | error e w =>
        simp only [Session.note, hscan]
        exact ⟨_, rfl, (hcalm.update w [] 0 _ _ _ _ _ _).finish⟩

end Calm

theorem call_cases [StoreLayout] (s : Session) (r : Request) : ∃ a w, s.call r = (a, { s with store := w }) := by
  rw [Session.call]
  cases Replica.handle s.peer r true s.store with
  | ok a w => exact ⟨some a, w, rfl⟩
  | error e w => exact ⟨none, w, rfl⟩

theorem call_store [StoreLayout] {s t : Session} {r : Request} {a : Option Response} (h : s.call r = (a, t)) :
    ∃ w, t = { s with store := w } := by
  obtain ⟨b, w, hcall⟩ := call_cases s r
  rw [hcall] at h
  cases h
  exact ⟨w, rfl⟩

theorem Calm.pushNext [StoreLayout] {s : Session} (h : Calm s) (htimely : Timely s) : Inv s.pushNext := by
  rw [Session.pushNext, if_neg (not_not.mpr h.active)]
  cases s.entries[s.index]? with
  | none => exact (h.update _ [] _ _ _ _ false _ _).send htimely trivial
  | some e =>
    dsimp only
    split
    · obtain ⟨a, w, hcall⟩ := call_cases { s with current := e }
        { ({ s with current := e } : Session).request "read" with offset := .string (text "0") }
      have hcalm : Calm { s with current := e, store := w } := h.update _ _ _ _ _ _ _ _ _
      rw [hcall]
      split
      · rename_i hread
        cases hread
        split
        · split
          · exact hcalm.finish
          · exact hcalm.send htimely trivial
        · exact hcalm.finish
      · rename_i hother
        cases hother
        exact hcalm.finish
    · have hcalm : Calm { s with current := e } := h.update _ _ _ _ _ _ _ _ _
      have hquiet : (Purpose.begin_ e false (Replica.sizeOf e)).quiet := trivial
      exact hcalm.send htimely hquiet

/-! ## Opening a window -/

theorem chunkBytes_pos : 0 < chunkBytes := by decide

theorem lt_after {size offset : Int} (_ : offset < size) : offset < after size offset := by
  have := chunkBytes_pos
  rw [after]
  omega

theorem after_le {size offset : Int} (_ : offset ≤ size) : after size offset ≤ size := by
  rw [after]
  omega

/-- The chunks that are asked for at once: one to four, in line, and all of them inside the file. -/
theorem positions_spec {s : Session} (hwindow : 1 ≤ s.window ∧ s.window ≤ 4) (hlow : 0 ≤ s.offset)
    (hhigh : s.offset < Replica.sizeOf s.current) :
    s.windowSize = s.positions.length ∧ s.positions ≠ [] ∧ s.positions.length ≤ 4 ∧
      Line (after (Replica.sizeOf s.current)) s.offset s.positions ∧
      ∀ p ∈ s.positions, 0 ≤ p ∧ p < Replica.sizeOf s.current := by
  have hchunk : chunkBytes = 262144 := by decide
  have hsize : s.windowSize = min s.window ((Replica.sizeOf s.current - s.offset + 262144 - 1) / 262144) := by
    rw [Session.windowSize, hchunk]
  have hrange : 1 ≤ s.windowSize ∧ s.windowSize ≤ 4 ∧
      (s.windowSize - 1) * 262144 < Replica.sizeOf s.current - s.offset := by omega
  obtain ⟨hone, hfour, hfits⟩ := hrange
  obtain ⟨n, hn⟩ := Int.eq_ofNat_of_zero_le (show 0 ≤ s.windowSize by omega)
  have hpositions : s.positions = (List.range n).map fun i : Nat => s.offset + (i : Int) * chunkBytes := by
    rw [Session.positions, hn, Int.toNat_natCast]
  have hlength : s.positions.length = n := by rw [hpositions, List.length_map, List.length_range]
  refine ⟨by rw [hlength, hn], ?_, by omega, ?_, ?_⟩
  · apply List.ne_nil_of_length_pos
    omega
  · rw [hpositions]
    apply Line.range
    intro i hi
    rw [after, hchunk]
    omega
  · rw [hpositions]
    intro p hp
    obtain ⟨i, hi, rfl⟩ := List.mem_map.mp hp
    have := List.mem_range.mp hi
    rw [hchunk]
    omega

/-- A session after its requests for some positions. -/
structure Asked (s t : Session) (push : Bool) (positions : List Int) : Prop where
  update : ∃ store requests drawn, t = { s with store, requests, drawn }
  requests : t.requests.rows.map Prod.snd = s.requests.rows.map Prod.snd ++ positions.map (windowed push s.current)
  drawn : ∀ id ∈ t.requests.keys, id < t.drawn

theorem Asked.nil {s : Session} (h : ∀ id ∈ s.requests.keys, id < s.drawn) (push : Bool) : Asked s s push [] :=
  ⟨⟨_, _, _, rfl⟩, by simp, h⟩

theorem Asked.send {s t : Session} {push : Bool} {positions : List Int} (hactive : s.active)
    (h : Asked s t push positions) (position : Int) :
    Asked s (t.send (windowed push s.current position)) push (positions ++ [position]) := by
  obtain ⟨⟨store, requests, drawn, rfl⟩, hrequests, hdrawn⟩ := h
  have hsend : ∀ p : Purpose, Session.send { s with store, requests, drawn } p =
      { s with store, requests := requests.insert drawn p, drawn := drawn + 1 } := fun p => if_neg (not_not.mpr hactive)
  have hfresh : drawn ∉ requests.keys := fun hmem => Nat.lt_irrefl drawn (hdrawn drawn hmem)
  rw [hsend]
  refine ⟨⟨_, _, _, rfl⟩, ?_, ?_⟩
  · rw [Table.rows_insert_of_fresh hfresh, List.map_append, hrequests, List.map_append, List.append_assoc]
    rfl
  · intro id hid
    rw [Table.keys, Table.rows_insert_of_fresh hfresh, List.map_append] at hid
    cases List.mem_append.mp hid with
    | inl hid => exact Nat.lt_succ_of_lt (hdrawn id hid)
    | inr hid => exact Nat.lt_succ_of_le (List.mem_singleton.mp hid).le

theorem asked_reads {s t : Session} (hactive : s.active) {front : List Int} (h : Asked s t false front)
    (positions : List Int) :
    Asked s (positions.foldl (fun u position => u.send (.read s.current (Replica.sizeOf s.current) position)) t) false
      (front ++ positions) := by
  induction positions generalizing t front with
  | nil => simpa using h
  | cons position positions ih =>
    have := ih (h.send hactive position)
    rwa [List.append_assoc] at this

/-- Sending the chunks of a window ends with all of them asked for, or the session with them. -/
theorem asked_chunks [StoreLayout] {s t : Session} (hactive : s.active) {front : List Int} (h : Asked s t true front)
    (positions : List Int) :
    Asked s (Session.sendChunks (Replica.sizeOf s.current) positions t) true (front ++ positions) ∨
      ∃ u done, Asked s u true done ∧ Session.sendChunks (Replica.sizeOf s.current) positions t = u.finish := by
  induction positions generalizing t front with
  | nil => exact Or.inl (by simpa [Session.sendChunks] using h)
  | cons position positions ih =>
    obtain ⟨⟨store, requests, drawn, rfl⟩, hrequests, hdrawn⟩ := h
    obtain ⟨a, w, hcall⟩ := call_cases { s with store, requests, drawn }
      { s.request "read" with offset := .string (decimalInt position) }
    have hread : Asked s { s with store := w, requests, drawn } true front := ⟨⟨_, _, _, rfl⟩, hrequests, hdrawn⟩
    rw [Session.sendChunks, show Session.request { s with store, requests, drawn } "read" = s.request "read" from rfl, hcall]
    split
    · rename_i data _ heq
      cases heq
      split
      · rename_i bytes _
        split
        · exact Or.inr ⟨_, _, hread, rfl⟩
        · rename_i hlength
          have hnext : position + (bytes.length : Int) = after (Replica.sizeOf s.current) position := by
            rw [not_not.mp hlength, after]
          rw [hnext]
          have hrest := ih (hread.send hactive position)
          rw [List.append_assoc] at hrest
          exact hrest
      · exact Or.inr ⟨_, _, hread, rfl⟩
    · rename_i heq
      cases heq
      exact Or.inr ⟨_, _, hread, rfl⟩

/-- A session that is about to send the requests of a window. -/
def Session.opening (s : Session) : Session :=
  ({ s with pendingChunks := s.windowSize } : Session).note (.opened s.current s.positions)

namespace Asked

variable {s t : Session} {push : Bool} {positions : List Int}

theorem base (h : Asked s t push positions) (hs : Base s) : Base t := by
  obtain ⟨⟨store, requests, drawn, rfl⟩, -, hdrawn⟩ := h
  exact ⟨hs.linked, hs.generations, hdrawn, hs.configured, hs.window⟩

theorem finish (h : Asked s t push positions) (hs : Calm s) : Inv t.finish := by
  have hbase := h.base hs.toBase
  obtain ⟨⟨store, requests, drawn, rfl⟩, -⟩ := h
  exact hbase.finish hs.settled hs.active

end Asked

theorem Calm.opening {s : Session} (h : Calm s) {push : Bool} (hstands : Stands s push)
    (hrest : s.offset ≠ Replica.sizeOf s.current) : Calm s.opening := by
  obtain ⟨v, htold, hpush, hwhose, hplace, hended, hlow, hhigh⟩ := hstands
  obtain ⟨hcount, hne, hfour, hline, hrange⟩ := positions_spec h.window hlow (by omega)
  have hnext : v.next = after (Replica.sizeOf s.current) := by rw [Visit.next, hwhose]
  have hjustified : Justified s.log (.opened s.current s.positions) := by
    refine ⟨v, htold, hwhose, hended, hne, hfour, ?_, hrange⟩
    rw [hnext, hplace]
    exact hline
  refine ⟨⟨Linked.concat_iff.mpr ⟨h.linked, hjustified⟩, h.generations, h.drawn, h.configured, h.window⟩, h.active,
    fun u hu _ => ?_, h.requests, h.tasks, h.received, h.acknowledged⟩
  rw [Session.opening, Session.note, visit_concat, htold] at hu
  cases hu
  exact (prefixEnd_append v.offset (List.forall_mem_nil _) (by simp [Visit.answered])).symm

/-- With its requests sent, the window is open. -/
theorem Calm.opened {s t : Session} (h : Calm s) {push : Bool} (hstands : Stands s push)
    (hrest : s.offset ≠ Replica.sizeOf s.current) (hsome : s.transferSlice.isSome)
    (hslice : (slice s.log).first = none ∨ (slice s.log).Advanced) (hasked : Asked s.opening t push s.positions) : Inv t := by
  have hopening := h.opening hstands hrest
  have hbase := hasked.base hopening.toBase
  obtain ⟨v, htold, hpush, hwhose, hplace, hended, hlow, hhigh⟩ := hstands
  obtain ⟨hcount, hne, hfour, hline, hrange⟩ := positions_spec h.window hlow (by omega)
  obtain ⟨⟨store, requests, drawn, rfl⟩, hrequests, hdrawn⟩ := hasked
  have hrows : requests.rows.map Prod.snd = s.positions.map (windowed push s.current) := by
    rw [hrequests, hopening.requests]
    rfl
  have hnext : v.next = after (Replica.sizeOf s.current) := by rw [Visit.next, hwhose]
  have hreceived : s.receivedChunks.rows = [] := h.received
  have hacknowledged : s.acknowledgedChunks.rows = [] := h.acknowledged
  have hheld : ∀ push, held { s.opening with store, requests, drawn } push = [] := by
    intro push
    cases push with
    | false => exact congrArg (List.map Prod.fst) hreceived
    | true => exact congrArg (List.map Prod.fst) hacknowledged
  have hwaiting : waiting { s.opening with store, requests, drawn } = s.positions := by
    calc
      requests.rows.map (fun r => r.2.position) = (requests.rows.map Prod.snd).map Purpose.position := by simp
      _ = (s.positions.map (windowed push s.current)).map Purpose.position := by rw [hrows]
      _ = s.positions := by simp [Function.comp_def]
  have hlength : requests.rows.length = s.positions.length := by
    rw [← List.length_map (f := Prod.snd), hrows, List.length_map]
  have hsettled : Settled s.opening.log := hopening.settled
  refine ⟨hbase, hsettled, .window push { v with base := v.offset, asked := s.positions, answers := [] } [] s.positions
    { toBase := hbase, active := h.active, tasks := h.tasks, told := ?_, way := hpush, whose := hwhose, place := hplace
      split := rfl, ended := rfl, line := ?_, bounds := ⟨hlow, hhigh⟩, range := hrange, requests := ?_, perm := ?_
      count := ?_, past := by simp, ahead := ?_, received := ?_, acknowledged := ?_, slice := ⟨hsome, ?_⟩ } ?_⟩
  · rw [Session.opening, Session.note, visit_concat, htold]
    rfl
  · have hline' : Line v.next s.offset s.positions := hnext ▸ hline
    exact hline'
  · intro r hr
    have hmem : r.2 ∈ s.positions.map (windowed push s.current) := hrows ▸ List.mem_map_of_mem hr
    obtain ⟨p, -, hp⟩ := List.mem_map.mp hmem
    rw [← hp, position_windowed]
    rfl
  · rw [hheld, List.append_nil, hwaiting]
  · have hcount' : s.windowSize = requests.rows.length := by rw [hcount, hlength]
    exact hcount'
  · intro p _
    rw [hheld]
    simp [Visit.answered]
  · intro r hr
    rw [show ({ s.opening with store, requests, drawn } : Session).receivedChunks = s.receivedChunks from rfl, hreceived] at hr
    exact absurd hr List.not_mem_nil
  · intro r hr
    rw [show ({ s.opening with store, requests, drawn } : Session).acknowledgedChunks = s.acknowledgedChunks from rfl,
      hacknowledged] at hr
    exact absurd hr List.not_mem_nil
  · have hlog : slice ({ s.opening with store, requests, drawn } : Session).log =
        (slice s.log).follow (.opened s.current s.positions) := slice_concat _ _
    rw [hlog]
    cases hslice with
    | inl hnone =>
      refine ⟨s.current, ?_, Or.inr ⟨rfl, hne⟩⟩
      rw [Slice.follow, hnone]
      rfl
    | inr hadvanced =>
      obtain ⟨e, hfirst, hmoved⟩ := hadvanced
      refine ⟨e, ?_, Or.inl hmoved⟩
      rw [Slice.follow, hfirst]
      rfl
  · rw [hheld]
    exact List.not_mem_nil

namespace Calm

variable {s : Session} (h : Calm s) (htimely : Timely s)

include h htimely

/-- What `refreshBetweenChunks` leaves to a window: a slice is running. -/
theorem sliced (since : Nat) : Calm { s with transferSlice := some since } ∧
    ((slice s.log).first = none ∨ (slice s.log).Advanced) := by
  refine ⟨h.update _ _ _ _ _ _ _ _ _, ?_⟩
  cases htimely with
  | inl hnone => exact Or.inl hnone.2
  | inr hsome => exact Or.inr hsome.2

theorem pushChunk [StoreLayout] (hstands : Stands s true) (c : Surroundings) : Inv (s.pushChunk c) := by
  rw [Session.pushChunk]
  by_cases hend : s.offset = Replica.sizeOf s.current
  · have hquiet : (Purpose.commit s.current).quiet := trivial
    exact (if_pos hend).symm ▸ h.send htimely hquiet
  · rw [if_neg hend]
    cases h.refreshBetweenChunks htimely c with
    | inr hrestart =>
      obtain ⟨t, heq, ht⟩ := hrestart
      rw [heq]
      exact ht
    | inl hgo =>
      obtain ⟨since, heq⟩ := hgo
      rw [heq]
      obtain ⟨hcalm, hslice⟩ := h.sliced htimely since
      have hopening := hcalm.opening hstands hend
      have hnil := Asked.nil hopening.drawn true
      cases asked_chunks hopening.active hnil (Session.positions { s with transferSlice := some since }) with
      | inl hasked => exact hcalm.opened hstands hend rfl hslice hasked
      | inr hfailed =>
        obtain ⟨u, done, hasked, hu⟩ := hfailed
        have hfinish := hasked.finish hopening
        rw [← hu] at hfinish
        exact hfinish

theorem pullChunk [StoreLayout] (hstands : Stands s false) (c : Surroundings) : Inv (s.pullChunk c) := by
  rw [Session.pullChunk]
  by_cases hcancelled : c.cancelled
  · rw [if_pos hcancelled]
    exact (h.update _ _ _ _ _ _ _ _ _).scheduleNext htimely
  rw [if_neg hcancelled]
  by_cases hend : s.offset = Replica.sizeOf s.current
  · dsimp only
    rw [if_pos hend]
    obtain ⟨a, w, hcall⟩ := call_cases s (s.request "commit")
    rw [hcall]
    cases a with
    | none => exact Calm.finish (h.update _ _ _ _ _ _ _ _ _)
    | some a => exact (h.update _ _ _ _ _ _ _ _ _).scheduleNext htimely
  · dsimp only
    rw [if_neg hend]
    cases h.refreshBetweenChunks htimely c with
    | inr hrestart =>
      obtain ⟨t, heq, ht⟩ := hrestart
      rw [heq]
      exact ht
    | inl hgo =>
      obtain ⟨since, heq⟩ := hgo
      rw [heq]
      obtain ⟨hcalm, hslice⟩ := h.sliced htimely since
      have hopening := hcalm.opening hstands hend
      have hasked := asked_reads hopening.active (Asked.nil hopening.drawn false)
        (Session.positions { s with transferSlice := some since })
      exact hcalm.opened hstands hend rfl hslice hasked

theorem pullNext [StoreLayout] (c : Surroundings) : Inv (s.pullNext c) := by
  rw [Session.pullNext, if_neg (not_not.mpr h.active)]
  cases s.entries[s.index]? with
  | none => exact (h.update _ [] _ _ _ _ _ _ _).send htimely trivial
  | some e =>
    have hcurrent : Calm { s with current := e } := h.update _ _ _ _ _ _ _ _ _
    dsimp only
    split
    · cases Replica.acceptMetadata s.peer e s.store with
      | ok a w => exact (h.update _ _ _ _ _ _ _ _ _).scheduleNext htimely
      | error e' w => exact Calm.finish (h.update _ _ _ _ _ _ _ _ _)
    · split
      · exact (h.update _ _ _ _ _ _ _ _ _).pushNext htimely
      · obtain ⟨a, w, hcall⟩ := call_cases { s with current := e } (({ s with current := e } : Session).request "begin")
        have hcalled : Calm { s with current := e, store := w } := h.update _ _ _ _ _ _ _ _ _
        rw [hcall]
        split
        · rename_i offset _ heq
          cases heq
          split
          · exact hcalled.finish
          · rename_i hsize
            obtain ⟨hbegan, htimely', hstands⟩ := hcalled.began htimely false
              (Int.natCast_nonneg offset) (Int.not_lt.mp hsize)
            exact hbegan.pullChunk htimely' hstands c
        · rename_i heq
          cases heq
          exact (h.update _ _ _ _ _ _ _ _ _).scheduleNext htimely
        · rename_i heq
          cases heq
          exact hcalled.finish

theorem planned [StoreLayout] (c : Surroundings) : Inv (s.planned c) := by
  rw [Session.planned]
  split
  · rename_i store _
    have hquiet : Purpose.plan.quiet := trivial
    exact (h.update store _ _ _ _ _ _ _ _).send htimely hquiet
  · rename_i store entries _
    exact (h.update store entries 0 _ _ _ _ _ _).pullNext htimely c
  · rename_i store entries _
    exact (h.update store entries 0 _ _ _ _ _ _).pushNext htimely
  · exact h.finish

theorem begun [StoreLayout] (inlined : Bool) (size : Int) (a : Answer) (c : Surroundings) :
    Inv (s.begun inlined size a c) := by
  rw [Session.begun]
  split
  · exact h.finish
  · split
    · by_cases hmoved : inlined ∧ 0 < size
      · dsimp only
        rw [if_pos hmoved]
        exact (h.update _ _ _ _ _ _ _ _ _).pushNext htimely
      · dsimp only
        rw [if_neg hmoved]
        exact (h.update _ _ _ _ _ _ _ _ _).pushNext htimely
    · split
      · exact h.finish
      · split
        · rename_i offset hoffset
          split
          · exact h.finish
          · rename_i hsize
            have hlow : 0 ≤ offset := by
              have := (Option.filter_eq_some_iff.mp hoffset).2
              simpa using this
            obtain ⟨hbegan, htimely', hstands⟩ := h.began htimely true hlow
              (Int.not_lt.mp fun hlt => hsize (Or.inr hlt))
            exact hbegan.pushChunk htimely' hstands c
        · exact h.finish

end Calm

/-! ## Answers in a window -/

namespace Window

variable {s : Session} {push : Bool} {v : Visit} {done rest : List Int} (h : Window s push v done rest)

include h

theorem next_eq : v.next = after (Replica.sizeOf s.current) := by rw [Visit.next, h.whose]

theorem nodup : rest.Nodup := by
  have hnext : ∀ p ∈ rest, p < v.next p := by
    intro p hp
    rw [h.next_eq]
    exact lt_after (h.range p hp).2
  exact (h.line.pairwise hnext).1.imp fun hlt => ne_of_lt hlt

/-- The acknowledged part is what was answered without a gap. -/
theorem settled (hfree : s.offset ∉ held s push) : Settled s.log := by
  intro u hu _
  rw [h.told] at hu
  cases hu
  rw [h.split, prefixEnd_append v.base h.past, h.ended]
  intro p hp
  have hmem := List.mem_of_mem_head? hp
  obtain ⟨later, hrest, -⟩ := h.line.eq_cons (List.ne_nil_of_mem hmem)
  have heq : s.offset = p := by simpa [hrest] using hp
  exact fun hanswered => hfree (heq ▸ (h.ahead p hmem).mp hanswered)

theorem inv (hfree : s.offset ∉ held s push) : Inv s :=
  ⟨h.toBase, h.settled hfree, .window push v done rest h hfree⟩

/-- The position of an unanswered request is still ahead, and no answer of it is held back. -/
theorem ahead_of_request {id : Nat} {q : Purpose} (hq : s.requests.find? id = some q) :
    q = windowed push s.current q.position ∧ q.position ∈ rest ∧ q.position ∉ held s push ∧
      (waiting s).Perm (q.position :: (s.requests.erase id).rows.map fun r => r.2.position) := by
  have hmem := (Table.mem_rows_iff s.requests id q).mpr hq
  have hwaiting : q.position ∈ waiting s := List.mem_map.mpr ⟨(id, q), hmem, rfl⟩
  have hnodup := h.perm.symm.nodup h.nodup
  refine ⟨h.requests (id, q) hmem, h.perm.mem_iff.mp (List.mem_append_left _ hwaiting), fun hheld => ?_, ?_⟩
  · exact (List.nodup_append.mp hnodup).2.2 _ hwaiting _ hheld rfl
  · exact (Table.perm_cons_erase hq).map fun r => r.2.position

/-- Whatever the window waits for, it goes on without what it has moved. -/
theorem position_mem (hheld : s.offset ∈ held s push) : s.offset ∈ rest :=
  h.perm.mem_iff.mp (List.mem_append_right _ hheld)

theorem moves (hheld : s.offset ∈ held s push) : Moves s.log push s.current s.offset v where
  told := h.told
  way := h.way
  whose := h.whose
  place := h.place
  low := h.bounds.1
  high := (h.range _ (h.position_mem hheld)).2
  asked := by
    rw [h.split]
    exact List.mem_append_right done (h.position_mem hheld)

end Window

/-- An answer of an open window: its request is gone, and it is held back or used at once. -/
theorem Window.accept {s t : Session} {push : Bool} {v : Visit} {done rest : List Int} (h : Window s push v done rest)
    {id : Nat} {q : Purpose} (hq : s.requests.find? id = some q) (a : Answer) (hok : a.ok)
    (hfits : push = false → Fits v q.position a)
    (hupdate : ∃ received acknowledged, t = { s with
      requests := s.requests.erase id, receivedChunks := received, acknowledgedChunks := acknowledged
      pendingChunks := s.pendingChunks - 1, log := s.log ++ [.answered q.position a] })
    (hheld : held t push = held s push ++ [q.position])
    (hreceived : ∀ r ∈ t.receivedChunks.rows, r ∈ s.receivedChunks.rows ∨ push = false ∧ r = (q.position, a))
    (hacknowledged : ∀ r ∈ t.acknowledgedChunks.rows,
      r ∈ s.acknowledgedChunks.rows ∨ push = true ∧ r = (q.position, v.next q.position)) :
    Window t push { v with answers := v.answers ++ [(q.position, a)] } done rest := by
  obtain ⟨hpurpose, hrest, hfree, hwaiting⟩ := h.ahead_of_request hq
  obtain ⟨received, acknowledged, rfl⟩ := hupdate
  have hasked : q.position ∈ v.asked := by
    rw [h.split]
    exact List.mem_append_right done hrest
  have hjustified : Justified s.log (.answered q.position a) :=
    ⟨v, h.told, hasked, fun hanswered => hfree ((h.ahead _ hrest).mp hanswered), hok, fun hpull => hfits (h.way ▸ hpull)⟩
  have hanswered : ({ v with answers := v.answers ++ [(q.position, a)] } : Visit).answered = v.answered ++ [q.position] := by
    simp [Visit.answered]
  exact
    { linked := Linked.concat_iff.mpr ⟨h.linked, hjustified⟩
      generations := h.generations
      drawn := (h.toBase.erase id).drawn
      configured := h.configured
      window := h.window
      active := h.active
      tasks := h.tasks
      told := by rw [visit_concat, h.told]; rfl
      way := h.way
      whose := h.whose
      place := h.place
      split := h.split
      ended := h.ended
      line := h.line
      bounds := h.bounds
      range := h.range
      requests := fun r hr => h.requests r (List.mem_of_mem_filter hr)
      perm := by
        rw [hheld]
        calc
          ((s.requests.erase id).rows.map (fun r => r.2.position) ++ (held s push ++ [q.position])).Perm
              (q.position :: ((s.requests.erase id).rows.map (fun r => r.2.position) ++ held s push)) := by
            rw [← List.append_assoc]
            exact List.perm_append_singleton _ _
          List.Perm _ (waiting s ++ held s push) := (hwaiting.append_right _).symm
          List.Perm _ rest := h.perm
      count := by
        have hlength := (Table.perm_cons_erase hq).length_eq
        have hcount := h.count
        rw [List.length_cons] at hlength
        simp only
        omega
      past := fun p hp => by
        rw [hanswered]
        exact List.mem_append_left _ (h.past p hp)
      ahead := fun p hp => by
        rw [hanswered, hheld, List.mem_append, List.mem_append, h.ahead p hp]
      received := fun r hr => by
        cases hreceived r hr with
        | inl hr => exact ⟨(h.received r hr).1, List.mem_append_left _ (h.received r hr).2⟩
        | inr hr => exact ⟨hr.1, hr.2 ▸ List.mem_append_right _ (List.mem_singleton_self _)⟩
      acknowledged := fun r hr => by
        cases hacknowledged r hr with
        | inl hr => exact h.acknowledged r hr
        | inr hr => exact ⟨hr.1, by rw [hr.2]; rfl⟩
      slice := by
        rw [slice_concat]
        exact h.slice }

/-- The next chunk was moved: the window goes on behind it. -/
theorem Window.move {s t : Session} {push : Bool} {v : Visit} {done rest : List Int} (h : Window s push v done rest)
    (hheld : s.offset ∈ held s push) {o : Output} (hjustified : Justified s.log o)
    (hfollow : Visit.follow (some v) o = some { v with offset := v.next s.offset })
    (hslice : (Synchronizer.slice s.log).follow o =
      { Synchronizer.slice s.log with moved := (Synchronizer.slice s.log).moved ++ [s.current] })
    (hupdate : ∃ store received acknowledged, t = { s with
      store, receivedChunks := received, acknowledgedChunks := acknowledged, offset := v.next s.offset
      transferredInSlice := true, log := s.log ++ [o] })
    (herased : (held s push).Perm (s.offset :: held t push))
    (hreceived : ∀ r ∈ t.receivedChunks.rows, r ∈ s.receivedChunks.rows)
    (hacknowledged : ∀ r ∈ t.acknowledgedChunks.rows, r ∈ s.acknowledgedChunks.rows) :
    ∃ later, rest = s.offset :: later ∧
      Window t push { v with offset := v.next s.offset } (done ++ [s.offset]) later := by
  obtain ⟨later, hrest, hline, -⟩ := h.line.take h.perm hheld
  obtain ⟨store, received, acknowledged, rfl⟩ := hupdate
  have hhere := h.range _ (h.position_mem hheld)
  have hmoved : s.offset ∈ v.answered := (h.ahead _ (h.position_mem hheld)).mpr hheld
  have hnodup : (s.offset :: later).Nodup := hrest ▸ h.nodup
  have hperm : (waiting s ++ held { s with
      store, receivedChunks := received, acknowledgedChunks := acknowledged, offset := v.next s.offset
      transferredInSlice := true, log := s.log ++ [o] } push).Perm later := by
    apply (List.perm_cons s.offset).mp
    calc
      List.Perm _ (waiting s ++ s.offset :: held _ push) := List.perm_middle.symm
      List.Perm _ (waiting s ++ held s push) := herased.symm.append_left _
      List.Perm _ (s.offset :: later) := hrest ▸ h.perm
  refine ⟨later, hrest, ?_⟩
  exact
    { linked := Linked.concat_iff.mpr ⟨h.linked, hjustified⟩
      generations := h.generations
      drawn := h.drawn
      configured := h.configured
      window := h.window
      active := h.active
      tasks := h.tasks
      told := by rw [visit_concat, h.told, hfollow]
      way := h.way
      whose := h.whose
      place := rfl
      split := by rw [List.append_assoc, List.singleton_append, ← hrest, h.split]
      ended := lineEnd_concat _ _ _
      line := hline
      bounds := by
        rw [h.next_eq]
        exact ⟨(hhere.1.trans_lt (lt_after hhere.2)).le, after_le h.bounds.2⟩
      range := fun p hp => h.range p (hrest ▸ List.mem_cons_of_mem _ hp)
      requests := h.requests
      perm := hperm
      count := h.count
      past := fun p hp => by
        cases List.mem_append.mp hp with
        | inl hp => exact h.past p hp
        | inr hp => exact (List.mem_singleton.mp hp) ▸ hmoved
      ahead := fun p hp => by
        have hne : p ≠ s.offset := fun heq => (List.nodup_cons.mp hnodup).1 (heq ▸ hp)
        have hold := h.ahead p (hrest ▸ List.mem_cons_of_mem _ hp)
        rw [herased.mem_iff, List.mem_cons, or_iff_right hne] at hold
        exact hold
      received := fun r hr => h.received r (hreceived r hr)
      acknowledged := fun r hr => h.acknowledged r (hacknowledged r hr)
      slice := by
        obtain ⟨hsome, e, hfirst, hmoves⟩ := h.slice
        refine ⟨hsome, e, ?_, Or.inl ?_⟩
        · rw [slice_concat, hslice]
          exact hfirst
        · rw [slice_concat, hslice]
          cases hmoves with
          | inl hmoved => exact List.mem_append_left _ hmoved
          | inr hcurrent => exact hcurrent.1 ▸ List.mem_append_right _ (List.mem_singleton_self _) }

/-- However the chunks that have come are used, the session has ended or stands at a gap. -/
def Gapped (s : Session) (push : Bool) : Prop :=
  Inv s ∧ s.active = false ∨ ∃ v done rest, Window s push v done rest ∧ s.offset ∉ held s push

theorem Window.acknowledge {s : Session} {v : Visit} {done rest : List Int} (n : Nat) (h : Window s true v done rest)
    (hn : s.acknowledgedChunks.rows.length ≤ n) : Gapped (Session.acknowledge n s) true := by
  induction n generalizing s v done rest with
  | zero =>
    have hrows : s.acknowledgedChunks.rows = [] := List.eq_nil_of_length_eq_zero (Nat.le_zero.mp hn)
    refine Or.inr ⟨v, done, rest, h, ?_⟩
    simp [Session.acknowledge, held, Table.keys, hrows]
  | succ n ih =>
    rw [Session.acknowledge]
    cases hfind : s.acknowledgedChunks.find? s.offset with
    | none => exact Or.inr ⟨v, done, rest, h, (Table.find?_eq_none_iff _ _).mp hfind⟩
    | some next =>
      have hheld : s.offset ∈ held s true := (Table.mem_keys_iff _ _).mpr ⟨next, hfind⟩
      have hnext : next = v.next s.offset := (h.acknowledged _ ((Table.mem_rows_iff _ _ _).mpr hfind)).2
      have hanswered : s.offset ∈ v.answered := (h.ahead _ (h.position_mem hheld)).mpr hheld
      subst hnext
      obtain ⟨later, -, hmoved⟩ := h.move (o := .advanced s.current s.offset (v.next s.offset)) hheld
        ⟨v, h.moves hheld, rfl, hanswered⟩ rfl rfl
        ⟨s.store, s.receivedChunks, s.acknowledgedChunks.erase s.offset, rfl⟩ (Table.perm_keys_erase hfind)
        (fun r hr => hr) (fun r hr => List.mem_of_mem_filter hr)
      have hlength := (Table.perm_cons_erase hfind).length_eq
      rw [List.length_cons] at hlength
      apply ih hmoved
      simp only
      omega

theorem Window.hand [StoreLayout] {s : Session} {v : Visit} {done rest : List Int} (n : Nat)
    (h : Window s false v done rest) (hn : s.receivedChunks.rows.length ≤ n) :
    Gapped (Session.hand (Replica.sizeOf s.current) n s) false := by
  induction n generalizing s v done rest with
  | zero =>
    have hrows : s.receivedChunks.rows = [] := List.eq_nil_of_length_eq_zero (Nat.le_zero.mp hn)
    refine Or.inr ⟨v, done, rest, h, ?_⟩
    simp [Session.hand, held, Table.keys, hrows]
  | succ n ih =>
    rw [Session.hand]
    cases hfind : s.receivedChunks.find? s.offset with
    | none => exact Or.inr ⟨v, done, rest, h, (Table.find?_eq_none_iff _ _).mp hfind⟩
    | some chunk =>
      have hheld : s.offset ∈ held s false := (Table.mem_keys_iff _ _).mpr ⟨chunk, hfind⟩
      have hanswer := (h.received _ ((Table.mem_rows_iff _ _ _).mpr hfind)).2
      have hjustified : Justified s.log (.handed s.current s.offset chunk) := ⟨v, h.moves hheld, hanswer⟩
      dsimp only
      split
      · rename_i heq
        obtain ⟨w, rfl⟩ := call_store heq
        obtain ⟨later, -, hmoved⟩ := h.move (o := .handed s.current s.offset chunk) hheld hjustified rfl rfl
          ⟨w, s.receivedChunks.erase s.offset, s.acknowledgedChunks, rfl⟩ (Table.perm_keys_erase hfind)
          (fun r hr => List.mem_of_mem_filter hr) (fun r hr => hr)
        have hlength := (Table.perm_cons_erase hfind).length_eq
        rw [List.length_cons] at hlength
        rw [h.next_eq] at hmoved
        apply ih hmoved
        simp only
        omega
      · rename_i heq
        obtain ⟨w, rfl⟩ := call_store heq
        have hbase : Base { ({ s with receivedChunks := s.receivedChunks.erase s.offset } : Session).note
            (.handed s.current s.offset chunk) with store := w } :=
          ⟨Linked.concat_iff.mpr ⟨h.linked, hjustified⟩, h.generations, h.drawn, h.configured, h.window⟩
        refine Or.inl ⟨hbase.finish (fun u hu hpush => ?_) h.active, ?_⟩
        · rw [Session.note, visit_concat, h.told] at hu
          cases hu
          rw [h.way] at hpush
          cases hpush
        · exact active_finish _

/-- With no request left the window is used up, and its task goes on. -/
theorem Gapped.inv {s : Session} {push : Bool} (h : Gapped s push) {t : Task}
    (ht : t = if push then .pushChunk else .pullChunk) :
    Inv (if s.active ∧ s.pendingChunks = 0 then s.schedule t else s) := by
  cases h with
  | inl hclosed =>
    rw [if_neg (by simp [hclosed.2])]
    exact hclosed.1
  | inr hwindow =>
    obtain ⟨v, done, rest, hw, hfree⟩ := hwindow
    split
    · rename_i hlast
      have hrequests : s.requests.rows = [] := by
        have hcount := hw.count
        rw [hlast.2] at hcount
        exact List.eq_nil_of_length_eq_zero (by omega)
      have hperm : (held s push).Perm rest := by
        have := hw.perm
        rwa [waiting, hrequests] at this
      obtain ⟨hrest, hheld⟩ := hw.line.drained hperm hfree
      have hempty : s.receivedChunks.rows = [] ∧ s.acknowledgedChunks.rows = [] := by
        constructor
        · apply List.eq_nil_iff_forall_not_mem.mpr
          intro r hr
          have hpull := (hw.received r hr).1
          subst hpull
          have hmem : r.1 ∈ held s false := List.mem_map_of_mem hr
          rw [hheld] at hmem
          exact List.not_mem_nil hmem
        · apply List.eq_nil_iff_forall_not_mem.mpr
          intro r hr
          have hpush := (hw.acknowledged r hr).1
          subst hpush
          have hmem : r.1 ∈ held s true := List.mem_map_of_mem hr
          rw [hheld] at hmem
          exact List.not_mem_nil hmem
      have hcalm : Calm s :=
        ⟨hw.toBase, hw.active, hw.settled hfree, hrequests, hw.tasks, hempty.1, hempty.2⟩
      have htimely : Timely s := by
        obtain ⟨hsome, e, hfirst, hmoves⟩ := hw.slice
        refine Or.inr ⟨hsome, e, hfirst, ?_⟩
        cases hmoves with
        | inl hmoved => exact hmoved
        | inr hcurrent => exact absurd hrest hcurrent.2
      have hstands : Stands s push := by
        refine ⟨v, hw.told, hw.way, hw.whose, hw.place, ?_, hw.bounds.1, hw.bounds.2⟩
        rw [hw.split, hrest, List.append_nil]
        exact hw.ended
      cases push with
      | false => exact hcalm.schedule htimely (fun _ => hstands) (fun hpush => by rw [ht] at hpush; cases hpush)
      | true => exact hcalm.schedule htimely (fun hpull => by rw [ht] at hpull; cases hpull) (fun _ => hstands)
    · exact hw.inv hfree

theorem Window.inv_received [StoreLayout] {s : Session} {v : Visit} {done rest : List Int} (h : Window s false v done rest)
    (hfree : s.offset ∉ held s false) {id : Nat} {q : Purpose} (hq : s.requests.find? id = some q) (a : Answer) :
    Inv (Session.received { s with requests := s.requests.erase id } (Replica.sizeOf s.current) q.position a) := by
  have hfinish : Inv (Session.finish { s with requests := s.requests.erase id }) :=
    (h.toBase.erase id).finish (h.settled hfree) h.active
  obtain ⟨-, -, hnew, -⟩ := h.ahead_of_request hq
  rw [Session.received]
  split
  · exact hfinish
  · rename_i hok
    split
    · rename_i bytes offset hbytes hoffset
      split
      · exact hfinish
      · rename_i hvalid
        obtain ⟨hlength, hplace, hversion⟩ := not_or.mp hvalid |>.imp_right not_or.mp
        have hfits : Fits v q.position a := by
          refine ⟨⟨bytes, hbytes, ?_⟩, ?_, ?_⟩
          · rw [h.whose]
            exact not_not.mp hlength
          · rw [hoffset, not_not.mp hplace]
          · rw [h.whose]
            exact not_not.mp hversion
        have hinsert := Table.rows_insert_of_fresh hnew a
        have haccept := h.accept hq a (not_not.mp hok) (fun _ => hfits)
          ⟨s.receivedChunks.insert q.position a, s.acknowledgedChunks, rfl⟩
          (by rw [held, if_neg (by decide), Table.keys, hinsert, List.map_append]; rfl)
          (fun r hr => by
            rw [hinsert, List.mem_append, List.mem_singleton] at hr
            exact hr.imp_right fun heq => ⟨rfl, heq⟩)
          (fun r hr => Or.inl hr)
        exact (haccept.hand _ (Nat.le_refl _)).inv rfl
    · exact hfinish

theorem Window.inv_acknowledged {s : Session} {v : Visit} {done rest : List Int} (h : Window s true v done rest)
    (hfree : s.offset ∉ held s true) {id : Nat} {q : Purpose} (hq : s.requests.find? id = some q) (a : Answer) :
    Inv (Session.acknowledged { s with requests := s.requests.erase id } q.position
      (after (Replica.sizeOf s.current) q.position) a) := by
  have hfinish : Inv (Session.finish { s with requests := s.requests.erase id }) :=
    (h.toBase.erase id).finish (h.settled hfree) h.active
  obtain ⟨-, -, hnew, -⟩ := h.ahead_of_request hq
  rw [Session.acknowledged]
  split
  · exact hfinish
  · rename_i hok
    split
    · exact hfinish
    · have hinsert := Table.rows_insert_of_fresh hnew (after (Replica.sizeOf s.current) q.position)
      have haccept := h.accept hq a (not_not.mp hok) (fun hpull => nomatch hpull)
        ⟨s.receivedChunks, s.acknowledgedChunks.insert q.position (after (Replica.sizeOf s.current) q.position), rfl⟩
        (by rw [held, if_pos rfl, Table.keys, hinsert, List.map_append]; rfl)
        (fun r hr => Or.inl hr)
        (fun r hr => by
          rw [hinsert, List.mem_append, List.mem_singleton] at hr
          exact hr.imp_right fun heq => ⟨rfl, by rw [heq, h.next_eq]⟩)
      exact (haccept.acknowledge _ (Nat.le_refl _)).inv rfl

/-! ## Every step -/

theorem Inv.update {s : Session} (h : Inv s) (store : World) : Inv { s with store } := by
  have hbase : Base { s with store } := ⟨h.linked, h.generations, h.drawn, h.configured, h.window⟩
  refine ⟨hbase, h.settled, ?_⟩
  cases h.mode with
  | closed hactive hrequests hreceived hacknowledged hscheduled =>
    exact .closed hactive hrequests hreceived hacknowledged hscheduled
  | asking p hactive hrequests hquiet htasks hreceived hacknowledged htimely =>
    exact .asking p hactive hrequests hquiet htasks hreceived hacknowledged htimely
  | ready t hactive hrequests htasks hreceived hacknowledged htimely hpull hpush =>
    exact .ready t hactive hrequests htasks hreceived hacknowledged htimely hpull hpush
  | window push v done rest hw hfree =>
    exact .window push v done rest { hw with toBase := hbase } hfree

theorem Inv.finish {s : Session} (h : Inv s) : Inv s.finish := by
  by_cases hactive : s.active
  · exact h.toBase.finish h.settled hactive
  · rw [Session.finish, if_pos hactive]
    exact h

theorem Inv.start {s : Session} (h : Inv s) (transferWindow inlineBytes : Int) : Inv (s.start transferWindow inlineBytes) := by
  rw [Session.start]
  split
  · exact h
  · rename_i hactive
    cases h.mode with
    | closed _ hrequests hreceived hacknowledged hscheduled =>
      have hconfigured := h.configured
      have htasks : s.scheduled.filter (fun t => t.1 = s.generation + 1) = [] := by
        apply List.filter_eq_nil_iff.mpr
        intro t ht
        have := hscheduled t ht
        simp only [decide_eq_true_eq]
        omega
      have hcalm : Calm (({ s with
          active := true, generation := s.generation + 1, entries := [], transferSlice := none
          transferredInSlice := false, earlyPush := false
          window := min s.configuredWindow (max 1 (min transferWindow 4))
          inlineBytes := max 0 (min inlineBytes Replica.inlineBytes) } : Session).note .started) := by
        refine ⟨⟨Linked.concat_iff.mpr ⟨h.linked, trivial⟩, fun t ht => ?_, h.drawn, hconfigured, ?_⟩, rfl,
          fun v hv _ => ?_, hrequests, ?_, hreceived, hacknowledged⟩
        · exact Nat.le_succ_of_le (h.generations t ht)
        · simp only [Session.note]
          omega
        · rw [Session.note, visit_concat] at hv
          cases hv
        · rw [Synchronizer.tasks, Session.note, htasks, List.map_nil]
      apply hcalm.send _ (show Purpose.plan.quiet from trivial)
      left
      rw [Session.note, slice_concat]
      exact ⟨rfl, rfl⟩
    | asking _ h' => exact absurd h' hactive
    | ready _ h' => exact absurd h' hactive
    | window _ _ _ _ h' => exact absurd h'.active hactive

theorem Inv.setTransferWindow {s : Session} (h : Inv s) (chunks : Int) : Inv (s.setTransferWindow chunks) := by
  rw [Session.setTransferWindow]
  split
  · exact h
  · rename_i hallowed
    have hchunks : 1 ≤ chunks ∧ chunks ≤ 4 := by
      simp only [not_or] at hallowed
      omega
    have hbase : Base { s with configuredWindow := chunks } := ⟨h.linked, h.generations, h.drawn, hchunks, h.window⟩
    refine ⟨hbase, h.settled, ?_⟩
    cases h.mode with
    | closed hactive hrequests hreceived hacknowledged hscheduled =>
      exact .closed hactive hrequests hreceived hacknowledged hscheduled
    | asking _ h' => exact absurd (Or.inl h') hallowed
    | ready _ h' => exact absurd (Or.inl h') hallowed
    | window _ _ _ _ h' => exact absurd (Or.inl h'.active) hallowed

/-- The only request of a session is answered. -/
theorem calm_of_asking {s : Session} (h : Inv s) {p q : Purpose} {id : Nat} (hactive : s.active)
    (hrequests : s.requests.rows.map Prod.snd = [p]) (hq : s.requests.find? id = some q) (htasks : tasks s = [])
    (hreceived : s.receivedChunks.rows = []) (hacknowledged : s.acknowledgedChunks.rows = []) :
    p = q ∧ Calm { s with requests := s.requests.erase id } := by
  have hperm := Table.perm_cons_erase hq
  have hlength := hperm.length_eq
  have hone : s.requests.rows.length = 1 := by rw [← List.length_map (f := Prod.snd), hrequests, List.length_singleton]
  have hmem : q ∈ s.requests.rows.map Prod.snd := List.mem_map.mpr ⟨(id, q), (Table.mem_rows_iff _ _ _).mpr hq, rfl⟩
  rw [hrequests, List.mem_singleton] at hmem
  rw [hone, List.length_cons] at hlength
  have hempty : (s.requests.erase id).rows = [] := List.eq_nil_of_length_eq_zero (by omega)
  exact ⟨hmem.symm, h.toBase.erase id, hactive, h.settled, hempty, htasks, hreceived, hacknowledged⟩

theorem Inv.receive [StoreLayout] {s : Session} (h : Inv s) (id : Nat) (r : Reply) (c : Surroundings) :
    Inv (s.receive id r c) := by
  rw [Session.receive]
  split
  · exact h
  rename_i hactive
  split
  · exact h
  rename_i q hq
  split
  · exact h.finish
  split
  · exact h
  split
  · exact h.finish
  rename_i a _
  cases h.mode with
  | closed hclosed => simp [hclosed] at hactive
  | ready _ _ hrequests =>
    have hmem := (Table.mem_rows_iff _ _ _).mpr hq
    rw [hrequests] at hmem
    exact absurd hmem List.not_mem_nil
  | asking p hactive hrequests hquiet htasks hreceived hacknowledged htimely =>
    obtain ⟨rfl, hcalm⟩ := calm_of_asking h hactive hrequests hq htasks hreceived hacknowledged
    cases p with
    | plan =>
      rw [Session.callback]
      split
      · exact hcalm.finish
      · exact hcalm.planned htimely c
    | begin_ e inlined size => exact hcalm.begun htimely inlined size a c
    | commit e =>
      rw [Session.callback]
      split
      · exact hcalm.finish
      · exact (hcalm.update _ _ _ _ _ _ _ _ _).pushNext htimely
    | read _ _ _ => exact hquiet.elim
    | chunk _ _ _ _ => exact hquiet.elim
  | window push v done rest hw hfree =>
    obtain ⟨hpurpose, -⟩ := hw.ahead_of_request hq
    cases push with
    | false =>
      have hread := hw.inv_received hfree hq a
      rw [hpurpose]
      exact hread
    | true =>
      have hchunk := hw.inv_acknowledged hfree hq a
      rw [hpurpose]
      exact hchunk

/-- A scheduled call is taken off the list. -/
theorem tasks_eraseIdx {s : Session} {k generation : Nat} {t : Task} (hk : s.scheduled[k]? = some (generation, t)) :
    ∃ front back, tasks s = front ++ (if generation = s.generation then [t] else []) ++ back ∧
      tasks { s with scheduled := s.scheduled.eraseIdx k } = front ++ back := by
  obtain ⟨hlt, hget⟩ := List.getElem?_eq_some_iff.mp hk
  have hsplit : s.scheduled = s.scheduled.take k ++ (generation, t) :: s.scheduled.drop (k + 1) := by
    rw [← hget, List.getElem_cons_drop, List.take_append_drop]
  refine ⟨((s.scheduled.take k).filter fun t => t.1 = s.generation).map Prod.snd,
    ((s.scheduled.drop (k + 1)).filter fun t => t.1 = s.generation).map Prod.snd, ?_, ?_⟩
  · rw [tasks]
    conv_lhs => rw [hsplit]
    rw [List.filter_append, List.map_append, List.filter_cons]
    split <;> rename_i hgeneration
    · rw [if_pos (of_decide_eq_true hgeneration)]
      simp
    · rw [if_neg (by simpa using hgeneration)]
      simp
  · rw [tasks, List.eraseIdx_eq_take_drop_succ, List.filter_append, List.map_append]

theorem Inv.fire [StoreLayout] {s : Session} (h : Inv s) (k : Nat) (c : Surroundings) : Inv (s.fire k c) := by
  rw [Session.fire]
  cases hk : s.scheduled[k]? with
  | none => exact h
  | some task =>
    obtain ⟨generation, t⟩ := task
    obtain ⟨front, back, htasks, hrest⟩ := tasks_eraseIdx hk
    have hsub : ∀ r ∈ s.scheduled.eraseIdx k, r ∈ s.scheduled := fun r hr => List.mem_of_mem_eraseIdx hr
    have hbase : Base { s with scheduled := s.scheduled.eraseIdx k } :=
      ⟨h.linked, fun r hr => h.generations r (hsub r hr), h.drawn, h.configured, h.window⟩
    dsimp only
    cases h.mode with
    | closed hactive hrequests hreceived hacknowledged hscheduled =>
      rw [if_pos (Or.inl (by simp [hactive]))]
      exact ⟨hbase, h.settled, .closed hactive hrequests hreceived hacknowledged fun r hr => hscheduled r (hsub r hr)⟩
    | asking p hactive hrequests hquiet hnone hreceived hacknowledged htimely =>
      rw [hnone] at htasks
      have hstale : generation ≠ s.generation := by
        rintro rfl
        simp at htasks
      rw [if_pos (Or.inr hstale)]
      have hempty : tasks { s with scheduled := s.scheduled.eraseIdx k } = [] := by
        rw [hrest]
        simpa [hstale] using htasks.symm
      exact ⟨hbase, h.settled, .asking p hactive hrequests hquiet hempty hreceived hacknowledged htimely⟩
    | window push v done rest hw hfree =>
      rw [hw.tasks] at htasks
      have hstale : generation ≠ s.generation := by
        rintro rfl
        simp at htasks
      rw [if_pos (Or.inr hstale)]
      have hempty : tasks { s with scheduled := s.scheduled.eraseIdx k } = [] := by
        rw [hrest]
        simpa [hstale] using htasks.symm
      exact ⟨hbase, h.settled, .window push v done rest { hw with toBase := hbase, tasks := hempty } hfree⟩
    | ready t' hactive hrequests hone hreceived hacknowledged htimely hpull hpush =>
      rw [hone] at htasks
      by_cases hlive : generation = s.generation
      · rw [if_neg (by simp [hactive, hlive])]
        rw [if_pos hlive] at htasks
        have hfront : front = [] ∧ back = [] ∧ t' = t := by
          have hlength := congrArg List.length htasks
          simp only [List.length_append, List.length_singleton] at hlength
          have hf : front = [] := List.eq_nil_of_length_eq_zero (by omega)
          have hb : back = [] := List.eq_nil_of_length_eq_zero (by omega)
          rw [hf, hb] at htasks
          simpa [hf, hb] using htasks
        obtain ⟨rfl, rfl, rfl⟩ := hfront
        have hcalm : Calm { s with scheduled := s.scheduled.eraseIdx k } :=
          ⟨hbase, hactive, h.settled, hrequests, hrest, hreceived, hacknowledged⟩
        cases t' with
        | pullNext => exact hcalm.pullNext htimely c
        | pullChunk => exact hcalm.pullChunk htimely (hpull rfl) c
        | pushChunk => exact hcalm.pushChunk htimely (hpush rfl) c
      · rw [if_pos (Or.inr hlive)]
        rw [if_neg hlive, List.append_nil] at htasks
        exact ⟨hbase, h.settled,
          .ready t' hactive hrequests (hrest.trans htasks.symm) hreceived hacknowledged htimely hpull hpush⟩

theorem inv_created (peer : Text) (store : World) : Inv (created peer store) where
  linked := Linked.nil
  generations := fun t ht => absurd ht List.not_mem_nil
  drawn := fun id hid => absurd hid List.not_mem_nil
  configured := by simp [created]
  window := by simp [created]
  settled := fun v hv => nomatch hv
  mode := .closed rfl rfl rfl rfl fun t ht => absurd ht List.not_mem_nil

theorem inv_step [StoreLayout] {s : Session} (h : Inv s) (e : Event) : Inv (step s e) := by
  cases e with
  | setTransferWindow chunks => exact h.setTransferWindow chunks
  | start transferWindow inlineBytes => exact h.start transferWindow inlineBytes
  | stop => exact h.finish
  | receive id r c => exact h.receive id r c
  | fire k c => exact h.fire k c
  | elsewhere store => exact h.update store

theorem inv_run [StoreLayout] {s : Session} (h : Inv s) (events : List Event) : Inv (run s events) := by
  induction events generalizing s with
  | nil => exact h
  | cons e events ih => exact ih (inv_step h e)

end SocietyHelper.Sync.Synchronizer
