import SocietyHelper.Library.Text

/-! # The session store of a group

Several instances, each with a queue of its own, share one directory. A key has
an encrypted record and a revocation marker there; a removal commits a new
marker before anything else, without the lock that the other operations take.
Every step here touches the files at most once, so that the steps of different
instances may come in any order.
-/

namespace SocietyHelper.Storage

open Library

/-- What the marker of a key holds. A number stands for the sixteen bytes of a generation, zero for zeros. -/
inductive Marker where
  | absent
  | token (t : Nat)
  | invalid
  deriving DecidableEq

/-- The generation that a marker stands for; an unusable marker stands for none. -/
def Marker.generation : Marker → Option Nat
  | absent => some 0
  | token t => some t
  | invalid => none

/-- A sealed text opens under the key that sealed it; an empty text counts as unopened. -/
structure Box where
  master : Nat
  data : Bytes
  deriving DecidableEq

inductive Record where
  | tombstone
  | sealed (generation : Nat) (box : Box)
  | unsupported
  deriving DecidableEq

inductive Operation where
  | read
  | write
  | remove
  deriving DecidableEq

structure Request where
  operation : Operation
  key : Text
  data : Bytes
  revision : Nat
  generation : Option Nat
  deriving DecidableEq

inductive Outcome where
  | missing
  | unavailable
  | done (data : Bytes)
  deriving DecidableEq

/-- What a request does with the wrapping key it waits for. -/
inductive Purpose where
  | store
  | adopt
  | open_ (box : Box)
  deriving DecidableEq

inductive Probe where
  | record
  | marker
  deriving DecidableEq

/-- Where an instance is in its current request. -/
inductive Phase where
  | idle
  | locking (r : Request)
  | probing (r : Request) (left : List Probe)
  | migrating (r : Request) (left : List Probe)
  | copyingMarker (r : Request)
  | copyingRecord (r : Request)
  | renewing (r : Request)
  | reading (r : Request)
  | fetching (r : Request)
  | keying (r : Request) (purpose : Purpose)
  | storing (r : Request) (master : Nat) (migrating : Bool)
  | saving (r : Request) (master : Nat) (migrating : Bool)
  | forgetting (r : Request) (outcome : Outcome)
  | finishing (r : Request) (outcome : Outcome)
  | completing (r : Request) (outcome : Outcome)

/-- A removal whose marker is committed and whose tombstone is not written yet. -/
structure Removal where
  key : Text
  token : Nat
  revision : Nat
  deriving DecidableEq

structure GroupSessionStore where
  revisions : Text → Nat := fun _ => 0
  observed : Text → Option (Option Nat) := fun _ => none
  pending : List Request := []
  removal : Option Removal := none
  phase : Phase := .idle

/-- What has happened so far: calls of `write`, committed markers and finished requests. -/
inductive Event where
  | issued (store : Nat) (key : Text) (data : Bytes)
  | revoked (key : Text) (token : Nat)
  | finished (store : Nat) (operation : Operation) (key : Text) (outcome : Outcome)
  deriving DecidableEq

/-- The directory, the instances and the history, the latest event first. New tokens are numbered. -/
structure System where
  marker : Text → Marker
  record : Text → Option Record
  lock : Option Nat := none
  stores : Nat → GroupSessionStore := fun _ => {}
  next : Nat
  log : List Event := []

/-- What all instances are built with: the files of the previous directory, and whether there is
an older store to import from. -/
structure Setting where
  previous : Option (Text → Marker × Option Record)
  legacy : Bool

/-- What the system answers to one step. -/
structure Turn where
  fails : Bool := false
  expired : Bool := false
  master : Option Nat := none
  imported : Outcome := .missing

def maximumSocietyStateBytes : Nat := 256 * 1024

namespace System

variable (s : System)

def generation (key : Text) : Option Nat := (s.marker key).generation

def update (i : Nat) (f : GroupSessionStore → GroupSessionStore) : System :=
  { s with stores := Function.update s.stores i (f (s.stores i)) }

def enter (i : Nat) (phase : Phase) : System := s.update i fun store => { store with phase }

def enqueue (i : Nat) (r : Request) : System :=
  s.update i fun store => { store with pending := store.pending ++ [r] }

def note (event : Event) : System := { s with log := event :: s.log }

def saveMarker (key : Text) (t : Nat) : System := { s with marker := Function.update s.marker key (.token t) }

def saveRecord (key : Text) (record : Record) : System :=
  { s with record := Function.update s.record key (some record) }

def observe (i : Nat) (key : Text) (generation : Option Nat) : System :=
  s.update i fun store => { store with observed := Function.update store.observed key (some generation) }

def bump (i : Nat) (key : Text) : System :=
  s.update i fun store => { store with revisions := Function.update store.revisions key (store.revisions key + 1) }

/-- Whether a request is still the latest of its instance and its generation that of the marker. -/
def current (i : Nat) (r : Request) : Bool :=
  r.revision = (s.stores i).revisions r.key && r.generation = s.generation r.key

def present (key : Text) : Probe → Bool
  | .record => (s.record key).isSome
  | .marker => s.marker key ≠ .absent

theorem marker_saveMarker (key other : Text) (t : Nat) :
    (s.saveMarker key t).marker other = if other = key then .token t else s.marker other :=
  Function.update_apply s.marker key (.token t) other

theorem record_saveRecord (key other : Text) (record : Record) :
    (s.saveRecord key record).record other = if other = key then some record else s.record other :=
  Function.update_apply s.record key (some record) other

theorem stores_update (i j : Nat) (f : GroupSessionStore → GroupSessionStore) :
    (s.update i f).stores j = if j = i then f (s.stores i) else s.stores j :=
  Function.update_apply s.stores i (f (s.stores i)) j

end System

namespace GroupSessionStore

/-! ## Calls -/

def read (setting : Setting) (i : Nat) (key : Text) (turn : Turn) (s : System) : System :=
  if setting.previous.isSome ∧ turn.fails then s.note (.finished i .read key .unavailable)
  else
    let generation := s.generation key
    (s.observe i key generation).enqueue i
      ⟨.read, key, [], (s.stores i).revisions key, generation⟩

def write (i : Nat) (key : Text) (data : Bytes) (s : System) : System :=
  let generation := ((s.stores i).observed key).getD (s.generation key)
  (((s.observe i key generation).bump i key).enqueue i
    ⟨.write, key, data, (s.stores i).revisions key + 1, generation⟩).note (.issued i key data)

/-- The marker is committed before anything else. -/
def remove (i : Nat) (key : Text) (turn : Turn) (s : System) : System :=
  if turn.fails then (s.bump i key).note (.finished i .remove key .unavailable)
  else
    let s := (((s.bump i key).saveMarker key s.next).observe i key (some s.next)).update i fun store =>
      { store with removal := some ⟨key, s.next, (s.stores i).revisions key + 1⟩ }
    { s with next := s.next + 1 }.note (.revoked key s.next)

/-! ## The queue -/

def refused (r : Request) : Bool :=
  r.key = [] || 512 < utf16Size r.key || r.generation = none || maximumSocietyStateBytes < r.data.length

/-- Begin with the next request. -/
def next (i : Nat) (turn : Turn) (s : System) : System :=
  match (s.stores i).pending with
  | [] => s
  | r :: pending =>
    let s := s.update i fun store => { store with pending }
    if ¬s.current i r then s.enter i (.finishing r .missing)
    else if refused r ∨ turn.fails then s.enter i (.finishing r .unavailable)
    else s.enter i (.locking r)

/-- What a request does first once it holds the lock. -/
def dispatch (setting : Setting) (r : Request) : Phase :=
  match r.operation with
  | .remove => if setting.legacy then .forgetting r (.done []) else .finishing r (.done [])
  | .write => .keying r .store
  | .read => if setting.previous.isSome then .probing r [.record, .marker] else .reading r

def tryLock (setting : Setting) (i : Nat) (r : Request) (turn : Turn) (s : System) : System :=
  if s.lock = none then { s with lock := some i }.enter i (dispatch setting r)
  else if turn.expired then s.enter i (.finishing r .unavailable)
  else s.update i fun store => { store with pending := r :: store.pending, phase := .idle }

/-! ## Migration from the previous directory -/

def copyMarker (previous : Text → Marker × Option Record) (i : Nat) (r : Request) (turn : Turn) (s : System) : System :=
  match (previous r.key).1 with
  | .absent => s.enter i (.copyingRecord r)
  | .invalid => s.enter i (.finishing r .unavailable)
  | .token t =>
    if turn.fails then s.enter i (.finishing r .unavailable)
    else (s.saveMarker r.key t).enter i (.copyingRecord r)

def copyRecord (previous : Text → Marker × Option Record) (i : Nat) (r : Request) (turn : Turn) (s : System) : System :=
  match (previous r.key).2 with
  | none => s.enter i (.renewing r)
  | some .unsupported => s.enter i (.finishing r .unavailable)
  | some record =>
    if turn.fails then s.enter i (.finishing r .unavailable)
    else (s.saveRecord r.key record).enter i (.renewing r)

/-! ## Reading -/

def readRecord (setting : Setting) (i : Nat) (r : Request) (s : System) : System :=
  match s.record r.key with
  | none =>
    if r.generation ≠ some 0 ∨ ¬setting.legacy then s.enter i (.finishing r .missing)
    else s.enter i (.fetching r)
  | some .tombstone => s.enter i (.finishing r .missing)
  | some .unsupported => s.enter i (.finishing r .unavailable)
  | some (.sealed generation box) =>
    if some generation ≠ r.generation then s.enter i (.finishing r .missing)
    else s.enter i (.keying r (.open_ box))

/-- The wrapping key has arrived. -/
def useKey (i : Nat) (r : Request) (purpose : Purpose) (turn : Turn) (s : System) : System :=
  match turn.master, purpose with
  | none, _ => s.enter i (.finishing r .unavailable)
  | some master, .store => s.enter i (.storing r master false)
  | some master, .adopt => s.enter i (.storing r master true)
  | some master, .open_ box =>
    s.enter i (.finishing r (if master = box.master ∧ box.data ≠ [] then .done box.data else .unavailable))

/-! ## Storing -/

/-- A record is sealed for the generation of its request. -/
def save (setting : Setting) (i : Nat) (r : Request) (master : Nat) (migrating : Bool) (turn : Turn) (s : System) : System :=
  if turn.fails then s.enter i (.finishing r .unavailable)
  else
    let s := s.saveRecord r.key (.sealed (r.generation.getD 0) ⟨master, r.data⟩)
    if migrating ∧ setting.legacy then s.enter i (.forgetting r (.done r.data))
    else s.enter i (.finishing r (.done []))

/-- The lock is free already; a request that has been overtaken answers that nothing is there. -/
def complete (i : Nat) (r : Request) (outcome : Outcome) (s : System) : System :=
  (s.enter i .idle).note (.finished i r.operation r.key (if s.current i r then outcome else .missing))

/-- The next step of what an instance is doing. -/
def advance (setting : Setting) (i : Nat) (turn : Turn) (s : System) : System :=
  match (s.stores i).removal with
  | some removal =>
    let s := if turn.fails then s else s.saveRecord removal.key .tombstone
    (s.update i fun store => { store with removal := none }).enqueue i
      ⟨.remove, removal.key, [], removal.revision, some removal.token⟩
  | none =>
    match (s.stores i).phase with
    | .idle => next i turn s
    | .locking r => tryLock setting i r turn s
    | .probing r [] => s.enter i (.migrating r [.record, .marker])
    | .probing r (probe :: left) =>
      if s.present r.key probe then s.enter i (.reading r) else s.enter i (.probing r left)
    | .migrating r [] => s.enter i (.copyingMarker r)
    | .migrating r (probe :: left) =>
      if s.present r.key probe then s.enter i (.renewing r) else s.enter i (.migrating r left)
    | .copyingMarker r =>
      match setting.previous with
      | some previous => copyMarker previous i r turn s
      | none => s.enter i (.renewing r)
    | .copyingRecord r =>
      match setting.previous with
      | some previous => copyRecord previous i r turn s
      | none => s.enter i (.renewing r)
    | .renewing r =>
      (s.observe i r.key (s.generation r.key)).enter i (.reading { r with generation := s.generation r.key })
    | .reading r => readRecord setting i r s
    | .fetching r =>
      match turn.imported with
      | .done data => s.enter i (.keying { r with data } .adopt)
      | outcome => s.enter i (.finishing r outcome)
    | .keying r purpose => useKey i r purpose turn s
    | .storing r master migrating =>
      if s.current i r then s.enter i (.saving r master migrating) else s.enter i (.finishing r .missing)
    | .saving r master migrating => save setting i r master migrating turn s
    | .forgetting r outcome => s.enter i (.finishing r outcome)
    | .finishing r outcome =>
      { s with lock := if s.lock = some i then none else s.lock }.enter i (.completing r outcome)
    | .completing r outcome => complete i r outcome s

/-- An instance takes calls while it waits. -/
def waiting (store : GroupSessionStore) : Bool :=
  store.removal = none && match store.phase with
    | .idle | .fetching _ | .keying _ _ | .forgetting _ _ => true
    | _ => false

end GroupSessionStore

/-! ## Runs -/

inductive Action where
  | read (i : Nat) (key : Text) (turn : Turn)
  | write (i : Nat) (key : Text) (data : Bytes)
  | remove (i : Nat) (key : Text) (turn : Turn)
  | advance (i : Nat) (turn : Turn)

namespace System

def step (setting : Setting) (s : System) : Action → System
  | .read i key turn => if (s.stores i).waiting then GroupSessionStore.read setting i key turn s else s
  | .write i key data => if (s.stores i).waiting then GroupSessionStore.write i key data s else s
  | .remove i key turn => if (s.stores i).waiting then GroupSessionStore.remove i key turn s else s
  | .advance i turn => GroupSessionStore.advance setting i turn s

def run (setting : Setting) (s : System) (actions : List Action) : System := actions.foldl (step setting) s

end System

end SocietyHelper.Storage
