import SocietyHelper.Library.Reorder
import SocietyHelper.Sync.Requests

/-! # Moving files in windows

The part of a session that carries files: a list of entries is pulled or pushed
one after the other, each in windows of a few chunks whose answers may come in
any order. When a slice of time is over, the list is dropped between two windows
and made again.
-/

namespace SocietyHelper.Sync

open Library

namespace Synchronizer

/-- What a peer answers to a request, as far as the transfers look at it. -/
structure Answer where
  ok : Bool
  complete : Bool := false
  offset : Value := .undefined
  data : Value := .undefined
  version : Value := .undefined

/-- The reply of the transport: it may tell to ask again later. -/
structure Reply where
  ok : Bool
  pending : Bool := false
  result : Option Answer := none

def chunkBytes : Int := Replica.chunkBytes

/-- What a request is waited for with. `plan` stands for every request that is made between two
lists: cursors, pages of the peer's entries and journal, the announcement and its receipt. -/
inductive Purpose where
  | plan
  | read (entry : Entry) (size position : Int)
  | begin_ (entry : Entry) (inlined : Bool) (size : Int)
  | chunk (entry : Entry) (size position next : Int)
  | commit (entry : Entry)

inductive Task where
  | pullNext
  | pullChunk
  | pushChunk
  deriving DecidableEq

/-- What a session does, in the order in which it happens. -/
inductive Output where
  | started
  | began (push : Bool) (entry : Entry) (offset : Int)
  | opened (entry : Entry) (positions : List Int)
  | answered (position : Int) (a : Answer)
  | handed (entry : Entry) (offset : Int) (a : Answer)
  | advanced (entry : Entry) (offset next : Int)
  | restarted

/-- `log` is read by no function. -/
structure Session where
  peer : Text
  store : World
  active : Bool := false
  generation : Nat := 0
  configuredWindow : Int := 4
  window : Int := 1
  inlineBytes : Int := 0
  drawn : Nat := 0
  requests : Table Nat Purpose := .empty
  scheduled : List (Nat × Task) := []
  pendingChunks : Int := 0
  receivedChunks : Table Int Answer := .empty
  acknowledgedChunks : Table Int Int := .empty
  entries : List Entry := []
  index : Nat := 0
  offset : Int := 0
  current : Entry := {}
  earlyPush : Bool := false
  transferSlice : Option Nat := none
  transferredInSlice : Bool := false
  log : List Output := []

/-- The list that the requests between two lists have come to. -/
inductive Plan where
  | wait (store : World)
  | pull (store : World) (entries : List Entry)
  | push (store : World) (entries : List Entry)
  | finish

/-- What a step reads of the world around it: the clock, what the content policy says of the
current entry, new local objects that go first under it, and the next list. -/
structure Surroundings where
  now : Nat := 0
  bootstrapping : Bool := false
  metadataOnly : Bool := false
  cancelled : Bool := false
  fresh : List Entry := []
  plan : Plan := .finish

def nonnegative (v : Value) : Option Int := (toLongLong v.text).filter fun n => 0 ≤ n

/-- The offset behind the chunk at an offset. -/
def after (size offset : Int) : Int := offset + min chunkBytes (size - offset)

namespace Session

variable (s : Session)

def note (o : Output) : Session := { s with log := s.log ++ [o] }

def finish : Session :=
  if ¬s.active then s
  else
    { s with
      active := false
      earlyPush := false
      generation := s.generation + 1
      requests := .empty
      pendingChunks := 0
      receivedChunks := .empty
      acknowledgedChunks := .empty
      entries := [] }

def send (p : Purpose) : Session :=
  if ¬s.active then s else { s with requests := s.requests.insert s.drawn p, drawn := s.drawn + 1 }

def schedule (t : Task) : Session := { s with scheduled := s.scheduled ++ [(s.generation, t)] }

/-- Ask the local store. -/
def call [StoreLayout] (r : Request) : Option Response × Session :=
  match Replica.handle s.peer r true s.store with
  | .ok a w => (some a, { s with store := w })
  | .error _ w => (none, { s with store := w })

def request (action : String) : Request := { action := text action, entry := some s.current }

/-! ## Slices -/

/-- Between two windows: after a second, and once something was transferred, start again with a
fresh list. The parts stay on disk and the cursors where they are. -/
def refreshBetweenChunks [StoreLayout] (c : Surroundings) : Bool × Session :=
  let since := s.transferSlice.getD c.now
  let s : Session := { s with transferSlice := some since }
  if ¬s.transferredInSlice ∨ c.now - since ≤ 1000 then (false, s)
  else
    let s : Session :=
      { s with transferSlice := none, transferredInSlice := false, entries := [], index := 0, earlyPush := false }
    let s := s.note .restarted
    if c.bootstrapping then (true, s.send .plan)
    else match Replica.scan s.store with
      | .ok _ w => (true, { s with store := w }.send .plan)
      | .error _ w => (true, { s with store := w }.finish)

/-- How many chunks are asked for at once. -/
def windowSize : Int := min s.window ((Replica.sizeOf s.current - s.offset + chunkBytes - 1) / chunkBytes)

def positions : List Int := (List.range s.windowSize.toNat).map fun i : Nat => s.offset + (i : Int) * chunkBytes

/-! ## Pushing -/

/-- Read the chunks of a window and send them. -/
def sendChunks [StoreLayout] (size : Int) : List Int → Session → Session
  | [], s => s
  | position :: rest, s =>
    match s.call { s.request "read" with offset := .string (decimalInt position) } with
    | (some (.read _ data _), s) =>
      match Base64.decode data with
      | some bytes =>
        if (bytes.length : Int) ≠ min chunkBytes (size - position) then s.finish
        else sendChunks size rest (s.send (.chunk s.current size position (position + bytes.length)))
      | none => s.finish
    | (_, s) => s.finish

def pushChunk [StoreLayout] (c : Surroundings) : Session :=
  let size := Replica.sizeOf s.current
  if s.offset = size then s.send (.commit s.current)
  else match s.refreshBetweenChunks c with
    | (true, s) => s
    | (false, s) => sendChunks size s.positions ({ s with pendingChunks := s.windowSize }.note (.opened s.current s.positions))

def pushNext [StoreLayout] : Session :=
  if ¬s.active then s
  else match s.entries[s.index]? with
  | none => { s with earlyPush := false, entries := [] }.send .plan
  | some e =>
    let s : Session := { s with current := e }
    let size := Replica.sizeOf e
    if 0 < s.inlineBytes ∧ e.isKind file ∧ size ≤ s.inlineBytes then
      match s.call { s.request "read" with offset := .string (text "0") } with
      | (some (.read _ data _), s) =>
        match Base64.decode data with
        | some bytes => if (bytes.length : Int) ≠ size then s.finish else s.send (.begin_ e true size)
        | none => s.finish
      | (_, s) => s.finish
    else s.send (.begin_ e false size)

/-- A begin, or a commit with its bytes, is answered. -/
def begun [StoreLayout] (inlined : Bool) (size : Int) (a : Answer) (c : Surroundings) : Session :=
  if ¬a.ok then s.finish
  else if a.complete then
    let s : Session := if inlined ∧ 0 < size then { s with transferredInSlice := true } else s
    pushNext { s with index := s.index + 1 }
  else if inlined then s.finish
  else match nonnegative a.offset with
    | some offset =>
      if ¬s.current.isKind file ∨ Replica.sizeOf s.current < offset then s.finish
      else pushChunk ({ s with offset }.note (.began true s.current offset)) c
    | none => s.finish

/-- Advance over the acknowledgements that have come without a gap. -/
def acknowledge : Nat → Session → Session
  | 0, s => s
  | n + 1, s =>
    match s.acknowledgedChunks.find? s.offset with
    | none => s
    | some next =>
      acknowledge n
        ({ s with
            offset := next
            acknowledgedChunks := s.acknowledgedChunks.erase s.offset
            transferredInSlice := true }.note (.advanced s.current s.offset next))

def acknowledged (position next : Int) (a : Answer) : Session :=
  if ¬a.ok then s.finish
  else if a.offset.text ≠ decimalInt next then s.finish
  else
    let s : Session :=
      { s with
        acknowledgedChunks := s.acknowledgedChunks.insert position next
        pendingChunks := s.pendingChunks - 1 }.note (.answered position a)
    let s := acknowledge s.acknowledgedChunks.rows.length s
    if s.active ∧ s.pendingChunks = 0 then s.schedule .pushChunk else s

/-! ## Pulling -/

def pullChunk [StoreLayout] (c : Surroundings) : Session :=
  if c.cancelled then { s with index := s.index + 1 }.schedule .pullNext
  else
    let size := Replica.sizeOf s.current
    if s.offset = size then
      match s.call (s.request "commit") with
      | (some _, s) => { s with index := s.index + 1 }.schedule .pullNext
      | (none, s) => s.finish
    else match s.refreshBetweenChunks c with
      | (true, s) => s
      | (false, s) =>
        s.positions.foldl (fun t position => t.send (.read s.current size position))
          ({ s with pendingChunks := s.windowSize }.note (.opened s.current s.positions))

def pullNext [StoreLayout] (c : Surroundings) : Session :=
  if ¬s.active then s
  else match s.entries[s.index]? with
  | none => { s with entries := [] }.send .plan
  | some e =>
    let s : Session := { s with current := e }
    if c.metadataOnly then
      match Replica.acceptMetadata s.peer e s.store with
      | .ok _ w => { s with store := w, index := s.index + 1 }.schedule .pullNext
      | .error _ w => { s with store := w }.finish
    else if e.isKind file ∧ c.fresh ≠ [] then pushNext { s with earlyPush := true, entries := c.fresh, index := 0 }
    else match s.call (s.request "begin") with
      | (some (.transfer (.wants offset)), s) =>
        if Replica.sizeOf e < offset then s.finish
        else pullChunk ({ s with offset }.note (.began false e offset)) c
      | (some _, s) => { s with index := s.index + 1 }.schedule .pullNext
      | (none, s) => s.finish

/-- Hand the chunks that have come without a gap to the local store. -/
def hand [StoreLayout] (size : Int) : Nat → Session → Session
  | 0, s => s
  | n + 1, s =>
    match s.receivedChunks.find? s.offset with
    | none => s
    | some chunk =>
      let s : Session :=
        { s with receivedChunks := s.receivedChunks.erase s.offset }.note (.handed s.current s.offset chunk)
      match s.call { s.request "chunk" with offset := .string (decimalInt s.offset), data := chunk.data } with
      | (some _, s) => hand size n { s with offset := after size s.offset, transferredInSlice := true }
      | (none, s) => s.finish

def received [StoreLayout] (size position : Int) (a : Answer) : Session :=
  if ¬a.ok then s.finish
  else match Base64.decode a.data.text, nonnegative a.offset with
    | some bytes, some offset =>
      if (bytes.length : Int) ≠ min chunkBytes (size - position) ∨ offset ≠ position ∨ a.version ≠ s.current.version then
        s.finish
      else
        let s : Session :=
          { s with
            receivedChunks := s.receivedChunks.insert position a
            pendingChunks := s.pendingChunks - 1 }.note (.answered position a)
        let s := hand size s.receivedChunks.rows.length s
        if s.active ∧ s.pendingChunks = 0 then s.schedule .pullChunk else s
    | _, _ => s.finish

/-! ## Steps -/

/-- Begin with the list that the requests between two lists have come to. -/
def planned [StoreLayout] (c : Surroundings) : Session :=
  match c.plan with
  | .wait store => { s with store }.send .plan
  | .pull store entries => pullNext { s with store, entries, index := 0 } c
  | .push store entries => pushNext { s with store, entries, index := 0 }
  | .finish => s.finish

def callback [StoreLayout] (p : Purpose) (a : Answer) (c : Surroundings) : Session :=
  match p with
  | .plan => if ¬a.ok then s.finish else s.planned c
  | .read _ size position => s.received size position a
  | .begin_ _ inlined size => s.begun inlined size a c
  | .chunk _ _ position next => s.acknowledged position next a
  | .commit _ => if ¬a.ok then s.finish else pushNext { s with index := s.index + 1 }

def receive [StoreLayout] (id : Nat) (r : Reply) (c : Surroundings) : Session :=
  if ¬s.active then s
  else match s.requests.find? id with
  | none => s
  | some p =>
    if ¬r.ok then s.finish
    else if r.pending then s
    else match r.result with
      | none => s.finish
      | some a => { s with requests := s.requests.erase id }.callback p a c

def start (transferWindow inlineBytes : Int) : Session :=
  if s.active then s
  else
    { s with
      active := true
      generation := s.generation + 1
      entries := []
      transferSlice := none
      transferredInSlice := false
      earlyPush := false
      window := min s.configuredWindow (max 1 (min transferWindow 4))
      inlineBytes := max 0 (min inlineBytes Replica.inlineBytes) }.note .started |>.send .plan

def setTransferWindow (chunks : Int) : Session :=
  if s.active ∨ chunks < 1 ∨ 4 < chunks then s else { s with configuredWindow := chunks }

/-- A scheduled call runs, if its session still does. -/
def fire [StoreLayout] (k : Nat) (c : Surroundings) : Session :=
  match s.scheduled[k]? with
  | none => s
  | some (generation, t) =>
    let s : Session := { s with scheduled := s.scheduled.eraseIdx k }
    if ¬s.active ∨ generation ≠ s.generation then s
    else match t with
      | .pullNext => s.pullNext c
      | .pullChunk => s.pullChunk c
      | .pushChunk => s.pushChunk c

end Session

inductive Event where
  | setTransferWindow (chunks : Int)
  | start (transferWindow inlineBytes : Int)
  | stop
  | receive (id : Nat) (r : Reply) (c : Surroundings)
  | fire (k : Nat) (c : Surroundings)
  | elsewhere (store : World)

def step [StoreLayout] (s : Session) : Event → Session
  | .setTransferWindow chunks => s.setTransferWindow chunks
  | .start transferWindow inlineBytes => s.start transferWindow inlineBytes
  | .stop => s.finish
  | .receive id r c => s.receive id r c
  | .fire k c => s.fire k c
  | .elsewhere store => { s with store }

def run [StoreLayout] (s : Session) (events : List Event) : Session := events.foldl step s

/-- A session object as it is made. -/
def created (peer : Text) (store : World) : Session := { peer, store }

end Synchronizer

end SocietyHelper.Sync
