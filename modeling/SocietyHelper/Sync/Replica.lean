import SocietyHelper.Sync.ConfinedFiles
import SocietyHelper.Sync.NamespaceJournal

/-! # The replica of a container

One container with its files, its database and the manifests its peers have
announced. An authority turns what it sees and what it is sent into revisions;
a mirror keeps the revisions of its host and its own proposals apart.
-/

namespace SocietyHelper.Sync

open Library Effect

/-- A manifest that a peer is announcing, in memory only. `sent` is what its digest has read. -/
structure Manifest where
  id : Text
  replica : Text
  snapshot : Snapshot := {}
  members : Table Text Text := .empty
  applied : List Text := []
  diff : Diff := {}
  next : Nat := 0
  total : Nat
  after : Nat
  through : Nat
  sequence : Nat
  complete : Bool := false
  sent : Bytes := []

structure World where
  volume : Volume
  db : Database
  manifests : Table Text Manifest := .empty
  id : Text
  container : Text
  scope : Text
  proposal : Text := []
  proposalBase : Text := []

/-- The answer to a transfer that did not fail: it is done, or bytes are missing from an offset on. -/
inductive Outcome where
  | complete
  | wants (offset : Nat)
  deriving DecidableEq

namespace Replica

def onVolume {α : Type} (m : Effect Volume α) : Effect World α :=
  zoom World.volume (fun w v => { w with volume := v }) m

def onDatabase {α : Type} (m : Effect Database α) : Effect World α :=
  zoom World.db (fun w db => { w with db }) m

theorem onDatabase_of_ok {α : Type} {m : Effect Database α} {w : World} {a : α} {db : Database}
    (h : m w.db = .ok a db) : onDatabase m w = .ok a { w with db } := zoom_of_ok h

theorem onDatabase_of_error {α : Type} {m : Effect Database α} {w : World} {e : Text} {db : Database}
    (h : m w.db = .error e db) : onDatabase m w = .error e { w with db } := zoom_of_error h

def hostKey : Text := text "host"

def host (w : World) : Text := w.db.meta_ hostKey

def isMirror (w : World) : Bool := host w ≠ []

def journal (w : World) : NamespaceJournal where
  space := w.container
  authority := if host w = [] then w.id else w.db.meta_ (text "hostReplica")

def ready : Effect World Unit := onVolume (ConfinedFiles.attempt (text "container_unavailable_or_replaced"))

def lock : Effect World Unit := do
  ready
  onVolume (ConfinedFiles.attempt (text "sync_store_busy"))

theorem ready_cases (w : World) :
    (∃ volume, ready w = .ok () { w with volume }) ∨ ∃ e volume, ready w = .error e { w with volume } := by
  rw [ready, onVolume, zoom]
  cases h : ConfinedFiles.attempt (text "container_unavailable_or_replaced") w.volume with
  | ok u volume => exact Or.inl ⟨volume, rfl⟩
  | error e volume => exact Or.inr ⟨e, volume, rfl⟩

theorem lock_cases (w : World) :
    (∃ volume, lock w = .ok () { w with volume }) ∨ ∃ e volume, lock w = .error e { w with volume } := by
  rcases ready_cases w with ⟨volume, hready⟩ | ⟨e, volume, hready⟩
  · rw [lock, bind_of_ok hready, onVolume, zoom]
    cases h : ConfinedFiles.attempt (text "sync_store_busy") volume with
    | ok u volume => exact Or.inl ⟨volume, rfl⟩
    | error e volume => exact Or.inr ⟨e, volume, rfl⟩
  · rw [lock, bind_of_error hready]
    exact Or.inr ⟨e, volume, rfl⟩

/-! ## Entries -/

/-- The entry of a path under the sequence of its row. -/
def entry (db : Database) (path : Text) : Option Entry :=
  (db.entries.find? path).map fun r => { r.data with sequence := .string (decimalInt r.sequence) }

def stampOf (db : Database) (path : Text) : Stamp := ((db.entries.find? path).map EntryRow.stamp).getD .absent

def metaNumber (db : Database) (key : Text) : Int := (toLongLong (db.meta_ key)).getD 0

/-- The revision an offline edit started from, kept through repeated edits. -/
def baseOf (db : Database) (input previous : Entry) : Text :=
  (if input.baseRevision.defined then input.baseRevision
    else if previous.baseRevision.defined then previous.baseRevision
    else if previous.revision.defined then previous.revision
    else ((NamespaceJournal.object db input.path.text).getD {}).revision).text

/-- The record that `save` stores for an input. -/
def recorded [StoreLayout] (j : NamespaceJournal) (mirror : Bool) (proposal base : Text) (input previous : Entry) :
    Effect Database Entry := do
  let e := versioned input
  if ¬mirror then j.commit e proposal base
  else if input.revision.defined then
    pure { e with
      space := input.space, authority := input.authority, revision := input.revision, sequence := input.sequence }
  else
    let db ← get
    pure { e with baseRevision := .string (baseOf db input previous) }

/-- An unchanged version keeps its sequence, any other is given the next one. -/
def sequenceFor (e previous : Entry) : Effect Database Int := do
  if previous.version ≠ e.version then
    let db ← get
    let sequence := metaNumber db (text "sequence") + 1
    if maxCounter < sequence then throw (text "journal_sequence_limit")
    else
      Database.setMeta (text "sequence") (decimalInt sequence)
      pure sequence
  else pure ((toLongLong previous.sequence.text).getD 0)

def nativeKey [StoreLayout] (path : Text) : Text := ['/'].intercalate (physical path)

def saveIn [StoreLayout] (j : NamespaceJournal) (mirror : Bool) (proposal base : Text) (input : Entry)
    (stamp : Stamp) : Effect Database Unit :=
  Database.transaction do
    let db ← get
    let previous := (entry db input.path.text).getD {}
    let e ← recorded j mirror proposal base input previous
    let sequence ← sequenceFor e previous
    Database.statement fun db => some { db with entries := db.entries.insert e.path.text ⟨e, stamp, sequence⟩ }
    if stamp ≠ .remote ∧ e.isKind file ∧ e.revision.defined then
      NamespaceJournal.locate e.version.text (text "local") { kind := text "local", key := nativeKey e.path.text }

def save [StoreLayout] (input : Entry) (stamp : Stamp) : Effect World Unit := do
  let w ← get
  onDatabase (saveIn (journal w) (isMirror w) w.proposal w.proposalBase input stamp)

/-! ## Looking at the disk -/

/-- Record what is found at a path; an unknown digest is computed. -/
def observed [StoreLayout] (path : Text) (st : FileState) (verified : Text) : Effect World Unit := do
  let w ← get
  let old := (entry w.db path).getD {}
  let oldStamp := stampOf w.db path
  -- A catalog entry without a local payload is not a user deletion.
  if oldStamp = .remote ∧ st.kind = deleted then pure ()
  else if entry w.db path = none ∧ st.kind = deleted then pure ()
  else if old.kind.text = st.kind ∧ oldStamp = st.stamp then pure ()
  else
    let hash ←
      if st.kind = file then
        if verified = [] then onVolume (ConfinedFiles.hash (physical path) st.stamp) else pure verified
      else pure []
    let seen : Entry :=
      { path := .string path, kind := .string st.kind, size := .string (decimal st.size), hash := .string hash
        clock := some old.clockObject }
    if contentEqual seen old then save old st.stamp
    else
      let clock := old.clockObject
      let counter := max (metaNumber w.db (text "counter")) (clock.counter w.id) + 1
      if maxCounter < counter ∨ (63 < clock.length ∧ w.id ∉ clock.keys) then throw (text "replica_clock_limit")
      else
        onDatabase (Database.setMeta (text "counter") (decimalInt counter))
        save { seen with clock := some (clock.insert w.id (.string (decimalInt counter))) } st.stamp

def refresh [StoreLayout] (path : Text) : Effect World Unit := do
  onVolume (ConfinedFiles.exactPath (physical path))
  let st ← onVolume (ConfinedFiles.state (physical path))
  observed path st []

/-! ## Merging -/

def transfer (peer : Text) (e : Entry) : Path :=
  transfers ++ [digest (utf8 peer ++ utf8 ['\n'] ++ utf8 e.version.text) ++ text ".part"]

def sizeOf (e : Entry) : Int := (toLongLong e.size.text).getD 0

/-- What an incoming record is to the local one: 1 follows it, 0 is it, 2 goes beside it. -/
def relation (mirror proposed absentPayload : Bool) (incoming : Entry) (local_ : Option Entry)
    (confirmed : Option Entry) : Int :=
  let mine := local_.getD {}
  if mirror then if mine.version = incoming.version ∧ ¬absentPayload then 0 else 1
  else if proposed then
    if mine.version = incoming.version then 0
    else if incoming.baseRevision.text = (confirmed.getD {}).revision.text then 1 else 2
  else if local_ = none then 1 else compare incoming.clockObject mine.clockObject

/-- What `merge` has found out before it decides. -/
structure Sight where
  mirror : Bool
  proposed : Bool
  absentPayload : Bool
  relation : Int
  retainDirectory : Bool
  incoming : Entry
  local_ : Option Entry

namespace Sight

variable (s : Sight)

def mine : Entry := s.local_.getD {}

def same : Bool := !s.absentPayload && contentEqual s.incoming s.mine

def pending : Bool := s.mirror && s.local_.isSome && !s.mine.revision.defined

def structural : Bool :=
  (s.incoming.isKind directory && s.mine.isKind file) || (s.incoming.isKind file && s.mine.isKind directory)

def concurrent : Bool := s.relation = 2 || s.retainDirectory || s.pending || s.structural

def outranks : Bool :=
  rank s.mine < rank s.incoming ||
    (rank s.incoming = rank s.mine && !Json.keyLe s.incoming.hash.text s.mine.hash.text)

def incomingWins : Bool :=
  !s.retainDirectory &&
    (s.mirror || s.relation = 1 || s.same || s.incoming.isKind directory || (!s.proposed && s.outranks))

def winner : Entry := if s.incomingWins then s.incoming else s.mine

def loser : Entry := if s.incomingWins then s.mine else s.incoming

def conflict : Bool :=
  s.concurrent && !s.same && s.loser.isKind file && !(s.incomingWins && s.absentPayload)

def bytesNeeded : Bool := s.incoming.isKind file && !s.same && (s.incomingWins || s.conflict)

def clock : Clock :=
  if s.mirror then s.incoming.clockObject else joined s.incoming.clockObject s.mine.clockObject

end Sight

/-- An entry without the members that tie it to a revision. -/
def detachedEntry (e : Entry) : Entry :=
  { e with space := .undefined, authority := .undefined, revision := .undefined, sequence := .undefined }

def conflictCopy (loser : Entry) (clock : Clock) : Entry :=
  { detachedEntry loser with
    path := .string (conflictPath loser), clock := some clock, baseRevision := .string [] }

/-- The first pass of a transfer: how many bytes have arrived. -/
def announcePart (part : Path) (incoming : Entry) : Effect World Outcome := do
  let partial_ ← onVolume (ConfinedFiles.state part)
  if partial_.kind = deleted then onVolume (ConfinedFiles.append part 0 [])
  if sizeOf incoming < partial_.size then throw (text "invalid_partial_transfer")
  else pure (.wants partial_.size)

/-- The bytes that have arrived are those the incoming record names; others are dropped. -/
def verifyPart [StoreLayout] (part : Path) (incoming : Entry) : Effect World Unit := do
  let partial_ ← onVolume (ConfinedFiles.state part)
  if partial_.kind ≠ file ∨ (partial_.size : Int) ≠ sizeOf incoming then throw (text "incomplete_or_corrupt_transfer")
  else
    let hash ← onVolume (ConfinedFiles.hash part partial_.stamp)
    if hash ≠ incoming.hash.text then
      onVolume (ConfinedFiles.remove part)
      throw (text "incomplete_or_corrupt_transfer")

/-- Keep the file that is not chosen beside the path. -/
def keepCopy [StoreLayout] (s : Sight) (part : Path) : Effect World Unit := do
  let copy := conflictCopy s.loser s.clock
  let target := physical copy.path.text
  if target = [] then throw (text "conflict_path_too_long")
  else
    let existing ← onVolume (ConfinedFiles.state target)
    if existing.kind ≠ deleted then
      let hash ← onVolume (orElse [] (ConfinedFiles.hash target existing.stamp))
      if existing.kind ≠ file ∨ hash ≠ s.loser.hash.text then throw (text "conflict_name_collision")
    else if s.incomingWins then onVolume (ConfinedFiles.preserve (physical s.incoming.path.text) target)
    else onVolume (ConfinedFiles.install part target)
    let existing ← onVolume (ConfinedFiles.state target)
    save copy existing.stamp

/-- Give the path the incoming kind and bytes. -/
def materialize [StoreLayout] (s : Sight) (part : Path) : Effect World Unit := do
  let target := physical s.incoming.path.text
  if s.incoming.isKind file then
    if s.mine.isKind directory then onVolume (ConfinedFiles.remove target)
    onVolume (ConfinedFiles.install part target)
  else if s.incoming.isKind directory then
    if s.mine.isKind file then onVolume (ConfinedFiles.remove target)
    onVolume (ConfinedFiles.mkdir target)
  else onVolume (ConfinedFiles.remove target)

/-- Carry out a decision that has its bytes. -/
def settle [StoreLayout] (s : Sight) (part : Path) : Effect World Outcome := do
  if s.bytesNeeded then verifyPart part s.incoming
  if s.conflict then keepCopy s part
  if s.incomingWins ∧ ¬s.same then materialize s part
  let st ← onVolume (ConfinedFiles.state (physical s.incoming.path.text))
  save { s.winner with clock := some s.clock } st.stamp
  pure .complete

/-- A nonempty local directory is not replaced by a file or a deletion; the lease of its
provider is not user content. -/
def retains [StoreLayout] (path : Text) (incoming mine : Entry) : Effect World Bool :=
  if mine.isKind directory ∧ ¬incoming.isKind directory then do
    let children ← onVolume (ConfinedFiles.list (physical path))
    pure (children.any fun name => name ≠ leaseName)
  else pure false

def merge [StoreLayout] (peer : Text) (incoming : Entry) (commit : Bool) : Effect World Outcome := do
  let path := incoming.path.text
  refresh path
  let w ← get
  let mine := (entry w.db path).getD {}
  let stamp := stampOf w.db path
  let mirror := isMirror w
  let proposed := !mirror && incoming.baseRevision.defined
  if mirror ∧ (peer ≠ host w ∨ ¬(journal w).contains w.db incoming) then throw (text "host_revision_required")
  else if mirror ∧ ¬mine.revision.defined ∧ compare mine.clockObject incoming.clockObject = 1 then
    -- A newer working edit stays; only its base advances.
    save { mine with baseRevision := incoming.revision } stamp
    pure .complete
  else
    let absentPayload : Bool := stamp = .remote
    let relation := relation mirror proposed absentPayload incoming (entry w.db path) (NamespaceJournal.object w.db path)
    if relation = 0 ∧ ¬contentEqual incoming mine then throw (text "inconsistent_version_clock")
    else if relation ≤ 0 then
      if mirror then save incoming stamp
      pure .complete
    else
      let clock := if mirror then incoming.clockObject else joined incoming.clockObject mine.clockObject
      if 64 < clock.length then throw (text "replica_clock_limit")
      else
        let retainDirectory ← retains path incoming mine
        let sight : Sight :=
          { mirror, proposed, absentPayload, relation, retainDirectory, incoming, local_ := entry w.db path }
        if mirror ∧ retainDirectory ∧ ¬sight.same then
          -- Children that were never sent keep their directory, as a proposal against this revision.
          save { detachedEntry mine with
            baseRevision := incoming.revision
            clock := some (joined incoming.clockObject mine.clockObject) } stamp
          pure .complete
        else if sight.bytesNeeded ∧ ¬commit then announcePart (transfer peer incoming) incoming
        else settle sight (transfer peer incoming)

/-! ## New containers -/

/-- A new container of an authority. -/
def newAuthority : World where
  volume := { disk := .empty }
  db := {}
  id := text "11111111-1111-4111-8111-111111111111"
  container := text "22222222-2222-4222-8222-222222222222"
  scope := []

/-- A mirror bound to that authority, with nothing received yet. -/
def newMirror : World where
  volume := { disk := .empty }
  db := { metadata := (Table.empty.insert hostKey (text "desk")).insert (text "hostReplica") newAuthority.id }
  id := text "33333333-3333-4333-8333-333333333333"
  container := newAuthority.container
  scope := []

/-- The tree of a container that has been opened. -/
def openedDisk : Disk := ((Disk.empty.makeDirectory [control]).makeDirectory transfers).makeDirectory recovery

def openedAuthority : World := { newAuthority with volume := { disk := openedDisk } }

end Replica

end SocietyHelper.Sync
