import SocietyHelper.Library.Base64
import SocietyHelper.Sync.Scan

/-! # Requests

What a replica does for a request of a peer: pages of its journal and of its
entries, manifests of what the peer is about to send, the transfers themselves
and the receipt of a whole snapshot.
-/

namespace SocietyHelper.Sync

open Library Effect

/-! ## Messages -/

namespace Snapshot

def members (s : Snapshot) : List (Text × Text) :=
  Json.field (text "baseRevision") s.baseRevision ++ Json.field (text "baseSequence") s.baseSequence ++
  Json.field (text "capturedAt") s.capturedAt ++ Json.field (text "id") s.id ++
  Json.field (text "schema") s.schema ++ s.extra.flatMap fun m => Json.field m.1 m.2

def json (s : Snapshot) : Text := Json.object s.members

def isEmpty (s : Snapshot) : Bool := s = {}

end Snapshot

/-- The member `snapshot` of a request: a whole snapshot, or the name of one. -/
inductive SnapshotMember where
  | named (v : Value)
  | whole (s : Snapshot)
  deriving DecidableEq

namespace SnapshotMember

def defined : SnapshotMember → Bool
  | named v => v.defined
  | whole _ => true

def toObject : SnapshotMember → Snapshot
  | named _ => {}
  | whole s => s

def toValue : SnapshotMember → Value
  | named v => v
  | whole s => .other s.json

end SnapshotMember

structure Request where
  action : Text := []
  container : Value := .undefined
  manifest : Value := .undefined
  snapshot : SnapshotMember := .named .undefined
  entry : Option Entry := none
  entries : Option (List Entry) := none
  replica : Value := .undefined
  offset : Value := .undefined
  total : Value := .undefined
  after : Value := .undefined
  through : Value := .undefined
  expectedVersion : Value := .undefined
  data : Value := .undefined
  inlineData : Value := .undefined
  path : Value := .undefined
  extra : List (Text × Value) := []

namespace Request

def members (r : Request) : List (Text × Text) :=
  Json.field (text "action") (.string r.action) ++ Json.field (text "after") r.after ++
  Json.field (text "container") r.container ++ Json.field (text "data") r.data ++
  (match r.entries with
    | none => []
    | some es => [(text "entries", Json.array (es.map Entry.json))]) ++
  (match r.entry with
    | none => []
    | some e => [(text "entry", e.json)]) ++
  Json.field (text "expectedVersion") r.expectedVersion ++ Json.field (text "inlineData") r.inlineData ++
  Json.field (text "manifest") r.manifest ++ Json.field (text "offset") r.offset ++
  Json.field (text "path") r.path ++ Json.field (text "replica") r.replica ++
  Json.field (text "snapshot") r.snapshot.toValue ++ Json.field (text "through") r.through ++
  Json.field (text "total") r.total ++ r.extra.flatMap fun m => Json.field m.1 m.2

def json (r : Request) : Text := Json.object r.members

end Request

structure Acknowledgement where
  manifest : Text
  next : Text
  complete : Bool
  snapshot : Option Snapshot := none
  diff : Option Diff := none
  deriving DecidableEq

inductive Response where
  | revisions (page : Page Revision)
  | entries (page : Page Entry)
  | manifest (a : Acknowledgement)
  | receipt (r : Receipt)
  | transfer (o : Outcome)
  | chunk (offset : Text)
  | read (offset data : Text) (version : Value)
  | drive (path : Text) (indexPending : Bool)

namespace Replica

def chunkBytes : Nat := 256 * 1024
def inlineBytes : Nat := 64 * 1024

/-! ## Manifests -/

def validSnapshot (s : Snapshot) : Bool :=
  s.schema = .other (text "1") && uuid s.id.text &&
  (match number s.capturedAt with
    | some captured => captured ≠ 0
    | none => false) &&
  (match number s.baseSequence with
    | some base => if base ≠ 0 then hex s.baseRevision.text else s.baseRevision.text = []
    | none => false) &&
  s.baseRevision.isString && s.extra = []

/-- A member that a manifest entry may have. -/
def plainEntry (e : Entry) : Bool :=
  !e.space.defined && !e.authority.defined && !e.revision.defined && e.extra = []

/-- Where an announced entry stands to the confirmed one of its path. -/
def tally (d : Diff) (e : Entry) (current : Option Entry) : Diff :=
  let now := current.getD {}
  if current.isSome ∧ contentEqual e now then { d with unchanged := d.unchanged + 1 }
  else if e.baseRevision.text ≠ now.revision.text then { d with conflicts := d.conflicts + 1 }
  else if e.isKind deleted then { d with deleted := d.deleted + 1 }
  else if current = none ∨ now.isKind deleted then { d with added := d.added + 1 }
  else { d with updated := d.updated + 1 }

def entryLine (e : Entry) : Bytes := utf8 e.json ++ utf8 ['\n']

/-- One announced entry: in order, of an allowed form and, within a snapshot, the only one of its path. -/
def addEntry [StoreLayout] (db : Database) (m : Manifest) (e : Entry) : Except Text Manifest :=
  match number e.sequence with
  | none => .error (text "invalid_manifest_entry")
  | some sequence =>
    if ¬validRecord e ∨ sequence ≤ m.sequence ∨ m.through < sequence ∨ ¬plainEntry e then
      .error (text "invalid_manifest_entry")
    else
      let m := { m with sent := m.sent ++ entryLine e, sequence }
      if m.snapshot.isEmpty then .ok m
      else if ¬e.baseRevision.defined ∨ e.path.text ∈ m.members.keys then .error (text "invalid_snapshot_entry")
      else
        .ok { m with
          members := m.members.insert e.path.text (digest (utf8 e.json))
          diff := tally m.diff e (NamespaceJournal.object db e.path.text) }

def addEntries [StoreLayout] (db : Database) : Manifest → List Entry → Except Text Manifest
  | m, [] => .ok m
  | m, e :: es =>
    match addEntry db m e with
    | .ok m => addEntries db m es
    | .error error => .error error

/-- The revision a snapshot is based on is in the journal. -/
def baseKnown (db : Database) (s : Snapshot) : Bool :=
  (toLongLong s.baseSequence.text).getD 0 = 0 ||
    (NamespaceJournal.revision db s.baseRevision.text).any fun r => r.sequence = s.baseSequence

/-- The numbers and names on a manifest page. -/
structure PageHeader where
  id : Text
  replica : Text
  snapshot : Snapshot
  offset : Nat
  total : Nat
  after : Nat
  through : Nat

/-- The page is the next one of its manifest. -/
def continues (m : Manifest) (h : PageHeader) : Bool :=
  !m.complete && m.id = h.id && m.replica = h.replica && m.next = h.offset && m.total = h.total &&
    m.after = h.after && m.through = h.through && m.snapshot = h.snapshot

def pageHeader (w : World) (r : Request) : Option PageHeader :=
  match number r.offset, number r.total, number r.after, number r.through with
  | some offset, some total, some after, some through =>
    let entries := r.entries.getD []
    if ¬hex r.manifest.text ∨ ¬uuid r.replica.text ∨ r.replica.text = w.id ∨ through < after ∨ 250000 < total ∨
        total < offset ∨ 128 < entries.length ∨ total - offset < entries.length ∨ r.entries = none ∨
        (entries = [] ∧ total ≠ 0) then none
    else
      some
        { id := r.manifest.text, replica := r.replica.text, snapshot := r.snapshot.toObject
          offset, total, after, through }
  | _, _, _, _ => none

def started (h : PageHeader) : Manifest where
  id := h.id
  replica := h.replica
  snapshot := h.snapshot
  total := h.total
  after := h.after
  through := h.through
  sequence := h.after

def putManifest (peer : Text) (m : Manifest) : Effect World Unit :=
  modify fun w => { w with manifests := w.manifests.insert peer m }

def dropManifest (peer : Text) : Effect World Unit :=
  modify fun w => { w with manifests := w.manifests.erase peer }

/-- A page at offset zero starts the manifest of its peer again. -/
def startManifest (peer : Text) (h : PageHeader) : Effect World Unit := do
  if h.offset = 0 then
    let w ← get
    if ¬h.snapshot.isEmpty ∧ ¬baseKnown w.db h.snapshot then throw (text "snapshot_base_unknown")
    else if peer ∉ w.manifests.keys ∧ 32 ≤ w.manifests.keys.length then throw (text "manifest_capacity")
    else putManifest peer (started h)

def acknowledgement (m : Manifest) : Acknowledgement where
  manifest := m.id
  next := decimal m.next
  complete := m.complete
  snapshot := if m.complete ∧ ¬m.snapshot.isEmpty then some m.snapshot else none
  diff := if m.complete ∧ ¬m.snapshot.isEmpty then some m.diff else none

/-- Count the entries of a page; with the last one the digest must be the announced id. -/
def counted (m : Manifest) (n : Nat) : Except Text Manifest :=
  let m := { m with next := m.next + n }
  if m.next = m.total then
    if sha256 m.sent ≠ m.id then .error (text "manifest_hash_mismatch") else .ok { m with complete := true }
  else .ok m

/-- Read the entries of a page into the manifest that it continues; a wrong page ends the manifest. -/
def readPage [StoreLayout] (peer : Text) (h : PageHeader) (entries : List Entry) : Effect World Acknowledgement := do
  let w ← get
  match w.manifests.find? peer with
  | none => throw (text "manifest_page_out_of_order")
  | some m =>
    if ¬continues m h then throw (text "manifest_page_out_of_order")
    else match addEntries w.db m entries with
    | .error error =>
      dropManifest peer
      throw error
    | .ok m =>
      match counted m entries.length with
      | .error error =>
        dropManifest peer
        throw error
      | .ok m =>
        putManifest peer m
        pure (acknowledgement m)

def manifestPage [StoreLayout] (peer : Text) (r : Request) : Effect World Acknowledgement := do
  ready
  let w ← get
  if r.snapshot.defined ∧ (¬validSnapshot r.snapshot.toObject ∨ isMirror w) then throw (text "invalid_snapshot")
  else match pageHeader w r with
  | none => throw (text "invalid_manifest_page")
  | some h =>
    startManifest peer h
    readPage peer h (r.entries.getD [])

/-! ## Receipts -/

def receiptOf (w : World) (m : Manifest) : Receipt where
  snapshot := m.snapshot
  manifest := m.id
  replica := m.replica
  container := w.container
  after := decimal m.after
  through := decimal m.through
  diff := m.diff
  receivedAt := decimal w.volume.disk.clock

def snapshotComplete (peer : Text) (r : Request) : Effect World Receipt := do
  let w ← get
  let previous := lastSnapshot w.db peer
  match (w.manifests.find? peer).filter fun m =>
    m.complete && !m.snapshot.isEmpty && .string m.id = r.manifest && m.snapshot.id = r.snapshot.toValue with
  | none =>
    match previous.filter fun p => .string p.manifest = r.manifest && p.snapshot.id = r.snapshot.toValue with
    | some p => pure p
    | none => throw (text "manifest_required_before_transfer")
  | some m =>
    if m.applied.length ≠ m.members.keys.length then throw (text "snapshot_transfers_incomplete")
    else match previous.filter fun p => p.snapshot = m.snapshot && p.manifest = m.id with
    | some p => pure p
    | none =>
      relabel (text "snapshot_receipt_write_failed") (onDatabase (Database.statement fun db =>
        some { db with snapshots := db.snapshots.insert peer (receiptOf w m) }))
      pure (receiptOf w m)

/-! ## Transfers -/

def transferActions : List Text := [text "begin", text "chunk", text "commit", text "apply"]

/-- The complete manifest that a request names, if it names one. -/
def namedManifest (w : World) (peer : Text) (r : Request) : Except Text (Option Manifest) :=
  let announced := w.manifests.find? peer
  if r.action ∈ transferActions ∧ (announced.any fun m => !m.snapshot.isEmpty) ∧ ¬r.manifest.defined then
    .error (text "manifest_required_before_transfer")
  else if r.manifest.defined then
    match announced.filter fun m => m.complete && m.id = r.manifest.text with
    | some m => .ok (some m)
    | none => .error (text "manifest_required_before_transfer")
  else .ok none

/-- A transfer under a snapshot manifest sends an entry exactly as it was announced. -/
def pinned (manifest : Option Manifest) (r : Request) (e : Entry) : Except Text Unit :=
  if r.snapshot.defined ∧ ¬(manifest.any fun m => !m.snapshot.isEmpty) then
    .error (text "manifest_required_before_transfer")
  else match manifest with
  | some m =>
    if ¬m.snapshot.isEmpty ∧ (m.snapshot.id ≠ r.snapshot.toValue ∨
        m.members.find? e.path.text ≠ some (digest (utf8 e.json))) then .error (text "snapshot_entry_mismatch")
    else .ok ()
  | none => .ok ()

def expect [StoreLayout] (r : Request) (e : Entry) : Effect World Unit := do
  if r.expectedVersion.defined then
    let changed := text "object_changed_select_again"
    if ¬r.expectedVersion.isString then throw changed
    else
      relabel changed (refresh e.path.text)
      let w ← get
      if ((entry w.db e.path.text).getD {}).version ≠ r.expectedVersion ∨ e.version ≠ r.expectedVersion then
        throw changed

/-- The bytes a commit brings along, checked against its record. -/
def inlinePayload (r : Request) (e : Entry) : Option Bytes :=
  match number e.size, Base64.decode r.inlineData.text with
  | some size, some bytes =>
    if r.inlineData.isString && e.isKind file && size ≤ inlineBytes && bytes.length = size &&
        digest bytes = e.hash.text then some bytes else none
  | _, _ => none

def stageInline [StoreLayout] (part : Path) (bytes : Bytes) : Effect World Unit := do
  let staged ← onVolume (ConfinedFiles.state part)
  if staged.kind ≠ deleted then onVolume (ConfinedFiles.remove part)
  onVolume (ConfinedFiles.append part 0 bytes)

def protectTransfer : Effect World Unit := onVolume (ConfinedFiles.attempt (text "temporary_area_unavailable"))

/-- Merge under the proposal that a request carries; its traces in the replica end with it. -/
def mergeProposal [StoreLayout] (peer : Text) (e : Entry) (commit : Bool) : Effect World Outcome := do
  modify fun w => { w with proposal := e.version.text, proposalBase := e.baseRevision.text }
  andThen (merge peer e commit) (modify fun w => { w with proposal := [], proposalBase := [] })

/-- Note that an announced entry was answered complete. -/
def applied (peer path : Text) : Effect World Unit :=
  modify fun w =>
    match w.manifests.find? peer with
    | some m =>
      let applied := if path ∈ m.applied then m.applied else m.applied ++ [path]
      { w with manifests := w.manifests.insert peer { m with applied } }
    | none => w

def begin_ [StoreLayout] (peer : Text) (manifest : Option Manifest) (r : Request) (e : Entry) :
    Effect World Outcome := do
  if r.action = text "apply" ∧ e.isKind file then throw (text "file_requires_transfer")
  else
    let part := transfer peer e
    let inlineCommit : Bool := r.action = text "commit" ∧ r.inlineData.defined
    if inlineCommit ∧ inlinePayload r e = none then throw (text "invalid_inline_payload")
    else
      if inlineCommit then onVolume (ConfinedFiles.attempt (text "insufficient_storage"))
      if e.isKind file then protectTransfer
      if inlineCommit then stageInline part ((inlinePayload r e).getD [])
      let outcome ← mergeProposal peer e (r.action ≠ text "begin" || inlineCommit)
      if inlineCommit ∧ outcome = .complete then onVolume (ConfinedFiles.remove part)
      if (manifest.any fun m => !m.snapshot.isEmpty) ∧ outcome = .complete then applied peer e.path.text
      pure outcome

def chunk (peer : Text) (r : Request) (e : Entry) : Effect World Text := do
  match number r.offset, Base64.decode r.data.text with
  | some offset, some bytes =>
    if ¬e.isKind file ∨ ¬r.data.isString ∨ chunkBytes < bytes.length ∨ sizeOf e - bytes.length < offset then
      throw (text "invalid_chunk")
    else
      protectTransfer
      let st ← relabel (text "begin_transfer_first") (onVolume (ConfinedFiles.state (transfer peer e)))
      if st.kind ≠ file then throw (text "begin_transfer_first")
      else
        onVolume (ConfinedFiles.attempt (text "insufficient_storage"))
        onVolume (ConfinedFiles.append (transfer peer e) offset bytes)
        pure (decimal (offset + bytes.length))
  | _, _ => throw (text "invalid_chunk")

def readChunk [StoreLayout] (r : Request) (e : Entry) : Effect World Response := do
  refresh e.path.text
  let w ← get
  let current := (entry w.db e.path.text).getD {}
  match number r.offset with
  | some offset =>
    if current.version ≠ e.version ∨ ¬e.isKind file then throw (text "file_changed_or_invalid_offset")
    else
      let bytes ← onVolume (ConfinedFiles.read (physical e.path.text) offset chunkBytes (stampOf w.db e.path.text))
      pure (.read (decimal offset) (Base64.encode bytes) e.version)
  | none => throw (text "file_changed_or_invalid_offset")

def transferRequest [StoreLayout] (peer : Text) (r : Request) : Effect World Response := do
  let w ← get
  match namedManifest w peer r with
  | .error error => throw error
  | .ok manifest =>
    let e := r.entry.getD {}
    if ¬validRecord e then throw (text "invalid_entry")
    else match pinned manifest r e with
    | .error error => throw error
    | .ok _ =>
      expect r e
      if r.action = text "read" then readChunk r e
      else if r.action = text "begin" ∨ r.action = text "commit" ∨ r.action = text "apply" then
        let outcome ← begin_ peer manifest r e
        pure (.transfer outcome)
      else if r.action = text "chunk" then
        let offset ← chunk peer r e
        pure (.chunk offset)
      else throw (text "unsupported_sync_action")

/-! ## The drive -/

/-- Publish a new file whole: its bytes are staged beside it and linked under its name. -/
def publish [StoreLayout] (native : Path) (bytes : Bytes) : Effect World Unit := do
  onVolume (ConfinedFiles.attempt (text "temporary_area_unavailable"))
  let name ← onVolume ConfinedFiles.draw
  let temporary := native.dropLast ++ [text ".society-write-" ++ name]
  andThen
    (relabel (text "drive_write_failed_or_exists") do
      onVolume (ConfinedFiles.append temporary 0 bytes)
      onVolume (ConfinedFiles.preserve temporary native))
    (onVolume (ConfinedFiles.remove temporary))

/-- The path of a key, where the name of a section is the section itself. -/
def nativeOf [layout : StoreLayout] (key : Text) : Path :=
  match layout.sections.find? fun s => s.key = key ∧ '/' ∉ key with
  | some s => [s.name]
  | none => physical key

/-- Create a file or a directory below an existing directory; nothing is replaced. -/
def driveRequest [layout : StoreLayout] (r : Request) : Effect World Response := do
  lock
  let w ← get
  let path := r.path.text
  let native := nativeOf path
  if isMirror w then throw (text "mirror_cannot_be_primary_host")
  else if r.container.text ≠ w.container then throw (text "remote_container_changed")
  else if native = [] ∨ (path.splitOn '/').any layout.controlFile then throw (text "invalid_drive_path")
  else
    let st ← onVolume (ConfinedFiles.state native)
    if r.action ≠ text "drive.write" ∧ r.action ≠ text "drive.mkdir" then throw (text "unsupported_drive_action")
    else if '/' ∉ path ∨ st.kind ≠ deleted then throw (text "drive_entry_exists_or_protected")
    else
      let parent ← relabel (text "not_directory") (onVolume (ConfinedFiles.state native.dropLast))
      if parent.kind ≠ directory then throw (text "not_directory")
      else
        if r.action = text "drive.mkdir" then onVolume (ConfinedFiles.mkdir native)
        else match Base64.decode r.data.text with
          | some bytes =>
            if ¬r.data.isString ∨ chunkBytes < bytes.length then throw (text "invalid_drive_data")
            else publish native bytes
          | none => throw (text "invalid_drive_data")
        let indexed ← orElse false do
          refresh path
          pure true
        pure (.drive path !indexed)

/-! ## The request handler -/

/-- A page of the authority's journal. -/
def journalRequest (r : Request) : Effect World (Page Revision) := do
  let w ← get
  if isMirror w then throw (text "mirror_cannot_be_primary_host")
  else match number r.after, number r.through with
  | some after, some through => journalPage after through
  | _, _ => throw (text "invalid_namespace_cursor")

/-- A page of entries; the first page of a walk scans the container before. -/
def changesRequest [StoreLayout] (r : Request) (refreshIndex : Bool) : Effect World (Page Entry) := do
  match (if r.after.defined then number r.after else some 0), (if r.through.defined then number r.through else some 0) with
  | some after, some through =>
    if refreshIndex ∧ through = 0 then scan
    changes after through
  | _, _ => throw (text "invalid_change_cursor")

def handle [StoreLayout] (peer : Text) (r : Request) (refreshIndex : Bool) : Effect World Response := do
  let w ← get
  if peer = [] ∨ 256 < utf16Size peer ∨ 400000 < utf8Size r.json then throw (text "invalid_peer_or_request")
  else if r.container.defined ∧ r.container.text ≠ w.container then throw (text "remote_container_changed")
  else if (text "drive.").isPrefixOf r.action then driveRequest r
  else if r.action = text "journal" then
    let page ← journalRequest r
    pure (.revisions page)
  else if r.action = text "changes" then
    let page ← changesRequest r refreshIndex
    pure (.entries page)
  else if r.action = text "manifest" then
    let answer ← manifestPage peer r
    pure (.manifest answer)
  else
    lock
    if r.action = text "snapshot.complete" then
      let receipt ← snapshotComplete peer r
      pure (.receipt receipt)
    else transferRequest peer r

end Replica

end SocietyHelper.Sync
