import SocietyHelper.Sync.Replica

/-! # What a replica answers from its rows

Pages of revisions and of entries, the pages a mirror accepts, catalog entries
without local bytes, and the cursors that a mirror keeps for its host.
-/

namespace SocietyHelper.Sync

open Library Effect

namespace Replica

/-- Read inside one savepoint. -/
def readSnapshot {α : Type} (read : World → Except Text α) : Effect World α := do
  ready
  onDatabase (Database.statement some)
  let w ← get
  match read w with
  | .ok a => pure a
  | .error e => throw e

/-! ## Revisions -/

def journalPage (after through : Int) : Effect World (Page Revision) :=
  readSnapshot fun w => (journal w).history w.db after through

def acceptJournal [StoreLayout] (peer : Text) (page : Page Revision) : Effect World Unit := do
  ready
  let w ← get
  if peer ≠ host w ∨ peer = [] then throw (text "host_revision_required")
  else if page.entries = some [] then onDatabase ((journal w).accept page)
  else
    lock
    onDatabase (Database.transaction ((journal w).accept page))

/-! ## Entries -/

/-- What a mirror announces of a row: its entry under the row's sequence, with a base. -/
def proposalOf (r : EntryRow) : Entry :=
  let e : Entry := { r.data with sequence := .string (decimalInt r.sequence) }
  if e.baseRevision.defined then e else { e with baseRevision := .string [] }

/-- Walk over rows in the order of their sequences. A confirmed row only moves the cursor;
the walk stops at a proposal that does not fit the page any more. -/
def gather : List EntryRow → Nat → Int → List Entry → List Entry × Int × Bool
  | [], _, next, entries => (entries.reverse, next, false)
  | r :: rows, budget, next, entries =>
    if r.data.revision.defined then gather rows budget r.sequence entries
    else if budget < utf8Size (proposalOf r).json + 1 then (entries.reverse, next, true)
    else gather rows (budget - (utf8Size (proposalOf r).json + 1)) r.sequence (proposalOf r :: entries)

def rowsBetween (db : Database) (after through : Int) : List EntryRow :=
  ((((db.entries.rows.map Prod.snd).filter fun r => after < r.sequence ∧ r.sequence ≤ through).insertionSort
    fun a b => a.sequence ≤ b.sequence).take 128)

def mirrorChanges (w : World) (after through : Int) : Except Text (Page Entry) :=
  let current := metaNumber w.db (text "sequence")
  let through := if through = 0 then current else through
  if after < 0 ∨ through < after ∨ current < through then .error (text "invalid_change_cursor")
  else
    let rows := rowsBetween w.db after through
    let gathered := gather rows (256 * 1024) after []
    let more := gathered.2.2 || (rows.length = 128 && gathered.2.1 < through)
    .ok
      { ok := .bool true, container := .string w.container, replica := .string w.id
        entries := some gathered.1, through := .string (decimalInt through)
        next := .string (decimalInt (if more then gathered.2.1 else through)), more := .bool more }

def changesOf (w : World) (after through : Int) : Except Text (Page Entry) :=
  if isMirror w then mirrorChanges w after through
  else ((journal w).objects w.db after through).map fun page =>
    { page with container := .string w.container, replica := .string w.id }

def changes (after through : Int) : Effect World (Page Entry) := readSnapshot fun w => changesOf w after through

/-! ## Metadata without bytes -/

/-- Whether the bytes that an entry names are at its path. -/
def resident [StoreLayout] (path : Text) : Effect World Bool := do
  let w ← get
  let e := (entry w.db path).getD {}
  if ¬e.isKind file ∨ stampOf w.db path = .remote then pure false
  else
    let st ← onVolume (orElse { kind := [] } (ConfinedFiles.state (physical path)))
    pure (st.kind = file && st.stamp = stampOf w.db path)

def acceptMetadata [StoreLayout] (peer : Text) (incoming : Entry) : Effect World Unit := do
  lock
  let w ← get
  if ¬validRecord incoming ∨ ¬incoming.isKind file ∨ peer ≠ host w ∨ peer = [] ∨ ¬(journal w).contains w.db incoming then
    throw (text "host_revision_required")
  else
    let path := incoming.path.text
    refresh path
    let w ← get
    let stamp := stampOf w.db path
    let old := (entry w.db path).getD {}
    if (entry w.db path).isSome ∧ ¬old.revision.defined then throw (text "pending_local_change_requires_merge")
    else
      let here ← resident path
      if here ∧ contentEqual old incoming then save incoming stamp
      else if old.isKind directory then throw (text "structural_change_requires_merge")
      else
        if stamp ≠ .remote ∧ old.isKind file then onVolume (ConfinedFiles.remove (physical path))
        save incoming .remote

/-- Bring back the bytes of a confirmed file from a provider; `fetched` is what the provider writes. -/
def restoreObject [StoreLayout] (path : Text) (fetched : Option Bytes) : Effect World Unit := do
  lock
  let w ← get
  let e := (NamespaceJournal.object w.db path).getD {}
  if isMirror w then throw (text "provider_requires_authority")
  else if physical path = [] ∨ ¬e.isKind file then throw (text "provider_restore_would_overwrite_change")
  else
    let st ← onVolume (ConfinedFiles.state (physical path))
    if st.kind ≠ deleted ∨ ((entry w.db path).getD {}).version ≠ e.version then
      throw (text "provider_restore_would_overwrite_change")
    else
      let name ← onVolume ConfinedFiles.draw
      let temporary := transfers ++ [text "provider-" ++ name ++ text ".part"]
      let st ← onError
        (do
          match fetched with
          | none => throw (text "provider_failed")
          | some bytes =>
            onVolume (ConfinedFiles.append temporary 0 bytes)
            lock
            let st ← onVolume (ConfinedFiles.state (physical path))
            if st.kind ≠ deleted then throw (text "provider_restore_would_overwrite_change")
            else
              onVolume (ConfinedFiles.install temporary (physical path))
              onVolume (ConfinedFiles.state (physical path)))
        (onVolume (ConfinedFiles.change fun d => d.unlink temporary))
      save e st.stamp

/-! ## Cursors and receipts -/

def peerState (db : Database) (peer : Text) : Option PeerRow := db.peers.find? peer

def savePeerState (peer replica container : Text) (pulled pushed : Int) : Effect World Unit := do
  ready
  let w ← get
  let before := peerState w.db peer
  if peer = [] ∨ 256 < utf16Size peer ∨ ¬uuid replica ∨ ¬uuid container ∨ pulled < 0 ∨ pushed < 0 then
    throw (text "invalid_peer_state")
  else if before.any fun b => b.replica ≠ replica || b.container ≠ container then
    throw (text "remote_container_changed")
  else if before.any fun b => pulled ≤ b.pulled && pushed ≤ b.pushed then pure ()
  else
    lock
    onDatabase (Database.statement fun db =>
      let row := match db.peers.find? peer with
        | some b => { b with pulled := max b.pulled pulled, pushed := max b.pushed pushed }
        | none => { replica, container, pulled, pushed }
      some { db with peers := db.peers.insert peer row })

def lastSnapshot (db : Database) (peer : Text) : Option Receipt := db.snapshots.find? peer

end Replica

end SocietyHelper.Sync
