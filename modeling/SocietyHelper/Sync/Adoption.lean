import SocietyHelper.Library.Moves
import SocietyHelper.Sync.Replica

/-! # Adopting the container of a host

A mirror gives up its own drive in favour of its host's. A plan is committed
first: which top-level entries of the sections go where in the recovery
directory. Then the entries are moved, the drive takes over the identity of the
host's container, and a second commit drops what was known of the old drive. An
interrupted adoption is resumed when the container is opened.
-/

namespace SocietyHelper.Sync

open Library Effect

/-- What the libraries of the container decide about its drive, and how they read identities.
`adopt` is told whether the system fails it; it answers whether the identity was adopted. -/
class DriveLayer where
  identifier : Disk → Text
  logicalDisk : Disk → Bool
  adopt : Option Nat → Disk → Text → Text → Disk × Bool
  nullUuid : Text → Bool
  bareUuid : Text → Text

def driveManifest : Path := [text ".society-drive.json"]

/-- The identity of a drive is read from its manifest; adopting one rewrites the manifest and nothing else. -/
structure LawfulDrive (drive : DriveLayer) : Prop where
  reads : ∀ d e, e.node driveManifest = d.node driveManifest → e.content driveManifest = d.content driveManifest →
    drive.identifier e = drive.identifier d
  adopted : ∀ fault d source target, (drive.adopt fault d source target).2 →
    ((drive.adopt fault d source target).1.node driveManifest).isSome ∧
      drive.identifier (drive.adopt fault d source target).1 = target
  others : ∀ fault d source target, Disk.Stays (· = driveManifest) d (drive.adopt fault d source target).1

namespace ConfinedFiles

/-- An atomic save; a failing one leaves the tree as it was. -/
def saveFile (path : Path) (bytes : Bytes) : Effect Volume Unit := do
  attempt (text "mirror_binding_write_failed")
  let s ← get
  if s.disk.walk path.dropLast ≠ .directory then throw (text "mirror_binding_write_failed")
  else match s.disk.node path with
  | some (.directory _) => throw (text "mirror_binding_write_failed")
  | some .special => throw (text "mirror_binding_write_failed")
  | _ => change fun d => d.place path bytes

/-- Move a planned entry; only the recovery directory receives entries. -/
def detachPlanned (path destination : Path) : Effect Volume Unit :=
  if detached <+: destination then detach path destination else throw (text "invalid_recovery_path")

def adoptIdentity [drive : DriveLayer] (source target : Text) : Effect Volume Unit := fun s =>
  let adopted := drive.adopt (s.faults.headD none) s.disk source target
  if adopted.2 then .ok () { s with disk := adopted.1, faults := s.faults.tail }
  else .error (text "drive error") { s with disk := adopted.1, faults := s.faults.tail }

end ConfinedFiles

namespace Replica

/-! ## The binding -/

def adoptionKey : Text := text "adoption"
def targetKey : Text := text "target"
def containerKey : Text := text "container"
def replicaKey : Text := text "replica"
def hostReplicaKey : Text := text "hostReplica"
def detachedKey : Text := text "detached"
def bootstrapKey : Text := text "bootstrapComplete"
def detachingState : Text := text "detaching"
def pullingState : Text := text "pulling"

def detaching (db : Database) : Bool := db.meta_ adoptionKey = detachingState

def bindingFile : Path := [control, text "mirror.json"]

/-- The document that tells the container's other programs which host it mirrors. -/
def binding (db : Database) : Text :=
  Json.object [(text "schema", text "1"), (text "host", Json.quote (db.meta_ hostKey)),
    (text "replica", Json.quote (db.meta_ hostReplicaKey)), (text "container", Json.quote (db.meta_ targetKey)),
    (text "scope", Json.quote (db.meta_ (text "scope"))),
    (text "complete", Json.value (.bool (db.meta_ bootstrapKey = text "1"))),
    (text "recovery", Json.quote (db.meta_ detachedKey))]

/-- Whether the binding file says already what it is to say. -/
def bindingCurrent (bytes : Bytes) : Effect World Bool := do
  let st ← onVolume (ConfinedFiles.state bindingFile)
  if st.kind = file ∧ st.size = bytes.length then
    let existing ← onVolume (ConfinedFiles.read bindingFile 0 bytes.length st.stamp)
    pure (existing = bytes)
  else pure false

def writeBinding : Effect World Unit := do
  let w ← get
  if host w = [] then pure ()
  else
    let bytes := utf8 (binding w.db)
    let current ← bindingCurrent bytes
    if current then pure () else onVolume (ConfinedFiles.saveFile bindingFile bytes)

/-! ## Resuming -/

/-- The plan in the order of its paths. -/
def planOf (db : Database) : List (NativePath × NativePath) :=
  db.detach.rows.insertionSort fun a b => Json.keyLe (['/'].intercalate a.1) (['/'].intercalate b.1)

/-- Drop what was known of the old drive. -/
def forgetDrive (container replica : Text) : Effect Database Unit := do
  Database.statement fun db => some { db with entries := .empty }
  Database.statement fun db => some { db with peers := .empty }
  Database.statement fun db => some { db with detach := .empty }
  Database.statement fun db => some { db with snapshots := .empty }
  NamespaceJournal.clear
  Database.setMeta containerKey container
  Database.setMeta (text "sequence") (text "0")
  Database.setMeta (text "counter") (text "0")
  Database.setMeta replicaKey replica
  Database.setMeta adoptionKey pullingState

/-- Carry out a committed plan, and commit that it is carried out. -/
def carryOut [drive : DriveLayer] : Effect World Unit := do
  let w ← get
  onVolume (ConfinedFiles.adoptIdentity (w.db.meta_ containerKey) (w.db.meta_ targetKey))
  modify fun w => { w with container := drive.identifier w.volume.disk }
  (planOf w.db).forM fun row => onVolume (ConfinedFiles.detachPlanned row.1 row.2)
  let replica ← onVolume ConfinedFiles.draw
  let w ← get
  onDatabase (relabel (text "adoption_commit_failed") (Database.transaction (forgetDrive w.container replica)))
  modify fun w => { w with id := w.db.meta_ replicaKey }

def resumeAdoption [DriveLayer] : Effect World Unit := do
  let w ← get
  if ¬detaching w.db then writeBinding
  else
    writeBinding
    carryOut
    writeBinding

/-! ## Planning -/

/-- The host that a container is to mirror; `pinned` says that the container is itself the
primary host of its scope. -/
structure HostClaim where
  peer : Text
  replica : Text
  container : Text
  replaceHost : Bool
  pinned : Bool

def planFailed : Text := text "mirror_plan_failed"

def planEntry (path target : NativePath) : Effect Database Unit :=
  Database.statement fun db =>
    if (db.detach.find? path).isSome then none else some { db with detach := db.detach.insert path target }

/-- Plan the entries of one section; the answer counts all entries planned so far. -/
def planNames (recovery : Path) (section_ : Text) : List Text → Nat → Effect World Nat
  | [], count => pure count
  | name :: names, count => do
    if 250000 < count + 1 then throw planFailed
    else
      onDatabase (planEntry [section_, name] (recovery ++ [section_, name]))
      planNames recovery section_ names (count + 1)

def planSections (recovery : Path) : List StoreSection → Nat → Effect World Nat
  | [], count => pure count
  | s :: sections, count => do
    let names ← onVolume (ConfinedFiles.list [s.name])
    let count ← planNames recovery s.name names count
    planSections recovery sections count

/-- The files of a logical disk that never had a host stay where they are. -/
def preservesFiles [drive : DriveLayer] (w : World) : Bool := drive.logicalDisk w.volume.disk && host w = []

def nameHost (claim : HostClaim) (recovery : Path) : Effect Database Unit := do
  Database.setMeta hostKey claim.peer
  Database.setMeta hostReplicaKey claim.replica
  Database.setMeta targetKey claim.container
  Database.setMeta detachedKey (['/'].intercalate recovery)
  Database.setMeta bootstrapKey (text "0")
  Database.setMeta adoptionKey detachingState

def commitPlan [layout : StoreLayout] [DriveLayer] (claim : HostClaim) (recovery : Path) : Effect World Unit := do
  let w ← get
  onDatabase (Database.statement fun db => some { db with detach := .empty })
  if ¬preservesFiles w then
    let _ ← planSections recovery layout.sections 0
  onDatabase (nameHost claim recovery)

/-- The same host with a restored journal: its cursors start from zero again. -/
def resetHost (claim : HostClaim) : Effect Database Unit := do
  Database.statement fun db => some { db with peers := db.peers.erase claim.peer }
  NamespaceJournal.clear
  Database.setMeta hostReplicaKey claim.replica

/-- Bind to a host up to the commit of a plan; the answer says whether there is a new plan. -/
def planHost [StoreLayout] [drive : DriveLayer] (claim : HostClaim) : Effect World Bool := do
  lock
  let w ← get
  if claim.pinned then throw (text "authority_cannot_become_mirror")
  else if claim.peer = [] ∨ 256 < utf16Size claim.peer ∨ drive.nullUuid claim.replica ∨ claim.replica = w.id ∨
      drive.nullUuid claim.container ∨ drive.bareUuid claim.container ≠ claim.container then
    throw (text "invalid_host_identity")
  else if ¬claim.replaceHost ∧ host w ≠ [] ∧ host w ≠ claim.peer then throw (text "different_primary_host")
  else
    resumeAdoption
    let w ← get
    if host w = claim.peer ∧ w.db.meta_ targetKey = claim.container then
      if w.db.meta_ hostReplicaKey ≠ claim.replica then
        onDatabase (relabel (text "host_checkpoint_reset_failed") (Database.transaction (resetHost claim)))
      writeBinding
      pure false
    else
      let name ← onVolume ConfinedFiles.draw
      let recovery := detached ++ [w.container ++ '-' :: name]
      onVolume (ConfinedFiles.mkdir recovery)
      onVolume (ConfinedFiles.preserve driveManifest (recovery ++ [text "manifest.json"]))
      relabel planFailed (rollback (fun w v => { v with db := Database.restore w.db v.db }) (commitPlan claim recovery))
      pure true

def bindHost [StoreLayout] [DriveLayer] (claim : HostClaim) : Effect World Unit := do
  let planned ← planHost claim
  if planned then resumeAdoption else pure ()

/-! ## Opening -/

/-- Open a container whose database exists: nothing of an earlier session is left but the files
and the rows. -/
def reopen [drive : DriveLayer] (scope : Text) : Effect World Unit := do
  modify fun w =>
    { volume := w.volume, db := w.db, id := [], container := drive.identifier w.volume.disk, scope := [] }
  if ¬hex scope then throw (text "invalid_account_scope")
  else
    onVolume (ConfinedFiles.mkdir transfers)
    onVolume (ConfinedFiles.mkdir recovery)
    onVolume (ConfinedFiles.attempt (text "sync_store_busy"))
    onDatabase (Database.statement some)
    let w ← get
    if w.db.meta_ (text "scope") ≠ scope ∨ (w.db.meta_ containerKey ≠ w.container ∧
        ¬(detaching w.db ∧ w.db.meta_ targetKey = w.container)) then
      throw (text "container_account_binding_mismatch")
    else
      modify fun w => { w with scope }
      resumeAdoption
      modify fun w => { w with id := w.db.meta_ replicaKey }
      let w ← get
      if drive.nullUuid w.id then throw (text "invalid_replica_identity") else pure ()

end Replica

end SocietyHelper.Sync
