import SocietyHelper.Sync.Mirror

/-! # Scanning the container

A scan lists everything below the store sections, records what has changed since
it was last seen, and then records as deleted what the listing did not find.
-/

namespace SocietyHelper.Sync

open Library Effect

namespace Replica

def lowered (name : Text) : Text := name.map Char.toLower

/-- Names of derived and state files, which are never indexed. -/
def indexControlName (name : Text) : Bool :=
  let name := lowered name
  (text ".society-").isPrefixOf name || (text ".iiwebserver-").isPrefixOf name ||
    name = text ".iisacc-temporary.lock" || (text ".iisacc-preview").isSuffixOf name ||
    (text ".iifile-stage-").isPrefixOf name || name = text ".iisacc-file-provider" ||
    (text ".iisacc-lock").isSuffixOf name

/-- The key of a path below a section. -/
def keyOf [layout : StoreLayout] (p : Path) : Option Text :=
  match p with
  | name :: tail =>
    if tail = [] ∨ tail.any indexControlName then none
    else (layout.sections.find? fun s => s.name = name).map fun s => ['/'].intercalate (s.key :: tail)
  | [] => none

/-- The indexed keys of a tree. -/
def found [StoreLayout] (d : Disk) : List Text :=
  (d.nodes.keys.filter fun p => d.walk p.dropLast = .directory).filterMap keyOf

structure Work where
  path : Text
  state : FileState

/-- Directories first, the outer ones before the inner, then small files before large ones. -/
def workLe (a b : Work) : Bool :=
  if a.state.kind ≠ b.state.kind then a.state.kind = directory
  else if a.state.kind = directory ∧ a.path.count '/' ≠ b.path.count '/' then a.path.count '/' < b.path.count '/'
  else if a.state.size ≠ b.state.size then a.state.size < b.state.size
  else Json.keyLe a.path b.path

def workOf [StoreLayout] (d : Disk) : List Text → Except Text (List Work)
  | [] => .ok []
  | path :: paths => do
    if physical path = [] then throw (text "unsupported_or_unavailable_entry")
    let state ← ConfinedFiles.stateOf d (physical path)
    let rest ← workOf d paths
    pure (⟨path, state⟩ :: rest)

/-- Undo what a failed computation has written into the database. -/
def transactional {α : Type} (m : Effect World α) : Effect World α :=
  rollback (fun before after => { after with db := Database.restore before.db after.db }) m

/-- Record one found path, unless its row says the same already. -/
def scanItem [StoreLayout] (item : Work) : Effect World Unit := do
  let w ← get
  let old := (entry w.db item.path).getD {}
  if old.isKind item.state.kind ∧ stampOf w.db item.path = item.state.stamp then pure ()
  else
    let hash ←
      if item.state.kind = file then onVolume (ConfinedFiles.hash (physical item.path) item.state.stamp) else pure []
    lock
    transactional do
      let current ← onVolume (ConfinedFiles.state (physical item.path))
      if current.kind ≠ item.state.kind ∨ current.stamp ≠ item.state.stamp then throw (text "file_changed_during_scan")
      else observed item.path current hash

def scanAbsent [StoreLayout] (path : Text) : Effect World Unit := do
  let current ← onVolume (ConfinedFiles.state (physical path))
  if current.kind = deleted then observed path current []

def scan [StoreLayout] : Effect World Unit := do
  ready
  let work ← onVolume (ConfinedFiles.look ConfinedFiles.unavailable fun d => workOf d (found d))
  (work.insertionSort fun a b => workLe a b).forM scanItem
  let w ← get
  let absent := (w.db.entries.rows.filter fun r =>
    !(work.any fun item => item.path = r.1) && !r.2.data.isKind deleted).map Prod.fst
  if absent = [] then pure ()
  else
    lock
    transactional (absent.forM scanAbsent)

end Replica

end SocietyHelper.Sync
