import SocietyHelper.Library.Disk
import SocietyHelper.Sync.Database

/-! # Files confined to a container

The operations of the replica on the tree below its container. Each is a few
system calls; any of them may fail, and what was done before it stays done. A
public file is never dropped: it is linked into the recovery directory first.
-/

namespace SocietyHelper.Sync

open Library Effect

structure FileState where
  kind : Text
  stamp : Stamp := .absent
  size : Nat := 0
  deriving DecidableEq

/-- `faults` says of each coming system call whether it fails; a failing write leaves so
many of its bytes behind. Names that must be new are drawn from `uuids`. -/
structure Volume where
  disk : Disk
  uuids : Nat := 0
  faults : List (Option Nat) := []

def control : Text := text ".society-sync"
def transfers : Path := [control, text "transfers"]
def recovery : Path := [control, text "recovery"]
def detached : Path := [control, text "detached"]
def leaseName : Text := text ".iisacc-temporary.lock"

namespace ConfinedFiles

/-- One system call. -/
def attempt (error : Text) : Effect Volume Unit := fun s =>
  match s.faults with
  | some _ :: faults => .error error { s with faults }
  | faults => .ok () { s with faults := faults.tail }

def change (f : Disk → Disk) : Effect Volume Unit := modify fun s => { s with disk := f s.disk }

/-- A call that only looks at the tree. -/
def look {α : Type} (error : Text) (f : Disk → Except Text α) : Effect Volume α := do
  attempt error
  let s ← get
  match f s.disk with
  | .ok a => pure a
  | .error e => throw e

def draw : Effect Volume Text := fun s => .ok (decimal s.uuids) { s with uuids := s.uuids + 1 }

/-! ## Looking -/

def unavailable : Text := text "path_unavailable_or_redirected"

def stateOf (d : Disk) (path : Path) : Except Text FileState :=
  if path = [] then .error (text "invalid_path")
  else match d.walk path.dropLast with
  | .missing => .ok { kind := deleted }
  | .redirected => .error unavailable
  | .directory =>
    match d.node path with
    | none => .ok { kind := deleted }
    | some (.directory i) => .ok { kind := directory, stamp := .seen (d.inode i).token }
    | some (.file i) => .ok { kind := file, stamp := .seen (d.inode i).token, size := (d.inode i).bytes.length }
    | some .special => .error (text "symlink_or_special_file")

def state (path : Path) : Effect Volume FileState := look unavailable fun d => stateOf d path

def list (path : Path) : Effect Volume (List Text) :=
  look unavailable fun d =>
    match d.walk path with
    | .directory => .ok ((d.children path).insertionSort fun a b => Json.keyLe a b)
    | _ => .error unavailable

/-- The bytes of a file that has not changed since it was stamped. -/
def stamped (d : Disk) (path : Path) (expected : Stamp) : Except Text Bytes :=
  match d.walk path.dropLast, d.node path with
  | .directory, some (.file i) =>
    if expected ≠ .absent ∧ expected ≠ .seen (d.inode i).token then .error (text "file_changed")
    else .ok (d.inode i).bytes
  | _, _ => .error (text "not_file")

def read (path : Path) (offset length : Nat) (expected : Stamp) : Effect Volume Bytes :=
  look (text "file_changed") fun d => do
    let bytes ← stamped d path expected
    if bytes.length < offset ∨ 1024 * 1024 < length then throw (text "file_changed_or_invalid_offset")
    else pure ((bytes.drop offset).take length)

def hash (path : Path) (expected : Stamp) : Effect Volume Text :=
  look (text "read_failed") fun d => do
    let bytes ← stamped d path expected
    pure (digest bytes)

/-- Whether a path has no part that another spelling of its name occupies. -/
def exactFrom (d : Disk) (base : Path) : Path → Bool
  | [] => true
  | part :: parts =>
    d.isDirectory base && match d.node (base ++ [part]) with
      | some _ => exactFrom d (base ++ [part]) parts
      | none => true

def exactPath (path : Path) : Effect Volume Unit :=
  look unavailable fun d => if path ≠ [] ∧ exactFrom d [] path then .ok () else .error unavailable

/-! ## Changing -/

def mkdirFrom (base : Path) : Path → Effect Volume Unit
  | [] => pure ()
  | part :: parts => do
    attempt (text "mkdir_failed")
    let s ← get
    match s.disk.node (base ++ [part]) with
    | none =>
      change fun d => d.makeDirectory (base ++ [part])
      attempt unavailable
      mkdirFrom (base ++ [part]) parts
    | some (.directory _) => mkdirFrom (base ++ [part]) parts
    | some _ => throw unavailable

def mkdir (path : Path) : Effect Volume Unit := mkdirFrom [] path

/-- Write at the end of an inode; a failing write may leave a part of the bytes. -/
def pwrite (i : Nat) (bytes : Bytes) : Effect Volume Unit := fun s =>
  if bytes = [] then .ok () s
  else match s.faults with
  | some n :: faults =>
    .error (text "write_failed") { s with disk := s.disk.write i ((s.disk.inode i).bytes ++ bytes.take n), faults }
  | faults => .ok () { s with disk := s.disk.write i ((s.disk.inode i).bytes ++ bytes), faults := faults.tail }

def openFile (path : Path) : Effect Volume Unit := do
  attempt (text "transfer_unavailable")
  let s ← get
  if s.disk.walk path.dropLast ≠ .directory then throw (text "transfer_unavailable")
  else match s.disk.node path with
  | none => change fun d => d.create path
  | some _ => pure ()

/-- Add bytes at the end of a file, or check bytes that it has already. -/
def append (path : Path) (offset : Nat) (bytes : Bytes) : Effect Volume Unit := do
  openFile path
  let s ← get
  match s.disk.node path with
  | some (.file i) =>
    let size := (s.disk.inode i).bytes.length
    if size < offset then throw (text "invalid_offset")
    else if offset < size then
      if size < offset + bytes.length then throw (text "overlapping_chunk")
      else if (((s.disk.inode i).bytes.drop offset).take bytes.length) ≠ bytes then
        throw (text "different_chunk_retry")
      else pure ()
    else
      pwrite i bytes
      attempt (text "flush_failed")
  | _ => throw (text "transfer_unavailable")

/-- Give a file a second name. -/
def preserve (path copy : Path) : Effect Volume Unit := do
  mkdir copy.dropLast
  attempt unavailable
  let s ← get
  if s.disk.walk path.dropLast ≠ .directory then throw unavailable
  else match s.disk.node path with
  | some (.file _) =>
    attempt (text "preserve_failed")
    if (s.disk.node copy).isSome then throw (text "preserve_failed")
    else
      change fun d => d.link path copy
      attempt (text "flush_failed")
  | _ => throw (text "not_file")

def backupNote (path copy : Path) : Bytes :=
  utf8 (Json.object [(text "backup", Json.quote ([ '/' ].intercalate copy)),
    (text "path", Json.quote ([ '/' ].intercalate path))])

/-- Link a public file into the recovery directory. -/
def archive (path : Path) : Effect Volume Unit := do
  let name ← draw
  preserve path (recovery ++ [name])
  append (recovery ++ [name ++ text ".json"]) 0 (backupNote path (recovery ++ [name]))

/-- Move a file over the target; its callers have seen a regular file at the source. -/
def install (source target : Path) : Effect Volume Unit := do
  attempt (text "container_replaced_or_unavailable")
  mkdir target.dropLast
  let s ← get
  if s.disk.walk source.dropLast ≠ .directory then throw unavailable
  else
    match s.disk.node target with
    | some (.file _) => archive target
    | some _ => throw (text "target_is_not_file")
    | none => pure ()
    attempt (text "replace_failed")
    let s ← get
    match s.disk.node source with
    | some (.file _) =>
      change fun d => d.renameFile source target
      attempt (text "flush_failed")
    | _ => throw (text "replace_failed")

/-- Move an entry into private recovery; a move that was done already is done. -/
def detach (path destination : Path) : Effect Volume Unit := do
  mkdir destination.dropLast
  attempt unavailable
  let s ← get
  if s.disk.walk path.dropLast ≠ .directory then throw unavailable
  else match s.disk.node path, s.disk.node destination with
  | none, none => throw (text "recovery_entry_missing")
  | none, some _ => pure ()
  | some _, some _ => throw (text "recovery_destination_occupied")
  | some n, none =>
    attempt (text "recovery_move_failed")
    match n with
    | .file _ => change fun d => d.renameFile path destination
    | _ => change fun d => d.renameDirectory path destination
    attempt (text "flush_failed")

def presentationOf (path : Path) : Path :=
  path.dropLast ++ [text "." ++ path.getLast?.getD [] ++ text ".iisacc-preview"]

def removeOwnedPresentation [layout : StoreLayout] (path : Path) (error : Text) : Effect Volume Unit := do
  attempt error
  let s ← get
  match s.disk.content (presentationOf path) with
  | some bytes =>
    if layout.ownedPresentation bytes then change fun d => d.unlink (presentationOf path)
    else pure ()
  | none => pure ()

def links (d : Disk) (i : Nat) : Nat := (d.nodes.rows.filter fun r => r.2 = .file i).length

/-- The lease of a directory that nobody uses: empty and under one name. -/
def idleLease (d : Disk) (path : Path) : Bool :=
  match d.node path with
  | some (.file i) => (d.inode i).bytes = [] && links d i = 1
  | _ => false

def remove [StoreLayout] (path : Path) : Effect Volume Unit := do
  attempt unavailable
  let s ← get
  match s.disk.walk path.dropLast with
  | .missing => pure ()
  | .redirected => throw unavailable
  | .directory =>
    match s.disk.node path with
    | none => removeOwnedPresentation path (text "stat_failed")
    | some .special => throw (text "symlink_or_special_file")
    | some (.directory _) =>
      if s.disk.children path = [leaseName] then
        attempt (text "directory_in_use")
        if idleLease s.disk (path ++ [leaseName]) then
          let name ← draw
          detach path (detached ++ [text "empty-" ++ name])
        else throw (text "directory_in_use")
      else if s.disk.children path ≠ [] then throw (text "delete_failed_or_directory_not_empty")
      else
        attempt (text "delete_failed_or_directory_not_empty")
        change fun d => d.unlink path
        attempt (text "flush_failed")
    | some (.file _) =>
      if path.head? ≠ some control then archive path else pure ()
      attempt (text "delete_failed_or_directory_not_empty")
      change fun d => d.unlink path
      removeOwnedPresentation path (text "presentation_cleanup_failed")
      attempt (text "flush_failed")

end ConfinedFiles

end SocietyHelper.Sync
