import SocietyHelper.Sync.Mirror

/-! # Object providers

A provider keeps the bytes of a version under a key made of their digest. A
copy to or from it takes time, and the lock of the container is free meanwhile:
other operations and the user go on, and a file may change between two reads.
-/

namespace SocietyHelper.Sync

open Library Effect

structure ObjectIdentity where
  nameSpace : Text
  sha256 : Text
  size : Int

namespace ObjectIdentity

/-- A namespace in the form its UUID is written in, a digest and a size. -/
def valid (o : ObjectIdentity) : Bool :=
  uuid o.nameSpace && o.nameSpace.head? ≠ some '{' && (o.nameSpace.all fun c => !c.isUpper) && hex o.sha256 &&
    0 ≤ o.size

def key (o : ObjectIdentity) : Text :=
  text "objects/" ++ o.nameSpace ++ text "/" ++ o.sha256.take 2 ++ text "/" ++ o.sha256

end ObjectIdentity

/-! ## A verified copy -/

/-- What a turn of the copying loop meets. -/
inductive CopyTurn where
  | cancelled
  | failed
  | read (bytes : Bytes)

/-- How the calls of one copy end. What is read is whatever the source holds at that time. -/
structure Copying where
  refused : Option Text := none
  plain : Bool := true
  size : Int
  opened : Bool := true
  turns : List CopyTurn
  intact : Bool := true
  cancelled : Bool := false
  committed : Bool := true

namespace ObjectIdentity

def copyTurns (o : ObjectIdentity) : List CopyTurn → Bytes → Except Text Bytes
  | [], copied => .ok copied
  | .cancelled :: _, _ => .error (text "provider_cancelled")
  | .failed :: _, _ => .error (text "provider_io_failed")
  | .read bytes :: turns, copied =>
    if bytes = [] ∨ o.size - bytes.length < copied.length then .error (text "provider_io_failed")
    else copyTurns o turns (copied ++ bytes)

/-- The bytes that a copy leaves at its target; a copy that fails leaves the target alone. -/
def verifiedCopy (o : ObjectIdentity) (c : Copying) : Except Text Bytes :=
  if !o.valid || !c.plain || c.size ≠ o.size then .error (text "invalid_provider_object")
  else if !c.opened then .error (text "provider_file_unavailable")
  else
    (o.copyTurns c.turns []).bind fun copied =>
      if !c.intact || (copied.length : Int) ≠ o.size || digest copied ≠ o.sha256 then
        .error (text "provider_hash_mismatch")
      else if c.cancelled then .error (text "provider_cancelled")
      else if c.committed then .ok copied
      else .error (text "provider_commit_failed")

end ObjectIdentity

/-! ## A directory of objects -/

structure DirectoryObjectProvider where
  id : Text
  nas : Bool
  objects : Table Text Bytes := .empty

namespace DirectoryObjectProvider

def validId (id : Text) : Bool :=
  1 ≤ id.length && id.length ≤ 64 &&
    (id.all fun c => c.isAlphanum || c = '_' || c = '-') && id ≠ text "local"

def kind (p : DirectoryObjectProvider) : Text := text (if p.nas then "nas" else "local")

/-- The key of an object, where the directory and those on the way to it are in order. -/
def path (p : DirectoryObjectProvider) (o : ObjectIdentity) (c : Copying) : Except Text Text :=
  if !validId p.id || !o.valid then .error (text "provider_root_unavailable")
  else
    match c.refused with
    | some e => .error e
    | none => .ok o.key

def put (o : ObjectIdentity) (c : Copying) : Effect DirectoryObjectProvider Unit := do
  let p ← get
  match p.path o c with
  | .error e => throw e
  | .ok key =>
    match o.verifiedCopy c with
    | .error e => throw e
    | .ok bytes => set { p with objects := p.objects.insert key bytes }

def get (p : DirectoryObjectProvider) (o : ObjectIdentity) (c : Copying) : Except Text Bytes :=
  (p.path o c).bind fun key =>
    if (p.objects.find? key).isNone then .error (text "invalid_provider_object") else o.verifiedCopy c

end DirectoryObjectProvider

/-! ## Placing and restoring -/

/-- A container and a provider. -/
structure Site where
  world : World
  provider : DirectoryObjectProvider

namespace Site

open Replica

def onWorld {α : Type} (m : Effect World α) : Effect Site α :=
  zoom Site.world (fun s w => { s with world := w }) m

def onProvider {α : Type} (m : Effect DirectoryObjectProvider α) : Effect Site α :=
  zoom Site.provider (fun s p => { s with provider := p }) m

def confirmed (db : Database) (path : Text) : Entry := (NamespaceJournal.object db path).getD {}

def identity (w : World) (e : Entry) : ObjectIdentity := ⟨w.container, e.hash.text, Replica.sizeOf e⟩

/-- The first part, under the lock: the version that the file has now. -/
def chosen [StoreLayout] (path : Text) : Effect World (Entry × ObjectIdentity) := do
  lock
  let w ← get
  if isMirror w then throw (text "provider_requires_authority")
  else if physical path = [] then throw (text "invalid_provider_object")
  else
    relabel (text "invalid_provider_object") (refresh path)
    let w ← get
    let e := confirmed w.db path
    if ¬e.isKind file then throw (text "provider_requires_file")
    else pure (e, identity w e)

/-- A receipt belongs only to the verified version. -/
def receipt (e : Entry) (object : ObjectIdentity) : Effect Site Unit := do
  onWorld lock
  let s ← get
  onWorld (onDatabase (NamespaceJournal.locate e.version.text s.provider.id
    { kind := s.provider.kind, key := object.key }))

/-- `meanwhile` is what becomes of the container while the lock is free. -/
def placeObject [StoreLayout] (path : Text) (c : Copying) (meanwhile : World → World) : Effect Site Unit := do
  let (e, object) ← onWorld (chosen path)
  modify fun s => { s with world := meanwhile s.world }
  onProvider (DirectoryObjectProvider.put object c)
  receipt e object

def temporaryOf (name : Text) : Path := transfers ++ [text "provider-" ++ name ++ text ".part"]

def overwrites : Text := text "provider_restore_would_overwrite_change"

/-- The first part of a restoration: the version that is missing, and a name for its bytes. -/
def missing [StoreLayout] (path : Text) : Effect World (Entry × ObjectIdentity × Path) := do
  lock
  let w ← get
  let e := confirmed w.db path
  if isMirror w then throw (text "provider_requires_authority")
  else if physical path = [] ∨ ¬e.isKind file then throw overwrites
  else
    let st ← relabel overwrites (onVolume (ConfinedFiles.state (physical path)))
    if st.kind ≠ deleted ∨ ((entry w.db path).getD {}).version ≠ e.version then throw overwrites
    else
      let name ← onVolume ConfinedFiles.draw
      onVolume (ConfinedFiles.attempt (text "temporary_area_unavailable"))
      pure (e, identity w e, temporaryOf name)

/-- Nothing is at the path and its entry has the version that is restored. -/
def unchanged [StoreLayout] (path : Text) (e : Entry) : Effect World Unit :=
  relabel overwrites do
    lock
    let st ← onVolume (ConfinedFiles.state (physical path))
    let w ← get
    if st.kind ≠ deleted ∨ ((entry w.db path).getD {}).version ≠ e.version then throw overwrites

def inPlace [StoreLayout] (path : Text) (e : Entry) (temporary : Path) (bytes : Bytes) : Effect World FileState := do
  onVolume (ConfinedFiles.append temporary 0 bytes)
  unchanged path e
  onVolume (ConfinedFiles.install temporary (physical path))
  onVolume (ConfinedFiles.state (physical path))

/-- The second part: put the bytes in place where nothing has changed. -/
def replaced [StoreLayout] (path : Text) (e : Entry) (temporary : Path) (fetched : Except Text Bytes) :
    Effect World FileState :=
  onError
    (match fetched with
      | .error error => throw error
      | .ok bytes => inPlace path e temporary bytes)
    (onVolume (ConfinedFiles.change fun d => d.unlink temporary))

def restoreObject [StoreLayout] (path : Text) (p : DirectoryObjectProvider) (c : Copying) (meanwhile : World → World) :
    Effect World Unit := do
  let (e, object, temporary) ← missing path
  modify meanwhile
  let st ← replaced path e temporary (p.get object c)
  save e st.stamp

end Site

end SocietyHelper.Sync
