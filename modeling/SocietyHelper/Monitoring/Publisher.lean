import SocietyHelper.Library.Text

/-! # The monitor of a container

One publisher per container polls its areas and writes the state it finds into a
snapshot file, which any number of readers look at. A restarted publisher goes on
from the snapshot that it can read.
-/

namespace SocietyHelper.Monitoring

open Library

def areas : List (Text × Text) :=
  [(text "files", text "Files"), (text "photos", text "Photos"), (text "asset-library", text "Asset Library"),
    (text "generation-history", text "Generation History"), (text "models", text "Models"),
    (text "thinking-space", text "Thinking Space"), (text "forked", text "Forked"), (text "published", text "Published"),
    (text "deleted", text "Deleted")]

structure Section where
  key : Text
  files : Nat := 0
  directories : Nat := 0
  bytes : Nat := 0
  fingerprint : UInt64 := 0
  lastModified : Int := 0
  available : Bool := false
  complete : Bool := true
  deriving DecidableEq

/-- The instances of publishers are numbered as they are drawn. -/
structure State where
  instanceId : Nat := 0
  revision : Nat := 0
  observedAtMs : ℕ+ := 1
  available : Bool := false
  complete : Bool := true
  daemonRunning : Bool := false
  error : Text := []
  sections : List Section := []
  changedSections : List Text := []
  deriving DecidableEq

structure Options where
  maxDepth : Nat := 64
  maxEntries : Nat := 100000

/-! ## Scanning the areas -/

inductive Kind where
  | file
  | directory
  deriving DecidableEq

/-- What the file tree reports of a file or a directory; times are in nanoseconds. -/
inductive Entry where
  | node (relativePath : Text) (size : Nat) (lastModified : Int) (permissions : Nat) (kind : Kind) (childrenLoaded : Bool)
      (children : List Entry)

def basis : UInt64 := 14695981039346656037

def prime : UInt64 := 1099511628211

def mix : Bytes → UInt64 → UInt64
  | [], fingerprint => (fingerprint ^^^ 0xff) * prime
  | c :: value, fingerprint => mix value ((fingerprint ^^^ c.toUInt64) * prime)

def hash (s : Section) (value : Text) : Section := { s with fingerprint := mix (utf8 value) s.fingerprint }

/-- Add one entry to a section, without its children. -/
def Entry.add (relativePath : Text) (size : Nat) (lastModified : Int) (permissions : Nat) (kind : Kind)
    (childrenLoaded : Bool) (s : Section) : Section :=
  let s := hash (hash (hash (hash s relativePath) (decimal size)) (decimalInt lastModified)) (decimal permissions)
  let s := { s with lastModified := max s.lastModified (lastModified.tdiv 1000000) }
  match kind with
  | .file => { s with files := s.files + 1, bytes := s.bytes + size }
  | .directory =>
    { s with
      directories := if relativePath ≠ ['.'] then s.directories + 1 else s.directories
      complete := s.complete && childrenLoaded }

mutual

/-- The section with an entry and what is below it, and how many entries these are. -/
def summarize : Entry → Section → Section × Nat
  | .node relativePath size lastModified permissions kind childrenLoaded children, s =>
    let (s, count) := summarizeAll children (Entry.add relativePath size lastModified permissions kind childrenLoaded s)
    (s, 1 + count)

def summarizeAll : List Entry → Section → Section × Nat
  | [], s => (s, 0)
  | child :: children, s =>
    let (s, count) := summarize child s
    let (s, rest) := summarizeAll children s
    (s, count + rest)

end

/-- What one poll meets: whether the container is the pinned one before and after the scan, the entry of the
catalog or an error code, the areas, and whether the snapshot can be written. -/
structure Container where
  intact : Bool := true
  catalog : Except Int Entry
  direct : Text → Bool
  snapshot : Text → Nat → Nat → Option Entry
  intactAfter : Bool := true
  written : Bool := true
  now : ℕ+ := 1

structure Survey where
  sections : List Section
  remaining : Nat
  error : Text

/-- The fingerprint of the catalog goes into every section. -/
def Container.catalogFingerprint (c : Container) : UInt64 :=
  match c.catalog with
  | .ok entry => (summarize entry { key := [], fingerprint := basis }).1.fingerprint
  | .error code => (hash { key := [], fingerprint := basis } (decimalInt code)).fingerprint

/-- The section of an area before its files are counted. -/
def Container.blank (c : Container) (area : Text × Text) : Section :=
  { hash { key := area.1, fingerprint := basis } (decimal c.catalogFingerprint.toNat) with available := c.direct area.2 }

def Survey.visit (options : Options) (c : Container) (survey : Survey) (area : Text × Text) : Survey :=
  let s := c.blank area
  if s.available ∧ survey.remaining ≠ 0 then
    match c.snapshot area.2 options.maxDepth survey.remaining with
    | some tree =>
      let (s, used) := summarize tree s
      { survey with sections := survey.sections ++ [s], remaining := survey.remaining - used }
    | none =>
      { survey with
        sections := survey.sections ++ [{ s with complete := false }]
        error := text "An area could not be scanned: " ++ area.1 }
  else { survey with sections := survey.sections ++ [{ s with complete := false }] }

def Container.survey (options : Options) (c : Container) : Survey := areas.foldl (Survey.visit options c) ⟨[], options.maxEntries, []⟩

/-! ## Publishing -/

/-- The keys of the sections that differ from those of an earlier state. -/
def differing (sections earlier : List Section) : List Text :=
  (sections.filter fun s => earlier.find? (·.key = s.key) ≠ some s).map Section.key

structure Publisher where
  current : State := {}
  options : Options := {}
  running : Bool := false
  initial : Bool := true

/-- The publisher's process and the snapshot file, with all snapshots written so far, the latest first. -/
structure System where
  publisher : Publisher := {}
  file : Option State := none
  instances : Nat := 0
  log : List State := []

/-- What a reader accepts: the sections are the areas in their order. -/
def read (file : Option State) : Option State :=
  file.filter fun state => state.instanceId ≠ 0 ∧ state.sections.map Section.key = areas.map Prod.fst

namespace System

def write (s : System) (state : State) : System := { s with file := some state, log := state :: s.log }

/-- The checks of the container and its lock come first; a number is drawn for every start that gets past them. -/
def start (options : Options) (prepared intact : Bool) (s : System) : System :=
  if s.publisher.running ∨ options.maxEntries = 0 ∨ 256 < options.maxDepth ∨ ¬prepared then s
  else
    let s := { s with instances := s.instances + 1 }
    let current : State := { instanceId := s.instances }
    if ¬intact then { s with publisher := { s.publisher with current } }
    else
      let current := match read s.file with
        | some previous => { current with revision := previous.revision }
        | none => current
      { s with publisher := { current := { current with daemonRunning := true }, options, initial := true, running := true } }

/-- The state a poll is going to publish. -/
def next (p : Publisher) (c : Container) : State :=
  let survey := c.survey p.options
  let changedSections := differing survey.sections p.current.sections
  let changed := p.initial || changedSections ≠ [] || p.current.available ≠ true || survey.error ≠ p.current.error
  { p.current with
    sections := survey.sections
    changedSections
    error := survey.error
    available := true
    complete := survey.sections.all Section.complete
    observedAtMs := c.now
    revision := if changed then p.current.revision + 1 else p.current.revision }

def poll (c : Container) (s : System) : System :=
  if ¬s.publisher.running then s
  else if ¬c.intact then
    { s with publisher := { s.publisher with
      current := { s.publisher.current with available := false, daemonRunning := false }, running := false } }
  else if ¬c.intactAfter then { s with publisher := { s.publisher with running := false } }
  else if ¬c.written then s
  else
    let state := next s.publisher c
    { s.write state with publisher := { s.publisher with current := state, initial := false } }

def stop (intact written : Bool) (now : ℕ+) (s : System) : System :=
  if ¬s.publisher.running then s
  else
    let current := { s.publisher.current with daemonRunning := false, observedAtMs := now }
    let s := if intact && written then s.write current else s
    { s with publisher := { s.publisher with current, running := false } }

/-- The process ends without a stop, and another one comes up. -/
def crash (s : System) : System := { s with publisher := {} }

end System

inductive Action where
  | start (options : Options) (prepared intact : Bool)
  | poll (c : Container)
  | stop (intact written : Bool) (now : ℕ+)
  | crash

namespace System

def step (s : System) : Action → System
  | .start options prepared intact => s.start options prepared intact
  | .poll c => s.poll c
  | .stop intact written now => s.stop intact written now
  | .crash => s.crash

def run (s : System) (actions : List Action) : System := actions.foldl step s

end System

end SocietyHelper.Monitoring
