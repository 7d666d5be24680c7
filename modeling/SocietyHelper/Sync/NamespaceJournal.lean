import SocietyHelper.Library.Paging
import SocietyHelper.Sync.Database

/-! # The namespace journal

The journal of a container: an authority appends one revision for each decision,
a mirror appends the pages its host sends. Both run inside the replica's own
database.
-/

namespace SocietyHelper.Sync

open Library Effect Database

/-- A page of revisions or of entries, as it travels. -/
structure Page (α : Type) where
  ok : Value := .undefined
  space : Value := .undefined
  authority : Value := .undefined
  entries : Option (List α) := none
  through : Value := .undefined
  next : Value := .undefined
  more : Value := .undefined
  container : Value := .undefined
  replica : Value := .undefined
  extra : List (Text × Value) := []

namespace Page

variable {α : Type}

def entryField (item : α → Text) : Option (List α) → List (Text × Text)
  | none => []
  | some es => [(text "entries", Json.array (es.map item))]

def members (item : α → Text) (p : Page α) : List (Text × Text) :=
  Json.field (text "authority") p.authority ++ Json.field (text "container") p.container ++
  entryField item p.entries ++ Json.field (text "more") p.more ++
  Json.field (text "namespace") p.space ++ Json.field (text "next") p.next ++ Json.field (text "ok") p.ok ++
  Json.field (text "replica") p.replica ++ Json.field (text "through") p.through ++
  p.extra.flatMap fun m => Json.field m.1 m.2

def json (item : α → Text) (p : Page α) : Text := Json.object (p.members item)

end Page

structure NamespaceJournal where
  space : Text
  authority : Text
  deriving DecidableEq

structure JournalState where
  space : Text
  authority : Text
  sequence : Text
  head : Text
  deriving DecidableEq

namespace NamespaceJournal

def headSequence (rows : List JournalRow) : Int := (rows.getLast?.map JournalRow.sequence).getD 0

def headRevision (rows : List JournalRow) : Text := (rows.getLast?.map JournalRow.revision).getD []

def latest (rows : List JournalRow) (path : Text) : Option JournalRow :=
  (rows.filter fun r => r.path = path).getLast?

def object (db : Database) (path : Text) : Option Entry :=
  (latest db.revisions.rows path).map fun r => projected r.data

def revision (db : Database) (id : Text) : Option Revision := db.revisions.find id

def state (j : NamespaceJournal) (db : Database) : JournalState where
  space := j.space
  authority := j.authority
  sequence := decimalInt (headSequence db.revisions.rows)
  head := headRevision db.revisions.rows

def clear : Effect Database Unit := do
  statement fun db => some { db with revisions := .empty }
  statement fun db => some { db with locations := .empty }

def rowOf (r : Revision) : JournalRow where
  sequence := counter r.sequence
  revision := r.revision.text
  path := r.object.path.text
  data := r

def append (r : Revision) : Effect Database Unit :=
  statement fun db => (db.revisions.insert (rowOf r)).map fun t => { db with revisions := t }

def locate (version provider : Text) (location : Location) : Effect Database Unit :=
  statement fun db => some { db with locations := db.locations.insert (version, provider) location }

/-- The parents of a new revision: the confirmed one and the stored base of its proposal. -/
def parentsOf (db : Database) (old : Option Entry) (base : Text) : List Value :=
  (match old with
    | some e => [e.revision]
    | none => []) ++
  if base ≠ [] ∧ (old.getD {}).revision ≠ .string base ∧ (revision db base).isSome then [.string base] else []

/-- The revision that a commit adds. -/
def next (j : NamespaceJournal) (db : Database) (record : Entry) (proposal base : Text) : Revision :=
  let bare : Revision :=
    { space := .string j.space, authority := .string j.authority
      sequence := .string (decimalInt (counter (.string (j.state db).sequence) + 1))
      previous := .string (j.state db).head
      parents := some (parentsOf db (object db record.path.text) base)
      object := content record, proposal := .string proposal }
  { bare with revision := .string bare.hash }

def commit [StoreLayout] (j : NamespaceJournal) (record : Entry) (proposal base : Text) : Effect Database Entry := do
  let db ← get
  let old := (object db record.path.text).getD {}
  if old.version = record.version then pure old
  else if maxCounter < counter (.string (j.state db).sequence) + 1 ∨ ¬validRecord record then
    throw (text "invalid_namespace_commit")
  else
    let r := j.next db record proposal base
    append r
    pure (projected r)

/-! ## Pages -/

def select (rows : List JournalRow) (after through : Int) (history : Bool) : List JournalRow :=
  (rows.filter fun r => after < r.sequence ∧ r.sequence ≤ through ∧
    (history ∨ ¬rows.any fun newer => newer.path = r.path ∧ r.sequence < newer.sequence ∧
      newer.sequence ≤ through)).take 128

/-- `value` is what a row contributes: its revision for the history, its entry for the namespace. -/
def changes {α : Type} (j : NamespaceJournal) (value : JournalRow → α) (json : α → Text) (history : Bool)
    (db : Database) (after through : Int) : Except Text (Page α) :=
  let current := headSequence db.revisions.rows
  let through := if through = 0 then current else through
  if after < 0 ∨ through < after ∨ current < through then .error (text "invalid_namespace_cursor")
  else
    let taken := Paging.within (fun r => utf8Size (json (value r))) (256 * 1024)
      (select db.revisions.rows after through history)
    let next := (taken.1.getLast?.map JournalRow.sequence).getD after
    let more := taken.2 || (taken.1.length = 128 && next < through)
    .ok
      { ok := .bool true, space := .string j.space, authority := .string j.authority
        entries := some (taken.1.map value), through := .string (decimalInt through)
        next := .string (decimalInt (if more then next else through)), more := .bool more }

def history (j : NamespaceJournal) : Database → Int → Int → Except Text (Page Revision) :=
  j.changes JournalRow.data Revision.json true

def objects (j : NamespaceJournal) : Database → Int → Int → Except Text (Page Entry) :=
  j.changes (fun r => projected r.data) Entry.json false

/-! ## Accepting a page -/

/-- The checks on a page as a whole, against the sequence the journal ends with. -/
def pageFits (j : NamespaceJournal) (sequence : Int) (page : Page Revision) : Bool :=
  let next := counter page.next
  let through := counter page.through
  page.space = .string j.space && page.authority = .string j.authority && page.entries.isSome && page.ok.toBool &&
  page.more.isBool && sequence ≤ next && next ≤ through &&
  (if page.more.toBool then sequence < next && next < through else next = through) &&
  (page.entries.getD []).length ≤ 128 && utf8Size (page.json Revision.json) ≤ 400000

/-- The checks on one revision, against the sequence and the id before it. -/
def revisionFits [StoreLayout] (j : NamespaceJournal) (sequence : Int) (previous : Text) (r : Revision) : Bool :=
  r.revision.text = r.identity && r.space = .string j.space && r.authority = .string j.authority &&
  counter r.sequence = sequence + 1 && r.previous = .string previous && r.parents.isSome &&
  (r.parents.getD []).length ≤ 2 && validRecord r.object

def parentsStored (db : Database) (r : Revision) : Bool :=
  let parents := r.parents.getD []
  (match object db r.object.path.text with
    | some old => parents.contains old.revision
    | none => true) &&
  parents.all fun p => p.isString && (revision db p.text).isSome

/-- A received revision as it is stored, with its id as a string. -/
def named (r : Revision) : Revision := { r with revision := .string r.revision.text }

/-- Append the revisions of a page one by one; the answer is the sequence reached. -/
def acceptAll [StoreLayout] (j : NamespaceJournal) : List Revision → Int → Text → Effect Database Int
  | [], sequence, _ => pure sequence
  | r :: rs, sequence, previous => do
    if ¬j.revisionFits sequence previous r then throw (text "invalid_namespace_revision")
    else
      let db ← get
      if ¬parentsStored db r then throw (text "namespace_parent_missing")
      else
        append (named r)
        j.acceptAll rs (sequence + 1) r.revision.text

def accept [StoreLayout] (j : NamespaceJournal) (page : Page Revision) : Effect Database Unit := do
  let db ← get
  let sequence := counter (.string (j.state db).sequence)
  if ¬j.pageFits sequence page then throw (text "invalid_namespace_page")
  else
    let reached ← j.acceptAll (page.entries.getD []) sequence (j.state db).head
    if counter page.next ≠ reached then throw (text "namespace_sequence_gap")

def contains (j : NamespaceJournal) (db : Database) (record : Entry) : Bool :=
  match revision db record.revision.text with
  | none => false
  | some r => record.space = .string j.space && record.authority = .string j.authority && projected r = record

end NamespaceJournal

end SocietyHelper.Sync
