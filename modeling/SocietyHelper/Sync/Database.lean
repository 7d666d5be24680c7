import SocietyHelper.Library.Effect
import SocietyHelper.Library.Table
import SocietyHelper.Sync.Revision

/-! # The replica's database

One SQLite file holds the rows of a container. Reads always answer; a write may
be refused, by a constraint or because the file system refuses it, and a failed
transaction restores every table.
-/

namespace SocietyHelper.Sync

open Library

/-! ## Rows -/

/-- What the entry of a path was last seen as on the disk: nothing, a catalog
entry without local bytes, or the identity and times of a node. -/
inductive Stamp where
  | absent
  | remote
  | seen (token : Nat)
  deriving DecidableEq

structure EntryRow where
  data : Entry
  stamp : Stamp
  sequence : Int
  deriving DecidableEq

structure PeerRow where
  replica : Text
  container : Text
  pulled : Int
  pushed : Int
  deriving DecidableEq

structure Location where
  kind : Text
  key : Text
  deriving DecidableEq

structure Snapshot where
  schema : Value := .undefined
  id : Value := .undefined
  capturedAt : Value := .undefined
  baseSequence : Value := .undefined
  baseRevision : Value := .undefined
  extra : List (Text × Value) := []
  deriving DecidableEq

structure Diff where
  added : Nat := 0
  updated : Nat := 0
  deleted : Nat := 0
  unchanged : Nat := 0
  conflicts : Nat := 0
  deriving DecidableEq

structure Receipt where
  snapshot : Snapshot
  manifest : Text
  replica : Text
  container : Text
  after : Text
  through : Text
  diff : Diff
  receivedAt : Text
  deriving DecidableEq

/-! ## Stored revisions -/

structure JournalRow where
  sequence : Int
  revision : Text
  path : Text
  data : Revision
  deriving DecidableEq

/-- The table of revisions in the order of its primary key; ids are unique. -/
structure Revisions where
  rows : List JournalRow
  ordered : rows.Pairwise fun a b => a.sequence < b.sequence ∧ a.revision ≠ b.revision

namespace Revisions

def empty : Revisions := ⟨[], .nil⟩

def fresh (t : Revisions) (r : JournalRow) : Bool :=
  t.rows.all fun s => s.sequence ≠ r.sequence && s.revision ≠ r.revision

theorem fresh_iff {t : Revisions} {r : JournalRow} :
    t.fresh r ↔ ∀ s ∈ t.rows, s.sequence ≠ r.sequence ∧ s.revision ≠ r.revision := by
  simp [fresh]

theorem revision_ne (t : Revisions) {a b : JournalRow} (ha : a ∈ t.rows) (hb : b ∈ t.rows) (h : a ≠ b) :
    a.revision ≠ b.revision := by
  have hsymm : Std.Symm fun a b : JournalRow => a.revision ≠ b.revision := ⟨fun _ _ => Ne.symm⟩
  exact (t.ordered.imp And.right).forall ha hb h

/-- Add a row unless its sequence or its id is taken. -/
def insert (t : Revisions) (r : JournalRow) : Option Revisions :=
  if h : t.fresh r then
    some ⟨t.rows.filter (fun s => s.sequence < r.sequence) ++ r :: t.rows.filter fun s => r.sequence < s.sequence, by
      have hfresh := fresh_iff.mp h
      refine List.pairwise_append.mpr ⟨t.ordered.filter _, List.pairwise_cons.mpr ⟨?_, t.ordered.filter _⟩, ?_⟩
      · intro b hb
        obtain ⟨hmem, hlt⟩ := List.mem_filter.mp hb
        exact ⟨of_decide_eq_true hlt, (hfresh b hmem).2.symm⟩
      · intro a ha b hb
        obtain ⟨hamem, halt⟩ := List.mem_filter.mp ha
        have halt := of_decide_eq_true halt
        rcases List.mem_cons.mp hb with rfl | hb
        · exact ⟨halt, (hfresh a hamem).2⟩
        · obtain ⟨hbmem, hblt⟩ := List.mem_filter.mp hb
          have hlt := Int.lt_trans halt (of_decide_eq_true hblt)
          exact ⟨hlt, t.revision_ne hamem hbmem fun hab => Int.lt_irrefl _ (hab ▸ hlt)⟩⟩
  else none

/-- Above every stored sequence a row goes to the end. -/
theorem insert_of_lt {t : Revisions} {r : JournalRow} (h : ∀ s ∈ t.rows, s.sequence < r.sequence) :
    (t.insert r).map Revisions.rows = if t.fresh r then some (t.rows ++ [r]) else none := by
  rw [insert]
  by_cases hfresh : t.fresh r
  · have hbelow : t.rows.filter (fun s => s.sequence < r.sequence) = t.rows :=
      List.filter_eq_self.mpr fun s hs => decide_eq_true (h s hs)
    have habove : t.rows.filter (fun s => r.sequence < s.sequence) = [] :=
      List.filter_eq_nil_iff.mpr fun s hs => by
        simpa using Int.le_of_lt (h s hs)
    simp [hfresh, hbelow, habove]
  · simp [hfresh]

theorem eq_of_rows {s t : Revisions} (h : s.rows = t.rows) : s = t := by
  cases s
  cases t
  cases h
  rfl

def find (t : Revisions) (id : Text) : Option Revision := (t.rows.find? fun r => r.revision = id).map JournalRow.data

theorem find_of_mem {t : Revisions} {r : JournalRow} (h : r ∈ t.rows) : t.find r.revision = some r.data := by
  rw [find]
  cases hfound : t.rows.find? fun s => s.revision = r.revision with
  | none => exact absurd (decide_eq_true rfl) (List.find?_eq_none.mp hfound r h)
  | some s =>
    have hid : s.revision = r.revision := by simpa using List.find?_some hfound
    by_cases hsame : s = r
    · rw [hsame]
      rfl
    · exact absurd hid (t.revision_ne (List.mem_of_find?_eq_some hfound) h hsame)

end Revisions

/-! ## The tables -/

/-- `faults` says of each coming write whether it is refused. -/
structure Database where
  metadata : Table Text Text := .empty
  entries : Table Text EntryRow := .empty
  peers : Table Text PeerRow := .empty
  detach : Table NativePath NativePath := .empty
  snapshots : Table Text Receipt := .empty
  revisions : Revisions := .empty
  locations : Table (Text × Text) Location := .empty
  faults : List Bool := []

namespace Database

/-- The driver's own error text. -/
def refused : Text := text "database error"

/-- One write; `none` stands for a violated constraint. -/
def statement (write : Database → Option Database) : Effect Database Unit := fun s =>
  match s.faults with
  | true :: faults => .error refused { s with faults }
  | faults =>
    match write s with
    | some t => .ok () { t with faults := faults.tail }
    | none => .error refused { s with faults := faults.tail }

/-- Undo a failed transaction. -/
def restore (before after : Database) : Database := { before with faults := after.faults }

def transaction {α : Type} (m : Effect Database α) : Effect Database α := Effect.rollback restore m

def meta_ (db : Database) (key : Text) : Text := (db.metadata.find? key).getD []

def setMeta (key value : Text) : Effect Database Unit :=
  statement fun db => some { db with metadata := db.metadata.insert key value }

/-- A write either changes the tables as told or leaves them alone; it uses up what it read of the faults. -/
theorem statement_cases (write : Database → Option Database) (s : Database) :
    (∃ t, write s = some t ∧ statement write s = .ok () { t with faults := s.faults.tail }) ∨
    ∃ faults, faults <:+ s.faults ∧ statement write s = .error refused { s with faults } := by
  rw [statement]
  split
  · rename_i faults hfaults
    exact Or.inr ⟨faults, hfaults ▸ List.suffix_cons true faults, rfl⟩
  · cases h : write s with
    | some t => exact Or.inl ⟨t, rfl, rfl⟩
    | none => exact Or.inr ⟨_, List.tail_suffix _, rfl⟩

theorem statement_eq_ok {write : Database → Option Database} {s t : Database} {u : Unit} :
    statement write s = .ok u t ↔
      s.faults.head? ≠ some true ∧ ∃ w, write s = some w ∧ t = { w with faults := s.faults.tail } := by
  rw [statement]
  split
  · rename_i hfaults
    simp [hfaults]
  · rename_i hfaults
    have hhead : s.faults.head? ≠ some true := by
      intro h
      obtain ⟨faults, hcons⟩ := List.head?_eq_some_iff.mp h
      exact hfaults faults hcons
    cases h : write s with
    | some w => simp [hhead, eq_comm]
    | none => simp

end Database

end SocietyHelper.Sync
