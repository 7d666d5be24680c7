import SocietyHelper.Sync.Record

/-! # Namespace revisions

A revision is one numbered decision of the authority about one path. It names
the revision before it and the revisions its content descends from, and its id
is the digest of everything else it says.
-/

namespace SocietyHelper.Sync

open Library

/-- A revision as a JSON object; `parents` is `none` where the member is no array. -/
structure Revision where
  space : Value := .undefined
  authority : Value := .undefined
  sequence : Value := .undefined
  previous : Value := .undefined
  parents : Option (List Value) := none
  object : Entry := {}
  proposal : Value := .undefined
  revision : Value := .undefined
  extra : List (Text × Value) := []
  deriving DecidableEq

namespace Revision

def parentField : Option (List Value) → List (Text × Text)
  | none => []
  | some ps => [(text "parents", Json.array (ps.map Json.value))]

def members (r : Revision) : List (Text × Text) :=
  Json.field (text "authority") r.authority ++ Json.field (text "namespace") r.space ++
  [(text "object", r.object.json)] ++ parentField r.parents ++
  Json.field (text "previous") r.previous ++ Json.field (text "proposal") r.proposal ++
  Json.field (text "revision") r.revision ++ Json.field (text "sequence") r.sequence ++
  r.extra.flatMap fun m => Json.field m.1 m.2

def json (r : Revision) : Text := Json.object r.members

def hash (r : Revision) : Text := digest (utf8 r.json)

/-- The digest of a revision without its id. -/
def identity (r : Revision) : Text := { r with revision := .undefined }.hash

end Revision

/-- The members that a revision keeps of a record. -/
def content (e : Entry) : Entry :=
  { path := e.path, kind := e.kind, size := e.size, hash := e.hash, clock := e.clock, version := e.version }

/-- The entry that a revision stands for. -/
def projected (r : Revision) : Entry :=
  { r.object with space := r.space, authority := r.authority, revision := r.revision, sequence := r.sequence }

/-- A counter member, -1 where it holds none. -/
def counter (v : Value) : Int :=
  match number v with
  | some n => n
  | none => -1

theorem payload_content (e : Entry) : payload (content e) = payload e := rfl

theorem versioned_content (e : Entry) : versioned (content e) = versioned e := rfl

theorem members_content_sublist (e : Entry) : (content e).members.Sublist e.members := by
  rw [Entry.members, Entry.members]
  refine .append (.append (.append (.append (.append (.append (.append (.append (.append (.append (.append
    ?_ ?_) ?_) ?_) ?_) ?_) ?_) ?_) ?_) ?_) ?_) ?_
  all_goals first | exact .refl _ | exact List.nil_sublist _

theorem validRecord_content [StoreLayout] {e : Entry} (h : validRecord e) : validRecord (content e) := by
  have hsize := Json.utf8Size_object_le_of_sublist (members_content_sublist e)
  have hvalid := validRecord_iff.mp h
  exact validRecord_iff.mpr
    { hvalid with
      version := hvalid.version
      base := rfl
      fits := Nat.le_trans hsize hvalid.fits }

theorem number_decimal {n : Nat} (h : n ≤ maxCounter) : number (.string (decimal n)) = some n := by
  have hn : n < 2 ^ 63 := by
    simp only [maxCounter] at h
    omega
  rw [number, Value.text_string, toLongLong_decimal hn]
  simp only [Int.natCast_nonneg, true_and, Int.toNat_natCast]
  rw [if_pos (by omega)]

theorem counter_decimal {n : Nat} (h : n ≤ maxCounter) : counter (.string (decimal n)) = n := by
  rw [counter, number_decimal h]

theorem counter_le (v : Value) : -1 ≤ counter v ∧ counter v ≤ maxCounter := by
  rw [counter]
  cases h : number v with
  | none => simp [maxCounter]
  | some n =>
    rw [number] at h
    split at h
    · split at h
      · cases h
        simp only
        omega
      · cases h
    · cases h

end SocietyHelper.Sync
