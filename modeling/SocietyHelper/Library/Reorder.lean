import Mathlib

/-! # Answers in any order

Positions follow each other by a function. What was asked for in a window is
answered in any order; the answers that have come early are held back until the
next position is among them.
-/

namespace SocietyHelper.Library

variable {α : Type} {next : α → α}

/-- Positions one after the other, from a first one on. -/
inductive Line (next : α → α) : α → List α → Prop where
  | nil (o : α) : Line next o []
  | cons {o : α} {rest : List α} : Line next (next o) rest → Line next o (o :: rest)

namespace Line

variable {o : α} {rest : List α}

theorem eq_cons (h : Line next o rest) (hrest : rest ≠ []) : ∃ later, rest = o :: later ∧ Line next (next o) later := by
  cases h with
  | nil => exact absurd rfl hrest
  | cons h => exact ⟨_, rfl, h⟩

theorem pairwise [Preorder α] (h : Line next o rest) (hnext : ∀ p ∈ rest, p < next p) :
    rest.Pairwise (· < ·) ∧ ∀ p ∈ rest, o ≤ p := by
  induction h with
  | nil o => exact ⟨.nil, fun p hp => absurd hp List.not_mem_nil⟩
  | @cons o rest h ih =>
    obtain ⟨hsorted, hlow⟩ := ih fun p hp => hnext p (List.mem_cons_of_mem o hp)
    have ho := hnext o List.mem_cons_self
    constructor
    · exact List.pairwise_cons.mpr ⟨fun p hp => lt_of_lt_of_le ho (hlow p hp), hsorted⟩
    · intro p hp
      cases List.mem_cons.mp hp with
      | inl heq => exact le_of_eq heq.symm
      | inr hp => exact (lt_of_lt_of_le ho (hlow p hp)).le

/-- Equal steps from a first position. -/
theorem range {next : Int → Int} (o unit : Int) (k : Nat)
    (h : ∀ i : Nat, i + 1 < k → next (o + i * unit) = o + (i + 1) * unit) :
    Line next o ((List.range k).map fun i : Nat => o + (i : Int) * unit) := by
  induction k generalizing o with
  | zero => exact .nil o
  | succ k ih =>
    have hlist : ((List.range (k + 1)).map fun i : Nat => o + (i : Int) * unit) =
        o :: (List.range k).map fun i : Nat => o + unit + (i : Int) * unit := by
      rw [List.range_succ_eq_map, List.map_cons, List.map_map]
      congr 1
      · simp
      · apply List.map_congr_left
        intro i _
        simp only [Function.comp_apply, Nat.cast_succ]
        ring
    rw [hlist]
    apply Line.cons
    cases k with
    | zero => exact .nil _
    | succ k =>
      have hfirst : next o = o + unit := by simpa using h 0 (by omega)
      rw [hfirst]
      apply ih
      intro i hi
      have hstep := h (i + 1) (by omega)
      have hleft : o + unit + (i : Int) * unit = o + ((i + 1 : Nat) : Int) * unit := by
        push_cast
        ring
      rw [hleft, hstep]
      push_cast
      ring

section Window

variable {asked held : List α}

/-- The answer of the next position is there: it is used, and the line goes on behind it. -/
theorem take [DecidableEq α] (h : Line next o rest) (hperm : (asked ++ held).Perm rest) (ho : o ∈ held) :
    ∃ later, rest = o :: later ∧ Line next (next o) later ∧ (asked ++ held.erase o).Perm later := by
  have hmem : o ∈ rest := hperm.mem_iff.mp (List.mem_append_right asked ho)
  obtain ⟨later, rfl, hlater⟩ := h.eq_cons (List.ne_nil_of_mem hmem)
  refine ⟨later, rfl, hlater, ?_⟩
  apply (List.perm_cons o).mp
  calc
    (o :: (asked ++ held.erase o)).Perm (asked ++ o :: held.erase o) := List.perm_middle.symm
    List.Perm _ (asked ++ held) := (List.perm_cons_erase ho).symm.append_left asked
    List.Perm _ (o :: later) := hperm

/-- Nothing is asked for any more and the next position is not held: nothing is left. -/
theorem drained (h : Line next o rest) (hperm : held.Perm rest) (ho : o ∉ held) : rest = [] ∧ held = [] := by
  have hrest : rest = [] := by
    by_contra hne
    obtain ⟨later, rfl, -⟩ := h.eq_cons hne
    exact ho (hperm.mem_iff.mpr List.mem_cons_self)
  refine ⟨hrest, ?_⟩
  rw [hrest] at hperm
  exact hperm.eq_nil

end Window

end Line

/-- Where a line of positions ends. -/
def lineEnd (next : α → α) (o : α) (done : List α) : α := done.foldl (fun _ p => next p) o

@[simp] theorem lineEnd_nil (o : α) : lineEnd next o [] = o := rfl

@[simp] theorem lineEnd_concat (o p : α) (done : List α) : lineEnd next o (done ++ [p]) = next p := by
  simp [lineEnd]

/-- Where the positions that are answered without a gap end. -/
def prefixEnd [DecidableEq α] (next : α → α) (answered : List α) (o : α) : List α → α
  | [] => o
  | p :: asked => if p ∈ answered then prefixEnd next answered (next p) asked else o

theorem prefixEnd_append [DecidableEq α] {answered done rest : List α} (o : α) (hdone : ∀ p ∈ done, p ∈ answered)
    (hrest : ∀ p, rest.head? = some p → p ∉ answered) :
    prefixEnd next answered o (done ++ rest) = lineEnd next o done := by
  induction done generalizing o with
  | nil =>
    cases rest with
    | nil => rfl
    | cons p rest =>
      rw [List.nil_append, prefixEnd, if_neg (hrest p rfl), lineEnd_nil]
  | cons p done ih =>
    rw [List.cons_append, prefixEnd, if_pos (hdone p List.mem_cons_self),
      ih (next p) fun q hq => hdone q (List.mem_cons_of_mem p hq)]
    rfl

end SocietyHelper.Library
