import SocietyHelper.Sync.Record

/-! # Vector clocks are ordered point by point

A clock counts for each replica what it has seen of it, and counts nothing for a
replica that it does not name. Comparing and joining clocks is comparing and
joining these counts.
-/

namespace SocietyHelper.Sync

open Library

namespace Clock

theorem value_of_not_mem {c : Clock} {k : Text} (h : k ∉ c.keys) : c.value k = .undefined := by
  induction c with
  | nil => rfl
  | cons m c ih =>
    simp only [keys, List.map_cons, List.mem_cons, not_or] at h
    rw [value, if_neg (Ne.symm h.1)]
    exact ih h.2

/-- A replica that a clock does not name counts nothing. -/
theorem counter_of_not_mem {c : Clock} {k : Text} (h : k ∉ c.keys) : c.counter k = 0 := by
  rw [counter, value_of_not_mem h]
  rfl

theorem value_insert (c : Clock) (k : Text) (v : Value) (j : Text) :
    (c.insert k v).value j = if k = j then v else c.value j := by
  induction c with
  | nil => rfl
  | cons m c ih =>
    rw [insert]
    split
    · subst k
      rw [value, value]
      split <;> rfl
    · split
      · rfl
      · rw [value, value, ih]
        grind

theorem counter_insert (c : Clock) (k : Text) (v : Value) (j : Text) :
    (c.insert k v).counter j = if k = j then (toLongLong v.text).getD 0 else c.counter j := by
  rw [counter, value_insert]
  split <;> rfl

/-- Members stand in key order, as in every JSON object. -/
def Ordered (c : Clock) : Prop := c.keys.Pairwise fun j k => Json.keyLe j k ∧ j ≠ k

theorem mem_keys_insert {c : Clock} {k j : Text} {v : Value} (h : j ∈ (c.insert k v).keys) :
    j = k ∨ j ∈ c.keys := by
  induction c with
  | nil => simpa [insert, keys] using h
  | cons m c ih =>
    rw [insert] at h
    split at h
    · grind [keys]
    · split at h <;> grind [keys]

theorem Ordered.insert {c : Clock} (h : c.Ordered) (k : Text) (v : Value) : (c.insert k v).Ordered := by
  induction c with
  | nil => simp [Ordered, Clock.insert, keys]
  | cons m c ih =>
    obtain ⟨hfirst, hrest⟩ := List.pairwise_cons.mp (show (m.1 :: Clock.keys c).Pairwise _ from h)
    rw [Clock.insert]
    split
    · subst k
      exact h
    · rename_i hne
      split
      · rename_i hle
        refine List.pairwise_cons.mpr ⟨fun j hj => ?_, h⟩
        rcases List.mem_cons.mp hj with rfl | hj
        · exact ⟨hle, Ne.symm hne⟩
        · obtain ⟨hmj, hmne⟩ := hfirst j hj
          refine ⟨Json.keyLe_trans hle hmj, ?_⟩
          rintro rfl
          exact hne (Json.keyLe_antisymm hmj hle)
      · rename_i hle
        refine List.pairwise_cons.mpr ⟨fun j hj => ?_, ih hrest⟩
        rcases mem_keys_insert hj with rfl | hj
        · exact ⟨(Json.keyLe_total _ _).resolve_right hle, hne⟩
        · exact hfirst j hj

theorem Ordered.nodup {c : Clock} (h : c.Ordered) : c.keys.Nodup := List.Pairwise.imp (fun h => h.2) h

end Clock

/-- A JSON object with counters that are not negative. -/
structure VectorClock where
  clock : Clock
  ordered : clock.Ordered
  nonnegative : ∀ k, 0 ≤ clock.counter k

namespace VectorClock

/-- What a clock has seen of each replica. -/
def seen (a : VectorClock) : Text → ℤ := a.clock.counter

theorem seen_nonneg (a : VectorClock) : 0 ≤ a.seen := a.nonnegative

noncomputable instance : Preorder VectorClock := Preorder.lift seen

theorem le_def {a b : VectorClock} : a ≤ b ↔ a.seen ≤ b.seen := Iff.rfl

theorem lt_def {a b : VectorClock} : a < b ↔ a.seen < b.seen := Iff.rfl

/-! ## Comparing -/

/-- A difference shows at a key of one of the two clocks. -/
theorem any_keys_iff (a b c d : VectorClock) (h : ∀ k, c.seen k < d.seen k → k ∈ a.clock.keys ++ b.clock.keys) :
    ((a.clock.keys ++ b.clock.keys).any fun k => c.clock.counter k < d.clock.counter k) = true ↔ ¬d ≤ c := by
  rw [List.any_eq_true, le_def, Pi.le_def, not_forall]
  constructor
  · rintro ⟨k, -, hk⟩
    exact ⟨k, not_le.mpr (of_decide_eq_true hk)⟩
  · rintro ⟨k, hk⟩
    exact ⟨k, h k (not_le.mp hk), decide_eq_true (not_le.mp hk)⟩

theorem mem_keys_of_ne {a b : VectorClock} {k : Text} (h : a.seen k ≠ b.seen k) :
    k ∈ a.clock.keys ++ b.clock.keys := by
  by_contra hk
  rw [List.mem_append, not_or] at hk
  exact h ((Clock.counter_of_not_mem hk.1).trans (Clock.counter_of_not_mem hk.2).symm)

theorem compare_eq (a b : VectorClock) [Decidable (a ≤ b)] [Decidable (b ≤ a)] :
    compare a.clock b.clock = if a ≤ b then if b ≤ a then 0 else -1 else if b ≤ a then 1 else 2 := by
  have hgreater := any_keys_iff a b b a fun k hk => mem_keys_of_ne hk.ne'
  have hless := any_keys_iff a b a b fun k hk => mem_keys_of_ne hk.ne
  rw [compare]
  generalize ((a.clock.keys ++ b.clock.keys).any fun k => b.clock.counter k < a.clock.counter k) = greater at *
  generalize ((a.clock.keys ++ b.clock.keys).any fun k => a.clock.counter k < b.clock.counter k) = less at *
  by_cases hab : a ≤ b <;> by_cases hba : b ≤ a <;> cases greater <;> cases less <;> simp_all

section

variable {a b : VectorClock}

theorem compare_zero : compare a.clock b.clock = 0 ↔ a.seen = b.seen := by
  classical
  rw [compare_eq, le_antisymm_iff (a := a.seen), ← le_def, ← le_def]
  split <;> split <;> simp_all

theorem compare_one : compare a.clock b.clock = 1 ↔ b.seen < a.seen := by
  classical
  rw [compare_eq, lt_iff_le_not_ge, ← le_def, ← le_def]
  split <;> split <;> simp_all

theorem compare_neg : compare a.clock b.clock = -1 ↔ a.seen < b.seen := by
  classical
  rw [compare_eq, lt_iff_le_not_ge, ← le_def, ← le_def]
  split <;> split <;> simp_all

theorem compare_two : compare a.clock b.clock = 2 ↔ ¬a.seen ≤ b.seen ∧ ¬b.seen ≤ a.seen := by
  classical
  rw [compare_eq, ← le_def, ← le_def]
  split <;> split <;> simp_all

end

/-! ## Joining -/

theorem counter_step (c : Clock) (m : Text × Value) (k : Text) :
    (if c.counter m.1 < (toLongLong m.2.text).getD 0 then c.insert m.1 m.2 else c).counter k =
      if m.1 = k then max (c.counter k) ((toLongLong m.2.text).getD 0) else c.counter k := by
  split
  · rename_i h
    rw [Clock.counter_insert]
    split
    · subst k
      exact (max_eq_right h.le).symm
    · rfl
  · rename_i h
    split
    · subst k
      exact (max_eq_left (not_lt.mp h)).symm
    · rfl

theorem counter_joined (a b : Clock) (h : b.keys.Nodup) (k : Text) :
    (joined a b).counter k = if k ∈ b.keys then max (a.counter k) (b.counter k) else a.counter k := by
  induction b generalizing a with
  | nil => rfl
  | cons m b ih =>
    obtain ⟨hm, hb⟩ := List.nodup_cons.mp (show (m.1 :: Clock.keys b).Nodup from h)
    rw [joined, List.foldl_cons]
    refine (ih _ hb).trans ?_
    rw [counter_step]
    by_cases hk : m.1 = k
    · subst k
      have hmem : m.1 ∈ Clock.keys (m :: b) := List.mem_cons_self
      rw [if_neg hm, if_pos rfl, if_pos hmem]
      simp [Clock.counter, Clock.value]
    · have hvalue : Clock.counter (m :: b) k = Clock.counter b k := by
        rw [Clock.counter, Clock.value, if_neg hk]
        rfl
      have hmem : k ∈ Clock.keys (m :: b) ↔ k ∈ Clock.keys b :=
        ⟨fun h => (List.mem_cons.mp h).resolve_left (Ne.symm hk), List.mem_cons_of_mem _⟩
      rw [if_neg hk, hvalue]
      simp only [hmem]

theorem ordered_joined {a : Clock} (h : a.Ordered) (b : Clock) : (joined a b).Ordered := by
  induction b generalizing a with
  | nil => exact h
  | cons m b ih =>
    rw [joined, List.foldl_cons]
    refine ih ?_
    split
    · exact h.insert m.1 m.2
    · exact h

theorem counter_joined_eq (a b : VectorClock) (k : Text) :
    (joined a.clock b.clock).counter k = max (a.seen k) (b.seen k) := by
  rw [counter_joined a.clock b.clock b.ordered.nodup]
  split
  · rfl
  · rename_i hk
    exact (max_eq_left ((Clock.counter_of_not_mem hk).trans_le (a.nonnegative k))).symm

def join (a b : VectorClock) : VectorClock where
  clock := joined a.clock b.clock
  ordered := ordered_joined a.ordered b.clock
  nonnegative k := counter_joined_eq a b k ▸ le_max_of_le_left (a.nonnegative k)

theorem seen_join (a b : VectorClock) : (a.join b).seen = a.seen ⊔ b.seen := funext (counter_joined_eq a b)

theorem isLUB_join (a b : VectorClock) : IsLUB {a, b} (a.join b) := by
  constructor
  · rintro c (rfl | rfl)
    · rw [le_def, seen_join]
      exact le_sup_left
    · rw [le_def, seen_join]
      exact le_sup_right
  · intro c hc
    rw [le_def, seen_join]
    exact sup_le (hc (Set.mem_insert a {b})) (hc (Set.mem_insert_of_mem a rfl))

/-- Comparing tells the four cases of the order apart, and joining gives the least upper bound. -/
theorem clocks_lattice (a b c : VectorClock) :
    (compare a.clock b.clock = 0 ↔ a.seen = b.seen) ∧
    (compare a.clock b.clock = 1 ↔ b.seen < a.seen) ∧
    (compare a.clock b.clock = -1 ↔ a.seen < b.seen) ∧
    (compare a.clock b.clock = 2 ↔ ¬a.seen ≤ b.seen ∧ ¬b.seen ≤ a.seen) ∧
    IsLUB {a, b} (a.join b) ∧
    compare (a.join b).clock (b.join a).clock = 0 ∧
    compare ((a.join b).join c).clock (a.join (b.join c)).clock = 0 ∧
    compare (a.join a).clock a.clock = 0 ∧
    (compare (a.join b).clock a.clock = 0 ∨ compare (a.join b).clock a.clock = 1) := by
  refine ⟨compare_zero, compare_one, compare_neg, compare_two, isLUB_join a b, ?_, ?_, ?_, ?_⟩
  · rw [compare_zero, seen_join, seen_join, sup_comm]
  · rw [compare_zero, seen_join, seen_join, seen_join, seen_join, sup_assoc]
  · rw [compare_zero, seen_join, sup_idem]
  · rw [compare_zero, compare_one, seen_join]
    exact (eq_or_lt_of_le le_sup_left).imp Eq.symm id

end VectorClock

end SocietyHelper.Sync
