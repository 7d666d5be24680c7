import Mathlib

/-! # Keyed tables

Rows with pairwise different keys, in insertion order. Uniqueness of the keys is
a field, so looking a key up and listing the rows always agree.
-/

namespace SocietyHelper.Library

universe u v

structure Table (κ : Type u) (ν : Type v) where
  rows : List (κ × ν)
  unique : (rows.map Prod.fst).Nodup

namespace Table

variable {κ : Type u} {ν : Type v}

def empty : Table κ ν := ⟨[], List.nodup_nil⟩

instance : Inhabited (Table κ ν) := ⟨empty⟩

def keys (t : Table κ ν) : List κ := t.rows.map Prod.fst

def filter (p : κ → ν → Bool) (t : Table κ ν) : Table κ ν where
  rows := t.rows.filter fun r => p r.1 r.2
  unique := t.unique.sublist (List.filter_sublist.map Prod.fst)

def mapValues (f : κ → ν → ν) (t : Table κ ν) : Table κ ν where
  rows := t.rows.map fun r => (r.1, f r.1 r.2)
  unique := by simpa [Function.comp_def] using t.unique

variable [DecidableEq κ]

def find? (t : Table κ ν) (k : κ) : Option ν := (t.rows.find? fun r => r.1 = k).map Prod.snd

def erase (t : Table κ ν) (k : κ) : Table κ ν := t.filter fun j _ => j ≠ k

/-- Replace the row of a key, or add one at the end. -/
def insert (t : Table κ ν) (k : κ) (v : ν) : Table κ ν :=
  if h : k ∈ t.keys then t.mapValues fun j w => if j = k then v else w
  else ⟨t.rows ++ [(k, v)], by
    rw [List.map_append, List.nodup_append]
    refine ⟨t.unique, List.nodup_singleton k, ?_⟩
    intro a ha b hb hab
    rw [hab, List.mem_singleton.mp hb] at ha
    exact h ha⟩

theorem mem_rows_iff (t : Table κ ν) (k : κ) (v : ν) : (k, v) ∈ t.rows ↔ t.find? k = some v := by
  obtain ⟨rows, unique⟩ := t
  simp only [find?]
  induction rows with
  | nil => simp
  | cons r rows ih =>
    have hnodup : r.1 ∉ rows.map Prod.fst ∧ (rows.map Prod.fst).Nodup := List.nodup_cons.mp unique
    rw [List.mem_cons, ih hnodup.2, List.find?_cons]
    by_cases hr : r.1 = k
    · have hfresh : rows.find? (fun r => r.1 = k) = none := by
        refine List.find?_eq_none.mpr fun s hs => ?_
        simp only [decide_eq_true_eq]
        intro hsk
        exact hnodup.1 (hr ▸ hsk ▸ List.mem_map_of_mem hs)
      simp only [hr, hfresh, decide_true, Option.map_none, Option.map_some, Option.some.injEq, reduceCtorEq, or_false]
      constructor
      · rintro rfl
        rfl
      · rintro rfl
        exact Prod.ext hr.symm rfl
    · have hne : (k, v) ≠ r := fun h => hr (h ▸ rfl)
      simp [hr, hne]

@[simp] theorem find?_empty (k : κ) : (empty : Table κ ν).find? k = none := rfl

theorem mem_keys_iff (t : Table κ ν) (k : κ) : k ∈ t.keys ↔ ∃ v, t.find? k = some v := by
  simp [keys, ← mem_rows_iff]

theorem find?_eq_none_iff (t : Table κ ν) (k : κ) : t.find? k = none ↔ k ∉ t.keys := by
  rw [mem_keys_iff, Option.eq_none_iff_forall_ne_some, not_exists]

theorem find?_filter (p : κ → ν → Bool) (t : Table κ ν) (k : κ) :
    (t.filter p).find? k = (t.find? k).filter (p k) := by
  ext v
  rw [← mem_rows_iff, Option.filter_eq_some_iff, ← mem_rows_iff]
  simp [filter]

theorem find?_erase (t : Table κ ν) (k j : κ) :
    (t.erase k).find? j = if j = k then none else t.find? j := by
  rw [erase, find?_filter]
  by_cases h : j = k
  · simp [h]
  · cases hj : t.find? j <;> simp [h]

theorem mem_rows_insert (t : Table κ ν) (k j : κ) (v w : ν) :
    (j, w) ∈ (t.insert k v).rows ↔ (j = k ∧ w = v) ∨ (j ≠ k ∧ (j, w) ∈ t.rows) := by
  rw [insert]
  split
  · rename_i hk
    simp only [mapValues, List.mem_map, Prod.mk.injEq, Prod.exists]
    constructor
    · rintro ⟨i, x, hx, rfl, rfl⟩
      by_cases hi : i = k
      · exact Or.inl ⟨hi, if_pos hi⟩
      · exact Or.inr ⟨hi, by rwa [if_neg hi]⟩
    · rintro (⟨rfl, rfl⟩ | ⟨hj, hw⟩)
      · obtain ⟨x, hx⟩ := (mem_keys_iff t j).mp hk
        exact ⟨j, x, (mem_rows_iff t j x).mpr hx, rfl, if_pos rfl⟩
      · exact ⟨j, w, hw, rfl, if_neg hj⟩
  · rename_i hk
    simp only [List.mem_append, List.mem_singleton, Prod.mk.injEq]
    constructor
    · rintro (hw | ⟨rfl, rfl⟩)
      · exact Or.inr ⟨fun h => hk (h ▸ List.mem_map_of_mem hw), hw⟩
      · exact Or.inl ⟨rfl, rfl⟩
    · rintro (⟨rfl, rfl⟩ | ⟨_, hw⟩)
      · exact Or.inr ⟨rfl, rfl⟩
      · exact Or.inl hw

theorem find?_insert (t : Table κ ν) (k j : κ) (v : ν) :
    (t.insert k v).find? j = if j = k then some v else t.find? j := by
  ext w
  rw [← mem_rows_iff, mem_rows_insert]
  by_cases h : j = k
  · simp [h, eq_comm]
  · simp [h, mem_rows_iff]

/-- What the rows of one key contribute to a list over all rows. -/
theorem filterMap_rows {α : Type v} (t : Table κ ν) (k : κ) (f : ν → Option α) :
    (t.rows.filterMap fun r => if r.1 = k then f r.2 else none) = ((t.find? k).bind f).toList := by
  obtain ⟨rows, unique⟩ := t
  simp only [find?]
  induction rows with
  | nil => rfl
  | cons r rows ih =>
    have hnodup : r.1 ∉ rows.map Prod.fst ∧ (rows.map Prod.fst).Nodup := List.nodup_cons.mp unique
    rw [List.filterMap_cons, List.find?_cons]
    by_cases hr : r.1 = k
    · have hrest : (rows.filterMap fun r => if r.1 = k then f r.2 else none) = [] := by
        apply List.filterMap_eq_nil_iff.mpr
        intro s hs
        apply if_neg
        rintro rfl
        exact hnodup.1 (hr ▸ List.mem_map_of_mem hs)
      simp only [hr, hrest, if_true, decide_true, Option.map_some, Option.bind_some]
      cases f r.2 <;> rfl
    · simp only [hr, if_false, decide_false]
      exact ih hnodup.2

theorem find?_mapValues (f : κ → ν → ν) (t : Table κ ν) (k : κ) : (t.mapValues f).find? k = (t.find? k).map (f k) := by
  ext v
  rw [← mem_rows_iff, Option.map_eq_some_iff]
  simp only [mapValues, List.mem_map, Prod.mk.injEq, Prod.exists, ← mem_rows_iff]
  constructor
  · rintro ⟨j, w, hw, rfl, rfl⟩
    exact ⟨w, hw, rfl⟩
  · rintro ⟨w, hw, rfl⟩
    exact ⟨k, w, hw, rfl, rfl⟩

@[simp] theorem find?_insert_self (t : Table κ ν) (k : κ) (v : ν) : (t.insert k v).find? k = some v := by
  simp [find?_insert]

theorem find?_insert_ne (t : Table κ ν) {k j : κ} (v : ν) (h : j ≠ k) :
    (t.insert k v).find? j = t.find? j := by
  simp [find?_insert, h]

/-- The row of a key stands before the table without it. -/
theorem perm_cons_erase {t : Table κ ν} {k : κ} {v : ν} (h : t.find? k = some v) :
    t.rows.Perm ((k, v) :: (t.erase k).rows) := by
  obtain ⟨rows, unique⟩ := t
  have hmem := (mem_rows_iff _ k v).mpr h
  obtain ⟨front, back, rfl⟩ := List.append_of_mem hmem
  have hfresh : ∀ r ∈ front ++ back, r.1 ≠ k := by
    have hnodup := (List.perm_middle.map Prod.fst).nodup unique
    intro r hr hk
    have hkey : k ∈ (front ++ back).map Prod.fst := List.mem_map.mpr ⟨r, hr, hk⟩
    exact (List.nodup_cons.mp hnodup).1 hkey
  have hrest : (front ++ back).filter (fun r => r.1 ≠ k) = front ++ back :=
    List.filter_eq_self.mpr fun r hr => decide_eq_true (hfresh r hr)
  have herase : (erase ⟨front ++ (k, v) :: back, unique⟩ k).rows = front ++ back := by
    rw [← hrest]
    simp [erase, filter]
  rw [herase]
  exact List.perm_middle

theorem perm_keys_erase {t : Table κ ν} {k : κ} {v : ν} (h : t.find? k = some v) : t.keys.Perm (k :: (t.erase k).keys) :=
  (perm_cons_erase h).map Prod.fst

theorem rows_insert_of_fresh {t : Table κ ν} {k : κ} (h : k ∉ t.keys) (v : ν) :
    (t.insert k v).rows = t.rows ++ [(k, v)] := by
  rw [insert, dif_neg h]

theorem insert_insert (t : Table κ ν) (k : κ) (v w : ν) : (t.insert k v).insert k w = t.insert k w := by
  have hmem : k ∈ (t.insert k v).keys := (mem_keys_iff _ k).mpr ⟨v, find?_insert_self t k v⟩
  rw [insert, dif_pos hmem, insert, insert]
  by_cases hk : k ∈ t.keys
  · rw [dif_pos hk, dif_pos hk]
    simp only [mapValues, List.map_map, mk.injEq]
    apply List.map_congr_left
    intro r _
    by_cases hr : r.1 = k
    · simp [hr]
    · simp [hr]
  · rw [dif_neg hk, dif_neg hk]
    have hrows : ∀ r ∈ t.rows, r.1 ≠ k := by
      rintro r hr rfl
      exact hk (List.mem_map_of_mem hr)
    simp only [mapValues, List.map_append, List.map_cons, List.map_nil, if_true, mk.injEq, List.append_left_inj]
    conv_rhs => rw [← List.map_id t.rows]
    apply List.map_congr_left
    intro r hr
    rw [if_neg (hrows r hr), id]

theorem count_keys (t : Table κ ν) (k : κ) : t.keys.count k = if (t.find? k).isSome then 1 else 0 := by
  have hcount : t.keys.count k = if k ∈ t.keys then 1 else 0 := List.Nodup.count t.unique
  rw [hcount]
  exact if_congr ((mem_keys_iff t k).trans Option.isSome_iff_exists.symm) rfl rfl

theorem length_insert_of_find? (t : Table κ ν) {k : κ} {w : ν} (v : ν) (h : t.find? k = some w) :
    (t.insert k v).rows.length = t.rows.length := by
  rw [insert, dif_pos ((mem_keys_iff t k).mpr ⟨w, h⟩)]
  exact List.length_map _

theorem length_insert_le (t : Table κ ν) (k : κ) (v : ν) : (t.insert k v).rows.length ≤ t.rows.length + 1 := by
  rw [insert]
  split
  · exact (List.length_map _).trans_le (Nat.le_succ _)
  · simp

/-- Insert rows one after the other. -/
def insertAll (t : Table κ ν) (rows : List (κ × ν)) : Table κ ν := rows.foldl (fun t r => t.insert r.1 r.2) t

theorem find?_insertAll (t : Table κ ν) {rows : List (κ × ν)} (h : (rows.map Prod.fst).Nodup) (k : κ) :
    (t.insertAll rows).find? k = ((rows.find? fun r => r.1 = k).map Prod.snd).or (t.find? k) := by
  induction rows generalizing t with
  | nil => rfl
  | cons r rows ih =>
    obtain ⟨hr, hrows⟩ := List.nodup_cons.mp h
    rw [insertAll, List.foldl_cons, ← insertAll, ih _ hrows, find?_insert, List.find?_cons]
    by_cases hk : r.1 = k
    · have hnone : rows.find? (fun s => s.1 = k) = none := by
        refine List.find?_eq_none.mpr fun s hs => ?_
        rw [decide_eq_true_eq]
        rintro rfl
        exact hr (hk ▸ List.mem_map_of_mem hs)
      simp [hk, hnone]
    · simp [hk, Ne.symm hk]

end Table

end SocietyHelper.Library
