import Mathlib.Data.List.Sort
import Mathlib.Order.Basic

/-! # Pages behind a cursor

A list that ascends by a key is cut at a cursor into what stands up to it and
what stands behind. A page is a front of what stands behind; the key of its last
item is the next cursor.
-/

namespace SocietyHelper.Library.Keyset

variable {α κ : Type} [LinearOrder κ] (key : α → κ)

def Ascends (l : List α) : Prop := l.Pairwise fun a b => key a < key b

def behind (c : κ) (l : List α) : List α := l.filter fun a => c < key a

def upTo (c : κ) (l : List α) : List α := l.filter fun a => key a ≤ c

variable {key} {l page rest : List α} {c : κ} {a : α}

theorem mem_behind : a ∈ behind key c l ↔ a ∈ l ∧ c < key a := by
  rw [behind, List.mem_filter, decide_eq_true_eq]

theorem Ascends.nodup (h : Ascends key l) : (l.map key).Nodup := by
  rw [List.Nodup, List.pairwise_map]
  exact h.imp fun hlt => hlt.ne

/-- Two ascending lists with the same items are one list. -/
theorem Ascends.eq_of_mem {l' : List α} (h : Ascends key l) (h' : Ascends key l') (hmem : ∀ a, a ∈ l ↔ a ∈ l') : l = l' := by
  have hperm : l.Perm l' := (List.perm_ext_iff_of_nodup h.nodup.of_map h'.nodup.of_map).mpr hmem
  exact hperm.eq_of_pairwise (fun a b _ _ hab hba => absurd hab hba.asymm) h h'

theorem upTo_of_le (h : ∀ a ∈ l, key a ≤ c) : upTo key c l = l := by
  simpa [upTo] using h

theorem upTo_of_lt (h : ∀ a ∈ l, c < key a) : upTo key c l = [] := by
  simpa [upTo] using h

theorem behind_of_lt (h : ∀ a ∈ l, c < key a) : behind key c l = l := by
  simpa [behind] using h

/-- The cursor cuts the list. -/
theorem upTo_append_behind (h : Ascends key l) (c : κ) : upTo key c l ++ behind key c l = l := by
  induction l with
  | nil => rfl
  | cons a l ih =>
    obtain ⟨hhead, htail⟩ := List.pairwise_cons.mp h
    rcases le_or_gt (key a) c with hle | hlt
    · have hupTo : upTo key c (a :: l) = a :: upTo key c l := List.filter_cons_of_pos (decide_eq_true hle)
      have hbehind : behind key c (a :: l) = behind key c l := List.filter_cons_of_neg (by simpa using hle)
      rw [hupTo, hbehind, List.cons_append, ih htail]
    · have hall : ∀ b ∈ a :: l, c < key b := fun b hb => by
        rcases List.mem_cons.mp hb with rfl | hb
        · exact hlt
        · exact hlt.trans (hhead b hb)
      rw [upTo_of_lt hall, behind_of_lt hall, List.nil_append]

/-- Behind a page, its last key is a cursor up to which everything has been seen. -/
theorem upTo_getLast (h : Ascends key l) (hpage : page ++ rest = behind key c l) (hlast : page.getLast? = some a) :
    upTo key (key a) l = upTo key c l ++ page := by
  obtain ⟨front, rfl⟩ := List.getLast?_eq_some_iff.mp hlast
  have hcut : l = (upTo key c l ++ (front ++ [a])) ++ rest := by
    rw [List.append_assoc, hpage, upTo_append_behind h]
  have hordered : Ascends key ((upTo key c l ++ (front ++ [a])) ++ rest) := hcut ▸ h
  obtain ⟨hseen, -, hrest⟩ := List.pairwise_append.mp hordered
  have ha : a ∈ upTo key c l ++ (front ++ [a]) := by simp
  have hupTo : ∀ b ∈ upTo key c l ++ (front ++ [a]), key b ≤ key a := by
    rw [← List.append_assoc] at hseen ⊢
    intro b hb
    rcases List.mem_append.mp hb with hb | hb
    · exact ((List.pairwise_append.mp hseen).2.2 b hb a (List.mem_singleton_self a)).le
    · rw [List.mem_singleton.mp hb]
  conv_lhs => rw [hcut]
  rw [upTo, List.filter_append]
  have hfirst := upTo_of_le hupTo
  have hlater : upTo key (key a) rest = [] := upTo_of_lt fun b hb => hrest a ha b hb
  rw [upTo] at hfirst hlater
  rw [hfirst, hlater, List.append_nil]

end SocietyHelper.Library.Keyset
