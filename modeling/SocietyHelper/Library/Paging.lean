import Mathlib

/-! # Cutting a list into bounded pages

`within` takes entries from the front of a list as long as their sizes fit a
budget and says whether an entry was left because of its size. A page that
takes at least one entry whenever one remains makes every walk over the list
finish.
-/

namespace SocietyHelper.Library.Paging

variable {α : Type}

/-- The longest front of a list whose sizes fit the budget, and whether it stopped early. -/
def within (size : α → Nat) (budget : Nat) : List α → List α × Bool
  | [] => ([], false)
  | a :: l =>
    if budget < size a then ([], true)
    else (a :: (within size (budget - size a) l).1, (within size (budget - size a) l).2)

variable (size : α → Nat)

theorem within_front (budget : Nat) (l : List α) : (within size budget l).1 <+: l := by
  induction l generalizing budget with
  | nil => exact List.nil_prefix
  | cons a l ih =>
    rw [within]
    split
    · exact List.nil_prefix
    · exact (List.prefix_cons_inj a).mpr (ih _)

theorem within_sum_le (budget : Nat) (l : List α) : ((within size budget l).1.map size).sum ≤ budget := by
  induction l generalizing budget with
  | nil => simp [within]
  | cons a l ih =>
    rw [within]
    split
    · simp
    · have h := ih (budget - size a)
      rw [List.map_cons, List.sum_cons]
      omega

theorem within_of_false (budget : Nat) {l : List α} (h : (within size budget l).2 = false) :
    (within size budget l).1 = l := by
  induction l generalizing budget with
  | nil => rfl
  | cons a l ih =>
    rw [within] at h ⊢
    split at h
    · cases h
    · rename_i hfits
      rw [if_neg hfits, ih _ h]

theorem within_of_true (budget : Nat) {l : List α} (h : (within size budget l).2 = true) :
    (within size budget l).1.length < l.length := by
  induction l generalizing budget with
  | nil => cases h
  | cons a l ih =>
    rw [within] at h ⊢
    split at h
    · rename_i hover
      simp [hover]
    · rename_i hfits
      rw [if_neg hfits]
      exact Nat.succ_lt_succ (ih _ h)

theorem within_ne_nil {budget : Nat} {a : α} {l : List α} (h : size a ≤ budget) :
    (within size budget (a :: l)).1 ≠ [] := by
  rw [within, if_neg (by omega)]
  exact List.cons_ne_nil _ _

theorem within_length_le (budget : Nat) (l : List α) : (within size budget l).1.length ≤ l.length :=
  (within_front size budget l).length_le

end SocietyHelper.Library.Paging
