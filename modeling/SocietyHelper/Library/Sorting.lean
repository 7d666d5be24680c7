import Mathlib.Data.List.Sort
import Mathlib.Order.Defs.Unbundled
import Mathlib.Order.RelClasses

/-! # Sorting by a comparison

A sort that need not be stable leaves some list in which nothing stands behind
what it is less than. A stable sort also keeps, among what the comparison does
not tell apart, whatever held of the list before.
-/

namespace SocietyHelper.Library

variable {α : Type}

/-- A comparison that compares keys of a linear order. -/
theorem strictWeak_of_key {β : Type} [LinearOrder β] {less : α → α → Bool} (key : α → β)
    (h : ∀ a b, less a b ↔ key a < key b) : IsStrictWeakOrder α (fun a b => less a b) where
  irrefl a hless := lt_irrefl _ ((h a a).mp hless)
  trans a b c hab hbc := (h a c).mpr (((h a b).mp hab).trans ((h b c).mp hbc))
  incomp_trans a b c hab hbc := by
    simp only [h, not_lt] at hab hbc ⊢
    exact ⟨hbc.1.trans hab.1, hab.2.trans hbc.2⟩

section

variable {less : α → α → Bool} (hless : IsStrictWeakOrder α (fun a b => less a b))

include hless

theorem not_less_trans {a b c : α} (hab : less b a = false) (hbc : less c b = false) : less c a = false := by
  by_contra hca
  rw [Bool.not_eq_false] at hca
  by_cases hba : less a b = true
  · exact Bool.false_ne_true (hbc.symm.trans (hless.trans _ _ _ hca hba))
  · by_cases hcb : less b c = true
    · exact Bool.false_ne_true (hab.symm.trans (hless.trans _ _ _ hcb hca))
    · have hincomp := hless.incomp_trans a b c ⟨hba, by simp [hab]⟩ ⟨hcb, by simp [hbc]⟩
      exact hincomp.2 hca

theorem le_trans_of_less (a b c : α) (hab : (!less b a) = true) (hbc : (!less c b) = true) : (!less c a) = true := by
  rw [Bool.not_eq_true'] at hab hbc ⊢
  exact not_less_trans hless hab hbc

theorem less_asymm {a b : α} (h : less a b) : less b a = false := by
  by_contra hba
  rw [Bool.not_eq_false] at hba
  exact hless.irrefl a (hless.trans _ _ _ h hba)

theorem not_less_total (a b : α) : (!less b a || !less a b) = true := by
  cases h : less b a with
  | false => rfl
  | true => simp [less_asymm hless h]

end

/-- A sort that keeps every element and puts none behind a greater one. -/
structure Sorter (less : α → α → Bool) where
  sort : List α → List α
  perm : ∀ l, (sort l).Perm l
  ordered : ∀ l, (sort l).Pairwise fun a b => less b a = false

def stableSort (less : α → α → Bool) (l : List α) : List α := l.mergeSort fun a b => !less b a

theorem stableSort_perm (less : α → α → Bool) (l : List α) : (stableSort less l).Perm l := List.mergeSort_perm l _

section

variable {less : α → α → Bool} (hless : IsStrictWeakOrder α (fun a b => less a b))

include hless

theorem stableSort_ordered (l : List α) : (stableSort less l).Pairwise fun a b => less b a = false := by
  have h := List.pairwise_mergeSort (le_trans_of_less hless) (not_less_total hless) l
  exact h.imp fun hab => (Bool.not_eq_true' _).mp hab

def stableSorter : Sorter less := ⟨stableSort less, stableSort_perm less, stableSort_ordered hless⟩

/-- Behind each element stands what is greater or what already stood behind it. -/
theorem stableSort_keeps {R : α → α → Prop} {l : List α} (hl : l.Pairwise R) :
    (stableSort less l).Pairwise fun a b => less a b ∨ R a b := by
  induction l with
  | nil =>
    rw [stableSort, List.mergeSort_nil]
    exact List.Pairwise.nil
  | cons a l ih =>
    obtain ⟨hhead, htail⟩ := List.pairwise_cons.mp hl
    obtain ⟨front, back, hsort, hrest, hfront⟩ :=
      List.mergeSort_cons (le_trans_of_less hless) (not_less_total hless) a l
    have hkept : (front ++ back).Pairwise fun a b => less a b ∨ R a b := hrest ▸ ih htail
    obtain ⟨hbefore, hbehind, hacross⟩ := List.pairwise_append.mp hkept
    rw [stableSort, hsort, List.pairwise_append, List.pairwise_cons]
    -- the new element passes only what is less than it
    refine ⟨hbefore, ⟨fun b hb => .inr (hhead b ?_), hbehind⟩, fun b hb c hc => ?_⟩
    · have hmem : b ∈ l.mergeSort fun a b => !less b a := hrest ▸ List.mem_append_right _ hb
      exact List.mem_mergeSort.mp hmem
    · rcases List.mem_cons.mp hc with rfl | hc
      · left
        simpa using hfront b hb
      · exact hacross b hb c hc

end

end SocietyHelper.Library
