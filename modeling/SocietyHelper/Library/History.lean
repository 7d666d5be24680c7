import Mathlib

/-! # Lists grown at their end

A list is linked by a relation when every item stands in that relation to the
list of the items before it. Linked lists are closed under prefixes, and grow by
one admissible item at a time.
-/

namespace SocietyHelper.Library

variable {α : Type}

def Linked (admits : List α → α → Prop) (l : List α) : Prop :=
  ∀ earlier a later, l = earlier ++ a :: later → admits earlier a

namespace Linked

variable {admits : List α → α → Prop}

theorem nil : Linked admits [] := by
  intro earlier a later h
  simp at h

theorem of_front {l l' : List α} (h : Linked admits l) (hfront : l' <+: l) : Linked admits l' := by
  obtain ⟨rest, rfl⟩ := hfront
  intro earlier a later hl
  refine h earlier a (later ++ rest) ?_
  rw [hl, List.append_assoc, List.cons_append]

theorem concat_iff {l : List α} {a : α} : Linked admits (l ++ [a]) ↔ Linked admits l ∧ admits l a := by
  constructor
  · intro h
    exact ⟨h.of_front (List.prefix_append l [a]), h l a [] rfl⟩
  · rintro ⟨hl, ha⟩ earlier b later h
    rcases List.eq_nil_or_concat later with rfl | ⟨later, c, rfl⟩
    · obtain ⟨rfl, hab⟩ := List.append_inj' h rfl
      cases hab
      exact ha
    · rw [List.concat_eq_append, ← List.cons_append, ← List.append_assoc] at h
      exact hl earlier b later (List.append_inj' h rfl).1

theorem getElem {l : List α} (h : Linked admits l) {k : Nat} (hk : k < l.length) : admits (l.take k) l[k] :=
  h _ _ (l.drop (k + 1)) (by rw [List.getElem_cons_drop, List.take_append_drop])

theorem exists_of_mem {l : List α} (h : Linked admits l) {a : α} (ha : a ∈ l) :
    ∃ earlier, earlier <+: l ∧ a ∉ earlier ∧ admits earlier a := by
  obtain ⟨earlier, later, hl, hfresh⟩ := List.eq_append_cons_of_mem ha
  exact ⟨earlier, ⟨a :: later, hl.symm⟩, hfresh, h earlier a later hl⟩

end Linked

end SocietyHelper.Library
