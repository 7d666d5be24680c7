import SocietyHelper.Sync.Revision

/-! # Sizes of written members

Digests, numerals and UUIDs are written as they are, so the text of a member that
holds one has a fixed bound.
-/

namespace SocietyHelper.Sync

open Library

theorem utf8Size_quote_le {t : Text} {n : Nat} (hplain : ∀ c ∈ t, Json.plain c) (hlength : t.length ≤ n) :
    utf8Size (Json.quote t) ≤ n + 2 := by
  rw [Json.utf8Size_quote_plain hplain]
  omega

theorem plain_of_range {c : Char} (h : 48 ≤ c.toNat ∧ c.toNat ≤ 57 ∨ 65 ≤ c.toNat ∧ c.toNat ≤ 70 ∨
    97 ≤ c.toNat ∧ c.toNat ≤ 102) : Json.plain c := by
  have hquote : c ≠ '"' := by
    rintro rfl
    exact absurd h (by decide)
  have hslash : c ≠ '\\' := by
    rintro rfl
    exact absurd h (by decide)
  simp only [Json.plain, Bool.and_eq_true, decide_eq_true_eq]
  exact ⟨⟨⟨by omega, by omega⟩, hquote⟩, hslash⟩

theorem plain_of_isHexDigit {c : Char} (h : isHexDigit c) : Json.plain c := by
  simp only [isHexDigit, Bool.or_eq_true, Bool.and_eq_true, decide_eq_true_eq, Char.le_def, UInt32.le_iff_toNat_le] at h
  rcases h with h | h
  · exact plain_of_range (Or.inl h)
  · exact plain_of_range (Or.inr (Or.inr h))

theorem utf8Size_quote_hex {t : Text} (h : t = [] ∨ hex t) : utf8Size (Json.quote t) ≤ 66 := by
  rcases h with rfl | h
  · decide
  · exact utf8Size_quote_le (fun c hc => plain_of_isHexDigit (isHexDigit_of_hex h c hc)) (hex_length h).le

theorem plain_of_isDigit {c : Char} (h : c.isDigit) : Json.plain c := by
  simp only [Char.isDigit, Bool.and_eq_true, decide_eq_true_eq, UInt32.le_iff_toNat_le] at h
  exact plain_of_range (Or.inl h)

theorem utf8Size_quote_decimal {n : Nat} (h : n ≤ maxCounter) : utf8Size (Json.quote (decimal n)) ≤ 18 := by
  refine utf8Size_quote_le (fun c hc => plain_of_isDigit (isDigit_of_mem_decimal hc)) ?_
  refine (Nat.length_toDigits_le_iff (by decide) (by decide)).mpr ?_
  rw [maxCounter] at h
  omega

theorem plain_of_uuidCharacter {c : Char} {i : Nat} (h : uuidCharacter c i) : Json.plain c := by
  rw [uuidCharacter] at h
  split at h
  · rw [of_decide_eq_true h]
    decide
  · simp only [Bool.or_eq_true, Bool.and_eq_true, decide_eq_true_eq, Char.le_def, UInt32.le_iff_toNat_le] at h
    rcases h with (h | h) | h
    · exact plain_of_isDigit h
    · exact plain_of_range (Or.inr (Or.inr h))
    · exact plain_of_range (Or.inr (Or.inl h))

theorem plain_of_zipIdx {t : Text} (h : t.zipIdx.all fun p => uuidCharacter p.1 p.2) : ∀ c ∈ t, Json.plain c := by
  intro c hc
  obtain ⟨i, hi, rfl⟩ := List.mem_iff_getElem.mp hc
  have hmem : (t[i], i) ∈ t.zipIdx := List.mem_zipIdx_iff_getElem?.mpr (List.getElem?_eq_getElem hi)
  exact plain_of_uuidCharacter (List.all_eq_true.mp h _ hmem)

theorem uuid_plain {t : Text} (h : uuid t) : (∀ c ∈ t, Json.plain c) ∧ t.length ≤ 38 := by
  simp only [uuid, Bool.and_eq_true, decide_eq_true_eq] at h
  obtain ⟨⟨hlength, hall⟩, -⟩ := h
  have hbare := plain_of_zipIdx hall
  split at hlength
  · rename_i hbraces
    rw [if_pos hbraces] at hbare
    obtain ⟨rest, rfl⟩ := List.head?_eq_some_iff.mp hbraces.1
    rw [List.drop_one, List.tail_cons] at hlength hbare
    rcases List.eq_nil_or_concat rest with rfl | ⟨inner, c, rfl⟩
    · cases hlength
    · rw [List.concat_eq_append, List.dropLast_concat] at hlength hbare
      have hlast : c = '}' := by
        rw [List.concat_eq_append, ← List.cons_append, List.getLast?_concat] at hbraces
        exact Option.some.inj hbraces.2
      refine ⟨?_, by simp [hlength]⟩
      intro d hd
      rw [List.concat_eq_append, hlast, List.mem_cons, List.mem_append, List.mem_singleton] at hd
      rcases hd with rfl | hd | rfl
      · decide
      · exact hbare d hd
      · decide
  · rename_i hbraces
    rw [if_neg hbraces] at hbare
    exact ⟨hbare, by omega⟩

end SocietyHelper.Sync
