import SocietyHelper.Library.Text

/-! # UTF-8 byte by byte

A character below 128 is written as one byte of its own number, and every byte
of another character is at least 128. So what looks for one of the former in the
bytes of a text finds it where it stands in the text.
-/

namespace SocietyHelper.Library

theorem utf8_cons (c : Char) (t : Text) : utf8 (c :: t) = String.utf8EncodeChar c ++ utf8 t := rfl

@[simp] theorem utf8_nil : utf8 [] = [] := rfl

@[simp] theorem utf8_append (s t : Text) : utf8 (s ++ t) = utf8 s ++ utf8 t := List.flatMap_append

/-- The byte of a character below 128. -/
def ascii (c : Char) : UInt8 := UInt8.ofNat c.toNat

theorem toNat_ascii {c : Char} (h : c.toNat < 128) : (ascii c).toNat = c.toNat :=
  Nat.mod_eq_of_lt (by omega)

theorem ascii_inj {c d : Char} (hc : c.toNat < 128) (hd : d.toNat < 128) : ascii c = ascii d ↔ c = d := by
  rw [← UInt8.toNat_inj, toNat_ascii hc, toNat_ascii hd]
  exact Char.toNat_inj

theorem ascii_le {c d : Char} (hc : c.toNat < 128) (hd : d.toNat < 128) : ascii c ≤ ascii d ↔ c ≤ d := by
  rw [UInt8.le_iff_toNat_le, toNat_ascii hc, toNat_ascii hd, Char.le_def, UInt32.le_iff_toNat_le]
  rfl

theorem encode_ascii {c : Char} (h : c.toNat < 128) : String.utf8EncodeChar c = [ascii c] := by
  have : c.val.toNat ≤ 0x7f := Nat.le_of_lt_succ h
  simp only [String.utf8EncodeChar, this, if_true]
  rfl

theorem utf8_ascii {c : Char} (h : c.toNat < 128) (t : Text) : utf8 (c :: t) = ascii c :: utf8 t := by
  rw [utf8_cons, encode_ascii h]
  rfl

theorem encode_high {c : Char} (h : 128 ≤ c.toNat) : ∀ x ∈ String.utf8EncodeChar c, 128 ≤ x.toNat := by
  have : ¬c.val.toNat ≤ 0x7f := Nat.not_le_of_lt h
  intro x hx
  simp only [String.utf8EncodeChar, this, if_false] at hx
  split at hx
  · simp only [List.mem_cons, List.not_mem_nil, or_false] at hx
    rcases hx with rfl | rfl <;> simp only [UInt8.toNat_ofNat'] <;> omega
  · split at hx
    · simp only [List.mem_cons, List.not_mem_nil, or_false] at hx
      rcases hx with rfl | rfl | rfl <;> simp only [UInt8.toNat_ofNat'] <;> omega
    · simp only [List.mem_cons, List.not_mem_nil, or_false] at hx
      rcases hx with rfl | rfl | rfl | rfl <;> simp only [UInt8.toNat_ofNat'] <;> omega

theorem encode_ne_nil (c : Char) : String.utf8EncodeChar c ≠ [] := by
  intro h
  have := String.length_utf8EncodeChar c
  rw [h] at this
  exact absurd this (Nat.ne_of_lt c.utf8Size_pos)

theorem utf8_injective : Function.Injective utf8 := by
  intro s t h
  have hbytes : s.utf8Encode = t.utf8Encode := congrArg List.toByteArray h
  rw [← String.toByteArray_ofList, ← String.toByteArray_ofList, String.toByteArray_inj] at hbytes
  exact String.ofList_injective hbytes

theorem utf8_eq_nil {t : Text} : utf8 t = [] ↔ t = [] := by
  cases t with
  | nil => simp
  | cons c t => simp [utf8_cons]

/-- A byte below 128 at the front of a text is its first character. -/
theorem utf8_head {t : Text} {d : Char} (hd : d.toNat < 128) {rest : Bytes} :
    utf8 t = ascii d :: rest ↔ ∃ t', t = d :: t' ∧ rest = utf8 t' := by
  constructor
  · intro h
    cases t with
    | nil => cases h
    | cons c t =>
      by_cases hc : c.toNat < 128
      · rw [utf8_ascii hc] at h
        obtain ⟨hcd, rfl⟩ := List.cons.inj h
        exact ⟨t, by rw [(ascii_inj hc hd).mp hcd], rfl⟩
      · have hmem : ascii d ∈ String.utf8EncodeChar c := by
          cases he : String.utf8EncodeChar c with
          | nil => exact absurd he (encode_ne_nil c)
          | cons x xs =>
            rw [utf8_cons, he] at h
            exact (List.cons.inj h).1 ▸ List.mem_cons_self
        have := encode_high (Nat.le_of_not_lt hc) _ hmem
        rw [toNat_ascii hd] at this
        omega
  · rintro ⟨t', rfl, rfl⟩
    exact utf8_ascii hd t'

/-- A test of bytes that agrees with a test of characters below 128, and fails above. -/
structure Ascii (p : UInt8 → Bool) (q : Char → Bool) : Prop where
  agree : ∀ c, c.toNat < 128 → p (ascii c) = q c
  above : ∀ c, 128 ≤ c.toNat → q c = false
  bytes : ∀ x, 128 ≤ x.toNat → p x = false

theorem dropWhile_utf8 {p : UInt8 → Bool} {q : Char → Bool} (h : Ascii p q) (t : Text) :
    (utf8 t).dropWhile p = utf8 (t.dropWhile q) := by
  induction t with
  | nil => rfl
  | cons c t ih =>
    by_cases hc : c.toNat < 128
    · rw [utf8_ascii hc, List.dropWhile_cons, List.dropWhile_cons, h.agree c hc, ih]
      split
      · rfl
      · exact (utf8_ascii hc t).symm
    · have hhigh := Nat.le_of_not_lt hc
      rw [List.dropWhile_cons, h.above c hhigh, if_neg Bool.false_ne_true]
      cases he : String.utf8EncodeChar c with
      | nil => exact absurd he (encode_ne_nil c)
      | cons x xs =>
        have hx := h.bytes x (encode_high hhigh x (he ▸ List.mem_cons_self))
        rw [utf8_cons, he, List.cons_append, List.dropWhile_cons, hx, if_neg Bool.false_ne_true]

end SocietyHelper.Library
