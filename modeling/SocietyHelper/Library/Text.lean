import Mathlib

/-! # Text as lists of Unicode scalars

A text is a list of characters, so the kernel can run over it. Its two sizes
are the number of UTF-16 code units and the number of UTF-8 bytes; decimal
numerals are read back from the digits that `Nat.toDigits` writes.
-/

namespace SocietyHelper.Library

abbrev Text := List Char

abbrev Bytes := List UInt8

instance decidableMemText (t : Text) (ts : List Text) : Decidable (t ∈ ts) := List.instDecidableMemOfLawfulBEq t ts

def text (s : String) : Text := s.toList

def utf8 (t : Text) : Bytes := t.flatMap String.utf8EncodeChar

def utf8Size (t : Text) : Nat := (t.map Char.utf8Size).sum

/-- The number of UTF-16 code units of a text. -/
def utf16Size (t : Text) : Nat := (t.map fun c => if c.val < 0x10000 then 1 else 2).sum

@[simp] theorem utf8Size_nil : utf8Size [] = 0 := rfl

@[simp] theorem utf8Size_cons (c : Char) (t : Text) : utf8Size (c :: t) = c.utf8Size + utf8Size t := by
  simp [utf8Size]

@[simp] theorem utf8Size_append (s t : Text) : utf8Size (s ++ t) = utf8Size s + utf8Size t := by
  simp [utf8Size]

theorem utf8_length (t : Text) : (utf8 t).length = utf8Size t := by
  induction t with
  | nil => rfl
  | cons c t ih =>
    rw [utf8Size_cons, ← ih]
    simp [utf8, String.length_utf8EncodeChar]

theorem utf8Size_flatten (ts : List Text) : utf8Size ts.flatten = (ts.map utf8Size).sum := by
  induction ts with
  | nil => rfl
  | cons t ts ih => simp [ih]

theorem utf8Size_eq_length {t : Text} (h : ∀ c ∈ t, c.utf8Size = 1) : utf8Size t = t.length := by
  induction t with
  | nil => rfl
  | cons c t ih =>
    rw [utf8Size_cons, h c List.mem_cons_self, ih fun d hd => h d (List.mem_cons_of_mem c hd)]
    simp [Nat.add_comm]

/-! ## Decimal numerals -/

def decimal (n : Nat) : Text := Nat.toDigits 10 n

/-- A signed numeral. -/
def decimalInt : Int → Text
  | .ofNat n => decimal n
  | .negSucc n => '-' :: decimal (n + 1)

@[simp] theorem decimalInt_natCast (n : Nat) : decimalInt n = decimal n := rfl

def decimalValue (t : Text) : Option Nat :=
  if t ≠ [] ∧ t.all Char.isDigit then some (Nat.ofDigitChars 10 t 0) else none

def trimmed (t : Text) : Text :=
  ((t.dropWhile Char.isWhitespace).reverse.dropWhile Char.isWhitespace).reverse

/-- Base ten with an optional sign and surrounding blanks, inside 64 signed bits. -/
def toLongLong (t : Text) : Option Int :=
  match trimmed t with
  | '-' :: digits => (decimalValue digits).bind fun n => if n ≤ 2 ^ 63 then some (-(n : Int)) else none
  | '+' :: digits => (decimalValue digits).bind fun n => if n < 2 ^ 63 then some (n : Int) else none
  | digits => (decimalValue digits).bind fun n => if n < 2 ^ 63 then some (n : Int) else none

theorem isDigit_of_mem_decimal {n : Nat} {c : Char} (h : c ∈ decimal n) : c.isDigit :=
  Nat.isDigit_of_mem_toDigits (by decide) (by decide) h

theorem decimal_ne_nil (n : Nat) : decimal n ≠ [] := Nat.toDigits_ne_nil

theorem not_isWhitespace_of_isDigit {c : Char} (h : c.isDigit) : c.isWhitespace = false := by
  have hc : 48 ≤ c.val.toNat ∧ c.val.toNat ≤ 57 := by
    simpa [Char.isDigit, UInt32.le_iff_toNat_le] using h
  by_contra hw
  simp only [Bool.not_eq_false, Char.isWhitespace, Bool.or_eq_true, decide_eq_true_eq, or_assoc] at hw
  rcases hw with rfl | rfl | rfl | rfl <;> exact absurd hc (by decide)

theorem dropWhile_isWhitespace {t : Text} (h : ∀ c ∈ t, c.isDigit) :
    t.dropWhile Char.isWhitespace = t := by
  cases t with
  | nil => rfl
  | cons c t => simp [not_isWhitespace_of_isDigit (h c List.mem_cons_self)]

theorem trimmed_eq {t : Text} (h : ∀ c ∈ t, c.isDigit) : trimmed t = t := by
  rw [trimmed, dropWhile_isWhitespace h, dropWhile_isWhitespace (by simpa using h), List.reverse_reverse]

@[simp] theorem decimalValue_decimal (n : Nat) : decimalValue (decimal n) = some n := by
  have hall : (decimal n).all Char.isDigit := List.all_eq_true.mpr fun c hc => isDigit_of_mem_decimal hc
  rw [decimalValue, if_pos ⟨decimal_ne_nil n, hall⟩]
  exact congrArg some Nat.ofDigitChars_ten_toDigits

theorem toLongLong_of_digits {t : Text} (h : ∀ c ∈ t, c.isDigit) :
    toLongLong t = (decimalValue t).bind fun n => if n < 2 ^ 63 then some (n : Int) else none := by
  rw [toLongLong, trimmed_eq h]
  split
  · exact absurd (h '-' List.mem_cons_self) (by decide)
  · exact absurd (h '+' List.mem_cons_self) (by decide)
  · rfl

theorem toLongLong_decimal {n : Nat} (h : n < 2 ^ 63) : toLongLong (decimal n) = some (n : Int) := by
  rw [toLongLong_of_digits fun c hc => isDigit_of_mem_decimal hc, decimalValue_decimal]
  exact if_pos h

theorem toLongLong_exact {n : Nat} {i : Int} (h : toLongLong (decimal n) = some i) : i = n := by
  rw [toLongLong_of_digits fun c hc => isDigit_of_mem_decimal hc, decimalValue_decimal, Option.bind_some] at h
  split at h
  · exact (Option.some.inj h).symm
  · cases h

theorem decimal_injective : Function.Injective decimal := by
  intro m n h
  have hm := decimalValue_decimal m
  rw [h, decimalValue_decimal] at hm
  exact (Option.some.inj hm).symm

theorem utf8Size_of_isDigit {c : Char} (h : c.isDigit) : c.utf8Size = 1 := by
  have hc : 48 ≤ c.val.toNat ∧ c.val.toNat ≤ 57 := by
    simpa [Char.isDigit, UInt32.le_iff_toNat_le] using h
  rw [Char.utf8Size_eq_one_iff, UInt32.le_iff_toNat_le]
  exact Nat.le_trans hc.2 (by decide)

theorem utf8Size_decimal_le {n k : Nat} (hk : 0 < k) (h : n < 10 ^ k) : utf8Size (decimal n) ≤ k := by
  rw [utf8Size_eq_length fun c hc => utf8Size_of_isDigit (isDigit_of_mem_decimal hc)]
  exact (Nat.length_toDigits_le_iff (by decide) hk).mpr h

end SocietyHelper.Library
