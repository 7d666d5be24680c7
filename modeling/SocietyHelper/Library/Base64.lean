import SocietyHelper.Library.Text

/-! # Base 64

Six bits a character, the last group padded. The decoder stops at the first
character that is not of the alphabet, except for padding at the very end.
-/

namespace SocietyHelper.Library.Base64

def alphabet : Text :=
  text "ABCDEFGHIJKLMNOPQRSTUVWXYZabcdefghijklmnopqrstuvwxyz0123456789+/"

def digit (n : Nat) : Char := alphabet.getD n 'A'

def value (c : Char) : Option Nat :=
  if 'A' ≤ c ∧ c ≤ 'Z' then some (c.toNat - 65)
  else if 'a' ≤ c ∧ c ≤ 'z' then some (c.toNat - 71)
  else if '0' ≤ c ∧ c ≤ '9' then some (c.toNat + 4)
  else if c = '+' then some 62
  else if c = '/' then some 63
  else none

def encode : Bytes → Text
  | [] => []
  | [a] => [digit (a.toNat / 4), digit (a.toNat % 4 * 16), '=', '=']
  | [a, b] =>
    [digit (a.toNat / 4), digit (a.toNat % 4 * 16 + b.toNat / 16), digit (b.toNat % 16 * 4), '=']
  | a :: b :: c :: rest =>
    digit (a.toNat / 4) :: digit (a.toNat % 4 * 16 + b.toNat / 16) :: digit (b.toNat % 16 * 4 + c.toNat / 64) ::
      digit (c.toNat % 64) :: encode rest

/-- Decode with `bits` bits already read, whose value is `buffer`. -/
def decodeFrom (aligned : Bool) (buffer bits : Nat) : Text → Option Bytes
  | [] => some []
  | c :: rest =>
    match value c with
    | some d =>
      if 2 ≤ bits then
        (decodeFrom aligned ((buffer * 64 + d) % 2 ^ (bits - 2)) (bits - 2) rest).map
          (UInt8.ofNat ((buffer * 64 + d) / 2 ^ (bits - 2)) :: ·)
      else decodeFrom aligned (buffer * 64 + d) (bits + 6) rest
    | none => if c = '=' ∧ aligned ∧ (rest = [] ∨ rest = ['=']) then some [] else none

def decode (t : Text) : Option Bytes := decodeFrom (t.length % 4 = 0) 0 0 t

theorem value_digit : ∀ n : Fin 64, value (digit n) = some n := by decide +kernel

theorem value_digit_of_lt {n : Nat} (h : n < 64) : value (digit n) = some n := value_digit ⟨n, h⟩

theorem decodeFrom_first {aligned : Bool} {buffer n : Nat} (h : n < 64) (rest : Text) :
    decodeFrom aligned buffer 0 (digit n :: rest) = decodeFrom aligned (buffer * 64 + n) 6 rest := by
  rw [decodeFrom, value_digit_of_lt h]
  rfl

/-- A character that completes a byte leaves `bits` bits of it for the next one. -/
theorem decodeFrom_next {aligned : Bool} {buffer n : Nat} (bits : Nat) (h : n < 64) (rest : Text) :
    decodeFrom aligned buffer (bits + 2) (digit n :: rest) =
      (decodeFrom aligned ((buffer * 64 + n) % 2 ^ bits) bits rest).map
        (UInt8.ofNat ((buffer * 64 + n) / 2 ^ bits) :: ·) := by
  rw [decodeFrom, value_digit_of_lt h]
  simp

theorem decodeFrom_padding {buffer bits : Nat} :
    decodeFrom true buffer bits ['='] = some [] ∧ decodeFrom true buffer bits ['=', '='] = some [] := by
  have hvalue : value '=' = none := by decide
  rw [decodeFrom, hvalue, decodeFrom, hvalue]
  simp

theorem length_encode (b : Bytes) : (encode b).length % 4 = 0 := by
  induction b using encode.induct with
  | case1 => rfl
  | case2 a => simp [encode]
  | case3 a b => simp [encode]
  | case4 a b c rest ih =>
    simp only [encode, List.length_cons]
    omega

theorem digit_lt (n : Nat) : (digit n).toNat < 128 := by
  rcases Nat.lt_or_ge n 64 with hlt | hge
  · have hall : ∀ m : Fin 64, (digit m).toNat < 128 := by decide +kernel
    exact hall ⟨n, hlt⟩
  · have hlength : alphabet.length = 64 := by decide +kernel
    rw [digit, List.getD_eq_getElem?_getD, List.getElem?_eq_none (by omega)]
    decide

theorem encode_lt (b : Bytes) : ∀ c ∈ encode b, c.toNat < 128 := by
  induction b using encode.induct with
  | case1 => simp [encode]
  | case2 a => simp [encode, digit_lt]
  | case3 a b => simp [encode, digit_lt]
  | case4 a b c rest ih =>
    simp only [encode, List.mem_cons, forall_eq_or_imp]
    exact ⟨digit_lt _, digit_lt _, digit_lt _, digit_lt _, ih⟩

theorem utf16Size_encode (b : Bytes) : utf16Size (encode b) = (b.length + 2) / 3 * 4 := by
  have hdigit : ∀ n, (if (digit n).val < 0x10000 then 1 else 2) = 1 := by
    intro n
    exact if_pos (UInt32.lt_iff_toNat_lt.mpr (Nat.lt_trans (digit_lt n) (by decide)))
  induction b using encode.induct with
  | case1 => rfl
  | case2 a => simp [encode, utf16Size, hdigit]
  | case3 a b => simp [encode, utf16Size, hdigit]
  | case4 a b c rest ih =>
    simp only [utf16Size] at ih
    simp only [encode, utf16Size, List.map_cons, List.sum_cons, List.length_cons, hdigit, ih]
    omega

theorem decodeFrom_encode (b : Bytes) : decodeFrom true 0 0 (encode b) = some b := by
  induction b using encode.induct with
  | case1 => rfl
  | case2 a =>
    have ha : a.toNat < 256 := a.toNat_lt
    have hbyte : (a.toNat / 4 * 64 + a.toNat % 4 * 16) / 16 = a.toNat := by omega
    rw [encode, decodeFrom_first (by omega), decodeFrom_next 4 (by omega), decodeFrom_padding.2]
    simp [hbyte]
  | case3 a b =>
    have ha : a.toNat < 256 := a.toNat_lt
    have hb : b.toNat < 256 := b.toNat_lt
    have hfirst : (a.toNat / 4 * 64 + (a.toNat % 4 * 16 + b.toNat / 16)) / 16 = a.toNat := by omega
    have hsecond : ((a.toNat / 4 * 64 + (a.toNat % 4 * 16 + b.toNat / 16)) % 16 * 64 + b.toNat % 16 * 4) / 4 =
        b.toNat := by omega
    rw [encode, decodeFrom_first (by omega), decodeFrom_next 4 (by omega),
      decodeFrom_next 2 (by omega), decodeFrom_padding.1]
    simp [hfirst, hsecond]
  | case4 a b c rest ih =>
    have ha : a.toNat < 256 := a.toNat_lt
    have hb : b.toNat < 256 := b.toNat_lt
    have hc : c.toNat < 256 := c.toNat_lt
    have hfirst : (a.toNat / 4 * 64 + (a.toNat % 4 * 16 + b.toNat / 16)) / 16 = a.toNat := by omega
    have hsecond : ((a.toNat / 4 * 64 + (a.toNat % 4 * 16 + b.toNat / 16)) % 16 * 64 +
        (b.toNat % 16 * 4 + c.toNat / 64)) / 4 = b.toNat := by omega
    have hthird : ((a.toNat / 4 * 64 + (a.toNat % 4 * 16 + b.toNat / 16)) % 16 * 64 +
        (b.toNat % 16 * 4 + c.toNat / 64)) % 4 * 64 + c.toNat % 64 = c.toNat := by omega
    rw [encode, decodeFrom_first (by omega), decodeFrom_next 4 (by omega),
      decodeFrom_next 2 (by omega), decodeFrom_next 0 (by omega)]
    simp [hfirst, hsecond, hthird, ih, Nat.mod_one]

theorem decode_encode (b : Bytes) : decode (encode b) = some b := by
  rw [decode, decide_eq_true (length_encode b)]
  exact decodeFrom_encode b

end SocietyHelper.Library.Base64
