import SocietyHelper.Library.Sha256

/-! # HMAC over SHA-256

Keys are padded with zeros to a block, longer ones are hashed first. The code is
given in hexadecimal, like the digest it is made of.
-/

namespace SocietyHelper.Library

def hexValue (c : Char) : Nat := if c.isDigit then c.toNat - 48 else c.toNat - 87

/-- The bytes that pairs of hexadecimal characters stand for. -/
def fromHex : Text → Bytes
  | a :: b :: rest => UInt8.ofNat (hexValue a * 16 + hexValue b) :: fromHex rest
  | _ => []

theorem fromHex_length : ∀ t : Text, (fromHex t).length = t.length / 2
  | [] => rfl
  | [_] => by simp [fromHex]
  | _ :: _ :: rest => by
    rw [fromHex, List.length_cons, fromHex_length rest, List.length_cons, List.length_cons]
    omega

/-- Thirty-two bytes from sixty-four characters. -/
theorem fromHex_length_of_hex {t : Text} (h : hex t) : (fromHex t).length = 32 := by
  rw [fromHex_length, hex_length h]

def hmacBlock (key : Bytes) : Bytes :=
  let key := if 64 < key.length then fromHex (sha256 key) else key
  key ++ List.replicate (64 - key.length) 0

/-- The code of a message under a key. -/
def hmacSha256 (key message : Bytes) : Text :=
  let block := hmacBlock key
  sha256 (block.map (· ^^^ 0x5c) ++ fromHex (sha256 (block.map (· ^^^ 0x36) ++ message)))

theorem hex_hmacSha256 (key message : Bytes) : hex (hmacSha256 key message) := hex_sha256 _

/-- The code of "what do ya want for nothing?" under the key "Jefe". -/
example : hmacSha256 (utf8 (text "Jefe")) (utf8 (text "what do ya want for nothing?")) =
    text "5bdcc146bf60754e6a042426089575c75a003f089d2739839dec58b964ec3843" := by
  decide +kernel

theorem decimalInt_injective : Function.Injective decimalInt := by
  have hdigit : ∀ m n : Nat, decimal m ≠ '-' :: decimal n := by
    intro m n heq
    have hmem : '-' ∈ decimal m := by rw [heq]; exact List.mem_cons_self
    exact absurd (isDigit_of_mem_decimal hmem) (by decide)
  intro a b h
  cases a with
  | ofNat m =>
    cases b with
    | ofNat n => exact congrArg Int.ofNat (decimal_injective h)
    | negSucc n => exact absurd h (hdigit m (n + 1))
  | negSucc m =>
    cases b with
    | ofNat n => exact absurd h.symm (hdigit n (m + 1))
    | negSucc n => exact congrArg Int.negSucc (Nat.succ.inj (decimal_injective (List.cons.inj h).2))

end SocietyHelper.Library
