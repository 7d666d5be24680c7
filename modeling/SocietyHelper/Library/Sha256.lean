import SocietyHelper.Library.Text

/-! # SHA-256 and its hexadecimal digest

Words are natural numbers below two to the thirty-second, the message schedule
is kept newest word first. Beyond the function itself only the shape of a digest
is used: sixty-four lowercase hexadecimal characters.
-/

namespace SocietyHelper.Library.Sha256

def modulus : Nat := 4294967296

def rotate (n x : Nat) : Nat :=
  Nat.lor (Nat.shiftRight x n) (Nat.mod (Nat.shiftLeft x (Nat.sub 32 n)) modulus)

def choice (x y z : Nat) : Nat := Nat.xor (Nat.land x y) (Nat.land (Nat.sub 4294967295 x) z)

def majority (x y z : Nat) : Nat :=
  Nat.xor (Nat.xor (Nat.land x y) (Nat.land x z)) (Nat.land y z)

def bigSigma0 (x : Nat) : Nat := Nat.xor (Nat.xor (rotate 2 x) (rotate 13 x)) (rotate 22 x)

def bigSigma1 (x : Nat) : Nat := Nat.xor (Nat.xor (rotate 6 x) (rotate 11 x)) (rotate 25 x)

def smallSigma0 (x : Nat) : Nat := Nat.xor (Nat.xor (rotate 7 x) (rotate 18 x)) (Nat.shiftRight x 3)

def smallSigma1 (x : Nat) : Nat := Nat.xor (Nat.xor (rotate 17 x) (rotate 19 x)) (Nat.shiftRight x 10)

def constants : List Nat :=
  [0x428a2f98, 0x71374491, 0xb5c0fbcf, 0xe9b5dba5, 0x3956c25b, 0x59f111f1, 0x923f82a4, 0xab1c5ed5,
   0xd807aa98, 0x12835b01, 0x243185be, 0x550c7dc3, 0x72be5d74, 0x80deb1fe, 0x9bdc06a7, 0xc19bf174,
   0xe49b69c1, 0xefbe4786, 0x0fc19dc6, 0x240ca1cc, 0x2de92c6f, 0x4a7484aa, 0x5cb0a9dc, 0x76f988da,
   0x983e5152, 0xa831c66d, 0xb00327c8, 0xbf597fc7, 0xc6e00bf3, 0xd5a79147, 0x06ca6351, 0x14292967,
   0x27b70a85, 0x2e1b2138, 0x4d2c6dfc, 0x53380d13, 0x650a7354, 0x766a0abb, 0x81c2c92e, 0x92722c85,
   0xa2bfe8a1, 0xa81a664b, 0xc24b8b70, 0xc76c51a3, 0xd192e819, 0xd6990624, 0xf40e3585, 0x106aa070,
   0x19a4c116, 0x1e376c08, 0x2748774c, 0x34b0bcb5, 0x391c0cb3, 0x4ed8aa4a, 0x5b9cca4f, 0x682e6ff3,
   0x748f82ee, 0x78a5636f, 0x84c87814, 0x8cc70208, 0x90befffa, 0xa4506ceb, 0xbef9a3f7, 0xc67178f2]

structure State where
  a : Nat
  b : Nat
  c : Nat
  d : Nat
  e : Nat
  f : Nat
  g : Nat
  h : Nat

def initial : State :=
  ⟨0x6a09e667, 0xbb67ae85, 0x3c6ef372, 0xa54ff53a, 0x510e527f, 0x9b05688c, 0x1f83d9ab, 0x5be0cd19⟩

def plus (x y : Nat) : Nat := Nat.mod (Nat.add x y) modulus

def round (s : State) (k w : Nat) : State :=
  match s with
  | ⟨a, b, c, d, e, f, g, h⟩ =>
    let t := plus (Nat.add (Nat.add h (bigSigma1 e)) (Nat.add (choice e f g) k)) w
    ⟨plus t (Nat.add (bigSigma0 a) (majority a b c)), a, b, c, plus d t, e, f, g⟩

def rounds : List Nat → List Nat → State → State
  | k :: ks, w :: ws, s => rounds ks ws (round s k w)
  | _, _, s => s

/-- Words two, seven, fifteen and sixteen back produce the next one. -/
def nextWord : List Nat → Nat
  | _ :: w2 :: _ :: _ :: _ :: _ :: w7 :: _ :: _ :: _ :: _ :: _ :: _ :: _ :: w15 :: w16 :: _ =>
    plus (Nat.add (smallSigma1 w2) w7) (Nat.add (smallSigma0 w15) w16)
  | _ => 0

def schedule : Nat → List Nat → List Nat
  | 0, ws => ws
  | n + 1, ws => schedule n (nextWord ws :: ws)

def compress (s : State) (block : List Nat) : State :=
  let t := rounds constants (schedule 48 block.reverse).reverse s
  ⟨plus s.a t.a, plus s.b t.b, plus s.c t.c, plus s.d t.d,
    plus s.e t.e, plus s.f t.f, plus s.g t.g, plus s.h t.h⟩

def compressAll : Nat → State → List Nat → State
  | 0, s, _ => s
  | n + 1, s, ws => compressAll n (compress s (ws.take 16)) (ws.drop 16)

def bigEndian (width n : Nat) : List Nat :=
  (List.range width).map fun i => n / 256 ^ (width - 1 - i) % 256

def padded (message : List Nat) : List Nat :=
  message ++ 128 :: List.replicate ((119 - message.length % 64) % 64) 0 ++ bigEndian 8 (8 * message.length)

def wordsOf : List Nat → List Nat
  | a :: b :: c :: d :: rest => (((a * 256 + b) * 256 + c) * 256 + d) :: wordsOf rest
  | _ => []

def run (message : List Nat) : State :=
  let ws := wordsOf (padded message)
  compressAll (ws.length / 16) initial ws

def hexDigit (n : Nat) : Char := (Nat.digitChar (n % 16))

def hexWord (n : Nat) : Text :=
  [28, 24, 20, 16, 12, 8, 4, 0].map fun shift => hexDigit (n >>> shift)

end SocietyHelper.Library.Sha256

namespace SocietyHelper.Library

open Sha256 in
/-- The lowercase hexadecimal SHA-256 digest. -/
def sha256 (bytes : Bytes) : Text :=
  let s := run (bytes.map UInt8.toNat)
  hexWord s.a ++ hexWord s.b ++ hexWord s.c ++ hexWord s.d ++
    hexWord s.e ++ hexWord s.f ++ hexWord s.g ++ hexWord s.h

def isHexDigit (c : Char) : Bool := ('0' ≤ c && c ≤ '9') || ('a' ≤ c && c ≤ 'f')

/-- Sixty-four lowercase hexadecimal characters. -/
def hex (t : Text) : Bool := t.length == 64 && t.all isHexDigit

theorem isHexDigit_hexDigit (n : Nat) : isHexDigit (Sha256.hexDigit n) := by
  have h : ∀ m < 16, isHexDigit (Nat.digitChar m) := by decide
  exact h (n % 16) (Nat.mod_lt n (by decide))

theorem hexWord_all (n : Nat) : ∀ c ∈ Sha256.hexWord n, isHexDigit c := by
  intro c hc
  obtain ⟨shift, _, rfl⟩ := List.mem_map.mp hc
  exact isHexDigit_hexDigit _

theorem hex_sha256 (bytes : Bytes) : hex (sha256 bytes) := by
  rw [hex, Bool.and_eq_true, List.all_eq_true]
  refine ⟨rfl, ?_⟩
  intro c hc
  simp only [sha256, List.mem_append] at hc
  rcases hc with ((((((h | h) | h) | h) | h) | h) | h) | h <;> exact hexWord_all _ c h

theorem hex_length {t : Text} (h : hex t) : t.length = 64 := by
  simp only [hex, Bool.and_eq_true, beq_iff_eq] at h
  exact h.1

theorem ne_nil_of_hex {t : Text} (h : hex t) : t ≠ [] := by
  rintro rfl
  cases h

theorem isHexDigit_of_hex {t : Text} (h : hex t) : ∀ c ∈ t, isHexDigit c := by
  simp only [hex, Bool.and_eq_true, List.all_eq_true] at h
  exact h.2

@[simp] theorem hex_nil : hex [] = false := rfl

end SocietyHelper.Library
