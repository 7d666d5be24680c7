import SocietyHelper.Library.Text

/-! # The grammar of RFC 8259

Texts are related to the trees that they denote, rule by rule as the RFC states
them. A string denotes the pieces that it is written with, so that a code unit
given by its digits stays apart from a character until the string is decoded.
-/

namespace SocietyHelper.Library.JsonGrammar

/-! ## Whitespace and structural characters -/

def isWs (c : Char) : Bool := c = ' ' || c = '\t' || c = '\n' || c = '\r'

def Ws (t : Text) : Prop := ∀ c ∈ t, isWs c

/-- A structural character with the whitespace around it. -/
def Token (c : Char) (t : Text) : Prop := ∃ a b, Ws a ∧ Ws b ∧ t = a ++ c :: b

theorem Token.ws {c : Char} {w a : Text} (hw : Ws w) (h : Token c a) : Token c (w ++ a) := by
  obtain ⟨x, y, hx, hy, rfl⟩ := h
  exact ⟨w ++ x, y, fun d hd => (List.mem_append.mp hd).elim (hw d) (hx d), hy, by simp⟩

/-! ## Strings -/

inductive Piece where
  | scalar (c : Char)
  | unit (u : Nat)
  deriving DecidableEq

def Unescaped (c : Char) : Prop := 0x20 ≤ c.toNat ∧ c ≠ '"' ∧ c ≠ '\\'

def escapes : List (Char × Char) :=
  [('"', '"'), ('\\', '\\'), ('/', '/'), ('b', Char.ofNat 8), ('f', Char.ofNat 12), ('n', '\n'), ('r', '\r'),
    ('t', '\t')]

def hexDigit (c : Char) : Option Nat :=
  if '0' ≤ c ∧ c ≤ '9' then some (c.toNat - 48)
  else if 'a' ≤ c ∧ c ≤ 'f' then some (c.toNat - 87)
  else if 'A' ≤ c ∧ c ≤ 'F' then some (c.toNat - 55)
  else none

/-- The value of hexadecimal digits, read from `v` on. -/
def hexFrom (v : Nat) : Text → Option Nat
  | [] => some v
  | c :: ds => match hexDigit c with
    | some d => hexFrom (v * 16 + d) ds
    | none => none

inductive Character : Text → Piece → Prop where
  | unescaped {c : Char} (h : Unescaped c) : Character [c] (.scalar c)
  | escaped {e c : Char} (h : (e, c) ∈ escapes) : Character ['\\', e] (.scalar c)
  | unit {ds : Text} {u : Nat} (four : ds.length = 4) (hex : hexFrom 0 ds = some u) :
      Character ('\\' :: 'u' :: ds) (.unit u)

inductive Chars : Text → List Piece → Prop where
  | nil : Chars [] []
  | cons {t ts : Text} {p : Piece} {ps : List Piece} (h : Character t p) (hs : Chars ts ps) :
      Chars (t ++ ts) (p :: ps)

theorem Chars.one {t : Text} {p : Piece} (h : Character t p) : Chars t [p] := by
  simpa using Chars.cons h .nil

theorem Chars.append {s t : Text} {ps qs : List Piece} (hs : Chars s ps) (ht : Chars t qs) :
    Chars (s ++ t) (ps ++ qs) := by
  induction hs with
  | nil => exact ht
  | cons h _ ih =>
    rw [List.append_assoc, List.cons_append]
    exact .cons h ih

theorem Chars.single {t : Text} {p : Piece} (h : Chars t [p]) : Character t p := by
  cases h with
  | cons h hs =>
    cases hs
    rwa [List.append_nil]

theorem Chars.split {t : Text} {ps qs : List Piece} (h : Chars t (ps ++ qs)) :
    ∃ k s, t = k ++ s ∧ Chars k ps ∧ Chars s qs := by
  induction ps generalizing t with
  | nil => exact ⟨[], t, rfl, .nil, h⟩
  | cons p ps ih =>
    cases h with
    | cons h hs =>
      obtain ⟨k, s, rfl, hk, hs⟩ := ih hs
      exact ⟨_, s, (List.append_assoc _ _ _).symm, .cons h hk, hs⟩

def JsonString (t : Text) (ps : List Piece) : Prop := ∃ body, Chars body ps ∧ t = '"' :: (body ++ ['"'])

def high (u : Nat) : Bool := 0xd800 ≤ u && u ≤ 0xdbff

def low (u : Nat) : Bool := 0xdc00 ≤ u && u ≤ 0xdfff

def pair (u v : Nat) : Char := Char.ofNat (0x10000 + (u - 0xd800) * 0x400 + (v - 0xdc00))

/-- The text of a string. A surrogate counts only as half of a pair. -/
def decode : List Piece → Option Text
  | [] => some []
  | .scalar c :: ps => (decode ps).map (c :: ·)
  | .unit u :: .unit v :: ps =>
    if high u then if low v then (decode ps).map (pair u v :: ·) else none
    else if low u then none
    else (decode (.unit v :: ps)).map (Char.ofNat u :: ·)
  | .unit u :: ps => if high u || low u then none else (decode ps).map (Char.ofNat u :: ·)

/-! ## Numbers -/

def Digits (t : Text) : Prop := ∀ c ∈ t, c.isDigit

inductive Int : Text → Prop where
  | zero : Int ['0']
  | digits {c : Char} {ds : Text} (first : '1' ≤ c ∧ c ≤ '9') (more : Digits ds) : Int (c :: ds)

inductive Frac : Text → Prop where
  | absent : Frac []
  | present {ds : Text} (some : ds ≠ []) (digits : Digits ds) : Frac ('.' :: ds)

inductive Exp : Text → Prop where
  | absent : Exp []
  | present {e : Char} {sign ds : Text} (letter : e = 'e' ∨ e = 'E') (signed : sign ∈ [[], ['+'], ['-']])
      (some : ds ≠ []) (digits : Digits ds) : Exp (e :: (sign ++ ds))

inductive Number : Text → Prop where
  | mk {minus int frac exp : Text} (signed : minus ∈ [[], ['-']]) (hint : Int int) (hfrac : Frac frac)
      (hexp : Exp exp) : Number (minus ++ (int ++ (frac ++ exp)))

/-! ## Values -/

inductive Tree where
  | literal (name : Text)
  | number (lexeme : Text)
  | string (pieces : List Piece)
  | array (items : List Tree)
  | object (members : List (List Piece × Tree))

/-- What is written of one member of an object, and what it denotes. -/
structure Member where
  name : Text
  key : List Piece
  colon : Text
  value : Text
  tree : Tree

def Member.text (m : Member) : Text := m.name ++ (m.colon ++ m.value)

def Member.denoted (m : Member) : List Piece × Tree := (m.key, m.tree)

/-- At least one text, with separators in between. -/
inductive Separated : List Text → Text → Prop where
  | one (t : Text) : Separated [t] t
  | more {t comma s : Text} {ts : List Text} (hcomma : Token ',' comma) (hs : Separated ts s) :
      Separated (t :: ts) (t ++ (comma ++ s))

theorem Separated.length_le {ks : List Text} {x : Text} (h : Separated ks x) : ks.length ≤ x.length + 1 := by
  induction h with
  | one t => exact Nat.le_add_left 1 _
  | more hcomma _ ih =>
    obtain ⟨a, b, -, -, rfl⟩ := hcomma
    simp only [List.length_cons, List.length_append]
    omega

inductive Value : Text → Tree → Prop where
  | literal {name : Text} (h : name ∈ [text "false", text "null", text "true"]) : Value name (.literal name)
  | number {t : Text} (h : Number t) : Value t (.number t)
  | string {t : Text} {ps : List Piece} (h : JsonString t ps) : Value t (.string ps)
  | emptyArray {a b : Text} (begun : Token '[' a) (ended : Token ']' b) : Value (a ++ b) (.array [])
  | array {a t b : Text} {vs : List (Text × Tree)} (begun : Token '[' a)
      (items : Separated (vs.map Prod.fst) t) (each : ∀ v ∈ vs, Value v.1 v.2) (ended : Token ']' b) :
      Value (a ++ (t ++ b)) (.array (vs.map Prod.snd))
  | emptyObject {a b : Text} (begun : Token '\x7b' a) (ended : Token '\x7d' b) : Value (a ++ b) (.object [])
  | object {a t b : Text} {ms : List Member} (begun : Token '\x7b' a)
      (members : Separated (ms.map Member.text) t) (names : ∀ m ∈ ms, JsonString m.name m.key ∧ Token ':' m.colon)
      (each : ∀ m ∈ ms, Value m.value m.tree) (ended : Token '\x7d' b) :
      Value (a ++ (t ++ b)) (.object (ms.map Member.denoted))

def JsonText (t : Text) (tree : Tree) : Prop := ∃ a v b, Ws a ∧ Value v tree ∧ Ws b ∧ t = a ++ (v ++ b)

/-- At most `n` levels of nesting, and no surrogate alone in any string. -/
def Tree.Within : Nat → Tree → Prop
  | 0, _ => False
  | n + 1, .array items => ∀ t ∈ items, t.Within n
  | n + 1, .object members => ∀ m ∈ members, (decode m.1).isSome ∧ m.2.Within n
  | _ + 1, .string ps => (decode ps).isSome
  | _ + 1, _ => True

end SocietyHelper.Library.JsonGrammar
