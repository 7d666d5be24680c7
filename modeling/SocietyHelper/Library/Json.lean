import SocietyHelper.Library.Text

/-! # Compact JSON text

A member of an object is absent, a string, or any other value in its compact
form. Objects are written with their members in key order, so the text of an
object does not depend on the order in which its members were inserted.
-/

namespace SocietyHelper.Library

inductive Value where
  | undefined
  | string (t : Text)
  | other (json : Text)
  deriving DecidableEq, Repr

namespace Value

/-- The string a member holds, empty where it holds none. -/
def text : Value → Text
  | string t => t
  | _ => []

def isString : Value → Bool
  | string _ => true
  | _ => false

def defined : Value → Bool
  | undefined => false
  | _ => true

def bool (b : Bool) : Value := other (Library.text (if b then "true" else "false"))

def isBool (v : Value) : Bool := v = bool true || v = bool false

/-- True for the literal `true` only. -/
def toBool (v : Value) : Bool := v = bool true

@[simp] theorem text_undefined : undefined.text = [] := rfl
@[simp] theorem text_string (t : Text) : (string t).text = t := rfl
@[simp] theorem text_other (t : Text) : (other t).text = [] := rfl
@[simp] theorem defined_undefined : undefined.defined = false := rfl
@[simp] theorem defined_string (t : Text) : (string t).defined = true := rfl

theorem bool_injective {a b : Bool} (h : bool a = bool b) : a = b := by
  cases a <;> cases b <;> first | rfl | exact absurd h (by decide)

@[simp] theorem isBool_bool (b : Bool) : (bool b).isBool := by
  cases b <;> decide

@[simp] theorem toBool_bool (b : Bool) : (bool b).toBool = b := by
  cases b <;> decide

theorem isString_iff (v : Value) : v.isString ↔ v = string v.text := by
  cases v <;> simp [isString, text]

theorem isString_of_text_ne {v : Value} (h : v.text ≠ []) : v.isString := by
  cases v with
  | string t => rfl
  | undefined => exact absurd rfl h
  | other t => exact absurd rfl h

theorem defined_of_text_ne {v : Value} (h : v.text ≠ []) : v.defined := by
  cases v with
  | undefined => exact absurd rfl h
  | string t => rfl
  | other t => exact absurd rfl h

end Value

namespace Json

def hexPair (n : Nat) : Text := [Nat.digitChar (n / 16), Nat.digitChar (n % 16)]

def escape (c : Char) : Text :=
  if c = '"' then ['\\', '"']
  else if c = '\\' then ['\\', '\\']
  else if c.toNat = 8 then ['\\', 'b']
  else if c.toNat = 9 then ['\\', 't']
  else if c.toNat = 10 then ['\\', 'n']
  else if c.toNat = 12 then ['\\', 'f']
  else if c.toNat = 13 then ['\\', 'r']
  else if c.toNat < 32 then ['\\', 'u', '0', '0'] ++ hexPair c.toNat
  else [c]

def quote (t : Text) : Text := '"' :: t.flatMap escape ++ ['"']

def commas (ts : List Text) : Text := [','].intercalate ts

/-- Keys are compared by their characters, as the object's own order does. -/
def keyLe : Text → Text → Bool
  | [], _ => true
  | _ :: _, [] => false
  | a :: s, b :: t => a.toNat < b.toNat || (a.toNat == b.toNat && keyLe s t)

theorem keyLe_refl (s : Text) : keyLe s s := by
  induction s with
  | nil => rfl
  | cons a s ih => simp [keyLe, ih]

theorem keyLe_total (s t : Text) : keyLe s t ∨ keyLe t s := by
  induction s generalizing t with
  | nil => exact .inl rfl
  | cons a s ih =>
    cases t with
    | nil => exact .inr rfl
    | cons b t =>
      simp only [keyLe, Bool.or_eq_true, Bool.and_eq_true, decide_eq_true_eq, beq_iff_eq]
      rcases Nat.lt_trichotomy a.toNat b.toNat with h | h | h
      · exact .inl (.inl h)
      · exact (ih t).imp (fun hs => .inr ⟨h, hs⟩) fun ht => .inr ⟨h.symm, ht⟩
      · exact .inr (.inl h)

theorem keyLe_trans {s t u : Text} (h : keyLe s t) (h' : keyLe t u) : keyLe s u := by
  induction s generalizing t u with
  | nil => rfl
  | cons a s ih =>
    cases t with
    | nil => cases h
    | cons b t =>
      cases u with
      | nil => cases h'
      | cons c u =>
        simp only [keyLe, Bool.or_eq_true, Bool.and_eq_true, decide_eq_true_eq, beq_iff_eq] at h h' ⊢
        rcases h with h | ⟨h, hs⟩
        · left
          omega
        · rcases h' with h' | ⟨h', ht⟩
          · left
            omega
          · exact .inr ⟨h.trans h', ih hs ht⟩

theorem keyLe_antisymm {s t : Text} (h : keyLe s t) (h' : keyLe t s) : s = t := by
  induction s generalizing t with
  | nil =>
    cases t with
    | nil => rfl
    | cons b t => cases h'
  | cons a s ih =>
    cases t with
    | nil => cases h
    | cons b t =>
      simp only [keyLe, Bool.or_eq_true, Bool.and_eq_true, decide_eq_true_eq, beq_iff_eq] at h h'
      rcases h with h | ⟨h, hs⟩
      · omega
      · rcases h' with h' | ⟨-, ht⟩
        · omega
        · rw [Char.toNat_inj.mp h, ih hs ht]

def member (m : Text × Text) : Text := quote m.1 ++ ':' :: m.2

def object (members : List (Text × Text)) : Text :=
  '{' :: commas ((members.insertionSort fun a b => keyLe a.1 b.1).map member) ++ ['}']

def array (items : List Text) : Text := '[' :: commas items ++ [']']

def value : Value → Text
  | .undefined => text "null"
  | .string t => quote t
  | .other t => t

/-- The members a value contributes to an object: an undefined one is left out. -/
def field (key : Text) (v : Value) : List (Text × Text) := if v.defined then [(key, value v)] else []

@[simp] theorem field_undefined (key : Text) : field key .undefined = [] := rfl

@[simp] theorem field_string (key t : Text) : field key (.string t) = [(key, quote t)] := rfl

theorem utf8Size_commas (ts : List Text) :
    utf8Size (commas ts) = (ts.map fun t => utf8Size t + 1).sum - 1 := by
  induction ts with
  | nil => rfl
  | cons t ts ih =>
    cases ts with
    | nil => simp [commas]
    | cons u us =>
      have hstep : commas (t :: u :: us) = t ++ ',' :: commas (u :: us) := by
        simp [commas, List.intercalate, List.intersperse]
      have hcomma : (','.utf8Size) = 1 := by decide
      rw [hstep, utf8Size_append, utf8Size_cons, hcomma, ih]
      simp only [List.map_cons, List.sum_cons]
      omega

/-- What a member adds to the text of its object, the comma after it included. -/
def memberSize (m : Text × Text) : Nat := utf8Size (quote m.1) + utf8Size m.2 + 2

theorem memberSize_field_string (key t : Text) :
    ((field key (.string t)).map memberSize).sum = utf8Size (quote key) + utf8Size (quote t) + 2 := by
  simp [memberSize]

theorem utf8Size_object (members : List (Text × Text)) :
    utf8Size (object members) = 2 + ((members.map memberSize).sum - 1) := by
  have hperm := List.perm_insertionSort (fun a b : Text × Text => keyLe a.1 b.1) members
  have hsum := (hperm.map memberSize).sum_eq
  have hmember : ∀ m : Text × Text, utf8Size (member m) + 1 = memberSize m := by
    intro m
    have hcolon : (':'.utf8Size) = 1 := by decide
    rw [member, utf8Size_append, utf8Size_cons, hcolon, memberSize]
    omega
  have hcommas := utf8Size_commas ((members.insertionSort fun a b => keyLe a.1 b.1).map member)
  rw [List.map_map, Function.comp_def] at hcommas
  simp only [hmember, hsum] at hcommas
  have hbraces : ('{'.utf8Size) = 1 ∧ ('}'.utf8Size) = 1 := by decide
  rw [object, List.cons_append, utf8Size_cons, utf8Size_append, utf8Size_cons, utf8Size_nil, hbraces.1,
    hbraces.2, hcommas]
  omega

theorem utf8Size_object_le_of_sublist {ms ns : List (Text × Text)} (h : ms.Sublist ns) :
    utf8Size (object ms) ≤ utf8Size (object ns) := by
  have hsum : (ms.map memberSize).sum ≤ (ns.map memberSize).sum := by
    induction h with
    | slnil => simp
    | cons m _ ih => simp only [List.map_cons, List.sum_cons]; omega
    | cons_cons m _ ih => simp only [List.map_cons, List.sum_cons]; omega
  rw [utf8Size_object, utf8Size_object]
  omega

theorem utf8Size_array_le (items : List Text) :
    utf8Size (array items) ≤ 2 + (items.map fun t => utf8Size t + 1).sum := by
  have hcommas := utf8Size_commas items
  have hbrackets : ('['.utf8Size) = 1 ∧ (']'.utf8Size) = 1 := by decide
  rw [array, List.cons_append, utf8Size_cons, utf8Size_append, utf8Size_cons, utf8Size_nil, hbrackets.1, hbrackets.2]
  omega

theorem utf8Size_array_le_sum (items : List Text) :
    utf8Size (array items) ≤ 2 + (items.map utf8Size).sum + items.length := by
  refine Nat.le_trans (utf8Size_array_le items) ?_
  rw [Nat.add_assoc]
  refine Nat.add_le_add_left ?_ 2
  induction items with
  | nil => exact Nat.le_refl 0
  | cons t items ih =>
    simp only [List.map_cons, List.sum_cons, List.length_cons]
    omega

theorem utf8Size_array_le_of_forall {items : List Text} {n : Nat} (h : ∀ t ∈ items, utf8Size t ≤ n) :
    utf8Size (array items) ≤ 2 + items.length * (n + 1) := by
  have hsum : (items.map utf8Size).sum ≤ items.length * n := by
    induction items with
    | nil => simp
    | cons t items ih =>
      have ht := h t List.mem_cons_self
      have hrest := ih fun u hu => h u (List.mem_cons_of_mem t hu)
      rw [List.map_cons, List.sum_cons, List.length_cons, Nat.succ_mul]
      omega
  have harray := utf8Size_array_le_sum items
  rw [Nat.mul_succ]
  omega

/-- A character that is written as itself: printable and neither a quote nor a backslash. -/
def plain (c : Char) : Bool := 32 ≤ c.toNat && c.toNat < 128 && c ≠ '"' && c ≠ '\\'

theorem escape_plain {c : Char} (h : plain c) : escape c = [c] := by
  simp only [plain, Bool.and_eq_true, decide_eq_true_eq] at h
  obtain ⟨⟨⟨hlow, _⟩, hquote⟩, hslash⟩ := h
  rw [escape, if_neg hquote, if_neg hslash, if_neg (by omega), if_neg (by omega), if_neg (by omega),
    if_neg (by omega), if_neg (by omega), if_neg (by omega)]

theorem utf8Size_plain {c : Char} (h : plain c) : c.utf8Size = 1 := by
  simp only [plain, Bool.and_eq_true, decide_eq_true_eq] at h
  rw [Char.utf8Size_eq_one_iff, UInt32.le_iff_toNat_le]
  exact Nat.le_of_lt_succ h.1.1.2

theorem utf8Size_quote_plain {t : Text} (h : ∀ c ∈ t, plain c) : utf8Size (quote t) = t.length + 2 := by
  have hescape : t.flatMap escape = t := by
    induction t with
    | nil => rfl
    | cons c t ih =>
      rw [List.flatMap_cons, escape_plain (h c List.mem_cons_self),
        ih fun d hd => h d (List.mem_cons_of_mem c hd)]
      rfl
  have hsize : utf8Size t = t.length := utf8Size_eq_length fun c hc => utf8Size_plain (h c hc)
  have hquote : ('"'.utf8Size) = 1 := by decide
  rw [quote, hescape, List.cons_append, utf8Size_cons, utf8Size_append, utf8Size_cons, utf8Size_nil, hsize, hquote]
  omega

end Json

end SocietyHelper.Library
