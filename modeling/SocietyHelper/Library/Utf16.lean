import SocietyHelper.Library.Text

/-! # Strings of 16-bit units

A string of units is read as a text only where every surrogate has its other
half; the text that is read is written back as the same units.
-/

namespace SocietyHelper.Library

def utf16Encode (c : Char) : List UInt16 :=
  if c.toNat < 0x10000 then [UInt16.ofNat c.toNat]
  else [UInt16.ofNat (0xd800 + (c.toNat - 0x10000) / 0x400), UInt16.ofNat (0xdc00 + (c.toNat - 0x10000) % 0x400)]

def utf16 (t : Text) : List UInt16 := t.flatMap utf16Encode

def isHigh (u : UInt16) : Bool := 0xd800 ≤ u.toNat && u.toNat ≤ 0xdbff

def isLow (u : UInt16) : Bool := 0xdc00 ≤ u.toNat && u.toNat ≤ 0xdfff

def surrogatePair (u v : UInt16) : Char :=
  Char.ofNat (0x10000 + (u.toNat - 0xd800) * 0x400 + (v.toNat - 0xdc00))

/-- The text of a string, where its surrogates are paired. -/
def fromUtf16 : List UInt16 → Option Text
  | [] => some []
  | [u] => if isHigh u || isLow u then none else some [Char.ofNat u.toNat]
  | u :: v :: us =>
    if isHigh u then if isLow v then (fromUtf16 us).map (surrogatePair u v :: ·) else none
    else if isLow u then none
    else (fromUtf16 (v :: us)).map (Char.ofNat u.toNat :: ·)

theorem utf16Encode_unit {u : UInt16} (hh : isHigh u = false) (hl : isLow u = false) :
    utf16Encode (Char.ofNat u.toNat) = [u] := by
  have hlt := u.toNat_lt
  have hvalid : u.toNat.isValidChar := by
    simp only [isHigh, isLow, Bool.and_eq_false_iff, decide_eq_false_iff_not] at hh hl
    by_cases hu : u.toNat < 0xd800
    · exact .inl hu
    · exact .inr ⟨by omega, by omega⟩
  have hc : (Char.ofNat u.toNat).toNat = u.toNat := (Char.toNat_ofNat _).trans (if_pos hvalid)
  rw [utf16Encode, hc, if_pos (by omega), UInt16.ofNat_toNat]

theorem utf16Encode_pair {u v : UInt16} (hh : isHigh u) (hl : isLow v) :
    utf16Encode (surrogatePair u v) = [u, v] := by
  simp only [isHigh, isLow, Bool.and_eq_true, decide_eq_true_eq] at hh hl
  have hvalid : (0x10000 + (u.toNat - 0xd800) * 0x400 + (v.toNat - 0xdc00)).isValidChar :=
    .inr ⟨by omega, by omega⟩
  have hc : (surrogatePair u v).toNat = 0x10000 + (u.toNat - 0xd800) * 0x400 + (v.toNat - 0xdc00) :=
    (Char.toNat_ofNat _).trans (if_pos hvalid)
  have hu : 0xd800 + (0x10000 + (u.toNat - 0xd800) * 0x400 + (v.toNat - 0xdc00) - 0x10000) / 0x400 = u.toNat := by
    omega
  have hv : 0xdc00 + (0x10000 + (u.toNat - 0xd800) * 0x400 + (v.toNat - 0xdc00) - 0x10000) % 0x400 = v.toNat := by
    omega
  rw [utf16Encode, hc, if_neg (by omega), hu, hv, UInt16.ofNat_toNat, UInt16.ofNat_toNat]

theorem utf16_of_fromUtf16 {us : List UInt16} {t : Text} (h : fromUtf16 us = some t) : utf16 t = us := by
  fun_induction fromUtf16 us generalizing t with
  | case1 =>
    cases h
    rfl
  | case2 u hs => cases h
  | case3 u hs =>
    simp only [Bool.or_eq_true, not_or, Bool.not_eq_true] at hs
    cases h
    simp [utf16, utf16Encode_unit hs.1 hs.2]
  | case4 u v us hh hl ih =>
    obtain ⟨s, hs, rfl⟩ := Option.map_eq_some_iff.mp h
    rw [utf16, List.flatMap_cons, utf16Encode_pair hh hl]
    exact congrArg (fun s => u :: v :: s) (ih hs)
  | case5 u v us hh hl => cases h
  | case6 u v us hh hl => cases h
  | case7 u v us hh hl ih =>
    obtain ⟨s, hs, rfl⟩ := Option.map_eq_some_iff.mp h
    rw [utf16, List.flatMap_cons, utf16Encode_unit (by simpa using hh) (by simpa using hl)]
    exact congrArg (u :: ·) (ih hs)

theorem fromUtf16_injective {us vs : List UInt16} {t : Text} (hu : fromUtf16 us = some t)
    (hv : fromUtf16 vs = some t) : us = vs :=
  (utf16_of_fromUtf16 hu).symm.trans (utf16_of_fromUtf16 hv)

theorem length_utf16 (t : Text) : (utf16 t).length = utf16Size t := by
  induction t with
  | nil => rfl
  | cons c t ih =>
    have hc : (utf16Encode c).length = if c.val < 0x10000 then 1 else 2 := by
      have hiff : c.val < 0x10000 ↔ c.toNat < 0x10000 := Iff.trans UInt32.lt_iff_toNat_lt Iff.rfl
      simp only [utf16Encode, hiff]
      split <;> rfl
    rw [utf16, List.flatMap_cons, List.length_append, hc]
    exact congrArg (_ + ·) ih

end SocietyHelper.Library
