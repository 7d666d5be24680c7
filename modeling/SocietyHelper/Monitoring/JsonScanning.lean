import SocietyHelper.Library.JsonGrammar
import SocietyHelper.Monitoring.Json

/-! # What the reader does with the bytes of a text

Whitespace, structural characters, strings and numbers are read off a text just
as the grammar has them.
-/

namespace SocietyHelper.Monitoring.Json

open Library JsonGrammar

/-! ## Whitespace and structural characters -/

theorem ascii_space : Ascii isSpace isWs where
  agree c hc := by
    simp only [isSpace, isWs, ascii_inj hc (show ' '.toNat < 128 by decide),
      ascii_inj hc (show '\r'.toNat < 128 by decide), ascii_inj hc (show '\n'.toNat < 128 by decide),
      ascii_inj hc (show '\t'.toNat < 128 by decide)]
    grind
  above c hc := by
    simp only [isWs, Bool.or_eq_false_iff, decide_eq_false_iff_not]
    refine ⟨⟨⟨?_, ?_⟩, ?_⟩, ?_⟩ <;> rintro rfl <;> exact absurd hc (by decide)
  bytes x hx := by
    simp only [isSpace, Bool.or_eq_false_iff, decide_eq_false_iff_not]
    refine ⟨⟨⟨?_, ?_⟩, ?_⟩, ?_⟩ <;> rintro rfl <;> exact absurd hx (by decide)

def skip (t : Text) : Text := t.dropWhile isWs

theorem space_utf8 (t : Text) : space (utf8 t) = utf8 (skip t) := dropWhile_utf8 ascii_space t

theorem skip_append {a : Text} (ha : Ws a) (t : Text) : skip (a ++ t) = skip t := by
  induction a with
  | nil => rfl
  | cons c a ih =>
    have hc : isWs c := ha c List.mem_cons_self
    rw [skip, List.cons_append, List.dropWhile_cons, if_pos hc]
    exact ih fun d hd => ha d (List.mem_cons_of_mem c hd)

theorem skip_cons {c : Char} (hc : isWs c = false) (t : Text) : skip (c :: t) = c :: t := by
  rw [skip, List.dropWhile_cons, hc, if_neg Bool.false_ne_true]

theorem skipped (t : Text) : ∃ a, Ws a ∧ t = a ++ skip t :=
  ⟨t.takeWhile isWs, fun _ hc => List.mem_takeWhile_imp hc, List.takeWhile_append_dropWhile.symm⟩

theorem space_space (b : Bytes) : space (space b) = space b := List.dropWhile_idempotent (isSpace) b

theorem take_space (c : Char) (b : Bytes) : take c (space b) = take c b := by
  rw [take, take, space_space]

theorem take_utf8 {c : Char} (hc : c.toNat < 128) {t : Text} {rest : Bytes} :
    take c (utf8 t) = some rest ↔ ∃ t', skip t = c :: t' ∧ rest = utf8 t' := by
  rw [take, space_utf8]
  constructor
  · intro h
    split at h
    · cases h
    · rename_i d b heq
      split at h
      · rename_i hd
        cases h
        rw [hd, utf8_head hc] at heq
        exact heq
      · cases h
  · rintro ⟨t', ht, rfl⟩
    rw [ht, utf8_ascii hc]
    exact if_pos rfl

/-- Characters of the grammar that are neither whitespace nor above 127. -/
structure Mark (c : Char) : Prop where
  small : c.toNat < 128
  visible : isWs c = false

theorem take_sound {c : Char} (hc : Mark c) {t : Text} {rest : Bytes} (h : take c (utf8 t) = some rest) :
    ∃ a t', Ws a ∧ t = a ++ c :: t' ∧ rest = utf8 t' := by
  obtain ⟨t', ht, hr⟩ := (take_utf8 hc.small).mp h
  obtain ⟨a, ha, hat⟩ := skipped t
  exact ⟨a, t', ha, ht ▸ hat, hr⟩

/-- A structural character is taken with the whitespace before it; what is behind it waits. -/
theorem take_token {c : Char} (hc : Mark c) {a : Text} (h : Token c a) (t : Text) :
    ∃ w, Ws w ∧ take c (utf8 (a ++ t)) = some (utf8 (w ++ t)) := by
  obtain ⟨x, w, hx, hw, rfl⟩ := h
  refine ⟨w, hw, (take_utf8 hc.small).mpr ⟨w ++ t, ?_, rfl⟩⟩
  rw [List.append_assoc, List.cons_append, skip_append hx, skip_cons hc.visible]

/-! ## Escapes -/

theorem digit_ascii {c : Char} (hc : c.toNat < 128) : digit (ascii c) = JsonGrammar.hexDigit c := by
  have hle : ∀ d : Char, d.toNat < 128 → (ascii d ≤ ascii c ↔ d ≤ c) := fun d hd => ascii_le hd hc
  have hge : ∀ d : Char, d.toNat < 128 → (ascii c ≤ ascii d ↔ c ≤ d) := fun d hd => ascii_le hc hd
  have h97 : 'a' ≤ c → 97 ≤ c.toNat := fun h => h
  have h65 : 'A' ≤ c → 65 ≤ c.toNat := fun h => h
  simp only [digit, JsonGrammar.hexDigit, hle '0' (by decide), hge '9' (by decide), hle 'a' (by decide),
    hge 'f' (by decide), hle 'A' (by decide), hge 'F' (by decide), toNat_ascii hc]
  split
  · rfl
  · split
    · rename_i h
      have := h97 h.1
      exact congrArg some (by omega)
    · split
      · rename_i h
        have := h65 h.1
        exact congrArg some (by omega)
      · rfl

theorem digit_high {x : UInt8} (hx : 128 ≤ x.toNat) : digit x = none := by
  have hle : ∀ d : Char, d.toNat < 128 → ¬x ≤ ascii d := fun d hd h => by
    rw [UInt8.le_iff_toNat_le, toNat_ascii hd] at h
    omega
  simp only [digit, hle '9' (by decide), hle 'f' (by decide), hle 'F' (by decide), and_false, if_false]

theorem hexDigit_lt {c : Char} {d : Nat} (h : JsonGrammar.hexDigit c = some d) : c.toNat < 128 ∧ d < 16 := by
  have hn : ∀ e : Char, c ≤ e → c.toNat ≤ e.toNat := fun e h => h
  have h0 : ∀ e : Char, e ≤ c → e.toNat ≤ c.toNat := fun e h => h
  rw [JsonGrammar.hexDigit] at h
  split at h
  · rename_i hc
    have := hn '9' hc.2
    have := h0 '0' hc.1
    cases h
    simp only [Char.reduceToNat] at *
    omega
  · split at h
    · rename_i hc
      have := hn 'f' hc.2
      have := h0 'a' hc.1
      cases h
      simp only [Char.reduceToNat] at *
      omega
    · split at h
      · rename_i hc
        have := hn 'F' hc.2
        have := h0 'A' hc.1
        cases h
        simp only [Char.reduceToNat] at *
        omega
      · cases h

theorem hex_utf8 {n v u : Nat} {t : Text} {b : Bytes} :
    hex n v (utf8 t) = some (u, b) ↔
      ∃ ds t', ds.length = n ∧ hexFrom v ds = some u ∧ t = ds ++ t' ∧ b = utf8 t' := by
  induction n generalizing v t with
  | zero =>
    constructor
    · intro h
      cases h
      exact ⟨[], t, rfl, rfl, rfl, rfl⟩
    · rintro ⟨ds, t', hlen, hu, rfl, rfl⟩
      obtain rfl := List.length_eq_zero_iff.mp hlen
      cases hu
      rfl
  | succ n ih =>
    constructor
    · intro h
      cases t with
      | nil => cases h
      | cons c t =>
        by_cases hc : c.toNat < 128
        · rw [utf8_ascii hc, hex, digit_ascii hc] at h
          cases hd : JsonGrammar.hexDigit c with
          | none => simp only [hd, reduceCtorEq] at h
          | some d =>
            simp only [hd] at h
            obtain ⟨ds, t', hlen, hu, rfl, rfl⟩ := ih.mp h
            exact ⟨c :: ds, t', by rw [List.length_cons, hlen], by rw [hexFrom, hd]; exact hu, rfl, rfl⟩
        · cases he : String.utf8EncodeChar c with
          | nil => exact absurd he (encode_ne_nil c)
          | cons x xs =>
            have hx := encode_high (Nat.le_of_not_lt hc) x (he ▸ List.mem_cons_self)
            rw [utf8_cons, he, List.cons_append, hex, digit_high hx] at h
            cases h
    · rintro ⟨ds, t', hlen, hu, rfl, rfl⟩
      cases ds with
      | nil => cases hlen
      | cons c ds =>
        rw [hexFrom] at hu
        cases hd : JsonGrammar.hexDigit c with
        | none => simp only [hd, reduceCtorEq] at hu
        | some d =>
          have hc := (hexDigit_lt hd).1
          simp only [hd] at hu
          rw [List.cons_append, utf8_ascii hc, hex, digit_ascii hc, hd]
          exact ih.mpr ⟨ds, t', Nat.succ.inj hlen, hu, rfl, rfl⟩

theorem hexFrom_lt {ds : Text} {v u : Nat} (h : hexFrom v ds = some u) : u < (v + 1) * 16 ^ ds.length := by
  induction ds generalizing v with
  | nil =>
    cases h
    simp
  | cons c ds ih =>
    rw [hexFrom] at h
    cases hd : JsonGrammar.hexDigit c with
    | none => simp only [hd, reduceCtorEq] at h
    | some d =>
      simp only [hd] at h
      have hlt := (hexDigit_lt hd).2
      calc u < (v * 16 + d + 1) * 16 ^ ds.length := ih h
        _ ≤ ((v + 1) * 16) * 16 ^ ds.length := Nat.mul_le_mul_right _ (by omega)
        _ = (v + 1) * 16 ^ (c :: ds).length := by rw [List.length_cons, pow_succ]; ring

theorem lead_or {b : Nat} (i a : Nat) (h : b < 2 ^ i) : 2 ^ i * a ||| b = b + 2 ^ i * a :=
  (Nat.two_pow_add_eq_or_of_lt h a).symm.trans (Nat.add_comm _ _)

/-- The bytes that the reader appends for a code point are those of the character. -/
theorem append_eq {c : Nat} (h : c.isValidChar) : append c = utf8 [Char.ofNat c] := by
  have hc : (Char.ofNat c).val.toNat = c := (Char.toNat_ofNat c).trans (if_pos h)
  have hlt : c < 0x110000 := by
    rcases h with h | ⟨-, h⟩ <;> omega
  have h63 : ∀ n, n &&& 63 = n % 64 := fun n => Nat.and_two_pow_sub_one_eq_mod n 6
  have h80 : ∀ n, 0x80 ||| n % 64 = n % 64 + 0x80 := fun n => lead_or 6 2 (Nat.mod_lt n (by decide))
  have hshift : ∀ i, c >>> i = c / 2 ^ i := fun i => Nat.shiftRight_eq_div_pow c i
  simp only [utf8, List.flatMap_cons, List.flatMap_nil, List.append_nil, String.utf8EncodeChar, hc, append, h63, h80,
    hshift]
  by_cases h1 : c < 0x80
  · rw [if_pos h1, if_pos (show c ≤ 0x7f by omega)]
  · rw [if_neg h1, if_neg (show ¬c ≤ 0x7f by omega)]
    by_cases h2 : c < 0x800
    · have hlead : 0xc0 ||| c / 2 ^ 6 = c / 64 % 0x20 + 0xc0 := by
        rw [show c / 64 % 0x20 = c / 2 ^ 6 by omega]
        exact lead_or 6 3 (by omega)
      rw [if_pos h2, if_pos (show c ≤ 0x7ff by omega), hlead]
    · rw [if_neg h2, if_neg (show ¬c ≤ 0x7ff by omega)]
      by_cases h3 : c < 0x10000
      · have hlead : 0xe0 ||| c / 2 ^ 12 = c / 4096 % 0x10 + 0xe0 := by
          rw [show c / 4096 % 0x10 = c / 2 ^ 12 by omega]
          exact lead_or 5 7 (by omega)
        rw [if_pos h3, if_pos (show c ≤ 0xffff by omega), hlead]
        rfl
      · have hlead : 0xf0 ||| c / 2 ^ 18 = c / 262144 % 0x08 + 0xf0 := by
          rw [show c / 262144 % 0x08 = c / 2 ^ 18 by omega]
          exact lead_or 4 15 (by omega)
        rw [if_neg h3, if_neg (show ¬c ≤ 0xffff by omega), hlead]
        rfl

/-! ## Strings -/

/-- The pieces that the reader takes together, and the character that they make. -/
inductive Chunk : List Piece → Char → Prop where
  | scalar (c : Char) : Chunk [.scalar c] c
  | unit {u : Nat} (hh : high u = false) (hl : low u = false) : Chunk [.unit u] (Char.ofNat u)
  | pair {u v : Nat} (hh : high u) (hl : low v) : Chunk [.unit u, .unit v] (pair u v)

theorem decode_chunk {ps : List Piece} {c : Char} (h : Chunk ps c) (qs : List Piece) :
    decode (ps ++ qs) = (decode qs).map (c :: ·) := by
  cases h with
  | scalar => rfl
  | @unit u hh hl =>
    cases qs with
    | nil => simp [decode, hh, hl]
    | cons q qs => cases q <;> simp [decode, hh, hl]
  | pair hh hl => simp [decode, hh, hl]

inductive Decodes : List Piece → Text → Prop where
  | nil : Decodes [] []
  | chunk {ps qs : List Piece} {c : Char} {t : Text} (h : Chunk ps c) (hs : Decodes qs t) :
      Decodes (ps ++ qs) (c :: t)

theorem decodes_of_decode {ps : List Piece} {t : Text} (h : decode ps = some t) : Decodes ps t := by
  fun_induction decode ps generalizing t with
  | case1 =>
    cases h
    exact .nil
  | case2 c ps ih =>
    obtain ⟨s, hs, rfl⟩ := Option.map_eq_some_iff.mp h
    exact .chunk (.scalar c) (ih hs)
  | case3 u v ps hh hl ih =>
    obtain ⟨s, hs, rfl⟩ := Option.map_eq_some_iff.mp h
    exact .chunk (.pair hh hl) (ih hs)
  | case4 u v ps hh hl => cases h
  | case5 u v ps hh hl => cases h
  | case6 u v ps hh hl ih =>
    obtain ⟨s, hs, rfl⟩ := Option.map_eq_some_iff.mp h
    exact .chunk (.unit (by simpa using hh) (by simpa using hl)) (ih hs)
  | case7 u ps hne hs => cases h
  | case8 u ps hne hs ih =>
    obtain ⟨s, hs', rfl⟩ := Option.map_eq_some_iff.mp h
    simp only [Bool.or_eq_true, not_or, Bool.not_eq_true] at hs
    exact .chunk (.unit hs.1 hs.2) (ih hs')

theorem decode_of_decodes {ps : List Piece} {t : Text} (h : Decodes ps t) : decode ps = some t := by
  induction h with
  | nil => rfl
  | chunk h _ ih => rw [decode_chunk h, ih, Option.map_some]

theorem simple_escapes : ∀ p ∈ escapes, simple (ascii p.1) = some (ascii p.2) := by decide

theorem escapes_ascii : ∀ p ∈ escapes, p.1.toNat < 128 ∧ p.2.toNat < 128 := by decide

theorem simple_sound {e out : UInt8} (h : simple e = some out) :
    ∃ p ∈ escapes, e = ascii p.1 ∧ out = ascii p.2 := by
  rw [simple] at h
  repeat' split at h
  all_goals cases h
  all_goals rename_i he
  · exact ⟨('"', '"'), by decide, he, rfl⟩
  · exact ⟨('\\', '\\'), by decide, he, rfl⟩
  · exact ⟨('/', '/'), by decide, he, rfl⟩
  · exact ⟨('b', Char.ofNat 8), by decide, he, rfl⟩
  · exact ⟨('f', Char.ofNat 12), by decide, he, rfl⟩
  · exact ⟨('n', '\n'), by decide, he, rfl⟩
  · exact ⟨('r', '\r'), by decide, he, rfl⟩
  · exact ⟨('t', '\t'), by decide, he, rfl⟩

theorem simple_u : simple (ascii 'u') = none := by decide

theorem hex4_utf8 {t : Text} {u : Nat} {b : Bytes} :
    hex4 (utf8 t) = some (u, b) ↔ ∃ ds t', ds.length = 4 ∧ hexFrom 0 ds = some u ∧ t = ds ++ t' ∧ b = utf8 t' :=
  hex_utf8

theorem valid_unit {ds : Text} {u : Nat} (four : ds.length = 4) (hex : hexFrom 0 ds = some u)
    (hh : high u = false) (hl : low u = false) : u.isValidChar := by
  have hlt := hexFrom_lt hex
  rw [four] at hlt
  simp only [high, low, Bool.and_eq_false_iff, decide_eq_false_iff_not] at hh hl
  by_cases hu : u < 0xd800
  · exact .inl hu
  · exact .inr ⟨by omega, by omega⟩

theorem valid_pair {u v : Nat} (hh : high u) (hl : low v) :
    (0x10000 + (u - 0xd800) * 0x400 + (v - 0xdc00)).isValidChar := by
  simp only [high, low, Bool.and_eq_true, decide_eq_true_eq] at hh hl
  exact .inr ⟨by omega, by omega⟩

theorem pair_code {u v : Nat} (hh : high u) (hl : low v) :
    0x10000 + (u - 0xd800) <<< 10 + v - 0xdc00 = 0x10000 + (u - 0xd800) * 0x400 + (v - 0xdc00) := by
  simp only [high, low, Bool.and_eq_true, decide_eq_true_eq] at hh hl
  rw [Nat.shiftLeft_eq]
  omega

/-- The escapes that `unicode` reads are those of one unit, or of the two units of a pair. -/
theorem unicode_sound {t : Text} {out b : Bytes} (h : unicode (utf8 t) = some (out, b)) :
    ∃ k ps x t', t = k ++ t' ∧ Chars ('\\' :: 'u' :: k) ps ∧ Chunk ps x ∧ out = utf8 [x] ∧ b = utf8 t' := by
  rw [unicode] at h
  split at h
  · cases h
  · rename_i code b₁ hcode
    obtain ⟨ds, t₁, four, hds, rfl, rfl⟩ := hex4_utf8.mp hcode
    have hunit : Character ('\\' :: 'u' :: ds) (.unit code) := .unit four hds
    split at h
    · rename_i hhigh
      have hh : high code := by simpa [high] using hhigh
      split at h
      · rename_i s u b₂ hb
        split at h
        · rename_i hsu
          obtain ⟨rfl, rfl⟩ := hsu
          obtain ⟨t₂, rfl, hb₂⟩ := (utf8_head (by decide)).mp hb
          obtain ⟨t₃, rfl, rfl⟩ := (utf8_head (by decide)).mp hb₂.symm
          split at h
          · cases h
          · rename_i low' b₃ hlow
            obtain ⟨es, t₄, four', hes, rfl, rfl⟩ := hex4_utf8.mp hlow
            split at h
            · cases h
            · rename_i hrange
              have hl : low low' := by
                simp only [low, Bool.and_eq_true, decide_eq_true_eq]
                omega
              obtain ⟨hout, rfl⟩ := Prod.mk.inj (Option.some.inj h)
              refine ⟨ds ++ '\\' :: 'u' :: es, [.unit code, .unit low'], JsonGrammar.pair code low', t₄, ?_, ?_,
                .pair hh hl, ?_, rfl⟩
              · rw [List.append_assoc, List.cons_append, List.cons_append]
              · have hchars := Chars.cons hunit (.one (.unit four' hes))
                rwa [List.cons_append, List.cons_append] at hchars
              · rw [← hout, pair_code hh hl, append_eq (valid_pair hh hl), JsonGrammar.pair]
        · cases h
      · cases h
    · rename_i hhigh
      split at h
      · cases h
      · rename_i hlow
        have hh : high code = false := by simpa [high, not_and_or] using hhigh
        have hl : low code = false := by simpa [low, not_and_or] using hlow
        cases h
        exact ⟨ds, _, _, t₁, rfl, Chars.one hunit, .unit hh hl,
          append_eq (valid_unit four hds hh hl), rfl⟩

/-- Below 128, what the reader takes for one character is a character of the grammar, or a pair. -/
theorem character_sound {c : Char} (hc : c.toNat < 128) (hq : c ≠ '"') {t : Text} {out b : Bytes}
    (h : character (ascii c) (utf8 t) = some (out, b)) :
    ∃ k ps x t', t = k ++ t' ∧ Chars (c :: k) ps ∧ Chunk ps x ∧ out = utf8 [x] ∧ b = utf8 t' := by
  rw [character.eq_def] at h
  split at h
  · cases h
  · rename_i hcontrol
    split at h
    · rename_i hslash
      cases h
      have hcontrol : 0x20 ≤ c.toNat := by
        rw [UInt8.lt_iff_toNat_lt, toNat_ascii hc] at hcontrol
        exact Nat.le_of_not_lt hcontrol
      exact ⟨[], _, c, t, rfl, .cons (.unescaped ⟨hcontrol, hq, fun he => hslash (he ▸ rfl)⟩) .nil, .scalar c,
        (utf8_ascii hc []).symm, rfl⟩
    · rename_i hslash
      rw [not_not, ascii_inj hc (by decide)] at hslash
      subst hslash
      split at h
      · cases h
      · rename_i e b' hb
        split at h
        · rename_i o hsimple
          obtain ⟨p, hp, rfl, rfl⟩ := simple_sound hsimple
          have hascii := escapes_ascii p hp
          obtain ⟨t', rfl, rfl⟩ := (utf8_head hascii.1).mp hb
          cases h
          exact ⟨[p.1], _, p.2, t', rfl, Chars.one (.escaped hp), .scalar p.2,
            (utf8_ascii hascii.2 []).symm, rfl⟩
        · split at h
          · rename_i hu
            subst hu
            obtain ⟨t', rfl, rfl⟩ := (utf8_head (by decide)).mp hb
            obtain ⟨k, ps, x, t'', rfl, hk, hchunk, hout, hrest⟩ := unicode_sound h
            exact ⟨'u' :: k, ps, x, t'', rfl, hk, hchunk, hout, hrest⟩
          · cases h

/-- Bytes above 127 are kept as they are. -/
theorem characters_high {hs : Bytes} (hhigh : ∀ x ∈ hs, 128 ≤ x.toNat) (n : Nat) (b : Bytes) :
    characters (hs.length + n) (hs ++ b) = (characters n b).map (before hs) := by
  induction hs with
  | nil =>
    rw [List.length_nil, Nat.zero_add, List.nil_append]
    exact (congrFun Option.map_id (characters n b)).symm
  | cons x hs ih =>
    have hx : 128 ≤ x.toNat := hhigh x List.mem_cons_self
    have hne : ∀ d : Char, d.toNat < 128 → x ≠ ascii d := by
      rintro d hd rfl
      rw [toNat_ascii hd] at hx
      omega
    have hcontrol : ¬x < 32 := by
      rw [UInt8.lt_iff_toNat_lt, show (32 : UInt8).toNat = 32 from rfl]
      omega
    rw [List.length_cons, Nat.add_right_comm, List.cons_append, characters, if_neg (hne '"' (by decide)), character.eq_def,
      if_neg hcontrol, if_pos (hne '\\' (by decide))]
    dsimp only
    rw [ih fun y hy => hhigh y (List.mem_cons_of_mem x hy), Option.map_map]
    rfl

theorem characters_short {hs : Bytes} (hhigh : ∀ x ∈ hs, 128 ≤ x.toNat) {n : Nat} (hn : n < hs.length) (b : Bytes) :
    characters n (hs ++ b) = none := by
  obtain ⟨front, back, rfl, hlength⟩ : ∃ front back, hs = front ++ back ∧ front.length = n :=
    ⟨hs.take n, hs.drop n, (List.take_append_drop n hs).symm, List.length_take_of_le hn.le⟩
  have hfront := characters_high (fun x hx => hhigh x (List.mem_append_left back hx)) 0 (back ++ b)
  rw [hlength, Nat.add_zero] at hfront
  rw [List.append_assoc, hfront]
  rfl

theorem characters_sound {n : Nat} {t : Text} {out b : Bytes} (h : characters n (utf8 t) = some (out, b)) :
    ∃ body ps s t', t = body ++ '"' :: t' ∧ Chars body ps ∧ Decodes ps s ∧ out = utf8 s ∧ b = utf8 t' := by
  induction n using Nat.strongRecOn generalizing t out b with
  | _ n ih =>
    cases t with
    | nil => cases n <;> cases h
    | cons c t =>
      by_cases hc : c.toNat < 128
      · cases n with
        | zero => cases h
        | succ n =>
          rw [utf8_ascii hc, characters] at h
          split at h
          · rename_i hquote
            obtain rfl := (ascii_inj hc (by decide)).mp hquote
            cases h
            exact ⟨[], [], [], t, rfl, .nil, .nil, rfl, rfl⟩
          · rename_i hquote
            split at h
            · cases h
            · rename_i first rest hfirst
              have hq : c ≠ '"' := fun he => hquote (he ▸ rfl)
              obtain ⟨k, ps, x, t₁, rfl, hk, hchunk, rfl, rfl⟩ := character_sound hc hq hfirst
              obtain ⟨⟨out', b'⟩, hmore, hboth⟩ := Option.map_eq_some_iff.mp h
              obtain ⟨body, qs, s, t', rfl, hbody, hs, rfl, rfl⟩ := ih n (Nat.lt_succ_self n) hmore
              cases hboth
              refine ⟨c :: k ++ body, ps ++ qs, x :: s, t', by simp, ?_, .chunk hchunk hs, ?_, rfl⟩
              · exact hk.append hbody
              · rw [← utf8_append]
                rfl
      · have hhigh := encode_high (Nat.le_of_not_lt hc)
        have hsize : 0 < (String.utf8EncodeChar c).length := List.length_pos_of_ne_nil (encode_ne_nil c)
        rw [utf8_cons] at h
        rcases Nat.lt_or_ge n (String.utf8EncodeChar c).length with hn | hn
        · rw [characters_short hhigh hn] at h
          cases h
        · obtain ⟨m, rfl⟩ := Nat.exists_eq_add_of_le hn
          rw [characters_high hhigh] at h
          obtain ⟨⟨out', b'⟩, hmore, hboth⟩ := Option.map_eq_some_iff.mp h
          obtain ⟨body, qs, s, t', rfl, hbody, hs, rfl, rfl⟩ := ih m (by omega) hmore
          cases hboth
          have hc : Unescaped c := ⟨by omega, by rintro rfl; exact absurd hhigh (by decide), by
            rintro rfl; exact absurd hhigh (by decide)⟩
          exact ⟨c :: body, _, c :: s, t', rfl, .cons (.unescaped hc) hbody, .chunk (.scalar c) hs, rfl, rfl⟩

/-! ## Every string of the grammar is read -/

theorem unicode_unit {ds : Text} {u : Nat} (four : ds.length = 4) (hex : hexFrom 0 ds = some u) (hh : high u = false)
    (hl : low u = false) (t : Text) : unicode (utf8 (ds ++ t)) = some (utf8 [Char.ofNat u], utf8 t) := by
  have hcode := hex4_utf8.mpr ⟨ds, t, four, hex, rfl, rfl⟩
  rw [unicode, hcode]
  dsimp only
  rw [if_neg (by simpa [high] using hh), if_neg (by simpa [low] using hl), append_eq (valid_unit four hex hh hl)]

theorem unicode_pair {ds es : Text} {u v : Nat} (four : ds.length = 4) (hex : hexFrom 0 ds = some u) (hh : high u)
    (four' : es.length = 4) (hex' : hexFrom 0 es = some v) (hl : low v) (t : Text) :
    unicode (utf8 (ds ++ ('\\' :: 'u' :: (es ++ t)))) = some (utf8 [JsonGrammar.pair u v], utf8 t) := by
  have hcode := hex4_utf8.mpr ⟨ds, '\\' :: 'u' :: (es ++ t), four, hex, rfl, rfl⟩
  have hlow := hex4_utf8.mpr ⟨es, t, four', hex', rfl, rfl⟩
  have hrange : ¬(v < 0xdc00 ∨ 0xdfff < v) := by
    simp only [low, Bool.and_eq_true, decide_eq_true_eq] at hl
    omega
  rw [unicode, hcode]
  dsimp only
  rw [if_pos (by simpa [high] using hh), utf8_ascii (by decide), utf8_ascii (by decide)]
  dsimp only
  rw [if_pos ⟨rfl, rfl⟩, hlow]
  dsimp only
  rw [if_neg hrange, pair_code hh hl, append_eq (valid_pair hh hl), JsonGrammar.pair]

/-- One round of the loop for a character below 128. -/
theorem characters_step {c : Char} (hc : c.toNat < 128) (hq : c ≠ '"') {n : Nat} {b b' out : Bytes}
    (h : character (ascii c) b = some (out, b')) :
    characters (n + 1) (ascii c :: b) = (characters n b').map (before out) := by
  rw [characters, if_neg (mt (ascii_inj hc (by decide)).mp hq), h]

theorem character_escape {e : UInt8} (b : Bytes) :
    character (ascii '\\') (e :: b) = match simple e with
      | some out => some ([out], b)
      | none => if e = ascii 'u' then unicode b else none := by
  rw [character.eq_def, if_neg (by decide), if_neg (not_not.mpr rfl)] <;> rfl

theorem character_unicode (b : Bytes) : character (ascii '\\') (ascii 'u' :: b) = unicode b := by
  rw [character_escape, simple_u]
  exact if_pos rfl

/-- What makes one character takes no more rounds than it has bytes. -/
theorem characters_chunk {k : Text} {ps : List Piece} {x : Char} (hk : Chars k ps) (hx : Chunk ps x) {n : Nat} {t : Text}
    (hn : (utf8 k).length ≤ n) :
    ∃ m, n - (utf8 k).length ≤ m ∧ characters n (utf8 (k ++ t)) = (characters m (utf8 t)).map (before (utf8 [x])) := by
  cases hx with
  | scalar =>
    cases hk.single with
    | unescaped h =>
      have hkeep : utf8 [x] = String.utf8EncodeChar x := List.append_nil _
      obtain ⟨m, rfl⟩ := Nat.exists_eq_add_of_le hn
      refine ⟨m, by omega, ?_⟩
      by_cases hc : x.toNat < 128
      · have hplain : character (ascii x) (utf8 t) = some ([ascii x], utf8 t) := by
          have hcontrol : ¬ascii x < 32 := by
            rw [UInt8.lt_iff_toNat_lt, toNat_ascii hc]
            exact Nat.not_lt_of_le h.1
          rw [character.eq_def, if_neg hcontrol, if_pos (mt (ascii_inj hc (by decide)).mp h.2.2)]
        rw [utf8_append, hkeep, encode_ascii hc, List.length_singleton, Nat.add_comm, List.singleton_append]
        exact characters_step hc h.2.1 hplain
      · rw [utf8_append, hkeep]
        exact characters_high (encode_high (Nat.le_of_not_lt hc)) m (utf8 t)
    | @escaped e _ h =>
      obtain ⟨he, hx⟩ := escapes_ascii _ h
      have hkeep : utf8 ['\\', e] = [ascii '\\', ascii e] := by
        rw [utf8_ascii (by decide), utf8_ascii he]
        rfl
      have hout : character (ascii '\\') (ascii e :: utf8 t) = some ([ascii x], utf8 t) := by
        rw [character_escape, simple_escapes _ h]
      have hlength : (utf8 ['\\', e]).length = 2 := congrArg List.length hkeep
      obtain ⟨m, rfl⟩ := Nat.exists_eq_add_of_le' (Nat.le_of_succ_le (hlength ▸ hn))
      refine ⟨m, by omega, ?_⟩
      rw [utf8_append, hkeep, utf8_ascii hx []]
      exact characters_step (by decide) (by decide) hout
  | @unit u hh hl =>
    cases hk.single with
    | @unit ds _ four hex =>
      have hlength : (utf8 ('\\' :: 'u' :: ds)).length = (utf8 ds).length + 2 := by
        rw [utf8_ascii (by decide), utf8_ascii (by decide), List.length_cons, List.length_cons]
      obtain ⟨m, rfl⟩ := Nat.exists_eq_add_of_le' (show 1 ≤ n by omega)
      refine ⟨m, by omega, ?_⟩
      rw [List.cons_append, List.cons_append, utf8_ascii (by decide), utf8_ascii (by decide)]
      refine characters_step (by decide) (by decide) ?_
      rw [character_unicode, unicode_unit four hex hh hl]
  | @pair u v hh hl =>
    cases hk with
    | cons hfirst hsecond =>
      cases hfirst with
      | @unit ds _ four hex =>
        cases hsecond.single with
        | @unit es _ four' hex' =>
          have hlength : 2 ≤ (utf8 ('\\' :: 'u' :: ds ++ '\\' :: 'u' :: es)).length := by
            rw [List.cons_append, List.cons_append, utf8_ascii (by decide), utf8_ascii (by decide), List.length_cons,
              List.length_cons]
            omega
          obtain ⟨m, rfl⟩ := Nat.exists_eq_add_of_le' (show 1 ≤ n by omega)
          refine ⟨m, by omega, ?_⟩
          rw [List.append_assoc, List.cons_append, List.cons_append, List.cons_append, List.cons_append,
            utf8_ascii (by decide), utf8_ascii (by decide)]
          refine characters_step (by decide) (by decide) ?_
          rw [character_unicode, unicode_pair four hex hh four' hex' hl]

theorem characters_complete {ps : List Piece} {s : Text} (hs : Decodes ps s) {body : Text} (hbody : Chars body ps)
    {n : Nat} (hn : (utf8 body).length < n) (t : Text) :
    characters n (utf8 (body ++ '"' :: t)) = some (utf8 s, utf8 t) := by
  induction hs generalizing body n with
  | nil =>
    cases hbody
    obtain ⟨n, rfl⟩ := Nat.exists_eq_add_of_le' (show 1 ≤ n from hn)
    rw [List.nil_append, utf8_ascii (by decide), characters, if_pos rfl]
    rfl
  | @chunk ps qs c s hchunk _ ih =>
    obtain ⟨k, rest, rfl, hk, hrest⟩ := hbody.split
    rw [utf8_append, List.length_append] at hn
    obtain ⟨m, hm, hread⟩ := @characters_chunk k ps c hk hchunk n (rest ++ '"' :: t) (by omega)
    rw [List.append_assoc, hread, ih hrest (by omega), Option.map_some, before, ← utf8_append]
    rfl

/-! ## A string with what stands before it -/

theorem mark_quote : Mark '"' := ⟨by decide, by decide⟩

theorem string_sound {t : Text} {out b : Bytes} (h : string (utf8 t) = some (out, b)) :
    ∃ w k ps s t', Ws w ∧ t = w ++ (k ++ t') ∧ JsonString k ps ∧ Decodes ps s ∧ out = utf8 s ∧ b = utf8 t' := by
  rw [string] at h
  split at h
  · cases h
  · rename_i b' hquote
    obtain ⟨w, t₁, hw, rfl, rfl⟩ := take_sound mark_quote hquote
    obtain ⟨body, ps, s, t', rfl, hbody, hs, hout, hb⟩ := characters_sound h
    exact ⟨w, '"' :: (body ++ ['"']), ps, s, t', hw, by simp, ⟨body, hbody, rfl⟩, hs, hout, hb⟩

theorem string_complete {w k : Text} {ps : List Piece} {s : Text} (hw : Ws w) (hk : JsonString k ps)
    (hs : Decodes ps s) (t : Text) : string (utf8 (w ++ (k ++ t))) = some (utf8 s, utf8 t) := by
  obtain ⟨body, hbody, rfl⟩ := hk
  have htake : take '"' (utf8 (w ++ ('"' :: (body ++ ['"']) ++ t))) = some (utf8 (body ++ '"' :: t)) := by
    refine (take_utf8 mark_quote.small).mpr ⟨body ++ '"' :: t, ?_, rfl⟩
    rw [skip_append hw, List.cons_append, skip_cons mark_quote.visible, List.append_assoc, List.singleton_append]
  rw [string, htake]
  refine characters_complete hs hbody ?_ t
  rw [utf8_append, List.length_append, utf8_ascii (by decide), List.length_cons]
  omega

/-! ## Numbers -/

theorem ascii_digit : Ascii isDigit Char.isDigit where
  agree c hc := by
    have hlow : ascii '0' ≤ ascii c ↔ '0' ≤ c := ascii_le (by decide) hc
    have hhigh : ascii c ≤ ascii '9' ↔ c ≤ '9' := ascii_le hc (by decide)
    simp only [isDigit, hlow, hhigh, Char.isDigit]
    rfl
  above c hc := by
    rw [← Bool.not_eq_true]
    intro h
    simp only [Char.isDigit, Bool.and_eq_true, decide_eq_true_eq] at h
    have : c.toNat ≤ 57 := h.2
    omega
  bytes x hx := by
    rw [isDigit, Bool.and_eq_false_iff]
    right
    rw [decide_eq_false_iff_not, UInt8.le_iff_toNat_le, toNat_ascii (by decide), show '9'.toNat = 57 from rfl]
    omega

/-- Nothing of a run of digits is left. -/
def NoDigit (t : Text) : Prop := ∀ c ∈ t.head?, c.isDigit = false

theorem digits_utf8 (t : Text) : digits (utf8 t) = utf8 (t.dropWhile Char.isDigit) := dropWhile_utf8 ascii_digit t

theorem digits_complete {ds t : Text} (hds : Digits ds) (ht : NoDigit t) : digits (utf8 (ds ++ t)) = utf8 t := by
  rw [digits_utf8, List.dropWhile_append_of_pos hds]
  cases t with
  | nil => rfl
  | cons c t => rw [List.dropWhile_cons, ht c rfl, if_neg Bool.false_ne_true]

theorem digits_sound (t : Text) : ∃ ds t', t = ds ++ t' ∧ Digits ds ∧ digits (utf8 t) = utf8 t' :=
  ⟨t.takeWhile Char.isDigit, t.dropWhile Char.isDigit, List.takeWhile_append_dropWhile.symm,
    fun _ hc => List.mem_takeWhile_imp hc, digits_utf8 t⟩

theorem someDigits_sound {t : Text} {b : Bytes} (h : someDigits (utf8 t) = some b) :
    ∃ ds t', t = ds ++ t' ∧ ds ≠ [] ∧ Digits ds ∧ b = utf8 t' := by
  obtain ⟨ds, t', rfl, hds, hrest⟩ := digits_sound t
  rw [someDigits, hrest] at h
  split at h
  · cases h
  · rename_i hlength
    cases h
    refine ⟨ds, t', rfl, ?_, hds, rfl⟩
    rintro rfl
    exact hlength rfl

theorem someDigits_complete {ds t : Text} (hne : ds ≠ []) (hds : Digits ds) (ht : NoDigit t) :
    someDigits (utf8 (ds ++ t)) = some (utf8 t) := by
  have hpos : 0 < (utf8 ds).length := List.length_pos_of_ne_nil fun hnil => hne (utf8_eq_nil.mp hnil)
  rw [someDigits, digits_complete hds ht, if_neg]
  rw [utf8_append, List.length_append]
  omega

theorem head_utf8 {t : Text} {x : UInt8} {b : Bytes} (h : utf8 t = x :: b) (d : Char) (hd : d.toNat < 128) :
    x = ascii d ↔ ∃ t', t = d :: t' ∧ b = utf8 t' := by
  constructor
  · rintro rfl
    exact (utf8_head hd).mp h
  · rintro ⟨t', rfl, rfl⟩
    rw [utf8_ascii hd] at h
    exact (List.cons.inj h).1.symm

theorem minus_sound (t : Text) : ∃ m t', m ∈ [[], ['-']] ∧ t = m ++ t' ∧ minus (utf8 t) = utf8 t' := by
  cases h : utf8 t with
  | nil => exact ⟨[], t, by decide, rfl, h.symm⟩
  | cons x b =>
    rw [minus.eq_def]
    dsimp only
    by_cases hx : x = ascii '-'
    · obtain ⟨t', rfl, rfl⟩ := (head_utf8 h '-' (by decide)).mp hx
      exact ⟨['-'], t', by decide, rfl, if_pos hx⟩
    · exact ⟨[], t, by decide, rfl, (if_neg hx).trans h.symm⟩

theorem ne_of_head {t : Text} {x : UInt8} {b : Bytes} (h : utf8 t = x :: b) {d : Char} (hd : d.toNat < 128)
    (ht : t.head? ≠ some d) : x ≠ ascii d := by
  intro hx
  obtain ⟨t', rfl, -⟩ := (head_utf8 h d hd).mp hx
  exact ht rfl

theorem minus_complete {m t : Text} (hm : m ∈ [[], ['-']]) (ht : t.head? ≠ some '-') : minus (utf8 (m ++ t)) = utf8 t := by
  simp only [List.mem_cons, List.not_mem_nil, or_false] at hm
  rcases hm with rfl | rfl
  · rw [List.nil_append]
    cases h : utf8 t with
    | nil => rfl
    | cons x b => exact if_neg (ne_of_head h (by decide) ht)
  · rw [List.singleton_append, utf8_ascii (by decide), minus, if_pos rfl]

theorem integer_sound {t : Text} {b : Bytes} (h : integer (utf8 t) = some b) :
    ∃ k t', t = k ++ t' ∧ JsonGrammar.Int k ∧ b = utf8 t' := by
  cases t with
  | nil => cases h
  | cons c t =>
    by_cases hc : c.toNat < 128
    · rw [utf8_ascii hc, integer] at h
      split at h
      · rename_i hzero
        obtain rfl := (ascii_inj hc (by decide)).mp hzero
        cases h
        exact ⟨['0'], t, rfl, .zero, rfl⟩
      · split at h
        · cases h
        · rename_i hrange
          rw [not_or, UInt8.not_lt, UInt8.not_lt, ascii_le (by decide) hc, ascii_le hc (by decide)] at hrange
          rw [← utf8_ascii hc] at h
          have hdigit : c.isDigit := by
            rw [Char.isDigit, Bool.and_eq_true, decide_eq_true_eq, decide_eq_true_eq]
            exact ⟨Nat.le_trans (by decide : '0'.toNat ≤ '1'.toNat) hrange.1, hrange.2⟩
          rw [digits_utf8, List.dropWhile_cons, if_pos hdigit] at h
          cases h
          refine ⟨c :: t.takeWhile Char.isDigit, t.dropWhile Char.isDigit, ?_, ?_, rfl⟩
          · rw [List.cons_append, List.takeWhile_append_dropWhile]
          · exact .digits hrange fun _ hd => List.mem_takeWhile_imp hd
    · cases he : String.utf8EncodeChar c with
      | nil => exact absurd he (encode_ne_nil c)
      | cons x xs =>
        have hx := encode_high (Nat.le_of_not_lt hc) x (he ▸ List.mem_cons_self)
        have hne : x ≠ ascii '0' := by
          rintro rfl
          exact absurd hx (by decide)
        have hlarge : ascii '9' < x := by
          rw [UInt8.lt_iff_toNat_lt]
          exact Nat.lt_of_lt_of_le (by decide) hx
        rw [utf8_cons, he, List.cons_append, integer, if_neg hne, if_pos (.inr hlarge)] at h
        cases h

theorem integer_complete {k t : Text} (hk : JsonGrammar.Int k) (ht : NoDigit t) :
    integer (utf8 (k ++ t)) = some (utf8 t) := by
  cases hk with
  | zero => rw [List.singleton_append, utf8_ascii (by decide), integer, if_pos rfl]
  | @digits c ds first more =>
    have hc : c.toNat < 128 := Nat.lt_of_le_of_lt (show c.toNat ≤ '9'.toNat from first.2) (by decide)
    have hdigit : c.isDigit := by
      rw [Char.isDigit, Bool.and_eq_true, decide_eq_true_eq, decide_eq_true_eq]
      exact ⟨Nat.le_trans (by decide : '0'.toNat ≤ '1'.toNat) first.1, first.2⟩
    have hzero : ascii c ≠ ascii '0' := by
      rw [Ne, ascii_inj hc (by decide)]
      rintro rfl
      exact absurd first.1 (by decide)
    have hrange : ¬(ascii c < ascii '1' ∨ ascii '9' < ascii c) := by
      rw [not_or, UInt8.not_lt, UInt8.not_lt, ascii_le (by decide) hc, ascii_le hc (by decide)]
      exact first
    rw [List.cons_append, utf8_ascii hc, integer, if_neg hzero, if_neg hrange, ← utf8_ascii hc, ← List.cons_append,
      digits_complete (List.forall_mem_cons.mpr ⟨hdigit, more⟩) ht]

theorem fraction_sound {t : Text} {b : Bytes} (h : fraction (utf8 t) = some b) :
    ∃ k t', t = k ++ t' ∧ Frac k ∧ b = utf8 t' := by
  cases hb : utf8 t with
  | nil =>
    rw [hb] at h
    cases h
    exact ⟨[], t, rfl, .absent, hb.symm⟩
  | cons x rest =>
    rw [hb, fraction] at h
    split at h
    · rename_i hx
      obtain ⟨t₁, rfl, rfl⟩ := (head_utf8 hb '.' (by decide)).mp hx
      obtain ⟨ds, t', rfl, hne, hds, rfl⟩ := someDigits_sound h
      exact ⟨'.' :: ds, t', rfl, .present hne hds, rfl⟩
    · cases h
      exact ⟨[], t, rfl, .absent, hb.symm⟩

theorem fraction_complete {k t : Text} (hk : Frac k) (ht : NoDigit t) (hdot : t.head? ≠ some '.') :
    fraction (utf8 (k ++ t)) = some (utf8 t) := by
  cases hk with
  | absent =>
    rw [List.nil_append]
    cases h : utf8 t with
    | nil => rfl
    | cons x b => exact if_neg (ne_of_head h (by decide) hdot)
  | present hne hds =>
    rw [List.cons_append, utf8_ascii (by decide), fraction, if_pos rfl]
    exact someDigits_complete hne hds ht

theorem sign_sound (t : Text) : ∃ m t', m ∈ [[], ['+'], ['-']] ∧ t = m ++ t' ∧ sign (utf8 t) = utf8 t' := by
  cases h : utf8 t with
  | nil => exact ⟨[], t, by decide, rfl, h.symm⟩
  | cons x b =>
    rw [sign.eq_def]
    dsimp only
    split
    · rename_i hx
      rcases hx with hx | hx
      · obtain ⟨t', rfl, rfl⟩ := (head_utf8 h '+' (by decide)).mp hx
        exact ⟨['+'], t', by decide, rfl, rfl⟩
      · obtain ⟨t', rfl, rfl⟩ := (head_utf8 h '-' (by decide)).mp hx
        exact ⟨['-'], t', by decide, rfl, rfl⟩
    · exact ⟨[], t, by decide, rfl, h.symm⟩

theorem sign_complete {m t : Text} (hm : m ∈ [[], ['+'], ['-']]) (hplus : t.head? ≠ some '+') (hminus : t.head? ≠ some '-') :
    sign (utf8 (m ++ t)) = utf8 t := by
  simp only [List.mem_cons, List.not_mem_nil, or_false] at hm
  rcases hm with rfl | rfl | rfl
  · rw [List.nil_append]
    cases h : utf8 t with
    | nil => rfl
    | cons x b => exact if_neg (not_or.mpr ⟨ne_of_head h (by decide) hplus, ne_of_head h (by decide) hminus⟩)
  · rw [List.singleton_append, utf8_ascii (by decide), sign, if_pos (.inl rfl)]
  · rw [List.singleton_append, utf8_ascii (by decide), sign, if_pos (.inr rfl)]

theorem exponent_sound {t : Text} {b : Bytes} (h : exponent (utf8 t) = some b) :
    ∃ k t', t = k ++ t' ∧ Exp k ∧ b = utf8 t' := by
  cases hb : utf8 t with
  | nil =>
    rw [hb] at h
    cases h
    exact ⟨[], t, rfl, .absent, hb.symm⟩
  | cons x rest =>
    rw [hb, exponent] at h
    split at h
    · rename_i hx
      obtain ⟨e, he, t₁, rfl, rfl⟩ : ∃ e, (e = 'e' ∨ e = 'E') ∧ ∃ t', t = e :: t' ∧ rest = utf8 t' := by
        rcases hx with hx | hx
        · exact ⟨'e', .inl rfl, (head_utf8 hb 'e' (by decide)).mp hx⟩
        · exact ⟨'E', .inr rfl, (head_utf8 hb 'E' (by decide)).mp hx⟩
      obtain ⟨m, t₂, hm, rfl, hsign⟩ := sign_sound t₁
      rw [hsign] at h
      obtain ⟨ds, t', rfl, hne, hds, rfl⟩ := someDigits_sound h
      exact ⟨e :: (m ++ ds), t', by simp, .present he hm hne hds, rfl⟩
    · cases h
      exact ⟨[], t, rfl, .absent, hb.symm⟩

theorem exponent_complete {k t : Text} (hk : Exp k) (ht : NoDigit t) (hsmall : t.head? ≠ some 'e')
    (hlarge : t.head? ≠ some 'E') : exponent (utf8 (k ++ t)) = some (utf8 t) := by
  cases hk with
  | absent =>
    rw [List.nil_append]
    cases h : utf8 t with
    | nil => rfl
    | cons x b => exact if_neg (not_or.mpr ⟨ne_of_head h (by decide) hsmall, ne_of_head h (by decide) hlarge⟩)
  | @present e sign ds letter signed hne hds =>
    have he : e.toNat < 128 := by rcases letter with rfl | rfl <;> decide
    have hletter : ascii e = ascii 'e' ∨ ascii e = ascii 'E' := letter.imp (congrArg ascii) (congrArg ascii)
    have hhead : ∀ d : Char, d.isDigit = false → (ds ++ t).head? ≠ some d := by
      intro d hd hhead
      cases ds with
      | nil => exact hne rfl
      | cons c ds =>
        obtain rfl : c = d := Option.some.inj hhead
        exact Bool.false_ne_true (hd.symm.trans (hds c List.mem_cons_self))
    rw [List.cons_append, utf8_ascii he, exponent, if_pos hletter, List.append_assoc,
      sign_complete signed (hhead '+' (by decide)) (hhead '-' (by decide))]
    exact someDigits_complete hne hds ht

/-- What stands behind a value in a text that is accepted. -/
def Follow (t : Text) : Prop := ∀ c ∈ t.head?, isWs c ∨ c = ',' ∨ c = ']' ∨ c = '\x7d'

theorem Follow.ne {t : Text} (h : Follow t) {c : Char} (hc : ¬(isWs c ∨ c = ',' ∨ c = ']' ∨ c = '\x7d')) :
    t.head? ≠ some c := fun hhead => hc (h c hhead)

theorem Follow.noDigit {t : Text} (h : Follow t) : NoDigit t := by
  intro c hc
  rcases h c hc with hw | rfl | rfl | rfl
  · simp only [isWs, Bool.or_eq_true, decide_eq_true_eq] at hw
    rcases hw with ((rfl | rfl) | rfl) | rfl <;> decide
  all_goals decide

theorem number_sound {t : Text} {out b : Bytes} (h : number (utf8 t) = some (out, b)) :
    ∃ w k t', Ws w ∧ t = w ++ (k ++ t') ∧ Number k ∧ out = utf8 k ∧ b = utf8 t' := by
  obtain ⟨w, hw, ht⟩ := skipped t
  obtain ⟨m, t₁, hm, hskip, hminus⟩ := minus_sound (skip t)
  simp only [number, space_utf8, hminus] at h
  obtain ⟨rest, hrest, hout⟩ := Option.map_eq_some_iff.mp h
  obtain ⟨b₁, hinteger, hrest⟩ := Option.bind_eq_some_iff.mp hrest
  obtain ⟨i, t₂, rfl, hi, rfl⟩ := integer_sound hinteger
  obtain ⟨b₂, hfraction, hexponent⟩ := Option.bind_eq_some_iff.mp hrest
  obtain ⟨f, t₃, rfl, hf, rfl⟩ := fraction_sound hfraction
  obtain ⟨e, t', rfl, he, rfl⟩ := exponent_sound hexponent
  have hwhole : skip t = m ++ (i ++ (f ++ e)) ++ t' := by
    rw [hskip]
    simp only [List.append_assoc]
  obtain ⟨rfl, rfl⟩ := Prod.mk.inj hout
  refine ⟨w, m ++ (i ++ (f ++ e)), t', hw, by rw [← hwhole, ← ht], .mk hm hi hf he, ?_, rfl⟩
  rw [hwhole, utf8_append, List.length_append, Nat.add_sub_cancel, List.take_left]

theorem head_int {k : Text} (hk : JsonGrammar.Int k) (t : Text) : ∃ c, (k ++ t).head? = some c ∧ c.isDigit := by
  cases hk with
  | zero => exact ⟨'0', rfl, by decide⟩
  | @digits c ds first more =>
    refine ⟨c, rfl, ?_⟩
    rw [Char.isDigit, Bool.and_eq_true, decide_eq_true_eq, decide_eq_true_eq]
    exact ⟨Nat.le_trans (by decide : '0'.toNat ≤ '1'.toNat) first.1, first.2⟩

theorem not_isWs_digit {c : Char} (h : c.isDigit) : isWs c = false := by
  rw [← Bool.not_eq_true]
  intro hw
  simp only [isWs, Bool.or_eq_true, decide_eq_true_eq] at hw
  rcases hw with ((rfl | rfl) | rfl) | rfl <;> exact absurd h (by decide)

theorem skip_of_head {t : Text} {c : Char} (h : t.head? = some c) (hc : isWs c = false) : skip t = t := by
  cases t with
  | nil => rfl
  | cons d t =>
    obtain rfl : d = c := Option.some.inj h
    exact skip_cons hc t

theorem number_complete {w k t : Text} (hw : Ws w) (hk : Number k) (ht : Follow t) :
    number (utf8 (w ++ (k ++ t))) = some (utf8 k, utf8 t) := by
  cases hk with
  | @mk m i f e hm hi hf he =>
    have hexp : NoDigit (e ++ t) ∧ (e ++ t).head? ≠ some '.' := by
      cases he with
      | absent => exact ⟨ht.noDigit, ht.ne (by decide)⟩
      | present letter =>
        rcases letter with rfl | rfl
        all_goals
          refine ⟨fun c hc => ?_, fun hc => absurd (Option.some.inj hc) (by decide)⟩
          obtain rfl := Option.some.inj hc
          decide
    have hfrac : NoDigit (f ++ (e ++ t)) := by
      cases hf with
      | absent => exact hexp.1
      | present =>
        intro c hc
        obtain rfl := Option.some.inj hc
        decide
    obtain ⟨c, hhead, hdigit⟩ := head_int hi (f ++ (e ++ t))
    have hminus : (i ++ (f ++ (e ++ t))).head? ≠ some '-' := by
      rw [hhead]
      rintro ⟨⟩
      exact absurd hdigit (by decide)
    have hflat : m ++ (i ++ (f ++ e)) ++ t = m ++ (i ++ (f ++ (e ++ t))) := by simp only [List.append_assoc]
    have hskip : skip (w ++ (m ++ (i ++ (f ++ e)) ++ t)) = m ++ (i ++ (f ++ e)) ++ t := by
      rw [skip_append hw, hflat]
      simp only [List.mem_cons, List.not_mem_nil, or_false] at hm
      rcases hm with rfl | rfl
      · exact skip_of_head hhead (not_isWs_digit hdigit)
      · exact skip_cons (by decide) _
    rw [number, space_utf8, hskip, hflat, minus_complete hm hminus, integer_complete hi hfrac, Option.bind_some, fraction_complete hf hexp.1 hexp.2,
      Option.bind_some, exponent_complete he ht.noDigit (ht.ne (by decide)) (ht.ne (by decide)), Option.map_some, ← hflat,
      utf8_append, List.length_append, Nat.add_sub_cancel, List.take_left]

end SocietyHelper.Monitoring.Json
