import SocietyHelper.Monitoring.JsonReading

/-! # What the writer gives is read back

Every piece that the writer puts out is the text of a value of the grammar, so
the reader takes the whole and finds in it what was written.
-/

namespace SocietyHelper.Monitoring.Json

open Library JsonGrammar

/-- Bytes that are the text of a value within some levels. -/
def Written (n : Nat) (b : Bytes) (tree : Tree) : Prop := ∃ t, b = utf8 t ∧ Value t tree ∧ tree.Within n

/-! ## Strings -/

/-- The piece that a character is written as. -/
def pieceOf (c : Char) : Piece :=
  if c.toNat < 32 ∧ c ≠ '\n' ∧ c ≠ '\r' ∧ c ≠ '\t' then .unit c.toNat else .scalar c

theorem chunk_pieceOf (c : Char) : Chunk [pieceOf c] c := by
  rw [pieceOf]
  split
  · rename_i h
    have hunit := Chunk.unit (u := c.toNat) (by simp only [high, Bool.and_eq_false_iff, decide_eq_false_iff_not]; omega)
      (by simp only [low, Bool.and_eq_false_iff, decide_eq_false_iff_not]; omega)
    rwa [Char.ofNat_toNat] at hunit
  · exact .scalar c

theorem decodes_pieces (s : Text) : Decodes (s.map pieceOf) s := by
  induction s with
  | nil => exact .nil
  | cons c s ih => exact .chunk (chunk_pieceOf c) ih

theorem hexDigit_digitChar : ∀ n < 16, JsonGrammar.hexDigit (Nat.digitChar n) = some n := by decide

theorem digitChar_small : ∀ n < 16, (Nat.digitChar n).toNat < 128 := by decide

/-- What the writer puts for a character below 128 is a character of the grammar. -/
theorem escaped_small {c : Char} (hc : c.toNat < 128) :
    ∃ k, escaped (ascii c) = utf8 k ∧ Character k (pieceOf c) := by
  by_cases hsimple : c ∈ ['"', '\\', '\n', '\r', '\t']
  · simp only [List.mem_cons, List.not_mem_nil, or_false] at hsimple
    rcases hsimple with rfl | rfl | rfl | rfl | rfl
    · exact ⟨['\\', '"'], rfl, .escaped (by decide)⟩
    · exact ⟨['\\', '\\'], rfl, .escaped (by decide)⟩
    · exact ⟨['\\', 'n'], rfl, .escaped (by decide)⟩
    · exact ⟨['\\', 'r'], rfl, .escaped (by decide)⟩
    · exact ⟨['\\', 't'], rfl, .escaped (by decide)⟩
  · simp only [List.mem_cons, List.not_mem_nil, or_false, not_or] at hsimple
    obtain ⟨hquote, hslash, hn, hr, ht⟩ := hsimple
    have hne : ∀ d : Char, d.toNat < 128 → c ≠ d → ascii c ≠ ascii d := fun d hd h => mt (ascii_inj hc hd).mp h
    have hbyte : ascii c < 32 ↔ c.toNat < 32 := by
      rw [UInt8.lt_iff_toNat_lt, toNat_ascii hc]
      exact Iff.rfl
    rw [escaped, if_neg (hne _ (by decide) hquote), if_neg (hne _ (by decide) hslash), if_neg (hne _ (by decide) hn),
      if_neg (hne _ (by decide) hr), if_neg (hne _ (by decide) ht)]
    by_cases hcontrol : c.toNat < 32
    · have hhigh := digitChar_small (c.toNat / 16) (by omega)
      have hlow := digitChar_small (c.toNat % 16) (by omega)
      rw [if_pos (hbyte.mpr hcontrol), toNat_ascii hc, pieceOf, if_pos ⟨hcontrol, hn, hr, ht⟩]
      refine ⟨'\\' :: 'u' :: ['0', '0', Nat.digitChar (c.toNat / 16), Nat.digitChar (c.toNat % 16)], ?_, .unit rfl ?_⟩
      · rw [utf8_ascii (by decide), utf8_ascii (by decide), utf8_ascii (by decide), utf8_ascii (by decide),
          utf8_ascii hhigh, utf8_ascii hlow]
        rfl
      · have hzero : JsonGrammar.hexDigit '0' = some 0 := by decide
        simp only [hexFrom, hzero, hexDigit_digitChar (c.toNat / 16) (by omega),
          hexDigit_digitChar (c.toNat % 16) (by omega), Option.some.injEq]
        omega
    · rw [if_neg (mt hbyte.mp hcontrol), pieceOf, if_neg fun h => hcontrol h.1]
      exact ⟨[c], (utf8_ascii hc []).symm, .unescaped ⟨Nat.le_of_not_lt hcontrol, hquote, hslash⟩⟩

/-- Bytes above 127 are not escaped. -/
theorem escaped_high {hs : Bytes} (h : ∀ x ∈ hs, 128 ≤ x.toNat) : hs.flatMap escaped = hs := by
  induction hs with
  | nil => rfl
  | cons x hs ih =>
    have hx : 128 ≤ x.toNat := h x List.mem_cons_self
    have hne : ∀ d : Char, d.toNat < 128 → x ≠ ascii d := by
      rintro d hd rfl
      rw [toNat_ascii hd] at hx
      omega
    have hcontrol : ¬x < 32 := by
      rw [UInt8.lt_iff_toNat_lt, show (32 : UInt8).toNat = 32 from rfl]
      omega
    rw [List.flatMap_cons, ih fun y hy => h y (List.mem_cons_of_mem x hy), escaped, if_neg (hne _ (by decide)),
      if_neg (hne _ (by decide)), if_neg (hne _ (by decide)), if_neg (hne _ (by decide)), if_neg (hne _ (by decide)),
      if_neg hcontrol, List.singleton_append]

theorem escaped_chars (s : Text) : ∃ k, (utf8 s).flatMap escaped = utf8 k ∧ Chars k (s.map pieceOf) := by
  induction s with
  | nil => exact ⟨[], rfl, .nil⟩
  | cons c s ih =>
    obtain ⟨k, hk, hchars⟩ := ih
    obtain ⟨front, hfront, hchar⟩ : ∃ front, (String.utf8EncodeChar c).flatMap escaped = utf8 front ∧
        Character front (pieceOf c) := by
      by_cases hc : c.toNat < 128
      · obtain ⟨front, hfront, hchar⟩ := escaped_small hc
        exact ⟨front, by rw [encode_ascii hc, List.flatMap_singleton, hfront], hchar⟩
      · have hlarge := Nat.le_of_not_lt hc
        have hpiece : pieceOf c = .scalar c := if_neg fun h => by omega
        refine ⟨[c], (escaped_high (encode_high hlarge)).trans (List.append_nil _).symm, hpiece ▸ .unescaped ⟨by omega, ?_, ?_⟩⟩
        · rintro rfl
          exact absurd hlarge (by decide)
        · rintro rfl
          exact absurd hlarge (by decide)
    exact ⟨front ++ k, by rw [utf8_cons, List.flatMap_append, hfront, hk, utf8_append], .cons hchar hchars⟩

theorem quote_string (s : Text) : ∃ t, quote (utf8 s) = utf8 t ∧ JsonString t (s.map pieceOf) := by
  obtain ⟨k, hk, hchars⟩ := escaped_chars s
  refine ⟨'"' :: (k ++ ['"']), ?_, k, hchars, rfl⟩
  rw [quote, hk, utf8_ascii (by decide), utf8_append]
  rfl

theorem quote_written (n : Nat) (s : Text) : Written (n + 1) (quote (utf8 s)) (.string (s.map pieceOf)) := by
  obtain ⟨t, ht, hstring⟩ := quote_string s
  exact ⟨t, ht, .string hstring, (keyOf_decodes (decodes_pieces s)).2⟩

/-! ## Numbers and literals -/

theorem digits_decimal {n : Nat} (hn : 0 < n) :
    ∃ c ds, decimal n = c :: ds ∧ ('1' ≤ c ∧ c ≤ '9') ∧ Digits ds := by
  induction n using Nat.strongRecOn with
  | _ n ih =>
    by_cases hsmall : n < 10
    · refine ⟨Nat.digitChar n, [], Nat.toDigits_of_lt_base hsmall, ?_, fun _ hc => by cases hc⟩
      have hfirst : ∀ m < 10, 0 < m → '1' ≤ Nat.digitChar m ∧ Nat.digitChar m ≤ '9' := by decide
      exact hfirst n hsmall hn
    · obtain ⟨c, ds, hfront, hfirst, hds⟩ := ih (n / 10) (by omega) (by omega)
      have hlast : Nat.toDigits 10 n = Nat.toDigits 10 (n / 10) ++ [Nat.digitChar (n % 10)] :=
        Nat.toDigits_of_base_le (by decide) (by omega)
      refine ⟨c, ds ++ [Nat.digitChar (n % 10)], ?_, hfirst, ?_⟩
      · rw [decimal, hlast, ← decimal, hfront, List.cons_append]
      · intro d hd
        rcases List.mem_append.mp hd with hd | hd
        · exact hds d hd
        · rw [List.mem_singleton.mp hd]
          have hdigit : ∀ m < 10, (Nat.digitChar m).isDigit := by decide
          exact hdigit _ (Nat.mod_lt n (by decide))

theorem int_decimal (n : Nat) : JsonGrammar.Int (decimal n) := by
  rcases Nat.eq_zero_or_pos n with rfl | hn
  · exact .zero
  · obtain ⟨c, ds, hdecimal, hfirst, hds⟩ := digits_decimal hn
    rw [hdecimal]
    exact .digits hfirst hds

theorem number_decimal (n : Nat) : Number (decimal n) := by
  have hnumber := Number.mk (by decide : ([] : Text) ∈ [[], ['-']]) (int_decimal n) .absent .absent
  rwa [List.nil_append, List.nil_append, List.append_nil] at hnumber

theorem number_decimalInt (i : ℤ) : Number (decimalInt i) := by
  cases i with
  | ofNat n => exact number_decimal n
  | negSucc n =>
    have hnumber := Number.mk (by decide : ['-'] ∈ [[], ['-']]) (int_decimal (n + 1)) .absent .absent
    rwa [List.nil_append, List.append_nil] at hnumber

theorem decimal_written (n m : Nat) : Written (n + 1) (utf8 (decimal m)) (.number (decimal m)) :=
  ⟨decimal m, rfl, .number (number_decimal m), trivial⟩

theorem decimalInt_written (n : Nat) (i : ℤ) : Written (n + 1) (utf8 (decimalInt i)) (.number (decimalInt i)) :=
  ⟨decimalInt i, rfl, .number (number_decimalInt i), trivial⟩

theorem boolean_written (n : Nat) (b : Bool) :
    Written (n + 1) (boolean b) (.literal (text (if b then "true" else "false"))) := by
  refine ⟨_, rfl, .literal ?_, trivial⟩
  cases b <;> simp

/-! ## Arrays and objects -/

theorem commas_separated {ts : List Text} (hne : ts ≠ []) : ∃ x, commas (ts.map utf8) = utf8 x ∧ Separated ts x := by
  induction ts with
  | nil => exact absurd rfl hne
  | cons t ts ih =>
    cases ts with
    | nil => exact ⟨t, rfl, .one t⟩
    | cons u ts =>
      obtain ⟨x, hx, hseparated⟩ := ih (by simp)
      refine ⟨t ++ ([','] ++ x), ?_, .more ⟨[], [], ws_nil, ws_nil, rfl⟩ hseparated⟩
      rw [List.map_cons, List.map_cons, commas, ← List.map_cons, hx, utf8_append, List.singleton_append,
        utf8_ascii (by decide)]

/-- Texts for a list of written values, one for each. -/
theorem written_texts {n : Nat} {vs : List (Bytes × Tree)} (hvs : ∀ v ∈ vs, Written n v.1 v.2) :
    ∃ ts : List (Text × Tree), ts.map (fun v => utf8 v.1) = vs.map Prod.fst ∧ ts.map Prod.snd = vs.map Prod.snd ∧
      ∀ v ∈ ts, Value v.1 v.2 ∧ v.2.Within n := by
  induction vs with
  | nil => exact ⟨[], rfl, rfl, fun _ hv => by cases hv⟩
  | cons v vs ih =>
    rw [List.forall_mem_cons] at hvs
    obtain ⟨⟨t, ht, hvalue⟩, hrest⟩ := hvs
    obtain ⟨ts, hbytes, htrees, hts⟩ := ih hrest
    refine ⟨(t, v.2) :: ts, ?_, ?_, List.forall_mem_cons.mpr ⟨hvalue, hts⟩⟩
    · rw [List.map_cons, List.map_cons, hbytes, ht]
    · rw [List.map_cons, List.map_cons, htrees]

theorem arrayJson_written {n : Nat} {vs : List (Bytes × Tree)} (hvs : ∀ v ∈ vs, Written n v.1 v.2) :
    Written (n + 1) (arrayJson (vs.map Prod.fst)) (.array (vs.map Prod.snd)) := by
  obtain ⟨ts, hbytes, htrees, hts⟩ := written_texts hvs
  rw [← hbytes, ← htrees]
  have hwithin : (Tree.array (ts.map Prod.snd)).Within (n + 1) := by
    intro tree htree
    obtain ⟨v, hv, rfl⟩ := List.mem_map.mp htree
    exact (hts v hv).2
  rcases ts with - | ⟨t, ts⟩
  · exact ⟨['['] ++ [']'], rfl, .emptyArray (token_before '[' ws_nil) (token_before ']' ws_nil), hwithin⟩
  · obtain ⟨x, hx, hseparated⟩ := @commas_separated ((t :: ts).map Prod.fst) (by simp)
    refine ⟨['['] ++ (x ++ [']']), ?_, .array (token_before '[' ws_nil) hseparated (fun v hv => (hts v hv).1)
      (token_before ']' ws_nil), hwithin⟩
    rw [List.map_map] at hx
    rw [arrayJson, List.singleton_append, utf8_ascii (by decide), utf8_append, ← hx]
    rfl

/-- A key that is written as it is. -/
def Plain (key : Text) : Prop := ∀ c ∈ key, Unescaped c

theorem plain_string {key : Text} (h : Plain key) :
    JsonString ('"' :: (key ++ ['"'])) (key.map .scalar) ∧ decode (key.map .scalar) = some key := by
  have hchars : Chars key (key.map .scalar) ∧ decode (key.map .scalar) = some key := by
    induction key with
    | nil => exact ⟨.nil, rfl⟩
    | cons c key ih =>
      obtain ⟨hc, hkey⟩ := List.forall_mem_cons.mp h
      obtain ⟨hchars, hdecode⟩ := ih hkey
      refine ⟨.cons (.unescaped hc) hchars, ?_⟩
      rw [List.map_cons, decode, hdecode, Option.map_some]
  exact ⟨⟨key, hchars.1, rfl⟩, hchars.2⟩

def memberJson (m : Text × Bytes) : Bytes := ascii '"' :: (utf8 m.1 ++ ascii '"' :: ascii ':' :: m.2)

theorem written_member {n : Nat} {key : Text} {b : Bytes} {tree : Tree} (hkey : Plain key) (h : Written n b tree) :
    ∃ m, utf8 (Member.text m) = memberJson (key, b) ∧ m.denoted = (key.map .scalar, tree) ∧ Good n m := by
  obtain ⟨t, rfl, hvalue, hwithin⟩ := h
  obtain ⟨hstring, hdecode⟩ := plain_string hkey
  refine ⟨⟨'"' :: (key ++ ['"']), key.map .scalar, [':'], t, tree⟩, ?_, rfl, hstring, token_before ':' ws_nil, hvalue, ?_,
    hwithin⟩
  · simp only [Member.text, memberJson, List.cons_append, List.append_assoc, List.nil_append]
    rw [utf8_ascii (by decide), utf8_append, utf8_ascii (by decide), utf8_ascii (by decide)]
  · rw [hdecode]
    rfl

theorem written_members {n : Nat} {ms : List (Text × Bytes × Tree)} (hkeys : ∀ m ∈ ms, Plain m.1)
    (hms : ∀ m ∈ ms, Written n m.2.1 m.2.2) :
    ∃ members : List Member, (members.map Member.text).map utf8 = ms.map (fun m => memberJson (m.1, m.2.1)) ∧
      members.map Member.denoted = ms.map (fun m => (m.1.map .scalar, m.2.2)) ∧ ∀ m ∈ members, Good n m := by
  induction ms with
  | nil => exact ⟨[], rfl, rfl, fun _ hm => by cases hm⟩
  | cons m ms ih =>
    rw [List.forall_mem_cons] at hkeys hms
    obtain ⟨first, htext, hdenoted, hgood⟩ := written_member hkeys.1 hms.1
    obtain ⟨rest, htexts, htrees, hrest⟩ := ih hkeys.2 hms.2
    refine ⟨first :: rest, ?_, ?_, List.forall_mem_cons.mpr ⟨hgood, hrest⟩⟩
    · rw [List.map_cons, List.map_cons, List.map_cons, htext, htexts]
    · rw [List.map_cons, List.map_cons, hdenoted, htrees]

theorem objectJson_written {n : Nat} {ms : List (Text × Bytes × Tree)} (hne : ms ≠ []) (hkeys : ∀ m ∈ ms, Plain m.1)
    (hms : ∀ m ∈ ms, Written n m.2.1 m.2.2) :
    Written (n + 1) (objectJson (ms.map fun m => (m.1, m.2.1))) (.object (ms.map fun m => (m.1.map .scalar, m.2.2))) := by
  obtain ⟨members, htexts, htrees, hgood⟩ := written_members hkeys hms
  have hsome : members.map Member.text ≠ [] := by
    rintro hnil
    rw [hnil] at htexts
    exact hne (List.map_eq_nil_iff.mp htexts.symm)
  obtain ⟨x, hx, hseparated⟩ := commas_separated hsome
  refine ⟨['\x7b'] ++ (x ++ ['\x7d']), ?_, ?_, ?_⟩
  · rw [htexts] at hx
    rw [objectJson, List.map_map, List.singleton_append, utf8_ascii (by decide), utf8_append, ← hx]
    rfl
  · rw [← htrees]
    exact .object (token_before '\x7b' ws_nil) hseparated (fun m hm => ⟨(hgood m hm).name, (hgood m hm).colon⟩)
      (fun m hm => (hgood m hm).value) (token_before '\x7d' ws_nil)
  · rw [← htrees]
    intro p hp
    obtain ⟨m, hm, rfl⟩ := List.mem_map.mp hp
    exact ⟨(hgood m hm).key, (hgood m hm).within⟩

/-! ## A state -/

/-- The members of a section with the trees that their values are written for. -/
def sectionMembers (s : Section) : List (Text × Bytes × Tree) := [
  (text "key", quote (utf8 s.key), .string (s.key.map pieceOf)),
  (text "files", utf8 (decimal s.files), .number (decimal s.files)),
  (text "directories", utf8 (decimal s.directories), .number (decimal s.directories)),
  (text "bytes", utf8 (decimal s.bytes), .number (decimal s.bytes)),
  (text "fingerprint", quote (utf8 (decimal s.fingerprint.toNat)), .string ((decimal s.fingerprint.toNat).map pieceOf)),
  (text "lastModified", utf8 (decimalInt s.lastModified), .number (decimalInt s.lastModified)),
  (text "available", boolean s.available, .literal (text (if s.available then "true" else "false"))),
  (text "complete", boolean s.complete, .literal (text (if s.complete then "true" else "false")))]

def treeOf (members : List (Text × Bytes × Tree)) : Tree := .object (members.map fun m => (m.1.map .scalar, m.2.2))

theorem plain_keys {ms : List (Text × Bytes × Tree)} (keys : List Text) (h : ms.map Prod.fst = keys)
    (hall : keys.all fun key => key.all fun c => 0x20 ≤ c.toNat && c ≠ '"' && c ≠ '\\') : ∀ m ∈ ms, Plain m.1 := by
  intro m hm c hc
  have hkey : m.1 ∈ keys := h ▸ List.mem_map_of_mem hm
  have hplain := List.all_eq_true.mp (List.all_eq_true.mp hall m.1 hkey) c hc
  simp only [Bool.and_eq_true, decide_eq_true_eq] at hplain
  exact ⟨hplain.1.1, hplain.1.2, hplain.2⟩

theorem section_written (n : Nat) (s : Section) : Written (n + 2) (sectionJson s) (treeOf (sectionMembers s)) := by
  have hplain : ∀ m ∈ sectionMembers s, Plain m.1 := plain_keys
    [text "key", text "files", text "directories", text "bytes", text "fingerprint", text "lastModified",
      text "available", text "complete"] rfl (by decide)
  refine objectJson_written (List.cons_ne_nil _ _) hplain ?_
  simp only [List.forall_mem_cons, List.not_mem_nil, false_imp_iff, implies_true, and_true]
  exact ⟨quote_written n _, decimal_written n _, decimal_written n _, decimal_written n _, quote_written n _,
    decimalInt_written n _, boolean_written n _, boolean_written n _⟩

def changedTree (key : Text) : Tree := .string (key.map pieceOf)

def stateMembers (value : State) : List (Text × Bytes × Tree) := [
  (text "schemaVersion", utf8 (decimal value.schemaVersion), .number (decimal value.schemaVersion)),
  (text "instanceId", quote (utf8 value.instanceId), .string (value.instanceId.map pieceOf)),
  (text "containerId", quote (utf8 value.containerId), .string (value.containerId.map pieceOf)),
  (text "rootPath", quote (utf8 value.root), .string (value.root.map pieceOf)),
  (text "revision", quote (utf8 (decimal value.revision)), .string ((decimal value.revision).map pieceOf)),
  (text "observedAtMs", utf8 (decimalInt value.observedAtMs), .number (decimalInt value.observedAtMs)),
  (text "available", boolean value.available, .literal (text (if value.available then "true" else "false"))),
  (text "complete", boolean value.complete, .literal (text (if value.complete then "true" else "false"))),
  (text "daemonRunning", boolean value.daemonRunning, .literal (text (if value.daemonRunning then "true" else "false"))),
  (text "error", quote (utf8 value.error), .string (value.error.map pieceOf)),
  (text "sections", arrayJson (value.sections.map sectionJson), .array (value.sections.map fun s => treeOf (sectionMembers s))),
  (text "changedSections", arrayJson (value.changedSections.map fun key => quote (utf8 key)),
    .array (value.changedSections.map changedTree))]

def stateKeys : List Text :=
  [text "schemaVersion", text "instanceId", text "containerId", text "rootPath", text "revision", text "observedAtMs",
    text "available", text "complete", text "daemonRunning", text "error", text "sections", text "changedSections"]

/-- An array of written values, each of them a function of an element. -/
theorem elements_written {α : Type} {n : Nat} {write : α → Bytes} {tree : α → Tree} {xs : List α}
    (h : ∀ x, Written n (write x) (tree x)) : Written (n + 1) (arrayJson (xs.map write)) (.array (xs.map tree)) := by
  have hvs : ∀ v ∈ xs.map fun x => (write x, tree x), Written n v.1 v.2 := by
    intro v hv
    obtain ⟨x, -, rfl⟩ := List.mem_map.mp hv
    exact h x
  have harray := arrayJson_written hvs
  rwa [List.map_map, List.map_map] at harray

theorem state_written (value : State) : Written (levels + 1) (toJson value) (treeOf (stateMembers value)) := by
  have hplain : ∀ m ∈ stateMembers value, Plain m.1 := plain_keys stateKeys rfl (by decide)
  refine objectJson_written (List.cons_ne_nil _ _) hplain ?_
  simp only [List.forall_mem_cons, List.not_mem_nil, false_imp_iff, implies_true, and_true]
  exact ⟨decimal_written 24 _, quote_written 24 _, quote_written 24 _, quote_written 24 _, quote_written 24 _,
    decimalInt_written 24 _, boolean_written 24 _, boolean_written 24 _, boolean_written 24 _, quote_written 24 _,
    elements_written (section_written 22), elements_written (quote_written 23)⟩

/-- What the reader finds of a state. -/
def stateEntries (value : State) : List (Bytes × Scalar) := [
  (utf8 (text "schemaVersion"), ⟨.number, utf8 (decimal value.schemaVersion)⟩),
  (utf8 (text "instanceId"), ⟨.string, utf8 value.instanceId⟩),
  (utf8 (text "containerId"), ⟨.string, utf8 value.containerId⟩),
  (utf8 (text "rootPath"), ⟨.string, utf8 value.root⟩),
  (utf8 (text "revision"), ⟨.string, utf8 (decimal value.revision)⟩),
  (utf8 (text "observedAtMs"), ⟨.number, utf8 (decimalInt value.observedAtMs)⟩),
  (utf8 (text "available"), {}),
  (utf8 (text "complete"), {}),
  (utf8 (text "daemonRunning"), {}),
  (utf8 (text "error"), ⟨.string, utf8 value.error⟩),
  (utf8 (text "sections"), {}),
  (utf8 (text "changedSections"), {})]

theorem keyOf_plain {key : Text} (h : Plain key) : keyOf (key.map .scalar) = utf8 key := by
  rw [keyOf, (plain_string h).2]
  rfl

theorem scalarOf_string (s : Text) : scalarOf (.string (s.map pieceOf)) = ⟨.string, utf8 s⟩ := by
  rw [scalarOf, (keyOf_decodes (decodes_pieces s)).1]

theorem state_entries (value : State) :
    ((stateMembers value).map fun m => (m.1.map Piece.scalar, m.2.2)).map entryOf = stateEntries value := by
  have hplain : ∀ m ∈ stateMembers value, Plain m.1 := plain_keys stateKeys rfl (by decide)
  have hentries : ((stateMembers value).map fun m => (m.1.map Piece.scalar, m.2.2)).map entryOf =
      (stateMembers value).map fun m => (utf8 m.1, scalarOf m.2.2) := by
    rw [List.map_map]
    refine List.map_congr_left fun m hm => ?_
    rw [Function.comp_apply, entryOf, keyOf_plain (hplain m hm)]
  rw [hentries]
  simp only [stateMembers, List.map_cons, List.map_nil, scalarOf_string]
  rfl

theorem toJson_read (value : State) :
    ∃ t ms, toJson value = utf8 t ∧ JsonText t (.object ms) ∧ Readable ms ∧ ms.map entryOf = stateEntries value := by
  obtain ⟨t, ht, hvalue, hwithin⟩ := state_written value
  have hplain : ∀ m ∈ stateMembers value, Plain m.1 := plain_keys stateKeys rfl (by decide)
  refine ⟨t, _, ht, ⟨[], t, [], ws_nil, hvalue, ws_nil, (List.append_nil t).symm⟩, ?_, state_entries value⟩
  refine ⟨fun m hm => (hwithin m hm).1, fun m hm => (hwithin m hm).2, ?_⟩
  have hkeys : ((stateMembers value).map fun m => (m.1.map Piece.scalar, m.2.2)).map (fun m => decode m.1) =
      stateKeys.map some := by
    rw [List.map_map, show stateKeys = (stateMembers value).map Prod.fst from rfl, List.map_map]
    exact List.map_congr_left fun m hm => (plain_string (hplain m hm)).2
  rw [hkeys]
  exact (by decide : stateKeys.Nodup).map (Option.some_injective _)

/-- The reader takes the objects of RFC 8259 with different keys, at most 25 levels and paired surrogates, gives what
they denote, and reads back every state that is written. -/
theorem reader_exact (serializes : Bytes → Bool) (hserializes : ∀ t, serializes (utf8 t)) :
    (∀ t r, object serializes (utf8 t) = .ok r ↔ ∃ ms, JsonText t (.object ms) ∧ Readable ms ∧ r = ms.map entryOf) ∧
    ∀ value, object serializes (toJson value) = .ok (stateEntries value) := by
  refine ⟨fun t => object_iff (hserializes t), fun value => ?_⟩
  obtain ⟨t, ms, ht, htext, hms, hentries⟩ := toJson_read value
  rw [ht, ← hentries]
  exact (object_iff (hserializes t) _).mpr ⟨ms, htext, hms, rfl⟩

theorem reader_exact_empty :
    object (fun _ => true) (utf8 (text "\x7b\x7d")) = .ok [] ∧
      object (fun _ => true) (toJson {}) = .ok (stateEntries {}) := by
  obtain ⟨hread, hstate⟩ := reader_exact (fun _ => true) fun _ => rfl
  refine ⟨(hread _ []).mpr ⟨[], ⟨[], text "\x7b\x7d", [], ws_nil, ?_, ws_nil, rfl⟩, ?_, rfl⟩, hstate {}⟩
  · exact .emptyObject (token_before '\x7b' ws_nil) (token_before '\x7d' ws_nil)
  · exact ⟨fun _ hm => (by cases hm), fun _ hm => (by cases hm), List.nodup_nil⟩

end SocietyHelper.Monitoring.Json
