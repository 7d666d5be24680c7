import SocietyHelper.Storage.PairingCredentials

/-! # Pairing proofs between synchronized devices

Daily seeds cover consecutive days and nothing else. Credentials that are valid
have a key for the current five minutes exactly if its day is covered, and then
a proof made with it is accepted beside it and for nothing else.
-/

namespace SocietyHelper.Storage

open Library

theorem tdiv_tdiv_days (a : Int) : (a.tdiv 300).tdiv 288 = a.tdiv 86400 := by
  have hpos : ∀ n : Int, 0 ≤ n → (n.tdiv 300).tdiv 288 = n.tdiv 86400 := by
    intro n hn
    rw [Int.tdiv_eq_ediv_of_nonneg hn, Int.tdiv_eq_ediv_of_nonneg (by omega), Int.tdiv_eq_ediv_of_nonneg hn]
    omega
  cases Int.le_total 0 a with
  | inl h => exact hpos a h
  | inr h =>
    have hneg := hpos (-a) (by omega)
    rw [Int.neg_tdiv, Int.neg_tdiv, Int.neg_tdiv] at hneg
    exact neg_injective hneg

theorem Time.epoch_tdiv (t : Time) : t.epoch.tdiv 288 = day t.msecs := tdiv_tdiv_days (seconds t.msecs)

theorem tdiv_nonpos {a b : Int} (ha : a ≤ 0) (hb : 0 ≤ b) : a.tdiv b ≤ 0 := by
  have h := Int.tdiv_nonneg (show 0 ≤ -a by omega) hb
  rw [Int.neg_tdiv] at h
  omega

theorem Time.epoch_lt (t : Time) : t.epoch < 2 ^ 63 := by
  have hseconds : seconds t.msecs < 2 ^ 63 := by
    cases Int.le_total 0 t.msecs with
    | inl h => exact Int.lt_of_le_of_lt (Int.tdiv_le_self 1000 h) t.bounds.2
    | inr h =>
      have hle := tdiv_nonpos h (show (0 : Int) ≤ 1000 by decide)
      rw [seconds]
      omega
  cases Int.le_total 0 (seconds t.msecs) with
  | inl h => exact Int.lt_of_le_of_lt (Int.tdiv_le_self 300 h) hseconds
  | inr h =>
    have hle := tdiv_nonpos h (show (0 : Int) ≤ 300 by decide)
    rw [Time.epoch]
    omega

/-- A table of as many numbered entries as it has rows has no other entry. -/
theorem numbered_iff {values : Table Text Value} {first : Int}
    (h : ∀ offset < values.rows.length, hex (numbered values (first + offset))) (n : Int) :
    hex (numbered values n) ↔ first ≤ n ∧ n < first + values.rows.length := by
  have hkey : ∀ m, hex (numbered values m) → decimalInt m ∈ values.keys := by
    intro m hm
    cases hfind : values.find? (decimalInt m) with
    | none => simp [numbered, hfind] at hm
    | some v => exact (values.mem_keys_iff _).mpr ⟨v, hfind⟩
  constructor
  · intro hn
    -- The numbers that are known to be there already fill the table.
    let known := (List.range values.rows.length).map fun offset : Nat => decimalInt (first + offset)
    have hnodup : known.Nodup := by
      apply List.nodup_range.map
      intro a b hab
      have heq := decimalInt_injective hab
      omega
    have hsub : known ⊆ values.keys := by
      intro k hk
      obtain ⟨offset, hoffset, rfl⟩ := List.mem_map.mp hk
      exact hkey _ (h offset (List.mem_range.mp hoffset))
    have hperm := (hnodup.subperm hsub).perm_of_length_le (by simp [known, Table.keys])
    obtain ⟨offset, hoffset, heq⟩ := List.mem_map.mp (hperm.mem_iff.mpr (hkey n hn))
    have hn' := decimalInt_injective heq
    have hlt := List.mem_range.mp hoffset
    omega
  · rintro ⟨hle, hlt⟩
    have hoffset := h (n - first).toNat (by omega)
    rwa [Int.toNat_of_nonneg (by omega), show first + (n - first) = n by omega] at hoffset

namespace SocietyPairingCredentials

variable {δ : Type} {dates : Calendar δ} {c : Credentials}

theorem key_of_valid {now : Time} (hvalid : valid dates c now) {epoch : Int} (hepoch : 0 ≤ epoch) :
    key dates c epoch now = if c.version.getD 1 = 1 then
      if hex (numbered c.keys epoch) then fromHex (numbered c.keys epoch) else []
    else if hex (numbered c.seeds (epoch.tdiv 288)) then
      fromHex (hmacSha256 (fromHex (numbered c.seeds (epoch.tdiv 288)))
        (utf8 (text "society-auto-pair-key-v2\n" ++ c.scope.text ++ '\n' :: decimalInt epoch)))
    else [] := by
  rw [key, if_neg]
  simp only [hvalid, not_true, false_or, Int.not_lt]
  exact hepoch

/-- While the credentials are valid, the key of an epoch does not depend on the time. -/
theorem key_eq {now later : Time} (hvalid : valid dates c now) (hlater : valid dates c later) (epoch : Int) :
    key dates c epoch now = key dates c epoch later := by
  by_cases hepoch : 0 ≤ epoch
  · rw [key_of_valid hvalid hepoch, key_of_valid hlater hepoch]
  · simp only [key, hvalid, hlater, not_true, false_or, if_pos (Int.not_le.mp hepoch)]

theorem key_length (epoch : Int) (now : Time) : key dates c epoch now = [] ∨ (key dates c epoch now).length = 32 := by
  rw [key]
  split
  · exact Or.inl rfl
  · split
    · split
      · rename_i hhex
        exact Or.inr (fromHex_length_of_hex hhex)
      · exact Or.inl rfl
    · split
      · exact Or.inr (fromHex_length_of_hex (hex_hmacSha256 _ _))
      · exact Or.inl rfl

theorem key_ne_nil_iff (epoch : Int) (now : Time) : key dates c epoch now ≠ [] ↔ (key dates c epoch now).length = 32 := by
  constructor
  · intro hne
    exact (key_length epoch now).resolve_left hne
  · intro hlength hnil
    rw [hnil] at hlength
    cases hlength

/-- There is a key for the current five minutes exactly if their day is covered. -/
theorem key_iff {now : Time} (hvalid : valid dates c now) :
    (key dates c now.epoch now).length = 32 ↔ covered dates c now := by
  have hnil : ([] : Bytes).length ≠ 32 := by decide
  by_cases hepoch : 0 ≤ now.epoch
  · rw [key_of_valid hvalid hepoch, covered]
    simp only [hepoch, decide_true, Bool.true_and]
    rw [valid] at hvalid
    cases hdate : dates.fromString c.expiresAt with
    | none => simp [hdate] at hvalid
    | some date =>
      rw [hdate] at hvalid
      dsimp only at hvalid
      split at hvalid
      · cases hvalid
      · by_cases hversion : c.version.getD 1 = 1
        · simp only [hversion, if_true, Bool.and_eq_true] at hvalid
          simp [hversion, hvalid.2, fromHex_length_of_hex]
        · simp only [hversion, if_false, Bool.and_eq_true] at hvalid
          obtain ⟨-, hseeds⟩ := hvalid
          rw [validSeeds] at hseeds
          cases hissued : dates.fromString c.issuedAt with
          | none => simp [hissued] at hseeds
          | some issued =>
            cases hrefresh : dates.fromString c.refreshAt with
            | none => simp [hissued, hrefresh] at hseeds
            | some refresh =>
              simp only [hissued, hrefresh, Bool.and_eq_true, List.all_eq_true, List.mem_range] at hseeds
              have hnumbered := numbered_iff hseeds.2 (day now.msecs)
              simp only [hversion, if_false, decide_false, Bool.false_or, Time.epoch_tdiv, Option.any_some,
                Bool.and_eq_true, decide_eq_true_eq]
              rw [← hnumbered]
              split
              · rename_i hhex
                simp [hhex, fromHex_length_of_hex (hex_hmacSha256 _ _)]
              · rename_i hhex
                simp [hhex]
  · rw [key, if_pos (Or.inr (Int.not_le.mp hepoch))]
    simp [covered, hepoch]

theorem toLongLong_epoch {t : Time} (h : 0 ≤ t.epoch) : toLongLong (decimalInt t.epoch) = some t.epoch := by
  obtain ⟨n, hn⟩ := Int.eq_ofNat_of_zero_le h
  have hlt := t.epoch_lt
  rw [hn, decimalInt_natCast]
  exact toLongLong_decimal (by omega)

/-- What a proof for a context is good for at a later time, if the codes of the messages do not collide. -/
structure Accepted (dates : Calendar δ) (c : Credentials) (messages : Set Bytes) (context : Bytes) (proof : Proof)
    (later : Time) : Prop where
  accepts : verify dates c context proof later
  otherContext : ∀ other, other ≠ context → message other ∈ messages → ¬verify dates c other proof later
  otherScope : ∀ other : Credentials, other.scope ≠ c.scope → ∀ context later, ¬verify dates other context proof later

theorem message_injective : Function.Injective message := fun _ _ h => List.append_cancel_left h

/-- A proof that is made is accepted, for its own context and scope only. -/
theorem accepted {context : Bytes} {now later : Time} (hvalid : valid dates c now) (hlater : valid dates c later)
    (hnear : later.epoch - 1 ≤ now.epoch ∧ now.epoch ≤ later.epoch + 1) {messages : Set Bytes}
    (hcontext : message context ∈ messages)
    (hcollision : Set.InjOn (hmacSha256 (key dates c now.epoch now)) messages) (hepoch : 0 ≤ now.epoch)
    (hkey : key dates c now.epoch now ≠ []) :
    Accepted dates c messages context ⟨c.scope, .string (decimalInt now.epoch),
      .string (hmacSha256 (key dates c now.epoch now) (message context))⟩ later := by
  have hread : toLongLong (Value.string (decimalInt now.epoch)).text = some now.epoch := toLongLong_epoch hepoch
  constructor
  · rw [verify, hread]
    dsimp only
    rw [← key_eq hvalid hlater, Value.text_string, hex_hmacSha256]
    simp [hkey, hnear]
  · intro other hother hmem haccepts
    rw [verify, hread] at haccepts
    dsimp only at haccepts
    rw [← key_eq hvalid hlater, Value.text_string, Bool.and_eq_true, decide_eq_true_eq] at haccepts
    exact hother (message_injective (hcollision hmem hcontext haccepts.2))
  · intro other hscope context later haccepts
    rw [verify, hread] at haccepts
    simp [Ne.symm hscope] at haccepts

/-- Credentials that are valid prove a context to a neighbour whose clock is at most one epoch away exactly if the
day of the proof is covered. -/
theorem pairing_proofs_verify_iff (dates : Calendar δ) (c : Credentials) (context : Bytes) (now later : Time)
    (hvalid : valid dates c now) (hlater : valid dates c later)
    (hnear : later.epoch - 1 ≤ now.epoch ∧ now.epoch ≤ later.epoch + 1) (messages : Set Bytes)
    (hcontext : message context ∈ messages)
    (hcollision : Set.InjOn (hmacSha256 (key dates c now.epoch now)) messages) :
    ((key dates c now.epoch now).length = 32 ∧
      ∃ proof, sign dates c context now = some proof ∧ Accepted dates c messages context proof later) ↔
      covered dates c now := by
  constructor
  · rintro ⟨hkey, -⟩
    exact (key_iff hvalid).mp hkey
  · intro hcovered
    have hlength := (key_iff hvalid).mpr hcovered
    have hkey := (key_ne_nil_iff _ _).mpr hlength
    have hepoch : 0 ≤ now.epoch := by
      simp only [covered, Bool.and_eq_true, decide_eq_true_eq] at hcovered
      exact hcovered.1
    refine ⟨hlength, _, ?_, accepted hvalid hlater hnear hcontext hcollision hepoch hkey⟩
    rw [sign, if_neg hkey]

section

/-- A calendar of the few dates of the samples, all in coordinated universal time. -/
def sampleCalendar : Calendar Int where
  fromString t := [(text "1970-01-11T00:01:00Z", (864060000 : Int)), (text "1970-01-11T12:00:00Z", 907200000),
    (text "1970-01-12T00:00:00Z", 950400000)].lookup t
  msecs := id
  addDays d n := d + n * 86400000

def sampleSeed (c : Char) : Value := .string (List.replicate 64 c)

/-- Issued one minute into day ten, for one day. -/
def sampleCredentials : Credentials where
  scope := sampleSeed 'a'
  version := some 2
  expiresAt := text "1970-01-12T00:00:00Z"
  issuedAt := text "1970-01-11T00:01:00Z"
  refreshAt := text "1970-01-11T12:00:00Z"
  seeds := Table.empty.insert (text "10") (sampleSeed 'b')

theorem pairing_proofs_verify_noon :
    (key sampleCalendar sampleCredentials 3024 ⟨907200000, by decide⟩).length = 32 ∧
      ∃ proof, sign sampleCalendar sampleCredentials [1] ⟨907200000, by decide⟩ = some proof ∧
        Accepted sampleCalendar sampleCredentials {message [1], message [2]} [1] proof ⟨907499999, by decide⟩ :=
  (pairing_proofs_verify_iff sampleCalendar sampleCredentials [1] ⟨907200000, by decide⟩ ⟨907499999, by decide⟩
    (by decide +kernel) (by decide +kernel) (by decide) {message [1], message [2]} (Or.inl rfl) (by
      have hne : hmacSha256 (key sampleCalendar sampleCredentials 3024 ⟨907200000, by decide⟩) (message [1]) ≠
          hmacSha256 (key sampleCalendar sampleCredentials 3024 ⟨907200000, by decide⟩) (message [2]) := by
        decide +kernel
      exact Set.injOn_pair.mpr fun heq => absurd heq hne)).mpr (by decide +kernel)

/-- Two minutes before midnight, credentials that were issued a minute after it are valid but have no key. -/
theorem pairing_key_missing :
    let now : Time := ⟨863880000, by decide⟩
    valid sampleCalendar sampleCredentials now ∧ key sampleCalendar sampleCredentials now.epoch now = [] ∧
      sign sampleCalendar sampleCredentials [1] now = none := by
  decide +kernel

end

end SocietyPairingCredentials

end SocietyHelper.Storage
