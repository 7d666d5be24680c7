import SocietyHelper.Library.Hmac
import SocietyHelper.Sync.Sizes

/-! # Bluetooth bootstrap

A device publishes how it can be reached over the LAN in four pages of at most 500
bytes. A digest in front of the document tells a reader whether the pages it has
read belong together.
-/

namespace SocietyHelper.Sync

open Library

/-- A position of a string that is read from JSON: a character, or a surrogate without its partner. -/
inductive Point where
  | char (c : Char)
  | lone (surrogate : Nat)
  deriving DecidableEq

abbrev QString := List Point

namespace QString

def of (t : Text) : QString := t.map .char

/-- The UTF-16 code units of a string. -/
def units (t : QString) : List Nat :=
  t.flatMap fun
    | .char c =>
      if c.toNat < 0x10000 then [c.toNat]
      else [0xd800 + (c.toNat - 0x10000) / 1024, 0xdc00 + (c.toNat - 0x10000) % 1024]
    | .lone surrogate => [surrogate]

def wellFormed (t : QString) : Bool :=
  t.all fun
    | .char _ => true
    | .lone _ => false

def escape : Point → Text
  | .char c => Json.escape c
  | .lone surrogate => ['\\', 'u'] ++ Json.hexPair (surrogate / 256) ++ Json.hexPair (surrogate % 256)

def quote (t : QString) : Text := '"' :: t.flatMap escape ++ ['"']

end QString

inductive Member where
  | string (t : QString)
  | other (json : Text)
  deriving DecidableEq

def Member.wellFormed : Member → Bool
  | .string t => t.wellFormed
  | .other _ => true

/-- A JSON object; its members are in the order of their keys. -/
structure Record where
  members : List (QString × Member)
  ordered : members.Pairwise fun a b => a.1.units < b.1.units

namespace Record

def value (r : Record) (key : Text) : Option Member := (r.members.find? fun m => m.1 = .of key).map Prod.snd

def toString : Option Member → QString
  | some (.string t) => t
  | _ => []

def member (m : QString × Member) : Text :=
  m.1.quote ++ ':' :: match m.2 with
    | .string t => t.quote
    | .other json => json

def toJson (r : Record) : Text := '{' :: Json.commas (r.members.map member) ++ ['}']

end Record

structure NearbyBootstrap where
  record : Record
  addresses : List QString
  port : Fin 65536

/-- What the network library says of an address. -/
structure Addresses where
  localAddress : QString → Bool
  isLoopback : QString → Bool

/-- What `decode` looks at in a document whose top level is an object: the number of its members,
and members that are a whole number, an object, or an array with its strings. -/
structure Document where
  size : Nat
  version : Option Int
  record : Option Record
  addresses : Option (List (Option QString))
  port : Option Int

namespace NearbyBootstrap

def maximumBytes : Nat := 2000

def fields : List Text :=
  ["v", "scope", "id", "name", "kind", "host", "nonce", "epoch", "proof", "autoHost", "primary"].map text

def isTokenChar (c : Char) : Bool :=
  ('A' ≤ c && c ≤ 'Z') || ('a' ≤ c && c ≤ 'z') || ('0' ≤ c && c ≤ '9') || c = '_' || c = '.' || c = ':' || c = '-'

def all (p : Char → Bool) (t : QString) : Bool :=
  t.all fun
    | .char c => p c
    | .lone _ => false

def token (t : QString) : Bool := t ≠ [] && t.length ≤ 128 && all isTokenChar t

def hash (t : QString) : Bool := t.length = 64 && all isHexDigit t

/-- A pattern is found in no string that is not well formed. -/
def controls (t : QString) : Bool :=
  t.wellFormed && t.any fun
    | .char c => c.toNat < 32 || c.toNat = 127
    | .lone _ => false

def valid (net : Addresses) (value : NearbyBootstrap) : Bool :=
  let r := value.record
  let name := Record.toString (r.value (text "name"))
  (r.members.all fun m => m.1 ∈ fields.map QString.of && m.2 matches .string _) &&
    value.port ≠ 0 && value.addresses ≠ [] && value.addresses.length ≤ 8 &&
    r.value (text "v") = some (.string (.of (text "1"))) && hash (Record.toString (r.value (text "scope"))) &&
    token (Record.toString (r.value (text "id"))) && token (Record.toString (r.value (text "nonce"))) &&
    name ≠ [] && name.units.length ≤ 128 && !controls name &&
    Record.toString (r.value (text "kind")) ∈ [text "pc", text "phone", text "tablet"].map QString.of &&
    Record.toString (r.value (text "host")) ∈ [text "0", text "1"].map QString.of &&
    utf8Size r.toJson ≤ 1024 &&
    value.addresses.all fun a => net.localAddress a && !net.isLoopback a

def digest (bytes : Bytes) : Bytes := fromHex (sha256 bytes)

def magic : Bytes := utf8 (text "SSB1")

def json (b : NearbyBootstrap) : Bytes :=
  utf8 (Json.object [(text "v", decimal 1), (text "record", b.record.toJson),
    (text "addresses", Json.array (b.addresses.map QString.quote)), (text "port", decimal b.port.val)])

def encode (net : Addresses) (b : NearbyBootstrap) : Bytes :=
  if b.valid net then
    let bytes := magic ++ digest b.json ++ b.json
    if bytes.length ≤ maximumBytes then bytes else []
  else []

def decode (net : Addresses) (fromJson : Bytes → Option Document) (bytes : Bytes) : Option NearbyBootstrap :=
  if bytes.length ≤ 36 ∨ maximumBytes < bytes.length ∨ bytes.take 4 ≠ magic then none
  else if digest (bytes.drop 36) ≠ (bytes.drop 4).take 32 then none
  else match fromJson (bytes.drop 36) with
    | none => none
    | some object =>
      if object.size ≠ 4 ∨ object.version ≠ some 1 then none
      else match object.record, object.addresses, object.port with
        | some record, some addresses, some port =>
          if h : 0 < port ∧ port ≤ 65535 then
            match addresses.mapM id with
            | none => none
            | some addresses =>
              let result : NearbyBootstrap := ⟨record, addresses, port.toNat, by omega⟩
              if result.valid net then some result else none
          else none
        | _, _, _ => none

/-! ## Pages -/

def page (bytes : Bytes) (i : Nat) : Bytes := (bytes.drop (i * 500)).take 500

/-- A connection that reads the pages of a device. -/
inductive Central where
  | reading (page : Nat) (incoming : Bytes)
  | retired
  | finished (bytes : Bytes) (record : Option NearbyBootstrap)

/-- The value of a page arrives. -/
def characteristicRead (net : Addresses) (fromJson : Bytes → Option Document) : Central → Nat × Bytes → Central
  | .reading page incoming, (index, bytes) =>
    if index ≠ page then .reading page incoming
    else if 500 < bytes.length ∨ maximumBytes < incoming.length + bytes.length then .retired
    else if page + 1 < 4 then .reading (page + 1) (incoming ++ bytes)
    else .finished (incoming ++ bytes) (decode net fromJson (incoming ++ bytes))
  | c, _ => c

def readPages (net : Addresses) (fromJson : Bytes → Option Document) (reads : List (Nat × Bytes)) : Central :=
  reads.foldl (characteristicRead net fromJson) (.reading 0 [])

/-! ## The form of an encoding -/

variable {net : Addresses} {fromJson : Bytes → Option Document} {b : NearbyBootstrap}

theorem length_digest (bytes : Bytes) : (digest bytes).length = 32 := fromHex_length_of_hex (hex_sha256 bytes)

theorem length_magic : magic.length = 4 := by decide

theorem encode_of_ne_nil (h : encode net b ≠ []) :
    b.valid net = true ∧ encode net b = magic ++ digest b.json ++ b.json ∧ (encode net b).length ≤ maximumBytes := by
  rw [encode] at h ⊢
  split at h
  · rename_i hvalid
    rw [if_pos hvalid]
    dsimp only at h ⊢
    split at h
    · rename_i hsize
      rw [if_pos hsize]
      exact ⟨hvalid, rfl, hsize⟩
    · exact absurd rfl h
  · exact absurd rfl h

theorem json_ne_nil (b : NearbyBootstrap) : b.json ≠ [] := by
  intro hnil
  have hlength := congrArg List.length hnil
  rw [json, utf8_length, Json.utf8Size_object, List.length_nil] at hlength
  omega

theorem length_header (bytes : Bytes) : (magic ++ digest bytes).length = 36 := by
  rw [List.length_append, length_magic, length_digest]

theorem take_encode (h : encode net b ≠ []) :
    (encode net b).take 4 = magic ∧ ((encode net b).drop 4).take 32 = digest b.json ∧
      (encode net b).drop 36 = b.json ∧ 36 < (encode net b).length := by
  obtain ⟨-, hencode, -⟩ := encode_of_ne_nil h
  have hheader := length_header b.json
  have hjson := List.length_pos_iff.mpr (json_ne_nil b)
  rw [hencode]
  refine ⟨?_, ?_, List.drop_left' hheader, ?_⟩
  · rw [List.append_assoc]
    exact List.take_left' length_magic
  · rw [List.append_assoc, List.drop_left' length_magic]
    exact List.take_left' (length_digest _)
  · rw [List.length_append]
    omega

/-! ## Reading an encoding back -/

def document (b : NearbyBootstrap) : Document where
  size := 4
  version := some 1
  record := some b.record
  addresses := some (b.addresses.map some)
  port := some b.port.val

def wellFormed (b : NearbyBootstrap) : Bool :=
  (b.record.members.all fun m => m.1.wellFormed && m.2.wellFormed) && b.addresses.all QString.wellFormed

/-- A parser reads back what was written, if the strings have a UTF-8 form. -/
def Reads (fromJson : Bytes → Option Document) (b : NearbyBootstrap) : Prop :=
  b.wellFormed → fromJson b.json = some b.document

theorem valid_parts (h : b.valid net = true) : b.port ≠ 0 ∧ b.addresses.length ≤ 8 ∧ utf8Size b.record.toJson ≤ 1024 ∧
    ∀ a ∈ b.addresses, net.localAddress a = true := by
  simp only [valid, Bool.and_eq_true, decide_eq_true_eq, List.all_eq_true] at h
  obtain ⟨⟨hrest, hrecord⟩, haddresses⟩ := h
  exact ⟨by tauto, by tauto, hrecord, fun a ha => (haddresses a ha).1⟩

theorem decode_encode (h : encode net b ≠ []) (hreads : fromJson b.json = some b.document) :
    decode net fromJson (encode net b) = some b := by
  obtain ⟨hvalid, hencode, hsize⟩ := encode_of_ne_nil h
  obtain ⟨hmagic, hdigest, hjson, hlength⟩ := take_encode h
  have hport := (valid_parts hvalid).1
  have hrange : 0 < (b.port.val : Int) ∧ (b.port.val : Int) ≤ 65535 := by
    have hlt := b.port.isLt
    have hne : b.port.val ≠ 0 := fun hzero => hport (Fin.ext hzero)
    omega
  rw [decode, if_neg, if_neg, hjson, hreads]
  · have haddresses : (b.addresses.map some).mapM id = some b.addresses := by
      induction b.addresses with
      | nil => rfl
      | cons a rest ih => simp [ih]
    simp only [document, ne_eq, not_true, or_self, if_false, dif_pos hrange, haddresses, Int.toNat_natCast, Fin.eta]
    rw [if_pos hvalid]
  · rw [hjson, hdigest]
    exact fun hbad => hbad rfl
  · rintro (hshort | hlong | hno)
    · omega
    · omega
    · exact hno hmagic

/-! ## Encoding what was decoded -/

/-- An IPv4 address in dotted decimal form. -/
def Dotted (t : QString) : Prop :=
  ∃ a b c d, a < 256 ∧ b < 256 ∧ c < 256 ∧ d < 256 ∧
    t = .of (decimal a ++ '.' :: decimal b ++ '.' :: decimal c ++ '.' :: decimal d)

theorem decode_valid {bytes : Bytes} (h : decode net fromJson bytes = some b) : b.valid net = true := by
  rw [decode] at h
  split at h
  · cases h
  split at h
  · cases h
  split at h
  · cases h
  split at h
  · cases h
  split at h
  · split at h
    · split at h
      · cases h
      · dsimp only at h
        split at h
        · rename_i hvalid
          cases h
          exact hvalid
        · cases h
    · cases h
  · cases h

theorem quote_of (t : Text) : (QString.of t).quote = Json.quote t := by
  rw [QString.quote, QString.of, Json.quote, List.flatMap_map]
  rfl

theorem utf8Size_quote_dotted {t : QString} (h : Dotted t) : utf8Size t.quote ≤ 17 := by
  obtain ⟨a, b, c, d, ha, hb, hc, hd, rfl⟩ := h
  have hplain : ∀ x ∈ decimal a ++ '.' :: decimal b ++ '.' :: decimal c ++ '.' :: decimal d, Json.plain x := by
    have hdigits : ∀ n, ∀ x ∈ decimal n, Json.plain x := fun n x hx => plain_of_isDigit (isDigit_of_mem_decimal hx)
    have hdot : Json.plain '.' := by decide
    intro x hx
    simp only [List.mem_append, List.mem_cons] at hx
    rcases hx with ((hx | rfl | hx) | rfl | hx) | rfl | hx
    · exact hdigits a x hx
    · exact hdot
    · exact hdigits b x hx
    · exact hdot
    · exact hdigits c x hx
    · exact hdot
    · exact hdigits d x hx
  have hlength : ∀ n < 256, (decimal n).length ≤ 3 := fun n hn =>
    (Nat.length_toDigits_le_iff (by decide) (by decide)).mpr (by omega)
  have hla := hlength a ha
  have hlb := hlength b hb
  have hlc := hlength c hc
  have hld := hlength d hd
  rw [quote_of, Json.utf8Size_quote_plain hplain]
  simp only [List.length_append, List.length_cons]
  omega

/-- A valid value with IPv4 addresses fits into the pages. -/
theorem encode_valid (hlocal : ∀ a, net.localAddress a = true → Dotted a) (hvalid : b.valid net = true) :
    encode net b ≠ [] := by
  obtain ⟨-, hcount, hrecord, haddresses⟩ := valid_parts hvalid
  have harray : utf8Size (Json.array (b.addresses.map QString.quote)) ≤ 146 := by
    have hquotes : ∀ t ∈ b.addresses.map QString.quote, utf8Size t ≤ 17 := by
      intro t ht
      obtain ⟨a, ha, rfl⟩ := List.mem_map.mp ht
      exact utf8Size_quote_dotted (hlocal a (haddresses a ha))
    refine (Json.utf8Size_array_le_of_forall hquotes).trans ?_
    rw [List.length_map]
    omega
  have hport : utf8Size (decimal b.port.val) ≤ 5 := utf8Size_decimal_le (by decide) (by omega)
  have hjson : b.json.length ≤ 1300 := by
    have hversion : Json.memberSize (text "v", decimal 1) = 6 := by decide
    have hkeys : utf8Size (Json.quote (text "record")) = 8 ∧ utf8Size (Json.quote (text "addresses")) = 11 ∧
        utf8Size (Json.quote (text "port")) = 6 := by decide
    rw [json, utf8_length, Json.utf8Size_object]
    simp only [List.map_cons, List.map_nil, List.sum_cons, List.sum_nil, hversion]
    simp only [Json.memberSize, hkeys]
    omega
  have hlength : (magic ++ digest b.json ++ b.json).length ≤ maximumBytes := by
    rw [List.length_append, length_header, maximumBytes]
    omega
  have hmagic : magic ≠ [] := by decide
  rw [encode, if_pos hvalid]
  dsimp only
  rw [if_pos hlength]
  simp [hmagic]

/-! ## The pages of one value -/

theorem length_page_le (bytes : Bytes) (i : Nat) : (page bytes i).length ≤ 500 := by
  rw [page, List.length_take]
  exact Nat.min_le_left _ _

theorem take_page (bytes : Bytes) (i : Nat) : bytes.take (i * 500) ++ page bytes i = bytes.take ((i + 1) * 500) := by
  rw [page, Nat.succ_mul, List.take_add]

/-- The next page of a value extends the front that has been read. -/
theorem read_page {value : Bytes} (h : value.length ≤ maximumBytes) (i : Nat) :
    characteristicRead net fromJson (.reading i (value.take (i * 500))) (i, page value i) =
      if i + 1 < 4 then .reading (i + 1) (value.take ((i + 1) * 500))
      else .finished (value.take ((i + 1) * 500)) (decode net fromJson (value.take ((i + 1) * 500))) := by
  have hfits : ¬(500 < (page value i).length ∨ maximumBytes < (value.take (i * 500)).length + (page value i).length) := by
    have hpage := length_page_le value i
    have hfront := congrArg List.length (take_page value i)
    have hwhole := List.length_take_le' ((i + 1) * 500) value
    rw [List.length_append] at hfront
    omega
  rw [characteristicRead, if_neg (fun hne => hne rfl), if_neg hfits, take_page]

theorem readPages_value {value : Bytes} (h : value.length ≤ maximumBytes) :
    readPages net fromJson ((List.range 4).map fun i => (i, page value i)) =
      .finished value (decode net fromJson value) := by
  have hfirst := @read_page net fromJson value h 0
  have hsecond := @read_page net fromJson value h 1
  have hthird := @read_page net fromJson value h 2
  have hfourth := @read_page net fromJson value h 3
  rw [if_pos (by decide)] at hfirst hsecond hthird
  rw [Nat.zero_mul, List.take_zero] at hfirst
  rw [if_neg (by decide), List.take_of_length_le (show value.length ≤ (3 + 1) * 500 from h)] at hfourth
  show List.foldl _ _ [(0, page value 0), (1, page value 1), (2, page value 2), (3, page value 3)] = _
  simp only [List.foldl_cons, List.foldl_nil]
  rw [hfirst, hsecond, hthird, hfourth]

/-! ## Pages of several values -/

/-- What a reader has begins with the first page of one of the values. -/
def Begins (net : Addresses) (published : List NearbyBootstrap) (bytes : Bytes) : Prop :=
  ∃ b ∈ published, encode net b ≠ [] ∧ ∃ rest, bytes = page (encode net b) 0 ++ rest

def Mixed (net : Addresses) (fromJson : Bytes → Option Document) (published : List NearbyBootstrap) : Central → Prop
  | .reading 0 incoming => incoming = []
  | .reading (_ + 1) incoming => Begins net published incoming
  | .retired => True
  | .finished bytes record => record = decode net fromJson bytes ∧ Begins net published bytes

variable {published : List NearbyBootstrap}

theorem Begins.append {bytes : Bytes} (h : Begins net published bytes) (more : Bytes) :
    Begins net published (bytes ++ more) := by
  obtain ⟨b, hb, hencode, rest, rfl⟩ := h
  exact ⟨b, hb, hencode, rest ++ more, List.append_assoc _ _ _⟩

theorem Mixed.step {c : Central} (h : Mixed net fromJson published c) {read : Nat × Bytes}
    (hread : ∃ b ∈ published, encode net b ≠ [] ∧ read.2 = page (encode net b) read.1) :
    Mixed net fromJson published (characteristicRead net fromJson c read) := by
  obtain ⟨index, bytes⟩ := read
  cases c with
  | retired => trivial
  | finished whole record => exact h
  | reading i incoming =>
    rw [characteristicRead]
    split
    · exact h
    rename_i hindex
    have hat : index = i := not_not.mp hindex
    split
    · trivial
    have hbegins : Begins net published (incoming ++ bytes) := by
      cases i with
      | zero =>
        obtain ⟨b, hb, hencode, hbytes⟩ := hread
        have hnil : incoming = [] := h
        subst hat hnil
        exact ⟨b, hb, hencode, [], by rw [List.nil_append, List.append_nil]; exact hbytes⟩
      | succ i =>
        have hfront : Begins net published incoming := h
        exact hfront.append bytes
    split
    · exact hbegins
    · exact ⟨rfl, hbegins⟩

theorem readPages_mixed {reads : List (Nat × Bytes)}
    (hreads : ∀ read ∈ reads, ∃ b ∈ published, encode net b ≠ [] ∧ read.2 = page (encode net b) read.1) :
    Mixed net fromJson published (readPages net fromJson reads) := by
  have hall : ∀ c, Mixed net fromJson published c → Mixed net fromJson published
      (reads.foldl (characteristicRead net fromJson) c) := by
    induction reads with
    | nil => exact fun c hc => hc
    | cons read reads ih =>
      intro c hc
      have hrest := ih fun r hr => hreads r (List.mem_cons_of_mem _ hr)
      exact hrest _ (hc.step (hreads read List.mem_cons_self))
  exact hall _ rfl

theorem decode_digest {bytes : Bytes} (h : decode net fromJson bytes = some b) :
    digest (bytes.drop 36) = (bytes.drop 4).take 32 := by
  rw [decode] at h
  split at h
  · cases h
  split at h
  · cases h
  · rename_i hdigest
    exact not_not.mp hdigest

/-- Bytes that begin like an encoding and are accepted are that encoding, or they collide. -/
theorem decode_begins {bytes : Bytes} {result : NearbyBootstrap} (h : decode net fromJson bytes = some result)
    (hbegins : Begins net published bytes) :
    ∃ b ∈ published, bytes = encode net b ∨ (bytes.drop 36 ≠ b.json ∧ digest (bytes.drop 36) = digest b.json) := by
  obtain ⟨b, hb, hencode, rest, hbytes⟩ := hbegins
  obtain ⟨-, hform, -⟩ := encode_of_ne_nil hencode
  have hheader := length_header b.json
  have hfront : bytes.take 36 = magic ++ digest b.json := by
    have hlength := (take_encode hencode).2.2.2
    have hpage : 36 ≤ (page (encode net b) 0).length := by
      rw [page, List.length_take, List.length_drop]
      omega
    rw [hbytes, List.take_append_of_le_length hpage, page, Nat.zero_mul, List.drop_zero, List.take_take, hform]
    exact List.take_left' hheader
  have hdigest : (bytes.drop 4).take 32 = digest b.json := by
    have hdrop := congrArg (List.drop 4) hfront
    rw [List.drop_take, List.drop_left' length_magic] at hdrop
    exact hdrop
  refine ⟨b, hb, ?_⟩
  by_cases hsame : bytes.drop 36 = b.json
  · refine Or.inl ?_
    rw [← List.take_append_drop 36 bytes, hfront, hsame, hform]
  · exact Or.inr ⟨hsame, (decode_digest h).trans hdigest⟩

/-- A value that is published and read page by page comes back; whatever is accepted can be published
again; and pages of different values are accepted only where they make up one of them, unless two
documents collide. The addresses of the LAN are IPv4 addresses. -/
theorem survives_paging (net : Addresses) (fromJson : Bytes → Option Document)
    (hlocal : ∀ a, net.localAddress a = true → Dotted a) :
    (∀ b, Reads fromJson b → b.wellFormed → encode net b ≠ [] →
      readPages net fromJson ((List.range 4).map fun i => (i, page (encode net b) i)) =
        .finished (encode net b) (some b)) ∧
    (∀ bytes b, decode net fromJson bytes = some b → encode net b ≠ []) ∧
    ∀ (published : List NearbyBootstrap) (reads : List (Nat × Bytes)) bytes result,
      (∀ read ∈ reads, ∃ b ∈ published, encode net b ≠ [] ∧ read.2 = page (encode net b) read.1) →
      readPages net fromJson reads = .finished bytes (some result) →
        ∃ b ∈ published, bytes = encode net b ∨
          (bytes.drop 36 ≠ b.json ∧ digest (bytes.drop 36) = digest b.json) := by
  refine ⟨fun b hreads hformed hencode => ?_, fun bytes b hdecode => encode_valid hlocal (decode_valid hdecode),
    fun published reads bytes result hreads hfinished => ?_⟩
  · rw [readPages_value (encode_of_ne_nil hencode).2.2, decode_encode hencode (hreads hformed)]
  · have hmixed : Mixed net fromJson published (readPages net fromJson reads) := readPages_mixed hreads
    rw [hfinished] at hmixed
    exact decode_begins hmixed.1.symm hmixed.2

def sampleRecord : Record where
  members := [(.of (text "host"), .string (.of (text "1"))), (.of (text "id"), .string (.of (text "desktop"))),
    (.of (text "kind"), .string (.of (text "pc"))), (.of (text "name"), .string (.of (text "작업실"))),
    (.of (text "nonce"), .string (.of (text "nonce"))),
    (.of (text "scope"), .string (.of (List.replicate 64 'a'))), (.of (text "v"), .string (.of (text "1")))]
  ordered := by decide

def sample : NearbyBootstrap := ⟨sampleRecord, [.of (text "192.168.1.2"), .of (text "10.0.0.1")], 12345⟩

def sampleAddresses : Addresses where
  localAddress a := a ∈ sample.addresses
  isLoopback _ := false

theorem survives_paging_sample :
    readPages sampleAddresses (fun bytes => if bytes = sample.json then some sample.document else none)
        ((List.range 4).map fun i => (i, page (encode sampleAddresses sample) i)) =
      .finished (encode sampleAddresses sample) (some sample) := by
  have hlocal : ∀ a, sampleAddresses.localAddress a = true → Dotted a := by
    intro a ha
    have hmem : a ∈ sample.addresses := by simpa [sampleAddresses] using ha
    rcases List.mem_cons.mp hmem with rfl | hsecond
    · exact ⟨192, 168, 1, 2, by decide, by decide, by decide, by decide, by decide⟩
    · rw [List.mem_singleton.mp hsecond]
      exact ⟨10, 0, 0, 1, by decide, by decide, by decide, by decide, by decide⟩
  have hvalid : sample.valid sampleAddresses = true := by decide +kernel
  exact (survives_paging sampleAddresses _ hlocal).1 sample (fun _ => if_pos rfl) (by decide)
    (encode_valid hlocal hvalid)

end NearbyBootstrap

end SocietyHelper.Sync
