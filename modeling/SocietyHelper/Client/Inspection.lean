import SocietyHelper.Library.Base64
import SocietyHelper.Sync.Requests

/-! # Information about a file, page by page

A client asks the host for a file's information document in chunks. The first
page pins the version of the file and the digest of the document; the host
refuses later pages where either has changed, and the client checks each page and
at the end the whole document.
-/

namespace SocietyHelper.Client

open Library Sync

def chunkBytes : Nat := Replica.chunkBytes

/-- The members of a host's result that a client reads. -/
structure Result where
  ok : Value := .undefined
  error : Value := .undefined
  container : Value := .undefined
  path : Value := .undefined
  version : Value := .undefined
  informationVersion : Value := .undefined
  format : Value := .undefined
  schema : Value := .undefined
  offset : Value := .undefined
  size : Value := .undefined
  data : Value := .undefined
  eof : Value := .undefined

def driveError (error : Text) : Result := { ok := .bool false, error := .string error }

/-- The object that a document holds, as far as a client looks at it. -/
structure Information where
  format : Value := .undefined
  schema : Value := .undefined
  path : Value := .undefined
  container : Value := .undefined
  members : List (Text × Value) := []

/-- The message of one page. -/
structure Request where
  path : Text
  offset : Value
  version : Value := .undefined
  informationVersion : Value := .undefined

def informationFormat : Value := .string (text "iiFileProvider.FileInformation")
def informationSchema : Value := .other (text "1")

/-! ## The host -/

/-- What a host finds while it answers one page: `failure` is an error from before it looks at
the information, `after` the stamp of its second look and `information` a document with members. -/
structure Host where
  container : Text
  failure : Option Text := none
  kind : Text := file
  stamp : Text
  storage : Option Text
  served : Bool := true
  information : Option Bytes
  after : Option Text

def failed (error : String) : Result := driveError (text error)

def chunkOf (document : Bytes) (offset : Nat) : Bytes := (document.drop offset).take chunkBytes

/-- One page of a document. -/
def pageOf (h : Host) (path : Text) (document : Bytes) (offset : Nat) : Result where
  ok := .bool true
  container := .string h.container
  path := .string path
  version := .string h.stamp
  informationVersion := .string (digest document)
  format := informationFormat
  schema := informationSchema
  offset := .string (decimal offset)
  size := .string (decimal document.length)
  data := .string (Base64.encode (chunkOf document offset))
  eof := .bool (offset + (chunkOf document offset).length = document.length)

/-- The action `drive.inspect` of `driveRequest`. -/
def inspect (h : Host) (r : Request) : Result :=
  match h.failure with
  | some error => driveError error
  | none =>
    if h.kind ≠ file then failed (if h.kind = deleted then "drive_entry_unavailable" else "not_file")
    else match if r.offset.defined then number r.offset else some 0 with
    | none => failed "invalid_offset"
    | some offset =>
      if r.version.defined ∧ (¬r.version.isString ∨ r.version.text ≠ h.stamp) then failed "drive_file_changed"
      else if offset ≠ 0 ∧ (r.version.text = [] ∨ ¬hex r.informationVersion.text) then
        failed "inspection_version_required"
      else if r.informationVersion.defined ∧ ¬hex r.informationVersion.text then failed "invalid_information_version"
      else if h.storage ≠ some h.container then failed "remote_container_changed"
      else if ¬h.served then failed "invalid_drive_path"
      else match h.information with
      | none => failed "drive_information_unavailable"
      | some document =>
        if h.after ≠ some h.stamp then failed "drive_file_changed"
        else if r.informationVersion.text ≠ [] ∧ digest document ≠ r.informationVersion.text then
          failed "drive_information_changed"
        else if document.length < offset then failed "invalid_offset"
        else pageOf h r.path document offset

/-! ## The client -/

/-- What is told of a request that has ended. -/
inductive Report where
  | host (result : Result)
  | information (container path version token : Text) (information : Information)

structure Inspection where
  path : Text
  version : Text := []
  token : Text := []
  bytes : Bytes := []
  size : Int := -1

inductive Step where
  | finished (report : Report)
  | again (next : Inspection)

section

variable (parse : Bytes → Option Information) (maximum : Nat) (container : Text)

/-- What `receiveDrive` hands on of a host's result. -/
def Result.checked (r : Result) : Result :=
  if ¬r.ok.isBool ∨ (r.ok.toBool ∧ r.container.text ≠ container) then driveError (text "host_drive_response_mismatch")
  else r

namespace Inspection

def request (s : Inspection) : Request where
  path := s.path
  offset := .string (decimal s.bytes.length)
  version := if s.version = [] then .undefined else .string s.version
  informationVersion := if s.version = [] then .undefined else .string s.token

def error (e : String) : Step := .finished (.host (driveError (text e)))

/-- The last step: the whole document is checked. -/
def complete (s : Inspection) : Step :=
  match parse s.bytes with
  | none => error "invalid_host_information_document"
  | some information =>
    if information.format ≠ informationFormat ∨ information.schema ≠ informationSchema ∨
        information.path.text ≠ s.path ∨ information.container.text ≠ container ∨ sha256 s.bytes ≠ s.token then
      error "invalid_host_information_document"
    else .finished (.information container s.path s.version s.token information)

/-- The completion of one page. -/
def page (s : Inspection) (r : Result) : Step :=
  if ¬r.ok.toBool then .finished (.host r)
  else if ¬r.data.isString ∨ (chunkBytes + 2) / 3 * 4 < utf16Size r.data.text then error "invalid_host_information_chunk"
  else match toLongLong r.offset.text, toLongLong r.size.text, Base64.decode r.data.text with
  | some offset, some size, some bytes =>
    if offset ≠ s.bytes.length ∨ size ≤ 0 ∨ maximum < size ∨ (0 ≤ s.size ∧ s.size ≠ size) ∨ bytes = [] ∨
        chunkBytes < bytes.length ∨ Base64.encode bytes ≠ r.data.text ∨ size < offset + bytes.length ∨
        r.path.text ≠ s.path ∨ r.format ≠ informationFormat ∨ r.schema ≠ informationSchema ∨ ¬r.eof.isBool ∨
        r.eof ≠ .bool (offset + bytes.length = size) ∨ ¬hex r.informationVersion.text ∨ r.version.text = [] ∨
        (s.version ≠ [] ∧ (s.version ≠ r.version.text ∨ s.token ≠ r.informationVersion.text)) then
      error "invalid_host_information_chunk"
    else
      let next := { s with version := r.version.text, token := r.informationVersion.text, size, bytes := s.bytes ++ bytes }
      if r.eof.toBool then next.complete parse container else .again next
  | _, _, _ => error "invalid_host_information_chunk"

/-- Pages against whoever answers them; a report ends them. -/
def pages (reply : Nat → Request → Result) : Nat → Nat → Inspection → Step
  | 0, _, s => .again s
  | rounds + 1, n, s =>
    match s.page parse maximum container ((reply n s.request).checked container) with
    | .finished report => .finished report
    | .again next => pages reply rounds (n + 1) next

end Inspection

end

/-! ## One page -/

namespace Inspection

variable {parse : Bytes → Option Information} {maximum : Nat} {container : Text}

/-- What the client has checked of a page before it takes its bytes. -/
structure Accepts (maximum : Nat) (s : Inspection) (r : Result) (bytes : Bytes) (size : Int) : Prop where
  ok : r.ok.toBool = true
  offset : toLongLong r.offset.text = some (s.bytes.length : Int)
  sized : toLongLong r.size.text = some size
  data : Base64.decode r.data.text = some bytes
  within : size ≤ maximum
  nonempty : bytes ≠ []
  fits : s.bytes.length + bytes.length ≤ size
  eof : r.eof = .bool (s.bytes.length + bytes.length = size)
  token : hex r.informationVersion.text = true
  version : r.version.text ≠ []
  pinned : s.version ≠ [] → s.version = r.version.text ∧ s.token = r.informationVersion.text

/-- The inspection after an accepted page. -/
def taken (s : Inspection) (r : Result) (bytes : Bytes) (size : Int) : Inspection :=
  { s with version := r.version.text, token := r.informationVersion.text, size, bytes := s.bytes ++ bytes }

/-- A page ends the inspection with what the host says or with an error, or it is accepted. -/
theorem page_cases (parse : Bytes → Option Information) (maximum : Nat) (container : Text) (s : Inspection) (r : Result) :
    (∃ result, s.page parse maximum container r = .finished (.host result)) ∨
      ∃ bytes size, Accepts maximum s r bytes size ∧ s.page parse maximum container r =
        if r.eof.toBool then (s.taken r bytes size).complete parse container else .again (s.taken r bytes size) := by
  rw [page]
  split
  · exact Or.inl ⟨_, rfl⟩
  · rename_i hok
    split
    · exact Or.inl ⟨_, rfl⟩
    · split
      · rename_i offset size bytes hoffset hsize hbytes
        split
        · exact Or.inl ⟨_, rfl⟩
        · rename_i hgood
          simp only [not_or, not_and, ne_eq, not_not, not_lt] at hgood
          obtain ⟨hat, -, hmaximum, -, hnonempty, -, -, hfits, -, -, -, -, heof, htoken, hversion, hpinned⟩ := hgood
          subst hat
          refine Or.inr ⟨bytes, size, ⟨by simpa using hok, hoffset, hsize, hbytes, by omega, hnonempty, by omega, heof, htoken,
            hversion, fun hne => ?_⟩, rfl⟩
          have hsame := hpinned hne
          tauto
      · exact Or.inl ⟨_, rfl⟩

/-- The last step fails, or the bytes hold information and have the pinned digest. -/
theorem complete_cases (parse : Bytes → Option Information) (container : Text) (s : Inspection) :
    (∃ result, s.complete parse container = .finished (.host result)) ∨
      ∃ information, parse s.bytes = some information ∧ sha256 s.bytes = s.token ∧
        s.complete parse container = .finished (.information container s.path s.version s.token information) := by
  rw [complete]
  split
  · exact Or.inl ⟨_, rfl⟩
  · rename_i information hparse
    split
    · exact Or.inl ⟨_, rfl⟩
    · rename_i hgood
      simp only [not_or, not_not] at hgood
      exact Or.inr ⟨information, hparse, hgood.2.2.2.2, rfl⟩

/-- A page that asks for another one has brought bytes, and there are bytes left to bring. -/
theorem page_again {s next : Inspection} {r : Result} (h : s.page parse maximum container r = .again next) :
    s.bytes.length < next.bytes.length ∧ next.bytes.length < maximum := by
  rcases page_cases parse maximum container s r with ⟨result, hhost⟩ |
    ⟨bytes, size, haccepts, hpage⟩
  · rw [h] at hhost
    cases hhost
  · rw [h] at hpage
    split at hpage
    · rcases complete_cases parse container (s.taken r bytes size) with ⟨result, hdone⟩ | ⟨information, -, -, hdone⟩
      · rw [hdone] at hpage
        cases hpage
      · rw [hdone] at hpage
        cases hpage
    · rename_i heof
      cases hpage
      have hpositive := List.length_pos_iff.mpr haccepts.nonempty
      have hwithin := haccepts.within
      have hfits := haccepts.fits
      rw [haccepts.eof, Value.toBool_bool] at heof
      simp only [decide_eq_true_eq] at heof
      rw [taken, List.length_append]
      omega

/-! ## Whole inspections -/

/-- Whoever answers, an inspection ends before it has asked for more pages than a document may
have bytes. -/
theorem pages_end (reply : Nat → Request → Result) {rounds n : Nat} {s : Inspection} (hroom : s.bytes.length < maximum)
    (hrounds : maximum ≤ s.bytes.length + rounds) :
    ∃ report, pages parse maximum container reply rounds n s = .finished report := by
  induction rounds generalizing n s with
  | zero => omega
  | succ rounds ih =>
    rw [pages]
    cases hpage : s.page parse maximum container ((reply n s.request).checked container) with
    | finished report => exact ⟨report, rfl⟩
    | again next =>
      obtain ⟨hmore, hless⟩ := page_again hpage
      exact ih hless (by omega)

theorem checked_ok {r : Result} (h : (r.checked container).ok.toBool = true) : r.checked container = r := by
  rw [Result.checked] at h ⊢
  split
  · rename_i hbad
    rw [if_pos hbad] at h
    cases h
  · rfl

/-- A host fails, or gives out a page of the document that it has at that time. -/
theorem inspect_cases (h : Host) (r : Request) :
    (∃ error, inspect h r = driveError error) ∨
      ∃ document offset, h.information = some document ∧ inspect h r = pageOf h r.path document offset := by
  rw [inspect]
  split
  · exact Or.inl ⟨_, rfl⟩
  split
  · exact Or.inl ⟨_, rfl⟩
  split
  · exact Or.inl ⟨_, rfl⟩
  rename_i offset _
  split
  · exact Or.inl ⟨_, rfl⟩
  split
  · exact Or.inl ⟨_, rfl⟩
  split
  · exact Or.inl ⟨_, rfl⟩
  split
  · exact Or.inl ⟨_, rfl⟩
  split
  · exact Or.inl ⟨_, rfl⟩
  split
  · exact Or.inl ⟨_, rfl⟩
  rename_i document hdocument
  split
  · exact Or.inl ⟨_, rfl⟩
  split
  · exact Or.inl ⟨_, rfl⟩
  split
  · exact Or.inl ⟨_, rfl⟩
  · exact Or.inr ⟨document, offset, hdocument, rfl⟩

theorem chunkOf_append (document : Bytes) (offset : Nat) :
    document.take offset ++ chunkOf document offset = document.take (offset + (chunkOf document offset).length) := by
  rw [List.take_add, chunkOf, List.length_take, ← List.take_take, List.take_of_length_le (Nat.le_refl (document.drop offset).length)]

/-- A page of a host that a client accepts is the next chunk of the document that the host has. -/
theorem accepts_chunk {h : Host} {s : Inspection} {bytes : Bytes} {size : Int}
    (haccepts : Accepts maximum s ((inspect h s.request).checked container) bytes size) :
    ∃ document, h.information = some document ∧ (inspect h s.request).checked container = pageOf h s.path document s.bytes.length ∧
      bytes = chunkOf document s.bytes.length ∧ size = document.length := by
  have hchecked := checked_ok haccepts.ok
  rcases inspect_cases h s.request with ⟨error, herror⟩ | ⟨document, offset, hdocument, hpage⟩
  · have hok := haccepts.ok
    rw [hchecked, herror] at hok
    cases hok
  · have hoffset := haccepts.offset
    have hsize := haccepts.sized
    have hdata := haccepts.data
    rw [hchecked, hpage] at hoffset hsize hdata
    have hat : s.bytes.length = offset := by
      have hexact := toLongLong_exact hoffset
      omega
    have hwhole := toLongLong_exact hsize
    rw [← hat] at hpage hdata
    have hbytes : some (chunkOf document s.bytes.length) = some bytes := (Base64.decode_encode _).symm.trans hdata
    exact ⟨document, hdocument, hchecked.trans hpage, (Option.some.inj hbytes).symm, hwhole⟩

/-- Each page so far was answered with one version of the file and one digest of its document,
and where all had one document, the bytes are the first ones of that document. -/
structure Pinned (hosts : Nat → Host) (n : Nat) (s : Inspection) : Prop where
  version : 0 < n → s.version ≠ []
  pages : ∀ j < n, (hosts j).stamp = s.version ∧ ∃ document, (hosts j).information = some document ∧
    digest document = s.token
  sliced : ∀ document, (∀ j < n, (hosts j).information = some document) → s.bytes = document.take s.bytes.length

theorem Pinned.taken {hosts : Nat → Host} {n : Nat} {s : Inspection} (h : Pinned hosts n s) {bytes : Bytes} {size : Int}
    (haccepts : Accepts maximum s ((inspect (hosts n) s.request).checked container) bytes size) :
    Pinned hosts (n + 1) (s.taken ((inspect (hosts n) s.request).checked container) bytes size) := by
  obtain ⟨document, hdocument, hpage, hbytes, -⟩ := accepts_chunk haccepts
  have hversion := haccepts.version
  have hpinned := haccepts.pinned
  rw [hpage] at hversion hpinned ⊢
  refine ⟨fun _ => hversion, fun j hj => ?_, fun other hother => ?_⟩
  · rcases Nat.lt_succ_iff_lt_or_eq.mp hj with hlt | rfl
    · obtain ⟨hsame, htoken⟩ := hpinned (h.version (by omega))
      obtain ⟨hstamp, other, hother, hdigest⟩ := h.pages j hlt
      exact ⟨hstamp.trans hsame, other, hother, hdigest.trans htoken⟩
    · exact ⟨rfl, document, hdocument, rfl⟩
  · have hsame : document = other := Option.some.inj (hdocument.symm.trans (hother n (by omega)))
    subst hsame hbytes
    have hsliced := h.sliced document fun j hj => hother j (by omega)
    have happend := chunkOf_append document s.bytes.length
    rw [← hsliced, ← List.length_append] at happend
    exact happend

/-- The hosts up to `last` that answered, and the bytes that came of their pages. -/
structure Assembled (hosts : Nat → Host) (last : Nat) (version token : Text) (bytes : Bytes) : Prop where
  pages : ∀ j ≤ last, (hosts j).stamp = version ∧ ∃ document, (hosts j).information = some document ∧
    digest document = token
  hashed : sha256 bytes = token
  exact : (∀ j ≤ last, (hosts j).information = some bytes) ∨
    ∃ i ≤ last, ∃ j ≤ last, ∃ a b, (hosts i).information = some a ∧ (hosts j).information = some b ∧ a ≠ b ∧
      digest a = digest b

/-- After the last page the bytes are the document, unless two documents of the hosts collide. -/
theorem Pinned.assembled {hosts : Nat → Host} {n : Nat} {s : Inspection} (h : Pinned hosts n s) {bytes : Bytes} {size : Int}
    (haccepts : Accepts maximum s ((inspect (hosts n) s.request).checked container) bytes size)
    (heof : ((inspect (hosts n) s.request).checked container).eof.toBool = true)
    (hhash : sha256 (s.bytes ++ bytes) = ((inspect (hosts n) s.request).checked container).informationVersion.text) :
    Assembled hosts n ((inspect (hosts n) s.request).checked container).version.text
      ((inspect (hosts n) s.request).checked container).informationVersion.text (s.bytes ++ bytes) := by
  have hpinned := h.taken haccepts
  obtain ⟨document, hdocument, hpage, hbytes, hsize⟩ := accepts_chunk haccepts
  refine ⟨fun j hj => hpinned.pages j (by omega), hhash, ?_⟩
  by_cases hsame : ∀ j ≤ n, (hosts j).information = some document
  · refine Or.inl fun j hj => ?_
    rw [haccepts.eof, Value.toBool_bool, decide_eq_true_eq] at heof
    have hsliced := hpinned.sliced document fun j hj => hsame j (by omega)
    have hlength : (s.bytes ++ bytes).length = document.length := by
      rw [List.length_append]
      omega
    have hwhole : s.bytes ++ bytes = document.take (s.bytes ++ bytes).length := hsliced
    rw [hwhole, hlength, List.take_length]
    exact hsame j hj
  · simp only [not_forall] at hsame
    obtain ⟨j, hj, hother⟩ := hsame
    obtain ⟨-, a, ha, hdigest⟩ := hpinned.pages j (by omega)
    obtain ⟨-, b, hb, hsecond⟩ := hpinned.pages n (by omega)
    refine Or.inr ⟨j, hj, n, Nat.le_refl n, a, b, ha, hb, ?_, hdigest.trans hsecond.symm⟩
    rintro rfl
    exact hother (ha.trans (hb.symm.trans hdocument))

/-- A report of information is of one version of the file and of the document that its pages were
cut from. -/
theorem pages_exact {hosts : Nat → Host} {rounds n : Nat} {s : Inspection} (h : Pinned hosts n s)
    {owner path version token : Text} {information : Information}
    (hreport : pages parse maximum container (fun k => inspect (hosts k)) rounds n s =
      .finished (.information owner path version token information)) :
    ∃ last bytes, Assembled hosts last version token bytes ∧ parse bytes = some information := by
  induction rounds generalizing n s with
  | zero => cases hreport
  | succ rounds ih =>
    rw [pages] at hreport
    rcases page_cases parse maximum container s
      ((inspect (hosts n) s.request).checked container) with ⟨result, hhost⟩ | ⟨bytes, size, haccepts, hpage⟩
    · rw [hhost] at hreport
      cases hreport
    · by_cases heof : ((inspect (hosts n) s.request).checked container).eof.toBool = true
      · rw [hpage, if_pos heof] at hreport
        rcases complete_cases parse container (s.taken ((inspect (hosts n) s.request).checked container) bytes size)
          with ⟨result, herror⟩ | ⟨found, hfound, hhash, hdone⟩
        · rw [herror] at hreport
          cases hreport
        · rw [hdone] at hreport
          cases hreport
          exact ⟨n, s.bytes ++ bytes, h.assembled haccepts heof hhash, hfound⟩
      · rw [hpage, if_neg heof] at hreport
        exact ih (h.taken haccepts) hreport

/-! ## An unchanged host -/

/-- A host that serves a document, of which the client's checks approve. -/
structure Serves (parse : Bytes → Option Information) (maximum : Nat) (container path : Text) (h : Host)
    (document : Bytes) (information : Information) : Prop where
  ready : h.failure = none
  plain : h.kind = file
  stamped : h.stamp ≠ []
  bound : h.container = container
  stored : h.storage = some h.container
  served : h.served = true
  holds : h.information = some document
  settled : h.after = some h.stamp
  nonempty : document ≠ []
  within : document.length ≤ maximum
  parsed : parse document = some information
  format : information.format = informationFormat
  schema : information.schema = informationSchema
  named : information.path.text = path
  owner : information.container.text = container

/-- An inspection that has the first bytes of a document, but not all of them. -/
structure Reading (path : Text) (h : Host) (document : Bytes) (s : Inspection) : Prop where
  named : s.path = path
  sliced : s.bytes = document.take s.bytes.length
  rest : s.bytes.length < document.length
  pin : (s.version = [] ∧ s.bytes = [] ∧ s.size = -1) ∨
    (s.version = h.stamp ∧ s.token = digest document ∧ s.size = document.length)

variable {path : Text} {h : Host} {document : Bytes} {information : Information}

theorem inspect_reading (hserves : Serves parse maximum container path h document information)
    (hmaximum : maximum ≤ maxCounter) {s : Inspection} (hs : Reading path h document s) :
    inspect h s.request = pageOf h path document s.bytes.length := by
  have hle := hserves.within
  have hlt := hs.rest
  have hnumber : number (.string (decimal s.bytes.length)) = some s.bytes.length := number_decimal (by omega)
  have hhex : hex (digest document) = true := hex_sha256 document
  have hne : digest document ≠ [] := ne_nil_of_hex hhex
  rw [inspect, hserves.ready]
  simp only [request, Value.defined_string, if_true, hnumber, hserves.plain, ne_eq, not_true, if_false, hs.named]
  rcases hs.pin with ⟨hversion, hbytes, -⟩ | ⟨hversion, htoken, -⟩
  · simp [hversion, hbytes, hserves.stored, hserves.served, hserves.holds, hserves.settled, Value.defined]
  · simp [hversion, htoken, hserves.stamped, hserves.stored, hserves.served, hserves.holds, hserves.settled, hhex,
      Value.isString, Nat.not_lt.mpr hlt.le]

theorem length_chunkOf (document : Bytes) (offset : Nat) :
    (chunkOf document offset).length = min chunkBytes (document.length - offset) := by
  rw [chunkOf, List.length_take, List.length_drop]

/-- The client takes every page of an unchanged host. -/
theorem page_reading (hserves : Serves parse maximum container path h document information)
    (hmaximum : maximum ≤ maxCounter) {s : Inspection} (hs : Reading path h document s) :
    s.page parse maximum container ((inspect h s.request).checked container) =
      if s.bytes.length + (chunkOf document s.bytes.length).length = document.length then
        (s.taken (pageOf h path document s.bytes.length) (chunkOf document s.bytes.length) document.length).complete
          parse container
      else .again (s.taken (pageOf h path document s.bytes.length) (chunkOf document s.bytes.length) document.length) := by
  have hle := hserves.within
  have hlt := hs.rest
  have hlength := length_chunkOf document s.bytes.length
  have hchunk : 0 < chunkBytes := by decide
  have hcounter : maxCounter < 2 ^ 63 := by decide
  have hnonempty : chunkOf document s.bytes.length ≠ [] := by
    intro hnil
    rw [hnil, List.length_nil] at hlength
    omega
  have hchecked : (pageOf h path document s.bytes.length).checked container = pageOf h path document s.bytes.length := by
    rw [Result.checked, if_neg]
    simp [pageOf, hserves.bound]
  rw [inspect_reading hserves hmaximum hs, hchecked, page, if_neg (by simp [pageOf]), if_neg]
  · have hoffset : toLongLong (pageOf h path document s.bytes.length).offset.text = some (s.bytes.length : Int) :=
      toLongLong_decimal (by omega)
    have hsize : toLongLong (pageOf h path document s.bytes.length).size.text = some (document.length : Int) :=
      toLongLong_decimal (by omega)
    have hdata : Base64.decode (pageOf h path document s.bytes.length).data.text =
        some (chunkOf document s.bytes.length) := Base64.decode_encode _
    rw [hoffset, hsize, hdata]
    simp only
    have heof : (pageOf h path document s.bytes.length).eof =
        .bool (s.bytes.length + (chunkOf document s.bytes.length).length = document.length) := rfl
    rw [if_neg]
    · simp only [heof, Value.toBool_bool, decide_eq_true_eq]
      rfl
    · have hpin : ¬(s.version ≠ [] ∧ (s.version ≠ h.stamp ∨ s.token ≠ digest document)) := by
        rcases hs.pin with ⟨hversion, -, -⟩ | ⟨hversion, htoken, -⟩
        · simp [hversion]
        · simp [hversion, htoken]
      have hknown : ¬(0 ≤ s.size ∧ s.size ≠ document.length) := by
        rcases hs.pin with ⟨-, -, hsize⟩ | ⟨-, -, hsize⟩
        · omega
        · omega
      have hhex : hex (digest document) = true := hex_sha256 document
      simp only [not_or]
      refine ⟨by omega, by omega, by omega, hknown, hnonempty, by omega, fun hbad => hbad rfl, by omega,
        fun hbad => hbad hs.named.symm, fun hbad => hbad rfl, fun hbad => hbad rfl,
        fun hbad => hbad (by rw [heof, Value.isBool_bool]), ?_,
        fun hbad => hbad hhex, hserves.stamped, hpin⟩
      rw [heof]
      intro hbad
      exact hbad (congrArg Value.bool (decide_eq_decide.mpr (by omega)))
  · rintro (hbad | hbad)
    · exact hbad rfl
    · have hwide : utf16Size (Base64.encode (chunkOf document s.bytes.length)) ≤ (chunkBytes + 2) / 3 * 4 := by
        rw [Base64.utf16Size_encode]
        exact Nat.mul_le_mul_right 4 (Nat.div_le_div_right (by omega))
      exact absurd hbad (Nat.not_lt.mpr hwide)

/-- The part of a document that an accepted page has brought. -/
theorem Reading.taken {s : Inspection} (hs : Reading path h document s)
    (hmore : s.bytes.length + (chunkOf document s.bytes.length).length ≠ document.length) :
    Reading path h document
      (s.taken (pageOf h path document s.bytes.length) (chunkOf document s.bytes.length) document.length) := by
  have hlength := length_chunkOf document s.bytes.length
  have hlt := hs.rest
  have happend := chunkOf_append document s.bytes.length
  rw [← hs.sliced, ← List.length_append] at happend
  refine ⟨hs.named, happend, ?_, Or.inr ⟨rfl, rfl, rfl⟩⟩
  show (s.bytes ++ chunkOf document s.bytes.length).length < document.length
  rw [List.length_append]
  omega

/-- The last page of an unchanged host completes the document. -/
theorem complete_reading (hserves : Serves parse maximum container path h document information) {s : Inspection}
    (hs : Reading path h document s)
    (hlast : s.bytes.length + (chunkOf document s.bytes.length).length = document.length) :
    (s.taken (pageOf h path document s.bytes.length) (chunkOf document s.bytes.length) document.length).complete
      parse container = .finished (.information container path h.stamp (digest document) information) := by
  have happend := chunkOf_append document s.bytes.length
  rw [← hs.sliced, hlast, List.take_length] at happend
  rw [complete, taken]
  simp only [happend, hserves.parsed, hs.named]
  rw [if_neg]
  · rfl
  · rintro (hbad | hbad | hbad | hbad | hbad)
    · exact hbad hserves.format
    · exact hbad hserves.schema
    · exact hbad hserves.named
    · exact hbad hserves.owner
    · exact hbad rfl

/-- Against an unchanged host an inspection reads the document to its end. -/
theorem pages_reading (hserves : Serves parse maximum container path h document information)
    (hmaximum : maximum ≤ maxCounter) {rounds n : Nat} {s : Inspection} (hs : Reading path h document s)
    (hrounds : document.length ≤ s.bytes.length + rounds) :
    pages parse maximum container (fun _ => inspect h) rounds n s =
      .finished (.information container path h.stamp (digest document) information) := by
  induction rounds generalizing n s with
  | zero =>
    have hrest := hs.rest
    omega
  | succ rounds ih =>
    rw [pages, page_reading hserves hmaximum hs]
    by_cases hlast : s.bytes.length + (chunkOf document s.bytes.length).length = document.length
    · rw [if_pos hlast, complete_reading hserves hs hlast]
    · rw [if_neg hlast]
      have hlength := length_chunkOf document s.bytes.length
      have hchunk : 0 < chunkBytes := by decide
      have hrest := hs.rest
      have hmore : document.length ≤ (s.bytes ++ chunkOf document s.bytes.length).length + rounds := by
        rw [List.length_append]
        omega
      exact ih (hs.taken hlast) hmore

/-- An inspection finishes with the very document of one version and one digest, or with an error,
and it does so after at most `maximum` pages, whoever answers. An unchanged host is read to the end. -/
theorem inspection_exact (parse : Bytes → Option Information) (maximum : Nat) (container path : Text)
    (hpositive : 0 < maximum) (hmaximum : maximum ≤ maxCounter) :
    (∀ hosts rounds owner named version token information,
      pages parse maximum container (fun k => inspect (hosts k)) rounds 0 { path } =
          .finished (.information owner named version token information) →
        ∃ last bytes, Assembled hosts last version token bytes ∧ parse bytes = some information) ∧
      (∀ reply, ∃ report, pages parse maximum container reply maximum 0 { path } = .finished report) ∧
      ∀ h document information, Serves parse maximum container path h document information →
        pages parse maximum container (fun _ => inspect h) maximum 0 { path } =
          .finished (.information container path h.stamp (digest document) information) := by
  refine ⟨fun hosts rounds owner named version token information hreport => ?_, fun reply => ?_,
    fun h document information hserves => ?_⟩
  · have hstart : Pinned hosts 0 { path } := ⟨by omega, by omega, fun _ _ => rfl⟩
    exact pages_exact hstart hreport
  · exact pages_end reply hpositive (by simp)
  · have hlength := List.length_pos_iff.mpr hserves.nonempty
    have hwithin := hserves.within
    have hstart : Reading path h document { path } := ⟨rfl, rfl, hlength, Or.inl ⟨rfl, rfl, rfl⟩⟩
    exact pages_reading hserves hmaximum hstart (by simpa using hwithin)

def sampleInformation : Information where
  format := informationFormat
  schema := informationSchema
  path := .string (text "documents/a.txt")
  container := .string (text "drive")

def sampleHost : Host where
  container := text "drive"
  stamp := text "1"
  storage := some (text "drive")
  information := some (utf8 (text "about a.txt"))
  after := some (text "1")

theorem inspection_exact_sample :
    pages (fun b => if b = utf8 (text "about a.txt") then some sampleInformation else none) 1048576 (text "drive")
        (fun _ => inspect sampleHost) 1048576 0 { path := text "documents/a.txt" } =
      .finished (.information (text "drive") (text "documents/a.txt") (text "1")
        (digest (utf8 (text "about a.txt"))) sampleInformation) :=
  (inspection_exact _ 1048576 (text "drive") (text "documents/a.txt") (by decide) (by decide)).2.2 sampleHost
    (utf8 (text "about a.txt")) sampleInformation
    { ready := rfl, plain := rfl, stamped := by decide, bound := rfl, stored := rfl, served := rfl, holds := rfl,
      settled := rfl, nonempty := by decide, within := by decide, parsed := if_pos rfl, format := rfl, schema := rfl,
      named := rfl, owner := rfl }

end Inspection

end SocietyHelper.Client
