import SocietyHelper.Library.Keyset
import SocietyHelper.Library.Utf8
import SocietyHelper.Sync.HostIndex
import SocietyHelper.Sync.Sizes

/-! # The catalog of a drive

A host lists the live entries of its container page by page. A page begins behind
a path and is answered only as long as the journal has the sequence that the first
page was answered at, so that pages of one walk are pages of one namespace.
-/

namespace SocietyHelper.Sync

open Library Effect

/-- One entry of a page. `provider` is a member of the object that says where information about a file is. -/
structure CatalogItem where
  path : Value := .undefined
  kind : Value := .undefined
  size : Value := .undefined
  version : Value := .undefined
  hash : Value := .undefined
  modified : Value := .undefined
  provider : Value := .undefined
  deriving DecidableEq

structure CatalogPage where
  ok : Value := .undefined
  error : Value := .undefined
  container : Value := .undefined
  entries : Option (List CatalogItem) := none
  revision : Value := .undefined
  nextCursor : Value := .undefined

structure CatalogRequest where
  container : Value := .undefined
  cursor : Value := .undefined
  revision : Value := .undefined

namespace CatalogItem

def provided : Text := text "iiFileProvider"

def information : Text :=
  Json.object [(text "action", Json.quote (text "drive.inspect")), (text "provider", Json.quote provided),
    (text "schema", text "1")]

def members (e : CatalogItem) : List (Text × Text) :=
  Json.field (text "hash") e.hash ++ (if e.provider.defined then [(text "information", information)] else []) ++
  Json.field (text "kind") e.kind ++ Json.field (text "modified") e.modified ++ Json.field (text "path") e.path ++
  Json.field (text "size") e.size ++ Json.field (text "version") e.version

def json (e : CatalogItem) : Text := Json.object e.members

end CatalogItem

namespace Replica

def pageEntries : Nat := 128
def pageBytes : Nat := 240 * 1024

/-- The bytes of a path in UTF-8, by which the database orders paths. -/
def octets (t : Text) : List Nat := (utf8 t).map UInt8.toNat

def providerControlPath [layout : StoreLayout] (path : Text) : Bool := (path.splitOn '/').any layout.controlFile

/-- Whether a row is shown to clients. -/
def shown [StoreLayout] (path : Text) (e : Entry) : Bool :=
  !(e.isKind deleted || physical path = [] || providerControlPath path)

/-- What clients are told of an entry: no clocks, and a time only if the file is the one recorded. -/
def exported (e : Entry) (modified : Option Int64) : CatalogItem where
  path := e.path
  kind := e.kind
  size := e.size
  version := e.version
  hash := e.hash
  modified := match modified with
    | some time => .string (decimalInt time.toInt)
    | none => .undefined
  provider := if e.isKind file then .string CatalogItem.provided else .undefined

/-- The time of the last change in milliseconds, if the path is still as it was recorded. -/
def modifiedOf (times : Path → Option Int64) (path : Path) (stamp : Stamp) : Effect Volume (Option Int64) :=
  match times path with
  | none => pure none
  | some time => orElse none do
    let st ← ConfinedFiles.state path
    pure (if st.stamp = stamp then some time else none)

/-- Walk over rows in the order of their paths; the answer says whether one was left because of the page. -/
def catalogEntries [StoreLayout] (times : Path → Option Int64) :
    List (Text × EntryRow) → List (Text × CatalogItem) → Nat → Effect World (List (Text × CatalogItem) × Bool)
  | [], taken, _ => pure (taken, false)
  | (path, row) :: rows, taken, bytes =>
    if shown path row.data then do
      let modified ← onVolume (modifiedOf times (physical path) row.stamp)
      let item := exported row.data modified
      let length := utf8Size item.json
      if taken.length = pageEntries ∨ pageBytes < bytes + length then pure (taken, true)
      else catalogEntries times rows (taken ++ [(path, item)]) (bytes + length)
    else catalogEntries times rows taken bytes

/-- The rows behind a path. -/
def rowsBehind (db : Database) (cursor : Text) : List (Text × EntryRow) :=
  (db.entries.rows.filter fun r => octets cursor < octets r.1).insertionSort fun a b => octets a.1 ≤ octets b.1

/-- A page of the catalog; `times` is what the file system says of the last changes. -/
def catalog [StoreLayout] (times : Path → Option Int64) (r : CatalogRequest) : Effect World CatalogPage := do
  lock
  let w ← get
  let revision := ((journal w).state w.db).sequence
  let cursor := r.cursor.text
  if isMirror w then throw (text "mirror_cannot_be_primary_host")
  else if r.container.text ≠ w.container then throw (text "remote_container_changed")
  else if (r.cursor.defined ∧ ¬r.cursor.isString) ∨ (cursor ≠ [] ∧ physical cursor = []) then
    throw (text "invalid_drive_cursor")
  else if (cursor ≠ [] ∨ r.revision.defined) ∧ r.revision.text ≠ revision then throw (text "drive_snapshot_changed")
  else
    let (taken, more) ← catalogEntries times (rowsBehind w.db cursor) [] 0
    let last := (taken.getLast?.map Prod.fst).getD []
    if more ∧ last = [] then throw (text "drive_entry_too_large")
    else
      pure
        { ok := .bool true, container := .string w.container, entries := some (taken.map Prod.snd)
          revision := .string revision, nextCursor := .string (if more then last else []) }

/-! ## What is listed -/

def sorted (db : Database) : List (Text × EntryRow) :=
  db.entries.rows.insertionSort fun a b => octets a.1 ≤ octets b.1

/-- The shown entries of a container in the order of their paths. -/
def listing [StoreLayout] (db : Database) : List (Text × Entry) :=
  ((sorted db).filter fun r => shown r.1 r.2.data).map fun r => (r.1, r.2.data)

theorem octets_injective : Function.Injective octets := by
  intro s t h
  exact utf8_injective (List.map_injective_iff.mpr (fun a b hab => UInt8.toNat_inj.mp hab) h)

theorem octets_nil_lt {t : Text} (h : t ≠ []) : octets [] < octets t := by
  cases hoctets : octets t with
  | nil => exact absurd (octets_injective (hoctets.trans (show [] = octets [] from rfl))) h
  | cons n l => exact List.nil_lt_cons n l

/-- The order of the octets, on rows with a path. -/
abbrev byPath {α : Type} (r : Text × α) : List Nat := octets r.1

theorem ascends_insertionSort {α : Type} {rows : List (Text × α)} (h : (rows.map Prod.fst).Nodup) :
    Keyset.Ascends byPath (rows.insertionSort fun a b => octets a.1 ≤ octets b.1) := by
  have : Std.Total fun a b : Text × α => octets a.1 ≤ octets b.1 := ⟨fun a b => le_total _ _⟩
  have : IsTrans (Text × α) fun a b => octets a.1 ≤ octets b.1 := ⟨fun a b c => le_trans⟩
  have hsorted := List.pairwise_insertionSort (fun a b : Text × α => octets a.1 ≤ octets b.1) rows
  have hperm := List.perm_insertionSort (fun a b : Text × α => octets a.1 ≤ octets b.1) rows
  have hkeys := (hperm.map Prod.fst).nodup_iff.mpr h
  rw [List.Nodup, List.pairwise_map] at hkeys
  exact hsorted.imp₂ (fun a b hle hne => lt_of_le_of_ne hle fun heq => hne (octets_injective heq)) hkeys

theorem sorted_ascends (db : Database) : Keyset.Ascends byPath (sorted db) := ascends_insertionSort db.entries.unique

theorem mem_sorted {db : Database} {r : Text × EntryRow} : r ∈ sorted db ↔ db.entries.find? r.1 = some r.2 := by
  rw [sorted, List.mem_insertionSort, ← Table.mem_rows_iff]

theorem rowsBehind_eq (db : Database) (cursor : Text) :
    rowsBehind db cursor = Keyset.behind byPath (octets cursor) (sorted db) := by
  have hbehind : Keyset.Ascends byPath (rowsBehind db cursor) :=
    ascends_insertionSort (db.entries.unique.sublist (List.filter_sublist.map Prod.fst))
  refine hbehind.eq_of_mem (List.Pairwise.filter _ (sorted_ascends db)) fun r => ?_
  rw [rowsBehind, List.mem_insertionSort, Keyset.behind, List.mem_filter, List.mem_filter, sorted, List.mem_insertionSort]
  simp only [decide_eq_true_eq]

section

variable [StoreLayout]

theorem mem_listing {db : Database} {path : Text} {e : Entry} :
    (path, e) ∈ listing db ↔ (db.entries.find? path).map EntryRow.data = some e ∧ shown path e := by
  rw [listing, List.mem_map, Option.map_eq_some_iff]
  constructor
  · rintro ⟨r, hr, heq⟩
    obtain ⟨hmem, hshown⟩ := List.mem_filter.mp hr
    cases heq
    exact ⟨⟨r.2, mem_sorted.mp hmem, rfl⟩, hshown⟩
  · rintro ⟨⟨row, hrow, rfl⟩, hshown⟩
    exact ⟨(path, row), List.mem_filter.mpr ⟨mem_sorted.mpr hrow, hshown⟩, rfl⟩

theorem listing_ascends (db : Database) : Keyset.Ascends byPath (listing db) :=
  List.pairwise_map.mpr ((sorted_ascends db).filter _)

/-- What is listed behind a path comes from the rows behind it. -/
theorem behind_listing (db : Database) (cursor : Text) :
    Keyset.behind byPath (octets cursor) (listing db) =
      ((rowsBehind db cursor).filter fun r => shown r.1 r.2.data).map fun r => (r.1, r.2.data) := by
  rw [rowsBehind_eq, Keyset.behind, Keyset.behind, listing, List.filter_map, List.filter_filter, List.filter_filter]
  refine congrArg (List.map _) (List.filter_congr fun r _ => ?_)
  exact Bool.and_comm _ _

/-- Two indexes of one journal are listed alike. -/
theorem listing_of_revisions {j : NamespaceJournal} {s t : Database} (hs : Indexed j s) (ht : Indexed j t)
    (h : t.revisions.rows = s.revisions.rows) : listing t = listing s := by
  refine (listing_ascends t).eq_of_mem (listing_ascends s) fun e => ?_
  rw [mem_listing, mem_listing, hs.entries, ht.entries, NamespaceJournal.object, NamespaceJournal.object, h]

/-! ## One page -/

/-- An item that shows a row, with or without a time. -/
def Shows (r : Text × Entry) (i : Text × CatalogItem) : Prop := i.1 = r.1 ∧ ∃ modified, i.2 = exported r.2 modified

/-- What the walk over rows comes to: `items` show a front of the shown rows. -/
structure Collected (rows : List (Text × Entry)) (taken : Nat) (bytes : Nat) (items : List (Text × CatalogItem))
    (more : Bool) : Prop where
  cut : ∃ page rest, rows = page ++ rest ∧ List.Forall₂ Shows page items ∧ (more = false ↔ rest = [])
  count : taken ≤ pageEntries → taken + items.length ≤ pageEntries
  stuck : more → items = [] → taken = pageEntries ∨
    ∃ r ∈ rows, ∃ modified, pageBytes < bytes + utf8Size (exported r.2 modified).json

omit [StoreLayout] in
theorem modifiedOf_cases (times : Path → Option Int64) (path : Path) (stamp : Stamp) (w : World) :
    ∃ modified volume, onVolume (modifiedOf times path stamp) w = .ok modified { w with volume } := by
  rw [onVolume, zoom, modifiedOf]
  cases times path with
  | none => exact ⟨none, w.volume, rfl⟩
  | some time =>
    split
    next h => exact ⟨_, _, rfl⟩
    next h =>
      dsimp only at h
      rw [orElse] at h
      split at h
      · cases h
      · cases h

theorem catalogEntries_cases (times : Path → Option Int64) (rows : List (Text × EntryRow)) (taken : List (Text × CatalogItem))
    (bytes : Nat) (w : World) :
    ∃ items more volume, catalogEntries times rows taken bytes w = .ok (taken ++ items, more) { w with volume } ∧
      Collected ((rows.filter fun r => shown r.1 r.2.data).map fun r => (r.1, r.2.data)) taken.length bytes items more := by
  induction rows generalizing taken bytes w with
  | nil =>
    refine ⟨[], false, w.volume, by rw [catalogEntries, List.append_nil]; rfl, ⟨[], [], rfl, .nil, by simp⟩, fun h => h, fun h => ?_⟩
    cases h
  | cons r rows ih =>
    obtain ⟨path, row⟩ := r
    rw [catalogEntries]
    cases hshown : shown path row.data with
    | false =>
      have hfilter : ((path, row) :: rows).filter (fun r => shown r.1 r.2.data) = rows.filter fun r => shown r.1 r.2.data :=
        List.filter_cons_of_neg (by simp [hshown])
      rw [if_neg Bool.false_ne_true, hfilter]
      exact ih taken bytes w
    | true =>
      have hfilter : ((path, row) :: rows).filter (fun r => shown r.1 r.2.data) =
          (path, row) :: rows.filter fun r => shown r.1 r.2.data := List.filter_cons_of_pos hshown
      rw [if_pos rfl, hfilter, List.map_cons]
      obtain ⟨modified, volume, hmodified⟩ := modifiedOf_cases times (physical path) row.stamp w
      rw [bind_of_ok hmodified]
      dsimp only
      split
      next hfull =>
        refine ⟨[], true, volume, by rw [List.append_nil]; rfl, ⟨[], _, rfl, .nil, by simp⟩, fun h => h, fun _ _ => ?_⟩
        rcases hfull with hfull | hfull
        · exact .inl hfull
        · exact .inr ⟨_, List.mem_cons_self, modified, hfull⟩
      next hfits =>
        obtain ⟨items, more, volume', hcollect, hcollected⟩ := ih (taken ++ [(path, exported row.data modified)])
          (bytes + utf8Size (exported row.data modified).json) { w with volume }
        refine ⟨(path, exported row.data modified) :: items, more, volume', ?_, ?_, fun h => ?_, fun _ hnil => ?_⟩
        · rw [hcollect, List.append_assoc, List.singleton_append]
        · obtain ⟨page, rest, hrows, hshows, hmore⟩ := hcollected.cut
          exact ⟨_ :: page, rest, by rw [hrows]; rfl, .cons ⟨rfl, modified, rfl⟩ hshows, hmore⟩
        · have hcount := hcollected.count
          have hroom := (not_or.mp hfits).1
          simp only [List.length_append, List.length_cons, List.length_nil] at hcount ⊢
          omega
        · cases hnil

/-- A page that a host answers with shows a front of what is listed behind the cursor. -/
structure Answered (w : World) (r : CatalogRequest) (page : CatalogPage) : Prop where
  ok : page.ok.toBool
  revision : page.revision = .string ((journal w).state w.db).sequence
  pinned : r.cursor.text ≠ [] → r.revision.text = ((journal w).state w.db).sequence
  shows : ∃ front rest items next, Keyset.behind byPath (octets r.cursor.text) (listing w.db) = front ++ rest ∧
    page.entries = some items ∧ page.nextCursor = .string next ∧ items.length ≤ pageEntries ∧
    List.Forall₂ (fun e i => ∃ modified, i = exported e.2 modified) front items ∧
    (next = [] ∧ rest = [] ∨ next ≠ [] ∧ ∃ last, front.getLast? = some last ∧ next = last.1)

omit [StoreLayout] in
theorem getLast?_of_shows {front : List (Text × Entry)} {items : List (Text × CatalogItem)}
    (h : List.Forall₂ Shows front items) : items.getLast?.map Prod.fst = front.getLast?.map Prod.fst := by
  have hpaths : items.map Prod.fst = front.map Prod.fst := by
    induction h with
    | nil => rfl
    | cons hshows _ ih => rw [List.map_cons, List.map_cons, ih, hshows.1]
  rw [← List.getLast?_map, hpaths, List.getLast?_map]

theorem catalog_ok {times : Path → Option Int64} {r : CatalogRequest} {w v : World} {page : CatalogPage}
    (h : catalog times r w = .ok page v) : Answered w r page ∧ ∃ volume, v = { w with volume } := by
  rw [catalog] at h
  obtain ⟨_, w', hlock, h⟩ := bind_eq_ok.mp h
  obtain ⟨volume, rfl⟩ : ∃ volume, w' = { w with volume } := by
    rcases lock_cases w with ⟨volume, heq⟩ | ⟨e, volume, heq⟩
    · rw [heq] at hlock
      cases hlock
      exact ⟨volume, rfl⟩
    · rw [heq] at hlock
      cases hlock
  rw [bind_of_ok (get_apply _)] at h
  dsimp only at h
  split at h
  · cases h
  split at h
  · cases h
  split at h
  · cases h
  split at h
  · cases h
  next hpinned =>
    obtain ⟨items, more, volume', hcollect, hcollected⟩ :=
      catalogEntries_cases times (rowsBehind w.db r.cursor.text) [] 0 { w with volume }
    rw [List.nil_append] at hcollect
    rw [bind_of_ok hcollect] at h
    dsimp only at h
    split at h
    · cases h
    next hfits =>
      cases h
      obtain ⟨front, rest, hcut, hshows, hmore⟩ := hcollected.cut
      have hcount := hcollected.count (Nat.zero_le _)
      refine ⟨⟨rfl, rfl, fun hcursor => ?_, front, rest, items.map Prod.snd, _, ?_, rfl, rfl, ?_, ?_, ?_⟩, volume', rfl⟩
      · by_contra hne
        exact hpinned ⟨.inl hcursor, hne⟩
      · rw [behind_listing, hcut]
      · simpa using hcount
      · exact List.forall₂_map_right_iff.mpr (hshows.imp fun _ _ hi => hi.2)
      · cases more with
        | false => exact .inl ⟨rfl, hmore.mp rfl⟩
        | true =>
          have hlast : (items.getLast?.map Prod.fst).getD [] ≠ [] := fun hnil => hfits ⟨rfl, hnil⟩
          refine .inr ⟨hlast, ?_⟩
          rw [if_pos rfl]
          rw [getLast?_of_shows hshows] at hlast ⊢
          cases hfront : front.getLast? with
          | none =>
            rw [hfront] at hlast
            exact absurd rfl hlast
          | some last => exact ⟨last, rfl, rfl⟩

/-! ## What a host has listed -/

/-- What is listed is live and fit to be sent. -/
structure Sent (e : Text × Entry) : Prop where
  path : e.2.path.text = e.1
  native : physical e.1 ≠ []
  plain : providerControlPath e.1 = false
  kind : e.2.kind.text = file ∨ e.2.kind.text = directory
  size : ∃ n, number e.2.size = some n
  version : e.2.version.text ≠ []
  fits : ((Json.field (text "hash") e.2.hash ++ Json.field (text "kind") e.2.kind ++ Json.field (text "path") e.2.path ++
    Json.field (text "size") e.2.size ++ Json.field (text "version") e.2.version).map Json.memberSize).sum ≤ 16384

omit [StoreLayout] in
theorem shownMembers_sublist (e : Entry) :
    (Json.field (text "hash") e.hash ++ Json.field (text "kind") e.kind ++ Json.field (text "path") e.path ++
      Json.field (text "size") e.size ++ Json.field (text "version") e.version).Sublist e.members := by
  rw [Entry.members]
  simp only [List.append_assoc]
  refine .trans ?_ (List.sublist_append_right _ _)
  refine .trans ?_ (List.sublist_append_right _ _)
  refine .trans ?_ (List.sublist_append_right _ _)
  refine .append (.refl _) (.append (.refl _) ?_)
  refine .trans ?_ (List.sublist_append_right _ _)
  refine .append (.refl _) ?_
  refine .trans ?_ (List.sublist_append_right _ _)
  refine .trans ?_ (List.sublist_append_right _ _)
  exact .append (.refl _) (List.sublist_append_left _ _)

theorem Governs.sent {w : World} (h : Governs w) {e : Text × Entry} (he : e ∈ listing w.db) : Sent e := by
  obtain ⟨path, e⟩ := e
  obtain ⟨hrow, hshown⟩ := mem_listing.mp he
  rw [h.indexed.entries] at hrow
  obtain ⟨r, hlatest, rfl⟩ := Option.map_eq_some_iff.mp hrow
  obtain ⟨hr, hpath, -⟩ := latest_greatest hlatest
  obtain ⟨_, -, -, hext⟩ := Linked.exists_of_mem h.indexed.chain hr
  have hvalid := validRecord_iff.mp hext.record
  simp only [shown, Bool.not_eq_true', Bool.or_eq_false_iff, decide_eq_false_iff_not] at hshown
  obtain ⟨⟨hlive, hnative⟩, hplain⟩ := hshown
  obtain ⟨n, hn, hkind⟩ := hvalid.size
  refine ⟨hext.path.symm.trans hpath, hnative, hplain, ?_, ⟨n, hn⟩, ?_, ?_⟩
  · rcases hkind with ⟨hfile, -⟩ | ⟨hdirectory | hdeleted, -⟩
    · exact .inl hfile
    · exact .inr hdirectory
    · refine absurd ?_ (Bool.eq_false_iff.mp hlive)
      have hstring := (Value.isString_iff _).mp (Value.isString_of_text_ne (v := r.data.object.kind) (by rw [hdeleted]; decide))
      rw [hdeleted] at hstring
      exact decide_eq_true hstring
  · show r.data.object.version.text ≠ []
    rw [hvalid.version]
    exact ne_nil_of_hex (hex_sha256 _)
  · have hfits := hvalid.fits
    rw [Entry.json, Json.utf8Size_object] at hfits
    have hsum := ((shownMembers_sublist r.data.object).map Json.memberSize).sum_le_sum fun _ _ => Nat.zero_le _
    have hbound : (r.data.object.members.map Json.memberSize).sum ≤ 16384 := by omega
    exact hsum.trans hbound

omit [StoreLayout] in
theorem utf8Size_quote_decimalInt (n : Int64) : utf8Size (Json.quote (decimalInt n.toInt)) ≤ 22 := by
  have hdigits : ∀ k : Nat, k ≤ 2 ^ 63 → (decimal k).length ≤ 19 := fun k hk =>
    (Nat.length_toDigits_le_iff (by decide) (by decide)).mpr (by omega)
  have hlow := n.le_toInt
  have hhigh := n.toInt_lt
  cases hn : n.toInt with
  | ofNat k =>
    rw [hn] at hhigh
    have hk : k ≤ 2 ^ 63 := by
      rw [Int.ofNat_eq_natCast] at hhigh
      omega
    refine (utf8Size_quote_le (fun c hc => plain_of_isDigit (isDigit_of_mem_decimal hc)) (hdigits k hk)).trans ?_
    decide
  | negSucc k =>
    rw [hn] at hlow
    have hk : k + 1 ≤ 2 ^ 63 := by omega
    refine utf8Size_quote_le (fun c hc => ?_) (Nat.succ_le_succ (hdigits (k + 1) hk))
    rcases List.mem_cons.mp hc with rfl | hc
    · decide
    · exact plain_of_isDigit (isDigit_of_mem_decimal hc)

/-- What is told beyond the record is small. -/
theorem exported_fits {e : Text × Entry} (h : Sent e) (modified : Option Int64) :
    utf8Size (exported e.2 modified).json ≤ pageBytes := by
  have hfits := h.fits
  have hinformation : ((if (exported e.2 modified).provider.defined then
      [(text "information", CatalogItem.information)] else []).map Json.memberSize).sum ≤ 200 := by
    split
    · decide +kernel
    · exact Nat.zero_le _
  have hmodified : ((Json.field (text "modified") (exported e.2 modified).modified).map Json.memberSize).sum ≤ 40 := by
    cases modified with
    | none => exact Nat.zero_le _
    | some time =>
      have htime := utf8Size_quote_decimalInt time
      have hkey : utf8Size (Json.quote (text "modified")) = 10 := by decide
      rw [exported, Json.memberSize_field_string, hkey]
      omega
  have hpath : (exported e.2 modified).path = e.2.path ∧ (exported e.2 modified).kind = e.2.kind ∧
      (exported e.2 modified).size = e.2.size ∧ (exported e.2 modified).version = e.2.version ∧
      (exported e.2 modified).hash = e.2.hash := ⟨rfl, rfl, rfl, rfl, rfl⟩
  rw [CatalogItem.json, Json.utf8Size_object, CatalogItem.members, hpath.1, hpath.2.1, hpath.2.2.1, hpath.2.2.2.1,
    hpath.2.2.2.2, pageBytes]
  simp only [List.map_append, List.sum_append] at hfits ⊢
  omega

/-- Why a host has no page for a request. -/
inductive Declined (w : World) (r : CatalogRequest) : Text → Prop
  | unavailable : Declined w r (text "container_unavailable_or_replaced")
  | busy : Declined w r (text "sync_store_busy")
  | mirror (h : isMirror w) : Declined w r (text "mirror_cannot_be_primary_host")
  | container (h : r.container.text ≠ w.container) : Declined w r (text "remote_container_changed")
  | cursor (h : (r.cursor.defined ∧ ¬r.cursor.isString) ∨ (r.cursor.text ≠ [] ∧ physical r.cursor.text = [])) :
    Declined w r (text "invalid_drive_cursor")
  | changed (h : (r.cursor.text ≠ [] ∨ r.revision.defined) ∧ r.revision.text ≠ ((journal w).state w.db).sequence) :
    Declined w r (text "drive_snapshot_changed")

omit [StoreLayout] in
theorem attempt_error {error e : Text} {s t : Volume} (h : ConfinedFiles.attempt error s = .error e t) : e = error := by
  rw [ConfinedFiles.attempt] at h
  split at h
  · cases h
    rfl
  · cases h

omit [StoreLayout] in
theorem lock_error {w v : World} {e : Text} (h : lock w = .error e v) :
    e = text "container_unavailable_or_replaced" ∨ e = text "sync_store_busy" := by
  rw [lock] at h
  cases hready : ready w with
  | ok u w' =>
    rw [bind_of_ok hready, onVolume, zoom] at h
    split at h
    · cases h
    next hbusy =>
      cases h
      exact .inr (attempt_error hbusy)
  | error error w' =>
    rw [bind_of_error hready] at h
    cases h
    rw [ready, onVolume, zoom] at hready
    split at hready
    · cases hready
    next hunavailable =>
      cases hready
      exact .inl (attempt_error hunavailable)

/-- Every entry fits a page, so a host that is not asked in vain has one. -/
theorem catalog_error {times : Path → Option Int64} {r : CatalogRequest} {w v : World} {e : Text} (hw : Governs w)
    (h : catalog times r w = .error e v) : Declined w r e := by
  rw [catalog] at h
  rcases lock_cases w with ⟨volume, hlock⟩ | ⟨error, volume, hlock⟩
  · rw [bind_of_ok hlock, bind_of_ok (get_apply _)] at h
    dsimp only at h
    split at h
    next hmirror =>
      cases h
      exact .mirror hmirror
    split at h
    next hcontainer =>
      cases h
      exact .container hcontainer
    split at h
    next hcursor =>
      cases h
      exact .cursor hcursor
    split at h
    next hchanged =>
      cases h
      exact .changed hchanged
    obtain ⟨items, more, volume', hcollect, hcollected⟩ :=
      catalogEntries_cases times (rowsBehind w.db r.cursor.text) [] 0 { w with volume }
    rw [List.nil_append] at hcollect
    rw [bind_of_ok hcollect] at h
    dsimp only at h
    split at h
    next hlarge =>
      exfalso
      obtain ⟨front, rest, hcut, hshows, -⟩ := hcollected.cut
      have hlisted : ∀ r' ∈ front ++ rest, Sent r' := by
        rw [← hcut, ← behind_listing]
        exact fun r' hr' => hw.sent (Keyset.mem_behind.mp hr').1
      -- a page that stops at its first entry has met one that is too large
      have hitems : items = [] := by
        by_contra hne
        have hlast := getLast?_of_shows hshows
        cases hfront : front.getLast? with
        | none =>
          rw [List.getLast?_eq_none_iff.mp hfront] at hshows
          cases hshows
          exact hne rfl
        | some last =>
          have hmem := List.mem_append_left rest (List.mem_of_getLast? hfront)
          rw [hlast, hfront] at hlarge
          refine (hlisted last hmem).native ?_
          have hnil : last.1 = [] := hlarge.2
          rw [hnil]
          rfl
      rcases hcollected.stuck hlarge.1 hitems with hfull | ⟨r', hr', modified, hover⟩
      · cases hfull
      · rw [Nat.zero_add] at hover
        rw [hcut] at hr'
        exact absurd (exported_fits (hlisted r' hr') modified) (Nat.not_le.mpr hover)
    next => cases h
  · rw [bind_of_error hlock] at h
    cases h
    rcases lock_error hlock with rfl | rfl
    · exact .unavailable
    · exact .busy

end

end Replica

end SocietyHelper.Sync
