import SocietyHelper.Sync.Announce

/-! # The host takes what a mirror announces

The pages cut from an announcement continue each other, fit a request and pass
every check of the host; the last one is answered with the announced snapshot.
-/

namespace SocietyHelper.Sync

open Library Effect

namespace Replica

/-! ## Pages of an announcement -/

/-- What the host checks of an announcement besides its pages. -/
structure Announceable [StoreLayout] (a : Announcement) (w : World) : Prop where
  container : a.container = w.container ∧ uuid a.container
  replica : uuid a.replica ∧ a.replica ≠ w.id
  range : 0 ≤ a.pushed ∧ a.pushed ≤ a.through ∧ a.through ≤ maxCounter
  count : a.outgoing.length ≤ 250000
  climbs : Climbs a.through a.pushed a.outgoing
  proper : ∀ e ∈ a.outgoing, Proper e
  distinct : (a.outgoing.map fun e => e.path.text).Nodup
  snapshot : validSnapshot a.snapshot
  base : baseKnown w.db a.snapshot
  fits : utf8Size a.snapshot.json ≤ 1000

namespace Announcement

variable {a : Announcement}

theorem page_front (a : Announcement) (start : Nat) : a.page start <+: a.outgoing.drop start :=
  (Paging.within_front _ _ _).trans (List.take_prefix _ _)

theorem page_length (a : Announcement) (start : Nat) : (a.page start).length ≤ 128 :=
  Nat.le_trans (Paging.within_length_le _ _ _) (List.length_take_le _ _)

theorem page_sum (a : Announcement) (start : Nat) : ((a.page start).map fun e => utf8Size e.json).sum ≤ 256 * 1024 :=
  Paging.within_sum_le _ _ _

/-- A page takes at least one of the entries that are left. -/
theorem page_ne_nil [StoreLayout] (hproper : ∀ e ∈ a.outgoing, Proper e) {start : Nat} (h : start < a.outgoing.length) :
    a.page start ≠ [] := by
  have hsmall : utf8Size a.outgoing[start].json ≤ 256 * 1024 :=
    Nat.le_trans (validRecord_iff.mp (hproper _ (List.getElem_mem h)).valid).fits (by decide)
  rw [page, List.drop_eq_getElem_cons h, List.take_succ_cons]
  exact Paging.within_ne_nil _ hsmall

theorem page_reached (a : Announcement) {start : Nat} (h : start ≤ a.outgoing.length) :
    start + (a.page start).length ≤ a.outgoing.length := by
  have hle := (a.page_front start).length_le
  rw [List.length_drop] at hle
  omega

theorem take_reached (a : Announcement) (start : Nat) :
    a.outgoing.take start ++ a.page start = a.outgoing.take (start + (a.page start).length) := by
  rw [List.take_add, ← List.prefix_iff_eq_take.mp (a.page_front start)]

theorem drop_page (a : Announcement) (start : Nat) :
    a.outgoing.drop start = a.page start ++ a.outgoing.drop (start + (a.page start).length) := by
  obtain ⟨rest, hrest⟩ := a.page_front start
  have hdrop := congrArg (List.drop (a.page start).length) hrest
  rw [List.drop_left, List.drop_drop] at hdrop
  rw [← hdrop, hrest]

/-- The numbers and names on a page. -/
def header (a : Announcement) (start : Nat) : PageHeader where
  id := a.id
  replica := a.replica
  snapshot := a.snapshot
  offset := start
  total := a.outgoing.length
  after := a.pushed.toNat
  through := a.through.toNat

end Announcement

section Host

variable [StoreLayout] {a : Announcement} {w : World}

/-- Every page fits into a request. -/
theorem utf8Size_request_le (h : Announceable a w) {start : Nat} (hstart : start ≤ a.outgoing.length) :
    utf8Size (a.request start).json ≤ 400000 := by
  have hrange := h.range
  have hcount := h.count
  have hmax : (250000 : Nat) ≤ maxCounter := by decide
  obtain ⟨pushed, hpushed⟩ := Int.eq_ofNat_of_zero_le hrange.1
  obtain ⟨through, hthrough⟩ := Int.eq_ofNat_of_zero_le (Int.le_trans hrange.1 hrange.2.1)
  have hlength := a.page_length start
  have hsum := a.page_sum start
  rw [Request.json, Json.utf8Size_object, Request.members, Announcement.request]
  simp only
  rw [hpushed, hthrough, decimalInt_natCast, decimalInt_natCast]
  generalize a.page start = entries at hlength hsum ⊢
  have harray := Json.utf8Size_array_le_sum (entries.map Entry.json)
  rw [List.map_map, Function.comp_def, List.length_map] at harray
  have hcontainer := uuid_plain h.container.2
  have hreplica := uuid_plain h.replica.1
  have h1 := utf8Size_quote_le hcontainer.1 hcontainer.2
  have h2 := utf8Size_quote_le hreplica.1 hreplica.2
  have h3 : utf8Size (Json.quote a.id) ≤ 66 := utf8Size_quote_hex (Or.inr (hex_sha256 _))
  have h4 := utf8Size_quote_decimal (n := start) (by omega)
  have h5 := utf8Size_quote_decimal (n := a.outgoing.length) (by omega)
  have h6 := utf8Size_quote_decimal (n := pushed) (by omega)
  have h7 := utf8Size_quote_decimal (n := through) (by omega)
  have hkeys : utf8Size (Json.quote (text "action")) ≤ 11 ∧ utf8Size (Json.quote (text "after")) ≤ 11 ∧
      utf8Size (Json.quote (text "container")) ≤ 11 ∧ utf8Size (Json.quote (text "entries")) ≤ 11 ∧
      utf8Size (Json.quote (text "manifest")) ≤ 11 ∧ utf8Size (Json.quote (text "offset")) ≤ 11 ∧
      utf8Size (Json.quote (text "replica")) ≤ 11 ∧ utf8Size (Json.quote (text "snapshot")) ≤ 11 ∧
      utf8Size (Json.quote (text "through")) ≤ 11 ∧ utf8Size (Json.quote (text "total")) ≤ 11 := by decide
  have hmanifest : utf8Size (Json.quote (text "manifest")) = 10 := by decide
  have hsnapshot : ((Json.field (text "snapshot") (.other a.snapshot.json)).map Json.memberSize).sum ≤ 1013 := by
    have hfits := h.fits
    simp only [Json.field, Value.defined, if_true, Json.value, List.map_cons, List.map_nil, List.sum_cons, List.sum_nil,
      Json.memberSize]
    omega
  simp only [SnapshotMember.toValue, List.map_append, List.sum_append, Json.memberSize_field_string, Json.field_undefined,
    List.map_cons, List.map_nil, List.sum_cons, List.sum_nil, List.flatMap_nil]
  rw [Json.memberSize]
  simp only
  omega

/-! ## Reading a page -/

/-- The host reads the next entries of an announcement without an error. -/
theorem addEntries_climbs (db : Database) (rest : List Entry) (es : List Entry) :
    ∀ {m : Manifest}, Climbs m.through m.sequence (es ++ rest) → (∀ e ∈ es, Proper e) →
      (es.map fun e => e.path.text).Nodup → (∀ e ∈ es, e.path.text ∉ m.members.keys) → ¬m.snapshot.isEmpty →
      ∃ n, addEntries db m es = .ok n ∧ Climbs n.through n.sequence rest := by
  induction es with
  | nil => exact fun h _ _ _ _ => ⟨_, rfl, h⟩
  | cons e es ih =>
    intro m hclimbs hproper hdistinct hfresh hsnapshot
    obtain ⟨n, hn, hlt, hle, hrest⟩ := hclimbs
    have he := hproper e List.mem_cons_self
    have hkey := hfresh e List.mem_cons_self
    obtain ⟨hhead, htail⟩ := List.nodup_cons.mp hdistinct
    have hadd : ∃ m', addEntry db m e = .ok m' ∧ m'.through = m.through ∧ m'.sequence = n ∧
        m'.members = m.members.insert e.path.text (digest (utf8 e.json)) ∧ m'.snapshot = m.snapshot := by
      rw [addEntry, hn]
      dsimp only
      rw [if_neg (by simp [he.valid, he.plain]; omega), if_neg hsnapshot, if_neg (by simp [he.base, hkey])]
      exact ⟨_, rfl, rfl, rfl, rfl, rfl⟩
    obtain ⟨m', hadd, hthrough, hsequence, hmembers, hsame⟩ := hadd
    rw [addEntries, hadd]
    refine ih (by rw [hthrough, hsequence]; exact hrest) (fun e' he' => hproper e' (List.mem_cons_of_mem e he')) htail
      ?_ (by rw [hsame]; exact hsnapshot)
    intro e' he' hmem
    rw [hmembers, Table.mem_keys_iff] at hmem
    obtain ⟨v, hv⟩ := hmem
    rw [Table.find?_insert] at hv
    split at hv
    · rename_i hpath
      exact hhead (List.mem_map.mpr ⟨e', he', hpath⟩)
    · exact hfresh e' (List.mem_cons_of_mem e he') ((Table.mem_keys_iff _ _).mpr ⟨v, hv⟩)

/-- A manifest that has read the first entries of an announcement. -/
structure Partway (a : Announcement) (m : Manifest) (start : Nat) : Prop where
  read : Read m (a.outgoing.take start)
  climbs : Climbs m.through m.sequence (a.outgoing.drop start)
  continued : continues m (a.header start)

omit [StoreLayout] in
theorem Partway.snapshot {m : Manifest} {start : Nat} (h : Partway a m start) : m.snapshot = a.snapshot :=
  (continues_iff.mp h.continued).2.2.2.2.2.2.2

omit [StoreLayout] in
theorem not_isEmpty_of_valid {s : Snapshot} (h : validSnapshot s) : ¬s.isEmpty := by
  intro hempty
  rw [of_decide_eq_true hempty] at h
  exact absurd h (by decide)

/-- The first page starts the manifest. -/
theorem partway_started (h : Announceable a w) : Partway a (started (a.header 0)) 0 := by
  have hrange := h.range
  refine ⟨?_, ?_, continues_started rfl⟩
  · rw [List.take_zero]
    refine read_started _ ?_
    simp only [Announcement.header]
    omega
  · simp only [started, Announcement.header, List.drop_zero]
    rw [Int.toNat_of_nonneg hrange.1, Int.toNat_of_nonneg (Int.le_trans hrange.1 hrange.2.1)]
    exact h.climbs

/-- Every page continues the manifest, and the last one completes it. -/
theorem Partway.next {m : Manifest} {start : Nat} (h : Announceable a w) (hm : Partway a m start) :
    ∃ m' n, addEntries w.db m (a.page start) = .ok m' ∧ counted m' (a.page start).length = .ok n ∧
      n.id = a.id ∧ n.snapshot = a.snapshot ∧ n.next = start + (a.page start).length ∧
      n.complete = decide (start + (a.page start).length = a.outgoing.length) ∧
      (start + (a.page start).length ≠ a.outgoing.length → Partway a n (start + (a.page start).length)) := by
  obtain ⟨hopen, hid, hreplica, hnext, htotal, hafter, hthrough, hsnapshot⟩ := continues_iff.mp hm.continued
  have hsubset : ∀ e ∈ a.page start, e ∈ a.outgoing.drop start := fun e he => (a.page_front start).subset he
  have hwhole : ¬m.snapshot.isEmpty := by
    rw [hm.snapshot]
    exact not_isEmpty_of_valid h.snapshot
  have hsplit : (a.outgoing.take start ++ a.outgoing.drop start).map (fun e => e.path.text) =
      a.outgoing.map fun e => e.path.text := by rw [List.take_append_drop]
  have hdistinct := h.distinct
  rw [← hsplit, List.map_append, List.nodup_append] at hdistinct
  obtain ⟨m', hadd, hclimbs⟩ := addEntries_climbs w.db (a.outgoing.drop (start + (a.page start).length)) (a.page start)
    (m := m) (by rw [← a.drop_page start]; exact hm.climbs)
    (fun e he => h.proper e (List.mem_of_mem_drop (hsubset e he)))
    (hdistinct.2.1.sublist ((a.page_front start).sublist.map _))
    (by
      intro e he hmem
      rw [Table.keys, hm.read.members, if_neg hwhole, List.map_map] at hmem
      obtain ⟨e', he', hpath⟩ := List.mem_map.mp hmem
      exact hdistinct.2.2 _ (List.mem_map_of_mem he') _ (List.mem_map_of_mem (hsubset e he)) hpath)
    hwhole
  obtain ⟨hread, hsame⟩ := read_addEntries hm.read hadd
  rw [a.take_reached start] at hread
  have hreached : m'.next + (a.page start).length = start + (a.page start).length := by
    rw [hsame.next, hnext]
    rfl
  have htotal' : m'.total = a.outgoing.length := hsame.total.trans htotal
  have hid' : m'.id = a.id := hsame.id.trans hid
  have hsnapshot' : m'.snapshot = a.snapshot := hsame.snapshot.trans hm.snapshot
  refine ⟨m', ?_⟩
  by_cases hlast : start + (a.page start).length = a.outgoing.length
  · refine ⟨{ m' with next := m'.next + (a.page start).length, complete := true }, hadd, ?_, hid', hsnapshot', hreached,
      (decide_eq_true hlast).symm, fun hmore => absurd hlast hmore⟩
    have hsent : sha256 m'.sent = m'.id := by
      rw [hread.sent, hlast, List.take_length, hid']
      rfl
    simp only [counted]
    rw [if_pos (by rw [hreached, htotal', hlast]), if_neg (not_not.mpr hsent)]
  · refine ⟨{ m' with next := m'.next + (a.page start).length }, hadd, ?_, hid', hsnapshot', hreached, ?_, fun _ => ?_⟩
    · simp only [counted]
      rw [if_neg (by rw [hreached, htotal']; exact hlast)]
    · rw [decide_eq_false hlast]
      exact hsame.complete.trans hopen
    · refine ⟨⟨hread.sent, hread.ordered, hread.after, hread.through, hread.members, hread.counted⟩, hclimbs,
        continues_iff.mpr ⟨hsame.complete.trans hopen, hid', hsame.replica.trans hreplica, hreached, htotal',
          hsame.after.trans hafter, hsame.through.trans hthrough, hsnapshot'⟩⟩

/-! ## Sending the pages -/

theorem pageHeader_request (h : Announceable a w) {start : Nat} (hstart : start ≤ a.outgoing.length)
    (hopen : start < a.outgoing.length ∨ a.outgoing.length = 0) :
    pageHeader w (a.request start) = some (a.header start) := by
  have hrange := h.range
  have hcount := h.count
  have hmax : (250000 : Nat) ≤ maxCounter := by decide
  have hlength := a.page_length start
  have hreached := a.page_reached hstart
  have hempty : ¬(a.page start = [] ∧ a.outgoing.length ≠ 0) := by
    rintro ⟨hnil, hne⟩
    rcases hopen with hlt | hzero
    · exact Announcement.page_ne_nil h.proper hlt hnil
    · exact hne hzero
  have hid : hex a.id := hex_sha256 _
  have hoffset : number (a.request start).offset = some start := number_decimal (by omega)
  have htotal : number (a.request start).total = some a.outgoing.length := number_decimal (by omega)
  have hafter : number (a.request start).after = some a.pushed.toNat := number_decimalInt (by omega)
  have hthrough : number (a.request start).through = some a.through.toNat := number_decimalInt (by omega)
  rw [pageHeader, hoffset, htotal, hafter, hthrough]
  dsimp only
  rw [if_neg]
  · rfl
  · simp only [Announcement.request, Value.text_string, Option.getD_some, hid, h.replica.1, h.replica.2, hempty,
      not_true_eq_false, reduceCtorEq, or_false, false_or]
    omega

theorem readPage_next {sender : Text} {m : Manifest} {start : Nat} (h : Announceable a w)
    (hstored : w.manifests.find? sender = some m) (hm : Partway a m start) :
    ∃ n, readPage sender (a.header start) (a.page start) w =
        .ok (acknowledgement n) { w with manifests := w.manifests.insert sender n } ∧
      n.id = a.id ∧ n.snapshot = a.snapshot ∧ n.next = start + (a.page start).length ∧
      n.complete = decide (start + (a.page start).length = a.outgoing.length) ∧
      (start + (a.page start).length ≠ a.outgoing.length → Partway a n (start + (a.page start).length)) := by
  obtain ⟨m', n, hadd, hcount, hn⟩ := hm.next h
  refine ⟨n, ?_, hn⟩
  rw [readPage, bind_of_ok (get_apply w), hstored]
  dsimp only
  rw [if_neg (not_not.mpr hm.continued), hadd]
  dsimp only
  rw [hcount]
  rfl

/-- A page is answered with the number of entries read so far. -/
theorem handle_request {sender : Text} {start : Nat} (h : Announceable a w) (hhost : isMirror w = false)
    (hfaults : w.volume.faults = []) (hsender : sender ≠ [] ∧ utf16Size sender ≤ 256)
    (hstart : start ≤ a.outgoing.length) (hopen : start < a.outgoing.length ∨ a.outgoing.length = 0)
    (hstored : start = 0 ∧ (sender ∈ w.manifests.keys ∨ w.manifests.keys.length < 32) ∨
      start ≠ 0 ∧ ∃ m, w.manifests.find? sender = some m ∧ Partway a m start) :
    ∃ n manifests, handle sender (a.request start) true w = .ok (.manifest (acknowledgement n)) { w with manifests } ∧
      manifests.find? sender = some n ∧ n.id = a.id ∧ n.snapshot = a.snapshot ∧
      n.next = start + (a.page start).length ∧
      n.complete = decide (start + (a.page start).length = a.outgoing.length) ∧
      (start + (a.page start).length ≠ a.outgoing.length → Partway a n (start + (a.page start).length)) := by
  have hsize := utf8Size_request_le h hstart
  have hready := ready_of_nil hfaults
  obtain ⟨manifests, m, hbegin, hfound, hm⟩ : ∃ manifests m, startManifest sender (a.header start) w =
      .ok () { w with manifests } ∧ manifests.find? sender = some m ∧ Partway a m start := by
    rw [startManifest]
    rcases hstored with ⟨rfl, hcapacity⟩ | ⟨hne, m, hfound, hm⟩
    · refine ⟨w.manifests.insert sender (started (a.header 0)), started (a.header 0), ?_,
        Table.find?_insert_self _ _ _, partway_started h⟩
      rw [if_pos (show (a.header 0).offset = 0 from rfl), bind_of_ok (get_apply w), if_neg fun hbase => hbase.2 h.base,
        if_neg]
      · rfl
      · rintro ⟨habsent, hfull⟩
        rcases hcapacity with hpresent | hroom
        · exact habsent hpresent
        · omega
    · refine ⟨w.manifests, m, ?_, hfound, hm⟩
      rw [if_neg (show (a.header start).offset ≠ 0 from hne)]
      rfl
  obtain ⟨n, hread, hn⟩ := @readPage_next _ a { w with manifests } sender m start { h with } hfound hm
  refine ⟨n, manifests.insert sender n, ?_, Table.find?_insert_self _ _ _, hn⟩
  have hpage : manifestPage sender (a.request start) w =
      .ok (acknowledgement n) { w with manifests := manifests.insert sender n } := by
    rw [manifestPage, bind_of_ok hready, bind_of_ok (get_apply w), if_neg, pageHeader_request h hstart hopen]
    · dsimp only
      rw [bind_of_ok hbegin]
      exact hread
    · rintro ⟨-, hinvalid | hmirror⟩
      · exact hinvalid h.snapshot
      · rw [hhost] at hmirror
        cases hmirror
  have haction : (a.request start).action = text "manifest" := rfl
  rw [handle, bind_of_ok (get_apply w), if_neg (by simp [hsender.1]; omega), if_neg (by simp [Announcement.request, h.container.1]),
    if_neg (by rw [haction]; decide), if_neg (by rw [haction]; decide), if_neg (by rw [haction]; decide), if_pos haction,
    bind_of_ok hpage]
  rfl

/-- One page: the walk is over with the last entry, or goes on after the page. -/
theorem announcePages_turn {sender : Text} {start : Nat} (h : Announceable a w) (hhost : isMirror w = false)
    (hfaults : w.volume.faults = []) (hsender : sender ≠ [] ∧ utf16Size sender ≤ 256)
    (hstart : start ≤ a.outgoing.length) (hopen : start < a.outgoing.length ∨ a.outgoing.length = 0)
    (hstored : start = 0 ∧ (sender ∈ w.manifests.keys ∨ w.manifests.keys.length < 32) ∨
      start ≠ 0 ∧ ∃ m, w.manifests.find? sender = some m ∧ Partway a m start) :
    (start + (a.page start).length = a.outgoing.length ∧ ∃ r v, r.complete = true ∧ r.snapshot = some a.snapshot ∧
        r.diff.isSome ∧ ∀ fuel, announcePages sender a (fuel + 1) start w = .ok r v) ∨
      start + (a.page start).length < a.outgoing.length ∧ start < start + (a.page start).length ∧ ∃ m manifests,
        manifests.find? sender = some m ∧ Partway a m (start + (a.page start).length) ∧
        ∀ fuel, announcePages sender a (fuel + 1) start w =
          announcePages sender a fuel (start + (a.page start).length) { w with manifests } := by
  obtain ⟨n, manifests, hanswer, hfound, hid, hsnapshot, hnext, hcomplete, hmore⟩ :=
    handle_request h hhost hfaults hsender hstart hopen hstored
  have hturn : ∀ fuel, announcePages sender a (fuel + 1) start w =
      (if ¬decide (start + (a.page start).length = a.outgoing.length) then
        announcePages sender a fuel (start + (a.page start).length)
      else if (acknowledgement n).snapshot ≠ some a.snapshot ∨ (acknowledgement n).diff.isNone then
        throw (text "invalid_snapshot_analysis")
      else pure (acknowledgement n)) { w with manifests } := by
    intro fuel
    rw [announcePages, bind_of_ok hanswer]
    dsimp only
    rw [if_neg (by simp [acknowledgement, hid, hnext, hcomplete])]
  by_cases hlast : start + (a.page start).length = a.outgoing.length
  · rw [decide_eq_true hlast] at hcomplete hturn
    have hwhole : n.complete ∧ ¬n.snapshot.isEmpty := by
      rw [hsnapshot]
      exact ⟨hcomplete, not_isEmpty_of_valid h.snapshot⟩
    have hanalysis : (acknowledgement n).snapshot = some a.snapshot ∧ (acknowledgement n).diff = some n.diff := by
      rw [acknowledgement, if_pos hwhole, if_pos hwhole, hsnapshot]
      exact ⟨rfl, rfl⟩
    refine Or.inl ⟨hlast, acknowledgement n, { w with manifests }, hcomplete, hanalysis.1, by rw [hanalysis.2]; rfl, fun fuel => ?_⟩
    rw [hturn, if_neg (by decide), if_neg (by simp [hanalysis])]
    rfl
  · have hreached := a.page_reached hstart
    have hlt : start < a.outgoing.length := by
      rcases hopen with hlt | hzero
      · exact hlt
      · omega
    have htaken := List.length_pos_iff.mpr (Announcement.page_ne_nil h.proper hlt)
    refine Or.inr ⟨by omega, by omega, n, manifests, hfound, hmore hlast, fun fuel => ?_⟩
    rw [hturn, decide_eq_false hlast, if_pos (by decide)]

/-- From any page on, the rest of the announcement is read to its end. -/
theorem announcePages_ok {sender : Text} (hsender : sender ≠ [] ∧ utf16Size sender ≤ 256) (left : Nat) :
    ∀ {w : World} {start : Nat}, Announceable a w → isMirror w = false → w.volume.faults = [] →
      start ≤ a.outgoing.length → (start < a.outgoing.length ∨ a.outgoing.length = 0) →
      a.outgoing.length - start ≤ left →
      (start = 0 ∧ (sender ∈ w.manifests.keys ∨ w.manifests.keys.length < 32) ∨
        start ≠ 0 ∧ ∃ m, w.manifests.find? sender = some m ∧ Partway a m start) →
      ∃ r v, r.complete = true ∧ r.snapshot = some a.snapshot ∧ r.diff.isSome ∧
        ∀ fuel, left < fuel → announcePages sender a fuel start w = .ok r v := by
  induction left with
  | zero =>
    intro w start h hhost hfaults hstart hopen hleft hstored
    rcases announcePages_turn h hhost hfaults hsender hstart hopen hstored with
      ⟨-, r, v, hcomplete, hsnapshot, hdiff, hwalk⟩ | ⟨hless, hmore, -⟩
    · refine ⟨r, v, hcomplete, hsnapshot, hdiff, fun fuel hfuel => ?_⟩
      obtain ⟨fuel, rfl⟩ := Nat.exists_eq_succ_of_ne_zero (Nat.ne_of_gt hfuel)
      exact hwalk fuel
    · omega
  | succ left ih =>
    intro w start h hhost hfaults hstart hopen hleft hstored
    rcases announcePages_turn h hhost hfaults hsender hstart hopen hstored with
      ⟨-, r, v, hcomplete, hsnapshot, hdiff, hwalk⟩ | ⟨hless, hmore, m, manifests, hfound, hm, hwalk⟩
    · refine ⟨r, v, hcomplete, hsnapshot, hdiff, fun fuel hfuel => ?_⟩
      obtain ⟨fuel, rfl⟩ := Nat.exists_eq_succ_of_ne_zero (Nat.ne_of_gt (Nat.zero_lt_of_lt hfuel))
      exact hwalk fuel
    · obtain ⟨r, v, hcomplete, hsnapshot, hdiff, hrest⟩ := @ih { w with manifests } _ { h with } hhost hfaults
        (Nat.le_of_lt hless) (Or.inl hless) (by omega) (Or.inr ⟨by omega, m, hfound, hm⟩)
      refine ⟨r, v, hcomplete, hsnapshot, hdiff, fun fuel hfuel => ?_⟩
      obtain ⟨fuel, rfl⟩ := Nat.exists_eq_succ_of_ne_zero (Nat.ne_of_gt (Nat.zero_lt_of_lt hfuel))
      exact (hwalk fuel).trans (hrest fuel (by omega))

/-! ## The agreement -/

/-- What a mirror's journal says about itself is what its host's journal says there. -/
theorem snapshotOf_known {peer session : Text} {p : Parties} {captured : Nat} (hhost : Authority p.host)
    (hmirror : Follows peer p) (hsession : uuid session) (hcaptured : 0 < captured ∧ captured ≤ maxCounter) :
    validSnapshot (snapshotOf p.mirror session captured) ∧
      baseKnown p.host.db (snapshotOf p.mirror session captured) ∧
      utf8Size (snapshotOf p.mirror session captured).json ≤ 1000 := by
  have hchain : (journal p.mirror).Chain p.mirror.db.revisions.rows := by
    rw [hmirror.journal]
    exact Linked.of_front hhost.chain hmirror.rows
  have hlength := hchain.length_le
  have hmax : maxCounter < 2 ^ 63 := by decide
  have hsequence : ((journal p.mirror).state p.mirror.db).sequence = decimal p.mirror.db.revisions.rows.length := by
    rw [NamespaceJournal.state, hchain.headSequence_eq, decimalInt_natCast]
  have hnumber := number_decimal hlength
  have hcapturedNumber := number_decimal hcaptured.2
  refine ⟨?_, ?_, ?_⟩
  · simp only [validSnapshot, snapshotOf, hsequence, hnumber, hcapturedNumber, Value.text_string, hsession, Bool.and_eq_true]
    refine ⟨⟨⟨⟨⟨rfl, trivial⟩, by simp; omega⟩, ?_⟩, rfl⟩, rfl⟩
    split
    · rename_i hne
      rcases NamespaceJournal.hex_headRevision hchain with hnil | hhex
      · have hlast : p.mirror.db.revisions.rows.getLast? ≠ none := by
          rw [Ne, List.getLast?_eq_none_iff]
          rintro hrows
          rw [hrows] at hne
          exact hne rfl
        obtain ⟨r, hr⟩ := Option.ne_none_iff_exists'.mp hlast
        rw [NamespaceJournal.headRevision, hr] at hnil
        exact absurd hnil (ne_nil_of_hex (NamespaceJournal.hex_of_mem hchain (List.mem_of_getLast? hr)))
      · exact hhex
    · rename_i heq
      have hrows := List.length_eq_zero_iff.mp (not_not.mp heq)
      rw [NamespaceJournal.state, hrows]
      rfl
  · rw [baseKnown, Bool.or_eq_true, snapshotOf]
    dsimp only
    rw [hsequence, Value.text_string, toLongLong_decimal (by omega), Option.getD_some]
    rcases Option.eq_none_or_eq_some p.mirror.db.revisions.rows.getLast? with hnone | ⟨r, hr⟩
    · rw [List.getLast?_eq_none_iff.mp hnone]
      exact Or.inl rfl
    · right
      have hmem := hmirror.rows.subset (List.mem_of_getLast? hr)
      have hhead : ((journal p.mirror).state p.mirror.db).head = r.revision := by
        rw [NamespaceJournal.state, NamespaceJournal.headRevision, hr]
        rfl
      have hlength : r.sequence = p.mirror.db.revisions.rows.length := by
        rw [← hchain.headSequence_eq, NamespaceJournal.headSequence, hr]
        rfl
      obtain ⟨_, _, _, hext⟩ := Linked.exists_of_mem hhost.chain hmem
      rw [hhead, Value.text_string, NamespaceJournal.revision, Revisions.find_of_mem hmem, Option.any_some, decide_eq_true_eq,
        (hhost.authored r hmem).sequence, hext.stored, hlength, decimalInt_natCast]
  · have hplain := uuid_plain hsession
    have h1 := utf8Size_quote_le hplain.1 hplain.2
    have h2 := utf8Size_quote_hex (NamespaceJournal.hex_headRevision hchain)
    have h3 := utf8Size_quote_decimal hlength
    have h4 := utf8Size_quote_decimal hcaptured.2
    have hkeys : utf8Size (Json.quote (text "baseRevision")) ≤ 14 ∧ utf8Size (Json.quote (text "baseSequence")) ≤ 14 ∧
        utf8Size (Json.quote (text "capturedAt")) ≤ 14 ∧ utf8Size (Json.quote (text "id")) ≤ 14 := by decide
    have hschema : ((Json.field (text "schema") (.other (text "1"))).map Json.memberSize).sum ≤ 20 := by decide
    rw [Snapshot.json, Json.utf8Size_object, Snapshot.members, snapshotOf]
    dsimp only
    rw [hsequence]
    simp only [NamespaceJournal.state, List.map_append, List.sum_append, Json.memberSize_field_string, List.flatMap_nil,
      List.map_nil, List.sum_nil]
    omega

/-- The announcement of what a mirror has gathered. -/
def announcement (w : World) (session : Text) (captured : Nat) (pushed : Int) (gathered : List Entry × Int) : Announcement where
  outgoing := gathered.1
  pushed := pushed
  through := gathered.2
  snapshot := snapshotOf w session captured
  replica := w.id
  container := w.container

omit [StoreLayout] in
theorem follows_kept {peer : Text} {p : Parties} (hmirror : Follows peer p) {v : World}
    (hkept : MirrorKept p.mirror v) (hvolume : v.volume.faults = []) (hdb : v.db.faults = []) :
    Follows peer { p with mirror := v } := by
  have hhost : host v = host p.mirror := hkept.db.1 hostKey (by decide) (by decide)
  have hreplica := hkept.db.1 (text "hostReplica") (by decide) (by decide)
  refine ⟨hhost.trans hmirror.host, hmirror.peer, ?_, ?_, hvolume, hdb⟩
  · rw [← hmirror.journal, journal, journal, hhost, hkept.id, hkept.container, hreplica]
  · change v.db.revisions.rows <+: p.host.db.revisions.rows
    rw [hkept.db.2.1]
    exact hmirror.rows

omit [StoreLayout] in
theorem isMirror_of_follows {peer : Text} {p : Parties} (h : Follows peer p) : isMirror p.mirror := by
  rw [isMirror, h.host]
  exact decide_eq_true h.peer

/-- What was gathered is announced together with the snapshot of the mirror as it is then. -/
theorem announceable_gathered {peer session : Text} {p : Parties} {v : World} {paths : List Text} {pushed through : Int}
    {outgoing : List Entry} {captured : Nat} (hhost : Authority p.host) (hmirror : Follows peer p)
    (hkept : MirrorKept p.mirror v) (hvolume : v.volume.faults = []) (hdb : v.db.faults = [])
    (hreplica : uuid p.mirror.id ∧ p.mirror.id ≠ p.host.id) (hsession : uuid session)
    (hcaptured : 0 < captured ∧ captured ≤ maxCounter) (hcount : paths.length ≤ 250000)
    (hrange : 0 ≤ pushed ∧ pushed ≤ through ∧ through ≤ maxCounter)
    (hgathered : Gathered paths pushed through through v.db outgoing) :
    Announceable (announcement v session captured pushed (outgoing, through)) p.host := by
  have hfollows := follows_kept hmirror hkept hvolume hdb
  obtain ⟨hsnapshot, hbase, hfits⟩ := @snapshotOf_known _ peer session ⟨v, p.host⟩ captured hhost hfollows
    hsession hcaptured
  have hcontainer : v.container = p.host.container := congrArg NamespaceJournal.space hfollows.journal
  refine ⟨⟨hcontainer, ?_⟩, ?_, hrange, Nat.le_trans hgathered.length_le hcount, hgathered.climbs, hgathered.proper,
    hgathered.distinct, hsnapshot, hbase, hfits⟩
  · change uuid v.container
    rw [hcontainer]
    exact hhost.container
  · change uuid v.id ∧ v.id ≠ p.host.id
    rw [hkept.id]
    exact hreplica

/-- Whatever happens to the files and rows of a mirror between its pages, the list it gathers
is accepted by its host page by page, and the last page is answered with the announced snapshot
and an analysis of it. -/
theorem announce_agrees {peer sender session : Text} {p : Parties} {steps : Nat → List LocalStep} {paths : List Text}
    {pushed : Int} {captured : Nat} (hhost : Authority p.host) (hmirror : Follows peer p) (hrows : Rows p.mirror.db)
    (hpushed : 0 ≤ pushed ∧ pushed ≤ metaNumber p.mirror.db sequenceKey)
    (hsender : sender ≠ [] ∧ utf16Size sender ≤ 256) (hreplica : uuid p.mirror.id ∧ p.mirror.id ≠ p.host.id)
    (hsession : uuid session) (hcaptured : 0 < captured ∧ captured ≤ maxCounter)
    (hcapacity : sender ∈ p.host.manifests.keys ∨ p.host.manifests.keys.length < 32) (hcalm : Calm p.mirror steps)
    (hcount : paths.length ≤ 250000) (hpending : PendingWithin p.mirror steps paths pushed) :
    ∃ (bound : Nat) (gathered : List Entry × Int) (k : Nat) (a : Announcement),
      (∀ fuel, bound < fuel → announceLocal steps fuel pushed p.mirror = .ok gathered (edited steps p.mirror k)) ∧
      a = announcement (edited steps p.mirror k) session captured pushed gathered ∧
      (∀ start ≤ a.outgoing.length, utf8Size (a.request start).json ≤ 400000) ∧
      ∃ r v, r.complete = true ∧ r.snapshot = some a.snapshot ∧ r.diff.isSome ∧
        ∀ fuel, a.outgoing.length < fuel → announcePages sender a fuel 0 p.host = .ok r v := by
  have hmirrored := isMirror_of_follows hmirror
  have hlimit := hrows.limit
  -- Whatever was gathered, the host takes it.
  obtain ⟨bound, gathered, k, hwalk, hannounceable⟩ : ∃ (bound : Nat) (gathered : List Entry × Int) (k : Nat),
      (∀ fuel, bound < fuel → announceLocal steps fuel pushed p.mirror = .ok gathered (edited steps p.mirror k)) ∧
      Announceable (announcement (edited steps p.mirror k) session captured pushed gathered) p.host := by
    by_cases hbootstrap : bootstrapping p.mirror
    · refine ⟨0, ([], pushed), 0, fun fuel _ => ?_, ?_⟩
      · rw [announceLocal, bind_of_ok (get_apply p.mirror), if_pos hbootstrap]
        rfl
      · exact announceable_gathered hhost hmirror (mirrorKept_edited hmirrored steps 0) (hcalm 0).1 (hcalm 0).2 hreplica
          hsession hcaptured hcount ⟨hpushed.1, Int.le_refl _, by omega⟩ (gathered_nil paths pushed pushed _)
    · obtain ⟨outgoing, k, hgathered, hwalk⟩ := collect_ok hmirrored hrows hpushed.1 hcount hcalm hpending
        (metaNumber p.mirror.db sequenceKey - pushed).toNat 0 pushed 0 [] (Nat.le_refl _) (Int.le_refl _) hpushed.2
        (Or.inr ⟨rfl, rfl⟩) (gathered_nil paths pushed _ _)
      refine ⟨(metaNumber p.mirror.db sequenceKey - pushed).toNat, (outgoing, metaNumber p.mirror.db sequenceKey), k, fun fuel hfuel => ?_, ?_⟩
      · rw [announceLocal, bind_of_ok (get_apply p.mirror), if_neg hbootstrap]
        exact hwalk fuel hfuel
      · exact announceable_gathered hhost hmirror (mirrorKept_edited hmirrored steps k) (hcalm k).1 (hcalm k).2 hreplica
          hsession hcaptured hcount ⟨hpushed.1, hpushed.2, hlimit.2⟩ hgathered
  refine ⟨bound, gathered, k, _, hwalk, rfl, fun start hstart => utf8Size_request_le hannounceable hstart, ?_⟩
  exact announcePages_ok hsender _ hannounceable hhost.host hhost.volumeFaults (Nat.zero_le _)
    (Nat.eq_zero_or_pos _).symm (Nat.le_refl _) (Or.inl ⟨rfl, hcapacity⟩)

end Host

/-! ### A mirror with one proposal -/

def oldRow : EntryRow := ⟨absence "files/old", .absent, 1⟩

/-- The mirror of the new pair once a file of its own is gone again. -/
def proposingMirror : World :=
  { newMirror with db := { newMirror.db with
      metadata := (newMirror.db.metadata.insert (text "bootstrapComplete") (text "1")).insert sequenceKey (text "1")
      entries := Table.empty.insert (text "files/old") oldRow } }

theorem find_proposingMirror {path : Text} {row : EntryRow} (h : proposingMirror.db.entries.find? path = some row) :
    path = text "files/old" ∧ row = oldRow := by
  change (Table.empty.insert (text "files/old") oldRow).find? path = some row at h
  rw [Table.find?_insert] at h
  split at h
  · rename_i hpath
    cases h
    exact ⟨hpath, rfl⟩
  · cases h

theorem sequence_proposingMirror : metaNumber proposingMirror.db sequenceKey = 1 := by decide +kernel

theorem rows_proposingMirror : Rows proposingMirror.db where
  keyed h := by
    obtain ⟨rfl, rfl⟩ := find_proposingMirror h
    rfl
  distinct h h' _ := by rw [(find_proposingMirror h).1, (find_proposingMirror h').1]
  bounds h := by
    obtain ⟨-, rfl⟩ := find_proposingMirror h
    rw [sequence_proposingMirror]
    decide
  plain h _ := by
    obtain ⟨-, rfl⟩ := find_proposingMirror h
    rfl
  limit := by
    rw [sequence_proposingMirror]
    decide

theorem edited_nothing (w : World) (k : Nat) : @edited plainLayout (fun _ => []) w k = w := by
  induction k with
  | zero => rfl
  | succ k ih => exact ih

theorem announce_agrees_proposing :
    ∃ (bound : Nat) (gathered : List Entry × Int) (k : Nat) (a : Announcement),
      (∀ fuel, bound < fuel → @announceLocal plainLayout (fun _ => []) fuel 0 proposingMirror =
        .ok gathered (@edited plainLayout (fun _ => []) proposingMirror k)) ∧
      a = announcement (@edited plainLayout (fun _ => []) proposingMirror k) newAuthority.id 1 0 gathered ∧
      (∀ start ≤ a.outgoing.length, utf8Size (a.request start).json ≤ 400000) ∧
      ∃ r v, r.complete = true ∧ r.snapshot = some a.snapshot ∧ r.diff.isSome ∧
        ∀ fuel, a.outgoing.length < fuel → @announcePages plainLayout (text "tablet") a fuel 0 newAuthority = .ok r v := by
  refine @announce_agrees plainLayout (text "desk") (text "tablet") newAuthority.id ⟨proposingMirror, newAuthority⟩
    (fun _ => []) [text "files/old"] 0 1 authority_new ?_ rows_proposingMirror ⟨by decide, ?_⟩ ⟨by decide, by decide⟩
    ⟨by decide, by decide⟩ (by decide) ⟨by decide, by decide⟩ (Or.inr (by decide)) ?_ (by decide) ?_
  · exact { host := by decide +kernel, peer := by decide, journal := by decide +kernel, rows := List.prefix_rfl
            volumeFaults := rfl, databaseFaults := rfl }
  · rw [sequence_proposingMirror]
    decide
  · intro k
    rw [edited_nothing]
    exact ⟨rfl, rfl⟩
  · intro k path row hrow _ _ _
    rw [edited_nothing] at hrow
    obtain ⟨rfl, rfl⟩ := find_proposingMirror hrow
    exact ⟨List.mem_singleton_self _, by decide +kernel⟩

end Replica

end SocietyHelper.Sync
