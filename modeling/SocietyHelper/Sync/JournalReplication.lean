import SocietyHelper.Sync.NamespaceChain
import SocietyHelper.Sync.Sizes
import SocietyHelper.Sync.Requests

/-! # Replicating the journal

A mirror asks for the revisions after its own, page by page, while its host may
go on deciding. The pages of the host and the checks of the mirror agree, so the
walk ends with exactly the revisions that it set out for.
-/

namespace SocietyHelper.Sync

open Library Effect Database

/-! ## Revisions as an authority writes them -/

/-- What `commit` writes beside the chain: the proposal is the version of a record or
empty, the sequence is a plain numeral, and there are no other members. -/
structure Authored (r : Revision) : Prop where
  proposal : ∃ p, r.proposal = .string p ∧ (p = [] ∨ hex p)
  sequence : r.sequence = .string (decimalInt (counter r.sequence))
  extra : r.extra = []

namespace NamespaceJournal

variable [StoreLayout] {j : NamespaceJournal}

theorem hex_of_mem {rows : List JournalRow} (h : j.Chain rows) {r : JournalRow} (hr : r ∈ rows) : hex r.revision := by
  obtain ⟨_, _, _, hext⟩ := Linked.exists_of_mem h hr
  rw [hext.identity]
  exact hex_sha256 _

theorem hex_headRevision {rows : List JournalRow} (h : j.Chain rows) :
    headRevision rows = [] ∨ hex (headRevision rows) := by
  rw [headRevision]
  cases hlast : rows.getLast? with
  | none => exact Or.inl rfl
  | some r => exact Or.inr (hex_of_mem h (List.mem_of_getLast? hlast))

/-- A stored revision is far smaller than a page. -/
theorem utf8Size_row_le {earlier : List JournalRow} {row : JournalRow} (h : j.Chain earlier)
    (hext : j.Extends earlier row) (hauthored : Authored row.data) (hspace : uuid j.space)
    (hauthority : uuid j.authority) : utf8Size row.data.json ≤ 20000 := by
  obtain ⟨p, hproposal, hp⟩ := hauthored.proposal
  obtain ⟨ps, hparents, hlength, hstored, -⟩ := hext.parents
  have hrow : hex row.revision := by
    rw [hext.identity]
    exact hex_sha256 _
  have hsequence : counter row.data.sequence = (earlier.length + 1 : Nat) := by
    rw [hext.stored, hext.sequence]
    rfl
  have hbound : earlier.length + 1 ≤ maxCounter := by
    have := (counter_le row.data.sequence).2
    omega
  have hparent : ∀ t ∈ ps.map Json.value, utf8Size t ≤ 66 := by
    intro t ht
    obtain ⟨v, hv, rfl⟩ := List.mem_map.mp ht
    obtain ⟨r, hr, rfl⟩ := hstored v hv
    exact utf8Size_quote_hex (Or.inr (hex_of_mem h hr))
  have harray := Json.utf8Size_array_le_of_forall hparent
  rw [List.length_map] at harray
  have hrecord := (validRecord_iff.mp hext.record).fits
  rw [Revision.json, Json.utf8Size_object, Revision.members, hext.space, hext.authority, hext.name, hext.previous,
    hproposal, hauthored.sequence, hauthored.extra, hparents, hsequence]
  simp only [List.map_append, List.sum_append, Json.memberSize_field_string, Revision.parentField, List.map_cons,
    List.map_nil, List.sum_cons, List.sum_nil, Json.memberSize, List.flatMap_nil]
  have hspacePlain := uuid_plain hspace
  have hauthorityPlain := uuid_plain hauthority
  have h1 := utf8Size_quote_le hspacePlain.1 hspacePlain.2
  have h2 := utf8Size_quote_le hauthorityPlain.1 hauthorityPlain.2
  have h3 := utf8Size_quote_hex (hex_headRevision h)
  have h4 := utf8Size_quote_hex hp
  have h5 := utf8Size_quote_hex (Or.inr hrow)
  have h6 := utf8Size_quote_decimal hbound
  have hkeys : utf8Size (Json.quote (text "authority")) ≤ 11 ∧ utf8Size (Json.quote (text "namespace")) ≤ 11 ∧
      utf8Size (Json.quote (text "object")) ≤ 11 ∧ utf8Size (Json.quote (text "parents")) ≤ 11 ∧
      utf8Size (Json.quote (text "previous")) ≤ 11 ∧ utf8Size (Json.quote (text "proposal")) ≤ 11 ∧
      utf8Size (Json.quote (text "revision")) ≤ 11 ∧ utf8Size (Json.quote (text "sequence")) ≤ 11 := by decide
  rw [decimalInt_natCast]
  omega

/-! ## A page of the history -/

theorem sequence_getElem {rows : List JournalRow} (h : j.Chain rows) {k : Nat} (hk : k < rows.length) :
    rows[k].sequence = k + 1 := by
  have hsequence := (Linked.getElem h hk).sequence
  rwa [List.length_take, Nat.min_eq_left (Nat.le_of_lt hk)] at hsequence

theorem filter_between {rows : List JournalRow} (h : j.Chain rows) {m t : Nat} (hm : m ≤ t) (ht : t ≤ rows.length) :
    rows.filter (fun r : JournalRow => (m : Int) < r.sequence ∧ r.sequence ≤ t) = (rows.take t).drop m := by
  have hsplit : rows = rows.take m ++ ((rows.take t).drop m ++ rows.drop t) := by
    have htake : rows.take m = (rows.take t).take m := by rw [List.take_take, Nat.min_eq_left hm]
    rw [← List.append_assoc, htake, List.take_append_drop, List.take_append_drop]
  have hbelow : (rows.take m).filter (fun r : JournalRow => (m : Int) < r.sequence ∧ r.sequence ≤ t) = [] := by
    refine List.filter_eq_nil_iff.mpr fun r hr => ?_
    obtain ⟨k, hk, rfl⟩ := List.mem_take_iff_getElem.mp hr
    rw [sequence_getElem h (by omega)]
    simp only [decide_eq_true_eq]
    omega
  have hinside : ((rows.take t).drop m).filter (fun r : JournalRow => (m : Int) < r.sequence ∧ r.sequence ≤ t) =
      (rows.take t).drop m := by
    refine List.filter_eq_self.mpr fun r hr => ?_
    obtain ⟨k, hk, rfl⟩ := List.mem_drop_iff_getElem.mp hr
    rw [List.length_take] at hk
    rw [List.getElem_take, sequence_getElem h (by omega)]
    simp only [decide_eq_true_eq]
    omega
  have habove : (rows.drop t).filter (fun r : JournalRow => (m : Int) < r.sequence ∧ r.sequence ≤ t) = [] := by
    refine List.filter_eq_nil_iff.mpr fun r hr => ?_
    obtain ⟨k, hk, rfl⟩ := List.mem_drop_iff_getElem.mp hr
    rw [sequence_getElem h (by omega)]
    simp only [decide_eq_true_eq]
    omega
  conv_lhs => rw [hsplit]
  rw [List.filter_append, List.filter_append, hbelow, hinside, habove, List.nil_append, List.append_nil]

/-- The page that a journal of `t` revisions gives after the first `m`: the next `n` of them. -/
def historyPage (j : NamespaceJournal) (rows : List JournalRow) (m n t : Nat) : Page Revision where
  ok := .bool true
  space := .string j.space
  authority := .string j.authority
  entries := some (((rows.drop m).take n).map JournalRow.data)
  through := .string (decimal t)
  next := .string (decimal (m + n))
  more := .bool (m + n < t)

theorem sequence_getLast? {rows : List JournalRow} (h : j.Chain rows) {m n : Nat} (hn : m + n ≤ rows.length) :
    ((((rows.drop m).take n).getLast?.map JournalRow.sequence).getD m : Int) = (m + n : Nat) := by
  rcases Nat.eq_zero_or_pos n with rfl | hpos
  · simp
  · have hlength : ((rows.drop m).take n).length = n := by
      rw [List.length_take, List.length_drop]
      omega
    have hlast : ((rows.drop m).take n).getLast? = some rows[m + (n - 1)] := by
      rw [List.getLast?_eq_getElem?, hlength, List.getElem?_take_of_lt (by omega), List.getElem?_drop,
        List.getElem?_eq_getElem (by omega)]
    rw [hlast, Option.map_some, Option.getD_some, sequence_getElem h (by omega)]
    omega

theorem history_eq {db : Database} (h : j.Chain db.revisions.rows)
    (hauthored : ∀ r ∈ db.revisions.rows, Authored r.data) (hspace : uuid j.space) (hauthority : uuid j.authority)
    {m t : Nat} (hm : m ≤ t) (ht : t ≤ db.revisions.rows.length) (through : Int)
    (hthrough : (through = t ∧ 0 < t) ∨ (through = 0 ∧ t = db.revisions.rows.length)) :
    ∃ n, m + n ≤ t ∧ (m < t → 0 < n) ∧ n ≤ 128 ∧
      ((((db.revisions.rows.drop m).take n).map JournalRow.data).map fun r => utf8Size r.json).sum ≤ 256 * 1024 ∧
      j.history db m through = .ok (historyPage j db.revisions.rows m n t) := by
  have hend : (if through = 0 then headSequence db.revisions.rows else through) = t := by
    rw [h.headSequence_eq]
    split <;> omega
  have hselect : select db.revisions.rows m t true = ((db.revisions.rows.take t).drop m).take 128 := by
    rw [select, ← filter_between h hm ht]
    simp
  have htaken := Paging.within_front (fun r : JournalRow => utf8Size r.data.json) (256 * 1024)
    (select db.revisions.rows m t true)
  have hsum := Paging.within_sum_le (fun r : JournalRow => utf8Size r.data.json) (256 * 1024)
    (select db.revisions.rows m t true)
  have hall := Paging.within_of_false (fun r : JournalRow => utf8Size r.data.json) (256 * 1024)
    (l := select db.revisions.rows m t true)
  have hsome := Paging.within_of_true (fun r : JournalRow => utf8Size r.data.json) (256 * 1024)
    (l := select db.revisions.rows m t true)
  have hfirst : m < t → (Paging.within (fun r : JournalRow => utf8Size r.data.json) (256 * 1024)
      (select db.revisions.rows m t true)).1 ≠ [] := by
    intro hlt
    have hk : m < db.revisions.rows.length := by omega
    have hcons : select db.revisions.rows m t true =
        db.revisions.rows[m] :: (((db.revisions.rows.take t).drop m).take 128).tail := by
      rw [hselect, List.drop_eq_getElem_cons (by rw [List.length_take]; omega)]
      simp
    rw [hcons]
    refine Paging.within_ne_nil _ (Nat.le_trans (utf8Size_row_le (h.of_front (List.take_prefix m _))
      (Linked.getElem h hk) (hauthored _ (List.getElem_mem hk)) hspace hauthority) (by decide))
  have hlength : (select db.revisions.rows m t true).length = min 128 (t - m) := by
    rw [hselect, List.length_take, List.length_drop, List.length_take]
    omega
  rw [history, changes]
  simp only [hend]
  generalize Paging.within (fun r : JournalRow => utf8Size r.data.json) (256 * 1024)
    (select db.revisions.rows m t true) = taken at htaken hsum hall hsome hfirst ⊢
  obtain ⟨cut, limited⟩ := taken
  simp only at htaken hsum hall hsome hfirst
  have hfront : cut <+: db.revisions.rows.drop m := by
    refine htaken.trans ?_
    rw [hselect, List.drop_take]
    exact (List.take_prefix _ _).trans (List.take_prefix _ _)
  have hcut : cut = (db.revisions.rows.drop m).take cut.length := List.prefix_iff_eq_take.mp hfront
  have hle := htaken.length_le
  rw [hlength] at hle
  have hmore : (limited || (decide (cut.length = 128) && decide (((m + cut.length : Nat) : Int) < t))) =
      decide (m + cut.length < t) := by
    cases limited with
    | true =>
      have hlt := hsome rfl
      rw [hlength] at hlt
      have hopen : m + cut.length < t := by omega
      simp [hopen]
    | false =>
      have hfull : cut.length = min 128 (t - m) := by rw [← hlength, ← hall rfl]
      simp only [Bool.false_or]
      rw [Bool.eq_iff_iff, Bool.and_eq_true, decide_eq_true_eq, decide_eq_true_eq, decide_eq_true_eq]
      omega
  refine ⟨cut.length, by omega, ?_, by omega, ?_, ?_⟩
  · intro hlt
    exact List.length_pos_iff.mpr (hfirst hlt)
  · rw [← hcut, List.map_map]
    exact hsum
  · have hlast := sequence_getLast? h (m := m) (n := cut.length) (by omega)
    rw [← hcut] at hlast
    rw [if_neg (by rw [h.headSequence_eq]; omega), hlast, hmore, historyPage, ← hcut]
    have hnext : (if decide (m + cut.length < t) then ((m + cut.length : Nat) : Int) else t) = (m + cut.length : Nat) := by
      split
      · rfl
      · rename_i hclosed
        rw [decide_eq_true_eq] at hclosed
        omega
    rw [hnext]
    rfl

/-! ## Accepting a page -/

theorem revisionFits_of_extends {earlier : List JournalRow} {row : JournalRow} (hext : j.Extends earlier row) :
    j.revisionFits earlier.length (headRevision earlier) row.data := by
  obtain ⟨ps, hparents, hlength, -, -⟩ := hext.parents
  simp only [revisionFits, Bool.and_eq_true, decide_eq_true_eq]
  refine ⟨⟨⟨⟨⟨⟨⟨?_, hext.space⟩, hext.authority⟩, ?_⟩, hext.previous⟩, ?_⟩, ?_⟩, hext.record⟩
  · rw [hext.name]
    exact hext.identity
  · rw [hext.stored, hext.sequence]
  · rw [hparents]
    rfl
  · rw [hparents]
    exact hlength

omit [StoreLayout] in
theorem revision_isSome {db : Database} {r : JournalRow} (h : r ∈ db.revisions.rows) :
    (revision db r.revision).isSome := by
  rw [revision, Revisions.find, Option.isSome_map, List.find?_isSome]
  exact ⟨r, h, decide_eq_true rfl⟩

theorem parentsStored_of_extends {db : Database} {row : JournalRow} (h : j.Chain db.revisions.rows)
    (hext : j.Extends db.revisions.rows row) : parentsStored db row.data := by
  obtain ⟨ps, hparents, -, hstored, hlatest⟩ := hext.parents
  rw [parentsStored, hparents, Bool.and_eq_true, List.all_eq_true]
  constructor
  · cases hobject : object db row.data.object.path.text with
    | none => rfl
    | some old =>
      obtain ⟨r, -, hr, hrevision⟩ := h.mem_object hobject
      rw [← hext.path] at hr
      exact List.contains_iff_mem.mpr (hrevision ▸ hlatest r hr)
  · intro p hp
    obtain ⟨r, hr, rfl⟩ := hstored p hp
    simpa [Value.isString] using revision_isSome hr

theorem rowOf_of_extends {earlier : List JournalRow} {row : JournalRow} (hext : j.Extends earlier row) :
    rowOf (named row.data) = row := by
  have hnamed : named row.data = row.data := by
    rw [named, hext.name]
    simp only [Value.text_string]
    rw [← hext.name]
  rw [hnamed, rowOf, hext.stored, hext.name, ← hext.path]
  rfl

/-- The next rows of a chain are all accepted. -/
theorem acceptAll_rows (seg : List JournalRow) {d : Database} (h : j.Chain (d.revisions.rows ++ seg))
    (hids : (d.revisions.rows ++ seg).Pairwise fun a b => a.revision ≠ b.revision) (hfaults : d.faults = []) :
    ∃ t, j.acceptAll (seg.map JournalRow.data) d.revisions.rows.length (headRevision d.revisions.rows) d =
      .ok (d.revisions.rows.length + seg.length : Nat) { d with revisions := t } ∧
      t.rows = d.revisions.rows ++ seg := by
  induction seg generalizing d with
  | nil => exact ⟨d.revisions, rfl, (List.append_nil _).symm⟩
  | cons row seg ih =>
    have hchain : j.Chain d.revisions.rows := Linked.of_front h (List.prefix_append _ _)
    have hext : j.Extends d.revisions.rows row := h _ _ _ rfl
    have hrow := rowOf_of_extends hext
    have hfresh : d.revisions.fresh row := by
      refine Revisions.fresh_iff.mpr fun s hs => ⟨Int.ne_of_lt (below_of_extends hchain hext s hs), ?_⟩
      exact (List.pairwise_append.mp hids).2.2 s hs row List.mem_cons_self
    have hinsert := Revisions.insert_of_lt (below_of_extends hchain hext)
    rw [if_pos hfresh, Option.map_eq_some_iff] at hinsert
    obtain ⟨t, ht, hrows⟩ := hinsert
    have happend : append (named row.data) d = .ok () { d with revisions := t } := by
      rw [append, statement_eq_ok]
      refine ⟨by rw [hfaults]; rintro ⟨⟩, { d with revisions := t }, ?_, by rw [hfaults]; rfl⟩
      rw [hrow, ht]
      rfl
    have hnext : d.revisions.rows ++ row :: seg = t.rows ++ seg := by
      rw [hrows, List.append_assoc, List.singleton_append]
    rw [hnext] at h hids
    obtain ⟨u, hok, hu⟩ := ih (d := { d with revisions := t }) h hids hfaults
    refine ⟨u, ?_, by rw [hu, hnext]⟩
    rw [List.map_cons, acceptAll, if_neg (not_not.mpr (revisionFits_of_extends hext)), bind_of_ok (get_apply d),
      if_neg (not_not.mpr (parentsStored_of_extends hchain hext)), bind_of_ok happend]
    have hhead : headRevision t.rows = row.data.revision.text := by
      rw [hrows, headRevision, List.getLast?_concat, hext.name]
      rfl
    have hlength : t.rows.length = d.revisions.rows.length + 1 := by
      rw [hrows, List.length_append, List.length_singleton]
    rw [hhead, hlength] at hok
    have hsum : d.revisions.rows.length + (row :: seg).length = d.revisions.rows.length + 1 + seg.length := by
      rw [List.length_cons]
      omega
    rw [hsum]
    exact hok

omit [StoreLayout] in
theorem utf8Size_historyPage_le {rows : List JournalRow} {m n t : Nat} (hspace : uuid j.space)
    (hauthority : uuid j.authority) (hn : n ≤ 128) (hm : m + n ≤ t) (ht : t ≤ maxCounter)
    (hsum : ((((rows.drop m).take n).map JournalRow.data).map fun r => utf8Size r.json).sum ≤ 256 * 1024) :
    utf8Size ((historyPage j rows m n t).json Revision.json) ≤ 400000 := by
  have hlength : (((rows.drop m).take n).map JournalRow.data).length ≤ 128 := by
    rw [List.length_map, List.length_take]
    omega
  rw [Page.json, Json.utf8Size_object, Page.members, historyPage]
  simp only
  generalize ((rows.drop m).take n).map JournalRow.data = revisions at hlength hsum ⊢
  have harray := Json.utf8Size_array_le_sum (revisions.map Revision.json)
  rw [List.map_map, Function.comp_def, List.length_map] at harray
  have hspacePlain := uuid_plain hspace
  have hauthorityPlain := uuid_plain hauthority
  have h1 := utf8Size_quote_le hspacePlain.1 hspacePlain.2
  have h2 := utf8Size_quote_le hauthorityPlain.1 hauthorityPlain.2
  have h3 := utf8Size_quote_decimal (n := m + n) (by omega)
  have h4 := utf8Size_quote_decimal ht
  have hkeys : utf8Size (Json.quote (text "authority")) ≤ 11 ∧ utf8Size (Json.quote (text "namespace")) ≤ 11 ∧
      utf8Size (Json.quote (text "entries")) ≤ 11 ∧ utf8Size (Json.quote (text "more")) ≤ 11 ∧
      utf8Size (Json.quote (text "next")) ≤ 11 ∧ utf8Size (Json.quote (text "ok")) ≤ 11 ∧
      utf8Size (Json.quote (text "through")) ≤ 11 := by decide
  have hbool : ∀ b, ((Json.field (text "more") (.bool b)).map Json.memberSize).sum ≤ 20 ∧
      ((Json.field (text "ok") (.bool b)).map Json.memberSize).sum ≤ 20 := by decide
  have hmore := (hbool (m + n < t)).1
  have hok := (hbool true).2
  simp only [List.map_append, List.sum_append, Json.memberSize_field_string, Json.field_undefined, Page.entryField,
    List.map_cons, List.map_nil, List.sum_cons, List.sum_nil, List.flatMap_nil]
  rw [Json.memberSize]
  simp only
  omega

omit [StoreLayout] in
theorem pageFits_historyPage {rows : List JournalRow} {m n t : Nat} (hspace : uuid j.space)
    (hauthority : uuid j.authority) (hn : n ≤ 128) (hm : m + n ≤ t) (hpos : m < t → 0 < n) (ht : t ≤ maxCounter)
    (hsum : ((((rows.drop m).take n).map JournalRow.data).map fun r => utf8Size r.json).sum ≤ 256 * 1024) :
    j.pageFits m (historyPage j rows m n t) := by
  have hsize := utf8Size_historyPage_le hspace hauthority hn hm ht hsum
  have hnext : counter (historyPage j rows m n t).next = (m + n : Nat) := counter_decimal (by omega)
  have hthrough : counter (historyPage j rows m n t).through = t := counter_decimal ht
  simp only [pageFits, hnext, hthrough, Bool.and_eq_true, decide_eq_true_eq]
  refine ⟨⟨⟨⟨⟨⟨⟨⟨⟨rfl, rfl⟩, rfl⟩, Value.toBool_bool true⟩, Value.isBool_bool _⟩, by omega⟩, by omega⟩, ?_⟩, ?_⟩, hsize⟩
  · simp only [historyPage, Value.toBool_bool, decide_eq_true_eq]
    split
    · simp only [Bool.and_eq_true, decide_eq_true_eq]
      omega
    · rw [decide_eq_true_eq]
      omega
  · simp only [historyPage, Option.getD_some, List.length_map, List.length_take]
    omega

/-- A mirror whose rows are the first `m` of a chain accepts the page that follows them. -/
theorem accept_historyPage {rows : List JournalRow} (h : j.Chain rows)
    (hids : rows.Pairwise fun a b => a.revision ≠ b.revision) (hspace : uuid j.space) (hauthority : uuid j.authority)
    {m n t : Nat} (hn : n ≤ 128) (hm : m + n ≤ t) (hpos : m < t → 0 < n) (ht : t ≤ rows.length)
    (hsum : ((((rows.drop m).take n).map JournalRow.data).map fun r => utf8Size r.json).sum ≤ 256 * 1024)
    {db : Database} (hrows : db.revisions.rows = rows.take m) (hfaults : db.faults = []) :
    ∃ u, j.accept (historyPage j rows m n t) db = .ok () { db with revisions := u } ∧ u.rows = rows.take (m + n) := by
  have hlength : db.revisions.rows.length = m := by
    rw [hrows, List.length_take]
    omega
  have hchain : j.Chain db.revisions.rows := hrows ▸ Linked.of_front h (List.take_prefix m rows)
  have hjoin : db.revisions.rows ++ (rows.drop m).take n = rows.take (m + n) := by
    rw [hrows, List.take_add]
  have hcounter : counter (.string (j.state db).sequence) = m := by
    rw [state, hchain.counter_headSequence, hlength]
  obtain ⟨u, hok, hu⟩ := acceptAll_rows ((rows.drop m).take n) (d := db)
    (by rw [hjoin]; exact Linked.of_front h (List.take_prefix _ _))
    (by rw [hjoin]; exact hids.sublist (List.take_sublist _ _)) hfaults
  refine ⟨u, ?_, by rw [hu, hjoin]⟩
  rw [accept, bind_of_ok (get_apply db)]
  simp only [hcounter]
  rw [if_neg (not_not.mpr (pageFits_historyPage hspace hauthority hn hm hpos (Nat.le_trans ht h.length_le) hsum))]
  rw [hlength] at hok
  have hentries : ((historyPage j rows m n t).entries.getD []) = ((rows.drop m).take n).map JournalRow.data := rfl
  rw [hentries]
  have hreached : (m + ((rows.drop m).take n).length) = m + n := by
    rw [List.length_take, List.length_drop]
    omega
  have hhead : (j.state db).head = headRevision db.revisions.rows := rfl
  rw [hreached, ← hhead] at hok
  rw [bind_of_ok hok]
  have hnext : counter (historyPage j rows m n t).next = (m + n : Nat) :=
    counter_decimal (Nat.le_trans (Nat.le_trans hm ht) h.length_le)
  rw [if_neg (not_not.mpr hnext)]
  rfl

end NamespaceJournal

/-! ## The walk of a mirror over the journal of its host -/

structure Parties where
  mirror : World
  host : World

structure Decision where
  record : Entry
  proposal : Text
  base : Text

namespace Replica

variable [StoreLayout]

def onMirror {α : Type} (m : Effect World α) : Effect Parties α :=
  zoom Parties.mirror (fun p mirror => { p with mirror }) m

def onHost {α : Type} (m : Effect World α) : Effect Parties α :=
  zoom Parties.host (fun p host => { p with host }) m

/-- The decisions of an authority, one after the other. -/
def decideAll (decisions : List Decision) (w : World) : World :=
  decisions.foldl
    (fun w c => { w with db := final ((journal w).commit c.record c.proposal c.base w.db) }) w

/-- Ask for the revisions after the own ones and accept the answer. -/
def askJournal (peer : Text) (upper : Int) : Effect Parties (Page Revision) := do
  let p ← get
  let page ← onHost (journalRequest
    { action := text "journal", after := .string ((journal p.mirror).state p.mirror.db).sequence
      through := .string (decimalInt upper) })
  if upper ≠ 0 ∧ page.through.text ≠ decimalInt upper then throw (text "invalid_namespace_page")
  else
    onMirror (acceptJournal peer page)
    pure page

/-- Ask until no more revisions follow. Before the request with number `k` the host makes the
decisions `decisions k`. The answer is the sequence that was asked for. -/
def pullJournal (peer : Text) (decisions : Nat → List Decision) : Nat → Nat → Int → Effect Parties Int
  | 0, _, _ => throw (text "fuel")
  | fuel + 1, k, upper => do
    onHost (modify (decideAll (decisions k)))
    let page ← askJournal peer upper
    let through := (toLongLong page.through.text).getD 0
    if page.more.toBool then pullJournal peer decisions fuel (k + 1) through else pure through

/-- An authority without failures whose journal is a chain as it writes one. -/
structure Authority (w : World) : Prop where
  host : isMirror w = false
  chain : (journal w).Chain w.db.revisions.rows
  authored : ∀ r ∈ w.db.revisions.rows, Authored r.data
  container : uuid w.container
  replica : uuid (journal w).authority
  volumeFaults : w.volume.faults = []
  databaseFaults : w.db.faults = []

/-- A mirror of that authority without failures, whose journal is a prefix of the authority's. -/
structure Follows (peer : Text) (p : Parties) : Prop where
  host : host p.mirror = peer
  peer : peer ≠ []
  journal : journal p.mirror = journal p.host
  rows : p.mirror.db.revisions.rows <+: p.host.db.revisions.rows
  volumeFaults : p.mirror.volume.faults = []
  databaseFaults : p.mirror.db.faults = []

omit [StoreLayout] in
theorem ready_of_nil {w : World} (h : w.volume.faults = []) : ready w = .ok () w := by
  obtain ⟨volume, _⟩ := w
  obtain ⟨_, _, faults⟩ := volume
  cases h
  rfl

omit [StoreLayout] in
theorem lock_of_nil {w : World} (h : w.volume.faults = []) : lock w = .ok () w := by
  obtain ⟨volume, _⟩ := w
  obtain ⟨_, _, faults⟩ := volume
  cases h
  rfl

omit [StoreLayout] in
theorem readSnapshot_of_nil {α : Type} {w : World} (hvolume : w.volume.faults = []) (hdb : w.db.faults = [])
    {read : World → Except Text α} {a : α} (h : read w = .ok a) : readSnapshot read w = .ok a w := by
  have hstatement : onDatabase (Database.statement some) w = .ok () w := by
    refine zoom_eq_ok.mpr ⟨w.db, statement_eq_ok.mpr ⟨by rw [hdb]; rintro ⟨⟩, w.db, rfl, ?_⟩, rfl⟩
    rw [hdb, List.tail_nil, ← hdb]
  rw [readSnapshot, bind_of_ok (ready_of_nil hvolume), bind_of_ok hstatement, bind_of_ok (get_apply w), h]
  rfl

/-! ### The host -/

theorem authored_next {j : NamespaceJournal} {db : Database} (h : j.Chain db.revisions.rows) {record : Entry}
    {proposal base : Text} (hproposal : proposal = [] ∨ hex proposal)
    (hext : j.Extends db.revisions.rows (NamespaceJournal.rowOf (j.next db record proposal base))) :
    Authored (j.next db record proposal base) where
  proposal := ⟨proposal, rfl, hproposal⟩
  sequence := by
    have hsequence := hext.sequence
    simp only [NamespaceJournal.rowOf] at hsequence
    rw [hsequence, NamespaceJournal.next]
    simp only
    rw [NamespaceJournal.state, h.counter_headSequence]
  extra := rfl

theorem authority_decide {w : World} (h : Authority w) {c : Decision} (hc : c.proposal = [] ∨ hex c.proposal) :
    Authority { w with db := final ((journal w).commit c.record c.proposal c.base w.db) } ∧
      journal { w with db := final ((journal w).commit c.record c.proposal c.base w.db) } = journal w ∧
      w.db.revisions.rows <+: (final ((journal w).commit c.record c.proposal c.base w.db)).revisions.rows := by
  rcases NamespaceJournal.commit_cases h.chain c.record c.proposal c.base with
    ⟨faults, hsuffix, hfinal⟩ | ⟨t, hfinal, hrows, hext⟩
  · rw [h.databaseFaults, List.suffix_nil] at hsuffix
    rw [hfinal, hsuffix]
    exact ⟨{ h with databaseFaults := rfl }, rfl, List.prefix_rfl⟩
  · rw [hfinal]
    refine ⟨{ h with chain := ?_, authored := ?_, databaseFaults := ?_ }, rfl, ?_⟩
    · exact hrows ▸ Linked.concat_iff.mpr ⟨h.chain, hext⟩
    · intro r hr
      rw [hrows, List.mem_append, List.mem_singleton] at hr
      rcases hr with hr | rfl
      · exact h.authored r hr
      · exact authored_next h.chain hc hext
    · rw [h.databaseFaults]
      rfl
    · exact ⟨_, hrows.symm⟩

theorem authority_decideAll {decisions : List Decision} {w : World} (h : Authority w)
    (hc : ∀ c ∈ decisions, c.proposal = [] ∨ hex c.proposal) :
    Authority (decideAll decisions w) ∧ journal (decideAll decisions w) = journal w ∧
      w.db.revisions.rows <+: (decideAll decisions w).db.revisions.rows := by
  induction decisions generalizing w with
  | nil => exact ⟨h, rfl, List.prefix_rfl⟩
  | cons c decisions ih =>
    obtain ⟨hstep, hjournal, hfront⟩ := authority_decide h (hc c List.mem_cons_self)
    obtain ⟨hauthority, hrest, hfronts⟩ := ih hstep fun d hd => hc d (List.mem_cons_of_mem c hd)
    exact ⟨hauthority, hrest.trans hjournal, hfront.trans hfronts⟩

/-! ### One page -/

omit [StoreLayout] in
theorem onHost_of_ok {α : Type} {m : Effect World α} {p : Parties} {a : α} {w : World} (h : m p.host = .ok a w) :
    onHost m p = .ok a { p with host := w } := zoom_of_ok h

omit [StoreLayout] in
theorem onMirror_of_ok {α : Type} {m : Effect World α} {p : Parties} {a : α} {w : World} (h : m p.mirror = .ok a w) :
    onMirror m p = .ok a { p with mirror := w } := zoom_of_ok h

theorem acceptJournal_of_ok {peer : Text} {p : Parties} (hmirror : Follows peer p) {page : Page Revision} {db : Database}
    (h : (journal p.host).accept page p.mirror.db = .ok () db) :
    acceptJournal peer page p.mirror = .ok () { p.mirror with db } := by
  rw [acceptJournal, bind_of_ok (ready_of_nil hmirror.volumeFaults), bind_of_ok (get_apply p.mirror),
    if_neg (by simp [hmirror.host, hmirror.peer]), hmirror.journal]
  split
  · exact onDatabase_of_ok h
  · rw [bind_of_ok (lock_of_nil hmirror.volumeFaults)]
    exact onDatabase_of_ok (rollback_eq_ok.mpr h)

/-- The parties after the mirror has stored other revisions. -/
def withRevisions (p : Parties) (u : Revisions) : Parties :=
  { p with mirror := { p.mirror with db := { p.mirror.db with revisions := u } } }

/-- A mirror that follows an authority is answered with the next revisions and accepts them. -/
theorem askJournal_ok {peer : Text} {p : Parties} (hhost : Authority p.host) (hmirror : Follows peer p) {m t upper : Nat}
    (hlength : p.mirror.db.revisions.rows.length = m) (hm : m ≤ t) (ht : t ≤ p.host.db.revisions.rows.length)
    (hupper : (upper = t ∧ 0 < t) ∨ (upper = 0 ∧ t = p.host.db.revisions.rows.length)) :
    ∃ n u, m + n ≤ t ∧ (m < t → 0 < n) ∧ u.rows = p.host.db.revisions.rows.take (m + n) ∧
      askJournal peer upper p = .ok ((journal p.host).historyPage p.host.db.revisions.rows m n t) (withRevisions p u) := by
  have hfront := List.prefix_iff_eq_take.mp hmirror.rows
  rw [hlength] at hfront
  have hchain : (journal p.mirror).Chain p.mirror.db.revisions.rows := by
    rw [hmirror.journal]
    exact Linked.of_front hhost.chain hmirror.rows
  have hcontainer : uuid (journal p.host).space := hhost.container
  obtain ⟨n, hn, hpos, hcount, hsum, hpage⟩ := NamespaceJournal.history_eq hhost.chain hhost.authored hcontainer
    hhost.replica (m := m) hm ht upper (by omega)
  obtain ⟨u, haccept, hu⟩ := NamespaceJournal.accept_historyPage hhost.chain
    (p.host.db.revisions.ordered.imp And.right) hcontainer hhost.replica hcount hn hpos ht hsum hfront
    hmirror.databaseFaults
  have hsequence : ((journal p.mirror).state p.mirror.db).sequence = decimal m := by
    rw [NamespaceJournal.state, hchain.headSequence_eq, decimalInt_natCast, hlength]
  have hbound := hhost.chain.length_le
  have hrequest : journalRequest
      { action := text "journal", after := .string ((journal p.mirror).state p.mirror.db).sequence
        through := .string (decimalInt upper) } p.host =
      .ok ((journal p.host).historyPage p.host.db.revisions.rows m n t) p.host := by
    rw [journalRequest, bind_of_ok (get_apply p.host), hhost.host, hsequence, decimalInt_natCast]
    simp only [Bool.false_eq_true, if_false]
    rw [number_decimal (by omega), number_decimal (by omega)]
    exact readSnapshot_of_nil hhost.volumeFaults hhost.databaseFaults hpage
  have hthrough : ¬((upper : Int) ≠ 0 ∧
      ((journal p.host).historyPage p.host.db.revisions.rows m n t).through.text ≠ decimalInt upper) := by
    rintro ⟨hne, hdiffer⟩
    rcases hupper with ⟨rfl, -⟩ | ⟨rfl, -⟩
    · exact hdiffer rfl
    · exact hne rfl
  refine ⟨n, u, hn, hpos, hu, ?_⟩
  rw [askJournal, bind_of_ok (get_apply p), bind_of_ok (onHost_of_ok hrequest), if_neg hthrough,
    bind_of_ok (onMirror_of_ok (acceptJournal_of_ok hmirror haccept))]
  rfl

/-! ### The whole walk -/

omit [StoreLayout] in
theorem follows_next {peer : Text} {p : Parties} (hmirror : Follows peer p) {u : Revisions} {k : Nat}
    (hu : u.rows = p.host.db.revisions.rows.take k) :
    Follows peer (withRevisions p u) where
  host := hmirror.host
  peer := hmirror.peer
  journal := hmirror.journal
  rows := hu ▸ List.take_prefix k _
  volumeFaults := hmirror.volumeFaults
  databaseFaults := hmirror.databaseFaults

theorem follows_decideAll {peer : Text} {p : Parties} (hhost : Authority p.host) (hmirror : Follows peer p)
    {decisions : List Decision} (hc : ∀ c ∈ decisions, c.proposal = [] ∨ hex c.proposal) :
    Authority (decideAll decisions p.host) ∧ Follows peer { p with host := decideAll decisions p.host } := by
  obtain ⟨hauthority, hjournal, hfront⟩ := authority_decideAll hhost hc
  exact ⟨hauthority, { hmirror with
    journal := hmirror.journal.trans hjournal.symm, rows := hmirror.rows.trans hfront }⟩

/-- One turn of the walk: the mirror has `n` more revisions, and either goes on or is done. -/
theorem pullJournal_turn {peer : Text} {decisions : Nat → List Decision} {p : Parties} (hhost : Authority p.host)
    (hmirror : Follows peer p) {k m t : Nat} (upper : Nat) (hc : ∀ c ∈ decisions k, c.proposal = [] ∨ hex c.proposal)
    (hlength : p.mirror.db.revisions.rows.length = m) (hm : m ≤ t)
    (ht : t ≤ (decideAll (decisions k) p.host).db.revisions.rows.length)
    (hupper : (upper = t ∧ 0 < t) ∨ (upper = 0 ∧ t = (decideAll (decisions k) p.host).db.revisions.rows.length)) :
    ∃ n q, m + n ≤ t ∧ (m < t → 0 < n) ∧ q.host = decideAll (decisions k) p.host ∧ Authority q.host ∧ Follows peer q ∧
      q.mirror.db.revisions.rows = q.host.db.revisions.rows.take (m + n) ∧
      ∀ fuel, pullJournal peer decisions (fuel + 1) k upper p =
        if m + n < t then pullJournal peer decisions fuel (k + 1) t q else .ok (t : Int) q := by
  obtain ⟨hdecided, hfollows⟩ := follows_decideAll hhost hmirror hc
  obtain ⟨n, u, hn, hpos, hu, hask⟩ := askJournal_ok hdecided hfollows hlength hm ht hupper
  have hbound : t ≤ maxCounter := Nat.le_trans ht hdecided.chain.length_le
  have hthrough : toLongLong (decimal t) = some (t : Int) := toLongLong_decimal (by
    rw [maxCounter] at hbound
    omega)
  have hdecide : onHost (modify (decideAll (decisions k))) p =
      .ok ⟨⟩ { p with host := decideAll (decisions k) p.host } := rfl
  refine ⟨n, _, hn, hpos, rfl, hdecided, follows_next hfollows hu, hu, fun fuel => ?_⟩
  rw [pullJournal, bind_of_ok hdecide, bind_of_ok hask]
  simp only [NamespaceJournal.historyPage, Value.text_string, hthrough, Option.getD_some, Value.toBool_bool,
    decide_eq_true_eq]
  split <;> rfl

/-- The walk to a known end. -/
theorem pullJournal_ok {peer : Text} {decisions : Nat → List Decision}
    (hc : ∀ k, ∀ c ∈ decisions k, c.proposal = [] ∨ hex c.proposal) {t d : Nat} (hpos : 0 < t) {p : Parties}
    (hhost : Authority p.host) (hmirror : Follows peer p) {k m : Nat}
    (hlength : p.mirror.db.revisions.rows.length = m) (hm : m ≤ t) (hd : t - m ≤ d)
    (ht : t ≤ p.host.db.revisions.rows.length) :
    ∃ q, (∀ fuel, d < fuel → pullJournal peer decisions fuel k t p = .ok (t : Int) q) ∧
      q.mirror.db.revisions.rows = q.host.db.revisions.rows.take t ∧
      p.host.db.revisions.rows <+: q.host.db.revisions.rows := by
  induction d generalizing p k m with
  | zero =>
    have hgrown := (authority_decideAll hhost (hc k)).2.2
    obtain ⟨n, q, hn, hmore, hq, -, -, hrows, hturn⟩ := pullJournal_turn hhost hmirror t (hc k) hlength hm
      (Nat.le_trans ht hgrown.length_le) (Or.inl ⟨rfl, hpos⟩)
    have hend : m + n = t := by omega
    refine ⟨q, fun fuel hfuel => ?_, by rw [hrows, hend], by rw [hq]; exact hgrown⟩
    obtain ⟨fuel, rfl⟩ := Nat.exists_eq_add_of_lt hfuel
    rw [Nat.zero_add, hturn, if_neg (by omega)]
  | succ d ih =>
    have hgrown := (authority_decideAll hhost (hc k)).2.2
    obtain ⟨n, q, hn, hmore, hq, hauthority, hfollows, hrows, hturn⟩ := pullJournal_turn hhost hmirror t (hc k) hlength hm
      (Nat.le_trans ht hgrown.length_le) (Or.inl ⟨rfl, hpos⟩)
    have hlong : t ≤ q.host.db.revisions.rows.length := by
      rw [hq]
      exact Nat.le_trans ht hgrown.length_le
    by_cases hopen : m + n < t
    · obtain ⟨r, hwalk, hend, hfront⟩ := ih hauthority hfollows (k := k + 1) (m := m + n)
        (by rw [hrows, List.length_take]; omega) hn (by omega) hlong
      refine ⟨r, fun fuel hfuel => ?_, hend, ?_⟩
      · obtain ⟨fuel, rfl⟩ := Nat.exists_eq_succ_of_ne_zero (Nat.ne_of_gt (Nat.zero_lt_of_lt hfuel))
        rw [Nat.succ_eq_add_one, hturn, if_pos hopen]
        exact hwalk fuel (by omega)
      · rw [hq] at hfront
        exact hgrown.trans hfront
    · have hend : m + n = t := by omega
      refine ⟨q, fun fuel hfuel => ?_, by rw [hrows, hend], by rw [hq]; exact hgrown⟩
      obtain ⟨fuel, rfl⟩ := Nat.exists_eq_succ_of_ne_zero (Nat.ne_of_gt (Nat.zero_lt_of_lt hfuel))
      rw [Nat.succ_eq_add_one, hturn, if_neg hopen]

/-- A page without revisions changes nothing, whether it is accepted or not. -/
theorem accept_empty {j : NamespaceJournal} {page : Page Revision} (hempty : page.entries = some []) (db : Database) :
    j.accept page db = .ok () db ∨ ∃ e, j.accept page db = .error e db := by
  rw [NamespaceJournal.accept, bind_of_ok (get_apply db)]
  split
  · exact Or.inr ⟨_, rfl⟩
  · rw [hempty, Option.getD_some, NamespaceJournal.acceptAll, bind_of_ok (pure_apply _ db)]
    split
    · exact Or.inr ⟨_, rfl⟩
    · exact Or.inl rfl

/-- Whatever page arrives, a journal gains exactly its revisions or nothing. -/
theorem acceptJournal_cases (peer : Text) (page : Page Revision) {w : World}
    (h : (journal w).Chain w.db.revisions.rows) :
    (∃ v, acceptJournal peer page w = .ok () v ∧
      v.db.revisions.rows = w.db.revisions.rows ++ (page.entries.getD []).map NamespaceJournal.rowOf ∧
      (journal w).Chain v.db.revisions.rows) ∨
    ∃ e v, acceptJournal peer page w = .error e v ∧ v.db.revisions.rows = w.db.revisions.rows := by
  rw [acceptJournal]
  rcases ready_cases w with ⟨volume, hready⟩ | ⟨e, volume, hready⟩
  · rw [bind_of_ok hready, bind_of_ok (get_apply _)]
    split
    · exact Or.inr ⟨_, _, rfl, rfl⟩
    · split
      · rename_i hempty
        rcases accept_empty (j := journal w) hempty w.db with hok | ⟨e, herror⟩
        · refine Or.inl ⟨_, onDatabase_of_ok (w := { w with volume }) hok, ?_, h⟩
          rw [hempty]
          exact (List.append_nil _).symm
        · exact Or.inr ⟨e, _, onDatabase_of_error (w := { w with volume }) herror, rfl⟩
      · rcases lock_cases { w with volume } with ⟨volume', hlock⟩ | ⟨e, volume', hlock⟩
        · rw [bind_of_ok hlock]
          cases hok : Database.transaction ((journal w).accept page) w.db with
          | ok u db =>
            obtain ⟨hrows, hchain⟩ := NamespaceJournal.rows_accept h (rollback_eq_ok.mp hok)
            exact Or.inl ⟨_, onDatabase_of_ok (w := { w with volume := volume' }) hok, hrows, hchain⟩
          | error e db =>
            refine Or.inr ⟨e, _, onDatabase_of_error (w := { w with volume := volume' }) hok, ?_⟩
            rw [Database.transaction, rollback] at hok
            split at hok
            · cases hok
            · cases hok
              rfl
        · rw [bind_of_error hlock]
          exact Or.inr ⟨e, _, rfl, rfl⟩
  · rw [bind_of_error hready]
    exact Or.inr ⟨e, _, rfl, rfl⟩

/-- The walk ends, every page on the way is accepted, and the mirror then holds exactly the
revisions that the host had decided when the walk began; a page from anywhere else adds exactly
its revisions to the chain, or nothing. -/
theorem pullJournal_complete {peer : Text} {decisions : Nat → List Decision} {p : Parties} (hhost : Authority p.host)
    (hmirror : Follows peer p) (hc : ∀ k, ∀ c ∈ decisions k, c.proposal = [] ∨ hex c.proposal) :
    (∃ (through bound : Nat) (q : Parties), through = (decideAll (decisions 0) p.host).db.revisions.rows.length ∧
      (∀ fuel, bound < fuel → pullJournal peer decisions fuel 0 0 p = .ok (through : Int) q) ∧
      p.host.db.revisions.rows <+: q.host.db.revisions.rows ∧
      q.mirror.db.revisions.rows = q.host.db.revisions.rows.take through) ∧
    ∀ (sender : Text) (page : Page Revision) (w : World), (journal w).Chain w.db.revisions.rows →
      (∃ v, acceptJournal sender page w = .ok () v ∧
        v.db.revisions.rows = w.db.revisions.rows ++ (page.entries.getD []).map NamespaceJournal.rowOf ∧
        (journal w).Chain v.db.revisions.rows) ∨
      ∃ e v, acceptJournal sender page w = .error e v ∧ v.db.revisions.rows = w.db.revisions.rows := by
  refine ⟨?_, fun sender page w h => acceptJournal_cases sender page h⟩
  have hgrown := (authority_decideAll hhost (hc 0)).2.2
  obtain ⟨n, q, hn, hmore, hq, hauthority, hfollows, hrows, hturn⟩ := pullJournal_turn hhost hmirror 0 (hc 0)
    rfl (hmirror.rows.trans hgrown).length_le (Nat.le_refl _) (Or.inr ⟨rfl, rfl⟩)
  refine ⟨(decideAll (decisions 0) p.host).db.revisions.rows.length,
    (decideAll (decisions 0) p.host).db.revisions.rows.length + 1, ?_⟩
  by_cases hopen : p.mirror.db.revisions.rows.length + n < (decideAll (decisions 0) p.host).db.revisions.rows.length
  · obtain ⟨r, hwalk, hend, hfront⟩ := pullJournal_ok hc (by omega) hauthority hfollows (k := 1)
      (m := p.mirror.db.revisions.rows.length + n)
      (t := (decideAll (decisions 0) p.host).db.revisions.rows.length)
      (d := (decideAll (decisions 0) p.host).db.revisions.rows.length)
      (by rw [hrows, List.length_take, hq]; omega) hn (by omega) (by rw [hq])
    refine ⟨r, rfl, fun fuel hfuel => ?_, ?_, hend⟩
    · obtain ⟨fuel, rfl⟩ := Nat.exists_eq_succ_of_ne_zero (Nat.ne_of_gt (Nat.zero_lt_of_lt hfuel))
      have hstep := hturn fuel
      rw [if_pos hopen] at hstep
      exact hstep.trans (hwalk fuel (by omega))
    · rw [hq] at hfront
      exact hgrown.trans hfront
  · have hend : p.mirror.db.revisions.rows.length + n = (decideAll (decisions 0) p.host).db.revisions.rows.length := by
      omega
    refine ⟨q, rfl, fun fuel hfuel => ?_, by rw [hq]; exact hgrown, by rw [hrows, hend]⟩
    obtain ⟨fuel, rfl⟩ := Nat.exists_eq_succ_of_ne_zero (Nat.ne_of_gt (Nat.zero_lt_of_lt hfuel))
    have hstep := hturn fuel
    rw [if_neg hopen] at hstep
    exact hstep

end Replica

namespace Replica

/-! ### A new pair of containers -/

def folderRecord : Entry := versioned
  { path := .string (text "files/notes"), kind := .string directory, size := .string (text "0"), hash := .string []
    clock := some [(newAuthority.id, .string (text "1"))] }

def newParties : Parties := ⟨newMirror, newAuthority⟩

theorem authority_new : @Authority plainLayout newParties.host :=
  @Authority.mk plainLayout newAuthority (by decide) Linked.nil (fun _ h => absurd h List.not_mem_nil)
    (by decide +kernel) (by decide +kernel) rfl rfl

theorem follows_new : Follows (text "desk") newParties where
  host := by decide
  peer := by decide
  journal := by decide +kernel
  rows := List.prefix_rfl
  volumeFaults := rfl
  databaseFaults := rfl

def firstDecisions (_ : Nat) : List Decision := [⟨folderRecord, [], []⟩]

theorem firstDecisions_proposal (k : Nat) : ∀ c ∈ firstDecisions k, c.proposal = [] ∨ hex c.proposal := by
  intro c hc
  rw [List.mem_singleton.mp hc]
  exact Or.inl rfl

theorem pullJournal_complete_new :
    ∃ (through bound : Nat) (q : Parties),
      through = (@decideAll plainLayout (firstDecisions 0) newParties.host).db.revisions.rows.length ∧
      (∀ fuel, bound < fuel →
        @pullJournal plainLayout (text "desk") firstDecisions fuel 0 0 newParties = .ok (through : Int) q) ∧
      newParties.host.db.revisions.rows <+: q.host.db.revisions.rows ∧
      q.mirror.db.revisions.rows = q.host.db.revisions.rows.take through :=
  (@pullJournal_complete plainLayout (text "desk") firstDecisions newParties
    authority_new follows_new firstDecisions_proposal).1

end Replica

end SocietyHelper.Sync
