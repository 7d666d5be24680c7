import SocietyHelper.Sync.JournalReplication

/-! # Walking over the objects of a journal

A walk with a fixed end reads the latest revision of every path below that end.
Commits made between its pages lie above the end, so they change nothing of it.
-/

namespace SocietyHelper.Sync

open Library Effect

namespace NamespaceJournal

/-- The latest revisions of their paths up to `through` that lie above `after`. -/
def latestBetween (rows : List JournalRow) (after through : Int) : List JournalRow :=
  rows.filter fun r => after < r.sequence ∧ r.sequence ≤ through ∧
    ¬rows.any fun newer => newer.path = r.path ∧ r.sequence < newer.sequence ∧ newer.sequence ≤ through

theorem select_latest (rows : List JournalRow) (after through : Int) :
    select rows after through false = (latestBetween rows after through).take 128 := by
  simp [select, latestBetween]

theorem mem_latestBetween {rows : List JournalRow} {after through : Int} {r : JournalRow} :
    r ∈ latestBetween rows after through ↔ r ∈ rows ∧ after < r.sequence ∧ r.sequence ≤ through ∧
      ∀ s ∈ rows, s.path = r.path → s.sequence ≤ through → s.sequence ≤ r.sequence := by
  simp only [latestBetween, List.mem_filter, decide_eq_true_eq, List.any_eq_true, not_exists, not_and, Int.not_le]
  constructor
  · rintro ⟨hr, hlow, hhigh, hnone⟩
    refine ⟨hr, hlow, hhigh, fun s hs hpath hle => ?_⟩
    by_contra hlt
    have := hnone s hs hpath (Int.not_le.mp hlt)
    omega
  · rintro ⟨hr, hlow, hhigh, hall⟩
    refine ⟨hr, hlow, hhigh, fun s hs hpath hlt => ?_⟩
    by_contra hle
    have := hall s hs hpath (Int.not_lt.mp hle)
    omega

/-- Rows above the end are not seen. -/
theorem latestBetween_append {rows more : List JournalRow} {after through : Int} (h : ∀ r ∈ more, through < r.sequence) :
    latestBetween (rows ++ more) after through = latestBetween rows after through := by
  have hany : ∀ r : JournalRow, ((rows ++ more).any fun newer => newer.path = r.path ∧ r.sequence < newer.sequence ∧
      newer.sequence ≤ through) = rows.any fun newer => newer.path = r.path ∧ r.sequence < newer.sequence ∧
      newer.sequence ≤ through := by
    intro r
    rw [List.any_append, Bool.or_eq_left_iff_imp]
    intro habove
    obtain ⟨s, hs, hle⟩ := List.any_eq_true.mp habove
    have := h s hs
    simp only [decide_eq_true_eq] at hle
    omega
  rw [latestBetween, List.filter_append, latestBetween]
  simp only [hany]
  have hnone : more.filter (fun r => after < r.sequence ∧ r.sequence ≤ through ∧
      ¬rows.any fun newer => newer.path = r.path ∧ r.sequence < newer.sequence ∧ newer.sequence ≤ through) = [] := by
    apply List.filter_eq_nil_iff.mpr
    intro r hr
    have := h r hr
    simp only [decide_eq_true_eq]
    omega
  rw [hnone, List.append_nil]

/-- What is left after a front of the walk is the walk from the last sequence of that front. -/
theorem latestBetween_rest {rows front back : List JournalRow} {after next through : Int} (h : rows.Pairwise
    fun a b => a.sequence < b.sequence) (hsplit : latestBetween rows after through = front ++ back)
    (hlast : front.getLast?.map JournalRow.sequence = some next) : latestBetween rows next through = back := by
  obtain ⟨r, hr, rfl⟩ := Option.map_eq_some_iff.mp hlast
  obtain ⟨init, rfl⟩ := List.getLast?_eq_some_iff.mp hr
  have hsorted : ((init ++ [r]) ++ back).Pairwise fun a b => a.sequence < b.sequence :=
    hsplit ▸ h.sublist List.filter_sublist
  have hmem : r ∈ latestBetween rows after through := by
    rw [hsplit]
    simp
  have hlow := (mem_latestBetween.mp hmem).2.1
  have hrest : latestBetween rows r.sequence through =
      (latestBetween rows after through).filter fun s => r.sequence < s.sequence := by
    rw [latestBetween, latestBetween, List.filter_filter]
    apply List.filter_congr
    intro s _
    rw [Bool.eq_iff_iff]
    simp only [Bool.and_eq_true, decide_eq_true_eq]
    constructor
    · rintro ⟨hs, hrest⟩
      exact ⟨hs, by omega, hrest⟩
    · rintro ⟨hs, -, hrest⟩
      exact ⟨hs, hrest⟩
  obtain ⟨hfront, -, hcross⟩ := List.pairwise_append.mp hsorted
  rw [hrest, hsplit, List.filter_append]
  have hnone : (init ++ [r]).filter (fun s : JournalRow => r.sequence < s.sequence) = [] := by
    apply List.filter_eq_nil_iff.mpr
    intro s hs
    rw [decide_eq_true_eq]
    rcases List.mem_append.mp hs with hs | hs
    · have := (List.pairwise_append.mp hfront).2.2 s hs r (List.mem_singleton_self r)
      omega
    · rw [List.mem_singleton.mp hs]
      omega
  have hall : back.filter (fun s : JournalRow => r.sequence < s.sequence) = back := by
    apply List.filter_eq_self.mpr
    intro s hs
    rw [decide_eq_true_eq]
    exact hcross r (by simp) s hs
  rw [hnone, hall, List.nil_append]

theorem getLast?_eq_some_iff_of_sorted {rows : List JournalRow} (h : rows.Pairwise fun a b => a.sequence < b.sequence)
    {r : JournalRow} : rows.getLast? = some r ↔ r ∈ rows ∧ ∀ s ∈ rows, s.sequence ≤ r.sequence := by
  rcases List.eq_nil_or_concat rows with rfl | ⟨init, last, rfl⟩
  · simp
  · rw [List.concat_eq_append] at h ⊢
    rw [List.getLast?_concat, Option.some.injEq]
    have hbelow := (List.pairwise_append.mp h).2.2
    constructor
    · rintro rfl
      refine ⟨by simp, fun s hs => ?_⟩
      rcases List.mem_append.mp hs with hs | hs
      · exact Int.le_of_lt (hbelow s hs last (List.mem_singleton_self _))
      · rw [List.mem_singleton.mp hs]
    · rintro ⟨hr, hall⟩
      rcases List.mem_append.mp hr with hr | hr
      · have hlt := hbelow r hr last (List.mem_singleton_self _)
        have hle := hall last (by simp)
        omega
      · exact (List.mem_singleton.mp hr).symm

/-- What the walk reads is the latest of its path among the rows up to the end. -/
theorem mem_latestBetween_iff {rows : List JournalRow} (h : rows.Pairwise fun a b => a.sequence < b.sequence)
    {after through : Int} {r : JournalRow} : r ∈ latestBetween rows after through ↔ after < r.sequence ∧
      latest (rows.filter fun s => s.sequence ≤ through) r.path = some r := by
  rw [mem_latestBetween, latest,
    getLast?_eq_some_iff_of_sorted ((h.sublist List.filter_sublist).sublist List.filter_sublist)]
  simp only [List.mem_filter, decide_eq_true_eq]
  constructor
  · rintro ⟨hr, hlow, hhigh, hall⟩
    exact ⟨hlow, ⟨⟨hr, hhigh⟩, trivial⟩, fun s hs => hall s hs.1.1 hs.2 hs.1.2⟩
  · rintro ⟨hlow, ⟨⟨hr, hhigh⟩, -⟩, hall⟩
    exact ⟨hr, hlow, hhigh, fun s hs hpath hle => hall s ⟨⟨hs, hle⟩, hpath⟩⟩

theorem nodup_path_latestBetween {rows : List JournalRow} (h : rows.Pairwise fun a b => a.sequence < b.sequence)
    (after through : Int) : ((latestBetween rows after through).map JournalRow.path).Nodup := by
  apply List.pairwise_map.mpr
  apply List.Pairwise.imp_of_mem _ (h.sublist (List.filter_sublist (l := rows)))
  intro a b ha hb hlt hpath
  obtain ⟨hb', -, hhigh, -⟩ := mem_latestBetween.mp hb
  have hle := (mem_latestBetween.mp ha).2.2.2 b hb' hpath.symm hhigh
  omega

theorem latestBetween_self (rows : List JournalRow) (through : Int) : latestBetween rows through through = [] := by
  apply List.filter_eq_nil_iff.mpr
  intro r _
  simp only [decide_eq_true_eq]
  omega

section Page

variable [StoreLayout] {j : NamespaceJournal}

/-- The entry of a stored revision is far smaller than a page. -/
theorem utf8Size_projected_le {rows : List JournalRow} (h : j.Chain rows) {r : JournalRow} (hr : r ∈ rows)
    (hauthored : Authored r.data) (hspace : uuid j.space) (hauthority : uuid j.authority) :
    utf8Size (projected r.data).json ≤ 20000 := by
  obtain ⟨earlier, _, _, hext⟩ := Linked.exists_of_mem h hr
  have hrecord := (validRecord_iff.mp hext.record).fits
  have hrange := (h.sequence_mem hr).2.2
  have hpositive := (h.sequence_mem hr).1
  obtain ⟨n, hn⟩ := Int.eq_ofNat_of_zero_le (Int.le_of_lt hpositive)
  have hspacePlain := uuid_plain hspace
  have hauthorityPlain := uuid_plain hauthority
  have h1 := utf8Size_quote_le hspacePlain.1 hspacePlain.2
  have h2 := utf8Size_quote_le hauthorityPlain.1 hauthorityPlain.2
  have h3 := utf8Size_quote_hex (Or.inr (hex_of_mem h hr))
  have h4 := utf8Size_quote_decimal (n := n) (by omega)
  have hkeys : utf8Size (Json.quote (text "authority")) ≤ 11 ∧ utf8Size (Json.quote (text "namespace")) ≤ 11 ∧
      utf8Size (Json.quote (text "revision")) ≤ 11 ∧ utf8Size (Json.quote (text "sequence")) ≤ 11 := by decide
  rw [Entry.json, Json.utf8Size_object, Entry.members] at hrecord ⊢
  rw [projected, hext.space, hext.authority, hext.name, hauthored.sequence, hext.stored, hn, decimalInt_natCast]
  simp only [List.map_append, List.sum_append, Json.memberSize_field_string] at hrecord ⊢
  omega

/-- The page with the objects of some rows. -/
def objectsPage (j : NamespaceJournal) (front : List JournalRow) (through next : Int) (more : Bool) : Page Entry where
  ok := .bool true
  space := .string j.space
  authority := .string j.authority
  entries := some (front.map fun r => projected r.data)
  through := .string (decimalInt through)
  next := .string (decimalInt next)
  more := .bool more

/-- A page of the walk is a front of what is left, and it is not empty unless nothing is left. -/
theorem objects_eq {db : Database} (h : j.Chain db.revisions.rows)
    (hauthored : ∀ r ∈ db.revisions.rows, Authored r.data) (hspace : uuid j.space) (hauthority : uuid j.authority)
    {after through : Int} (hafter : 0 ≤ after) (hle : after ≤ through) (hpositive : 0 < through)
    (hcurrent : through ≤ headSequence db.revisions.rows) :
    ∃ (front back : List JournalRow) (next : Int) (more : Bool),
      latestBetween db.revisions.rows after through = front ++ back ∧
      j.objects db after through = .ok (j.objectsPage front through next more) ∧
      next ≤ through ∧ (more = true → after < next ∧ latestBetween db.revisions.rows next through = back) ∧
      (more = false → next = through ∧ back = []) := by
  have hfits : ∀ r ∈ select db.revisions.rows after through false,
      utf8Size (projected r.data).json ≤ 256 * 1024 := by
    intro r hr
    have hmem : r ∈ db.revisions.rows := (List.mem_filter.mp (List.mem_of_mem_take hr)).1
    exact Nat.le_trans (utf8Size_projected_le h hmem (hauthored r hmem) hspace hauthority) (by decide)
  have hsorted : db.revisions.rows.Pairwise fun a b => a.sequence < b.sequence :=
    db.revisions.ordered.imp And.left
  have htaken := Paging.within_front (fun r : JournalRow => utf8Size (projected r.data).json) (256 * 1024)
    (select db.revisions.rows after through false)
  have hall := Paging.within_of_false (fun r : JournalRow => utf8Size (projected r.data).json) (256 * 1024)
    (l := select db.revisions.rows after through false)
  have hsome := Paging.within_of_true (fun r : JournalRow => utf8Size (projected r.data).json) (256 * 1024)
    (l := select db.revisions.rows after through false)
  have hfirst : select db.revisions.rows after through false ≠ [] →
      (Paging.within (fun r : JournalRow => utf8Size (projected r.data).json) (256 * 1024)
        (select db.revisions.rows after through false)).1 ≠ [] := by
    intro hne
    obtain ⟨r, rest, hcons⟩ := List.exists_cons_of_ne_nil hne
    rw [hcons]
    exact Paging.within_ne_nil _ (hfits r (by rw [hcons]; exact List.mem_cons_self))
  have hend : (if through = 0 then headSequence db.revisions.rows else through) = through := if_neg (by omega)
  rw [objects, changes]
  simp only [hend]
  rw [if_neg (by omega)]
  generalize Paging.within (fun r : JournalRow => utf8Size (projected r.data).json) (256 * 1024)
    (select db.revisions.rows after through false) = taken at htaken hall hsome hfirst ⊢
  obtain ⟨cut, limited⟩ := taken
  simp only at htaken hall hsome hfirst
  rw [select_latest] at htaken hall hsome hfirst
  obtain ⟨back, hback⟩ := htaken.trans (List.take_prefix 128 _)
  have hrest : ∀ r, cut.getLast? = some r → after < r.sequence ∧ r.sequence ≤ through ∧
      latestBetween db.revisions.rows r.sequence through = back := by
    intro r hr
    have hmem : r ∈ latestBetween db.revisions.rows after through := by
      rw [← hback]
      exact List.mem_append_left _ (List.mem_of_getLast? hr)
    refine ⟨(mem_latestBetween.mp hmem).2.1, (mem_latestBetween.mp hmem).2.2.1, ?_⟩
    exact latestBetween_rest hsorted hback.symm (by rw [hr]; rfl)
  refine ⟨cut, back, _, _, hback.symm, rfl, ?_⟩
  cases hcut : cut.getLast? with
  | none =>
    obtain rfl := List.getLast?_eq_none_iff.mp hcut
    have hunlimited : limited = false := by
      by_contra hlimited
      rw [Bool.not_eq_false] at hlimited
      refine hfirst ?_ rfl
      intro hnil
      have := hsome hlimited
      rw [hnil] at this
      exact Nat.lt_irrefl _ this
    have hnil := hall hunlimited
    have hempty : latestBetween db.revisions.rows after through = [] := by
      simpa using hnil.symm
    rw [hempty] at hback
    simp [hunlimited, (List.append_eq_nil_iff.mp hback).2]
  | some r =>
    obtain ⟨hlow, hhigh, hback'⟩ := hrest r hcut
    simp only [Option.map_some, Option.getD_some]
    refine ⟨by split <;> omega, ?_, ?_⟩
    · intro hmore
      rw [if_pos hmore]
      exact ⟨hlow, hback'⟩
    · intro hless
      rw [hless]
      refine ⟨rfl, ?_⟩
      obtain ⟨hunlimited, hfull⟩ := Bool.or_eq_false_iff.mp hless
      have hcutall := hall hunlimited
      by_cases hlength : cut.length = 128
      · simp only [hlength, decide_true, Bool.true_and, decide_eq_false_iff_not] at hfull
        have hlast : r.sequence = through := by omega
        rw [← hback', hlast, latestBetween_self]
      · have hshort : (latestBetween db.revisions.rows after through).length ≤ 128 := by
          rw [hcutall, List.length_take] at hlength
          omega
        rw [List.take_of_length_le hshort] at hcutall
        rw [← hback] at hcutall
        exact List.self_eq_append_right.mp hcutall

end Page

end NamespaceJournal

namespace Replica

open NamespaceJournal

section Walk

variable [StoreLayout]

/-- Read the objects from a cursor on until no page follows; the trail holds every cursor with
its page. Before the request with number `k` the authority makes the decisions `decisions k`. -/
def walkObjects (decisions : Nat → List Decision) : Nat → Nat → Int → Int → Effect World (List (Int × Page Entry))
  | 0, _, _, _ => throw (text "fuel")
  | fuel + 1, k, cursor, through => do
    modify (decideAll (decisions k))
    let w ← get
    match (journal w).objects w.db cursor through with
    | .error e => throw e
    | .ok page =>
      if page.more.toBool then
        let trail ← walkObjects decisions fuel (k + 1) ((toLongLong page.next.text).getD 0) through
        pure ((cursor, page) :: trail)
      else pure [(cursor, page)]

def trailEntries (trail : List (Int × Page Entry)) : List Entry := trail.flatMap fun step => step.2.entries.getD []

/-- Every page that announces another one has moved the cursor. -/
def Forward (trail : List (Int × Page Entry)) : Prop :=
  ∀ step ∈ trail, step.2.more.toBool → ∃ next, toLongLong step.2.next.text = some next ∧ step.1 < next

/-- What is decided while an authority is being read lies above the end of the walk. -/
theorem latestBetween_decideAll {decisions : List Decision} {w : World} (h : Authority w)
    (hc : ∀ c ∈ decisions, c.proposal = [] ∨ hex c.proposal) {after through : Int}
    (hcurrent : through ≤ headSequence w.db.revisions.rows) :
    latestBetween (decideAll decisions w).db.revisions.rows after through =
        latestBetween w.db.revisions.rows after through ∧
      through ≤ headSequence (decideAll decisions w).db.revisions.rows := by
  obtain ⟨hdecided, hjournal, more, hmore⟩ := authority_decideAll h hc
  have hchain := hdecided.chain
  rw [h.chain.headSequence_eq] at hcurrent
  constructor
  · rw [← hmore]
    apply latestBetween_append
    intro r hr
    obtain ⟨k, hk, rfl⟩ := List.mem_iff_getElem.mp hr
    have hindex : w.db.revisions.rows.length + k < (decideAll decisions w).db.revisions.rows.length := by
      rw [← hmore, List.length_append]
      omega
    have hrow : (decideAll decisions w).db.revisions.rows[w.db.revisions.rows.length + k] = more[k] := by
      simp only [← hmore]
      rw [List.getElem_append_right (Nat.le_add_right _ _)]
      simp
    have hsequence := sequence_getElem hchain hindex
    rw [hrow] at hsequence
    omega
  · rw [hchain.headSequence_eq, ← hmore, List.length_append]
    omega

/-- One page of the walk. -/
theorem walkObjects_turn {decisions : Nat → List Decision} {w : World} (h : Authority w) {k : Nat}
    (hc : ∀ c ∈ decisions k, c.proposal = [] ∨ hex c.proposal) {cursor through : Int} (hcursor : 0 ≤ cursor)
    (hle : cursor ≤ through) (hpositive : 0 < through) (hcurrent : through ≤ headSequence w.db.revisions.rows) :
    ∃ (front back : List JournalRow) (next : Int) (page : Page Entry),
      latestBetween w.db.revisions.rows cursor through = front ++ back ∧
      page.entries = some (front.map fun r => projected r.data) ∧ toLongLong page.next.text = some next ∧ next ≤ through ∧
      (page.more.toBool → cursor < next ∧ latestBetween w.db.revisions.rows next through = back ∧
        ∀ fuel, walkObjects decisions (fuel + 1) k cursor through w =
          (walkObjects decisions fuel (k + 1) next through >>= fun trail => pure ((cursor, page) :: trail))
            (decideAll (decisions k) w)) ∧
      (¬page.more.toBool → back = [] ∧ ∀ fuel, walkObjects decisions (fuel + 1) k cursor through w =
        .ok [(cursor, page)] (decideAll (decisions k) w)) := by
  obtain ⟨hdecided, hjournal, -⟩ := authority_decideAll h hc
  obtain ⟨hsame, hahead⟩ := @latestBetween_decideAll _ (decisions k) w h hc cursor through hcurrent
  obtain ⟨front, back, next, more, hsplit, hpage, hnext, hmore, hless⟩ := objects_eq hdecided.chain hdecided.authored
    (show uuid (journal (decideAll (decisions k) w)).space from hdecided.container) hdecided.replica hcursor hle
    hpositive hahead
  have hmax := hdecided.chain.length_le
  rw [hdecided.chain.headSequence_eq] at hahead
  have hrange : 0 ≤ next := by
    cases more with
    | true => have := (hmore rfl).1; omega
    | false => have := (hless rfl).1; omega
  have hnextText : toLongLong (decimalInt next) = some next := by
    obtain ⟨n, rfl⟩ := Int.eq_ofNat_of_zero_le hrange
    rw [decimalInt_natCast]
    apply toLongLong_decimal
    rw [maxCounter] at hmax
    omega
  have hturn : ∀ fuel, walkObjects decisions (fuel + 1) k cursor through w = (if more then
      walkObjects decisions fuel (k + 1) next through >>= fun trail =>
        pure ((cursor, (journal (decideAll (decisions k) w)).objectsPage front through next more) :: trail)
      else pure [(cursor, (journal (decideAll (decisions k) w)).objectsPage front through next more)])
        (decideAll (decisions k) w) := by
    intro fuel
    rw [walkObjects, bind_of_ok (modify_apply _ _), bind_of_ok (get_apply _), hpage]
    simp only [objectsPage, Value.text_string, hnextText, Option.getD_some]
    cases more <;> rfl
  rw [hsame] at hsplit
  refine ⟨front, back, next, (journal (decideAll (decisions k) w)).objectsPage front through next more, hsplit, rfl,
    hnextText, hnext, ?_, ?_⟩
  · intro h'
    rw [objectsPage, Value.toBool_bool] at h'
    obtain ⟨hlt, hrest⟩ := hmore h'
    refine ⟨hlt, ?_, fun fuel => ?_⟩
    · rw [← (latestBetween_decideAll h hc hcurrent).1]
      exact hrest
    · rw [hturn, if_pos h']
  · intro h'
    rw [objectsPage, Value.toBool_bool] at h'
    refine ⟨(hless (by simpa using h')).2, fun fuel => ?_⟩
    rw [hturn, if_neg h']
    rfl

/-- From any cursor on, the walk reads what lies between the cursor and the end. -/
theorem walkObjects_ok {decisions : Nat → List Decision} (hc : ∀ k, ∀ c ∈ decisions k, c.proposal = [] ∨ hex c.proposal)
    {through : Int} (hpositive : 0 < through) (left : Nat) :
    ∀ {w : World} {k : Nat} {cursor : Int}, Authority w → 0 ≤ cursor → cursor ≤ through →
      through ≤ headSequence w.db.revisions.rows → (through - cursor).toNat ≤ left →
      ∃ trail v, (∀ fuel, left < fuel → walkObjects decisions fuel k cursor through w = .ok trail v) ∧ Forward trail ∧
        trailEntries trail = (latestBetween w.db.revisions.rows cursor through).map fun r => projected r.data := by
  induction left using Nat.strong_induction_on with
  | _ left ih =>
    intro w k cursor h hcursor hle hcurrent hleft
    obtain ⟨front, back, next, page, hsplit, hentries, hnext, hend, hmore, hless⟩ :=
      walkObjects_turn h (hc k) hcursor hle hpositive hcurrent
    by_cases hgoes : page.more.toBool
    · obtain ⟨hlt, hrest, hwalk⟩ := hmore hgoes
      obtain ⟨hdecided, -, -⟩ := authority_decideAll h (hc k)
      obtain ⟨hsame, hahead⟩ := @latestBetween_decideAll _ (decisions k) w h (hc k) next through hcurrent
      have hnonneg : 0 ≤ next := by omega
      obtain ⟨trail, v, hok, hforward, hall⟩ := @ih (left - 1) (by omega) _ (k + 1) next hdecided hnonneg hend hahead
        (by omega)
      refine ⟨(cursor, page) :: trail, v, ?_, ?_, ?_⟩
      · intro fuel hfuel
        obtain ⟨fuel, rfl⟩ := Nat.exists_eq_succ_of_ne_zero (Nat.ne_of_gt (Nat.zero_lt_of_lt hfuel))
        rw [Nat.succ_eq_add_one, hwalk, bind_of_ok (hok fuel (by omega))]
        rfl
      · intro step hstep hmoves
        rcases List.mem_cons.mp hstep with rfl | hstep
        · exact ⟨next, hnext, hlt⟩
        · exact hforward step hstep hmoves
      · rw [hsplit, List.map_append, ← hrest, ← hsame, ← hall]
        simp [trailEntries, hentries]
    · obtain ⟨rfl, hwalk⟩ := hless hgoes
      refine ⟨[(cursor, page)], decideAll (decisions k) w, ?_, ?_, ?_⟩
      · intro fuel hfuel
        obtain ⟨fuel, rfl⟩ := Nat.exists_eq_succ_of_ne_zero (Nat.ne_of_gt (Nat.zero_lt_of_lt hfuel))
        exact hwalk fuel
      · intro step hstep hmoves
        rw [List.mem_singleton.mp hstep] at hmoves
        exact absurd hmoves hgoes
      · rw [hsplit, List.append_nil]
        simp [trailEntries, hentries]

/-- The walk ends, every page before the last moves the cursor, and together the pages hold the
latest revision of each path up to the end that lies above the start, once and in order. -/
theorem walkObjects_complete {decisions : Nat → List Decision} {w : World} (h : Authority w)
    (hc : ∀ k, ∀ c ∈ decisions k, c.proposal = [] ∨ hex c.proposal) {after through : Int} (hafter : 0 ≤ after)
    (hle : after ≤ through) (hpositive : 0 < through) (hcurrent : through ≤ headSequence w.db.revisions.rows) :
    ∃ (bound : Nat) (trail : List (Int × Page Entry)) (v : World) (rows : List JournalRow),
      (∀ fuel, bound < fuel → walkObjects decisions fuel 0 after through w = .ok trail v) ∧ Forward trail ∧
      trailEntries trail = rows.map (fun r => projected r.data) ∧
      rows.Pairwise (fun a b => a.sequence < b.sequence) ∧ (rows.map JournalRow.path).Nodup ∧
      ∀ r, r ∈ rows ↔ after < r.sequence ∧
        latest (w.db.revisions.rows.filter fun s => s.sequence ≤ through) r.path = some r := by
  have hsorted : w.db.revisions.rows.Pairwise fun a b => a.sequence < b.sequence :=
    w.db.revisions.ordered.imp And.left
  obtain ⟨trail, v, hwalk, hforward, hentries⟩ := walkObjects_ok hc hpositive (through - after).toNat (k := 0) h hafter
    hle hcurrent (Nat.le_refl _)
  refine ⟨_, trail, v, latestBetween w.db.revisions.rows after through, hwalk, hforward, hentries, ?_, ?_, ?_⟩
  · exact hsorted.sublist List.filter_sublist
  · exact nodup_path_latestBetween hsorted after through
  · intro r
    exact mem_latestBetween_iff hsorted

end Walk

/-- The new authority after its first decision. -/
def decidedAuthority : World := @decideAll plainLayout (firstDecisions 0) newAuthority

theorem walkObjects_complete_decided :
    ∃ (bound : Nat) (trail : List (Int × Page Entry)) (v : World) (rows : List JournalRow),
      (∀ fuel, bound < fuel → @walkObjects plainLayout firstDecisions fuel 0 0 1 decidedAuthority = .ok trail v) ∧
      Forward trail ∧ trailEntries trail = rows.map (fun r => projected r.data) ∧
      rows.Pairwise (fun a b => a.sequence < b.sequence) ∧ (rows.map JournalRow.path).Nodup ∧
      ∀ r, r ∈ rows ↔ 0 < r.sequence ∧
        latest (decidedAuthority.db.revisions.rows.filter fun s => s.sequence ≤ 1) r.path = some r :=
  @walkObjects_complete plainLayout firstDecisions decidedAuthority
    (@authority_decideAll plainLayout (firstDecisions 0) newAuthority authority_new (firstDecisions_proposal 0)).1
    firstDecisions_proposal 0 1 (by decide) (by decide) (by decide) (by decide +kernel)

end Replica

end SocietyHelper.Sync
