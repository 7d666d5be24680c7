import SocietyHelper.Sync.Steady

/-! # What a stored manifest says

A manifest in memory is described by the events since its first page: the pages
its peer has sent, the entries on them and the transfers answered since.
-/

namespace SocietyHelper.Sync

open Library Effect

/-- A request of a peer and what it was answered. -/
structure Event where
  peer : Text
  request : Request
  answer : Except Text Response

namespace Replica

/-! ## Pages in a record of events -/

def acceptedPage (peer : Text) (ev : Event) : Option Request :=
  match ev.answer with
  | .ok (.manifest _) => if ev.peer = peer then some ev.request else none
  | _ => none

def acceptedPages (peer : Text) (log : List Event) : List Request := log.filterMap (acceptedPage peer)

def entriesOf (pages : List Request) : List Entry := pages.flatMap fun r => r.entries.getD []

def announcedEntries (peer : Text) (log : List Event) : List Entry := entriesOf (acceptedPages peer log)

theorem entriesOf_concat (pages : List Request) (r : Request) :
    entriesOf (pages ++ [r]) = entriesOf pages ++ r.entries.getD [] := by
  simp [entriesOf]

theorem acceptedPages_concat (peer : Text) (log : List Event) (ev : Event) :
    acceptedPages peer (log ++ [ev]) = acceptedPages peer log ++ (acceptedPage peer ev).toList := by
  rw [acceptedPages, List.filterMap_append]
  cases h : acceptedPage peer ev <;> simp [acceptedPages, h]

/-! ## Entries of a manifest -/

/-- The entries are numbered upwards inside a range. -/
def Ordered (after through : Nat) (entries : List Entry) : Prop :=
  ∃ sequences : List Nat, entries.map (fun e => number e.sequence) = sequences.map some ∧
    sequences.Pairwise (· < ·) ∧ ∀ s ∈ sequences, after < s ∧ s ≤ through

theorem ordered_nil (after through : Nat) : Ordered after through [] := ⟨[], rfl, .nil, by simp⟩

theorem Ordered.concat {after last through s : Nat} {entries : List Entry} {e : Entry} (h : Ordered after last entries)
    (hafter : after ≤ last) (hs : number e.sequence = some s) (hlast : last < s) (hthrough : s ≤ through) :
    Ordered after through (entries ++ [e]) := by
  obtain ⟨sequences, hmap, hpair, hrange⟩ := h
  refine ⟨sequences ++ [s], by simp [hmap, hs], ?_, ?_⟩
  · refine List.pairwise_append.mpr ⟨hpair, List.pairwise_singleton _ _, ?_⟩
    intro a ha b hb
    obtain rfl := List.mem_singleton.mp hb
    exact Nat.lt_of_le_of_lt (hrange a ha).2 hlast
  · intro a ha
    rcases List.mem_append.mp ha with ha | ha
    · have hbounds := hrange a ha
      omega
    · obtain rfl := List.mem_singleton.mp ha
      omega

theorem Ordered.weaken {after last through : Nat} {entries : List Entry} (h : Ordered after last entries)
    (hle : last ≤ through) : Ordered after through entries := by
  obtain ⟨sequences, hmap, hpair, hrange⟩ := h
  exact ⟨sequences, hmap, hpair, fun s hs => ⟨(hrange s hs).1, Nat.le_trans (hrange s hs).2 hle⟩⟩

def fileOf (e : Entry) : Text × Text := (e.path.text, digest (utf8 e.json))

def Diff.sum (d : Diff) : Nat := d.added + d.updated + d.deleted + d.unchanged + d.conflicts

theorem sum_tally (d : Diff) (e : Entry) (current : Option Entry) : Diff.sum (tally d e current) = Diff.sum d + 1 := by
  simp only [tally, Diff.sum]
  split_ifs
  all_goals
    dsimp only
    omega

/-- What a manifest holds of the entries it has read. -/
structure Read (m : Manifest) (entries : List Entry) : Prop where
  sent : m.sent = entries.flatMap entryLine
  ordered : Ordered m.after m.sequence entries
  after : m.after ≤ m.sequence
  through : m.sequence ≤ m.through
  members : m.members.rows = if m.snapshot.isEmpty then [] else entries.map fileOf
  counted : ¬m.snapshot.isEmpty → Diff.sum m.diff = entries.length

theorem read_started (h : PageHeader) (hrange : h.after ≤ h.through) : Read (started h) [] where
  sent := rfl
  ordered := ordered_nil _ _
  after := Nat.le_refl _
  through := hrange
  members := by simp [started, Table.empty]
  counted := fun _ => rfl

/-- Everything about a manifest that reading an entry leaves alone. -/
structure SameHeader (m n : Manifest) : Prop where
  id : n.id = m.id
  replica : n.replica = m.replica
  snapshot : n.snapshot = m.snapshot
  applied : n.applied = m.applied
  next : n.next = m.next
  total : n.total = m.total
  after : n.after = m.after
  through : n.through = m.through
  complete : n.complete = m.complete

theorem sameHeader_refl (m : Manifest) : SameHeader m m := ⟨rfl, rfl, rfl, rfl, rfl, rfl, rfl, rfl, rfl⟩

theorem SameHeader.trans {l m n : Manifest} (h : SameHeader l m) (h' : SameHeader m n) : SameHeader l n :=
  ⟨h'.id.trans h.id, h'.replica.trans h.replica, h'.snapshot.trans h.snapshot, h'.applied.trans h.applied,
    h'.next.trans h.next, h'.total.trans h.total, h'.after.trans h.after, h'.through.trans h.through,
    h'.complete.trans h.complete⟩

theorem rows_insert_fresh {t : Table Text Text} {k v : Text} (h : k ∉ t.keys) :
    (t.insert k v).rows = t.rows ++ [(k, v)] := by
  rw [Table.insert, dif_neg h]

theorem read_addEntry [StoreLayout] {db : Database} {m n : Manifest} {e : Entry} {entries : List Entry} (h : Read m entries)
    (hadd : addEntry db m e = .ok n) : Read n (entries ++ [e]) ∧ SameHeader m n := by
  rw [addEntry] at hadd
  split at hadd
  · cases hadd
  rename_i s hs
  split at hadd
  · cases hadd
  rename_i hfits
  simp only [not_or, Nat.not_le, Nat.not_lt, Decidable.not_not] at hfits
  obtain ⟨-, hlast, hthrough, -⟩ := hfits
  have hafter : m.after ≤ s := Nat.le_of_lt (Nat.lt_of_le_of_lt h.after hlast)
  have hordered : Ordered m.after s (entries ++ [e]) := h.ordered.concat h.after hs hlast (Nat.le_refl s)
  have hsent : m.sent ++ entryLine e = (entries ++ [e]).flatMap entryLine := by
    rw [h.sent, List.flatMap_append, List.flatMap_singleton]
  dsimp only at hadd
  split at hadd
  · rename_i hempty
    cases hadd
    refine ⟨⟨hsent, hordered, hafter, hthrough, ?_, fun hne => absurd hempty hne⟩, ⟨rfl, rfl, rfl, rfl, rfl, rfl, rfl, rfl, rfl⟩⟩
    rw [h.members, if_pos hempty]
    exact (if_pos hempty).symm
  · rename_i hsnapshot
    split at hadd
    · cases hadd
    rename_i hfresh
    cases hadd
    have hkey : e.path.text ∉ m.members.keys := fun hmem => hfresh (Or.inr hmem)
    refine ⟨⟨hsent, hordered, hafter, hthrough, ?_, fun _ => ?_⟩, ⟨rfl, rfl, rfl, rfl, rfl, rfl, rfl, rfl, rfl⟩⟩
    · rw [rows_insert_fresh hkey, h.members, if_neg hsnapshot]
      simp [hsnapshot, fileOf]
    · rw [sum_tally, h.counted hsnapshot]
      simp

theorem read_addEntries [StoreLayout] {db : Database} {m n : Manifest} {entries es : List Entry} (h : Read m entries)
    (hadd : addEntries db m es = .ok n) : Read n (entries ++ es) ∧ SameHeader m n := by
  induction es generalizing m entries with
  | nil =>
    cases hadd
    rw [List.append_nil]
    exact ⟨h, sameHeader_refl _⟩
  | cons e es ih =>
    rw [addEntries] at hadd
    split at hadd
    · rename_i m' hm'
      obtain ⟨hread, hsame⟩ := read_addEntry h hm'
      obtain ⟨hread', hsame'⟩ := ih hread hadd
      rw [List.append_assoc] at hread'
      exact ⟨hread', hsame.trans hsame'⟩
    · cases hadd

theorem counted_eq_ok {m n : Manifest} {k : Nat} (h : counted m k = .ok n) :
    (m.next + k = m.total ∧ sha256 m.sent = m.id ∧ n = { m with next := m.next + k, complete := true }) ∨
    (m.next + k ≠ m.total ∧ n = { m with next := m.next + k }) := by
  simp only [counted] at h
  split at h
  · rename_i htotal
    split at h
    · cases h
    · rename_i hid
      cases h
      exact Or.inl ⟨htotal, not_not.mp hid, rfl⟩
  · rename_i htotal
    cases h
    exact Or.inr ⟨htotal, rfl⟩

/-! ## A stored manifest -/

/-- Since these events began, the peer's entry of a path was answered complete as it was announced. -/
def AnsweredComplete (peer : Text) (log : List Event) (m : Manifest) (path : Text) : Prop :=
  ∃ ev ∈ log, ev.peer = peer ∧ ev.answer = .ok (.transfer .complete) ∧ ev.request.manifest.text = m.id ∧
    ev.request.snapshot.toValue = m.snapshot.id ∧ (ev.request.entry.getD {}).path.text = path ∧
    m.members.find? path = some (digest (utf8 (ev.request.entry.getD {}).json))

/-- What the events since the first page of a manifest tell about it. -/
structure Described (peer : Text) (since : List Event) (m : Manifest) : Prop where
  header : ∀ r ∈ acceptedPages peer since, r.manifest.text = m.id ∧ r.replica.text = m.replica ∧
    r.snapshot.toObject = m.snapshot ∧ number r.total = some m.total ∧ number r.after = some m.after ∧
    number r.through = some m.through
  offsets : ∀ front r back, acceptedPages peer since = front ++ r :: back →
    number r.offset = some (entriesOf front).length
  read : Read m (announcedEntries peer since)
  next : m.next = (announcedEntries peer since).length
  complete : m.complete → m.next = m.total ∧ sha256 m.sent = m.id
  distinct : m.applied.Nodup
  applied : ∀ path ∈ m.applied, AnsweredComplete peer since m path

theorem described_started {peer : Text} (h : PageHeader) (hrange : h.after ≤ h.through) :
    Described peer [] (started h) where
  header := by simp [acceptedPages]
  offsets := by simp [acceptedPages]
  read := read_started h hrange
  next := rfl
  complete := fun hcomplete => by simp [started] at hcomplete
  distinct := List.nodup_nil
  applied := by simp [started]

theorem AnsweredComplete.mono {peer path : Text} {log log' : List Event} {m m' : Manifest}
    (h : AnsweredComplete peer log m path) (hlog : ∀ ev ∈ log, ev ∈ log') (hid : m'.id = m.id)
    (hsnapshot : m'.snapshot = m.snapshot) (hmember : ∀ v, m.members.find? path = some v → m'.members.find? path = some v) :
    AnsweredComplete peer log' m' path := by
  obtain ⟨ev, hmem, hpeer, hanswer, hmanifest, hsnap, hpath, hfound⟩ := h
  exact ⟨ev, hlog ev hmem, hpeer, hanswer, hmanifest.trans hid.symm, hsnap.trans (by rw [hsnapshot]), hpath,
    hmember _ hfound⟩

/-- An event that is no accepted page of the peer changes nothing about its manifest. -/
theorem Described.other {peer : Text} {since : List Event} {m : Manifest} (h : Described peer since m) {ev : Event}
    (hev : acceptedPage peer ev = none) : Described peer (since ++ [ev]) m := by
  have hpages : acceptedPages peer (since ++ [ev]) = acceptedPages peer since := by
    rw [acceptedPages_concat, hev]
    exact List.append_nil _
  have hentries : announcedEntries peer (since ++ [ev]) = announcedEntries peer since := by
    rw [announcedEntries, hpages, announcedEntries]
  exact
    { header := by rw [hpages]; exact h.header
      offsets := by rw [hpages]; exact h.offsets
      read := by rw [hentries]; exact h.read
      next := by rw [hentries]; exact h.next
      complete := h.complete
      distinct := h.distinct
      applied := fun path hpath =>
        (h.applied path hpath).mono (fun ev hmem => List.mem_append_left _ hmem) rfl rfl fun _ => id }

theorem pageHeader_eq_some {w : World} {r : Request} {h : PageHeader} (hheader : pageHeader w r = some h) :
    r.manifest.text = h.id ∧ r.replica.text = h.replica ∧ r.snapshot.toObject = h.snapshot ∧
      number r.offset = some h.offset ∧ number r.total = some h.total ∧ number r.after = some h.after ∧
      number r.through = some h.through ∧ h.after ≤ h.through := by
  rw [pageHeader] at hheader
  split at hheader
  · rename_i offset total after through ho ht ha hth
    dsimp only at hheader
    split at hheader
    · cases hheader
    · rename_i hfits
      cases hheader
      simp only [not_or] at hfits
      exact ⟨rfl, rfl, rfl, ho, ht, ha, hth, Nat.le_of_not_lt hfits.2.2.2.1⟩
  · cases hheader

theorem continues_iff {m : Manifest} {h : PageHeader} :
    continues m h ↔ m.complete = false ∧ m.id = h.id ∧ m.replica = h.replica ∧ m.next = h.offset ∧ m.total = h.total ∧
      m.after = h.after ∧ m.through = h.through ∧ m.snapshot = h.snapshot := by
  simp [continues, and_assoc]

theorem continues_started {h : PageHeader} (hoffset : h.offset = 0) : continues (started h) h :=
  continues_iff.mpr ⟨rfl, rfl, rfl, hoffset.symm, rfl, rfl, rfl, rfl⟩

/-- Reading the next page of a manifest. -/
theorem Described.page [StoreLayout] {peer : Text} {since : List Event} {m n n' : Manifest} {w : World} {r : Request}
    {h : PageHeader} {a : Acknowledgement} (hd : Described peer since m) (hheader : pageHeader w r = some h)
    (hcont : continues m h) (hadd : addEntries w.db m (r.entries.getD []) = .ok n)
    (hcount : counted n (r.entries.getD []).length = .ok n') :
    Described peer (since ++ [⟨peer, r, .ok (.manifest a)⟩]) n' := by
  obtain ⟨hid, hreplica, hsnapshot, hoffset, htotal, hafter, hthrough, -⟩ := pageHeader_eq_some hheader
  obtain ⟨-, hid', hreplica', hnext', htotal', hafter', hthrough', hsnapshot'⟩ := continues_iff.mp hcont
  have hpages : acceptedPages peer (since ++ [⟨peer, r, .ok (.manifest a)⟩]) = acceptedPages peer since ++ [r] := by
    rw [acceptedPages_concat]
    simp [acceptedPage]
  have hentries : announcedEntries peer (since ++ [⟨peer, r, .ok (.manifest a)⟩]) =
      announcedEntries peer since ++ r.entries.getD [] := by
    rw [announcedEntries, hpages, entriesOf_concat, announcedEntries]
  obtain ⟨hread, hsame⟩ := read_addEntries hd.read hadd
  have hkeep : n'.id = m.id ∧ n'.replica = m.replica ∧ n'.snapshot = m.snapshot ∧ n'.total = m.total ∧
      n'.after = m.after ∧ n'.through = m.through ∧ n'.applied = m.applied ∧ n'.members = n.members ∧
      n'.next = m.next + (r.entries.getD []).length ∧ n'.sent = n.sent ∧ n'.sequence = n.sequence ∧ n'.diff = n.diff := by
    rcases counted_eq_ok hcount with ⟨-, -, rfl⟩ | ⟨-, rfl⟩
    · exact ⟨hsame.id, hsame.replica, hsame.snapshot, hsame.total, hsame.after, hsame.through, hsame.applied, rfl,
        by rw [hsame.next], rfl, rfl, rfl⟩
    · exact ⟨hsame.id, hsame.replica, hsame.snapshot, hsame.total, hsame.after, hsame.through, hsame.applied, rfl,
        by rw [hsame.next], rfl, rfl, rfl⟩
  obtain ⟨kid, kreplica, ksnapshot, ktotal, kafter, kthrough, kapplied, kmembers, knext, ksent, ksequence, kdiff⟩ := hkeep
  refine ⟨?_, ?_, ?_, ?_, ?_, ?_, ?_⟩
  · intro p hp
    rw [hpages] at hp
    rw [kid, kreplica, ksnapshot, ktotal, kafter, kthrough]
    rcases List.mem_append.mp hp with hp | hp
    · exact hd.header p hp
    · obtain rfl := List.mem_singleton.mp hp
      exact ⟨hid.trans hid'.symm, hreplica.trans hreplica'.symm, hsnapshot.trans hsnapshot'.symm,
        by rw [htotal, htotal'], by rw [hafter, hafter'], by rw [hthrough, hthrough']⟩
  · intro front p back hsplit
    rw [hpages] at hsplit
    rcases List.eq_nil_or_concat back with rfl | ⟨back', q, rfl⟩
    · obtain ⟨rfl, hp⟩ := List.append_inj' hsplit rfl
      obtain rfl := List.singleton_inj.mp hp
      rw [hoffset, ← hnext', hd.next, announcedEntries]
    · rw [List.concat_eq_append, ← List.cons_append, ← List.append_assoc] at hsplit
      obtain ⟨hfront, -⟩ := List.append_inj' hsplit rfl
      exact hd.offsets front p back' hfront
  · rw [hentries]
    refine ⟨ksent.trans hread.sent, ?_, ?_, ?_, ?_, ?_⟩
    · rw [kafter, ksequence, ← hsame.after]
      exact hread.ordered
    · rw [kafter, ksequence, ← hsame.after]
      exact hread.after
    · rw [kthrough, ksequence, ← hsame.through]
      exact hread.through
    · rw [kmembers, hread.members, ksnapshot, hsame.snapshot]
    · rw [ksnapshot, kdiff, ← hsame.snapshot]
      exact hread.counted
  · rw [knext, hentries, List.length_append, hd.next]
  · intro hcomplete
    rcases counted_eq_ok hcount with ⟨htot, hsha, rfl⟩ | ⟨-, rfl⟩
    · exact ⟨htot, hsha⟩
    · rw [hsame.complete, (continues_iff.mp hcont).1] at hcomplete
      cases hcomplete
  · rw [kapplied]
    exact hd.distinct
  · intro path hpath
    rw [kapplied] at hpath
    refine (hd.applied path hpath).mono (fun ev hmem => List.mem_append_left _ hmem) kid ksnapshot ?_
    intro v hv
    rw [kmembers, ← Table.mem_rows_iff, hread.members, hsame.snapshot]
    rw [← Table.mem_rows_iff, hd.read.members] at hv
    split
    · rename_i hempty
      rw [if_pos hempty] at hv
      cases hv
    · rename_i hempty
      rw [if_neg hempty] at hv
      rw [List.map_append]
      exact List.mem_append_left _ hv

/-- Noting a path that has just been answered complete. -/
theorem Described.noted {peer : Text} {since : List Event} {m : Manifest} (h : Described peer since m) {ev : Event}
    {path : Text} (hev : acceptedPage peer ev = none) (hpath : AnsweredComplete peer [ev] m path) :
    Described peer (since ++ [ev]) { m with applied := if path ∈ m.applied then m.applied else m.applied ++ [path] } := by
  have hother := h.other hev
  refine ⟨hother.header, hother.offsets, ⟨hother.read.sent, hother.read.ordered, hother.read.after, hother.read.through,
    hother.read.members, hother.read.counted⟩, hother.next, hother.complete, ?_, ?_⟩
  · dsimp only
    split
    · exact h.distinct
    · rename_i hnew
      exact List.nodup_append.mpr ⟨h.distinct, List.nodup_singleton _, by
        intro a ha b hb hab
        obtain rfl := List.mem_singleton.mp hb
        exact hnew (hab ▸ ha)⟩
  · intro p hp
    have hcases : p ∈ m.applied ∨ p = path := by
      dsimp only at hp
      split at hp
      · exact Or.inl hp
      · simpa using hp
    rcases hcases with hp | rfl
    · exact (hother.applied p hp).mono (fun _ => id) rfl rfl fun _ => id
    · exact hpath.mono (fun ev' hmem => List.mem_append_right _ hmem) rfl rfl fun _ => id

end Replica

end SocietyHelper.Sync
