import SocietyHelper.Library.History
import SocietyHelper.Sync.NamespaceJournal

/-! # The chain of revisions

What a stored revision owes to the revisions before it, and that both writers,
an authority's `commit` and a mirror's `accept`, only ever add revisions that
owe nothing.
-/

namespace SocietyHelper.Sync

open Library Effect Database

namespace NamespaceJournal

variable [StoreLayout] {j : NamespaceJournal}

/-- A stored row continues the rows before it. -/
structure Extends (j : NamespaceJournal) (earlier : List JournalRow) (row : JournalRow) : Prop where
  sequence : row.sequence = earlier.length + 1
  stored : counter row.data.sequence = row.sequence
  space : row.data.space = .string j.space
  authority : row.data.authority = .string j.authority
  name : row.data.revision = .string row.revision
  identity : row.revision = row.data.identity
  previous : row.data.previous = .string (headRevision earlier)
  record : validRecord row.data.object
  path : row.path = row.data.object.path.text
  parents : ∃ ps, row.data.parents = some ps ∧ ps.length ≤ 2 ∧
    (∀ p ∈ ps, ∃ r ∈ earlier, p = .string r.revision) ∧
    ∀ r, latest earlier row.path = some r → .string r.revision ∈ ps

def Chain (j : NamespaceJournal) (rows : List JournalRow) : Prop := Linked j.Extends rows

namespace Chain

variable {rows : List JournalRow}

theorem sequences (h : j.Chain rows) :
    rows.map JournalRow.sequence = (List.range rows.length).map fun k : Nat => (k : Int) + 1 := by
  refine List.ext_getElem (by simp) fun k hk _ => ?_
  have hlength : k < rows.length := by simpa using hk
  have hsequence := (Linked.getElem h hlength).sequence
  rw [List.length_take, Nat.min_eq_left (Nat.le_of_lt hlength)] at hsequence
  simpa using hsequence

theorem sequence_mem (h : j.Chain rows) {r : JournalRow} (hr : r ∈ rows) :
    0 < r.sequence ∧ r.sequence ≤ rows.length ∧ r.sequence ≤ maxCounter := by
  obtain ⟨earlier, hfront, hfresh, hext⟩ := Linked.exists_of_mem h hr
  have hsequence := hext.sequence
  have hcounter := (counter_le r.data.sequence).2
  rw [hext.stored] at hcounter
  have hlength : earlier.length < rows.length := by
    refine lt_of_le_of_ne hfront.length_le fun heq => hfresh ?_
    rwa [hfront.eq_of_length heq]
  omega

theorem headSequence_eq (h : j.Chain rows) : headSequence rows = rows.length := by
  rcases List.eq_nil_or_concat rows with rfl | ⟨earlier, r, rfl⟩
  · rfl
  · rw [List.concat_eq_append] at h ⊢
    have hext := (Linked.concat_iff.mp h).2
    simp [headSequence, hext.sequence]

theorem length_le (h : j.Chain rows) : rows.length ≤ maxCounter := by
  rcases List.eq_nil_or_concat rows with rfl | ⟨earlier, r, rfl⟩
  · exact Nat.zero_le _
  · have hle := h.sequence_mem (r := r) (by simp)
    have hext := (Linked.concat_iff.mp (List.concat_eq_append ▸ h)).2.sequence
    simp only [List.concat_eq_append, List.length_append, List.length_singleton]
    omega

theorem counter_headSequence (h : j.Chain rows) : counter (.string (decimalInt (headSequence rows))) = rows.length := by
  rw [h.headSequence_eq, decimalInt_natCast, counter_decimal h.length_le]

theorem mem_object {db : Database} (h : j.Chain db.revisions.rows) {path : Text} {e : Entry}
    (he : object db path = some e) :
    ∃ r ∈ db.revisions.rows, latest db.revisions.rows path = some r ∧ e.revision = .string r.revision := by
  obtain ⟨r, hr, rfl⟩ := Option.map_eq_some_iff.mp he
  have hmem : r ∈ db.revisions.rows := (List.mem_filter.mp (List.mem_of_getLast? hr)).1
  obtain ⟨earlier, _, _, hext⟩ := Linked.exists_of_mem h hmem
  exact ⟨r, hmem, hr, hext.name⟩

end Chain

omit [StoreLayout] in
theorem exists_of_revision {db : Database} {id : Text} (h : (revision db id).isSome) :
    ∃ r ∈ db.revisions.rows, r.revision = id := by
  rw [revision, Revisions.find, Option.isSome_map, List.find?_isSome] at h
  obtain ⟨r, hr, hid⟩ := h
  exact ⟨r, hr, of_decide_eq_true hid⟩

/-- The parents a page must bring along are those a stored row is allowed to name. -/
theorem parents_of_parentsStored {db : Database} (h : j.Chain db.revisions.rows) {r : Revision}
    (hstored : parentsStored db r) :
    (∀ p ∈ r.parents.getD [], ∃ s ∈ db.revisions.rows, p = .string s.revision) ∧
    ∀ s, latest db.revisions.rows r.object.path.text = some s → .string s.revision ∈ r.parents.getD [] := by
  simp only [parentsStored, Bool.and_eq_true, List.all_eq_true] at hstored
  obtain ⟨hlatest, hall⟩ := hstored
  constructor
  · intro p hp
    obtain ⟨hstring, hsome⟩ := hall p hp
    obtain ⟨s, hs, hid⟩ := exists_of_revision hsome
    exact ⟨s, hs, by rw [hid, ← (Value.isString_iff p).mp hstring]⟩
  · intro s hs
    have hobject : object db r.object.path.text = some (projected s.data) := by
      rw [object, hs]
      rfl
    obtain ⟨s', _, hs', hrevision⟩ := h.mem_object hobject
    rw [hobject] at hlatest
    rw [hs] at hs'
    cases hs'
    rw [← hrevision]
    exact List.contains_iff_mem.mp hlatest

theorem parents_of_parentsOf {db : Database} (h : j.Chain db.revisions.rows) (path base : Text) :
    (parentsOf db (object db path) base).length ≤ 2 ∧
    (∀ p ∈ parentsOf db (object db path) base, ∃ s ∈ db.revisions.rows, p = .string s.revision) ∧
    ∀ s, latest db.revisions.rows path = some s → .string s.revision ∈ parentsOf db (object db path) base := by
  have hbase : ∀ p ∈ (if base ≠ [] ∧ ((object db path).getD {}).revision ≠ .string base ∧ (revision db base).isSome
      then [Value.string base] else []), ∃ s ∈ db.revisions.rows, p = .string s.revision := by
    intro p hp
    split at hp
    · rename_i hcond
      obtain ⟨s, hs, hid⟩ := exists_of_revision hcond.2.2
      exact ⟨s, hs, by rw [List.mem_singleton.mp hp, hid]⟩
    · cases hp
  have hlength : (if base ≠ [] ∧ ((object db path).getD {}).revision ≠ .string base ∧ (revision db base).isSome
      then [Value.string base] else []).length ≤ 1 := by
    split <;> simp
  cases hobject : object db path with
  | none =>
    rw [hobject] at hbase hlength
    refine ⟨Nat.le_succ_of_le (by simpa [parentsOf] using hlength), by simpa [parentsOf] using hbase, ?_⟩
    intro s hs
    rw [object, hs] at hobject
    cases hobject
  | some e =>
    rw [hobject] at hbase hlength
    obtain ⟨s, hmem, hs, hrevision⟩ := h.mem_object hobject
    refine ⟨?_, ?_, ?_⟩
    · rw [parentsOf, List.length_append, List.length_singleton]
      omega
    · intro p hp
      rw [parentsOf, List.singleton_append, List.mem_cons] at hp
      rcases hp with rfl | hp
      · exact ⟨s, hmem, hrevision⟩
      · exact hbase p hp
    · intro s' hs'
      rw [hs] at hs'
      cases hs'
      rw [parentsOf, hrevision]
      exact List.mem_append_left _ (List.mem_singleton_self _)

/-! ## Appending -/

omit [StoreLayout] in
/-- An append above every stored sequence adds its row at the end, or changes no table. -/
theorem append_cases {db : Database} {r : Revision} (h : ∀ s ∈ db.revisions.rows, s.sequence < counter r.sequence) :
    (∃ e faults, faults <:+ db.faults ∧ append r db = .error e { db with faults }) ∨
    ∃ t, append r db = .ok () { db with revisions := t, faults := db.faults.tail } ∧
      t.rows = db.revisions.rows ++ [rowOf r] := by
  rcases statement_cases (fun db => (db.revisions.insert (rowOf r)).map fun t => { db with revisions := t }) db with
    ⟨t, hwrite, hok⟩ | ⟨faults, hsuffix, herror⟩
  · obtain ⟨inserted, hinserted, rfl⟩ := Option.map_eq_some_iff.mp hwrite
    refine Or.inr ⟨inserted, hok, ?_⟩
    have hrows := Revisions.insert_of_lt (r := rowOf r) h
    rw [hinserted] at hrows
    split at hrows
    · exact Option.some.inj hrows
    · cases hrows
  · exact Or.inl ⟨_, faults, hsuffix, herror⟩

/-- The revision that a commit adds continues the chain. -/
theorem extends_next {db : Database} (h : j.Chain db.revisions.rows) {record : Entry} (proposal base : Text)
    (hroom : ¬maxCounter < counter (.string (j.state db).sequence) + 1) (hvalid : validRecord record) :
    j.Extends db.revisions.rows (rowOf (j.next db record proposal base)) := by
  have hhead : counter (.string (j.state db).sequence) = db.revisions.rows.length := h.counter_headSequence
  have hsequence : counter (j.next db record proposal base).sequence = db.revisions.rows.length + 1 := by
    rw [hhead] at hroom
    rw [next, hhead]
    exact counter_decimal (n := db.revisions.rows.length + 1) (by omega)
  obtain ⟨hlength, hstored, hlatest⟩ := parents_of_parentsOf h record.path.text base
  exact
    { sequence := hsequence
      stored := rfl
      space := rfl
      authority := rfl
      name := rfl
      identity := rfl
      previous := rfl
      record := validRecord_content hvalid
      path := rfl
      parents := ⟨_, rfl, hlength, hstored, hlatest⟩ }

/-- A row that continues the chain lies above every stored one. -/
theorem below_of_extends {rows : List JournalRow} (h : j.Chain rows) {row : JournalRow}
    (hext : j.Extends rows row) : ∀ s ∈ rows, s.sequence < row.sequence := by
  intro s hs
  have hsequence := hext.sequence
  have hle := (h.sequence_mem hs).2.1
  omega

/-- A commit changes nothing, or it adds the next revision. -/
theorem commit_cases {db : Database} (h : j.Chain db.revisions.rows) (record : Entry) (proposal base : Text) :
    (∃ faults, faults <:+ db.faults ∧ final (j.commit record proposal base db) = { db with faults }) ∨
    ∃ t, final (j.commit record proposal base db) = { db with revisions := t, faults := db.faults.tail } ∧
      t.rows = db.revisions.rows ++ [rowOf (j.next db record proposal base)] ∧
      j.Extends db.revisions.rows (rowOf (j.next db record proposal base)) := by
  rw [commit, bind_of_ok (get_apply db)]
  split
  · exact Or.inl ⟨db.faults, List.suffix_rfl, rfl⟩
  · split
    · exact Or.inl ⟨db.faults, List.suffix_rfl, rfl⟩
    · rename_i hcond
      obtain ⟨hroom, hvalid⟩ := not_or.mp hcond
      have hext := extends_next h proposal base hroom (not_not.mp hvalid)
      rcases append_cases (below_of_extends h hext) with ⟨e, faults, hsuffix, herror⟩ | ⟨t, hok, hrows⟩
      · rw [bind_of_error herror]
        exact Or.inl ⟨faults, hsuffix, rfl⟩
      · rw [bind_of_ok hok]
        exact Or.inr ⟨t, rfl, hrows, hext⟩

theorem chain_commit {db : Database} (h : j.Chain db.revisions.rows) (record : Entry) (proposal base : Text) :
    j.Chain (final (j.commit record proposal base db)).revisions.rows := by
  rcases commit_cases h record proposal base with ⟨faults, -, hfinal⟩ | ⟨t, hfinal, hrows, hext⟩
  · rw [hfinal]
    exact h
  · rw [hfinal]
    exact hrows ▸ Linked.concat_iff.mpr ⟨h, hext⟩

/-- A revision that passes every check continues the chain. -/
theorem extends_of_revisionFits {db : Database} (h : j.Chain db.revisions.rows) {r : Revision}
    (hfits : j.revisionFits db.revisions.rows.length (headRevision db.revisions.rows) r) (hstored : parentsStored db r) :
    j.Extends db.revisions.rows (rowOf (named r)) := by
  simp only [revisionFits, Bool.and_eq_true, decide_eq_true_eq] at hfits
  obtain ⟨⟨⟨⟨⟨⟨⟨hid, hspace⟩, hauthority⟩, hsequence⟩, hprevious⟩, hparents⟩, hlength⟩, hvalid⟩ := hfits
  obtain ⟨ps, hps⟩ := Option.isSome_iff_exists.mp hparents
  obtain ⟨hearlier, hlatest⟩ := parents_of_parentsStored h hstored
  rw [hps, Option.getD_some] at hlength hearlier hlatest
  exact
    { sequence := hsequence
      stored := rfl
      space := hspace
      authority := hauthority
      name := rfl
      identity := hid
      previous := hprevious
      record := hvalid
      path := rfl
      parents := ⟨ps, hps, hlength, hearlier, hlatest⟩ }

omit [StoreLayout] in
theorem named_eq {r : Revision} (h : r.revision.text = r.identity) : named r = r := by
  have hhex : hex r.identity := hex_sha256 _
  have hstring := Value.isString_of_text_ne (h ▸ ne_nil_of_hex hhex)
  rw [named, ← (Value.isString_iff r.revision).mp hstring]

/-- The revisions of an accepted page become rows, in their order. -/
theorem rows_acceptAll (rs : List Revision) {d t : Database} {reached : Int} (h : j.Chain d.revisions.rows)
    (hok : j.acceptAll rs d.revisions.rows.length (headRevision d.revisions.rows) d = .ok reached t) :
    t.revisions.rows = d.revisions.rows ++ rs.map rowOf ∧ j.Chain t.revisions.rows ∧
      reached = t.revisions.rows.length := by
  induction rs generalizing d with
  | nil =>
    cases hok
    exact ⟨(List.append_nil _).symm, h, rfl⟩
  | cons r rs ih =>
    rw [acceptAll] at hok
    split at hok
    · cases hok
    · rename_i hfits
      rw [bind_of_ok (get_apply d)] at hok
      split at hok
      · cases hok
      · rename_i hstored
        have hext := extends_of_revisionFits h (not_not.mp hfits) (not_not.mp hstored)
        have hnamed : named r = r := by
          refine named_eq ?_
          simp only [revisionFits, Bool.and_eq_true, decide_eq_true_eq] at hfits
          exact (not_not.mp hfits).1.1.1.1.1.1.1
        rw [hnamed] at hext hok
        obtain ⟨_, u, happend, hrest⟩ := bind_eq_ok.mp hok
        rcases append_cases (below_of_extends h hext) with ⟨e, faults, -, herror⟩ | ⟨t', hok', hrows⟩
        · rw [herror] at happend
          cases happend
        · rw [hok'] at happend
          cases happend
          have hhead : headRevision t'.rows = r.revision.text := by
            rw [hrows, headRevision, List.getLast?_concat]
            rfl
          have hlength : (t'.rows.length : Int) = d.revisions.rows.length + 1 := by
            rw [hrows, List.length_append, List.length_singleton]
            rfl
          rw [← hhead, ← hlength] at hrest
          obtain ⟨hall, hchain, hreached⟩ :=
            ih (d := { d with revisions := t', faults := _ }) (hrows ▸ Linked.concat_iff.mpr ⟨h, hext⟩) hrest
          refine ⟨?_, hchain, hreached⟩
          rw [hall, hrows, List.append_assoc, List.map_cons, List.singleton_append]

theorem rows_accept {db t : Database} {page : Page Revision} (h : j.Chain db.revisions.rows)
    (hok : j.accept page db = .ok () t) :
    t.revisions.rows = db.revisions.rows ++ (page.entries.getD []).map rowOf ∧ j.Chain t.revisions.rows := by
  rw [accept, bind_of_ok (get_apply db)] at hok
  split at hok
  · cases hok
  · obtain ⟨reached, u, hall, hend⟩ := bind_eq_ok.mp hok
    have hhead : counter (.string (j.state db).sequence) = db.revisions.rows.length := h.counter_headSequence
    rw [hhead] at hall
    obtain ⟨hrows, hchain, -⟩ := rows_acceptAll _ h hall
    split at hend
    · cases hend
    · cases hend
      exact ⟨hrows, hchain⟩

/-! ## Runs -/

/-- What happens to a journal: an authority decides, a mirror receives a page inside
one transaction, and a container that changes its host starts again empty. -/
inductive Operation where
  | commit (record : Entry) (proposal base : Text)
  | accept (page : Page Revision)
  | clear (identity : NamespaceJournal)

/-- A journal together with the database that holds it. -/
structure Ledger where
  journal : NamespaceJournal
  db : Database

def Operation.run (s : Ledger) : Operation → Ledger
  | commit record proposal base => { s with db := final (s.journal.commit record proposal base s.db) }
  | accept page => { s with db := final (transaction (s.journal.accept page) s.db) }
  | clear identity =>
    match transaction NamespaceJournal.clear s.db with
    | .ok _ db => { journal := identity, db }
    | .error _ db => { s with db }

omit [StoreLayout] in
theorem rows_clear {db t : Database} (h : NamespaceJournal.clear db = .ok () t) : t.revisions.rows = [] := by
  obtain ⟨_, u, hrevisions, hlocations⟩ := bind_eq_ok.mp h
  obtain ⟨-, w, hw, rfl⟩ := statement_eq_ok.mp hrevisions
  obtain ⟨-, v, hv, rfl⟩ := statement_eq_ok.mp hlocations
  cases hw
  cases hv
  rfl

theorem chain_operation {s : Ledger} (h : s.journal.Chain s.db.revisions.rows) (op : Operation) :
    (op.run s).journal.Chain (op.run s).db.revisions.rows := by
  cases op with
  | commit record proposal base => exact chain_commit h record proposal base
  | accept page =>
    simp only [Operation.run, transaction, rollback]
    cases hok : s.journal.accept page s.db with
    | ok u t => exact (rows_accept h hok).2
    | error e t => exact h
  | clear identity =>
    simp only [Operation.run, transaction, rollback]
    cases hok : NamespaceJournal.clear s.db with
    | ok u t => exact rows_clear hok ▸ Linked.nil
    | error e t => exact h

/-- Whatever is committed, received or cleared, in whatever order and whichever writes
fail, the stored revisions form a chain. -/
theorem chain_run (journal : NamespaceJournal) (db : Database) (ops : List Operation) :
    let s := ops.foldl Operation.run { journal, db := { db with revisions := .empty } }
    s.journal.Chain s.db.revisions.rows := by
  have hrun : ∀ s : Ledger, s.journal.Chain s.db.revisions.rows →
      (ops.foldl Operation.run s).journal.Chain (ops.foldl Operation.run s).db.revisions.rows := by
    induction ops with
    | nil => exact fun s hs => hs
    | cons op ops ih => exact fun s hs => ih _ (chain_operation hs op)
  exact hrun _ Linked.nil

end NamespaceJournal

end SocietyHelper.Sync
