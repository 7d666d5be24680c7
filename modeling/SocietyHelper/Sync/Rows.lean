import SocietyHelper.Sync.Steady

/-! # The rows of a mirror

Every save of a mirror leaves its rows numbered differently and below the
sequence of the container; a row whose version changes moves above everything
that was there, and the journal stays as it is.
-/

namespace SocietyHelper.Sync

open Library Effect

namespace Replica

def sequenceKey : Text := text "sequence"

/-- What the rows of a mirror keep through every save. -/
structure Rows (db : Database) : Prop where
  keyed : ∀ {path row}, db.entries.find? path = some row → row.data.path.text = path
  distinct : ∀ {p q r s}, db.entries.find? p = some r → db.entries.find? q = some s → r.sequence = s.sequence → p = q
  bounds : ∀ {path row}, db.entries.find? path = some row → 0 ≤ row.sequence ∧ row.sequence ≤ metaNumber db sequenceKey
  plain : ∀ {path row}, db.entries.find? path = some row → ¬row.data.revision.defined → plainEntry row.data
  limit : 0 ≤ metaNumber db sequenceKey ∧ metaNumber db sequenceKey ≤ maxCounter

/-- How rows move: a row is new above the old sequence, or it keeps its sequence and its version. -/
structure Evolves (s t : Database) : Prop where
  sequence : metaNumber s sequenceKey ≤ metaNumber t sequenceKey
  moved : ∀ {path row}, t.entries.find? path = some row → metaNumber s sequenceKey < row.sequence ∨
    ∃ before, s.entries.find? path = some before ∧ row.sequence = before.sequence ∧
      row.data.version = before.data.version

theorem evolves_refl (s : Database) : Evolves s s := ⟨Int.le_refl _, fun h => Or.inr ⟨_, h, rfl, rfl⟩⟩

theorem Evolves.trans {s t u : Database} (h : Evolves s t) (h' : Evolves t u) : Evolves s u := by
  refine ⟨Int.le_trans h.sequence h'.sequence, fun hrow => ?_⟩
  rcases h'.moved hrow with hnew | ⟨before, hbefore, hsequence, hversion⟩
  · exact Or.inl (Int.lt_of_le_of_lt h.sequence hnew)
  · rcases h.moved hbefore with hnew | ⟨first, hfirst, hsequence', hversion'⟩
    · exact Or.inl (hsequence ▸ hnew)
    · exact Or.inr ⟨first, hfirst, hsequence.trans hsequence', hversion.trans hversion'⟩

/-- What every save of a mirror keeps of its database. -/
def mirrorRows : Frame Database where
  rel s t := (∀ key, key ≠ sequenceKey → key ≠ text "counter" → t.meta_ key = s.meta_ key) ∧
    t.revisions = s.revisions ∧ (Rows s → Rows t ∧ Evolves s t)
  refl s := ⟨fun _ _ _ => rfl, rfl, fun h => ⟨h, evolves_refl s⟩⟩
  trans := by
    rintro s t u ⟨hmeta, hrevisions, hrows⟩ ⟨hmeta', hrevisions', hrows'⟩
    refine ⟨fun key hk hk' => (hmeta' key hk hk').trans (hmeta key hk hk'), hrevisions'.trans hrevisions, fun h => ?_⟩
    obtain ⟨ht, hst⟩ := hrows h
    obtain ⟨hu, htu⟩ := hrows' ht
    exact ⟨hu, hst.trans htu⟩

/-- Databases with the same rows and the same metadata. -/
theorem mirrorRows_same {s t : Database} (hmetadata : t.metadata = s.metadata) (hentries : t.entries = s.entries)
    (hrevisions : t.revisions = s.revisions) : mirrorRows.rel s t := by
  have hmeta : ∀ key, t.meta_ key = s.meta_ key := fun key => by rw [Database.meta_, hmetadata, Database.meta_]
  have hnumber : ∀ key, metaNumber t key = metaNumber s key := fun key => by rw [metaNumber, hmeta, metaNumber]
  refine ⟨fun key _ _ => hmeta key, hrevisions, fun h => ⟨?_, ?_⟩⟩
  · exact
      { keyed := by rw [hentries]; exact h.keyed
        distinct := by rw [hentries]; exact h.distinct
        bounds := by rw [hentries, hnumber]; exact h.bounds
        plain := by rw [hentries]; exact h.plain
        limit := by rw [hnumber]; exact h.limit }
  · refine ⟨Int.le_of_eq (hnumber _).symm, fun hrow => ?_⟩
    rw [hentries] at hrow
    exact Or.inr ⟨_, hrow, rfl, rfl⟩

theorem mirrorRows_statement {write : Database → Option Database}
    (h : ∀ s t, write s = some t → t.metadata = s.metadata ∧ t.entries = s.entries ∧ t.revisions = s.revisions) :
    Keeps mirrorRows (Database.statement write) := by
  intro s
  rcases Database.statement_cases write s with ⟨t, ht, heq⟩ | ⟨faults, -, heq⟩
  · rw [heq]
    obtain ⟨hmetadata, hentries, hrevisions⟩ := h s t ht
    exact mirrorRows_same hmetadata hentries hrevisions
  · rw [heq]
    exact mirrorRows_same rfl rfl rfl

theorem meta_insert (db : Database) (key value other : Text) :
    Database.meta_ { db with metadata := db.metadata.insert key value } other =
      if other = key then value else db.meta_ other := by
  rw [Database.meta_, Table.find?_insert]
  split <;> rfl

theorem mirrorRows_count (value : Text) : Keeps mirrorRows (Database.setMeta (text "counter") value) := by
  intro s
  have hsame : ∀ faults, mirrorRows.rel s
      { s with metadata := s.metadata.insert (text "counter") value, faults := faults } := by
    intro faults
    have hmeta : ∀ key, key ≠ text "counter" →
        Database.meta_ { s with metadata := s.metadata.insert (text "counter") value, faults := faults } key = s.meta_ key :=
      fun key hkey => (meta_insert s (text "counter") value key).trans (if_neg hkey)
    have hnumber : metaNumber { s with metadata := s.metadata.insert (text "counter") value, faults := faults }
        sequenceKey = metaNumber s sequenceKey := by
      rw [metaNumber, hmeta _ (by decide), metaNumber]
    refine ⟨fun key _ hkey => hmeta key hkey, rfl, fun h => ⟨?_, ?_⟩⟩
    · exact
        { keyed := h.keyed
          distinct := h.distinct
          bounds := by rw [hnumber]; exact h.bounds
          plain := h.plain
          limit := by rw [hnumber]; exact h.limit }
    · exact ⟨Int.le_of_eq hnumber.symm, fun hrow => Or.inr ⟨_, hrow, rfl, rfl⟩⟩
  rw [Database.setMeta]
  rcases Database.statement_cases (fun db => some { db with metadata := db.metadata.insert (text "counter") value }) s
    with ⟨t, ht, heq⟩ | ⟨faults, -, heq⟩
  · cases ht
    rw [heq]
    exact hsame _
  · rw [heq]
    exact mirrorRows_same rfl rfl rfl

/-! ## Saving a record -/

/-- A row that is stored under the next sequence, or over one of the same version. -/
theorem mirrorRows_insert {s t : Database} {path : Text} {row : EntryRow} (hentries : t.entries = s.entries.insert path row)
    (hrevisions : t.revisions = s.revisions)
    (hmeta : ∀ key, key ≠ sequenceKey → key ≠ text "counter" → t.meta_ key = s.meta_ key)
    (hkeyed : row.data.path.text = path) (hplain : ¬row.data.revision.defined → plainEntry row.data)
    (hcases : Rows s → (metaNumber t sequenceKey = metaNumber s sequenceKey + 1 ∧
        row.sequence = metaNumber t sequenceKey ∧ metaNumber t sequenceKey ≤ maxCounter) ∨
      (metaNumber t sequenceKey = metaNumber s sequenceKey ∧ ∃ before, s.entries.find? path = some before ∧
        row.sequence = before.sequence ∧ row.data.version = before.data.version)) : mirrorRows.rel s t := by
  refine ⟨hmeta, hrevisions, fun h => ?_⟩
  have hfind : ∀ k, t.entries.find? k = if k = path then some row else s.entries.find? k := by
    intro k
    rw [hentries, Table.find?_insert]
  have hbounds : ∀ {k r}, s.entries.find? k = some r → 0 ≤ r.sequence ∧ r.sequence ≤ metaNumber t sequenceKey := by
    intro k r hr
    have hold := h.bounds hr
    rcases hcases h with ⟨hnext, -, -⟩ | ⟨hsame, -⟩ <;> omega
  have hrow : 0 ≤ row.sequence ∧ row.sequence ≤ metaNumber t sequenceKey := by
    have hlimit := h.limit
    rcases hcases h with ⟨hnext, hseq, -⟩ | ⟨hsame, before, hbefore, hseq, -⟩
    · omega
    · have hold := h.bounds hbefore
      omega
  have hother : ∀ {k r}, k ≠ path → s.entries.find? k = some r → r.sequence ≠ row.sequence := by
    intro k r hk hr hseq
    rcases hcases h with ⟨hnext, hrowseq, -⟩ | ⟨-, before, hbefore, hrowseq, -⟩
    · have hold := (h.bounds hr).2
      omega
    · exact hk (h.distinct hr hbefore (hseq.trans hrowseq))
  refine ⟨⟨?_, ?_, ?_, ?_, ?_⟩, ?_, ?_⟩
  · intro k r hr
    rw [hfind] at hr
    split at hr
    · rename_i hk
      cases hr
      rw [hkeyed, hk]
    · exact h.keyed hr
  · intro p q r r' hr hr' hseq
    rw [hfind] at hr hr'
    split at hr <;> split at hr'
    · rename_i hp hq
      rw [hp, hq]
    · rename_i hp hq
      cases hr
      exact absurd hseq.symm (hother hq hr')
    · rename_i hp hq
      cases hr'
      exact absurd hseq (hother hp hr)
    · exact h.distinct hr hr' hseq
  · intro k r hr
    rw [hfind] at hr
    split at hr
    · cases hr
      exact hrow
    · exact hbounds hr
  · intro k r hr hpending
    rw [hfind] at hr
    split at hr
    · cases hr
      exact hplain hpending
    · exact h.plain hr hpending
  · have hlimit := h.limit
    rcases hcases h with ⟨hnext, -, hmax⟩ | ⟨hsame, -⟩ <;> omega
  · rcases hcases h with ⟨hnext, -, -⟩ | ⟨hsame, -⟩ <;> omega
  · intro k r hr
    rw [hfind] at hr
    split at hr
    · rename_i hk
      cases hr
      rcases hcases h with ⟨hnext, hseq, -⟩ | ⟨-, before, hbefore, hseq, hversion⟩
      · left
        omega
      · right
        exact ⟨before, hk ▸ hbefore, hseq, hversion⟩
    · exact Or.inr ⟨r, hr, rfl, rfl⟩

theorem recorded_mirror [StoreLayout] (j : NamespaceJournal) (proposal base : Text) (input previous : Entry)
    (s : Database) : ∃ e, recorded j true proposal base input previous s = .ok e s ∧ e.path = input.path ∧
      e.version = (versioned input).version ∧ (¬e.revision.defined → plainEntry e) ∧
      e.revision = input.revision := by
  rw [recorded, if_neg (by simp)]
  split
  · rename_i hrevision
    exact ⟨_, rfl, rfl, rfl, fun hundefined => absurd hrevision hundefined, rfl⟩
  · rename_i hrevision
    have hundefined : input.revision = .undefined := by
      cases hr : input.revision with
      | undefined => rfl
      | string t => simp [hr] at hrevision
      | other t => simp [hr, Value.defined] at hrevision
    rw [bind_of_ok (get_apply s)]
    exact ⟨_, rfl, rfl, rfl, fun _ => rfl, hundefined.symm⟩

theorem sequenceFor_cases (e previous : Entry) (s : Database) :
    (previous.version = e.version ∧ sequenceFor e previous s = .ok ((toLongLong previous.sequence.text).getD 0) s) ∨
    (previous.version ≠ e.version ∧
      ((∃ error faults, sequenceFor e previous s = .error error { s with faults }) ∨
        (metaNumber s sequenceKey + 1 ≤ maxCounter ∧ ∃ faults, sequenceFor e previous s =
          .ok (metaNumber s sequenceKey + 1)
            { s with metadata := s.metadata.insert sequenceKey (decimalInt (metaNumber s sequenceKey + 1)), faults }))) := by
  rw [sequenceFor]
  by_cases hversion : previous.version = e.version
  · rw [if_neg (not_not.mpr hversion)]
    exact Or.inl ⟨hversion, rfl⟩
  · rw [if_pos hversion, bind_of_ok (get_apply s)]
    refine Or.inr ⟨hversion, ?_⟩
    split
    · exact Or.inl ⟨_, s.faults, rfl⟩
    · rename_i hlimit
      rcases Database.statement_cases (fun db => some { db with
        metadata := db.metadata.insert sequenceKey (decimalInt (metaNumber s sequenceKey + 1)) }) s
        with ⟨t, ht, heq⟩ | ⟨faults, -, heq⟩
      · cases ht
        exact Or.inr ⟨Int.not_lt.mp hlimit, _, bind_of_ok heq⟩
      · exact Or.inl ⟨_, faults, bind_of_error heq⟩

theorem toLongLong_decimalInt {n : Int} (h : 0 ≤ n ∧ n ≤ maxCounter) : toLongLong (decimalInt n) = some n := by
  obtain ⟨m, rfl⟩ := Int.eq_ofNat_of_zero_le h.1
  have hmax := h.2
  simp only [maxCounter] at hmax
  rw [decimalInt_natCast]
  exact toLongLong_decimal (by omega)

theorem metaNumber_of_metadata {db : Database} {metadata : Table Text Text} {n : Int} (h : 0 ≤ n ∧ n ≤ maxCounter)
    (hmetadata : db.metadata = metadata.insert sequenceKey (decimalInt n)) : metaNumber db sequenceKey = n := by
  rw [metaNumber, Database.meta_, hmetadata, Table.find?_insert_self, Option.getD_some, toLongLong_decimalInt h]
  rfl

/-- Drawing the next sequence touches no row. -/
theorem mirrorRows_advance {s : Database} (faults : List Bool) (h : metaNumber s sequenceKey + 1 ≤ maxCounter) :
    mirrorRows.rel s
      { s with metadata := s.metadata.insert sequenceKey (decimalInt (metaNumber s sequenceKey + 1)), faults } := by
  refine ⟨fun key hkey _ => (meta_insert s sequenceKey _ key).trans (if_neg hkey), rfl, fun hrows => ?_⟩
  have hlimit := hrows.limit
  have hnext : 0 ≤ metaNumber s sequenceKey + 1 ∧ metaNumber s sequenceKey + 1 ≤ maxCounter := by omega
  have hnumber : metaNumber { s with
      metadata := s.metadata.insert sequenceKey (decimalInt (metaNumber s sequenceKey + 1)), faults } sequenceKey =
      metaNumber s sequenceKey + 1 := metaNumber_of_metadata hnext rfl
  refine ⟨⟨hrows.keyed, hrows.distinct, fun hrow => ?_, hrows.plain, ?_⟩, ?_, fun hrow => Or.inr ⟨_, hrow, rfl, rfl⟩⟩
  · have hold := hrows.bounds hrow
    rw [hnumber]
    omega
  · rw [hnumber]
    omega
  · rw [hnumber]
    omega

theorem entry_eq_some {db : Database} {path : Text} {row : EntryRow} (h : db.entries.find? path = some row) :
    (entry db path).getD {} = { row.data with sequence := .string (decimalInt row.sequence) } := by
  rw [entry, h]
  rfl

theorem entry_eq_none {db : Database} {path : Text} (h : db.entries.find? path = none) : (entry db path).getD {} = {} := by
  rw [entry, h]
  rfl

theorem mirrorRows_saveIn [StoreLayout] (j : NamespaceJournal) (proposal base : Text) (input : Entry) (stamp : Stamp) :
    Keeps mirrorRows (saveIn j true proposal base input stamp) := by
  refine .rollback ?_ fun _ _ _ => mirrorRows_same rfl rfl rfl
  intro s
  rw [bind_of_ok (get_apply s)]
  obtain ⟨e, hrecorded, hpath, hversion, hplain, -⟩ := recorded_mirror j proposal base input
    ((entry s input.path.text).getD {}) s
  rw [bind_of_ok hrecorded]
  have hlocate : ∀ e : Entry, Keeps mirrorRows (if stamp ≠ Stamp.remote ∧ e.isKind file ∧ e.revision.defined then
      NamespaceJournal.locate e.version.text (text "local") { kind := text "local", key := nativeKey e.path.text }
      else pure ()) := fun e =>
    .ite (fun _ => mirrorRows_statement fun s t h => by cases h; exact ⟨rfl, rfl, rfl⟩) fun _ => .pure _
  -- The row is written under the sequence found before; the rest leaves rows alone.
  have hwrite : ∀ {t : Database} {n : Int}, mirrorRows.rel s t →
      (∀ faults, mirrorRows.rel s { t with entries := t.entries.insert e.path.text ⟨e, stamp, n⟩, faults }) →
      mirrorRows.rel s (final ((do
        Database.statement fun db => some { db with entries := db.entries.insert e.path.text ⟨e, stamp, n⟩ }
        if stamp ≠ Stamp.remote ∧ e.isKind file ∧ e.revision.defined then
          NamespaceJournal.locate e.version.text (text "local") { kind := text "local", key := nativeKey e.path.text })
        t)) := by
    intro t n ht hinsert
    rcases Database.statement_cases
      (fun db => some { db with entries := db.entries.insert e.path.text ⟨e, stamp, n⟩ }) t
      with ⟨u, hu, heq⟩ | ⟨faults, -, heq⟩
    · cases hu
      rw [bind_of_ok heq]
      exact mirrorRows.trans (hinsert _) (hlocate e _)
    · rw [bind_of_error heq]
      exact mirrorRows.trans ht (mirrorRows_same rfl rfl rfl)
  rcases sequenceFor_cases e ((entry s input.path.text).getD {}) s with
    ⟨hsame, heq⟩ | ⟨hnew, ⟨error, faults, heq⟩ | ⟨hlimit, faults, heq⟩⟩
  · rw [bind_of_ok heq]
    refine hwrite (mirrorRows.refl s) fun faults =>
      mirrorRows_insert rfl rfl (fun _ _ _ => rfl) rfl hplain fun h => Or.inr ⟨rfl, ?_⟩
    cases hrow : s.entries.find? input.path.text with
    | none =>
      rw [entry_eq_none hrow, hversion] at hsame
      cases hsame
    | some row =>
      rw [entry_eq_some hrow] at hsame ⊢
      have hbounds := h.bounds hrow
      have hlimit := h.limit
      rw [Value.text_string, toLongLong_decimalInt (by omega)]
      exact ⟨row, by rw [hpath, hrow], rfl, hsame.symm⟩
  · rw [bind_of_error heq]
    exact mirrorRows_same rfl rfl rfl
  · rw [bind_of_ok heq]
    refine hwrite (mirrorRows_advance faults hlimit) fun faults' => ?_
    refine mirrorRows_insert rfl rfl (fun key hkey _ => (meta_insert s sequenceKey _ key).trans (if_neg hkey)) rfl hplain
      fun h => Or.inl ?_
    have hmax := h.limit
    have hnext : 0 ≤ metaNumber s sequenceKey + 1 ∧ metaNumber s sequenceKey + 1 ≤ maxCounter := by omega
    exact ⟨metaNumber_of_metadata hnext rfl, (metaNumber_of_metadata hnext rfl).symm,
      Int.le_trans (Int.le_of_eq (metaNumber_of_metadata hnext rfl)) hlimit⟩

/-! ## Every operation of a mirror -/

/-- What every operation of a mirror keeps of its world. -/
structure MirrorKept (w v : World) : Prop where
  db : mirrorRows.rel w.db v.db
  id : v.id = w.id
  container : v.container = w.container

theorem MirrorKept.isMirror {w v : World} (h : MirrorKept w v) : isMirror v = isMirror w := by
  have hhost : Replica.host v = Replica.host w := h.db.1 hostKey (by decide) (by decide)
  rw [Replica.isMirror, hhost, Replica.isMirror]

def mirrorKept : Frame World where
  rel w v := isMirror w → MirrorKept w v
  refl _ _ := ⟨mirrorRows.refl _, rfl, rfl⟩
  trans := by
    intro w v u h h' hmirror
    have hv := h hmirror
    have hu := h' (hv.isMirror.trans hmirror)
    exact ⟨mirrorRows.trans hv.db hu.db, hu.id.trans hv.id, hu.container.trans hv.container⟩

theorem mirrorKept_onVolume {α : Type} (m : Effect Volume α) : Keeps mirrorKept (onVolume m) :=
  .zoom fun _ _ => ⟨mirrorRows.refl _, rfl, rfl⟩

theorem mirrorKept_onDatabase {α : Type} {m : Effect Database α} (h : Keeps mirrorRows m) :
    Keeps mirrorKept (onDatabase m) :=
  .zoom fun w _ => ⟨h w.db, rfl, rfl⟩

theorem steady_mirror [StoreLayout] : Steady mirrorKept where
  attempt := fun _ => mirrorKept_onVolume _
  look := fun _ _ => mirrorKept_onVolume _
  append := fun _ _ _ => mirrorKept_onVolume _
  discard := fun _ => mirrorKept_onVolume _
  mkdir := fun _ => mirrorKept_onVolume _
  remove := fun _ => mirrorKept_onVolume _
  preserve := fun _ _ => mirrorKept_onVolume _
  install := fun _ _ => mirrorKept_onVolume _
  count := fun _ => mirrorKept_onDatabase (mirrorRows_count _)
  save := fun input stamp w hmirror => by
    have hkept : Keeps mirrorKept (onDatabase (saveIn (journal w) true w.proposal w.proposalBase input stamp)) :=
      mirrorKept_onDatabase (mirrorRows_saveIn _ _ _ _ _)
    have h := hkept w hmirror
    rw [← hmirror] at h
    exact h
  propose := fun _ _ => .modify fun _ _ => ⟨mirrorRows.refl _, rfl, rfl⟩
  draw := mirrorKept_onVolume _
  unlink := fun _ => mirrorKept_onVolume _
  publish := fun _ _ => .bind (mirrorKept_onVolume _) fun _ => .bind (mirrorKept_onVolume _) fun _ =>
    .andThen (.relabel (.bind (mirrorKept_onVolume _) fun _ => mirrorKept_onVolume _) _) (mirrorKept_onVolume _)
  savepoint := mirrorKept_onDatabase (mirrorRows_statement fun s t h => by cases h; exact ⟨rfl, rfl, rfl⟩)
  restore := fun w v h hmirror => ⟨mirrorRows_same rfl rfl rfl, (h hmirror).id, (h hmirror).container⟩

end Replica

end SocietyHelper.Sync
