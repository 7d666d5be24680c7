import SocietyHelper.Sync.Preservation

/-! # The index of an authority

The entries of an authority are, path by path, what its journal has decided
last, whatever it is asked for and wherever a write fails. The journal only
grows.
-/

namespace SocietyHelper.Sync

open Library Effect

namespace Replica

/-- The rows of the entries hold the latest revisions, no more and no less. -/
structure Indexed [StoreLayout] (j : NamespaceJournal) (db : Database) : Prop where
  chain : j.Chain db.revisions.rows
  entries : ∀ path, (db.entries.find? path).map EntryRow.data = NamespaceJournal.object db path

/-- What an operation leaves of an index: two keys of the metadata count, the journal grows. -/
structure Grown [StoreLayout] (j : NamespaceJournal) (s t : Database) : Prop where
  indexed : Indexed j t
  journal : s.revisions.rows <+: t.revisions.rows
  metadata : ∀ key, key ≠ sequenceKey → key ≠ text "counter" → t.meta_ key = s.meta_ key

def ledger [StoreLayout] (j : NamespaceJournal) : Frame Database where
  rel s t := Indexed j s → Grown j s t
  refl _ h := ⟨h, List.prefix_rfl, fun _ _ _ => rfl⟩
  trans hst htu h := by
    have ht := hst h
    have hu := htu ht.indexed
    exact ⟨hu.indexed, ht.journal.trans hu.journal, fun key hs hc => (hu.metadata key hs hc).trans (ht.metadata key hs hc)⟩

section

variable [StoreLayout] {j : NamespaceJournal}

theorem Indexed.of_rows {s t : Database} (h : Indexed j s) (hentries : t.entries = s.entries)
    (hrevisions : t.revisions = s.revisions) : Indexed j t where
  chain := hrevisions ▸ h.chain
  entries path := by
    rw [hentries, NamespaceJournal.object, hrevisions]
    exact h.entries path

theorem ledger_same {s t : Database} (hentries : t.entries = s.entries) (hrevisions : t.revisions = s.revisions)
    (hmetadata : ∀ key, key ≠ sequenceKey → key ≠ text "counter" → t.meta_ key = s.meta_ key) : (ledger j).rel s t :=
  fun h => ⟨h.of_rows hentries hrevisions, by rw [hrevisions], hmetadata⟩

omit [StoreLayout] in
theorem sequenceFor_rows {e previous : Entry} {s t : Database} {sequence : Int}
    (h : sequenceFor e previous s = .ok sequence t) :
    t.entries = s.entries ∧ t.revisions = s.revisions ∧ ∀ key, key ≠ sequenceKey → t.meta_ key = s.meta_ key := by
  rcases sequenceFor_cases e previous s with ⟨-, heq⟩ | ⟨-, ⟨_, _, heq⟩ | ⟨-, _, heq⟩⟩
  · rw [heq] at h
    cases h
    exact ⟨rfl, rfl, fun _ _ => rfl⟩
  · rw [heq] at h
    cases h
  · rw [heq] at h
    cases h
    exact ⟨rfl, rfl, fun key hkey => (meta_insert s sequenceKey _ key).trans (if_neg hkey)⟩

/-- A commit and the row of its path succeed together or not at all. -/
theorem ledger_saveIn (proposal base : Text) (input : Entry) (stamp : Stamp) :
    Keeps (ledger j) (saveIn j false proposal base input stamp) := by
  intro s h
  cases hsave : saveIn j false proposal base input stamp s with
  | error e t =>
    rw [saveIn, Database.transaction, rollback] at hsave
    split at hsave
    · cases hsave
    · cases hsave
      exact ledger_same rfl rfl (fun _ _ _ => rfl) h
  | ok u t =>
    rw [saveIn, Database.transaction, rollback_eq_ok, bind_of_ok (get_apply s)] at hsave
    obtain ⟨e, a, hcommit, hsave⟩ := bind_eq_ok.mp hsave
    obtain ⟨sequence, b, hsequence, hsave⟩ := bind_eq_ok.mp hsave
    obtain ⟨_, c, hinsert, hsave⟩ := bind_eq_ok.mp hsave
    obtain ⟨-, hpath, hobject, hothers, ⟨revisions, faults, ha⟩, hchain, hrevisions⟩ :=
      NamespaceJournal.commit_ok h.chain (Site.version_versioned input) hcommit
    obtain ⟨hentries, hrows, hmeta⟩ := sequenceFor_rows hsequence
    obtain ⟨-, w, hw, rfl⟩ := Database.statement_eq_ok.mp hinsert
    cases hw
    have ht : t.entries = b.entries.insert e.path.text ⟨e, stamp, sequence⟩ ∧ t.revisions = b.revisions ∧
        t.metadata = b.metadata := by
      split at hsave
      · obtain ⟨-, w, hw, rfl⟩ := Database.statement_eq_ok.mp hsave
        cases hw
        exact ⟨rfl, rfl, rfl⟩
      · cases hsave
        exact ⟨rfl, rfl, rfl⟩
    have hsame : t.revisions = a.revisions := ht.2.1.trans hrows
    have hbefore : a.entries = s.entries := by rw [ha]
    rw [final_ok]
    refine ⟨⟨hsame ▸ hchain, fun path => ?_⟩, ?_, fun key hs hc => ?_⟩
    · have hjournal : NamespaceJournal.object t path = NamespaceJournal.object a path := by
        rw [NamespaceJournal.object, hsame, NamespaceJournal.object]
      rw [hjournal, ht.1, hentries, hbefore, Table.find?_insert]
      split
      next hp =>
        rw [hp, hpath, hobject]
        rfl
      next hp =>
        rw [hothers path (hpath ▸ hp)]
        exact h.entries path
    · rw [hsame]
      rcases hrevisions with rfl | ⟨-, r, hadded⟩
      · exact List.prefix_rfl
      · exact ⟨[r], hadded.symm⟩
    · rw [Database.meta_, ht.2.2]
      refine (hmeta key hs).trans ?_
      rw [ha]
      rfl

end

/-! ## Every operation of an authority -/

structure Ledger [StoreLayout] (w v : World) : Prop where
  grown : Grown (journal w) w.db v.db
  id : v.id = w.id
  container : v.container = w.container

section

variable [StoreLayout]

theorem Ledger.same {w v : World} (h : Ledger w v) : journal v = journal w ∧ isMirror v = isMirror w := by
  have hhost : host v = host w := h.grown.metadata hostKey (by decide) (by decide)
  have hreplica := h.grown.metadata (text "hostReplica") (by decide) (by decide)
  rw [journal, journal, isMirror, isMirror, hhost, hreplica, h.id, h.container]
  exact ⟨rfl, rfl⟩

/-- What every operation keeps of an authority. -/
def indexing : Frame World where
  rel w v := isMirror w = false → Indexed (journal w) w.db → Ledger w v
  refl w _ h := ⟨(ledger _).refl w.db h, rfl, rfl⟩
  trans {w v u} hwv hvu hauthority h := by
    have hv := hwv hauthority h
    obtain ⟨hjournal, hmirror⟩ := hv.same
    have hu := hvu (hmirror.trans hauthority) (hjournal ▸ hv.grown.indexed)
    refine ⟨(ledger _).trans (fun _ => hv.grown) (fun _ => ?_) h, hu.id.trans hv.id, hu.container.trans hv.container⟩
    exact hjournal ▸ hu.grown

theorem indexing_onVolume {α : Type} (m : Effect Volume α) : Keeps indexing (onVolume m) :=
  .zoom fun w _ h => ⟨(ledger _).refl w.db h, rfl, rfl⟩

theorem indexing_onDatabase {α : Type} {m : Effect Database α} (hm : ∀ j, Keeps (ledger j) m) :
    Keeps indexing (onDatabase m) :=
  .zoom fun w _ h => ⟨hm _ w.db h, rfl, rfl⟩

theorem ledger_count {j : NamespaceJournal} (n : Text) : Keeps (ledger j) (Database.setMeta (text "counter") n) := by
  intro s
  rcases Database.statement_cases (fun db => some { db with metadata := db.metadata.insert (text "counter") n }) s with
    ⟨t, ht, heq⟩ | ⟨faults, -, heq⟩
  · cases ht
    rw [Database.setMeta, heq]
    exact ledger_same rfl rfl fun key _ hc => (meta_insert s (text "counter") _ key).trans (if_neg hc)
  · rw [Database.setMeta, heq]
    exact ledger_same rfl rfl fun _ _ _ => rfl

/-- A statement beside the tables of the index. -/
theorem ledger_statement {j : NamespaceJournal} {write : Database → Option Database} (h : ∀ s t, write s = some t →
    t.entries = s.entries ∧ t.revisions = s.revisions ∧ t.metadata = s.metadata) :
    Keeps (ledger j) (Database.statement write) := by
  intro s
  rcases Database.statement_cases write s with ⟨t, ht, heq⟩ | ⟨faults, -, heq⟩
  · obtain ⟨hentries, hrevisions, hmetadata⟩ := h s t ht
    rw [heq]
    exact ledger_same hentries hrevisions fun key _ _ => congrArg (fun m => (Table.find? m key).getD []) hmetadata
  · rw [heq]
    exact ledger_same rfl rfl fun _ _ _ => rfl

theorem steady_indexing : Steady indexing where
  attempt := fun _ => indexing_onVolume _
  look := fun _ _ => indexing_onVolume _
  append := fun _ _ _ => indexing_onVolume _
  discard := fun _ => indexing_onVolume _
  mkdir := fun _ => indexing_onVolume _
  remove := fun _ => indexing_onVolume _
  preserve := fun _ _ => indexing_onVolume _
  install := fun _ _ => indexing_onVolume _
  count := fun _ => indexing_onDatabase fun _ => ledger_count _
  save := fun input stamp w hauthority h => by
    have hsave : save input stamp w =
        onDatabase (saveIn (journal w) false w.proposal w.proposalBase input stamp) w := by
      rw [save, bind_of_ok (get_apply w), hauthority]
    have hkept := ledger_saveIn (j := journal w) w.proposal w.proposalBase input stamp w.db h
    rw [hsave, onDatabase, zoom]
    split
    next heq =>
      rw [heq] at hkept
      exact ⟨hkept, rfl, rfl⟩
    next heq =>
      rw [heq] at hkept
      exact ⟨hkept, rfl, rfl⟩
  propose := fun _ _ => .modify fun w _ h => ⟨(ledger _).refl w.db h, rfl, rfl⟩
  draw := indexing_onVolume _
  unlink := fun _ => indexing_onVolume _
  publish := fun _ _ => .bind (indexing_onVolume _) fun _ => .bind (indexing_onVolume _) fun _ =>
    .andThen (.relabel (.bind (indexing_onVolume _) fun _ => indexing_onVolume _) _) (indexing_onVolume _)
  savepoint := indexing_onDatabase fun _ => ledger_statement fun s t h => by cases h; exact ⟨rfl, rfl, rfl⟩
  restore := fun w v h hauthority hindexed =>
    ⟨ledger_same rfl rfl (fun _ _ _ => rfl) hindexed, (h hauthority hindexed).id, (h hauthority hindexed).container⟩

theorem indexing_call (c : Call) (w : World) : indexing.rel w (c.run w) := by
  cases c with
  | request peer r refreshIndex =>
    refine steady_indexing.handle (fun w _ _ h => ⟨(ledger _).refl w.db h, rfl, rfl⟩) (fun _ _ => ?_) peer r refreshIndex w
    exact indexing_onDatabase fun _ => ledger_statement fun s t h => by cases h; exact ⟨rfl, rfl, rfl⟩
  | metadata peer e => exact steady_indexing.acceptMetadata peer e w
  | restore path fetched => exact steady_indexing.restoreObject path fetched w
  | scan => exact steady_indexing.scan w

end

/-! ## The life of an authority -/

/-- A call, or anything around the index: files come and go, writes start to fail, peers are remembered. -/
inductive Works [StoreLayout] : World → World → Prop
  | call (c : Call) (w : World) : Works w (c.run w)
  | around (w v : World) (hid : v.id = w.id ∧ v.container = w.container)
      (hhost : ∀ key, key = hostKey ∨ key = text "hostReplica" → v.db.meta_ key = w.db.meta_ key)
      (hentries : v.db.entries = w.db.entries) (hrevisions : v.db.revisions = w.db.revisions) : Works w v

/-- What an authority has at any time. -/
structure Governs [StoreLayout] (w : World) : Prop where
  authority : isMirror w = false
  indexed : Indexed (journal w) w.db

section

variable [StoreLayout]

theorem Works.keeps {w v : World} (hstep : Works w v) (h : Governs w) :
    Governs v ∧ journal v = journal w ∧ w.db.revisions.rows <+: v.db.revisions.rows := by
  cases hstep with
  | call c =>
    have hledger := indexing_call c w h.authority h.indexed
    obtain ⟨hjournal, hmirror⟩ := hledger.same
    exact ⟨⟨hmirror.trans h.authority, hjournal ▸ hledger.grown.indexed⟩, hjournal, hledger.grown.journal⟩
  | around _ v hid hhost hentries hrevisions =>
    obtain ⟨hjournal, hmirror⟩ := Site.journal_congr hid hhost
    exact ⟨⟨hmirror.trans h.authority, hjournal ▸ h.indexed.of_rows hentries hrevisions⟩, hjournal, by rw [hrevisions]⟩

theorem Governs.works {w v : World} (h : Governs w) (hlife : Relation.ReflTransGen Works w v) :
    Governs v ∧ journal v = journal w ∧ w.db.revisions.rows <+: v.db.revisions.rows := by
  induction hlife with
  | refl => exact ⟨h, rfl, List.prefix_rfl⟩
  | tail _ hstep ih =>
    obtain ⟨hbefore, hjournal, hgrown⟩ := ih
    obtain ⟨hafter, hsame, hmore⟩ := hstep.keeps hbefore
    exact ⟨hafter, hsame.trans hjournal, hgrown.trans hmore⟩

/-- A container in which nothing has been decided yet. -/
theorem governs_of_empty {w : World} (hauthority : isMirror w = false) (hentries : w.db.entries = .empty)
    (hrevisions : w.db.revisions = .empty) : Governs w where
  authority := hauthority
  indexed :=
    { chain := by
        rw [hrevisions]
        exact Linked.nil
      entries := fun path => by
        rw [hentries, NamespaceJournal.object, hrevisions]
        rfl }

omit [StoreLayout] in
/-- The latest revision of a path has the highest sequence of all of its revisions. -/
theorem latest_greatest {t : Revisions} {path : Text} {r : JournalRow}
    (h : NamespaceJournal.latest t.rows path = some r) :
    r ∈ t.rows ∧ r.path = path ∧ ∀ s ∈ t.rows, s.path = path → s.sequence ≤ r.sequence := by
  obtain ⟨earlier, hfilter⟩ := List.getLast?_eq_some_iff.mp h
  have hmem : r ∈ t.rows.filter fun s => s.path = path := hfilter ▸ List.mem_append_right _ (List.mem_singleton_self r)
  obtain ⟨hr, hpath⟩ := List.mem_filter.mp hmem
  refine ⟨hr, of_decide_eq_true hpath, fun s hs hsame => ?_⟩
  have hin : s ∈ earlier ++ [r] := hfilter ▸ List.mem_filter.mpr ⟨hs, decide_eq_true hsame⟩
  rcases List.mem_append.mp hin with hs | hs
  · have hordered := t.ordered.filter fun s => decide (s.path = path)
    rw [hfilter] at hordered
    exact Int.le_of_lt ((List.pairwise_append.mp hordered).2.2 s hs r (List.mem_singleton_self r)).1
  · rw [List.mem_singleton.mp hs]

/-- An authority that began with nothing: its rows are the latest revisions of their paths, each path
that was ever decided has one, and what was decided once is never taken back. -/
theorem index_of_life {first w v : World} (hauthority : isMirror first = false) (hentries : first.db.entries = .empty)
    (hrevisions : first.db.revisions = .empty) (hlife : Relation.ReflTransGen Works first w)
    (hlater : Relation.ReflTransGen Works w v) :
    (∀ path row, w.db.entries.find? path = some row → ∃ r ∈ w.db.revisions.rows, r.path = path ∧
      row.data = projected r.data ∧ validRecord r.data.object ∧
      ∀ s ∈ w.db.revisions.rows, s.path = path → s.sequence ≤ r.sequence) ∧
    (∀ r ∈ w.db.revisions.rows, (w.db.entries.find? r.path).isSome) ∧
    w.db.revisions.rows <+: v.db.revisions.rows := by
  obtain ⟨hgoverns, -, -⟩ := (governs_of_empty hauthority hentries hrevisions).works hlife
  refine ⟨fun path row hrow => ?_, fun r hr => ?_, (hgoverns.works hlater).2.2⟩
  · have hobject := hgoverns.indexed.entries path
    rw [hrow] at hobject
    obtain ⟨r, hlatest, hdata⟩ := Option.map_eq_some_iff.mp hobject.symm
    obtain ⟨hr, hpath, hgreatest⟩ := latest_greatest hlatest
    obtain ⟨_, -, -, hext⟩ := Linked.exists_of_mem hgoverns.indexed.chain hr
    exact ⟨r, hr, hpath, hdata.symm, hext.record, hgreatest⟩
  · have hobject := hgoverns.indexed.entries r.path
    cases hrow : w.db.entries.find? r.path with
    | some row => rfl
    | none =>
      rw [hrow] at hobject
      have hlatest := Option.map_eq_none_iff.mp hobject.symm
      have hin : r ∈ w.db.revisions.rows.filter fun s => s.path = r.path := List.mem_filter.mpr ⟨hr, decide_eq_true rfl⟩
      rw [List.getLast?_eq_none_iff.mp hlatest] at hin
      cases hin

end

/-- A peer publishes a file. -/
def planting : Call := .request (text "tablet") (plant "files/notes") false

theorem index_of_life_planted :
    (@Call.run plainLayout planting openedAuthority).db.revisions.rows.length = 1 ∧
    ∀ path row, (@Call.run plainLayout planting openedAuthority).db.entries.find? path = some row →
      ∃ r ∈ (@Call.run plainLayout planting openedAuthority).db.revisions.rows, r.path = path ∧ row.data = projected r.data := by
  refine ⟨by decide +kernel, fun path row hrow => ?_⟩
  have hlife := Relation.ReflTransGen.single (@Works.call plainLayout planting openedAuthority)
  obtain ⟨r, hr, hpath, hdata, -⟩ := (@index_of_life plainLayout _ _ _ rfl rfl rfl hlife .refl).1 path row hrow
  exact ⟨r, hr, hpath, hdata⟩

end Replica

end SocietyHelper.Sync
