import SocietyHelper.Library.Rooted
import SocietyHelper.Sync.Providers
import SocietyHelper.Sync.NamespaceChain
import SocietyHelper.Sync.Rows
import SocietyHelper.Sync.AdoptionRuns
import SocietyHelper.Sync.ManifestProtocol
import SocietyHelper.Sync.Resumable

/-! # Content under a receipt

A receipt is written for bytes that the provider holds, and a restoration puts
only confirmed bytes where nothing is. The entries of an authority and its
journal name the same versions, whatever happens in between.
-/

namespace SocietyHelper.Sync

open Library Effect

namespace NamespaceJournal

variable [StoreLayout] {j : NamespaceJournal}

omit [StoreLayout] in
theorem latest_concat (rows : List JournalRow) (r : JournalRow) (path : Text) :
    latest (rows ++ [r]) path = if r.path = path then some r else latest rows path := by
  rw [latest, List.filter_append]
  by_cases h : r.path = path
  · simp [h]
  · simp [h, latest]

theorem path_object {db : Database} (h : j.Chain db.revisions.rows) {path : Text} {o : Entry}
    (ho : object db path = some o) : o.path.text = path := by
  obtain ⟨r, hr, rfl⟩ := Option.map_eq_some_iff.mp ho
  obtain ⟨hmem, hpath⟩ := List.mem_filter.mp (List.mem_of_getLast? hr)
  obtain ⟨earlier, _, _, hext⟩ := Linked.exists_of_mem h hmem
  exact hext.path.symm.trans (of_decide_eq_true hpath)

/-- What a commit that succeeds answers is the object of its path from then on. -/
theorem commit_ok {db t : Database} {record e : Entry} {proposal base : Text} (h : j.Chain db.revisions.rows)
    (hversion : record.version ≠ .undefined) (hok : j.commit record proposal base db = .ok e t) :
    e.version = record.version ∧ e.path.text = record.path.text ∧ object t record.path.text = some e ∧
      (∀ path, path ≠ record.path.text → object t path = object db path) ∧
      (∃ revisions faults, t = { db with revisions, faults }) ∧ j.Chain t.revisions.rows ∧
      (t = db ∨ (((object db record.path.text).getD {}).version ≠ record.version ∧
        ∃ r, t.revisions.rows = db.revisions.rows ++ [r])) := by
  rw [commit, bind_of_ok (get_apply db)] at hok
  split at hok
  next hsame =>
    cases hok
    cases ho : object db record.path.text with
    | none =>
      rw [ho] at hsame
      exact absurd hsame.symm hversion
    | some o =>
      rw [ho] at hsame
      exact ⟨hsame, path_object h ho, rfl, fun _ _ => rfl, ⟨_, _, rfl⟩, h, .inl rfl⟩
  next hchanged =>
    split at hok
    · cases hok
    next hcond =>
      obtain ⟨hroom, hvalid⟩ := not_or.mp hcond
      have hext := extends_next h proposal base hroom (not_not.mp hvalid)
      rcases append_cases (below_of_extends h hext) with ⟨error, faults, -, herror⟩ | ⟨revisions, happend, hrows⟩
      · rw [bind_of_error herror] at hok
        cases hok
      · rw [bind_of_ok happend] at hok
        cases hok
        have hpath : (rowOf (j.next db record proposal base)).path = record.path.text := rfl
        refine ⟨rfl, rfl, ?_, fun path hne => ?_, ⟨_, _, rfl⟩, hrows ▸ Linked.concat_iff.mpr ⟨h, hext⟩,
          .inr ⟨hchanged, _, hrows⟩⟩
        · rw [object, hrows, latest_concat, if_pos hpath]
          rfl
        · rw [object, hrows, latest_concat, hpath, if_neg hne.symm]
          rfl

end NamespaceJournal

namespace ConfinedFiles

/-! ## Files that appear -/

/-- Directories may appear on the way to a path; nothing else happens. -/
def grows (p : Path) : Frame Volume where
  rel s t := (∀ q n, s.disk.node q = some n → t.disk.node q = some n) ∧
    (∀ q, t.disk.content q = s.disk.content q) ∧ ∀ q, ¬q <+: p → t.disk.node q = s.disk.node q
  refl _ := ⟨fun _ _ h => h, fun _ => rfl, fun _ _ => rfl⟩
  trans h k := ⟨fun q n hn => k.1 q n (h.1 q n hn), fun q => (k.2.1 q).trans (h.2.1 q),
    fun q hq => (k.2.2 q hq).trans (h.2.2 q hq)⟩

theorem grows_disk {p : Path} {s t : Volume} (h : t.disk = s.disk) : (grows p).rel s t := by
  change (∀ q n, _ → t.disk.node q = some n) ∧ (∀ q, t.disk.content q = _) ∧ ∀ q, _ → t.disk.node q = _
  rw [h]
  exact ⟨fun _ _ hn => hn, fun _ => rfl, fun _ _ => rfl⟩

theorem grows_attempt (p : Path) (error : Text) : Keeps (grows p) (attempt error) := by
  intro s
  rcases Replica.attempt_cases error s with ⟨faults, h⟩ | ⟨faults, h⟩
  · rw [h]
    exact grows_disk rfl
  · rw [h]
    exact grows_disk rfl

theorem grows_mkdirFrom {p : Path} (base parts : Path) (h : base ++ parts = p) : Keeps (grows p) (mkdirFrom base parts) := by
  induction parts generalizing base with
  | nil => exact .pure _
  | cons part parts ih =>
    have hnext : base ++ [part] ++ parts = p := by rw [← h, List.append_assoc, List.singleton_append]
    refine .bind (grows_attempt p _) fun _ => .read fun s => ?_
    cases hnode : s.disk.node (base ++ [part]) with
    | none =>
      refine Keeps.rel_bind (F := grows p) ?_ fun _ t _ => Keeps.bind (grows_attempt p _) (fun _ => ih _ hnext) t
      refine ⟨fun q n hn => ?_, fun q => ?_, fun q hq => ?_⟩
      · change (s.disk.makeDirectory (base ++ [part])).node q = some n
        rw [Disk.node_makeDirectory, if_neg (fun heq => by rw [heq, hnode] at hn; cases hn)]
        exact hn
      · change (s.disk.makeDirectory (base ++ [part])).content q = s.disk.content q
        rw [Disk.content_makeDirectory]
        split
        next heq =>
          rw [heq, Disk.content, hnode]
          rfl
        · rfl
      · change (s.disk.makeDirectory (base ++ [part])).node q = s.disk.node q
        rw [Disk.node_makeDirectory, if_neg]
        rintro rfl
        exact hq ⟨parts, hnext⟩
    | some n =>
      cases n with
      | directory i => exact ih _ hnext s
      | file i => exact (grows p).refl s
      | special => exact (grows p).refl s

theorem grows_mkdir (p : Path) : Keeps (grows p) (mkdir p) := grows_mkdirFrom [] p (List.nil_append p)

theorem state_disk {path : Path} {s t : Volume} {st : FileState} (h : state path s = .ok st t) :
    t.disk = s.disk ∧ stateOf s.disk path = .ok st := Replica.look_eq_ok h

theorem look_disk {α : Type} (error : Text) (f : Disk → Except Text α) (s : Volume) :
    (final (look error f s)).disk = s.disk ∧ (final (look error f s)).uuids = s.uuids := by
  rw [look]
  rcases Replica.attempt_cases error s with ⟨faults, h⟩ | ⟨faults, h⟩
  · rw [bind_of_ok h, bind_of_ok (get_apply _)]
    cases f s.disk <;> exact ⟨rfl, rfl⟩
  · rw [bind_of_error h]
    exact ⟨rfl, rfl⟩

/-- Where the state of a path is that nothing is there, nothing is. -/
theorem node_of_deleted {d : Disk} (htree : d.Rooted) {path : Path} {st : FileState} (h : stateOf d path = .ok st)
    (hkind : st.kind = deleted) : path ≠ [] ∧ d.node path = none := by
  rw [stateOf] at h
  split at h
  · cases h
  next hpath =>
    refine ⟨hpath, ?_⟩
    cases hnode : d.node path with
    | none => rfl
    | some n =>
      rw [htree.walk hnode, hnode] at h
      cases n with
      | directory i =>
        cases h
        exact absurd hkind directory_ne_deleted
      | file i =>
        cases h
        exact absurd hkind file_ne_deleted
      | special => cases h

/-- A new file gets the bytes that are appended to nothing; no other name notices. -/
theorem append_fresh {path : Path} (bytes : Bytes) {s : Volume} (h : s.disk.node path = none) :
    (∀ q, q ≠ path → (final (append path 0 bytes s)).disk.node q = s.disk.node q ∧
      (final (append path 0 bytes s)).disk.content q = s.disk.content q) ∧
    ∀ u t, append path 0 bytes s = .ok u t →
      t.disk.content path = some bytes ∧ (∃ i, t.disk.node path = some (.file i)) ∧ (s.disk.Rooted → t.disk.Rooted) := by
  rw [append]
  rcases openFile_cases path s with ⟨m, t, hopen, ht⟩ | ⟨hwalk, hopen⟩
  · rw [bind_of_error hopen]
    refine ⟨fun q _ => ?_, fun u v hv => by cases hv⟩
    rw [final_error, ht]
    exact ⟨rfl, rfl⟩
  · rw [bind_of_ok hopen, bind_of_ok (get_apply _)]
    simp only [if_pos h]
    have hcreated : (s.disk.create path).node path = some (.file s.disk.clock) := by
      rw [Disk.node_create, if_pos rfl]
    have hempty : ((s.disk.create path).inode s.disk.clock).bytes = [] := by
      have hcontent : (s.disk.create path).content path = some [] := by rw [Disk.content_create, if_pos rfl]
      rw [Disk.content, hcreated] at hcontent
      exact Option.some.inj hcontent
    have hother : ∀ q, q ≠ path → (s.disk.create path).node q = s.disk.node q := fun q hq => by
      rw [Disk.node_create, if_neg hq]
    have hunnamed : ∀ q, q ≠ path → (s.disk.create path).node q ≠ some (.file s.disk.clock) := by
      intro q hq heq
      rw [hother q hq] at heq
      exact Nat.lt_irrefl _ (s.disk.bound q _ _ heq rfl)
    have hwrote : ∀ {more : Bytes} {d : Disk}, Wrote s.disk.clock more (s.disk.create path) d →
        ∀ q, q ≠ path → d.node q = s.disk.node q ∧ d.content q = s.disk.content q := by
      intro more d hd q hq
      refine ⟨(hd.nodes q).trans (hother q hq), ?_⟩
      rw [hd.content, if_neg (hunnamed q hq), Disk.content_create, if_neg hq]
    rw [hcreated]
    simp only [hempty, List.length_nil, Nat.lt_irrefl, if_false]
    rcases pwrite_cases s.disk.clock bytes { s with disk := s.disk.create path, faults := s.faults.tail } with
      ⟨t, hpwrite, ht⟩ | ⟨-, n, m, t, hpwrite, ht⟩
    · rw [bind_of_ok hpwrite]
      simp only [hempty, List.nil_append] at ht
      rcases Replica.attempt_cases (text "flush_failed") t with ⟨faults, hflush⟩ | ⟨faults, hflush⟩
      · rw [hflush]
        refine ⟨hwrote ht, fun u v hv => ?_⟩
        cases hv
        refine ⟨by rw [ht.content, if_pos hcreated], ⟨_, (ht.nodes path).trans hcreated⟩, fun htree => ?_⟩
        exact htree.added h hwalk fun q hq => (hwrote ht q hq).1
      · rw [hflush]
        exact ⟨hwrote ht, fun u v hv => by cases hv⟩
    · rw [bind_of_error hpwrite]
      exact ⟨hwrote ht, fun u v hv => by cases hv⟩

/-- A file moves to a free name: it is there, or the call has failed. -/
theorem install_free {source target : Path} {i : Nat} {s : Volume} (hsource : s.disk.node source = some (.file i))
    (htarget : s.disk.node target = none) (hnil : target ≠ []) :
    (∃ m t, install source target s = .error m t ∧ ∀ q, t.disk.content q = s.disk.content q) ∨
      ∀ q, (final (install source target s)).disk.content q =
        if q = target then s.disk.content source else if q = source then none else s.disk.content q := by
  have hgrows : ∀ t, (grows target.dropLast).rel s t → t.disk.node source = some (.file i) ∧ t.disk.node target = none ∧
      ∀ q, t.disk.content q = s.disk.content q := by
    intro t ht
    refine ⟨ht.1 _ _ hsource, (ht.2.2 target fun hprefix => ?_).trans htarget, ht.2.1⟩
    have hlength := hprefix.length_le
    rw [List.length_dropLast] at hlength
    have := List.length_pos_of_ne_nil hnil
    omega
  rw [install]
  rcases Replica.attempt_cases (text "container_replaced_or_unavailable") s with ⟨faults, h⟩ | ⟨faults, h⟩
  · rw [bind_of_ok h]
    have hmkdir := grows_mkdir target.dropLast { s with faults }
    cases hdirs : mkdir target.dropLast { s with faults } with
    | error m t =>
      rw [hdirs] at hmkdir
      rw [bind_of_error hdirs]
      exact .inl ⟨m, t, rfl, (hgrows t hmkdir).2.2⟩
    | ok u t =>
      rw [hdirs] at hmkdir
      obtain ⟨hfile, hfree, hcontent⟩ := hgrows t hmkdir
      rw [bind_of_ok hdirs, bind_of_ok (get_apply t)]
      split
      · exact .inl ⟨_, t, rfl, hcontent⟩
      · rw [hfree]
        simp only
        rcases Replica.attempt_cases (text "replace_failed") t with ⟨faults, hcall⟩ | ⟨faults, hcall⟩
        · rw [bind_of_ok hcall, bind_of_ok (get_apply _)]
          simp only [hfile]
          refine .inr fun q => ?_
          have hrenamed : ∀ v : Volume, v.disk = t.disk.renameFile source target →
              (final (attempt (text "flush_failed") v)).disk.content q =
                if q = target then s.disk.content source else if q = source then none else s.disk.content q := by
            intro v hv
            have hflush : (final (attempt (text "flush_failed") v)).disk = v.disk := by
              rcases Replica.attempt_cases (text "flush_failed") v with ⟨_, hc⟩ | ⟨_, hc⟩
              · rw [hc]
                rfl
              · rw [hc]
                rfl
            rw [hflush, hv, Disk.content_renameFile hfile (by rw [hfree]; simp), hcontent, hcontent]
          exact hrenamed _ rfl
        · rw [bind_of_error hcall]
          exact .inl ⟨_, _, rfl, hcontent⟩
  · rw [bind_of_error h]
    exact .inl ⟨_, _, rfl, fun _ => rfl⟩

end ConfinedFiles

namespace Site

open Replica

variable [StoreLayout]

/-! ## Entries and their journal -/

/-- The entry of a path is what the journal decided last. -/
structure InStep (j : NamespaceJournal) (db : Database) : Prop where
  chain : j.Chain db.revisions.rows
  current : ∀ path e, entry db path = some e →
    ∃ o, NamespaceJournal.object db path = some o ∧ o.version = e.version ∧ payload o = payload e

theorem InStep.of_rows {j : NamespaceJournal} {s t : Database} (h : InStep j s) (hentries : t.entries = s.entries)
    (hrevisions : t.revisions = s.revisions) : InStep j t where
  chain := hrevisions ▸ h.chain
  current path e he := by
    rw [entry, hentries] at he
    rw [NamespaceJournal.object, hrevisions]
    exact h.current path e he

omit [StoreLayout] in
theorem version_versioned (e : Entry) : (versioned e).version ≠ .undefined := fun h => by cases h

/-- A save of an authority that succeeds: a commit, and the row of its path. -/
structure Saved (j : NamespaceJournal) (input : Entry) (stamp : Stamp) (s t : Database) : Prop where
  inStep : InStep j t
  entries : ∃ e sequence, e.version = (versioned input).version ∧ e.path.text = input.path.text ∧
    t.entries = s.entries.insert input.path.text ⟨e, stamp, sequence⟩
  metadata : ∀ key, key ≠ sequenceKey → t.meta_ key = s.meta_ key
  revisions : t.revisions = s.revisions ∨
    (((NamespaceJournal.object s input.path.text).getD {}).version ≠ (versioned input).version ∧
      ∃ r, t.revisions.rows = s.revisions.rows ++ [r])

theorem saveIn_cases {j : NamespaceJournal} {s : Database} (h : InStep j s) (proposal base : Text) (input : Entry)
    (stamp : Stamp) :
    (∃ e faults, saveIn j false proposal base input stamp s = .error e { s with faults }) ∨
      ∃ t, saveIn j false proposal base input stamp s = .ok () t ∧ Saved j input stamp s t := by
  cases hsave : saveIn j false proposal base input stamp s with
  | error e t =>
    rw [saveIn, Database.transaction, rollback] at hsave
    split at hsave
    · cases hsave
    · cases hsave
      exact .inl ⟨_, _, rfl⟩
  | ok u t =>
    refine .inr ⟨t, rfl, ?_⟩
    rw [saveIn, Database.transaction, rollback_eq_ok, bind_of_ok (get_apply s)] at hsave
    obtain ⟨e, a, hcommit, hsave⟩ := bind_eq_ok.mp hsave
    obtain ⟨sequence, b, hsequence, hsave⟩ := bind_eq_ok.mp hsave
    obtain ⟨_, c, hinsert, hsave⟩ := bind_eq_ok.mp hsave
    obtain ⟨hversion, hpath, hobject, hothers, ⟨revisions, faults, ha⟩, hchain, hrevisions⟩ :=
      NamespaceJournal.commit_ok h.chain (version_versioned input) hcommit
    have hb : b.entries = a.entries ∧ b.revisions = a.revisions ∧
        ∀ key, key ≠ sequenceKey → b.meta_ key = a.meta_ key := by
      rcases sequenceFor_cases e ((entry s input.path.text).getD {}) a with ⟨-, heq⟩ | ⟨-, ⟨_, _, heq⟩ | ⟨-, _, heq⟩⟩
      · rw [heq] at hsequence
        cases hsequence
        exact ⟨rfl, rfl, fun _ _ => rfl⟩
      · rw [heq] at hsequence
        cases hsequence
      · rw [heq] at hsequence
        cases hsequence
        exact ⟨rfl, rfl, fun key hkey => (meta_insert a sequenceKey _ key).trans (if_neg hkey)⟩
    obtain ⟨-, w, hw, rfl⟩ := Database.statement_eq_ok.mp hinsert
    cases hw
    have ht : t.entries = b.entries.insert e.path.text ⟨e, stamp, sequence⟩ ∧ t.revisions = b.revisions ∧
        t.metadata = b.metadata := by
      split at hsave
      · obtain ⟨-, w, hw, rfl⟩ := Database.statement_eq_ok.mp hsave
        cases hw
        exact ⟨rfl, rfl, rfl⟩
      · cases hsave
        exact ⟨rfl, rfl, rfl⟩
    obtain ⟨hentries, hrows, hmetadata⟩ := ht
    have hinput : (versioned input).path.text = input.path.text := rfl
    have hold : a.entries = s.entries := by rw [ha]
    rw [hb.1, hold, hpath, hinput] at hentries
    rw [hb.2.1] at hrows
    have hsame : ∀ path, NamespaceJournal.object t path = NamespaceJournal.object a path := fun path => by
      rw [NamespaceJournal.object, hrows, NamespaceJournal.object]
    refine ⟨⟨hrows ▸ hchain, fun path f hf => ?_⟩, ⟨e, sequence, hversion, hpath, hentries⟩, fun key hkey => ?_, ?_⟩
    · rw [hsame]
      rw [entry, hentries, Table.find?_insert] at hf
      split at hf
      next hsame =>
        cases hf
        exact ⟨e, hsame ▸ hobject, rfl, rfl⟩
      next hne =>
        rw [hothers path hne]
        exact h.current path f hf
    · rw [Database.meta_, hmetadata]
      refine (hb.2.2 key hkey).trans ?_
      rw [ha]
      rfl
    · rcases hrevisions with rfl | ⟨hchanged, r, hadded⟩
      · exact .inl hrows
      · exact .inr ⟨hchanged, r, by rw [hrows, hadded]⟩

/-- What is kept of a container: the names of its tree have their directories, and its entries are in step. -/
structure Sound (w : World) : Prop where
  authority : isMirror w = false
  inStep : InStep (journal w) w.db
  tree : w.volume.disk.Rooted

/-- What may happen in a container while its lock is free, `reserved` being a private name of the holder. -/
inductive Step (reserved : Path → Prop) : World → World → Prop
  | edit (w : World) (d : Disk) (htree : d.Rooted) (hkeeps : ∀ p, reserved p → d.node p = w.volume.disk.node p) :
    Step reserved w { w with volume := { w.volume with disk := d } }
  | save (w : World) (input : Entry) (stamp : Stamp) : Step reserved w (final (save input stamp w))
  | other (w v : World) (hid : v.id = w.id ∧ v.container = w.container)
      (hhost : ∀ key, key = hostKey ∨ key = text "hostReplica" → v.db.meta_ key = w.db.meta_ key)
      (hentries : v.db.entries = w.db.entries) (hrevisions : v.db.revisions = w.db.revisions)
      (hdisk : v.volume.disk = w.volume.disk) : Step reserved w v

def Steps (reserved : Path → Prop) : World → World → Prop := Relation.ReflTransGen (Step reserved)

theorem save_cases {w : World} (hauthority : isMirror w = false) (h : InStep (journal w) w.db) (input : Entry)
    (stamp : Stamp) :
    (∃ e faults, save input stamp w = .error e { w with db := { w.db with faults } }) ∨
      ∃ db, save input stamp w = .ok () { w with db } ∧ Saved (journal w) input stamp w.db db := by
  have hsave : save input stamp w =
      onDatabase (saveIn (journal w) false w.proposal w.proposalBase input stamp) w := by
    rw [save, bind_of_ok (get_apply w), hauthority]
  rw [hsave]
  rcases saveIn_cases h w.proposal w.proposalBase input stamp with ⟨e, faults, herror⟩ | ⟨db, hok, hsaved⟩
  · exact .inl ⟨e, faults, onDatabase_of_error herror⟩
  · exact .inr ⟨db, onDatabase_of_ok hok, hsaved⟩

omit [StoreLayout] in
/-- The journal of a container depends on who its host is. -/
theorem journal_congr {w v : World} (hid : v.id = w.id ∧ v.container = w.container)
    (hhost : ∀ key, key = hostKey ∨ key = text "hostReplica" → v.db.meta_ key = w.db.meta_ key) :
    journal v = journal w ∧ isMirror v = isMirror w := by
  have hh : host v = host w := hhost hostKey (.inl rfl)
  rw [journal, journal, isMirror, isMirror, hh, hhost _ (.inr rfl), hid.1, hid.2]
  exact ⟨rfl, rfl⟩

theorem Sound.of_rows {w v : World} (h : Sound w) (hid : v.id = w.id ∧ v.container = w.container)
    (hhost : ∀ key, key = hostKey ∨ key = text "hostReplica" → v.db.meta_ key = w.db.meta_ key)
    (hentries : v.db.entries = w.db.entries) (hrevisions : v.db.revisions = w.db.revisions)
    (htree : v.volume.disk.Rooted) : Sound v := by
  obtain ⟨hjournal, hmirror⟩ := journal_congr hid hhost
  exact ⟨hmirror.trans h.authority, hjournal ▸ h.inStep.of_rows hentries hrevisions, htree⟩

theorem Sound.step {reserved : Path → Prop} {w v : World} (h : Sound w) (hstep : Step reserved w v) : Sound v := by
  cases hstep with
  | edit d htree _ => exact h.of_rows ⟨rfl, rfl⟩ (fun _ _ => rfl) rfl rfl htree
  | save input stamp =>
    rcases save_cases h.authority h.inStep input stamp with ⟨e, faults, herror⟩ | ⟨db, hok, hsaved⟩
    · rw [herror]
      exact h.of_rows ⟨rfl, rfl⟩ (fun _ _ => rfl) rfl rfl h.tree
    · rw [hok]
      have hhost : ∀ key, key = hostKey ∨ key = text "hostReplica" → db.meta_ key = w.db.meta_ key := by
        rintro key (rfl | rfl)
        · exact hsaved.metadata _ (by decide)
        · exact hsaved.metadata _ (by decide)
      obtain ⟨hjournal, hmirror⟩ := journal_congr (w := w) (v := { w with db }) ⟨rfl, rfl⟩ hhost
      exact ⟨hmirror.trans h.authority, hjournal ▸ hsaved.inStep, h.tree⟩
  | other v hid hhost hentries hrevisions hdisk =>
    exact h.of_rows hid hhost hentries hrevisions (hdisk ▸ h.tree)

theorem Sound.steps {reserved : Path → Prop} {w v : World} (h : Sound w) (hsteps : Steps reserved w v) : Sound v := by
  induction hsteps with
  | refl => exact h
  | tail _ hstep ih => exact ih.step hstep

theorem node_steps {reserved : Path → Prop} {w v : World} (hsteps : Steps reserved w v) {p : Path} (hp : reserved p)
    (hsound : Sound w) : v.volume.disk.node p = w.volume.disk.node p := by
  induction hsteps with
  | refl => rfl
  | tail hbefore hstep ih =>
    rw [← ih]
    cases hstep with
    | edit d _ hkeeps => exact hkeeps p hp
    | save input stamp =>
      rcases save_cases (hsound.steps hbefore).authority (hsound.steps hbefore).inStep input stamp with ⟨e, faults, herror⟩ | ⟨db, hok, -⟩
      · rw [herror]
        rfl
      · rw [hok]
        rfl
    | other v _ _ _ _ hdisk => rw [hdisk]

/-! ## Copies -/

omit [StoreLayout] in
/-- A copy that succeeds has the digest and the size that it was asked for. -/
theorem verifiedCopy_ok {o : ObjectIdentity} {c : Copying} {bytes : Bytes} (h : o.verifiedCopy c = .ok bytes) :
    digest bytes = o.sha256 ∧ (bytes.length : Int) = o.size := by
  rw [ObjectIdentity.verifiedCopy] at h
  split at h
  · cases h
  split at h
  · cases h
  cases hturns : o.copyTurns c.turns [] with
  | error e =>
    rw [hturns] at h
    cases h
  | ok copied =>
    rw [hturns] at h
    simp only [Except.bind] at h
    split at h
    · cases h
    next hverified =>
      split at h
      · cases h
      split at h
      · cases h
        simp only [Bool.or_eq_true, not_or, decide_eq_true_eq, not_not] at hverified
        exact ⟨hverified.2, hverified.1.2⟩
      · cases h

omit [StoreLayout] in
theorem get_ok {p : DirectoryObjectProvider} {o : ObjectIdentity} {c : Copying} {bytes : Bytes}
    (h : p.get o c = .ok bytes) : digest bytes = o.sha256 ∧ (bytes.length : Int) = o.size := by
  rw [DirectoryObjectProvider.get] at h
  cases hpath : p.path o c with
  | error e =>
    rw [hpath] at h
    cases h
  | ok key =>
    rw [hpath] at h
    simp only [Except.bind] at h
    split at h
    · cases h
    · exact verifiedCopy_ok h

omit [StoreLayout] in
/-- A provider that has taken an object holds its bytes, and its name is not that of the container. -/
theorem put_cases (p : DirectoryObjectProvider) (o : ObjectIdentity) (c : Copying) :
    (∃ e, DirectoryObjectProvider.put o c p = .error e p) ∨
      ∃ bytes, DirectoryObjectProvider.put o c p = .ok () { p with objects := p.objects.insert o.key bytes } ∧
        digest bytes = o.sha256 ∧ (bytes.length : Int) = o.size ∧ p.id ≠ text "local" := by
  rw [DirectoryObjectProvider.put, bind_of_ok (get_apply p)]
  cases hpath : p.path o c with
  | error e => exact .inl ⟨e, rfl⟩
  | ok key =>
    cases hcopy : o.verifiedCopy c with
    | error e => exact .inl ⟨e, rfl⟩
    | ok bytes =>
      obtain ⟨hdigest, hsize⟩ := verifiedCopy_ok hcopy
      rw [DirectoryObjectProvider.path] at hpath
      split at hpath
      · cases hpath
      next hid =>
        split at hpath
        · cases hpath
        · cases hpath
          refine .inr ⟨bytes, rfl, hdigest, hsize, fun hlocal => hid ?_⟩
          rw [hlocal]
          rfl

/-! ## Restoring -/

/-- The confirmed bytes have appeared at the path, where nothing was. -/
structure Published (path : Text) (e : Entry) (temporary : Path) (bytes : Bytes) (u v : World) : Prop where
  free : u.volume.disk.node (physical path) = none
  version : ((entry u.db path).getD {}).version = e.version
  there : v.volume.disk.content (physical path) = some bytes
  others : ∀ q, q ≠ temporary → q ≠ physical path → v.volume.disk.content q = u.volume.disk.content q

omit [StoreLayout] in
theorem relabel_ok {α : Type} {error : Text} {m : Effect World α} {w v : World} {a : α}
    (h : relabel error m w = .ok a v) : m w = .ok a v := by
  rw [relabel] at h
  split at h
  · next hm => exact hm.trans h
  · cases h

theorem unchanged_ok {path : Text} {e : Entry} {w v : World} {a : Unit} (h : unchanged path e w = .ok a v) :
    (∃ st, ConfinedFiles.stateOf w.volume.disk (physical path) = .ok st ∧ st.kind = deleted) ∧
      ((entry w.db path).getD {}).version = e.version := by
  obtain ⟨_, u, hlock, h⟩ := bind_eq_ok.mp (relabel_ok h)
  obtain ⟨st, x, hstate, h⟩ := bind_eq_ok.mp h
  have hu : ∃ faults, u = w.spent faults := by
    rcases lock_spent w with ⟨faults, hok⟩ | ⟨_, faults, herror⟩
    · rw [hok] at hlock
      cases hlock
      exact ⟨faults, rfl⟩
    · rw [herror] at hlock
      cases hlock
  obtain ⟨faults, rfl⟩ := hu
  obtain ⟨volume, hlook, rfl⟩ := zoom_eq_ok.mp hstate
  obtain ⟨-, hst⟩ := ConfinedFiles.state_disk hlook
  rw [bind_of_ok (get_apply _)] at h
  split at h
  · cases h
  next hcond =>
    cases h
    obtain ⟨hkind, hversion⟩ := not_or.mp hcond
    exact ⟨⟨st, hst, not_not.mp hkind⟩, not_not.mp hversion⟩

/-- Only what the volume remembers beside its tree may change. -/
def looking : Frame World where
  rel w v := ∃ volume, v = { w with volume } ∧ volume.disk = w.volume.disk
  refl w := ⟨w.volume, rfl, rfl⟩
  trans := by
    rintro w v u ⟨volume, rfl, hdisk⟩ ⟨volume', rfl, hdisk'⟩
    exact ⟨volume', rfl, hdisk'.trans hdisk⟩

omit [StoreLayout] in
theorem looking_lock : Keeps looking lock := by
  intro w
  rcases lock_spent w with ⟨faults, h⟩ | ⟨_, faults, h⟩
  · rw [h]
    exact ⟨_, rfl, rfl⟩
  · rw [h]
    exact ⟨_, rfl, rfl⟩

omit [StoreLayout] in
theorem looking_look {α : Type} (error : Text) (f : Disk → Except Text α) :
    Keeps looking (onVolume (ConfinedFiles.look error f)) :=
  .zoom fun w => ⟨_, rfl, (ConfinedFiles.look_disk error f w.volume).1⟩

omit [StoreLayout] in
theorem looking_attempt (error : Text) : Keeps looking (onVolume (ConfinedFiles.attempt error)) := by
  refine .zoom fun w => ⟨_, rfl, ?_⟩
  rcases attempt_cases error w.volume with ⟨faults, h⟩ | ⟨faults, h⟩
  · rw [h]
    rfl
  · rw [h]
    rfl

theorem looking_unchanged (path : Text) (e : Entry) : Keeps looking (unchanged path e) :=
  .relabel (.bind looking_lock fun _ => .bind (looking_look _ _) fun _ => .bind .get fun _ =>
    .ite (fun _ => .throw _) fun _ => .pure _) _

omit [StoreLayout] in
theorem onVolume_cases {α : Type} (m : Effect Volume α) (w : World) :
    (∃ a t, m w.volume = .ok a t ∧ onVolume m w = .ok a { w with volume := t }) ∨
      ∃ error t, m w.volume = .error error t ∧ onVolume m w = .error error { w with volume := t } := by
  cases h : m w.volume with
  | ok a t => exact .inl ⟨a, t, rfl, zoom_of_ok h⟩
  | error error t => exact .inr ⟨error, t, rfl, zoom_of_error h⟩

/-- The bytes are in place, or every other file is as it was. -/
theorem inPlace_cases (path : Text) (e : Entry) {temporary : Path} (bytes : Bytes) {u : World}
    (htree : u.volume.disk.Rooted) (hnew : u.volume.disk.node temporary = none) :
    (∃ error volume, inPlace path e temporary bytes u = .error error { u with volume } ∧
      ((∀ q, q ≠ temporary → volume.disk.content q = u.volume.disk.content q) ∨
        physical path ≠ temporary ∧ Published path e temporary bytes u { u with volume })) ∨
      ∃ st volume, inPlace path e temporary bytes u = .ok st { u with volume } ∧
        Published path e temporary bytes u { u with volume } := by
  obtain ⟨hothers, happended⟩ := ConfinedFiles.append_fresh bytes hnew
  rcases onVolume_cases (ConfinedFiles.append temporary 0 bytes) u with ⟨a, t, happend, hok⟩ | ⟨error, t, happend, herror⟩
  swap
  · rw [happend] at hothers
    exact .inl ⟨error, _, bind_of_error herror, .inl fun q hq => (hothers q hq).2⟩
  rw [happend] at hothers
  obtain ⟨hbytes, ⟨i, hi⟩, hrooted⟩ := happended a t happend
  rw [inPlace, bind_of_ok hok]
  have hstay := looking_unchanged path e { u with volume := t }
  cases hstill : unchanged path e { u with volume := t } with
  | error error x =>
    rw [hstill] at hstay
    obtain ⟨volume, rfl, hdisk⟩ := hstay
    refine .inl ⟨error, _, bind_of_error hstill, .inl fun q hq => ?_⟩
    rw [show volume.disk = t.disk from hdisk]
    exact (hothers q hq).2
  | ok b x =>
    rw [hstill] at hstay
    obtain ⟨volume, rfl, hdisk⟩ := hstay
    have hdisk : volume.disk = t.disk := hdisk
    obtain ⟨⟨st, hst, hkind⟩, hversion⟩ := unchanged_ok hstill
    obtain ⟨hnil, hfree⟩ := ConfinedFiles.node_of_deleted (hrooted htree) hst hkind
    have hne : physical path ≠ temporary := by
      intro heq
      rw [heq, hi] at hfree
      cases hfree
    have hpublished : ∀ y : Volume, (∀ q, y.disk.content q = if q = physical path then t.disk.content temporary
        else if q = temporary then none else t.disk.content q) →
        Published path e temporary bytes u { u with volume := y } := by
      intro y hy
      refine ⟨(hothers _ hne).1.symm.trans hfree, hversion, (hy _).trans (by rw [if_pos rfl, hbytes]),
        fun q hq hpath => (hy q).trans ?_⟩
      rw [if_neg hpath, if_neg hq]
      exact (hothers q hq).2
    have hinstalled := ConfinedFiles.install_free (s := volume) (hdisk ▸ hi) (hdisk ▸ hfree) hnil
    rw [hdisk] at hinstalled
    rw [bind_of_ok hstill]
    rcases onVolume_cases (ConfinedFiles.install temporary (physical path)) { u with volume } with
      ⟨c, y, hinstall, hok⟩ | ⟨error, y, hinstall, herror⟩
    · rcases hinstalled with ⟨_, _, hfailed, -⟩ | hcontent
      · rw [hfailed] at hinstall
        cases hinstall
      · rw [show ConfinedFiles.install temporary (physical path) volume = _ from hinstall] at hcontent
        rw [bind_of_ok hok]
        have hlook := (ConfinedFiles.look_disk ConfinedFiles.unavailable
          (fun d => ConfinedFiles.stateOf d (physical path)) y).1
        rcases onVolume_cases (ConfinedFiles.state (physical path)) { u with volume := y } with
          ⟨st, z, hstate, hok⟩ | ⟨error, z, hstate, herror⟩
        · rw [ConfinedFiles.state] at hstate
          rw [show ConfinedFiles.look _ _ y = _ from hstate] at hlook
          exact .inr ⟨st, z, hok, hpublished z fun q => (congrArg (Disk.content · q) hlook).trans (hcontent q)⟩
        · rw [ConfinedFiles.state] at hstate
          rw [show ConfinedFiles.look _ _ y = _ from hstate] at hlook
          exact .inl ⟨error, z, herror, .inr ⟨hne,
            hpublished z fun q => (congrArg (Disk.content · q) hlook).trans (hcontent q)⟩⟩
    · refine .inl ⟨error, y, bind_of_error herror, ?_⟩
      rcases hinstalled with ⟨_, y', hfailed, hcontent⟩ | hcontent
      · rw [hfailed] at hinstall
        cases hinstall
        exact .inl fun q hq => (hcontent q).trans (hothers q hq).2
      · rw [show ConfinedFiles.install temporary (physical path) volume = _ from hinstall] at hcontent
        exact .inr ⟨hne, hpublished y hcontent⟩

/-- What a second part comes to; the temporary file is gone where it fails. -/
theorem replaced_cases (path : Text) (e : Entry) {temporary : Path} (fetched : Except Text Bytes) {u : World}
    (htree : u.volume.disk.Rooted) (hnew : u.volume.disk.node temporary = none) :
    (∃ error volume, replaced path e temporary fetched u = .error error { u with volume } ∧
      ((∀ q, q ≠ temporary → volume.disk.content q = u.volume.disk.content q) ∨
        ∃ bytes, fetched = .ok bytes ∧ Published path e temporary bytes u { u with volume })) ∨
      ∃ st volume bytes, replaced path e temporary fetched u = .ok st { u with volume } ∧ fetched = .ok bytes ∧
        Published path e temporary bytes u { u with volume } := by
  have hunlink : ∀ (d : Disk) q, q ≠ temporary → (d.unlink temporary).content q = d.content q := by
    intro d q hq
    rw [Disk.content_unlink, if_neg hq]
  cases fetched with
  | error error => exact .inl ⟨error, _, rfl, .inl fun q hq => hunlink _ q hq⟩
  | ok bytes =>
    rw [replaced, onError]
    rcases inPlace_cases path e bytes htree hnew with ⟨error, volume, herror, hcontent⟩ | ⟨st, volume, hok, hpublished⟩
    · rw [herror]
      refine .inl ⟨error, _, rfl, ?_⟩
      rcases hcontent with hsame | ⟨hne, hpublished⟩
      · exact .inl fun q hq => (hunlink _ q hq).trans (hsame q hq)
      · exact .inr ⟨bytes, rfl, hpublished.free, hpublished.version, (hunlink _ _ hne).trans hpublished.there,
          fun q hq hpath => (hunlink _ q hq).trans (hpublished.others q hq hpath)⟩
    · rw [hok]
      exact .inr ⟨st, volume, bytes, rfl, rfl, hpublished⟩

/-- The first part looks, and names a confirmed file that is missing. -/
theorem looking_missing (path : Text) : Keeps looking (missing path) := by
  refine .bind looking_lock fun _ => .bind .get fun w => .ite (fun _ => .throw _) fun _ => .ite (fun _ => .throw _) fun _ =>
    .bind (.relabel (looking_look _ _) _) fun _ => .ite (fun _ => .throw _) fun _ => .bind (fun w => ?_) fun _ =>
    .bind (looking_attempt _) fun _ => .pure _
  exact ⟨_, rfl, rfl⟩

theorem missing_ok {path : Text} {e : Entry} {object : ObjectIdentity} {temporary : Path} {w v : World}
    (h : missing path w = .ok (e, object, temporary) v) :
    e = confirmed w.db path ∧ e.isKind file ∧ object = identity w e ∧
      temporary = temporaryOf (decimal w.volume.uuids) := by
  obtain ⟨_, u, hlock, h⟩ := bind_eq_ok.mp h
  have hu : ∃ faults, u = w.spent faults := by
    rcases lock_spent w with ⟨faults, hok⟩ | ⟨_, faults, herror⟩
    · rw [hok] at hlock
      cases hlock
      exact ⟨faults, rfl⟩
    · rw [herror] at hlock
      cases hlock
  obtain ⟨faults, rfl⟩ := hu
  rw [bind_of_ok (get_apply _)] at h
  split at h
  · cases h
  split at h
  · cases h
  next hfile =>
    obtain ⟨st, x, hstate, h⟩ := bind_eq_ok.mp h
    obtain ⟨t, hseen, rfl⟩ := zoom_eq_ok.mp (relabel_ok hstate)
    split at h
    · cases h
    · obtain ⟨name, y, hdraw, hrest⟩ := bind_eq_ok.mp h
      obtain ⟨t', hname, rfl⟩ := zoom_eq_ok.mp hdraw
      obtain ⟨_, z, -, hend⟩ := bind_eq_ok.mp hrest
      cases hname
      cases hend
      have huuids : t.uuids = w.volume.uuids := by
        have hlook := (ConfinedFiles.look_disk ConfinedFiles.unavailable
          (fun d => ConfinedFiles.stateOf d (physical path)) (w.spent faults).volume).2
        rw [ConfinedFiles.state] at hseen
        rwa [hseen] at hlook
      exact ⟨rfl, not_not.mp (not_or.mp hfile).2, rfl, by rw [← huuids]⟩

theorem InStep.confirmed {j : NamespaceJournal} {db : Database} (h : InStep j db) {path : Text} {o : Entry}
    (ho : NamespaceJournal.object db path = some o) : (versioned o).version = o.version ∧ o.path.text = path := by
  refine ⟨?_, NamespaceJournal.path_object h.chain ho⟩
  obtain ⟨r, hr, rfl⟩ := Option.map_eq_some_iff.mp ho
  obtain ⟨hmem, -⟩ := List.mem_filter.mp (List.mem_of_getLast? hr)
  obtain ⟨earlier, _, _, hext⟩ := Linked.exists_of_mem h.chain hmem
  have hversion : (projected r.data).version.text = (versioned (projected r.data)).version.text :=
    (validRecord_iff.mp hext.record).version
  have hstring := Value.isString_of_text_ne (v := (projected r.data).version)
    (by rw [hversion]; exact ne_nil_of_hex (hex_sha256 _))
  rw [(Value.isString_iff _).mp hstring, hversion]
  rfl

/-- Restoring the confirmed version writes no revision and leaves every version as it was. -/
theorem save_confirmed {w : World} (hauthority : isMirror w = false) (h : InStep (journal w) w.db) {path : Text}
    {e : Entry} (stamp : Stamp)
    (hcurrent : ((entry w.db path).getD {}).version = e.version) (hpath : e.path.text = path)
    (hversion : (versioned e).version = e.version) :
    (∃ error faults, save e stamp w = .error error { w with db := { w.db with faults } }) ∨
      ∃ db, save e stamp w = .ok () { w with db } ∧ db.revisions = w.db.revisions ∧
        ∀ p, ((entry db p).getD {}).version = ((entry w.db p).getD {}).version := by
  rcases save_cases hauthority h e stamp with herror | ⟨db, hok, hsaved⟩
  · exact .inl herror
  refine .inr ⟨db, hok, ?_, fun p => ?_⟩
  · rcases hsaved.revisions with hsame | ⟨hchanged, -⟩
    · exact hsame
    · cases hentry : entry w.db path with
      | none =>
        rw [hentry] at hcurrent
        exact absurd (hversion.trans hcurrent.symm) (version_versioned e)
      | some f =>
        obtain ⟨o, ho, heq, -⟩ := h.current path f hentry
        rw [hentry] at hcurrent
        rw [hpath, ho] at hchanged
        exact absurd (heq.trans (hcurrent.trans hversion.symm)) hchanged
  · obtain ⟨f, sequence, hf, -, hentries⟩ := hsaved.entries
    rw [entry, hentries, Table.find?_insert, hpath]
    split
    next hp =>
      rw [hp, hcurrent, ← hversion]
      exact hf
    · rfl

/-- A new container, and what may have become of it. -/
structure Fresh (w : World) : Prop where
  authority : isMirror w = false
  entries : w.db.entries = .empty
  revisions : w.db.revisions = .empty
  tree : w.volume.disk.Rooted

theorem Fresh.sound {w : World} (h : Fresh w) : Sound w where
  authority := h.authority
  inStep :=
    { chain := by
        rw [h.revisions]
        exact Linked.nil
      current := fun path e he => by
        rw [entry, h.entries] at he
        cases he }
  tree := h.tree

def Reached (w : World) : Prop := ∃ first, Fresh first ∧ Steps (fun _ => False) first w

theorem Reached.sound {w : World} (h : Reached w) : Sound w := by
  obtain ⟨first, hfresh, hsteps⟩ := h
  exact hfresh.sound.steps hsteps

theorem step_looking {reserved : Path → Prop} {w v : World} (h : looking.rel w v) : Step reserved w v := by
  obtain ⟨volume, rfl, hdisk⟩ := h
  exact .other w _ ⟨rfl, rfl⟩ (fun _ _ => rfl) rfl rfl hdisk

/-- What a restoration comes to. `u` is the container as it was found when the bytes were there. -/
structure Restoration (path : Text) (e : Entry) (temporary : Path) (succeeded : Prop) (u v : World) : Prop where
  revisions : v.db.revisions = u.db.revisions
  versions : ∀ p, ((entry v.db p).getD {}).version = ((entry u.db p).getD {}).version
  tables : ¬succeeded → v.db.tables = u.db.tables
  files : (¬succeeded ∧ ∀ q, q ≠ temporary → v.volume.disk.content q = u.volume.disk.content q) ∨
    ∃ bytes, digest bytes = e.hash.text ∧ (bytes.length : Int) = Replica.sizeOf e ∧
      Published path e temporary bytes u v

theorem restoreObject_safe {w : World} (hw : Reached w)
    (hnew : w.volume.disk.node (temporaryOf (decimal w.volume.uuids)) = none) {meanwhile : World → World}
    (hmeanwhile : ∀ u, Steps (· = temporaryOf (decimal w.volume.uuids)) u (meanwhile u)) (path : Text)
    (p : DirectoryObjectProvider) (c : Copying) :
    ∃ u, Steps (· = temporaryOf (decimal w.volume.uuids)) w u ∧
      Restoration path (confirmed w.db path) (temporaryOf (decimal w.volume.uuids))
        (∃ v, restoreObject path p c meanwhile w = .ok () v) u (final (restoreObject path p c meanwhile w)) := by
  have hlook := looking_missing path w
  cases hmissing : missing path w with
  | error error v =>
    rw [hmissing] at hlook
    rw [restoreObject, bind_of_error hmissing]
    obtain ⟨volume, rfl, hdisk⟩ := hlook
    refine ⟨w, .refl, rfl, fun _ => rfl, fun _ => rfl, .inl ⟨fun ⟨_, h⟩ => (by cases h), fun q _ => ?_⟩⟩
    exact congrArg (Disk.content · q) hdisk
  | ok a x =>
    obtain ⟨e, object, temporary⟩ := a
    rw [hmissing] at hlook
    obtain ⟨rfl, hfile, rfl, rfl⟩ := missing_ok hmissing
    have hsteps := (Relation.ReflTransGen.single (step_looking hlook)).trans (hmeanwhile x)
    have hu := hw.sound.steps hsteps
    obtain ⟨o, ho⟩ : ∃ o, NamespaceJournal.object w.db path = some o := by
      cases ho : NamespaceJournal.object w.db path with
      | none =>
        rw [confirmed, ho] at hfile
        cases hfile
      | some o => exact ⟨o, rfl⟩
    have he : confirmed w.db path = o := by rw [confirmed, ho]; rfl
    rw [he] at hmissing ⊢
    obtain ⟨hversion, hpath⟩ := hw.sound.inStep.confirmed ho
    have hrun : restoreObject path p c meanwhile w = (replaced path o (temporaryOf (decimal w.volume.uuids))
        (p.get (identity w o) c) >>= fun st => save o st.stamp) (meanwhile x) := by
      rw [restoreObject, bind_of_ok hmissing]
      exact bind_of_ok (modify_apply meanwhile x)
    rw [hrun]
    refine ⟨meanwhile x, hsteps, ?_⟩
    rcases replaced_cases path o (p.get (identity w o) c) hu.tree ((node_steps hsteps rfl hw.sound).trans hnew) with
      ⟨error, volume, herror, hfiles⟩ | ⟨st, volume, bytes, hok, hfetched, hpublished⟩
    · rw [bind_of_error herror]
      refine ⟨rfl, fun _ => rfl, fun _ => rfl, ?_⟩
      rcases hfiles with hsame | ⟨bytes, hfetched, hpublished⟩
      · exact .inl ⟨fun ⟨_, h⟩ => (by cases h), hsame⟩
      · exact .inr ⟨bytes, (get_ok hfetched).1, (get_ok hfetched).2, hpublished⟩
    · rw [bind_of_ok hok]
      have hfiles : ∀ db, ∃ b, digest b = o.hash.text ∧ (b.length : Int) = Replica.sizeOf o ∧
          Published path o (temporaryOf (decimal w.volume.uuids)) b (meanwhile x) { meanwhile x with volume, db } := by
        intro db
        obtain ⟨hdigest, hsize⟩ := get_ok hfetched
        exact ⟨bytes, hdigest, hsize, hpublished.free, hpublished.version, hpublished.there, hpublished.others⟩
      rcases save_confirmed (w := { meanwhile x with volume }) hu.authority hu.inStep st.stamp hpublished.version hpath
        hversion with ⟨error, faults, herror⟩ | ⟨db, hsaved, hrevisions, hversions⟩
      · rw [herror]
        exact ⟨rfl, fun _ => rfl, fun _ => rfl, .inr (hfiles _)⟩
      · rw [hsaved]
        exact ⟨hrevisions, hversions, fun h => absurd ⟨_, rfl⟩ h, .inr (hfiles _)⟩

/-! ## Placing -/

/-- The rows of providers other than the container itself stay. -/
def localRows : Frame Database where
  rel s t := ∀ version provider, provider ≠ text "local" →
    t.locations.find? (version, provider) = s.locations.find? (version, provider)
  refl _ _ _ _ := rfl
  trans h k version provider hp := (k version provider hp).trans (h version provider hp)

omit [StoreLayout] in
theorem localRows_statement {write : Database → Option Database}
    (h : ∀ s t, write s = some t → localRows.rel s t) : Keeps localRows (Database.statement write) := by
  intro s
  rcases Database.statement_cases write s with ⟨t, hwrite, heq⟩ | ⟨faults, -, heq⟩
  · rw [heq]
    exact h s t hwrite
  · rw [heq]
    exact fun _ _ _ => rfl

theorem localRows_saveIn (j : NamespaceJournal) (mirror : Bool) (proposal base : Text) (input : Entry) (stamp : Stamp) :
    Keeps localRows (saveIn j mirror proposal base input stamp) := by
  have hcommit : Keeps localRows (j.commit (versioned input) proposal base) := by
    refine .bind .get fun db => .ite (fun _ => .pure _) fun _ => .ite (fun _ => .throw _) fun _ => .bind ?_ fun _ => .pure _
    refine localRows_statement fun s t h => ?_
    obtain ⟨revisions, -, rfl⟩ := Option.map_eq_some_iff.mp h
    exact fun _ _ _ => rfl
  refine .rollback (.bind .get fun db => .bind ?_ fun e => .bind ?_ fun sequence => .bind ?_ fun _ => ?_)
    fun _ _ _ _ _ _ => rfl
  · rw [recorded]
    exact .ite (fun _ => hcommit) fun _ => .ite (fun _ => .pure _) fun _ => .bind .get fun _ => .pure _
  · rw [sequenceFor]
    refine .ite (fun _ => .bind .get fun _ => .ite (fun _ => .throw _) fun _ => .bind ?_ fun _ => .pure _) fun _ => .pure _
    exact localRows_statement fun s t h => by
      cases h
      exact fun _ _ _ => rfl
  · exact localRows_statement fun s t h => by
      cases h
      exact fun _ _ _ => rfl
  · refine .ite (fun _ => localRows_statement fun s t h => ?_) fun _ => .pure _
    cases h
    intro version provider hp
    exact Table.find?_insert_ne _ _ fun heq => hp (Prod.mk.inj heq).2

def keepsLocal : Frame World where
  rel w v := localRows.rel w.db v.db
  refl w := localRows.refl w.db
  trans h k := localRows.trans h k

theorem keepsLocal_refresh (path : Text) : Keeps keepsLocal (refresh path) := by
  have hvolume : ∀ {α : Type} (m : Effect Volume α), Keeps keepsLocal (onVolume m) := fun m =>
    .zoom fun w => localRows.refl w.db
  refine .bind (hvolume _) fun _ => .bind (hvolume _) fun st => keeps_observed (fun _ _ => hvolume _) (fun n => ?_)
    (fun input stamp => ?_) _ _ _
  · refine .zoom fun w => ?_
    exact localRows_statement (fun s t h => by cases h; exact fun _ _ _ => rfl) w.db
  · exact .bind .get fun w => .zoom fun w' => localRows_saveIn _ _ _ _ _ _ w'.db

/-- What is found at a path. -/
def seen (d : Disk) (path : Path) : Option Entry :=
  match ConfinedFiles.stateOf d path with
  | .ok st => some
    { kind := .string st.kind, size := .string (decimal st.size)
      hash := .string (if st.kind = file then digest ((d.content path).getD []) else []) }
  | .error _ => none

/-- The entry of a path has the content that is there. -/
def Recorded (w : World) (path : Text) : Prop :=
  ∀ e, seen w.volume.disk (physical path) = some e → contentEqual e ((entry w.db path).getD {})

/-- Looking at a path adds a revision only for an edit that the entry does not have yet. -/
def Noted (path : Text) (w v : World) : Prop :=
  v.db.revisions = w.db.revisions ∨ ¬Recorded w path ∧ ∃ r, v.db.revisions.rows = w.db.revisions.rows ++ [r]

theorem save_entry {w : World} (hauthority : isMirror w = false) (h : InStep (journal w) w.db) {path : Text} {f : Entry}
    (hf : entry w.db path = some f) (stamp : Stamp) : (final (save f stamp w)).db.revisions = w.db.revisions := by
  obtain ⟨o, ho, hsame, hpayload⟩ := h.current path f hf
  obtain ⟨hversion, hpath⟩ := h.confirmed ho
  have hf' : (versioned f).version = f.version := by
    rw [← hsame, ← hversion, versioned, versioned, hpayload]
  have hfpath : f.path.text = path := by
    rw [← hpath]
    exact congrArg (fun e => e.path.text) hpayload.symm
  rcases save_confirmed hauthority h stamp (by rw [hf]; rfl) hfpath hf' with
    ⟨error, faults, herror⟩ | ⟨db, hok, hrevisions, -⟩
  · rw [herror]
    rfl
  · rw [hok]
    exact hrevisions

omit [StoreLayout] in
theorem hash_content {d : Disk} {path : Path} {expected : Stamp} {hash : Text}
    (h : (ConfinedFiles.stamped d path expected >>= fun bytes => pure (digest bytes)) = Except.ok hash) :
    hash = digest ((d.content path).getD []) := by
  cases hstamped : ConfinedFiles.stamped d path expected with
  | error e =>
    rw [hstamped] at h
    cases h
  | ok bytes =>
    rw [hstamped] at h
    cases h
    rw [ConfinedFiles.stamped] at hstamped
    split at hstamped
    next i hwalk hnode =>
      split at hstamped
      · cases hstamped
      · cases hstamped
        rw [Disk.content, hnode]
        rfl
    · cases hstamped

theorem observed_noted {w : World} (hauthority : isMirror w = false) (h : InStep (journal w) w.db) {path : Text}
    {st : FileState} (hst : ConfinedFiles.stateOf w.volume.disk (physical path) = .ok st) :
    Noted path w (final (observed path st [] w)) := by
  rw [observed, bind_of_ok (get_apply w)]
  split
  · exact .inl rfl
  split
  · exact .inl rfl
  split
  · exact .inl rfl
  extract_lets clock counter rest
  have hrest : ∀ hash volume, hash = (if st.kind = file then digest ((w.volume.disk.content (physical path)).getD []) else []) →
      Noted path w (final (rest hash { w with volume })) := by
    intro hash volume hhash
    simp only [rest]
    split
    next hequal =>
      cases hentry : entry w.db path with
      | none =>
        rw [hentry] at hequal
        simp [contentEqual] at hequal
      | some f => exact .inl (save_entry (w := { w with volume }) hauthority h hentry st.stamp)
    next hchanged =>
      split
      · exact .inl rfl
      have hunrecorded : ¬Recorded w path := by
        intro hrecorded
        refine hchanged ?_
        have hequal := hrecorded _ (by rw [seen, hst])
        rw [← hhash] at hequal
        exact hequal
      rw [Database.setMeta]
      rcases Database.statement_cases (fun db => some { db with
          metadata := db.metadata.insert (text "counter") (decimalInt counter) }) w.db with
        ⟨t, ht, heq⟩ | ⟨faults, -, heq⟩
      · cases ht
        rw [bind_of_ok (onDatabase_of_ok (w := { w with volume }) heq)]
        have hmeta : ∀ key, key = hostKey ∨ key = text "hostReplica" →
            (w.db.metadata.insert (text "counter") (decimalInt counter)).find? key = w.db.metadata.find? key := by
          rintro key (rfl | rfl)
          · exact Table.find?_insert_ne _ _ (by decide)
          · exact Table.find?_insert_ne _ _ (by decide)
        obtain ⟨hjournal, hmirror⟩ := journal_congr (w := w) (v := { w with
          volume
          db := { w.db with
            metadata := w.db.metadata.insert (text "counter") (decimalInt counter), faults := w.db.faults.tail } })
          ⟨rfl, rfl⟩ fun key hkey => by
            rw [Database.meta_, hmeta key hkey]
            rfl
        rcases save_cases (hmirror.trans hauthority) (hjournal ▸ h.of_rows rfl rfl) _ st.stamp with
          ⟨error, faults, herror⟩ | ⟨db, hok, hsaved⟩
        · rw [herror]
          exact .inl rfl
        · rw [hok]
          exact hsaved.revisions.imp id fun hadded => ⟨hunrecorded, hadded.2⟩
      · rw [bind_of_error (onDatabase_of_error (w := { w with volume }) heq)]
        exact .inl rfl
  split
  next hfile =>
    rw [if_pos rfl]
    rcases onVolume_cases (ConfinedFiles.hash (physical path) st.stamp) w with ⟨hash, t, hlook, hok⟩ | ⟨error, t, -, herror⟩
    · rw [bind_of_ok hok]
      refine hrest hash t ?_
      rw [if_pos hfile]
      exact hash_content (look_eq_ok hlook).2
    · rw [bind_of_error herror]
      exact .inl rfl
  next hkind => exact hrest [] w.volume (by rw [if_neg hkind])

theorem Noted.of_looking {path : Text} {w x v : World} (hx : looking.rel w x) (h : Noted path x v) : Noted path w v := by
  obtain ⟨volume, rfl, hdisk⟩ := hx
  refine h.imp id fun hadded => ⟨fun hrecorded => hadded.1 ?_, hadded.2⟩
  intro e he
  exact hrecorded e (by rw [← hdisk]; exact he)

theorem refresh_noted {w : World} (h : Sound w) (path : Text) : Noted path w (final (refresh path w)) := by
  rw [refresh]
  have hexact : looking.rel w (final (onVolume (ConfinedFiles.exactPath (physical path)) w)) := looking_look _ _ w
  cases hx : onVolume (ConfinedFiles.exactPath (physical path)) w with
  | error error x =>
    rw [bind_of_error hx]
    rw [hx] at hexact
    obtain ⟨volume, rfl, -⟩ := hexact
    exact .inl rfl
  | ok a x =>
    rw [bind_of_ok hx]
    rw [hx] at hexact
    refine .of_looking hexact ?_
    obtain ⟨volume, rfl, hdisk⟩ := hexact
    rcases onVolume_cases (ConfinedFiles.state (physical path)) { w with volume } with
      ⟨st, t, hstate, hok⟩ | ⟨error, t, -, herror⟩
    · rw [bind_of_ok hok]
      obtain ⟨htdisk, hst⟩ := ConfinedFiles.state_disk hstate
      have htdisk : t.disk = volume.disk := htdisk
      refine .of_looking ⟨t, rfl, htdisk⟩ (observed_noted (w := { w with volume := t }) h.authority h.inStep ?_)
      rw [htdisk]
      exact hst
    · rw [bind_of_error herror]
      exact .inl rfl

/-- The first part of a placement: what it may write, and the version it names. -/
structure Chosen (path : Text) (w v : World) : Prop where
  noted : Noted path w v
  local_ : keepsLocal.rel w v

theorem chosen_cases {w : World} (h : Sound w) (path : Text) :
    Chosen path w (final (chosen path w)) ∧ ∀ e object v, chosen path w = .ok (e, object) v →
      e = confirmed v.db path ∧ e.isKind file ∧ object = identity v e := by
  have hlock := looking_lock w
  rw [chosen]
  cases hx : lock w with
  | error error x =>
    rw [hx] at hlock
    rw [bind_of_error hx]
    obtain ⟨volume, rfl, -⟩ := hlock
    exact ⟨⟨.inl rfl, keepsLocal.refl w⟩, fun _ _ _ hok => by cases hok⟩
  | ok a x =>
    rw [hx] at hlock
    rw [bind_of_ok hx]
    have hsame : Chosen path w x := by
      obtain ⟨volume, rfl, -⟩ := hlock
      exact ⟨.inl rfl, keepsLocal.refl w⟩
    rw [bind_of_ok (get_apply x)]
    split
    · exact ⟨hsame, fun _ _ _ hok => by cases hok⟩
    split
    · exact ⟨hsame, fun _ _ _ hok => by cases hok⟩
    have hsound : Sound x := by
      obtain ⟨volume, rfl, hdisk⟩ := hlock
      exact ⟨h.authority, h.inStep, hdisk ▸ h.tree⟩
    have hrefreshed : Chosen path w (final (refresh path x)) :=
      ⟨(refresh_noted hsound path).of_looking hlock, keepsLocal.trans hsame.local_ (keepsLocal_refresh path x)⟩
    cases hr : refresh path x with
    | error error v =>
      rw [hr] at hrefreshed
      rw [bind_of_error (relabel_of_error hr)]
      exact ⟨hrefreshed, fun _ _ _ hok => by cases hok⟩
    | ok a v =>
      rw [hr] at hrefreshed
      rw [bind_of_ok (relabel_of_ok hr), bind_of_ok (get_apply v)]
      split
      · exact ⟨hrefreshed, fun _ _ _ hok => by cases hok⟩
      next hfile =>
        refine ⟨hrefreshed, fun e object u hok => ?_⟩
        cases hok
        exact ⟨rfl, not_not.mp hfile, rfl⟩

/-- The provider holds the bytes of the version that a receipt names. -/
def Held (path version provider : Text) (x : World) (p : DirectoryObjectProvider) : Prop :=
  provider = p.id ∧ (confirmed x.db path).isKind file ∧ (confirmed x.db path).version.text = version ∧
    ∃ bytes, p.objects.find? (identity x (confirmed x.db path)).key = some bytes ∧
      digest bytes = (confirmed x.db path).hash.text ∧ (bytes.length : Int) = Replica.sizeOf (confirmed x.db path)

/-- What a placement comes to. `x` is the container as the first part has left it, before `meanwhile`. -/
structure Placed (path : Text) (meanwhile : World → World) (s : Site) (x : World) (t : Site) : Prop where
  noted : Noted path s.world x
  revisions : t.world.db.revisions = x.db.revisions ∨ t.world.db.revisions = (meanwhile x).db.revisions
  receipts : ∀ version provider location, provider ≠ text "local" →
    t.world.db.locations.find? (version, provider) = some location →
    s.world.db.locations.find? (version, provider) = some location ∨
      (meanwhile x).db.locations.find? (version, provider) = some location ∨ Held path version provider x t.provider

omit [StoreLayout] in
theorem onWorld_of_ok {α : Type} {m : Effect World α} {s : Site} {a : α} {w : World} (h : m s.world = .ok a w) :
    onWorld m s = .ok a { s with world := w } := zoom_of_ok h

omit [StoreLayout] in
theorem onWorld_of_error {α : Type} {m : Effect World α} {s : Site} {error : Text} {w : World}
    (h : m s.world = .error error w) : onWorld m s = .error error { s with world := w } := zoom_of_error h

omit [StoreLayout] in
theorem onProvider_of_ok {α : Type} {m : Effect DirectoryObjectProvider α} {s : Site} {a : α}
    {p : DirectoryObjectProvider} (h : m s.provider = .ok a p) : onProvider m s = .ok a { s with provider := p } :=
  zoom_of_ok h

omit [StoreLayout] in
theorem onProvider_of_error {α : Type} {m : Effect DirectoryObjectProvider α} {s : Site} {error : Text}
    {p : DirectoryObjectProvider} (h : m s.provider = .error error p) :
    onProvider m s = .error error { s with provider := p } := zoom_of_error h

omit [StoreLayout] in
theorem receipt_cases (e : Entry) (object : ObjectIdentity) (s : Site) :
    (∃ error volume faults, receipt e object s =
      .error error { s with world := { s.world with volume, db := { s.world.db with faults } } }) ∨
    ∃ volume faults, receipt e object s = .ok () { s with world := { s.world with
      volume
      db := { s.world.db with
        locations := s.world.db.locations.insert (e.version.text, s.provider.id)
          { kind := s.provider.kind, key := object.key }
        faults } } } := by
  rw [receipt]
  rcases lock_spent s.world with ⟨faults, hlock⟩ | ⟨error, faults, hlock⟩
  · rw [bind_of_ok (onWorld_of_ok hlock), bind_of_ok (get_apply _)]
    rcases Database.statement_cases (fun db => some { db with
        locations := db.locations.insert (e.version.text, s.provider.id) { kind := s.provider.kind, key := object.key } })
        s.world.db with
      ⟨t, ht, heq⟩ | ⟨faults', -, heq⟩
    · cases ht
      exact .inr ⟨_, _, onWorld_of_ok (s := { s with world := s.world.spent faults }) (onDatabase_of_ok heq)⟩
    · exact .inl ⟨_, _, _, onWorld_of_error (s := { s with world := s.world.spent faults }) (onDatabase_of_error heq)⟩
  · rw [bind_of_error (onWorld_of_error hlock)]
    exact .inl ⟨error, _, s.world.db.faults, rfl⟩

theorem placeObject_safe {s : Site} (hs : Reached s.world) (path : Text) (c : Copying) (meanwhile : World → World) :
    ∃ x, Placed path meanwhile s x (final (placeObject path c meanwhile s)) ∧
      ∀ t, placeObject path c meanwhile s = .ok () t →
        Held path (confirmed x.db path).version.text s.provider.id x t.provider ∧
          (t.world.db.locations.find? ((confirmed x.db path).version.text, s.provider.id)).isSome := by
  obtain ⟨hchosen, hanswer⟩ := chosen_cases hs.sound path
  cases hx : chosen path s.world with
  | error error x =>
    rw [hx] at hchosen
    rw [placeObject, bind_of_error (onWorld_of_error hx)]
    refine ⟨x, ⟨hchosen.noted, .inl rfl, fun version provider location hp hfound => .inl ?_⟩, fun t ht => by cases ht⟩
    rw [← hchosen.local_ version provider hp]
    exact hfound
  | ok a x =>
    obtain ⟨e, object⟩ := a
    rw [hx] at hchosen
    obtain ⟨rfl, hfile, rfl⟩ := hanswer _ _ _ hx
    have hrun : placeObject path c meanwhile s =
        (onProvider (DirectoryObjectProvider.put (identity x (confirmed x.db path)) c) >>= fun _ =>
          receipt (confirmed x.db path) (identity x (confirmed x.db path))) { s with world := meanwhile x } := by
      rw [placeObject, bind_of_ok (onWorld_of_ok hx)]
      rfl
    rw [hrun]
    refine ⟨x, ?_⟩
    rcases put_cases s.provider (identity x (confirmed x.db path)) c with ⟨error, hput⟩ | ⟨bytes, hput, hdigest, hsize, hid⟩
    · rw [bind_of_error (onProvider_of_error (s := { s with world := meanwhile x }) hput)]
      exact ⟨⟨hchosen.noted, .inr rfl, fun _ _ _ _ hfound => .inr (.inl hfound)⟩, fun t ht => by cases ht⟩
    · rw [bind_of_ok (onProvider_of_ok (s := { s with world := meanwhile x }) hput)]
      have hheld : Held path (confirmed x.db path).version.text s.provider.id x
          { s.provider with objects := s.provider.objects.insert (identity x (confirmed x.db path)).key bytes } :=
        ⟨rfl, hfile, rfl, bytes, Table.find?_insert_self _ _ _, hdigest, hsize⟩
      rcases receipt_cases (confirmed x.db path) (identity x (confirmed x.db path)) { s with
          world := meanwhile x
          provider := { s.provider with objects := s.provider.objects.insert (identity x (confirmed x.db path)).key bytes } }
        with ⟨error, volume, faults, herror⟩ | ⟨volume, faults, hok⟩
      · rw [herror]
        exact ⟨⟨hchosen.noted, .inr rfl, fun _ _ _ _ hfound => .inr (.inl hfound)⟩, fun t ht => by cases ht⟩
      · rw [hok]
        refine ⟨⟨hchosen.noted, .inr rfl, fun version provider location hp hfound => .inr ?_⟩, fun t ht => ?_⟩
        · by_cases hkey : (version, provider) = ((confirmed x.db path).version.text, s.provider.id)
          · cases hkey
            exact .inr hheld
          · rw [final_ok, Table.find?_insert_ne _ _ hkey] at hfound
            exact .inl hfound
        · cases ht
          exact ⟨hheld, by rw [Table.find?_insert_self]; rfl⟩

/-- Over whatever happens between the two parts, a receipt is written for bytes that the provider holds, and a
restoration puts only confirmed bytes where nothing is and writes no revision. -/
theorem providers_content_safe {s : Site} (hs : Reached s.world)
    (hnew : s.world.volume.disk.node (temporaryOf (decimal s.world.volume.uuids)) = none) (path : Text)
    (placing restoring : Copying) (edits meanwhile : World → World)
    (hmeanwhile : ∀ u, Steps (· = temporaryOf (decimal s.world.volume.uuids)) u (meanwhile u)) :
    (∃ x, Placed path edits s x (final (placeObject path placing edits s)) ∧
      ∀ t, placeObject path placing edits s = .ok () t →
        Held path (confirmed x.db path).version.text s.provider.id x t.provider ∧
          (t.world.db.locations.find? ((confirmed x.db path).version.text, s.provider.id)).isSome) ∧
    ∃ u, Steps (· = temporaryOf (decimal s.world.volume.uuids)) s.world u ∧
      Restoration path (confirmed s.world.db path) (temporaryOf (decimal s.world.volume.uuids))
        (∃ v, restoreObject path s.provider restoring meanwhile s.world = .ok () v) u
        (final (restoreObject path s.provider restoring meanwhile s.world)) :=
  ⟨placeObject_safe hs path placing edits, restoreObject_safe hs hnew hmeanwhile path s.provider restoring⟩

end Site

/-! ## A file on a shelf -/

namespace Site

open Replica

def shelf : DirectoryObjectProvider := { id := text "shelf", nas := false }

/-- The authority with a file that it has not looked at yet. -/
def unsavedNotes : World :=
  { newAuthority with volume := { disk := (openedDisk.makeDirectory [text "Files"]).create [text "Files", text "notes"] } }

/-- The same file once it has been recorded and removed; the flush of the directory is going to fail. -/
def notesEntry : Entry where
  path := .string (text "files/notes")
  kind := .string file
  size := .string (text "0")
  hash := .string (digest [])
  clock := some [(newAuthority.id, .string (text "1"))]

def recordedNotes : World :=
  final (@save plainLayout notesEntry .absent
    { newAuthority with volume := { disk := openedDisk.makeDirectory [text "Files"] } })

def lostNotes : World :=
  { recordedNotes with volume := { recordedNotes.volume with faults := List.replicate 12 none ++ [some 0] } }

def filledShelf : DirectoryObjectProvider :=
  { shelf with objects := .insert .empty (identity recordedNotes (confirmed recordedNotes.db (text "files/notes"))).key [] }

/-- No bytes, read in no turn. -/
def emptyCopy : Copying := { size := 0, turns := [] }

theorem rooted_openedDisk : (openedDisk.makeDirectory [text "Files"]).Rooted :=
  (((Disk.rooted_empty.makeDirectory (by decide) (by decide)).makeDirectory (by decide) (by decide)).makeDirectory
    (by decide) (by decide)).makeDirectory (by decide) (by decide)

theorem fresh_unsavedNotes : Fresh unsavedNotes where
  authority := by decide
  entries := rfl
  revisions := rfl
  tree := rooted_openedDisk.create (by decide) (by decide)

theorem reached_unsavedNotes : @Reached plainLayout unsavedNotes := ⟨unsavedNotes, fresh_unsavedNotes, .refl⟩

theorem step_faults [StoreLayout] {reserved : Path → Prop} (w : World) (faults : List (Option Nat)) :
    Step reserved w { w with volume := { w.volume with faults } } :=
  .other _ _ ⟨rfl, rfl⟩ (fun _ _ => rfl) rfl rfl rfl

theorem reached_lostNotes : @Reached plainLayout lostNotes := by
  have hfresh : Fresh { newAuthority with volume := { disk := openedDisk.makeDirectory [text "Files"] } } :=
    ⟨by decide, rfl, rfl, rooted_openedDisk⟩
  have hsaved : @Steps plainLayout (fun _ => False)
      { newAuthority with volume := { disk := openedDisk.makeDirectory [text "Files"] } } recordedNotes :=
    .single (@Step.save plainLayout _ _ notesEntry .absent)
  exact ⟨_, hfresh, hsaved.tail (@step_faults plainLayout _ recordedNotes _)⟩

theorem providers_content_safe_notes :
    ∃ x, @Placed plainLayout (text "files/notes") id ⟨unsavedNotes, shelf⟩ x
      (final (@placeObject plainLayout (text "files/notes") emptyCopy id ⟨unsavedNotes, shelf⟩)) := by
  obtain ⟨x, hplaced, -⟩ := (@providers_content_safe plainLayout ⟨unsavedNotes, shelf⟩ reached_unsavedNotes (by decide)
    (text "files/notes") emptyCopy emptyCopy id id fun _ => .refl).1
  exact ⟨x, hplaced⟩

/-- A placement records the edit that it finds, and a restoration whose last flush fails leaves its file in place. -/
theorem placeObject_records :
    (¬∀ s : Site, @Reached plainLayout s.world → ∀ c,
      (final (@placeObject plainLayout (text "files/notes") c id s)).world.db.revisions = s.world.db.revisions) ∧
    ¬∀ w, @Reached plainLayout w → ∀ p c error t,
      @restoreObject plainLayout (text "files/notes") p c id w = .error error t →
        t.volume.disk.content [text "Files", text "notes"] = w.volume.disk.content [text "Files", text "notes"] := by
  constructor
  · intro h
    have hone : (final (@placeObject plainLayout (text "files/notes") emptyCopy id
        ⟨unsavedNotes, shelf⟩)).world.db.revisions.rows.length = 1 := by decide +kernel
    rw [h ⟨unsavedNotes, shelf⟩ reached_unsavedNotes emptyCopy] at hone
    cases hone
  · intro h
    have hthere : (match @restoreObject plainLayout (text "files/notes") filledShelf emptyCopy id lostNotes with
        | .ok _ _ => none
        | .error _ t => t.volume.disk.content [text "Files", text "notes"]) = some [] := by decide +kernel
    have hgone : lostNotes.volume.disk.content [text "Files", text "notes"] = none := by decide +kernel
    cases hrun : @restoreObject plainLayout (text "files/notes") filledShelf emptyCopy id lostNotes with
    | ok u t =>
      rw [hrun] at hthere
      cases hthere
    | error error t =>
      rw [hrun] at hthere
      have hsame := h lostNotes reached_lostNotes filledShelf emptyCopy error t hrun
      rw [hgone] at hsame
      exact absurd (hsame.symm.trans hthere) (by simp)

end Site

end SocietyHelper.Sync
