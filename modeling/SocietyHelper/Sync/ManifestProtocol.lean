import SocietyHelper.Sync.Manifests

/-! # Manifests, pinned transfers and receipts

One request moves at most the manifest and the receipt of its own peer. `Turn`
lists every way a request can end; what holds of a run is read off its turns.
-/

namespace SocietyHelper.Sync

open Library Effect

/-- A world in which only system calls have been used up. -/
def World.spent (w : World) (faults : List (Option Nat)) : World := { w with volume := { w.volume with faults } }

/-- What does not concern manifests and receipts. -/
structure Aside (w v : World) : Prop where
  manifests : v.manifests = w.manifests
  receipts : v.db.snapshots = w.db.snapshots
  id : v.id = w.id
  container : v.container = w.container

def aside : Frame World where
  rel := Aside
  refl := fun _ => ⟨rfl, rfl, rfl, rfl⟩
  trans := fun h h' => ⟨h'.manifests.trans h.manifests, h'.receipts.trans h.receipts, h'.id.trans h.id,
    h'.container.trans h.container⟩

def sameReceipts : Frame Database where
  rel := fun s t => t.snapshots = s.snapshots
  refl := fun _ => rfl
  trans := fun h h' => h'.trans h

namespace Replica

theorem aside_onVolume {α : Type} (m : Effect Volume α) : Keeps aside (onVolume m) :=
  .zoom fun _ => ⟨rfl, rfl, rfl, rfl⟩

theorem aside_onDatabase {α : Type} {m : Effect Database α} (h : Keeps sameReceipts m) : Keeps aside (onDatabase m) :=
  .zoom fun w => ⟨rfl, h w.db, rfl, rfl⟩

theorem sameReceipts_statement {write : Database → Option Database}
    (h : ∀ s t, write s = some t → t.snapshots = s.snapshots) : Keeps sameReceipts (Database.statement write) := by
  intro s
  rcases Database.statement_cases write s with ⟨t, ht, heq⟩ | ⟨faults, -, heq⟩
  · rw [heq]
    exact h s t ht
  · rw [heq]
    rfl

theorem sameReceipts_setMeta (key value : Text) : Keeps sameReceipts (Database.setMeta key value) :=
  sameReceipts_statement fun _ _ h => by cases h; rfl

theorem sameReceipts_saveIn [StoreLayout] (j : NamespaceJournal) (mirror : Bool) (proposal base : Text) (input : Entry)
    (stamp : Stamp) : Keeps sameReceipts (saveIn j mirror proposal base input stamp) := by
  have happend : ∀ r, Keeps sameReceipts (NamespaceJournal.append r) := fun r => sameReceipts_statement fun s t h => by
    obtain ⟨u, -, rfl⟩ := Option.map_eq_some_iff.mp h
    rfl
  have hrecorded : ∀ previous, Keeps sameReceipts (recorded j mirror proposal base input previous) := by
    intro previous
    refine .ite (fun _ => .bind .get fun db => ?_) fun _ => .ite (fun _ => .pure _) fun _ => .bind .get fun _ => .pure _
    exact .ite (fun _ => .pure _) fun _ => .ite (fun _ => .throw _) fun _ => .bind (happend _) fun _ => .pure _
  have hsequence : ∀ e previous, Keeps sameReceipts (sequenceFor e previous) := fun e previous =>
    .ite (fun _ => .bind .get fun db => .ite (fun _ => .throw _) fun _ => .bind (sameReceipts_setMeta _ _) fun _ => .pure _)
      fun _ => .pure _
  refine .rollback (.bind .get fun db => .bind (hrecorded _) fun e => .bind (hsequence _ _) fun _ => ?_) fun _ _ _ => rfl
  refine .bind (sameReceipts_statement fun _ _ h => by cases h; rfl) fun _ => ?_
  exact .ite (fun _ => sameReceipts_statement fun _ _ h => by cases h; rfl) fun _ => .pure _

theorem steady_aside [StoreLayout] : Steady aside where
  attempt := fun _ => aside_onVolume _
  look := fun _ _ => aside_onVolume _
  append := fun _ _ _ => aside_onVolume _
  discard := fun _ => aside_onVolume _
  mkdir := fun _ => aside_onVolume _
  remove := fun _ => aside_onVolume _
  preserve := fun _ _ => aside_onVolume _
  install := fun _ _ => aside_onVolume _
  count := fun _ => aside_onDatabase (sameReceipts_setMeta _ _)
  save := fun _ _ => .bind .get fun _ => aside_onDatabase (sameReceipts_saveIn _ _ _ _ _ _)
  propose := fun _ _ => .modify fun _ => ⟨rfl, rfl, rfl, rfl⟩
  draw := aside_onVolume _
  unlink := fun _ => aside_onVolume _
  publish := fun _ _ => .bind (aside_onVolume _) fun _ => .bind (aside_onVolume _) fun _ =>
    .andThen (.relabel (.bind (aside_onVolume _) fun _ => aside_onVolume _) _) (aside_onVolume _)
  savepoint := aside_onDatabase (sameReceipts_statement fun _ _ h => by cases h; rfl)
  restore := fun _ _ h => ⟨h.manifests, rfl, h.id, h.container⟩

/-! ## Manifest pages -/

theorem attempt_cases (error : Text) (s : Volume) :
    (∃ faults, ConfinedFiles.attempt error s = .ok () { s with faults }) ∨
      ∃ faults, ConfinedFiles.attempt error s = .error error { s with faults } := by
  rw [ConfinedFiles.attempt]
  split
  · exact Or.inr ⟨_, rfl⟩
  · exact Or.inl ⟨_, rfl⟩

theorem ready_spent (w : World) :
    (∃ faults, ready w = .ok () (w.spent faults)) ∨ ∃ e faults, ready w = .error e (w.spent faults) := by
  rw [ready]
  rcases attempt_cases (text "container_unavailable_or_replaced") w.volume with ⟨faults, h⟩ | ⟨faults, h⟩
  · exact Or.inl ⟨faults, zoom_of_ok h⟩
  · exact Or.inr ⟨_, faults, zoom_of_error h⟩

theorem lock_spent (w : World) :
    (∃ faults, lock w = .ok () (w.spent faults)) ∨ ∃ e faults, lock w = .error e (w.spent faults) := by
  rcases ready_spent w with ⟨faults, hready⟩ | ⟨e, faults, hready⟩
  · rw [lock, bind_of_ok hready]
    rcases attempt_cases (text "sync_store_busy") (w.spent faults).volume with ⟨faults', h⟩ | ⟨faults', h⟩
    · exact Or.inl ⟨faults', zoom_of_ok h⟩
    · exact Or.inr ⟨_, faults', zoom_of_error h⟩
  · rw [lock, bind_of_error hready]
    exact Or.inr ⟨e, faults, rfl⟩

/-- Starting a manifest either fails without a trace or leaves a manifest that the page continues. -/
theorem startManifest_cases (peer : Text) (h : PageHeader) (w : World) :
    (∃ e, startManifest peer h w = .error e w) ∨
    (h.offset = 0 ∧ startManifest peer h w = .ok () { w with manifests := w.manifests.insert peer (started h) }) ∨
    (h.offset ≠ 0 ∧ startManifest peer h w = .ok () w) := by
  rw [startManifest]
  split
  · rename_i hoffset
    rw [bind_of_ok (get_apply w)]
    split
    · exact Or.inl ⟨_, rfl⟩
    · split
      · exact Or.inl ⟨_, rfl⟩
      · exact Or.inr (Or.inl ⟨hoffset, rfl⟩)
  · rename_i hoffset
    exact Or.inr (Or.inr ⟨hoffset, rfl⟩)

theorem readPage_cases [StoreLayout] (peer : Text) (h : PageHeader) (entries : List Entry) (w : World) :
    (∃ e, readPage peer h entries w = .error e w ∧ ∀ m, w.manifests.find? peer = some m → ¬continues m h) ∨
    ∃ m, w.manifests.find? peer = some m ∧ continues m h ∧
      ((∃ e, readPage peer h entries w = .error e { w with manifests := w.manifests.erase peer }) ∨
        ∃ m' n, addEntries w.db m entries = .ok m' ∧ counted m' entries.length = .ok n ∧
          readPage peer h entries w = .ok (acknowledgement n) { w with manifests := w.manifests.insert peer n }) := by
  rw [readPage, bind_of_ok (get_apply w)]
  cases hm : w.manifests.find? peer with
  | none => exact Or.inl ⟨_, rfl, by simp⟩
  | some m =>
    dsimp only
    by_cases hcont : continues m h
    · rw [if_neg (not_not.mpr hcont)]
      refine Or.inr ⟨m, rfl, hcont, ?_⟩
      cases hadd : addEntries w.db m entries with
      | error e => exact Or.inl ⟨e, rfl⟩
      | ok m' =>
        dsimp only
        cases hcount : counted m' entries.length with
        | error e => exact Or.inl ⟨e, rfl⟩
        | ok n => exact Or.inr ⟨m', n, rfl, hcount, rfl⟩
    · rw [if_pos hcont]
      refine Or.inl ⟨_, rfl, fun m' hm' => ?_⟩
      cases hm'
      exact hcont

/-- A page that was read: the manifest it continues, and the manifest after it. -/
structure PageRead [StoreLayout] (peer : Text) (r : Request) (w : World) (h : PageHeader) (m n : Manifest) : Prop where
  header : pageHeader w r = some h
  base : h.offset = 0 ∧ m = started h ∨ h.offset ≠ 0 ∧ w.manifests.find? peer = some m
  continued : continues m h
  added : ∃ m', addEntries w.db m (r.entries.getD []) = .ok m' ∧ counted m' (r.entries.getD []).length = .ok n

theorem manifestPage_cases [StoreLayout] (peer : Text) (r : Request) (w : World) :
    (∃ e faults, manifestPage peer r w = .error e (w.spent faults)) ∨
    (∃ e faults manifests, manifestPage peer r w = .error e { w.spent faults with manifests } ∧
      ∀ q, manifests.find? q = if q = peer then none else w.manifests.find? q) ∨
    (∃ h m n faults manifests, PageRead peer r w h m n ∧
      manifestPage peer r w = .ok (acknowledgement n) { w.spent faults with manifests } ∧
      ∀ q, manifests.find? q = if q = peer then some n else w.manifests.find? q) := by
  rw [manifestPage]
  rcases ready_spent w with ⟨faults, hready⟩ | ⟨e, faults, hready⟩
  swap
  · rw [bind_of_error hready]
    exact Or.inl ⟨e, faults, rfl⟩
  rw [bind_of_ok hready, bind_of_ok (get_apply _)]
  split
  · exact Or.inl ⟨_, faults, rfl⟩
  cases hheader : pageHeader (w.spent faults) r with
  | none => exact Or.inl ⟨_, faults, rfl⟩
  | some h =>
    dsimp only
    rcases startManifest_cases peer h (w.spent faults) with ⟨e, hstart⟩ | ⟨hoffset, hstart⟩ | ⟨hoffset, hstart⟩
    · rw [bind_of_error hstart]
      exact Or.inl ⟨e, faults, rfl⟩
    · rw [bind_of_ok hstart]
      have hfound : (w.manifests.insert peer (started h)).find? peer = some (started h) := Table.find?_insert_self _ _ _
      rcases readPage_cases peer h (r.entries.getD []) { w.spent faults with manifests := w.manifests.insert peer (started h) }
        with ⟨e, -, hnone⟩ | ⟨m, hm, hcont, hread⟩
      · exact absurd (continues_started hoffset) (hnone _ hfound)
      · obtain rfl : started h = m := Option.some.inj (hfound.symm.trans hm)
        rcases hread with ⟨e, heq⟩ | ⟨m', n, hadd, hcount, heq⟩
        · refine Or.inr (Or.inl ⟨e, faults, _, heq, fun q => ?_⟩)
          rw [Table.find?_erase, Table.find?_insert]
          split <;> rfl
        · refine Or.inr (Or.inr ⟨h, started h, n, faults, _, ⟨hheader, Or.inl ⟨hoffset, rfl⟩, hcont, m', hadd, hcount⟩,
            heq, fun q => ?_⟩)
          rw [Table.find?_insert, Table.find?_insert]
          split <;> rfl
    · rw [bind_of_ok hstart]
      rcases readPage_cases peer h (r.entries.getD []) (w.spent faults) with ⟨e, heq, -⟩ | ⟨m, hm, hcont, hread⟩
      · exact Or.inl ⟨e, faults, heq⟩
      · rcases hread with ⟨e, heq⟩ | ⟨m', n, hadd, hcount, heq⟩
        · exact Or.inr (Or.inl ⟨e, faults, _, heq, fun q => Table.find?_erase _ _ _⟩)
        · exact Or.inr (Or.inr ⟨h, m, n, faults, _, ⟨hheader, Or.inr ⟨hoffset, hm⟩, hcont, m', hadd, hcount⟩, heq,
            fun q => Table.find?_insert _ _ _ _⟩)

/-! ## Receipts -/

/-- The receipt belongs to the manifest and the snapshot that a request names. -/
def Matches (p : Receipt) (r : Request) : Prop := .string p.manifest = r.manifest ∧ p.snapshot.id = r.snapshot.toValue

/-- The stored manifest a snapshot can be completed under. -/
structure Completes (m : Manifest) (r : Request) : Prop where
  complete : m.complete
  snapshot : ¬m.snapshot.isEmpty
  manifest : .string m.id = r.manifest
  named : m.snapshot.id = r.snapshot.toValue

theorem snapshotComplete_cases (peer : Text) (r : Request) (w : World) :
    (∃ e faults, snapshotComplete peer r w = .error e { w with db := { w.db with faults } }) ∨
    (∃ p, snapshotComplete peer r w = .ok p w ∧ w.db.snapshots.find? peer = some p ∧ Matches p r) ∨
    (∃ m faults, w.manifests.find? peer = some m ∧ Completes m r ∧ m.applied.length = m.members.keys.length ∧
      snapshotComplete peer r w = .ok (receiptOf w m)
        { w with db := { w.db with snapshots := w.db.snapshots.insert peer (receiptOf w m), faults } }) := by
  rw [snapshotComplete, bind_of_ok (get_apply w)]
  dsimp only
  cases hm : (w.manifests.find? peer).filter fun m =>
    m.complete && !m.snapshot.isEmpty && .string m.id = r.manifest && m.snapshot.id = r.snapshot.toValue with
  | none =>
    dsimp only
    cases hp : (lastSnapshot w.db peer).filter fun p =>
      .string p.manifest = r.manifest && p.snapshot.id = r.snapshot.toValue with
    | none => exact Or.inl ⟨_, w.db.faults, rfl⟩
    | some p =>
      obtain ⟨hfound, hmatch⟩ := Option.filter_eq_some_iff.mp hp
      simp only [Bool.and_eq_true, decide_eq_true_eq] at hmatch
      exact Or.inr (Or.inl ⟨p, rfl, hfound, hmatch⟩)
  | some m =>
    dsimp only
    obtain ⟨hfound, hmatch⟩ := Option.filter_eq_some_iff.mp hm
    simp only [Bool.and_eq_true, Bool.not_eq_true', decide_eq_true_eq, and_assoc] at hmatch
    obtain ⟨hcomplete, hsnapshot, hid, hnamed⟩ := hmatch
    split
    · exact Or.inl ⟨_, w.db.faults, rfl⟩
    rename_i hall
    cases hp : (lastSnapshot w.db peer).filter fun p => p.snapshot = m.snapshot && p.manifest = m.id with
    | some p =>
      obtain ⟨hprevious, hsame⟩ := Option.filter_eq_some_iff.mp hp
      simp only [Bool.and_eq_true, decide_eq_true_eq] at hsame
      refine Or.inr (Or.inl ⟨p, rfl, hprevious, ?_, ?_⟩)
      · rw [hsame.2, hid]
      · rw [hsame.1, hnamed]
    | none =>
      dsimp only
      have hwrite := Database.statement_cases
        (fun db => some { db with snapshots := db.snapshots.insert peer (receiptOf w m) }) w.db
      rcases hwrite with ⟨t, ht, heq⟩ | ⟨faults, -, heq⟩
      · cases ht
        refine Or.inr (Or.inr ⟨m, w.db.faults.tail, hfound, ⟨hcomplete, by simp [hsnapshot], hid, hnamed⟩, not_not.mp hall, ?_⟩)
        rw [bind_of_ok]
        · rfl
        · rw [relabel, onDatabase_of_ok heq]
      · refine Or.inl ⟨text "snapshot_receipt_write_failed", faults, bind_of_error ?_⟩
        rw [relabel, onDatabase_of_error heq]

/-! ## One request -/

/-- Answers that neither a manifest page nor a receipt is given. -/
def plainAnswer : Response → Prop
  | .manifest _ => False
  | .receipt _ => False
  | _ => True

/-- Every way in which a request of a peer can end. -/
inductive Turn [StoreLayout] (peer : Text) (r : Request) (w : World) : EStateM.Result Text World Response → Prop
  | failed {e v} (h : Aside w v) : Turn peer r w (.error e v)
  | answered {a v} (hplain : plainAnswer a) (h : Aside w v) : Turn peer r w (.ok a v)
  | noted {m v u} (haction : r.action ∈ transferActions) (hstored : w.manifests.find? peer = some m)
      (hsnapshot : ¬m.snapshot.isEmpty) (hcomplete : m.complete) (hid : r.manifest.text = m.id)
      (hnamed : r.snapshot.toValue = m.snapshot.id)
      (hmember : m.members.find? (r.entry.getD {}).path.text = some (digest (utf8 (r.entry.getD {}).json)))
      (h : Aside w u) (hv : v = final (applied peer (r.entry.getD {}).path.text u)) :
      Turn peer r w (.ok (.transfer .complete) v)
  | dropped {e faults manifests} (haction : r.action = text "manifest")
      (hmanifests : ∀ q, manifests.find? q = if q = peer then none else w.manifests.find? q) :
      Turn peer r w (.error e { w.spent faults with manifests })
  | page {h m n faults manifests} (haction : r.action = text "manifest") (hpage : PageRead peer r w h m n)
      (hmanifests : ∀ q, manifests.find? q = if q = peer then some n else w.manifests.find? q) :
      Turn peer r w (.ok (.manifest (acknowledgement n)) { w.spent faults with manifests })
  | repeated {p faults} (haction : r.action = text "snapshot.complete") (hstored : w.db.snapshots.find? peer = some p)
      (hmatch : Matches p r) : Turn peer r w (.ok (.receipt p) (w.spent faults))
  | written {m faults dbFaults} (haction : r.action = text "snapshot.complete")
      (hstored : w.manifests.find? peer = some m) (hcompletes : Completes m r)
      (hall : m.applied.length = m.members.keys.length) :
      Turn peer r w (.ok (.receipt (receiptOf w m)) { w.spent faults with
        db := { w.db with snapshots := w.db.snapshots.insert peer (receiptOf w m), faults := dbFaults } })

theorem aside_spent (w : World) (faults : List (Option Nat)) : Aside w (w.spent faults) := ⟨rfl, rfl, rfl, rfl⟩

/-- The manifest that a transfer is pinned to, and what it says about the transfer's entry. -/
theorem pinned_eq_ok {w : World} {peer : Text} {r : Request} {e : Entry} {manifest : Option Manifest}
    (hnamed : namedManifest w peer r = .ok manifest) (hpinned : pinned manifest r e = .ok ()) :
    (∀ m, manifest = some m → w.manifests.find? peer = some m ∧ m.complete ∧ r.manifest.text = m.id ∧
      (¬m.snapshot.isEmpty → r.snapshot.toValue = m.snapshot.id ∧
        m.members.find? e.path.text = some (digest (utf8 e.json)))) ∧
    (manifest = none → r.action ∈ transferActions → ∀ m, w.manifests.find? peer = some m → m.snapshot.isEmpty) := by
  rw [namedManifest] at hnamed
  split at hnamed
  · cases hnamed
  rename_i hrequired
  split at hnamed
  · split at hnamed
    · rename_i m hm
      cases hnamed
      obtain ⟨hfound, hmatch⟩ := Option.filter_eq_some_iff.mp hm
      simp only [Bool.and_eq_true, decide_eq_true_eq] at hmatch
      refine ⟨?_, by simp⟩
      intro m' hm'
      cases hm'
      refine ⟨hfound, hmatch.1, hmatch.2.symm, fun hsnapshot => ?_⟩
      rw [pinned] at hpinned
      split at hpinned
      · cases hpinned
      · split at hpinned
        · cases hpinned
        · rename_i hmismatch
          simp only [not_and_or, not_or, not_not] at hmismatch
          rcases hmismatch with hempty | ⟨hid, hmember⟩
          · exact absurd hempty hsnapshot
          · exact ⟨hid.symm, hmember⟩
    · cases hnamed
  · rename_i hdefined
    cases hnamed
    refine ⟨by simp, fun _ haction m hm => ?_⟩
    by_contra hsnapshot
    exact hrequired ⟨haction, by simp [hm, hsnapshot], hdefined⟩

/-- What a computation that leaves manifests and receipts alone makes of a request. -/
theorem Turn.of_concludes [StoreLayout] {peer : Text} {r : Request} {w u : World} {m : Effect World Response}
    (hm : Concludes aside (fun w a v => Aside w v ∧ plainAnswer a) m) (hu : Aside w u) : Turn peer r w (m u) := by
  rcases hm u with ⟨e, v, heq, hv⟩ | ⟨a, v, heq, hv, hplain⟩
  · rw [heq]
    exact .failed (aside.trans hu hv)
  · rw [heq]
    exact .answered hplain (aside.trans hu hv)

/-- A step of the replica whose answer is passed on in a plain response. -/
theorem concludes_of_keeps {α : Type} {m : Effect World α} {f : α → Response} (hm : Keeps aside m)
    (hf : ∀ a, plainAnswer (f a)) :
    Concludes aside (fun w a v => Aside w v ∧ plainAnswer a) (m >>= fun a => pure (f a)) :=
  .bind hm (fun a => .pure fun w => ⟨aside.refl w, hf a⟩) fun h h' => ⟨aside.trans h h'.1, h'.2⟩

theorem transferRequest_turn [StoreLayout] {peer : Text} {r : Request} {w u : World} (hu : Aside w u) :
    Turn peer r w (transferRequest peer r u) := by
  rw [transferRequest, bind_of_ok (get_apply u)]
  cases hnamed : namedManifest u peer r with
  | error e => exact .failed hu
  | ok manifest =>
    dsimp only
    by_cases hvalid : validRecord (r.entry.getD {})
    swap
    · rw [if_pos hvalid]
      exact .failed hu
    rw [if_neg (not_not.mpr hvalid)]
    have hpath := (validRecord_iff.mp hvalid).path
    cases hpinned : pinned manifest r (r.entry.getD {}) with
    | error e => exact .failed hu
    | ok _ =>
      dsimp only
      have hcarrying := steady_aside.carrying hpath peer
      have hexpect := hcarrying.expect r (r.entry.getD {}) u
      cases hexp : expect r (r.entry.getD {}) u with
      | error e v =>
        rw [hexp] at hexpect
        rw [bind_of_error hexp]
        exact .failed (aside.trans hu hexpect)
      | ok _ v =>
        rw [hexp] at hexpect
        rw [bind_of_ok hexp]
        have hv : Aside w v := aside.trans hu hexpect
        by_cases hread : r.action = text "read"
        · rw [if_pos hread]
          refine .of_concludes ?_ hv
          intro s
          rcases hcarrying.readChunk r (r.entry.getD {}) s with h | ⟨a, t, heq, hrel, offset, data, version, rfl⟩
          · exact Or.inl h
          · exact Or.inr ⟨_, t, heq, hrel, trivial⟩
        rw [if_neg hread]
        by_cases hbegin : r.action = text "begin" ∨ r.action = text "commit" ∨ r.action = text "apply"
        · rw [if_pos hbegin]
          have haction : r.action ∈ transferActions := by
            rcases hbegin with h | h | h <;> rw [h] <;> decide
          rcases hcarrying.begin_ manifest r v with ⟨e, t, heq, hrel⟩ | ⟨outcome, t, heq, x, hx, ht⟩
          · rw [bind_of_error heq]
            exact .failed (aside.trans hv hrel)
          · rw [bind_of_ok heq]
            have hx' : Aside w x := aside.trans hv hx
            split at ht
            · rename_i hnote
              obtain ⟨hany, rfl⟩ := hnote
              obtain ⟨m, rfl, hsnapshot⟩ := (Option.any_eq_true _ _).mp hany
              obtain ⟨hfound, hcomplete, hid, hmember⟩ := (pinned_eq_ok hnamed hpinned).1 m rfl
              have hwhole : ¬m.snapshot.isEmpty := by simpa using hsnapshot
              rw [hu.manifests] at hfound
              exact .noted haction hfound hwhole hcomplete hid (hmember hwhole).1 (hmember hwhole).2 hx' ht
            · rw [ht]
              exact .answered trivial hx'
        rw [if_neg hbegin]
        split
        · exact .of_concludes (concludes_of_keeps (hcarrying.chunk _) fun _ => trivial) hv
        · exact .failed hv

theorem handle_turn [StoreLayout] (peer : Text) (r : Request) (refreshIndex : Bool) (w : World) :
    Turn peer r w (handle peer r refreshIndex w) := by
  rw [handle, bind_of_ok (get_apply w)]
  split
  · exact .failed (aside.refl w)
  split
  · exact .failed (aside.refl w)
  split
  · refine .of_concludes ?_ (aside.refl w)
    intro s
    rcases steady_aside.driveRequest r s with h | ⟨a, t, heq, hrel, path, pending, rfl⟩
    · exact Or.inl h
    · exact Or.inr ⟨_, t, heq, hrel, trivial⟩
  split
  · exact .of_concludes (concludes_of_keeps (steady_aside.journalRequest r) fun _ => trivial) (aside.refl w)
  split
  · exact .of_concludes (concludes_of_keeps (steady_aside.changesRequest r refreshIndex) fun _ => trivial) (aside.refl w)
  split
  · rename_i haction
    rcases manifestPage_cases peer r w with ⟨e, faults, heq⟩ | ⟨e, faults, manifests, heq, hmanifests⟩ |
      ⟨h, m, n, faults, manifests, hpage, heq, hmanifests⟩
    · rw [bind_of_error heq]
      exact .failed (aside_spent w faults)
    · rw [bind_of_error heq]
      exact .dropped haction hmanifests
    · rw [bind_of_ok heq]
      exact .page haction hpage hmanifests
  rcases lock_spent w with ⟨faults, hlock⟩ | ⟨e, faults, hlock⟩
  swap
  · rw [bind_of_error hlock]
    exact .failed (aside_spent w faults)
  rw [bind_of_ok hlock]
  split
  · rename_i haction
    rcases snapshotComplete_cases peer r (w.spent faults) with ⟨e, dbFaults, heq⟩ | ⟨p, heq, hstored, hmatch⟩ |
      ⟨m, dbFaults, hstored, hcompletes, hall, heq⟩
    · rw [bind_of_error heq]
      exact .failed ⟨rfl, rfl, rfl, rfl⟩
    · rw [bind_of_ok heq]
      exact .repeated haction hstored hmatch
    · rw [bind_of_ok heq]
      exact .written haction hstored hcompletes hall
  · exact transferRequest_turn (aside_spent w faults)

theorem handle_manifest [StoreLayout] (peer : Text) {r : Request} (refreshIndex : Bool)
    (haction : r.action = text "manifest") (w : World) :
    (∃ e, handle peer r refreshIndex w = .error e w) ∨
      handle peer r refreshIndex w = (manifestPage peer r >>= fun answer => pure (.manifest answer)) w := by
  rw [handle, bind_of_ok (get_apply w)]
  split
  · exact Or.inl ⟨_, rfl⟩
  split
  · exact Or.inl ⟨_, rfl⟩
  have hdrive : ¬(text "drive.").isPrefixOf r.action := by
    rw [haction]
    decide
  have hjournal : r.action ≠ text "journal" := by
    rw [haction]
    decide
  have hchanges : r.action ≠ text "changes" := by
    rw [haction]
    decide
  rw [if_neg hdrive, if_neg hjournal, if_neg hchanges]
  exact Or.inr rfl

/-- A manifest request changes no file, no row, no revision and no receipt. -/
theorem handle_manifest_quiet [StoreLayout] (peer : Text) {r : Request} (refreshIndex : Bool)
    (haction : r.action = text "manifest") (w : World) :
    (final (handle peer r refreshIndex w)).db = w.db ∧
      (final (handle peer r refreshIndex w)).volume.disk = w.volume.disk := by
  rcases handle_manifest peer refreshIndex haction w with ⟨e, heq⟩ | heq
  · rw [heq]
    exact ⟨rfl, rfl⟩
  rw [heq]
  rcases manifestPage_cases peer r w with ⟨e, faults, hpage⟩ | ⟨e, faults, manifests, hpage, -⟩ |
    ⟨h, m, n, faults, manifests, -, hpage, -⟩
  · rw [bind_of_error hpage]
    exact ⟨rfl, rfl⟩
  · rw [bind_of_error hpage]
    exact ⟨rfl, rfl⟩
  · rw [bind_of_ok hpage]
    exact ⟨rfl, rfl⟩

/-! ## Runs -/

/-- What a peer sees of an answer. -/
def answerOf : EStateM.Result Text World Response → Except Text Response
  | .ok a _ => .ok a
  | .error e _ => .error e

/-- Requests of any peers in any order, with the replica opened again and its files changed by
others in between; the events are the requests with their answers. -/
inductive Served [StoreLayout] (start : World) : List Event → World → Prop
  | start : Served start [] start
  | request {log w} (peer : Text) (r : Request) (refreshIndex : Bool) (h : Served start log w) :
      Served start (log ++ [⟨peer, r, answerOf (handle peer r refreshIndex w)⟩]) (final (handle peer r refreshIndex w))
  | reopened {log w} (h : Served start log w) : Served start log { w with manifests := .empty }
  | edited {log w} (volume : Volume) (h : Served start log w) : Served start log { w with volume }

/-- The events begin with an accepted page of the peer. -/
def Opened (peer : Text) (since : List Event) : Prop := ∃ first a rest, since = ⟨peer, first, .ok (.manifest a)⟩ :: rest

theorem Opened.concat {peer : Text} {since : List Event} (h : Opened peer since) (ev : Event) :
    Opened peer (since ++ [ev]) := by
  obtain ⟨first, a, rest, rfl⟩ := h
  exact ⟨first, a, rest ++ [ev], rfl⟩

theorem suffix_concat {α : Type} {since log : List α} (h : since <:+ log) (ev : α) : since ++ [ev] <:+ log ++ [ev] := by
  obtain ⟨front, rfl⟩ := h
  exact ⟨front, (List.append_assoc _ _ _).symm⟩

/-- Every stored manifest is described by the events since its first page. -/
def Tracked (log : List Event) (w : World) : Prop :=
  ∀ peer m, w.manifests.find? peer = some m → ∃ since, Opened peer since ∧ since <:+ log ∧ Described peer since m

theorem acceptedPage_ne {peer : Text} {ev : Event} (h : ev.peer ≠ peer) : acceptedPage peer ev = none := by
  rw [acceptedPage]
  split
  · exact if_neg h
  · rfl

theorem Tracked.other {log : List Event} {w : World} {peer : Text} {m : Manifest} {ev : Event} (h : Tracked log w)
    (hstored : w.manifests.find? peer = some m) (hev : acceptedPage peer ev = none) :
    ∃ since, Opened peer since ∧ since <:+ log ++ [ev] ∧ Described peer since m := by
  obtain ⟨since, hopened, hsuffix, hdescribed⟩ := h peer m hstored
  exact ⟨since ++ [ev], hopened.concat ev, suffix_concat hsuffix ev, hdescribed.other hev⟩

theorem final_applied {peer path : Text} {w : World} {m : Manifest} (h : w.manifests.find? peer = some m) :
    final (applied peer path w) = { w with
      manifests := w.manifests.insert peer { m with
        applied := if path ∈ m.applied then m.applied else m.applied ++ [path] } } := by
  rw [applied, modify_apply, final_ok, h]

/-- Noting a path touches the manifest of its own peer only. -/
theorem applied_aside {peer path : Text} {w u : World} (h : Aside w u) :
    (final (applied peer path u)).db.snapshots = w.db.snapshots ∧
      (final (applied peer path u)).container = w.container ∧
      ∀ q, q ≠ peer → (final (applied peer path u)).manifests.find? q = w.manifests.find? q := by
  rw [applied, modify_apply, final_ok]
  split
  · refine ⟨h.receipts, h.container, fun q hq => ?_⟩
    change Table.find? (Table.insert _ _ _) q = _
    rw [Table.find?_insert_ne _ _ hq, h.manifests]
  · exact ⟨h.receipts, h.container, fun q _ => by rw [h.manifests]⟩

theorem tracked_turn [StoreLayout] {log : List Event} {w : World} {peer : Text} {r : Request}
    {result : EStateM.Result Text World Response} (h : Tracked log w) (hturn : Turn peer r w result) :
    Tracked (log ++ [⟨peer, r, answerOf result⟩]) (final result) := by
  intro q m hstored
  cases hturn with
  | failed haside =>
    rw [final_error, haside.manifests] at hstored
    exact h.other hstored rfl
  | answered hplain haside =>
    rw [final_ok, haside.manifests] at hstored
    refine h.other hstored ?_
    rw [acceptedPage, answerOf]
    split
    · rename_i a ha
      cases ha
      exact hplain.elim
    · rfl
  | dropped haction hmanifests =>
    rename_i e faults manifests
    change manifests.find? q = some m at hstored
    rw [hmanifests q] at hstored
    split at hstored
    · cases hstored
    · exact h.other hstored rfl
  | repeated => exact h.other hstored rfl
  | written => exact h.other hstored rfl
  | noted haction hfound hsnapshot hcomplete hid hnamed hmember haside hv =>
    rename_i n v u
    have hfoundu : u.manifests.find? peer = some n := by rw [haside.manifests, hfound]
    rw [final_ok, hv, final_applied hfoundu] at hstored
    change Table.find? (Table.insert _ _ _) q = some m at hstored
    rw [Table.find?_insert, haside.manifests] at hstored
    split at hstored
    · rename_i hq
      subst hq
      cases hstored
      obtain ⟨since, hopened, hsuffix, hdescribed⟩ := h q n hfound
      exact ⟨_, hopened.concat _, suffix_concat hsuffix _, hdescribed.noted rfl
        ⟨_, List.mem_singleton_self _, rfl, rfl, hid, hnamed, rfl, hmember⟩⟩
    · exact h.other hstored rfl
  | page haction hpage hmanifests =>
    rename_i header before n faults manifests
    change manifests.find? q = some m at hstored
    rw [hmanifests q] at hstored
    obtain ⟨m', hadd, hcount⟩ := hpage.added
    split at hstored
    · rename_i hq
      subst hq
      cases hstored
      rcases hpage.base with ⟨-, rfl⟩ | ⟨-, hfound⟩
      · have hrange := (pageHeader_eq_some hpage.header).2.2.2.2.2.2.2
        exact ⟨_, ⟨r, _, [], rfl⟩, List.suffix_append _ _,
          (described_started header hrange).page hpage.header hpage.continued hadd hcount⟩
      · obtain ⟨since, hopened, hsuffix, hdescribed⟩ := h q before hfound
        exact ⟨_, hopened.concat _, suffix_concat hsuffix _,
          hdescribed.page hpage.header hpage.continued hadd hcount⟩
    · rename_i hq
      exact h.other hstored (acceptedPage_ne (Ne.symm hq))

theorem tracked_served [StoreLayout] {start w : World} {log : List Event} (hstart : start.manifests = .empty)
    (h : Served start log w) : Tracked log w := by
  induction h with
  | start =>
    intro peer m hstored
    rw [hstart] at hstored
    cases hstored
  | request peer r refreshIndex _ ih => exact tracked_turn ih (handle_turn peer r refreshIndex _)
  | reopened _ _ =>
    intro peer m hstored
    cases hstored
  | edited volume _ ih => exact ih

/-! ## What a complete manifest is -/

/-- Two texts are the same, or a collision of the digest has been found. -/
def SameText (a b : Text) : Prop := a = b ∨ (a ≠ b ∧ digest (utf8 a) = digest (utf8 b))

theorem sameText_of_digest {a b : Text} (h : digest (utf8 a) = digest (utf8 b)) : SameText a b := by
  by_cases hab : a = b
  · exact Or.inl hab
  · exact Or.inr ⟨hab, h⟩

/-- The entries announced since the first page are all of the manifest. -/
structure Whole (peer : Text) (since : List Event) (m : Manifest) : Prop where
  hash : sha256 ((announcedEntries peer since).flatMap entryLine) = m.id
  total : (announcedEntries peer since).length = m.total
  ordered : Ordered m.after m.through (announcedEntries peer since)
  paths : ¬m.snapshot.isEmpty → ((announcedEntries peer since).map fun e => e.path.text).Nodup
  counted : ¬m.snapshot.isEmpty → Diff.sum m.diff = (announcedEntries peer since).length

theorem Described.whole {peer : Text} {since : List Event} {m : Manifest} (h : Described peer since m)
    (hcomplete : m.complete) : Whole peer since m where
  hash := by
    rw [← h.read.sent]
    exact (h.complete hcomplete).2
  total := by rw [← h.next, (h.complete hcomplete).1]
  ordered := h.read.ordered.weaken h.read.through
  paths := fun hsnapshot => by
    have hunique := m.members.unique
    rw [h.read.members, if_neg hsnapshot, List.map_map] at hunique
    exact hunique
  counted := h.read.counted

theorem Described.member {peer : Text} {since : List Event} {m : Manifest} (h : Described peer since m)
    (hsnapshot : ¬m.snapshot.isEmpty) {path digested : Text} (hmember : m.members.find? path = some digested) :
    ∃ e ∈ announcedEntries peer since, e.path.text = path ∧ digest (utf8 e.json) = digested := by
  rw [← Table.mem_rows_iff, h.read.members, if_neg hsnapshot] at hmember
  obtain ⟨e, he, hfile⟩ := List.mem_map.mp hmember
  exact ⟨e, he, congrArg Prod.fst hfile, congrArg Prod.snd hfile⟩

/-- A transfer of the entry, as it was announced, was answered complete under the manifest. -/
def EntryCompleted (peer : Text) (since : List Event) (m : Manifest) (e : Entry) : Prop :=
  ∃ ev ∈ since, ev.peer = peer ∧ ev.answer = .ok (.transfer .complete) ∧ ev.request.manifest.text = m.id ∧
    ev.request.snapshot.toValue = m.snapshot.id ∧ SameText e.json (ev.request.entry.getD {}).json

theorem Described.all_completed {peer : Text} {since : List Event} {m : Manifest} (h : Described peer since m)
    (hsnapshot : ¬m.snapshot.isEmpty) (hall : m.applied.length = m.members.keys.length) {e : Entry}
    (he : e ∈ announcedEntries peer since) : EntryCompleted peer since m e := by
  have hmember : m.members.find? e.path.text = some (digest (utf8 e.json)) := by
    rw [← Table.mem_rows_iff, h.read.members, if_neg hsnapshot]
    exact List.mem_map_of_mem he
  have hsubset : m.applied ⊆ m.members.keys := by
    intro path hpath
    obtain ⟨ev, -, -, -, -, -, -, hfound⟩ := h.applied path hpath
    exact (Table.mem_keys_iff _ _).mpr ⟨_, hfound⟩
  have hperm : m.applied.Perm m.members.keys := (h.distinct.subperm hsubset).perm_of_length_le (Nat.le_of_eq hall.symm)
  have happlied : e.path.text ∈ m.applied := hperm.mem_iff.mpr ((Table.mem_keys_iff _ _).mpr ⟨_, hmember⟩)
  obtain ⟨ev, hmem, hpeer, hanswer, hid, hnamed, hpath, hfound⟩ := h.applied _ happlied
  refine ⟨ev, hmem, hpeer, hanswer, hid, hnamed, sameText_of_digest ?_⟩
  exact Option.some.inj (hmember.symm.trans hfound)

/-! ## Pinned transfers -/

/-- A request that fails before it has looked at a file, a row or a manifest. -/
def Refused (result : EStateM.Result Text World Response) (w : World) : Prop :=
  ∃ e faults, result = .error e (w.spent faults)

theorem transferRequest_pinned [StoreLayout] {peer : Text} {r : Request} {w : World} {m : Manifest}
    (hstored : w.manifests.find? peer = some m) (hsnapshot : ¬m.snapshot.isEmpty) (haction : r.action ∈ transferActions) :
    (∃ e, transferRequest peer r w = .error e w) ∨
      (m.complete ∧ r.manifest.text = m.id ∧ r.snapshot.toValue = m.snapshot.id ∧
        m.members.find? (r.entry.getD {}).path.text = some (digest (utf8 (r.entry.getD {}).json))) := by
  rw [transferRequest, bind_of_ok (get_apply w)]
  cases hnamed : namedManifest w peer r with
  | error e => exact Or.inl ⟨e, rfl⟩
  | ok manifest =>
    dsimp only
    split
    · exact Or.inl ⟨_, rfl⟩
    cases hpinned : pinned manifest r (r.entry.getD {}) with
    | error e => exact Or.inl ⟨e, rfl⟩
    | ok _ =>
      obtain ⟨hsome, hnone⟩ := pinned_eq_ok hnamed hpinned
      cases manifest with
      | none => exact absurd (hnone rfl haction m hstored) hsnapshot
      | some m' =>
        obtain ⟨hfound, hcomplete, hid, hmember⟩ := hsome m' rfl
        rw [hstored] at hfound
        cases hfound
        exact Or.inr ⟨hcomplete, hid, (hmember hsnapshot).1, (hmember hsnapshot).2⟩

theorem handle_pinned [StoreLayout] {peer : Text} {r : Request} {w : World} {m : Manifest} (refreshIndex : Bool)
    (hstored : w.manifests.find? peer = some m) (hsnapshot : ¬m.snapshot.isEmpty) (haction : r.action ∈ transferActions) :
    Refused (handle peer r refreshIndex w) w ∨
      (m.complete ∧ r.manifest.text = m.id ∧ r.snapshot.toValue = m.snapshot.id ∧
        m.members.find? (r.entry.getD {}).path.text = some (digest (utf8 (r.entry.getD {}).json))) := by
  have hother : (text "drive.").isPrefixOf r.action = false ∧ r.action ≠ text "journal" ∧ r.action ≠ text "changes" ∧
      r.action ≠ text "manifest" ∧ r.action ≠ text "snapshot.complete" := by
    have hall : ∀ a ∈ transferActions, (text "drive.").isPrefixOf a = false ∧ a ≠ text "journal" ∧ a ≠ text "changes" ∧
        a ≠ text "manifest" ∧ a ≠ text "snapshot.complete" := by decide
    exact hall _ haction
  rw [handle, bind_of_ok (get_apply w)]
  split
  · exact Or.inl ⟨_, w.volume.faults, rfl⟩
  split
  · exact Or.inl ⟨_, w.volume.faults, rfl⟩
  rw [if_neg (by simp [hother.1]), if_neg hother.2.1, if_neg hother.2.2.1, if_neg hother.2.2.2.1]
  rcases lock_spent w with ⟨faults, hlock⟩ | ⟨e, faults, hlock⟩
  swap
  · rw [bind_of_error hlock]
    exact Or.inl ⟨e, faults, rfl⟩
  rw [bind_of_ok hlock, if_neg hother.2.2.2.2]
  rcases transferRequest_pinned (w := w.spent faults) hstored hsnapshot haction with ⟨e, heq⟩ | hpinned
  · exact Or.inl ⟨e, faults, heq⟩
  · exact Or.inr hpinned

/-! ## Receipts in a run -/

theorem turn_others [StoreLayout] {peer q : Text} {r : Request} {w : World}
    {result : EStateM.Result Text World Response} (hturn : Turn peer r w result) (hq : q ≠ peer) :
    (final result).manifests.find? q = w.manifests.find? q ∧
      (final result).db.snapshots.find? q = w.db.snapshots.find? q := by
  cases hturn with
  | failed h => exact ⟨by rw [final_error, h.manifests], by rw [final_error, h.receipts]⟩
  | answered _ h => exact ⟨by rw [final_ok, h.manifests], by rw [final_ok, h.receipts]⟩
  | dropped _ hmanifests => exact ⟨(hmanifests q).trans (if_neg hq), rfl⟩
  | repeated => exact ⟨rfl, rfl⟩
  | written => exact ⟨rfl, Table.find?_insert_ne _ _ hq⟩
  | page _ _ hmanifests => exact ⟨(hmanifests q).trans (if_neg hq), rfl⟩
  | noted _ _ _ _ _ _ _ h hv =>
    rw [final_ok, hv]
    exact ⟨(applied_aside h).2.2 q hq, by rw [(applied_aside h).1]⟩

/-- A receipt changes only when its peer completes a snapshot. -/
theorem turn_receipt [StoreLayout] {peer : Text} {r : Request} {w : World}
    {result : EStateM.Result Text World Response} (hturn : Turn peer r w result) :
    (final result).db.snapshots = w.db.snapshots ∨
      (r.action = text "snapshot.complete" ∧ ∃ m, w.manifests.find? peer = some m ∧ Completes m r ∧
        m.applied.length = m.members.keys.length ∧ answerOf result = .ok (.receipt (receiptOf w m)) ∧
        (final result).db.snapshots = w.db.snapshots.insert peer (receiptOf w m)) := by
  cases hturn with
  | failed h => exact Or.inl h.receipts
  | answered _ h => exact Or.inl h.receipts
  | dropped => exact Or.inl rfl
  | repeated => exact Or.inl rfl
  | written haction hstored hcompletes hall => exact Or.inr ⟨haction, _, hstored, hcompletes, hall, rfl, rfl⟩
  | page => exact Or.inl rfl
  | noted _ _ _ _ _ _ _ h hv =>
    rw [final_ok, hv]
    exact Or.inl (applied_aside h).1

/-- A receipt that is answered is the stored one. -/
theorem turn_answers [StoreLayout] {peer : Text} {r : Request} {w : World} {p : Receipt}
    {result : EStateM.Result Text World Response} (hturn : Turn peer r w result)
    (hanswer : answerOf result = .ok (.receipt p)) :
    (final result).db.snapshots.find? peer = some p ∧ Matches p r ∧ r.action = text "snapshot.complete" := by
  cases hturn with
  | failed => cases hanswer
  | answered hplain =>
    cases hanswer
    exact hplain.elim
  | dropped => cases hanswer
  | repeated haction hstored hmatch =>
    cases hanswer
    exact ⟨hstored, hmatch, haction⟩
  | written haction hstored hcompletes hall =>
    cases hanswer
    exact ⟨Table.find?_insert_self _ _ _, ⟨hcompletes.manifest, hcompletes.named⟩, haction⟩
  | page => cases hanswer
  | noted => cases hanswer

theorem turn_container [StoreLayout] {peer : Text} {r : Request} {w : World}
    {result : EStateM.Result Text World Response} (hturn : Turn peer r w result) :
    (final result).container = w.container := by
  cases hturn with
  | failed h => exact h.container
  | answered _ h => exact h.container
  | dropped => rfl
  | repeated => rfl
  | written => rfl
  | page => rfl
  | noted _ _ _ _ _ _ _ h hv =>
    rw [final_ok, hv]
    exact (applied_aside h).2.1

theorem container_served [StoreLayout] {start w : World} {log : List Event} (h : Served start log w) :
    w.container = start.container := by
  induction h with
  | start => rfl
  | request peer r refreshIndex _ ih => exact (turn_container (handle_turn peer r refreshIndex _)).trans ih
  | reopened _ ih => exact ih
  | edited _ _ ih => exact ih

/-- A request that is looked at: it comes from a proper peer, fits the limit and names this container. -/
def Acceptable (peer : Text) (r : Request) (container : Text) : Prop :=
  ¬(peer = [] ∨ 256 < utf16Size peer ∨ 400000 < utf8Size r.json) ∧
    ¬(r.container.defined ∧ r.container.text ≠ container)

theorem acceptable_of_answer [StoreLayout] {peer : Text} {r : Request} {refreshIndex : Bool} {w : World} {a : Response}
    (h : answerOf (handle peer r refreshIndex w) = .ok a) : Acceptable peer r w.container := by
  rw [handle, bind_of_ok (get_apply w)] at h
  split at h
  · cases h
  rename_i hpeer
  split at h
  · cases h
  rename_i hcontainer
  exact ⟨hpeer, hcontainer⟩

/-- Until the peer is given another receipt, the one it was given is the stored one. -/
theorem receipt_kept [StoreLayout] {start w : World} {log : List Event} (h : Served start log w) :
    ∀ {front : List Event} {peer : Text} {r : Request} {p : Receipt} {back : List Event},
      log = front ++ ⟨peer, r, .ok (.receipt p)⟩ :: back →
      (∀ ev ∈ back, ev.peer = peer → ∀ q, ev.answer = .ok (.receipt q) → q = p) →
      w.db.snapshots.find? peer = some p ∧ Matches p r ∧ r.action = text "snapshot.complete" ∧
        Acceptable peer r w.container := by
  induction h with
  | start =>
    intro front peer r p back hlog
    simp at hlog
  | request peer' r' refreshIndex hserved ih =>
    rename_i log' w'
    intro front peer r p back hlog hback
    have hturn := handle_turn peer' r' refreshIndex w'
    rcases List.eq_nil_or_concat back with rfl | ⟨back', ev, rfl⟩
    · obtain ⟨-, hev⟩ := List.append_inj' hlog rfl
      obtain ⟨rfl, rfl, hanswer⟩ := Event.mk.inj (List.singleton_inj.mp hev)
      obtain ⟨hstored, hmatch, haction⟩ := turn_answers hturn hanswer
      rw [turn_container hturn]
      exact ⟨hstored, hmatch, haction, acceptable_of_answer hanswer⟩
    · rw [List.concat_eq_append, ← List.cons_append, ← List.append_assoc] at hlog
      obtain ⟨hfront, hev⟩ := List.append_inj' hlog rfl
      obtain rfl := List.singleton_inj.mp hev
      have hkept := ih hfront fun ev' hmem => hback ev' (by simp [hmem])
      rw [turn_container hturn]
      refine ⟨?_, hkept.2⟩
      by_cases hpeer : peer = peer'
      · subst hpeer
        rcases turn_receipt hturn with hsame | ⟨-, m, -, -, -, hanswer, hwritten⟩
        · rw [hsame]
          exact hkept.1
        · rw [hwritten, Table.find?_insert_self]
          refine congrArg some (hback ⟨peer, r', answerOf (handle peer r' refreshIndex w')⟩ ?_ rfl _ hanswer)
          simp
      · rw [(turn_others hturn hpeer).2]
        exact hkept.1
  | reopened _ ih => exact ih
  | edited _ _ ih => exact ih

/-- Asking again for a receipt that is stored. -/
theorem snapshotComplete_again {peer : Text} {r : Request} {w : World} {p : Receipt}
    (hstored : w.db.snapshots.find? peer = some p) (hmatch : Matches p r)
    (hagain : ∀ m, w.manifests.find? peer = some m → Completes m r →
      m.applied.length = m.members.keys.length ∧ m.snapshot = p.snapshot) :
    snapshotComplete peer r w = .ok p w := by
  rw [snapshotComplete, bind_of_ok (get_apply w)]
  cases hm : (w.manifests.find? peer).filter fun m =>
    m.complete && !m.snapshot.isEmpty && .string m.id = r.manifest && m.snapshot.id = r.snapshot.toValue with
  | none =>
    have hfilter : (lastSnapshot w.db peer).filter (fun p =>
        .string p.manifest = r.manifest && p.snapshot.id = r.snapshot.toValue) = some p :=
      Option.filter_eq_some_iff.mpr ⟨hstored, by simp [hmatch.1, hmatch.2]⟩
    simp only [hfilter]
    rfl
  | some m =>
    dsimp only
    obtain ⟨hfound, hm'⟩ := Option.filter_eq_some_iff.mp hm
    simp only [Bool.and_eq_true, Bool.not_eq_true', decide_eq_true_eq, and_assoc] at hm'
    obtain ⟨hcomplete, hsnapshot, hid, hnamed⟩ := hm'
    obtain ⟨hall, hsame⟩ := hagain m hfound ⟨hcomplete, by simp [hsnapshot], hid, hnamed⟩
    have hmanifest : p.manifest = m.id := Value.string.inj (hmatch.1.trans hid.symm)
    have hfilter : (lastSnapshot w.db peer).filter (fun p => p.snapshot = m.snapshot && p.manifest = m.id) = some p :=
      Option.filter_eq_some_iff.mpr ⟨hstored, by simp [hsame, hmanifest]⟩
    rw [if_neg (not_not.mpr hall)]
    simp only [hfilter]
    rfl

theorem handle_again [StoreLayout] {peer : Text} {r : Request} {w : World} {p : Receipt} (refreshIndex : Bool)
    (hstored : w.db.snapshots.find? peer = some p) (hmatch : Matches p r) (haction : r.action = text "snapshot.complete")
    (hacceptable : Acceptable peer r w.container)
    (hagain : ∀ m, w.manifests.find? peer = some m → Completes m r →
      m.applied.length = m.members.keys.length ∧ m.snapshot = p.snapshot) :
    (∃ faults, handle peer r refreshIndex w = .ok (.receipt p) (w.spent faults)) ∨
      ∃ e faults, lock w = .error e (w.spent faults) := by
  rcases lock_spent w with ⟨faults, hlock⟩ | hlock
  swap
  · exact Or.inr hlock
  refine Or.inl ⟨faults, ?_⟩
  have hcomplete : snapshotComplete peer r (w.spent faults) = .ok p (w.spent faults) :=
    snapshotComplete_again hstored hmatch hagain
  rw [handle, bind_of_ok (get_apply w), if_neg hacceptable.1, if_neg hacceptable.2, if_neg (by rw [haction]; decide),
    if_neg (by rw [haction]; decide), if_neg (by rw [haction]; decide), if_neg (by rw [haction]; decide),
    bind_of_ok hlock, if_pos haction, bind_of_ok hcomplete]
  rfl

/-! ## The protocol -/

/-- In every run a complete manifest is what its pages say, manifest requests change no file, row
or revision, transfers under a snapshot are the announced ones, receipts follow complete
transfers and are repeated, and peers do not touch each other's manifests and receipts. -/
theorem served_safe [StoreLayout] {start w : World} {log : List Event} (hstart : start.manifests = .empty)
    (h : Served start log w) :
    (∀ peer m, w.manifests.find? peer = some m → m.complete →
      ∃ since, Opened peer since ∧ since <:+ log ∧ Described peer since m ∧ Whole peer since m) ∧
    (∀ peer r refreshIndex, r.action = text "manifest" →
      (final (handle peer r refreshIndex w)).db = w.db ∧
        (final (handle peer r refreshIndex w)).volume.disk = w.volume.disk) ∧
    (∀ peer r refreshIndex m, w.manifests.find? peer = some m → ¬m.snapshot.isEmpty → r.action ∈ transferActions →
      Refused (handle peer r refreshIndex w) w ∨
        (m.complete ∧ r.manifest.text = m.id ∧ r.snapshot.toValue = m.snapshot.id ∧
          ∃ since, Opened peer since ∧ since <:+ log ∧ Whole peer since m ∧ ∃ e ∈ announcedEntries peer since,
            e.path.text = (r.entry.getD {}).path.text ∧ SameText e.json (r.entry.getD {}).json)) ∧
    (∀ peer r refreshIndex, (final (handle peer r refreshIndex w)).db.snapshots ≠ w.db.snapshots →
      r.action = text "snapshot.complete" ∧ ∃ m since, w.manifests.find? peer = some m ∧ m.complete ∧
        ¬m.snapshot.isEmpty ∧ Opened peer since ∧ since <:+ log ∧ Whole peer since m ∧
        ∀ e ∈ announcedEntries peer since, EntryCompleted peer since m e) ∧
    (∀ front peer r p back refreshIndex, log = front ++ ⟨peer, r, .ok (.receipt p)⟩ :: back →
      (∀ ev ∈ back, ev.peer = peer → ∀ q, ev.answer = .ok (.receipt q) → q = p) →
      (∀ m, w.manifests.find? peer = some m → Completes m r →
        m.applied.length = m.members.keys.length ∧ m.snapshot = p.snapshot) →
      (∃ faults, handle peer r refreshIndex w = .ok (.receipt p) (w.spent faults)) ∨
        ∃ e faults, lock w = .error e (w.spent faults)) ∧
    (∀ peer q r refreshIndex, q ≠ peer →
      (final (handle peer r refreshIndex w)).manifests.find? q = w.manifests.find? q ∧
        (final (handle peer r refreshIndex w)).db.snapshots.find? q = w.db.snapshots.find? q) := by
  have htracked := tracked_served hstart h
  refine ⟨?_, ?_, ?_, ?_, ?_, ?_⟩
  · intro peer m hstored hcomplete
    obtain ⟨since, hopened, hsuffix, hdescribed⟩ := htracked peer m hstored
    exact ⟨since, hopened, hsuffix, hdescribed, hdescribed.whole hcomplete⟩
  · intro peer r refreshIndex haction
    exact handle_manifest_quiet peer refreshIndex haction w
  · intro peer r refreshIndex m hstored hsnapshot haction
    rcases handle_pinned refreshIndex hstored hsnapshot haction with hrefused | ⟨hcomplete, hid, hnamed, hmember⟩
    · exact Or.inl hrefused
    obtain ⟨since, hopened, hsuffix, hdescribed⟩ := htracked peer m hstored
    obtain ⟨e, he, hpath, hdigest⟩ := hdescribed.member hsnapshot hmember
    exact Or.inr ⟨hcomplete, hid, hnamed, since, hopened, hsuffix, hdescribed.whole hcomplete, e, he, hpath,
      sameText_of_digest hdigest⟩
  · intro peer r refreshIndex hchanged
    rcases turn_receipt (handle_turn peer r refreshIndex w) with hsame | ⟨haction, m, hstored, hcompletes, hall, -, -⟩
    · exact absurd hsame hchanged
    obtain ⟨since, hopened, hsuffix, hdescribed⟩ := htracked peer m hstored
    exact ⟨haction, m, since, hstored, hcompletes.complete, hcompletes.snapshot, hopened, hsuffix,
      hdescribed.whole hcompletes.complete, fun e he => hdescribed.all_completed hcompletes.snapshot hall he⟩
  · intro front peer r p back refreshIndex hlog hback hagain
    obtain ⟨hstored, hmatch, haction, hacceptable⟩ := receipt_kept h hlog hback
    exact handle_again refreshIndex hstored hmatch haction hacceptable hagain
  · intro peer q r refreshIndex hq
    exact turn_others (handle_turn peer r refreshIndex w) hq

/-! ## Two runs on a new container -/

/-- One peer's requests, one after the other. -/
def serve [StoreLayout] (peer : Text) (w : World) : List Request → List Event × World
  | [] => ([], w)
  | r :: rs =>
    let result := handle peer r false w
    let rest := serve peer (final result) rs
    (⟨peer, r, answerOf result⟩ :: rest.1, rest.2)

theorem served_serve [StoreLayout] {start : World} (peer : Text) (rs : List Request) :
    ∀ {log : List Event} {w : World}, Served start log w →
      Served start (log ++ (serve peer w rs).1) (serve peer w rs).2 := by
  induction rs with
  | nil =>
    intro log w h
    rw [serve, List.append_nil]
    exact h
  | cons r rs ih =>
    intro log w h
    have hstep := ih (.request peer r false h)
    rw [List.append_assoc] at hstep
    exact hstep

def tabletSnapshot : Snapshot where
  schema := .other (text "1")
  id := .string (text "44444444-4444-4444-8444-444444444444")
  capturedAt := .string (text "1")
  baseSequence := .string (text "0")
  baseRevision := .string []

/-- A deletion that the tablet proposes. -/
def absence (path : String) : Entry :=
  { versioned
      { path := .string (text path), kind := .string deleted, size := .string (text "0"), hash := .string []
        clock := some [(newMirror.id, .string (text "1"))] } with
    sequence := .string (text "1"), baseRevision := .string [] }

def announce (entries : List Entry) (snapshot : SnapshotMember) : Request where
  action := text "manifest"
  manifest := .string (sha256 (entries.flatMap entryLine))
  snapshot := snapshot
  entries := some entries
  replica := .string newMirror.id
  offset := .string (text "0")
  total := .string (decimal entries.length)
  after := .string (text "0")
  through := .string (text "1")

def apply_ (e : Entry) (manifest : Value) (snapshot : SnapshotMember) : Request where
  action := text "apply"
  manifest := manifest
  snapshot := snapshot
  entry := some e

def completeSnapshot (manifest : Value) : Request where
  action := text "snapshot.complete"
  manifest := manifest
  snapshot := .named tabletSnapshot.id

def oldAnnounced : Request := announce [absence "files/old"] (.whole tabletSnapshot)

def announcesSnapshot : Except Text Response → Bool
  | .ok (.manifest a) => a.snapshot.isSome
  | _ => false

def isComplete : Except Text Response → Bool
  | .ok (.transfer .complete) => true
  | _ => false

def givesReceipt : Except Text Response → Bool
  | .ok (.receipt _) => true
  | _ => false

theorem announcesSnapshot_iff {x : Except Text Response} :
    announcesSnapshot x ↔ ∃ a, x = .ok (.manifest a) ∧ a.snapshot.isSome := by
  constructor
  · intro h
    unfold announcesSnapshot at h
    split at h
    · exact ⟨_, rfl, h⟩
    · cases h
  · rintro ⟨a, rfl, h⟩
    exact h

theorem isComplete_iff {x : Except Text Response} : isComplete x ↔ x = .ok (.transfer .complete) := by
  constructor
  · intro h
    unfold isComplete at h
    split at h
    · rfl
    · cases h
  · rintro rfl
    rfl

theorem givesReceipt_iff {x : Except Text Response} : givesReceipt x ↔ ∃ p, x = .ok (.receipt p) := by
  constructor
  · intro h
    unfold givesReceipt at h
    split at h
    · exact ⟨_, rfl⟩
    · cases h
  · rintro ⟨p, rfl⟩
    rfl

/-- The answer to the last of some requests of one peer to a new authority. -/
def answerAfter (rs : List Request) (r : Request) : Except Text Response :=
  answerOf (@handle plainLayout (text "tablet") r false (@serve plainLayout (text "tablet") newAuthority rs).2)

/-- The manifest that is announced next releases a peer from its snapshot. -/
def replacedRun : List Request := [oldAnnounced, announce [] (.named .undefined)]

def otherApplied : Request := apply_ (absence "files/other") .undefined (.named .undefined)

/-- Announcing a completed snapshot again takes its receipt away until it is applied again. -/
def completedRun : List Request :=
  [oldAnnounced, apply_ (absence "files/old") oldAnnounced.manifest (.named tabletSnapshot.id)]

def oldCompleted : Request := completeSnapshot oldAnnounced.manifest

theorem replacedRun_answers : announcesSnapshot (answerAfter [] oldAnnounced) ∧
    isComplete (answerAfter replacedRun otherApplied) := by
  decide +kernel

theorem completedRun_answers : givesReceipt (answerAfter completedRun oldCompleted) ∧
    announcesSnapshot (answerAfter (completedRun ++ [oldCompleted]) oldAnnounced) ∧
    ¬givesReceipt (answerAfter (completedRun ++ [oldCompleted] ++ [oldAnnounced]) oldCompleted) := by
  decide +kernel

theorem digest_of_sameText {a b : Text} (h : SameText a b) : digest (utf8 a) = digest (utf8 b) := by
  rcases h with rfl | ⟨-, h⟩
  · rfl
  · exact h

theorem entry_of_announced {peer : Text} {log : List Event} {e : Entry} (h : e ∈ announcedEntries peer log) :
    ∃ ev ∈ log, e ∈ ev.request.entries.getD [] := by
  obtain ⟨r, hr, he⟩ := List.mem_flatMap.mp h
  obtain ⟨ev, hev, hpage⟩ := List.mem_filterMap.mp hr
  refine ⟨ev, hev, ?_⟩
  rw [acceptedPage] at hpage
  split at hpage
  · split at hpage
    · cases hpage
      exact he
    · cases hpage
  · cases hpage

theorem serve_requests [StoreLayout] (peer : Text) (rs : List Request) (w : World) :
    (serve peer w rs).1.map Event.request = rs := by
  induction rs generalizing w with
  | nil => rfl
  | cons r rs ih => exact congrArg (r :: ·) (ih _)

theorem serve_concat [StoreLayout] (peer : Text) (w : World) (rs : List Request) (r : Request) :
    (serve peer w (rs ++ [r])).1 =
      (serve peer w rs).1 ++ [⟨peer, r, answerOf (handle peer r false (serve peer w rs).2)⟩] := by
  induction rs generalizing w with
  | nil => rfl
  | cons q rs ih => exact congrArg (_ :: ·) (ih _)

/-- Neither a pin nor a receipt outlives every later announcement of its peer. -/
theorem pin_and_receipt_end :
    (¬∀ log w, @Served plainLayout newAuthority log w → ∀ front peer first a back r refreshIndex,
      log = front ++ ⟨peer, first, .ok (.manifest a)⟩ :: back → a.snapshot.isSome →
      isComplete (answerOf (@handle plainLayout peer r refreshIndex w)) →
      ∃ e ∈ announcedEntries peer log, SameText e.json (r.entry.getD {}).json) ∧
    (¬∀ log w, @Served plainLayout newAuthority log w → ∀ front peer r p back refreshIndex,
      log = front ++ ⟨peer, r, .ok (.receipt p)⟩ :: back →
      (∀ ev ∈ back, ev.peer = peer → ¬givesReceipt ev.answer) →
      givesReceipt (answerOf (@handle plainLayout peer r refreshIndex w))) := by
  constructor
  · intro h
    have hserved := @served_serve plainLayout newAuthority (text "tablet") replacedRun [] newAuthority
      (@Served.start plainLayout newAuthority)
    obtain ⟨a, ha, hsnapshot⟩ := announcesSnapshot_iff.mp replacedRun_answers.1
    obtain ⟨e, he, hsame⟩ := h _ _ hserved [] (text "tablet") oldAnnounced a _ otherApplied false
      (by rw [← ha]; rfl) hsnapshot replacedRun_answers.2
    obtain ⟨ev, hev, he⟩ := entry_of_announced he
    have hrequest : ev.request ∈ replacedRun := by
      rw [← @serve_requests plainLayout (text "tablet") replacedRun newAuthority]
      exact List.mem_map_of_mem hev
    have hold : e = absence "files/old" := by
      rcases List.mem_cons.mp hrequest with hrequest | hrequest
      · rw [hrequest] at he
        exact List.mem_singleton.mp he
      · rw [List.mem_singleton.mp hrequest] at he
        cases he
    have hdigest := digest_of_sameText hsame
    rw [hold] at hdigest
    exact absurd hdigest (by decide +kernel)
  · intro h
    have hserved := @served_serve plainLayout newAuthority (text "tablet")
      (completedRun ++ [oldCompleted] ++ [oldAnnounced]) [] newAuthority (@Served.start plainLayout newAuthority)
    obtain ⟨p, hp⟩ := givesReceipt_iff.mp completedRun_answers.1
    obtain ⟨a, ha, -⟩ := announcesSnapshot_iff.mp completedRun_answers.2.1
    refine completedRun_answers.2.2 (h _ _ hserved (@serve plainLayout (text "tablet") newAuthority completedRun).1
      (text "tablet") oldCompleted p [⟨text "tablet", oldAnnounced, .ok (.manifest a)⟩] false ?_ ?_)
    · have hlog := @serve_concat plainLayout (text "tablet") newAuthority (completedRun ++ [oldCompleted]) oldAnnounced
      rw [@serve_concat plainLayout (text "tablet") newAuthority completedRun oldCompleted] at hlog
      rw [List.nil_append, hlog, ← hp, ← ha, List.append_assoc]
      rfl
    · intro ev hev _
      rw [List.mem_singleton.mp hev]
      exact Bool.false_ne_true

/-- After the first page of the small snapshot its manifest is whole. -/
theorem served_safe_announced : ∃ m, (@serve plainLayout (text "tablet") newAuthority [oldAnnounced]).2.manifests.find?
    (text "tablet") = some m ∧ ∃ since, Opened (text "tablet") since ∧
      since <:+ (@serve plainLayout (text "tablet") newAuthority [oldAnnounced]).1 ∧
      Described (text "tablet") since m ∧ Whole (text "tablet") since m := by
  have hstored : ((@serve plainLayout (text "tablet") newAuthority [oldAnnounced]).2.manifests.find?
      (text "tablet")).any Manifest.complete = true := by decide +kernel
  obtain ⟨m, hm, hcomplete⟩ := (Option.any_eq_true _ _).mp hstored
  have hserved := @served_serve plainLayout newAuthority (text "tablet") [oldAnnounced] [] newAuthority
    (@Served.start plainLayout newAuthority)
  exact ⟨m, hm, (@served_safe plainLayout newAuthority _ _ rfl hserved).1 (text "tablet") m hm hcomplete⟩

end Replica

end SocietyHelper.Sync
