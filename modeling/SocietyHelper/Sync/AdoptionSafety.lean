import SocietyHelper.Sync.Adoption

/-! # An interrupted adoption loses nothing

Whatever fails and whenever the container is opened again, every planned entry
is where it was or where the plan sends it, and nothing else is moved.
-/

namespace SocietyHelper.Sync

open Library Effect Disk Moves

/-! ## Steps that move nothing -/

namespace ConfinedFiles

variable {own : Path → Prop}

/-- No name moves apart from the program's own, and names are drawn in order. -/
def still (own : Path → Prop) : Frame Volume where
  rel s t := Stays own s.disk t.disk ∧ s.uuids ≤ t.uuids
  refl _ := ⟨Stays.refl _ _, Nat.le_refl _⟩
  trans h k := ⟨h.1.trans k.1, Nat.le_trans h.2 k.2⟩

theorem still_change {s : Volume} {f : Disk → Disk} (h : Stays own s.disk (f s.disk)) :
    (still own).rel s (final (change f s)) := ⟨h, Nat.le_refl _⟩

theorem still_attempt (error : Text) : Keeps (still own) (attempt error) := by
  intro s
  rw [attempt]
  split <;> exact (still own).refl s

theorem still_look {α : Type} (error : Text) (f : Disk → Except Text α) : Keeps (still own) (look error f) := by
  apply Keeps.bind (still_attempt error)
  intro _
  apply Keeps.bind Keeps.get
  intro s
  split
  · exact Keeps.pure _
  · exact Keeps.throw _

theorem still_draw : Keeps (still own) draw := fun s => ⟨Stays.refl _ _, Nat.le_succ s.uuids⟩

theorem still_mkdirFrom (base path : Path) : Keeps (still own) (mkdirFrom base path) := by
  induction path generalizing base with
  | nil => exact Keeps.pure _
  | cons part parts ih =>
    apply Keeps.bind (still_attempt _)
    intro _
    apply Keeps.read
    intro s
    cases hnode : s.disk.node (base ++ [part]) with
    | none =>
      apply Keeps.rel_bind (still_change (stays_makeDirectory hnode))
      intro _ t _
      exact Keeps.bind (still_attempt _) (fun _ => ih (base ++ [part])) t
    | some n =>
      cases n with
      | directory i => exact ih (base ++ [part]) s
      | file i => exact (still own).refl s
      | special => exact (still own).refl s

theorem still_mkdir (path : Path) : Keeps (still own) (mkdir path) := still_mkdirFrom [] path

theorem attempt_eq_ok {error : Text} {s t : Volume} {u : Unit} (h : attempt error s = .ok u t) :
    t.disk = s.disk ∧ t.uuids = s.uuids := by
  rw [attempt] at h
  split at h
  · cases h
  · cases h
    exact ⟨rfl, rfl⟩

theorem still_preserve (path copy : Path) : Keeps (still own) (preserve path copy) := by
  apply Keeps.bind (still_mkdir _)
  intro _
  apply Keeps.bind (still_attempt _)
  intro _
  apply Keeps.read
  intro s
  by_cases hwalk : s.disk.walk path.dropLast ≠ .directory
  · rw [if_pos hwalk]
    exact (still own).refl s
  · rw [if_neg hwalk]
    cases hnode : s.disk.node path with
    | none => exact (still own).refl s
    | some n =>
      cases n with
      | directory i => exact (still own).refl s
      | special => exact (still own).refl s
      | file i =>
        apply Keeps.rel_bind (still_attempt _ s)
        intro _ t ht
        obtain ⟨hdisk, -⟩ := attempt_eq_ok ht
        by_cases hcopy : (s.disk.node copy).isSome
        · rw [if_pos hcopy]
          exact (still own).refl t
        · rw [if_neg hcopy]
          have hfree : t.disk.node copy = none := by
            rw [hdisk]
            simpa using hcopy
          apply Keeps.rel_bind (still_change (stays_link (hdisk ▸ hnode) hfree))
          intro _ u _
          exact still_attempt _ u

theorem still_saveFile (hown : own Replica.bindingFile) (bytes : Bytes) : Keeps (still own) (saveFile Replica.bindingFile bytes) := by
  apply Keeps.bind (still_attempt _)
  intro _
  apply Keeps.read
  intro s
  apply Keeps.ite (fun _ => Keeps.throw _) (fun _ => ?_) s
  have hplace : Keeps (still own) (change fun d => d.place Replica.bindingFile bytes) := fun s =>
    still_change (stays_place bytes (Or.inr hown))
  split
  · exact Keeps.throw _
  · exact Keeps.throw _
  · exact hplace

theorem still_adoptIdentity [drive : DriveLayer] (hdrive : LawfulDrive drive) (hown : own driveManifest)
    (source target : Text) : Keeps (still own) (adoptIdentity source target) := by
  intro s
  have hothers := hdrive.others (s.faults.headD none) s.disk source target
  have hstays : Stays own s.disk (drive.adopt (s.faults.headD none) s.disk source target).1 :=
    fun k n hk hn => hothers k n (fun hmanifest => hk (hmanifest ▸ hown)) hn
  rw [adoptIdentity]
  split
  · exact ⟨hstays, Nat.le_refl _⟩
  · exact ⟨hstays, Nat.le_refl _⟩

theorem adoptIdentity_ok [drive : DriveLayer] (hdrive : LawfulDrive drive) {source target : Text} {s t : Volume} {u : Unit}
    (h : adoptIdentity source target s = .ok u t) :
    (t.disk.node driveManifest).isSome ∧ drive.identifier t.disk = target := by
  rw [adoptIdentity] at h
  split at h
  · rename_i hadopted
    cases h
    exact hdrive.adopted _ _ _ _ hadopted
  · cases h

/-! ## Moving the planned entries -/

variable {rows : List (Path × Path)}

/-- Planned entries may move to their targets. -/
def carrying (h : Apart rows own) : Frame Volume where
  rel s t := Carried rows own s.disk t.disk ∧ s.uuids ≤ t.uuids
  refl s := ⟨Carried.refl h s.disk, Nat.le_refl _⟩
  trans hst htu := ⟨hst.1.trans h htu.1, Nat.le_trans hst.2 htu.2⟩

theorem carrying_of_still (h : Apart rows own) {α : Type} {m : Effect Volume α} (hm : Keeps (still own) m) :
    Keeps (carrying h) m := fun s => ⟨Carried.of_stays h (hm s).1, (hm s).2⟩

/-- Planned entries that were where a plan may leave them are at their targets. -/
def Delivered (rows : List (Path × Path)) (d e : Disk) : Prop :=
  ∀ r ∈ rows, ∀ origin : Disk, (origin.node r.1).isSome → Held origin d r.1 r.2 → Rests origin e r.1 r.2

/-- What a run over some planned entries comes to when it ends well. -/
structure Sent (h : Apart rows own) (sent : List (Path × Path)) (s : Volume) (_ : Unit) (t : Volume) : Prop where
  carried : (carrying h).rel s t
  delivered : Delivered sent s.disk t.disk

theorem Sent.after (h : Apart rows own) {sent : List (Path × Path)} (hsent : ∀ r ∈ sent, r ∈ rows)
    {s t u : Volume} {a : Unit} (hst : (carrying h).rel s t) (htu : Sent h sent t a u) : Sent h sent s a u where
  carried := (carrying h).trans hst htu.carried
  delivered r hr origin horigin hheld :=
    htu.delivered r hr origin horigin (hst.1.held h (hsent r hr) horigin hheld)

/-- The call that moves an entry, and the flush that its answer waits for. -/
def move (error : Text) (f : Disk → Disk) : Effect Volume Unit := do
  attempt error
  change f
  attempt (text "flush_failed")

theorem move_concludes (h : Apart rows own) {p q : Path} {s : Volume} {f : Disk → Disk} (error : Text)
    (hcarried : Carried rows own s.disk (f s.disk)) (hrests : Rests s.disk (f s.disk) p q)
    (hfree : s.disk.node q = none) :
    (∃ e u, move error f s = .error e u ∧ (carrying h).rel s u) ∨
      ∃ a u, move error f s = .ok a u ∧ Sent h [(p, q)] s a u := by
  cases hcall : attempt error s with
  | error e t =>
    left
    have hstill := carrying_of_still h (still_attempt error) s
    rw [hcall] at hstill
    exact ⟨e, t, bind_of_error hcall, hstill⟩
  | ok u t =>
    obtain ⟨hdisk, huuids⟩ := attempt_eq_ok hcall
    have hmoved : (carrying h).rel s { t with disk := f t.disk } := by
      rw [hdisk]
      exact ⟨hcarried, Nat.le_of_eq huuids.symm⟩
    rw [move, bind_of_ok hcall]
    change (∃ e u, attempt _ { t with disk := f t.disk } = .error e u ∧ _) ∨ ∃ a u, attempt _ _ = .ok a u ∧ _
    cases hflush : attempt (text "flush_failed") { t with disk := f t.disk } with
    | error e v =>
      left
      have hstill := carrying_of_still h (still_attempt (text "flush_failed")) { t with disk := f t.disk }
      rw [hflush] at hstill
      exact ⟨e, v, rfl, (carrying h).trans hmoved hstill⟩
    | ok a v =>
      right
      obtain ⟨hdisk', huuids'⟩ := attempt_eq_ok hflush
      refine ⟨a, v, rfl, ?_, ?_⟩
      · refine ⟨?_, Nat.le_trans hmoved.2 (Nat.le_of_eq huuids'.symm)⟩
        rw [hdisk']
        exact hmoved.1
      · intro r hsingle origin horigin hheld
        obtain rfl := List.mem_singleton.mp hsingle
        rw [hdisk', hdisk]
        cases hheld with
        | inl hstill => exact hstill.trans hrests horigin
        | inr hthere =>
          obtain ⟨n, hn⟩ := Option.isSome_iff_exists.mp horigin
          have hoccupied := hthere.node hn
          simp [hfree] at hoccupied

theorem detach_concludes (h : Apart rows own) {p q : Path} (hr : (p, q) ∈ rows) :
    Concludes (carrying h) (Sent h [(p, q)]) (detach p q) := by
  have hmem : ∀ r ∈ [(p, q)], r ∈ rows := by
    intro r hsingle
    rwa [List.mem_singleton.mp hsingle]
  refine Concludes.bind (carrying_of_still h (still_mkdir _)) (fun _ => ?_) (Sent.after h hmem)
  refine Concludes.bind (carrying_of_still h (still_attempt _)) (fun _ => ?_) (Sent.after h hmem)
  refine Concludes.read fun s => ?_
  by_cases hwalk : s.disk.walk p.dropLast ≠ .directory
  · rw [if_pos hwalk]
    exact Or.inl ⟨_, s, rfl, (carrying h).refl s⟩
  · rw [if_neg hwalk]
    cases hp : s.disk.node p with
    | none =>
      cases hq : s.disk.node q with
      | none => exact Or.inl ⟨_, s, rfl, (carrying h).refl s⟩
      | some m =>
        -- Moved by an earlier run.
        right
        refine ⟨(), s, rfl, (carrying h).refl s, ?_⟩
        intro r hsingle origin horigin hheld
        obtain rfl := List.mem_singleton.mp hsingle
        obtain ⟨n, hn⟩ := Option.isSome_iff_exists.mp horigin
        cases hheld with
        | inl hstill =>
          have hsource := hstill.node hn
          simp [hp] at hsource
        | inr hthere => exact hthere
    | some n =>
      cases hq : s.disk.node q with
      | some m => exact Or.inl ⟨_, s, rfl, (carrying h).refl s⟩
      | none =>
        cases n with
        | file i =>
          obtain ⟨hcarried, hrests⟩ := carried_renameFile h hr hp hq
          exact move_concludes h _ hcarried hrests hq
        | directory i =>
          obtain ⟨hcarried, hrests⟩ := carried_renameDirectory h hr hq
          exact move_concludes h _ hcarried hrests hq
        | special =>
          obtain ⟨hcarried, hrests⟩ := carried_renameDirectory h hr hq
          exact move_concludes h _ hcarried hrests hq

theorem detachPlanned_concludes (h : Apart rows own) {p q : Path} (hr : (p, q) ∈ rows) :
    Concludes (carrying h) (Sent h [(p, q)]) (detachPlanned p q) :=
  Concludes.ite (fun _ => detach_concludes h hr) fun _ => Concludes.throw _

theorem Sent.append (h : Apart rows own) {front back : List (Path × Path)} (hfront : ∀ r ∈ front, r ∈ rows)
    (hback : ∀ r ∈ back, r ∈ rows) {s t u : Volume} {a b : Unit} (hst : Sent h front s a t) (htu : Sent h back t b u) :
    Sent h (front ++ back) s b u where
  carried := (carrying h).trans hst.carried htu.carried
  delivered r hr origin horigin hheld := by
    cases List.mem_append.mp hr with
    | inl hr =>
      exact htu.carried.1.delivered (h.target r (hfront r hr)) horigin (hst.delivered r hr origin horigin hheld)
    | inr hr => exact htu.delivered r hr origin horigin (hst.carried.1.held h (hback r hr) horigin hheld)


end ConfinedFiles

/-! ## Carrying out a plan -/

namespace Database

/-- The rows of all tables. -/
def tables (db : Database) : Database := { db with faults := [] }

theorem bind_statement {α : Type} {f : Database → Database} {m : Unit → Effect Database α} {s t : Database} {a : α}
    (h : (statement (fun db => some (f db)) >>= m) s = .ok a t) :
    ∃ u faults, u = { f s with faults } ∧ m () u = .ok a t := by
  obtain ⟨_, u, hu, hm⟩ := bind_eq_ok.mp h
  obtain ⟨-, w, hw, hfaults⟩ := statement_eq_ok.mp hu
  cases hw
  exact ⟨u, _, hfaults, hm⟩

theorem statement_some {f : Database → Database} {s t : Database} {u : Unit}
    (h : statement (fun db => some (f db)) s = .ok u t) : ∃ faults, t = { f s with faults } := by
  obtain ⟨-, w, hw, hfaults⟩ := statement_eq_ok.mp h
  cases hw
  exact ⟨_, hfaults⟩

/-- A transaction that fails leaves every row as it was. -/
theorem transaction_error {α : Type} {m : Effect Database α} {s t : Database} {e : Text}
    (h : transaction m s = .error e t) : t.tables = s.tables := by
  rw [transaction, Effect.rollback] at h
  split at h
  · cases h
  · cases h
    rfl

end Database

namespace Replica

open ConfinedFiles

/-- The rows after the second commit of an adoption. -/
structure Forgotten (container replica : Text) (db : Database) : Prop where
  entries : db.entries = .empty
  peers : db.peers = .empty
  detach : db.detach = .empty
  snapshots : db.snapshots = .empty
  revisions : db.revisions = .empty
  locations : db.locations = .empty
  container : db.meta_ containerKey = container
  replica : db.meta_ replicaKey = replica
  adoption : db.meta_ adoptionKey = pullingState

theorem forgetDrive_ok {container replica : Text} {s t : Database} {u : Unit}
    (h : forgetDrive container replica s = .ok u t) : Forgotten container replica t := by
  obtain ⟨s1, _, h1, h⟩ := Database.bind_statement h
  obtain ⟨s2, _, h2, h⟩ := Database.bind_statement h
  obtain ⟨s3, _, h3, h⟩ := Database.bind_statement h
  obtain ⟨s4, _, h4, h⟩ := Database.bind_statement h
  obtain ⟨_, s6, hclear, h⟩ := bind_eq_ok.mp h
  obtain ⟨s5, _, h5, hclear⟩ := Database.bind_statement hclear
  obtain ⟨_, h6⟩ := Database.statement_some hclear
  obtain ⟨s7, _, h7, h⟩ := Database.bind_statement h
  obtain ⟨s8, _, h8, h⟩ := Database.bind_statement h
  obtain ⟨s9, _, h9, h⟩ := Database.bind_statement h
  obtain ⟨s10, _, h10, h⟩ := Database.bind_statement h
  obtain ⟨_, h11⟩ := Database.statement_some h
  have hkeys : replicaKey ≠ adoptionKey ∧ containerKey ≠ adoptionKey ∧ containerKey ≠ replicaKey ∧
      containerKey ≠ text "counter" ∧ containerKey ≠ text "sequence" := by decide
  constructor
  · simp only [h1, h2, h3, h4, h5, h6, h7, h8, h9, h10, h11]
  · simp only [h1, h2, h3, h4, h5, h6, h7, h8, h9, h10, h11]
  · simp only [h1, h2, h3, h4, h5, h6, h7, h8, h9, h10, h11]
  · simp only [h1, h2, h3, h4, h5, h6, h7, h8, h9, h10, h11]
  · simp only [h1, h2, h3, h4, h5, h6, h7, h8, h9, h10, h11]
  · simp only [h1, h2, h3, h4, h5, h6, h7, h8, h9, h10, h11]
  · simp [Database.meta_, h7, h8, h9, h10, h11, Table.find?_insert, hkeys]
  · simp [Database.meta_, h10, h11, Table.find?_insert, hkeys]
  · simp [Database.meta_, h11]

/-! ### The rows of a plan -/

/-- The two files that an adoption rewrites in place. -/
def rewritten (k : Path) : Prop := k = bindingFile ∨ k = driveManifest

/-- The first of them only: once the identity is adopted the manifest is left alone. -/
def bound (k : Path) : Prop := k = bindingFile

/-- A top-level entry of a section, and its place in one recovery directory. -/
def Planned [layout : StoreLayout] (r : Path × Path) : Prop :=
  ∃ s ∈ layout.sections, ∃ name directory, r = ([s.name, name], detached ++ [directory, s.name, name])

section

variable [layout : StoreLayout] (hsections : ∀ s ∈ layout.sections, s.name ≠ control)

include hsections

theorem target_of_planned {rows : List (Path × Path)} (hrows : ∀ r ∈ rows, Planned r) {r : Path × Path} (hr : Planned r) :
    Target rows rewritten r.2 := by
  obtain ⟨s, -, name, directory, rfl⟩ := hr
  refine ⟨?_, ?_, ?_⟩
  · intro u hu k hstarts
    obtain ⟨t, ht, other, _, rfl⟩ := hrows u hu
    exact hsections t ht (List.cons_prefix_cons.mp hstarts).1
  · intro u hu k hstarts
    obtain ⟨t, _, other, folder, rfl⟩ := hrows u hu
    simp only [detached, List.cons_append, List.nil_append, List.cons_prefix_cons] at hstarts ⊢
    simp [hstarts]
  · intro k hk
    simp [rewritten, bindingFile, driveManifest, detached] at hk

theorem apart_of_planned {rows : List (Path × Path)} (hrows : ∀ r ∈ rows, Planned r)
    (hkeys : ∀ r ∈ rows, ∀ s ∈ rows, r.1 = s.1 → r = s) : Apart rows rewritten := by
  refine ⟨fun r hr => target_of_planned hsections hrows (hrows r hr), ?_, ?_, ?_⟩
  · intro r hr u hu k hstarts
    apply hkeys u hu r hr
    obtain ⟨s, _, name, directory, rfl⟩ := hrows r hr
    obtain ⟨t, _, other, folder, rfl⟩ := hrows u hu
    simp only [List.cons_append, List.nil_append, List.cons_prefix_cons] at hstarts ⊢
    simp [hstarts]
  · intro r hr u hu k hstarts
    obtain ⟨s, hs, name, directory, rfl⟩ := hrows r hr
    obtain ⟨t, _, other, folder, rfl⟩ := hrows u hu
    exact hsections s hs (List.cons_prefix_cons.mp hstarts).1.symm
  · intro r hr k hk
    obtain ⟨s, hs, name, directory, rfl⟩ := hrows r hr
    have hcontrol := hsections s hs
    simp [rewritten, bindingFile, driveManifest, hcontrol] at hk

omit hsections in
/-- The manifest of the drive is not below a planned entry. -/
theorem manifest_of_planned {rows : List (Path × Path)} (hrows : ∀ r ∈ rows, Planned r) {d e : Disk}
    (h : Carried rows bound d e) (hmanifest : (d.node driveManifest).isSome) :
    e.node driveManifest = d.node driveManifest ∧ e.content driveManifest = d.content driveManifest := by
  obtain ⟨n, hn⟩ := Option.isSome_iff_exists.mp hmanifest
  rw [hn]
  apply h.stays _ n (by simp [bound, bindingFile, driveManifest]) _ hn
  intro r hr _
  obtain ⟨s, _, name, directory, rfl⟩ := hrows r hr
  simp [driveManifest, detached]

end

/-! ### From one step to the next -/

section

variable {rows : List (Path × Path)} {own : Path → Prop}

/-- Only the tree changes, and only as the plan lets it. -/
def touching (h : Apart rows own) : Frame World where
  rel w v := v = { w with volume := v.volume } ∧ (carrying h).rel w.volume v.volume
  refl _ := ⟨rfl, (carrying h).refl _⟩
  trans hwu huv := ⟨huv.1.trans (by rw [hwu.1]), (carrying h).trans hwu.2 huv.2⟩

/-- The rows stay, and the tree changes only as the plan lets it. -/
def moving (h : Apart rows own) : Frame World where
  rel w v := v.db.tables = w.db.tables ∧ (carrying h).rel w.volume v.volume
  refl _ := ⟨rfl, (carrying h).refl _⟩
  trans hwu huv := ⟨huv.1.trans hwu.1, (carrying h).trans hwu.2 huv.2⟩

theorem moving_of_touching {h : Apart rows own} {w v : World} (hwv : (touching h).rel w v) : (moving h).rel w v :=
  ⟨by rw [hwv.1], hwv.2⟩

theorem touching_of_still (h : Apart rows own) {α : Type} {m : Effect Volume α} (hm : Keeps (still own) m) :
    Keeps (touching h) (onVolume m) :=
  Keeps.zoom fun w => ⟨rfl, carrying_of_still h hm w.volume⟩

theorem touching_look (h : Apart rows own) {α : Type} (error : Text) (f : Disk → Except Text α) :
    Keeps (touching h) (onVolume (look error f)) := touching_of_still h (still_look error f)

theorem touching_writeBinding (h : Apart rows own) (hown : own bindingFile) : Keeps (touching h) writeBinding := by
  apply Keeps.bind Keeps.get
  intro w
  apply Keeps.ite (fun _ => Keeps.pure _)
  intro _
  have hcurrent : Keeps (touching h) (bindingCurrent (utf8 (binding w.db))) := by
    apply Keeps.bind (touching_look h _ _)
    intro st
    apply Keeps.ite _ fun _ => Keeps.pure _
    intro _
    exact Keeps.bind (touching_look h _ _) fun _ => Keeps.pure _
  apply Keeps.bind hcurrent
  intro current
  exact Keeps.ite (fun _ => Keeps.pure _) fun _ => touching_of_still h (still_saveFile hown _)

/-- All entries of a part of the plan are sent. -/
theorem send_concludes (h : Apart rows own) (sent : List (Path × Path)) (hsent : ∀ r ∈ sent, r ∈ rows) :
    Concludes (moving h) (fun w a v => v = { w with volume := v.volume } ∧ Sent h sent w.volume a v.volume)
      (sent.forM fun row => onVolume (detachPlanned row.1 row.2)) := by
  induction sent with
  | nil => exact Concludes.pure fun w => ⟨rfl, (carrying h).refl _, fun r hr => absurd hr List.not_mem_nil⟩
  | cons r rest ih =>
    have hrest := fun s hs => hsent s (List.mem_cons_of_mem r hs)
    have hr := hsent r List.mem_cons_self
    have hfirst : Concludes (moving h) (fun w a v => v = { w with volume := v.volume } ∧ Sent h [r] w.volume a v.volume)
        (onVolume (detachPlanned r.1 r.2)) := by
      intro w
      cases detachPlanned_concludes h hr w.volume with
      | inl herror =>
        obtain ⟨e, v, heq, hrel⟩ := herror
        exact Or.inl ⟨e, _, zoom_of_error heq, rfl, hrel⟩
      | inr hok =>
        obtain ⟨a, v, heq, hdone⟩ := hok
        exact Or.inr ⟨a, _, zoom_of_ok heq, rfl, hdone⟩
    refine Concludes.chain hfirst (fun w a v hv => ⟨by rw [hv.1], hv.2.carried⟩) (fun _ => ih hrest) ?_
    intro w u v a b hwu huv
    refine ⟨huv.1.trans (by rw [hwu.1]), ?_⟩
    exact Sent.append h (fun s hs => List.mem_singleton.mp hs ▸ hr) hrest hwu.2 huv.2

theorem moving_mono {h : Apart rows rewritten} {hbound : Apart rows bound} {w v : World} (hwv : (moving hbound).rel w v) :
    (moving h).rel w v := ⟨hwv.1, hwv.2.1.mono fun _ hk => Or.inl hk, hwv.2.2⟩

end

/-- A volume after one name was drawn. -/
def drawn (s : Volume) : Volume := { s with uuids := s.uuids + 1 }

/-- What an adoption that is interrupted has done. -/
structure Interrupted (w v : World) : Prop where
  tables : v.db.tables = w.db.tables
  carried : Carried w.db.detach.rows rewritten w.volume.disk v.volume.disk
  uuids : w.volume.uuids ≤ v.volume.uuids

theorem interrupted_of_moving {w v : World} (h : Apart w.db.detach.rows rewritten) (hwv : (moving h).rel w v) :
    Interrupted w v := ⟨hwv.1, hwv.2.1, hwv.2.2⟩

theorem Interrupted.after {w u v : World} (h : Apart w.db.detach.rows rewritten) (hwu : (touching h).rel w u)
    (huv : Interrupted u v) : Interrupted w v := by
  have hdb : u.db = w.db := by rw [hwu.1]
  obtain ⟨htables, hcarried, huuids⟩ := huv
  rw [hdb] at htables hcarried
  exact ⟨htables, hwu.2.1.trans h hcarried, Nat.le_trans hwu.2.2 huuids⟩

/-- What the rows, the tree and the session are once a plan is carried out. -/
structure CarriedOut [drive : DriveLayer] (w v : World) : Prop where
  carried : Carried w.db.detach.rows rewritten w.volume.disk v.volume.disk
  delivered : Delivered w.db.detach.rows w.volume.disk v.volume.disk
  manifest : (v.volume.disk.node driveManifest).isSome
  identity : drive.identifier v.volume.disk = w.db.meta_ targetKey
  container : v.container = w.db.meta_ targetKey
  forgotten : ∃ n, w.volume.uuids ≤ n ∧ n < v.volume.uuids ∧ v.id = decimal n ∧
    Forgotten (w.db.meta_ targetKey) (decimal n) v.db

/-- The steps before a plan is carried out. -/
theorem CarriedOut.after [DriveLayer] {w u v : World} (h : Apart w.db.detach.rows rewritten) (hwu : (touching h).rel w u)
    (huv : CarriedOut u v) : CarriedOut w v := by
  have hdb : u.db = w.db := by rw [hwu.1]
  obtain ⟨hcarried, hdelivered, hmanifest, hidentity, hcontainer, n, hlow, hforgotten⟩ := huv
  rw [hdb] at hcarried hdelivered hidentity hcontainer hforgotten
  refine ⟨hwu.2.1.trans h hcarried, ?_, hmanifest, hidentity, hcontainer, n, Nat.le_trans hwu.2.2 hlow, hforgotten⟩
  intro r hr origin horigin hheld
  exact hdelivered r hr origin horigin (hwu.2.1.held h hr horigin hheld)

section

variable [layout : StoreLayout] [drive : DriveLayer] (hdrive : LawfulDrive drive)

include hdrive

theorem carryOut_cases {w : World} (hplanned : ∀ r ∈ w.db.detach.rows, Planned r)
    (h : Apart w.db.detach.rows rewritten) :
    (∃ e v, carryOut w = .error e v ∧ Interrupted w v) ∨ ∃ v, carryOut w = .ok () v ∧ CarriedOut w v := by
  have hbound : Apart w.db.detach.rows bound := h.mono fun _ hk => Or.inl hk
  have hsame : ∀ r ∈ planOf w.db, r ∈ w.db.detach.rows := fun r hr => (List.perm_insertionSort _ _).mem_iff.mp hr
  have hall : ∀ r ∈ w.db.detach.rows, r ∈ planOf w.db := fun r hr => (List.perm_insertionSort _ _).mem_iff.mpr hr
  rw [carryOut, bind_of_ok (get_apply w)]
  have hadopt := touching_of_still h (still_adoptIdentity hdrive (Or.inr rfl) (w.db.meta_ containerKey)
    (w.db.meta_ targetKey)) w
  cases hadopted : onVolume (adoptIdentity (w.db.meta_ containerKey) (w.db.meta_ targetKey)) w with
  | error e v =>
    left
    rw [hadopted] at hadopt
    exact ⟨e, v, bind_of_error hadopted, interrupted_of_moving h (moving_of_touching hadopt)⟩
  | ok a u =>
    rw [hadopted] at hadopt
    rw [bind_of_ok hadopted]
    obtain ⟨volume, hvolume, rfl⟩ := zoom_eq_ok.mp hadopted
    obtain ⟨hmanifest, hidentity⟩ := adoptIdentity_ok hdrive hvolume
    rw [bind_of_ok (modify_apply _ _)]
    cases send_concludes hbound (planOf w.db) hsame
        { w with volume, container := drive.identifier volume.disk } with
    | inl herror =>
      left
      obtain ⟨e, v, heq, hrel⟩ := herror
      refine ⟨e, v, bind_of_error heq, interrupted_of_moving h ((moving h).trans (moving_of_touching hadopt) ?_)⟩
      exact ⟨hrel.1, (moving_mono hrel).2⟩
    | inr hok =>
      obtain ⟨_, v, heq, hv, hsent⟩ := hok
      have hdb : v.db = w.db := by rw [hv]
      have hcontainer : v.container = w.db.meta_ targetKey := by rw [hv, hidentity]
      have hcarried : Carried w.db.detach.rows rewritten w.volume.disk v.volume.disk :=
        hadopt.2.1.trans h (hsent.carried.1.mono fun _ hk => Or.inl hk)
      have huuids : w.volume.uuids ≤ v.volume.uuids := Nat.le_trans hadopt.2.2 hsent.carried.2
      have hdraw : onVolume draw v = .ok (decimal v.volume.uuids) { v with volume := drawn v.volume } := rfl
      rw [bind_of_ok heq, bind_of_ok hdraw, bind_of_ok (get_apply _)]
      cases hcommit : Database.transaction (forgetDrive v.container (decimal v.volume.uuids)) v.db with
      | error e db =>
        left
        refine ⟨_, _, bind_of_error (onDatabase_of_error (relabel_of_error hcommit)), ?_, hcarried, ?_⟩
        · rw [← hdb]
          exact Database.transaction_error hcommit
        · exact Nat.le_succ_of_le huuids
      | ok a db =>
        right
        have hcommitted : onDatabase (relabel (text "adoption_commit_failed")
            (Database.transaction (forgetDrive v.container (decimal v.volume.uuids))))
            { v with volume := drawn v.volume } = .ok a { v with volume := drawn v.volume, db } :=
          onDatabase_of_ok (relabel_of_ok hcommit)
        refine ⟨_, (bind_of_ok hcommitted).trans rfl, ?_⟩
        have hforgotten := forgetDrive_ok (rollback_eq_ok.mp hcommit)
        rw [hcontainer] at hforgotten
        obtain ⟨hnode, hcontent⟩ := manifest_of_planned hplanned hsent.carried.1 hmanifest
        refine ⟨hcarried, ?_, hnode ▸ hmanifest, (hdrive.reads _ _ hnode hcontent).trans hidentity, hcontainer,
          v.volume.uuids, huuids, Nat.lt_succ_self _, hforgotten.replica, hforgotten⟩
        intro r hr origin horigin hheld
        exact hsent.delivered r (hall r hr) origin horigin (hadopt.2.1.held h hr horigin hheld)

/-- The steps after a plan is carried out. -/
theorem CarriedOut.later {w v x : World} (hplanned : ∀ r ∈ w.db.detach.rows, Planned r)
    (h : Apart w.db.detach.rows bound) (hwide : Apart w.db.detach.rows rewritten) (hwv : CarriedOut w v)
    (hvx : (touching h).rel v x) : CarriedOut w x := by
  have hdb : x.db = v.db := by rw [hvx.1]
  have hid : x.id = v.id := by rw [hvx.1]
  have hcontainer : x.container = v.container := by rw [hvx.1]
  have hcarried : Carried w.db.detach.rows rewritten v.volume.disk x.volume.disk := hvx.2.1.mono fun _ hk => Or.inl hk
  obtain ⟨hnode, hcontent⟩ := manifest_of_planned hplanned hvx.2.1 hwv.manifest
  obtain ⟨n, hlow, hhigh, hn, hforgotten⟩ := hwv.forgotten
  refine ⟨hwv.carried.trans hwide hcarried, ?_, hnode ▸ hwv.manifest, (hdrive.reads _ _ hnode hcontent).trans hwv.identity,
    hcontainer.trans hwv.container, n, hlow, Nat.lt_of_lt_of_le hhigh hvx.2.2, hid.trans hn, hdb ▸ hforgotten⟩
  intro r hr origin horigin hheld
  exact hcarried.delivered (hwide.target r hr) horigin (hwv.delivered r hr origin horigin hheld)

/-- A resumed adoption stops before its second commit, or it is carried out. -/
theorem resumeAdoption_cases {w : World} (hdetaching : detaching w.db) (hplanned : ∀ r ∈ w.db.detach.rows, Planned r)
    (h : Apart w.db.detach.rows rewritten) :
    (∃ e v, resumeAdoption w = .error e v ∧ Interrupted w v) ∨
      ∃ v, (resumeAdoption w = .ok () v ∨ ∃ e, resumeAdoption w = .error e v) ∧ CarriedOut w v := by
  rw [resumeAdoption, bind_of_ok (get_apply w), if_neg (not_not.mpr hdetaching)]
  have hwrite := touching_writeBinding h (Or.inl rfl) w
  cases hwritten : writeBinding w with
  | error e v =>
    left
    rw [hwritten] at hwrite
    exact ⟨e, v, bind_of_error hwritten, interrupted_of_moving h (moving_of_touching hwrite)⟩
  | ok a u =>
    rw [hwritten] at hwrite
    have hdb : u.db = w.db := by
      have hu : u = { w with volume := u.volume } := hwrite.1
      rw [hu]
    rw [bind_of_ok hwritten]
    cases carryOut_cases hdrive (w := u) (hdb ▸ hplanned) (hdb ▸ h) with
    | inl herror =>
      left
      obtain ⟨e, v, heq, hrel⟩ := herror
      exact ⟨e, v, bind_of_error heq, hrel.after h hwrite⟩
    | inr hok =>
      obtain ⟨v, heq, hdone⟩ := hok
      right
      have hbound : Apart w.db.detach.rows bound := h.mono fun _ hk => Or.inl hk
      have hlast := touching_writeBinding hbound rfl v
      have hwv := hdone.after h hwrite
      rw [bind_of_ok heq]
      cases hfinal : writeBinding v with
      | error e x =>
        rw [hfinal] at hlast
        exact ⟨x, Or.inr ⟨e, rfl⟩, hwv.later hdrive hplanned hbound h hlast⟩
      | ok a x =>
        rw [hfinal] at hlast
        exact ⟨x, Or.inl rfl, hwv.later hdrive hplanned hbound h hlast⟩

end

end Replica

end SocietyHelper.Sync
