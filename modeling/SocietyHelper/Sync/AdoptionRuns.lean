import SocietyHelper.Sync.AdoptionSafety

/-! # Runs of adoptions

Claims of hosts, resumptions, openings and files that a user creates follow each
other in any order, and any of them may be cut short. What every plan that was
ever committed promised holds after every step.
-/

namespace SocietyHelper.Sync

open Library Effect Disk Moves

/-- A committed plan and the tree at its commit. -/
structure Plan where
  origin : Disk
  rows : List (Path × Path)

namespace Replica

open ConfinedFiles

/-- Every planned entry is at its target. -/
def Arrived (plans : List Plan) (d : Disk) : Prop := ∀ P ∈ plans, ∀ r ∈ P.rows, Rests P.origin d r.1 r.2

theorem not_rewritten {k : Path} (hcontrol : k.head? ≠ some control) (hmanifest : k ≠ driveManifest) : ¬rewritten k := by
  intro hk
  cases hk with
  | inl hbinding => simp [hbinding, bindingFile] at hcontrol
  | inr h => exact hmanifest h

section

variable [layout : StoreLayout]

/-- The plans so far, the latest first: none of their entries is lost, and all but the latest are carried out. -/
structure Kept (plans : List Plan) (w : World) : Prop where
  planned : ∀ P ∈ plans, ∀ r ∈ P.rows, Planned r ∧ (P.origin.node r.1).isSome
  held : ∀ P ∈ plans, ∀ r ∈ P.rows, Held P.origin w.volume.disk r.1 r.2
  current : detaching w.db → ∃ P rest, plans = P :: rest ∧ w.db.detach.rows = P.rows ∧ Arrived rest w.volume.disk
  settled : ¬detaching w.db → Arrived plans w.volume.disk

/-- Outside the program's own directory a name moves only with a planned entry whose target is free. -/
structure Unmoved (plans : List Plan) (d e : Disk) : Prop where
  stays : ∀ k n, k.head? ≠ some control → k ≠ driveManifest →
    (∀ P ∈ plans, ∀ r ∈ P.rows, r.1 <+: k → (d.node r.2).isSome) → d.node k = some n →
    e.node k = some n ∧ e.content k = d.content k
  occupied : ∀ r, Planned r → (d.node r.2).isSome → (e.node r.2).isSome

theorem Unmoved.refl (plans : List Plan) (d : Disk) : Unmoved plans d d where
  stays _ _ _ _ _ h := ⟨h, rfl⟩
  occupied _ _ h := h

theorem Unmoved.trans {plans : List Plan} {d e f : Disk} (hplanned : ∀ P ∈ plans, ∀ r ∈ P.rows, Planned r)
    (hde : Unmoved plans d e) (hef : Unmoved plans e f) : Unmoved plans d f where
  stays k n hcontrol hmanifest hfree hn := by
    have he := hde.stays k n hcontrol hmanifest hfree hn
    have hlater : ∀ P ∈ plans, ∀ r ∈ P.rows, r.1 <+: k → (e.node r.2).isSome :=
      fun P hP r hr hstarts => hde.occupied r (hplanned P hP r hr) (hfree P hP r hr hstarts)
    have hf := hef.stays k n hcontrol hmanifest hlater he.1
    exact ⟨hf.1, hf.2.trans he.2⟩
  occupied r hr h := hef.occupied r hr (hde.occupied r hr h)

/-- A later plan only adds entries that may move. -/
theorem Unmoved.cons {plans : List Plan} {d e : Disk} (h : Unmoved plans d e) (P : Plan) : Unmoved (P :: plans) d e where
  stays k n hcontrol hmanifest hfree :=
    h.stays k n hcontrol hmanifest fun Q hQ => hfree Q (List.mem_cons_of_mem P hQ)
  occupied := h.occupied

theorem unmoved_of_stays {plans : List Plan} {d e : Disk} (h : Stays rewritten d e) : Unmoved plans d e where
  stays k n hcontrol hmanifest _ hn := h k n (not_rewritten hcontrol hmanifest) hn
  occupied r hr hsome := by
    obtain ⟨n, hn⟩ := Option.isSome_iff_exists.mp hsome
    obtain ⟨s, _, name, directory, rfl⟩ := hr
    have hkept := (h _ n (by simp [rewritten, bindingFile, driveManifest, detached]) hn).1
    simp [hkept]

variable (hsections : ∀ s ∈ layout.sections, s.name ≠ control)

include hsections

/-- Both places of a planned entry are left alone by steps that move nothing. -/
theorem held_of_stays {origin d e : Disk} (h : Stays rewritten d e) {r : Path × Path} (hr : Planned r)
    (horigin : (origin.node r.1).isSome) :
    (Rests origin d r.1 r.1 → Rests origin e r.1 r.1) ∧ (Rests origin d r.1 r.2 → Rests origin e r.1 r.2) := by
  have hsource : Rests d e r.1 r.1 := by
    intro k n _ hn
    obtain ⟨s, hs, name, directory, rfl⟩ := hr
    have hcontrol := hsections s hs
    exact h _ n (by simp [rewritten, bindingFile, driveManifest, hcontrol]) hn
  have htarget : Rests d e r.2 r.2 := by
    intro k n _ hn
    obtain ⟨s, hs, name, directory, rfl⟩ := hr
    exact h _ n (by simp [rewritten, bindingFile, driveManifest, detached]) hn
  exact ⟨fun hrests => hrests.trans hsource horigin, fun hrests => hrests.trans htarget horigin⟩

theorem Kept.of_stays {plans : List Plan} {w v : World} (hkept : Kept plans w)
    (h : Stays rewritten w.volume.disk v.volume.disk) (hadoption : detaching v.db = detaching w.db)
    (hdetach : detaching w.db → v.db.detach.rows = w.db.detach.rows) : Kept plans v where
  planned := hkept.planned
  held P hP r hr := by
    obtain ⟨hr', horigin⟩ := hkept.planned P hP r hr
    obtain ⟨hsource, htarget⟩ := held_of_stays hsections h hr' horigin
    exact (hkept.held P hP r hr).imp hsource htarget
  current hdetaching := by
    rw [hadoption] at hdetaching
    obtain ⟨P, rest, rfl, hrows, harrived⟩ := hkept.current hdetaching
    refine ⟨P, rest, rfl, (hdetach hdetaching).trans hrows, ?_⟩
    intro Q hQ r hr
    obtain ⟨hr', horigin⟩ := hkept.planned Q (List.mem_cons_of_mem P hQ) r hr
    exact (held_of_stays hsections h hr' horigin).2 (harrived Q hQ r hr)
  settled hsettled := by
    rw [hadoption] at hsettled
    intro P hP r hr
    obtain ⟨hr', horigin⟩ := hkept.planned P hP r hr
    exact (held_of_stays hsections h hr' horigin).2 (hkept.settled hsettled P hP r hr)

omit hsections in
theorem Kept.planned_rows {plans : List Plan} {w : World} (hkept : Kept plans w) (hdetaching : detaching w.db) :
    ∀ r ∈ w.db.detach.rows, Planned r := by
  obtain ⟨P, rest, rfl, hrows, -⟩ := hkept.current hdetaching
  intro r hr
  rw [hrows] at hr
  exact (hkept.planned P List.mem_cons_self r hr).1

theorem Kept.apart {plans : List Plan} {w : World} (hkept : Kept plans w) (hdetaching : detaching w.db) :
    Apart w.db.detach.rows rewritten := by
  apply apart_of_planned hsections (hkept.planned_rows hdetaching)
  intro r hr s hs heq
  have hrfind := (Table.mem_rows_iff w.db.detach r.1 r.2).mp hr
  have hsfind := (Table.mem_rows_iff w.db.detach s.1 s.2).mp hs
  rw [heq, hsfind] at hrfind
  exact Prod.ext heq (Option.some.inj hrfind).symm

/-- What carrying out the current plan does to all plans. -/
theorem Kept.carried {P : Plan} {rest : List Plan} {w : World} {e : Disk} (hkept : Kept (P :: rest) w)
    (h : Apart P.rows rewritten) (hcarried : Carried P.rows rewritten w.volume.disk e)
    (harrived : Arrived rest w.volume.disk) :
    (∀ r ∈ P.rows, Held P.origin e r.1 r.2) ∧ Arrived rest e ∧ Unmoved (P :: rest) w.volume.disk e := by
  have hplanned : ∀ r ∈ P.rows, Planned r := fun r hr => (hkept.planned P List.mem_cons_self r hr).1
  refine ⟨?_, ?_, ?_, ?_⟩
  · intro r hr
    exact hcarried.held h hr (hkept.planned P List.mem_cons_self r hr).2 (hkept.held P List.mem_cons_self r hr)
  · intro Q hQ r hr
    obtain ⟨hr', horigin⟩ := hkept.planned Q (List.mem_cons_of_mem P hQ) r hr
    exact hcarried.delivered (target_of_planned hsections hplanned hr') horigin (harrived Q hQ r hr)
  · intro k n hcontrol hmanifest hfree hn
    apply hcarried.stays k n (not_rewritten hcontrol hmanifest) _ hn
    intro r hr hnone
    constructor
    · intro hstarts
      have hsome := hfree P List.mem_cons_self r hr hstarts
      simp [hnone] at hsome
    · intro hstarts
      obtain ⟨s, _, name, directory, rfl⟩ := hplanned r hr
      obtain ⟨tail, rfl⟩ := hstarts
      exact hcontrol rfl
  · intro r hr hsome
    exact hcarried.occupied (target_of_planned hsections hplanned hr) hsome

/-! ## Steps of a run -/

omit hsections in
/-- Every plan keeps what it promised, and nothing else is moved. -/
structure Onward (plans : List Plan) (w v : World) : Prop where
  kept : Kept plans v
  unmoved : Unmoved plans w.volume.disk v.volume.disk
  settled : ¬detaching w.db → ¬detaching v.db

omit hsections in
def onward (plans : List Plan) : Frame World where
  rel w v := Kept plans w → Onward plans w v
  refl w hkept := ⟨hkept, Unmoved.refl plans w.volume.disk, id⟩
  trans hwu huv hkept := by
    have hu := hwu hkept
    have hv := huv hu.kept
    exact ⟨hv.kept, hu.unmoved.trans (fun P hP r hr => (hkept.planned P hP r hr).1) hv.unmoved,
      fun h => hv.settled (hu.settled h)⟩

/-- A step that moves nothing and leaves the plan in the tables alone. -/
theorem onward_of_stays {plans : List Plan} {w v : World} (h : Stays rewritten w.volume.disk v.volume.disk)
    (hadoption : detaching v.db = detaching w.db) (hdetach : detaching w.db → v.db.detach.rows = w.db.detach.rows) :
    (onward plans).rel w v :=
  fun hkept => ⟨hkept.of_stays hsections h hadoption hdetach, unmoved_of_stays h, fun hsettled => by rwa [hadoption]⟩

/-- A step within the tables that leaves the plan alone. -/
theorem onward_of_plan {plans : List Plan} {w v : World} (hdisk : v.volume.disk = w.volume.disk)
    (hdetach : v.db.detach = w.db.detach) (hadoption : v.db.meta_ adoptionKey = w.db.meta_ adoptionKey) :
    (onward plans).rel w v := by
  apply onward_of_stays hsections
  · rw [hdisk]
    exact Stays.refl _ _
  · rw [detaching, detaching, hadoption]
  · intro _
    rw [hdetach]

theorem onward_of_touching {plans : List Plan} {h : Apart [] rewritten} {w v : World} (hwv : (touching h).rel w v) :
    (onward plans).rel w v := by
  have hdb : v.db = w.db := by rw [hwv.1]
  have hstays : Stays rewritten w.volume.disk v.volume.disk := fun k n hk hn =>
    hwv.2.1.stays k n hk (fun r hr => absurd hr List.not_mem_nil) hn
  exact onward_of_stays hsections hstays (by rw [hdb]) fun _ => by rw [hdb]

theorem onward_onVolume {plans : List Plan} {α : Type} {m : Effect Volume α} (hm : Keeps (still rewritten) m) :
    Keeps (onward plans) (onVolume m) := fun w =>
  onward_of_touching hsections (touching_of_still (Apart.nil rewritten) hm w)

theorem onward_writeBinding {plans : List Plan} : Keeps (onward plans) writeBinding := fun w =>
  onward_of_touching hsections (touching_writeBinding (Apart.nil rewritten) (Or.inl rfl) w)

variable [drive : DriveLayer] (hdrive : LawfulDrive drive)

include hdrive

/-- A resumed adoption keeps every promise; once it ends well nothing is left to move. -/
theorem resumeAdoption_concludes (plans : List Plan) :
    Concludes (onward plans) (fun w _ v => Kept plans w → Onward plans w v ∧ ¬detaching v.db) resumeAdoption := by
  refine Concludes.of_pre (F := onward plans) id fun w hkept => ?_
  by_cases hdetaching : detaching w.db
  · have h := hkept.apart hsections hdetaching
    have hplanned := hkept.planned_rows hdetaching
    obtain ⟨P, rest, rfl, hrows, harrived⟩ := hkept.current hdetaching
    have hP := hkept.planned P List.mem_cons_self
    cases resumeAdoption_cases hdrive hdetaching hplanned h with
    | inl herror =>
      left
      obtain ⟨e, v, heq, hwv⟩ := herror
      obtain ⟨hheld, hrest, hunmoved⟩ := hkept.carried hsections (hrows ▸ h) (hrows ▸ hwv.carried) harrived
      have hadoption : detaching v.db = detaching w.db := by
        change detaching v.db.tables = detaching w.db.tables
        rw [hwv.tables]
      have hdetach : v.db.detach = w.db.detach := by
        change v.db.tables.detach = w.db.tables.detach
        rw [hwv.tables]
      refine ⟨e, v, heq, ⟨hkept.planned, ?_, ?_, ?_⟩, hunmoved, fun h => absurd hdetaching h⟩
      · intro Q hQ r hr
        cases List.mem_cons.mp hQ with
        | inl hsame =>
          subst hsame
          exact hheld r hr
        | inr hQ => exact Or.inr (hrest Q hQ r hr)
      · intro _
        exact ⟨P, rest, rfl, by rw [hdetach, hrows], hrest⟩
      · intro hsettled
        exact absurd (hadoption ▸ hdetaching) hsettled
    | inr hok =>
      obtain ⟨v, heq, hwv⟩ := hok
      obtain ⟨-, hrest, hunmoved⟩ := hkept.carried hsections (hrows ▸ h) (hrows ▸ hwv.carried) harrived
      obtain ⟨n, -, -, -, hforgotten⟩ := hwv.forgotten
      have hsettled : ¬detaching v.db := by
        rw [detaching, hforgotten.adoption]
        decide
      have harrived' : Arrived (P :: rest) v.volume.disk := by
        intro Q hQ r hr
        cases List.mem_cons.mp hQ with
        | inl hsame =>
          subst hsame
          exact hwv.delivered r (hrows ▸ hr) Q.origin (hP r hr).2 (hkept.held Q List.mem_cons_self r hr)
        | inr hQ => exact hrest Q hQ r hr
      have hv : Kept (P :: rest) v :=
        ⟨hkept.planned, fun Q hQ r hr => Or.inr (harrived' Q hQ r hr), fun h => absurd h hsettled, fun _ => harrived'⟩
      cases heq with
      | inl heq => exact Or.inr ⟨(), v, heq, ⟨hv, hunmoved, fun _ => hsettled⟩, hsettled⟩
      | inr heq =>
        obtain ⟨e, heq⟩ := heq
        exact Or.inl ⟨e, v, heq, hv, hunmoved, fun _ => hsettled⟩
  · have hwrite := onward_writeBinding hsections w hkept
    rw [resumeAdoption, bind_of_ok (get_apply w), if_pos hdetaching]
    cases hwritten : writeBinding w with
    | error e v =>
      rw [hwritten] at hwrite
      exact Or.inl ⟨e, v, rfl, hwrite⟩
    | ok a v =>
      rw [hwritten] at hwrite
      exact Or.inr ⟨(), v, rfl, hwrite, hwrite.settled hdetaching⟩

end

/-! ## Planning -/

theorem look_eq_ok {α : Type} {error : Text} {f : Disk → Except Text α} {s t : Volume} {a : α}
    (h : look error f s = .ok a t) : t.disk = s.disk ∧ f s.disk = .ok a := by
  obtain ⟨_, u, hu, h⟩ := bind_eq_ok.mp h
  obtain ⟨hdisk, -⟩ := attempt_eq_ok hu
  rw [bind_of_ok (get_apply u)] at h
  cases hf : f u.disk with
  | ok b =>
    rw [hf] at h
    cases h
    exact ⟨hdisk, hdisk ▸ hf⟩
  | error e =>
    rw [hf] at h
    cases h

theorem list_eq_ok {path : Path} {s t : Volume} {names : List Text} (h : list path s = .ok names t) :
    t.disk = s.disk ∧ ∀ name ∈ names, (s.disk.node (path ++ [name])).isSome := by
  obtain ⟨hdisk, h⟩ := look_eq_ok h
  refine ⟨hdisk, fun name hname => ?_⟩
  split at h
  · cases h
    have hchild := (List.perm_insertionSort _ _).mem_iff.mp hname
    simp only [children, List.mem_filterMap] at hchild
    obtain ⟨q, hq, hlast⟩ := hchild
    split at hlast
    · rename_i hparent
      obtain ⟨n, hn⟩ := (Table.mem_keys_iff _ _).mp hq
      have hpath : q = path ++ [name] := by
        rw [← hparent.1, List.dropLast_append_getLast? _ hlast]
      rw [← hpath, node, hn]
      rfl
    · cases hlast
  · cases h

/-- Planning looks at the tree and writes rows only. -/
def looking : Frame World where
  rel w v := v.volume.disk = w.volume.disk
  refl _ := rfl
  trans hwu huv := Eq.trans huv hwu

theorem looking_onDatabase {α : Type} (m : Effect Database α) : Keeps looking (onDatabase m) :=
  Keeps.zoom fun _ => rfl

theorem looking_look {α : Type} (error : Text) (f : Disk → Except Text α) : Keeps looking (onVolume (look error f)) := by
  apply Keeps.zoom
  intro w
  change (final (look error f w.volume)).disk = w.volume.disk
  cases hcall : attempt error w.volume with
  | error e t =>
    rw [look, bind_of_error hcall]
    rw [attempt] at hcall
    split at hcall
    · cases hcall
      rfl
    · cases hcall
  | ok u t =>
    rw [look, bind_of_ok hcall, bind_of_ok (get_apply t)]
    obtain ⟨hdisk, -⟩ := attempt_eq_ok hcall
    cases f t.disk with
    | ok a => exact hdisk
    | error e => exact hdisk

theorem looking_planNames (recovery : Path) (section_ : Text) (names : List Text) (count : Nat) :
    Keeps looking (planNames recovery section_ names count) := by
  induction names generalizing count with
  | nil => exact Keeps.pure _
  | cons name names ih =>
    apply Keeps.ite (fun _ => Keeps.throw _)
    intro _
    exact Keeps.bind (looking_onDatabase _) fun _ => ih _

theorem looking_planSections (recovery : Path) (sections : List StoreSection) (count : Nat) :
    Keeps looking (planSections recovery sections count) := by
  induction sections generalizing count with
  | nil => exact Keeps.pure _
  | cons s sections ih =>
    apply Keeps.bind (looking_look _ _)
    intro names
    exact Keeps.bind (looking_planNames _ _ _ _) fun _ => ih _

section

variable [layout : StoreLayout]

/-- Every row of the plan names an entry of a section. -/
def Sound (d : Disk) (db : Database) : Prop := ∀ r ∈ db.detach.rows, Planned r ∧ (d.node r.1).isSome

omit layout in
theorem planEntry_ok {path target : NativePath} {s t : Database} {u : Unit} (h : planEntry path target s = .ok u t) :
    ∀ r ∈ t.detach.rows, r = (path, target) ∨ r ∈ s.detach.rows := by
  obtain ⟨-, w, hw, hfaults⟩ := Database.statement_eq_ok.mp h
  split at hw
  · cases hw
  · cases hw
    intro r hr
    rw [hfaults] at hr
    cases (Table.mem_rows_insert _ _ _ _ _).mp hr with
    | inl hnew => exact Or.inl (Prod.ext hnew.1 hnew.2)
    | inr hold => exact Or.inr hold.2

theorem planNames_ok {directory : Text} {s : StoreSection} (hs : s ∈ layout.sections) {names : List Text} {count c : Nat}
    {w v : World} (hnames : ∀ name ∈ names, (w.volume.disk.node [s.name, name]).isSome) (hsound : Sound w.volume.disk w.db)
    (h : planNames (detached ++ [directory]) s.name names count w = .ok c v) :
    v.volume = w.volume ∧ Sound w.volume.disk v.db := by
  induction names generalizing count w with
  | nil =>
    cases h
    exact ⟨rfl, hsound⟩
  | cons name names ih =>
    rw [planNames] at h
    split at h
    · cases h
    · obtain ⟨_, u, hu, h⟩ := bind_eq_ok.mp h
      obtain ⟨db, hdb, rfl⟩ := zoom_eq_ok.mp hu
      have hsound' : Sound w.volume.disk db := by
        intro r hr
        cases planEntry_ok hdb r hr with
        | inl hnew =>
          subst hnew
          exact ⟨⟨s, hs, name, directory, by simp⟩, hnames name List.mem_cons_self⟩
        | inr hold => exact hsound r hold
      exact ih (w := { w with db }) (fun other hother => hnames other (List.mem_cons_of_mem name hother)) hsound' h

theorem planSections_ok {directory : Text} {sections : List StoreSection} (hsections : ∀ s ∈ sections, s ∈ layout.sections)
    {count c : Nat} {w v : World} (hsound : Sound w.volume.disk w.db)
    (h : planSections (detached ++ [directory]) sections count w = .ok c v) :
    v.volume.disk = w.volume.disk ∧ Sound w.volume.disk v.db := by
  induction sections generalizing count w with
  | nil =>
    cases h
    exact ⟨rfl, hsound⟩
  | cons s sections ih =>
    obtain ⟨names, u, hu, h⟩ := bind_eq_ok.mp h
    obtain ⟨volume, hlist, rfl⟩ := zoom_eq_ok.mp hu
    obtain ⟨hdisk, hnames⟩ := list_eq_ok hlist
    obtain ⟨_, x, hx, h⟩ := bind_eq_ok.mp h
    obtain ⟨hvolume, hsound'⟩ := planNames_ok (hsections s List.mem_cons_self) (by rwa [hdisk]) (by rwa [hdisk]) hx
    have hdisk' : x.volume.disk = w.volume.disk := by rw [hvolume, hdisk]
    have hx' : Sound x.volume.disk x.db := by
      rw [hdisk']
      rwa [hdisk] at hsound'
    obtain ⟨hv, hfinal⟩ := ih (fun t ht => hsections t (List.mem_cons_of_mem s ht)) hx' h
    exact ⟨hv.trans hdisk', hdisk' ▸ hfinal⟩

omit layout in
theorem nameHost_ok {claim : HostClaim} {recovery : Path} {s t : Database} {u : Unit}
    (h : nameHost claim recovery s = .ok u t) : t.detach = s.detach ∧ detaching t := by
  obtain ⟨s1, _, h1, h⟩ := Database.bind_statement h
  obtain ⟨s2, _, h2, h⟩ := Database.bind_statement h
  obtain ⟨s3, _, h3, h⟩ := Database.bind_statement h
  obtain ⟨s4, _, h4, h⟩ := Database.bind_statement h
  obtain ⟨s5, _, h5, h⟩ := Database.bind_statement h
  obtain ⟨_, h6⟩ := Database.statement_some h
  constructor
  · simp only [h1, h2, h3, h4, h5, h6]
  · simp [detaching, Database.meta_, h6]

variable [drive : DriveLayer]

/-- A committed plan: nothing has moved yet, and every row is an entry of a section. -/
theorem commitPlan_ok {claim : HostClaim} {directory : Text} {w v : World} {u : Unit}
    (h : commitPlan claim (detached ++ [directory]) w = .ok u v) :
    v.volume.disk = w.volume.disk ∧ Sound w.volume.disk v.db ∧ detaching v.db := by
  rw [commitPlan, bind_of_ok (get_apply w)] at h
  obtain ⟨_, x, hx, h⟩ := bind_eq_ok.mp h
  obtain ⟨db, hdb, rfl⟩ := zoom_eq_ok.mp hx
  obtain ⟨faults, hfaults⟩ := Database.statement_some hdb
  have hempty : Sound w.volume.disk db := by
    intro r hr
    rw [hfaults] at hr
    exact absurd hr List.not_mem_nil
  have hnamed : ∀ {x : World}, x.volume.disk = w.volume.disk → Sound w.volume.disk x.db →
      onDatabase (nameHost claim (detached ++ [directory])) x = .ok u v →
      v.volume.disk = w.volume.disk ∧ Sound w.volume.disk v.db ∧ detaching v.db := by
    intro x hdisk hsound hx
    obtain ⟨t, ht, rfl⟩ := zoom_eq_ok.mp hx
    obtain ⟨hdetach, hdetaching⟩ := nameHost_ok ht
    refine ⟨hdisk, ?_, hdetaching⟩
    intro r hr
    exact hsound r (hdetach ▸ hr)
  split at h
  · obtain ⟨_, x, hx, h⟩ := bind_eq_ok.mp h
    obtain ⟨hdisk, hsound⟩ := planSections_ok (fun s hs => hs) hempty hx
    exact hnamed hdisk hsound h
  · exact hnamed (x := { w with db }) rfl hempty h

/-- The plan that a database holds, over a tree. -/
def planAt (w : World) : Plan := ⟨w.volume.disk, w.db.detach.rows⟩

omit drive in
/-- A new plan joins those that are carried out. -/
theorem Kept.cons {plans : List Plan} {w v : World} (hkept : Kept plans w) (hsettled : ¬detaching w.db)
    (hdisk : v.volume.disk = w.volume.disk) (hsound : Sound w.volume.disk v.db) (hdetaching : detaching v.db) :
    Kept (planAt v :: plans) v := by
  have harrived : Arrived plans v.volume.disk := by
    rw [hdisk]
    exact hkept.settled hsettled
  refine ⟨?_, ?_, fun _ => ⟨planAt v, plans, rfl, rfl, harrived⟩, fun h => absurd hdetaching h⟩
  · intro P hP r hr
    cases List.mem_cons.mp hP with
    | inl hnew =>
      subst hnew
      rw [planAt, hdisk]
      exact hsound r hr
    | inr hold => exact hkept.planned P hold r hr
  · intro P hP r hr
    cases List.mem_cons.mp hP with
    | inl hnew =>
      subst hnew
      exact Or.inl (Rests.refl _ _)
    | inr hold => exact Or.inr (harrived P hold r hr)

/-- What a claim comes to: with a new plan everything that was promised before holds as well. -/
def Claimed (plans : List Plan) (w : World) (planned : Bool) (v : World) : Prop :=
  Kept plans w → Unmoved plans w.volume.disk v.volume.disk ∧ Kept (if planned then planAt v :: plans else plans) v

variable (hsections : ∀ s ∈ layout.sections, s.name ≠ control)

include hsections

omit drive in
theorem resetHost_onward {plans : List Plan} (claim : HostClaim) :
    Keeps (onward plans)
      (onDatabase (relabel (text "host_checkpoint_reset_failed") (Database.transaction (resetHost claim)))) := by
  intro w
  cases hreset : Database.transaction (resetHost claim) w.db with
  | error e db =>
    have htables := Database.transaction_error hreset
    have hdetach := congrArg Database.detach htables
    have hadoption := congrArg (fun db => Database.meta_ db adoptionKey) htables
    rw [onDatabase_of_error (relabel_of_error hreset)]
    exact onward_of_plan hsections (v := { w with db }) rfl hdetach hadoption
  | ok u db =>
    rw [onDatabase_of_ok (relabel_of_ok hreset)]
    obtain ⟨s1, _, h1, h⟩ := Database.bind_statement (rollback_eq_ok.mp hreset)
    obtain ⟨_, s3, hclear, h⟩ := bind_eq_ok.mp h
    obtain ⟨s2, _, h2, hclear⟩ := Database.bind_statement hclear
    obtain ⟨_, h3⟩ := Database.statement_some hclear
    obtain ⟨_, h4⟩ := Database.statement_some h
    have hkey : adoptionKey ≠ hostReplicaKey := by decide
    refine onward_of_plan hsections (v := { w with db }) rfl ?_ ?_
    · simp only [h1, h2, h3, h4]
    · simp [Database.meta_, h1, h2, h3, h4, Table.find?_insert, hkey]

omit hsections in
theorem looking_commitPlan (claim : HostClaim) (recovery : Path) : Keeps looking (commitPlan claim recovery) := by
  apply Keeps.bind Keeps.get
  intro w
  apply Keeps.bind (looking_onDatabase _)
  intro _
  apply Keeps.ite
  · intro _
    exact Keeps.bind (looking_planSections _ _ _) fun _ => looking_onDatabase _
  · intro _
    exact looking_onDatabase _

/-- The transaction of a plan: it commits the plan as a whole, or every row stays. -/
theorem plan_concludes (plans : List Plan) (claim : HostClaim) (directory : Text) :
    Concludes (onward plans) (fun w b v => ¬detaching w.db → Claimed plans w b v) (do
      relabel planFailed (rollback (fun w v => { v with db := Database.restore w.db v.db })
        (commitPlan claim (detached ++ [directory])))
      pure true) := by
  intro w
  have hlooking := looking_commitPlan claim (detached ++ [directory]) w
  cases hcommit : commitPlan claim (detached ++ [directory]) w with
  | error e v =>
    left
    rw [hcommit] at hlooking
    have hrolled : rollback (fun w v : World => { v with db := Database.restore w.db v.db })
        (commitPlan claim (detached ++ [directory])) w = .error e { v with db := Database.restore w.db v.db } := by
      rw [rollback, hcommit]
    refine ⟨_, _, bind_of_error (relabel_of_error hrolled), ?_⟩
    exact onward_of_plan hsections hlooking rfl rfl
  | ok u v =>
    right
    obtain ⟨hdisk, hsound, hdetaching⟩ := commitPlan_ok hcommit
    refine ⟨true, v, bind_of_ok (relabel_of_ok (rollback_eq_ok.mpr hcommit)), ?_⟩
    intro hsettled hkept
    refine ⟨?_, hkept.cons hsettled hdisk hsound hdetaching⟩
    rw [hdisk]
    exact Unmoved.refl _ _

variable (hdrive : LawfulDrive drive)

include hdrive

theorem planHost_concludes (plans : List Plan) (claim : HostClaim) :
    Concludes (onward plans) (Claimed plans) (planHost claim) := by
  have hbefore : ∀ {s t u : World} {b : Bool}, (onward plans).rel s t → Claimed plans t b u → Claimed plans s b u := by
    intro s t u b hst htu hkept
    have ht := hst hkept
    obtain ⟨hunmoved, hu⟩ := htu ht.kept
    exact ⟨ht.unmoved.trans (fun P hP r hr => (hkept.planned P hP r hr).1) hunmoved, hu⟩
  have hsettled : ∀ {s t u : World} {b : Bool}, (onward plans).rel s t →
      (¬detaching t.db → Claimed plans t b u) → ¬detaching s.db → Claimed plans s b u := by
    intro s t u b hst htu hs hkept
    exact hbefore hst (htu ((hst hkept).settled hs)) hkept
  have hready : Keeps (onward plans) lock :=
    Keeps.bind (onward_onVolume hsections (still_attempt _)) fun _ => onward_onVolume hsections (still_attempt _)
  refine Concludes.bind hready (fun _ => Concludes.bind Keeps.get (fun w => ?_) hbefore) hbefore
  refine Concludes.ite (fun _ => Concludes.throw _) fun _ => ?_
  refine Concludes.ite (fun _ => Concludes.throw _) fun _ => ?_
  refine Concludes.ite (fun _ => Concludes.throw _) fun _ => ?_
  refine Concludes.chain (resumeAdoption_concludes hsections hdrive plans) (fun s a t hst hkept => (hst hkept).1)
    (R := fun w b v => ¬detaching w.db → Claimed plans w b v) (fun _ => ?_) ?_
  · refine Concludes.bind Keeps.get (fun w => ?_) hsettled
    refine Concludes.ite (fun _ => ?_) fun _ => ?_
    · have hfalse : ∀ w : World, ¬detaching w.db → Claimed plans w false w :=
        fun w _ hkept => ⟨Unmoved.refl _ _, hkept⟩
      refine Concludes.when (fun _ => resetHost_onward hsections claim) (fun _ => ?_) hsettled
      exact Concludes.bind (onward_writeBinding hsections) (fun _ => Concludes.pure hfalse) hsettled
    · refine Concludes.bind (onward_onVolume hsections still_draw) (fun name => ?_) hsettled
      refine Concludes.bind (onward_onVolume hsections (still_mkdir _)) (fun _ => ?_) hsettled
      refine Concludes.bind (onward_onVolume hsections (still_preserve _ _)) (fun _ => ?_) hsettled
      exact plan_concludes hsections plans claim _
  · intro s t u a b hst htu hkept
    obtain ⟨ht, hsettled'⟩ := hst hkept
    obtain ⟨hunmoved, hu⟩ := htu hsettled' ht.kept
    exact ⟨ht.unmoved.trans (fun P hP r hr => (hkept.planned P hP r hr).1) hunmoved, hu⟩

theorem reopen_onward (plans : List Plan) (scope : Text) : Keeps (onward plans) (reopen scope) := by
  have hsame : ∀ {f : World → World}, (∀ w, (f w).volume = w.volume ∧ (f w).db = w.db) →
      Keeps (onward plans) (modify f : Effect World PUnit) := by
    intro f hf w
    obtain ⟨hvolume, hdb⟩ := hf w
    refine onward_of_plan hsections ?_ ?_ ?_
    · exact congrArg Volume.disk hvolume
    · exact congrArg Database.detach hdb
    · exact congrArg (fun db => Database.meta_ db adoptionKey) hdb
  have hresume : Keeps (onward plans) resumeAdoption :=
    Concludes.keeps (resumeAdoption_concludes hsections hdrive plans) fun s a t hst hkept => (hst hkept).1
  have hopened : Keeps (onward plans) (onDatabase (Database.statement some)) := by
    intro w
    rw [onDatabase, zoom]
    cases hopened : Database.statement some w.db with
    | ok u db =>
      obtain ⟨faults, hfaults⟩ := Database.statement_some (f := id) hopened
      exact onward_of_plan hsections (v := { w with db }) rfl (by rw [hfaults]; rfl) (by rw [hfaults]; rfl)
    | error e db =>
      obtain ⟨t, -, heq⟩ | ⟨faults, -, heq⟩ := Database.statement_cases some w.db
      · cases hopened.symm.trans heq
      · cases hopened.symm.trans heq
        exact onward_of_plan hsections (v := { w with db := { w.db with faults } }) rfl rfl rfl
  rw [reopen]
  refine Keeps.bind (hsame ?_) fun _ => ?_
  · intro w
    exact ⟨rfl, rfl⟩
  apply Keeps.ite (fun _ => Keeps.throw _)
  intro _
  apply Keeps.bind (onward_onVolume hsections (still_mkdir _))
  intro _
  apply Keeps.bind (onward_onVolume hsections (still_mkdir _))
  intro _
  apply Keeps.bind (onward_onVolume hsections (still_attempt _))
  intro _
  apply Keeps.bind hopened
  intro _
  apply Keeps.bind Keeps.get
  intro w
  apply Keeps.ite (fun _ => Keeps.throw _)
  intro _
  refine Keeps.bind (hsame ?_) fun _ => Keeps.bind hresume fun _ => Keeps.bind (hsame ?_) fun _ => ?_
  · intro w
    exact ⟨rfl, rfl⟩
  · intro w
    exact ⟨rfl, rfl⟩
  · apply Keeps.bind Keeps.get
    intro w
    exact Keeps.ite (fun _ => Keeps.throw _) fun _ => Keeps.pure _

end

/-! ## Runs -/

/-- What may happen to a container, with the calls and writes that fail. A step that fails may be
a crash: nothing after the failure is carried out. -/
inductive Happening where
  | claim (claim : HostClaim) (calls : List (Option Nat)) (writes : List Bool)
  | resume (calls : List (Option Nat)) (writes : List Bool)
  | reopen (scope : Text) (calls : List (Option Nat)) (writes : List Bool)
  | create (path : Path) (bytes : Option Bytes)

/-- A container and the plans that were committed for it, the latest first. -/
structure Adoptions where
  world : World
  plans : List Plan

def armed (w : World) (calls : List (Option Nat)) (writes : List Bool) : World :=
  { w with volume := { w.volume with faults := calls }, db := { w.db with faults := writes } }

/-- A user creates a file or a directory where there is none. -/
def created (d : Disk) (path : Path) (bytes : Option Bytes) : Disk :=
  if d.node path = none ∧ d.walk path.dropLast = .directory then
    match bytes with
    | some bytes => d.place path bytes
    | none => d.makeDirectory path
  else d

section

variable [StoreLayout] [DriveLayer]

def Adoptions.step (s : Adoptions) : Happening → Adoptions
  | .claim claim calls writes =>
    match planHost claim (armed s.world calls writes) with
    | .ok true v => ⟨v, planAt v :: s.plans⟩
    | result => ⟨final result, s.plans⟩
  | .resume calls writes => ⟨final (resumeAdoption (armed s.world calls writes)), s.plans⟩
  | .reopen scope calls writes => ⟨final (Replica.reopen scope (armed s.world calls writes)), s.plans⟩
  | .create path bytes =>
    ⟨{ s.world with volume := { s.world.volume with disk := created s.world.volume.disk path bytes } }, s.plans⟩

def Adoptions.run (s : Adoptions) (happenings : List Happening) : Adoptions := happenings.foldl step s

/-- Binding to a host is a claim and, after a new plan, a resumption. -/
theorem bindHost_run (claim : HostClaim) (s : Adoptions) (calls : List (Option Nat)) (writes : List Bool) :
    ∃ happenings, (s.run happenings).world = final (bindHost claim (armed s.world calls writes)) := by
  cases hclaim : planHost claim (armed s.world calls writes) with
  | error e v =>
    refine ⟨[.claim claim calls writes], ?_⟩
    rw [bindHost, bind_of_error hclaim]
    simp [Adoptions.run, Adoptions.step, hclaim]
  | ok planned v =>
    rw [bindHost, bind_of_ok hclaim]
    cases planned with
    | false =>
      refine ⟨[.claim claim calls writes], ?_⟩
      simp [Adoptions.run, Adoptions.step, hclaim]
    | true =>
      have hstep : s.step (.claim claim calls writes) = ⟨v, planAt v :: s.plans⟩ := by
        rw [Adoptions.step, hclaim]
      refine ⟨[.claim claim calls writes, .resume v.volume.faults v.db.faults], ?_⟩
      rw [Adoptions.run, List.foldl_cons, hstep]
      rfl

end

section

variable [layout : StoreLayout] [drive : DriveLayer] (hsections : ∀ s ∈ layout.sections, s.name ≠ control)
variable (hdrive : LawfulDrive drive)

include hsections

omit drive in
theorem Kept.armed {plans : List Plan} {w : World} (hkept : Kept plans w) (calls : List (Option Nat)) (writes : List Bool) :
    Kept plans (armed w calls writes) :=
  (onward_of_plan hsections (w := w) (v := Replica.armed w calls writes) rfl rfl rfl hkept).kept

omit drive layout hsections in
theorem stays_created (d : Disk) (path : Path) (bytes : Option Bytes) : Stays rewritten d (created d path bytes) := by
  rw [created.eq_def]
  split
  · rename_i hfree
    cases bytes with
    | some bytes => exact stays_place bytes (Or.inl hfree.1)
    | none => exact stays_makeDirectory hfree.1
  · exact Stays.refl _ _

include hdrive

/-- One step keeps what every plan promised, and moves nothing else. -/
theorem kept_step {s : Adoptions} (hkept : Kept s.plans s.world) (happening : Happening) :
    Kept (s.step happening).plans (s.step happening).world ∧
      Unmoved (s.step happening).plans s.world.volume.disk (s.step happening).world.volume.disk := by
  cases happening with
  | claim claim calls writes =>
    have harmed := hkept.armed hsections calls writes
    rw [Adoptions.step]
    cases planHost_concludes hsections hdrive s.plans claim (armed s.world calls writes) with
    | inl herror =>
      obtain ⟨e, v, heq, hrel⟩ := herror
      rw [heq]
      exact ⟨(hrel harmed).kept, (hrel harmed).unmoved⟩
    | inr hok =>
      obtain ⟨planned, v, heq, hclaimed⟩ := hok
      rw [heq]
      obtain ⟨hunmoved, hv⟩ := hclaimed harmed
      cases planned with
      | true => exact ⟨hv, hunmoved.cons _⟩
      | false => exact ⟨hv, hunmoved⟩
  | resume calls writes =>
    have hresume : Keeps (onward s.plans) resumeAdoption :=
      Concludes.keeps (resumeAdoption_concludes hsections hdrive s.plans) fun s a t hst hkept => (hst hkept).1
    have hv := hresume (armed s.world calls writes) (hkept.armed hsections calls writes)
    exact ⟨hv.kept, hv.unmoved⟩
  | reopen scope calls writes =>
    have hv := reopen_onward hsections hdrive s.plans scope _ (hkept.armed hsections calls writes)
    exact ⟨hv.kept, hv.unmoved⟩
  | create path bytes =>
    have hv : (onward s.plans).rel s.world
        { s.world with volume := { s.world.volume with disk := created s.world.volume.disk path bytes } } :=
      onward_of_stays hsections (stays_created _ _ _) rfl fun _ => rfl
    exact ⟨(hv hkept).kept, (hv hkept).unmoved⟩

theorem kept_run {s : Adoptions} (hkept : Kept s.plans s.world) (happenings : List Happening) :
    Kept (s.run happenings).plans (s.run happenings).world := by
  induction happenings generalizing s with
  | nil => exact hkept
  | cons happening happenings ih => exact ih (kept_step hsections hdrive hkept happening).1

/-- An adoption survives its interruptions: in every run each planned entry is at its path or at its
target, a step moves nothing that is not planned, and a resumption that ends well has carried out
the plan. -/
theorem adoption_survives (w : World) (hstart : ¬detaching w.db) (happenings : List Happening) :
    (∀ P ∈ (Adoptions.run ⟨w, []⟩ happenings).plans, ∀ r ∈ P.rows,
      Held P.origin (Adoptions.run ⟨w, []⟩ happenings).world.volume.disk r.1 r.2) ∧
    (∀ happening, Unmoved ((Adoptions.run ⟨w, []⟩ happenings).step happening).plans
      (Adoptions.run ⟨w, []⟩ happenings).world.volume.disk
      ((Adoptions.run ⟨w, []⟩ happenings).step happening).world.volume.disk) ∧
    ∀ calls writes v, detaching (Adoptions.run ⟨w, []⟩ happenings).world.db →
      resumeAdoption (armed (Adoptions.run ⟨w, []⟩ happenings).world calls writes) = .ok () v →
      Arrived (Adoptions.run ⟨w, []⟩ happenings).plans v.volume.disk ∧
        CarriedOut (Adoptions.run ⟨w, []⟩ happenings).world v := by
  have hnew : Kept [] w := ⟨by simp, by simp, fun h => absurd h hstart, fun _ => by simp [Arrived]⟩
  have hkept := kept_run hsections hdrive (s := ⟨w, []⟩) hnew happenings
  refine ⟨hkept.held, fun happening => (kept_step hsections hdrive hkept happening).2, ?_⟩
  intro calls writes v hdetaching hresumed
  have harmed := hkept.armed hsections calls writes
  have hsettled : Arrived (Adoptions.run ⟨w, []⟩ happenings).plans v.volume.disk := by
    cases resumeAdoption_concludes hsections hdrive _ _ with
    | inl herror =>
      obtain ⟨e, u, heq, -⟩ := herror
      cases hresumed.symm.trans heq
    | inr hok =>
      obtain ⟨_, u, heq, hu⟩ := hok
      cases hresumed.symm.trans heq
      obtain ⟨honward, hsettled⟩ := hu harmed
      exact honward.kept.settled hsettled
  refine ⟨hsettled, ?_⟩
  cases resumeAdoption_cases hdrive (w := armed _ calls writes) hdetaching (harmed.planned_rows hdetaching)
      (harmed.apart hsections hdetaching) with
  | inl herror =>
    obtain ⟨e, u, heq, -⟩ := herror
    cases hresumed.symm.trans heq
  | inr hok =>
    obtain ⟨u, heq, hu⟩ := hok
    cases heq with
    | inl heq =>
      cases hresumed.symm.trans heq
      exact ⟨hu.carried, hu.delivered, hu.manifest, hu.identity, hu.container, hu.forgotten⟩
    | inr heq =>
      obtain ⟨e, heq⟩ := heq
      cases hresumed.symm.trans heq

end

/-- A drive whose manifest holds its identity and nothing else. -/
@[reducible] def plainDrive : DriveLayer where
  identifier d := ((d.content driveManifest).getD []).map fun b => Char.ofNat b.toNat
  logicalDisk _ := false
  adopt fault d _ target :=
    match fault with
    | some _ => (d, false)
    | none =>
      let adopted := d.place driveManifest (utf8 target)
      (adopted, ((adopted.content driveManifest).getD []).map (fun b => Char.ofNat b.toNat) = target)
  nullUuid t := t = []
  bareUuid t := t

theorem lawful_plainDrive : LawfulDrive plainDrive where
  reads d e _ hcontent := by
    change ((e.content driveManifest).getD []).map _ = ((d.content driveManifest).getD []).map _
    rw [hcontent]
  adopted fault d source target h := by
    cases fault with
    | some n => cases h
    | none =>
      have hnode : ((d.place driveManifest (utf8 target)).node driveManifest).isSome := by simp
      exact ⟨hnode, of_decide_eq_true h⟩
  others fault d source target := by
    cases fault with
    | some n => exact Stays.refl _ _
    | none => exact stays_place _ (Or.inr rfl)

def oldContainer : Text := newAuthority.container

/-- A drive with one file, before it knows any host. -/
def oldDrive : World where
  volume :=
    { disk := ((((openedDisk.place driveManifest (utf8 oldContainer)).makeDirectory [text "Files"]).makeDirectory
        [text "Models"]).makeDirectory [text "Photos"]).place [text "Files", text "notes"] [1, 2] }
  db := { metadata := Table.empty.insert containerKey oldContainer }
  id := text "33333333-3333-4333-8333-333333333333"
  container := oldContainer
  scope := []

def deskClaim : HostClaim where
  peer := text "desk"
  replica := newAuthority.id
  container := text "44444444-4444-4444-8444-444444444444"
  replaceHost := false
  pinned := false

/-- The host is bound, the move of the file is cut short, and the user goes on working. -/
def interruptedAdoption : List Happening :=
  [.claim deskClaim [] [], .resume (List.replicate 9 none ++ [some 0]) [],
    .create [text "Files", text "later"] (some [3])]

def interrupted : Adoptions := @Adoptions.run plainLayout plainDrive ⟨oldDrive, []⟩ interruptedAdoption

theorem adoption_survives_interruption :
    ∃ v, @resumeAdoption plainDrive (armed interrupted.world [] []) = .ok () v ∧
      @Arrived interrupted.plans v.volume.disk ∧ v.db.detach = .empty := by
  have hsections : ∀ s ∈ plainLayout.sections, s.name ≠ control := by decide
  have hdetaching : detaching interrupted.world.db := by decide +kernel
  cases hresumed : @resumeAdoption plainDrive (armed interrupted.world [] []) with
  | error e v =>
    have hok : (match @resumeAdoption plainDrive (armed interrupted.world [] []) with
      | .ok _ _ => true
      | .error _ _ => false) = true := by decide +kernel
    rw [hresumed] at hok
    cases hok
  | ok u v =>
    obtain ⟨-, -, hresume⟩ := @adoption_survives plainLayout plainDrive hsections lawful_plainDrive oldDrive (by decide)
      interruptedAdoption
    obtain ⟨harrived, hdone⟩ := hresume [] [] v hdetaching hresumed
    obtain ⟨n, -, -, -, hforgotten⟩ := @CarriedOut.forgotten plainDrive _ _ hdone
    exact ⟨v, rfl, harrived, hforgotten.detach⟩

end Replica

end SocietyHelper.Sync
