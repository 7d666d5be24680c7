import SocietyHelper.Library.Retention
import SocietyHelper.Sync.LogicalPaths
import SocietyHelper.Sync.Placement

/-! # No request destroys a file

Whatever a peer asks for, and wherever a request fails, the bytes of every
public file stay under its name or are found in the recovery directories.
-/

namespace SocietyHelper.Sync

open Library Effect

namespace ConfinedFiles

/-- The directories that nothing is ever taken out of. -/
def Refuge (p : Path) : Prop := recovery <+: p ∨ detached <+: p

/-- A document that the file provider has derived from the file beside it. -/
def Derived [layout : StoreLayout] (p : Path) (b : Bytes) : Prop :=
  layout.ownedPresentation b ∧ ∃ q, p = presentationOf q

def Public [StoreLayout] (p : Path) (b : Bytes) : Prop := p.head? ≠ some control ∧ ¬Derived p b

def Staging (p : Path) : Prop := transfers <+: p

def noteOf (n : Nat) : Path := recovery ++ [decimal n ++ text ".json"]
def stagedName (n : Nat) : Text := text ".society-write-" ++ decimal n
def emptied (n : Nat) : Path := detached ++ [text "empty-" ++ decimal n]

/-- Names that are made from identifiers that have not been drawn yet. -/
def Reserved (n : Nat) (k : Path) : Prop :=
  ∃ m, n ≤ m ∧ (k = noteOf m ∨ (k.head? ≠ some control ∧ k.getLast? = some (stagedName m)) ∨ emptied m <+: k)

/-- Every file on the way to be received has one name, and no identifier has been used before it was drawn. -/
structure Guarded (v : Volume) : Prop where
  single : v.disk.Single Staging
  unused : ∀ k, Reserved v.uuids k → v.disk.node k = none

theorem Reserved.mono {n m : Nat} (h : n ≤ m) {k : Path} (hk : Reserved m k) : Reserved n k := by
  obtain ⟨l, hl, hname⟩ := hk
  exact ⟨l, h.trans hl, hname⟩

/-! ## Names -/

theorem head_of_front {p q : Path} (h : p <+: q) {x : Text} (hx : p.head? = some x) : q.head? = some x := by
  obtain ⟨rest, rfl⟩ := h
  rw [List.head?_append, hx]
  rfl

theorem Refuge.head {p : Path} (h : Refuge p) : p.head? = some control := by
  rcases h with h | h
  · exact head_of_front h rfl
  · exact head_of_front h rfl

theorem Staging.head {p : Path} (h : Staging p) : p.head? = some control := head_of_front h rfl

theorem second_of_front {a b : Text} {p : Path} (h : [a, b] <+: p) : p[1]? = some b := by
  obtain ⟨rest, rfl⟩ := h
  rfl

theorem Staging.not_refuge {p : Path} (h : Staging p) : ¬Refuge p := by
  rintro (hr | hr)
  · exact absurd ((second_of_front h).symm.trans (second_of_front hr)) (by decide)
  · exact absurd ((second_of_front h).symm.trans (second_of_front hr)) (by decide)

theorem recovery_ne_detached : some (text "recovery") ≠ some (text "detached") := by decide

/-- A name that is drawn is not one that is reserved. -/
theorem not_reserved_drawn {n m : Nat} : ¬Reserved m (recovery ++ [decimal n]) := by
  rintro ⟨l, -, h | h | h⟩
  · have heq := List.append_cancel_left h
    have hdot : '.' ∈ decimal n := by
      rw [List.singleton_inj.mp heq]
      exact List.mem_append_right _ List.mem_cons_self
    exact absurd (isDigit_of_mem_decimal hdot) (by decide)
  · exact h.1 rfl
  · exact absurd (second_of_front ((List.prefix_append detached _).trans h)) recovery_ne_detached

theorem not_reserved_note {n m : Nat} (h : n < m) : ¬Reserved m (noteOf n) := by
  rintro ⟨l, hl, hk | hk | hk⟩
  · have heq := List.singleton_inj.mp (List.append_cancel_left hk)
    have := decimal_injective (List.append_cancel_right heq)
    omega
  · exact hk.1 rfl
  · exact absurd (second_of_front ((List.prefix_append detached _).trans hk)) recovery_ne_detached

/-- A path that a key leads to: outside the private directory, and without names of staged files. -/
structure Ordinary (p : Path) : Prop where
  head : p.head? ≠ some control
  parts : ∀ part ∈ p, ¬text ".society-" <+: part

theorem Ordinary.front {p q : Path} (h : Ordinary p) (hq : q <+: p) : Ordinary q where
  head hhead := h.head (head_of_front hq hhead)
  parts part hpart := h.parts part (hq.subset hpart)

theorem Ordinary.not_reserved {p : Path} (h : Ordinary p) {n : Nat} : ¬Reserved n p := by
  rintro ⟨m, -, rfl | ⟨-, hlast⟩ | hempty⟩
  · exact h.head rfl
  · refine h.parts _ (List.mem_of_getLast? hlast) ?_
    exact ⟨text "write-" ++ decimal m, rfl⟩
  · exact h.head (head_of_front ((List.prefix_append detached _).trans hempty) rfl)

theorem Ordinary.not_refuge {p : Path} (h : Ordinary p) : ¬Refuge p := fun hr => h.head hr.head

theorem Ordinary.not_staging {p : Path} (h : Ordinary p) : ¬Staging p := fun hs => h.head hs.head

theorem ordinary_physical [layout : StoreLayout] (hsections : Replica.OrdinarySections layout) (key : Text) :
    Ordinary (physical key) := by
  have hparts : ∀ part ∈ physical key, ¬text ".society-" <+: part := by
    intro part hpart hprefix
    have hcontrol := (Replica.physical_parts hsections (List.ne_nil_of_mem hpart) part hpart).2.2.2.2.1
    rw [controlPrefix, List.isPrefixOf_iff_prefix.mpr hprefix] at hcontrol
    cases hcontrol
  refine ⟨fun hhead => ?_, hparts⟩
  exact hparts control (List.mem_of_head? hhead) ⟨text "sync", rfl⟩

/-! ## What the operations do -/

theorem attempt_effect (error : Text) (s : Volume) :
    (final (attempt error s)).disk = s.disk ∧ (final (attempt error s)).uuids = s.uuids := by
  rcases Replica.attempt_cases error s with ⟨faults, h⟩ | ⟨faults, h⟩
  · rw [h]
    exact ⟨rfl, rfl⟩
  · rw [h]
    exact ⟨rfl, rfl⟩

theorem attempt_ok {error : Text} {s t : Volume} {u : Unit} (h : attempt error s = .ok u t) :
    t.disk = s.disk ∧ t.uuids = s.uuids := by
  have heffect := attempt_effect error s
  rwa [h] at heffect

/-- The identifiers that have been drawn. -/
def drawn : Frame Volume where
  rel s t := t.uuids = s.uuids
  refl _ := rfl
  trans h k := k.trans h

theorem drawn_mkdirFrom (base parts : Path) : Keeps drawn (mkdirFrom base parts) := by
  induction parts generalizing base with
  | nil => exact .pure _
  | cons part parts ih =>
    refine .bind (fun s => (attempt_effect _ s).2) fun _ => .read fun s => ?_
    cases s.disk.node (base ++ [part]) with
    | none => exact Keeps.rel_bind (F := drawn) rfl (fun _ t _ => Keeps.bind (fun s => (attempt_effect _ s).2) (fun _ => ih _) t)
    | some n =>
      cases n with
      | directory i => exact ih _ s
      | file i => rfl
      | special => rfl

theorem drawn_mkdir (p : Path) : Keeps drawn (mkdir p) := drawn_mkdirFrom [] p

theorem drawn_append (path : Path) (offset : Nat) (bytes : Bytes) : Keeps drawn (append path offset bytes) := by
  have hattempt : ∀ error, Keeps drawn (attempt error) := fun error s => (attempt_effect error s).2
  have hopen : Keeps drawn (openFile path) := by
    refine .bind (hattempt _) fun _ => .bind .get fun s => .ite (fun _ => .throw _) fun _ => ?_
    split
    · exact .modify fun _ => rfl
    · exact .pure _
  refine .bind hopen fun _ => .bind .get fun s => ?_
  split
  · refine .ite (fun _ => .throw _) fun _ => .ite (fun _ => ?_) fun _ => .bind (fun s => ?_) fun _ => hattempt _
    · exact .ite (fun _ => .throw _) fun _ => .ite (fun _ => .throw _) fun _ => .pure _
    · rw [pwrite]
      split
      · rfl
      · split <;> rfl
  · exact .throw _

/-- The tree in which a file is open. -/
def opened (d : Disk) (p : Path) : Disk := if d.node p = none then d.create p else d

/-- An append has written to no file but the one that it has opened. -/
theorem append_effect (path : Path) (offset : Nat) (bytes : Bytes) (s : Volume) :
    (final (append path offset bytes s)).disk = s.disk ∨ ∃ i more,
      (opened s.disk path).node path = some (.file i) ∧
        Wrote i more (opened s.disk path) (final (append path offset bytes s)).disk := by
  rw [append]
  rcases openFile_cases path s with ⟨m, t, hopen, ht⟩ | ⟨-, hopen⟩
  · rw [bind_of_error hopen]
    exact .inl ht
  replace hopen : openFile path s = .ok () { s with disk := opened s.disk path, faults := s.faults.tail } := hopen
  rw [bind_of_ok hopen, bind_of_ok (get_apply _)]
  have hnode : ∀ n, (opened s.disk path).node path = n → (∀ i, n ≠ some (.file i)) → opened s.disk path = s.disk := by
    intro n hn hne
    rw [opened] at hn ⊢
    by_cases hfree : s.disk.node path = none
    · rw [if_pos hfree, Disk.node_create, if_pos rfl] at hn
      exact absurd hn.symm (hne _)
    · exact if_neg hfree
  dsimp only
  cases hfound : (opened s.disk path).node path with
  | none => exact .inl (hnode _ hfound fun i h => by cases h)
  | some n =>
    cases n with
    | directory i => exact .inl (hnode _ hfound fun i h => by cases h)
    | special => exact .inl (hnode _ hfound fun i h => by cases h)
    | file i =>
      right
      dsimp only
      split
      · exact ⟨i, _, rfl, Wrote.refl i _⟩
      split
      · split
        · exact ⟨i, _, rfl, Wrote.refl i _⟩
        split
        · exact ⟨i, _, rfl, Wrote.refl i _⟩
        · exact ⟨i, _, rfl, Wrote.refl i _⟩
      · rcases pwrite_cases i bytes { s with disk := opened s.disk path, faults := s.faults.tail } with
          ⟨t, hpwrite, hwrote⟩ | ⟨-, n, m, t, hpwrite, hwrote⟩
        · rw [bind_of_ok hpwrite]
          have hflushed := (attempt_effect (text "flush_failed") t).1
          exact ⟨i, _, rfl, hflushed ▸ hwrote⟩
        · rw [bind_of_error hpwrite]
          exact ⟨i, _, rfl, hwrote⟩

theorem drawn_preserve (path copy : Path) : Keeps drawn (preserve path copy) := by
  have hattempt : ∀ error, Keeps drawn (attempt error) := fun error s => (attempt_effect error s).2
  refine .bind (drawn_mkdir _) fun _ => .bind (hattempt _) fun _ => .bind .get fun s => .ite (fun _ => .throw _) fun _ => ?_
  split
  · exact .bind (hattempt _) fun _ => .ite (fun _ => .throw _) fun _ => .bind (.modify fun _ => rfl) fun _ => hattempt _
  · exact .throw _

/-- The file has its second name, in a tree in which only directories have come before. -/
structure Linked (path copy : Path) (s t : Volume) : Prop where
  linked : ∃ d, (grows copy.dropLast).rel s { s with disk := d } ∧ ∃ i, d.node path = some (.file i) ∧
    d.node copy = none ∧ t.disk = d.link path copy

theorem preserve_effect (path copy : Path) (s : Volume) :
    (∃ m t, preserve path copy s = .error m t ∧ ((grows copy.dropLast).rel s t ∨ Linked path copy s t)) ∨
      ∃ t, preserve path copy s = .ok () t ∧ Linked path copy s t := by
  rw [preserve]
  have hmkdir := grows_mkdir copy.dropLast s
  cases hdirs : mkdir copy.dropLast s with
  | error m t =>
    rw [hdirs] at hmkdir
    rw [bind_of_error hdirs]
    exact .inl ⟨m, t, rfl, .inl hmkdir⟩
  | ok u t =>
    rw [hdirs] at hmkdir
    rw [bind_of_ok hdirs]
    have hgrown : ∀ v : Volume, v.disk = t.disk → (grows copy.dropLast).rel s v := fun v hv =>
      (grows copy.dropLast).trans hmkdir (grows_disk hv)
    rcases Replica.attempt_cases unavailable t with ⟨faults, hcall⟩ | ⟨faults, hcall⟩
    swap
    · rw [bind_of_error hcall]
      exact .inl ⟨_, _, rfl, .inl (hgrown _ rfl)⟩
    rw [bind_of_ok hcall, bind_of_ok (get_apply _)]
    by_cases hwalk : t.disk.walk path.dropLast ≠ .directory
    · rw [if_pos hwalk]
      exact .inl ⟨_, _, rfl, .inl (hgrown _ rfl)⟩
    rw [if_neg hwalk]
    dsimp only
    cases hnode : t.disk.node path with
    | none => exact .inl ⟨_, _, rfl, .inl (hgrown _ rfl)⟩
    | some n =>
      cases n with
      | directory i => exact .inl ⟨_, _, rfl, .inl (hgrown _ rfl)⟩
      | special => exact .inl ⟨_, _, rfl, .inl (hgrown _ rfl)⟩
      | file i =>
        rcases Replica.attempt_cases (text "preserve_failed") { t with faults } with ⟨faults', hcall'⟩ | ⟨faults', hcall'⟩
        swap
        · dsimp only
          rw [bind_of_error hcall']
          exact .inl ⟨_, _, rfl, .inl (hgrown _ rfl)⟩
        dsimp only
        rw [bind_of_ok hcall']
        split
        · exact .inl ⟨_, _, rfl, .inl (hgrown _ rfl)⟩
        next hfree =>
          have hlinked : ∀ v : Volume, v.disk = t.disk.link path copy → Linked path copy s v := fun v hv =>
            ⟨t.disk, hmkdir, i, hnode, Option.not_isSome_iff_eq_none.mp hfree, hv⟩
          rcases Replica.attempt_cases (text "flush_failed") { t with disk := t.disk.link path copy, faults := faults' }
            with ⟨faults'', hflush⟩ | ⟨faults'', hflush⟩
          · exact .inr ⟨_, hflush, hlinked _ rfl⟩
          · exact .inl ⟨_, _, hflush, .inr (hlinked _ rfl)⟩

/-! ## Keeping every file -/

variable [StoreLayout]

/-- Where the private names are in order they stay so, and no public file is lost. -/
def lasting : Frame Volume where
  rel s t := Guarded s → Guarded t ∧ s.disk.Retains Public Refuge t.disk
  refl s h := ⟨h, .refl s.disk⟩
  trans h k hs := ⟨(k (h hs).1).1, (h hs).2.trans (k (h hs).1).2⟩

theorem lasting_disk {s t : Volume} (hdisk : t.disk = s.disk) (huuids : s.uuids ≤ t.uuids) : lasting.rel s t := by
  intro h
  rw [hdisk]
  exact ⟨⟨hdisk ▸ h.single, fun k hk => hdisk ▸ h.unused k (hk.mono huuids)⟩, .refl s.disk⟩

theorem lasting_attempt (error : Text) : Keeps lasting (attempt error) := fun s =>
  lasting_disk (attempt_effect error s).1 (attempt_effect error s).2.ge

theorem lasting_look {α : Type} (error : Text) (f : Disk → Except Text α) : Keeps lasting (look error f) := fun s =>
  lasting_disk (look_disk error f s).1 (look_disk error f s).2.ge

theorem lasting_draw : Keeps lasting draw := fun _ => lasting_disk rfl (Nat.le_succ _)

/-- A path below which directories may be made. -/
def Open (p : Path) : Prop := ∀ n k, k <+: p → ¬Reserved n k

omit [StoreLayout] in
theorem Ordinary.open_ {p : Path} (h : Ordinary p) : Open p := fun _ _ hk => (h.front hk).not_reserved

theorem lasting_grows {p : Path} (hp : Open p) {s t : Volume} (hgrows : (grows p).rel s t) (huuids : t.uuids = s.uuids) :
    lasting.rel s t := by
  intro h
  have hnames : ∀ k i, t.disk.node k = some (.file i) → s.disk.node k = some (.file i) := by
    intro k i hk
    have hcontent := hgrows.2.1 k
    rw [Disk.content, hk] at hcontent
    cases hold : s.disk.node k with
    | none =>
      rw [Disk.content, hold] at hcontent
      cases hcontent
    | some n =>
      rw [hgrows.1 k n hold] at hk
      exact hk
  refine ⟨⟨h.single.of_names hnames, fun k hk => ?_⟩, .of_content fun _ hb => (hgrows.2.1 _).trans hb⟩
  rw [huuids] at hk
  rw [hgrows.2.2 k fun hprefix => hp _ k hprefix hk]
  exact h.unused k hk

theorem lasting_mkdir {p : Path} (hp : Open p) : Keeps lasting (mkdir p) := fun s =>
  lasting_grows hp (grows_mkdir p s) (drawn_mkdir p s)

/-! ### Appending -/

omit [StoreLayout] in
theorem opened_single {d : Disk} (h : d.Single Staging) (path : Path) : (opened d path).Single Staging := by
  rw [opened]
  split
  · exact h.create
  · exact h

omit [StoreLayout] in
theorem opened_others (d : Disk) {path q : Path} (hq : q ≠ path) :
    (opened d path).node q = d.node q ∧ (opened d path).content q = d.content q := by
  rw [opened]
  split
  · exact ⟨by rw [Disk.node_create, if_neg hq], by rw [Disk.content_create, if_neg hq]⟩
  · exact ⟨rfl, rfl⟩

omit [StoreLayout] in
/-- Only the file at the path has changed, and only if it had no other name. -/
theorem append_others {path : Path} (offset : Nat) (bytes : Bytes) {s : Volume} (h : s.disk.Single Staging)
    (hpath : Staging path ∨ s.disk.node path = none) {q : Path} (hq : q ≠ path) :
    (final (append path offset bytes s)).disk.node q = s.disk.node q ∧
      (final (append path offset bytes s)).disk.content q = s.disk.content q := by
  rcases append_effect path offset bytes s with hsame | ⟨i, more, hi, hwrote⟩
  · rw [hsame]
    exact ⟨rfl, rfl⟩
  · obtain ⟨hnode, hcontent⟩ := opened_others s.disk hq
    refine ⟨(hwrote.nodes q).trans hnode, ?_⟩
    rw [hwrote.content, if_neg, hcontent]
    intro hqi
    rcases hpath with hstaging | hfree
    · exact hq (opened_single h path path q i hstaging hi hqi)
    · rw [opened, if_pos hfree, Disk.node_create, if_pos rfl] at hi
      cases hi
      rw [hnode] at hqi
      exact Nat.lt_irrefl _ (s.disk.bound q _ _ hqi rfl)

theorem lasting_append (path : Path) (offset : Nat) (bytes : Bytes) {s : Volume}
    (hpath : Staging path ∨ s.disk.node path = none) (hfree : ¬Reserved s.uuids path) :
    lasting.rel s (final (append path offset bytes s)) := by
  intro h
  have hothers := fun q hq => append_others offset bytes h.single hpath (q := q) hq
  refine ⟨⟨?_, fun k hk => ?_⟩, .of_content fun {q b} hkept hb => ?_⟩
  · rcases append_effect path offset bytes s with hsame | ⟨i, more, hi, hwrote⟩
    · exact hsame ▸ h.single
    · exact (opened_single h.single path).of_names fun k i hk => (hwrote.nodes k).symm.trans hk
  · rw [drawn_append path offset bytes s] at hk
    have hne : k ≠ path := by
      rintro rfl
      exact hfree hk
    rw [(hothers k hne).1]
    exact h.unused k hk
  · by_cases hq : q = path
    · subst hq
      rcases hpath with hstaging | hnone
      · rcases hkept with hrefuge | hpublic
        · exact absurd hrefuge hstaging.not_refuge
        · exact absurd hstaging.head hpublic.1
      · rw [Disk.content, hnone] at hb
        cases hb
    · exact (hothers q hq).2.trans hb

/-! ### A second name -/

omit [StoreLayout] in
theorem Linked.others {path copy : Path} {s t : Volume} (h : Linked path copy s t) {q : Path}
    (hq : ¬q <+: copy) : t.disk.node q = s.disk.node q ∧ t.disk.content q = s.disk.content q := by
  obtain ⟨d, hgrows, i, hi, -, hlink⟩ := h.linked
  have hne : q ≠ copy := by
    rintro rfl
    exact hq List.prefix_rfl
  have hnot : ¬q <+: copy.dropLast := fun hpre => hq (hpre.trans (List.dropLast_prefix copy))
  refine ⟨?_, ?_⟩
  · rw [hlink, Disk.node_link hi, if_neg hne]
    exact hgrows.2.2 q hnot
  · rw [hlink, Disk.content_link hi, if_neg hne]
    exact hgrows.2.1 q

omit [StoreLayout] in
theorem Linked.copied {path copy : Path} {s t : Volume} (h : Linked path copy s t) :
    t.disk.content copy = s.disk.content path := by
  obtain ⟨d, hgrows, i, hi, -, hlink⟩ := h.linked
  rw [hlink, Disk.content_link hi, if_pos rfl]
  exact hgrows.2.1 path

theorem Linked.lasting {path copy : Path} (hcopy : Open copy) (hpath : ¬Staging path) (hstaging : ¬Staging copy)
    {s t : Volume} (h : Linked path copy s t) (huuids : t.uuids = s.uuids) : lasting.rel s t := by
  obtain ⟨d, hgrows, i, hi, hfree, hlink⟩ := h.linked
  have hopen : Open copy.dropLast := fun n k hk => hcopy n k (hk.trans (List.dropLast_prefix copy))
  refine ConfinedFiles.lasting.trans (lasting_grows hopen hgrows rfl) fun hd => ?_
  refine ⟨⟨hlink ▸ hd.single.link hi hpath hstaging, fun k hk => ?_⟩, .of_content fun {q b} _ hb => ?_⟩
  · rw [huuids] at hk
    have hne : k ≠ copy := by
      rintro rfl
      exact hcopy _ _ List.prefix_rfl hk
    rw [hlink, Disk.node_link hi, if_neg hne]
    exact hd.unused k hk
  · have hne : q ≠ copy := by
      rintro rfl
      rw [Disk.content, hfree] at hb
      cases hb
    rw [hlink, Disk.content_link hi, if_neg hne]
    exact hb

theorem lasting_preserve {path copy : Path} (hcopy : Open copy) (hpath : ¬Staging path) (hstaging : ¬Staging copy) :
    Keeps lasting (preserve path copy) := by
  intro s
  have huuids := drawn_preserve path copy s
  rcases preserve_effect path copy s with ⟨m, t, h, hgrows | hlinked⟩ | ⟨t, h, hlinked⟩
  · rw [h] at huuids ⊢
    exact lasting_grows (fun n k hk => hcopy n k (hk.trans (List.dropLast_prefix copy))) hgrows huuids
  · rw [h] at huuids ⊢
    exact hlinked.lasting hcopy hpath hstaging huuids
  · rw [h] at huuids ⊢
    exact hlinked.lasting hcopy hpath hstaging huuids

/-! ### Moving into the refuge -/

omit [StoreLayout] in
theorem refuge_recovery (n : Nat) : Refuge (recovery ++ [decimal n]) := .inl (List.prefix_append _ _)

omit [StoreLayout] in
theorem open_short {p : Path} (hhead : p.head? = some control) (hlength : p.length ≤ 2) : Open p := by
  rintro n k hk ⟨m, -, rfl | ⟨hpublic, hlast⟩ | hempty⟩
  · have hlong := hk.length_le.trans hlength
    simp [noteOf, recovery] at hlong
  · cases k with
    | nil => cases hlast
    | cons x k =>
      obtain ⟨rest, rfl⟩ := hk
      exact hpublic hhead
  · have hlong := (hempty.length_le.trans hk.length_le).trans hlength
    simp [emptied, detached] at hlong

omit [StoreLayout] in
theorem open_recovery (n : Nat) : Open (recovery ++ [decimal n]) := by
  intro m k hk
  rcases List.prefix_concat_iff.mp hk with rfl | hk
  · exact not_reserved_drawn
  · exact open_short rfl (Nat.le_refl _) m k hk

omit [StoreLayout] in
theorem not_front {p q : Path} (hp : p.head? ≠ some control) (hne : p ≠ []) (hq : q.head? = some control) : ¬p <+: q := by
  intro hprefix
  obtain ⟨x, hx⟩ := Option.ne_none_iff_exists'.mp (mt List.head?_eq_none_iff.mp hne)
  rw [head_of_front hprefix hx] at hq
  exact hp (hx.trans hq)

omit [StoreLayout] in
theorem note_not_front (n : Nat) : ¬noteOf n <+: recovery ++ [decimal n] := by
  intro hprefix
  have heq := hprefix.eq_of_length (by simp [noteOf])
  have hlength := congrArg List.length (List.singleton_inj.mp (List.append_cancel_left heq))
  simp [text] at hlength

/-- What stands at a path is in the refuge as well. -/
def Saved (path : Path) (s : Volume) : Prop := ∀ b, s.disk.content path = some b → ∃ q, Refuge q ∧ s.disk.content q = some b

omit [StoreLayout] in
theorem Saved.of_disk {path : Path} {s t : Volume} (h : Saved path s) (hdisk : t.disk = s.disk) : Saved path t := by
  rw [Saved, hdisk]
  exact h

/-- A public file that has been archived is in the refuge. -/
theorem archive_spec {path : Path} (hpath : path.head? ≠ some control) (hne : path ≠ []) {s : Volume} (h : Guarded s) :
    lasting.rel s (final (archive path s)) ∧ ∀ u t, archive path s = .ok u t →
Saved path t := by
  have hstaging : ¬Staging path := fun hs => hpath hs.head
  have hcopy : ¬Staging (recovery ++ [decimal s.uuids]) := fun hs => hs.not_refuge (refuge_recovery _)
  have hdrawn : lasting.rel s { s with uuids := s.uuids + 1 } := lasting_disk rfl (Nat.le_succ _)
  have hdraw : draw s = .ok (decimal s.uuids) { s with uuids := s.uuids + 1 } := rfl
  rw [archive, bind_of_ok hdraw]
  have hkept := lasting_preserve (open_recovery s.uuids) hstaging hcopy { s with uuids := s.uuids + 1 }
  have huuids := drawn_preserve path (recovery ++ [decimal s.uuids]) { s with uuids := s.uuids + 1 }
  rcases preserve_effect path (recovery ++ [decimal s.uuids]) { s with uuids := s.uuids + 1 } with
    ⟨m, t, hpreserve, -⟩ | ⟨t, hpreserve, hlinked⟩
  · rw [bind_of_error hpreserve]
    rw [hpreserve] at hkept
    exact ⟨lasting.trans hdrawn hkept, fun _ _ ht => by cases ht⟩
  rw [bind_of_ok hpreserve]
  rw [hpreserve] at hkept huuids
  have hkept := lasting.trans hdrawn hkept
  have huuids : t.uuids = s.uuids + 1 := huuids
  have hfree : t.disk.node (noteOf s.uuids) = none :=
    (hlinked.others (note_not_front _)).1.trans (h.unused _ ⟨s.uuids, Nat.le_refl _, .inl rfl⟩)
  have hnote := lasting_append (noteOf s.uuids) 0 (backupNote path (recovery ++ [decimal s.uuids]))
    (.inr hfree) (by rw [huuids]; exact not_reserved_note (Nat.lt_succ_self _))
  refine ⟨lasting.trans hkept hnote, fun u v hv => ?_⟩
  have hguarded : Guarded t := (hkept h).1
  have hothers := fun q hq => append_others 0 (backupNote path (recovery ++ [decimal s.uuids])) hguarded.single
    (.inr hfree) (q := q) hq
  rw [show append (noteOf s.uuids) 0 (backupNote path (recovery ++ [decimal s.uuids])) t = .ok u v from hv] at hothers
  have hpathNote : path ≠ noteOf s.uuids := fun heq => hpath (by rw [heq]; rfl)
  have hcopyNote : recovery ++ [decimal s.uuids] ≠ noteOf s.uuids := fun heq => note_not_front s.uuids (heq ▸ List.prefix_rfl)
  have hcontent : v.disk.content path = s.disk.content path :=
    (hothers _ hpathNote).2.trans (hlinked.others (not_front hpath hne rfl)).2
  have hcopied : v.disk.content (recovery ++ [decimal s.uuids]) = s.disk.content path :=
    (hothers _ hcopyNote).2.trans hlinked.copied
  exact fun b hb => ⟨_, refuge_recovery s.uuids, hcopied.trans (hcontent.symm.trans hb)⟩

theorem lasting_replace {source target : Path} (hsource : Staging source) (htarget : target.head? ≠ some control)
    {s : Volume} (hsaved : Saved target s) {i : Nat} (hi : s.disk.node source = some (.file i)) (hopen : Open target) :
    lasting.rel s { s with disk := s.disk.renameFile source target } := by
  intro h
  have hstaging : ¬Staging target := fun hs => htarget hs.head
  have hrefuge : ¬Refuge target := fun hr => htarget hr.head
  obtain ⟨hsingle, hcontent⟩ := h.single.renameFile hi hsource hstaging
  have hne : s.disk.node target ≠ some (.file i) := fun ht => hstaging (h.single source target i hsource hi ht ▸ hsource)
  refine ⟨⟨hsingle, fun k hk => ?_⟩, ?_⟩
  · have hk : Reserved s.uuids k := hk
    rw [Disk.node_renameFile hi hne, if_neg (by rintro rfl; exact hopen _ _ List.prefix_rfl hk)]
    split
    · rfl
    · exact h.unused k hk
  -- First the staged name goes, which is not kept, then the target changes, which is saved.
  refine ⟨fun {p b} hp hb => ?_, fun {p b} hp hb => ?_⟩
  · rw [hcontent, if_neg (by rintro rfl; exact hrefuge hp), if_neg (by rintro rfl; exact hsource.not_refuge hp)]
    exact hb
  · have hps : p ≠ source := by
      rintro rfl
      exact hp.1 hsource.head
    by_cases hpt : p = target
    · subst hpt
      obtain ⟨q, hq, hqb⟩ := hsaved b hb
      refine .inr ⟨q, hq, ?_⟩
      rw [hcontent, if_neg (by rintro rfl; exact hrefuge hq), if_neg (by rintro rfl; exact hsource.not_refuge hq)]
      exact hqb
    · refine .inl ?_
      rw [hcontent, if_neg hpt, if_neg hps]
      exact hb

theorem lasting_guarded {s t : Volume} (h : Guarded s → lasting.rel s t) : lasting.rel s t := fun hs => h hs hs

theorem lasting_install {source target : Path} (hsource : Staging source) (htarget : target.head? ≠ some control)
    (hne : target ≠ []) (hopen : Open target) : Keeps lasting (install source target) := by
  refine .bind (lasting_attempt _) fun _ => .bind (lasting_mkdir ?_) fun _ => .read fun s => ?_
  · exact fun n k hk => hopen n k (hk.trans (List.dropLast_prefix target))
  split
  · exact lasting.refl s
  extract_lets rest
  have hrest : ∀ u v, Saved target v → lasting.rel v (final (rest u v)) := by
    intro u v hsaved
    rcases Replica.attempt_cases (text "replace_failed") v with ⟨faults, hcall⟩ | ⟨faults, hcall⟩
    swap
    · rw [show rest u v = _ from bind_of_error hcall]
      exact lasting_disk rfl (Nat.le_refl _)
    rw [show rest u v = _ from bind_of_ok hcall, bind_of_ok (get_apply _)]
    dsimp only
    refine lasting.trans (t := { v with faults }) (lasting_disk rfl (Nat.le_refl _)) ?_
    cases hnode : v.disk.node source with
    | none => exact lasting.refl _
    | some n =>
      cases n with
      | directory i => exact lasting.refl _
      | special => exact lasting.refl _
      | file i => exact lasting.trans (lasting_replace hsource htarget (hsaved.of_disk rfl) hnode hopen) (lasting_attempt _ _)
  cases hnode : s.disk.node target with
  | none =>
    refine hrest () s fun b hb => ?_
    rw [Disk.content, hnode] at hb
    cases hb
  | some n =>
    cases n with
    | directory i => exact lasting.refl s
    | special => exact lasting.refl s
    | file i =>
      refine lasting_guarded fun h => ?_
      obtain ⟨hkept, hsaved⟩ := archive_spec htarget hne h
      exact Keeps.rel_bind hkept fun u t ht => hrest u t (hsaved u t ht)

/-! ### Removing -/

/-- One name goes, whose bytes the refuge has if they are to be kept. -/
theorem lasting_unlink {path : Path} (hrefuge : ¬Refuge path) {s t : Volume} (hdisk : t.disk = s.disk.unlink path)
    (huuids : t.uuids = s.uuids)
    (hsaved : ∀ b, Public path b → s.disk.content path = some b → ∃ q, Refuge q ∧ s.disk.content q = some b) :
    lasting.rel s t := by
  intro h
  rw [hdisk]
  refine ⟨⟨?_, fun k hk => ?_⟩, .of_saved (fun q hq => ?_) hrefuge (hsaved _)⟩
  · rw [hdisk]
    refine h.single.of_names fun k i hk => ?_
    rw [Disk.node_unlink] at hk
    split at hk
    · cases hk
    · exact hk
  · rw [hdisk, Disk.node_unlink]
    rw [huuids] at hk
    split
    · rfl
    · exact h.unused k hk
  · rw [Disk.content_unlink, if_neg hq]

/-- A path that is neither in the refuge nor above it, for itself and for the document beside it. -/
structure Clear (path : Path) : Prop where
  below : ∀ k, path <+: k → ¬Refuge k
  beside : ¬Refuge (presentationOf path)

omit [StoreLayout] in
theorem clear_public {path : Path} (hpath : path.head? ≠ some control) (hne : path ≠ []) : Clear path where
  below k hk hrefuge := not_front hpath hne hrefuge.head hk
  beside hrefuge := by
    cases path with
    | nil => exact hne rfl
    | cons x path =>
      cases path with
      | nil =>
        have hlength : 2 ≤ (presentationOf [x]).length := by
          rcases hrefuge with h | h
          · exact h.length_le
          · exact h.length_le
        simp [presentationOf] at hlength
      | cons y path => exact hpath hrefuge.head

omit [StoreLayout] in
theorem clear_staged {part : Path} (h : Replica.staged part) : Clear part := by
  obtain ⟨name, rfl⟩ := h
  refine ⟨fun k hk => ?_, ?_⟩
  · exact Staging.not_refuge ((List.prefix_append transfers _).trans hk)
  · rw [presentationOf, List.dropLast_concat]
    exact Staging.not_refuge (List.prefix_append transfers _)

theorem lasting_removeOwnedPresentation {path : Path} (hpath : Clear path) (error : Text) :
    Keeps lasting (removeOwnedPresentation path error) := by
  refine .bind (lasting_attempt _) fun _ => .read fun s => ?_
  cases hcontent : s.disk.content (presentationOf path) with
  | none => exact lasting.refl s
  | some bytes =>
    dsimp only
    split
    next howned =>
      refine lasting_unlink hpath.beside rfl rfl fun b hb hbytes => ?_
      rw [hcontent] at hbytes
      cases hbytes
      exact absurd ⟨howned, path, rfl⟩ hb.2
    next => exact lasting.refl s

omit [StoreLayout] in
theorem refuge_emptied {n : Nat} {k : Path} (h : emptied n <+: k) : Refuge k :=
  .inr ((List.prefix_append detached _).trans h)

omit [StoreLayout] in
theorem emptied_injective {n m : Nat} {k : Path} (hn : emptied n <+: k) (hm : emptied m <+: k) : n = m := by
  have heq := (List.prefix_of_prefix_length_le hn hm (by simp [emptied])).eq_of_length (by simp [emptied])
  exact decimal_injective (List.append_cancel_left (List.singleton_inj.mp (List.append_cancel_left heq)))

/-- A directory goes below the refuge, where no name has been. -/
theorem lasting_detached {path : Path} {n : Nat} (hpath : ∀ k, path <+: k → ¬Refuge k) {s t : Volume}
    (hn : n < s.uuids) (hfree : ∀ k, emptied n <+: k → s.disk.node k = none)
    (hdisk : t.disk = s.disk.renameDirectory path (emptied n)) (huuids : t.uuids = s.uuids) : lasting.rel s t := by
  intro h
  have hrefuge : ∀ k, emptied n <+: k → Refuge k := fun k hk => refuge_emptied hk
  rw [hdisk]
  refine ⟨⟨?_, fun k hk => ?_⟩, .renameDirectory hpath hrefuge hfree⟩
  · rw [hdisk]
    exact h.single.renameDirectory fun k hk hstaging => hstaging.not_refuge (hrefuge k hk)
  · rw [huuids] at hk
    rw [hdisk, Disk.node_renameDirectory, h.unused k hk, ite_self, Option.or_none]
    split
    next hbelow =>
      obtain ⟨rest, rfl⟩ := hbelow
      rw [List.drop_left]
      refine h.unused _ ?_
      obtain ⟨m, hm, hnote | ⟨hpublic, -⟩ | hempty⟩ := hk
      · have hsecond := second_of_front ((List.prefix_append detached _).trans (List.prefix_append (emptied n) rest))
        rw [hnote] at hsecond
        exact absurd hsecond recovery_ne_detached
      · exact absurd rfl hpublic
      · have hsame := emptied_injective (List.prefix_append (emptied n) rest) hempty
        omega
    next => rfl

theorem lasting_detach {path : Path} {n : Nat} (hpath : ∀ k, path <+: k → ¬Refuge k) {s : Volume} (hn : n < s.uuids)
    (hfree : ∀ k, emptied n <+: k → s.disk.node k = none) {i : Nat} (hi : s.disk.node path = some (.directory i)) :
    lasting.rel s (final (detach path (emptied n) s)) := by
  have hparent : (emptied n).dropLast = detached := List.dropLast_concat
  have hmkdir := lasting_mkdir (p := detached) (open_short rfl (Nat.le_refl _)) s
  have hgrows := grows_mkdir detached s
  have huuids := drawn_mkdir detached s
  rw [detach, hparent]
  cases hdirs : mkdir detached s with
  | error m t =>
    rw [bind_of_error hdirs]
    rw [hdirs] at hmkdir
    exact hmkdir
  | ok u t =>
    rw [bind_of_ok hdirs]
    rw [hdirs] at hmkdir
    rw [hdirs] at hgrows huuids
    replace hgrows : (grows detached).rel s t := hgrows
    replace huuids : t.uuids = s.uuids := huuids
    have hthere : t.disk.node path = some (.directory i) := hgrows.1 _ _ hi
    have hnothing : ∀ k, emptied n <+: k → t.disk.node k = none := by
      intro k hk
      rw [hgrows.2.2 k fun hprefix => ?_]
      · exact hfree k hk
      · have hlength := (hk.trans hprefix).length_le
        simp [emptied] at hlength
    refine lasting.trans (t := t) hmkdir (Keeps.rel_bind (lasting_attempt _ t) fun _ v hv => ?_)
    obtain ⟨hdisk, hdrawn⟩ := attempt_ok hv
    rw [bind_of_ok (get_apply v)]
    split
    · exact lasting.refl v
    rw [hdisk, hthere, hnothing _ List.prefix_rfl]
    refine Keeps.rel_bind (lasting_attempt _ v) fun _ x hx => ?_
    obtain ⟨hdisk', hdrawn'⟩ := attempt_ok hx
    refine Keeps.rel_bind (m := change _) ?_ fun _ y _ => lasting_attempt _ y
    refine lasting_detached hpath (n := n) ?_ (fun k hk => ?_) rfl rfl
    · rw [hdrawn', hdrawn, huuids]
      exact hn
    · rw [hdisk', hdisk]
      exact hnothing k hk

theorem lasting_removeDirectory {path : Path} (hclear : Clear path) {s : Volume} {i : Nat}
    (hnode : s.disk.node path = some (.directory i)) :
    lasting.rel s (final ((do
      if s.disk.children path = [leaseName] then
        attempt (text "directory_in_use")
        if idleLease s.disk (path ++ [leaseName]) then
          let name ← draw
          detach path (detached ++ [text "empty-" ++ name])
        else throw (text "directory_in_use")
      else if s.disk.children path ≠ [] then throw (text "delete_failed_or_directory_not_empty")
      else
        attempt (text "delete_failed_or_directory_not_empty")
        change fun d => d.unlink path
        attempt (text "flush_failed") : Effect Volume Unit) s)) := by
  split
  · refine Keeps.rel_bind (lasting_attempt _ s) fun _ t ht => ?_
    obtain ⟨hdisk, -⟩ := attempt_ok ht
    split
    · refine lasting_guarded fun h => Keeps.rel_bind (lasting_draw t) fun name v hv => ?_
      cases hv
      refine lasting_detach hclear.below (Nat.lt_succ_self _) (fun k hk => ?_) (hdisk ▸ hnode)
      exact h.unused k ⟨t.uuids, Nat.le_refl _, .inr (.inr hk)⟩
    · exact lasting.refl t
  split
  · exact lasting.refl s
  · refine Keeps.rel_bind (lasting_attempt _ s) fun _ t ht => ?_
    obtain ⟨hdisk, -⟩ := attempt_ok ht
    refine Keeps.rel_bind (m := change _) ?_ fun _ v _ => lasting_attempt _ v
    refine lasting_unlink (hclear.below path List.prefix_rfl) rfl rfl fun b _ hb => ?_
    rw [Disk.content, hdisk, hnode] at hb
    cases hb

theorem lasting_removeFile {path : Path} (hclear : Clear path) (hne : path ≠ []) :
    Keeps lasting (do
      if path.head? ≠ some control then archive path else pure ()
      attempt (text "delete_failed_or_directory_not_empty")
      change fun d => d.unlink path
      removeOwnedPresentation path (text "presentation_cleanup_failed")
      attempt (text "flush_failed")) := by
  intro s
  extract_lets rest
  have hrest : ∀ u v, (path.head? ≠ some control → Saved path v) → lasting.rel v (final (rest u v)) := by
    intro u v hsaved
    refine Keeps.rel_bind (lasting_attempt _ v) fun _ t ht => ?_
    obtain ⟨hdisk, -⟩ := attempt_ok ht
    refine Keeps.rel_bind (m := change _) ?_ fun _ x _ =>
      Keeps.bind (lasting_removeOwnedPresentation hclear _) (fun _ => lasting_attempt _) x
    exact lasting_unlink (hclear.below path List.prefix_rfl) rfl rfl fun b hb hbytes =>
      (hsaved hb.1).of_disk hdisk b hbytes
  split
  next hpublic =>
    refine lasting_guarded fun h => ?_
    obtain ⟨hkept, hsaved⟩ := archive_spec hpublic hne h
    exact Keeps.rel_bind hkept fun u t ht => hrest u t fun _ => hsaved u t ht
  next hprivate => exact hrest () s fun hpublic => absurd hpublic hprivate

/-- Removing saves a public file before its name goes; an idle directory moves into the refuge. -/
theorem lasting_remove {path : Path} (hclear : Clear path) (hne : path ≠ []) : Keeps lasting (remove path) := by
  refine .bind (lasting_attempt _) fun _ => .read fun s => ?_
  cases s.disk.walk path.dropLast with
  | missing => exact lasting.refl s
  | redirected => exact lasting.refl s
  | directory =>
    cases hnode : s.disk.node path with
    | none => exact lasting_removeOwnedPresentation hclear _ s
    | some n =>
      cases n with
      | special => exact lasting.refl s
      | directory i => exact lasting_removeDirectory hclear hnode
      | file i => exact lasting_removeFile hclear hne s

end ConfinedFiles

namespace Replica

open ConfinedFiles

/-! ## Every request -/

/-- A frame that every elementary step keeps is kept by every request, if manifests and receipts do not matter to it. -/
theorem Steady.handle [StoreLayout] {F : Frame World} (h : Steady F)
    (hmanifests : ∀ (w : World) manifests, F.rel w { w with manifests })
    (hreceipt : ∀ peer receipt, Keeps F (onDatabase (Database.statement fun db =>
      some { db with snapshots := db.snapshots.insert peer receipt }))) (peer : Text) (r : Request)
    (refreshIndex : Bool) : Keeps F (handle peer r refreshIndex) := by
  have hput : ∀ m, Keeps F (putManifest peer m) := fun m => .modify fun w => hmanifests w _
  have hdrop : Keeps F (dropManifest peer) := .modify fun w => hmanifests w _
  have happlied : ∀ path w, F.rel w (final (applied peer path w)) := by
    intro path w
    rw [applied, modify_apply, final_ok]
    split
    · exact hmanifests w _
    · exact F.refl w
  have hpage : Keeps F (manifestPage peer r) := by
    refine .bind h.ready fun _ => .bind .get fun w => .ite (fun _ => .throw _) fun _ => ?_
    split
    · exact .throw _
    · refine .bind ?_ fun _ => .bind .get fun v => ?_
      · exact .ite (fun _ => .bind .get fun v => .ite (fun _ => .throw _) fun _ => .ite (fun _ => .throw _) fun _ => hput _)
          fun _ => .pure _
      · split
        · exact .throw _
        · refine .ite (fun _ => .throw _) fun _ => ?_
          split
          · exact .bind hdrop fun _ => .throw _
          · split
            · exact .bind hdrop fun _ => .throw _
            · exact .bind (hput _) fun _ => .pure _
  have hcomplete : Keeps F (snapshotComplete peer r) := by
    refine .bind .get fun w => ?_
    extract_lets previous
    split
    · split
      · exact .pure _
      · exact .throw _
    · refine .ite (fun _ => .throw _) fun _ => ?_
      split
      · exact .pure _
      · exact .bind (.relabel (hreceipt _ _) _) fun _ => .pure _
  have htransfer : Keeps F (transferRequest peer r) := by
    refine .bind .get fun w => ?_
    split
    · exact .throw _
    extract_lets e
    refine .ite (fun _ => .throw _) fun hvalid => ?_
    have hcarrying := h.carrying (validRecord_iff.mp (not_not.mp hvalid)).path peer
    split
    · exact .throw _
    refine .bind (hcarrying.expect r e) fun _ => .ite (fun _ => ?_) fun _ => .ite (fun _ => ?_) fun _ => .ite (fun _ => ?_) fun _ => .throw _
    · exact (hcarrying.readChunk r e).keeps fun _ _ _ hread => hread.1
    · refine .bind ((hcarrying.begin_ _ r).keeps fun w outcome v hbegin => ?_) fun _ => .pure _
      obtain ⟨u, hu, rfl⟩ := hbegin
      split
      · exact F.trans hu (happlied _ u)
      · exact hu
    · exact .bind (hcarrying.chunk r) fun _ => .pure _
  refine .bind .get fun w => .ite (fun _ => .throw _) fun _ => .ite (fun _ => .throw _) fun _ => ?_
  refine .ite (fun _ => (h.driveRequest r).keeps fun _ _ _ hdrive => hdrive.1) fun _ => ?_
  refine .ite (fun _ => .bind (h.journalRequest r) fun _ => .pure _) fun _ => ?_
  refine .ite (fun _ => .bind (h.changesRequest r refreshIndex) fun _ => .pure _) fun _ => ?_
  refine .ite (fun _ => .bind hpage fun _ => .pure _) fun _ => .bind h.lock fun _ => ?_
  exact .ite (fun _ => .bind hcomplete fun _ => .pure _) fun _ => htransfer

variable [layout : StoreLayout]

def preserving : Frame World where
  rel w v := lasting.rel w.volume v.volume
  refl w := lasting.refl w.volume
  trans h k := lasting.trans h k

theorem preserving_onVolume {α : Type} {m : Effect Volume α} (h : Keeps lasting m) : Keeps preserving (onVolume m) :=
  .zoom fun w => h w.volume

theorem preserving_onDatabase {α : Type} (m : Effect Database α) : Keeps preserving (onDatabase m) :=
  .zoom fun w => lasting.refl w.volume

theorem preserving_at {α : Type} {m : Effect Volume α} {w : World} (h : lasting.rel w.volume (final (m w.volume))) :
    preserving.rel w (final (onVolume m w)) := by
  rw [onVolume, Effect.zoom]
  cases hm : m w.volume with
  | ok a t =>
    rw [hm] at h
    exact h
  | error e t =>
    rw [hm] at h
    exact h

theorem preserving_andThen {α : Type} {m : Effect World α} {cleanup : Effect World Unit} {error : Text} {w : World}
    (hm : preserving.rel w (final (m w))) (hc : Keeps preserving cleanup) :
    preserving.rel w (final (andThen (relabel error m) cleanup w)) := by
  rw [Effect.andThen, Effect.relabel]
  cases hw : m w with
  | ok a t =>
    rw [hw] at hm
    exact preserving.trans hm (hc t)
  | error e t =>
    rw [hw] at hm
    exact preserving.trans hm (hc t)

/-- A published file is staged under a name that nothing has had, so staging overwrites nothing. -/
theorem preserving_publish (hsections : OrdinarySections layout) {key : Text} (hkey : physical key ≠ []) (bytes : Bytes) :
    Keeps preserving (publish (physical key) bytes) := by
  have hordinary := ordinary_physical hsections key
  obtain ⟨s, tail, -, -, htail, hphysical, -⟩ := physical_cases hkey
  have hhead : ∀ x, ((physical key).dropLast ++ [x]).head? ≠ some control := by
    intro x
    have hsame : ((physical key).dropLast ++ [x]).head? = (physical key).head? := by
      rw [hphysical, List.dropLast_cons_of_ne_nil htail]
      rfl
    rw [hsame]
    exact hordinary.head
  have hne : ∀ x, (physical key).dropLast ++ [x] ≠ [] := fun x => by simp
  refine .bind (preserving_onVolume (lasting_attempt _)) fun _ w => ?_
  change lasting.rel w.volume _
  refine lasting_guarded fun h => ?_
  have hdraw : onVolume draw w =
      .ok (decimal w.volume.uuids) { w with volume := { w.volume with uuids := w.volume.uuids + 1 } } := rfl
  rw [bind_of_ok hdraw]
  refine preserving.trans (t := { w with volume := { w.volume with uuids := w.volume.uuids + 1 } })
    (lasting_draw w.volume) ?_
  have hstaging : ¬Staging ((physical key).dropLast ++ [stagedName w.volume.uuids]) := fun hs => hhead _ hs.head
  have hfree : w.volume.disk.node ((physical key).dropLast ++ [stagedName w.volume.uuids]) = none :=
    h.unused _ ⟨_, Nat.le_refl _, .inr (.inl ⟨hhead _, List.getLast?_concat⟩)⟩
  have hunreserved : ¬Reserved (w.volume.uuids + 1) ((physical key).dropLast ++ [stagedName w.volume.uuids]) := by
    rintro ⟨m, hm, hnote | ⟨-, hlast⟩ | hempty⟩
    · exact hhead _ (by rw [hnote]; rfl)
    · rw [List.getLast?_concat] at hlast
      have hsame := decimal_injective (List.append_cancel_left (Option.some.inj hlast))
      omega
    · exact hhead _ (refuge_emptied hempty).head
  have hremove := preserving_onVolume (lasting_remove (clear_public (hhead (stagedName w.volume.uuids)) (hne _)) (hne _))
  refine preserving_andThen (w := { w with volume := { w.volume with uuids := w.volume.uuids + 1 } }) ?_ hremove
  refine Keeps.rel_bind (F := preserving) ?_ fun _ t _ =>
    preserving_onVolume (lasting_preserve hordinary.open_ hstaging hordinary.not_staging) t
  exact preserving_at (w := { w with volume := { w.volume with uuids := w.volume.uuids + 1 } })
    (lasting_append _ 0 bytes (.inr hfree) hunreserved)

theorem steady_preserving (hsections : OrdinarySections layout) : Steady preserving where
  attempt := fun _ => preserving_onVolume (lasting_attempt _)
  look := fun _ _ => preserving_onVolume (lasting_look _ _)
  append := by
    rintro part ⟨name, rfl⟩ offset bytes
    have hstaging : Staging (transfers ++ [name]) := List.prefix_append _ _
    refine preserving_onVolume fun s => lasting_append _ offset bytes (.inl hstaging) ?_
    rintro ⟨m, -, h | h | h⟩
    · exact hstaging.not_refuge (h ▸ .inl (List.prefix_append _ _))
    · exact h.1 rfl
    · exact hstaging.not_refuge (refuge_emptied h)
  discard := by
    rintro part ⟨name, rfl⟩
    exact preserving_onVolume (lasting_remove (clear_staged ⟨name, rfl⟩) (by simp))
  mkdir := fun key => preserving_onVolume (lasting_mkdir (ordinary_physical hsections key).open_)
  remove := fun {key} hkey =>
    preserving_onVolume (lasting_remove (clear_public (ordinary_physical hsections key).head hkey) hkey)
  preserve := fun key copy => preserving_onVolume (lasting_preserve (ordinary_physical hsections copy).open_
    (ordinary_physical hsections key).not_staging (ordinary_physical hsections copy).not_staging)
  install := by
    rintro part key ⟨name, rfl⟩ hkey
    have hordinary := ordinary_physical hsections key
    exact preserving_onVolume (lasting_install (List.prefix_append _ _) hordinary.head hkey hordinary.open_)
  count := fun _ => preserving_onDatabase _
  save := fun input stamp w => preserving_onDatabase (saveIn (journal w) (isMirror w) w.proposal w.proposalBase input stamp) w
  propose := fun _ _ => .modify fun w => lasting.refl w.volume
  draw := preserving_onVolume lasting_draw
  unlink := by
    rintro part ⟨name, rfl⟩
    refine preserving_onVolume (.modify fun s => lasting_unlink ?_ rfl rfl fun b hb _ => absurd rfl hb.1)
    exact Staging.not_refuge (List.prefix_append _ _)
  publish := fun hkey bytes => preserving_publish hsections hkey bytes
  savepoint := preserving_onDatabase _
  restore := fun _ _ h => h

/-! ## Runs -/

/-- What others may ask of a replica, and what it does by itself. -/
inductive Call where
  | request (peer : Text) (r : Request) (refreshIndex : Bool)
  | metadata (peer : Text) (e : Entry)
  | restore (path : Text) (fetched : Option Bytes)
  | scan

def Call.run : Call → World → World
  | .request peer r refreshIndex, w => final (handle peer r refreshIndex w)
  | .metadata peer e, w => final (acceptMetadata peer e w)
  | .restore path fetched, w => final (restoreObject path fetched w)
  | .scan, w => final (Replica.scan w)

/-- The life of a replica. A user edits any file but makes none of the private names, and system calls may start to fail. -/
inductive Lives : World → World → Prop
  | call (c : Call) (w : World) : Lives w (c.run w)
  | edit (w : World) (d : Disk) (h : Guarded { w.volume with disk := d }) :
    Lives w { w with volume := { w.volume with disk := d } }
  | other (w v : World) (hdisk : v.volume.disk = w.volume.disk) (huuids : v.volume.uuids = w.volume.uuids) : Lives w v

theorem preserving_call (hsections : OrdinarySections layout) (c : Call) (w : World) : preserving.rel w (c.run w) := by
  have h := steady_preserving hsections
  cases c with
  | request peer r refreshIndex =>
    exact h.handle (fun w _ => lasting.refl w.volume) (fun _ _ => preserving_onDatabase _) peer r refreshIndex w
  | metadata peer e => exact h.acceptMetadata peer e w
  | restore path fetched => exact h.restoreObject path fetched w
  | scan => exact h.scan w

theorem preserving_calls (hsections : OrdinarySections layout) (calls : List Call) (w : World) :
    preserving.rel w (calls.foldl (fun w c => c.run w) w) := by
  induction calls generalizing w with
  | nil => exact preserving.refl w
  | cons c calls ih => exact preserving.trans (preserving_call hsections c w) (ih _)

theorem guarded_lives (hsections : OrdinarySections layout) {first w : World} (hlife : Relation.ReflTransGen Lives first w)
    (h : Guarded first.volume) : Guarded w.volume := by
  induction hlife with
  | refl => exact h
  | tail _ hstep ih =>
    cases hstep with
    | call c => exact (preserving_call hsections c _ ih).1
    | edit _ d hd => exact hd
    | other _ v hdisk huuids => exact ⟨hdisk ▸ ih.single, fun k hk => hdisk ▸ ih.unused k (huuids ▸ hk)⟩

/-- Whatever a replica has lived through, the files that a user has then outlast every sequence of calls. -/
theorem files_survive (hsections : OrdinarySections layout) {first w : World} (h : Guarded first.volume)
    (hlife : Relation.ReflTransGen Lives first w) (calls : List Call) {p : Path} {bytes : Bytes} (hpublic : Public p bytes)
    (hthere : w.volume.disk.content p = some bytes) :
    (calls.foldl (fun w c => c.run w) w).volume.disk.content p = some bytes ∨
      ∃ q, Refuge q ∧ (calls.foldl (fun w c => c.run w) w).volume.disk.content q = some bytes :=
  (preserving_calls hsections calls w (guarded_lives hsections hlife h)).2.somewhere hpublic hthere

end Replica

namespace Replica

open ConfinedFiles

theorem ordinary_plainLayout : OrdinarySections plainLayout where
  keys := by decide
  names := by decide
  short := by decide
  component := by decide
  plain s hs c hc := by
    have hall : plainLayout.sections.all fun s => s.name.all fun c =>
      c ≠ '/' && c ≠ '\\' && c ≠ ':' && c ≠ '\x00' := by decide
    have hplain := List.all_eq_true.mp (List.all_eq_true.mp hall s hs) c hc
    simpa [and_assoc] using hplain

/-- A tree without private files and private names. -/
theorem guarded_of_public {v : Volume} (h : ∀ p ∈ v.disk.nodes.keys, p.length ≤ 2 ∧
    (p.head? ≠ some control → ∀ x ∈ p, ¬text ".society-" <+: x) ∧ (transfers <+: p → v.disk.content p = none)) :
    Guarded v where
  single p q i hp hi := by
    have hprivate := (h p ((Table.mem_keys_iff _ _).mpr ⟨_, hi⟩)).2.2 hp
    rw [Disk.content, hi] at hprivate
    cases hprivate
  unused k hk := by
    cases hnode : v.disk.node k with
    | none => rfl
    | some n =>
      obtain ⟨hlength, hparts, -⟩ := h k ((Table.mem_keys_iff _ _).mpr ⟨_, hnode⟩)
      obtain ⟨m, -, rfl | ⟨hpublic, hlast⟩ | hempty⟩ := hk
      · simp [noteOf, recovery] at hlength
      · exact absurd ⟨text "write-" ++ decimal m, rfl⟩ (hparts hpublic _ (List.mem_of_getLast? hlast))
      · have hlong := hempty.length_le.trans hlength
        simp [emptied, detached] at hlong

/-- A peer asks for the deletion of a file. -/
def deletion : Call := .request (text "tablet") (apply_ (absence "files/notes") .undefined (.named .undefined)) false

theorem files_survive_deletion :
    ([deletion].foldl (fun w c => @Call.run plainLayout c w) Site.unsavedNotes).volume.disk.content
        [text "Files", text "notes"] = some [] ∨
      ∃ q, Refuge q ∧ ([deletion].foldl (fun w c => @Call.run plainLayout c w) Site.unsavedNotes).volume.disk.content
        q = some [] := by
  have hguarded : Guarded Site.unsavedNotes.volume := guarded_of_public (by decide)
  have hpublic : @Public plainLayout [text "Files", text "notes"] [] := ⟨by decide, fun hderived => by cases hderived.1⟩
  have hthere : Site.unsavedNotes.volume.disk.content [text "Files", text "notes"] = some [] := by decide
  exact @files_survive plainLayout ordinary_plainLayout _ _ hguarded .refl [deletion] _ _ hpublic hthere

end Replica

end SocietyHelper.Sync
