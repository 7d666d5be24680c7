import SocietyHelper.Library.Disk

/-! # A plan of moves

A plan names entries of a tree and, for each, where it is to go. It is carried
out by single moves, possibly over many runs; other names may appear meanwhile,
and a few paths belong to the program that carries the plan out.
-/

namespace SocietyHelper.Library

namespace Disk

/-- The names of an entry: its own, and the names below it unless it is a file. -/
def belongs (d : Disk) (p k : Path) : Prop := k = [] ∨ ∀ i, d.node p ≠ some (.file i)

/-- What the first tree has at `p`, the second has at `q`. -/
def Rests (d e : Disk) (p q : Path) : Prop :=
  ∀ k n, d.belongs p k → d.node (p ++ k) = some n → e.node (q ++ k) = some n ∧ e.content (q ++ k) = d.content (p ++ k)

/-- The entry that was at `p` is there still, or it is at `q`. -/
def Held (origin d : Disk) (p q : Path) : Prop := Rests origin d p p ∨ Rests origin d p q

/-- Every name stays, apart from the program's own paths. -/
def Stays (own : Path → Prop) (d e : Disk) : Prop :=
  ∀ k n, ¬own k → d.node k = some n → e.node k = some n ∧ e.content k = d.content k

theorem Rests.refl (d : Disk) (p : Path) : Rests d d p p := fun _ _ _ h => ⟨h, rfl⟩

theorem Rests.node {d e : Disk} {p q : Path} (h : Rests d e p q) {n : Node} (hp : d.node p = some n) :
    e.node q = some n := by
  have hself := h [] n (Or.inl rfl) (by rwa [List.append_nil])
  simpa using hself.1

/-- An entry that is somewhere goes on from there. -/
theorem Rests.trans {d e f : Disk} {p q r : Path} (hde : Rests d e p q) (hef : Rests e f q r)
    (hp : (d.node p).isSome) : Rests d f p r := by
  intro k n hk hn
  obtain ⟨m, hm⟩ := Option.isSome_iff_exists.mp hp
  have hbelongs : e.belongs q k := by
    apply hk.imp id
    intro hfile i
    rw [hde.node hm, ← hm]
    exact hfile i
  have he := hde k n hk hn
  have hf := hef k n hbelongs he.1
  exact ⟨hf.1, hf.2.trans he.2⟩

theorem Stays.refl (own : Path → Prop) (d : Disk) : Stays own d d := fun _ _ _ h => ⟨h, rfl⟩

theorem Stays.trans {own : Path → Prop} {d e f : Disk} (hde : Stays own d e) (hef : Stays own e f) : Stays own d f := by
  intro k n hk hn
  have he := hde k n hk hn
  have hf := hef k n hk he.1
  exact ⟨hf.1, hf.2.trans he.2⟩

end Disk

namespace Moves

open Disk

variable {rows : List (Path × Path)} {own : Path → Prop}

/-- A path that the moves of a plan do not disturb once something is there. -/
structure Target (rows : List (Path × Path)) (own : Path → Prop) (q : Path) : Prop where
  sources : ∀ r ∈ rows, ∀ k, ¬r.1 <+: q ++ k
  targets : ∀ r ∈ rows, ∀ k, r.2 <+: q ++ k → r.2 = q
  own : ∀ k, ¬own (q ++ k)

/-- The sources of a plan are apart from each other and from its targets. -/
structure Apart (rows : List (Path × Path)) (own : Path → Prop) : Prop where
  target : ∀ r ∈ rows, Target rows own r.2
  sources : ∀ r ∈ rows, ∀ s ∈ rows, ∀ k, s.1 <+: r.1 ++ k → s = r
  targets : ∀ r ∈ rows, ∀ s ∈ rows, ∀ k, ¬s.2 <+: r.1 ++ k
  own : ∀ r ∈ rows, ∀ k, ¬own (r.1 ++ k)

/-- What carrying out a plan may do to a tree: entries whose targets are free may move there. -/
structure Carried (rows : List (Path × Path)) (own : Path → Prop) (d e : Disk) : Prop where
  stays : ∀ k n, ¬own k → (∀ r ∈ rows, d.node r.2 = none → ¬r.1 <+: k ∧ ¬r.2 <+: k) → d.node k = some n →
    e.node k = some n ∧ e.content k = d.content k
  moves : ∀ r ∈ rows, d.node r.2 = none → (d.node r.1).isSome → Rests d e r.1 r.1 ∨ Rests d e r.1 r.2

theorem Target.mono {own' : Path → Prop} (hown : ∀ k, own' k → own k) {q : Path} (h : Target rows own q) :
    Target rows own' q where
  sources := h.sources
  targets := h.targets
  own k hk := h.own k (hown _ hk)

/-- A program with fewer paths of its own leaves more alone. -/
theorem Apart.mono {own' : Path → Prop} (hown : ∀ k, own' k → own k) (h : Apart rows own) : Apart rows own' where
  target r hr := (h.target r hr).mono hown
  sources := h.sources
  targets := h.targets
  own r hr k hk := h.own r hr k (hown _ hk)

theorem Apart.nil (own : Path → Prop) : Apart [] own where
  target _ hr := absurd hr List.not_mem_nil
  sources _ hr := absurd hr List.not_mem_nil
  targets _ hr := absurd hr List.not_mem_nil
  own _ hr := absurd hr List.not_mem_nil

namespace Carried

theorem mono {own' : Path → Prop} (hown : ∀ k, own' k → own k) {d e : Disk} (h : Carried rows own' d e) :
    Carried rows own d e where
  stays k n hk := h.stays k n fun hown' => hk (hown k hown')
  moves := h.moves

theorem of_stays (h : Apart rows own) {d e : Disk} (hstays : Stays own d e) : Carried rows own d e where
  stays k n hk _ hn := hstays k n hk hn
  moves r hr _ _ := Or.inl fun k n _ hn => hstays _ n (h.own r hr k) hn

theorem refl (h : Apart rows own) (d : Disk) : Carried rows own d d := of_stays h (Stays.refl own d)

/-- What is at a target stays there. -/
theorem rests_target {d e : Disk} (hde : Carried rows own d e) {q : Path} (hq : Target rows own q)
    (hsome : (d.node q).isSome) : Rests d e q q := by
  intro k n _ hn
  apply hde.stays _ n (hq.own k) _ hn
  intro r hr hfree
  constructor
  · exact hq.sources r hr k
  · intro hstarts
    rw [hq.targets r hr k hstarts] at hfree
    simp [hfree] at hsome

/-- An entry whose target is occupied stays where it is. -/
theorem rests_source (h : Apart rows own) {d e : Disk} (hde : Carried rows own d e) {r : Path × Path} (hr : r ∈ rows)
    (hsome : (d.node r.2).isSome) : Rests d e r.1 r.1 := by
  intro k n _ hn
  apply hde.stays _ n (h.own r hr k) _ hn
  intro s hs hfree
  constructor
  · intro hstarts
    rw [h.sources r hr s hs k hstarts] at hfree
    simp [hfree] at hsome
  · exact h.targets r hr s hs k

theorem occupied {d e : Disk} (hde : Carried rows own d e) {q : Path} (hq : Target rows own q)
    (hsome : (d.node q).isSome) : (e.node q).isSome := by
  obtain ⟨n, hn⟩ := Option.isSome_iff_exists.mp hsome
  simp [(hde.rests_target hq hsome).node hn]

theorem trans (h : Apart rows own) {d e f : Disk} (hde : Carried rows own d e) (hef : Carried rows own e f) :
    Carried rows own d f where
  stays k n hk hfree hn := by
    have he := hde.stays k n hk hfree hn
    have hlater : ∀ r ∈ rows, e.node r.2 = none → ¬r.1 <+: k ∧ ¬r.2 <+: k := by
      intro r hr hnone
      apply hfree r hr
      by_contra hsome
      have hoccupied := hde.occupied (h.target r hr) (Option.isSome_iff_ne_none.mpr hsome)
      simp [hnone] at hoccupied
    have hf := hef.stays k n hk hlater he.1
    exact ⟨hf.1, hf.2.trans he.2⟩
  moves r hr hnone hsource := by
    obtain ⟨m, hm⟩ := Option.isSome_iff_exists.mp hsource
    cases hde.moves r hr hnone hsource with
    | inl hstill =>
      have hthere : (e.node r.1).isSome := by simp [hstill.node hm]
      by_cases hfree : e.node r.2 = none
      · exact (hef.moves r hr hfree hthere).imp (hstill.trans · hsource) (hstill.trans · hsource)
      · left
        exact hstill.trans (hef.rests_source h hr (Option.isSome_iff_ne_none.mpr hfree)) hsource
    | inr hmoved =>
      right
      exact hmoved.trans (hef.rests_target (h.target r hr) (by simp [hmoved.node hm])) hsource

/-- An entry that reached a target is there after every later step. -/
theorem delivered {d e origin : Disk} (hde : Carried rows own d e) {p q : Path} (hq : Target rows own q)
    (horigin : (origin.node p).isSome) (hrests : Rests origin d p q) : Rests origin e p q := by
  obtain ⟨m, hm⟩ := Option.isSome_iff_exists.mp horigin
  exact hrests.trans (hde.rests_target hq (by simp [hrests.node hm])) horigin

/-- A planned entry is at its path or at its target after every step. -/
theorem held (h : Apart rows own) {d e origin : Disk} (hde : Carried rows own d e) {r : Path × Path} (hr : r ∈ rows)
    (horigin : (origin.node r.1).isSome) (hheld : Held origin d r.1 r.2) : Held origin e r.1 r.2 := by
  obtain ⟨m, hm⟩ := Option.isSome_iff_exists.mp horigin
  cases hheld with
  | inl hstill =>
    by_cases hfree : d.node r.2 = none
    · have hthere : (d.node r.1).isSome := by simp [hstill.node hm]
      exact (hde.moves r hr hfree hthere).imp (hstill.trans · horigin) (hstill.trans · horigin)
    · left
      exact hstill.trans (hde.rests_source h hr (Option.isSome_iff_ne_none.mpr hfree)) horigin
  | inr hmoved =>
    right
    exact hde.delivered (h.target r hr) horigin hmoved

end Carried

/-! ## Single moves -/

section

variable {d e : Disk} {p q : Path}

/-- A move that takes the names of one entry to a free place and leaves all others. -/
theorem carried_of_move (h : Apart rows own) (hr : (p, q) ∈ rows) (hfree : d.node q = none)
    (hmoved : Rests d e p q) (hothers : ∀ k, ¬p <+: k → ¬q <+: k → e.node k = d.node k ∧ e.content k = d.content k) :
    Carried rows own d e where
  stays k n _ hpending hn := by
    obtain ⟨hp, hq⟩ := hpending _ hr hfree
    obtain ⟨hnode, hcontent⟩ := hothers k hp hq
    exact ⟨hnode.trans hn, hcontent⟩
  moves s hs hnone hsource := by
    by_cases hsame : s = (p, q)
    · right
      rwa [hsame]
    · left
      intro k n _ hn
      have hp : ¬p <+: s.1 ++ k := fun hstarts => hsame (h.sources s hs _ hr k hstarts).symm
      obtain ⟨hnode, hcontent⟩ := hothers _ hp (h.targets s hs _ hr k)
      exact ⟨hnode.trans hn, hcontent⟩

theorem carried_renameFile (h : Apart rows own) (hr : (p, q) ∈ rows) {i : Nat} (hp : d.node p = some (.file i))
    (hfree : d.node q = none) :
    Carried rows own d (d.renameFile p q) ∧ Rests d (d.renameFile p q) p q := by
  have hq : d.node q ≠ some (.file i) := by simp [hfree]
  have hmoved : Rests d (d.renameFile p q) p q := by
    intro k n hk hn
    cases hk with
    | inl hnil =>
      subst hnil
      simp only [List.append_nil] at hn ⊢
      rw [node_renameFile hp hq, content_renameFile hp hq, if_pos rfl, if_pos rfl, ← hn, hp]
      exact ⟨rfl, rfl⟩
    | inr hfile => exact absurd hp (hfile i)
  refine ⟨carried_of_move h hr hfree hmoved fun k hpk hqk => ?_, hmoved⟩
  have hkp : k ≠ p := fun heq => hpk (heq ▸ List.prefix_refl k)
  have hkq : k ≠ q := fun heq => hqk (heq ▸ List.prefix_refl k)
  rw [node_renameFile hp hq, content_renameFile hp hq]
  simp [hkp, hkq]

theorem carried_renameDirectory (h : Apart rows own) (hr : (p, q) ∈ rows) (hfree : d.node q = none) :
    Carried rows own d (d.renameDirectory p q) ∧ Rests d (d.renameDirectory p q) p q := by
  have hmoved : Rests d (d.renameDirectory p q) p q := by
    intro k n _ hn
    have hnode : (d.renameDirectory p q).node (q ++ k) = d.node (p ++ k) := by
      rw [node_renameDirectory, if_pos (List.prefix_append q k), List.drop_left, hn]
      rfl
    refine ⟨hnode.trans hn, ?_⟩
    rw [content, hnode, reads_renameDirectory, content]
  refine ⟨carried_of_move h hr hfree hmoved fun k hpk hqk => ?_, hmoved⟩
  have hnode : (d.renameDirectory p q).node k = d.node k := by
    rw [node_renameDirectory, if_neg hqk, if_neg hpk]
    rfl
  refine ⟨hnode, ?_⟩
  rw [content, hnode, reads_renameDirectory, content]

end

end Moves

/-! ## Changes that move nothing -/

namespace Disk

variable {own : Path → Prop}

theorem stays_makeDirectory {d : Disk} {p : Path} (h : d.node p = none) : Stays own d (d.makeDirectory p) := by
  intro k n _ hn
  have hk : k ≠ p := by
    rintro rfl
    simp [h] at hn
  simp [hk, hn]

theorem stays_link {d : Disk} {p q : Path} {i : Nat} (hp : d.node p = some (.file i)) (hq : d.node q = none) :
    Stays own d (d.link p q) := by
  intro k n _ hn
  have hk : k ≠ q := by
    rintro rfl
    simp [hq] at hn
  simp [node_link hp, content_link hp, hk, hn]

/-- A new file with its bytes, in the place of whatever file has the name. -/
def place (d : Disk) (p : Path) (bytes : Bytes) : Disk := (d.create p).write d.clock bytes

@[simp] theorem node_place (d : Disk) (p q : Path) (bytes : Bytes) :
    (d.place p bytes).node q = if q = p then some (.file d.clock) else d.node q := by
  rw [place, node_write, node_create]

theorem content_place (d : Disk) (p q : Path) (bytes : Bytes) :
    (d.place p bytes).content q = if q = p then some bytes else d.content q := by
  rw [place, content_write, node_create, content_create]
  by_cases hq : q = p
  · simp [hq]
  · have hfresh : d.node q ≠ some (.file d.clock) := fun hnode => Nat.lt_irrefl _ (d.bound q _ d.clock hnode rfl)
    simp [hq, hfresh]

theorem stays_place {d : Disk} {p : Path} (bytes : Bytes) (h : d.node p = none ∨ own p) :
    Stays own d (d.place p bytes) := by
  intro k n hk hn
  have hne : k ≠ p := by
    rintro rfl
    cases h with
    | inl hnone => simp [hnone] at hn
    | inr hown => exact hk hown
  simp [content_place, hne, hn]

end Disk

end SocietyHelper.Library
