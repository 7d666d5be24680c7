import SocietyHelper.Monitoring.Publisher

/-! # Revisions of the monitor

A snapshot's revision grows with what it publishes. Its list of changed sections
belongs to its revision as long as no later snapshot of the same revision drops
it: a poll that finds nothing new clears the list.
-/

namespace SocietyHelper.Monitoring

open Library

/-- What the written snapshots say, the latest of which comes first. -/
structure Faithful (log : List State) : Prop where
  first : ∀ later s, log = later ++ [s] → s.revision = 1
  step : ∀ later s p earlier, log = later ++ s :: p :: earlier → s.revision = p.revision +
    if s.instanceId ≠ p.instanceId ∨ s.sections ≠ p.sections ∨ s.available ≠ p.available ∨ s.error ≠ p.error then 1 else 0
  changed : ∀ s ∈ log, ∀ p ∈ log, p.instanceId = s.instanceId → p.revision + 1 = s.revision →
    s.changedSections = differing s.sections p.sections
  whole : ∀ s ∈ log, (∀ p ∈ log, p.instanceId = s.instanceId → s.revision ≤ p.revision) →
    s.changedSections = areas.map Prod.fst

/-- What the snapshot file holds can be read, and agrees with the others. -/
structure Legible (instances : Nat) (log : List State) : Prop where
  sections : ∀ s ∈ log, s.sections.map Section.key = areas.map Prod.fst
  drawn : ∀ s ∈ log, 0 < s.instanceId ∧ s.instanceId ≤ instances
  ascending : log.Pairwise fun s p => p.revision ≤ s.revision ∧ p.instanceId ≤ s.instanceId
  same : ∀ s ∈ log, ∀ p ∈ log, p.instanceId = s.instanceId → p.revision = s.revision → p.sections = s.sections

/-! ## Sections -/

theorem hash_key (s : Section) (value : Text) : (hash s value).key = s.key := rfl

theorem add_key (relativePath : Text) (size : Nat) (lastModified : Int) (permissions : Nat) (kind : Kind)
    (childrenLoaded : Bool) (s : Section) :
    (Entry.add relativePath size lastModified permissions kind childrenLoaded s).key = s.key := by
  cases kind <;> rfl

mutual

theorem summarize_key : ∀ (entry : Entry) (s : Section), (summarize entry s).1.key = s.key
  | .node relativePath size lastModified permissions kind childrenLoaded children, s => by
    rw [summarize]
    exact (summarizeAll_key children _).trans (add_key ..)

theorem summarizeAll_key : ∀ (children : List Entry) (s : Section), (summarizeAll children s).1.key = s.key
  | [], _ => by rw [summarizeAll]
  | child :: children, s => by
    rw [summarizeAll]
    exact (summarizeAll_key children _).trans (summarize_key child s)

end

theorem blank_key (c : Container) (area : Text × Text) : (c.blank area).key = area.1 := by
  rw [Container.blank]
  exact hash_key { key := area.1, fingerprint := basis } (decimal c.catalogFingerprint.toNat)

theorem visit_sections (options : Options) (c : Container) (survey : Survey) (area : Text × Text) :
    ∃ s, s.key = area.1 ∧ (survey.visit options c area).sections = survey.sections ++ [s] := by
  rw [Survey.visit]
  dsimp only
  split
  · cases c.snapshot area.2 options.maxDepth survey.remaining with
    | some tree => exact ⟨_, (summarize_key tree _).trans (blank_key c area), rfl⟩
    | none => exact ⟨{ c.blank area with complete := false }, blank_key c area, rfl⟩
  · exact ⟨{ c.blank area with complete := false }, blank_key c area, rfl⟩

theorem survey_keys (options : Options) (c : Container) : (c.survey options).sections.map Section.key = areas.map Prod.fst := by
  have hfold : ∀ (rows : List (Text × Text)) (survey : Survey),
      (rows.foldl (Survey.visit options c) survey).sections.map Section.key =
        survey.sections.map Section.key ++ rows.map Prod.fst := by
    intro rows
    induction rows with
    | nil => simp
    | cons area rows ih =>
      intro survey
      obtain ⟨s, hkey, hvisit⟩ := visit_sections options c survey area
      rw [List.foldl_cons, ih, hvisit]
      simp [hkey]
  exact hfold areas _

/-- Two lists of sections with the same keys in the same order differ in some section unless they are equal. -/
theorem differing_eq_nil_iff {sections earlier : List Section} (h : sections.map Section.key = earlier.map Section.key)
    (hnodup : (sections.map Section.key).Nodup) : differing sections earlier = [] ↔ sections = earlier := by
  have hfind : ∀ l : List Section, (l.map Section.key).Nodup → ∀ s ∈ l, l.find? (·.key = s.key) = some s := by
    intro l hl s hs
    have hsome : (l.find? (·.key = s.key)).isSome := List.find?_isSome.mpr ⟨s, hs, by simp⟩
    obtain ⟨q, hq⟩ := Option.isSome_iff_exists.mp hsome
    have hkey : q.key = s.key := by simpa using List.find?_some hq
    rw [hq, List.inj_on_of_nodup_map hl (List.mem_of_find?_eq_some hq) hs hkey]
  constructor
  · intro hnone
    have hall : ∀ s ∈ sections, s ∈ earlier := by
      intro s hs
      simp only [differing, List.map_eq_nil_iff, List.filter_eq_nil_iff, decide_eq_true_eq, not_not] at hnone
      exact List.mem_of_find?_eq_some (hnone s hs)
    apply List.ext_getElem
    · simpa using congrArg List.length h
    · intro n hn hn'
      have hkey : sections[n].key = earlier[n].key := by
        have hget := congrArg (fun l : List Text => l[n]?) h
        simpa [hn, hn'] using hget
      exact List.inj_on_of_nodup_map (h ▸ hnodup) (hall _ (List.getElem_mem hn)) (List.getElem_mem hn') hkey
  · rintro rfl
    simp only [differing, List.map_eq_nil_iff, List.filter_eq_nil_iff, decide_eq_true_eq, not_not]
    exact hfind sections hnodup

theorem differing_nil (sections : List Section) : differing sections [] = sections.map Section.key := by
  simp [differing]

/-! ## One more snapshot -/

/-- How a snapshot may follow those written before it. -/
inductive Follows (s : State) : List State → Prop where
  | first (log : List State) (hnew : ∀ p ∈ log, p.instanceId < s.instanceId)
      (hrevision : s.revision = (log.head?.elim 0 State.revision) + 1)
      (hchanged : s.changedSections = areas.map Prod.fst) : Follows s log
  | again (p : State) (earlier : List State) (hinstance : p.instanceId = s.instanceId) (hrevision : s.revision = p.revision)
      (hsame : s.sections = p.sections ∧ s.available = p.available ∧ s.error = p.error)
      (hchanged : s.changedSections = p.changedSections) : Follows s (p :: earlier)
  | next (p : State) (earlier : List State) (hinstance : p.instanceId = s.instanceId) (hrevision : s.revision = p.revision + 1)
      (hother : s.sections ≠ p.sections ∨ s.available ≠ p.available ∨ s.error ≠ p.error)
      (hchanged : s.changedSections = differing s.sections p.sections) : Follows s (p :: earlier)

section

variable {instances : Nat} {s : State} {log : List State}

theorem Legible.mono (h : Legible instances log) {more : Nat} (hle : instances ≤ more) : Legible more log where
  sections := h.sections
  drawn p hp := ⟨(h.drawn p hp).1, Nat.le_trans (h.drawn p hp).2 hle⟩
  ascending := h.ascending
  same := h.same

theorem Legible.head {p : State} {earlier : List State} (h : Legible instances (p :: earlier)) :
    ∀ q ∈ p :: earlier, q.revision ≤ p.revision ∧ q.instanceId ≤ p.instanceId := by
  intro q hq
  cases List.mem_cons.mp hq with
  | inl heq => exact heq ▸ ⟨Nat.le_refl _, Nat.le_refl _⟩
  | inr hmem => exact (List.pairwise_cons.mp h.ascending).1 q hmem

/-- No snapshot before has a greater revision, and one of the same instance and revision publishes the same. -/
theorem Follows.bounds (h : Follows s log) (hlegible : Legible instances log) : ∀ p ∈ log,
    (p.revision ≤ s.revision ∧ p.instanceId ≤ s.instanceId) ∧
      (p.instanceId = s.instanceId → p.revision = s.revision → p.sections = s.sections) := by
  cases h with
  | first _ hnew hrevision hchanged =>
    intro p hp
    have hinstance := hnew p hp
    refine ⟨⟨?_, Nat.le_of_lt hinstance⟩, fun heq => by omega⟩
    cases log with
    | nil => cases hp
    | cons q earlier =>
      have hle := (hlegible.head p hp).1
      simp only [List.head?_cons, Option.elim_some] at hrevision
      omega
  | again q earlier hinstance hrevision hsame hchanged =>
    intro p hp
    have hle := hlegible.head p hp
    refine ⟨⟨by omega, by omega⟩, fun hi hr => ?_⟩
    rw [hsame.1]
    exact hlegible.same q List.mem_cons_self p hp (hi.trans hinstance.symm) (hr.trans hrevision)
  | next q earlier hinstance hrevision hother hchanged =>
    intro p hp
    have hle := hlegible.head p hp
    exact ⟨⟨by omega, by omega⟩, fun hi hr => by omega⟩

theorem Legible.cons (h : Legible instances log) (hfollows : Follows s log)
    (hkeys : s.sections.map Section.key = areas.map Prod.fst) (hdrawn : 0 < s.instanceId ∧ s.instanceId ≤ instances) :
    Legible instances (s :: log) where
  sections p hp := by
    cases List.mem_cons.mp hp with
    | inl heq => exact heq ▸ hkeys
    | inr hmem => exact h.sections p hmem
  drawn p hp := by
    cases List.mem_cons.mp hp with
    | inl heq => exact heq ▸ hdrawn
    | inr hmem => exact h.drawn p hmem
  ascending := List.pairwise_cons.mpr ⟨fun p hp => (hfollows.bounds h p hp).1, h.ascending⟩
  same a ha b hb hi hr := by
    cases List.mem_cons.mp ha with
    | inl heqa =>
      cases List.mem_cons.mp hb with
      | inl heqb => rw [heqa, heqb]
      | inr hmemb => exact heqa ▸ (hfollows.bounds h b hmemb).2 (heqa ▸ hi) (heqa ▸ hr)
    | inr hmema =>
      cases List.mem_cons.mp hb with
      | inl heqb => exact heqb ▸ ((hfollows.bounds h a hmema).2 (heqb ▸ hi.symm) (heqb ▸ hr.symm)).symm
      | inr hmemb => exact h.same a hmema b hmemb hi hr

theorem Faithful.cons (h : Faithful log) (hlegible : Legible instances log) (hfollows : Follows s log) :
    Faithful (s :: log) where
  first later q hlog := by
    cases later with
    | nil =>
      obtain ⟨rfl, rfl⟩ := List.cons.inj hlog
      cases hfollows with
      | first _ hnew hrevision hchanged => exact hrevision
    | cons r later => exact h.first later q (List.cons.inj hlog).2
  step later q p earlier hlog := by
    cases later with
    | nil =>
      obtain ⟨rfl, rfl⟩ := List.cons.inj hlog
      cases hfollows with
      | first _ hnew hrevision hchanged =>
        have hlt := hnew p List.mem_cons_self
        rw [if_pos (Or.inl (Nat.ne_of_gt hlt))]
        exact hrevision
      | again _ _ hinstance hrevision hsame hchanged =>
        rw [if_neg (by simp [hinstance, hsame])]
        exact hrevision
      | next _ _ hinstance hrevision hother hchanged =>
        rw [if_pos (Or.inr hother)]
        exact hrevision
    | cons r later => exact h.step later q p earlier (List.cons.inj hlog).2
  changed a ha b hb hi hr := by
    cases List.mem_cons.mp ha with
    | inl heqa =>
      subst heqa
      cases List.mem_cons.mp hb with
      | inl heqb =>
        subst heqb
        omega
      | inr hmemb =>
        cases hfollows with
        | first _ hnew hrevision hchanged =>
          have hlt := hnew b hmemb
          omega
        | again p earlier hinstance hrevision hsame hchanged =>
          rw [hchanged, hsame.1]
          exact h.changed p List.mem_cons_self b hmemb (hi.trans hinstance.symm) (hr.trans hrevision)
        | next p earlier hinstance hrevision hother hchanged =>
          rw [hchanged, hlegible.same p List.mem_cons_self b hmemb (hi.trans hinstance.symm) (by omega)]
    | inr hmema =>
      cases List.mem_cons.mp hb with
      | inl heqb =>
        have hle := (hfollows.bounds hlegible a hmema).1.1
        rw [heqb] at hr
        omega
      | inr hmemb => exact h.changed a hmema b hmemb hi hr
  whole a ha hleast := by
    cases List.mem_cons.mp ha with
    | inl heqa =>
      subst heqa
      cases hfollows with
      | first _ hnew hrevision hchanged => exact hchanged
      | again p earlier hinstance hrevision hsame hchanged =>
        rw [hchanged]
        apply h.whole p List.mem_cons_self
        intro q hq hi
        exact hrevision ▸ hleast q (List.mem_cons_of_mem _ hq) (hi.trans hinstance)
      | next p earlier hinstance hrevision hother hchanged =>
        have hle := hleast p (List.mem_cons_of_mem _ List.mem_cons_self) hinstance
        omega
    | inr hmema => exact h.whole a hmema fun q hq => hleast q (List.mem_cons_of_mem _ hq)

end

/-! ## Runs -/

/-- Whether a poll finds what is published already. -/
def unchanged (p : Publisher) (c : Container) : Bool :=
  !p.initial && p.current.available && (c.survey p.options).sections = p.current.sections &&
    (c.survey p.options).error = p.current.error

/-- Whether a step leaves the list of changed sections with its revision: no poll without news is published after
a list that is not empty, and no stop before the first snapshot of an instance. -/
def keeps (s : System) : Action → Bool
  | .poll c => !(s.publisher.running && c.intact && c.intactAfter && c.written && unchanged s.publisher c) ||
      s.publisher.current.changedSections = []
  | .stop intact written _ => !(s.publisher.running && intact && written && s.publisher.initial)
  | _ => true

structure Guarded (s : System) : Prop where
  faithful : Faithful s.log
  legible : Legible s.instances s.log
  file : s.file = s.log.head?
  polled : s.publisher.running → ¬s.publisher.initial → s.log.head? = some s.publisher.current
  begun : s.publisher.running → s.publisher.initial → s.publisher.current.sections = [] ∧
    s.publisher.current.revision = s.log.head?.elim 0 State.revision ∧
    (∀ p ∈ s.log, p.instanceId < s.publisher.current.instanceId) ∧
    0 < s.publisher.current.instanceId ∧ s.publisher.current.instanceId ≤ s.instances

theorem areas_nodup : (areas.map Prod.fst).Nodup := by decide

theorem Legible.read_head {instances : Nat} {log : List State} (h : Legible instances log) :
    Monitoring.read log.head? = log.head? := by
  cases log with
  | nil => rfl
  | cons p earlier =>
    have hkeys := h.sections p List.mem_cons_self
    have hdrawn := (h.drawn p List.mem_cons_self).1
    simp [Monitoring.read, Option.filter_some, hkeys, Nat.ne_of_gt hdrawn]

namespace Guarded

variable {s : System} (h : Guarded s)

include h

theorem idle {p : Publisher} (hp : p.running = false) : Guarded { s with publisher := p } where
  faithful := h.faithful
  legible := h.legible
  file := h.file
  polled hrunning := by simp [hp] at hrunning
  begun hrunning := by simp [hp] at hrunning

theorem start (options : Options) (prepared intact : Bool) : Guarded (s.start options prepared intact) := by
  rw [System.start]
  split
  · exact h
  · rename_i hidle
    have hrunning : s.publisher.running = false := by simpa using (not_or.mp hidle).1
    have hmore : Guarded { s with instances := s.instances + 1 } :=
      ⟨h.faithful, h.legible.mono (Nat.le_succ _), h.file, h.polled, by simp [hrunning]⟩
    dsimp only
    split
    · exact hmore.idle hrunning
    · refine ⟨h.faithful, h.legible.mono (Nat.le_succ _), h.file, by simp, fun _ _ => ?_⟩
      dsimp only
      rw [h.file, h.legible.read_head]
      have hnew : ∀ p ∈ s.log, p.instanceId < s.instances + 1 :=
        fun p hp => Nat.lt_succ_of_le (h.legible.drawn p hp).2
      cases hlog : s.log.head? with
      | none => exact ⟨rfl, rfl, hnew, Nat.succ_pos _, Nat.le_refl _⟩
      | some p => exact ⟨rfl, rfl, hnew, Nat.succ_pos _, Nat.le_refl _⟩

theorem write {state : State} (hfollows : Follows state s.log)
    (hkeys : state.sections.map Section.key = areas.map Prod.fst)
    (hdrawn : 0 < state.instanceId ∧ state.instanceId ≤ s.instances) {p : Publisher}
    (hp : p.running → p.initial = false ∧ p.current = state) : Guarded { s.write state with publisher := p } where
  faithful := h.faithful.cons h.legible hfollows
  legible := h.legible.cons hfollows hkeys hdrawn
  file := rfl
  polled hrunning _ := congrArg some (hp hrunning).2.symm
  begun hrunning hinitial := by simp [(hp hrunning).1] at hinitial

theorem follows_next (c : Container) (hrunning : s.publisher.running)
    (hkeeps : unchanged s.publisher c → s.publisher.current.changedSections = []) :
    Follows (System.next s.publisher c) s.log := by
  cases hinitial : s.publisher.initial with
  | true =>
    obtain ⟨hsections, hrevision, hnew, -⟩ := h.begun hrunning hinitial
    apply Follows.first
    · exact hnew
    · simp [System.next, hinitial, hrevision]
    · simp only [System.next, hsections, differing_nil]
      exact survey_keys s.publisher.options c
  | false =>
    have hhead := h.polled hrunning (by simp [hinitial])
    obtain ⟨earlier, hlog⟩ := List.head?_eq_some_iff.mp hhead
    have hcurrent := h.legible.sections s.publisher.current (by rw [hlog]; exact List.mem_cons_self)
    have hkeys := (survey_keys s.publisher.options c).trans hcurrent.symm
    have hdiffering := differing_eq_nil_iff hkeys ((survey_keys s.publisher.options c) ▸ areas_nodup)
    rw [hlog]
    by_cases hsame : unchanged s.publisher c
    · simp only [unchanged, hinitial, Bool.not_false, Bool.true_and, Bool.and_eq_true, decide_eq_true_eq] at hsame
      obtain ⟨⟨havailable, hsections⟩, herror⟩ := hsame
      have hnone := hdiffering.mpr hsections
      apply Follows.again
      · rfl
      · simp [System.next, hinitial, hnone, havailable, herror]
      · exact ⟨hsections, havailable.symm, herror⟩
      · rw [hkeeps (by simp [unchanged, hinitial, havailable, hsections, herror])]
        exact hnone
    · have hother : (c.survey s.publisher.options).sections ≠ s.publisher.current.sections ∨
          true ≠ s.publisher.current.available ∨ (c.survey s.publisher.options).error ≠ s.publisher.current.error := by
        by_contra hnot
        simp only [not_or, ne_eq, not_not] at hnot
        exact hsame (by simp [unchanged, hinitial, hnot.1, ← hnot.2.1, hnot.2.2])
      apply Follows.next
      · rfl
      · have hchanged : differing (c.survey s.publisher.options).sections s.publisher.current.sections ≠ [] ∨
            s.publisher.current.available ≠ true ∨ (c.survey s.publisher.options).error ≠ s.publisher.current.error := by
          cases hother with
          | inl hsections => exact Or.inl fun hnone => hsections (hdiffering.mp hnone)
          | inr hrest => exact Or.inr (hrest.imp Ne.symm id)
        rw [System.next, hinitial]
        dsimp only
        rw [if_pos]
        simpa only [Bool.false_or, Bool.or_eq_true, decide_eq_true_eq, or_assoc] using hchanged
      · exact hother
      · rfl

theorem poll (c : Container) (hkeeps : keeps s (.poll c)) : Guarded (s.poll c) := by
  rw [System.poll]
  split
  · exact h
  · rename_i hrunning
    rw [Bool.not_eq_true, Bool.not_eq_false] at hrunning
    split
    · exact h.idle rfl
    · rename_i hintact
      split
      · exact h.idle rfl
      · rename_i hafter
        split
        · exact h
        · rename_i hwritten
          simp only [Bool.not_eq_true, Bool.not_eq_false] at hintact hafter hwritten
          have hfollows := h.follows_next c hrunning (by
            intro hsame
            simpa [keeps, hrunning, hintact, hafter, hwritten, hsame] using hkeeps)
          apply h.write hfollows (survey_keys s.publisher.options c)
          · cases hinitial : s.publisher.initial with
            | true => exact (h.begun hrunning hinitial).2.2.2
            | false =>
              obtain ⟨earlier, hlog⟩ := List.head?_eq_some_iff.mp (h.polled hrunning (by simp [hinitial]))
              exact h.legible.drawn s.publisher.current (by rw [hlog]; exact List.mem_cons_self)
          · exact fun _ => ⟨rfl, rfl⟩

theorem stop (intact written : Bool) (now : ℕ+) (hkeeps : keeps s (.stop intact written now)) :
    Guarded (s.stop intact written now) := by
  rw [System.stop]
  split
  · exact h
  · rename_i hrunning
    rw [Bool.not_eq_true, Bool.not_eq_false] at hrunning
    dsimp only
    split
    · rename_i hwrites
      rw [Bool.and_eq_true] at hwrites
      have hinitial : s.publisher.initial = false := by simpa [keeps, hrunning, hwrites] using hkeeps
      have hhead := h.polled hrunning (by simp [hinitial])
      obtain ⟨earlier, hlog⟩ := List.head?_eq_some_iff.mp hhead
      have hmem : s.publisher.current ∈ s.log := by rw [hlog]; exact List.mem_cons_self
      apply h.write
      · rw [hlog]
        exact Follows.again _ _ rfl rfl ⟨rfl, rfl, rfl⟩ rfl
      · exact h.legible.sections s.publisher.current hmem
      · exact h.legible.drawn s.publisher.current hmem
      · intro hp
        cases hp
    · exact h.idle rfl

theorem step (action : Action) (hkeeps : keeps s action) : Guarded (s.step action) := by
  cases action with
  | start options prepared intact => exact h.start options prepared intact
  | poll c => exact h.poll c hkeeps
  | stop intact written now => exact h.stop intact written now hkeeps
  | crash => exact h.idle rfl

end Guarded

/-- Every step of a run leaves the list of changed sections with its revision. -/
def keepsAll : System → List Action → Bool
  | _, [] => true
  | s, action :: actions => keeps s action && keepsAll (s.step action) actions

theorem Guarded.run {s : System} (h : Guarded s) {actions : List Action} (hkeeps : keepsAll s actions) :
    Guarded (s.run actions) := by
  induction actions generalizing s with
  | nil => exact h
  | cons action actions ih =>
    rw [keepsAll, Bool.and_eq_true] at hkeeps
    exact ih (h.step action hkeeps.1) hkeeps.2

theorem guarded_initial : Guarded {} where
  faithful := by
    constructor
    · intro later s hlog
      simp at hlog
    · intro later s p earlier hlog
      simp at hlog
    · intro s hs
      cases hs
    · intro s hs
      cases hs
  legible := by
    constructor
    · intro s hs
      cases hs
    · intro s hs
      cases hs
    · exact List.Pairwise.nil
    · intro s hs
      cases hs
  file := rfl
  polled hrunning := by cases hrunning
  begun hrunning := by cases hrunning

/-- The revisions never decrease, and each snapshot lists the sections that changed with its revision. -/
theorem revisions_faithful (actions : List Action) (hkeeps : keepsAll {} actions) :
    Faithful (System.run {} actions).log ∧ (System.run {} actions).log.Pairwise fun s p => p.revision ≤ s.revision := by
  have h := guarded_initial.run hkeeps
  exact ⟨h.faithful, h.legible.ascending.imp And.left⟩

section

/-- A container in which every area is an empty directory, but for one that may hold a file. -/
def Container.sample (files : List Entry) : Container where
  catalog := .error 2
  direct _ := true
  snapshot name _ _ := some (.node ['.'] 0 0 0 .directory true (if name = text "Photos" then files else []))
  now := ⟨1, Nat.one_pos⟩

def photo : Entry := .node (text "a.jpg") 5 0 0 .file true []

theorem revisions_faithful_poll :
    let actions := [.start {} true true, .poll (.sample []), .poll (.sample [photo]), .stop true true 1]
    Faithful (System.run {} actions).log ∧ (System.run {} actions).log.Pairwise fun s p => p.revision ≤ s.revision :=
  revisions_faithful [.start {} true true, .poll (.sample []), .poll (.sample [photo]), .stop true true 1] (by decide +kernel)

/-- A second poll without news clears the list of its revision; a stop before the first poll of an instance
leaves a snapshot that the next one cannot read, and the revisions begin again. -/
theorem revisions_unfaithful :
    ¬Faithful (System.run {} [.start {} true true, .poll (.sample []), .poll (.sample [])]).log ∧
    ¬(System.run {} [.start {} true true, .poll (.sample []), .poll (.sample [photo]), .stop true true 1,
      .start {} true true, .stop true true 1, .start {} true true, .poll (.sample [])]).log.Pairwise
        fun s p => p.revision ≤ s.revision := by
  constructor
  · intro hfaithful
    have hlatest : (System.run {} [.start {} true true, .poll (.sample []), .poll (.sample [])]).log.head?.map
        State.changedSections = some [] := by
      decide +kernel
    have hone : ∀ s ∈ (System.run {} [.start {} true true, .poll (.sample []), .poll (.sample [])]).log, s.revision = 1 := by
      decide +kernel
    obtain ⟨s, hs, hnone⟩ := Option.map_eq_some_iff.mp hlatest
    have hmem := List.mem_of_head? hs
    have hwhole := hfaithful.whole s hmem fun p hp _ => by rw [hone s hmem, hone p hp]
    rw [hnone] at hwhole
    exact absurd hwhole (by decide)
  · decide +kernel

end

end SocietyHelper.Monitoring
