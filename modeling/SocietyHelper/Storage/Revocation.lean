import SocietyHelper.Storage.GroupSession

/-! # Revocation is final

Tokens are drawn in order, and a record is sealed for the generation of its
request. As long as no migration writes a marker over a committed one, the
marker of a key never goes back to an older generation, so what was stored
before a removal cannot be read after it.
-/

namespace SocietyHelper.Storage

open Library

/-- Every removal up to the generation `g` was committed before the data was handed in. -/
def Since (log : List Event) (key : Text) (g : Option Nat) (data : Bytes) : Prop :=
  ∀ later token earlier n, log = later ++ .revoked key token :: earlier → g = some n → token ≤ n →
    ∃ i, .issued i key data ∈ later

/-- No read answers with data that was handed in before a removal that was committed by then. -/
def Final (log : List Event) : Prop :=
  ∀ later i key data between token earlier,
    log = later ++ .finished i .read key (.done data) :: (between ++ .revoked key token :: earlier) →
    ∃ j, .issued j key data ∈ between

/-- Generations that have been drawn so far. -/
def Drawn (bound : Nat) (g : Option Nat) : Prop := ∀ n, g = some n → n < bound

/-- What is known of a request wherever it is. -/
structure Request.Sound (log : List Event) (bound : Nat) (r : Request) : Prop where
  drawn : Drawn bound r.generation
  issued : r.operation = .write → Since log r.key r.generation r.data

/-- What is known of a request to read that may renew its generation. -/
structure Request.Reads (log : List Event) (bound : Nat) (r : Request) : Prop extends r.Sound log bound where
  read : r.operation = .read

/-- What is known of an answer to a request. -/
def Answers (log : List Event) (r : Request) (outcome : Outcome) : Prop :=
  r.operation = .read → ∀ data, outcome = .done data → Since log r.key r.generation data

def Purpose.Sound (log : List Event) (r : Request) : Purpose → Prop
  | .store => r.operation = .write
  | .adopt => r.generation = some 0
  | .open_ box => Since log r.key r.generation box.data

/-- What is stored was handed in by a write, or imported before any removal. -/
def Stores (r : Request) (migrating : Bool) : Prop :=
  if migrating then r.generation = some 0 else r.operation = .write

def Phase.Sound (log : List Event) (bound : Nat) : Phase → Prop
  | .idle => True
  | .locking r => r.Sound log bound
  | .probing r _ => r.Reads log bound
  | .migrating r _ => r.Reads log bound
  | .copyingMarker r => r.Reads log bound
  | .copyingRecord r => r.Reads log bound
  | .renewing r => r.Reads log bound
  | .reading r => r.Reads log bound
  | .fetching r => r.Sound log bound ∧ r.generation = some 0
  | .keying r purpose => r.Sound log bound ∧ purpose.Sound log r
  | .storing r _ imported => r.Sound log bound ∧ Stores r imported
  | .saving r _ imported => r.Sound log bound ∧ Stores r imported
  | .forgetting r outcome => r.Sound log bound ∧ Answers log r outcome
  | .finishing r outcome => r.Sound log bound ∧ Answers log r outcome
  | .completing r outcome => r.Sound log bound ∧ Answers log r outcome

structure GroupSessionStore.Sound (log : List Event) (bound : Nat) (store : GroupSessionStore) : Prop where
  observed : ∀ key g, store.observed key = some g → Drawn bound g
  pending : ∀ r ∈ store.pending, r.Sound log bound
  removal : ∀ removal, store.removal = some removal → removal.token < bound
  phase : store.phase.Sound log bound

structure Record.Sound (log : List Event) (bound : Nat) (key : Text) (record : Record) : Prop where
  drawn : ∀ g box, record = .sealed g box → g < bound
  data : ∀ g box, record = .sealed g box → Since log key (some g) box.data

/-- The invariant of a run in which the first token drawn is `first`. -/
structure Guarded (first : Nat) (s : System) : Prop where
  base : 0 < first ∧ first ≤ s.next
  tokens : ∀ key token, .revoked key token ∈ s.log → first ≤ token ∧ token < s.next
  marker : ∀ key, Drawn s.next (s.generation key)
  latest : ∀ key token, .revoked key token ∈ s.log → ∃ m, s.marker key = .token m ∧ token ≤ m
  records : ∀ key record, s.record key = some record → record.Sound s.log s.next key
  stores : ∀ i, (s.stores i).Sound s.log s.next
  final : Final s.log

/-! ## The history grows -/

theorem Since.of_old {log : List Event} {key : Text} {n : Nat} {data : Bytes}
    (h : ∀ token, .revoked key token ∈ log → n < token) : Since log key (some n) data := by
  intro later token earlier m hlog hm htoken
  have hlt := h token (by rw [hlog]; simp)
  cases hm
  omega

theorem Since.cons {log : List Event} {key : Text} {g : Option Nat} {data : Bytes} {event : Event}
    (h : Since log key g data) (hevent : ∀ token, event = .revoked key token → ∀ n, g = some n → n < token) :
    Since (event :: log) key g data := by
  intro later token earlier n hlog hn htoken
  cases later with
  | nil =>
    obtain ⟨hhead, -⟩ := List.cons.inj hlog
    have hlt := hevent token hhead n hn
    omega
  | cons e later =>
    obtain ⟨-, hrest⟩ := List.cons.inj hlog
    obtain ⟨i, hi⟩ := h later token earlier n hrest hn htoken
    exact ⟨i, List.mem_cons_of_mem _ hi⟩

theorem Since.issued (log : List Event) (i : Nat) (key : Text) (g : Option Nat) (data : Bytes) :
    Since (.issued i key data :: log) key g data := by
  intro later token earlier n hlog _ _
  cases later with
  | nil => cases hlog
  | cons e later =>
    obtain ⟨rfl, -⟩ := List.cons.inj hlog
    exact ⟨i, List.mem_cons_self⟩

/-- An event that no drawn generation is as late as. -/
def Harmless (bound : Nat) (event : Event) : Prop := ∀ key token, event = .revoked key token → bound ≤ token

section

variable {log : List Event} {bound bound' : Nat} {event : Event}

theorem Drawn.mono {g : Option Nat} (hle : bound ≤ bound') (h : Drawn bound g) : Drawn bound' g :=
  fun n hn => Nat.lt_of_lt_of_le (h n hn) hle

theorem Since.grow {key : Text} {g : Option Nat} {data : Bytes} (hevent : Harmless bound event) (hg : Drawn bound g)
    (h : Since log key g data) : Since (event :: log) key g data :=
  h.cons fun token htoken n hn => Nat.lt_of_lt_of_le (hg n hn) (hevent key token htoken)

theorem Request.Sound.grow {r : Request} (hevent : Harmless bound event) (hle : bound ≤ bound') (h : r.Sound log bound) :
    r.Sound (event :: log) bound' where
  drawn := h.drawn.mono hle
  issued hwrite := (h.issued hwrite).grow hevent h.drawn

theorem Request.Reads.grow {r : Request} (hevent : Harmless bound event) (hle : bound ≤ bound') (h : r.Reads log bound) :
    r.Reads (event :: log) bound' where
  toSound := h.toSound.grow hevent hle
  read := h.read

theorem Answers.grow {r : Request} {outcome : Outcome} (hevent : Harmless bound event) (hr : r.Sound log bound)
    (h : Answers log r outcome) : Answers (event :: log) r outcome :=
  fun hread data hdata => (h hread data hdata).grow hevent hr.drawn

theorem Purpose.Sound.grow {r : Request} {purpose : Purpose} (hevent : Harmless bound event) (hr : r.Sound log bound)
    (h : purpose.Sound log r) : purpose.Sound (event :: log) r := by
  cases purpose with
  | store => exact h
  | adopt => exact h
  | open_ box => exact Since.grow hevent hr.drawn h

theorem Phase.Sound.grow {phase : Phase} (hevent : Harmless bound event) (hle : bound ≤ bound')
    (h : phase.Sound log bound) : phase.Sound (event :: log) bound' := by
  cases phase with
  | idle => trivial
  | locking r => exact Request.Sound.grow hevent hle h
  | probing r left => exact Request.Reads.grow hevent hle h
  | migrating r left => exact Request.Reads.grow hevent hle h
  | copyingMarker r => exact Request.Reads.grow hevent hle h
  | copyingRecord r => exact Request.Reads.grow hevent hle h
  | renewing r => exact Request.Reads.grow hevent hle h
  | reading r => exact Request.Reads.grow hevent hle h
  | fetching r => exact ⟨h.1.grow hevent hle, h.2⟩
  | keying r purpose => exact ⟨h.1.grow hevent hle, h.2.grow hevent h.1⟩
  | storing r master migrating => exact ⟨h.1.grow hevent hle, h.2⟩
  | saving r master migrating => exact ⟨h.1.grow hevent hle, h.2⟩
  | forgetting r outcome => exact ⟨h.1.grow hevent hle, h.2.grow hevent h.1⟩
  | finishing r outcome => exact ⟨h.1.grow hevent hle, h.2.grow hevent h.1⟩
  | completing r outcome => exact ⟨h.1.grow hevent hle, h.2.grow hevent h.1⟩

theorem GroupSessionStore.Sound.grow {store : GroupSessionStore} (hevent : Harmless bound event) (hle : bound ≤ bound')
    (h : store.Sound log bound) : store.Sound (event :: log) bound' where
  observed key g hg := (h.observed key g hg).mono hle
  pending r hr := (h.pending r hr).grow hevent hle
  removal removal hremoval := Nat.lt_of_lt_of_le (h.removal removal hremoval) hle
  phase := h.phase.grow hevent hle

theorem Record.Sound.grow {key : Text} {record : Record} (hevent : Harmless bound event) (hle : bound ≤ bound')
    (h : record.Sound log bound key) : record.Sound (event :: log) bound' key where
  drawn g box hrecord := Nat.lt_of_lt_of_le (h.drawn g box hrecord) hle
  data g box hrecord := (h.data g box hrecord).grow hevent fun n hn => by
    cases hn
    exact h.drawn g box hrecord

theorem Final.cons {event : Event} (h : Final log)
    (hevent : ∀ i key data, event = .finished i .read key (.done data) →
      ∀ between token earlier, log = between ++ .revoked key token :: earlier → ∃ j, .issued j key data ∈ between) :
    Final (event :: log) := by
  intro later i key data between token earlier hlog
  cases later with
  | nil =>
    obtain ⟨hhead, hrest⟩ := List.cons.inj hlog
    exact hevent i key data hhead between token earlier hrest
  | cons e later =>
    obtain ⟨-, hrest⟩ := List.cons.inj hlog
    exact h later i key data between token earlier hrest

end

/-! ## The steps -/

namespace Guarded

variable {first : Nat} {s : System} (h : Guarded first s)

include h

theorem update {i : Nat} {f : GroupSessionStore → GroupSessionStore} (hf : (f (s.stores i)).Sound s.log s.next) :
    Guarded first (s.update i f) where
  base := h.base
  tokens := h.tokens
  marker := h.marker
  latest := h.latest
  records := h.records
  stores j := by
    rw [System.stores_update]
    split
    · exact hf
    · exact h.stores j
  final := h.final

theorem enter {i : Nat} {phase : Phase} (hphase : phase.Sound s.log s.next) : Guarded first (s.enter i phase) :=
  h.update ⟨(h.stores i).observed, (h.stores i).pending, (h.stores i).removal, hphase⟩

theorem enqueue {i : Nat} {r : Request} (hr : r.Sound s.log s.next) : Guarded first (s.enqueue i r) := by
  refine h.update ⟨(h.stores i).observed, ?_, (h.stores i).removal, (h.stores i).phase⟩
  intro q hq
  cases List.mem_append.mp hq with
  | inl hq => exact (h.stores i).pending q hq
  | inr hq => exact List.mem_singleton.mp hq ▸ hr

theorem observe (i : Nat) (key : Text) {g : Option Nat} (hg : Drawn s.next g) : Guarded first (s.observe i key g) := by
  refine h.update ⟨?_, (h.stores i).pending, (h.stores i).removal, (h.stores i).phase⟩
  intro other g' hother
  simp only [Function.update_apply] at hother
  split at hother
  · cases hother
    exact hg
  · exact (h.stores i).observed other g' hother

theorem bump (i : Nat) (key : Text) : Guarded first (s.bump i key) :=
  h.update ⟨(h.stores i).observed, (h.stores i).pending, (h.stores i).removal, (h.stores i).phase⟩

theorem setLock (lock : Option Nat) : Guarded first { s with lock } :=
  ⟨h.base, h.tokens, h.marker, h.latest, h.records, h.stores, h.final⟩

theorem saveRecord {key : Text} {record : Record} (hrecord : record.Sound s.log s.next key) :
    Guarded first (s.saveRecord key record) where
  base := h.base
  tokens := h.tokens
  marker := h.marker
  latest := h.latest
  records other record' hother := by
    rw [System.record_saveRecord] at hother
    split at hother
    · rename_i hkey
      cases hother
      exact hkey ▸ hrecord
    · exact h.records other record' hother
  stores := h.stores
  final := h.final

/-- A marker that is copied to where no marker is. -/
theorem saveMarker {key : Text} {t : Nat} (habsent : s.marker key = .absent) (ht : t < s.next) :
    Guarded first (s.saveMarker key t) where
  base := h.base
  tokens := h.tokens
  marker other := by
    rw [System.generation, System.marker_saveMarker]
    split
    · intro n hn
      cases hn
      exact ht
    · exact h.marker other
  latest other token htoken := by
    have hkey : other ≠ key := by
      rintro rfl
      obtain ⟨m, hm, -⟩ := h.latest other token htoken
      simp [habsent] at hm
    rw [System.marker_saveMarker, if_neg hkey]
    exact h.latest other token htoken
  records := h.records
  stores := h.stores
  final := h.final

/-- An event that is neither a removal nor an answer to a read with data. -/
theorem note {event : Event} (hrevoked : ∀ key token, event ≠ .revoked key token)
    (hanswer : ∀ i key data, event = .finished i .read key (.done data) →
      ∀ between token earlier, s.log = between ++ .revoked key token :: earlier → ∃ j, .issued j key data ∈ between) :
    Guarded first (s.note event) := by
  have hharmless : Harmless s.next event := fun key token hevent => absurd hevent (hrevoked key token)
  have hold : ∀ key token, .revoked key token ∈ event :: s.log → .revoked key token ∈ s.log := by
    intro key token hmem
    cases List.mem_cons.mp hmem with
    | inl heq => exact absurd heq.symm (hrevoked key token)
    | inr hmem => exact hmem
  exact {
    base := h.base
    tokens := fun key token hmem => h.tokens key token (hold key token hmem)
    marker := h.marker
    latest := fun key token hmem => h.latest key token (hold key token hmem)
    records := fun key record hrecord => (h.records key record hrecord).grow hharmless (Nat.le_refl _)
    stores := fun i => (h.stores i).grow hharmless (Nat.le_refl _)
    final := h.final.cons hanswer }

/-- No removal is as old as a generation from before the run. -/
theorem since_old {key : Text} {n : Nat} {data : Bytes} (hn : n < first) : Since s.log key (some n) data :=
  Since.of_old fun token htoken => Nat.lt_of_lt_of_le hn (h.tokens key token htoken).1

/-- What is sealed for the generation of the marker was handed in after every removal. -/
theorem since_current {key : Text} {data : Bytes} (hsince : Since s.log key (s.generation key) data)
    (between : List Event) (token : Nat) (earlier : List Event) (hlog : s.log = between ++ .revoked key token :: earlier) :
    ∃ j, .issued j key data ∈ between := by
  obtain ⟨m, hm, hle⟩ := h.latest key token (by rw [hlog]; simp)
  exact hsince between token earlier m hlog (by rw [System.generation, hm]; rfl) hle

end Guarded

theorem answers_missing (log : List Event) (r : Request) : Answers log r .missing := by
  intro _ data hdata
  cases hdata

theorem answers_unavailable (log : List Event) (r : Request) : Answers log r .unavailable := by
  intro _ data hdata
  cases hdata

/-- The previous directory and its generations are older than every token that is drawn. -/
def Setting.Old (setting : Setting) (first : Nat) : Prop :=
  ∀ previous, setting.previous = some previous → ∀ key,
    (∀ t, (previous key).1 = .token t → t < first) ∧ ∀ g box, (previous key).2 = some (.sealed g box) → g < first

/-- Whether a step writes the marker of the previous directory over one that exists. -/
def overwrites (setting : Setting) (s : System) : Action → Bool
  | .advance i turn =>
    (s.stores i).removal = none && match (s.stores i).phase, setting.previous with
    | .copyingMarker r, some previous => match (previous r.key).1 with
      | .token _ => !turn.fails && s.marker r.key ≠ .absent
      | _ => false
    | _, _ => false
  | _ => false

theorem overwrites_copyMarker {setting : Setting} {s : System} {i : Nat} {turn : Turn} {r : Request}
    {previous : Text → Marker × Option Record} {t : Nat} (hremoval : (s.stores i).removal = none)
    (hphase : (s.stores i).phase = .copyingMarker r) (hprevious : setting.previous = some previous)
    (ht : (previous r.key).1 = .token t) (hfails : ¬turn.fails)
    (hspared : overwrites setting s (.advance i turn) = false) : s.marker r.key = .absent := by
  simp only [overwrites, hremoval, hphase, hprevious, ht] at hspared
  simpa [hfails] using hspared

namespace Guarded

variable {first : Nat} {s : System} (h : Guarded first s) {setting : Setting}

include h

theorem read (i : Nat) (key : Text) (turn : Turn) : Guarded first (GroupSessionStore.read setting i key turn s) := by
  rw [GroupSessionStore.read]
  split
  · exact h.note (by simp) (by simp)
  · apply (h.observe i key (h.marker key)).enqueue
    constructor
    · exact h.marker key
    · intro hwrite
      cases hwrite

theorem write (i : Nat) (key : Text) (data : Bytes) : Guarded first (GroupSessionStore.write i key data s) := by
  have hdrawn : Drawn s.next (((s.stores i).observed key).getD (s.generation key)) := by
    cases hobserved : (s.stores i).observed key with
    | none => exact h.marker key
    | some g => exact (h.stores i).observed key g hobserved
  have hharmless : Harmless s.next (.issued i key data) := by
    intro key token heq
    cases heq
  have hbumped := (h.observe i key hdrawn).bump i key
  refine Guarded.enqueue (Guarded.note hbumped (by simp) (by simp)) ?_
  constructor
  · exact hdrawn
  · intro _
    exact Since.issued _ _ _ _ _

theorem remove (i : Nat) (key : Text) (turn : Turn) : Guarded first (GroupSessionStore.remove i key turn s) := by
  rw [GroupSessionStore.remove]
  split
  · exact (h.bump i key).note (by simp) (by simp)
  · have hharmless : Harmless s.next (.revoked key s.next) := by
      intro other token heq
      cases heq
      exact Nat.le_refl _
    have hbound : s.next ≤ s.next + 1 := Nat.le_succ _
    have hbumped := h.bump i key
    exact {
      base := ⟨h.base.1, Nat.le_succ_of_le h.base.2⟩
      tokens := by
        intro other token hmem
        cases List.mem_cons.mp hmem with
        | inl hnew =>
          cases hnew
          exact ⟨h.base.2, Nat.lt_succ_self _⟩
        | inr hold => exact ⟨(h.tokens other token hold).1, Nat.lt_succ_of_lt (h.tokens other token hold).2⟩
      marker := by
        intro other
        change Drawn (s.next + 1) (((s.saveMarker key s.next).marker other).generation)
        rw [System.marker_saveMarker]
        split
        · intro n hn
          cases hn
          exact Nat.lt_succ_self _
        · exact (h.marker other).mono hbound
      latest := by
        intro other token hmem
        change ∃ m, (s.saveMarker key s.next).marker other = .token m ∧ token ≤ m
        rw [System.marker_saveMarker]
        by_cases hkey : other = key
        · rw [if_pos hkey]
          cases List.mem_cons.mp hmem with
          | inl hnew =>
            cases hnew
            exact ⟨s.next, rfl, Nat.le_refl _⟩
          | inr hold => exact ⟨s.next, rfl, Nat.le_of_lt (h.tokens other token hold).2⟩
        · rw [if_neg hkey]
          cases List.mem_cons.mp hmem with
          | inl hnew =>
            cases hnew
            exact absurd rfl hkey
          | inr hold => exact h.latest other token hold
      records := fun other record hrecord => (h.records other record hrecord).grow hharmless hbound
      stores := by
        intro j
        have hold := (h.stores j).grow hharmless hbound
        change ((((s.bump i key).observe i key (some s.next)).update i fun store =>
          { store with removal := some ⟨key, s.next, (s.stores i).revisions key + 1⟩ }).stores j).Sound
            (.revoked key s.next :: s.log) (s.next + 1)
        simp only [System.stores_update, System.observe, System.bump]
        split
        · rename_i hj
          subst hj
          refine ⟨?_, ?_, ?_, ?_⟩
          · intro other g hg
            simp only [if_true, Function.update_apply] at hg
            split at hg
            · cases hg
              intro n hn
              cases hn
              exact Nat.lt_succ_self _
            · exact hold.observed other g hg
          · simpa only [if_true] using hold.pending
          · intro removal hremoval
            cases hremoval
            exact Nat.lt_succ_self _
          · simpa only [if_true] using hold.phase
        · exact hold
      final := h.final.cons (by simp) }

theorem next (i : Nat) (turn : Turn) : Guarded first (GroupSessionStore.next i turn s) := by
  rw [GroupSessionStore.next]
  cases hpending : (s.stores i).pending with
  | nil => exact h
  | cons r pending =>
    have hr : r.Sound s.log s.next := (h.stores i).pending r (by rw [hpending]; exact List.mem_cons_self)
    have hrest : Guarded first (s.update i fun store => { store with pending }) := by
      refine h.update ⟨(h.stores i).observed, ?_, (h.stores i).removal, (h.stores i).phase⟩
      intro q hq
      exact (h.stores i).pending q (by rw [hpending]; exact List.mem_cons_of_mem r hq)
    dsimp only
    split
    · exact hrest.enter ⟨hr, answers_missing _ r⟩
    · split
      · exact hrest.enter ⟨hr, answers_unavailable _ r⟩
      · exact hrest.enter hr

omit h in
theorem dispatch (setting : Setting) {r : Request} (hr : r.Sound s.log s.next) :
    (GroupSessionStore.dispatch setting r).Sound s.log s.next := by
  have hanswer : r.operation = .remove → Answers s.log r (.done []) := by
    intro hremove hread
    rw [hremove] at hread
    cases hread
  rw [GroupSessionStore.dispatch]
  cases hoperation : r.operation with
  | remove =>
    dsimp only
    split
    · exact ⟨hr, hanswer hoperation⟩
    · exact ⟨hr, hanswer hoperation⟩
  | write => exact ⟨hr, hoperation⟩
  | read =>
    dsimp only
    split
    · exact ⟨hr, hoperation⟩
    · exact ⟨hr, hoperation⟩

theorem tryLock (setting : Setting) {i : Nat} {r : Request} (hr : r.Sound s.log s.next) (turn : Turn) :
    Guarded first (GroupSessionStore.tryLock setting i r turn s) := by
  rw [GroupSessionStore.tryLock]
  split
  · exact (h.setLock (some i)).enter (dispatch setting hr)
  · split
    · exact h.enter ⟨hr, answers_unavailable _ r⟩
    · refine h.update ⟨(h.stores i).observed, ?_, (h.stores i).removal, trivial⟩
      intro q hq
      cases List.mem_cons.mp hq with
      | inl heq => exact heq ▸ hr
      | inr hq => exact (h.stores i).pending q hq

theorem copyMarker {previous : Text → Marker × Option Record} {i : Nat} {r : Request} (hr : r.Reads s.log s.next)
    {turn : Turn} (hold : ∀ t, (previous r.key).1 = .token t → t < first)
    (hfree : ∀ t, (previous r.key).1 = .token t → ¬turn.fails → s.marker r.key = .absent) :
    Guarded first (GroupSessionStore.copyMarker previous i r turn s) := by
  rw [GroupSessionStore.copyMarker]
  cases hprevious : (previous r.key).1 with
  | absent => exact h.enter hr
  | invalid => exact h.enter ⟨hr.toSound, answers_unavailable _ r⟩
  | token t =>
    dsimp only
    split
    · exact h.enter ⟨hr.toSound, answers_unavailable _ r⟩
    · rename_i hfails
      have ht := Nat.lt_of_lt_of_le (hold t hprevious) h.base.2
      exact (h.saveMarker (hfree t hprevious hfails) ht).enter hr

theorem copyRecord {previous : Text → Marker × Option Record} {i : Nat} {r : Request} (hr : r.Reads s.log s.next)
    (turn : Turn) (hold : ∀ g box, (previous r.key).2 = some (.sealed g box) → g < first) :
    Guarded first (GroupSessionStore.copyRecord previous i r turn s) := by
  have hcopy : ∀ record, (previous r.key).2 = some record → Guarded first
      (if turn.fails then s.enter i (.finishing r .unavailable) else (s.saveRecord r.key record).enter i (.renewing r)) := by
    intro record hrecord
    have hsound : record.Sound s.log s.next r.key := by
      constructor
      · rintro g box rfl
        exact Nat.lt_of_lt_of_le (hold g box hrecord) h.base.2
      · rintro g box rfl
        exact h.since_old (hold g box hrecord)
    split
    · exact h.enter ⟨hr.toSound, answers_unavailable _ r⟩
    · exact (h.saveRecord hsound).enter hr
  rw [GroupSessionStore.copyRecord]
  cases hprevious : (previous r.key).2 with
  | none => exact h.enter hr
  | some record =>
    cases record with
    | unsupported => exact h.enter ⟨hr.toSound, answers_unavailable _ r⟩
    | tombstone => exact hcopy _ hprevious
    | sealed g box => exact hcopy _ hprevious

theorem readRecord (setting : Setting) {i : Nat} {r : Request} (hr : r.Reads s.log s.next) :
    Guarded first (GroupSessionStore.readRecord setting i r s) := by
  rw [GroupSessionStore.readRecord]
  cases hrecord : s.record r.key with
  | none =>
    dsimp only
    split
    · exact h.enter ⟨hr.toSound, answers_missing _ r⟩
    · rename_i hzero
      rw [not_or, not_not] at hzero
      exact h.enter ⟨hr.toSound, hzero.1⟩
  | some record =>
    cases record with
    | unsupported => exact h.enter ⟨hr.toSound, answers_unavailable _ r⟩
    | tombstone => exact h.enter ⟨hr.toSound, answers_missing _ r⟩
    | sealed g box =>
      dsimp only
      split
      · exact h.enter ⟨hr.toSound, answers_missing _ r⟩
      · rename_i hgeneration
        rw [not_not] at hgeneration
        have hdata := (h.records r.key _ hrecord).data g box rfl
        rw [hgeneration] at hdata
        exact h.enter ⟨hr.toSound, hdata⟩

theorem useKey {i : Nat} {r : Request} (hr : r.Sound s.log s.next) {purpose : Purpose} (hpurpose : purpose.Sound s.log r)
    (turn : Turn) : Guarded first (GroupSessionStore.useKey i r purpose turn s) := by
  rw [GroupSessionStore.useKey.eq_def]
  cases hmaster : turn.master with
  | none => exact h.enter ⟨hr, answers_unavailable _ r⟩
  | some master =>
    cases purpose with
    | store => exact h.enter ⟨hr, hpurpose⟩
    | adopt => exact h.enter ⟨hr, hpurpose⟩
    | open_ box =>
      apply h.enter
      refine ⟨hr, ?_⟩
      split
      · intro _ data hdata
        cases hdata
        exact hpurpose
      · exact answers_unavailable _ r

theorem since_stored {r : Request} (hr : r.Sound s.log s.next) {migrating : Bool} (hstores : Stores r migrating) :
    Since s.log r.key r.generation r.data := by
  cases migrating with
  | true =>
    have hzero : r.generation = some 0 := hstores
    rw [hzero]
    exact h.since_old h.base.1
  | false => exact hr.issued hstores

theorem save (setting : Setting) {i : Nat} {r : Request} (hr : r.Sound s.log s.next) {migrating : Bool}
    (hstores : Stores r migrating) (master : Nat) (turn : Turn) :
    Guarded first (GroupSessionStore.save setting i r master migrating turn s) := by
  have hdata := h.since_stored hr hstores
  rw [GroupSessionStore.save]
  split
  · exact h.enter ⟨hr, answers_unavailable _ r⟩
  · have hsound : (Record.sealed (r.generation.getD 0) ⟨master, r.data⟩).Sound s.log s.next r.key := by
      cases hgeneration : r.generation with
      | none =>
        refine ⟨fun g box heq => ?_, fun g box heq => ?_⟩
        · cases heq
          exact Nat.lt_of_lt_of_le h.base.1 h.base.2
        · cases heq
          exact h.since_old h.base.1
      | some n =>
        refine ⟨fun g box heq => ?_, fun g box heq => ?_⟩
        · cases heq
          exact hr.drawn n hgeneration
        · cases heq
          rwa [hgeneration] at hdata
    have hsaved := h.saveRecord hsound
    dsimp only
    split
    · apply hsaved.enter
      refine ⟨hr, ?_⟩
      intro _ data heq
      cases heq
      exact hdata
    · apply hsaved.enter
      refine ⟨hr, ?_⟩
      intro hread data heq
      cases migrating with
      | true =>
        have hzero : r.generation = some 0 := hstores
        rw [hzero]
        exact h.since_old h.base.1
      | false =>
        have hwrite : r.operation = .write := hstores
        rw [hwrite] at hread
        cases hread

theorem complete {i : Nat} {r : Request} {outcome : Outcome}
    (houtcome : Answers s.log r outcome) : Guarded first (GroupSessionStore.complete i r outcome s) := by
  have hidle : Guarded first (s.enter i .idle) := h.enter trivial
  refine hidle.note (by simp) ?_
  intro j key data heq
  by_cases hcurrent : s.current i r
  · rw [if_pos hcurrent] at heq
    simp only [Event.finished.injEq] at heq
    obtain ⟨-, hread, rfl, hdata⟩ := heq
    have hsince := houtcome hread data hdata
    have hgeneration : r.generation = s.generation r.key := by
      simp only [System.current, Bool.and_eq_true, decide_eq_true_eq] at hcurrent
      exact hcurrent.2
    rw [hgeneration] at hsince
    exact h.since_current hsince
  · rw [if_neg hcurrent] at heq
    simp at heq

theorem removed (i : Nat) (removal : Removal) (hremoval : (s.stores i).removal = some removal) (turn : Turn) :
    Guarded first (((if turn.fails then s else s.saveRecord removal.key .tombstone).update i fun store =>
      { store with removal := none }).enqueue i ⟨.remove, removal.key, [], removal.revision, some removal.token⟩) := by
  have htoken := (h.stores i).removal removal hremoval
  have hsaved : Guarded first (s.saveRecord removal.key .tombstone) := by
    apply h.saveRecord
    constructor
    · intro g box heq
      cases heq
    · intro g box heq
      cases heq
  have hqueued : ∀ {t : System}, Guarded first t → t.next = s.next →
      Guarded first ((t.update i fun store => { store with removal := none }).enqueue i
        ⟨.remove, removal.key, [], removal.revision, some removal.token⟩) := by
    intro t ht hnext
    have hdone : Guarded first (t.update i fun store => { store with removal := none }) :=
      ht.update ⟨(ht.stores i).observed, (ht.stores i).pending, by simp, (ht.stores i).phase⟩
    apply hdone.enqueue
    constructor
    · intro n hn
      cases hn
      exact hnext ▸ htoken
    · intro hwrite
      cases hwrite
  split
  · exact hqueued h rfl
  · exact hqueued hsaved rfl

theorem advance (hold : setting.Old first) (i : Nat) (turn : Turn) (hspared : overwrites setting s (.advance i turn) = false) :
    Guarded first (GroupSessionStore.advance setting i turn s) := by
  rw [GroupSessionStore.advance.eq_def]
  cases hremoval : (s.stores i).removal with
  | some removal => exact h.removed i removal hremoval turn
  | none =>
    have hphase := (h.stores i).phase
    cases hat : (s.stores i).phase with
    | idle => exact h.next i turn
    | locking r =>
      rw [hat] at hphase
      exact h.tryLock setting hphase turn
    | probing r left =>
      rw [hat] at hphase
      cases left with
      | nil => exact h.enter hphase
      | cons probe left =>
        dsimp only
        split
        · exact h.enter hphase
        · exact h.enter hphase
    | migrating r left =>
      rw [hat] at hphase
      cases left with
      | nil => exact h.enter hphase
      | cons probe left =>
        dsimp only
        split
        · exact h.enter hphase
        · exact h.enter hphase
    | copyingMarker r =>
      rw [hat] at hphase
      cases hprevious : setting.previous with
      | none => exact h.enter hphase
      | some previous =>
        apply h.copyMarker hphase (hold previous hprevious r.key).1
        intro t ht hfails
        exact overwrites_copyMarker hremoval hat hprevious ht hfails hspared
    | copyingRecord r =>
      rw [hat] at hphase
      cases hprevious : setting.previous with
      | none => exact h.enter hphase
      | some previous => exact h.copyRecord hphase turn (hold previous hprevious r.key).2
    | renewing r =>
      rw [hat] at hphase
      apply (h.observe i r.key (h.marker r.key)).enter
      constructor
      · constructor
        · exact h.marker r.key
        · intro hwrite
          rw [show r.operation = .read from hphase.read] at hwrite
          cases hwrite
      · exact hphase.read
    | reading r =>
      rw [hat] at hphase
      exact h.readRecord setting hphase
    | fetching r =>
      rw [hat] at hphase
      cases himported : turn.imported with
      | missing => exact h.enter ⟨hphase.1, answers_missing _ r⟩
      | unavailable => exact h.enter ⟨hphase.1, answers_unavailable _ r⟩
      | done data =>
        apply h.enter
        refine ⟨⟨hphase.1.drawn, fun _ => ?_⟩, hphase.2⟩
        rw [hphase.2]
        exact h.since_old h.base.1
    | keying r purpose =>
      rw [hat] at hphase
      exact h.useKey hphase.1 hphase.2 turn
    | storing r master imported =>
      rw [hat] at hphase
      dsimp only
      split
      · exact h.enter hphase
      · exact h.enter ⟨hphase.1, answers_missing _ r⟩
    | saving r master imported =>
      rw [hat] at hphase
      exact h.save setting hphase.1 hphase.2 master turn
    | forgetting r outcome =>
      rw [hat] at hphase
      exact h.enter hphase
    | finishing r outcome =>
      rw [hat] at hphase
      exact (h.setLock _).enter hphase
    | completing r outcome =>
      rw [hat] at hphase
      exact h.complete hphase.2

/-- One step keeps the guard, unless it copies a marker over another. -/
theorem step (hold : setting.Old first) (action : Action) (hspared : overwrites setting s action = false) :
    Guarded first (s.step setting action) := by
  cases action with
  | read i key turn =>
    rw [System.step]
    split
    · exact h.read i key turn
    · exact h
  | write i key data =>
    rw [System.step]
    split
    · exact h.write i key data
    · exact h
  | remove i key turn =>
    rw [System.step]
    split
    · exact h.remove i key turn
    · exact h
  | advance i turn => exact h.advance hold i turn hspared

end Guarded

/-- No step of a run copies a marker over another. -/
def spared (setting : Setting) : System → List Action → Bool
  | _, [] => true
  | s, action :: actions => !overwrites setting s action && spared setting (s.step setting action) actions

theorem Guarded.run {first : Nat} {setting : Setting} (hold : setting.Old first) {s : System} (h : Guarded first s)
    {actions : List Action} (hspared : spared setting s actions) : Guarded first (s.run setting actions) := by
  induction actions generalizing s with
  | nil => exact h
  | cons action actions ih =>
    simp only [spared, Bool.and_eq_true, Bool.not_eq_true'] at hspared
    exact ih (h.step hold action hspared.1) hspared.2

/-- A system in which no instance has begun and every token on disk was drawn before. -/
structure System.Fresh (setting : Setting) (s : System) : Prop where
  log : s.log = []
  stores : s.stores = fun _ => {}
  drawn : 0 < s.next
  marker : ∀ key t, s.marker key = .token t → t < s.next
  record : ∀ key g box, s.record key = some (.sealed g box) → g < s.next
  old : setting.Old s.next

theorem System.Fresh.guarded {setting : Setting} {s : System} (h : s.Fresh setting) : Guarded s.next s where
  base := ⟨h.drawn, Nat.le_refl _⟩
  tokens key token hmem := by simp [h.log] at hmem
  marker key n hn := by
    cases hmarker : s.marker key with
    | absent =>
      simp only [System.generation, hmarker, Marker.generation, Option.some.injEq] at hn
      have hpos := h.drawn
      omega
    | token t =>
      simp only [System.generation, hmarker, Marker.generation, Option.some.injEq] at hn
      have hlt := h.marker key t hmarker
      omega
    | invalid => simp [System.generation, hmarker, Marker.generation] at hn
  latest key token hmem := by simp [h.log] at hmem
  records key record hrecord := by
    constructor
    · rintro g box rfl
      exact h.record key g box hrecord
    · rintro g box rfl
      apply Since.of_old
      simp [h.log]
  stores i := by
    rw [h.stores]
    constructor
    · intro key g hg
      cases hg
    · intro r hr
      cases hr
    · intro removal hremoval
      cases hremoval
    · trivial
  final := by
    intro later i key data between token earlier hlog
    simp [h.log] at hlog

/-- As long as no migration copies a marker over another, no read answers with what a removal was to revoke. -/
theorem revocation_final (setting : Setting) (s : System) (hfresh : s.Fresh setting) (actions : List Action)
    (hspared : spared setting s actions) : Final (s.run setting actions).log :=
  (hfresh.guarded.run hfresh.old hspared).final

section

/-- A directory with nothing in it, and one before it with a record of the only key. -/
def Setting.moved : Setting := ⟨some fun _ => (.token 1, some (.sealed 1 ⟨7, [42]⟩)), false⟩

def System.empty : System := { marker := fun _ => .absent, record := fun _ => none, next := 2 }

def advances (i n : Nat) : List Action := List.replicate n (.advance i { master := some 7 })

theorem System.empty_fresh : System.empty.Fresh .moved where
  log := rfl
  stores := rfl
  drawn := by decide
  marker key t hmarker := by cases hmarker
  record key g box hrecord := by cases hrecord
  old previous hprevious key := by
    cases hprevious
    constructor
    · intro t ht
      cases ht
      decide
    · intro g box hrecord
      cases hrecord
      decide

theorem revocation_final_migrated : Final
    (System.empty.run .moved (.read 0 ['k'] {} :: advances 0 15 ++ .remove 1 ['k'] {} :: .read 0 ['k'] {} :: advances 0 15)).log :=
  revocation_final .moved .empty System.empty_fresh _ (by decide +kernel)

/-- One instance migrates the key from the previous directory while another removes it: the removal comes
between the last check and the copy of the old marker. -/
def racing : List Action := .read 0 ['k'] {} :: advances 0 8 ++ .remove 1 ['k'] {} :: advances 1 5 ++ advances 0 10

theorem racing_log : (System.empty.run .moved racing).log =
    [.finished 0 .read ['k'] (.done [42]), .revoked ['k'] 2] := by
  decide +kernel

/-- The old marker makes the old record readable again. -/
theorem revocation_undone : System.empty.Fresh .moved ∧ ¬Final (System.empty.run .moved racing).log := by
  constructor
  · exact System.empty_fresh
  · intro hfinal
    rw [racing_log] at hfinal
    obtain ⟨j, hj⟩ := hfinal [] 0 ['k'] [42] [] 2 [] rfl
    cases hj

end

end SocietyHelper.Storage
