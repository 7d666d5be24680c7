import SocietyHelper.Sync.Controller

/-! # Requests run at most once while they are in the table

Each unfinished request is in exactly one place: in the worker's queue, or as a
result on its way. Requests leave the table only when they are finished, so a
request that is accepted anew has nothing of its predecessor left behind.
-/

namespace SocietyHelper.Sync.Controller

open Library

/-! ## Making room -/

theorem oldest_spec (rows : List (Text × Job)) :
    match oldest rows with
    | none => ∀ r ∈ rows, r.2.finished = false
    | some b => b ∈ rows ∧ b.2.finished = true ∧ ∀ r ∈ rows, r.2.finished = true → b.2.created ≤ r.2.created := by
  induction rows using List.reverseRecOn with
  | nil =>
    intro r hr
    cases hr
  | append_singleton rows row ih =>
    have hstep : oldest (rows ++ [row]) = older (oldest rows) row := by
      rw [oldest, List.foldl_append, List.foldl_cons, List.foldl_nil, ← oldest]
    rw [hstep]
    cases hbest : oldest rows with
    | none =>
      rw [hbest] at ih
      simp only [older] at ih ⊢
      by_cases hrow : row.2.finished = true
      · rw [if_pos hrow]
        refine ⟨by simp, hrow, ?_⟩
        intro r hr hfinished
        rw [List.mem_append, List.mem_singleton] at hr
        rcases hr with hr | rfl
        · rw [ih r hr] at hfinished
          cases hfinished
        · exact le_refl _
      · rw [if_neg hrow]
        intro r hr
        rw [List.mem_append, List.mem_singleton] at hr
        rcases hr with hr | rfl
        · exact ih r hr
        · exact Bool.eq_false_iff.mpr hrow
    | some b =>
      rw [hbest] at ih
      simp only [older] at ih ⊢
      obtain ⟨hmem, hfinished, hleast⟩ := ih
      by_cases hrow : row.2.finished = true ∧ row.2.created < b.2.created
      · rw [if_pos hrow]
        refine ⟨by simp, hrow.1, ?_⟩
        intro r hr hr'
        rw [List.mem_append, List.mem_singleton] at hr
        rcases hr with hr | rfl
        · exact hrow.2.le.trans (hleast r hr hr')
        · exact le_refl _
      · rw [if_neg hrow]
        refine ⟨List.mem_append_left _ hmem, hfinished, ?_⟩
        intro r hr hr'
        rw [List.mem_append, List.mem_singleton] at hr
        rcases hr with hr | rfl
        · exact hleast r hr hr'
        · exact not_lt.mp fun hlt => hrow ⟨hr', hlt⟩

theorem makeRoom_of_lt (n : Nat) {jobs : Table Text Job} (h : jobs.rows.length < maxJobs) :
    makeRoom n jobs = (jobs, true) := by
  cases n with
  | zero => rfl
  | succ n => rw [makeRoom, if_pos h]

/-- Why a request may leave the table: it is finished and either old, or the oldest of a full table. -/
structure Leaves (now : Int) (jobs : Table Text Job) (job : Job) : Prop where
  finished : job.finished = true
  reason : 60000 < now - job.created ∨ maxJobs ≤ jobs.rows.length ∧ ∀ key other, jobs.find? key = some other →
    other.finished = true → expired now other = false → job.created ≤ other.created

structure Vacated (now : Int) (before after : Table Text Job) : Prop where
  small : after.rows.length ≤ maxJobs
  kept : ∀ key job, after.find? key = some job → before.find? key = some job
  left : ∀ key job, before.find? key = some job → after.find? key = none → Leaves now before job

theorem vacate_spec (now : Int) {jobs : Table Text Job} (h : jobs.rows.length ≤ maxJobs) :
    Vacated now jobs (vacate now jobs).1 ∧ ((vacate now jobs).2 = true → (vacate now jobs).1.rows.length < maxJobs) := by
  generalize hkept : (jobs.filter fun _ job => !expired now job) = kept
  have hfind : ∀ key, kept.find? key = (jobs.find? key).filter fun job => !expired now job := by
    intro key
    rw [← hkept, Table.find?_filter]
  have hlength : kept.rows.length ≤ jobs.rows.length := by
    rw [← hkept]
    exact List.length_filter_le _ _
  have hvacate : vacate now jobs = makeRoom kept.rows.length kept := by rw [vacate, hkept]
  have hsub : ∀ key job, kept.find? key = some job → jobs.find? key = some job := by
    intro key job hjob
    rw [hfind, Option.filter_eq_some_iff] at hjob
    exact hjob.1
  have hgone : ∀ key job, jobs.find? key = some job → kept.find? key = none → Leaves now jobs job := by
    intro key job hjob hnone
    rw [hfind, hjob, Option.filter_some_eq_none, Bool.not_eq_true, Bool.not_eq_false', expired, Bool.and_eq_true,
      decide_eq_true_eq] at hnone
    exact ⟨hnone.1, Or.inl hnone.2⟩
  rw [hvacate]
  by_cases hroom : kept.rows.length < maxJobs
  · rw [makeRoom_of_lt _ hroom]
    exact ⟨⟨hroom.le, hsub, hgone⟩, fun _ => hroom⟩
  · have hfull : maxJobs ≤ kept.rows.length := not_lt.mp hroom
    obtain ⟨n, hn⟩ : ∃ n, kept.rows.length = n + 1 := Nat.exists_eq_add_one_of_ne_zero (by
      intro hzero
      rw [hzero] at hfull
      exact absurd hfull (by decide))
    rw [hn, makeRoom, if_neg hroom]
    have hold := oldest_spec (ordered kept)
    cases hbest : oldest (ordered kept) with
    | none => exact ⟨⟨hlength.trans h, hsub, hgone⟩, fun hfalse => by cases hfalse⟩
    | some row =>
      rw [hbest] at hold
      obtain ⟨hrow, hfinished, hleast⟩ := hold
      rw [ordered, List.mem_insertionSort] at hrow
      have hrowfind : kept.find? row.1 = some row.2 := (kept.mem_rows_iff row.1 row.2).mp hrow
      have hless : (kept.erase row.1).rows.length < maxJobs := by
        have hlt : (kept.erase row.1).rows.length < kept.rows.length := by
          refine List.length_filter_lt_length_iff_exists.mpr ⟨row, hrow, ?_⟩
          simp
        omega
      dsimp only
      rw [makeRoom_of_lt n hless]
      refine ⟨⟨hless.le, ?_, ?_⟩, fun _ => hless⟩
      · intro key job hjob
        rw [Table.find?_erase] at hjob
        split at hjob
        · cases hjob
        · exact hsub key job hjob
      · intro key job hjob hnone
        rw [Table.find?_erase] at hnone
        split at hnone
        · rename_i hkey
          subst hkey
          cases hjob.symm.trans (hsub _ _ hrowfind)
          refine ⟨hfinished, Or.inr ⟨hfull.trans hlength, ?_⟩⟩
          intro key other hother hfin hexpired
          have hkeptother : kept.find? key = some other := by
            rw [hfind, hother, Option.filter_eq_some_iff]
            exact ⟨rfl, by rw [hexpired]; rfl⟩
          have hmem := (kept.mem_rows_iff key other).mpr hkeptother
          exact hleast (key, other) (by rwa [ordered, List.mem_insertionSort]) hfin
        · exact hgone key job hjob hnone

/-! ## What was asked of the replica under a key since it last left the table -/

structure Asked where
  peer : Text
  message : Request
  reply : Reply

/-- False for an attempt that only met a busy store. -/
def Asked.settled (a : Asked) : Bool :=
  match a.reply with
  | .error error => error ≠ busy
  | .ok _ => true

def recent (key : Text) : List Event → List Asked :=
  List.foldl (fun seen event => match event with
    | .executed k peer message reply => if k = key then seen ++ [⟨peer, message, reply⟩] else seen
    | .evicted k => if k = key then [] else seen) []

theorem recent_executed (key k peer : Text) (message : Request) (reply : Reply) (log : List Event) :
    recent key (log ++ [.executed k peer message reply]) =
      if k = key then recent key log ++ [⟨peer, message, reply⟩] else recent key log := by
  rw [recent, List.foldl_append]
  rfl

theorem recent_evicted (key k : Text) (log : List Event) :
    recent key (log ++ [.evicted k]) = if k = key then [] else recent key log := by
  rw [recent, List.foldl_append]
  rfl

theorem recent_evictions (key : Text) (keys : List Text) (log : List Event) :
    recent key (log ++ keys.map .evicted) = if key ∈ keys then [] else recent key log := by
  induction keys generalizing log with
  | nil => rw [List.map_nil, List.append_nil, if_neg List.not_mem_nil]
  | cons k keys ih =>
    rw [List.map_cons, List.append_cons, ih, recent_evicted]
    by_cases hk : k = key
    · simp [hk]
    · simp [hk, Ne.symm hk]

/-- The answer that goes with what was asked: the reply of the one attempt that was carried out, or an error
where none was. -/
def Answers (asked : List Asked) (reply : Reply) : Prop :=
  (asked.filter Asked.settled = [] ∧ ∃ error, reply = .error error) ∨
    ∃ a, asked.filter Asked.settled = [a] ∧ a.reply = reply

/-- A request is carried out only where nothing was carried out under its key since the key last left the
table, and only as it was tried then. -/
def Admitted (earlier : List Event) : Event → Prop
  | .executed key peer message _ =>
    ∀ a ∈ recent key earlier, a.settled = false ∧ a.peer = peer ∧ a.message = message
  | .evicted _ => True

theorem linked_evictions {log : List Event} (h : Linked Admitted log) (keys : List Text) :
    Linked Admitted (log ++ keys.map .evicted) := by
  induction keys generalizing log with
  | nil => rwa [List.map_nil, List.append_nil]
  | cons k keys ih =>
    rw [List.map_cons, List.append_cons]
    exact ih (Linked.concat_iff.mpr ⟨h, trivial⟩)

/-! ## The invariant -/

/-- The keys of the requests that the worker has, and of the results on their way. -/
def flight (s : Controller) : List Text := s.works.map Work.key ++ s.results.map Prod.fst

/-- The keys in flight are those of one work and those of all others. -/
theorem flight_perm {s : Controller} {i : Nat} {w : Work} (hi : s.works[i]? = some w) :
    s.flight.Perm (w.key :: ((s.works.eraseIdx i).map Work.key ++ s.results.map Prod.fst)) := by
  obtain ⟨hlt, rfl⟩ := List.getElem?_eq_some_iff.mp hi
  have hperm := (List.getElem_cons_eraseIdx_perm hlt).symm.map Work.key
  rw [List.map_cons] at hperm
  exact hperm.append_right _

structure Consistent [StoreLayout] (s : Controller) : Prop where
  small : s.jobs.rows.length ≤ maxJobs
  entered : ∀ key job, s.jobs.find? key = some job → key = jobKey job.peer job.request.token.text ∧
    s.scope ≠ [] ∧ job.request.scope.text = s.scope ∧ malformed s.hostAccess job.request = none
  once : s.flight.Nodup
  open_ : ∀ key, key ∈ s.flight ↔ ∃ job, s.jobs.find? key = some job ∧ job.finished = false
  absent : ∀ key, s.jobs.find? key = none → recent key s.log = []
  asked : ∀ key job, s.jobs.find? key = some job →
    ∀ a ∈ recent key s.log, a.peer = job.peer ∧ a.message = job.request.message.getD {}
  works : ∀ w ∈ s.works, (∀ a ∈ recent w.key s.log, a.settled = false) ∧ ∀ job, s.jobs.find? w.key = some job →
    w.peer = job.peer ∧ w.message = job.request.message.getD {}
  results : ∀ r ∈ s.results, Answers (recent r.1 s.log) r.2
  finished : ∀ key job, s.jobs.find? key = some job → job.finished = true → Answers (recent key s.log) job.result
  linked : Linked Admitted s.log

namespace Consistent

variable [StoreLayout] {s : Controller}

theorem start (scope : Text) (hostAccess ready : Bool) (authorized : List Text) :
    Consistent { scope, hostAccess, ready, authorized } where
  small := Nat.zero_le _
  entered := by
    rintro key job ⟨⟩
  once := List.nodup_nil
  open_ := by
    intro key
    constructor
    · rintro ⟨⟩
    · rintro ⟨job, ⟨⟩, _⟩
  absent := fun _ _ => rfl
  asked := by
    rintro key job ⟨⟩
  works := by
    rintro w ⟨⟩
  results := by
    rintro r ⟨⟩
  finished := by
    rintro key job ⟨⟩
  linked := Linked.nil

/-- What a log may become while one work is run: it may say that the work was tried. -/
structure Grown (s : Controller) (w : Work) (log : List Event) : Prop where
  linked : Linked Admitted log
  others : ∀ key, key ≠ w.key → recent key log = recent key s.log
  own : ∀ a ∈ recent w.key log, a.peer = w.peer ∧ a.message = w.message

theorem unsettled (h : Consistent s) {w : Work} (hw : w ∈ s.works) :
    ∀ a ∈ recent w.key s.log, a.settled = false ∧ a.peer = w.peer ∧ a.message = w.message := by
  intro a ha
  have hkey : w.key ∈ s.flight := List.mem_append_left _ (List.mem_map_of_mem hw)
  obtain ⟨job, hjob, -⟩ := (h.open_ w.key).mp hkey
  obtain ⟨hunsettled, hsame⟩ := h.works w hw
  obtain ⟨hpeer, hmessage⟩ := hsame job hjob
  obtain ⟨hpeer', hmessage'⟩ := h.asked w.key job hjob a ha
  exact ⟨hunsettled a ha, hpeer'.trans hpeer.symm, hmessage'.trans hmessage.symm⟩

theorem grown_same (h : Consistent s) {w : Work} (hw : w ∈ s.works) : Grown s w s.log :=
  ⟨h.linked, fun _ _ => rfl, fun a ha => (h.unsettled hw a ha).2⟩

theorem grown_executed (h : Consistent s) {w : Work} (hw : w ∈ s.works) (reply : Reply) :
    Grown s w (s.log ++ [.executed w.key w.peer w.message reply]) := by
  constructor
  · exact Linked.concat_iff.mpr ⟨h.linked, h.unsettled hw⟩
  · intro key hkey
    rw [recent_executed, if_neg (Ne.symm hkey)]
  · intro a ha
    rw [recent_executed, if_pos rfl, List.mem_append, List.mem_singleton] at ha
    rcases ha with ha | rfl
    · exact (h.unsettled hw a ha).2
    · exact ⟨rfl, rfl⟩

/-- The outcome of running one work: it waits again, or its result is on its way. -/
theorem moved (h : Consistent s) {i : Nat} {w : Work} (hi : s.works[i]? = some w) {works : List Work}
    {results : List (Text × Reply)} {log : List Event} (hlog : Grown s w log)
    (hflight : (works.map Work.key ++ results.map Prod.fst).Perm s.flight)
    (hworks : ∀ x ∈ works, x ∈ s.works.eraseIdx i ∨ x = w ∧ ∀ a ∈ recent w.key log, a.settled = false)
    (hresults : ∀ r ∈ results, r ∈ s.results ∨ r.1 = w.key ∧ Answers (recent w.key log) r.2) :
    Consistent { s with works, results, log } := by
  have hw : w ∈ s.works := List.mem_of_getElem? hi
  have hkey : w.key ∈ s.flight := List.mem_append_left _ (List.mem_map_of_mem hw)
  obtain ⟨job, hjob, hopen⟩ := (h.open_ w.key).mp hkey
  -- no other work and no result has the key of this work
  have halone := (flight_perm hi).nodup_iff.mp h.once
  rw [List.nodup_cons, List.mem_append, not_or] at halone
  obtain ⟨⟨hothers, hnone⟩, -⟩ := halone
  constructor
  · exact h.small
  · exact h.entered
  · exact hflight.nodup_iff.mpr h.once
  · intro key
    exact hflight.mem_iff.trans (h.open_ key)
  · intro key habsent
    rw [hlog.others key]
    · exact h.absent key habsent
    · rintro rfl
      rw [hjob] at habsent
      cases habsent
  · intro key other hother a ha
    by_cases hsame : key = w.key
    · subst hsame
      obtain ⟨hpeer, hmessage⟩ := hlog.own a ha
      obtain ⟨hpeer', hmessage'⟩ := (h.works w hw).2 other hother
      exact ⟨hpeer.trans hpeer', hmessage.trans hmessage'⟩
    · dsimp only at ha
      rw [hlog.others key hsame] at ha
      exact h.asked key other hother a ha
  · intro x hx
    rcases hworks x hx with hx | ⟨rfl, hunsettled⟩
    · have hne : x.key ≠ w.key := fun heq => hothers (heq ▸ List.mem_map_of_mem hx)
      dsimp only
      rw [hlog.others x.key hne]
      exact h.works x (List.mem_of_mem_eraseIdx hx)
    · exact ⟨hunsettled, (h.works x hw).2⟩
  · intro r hr
    rcases hresults r hr with hr | ⟨hrkey, hanswers⟩
    · have hne : r.1 ≠ w.key := fun heq => hnone (heq ▸ List.mem_map_of_mem hr)
      dsimp only
      rw [hlog.others r.1 hne]
      exact h.results r hr
    · dsimp only
      rw [hrkey]
      exact hanswers
  · intro key other hother hfinished
    have hne : key ≠ w.key := by
      rintro rfl
      cases hjob.symm.trans hother
      rw [hopen] at hfinished
      cases hfinished
    dsimp only
    rw [hlog.others key hne]
    exact h.finished key other hother hfinished
  · exact hlog.linked

/-- A work leaves the queue, and its result is on its way. -/
theorem resulted (h : Consistent s) {i : Nat} {w : Work} (hi : s.works[i]? = some w) {log : List Event}
    (hlog : Grown s w log) {reply : Reply} (hanswers : Answers (recent w.key log) reply) :
    Consistent { s with works := s.works.eraseIdx i, results := s.results ++ [(w.key, reply)], log } := by
  apply h.moved hi hlog
  · have hperm := flight_perm hi
    rw [List.map_append, List.map_singleton, ← List.append_assoc]
    exact (List.perm_append_singleton _ _).trans hperm.symm
  · intro x hx
    exact Or.inl hx
  · intro r hr
    rw [List.mem_append, List.mem_singleton] at hr
    apply hr.imp_right
    rintro rfl
    exact ⟨rfl, hanswers⟩

theorem refused_work (h : Consistent s) {i : Nat} {w : Work} (hi : s.works[i]? = some w) (error : Text) :
    Consistent { s with works := s.works.eraseIdx i, results := s.results ++ [(w.key, .error error)] } := by
  have hw : w ∈ s.works := List.mem_of_getElem? hi
  apply h.resulted hi (h.grown_same hw)
  refine Or.inl ⟨?_, error, rfl⟩
  rw [List.filter_eq_nil_iff]
  intro a ha
  rw [(h.unsettled hw a ha).1]
  exact Bool.false_ne_true

theorem handleJob (h : Consistent s) {i : Nat} {w : Work} (hi : s.works[i]? = some w) (turn : Turn) :
    Consistent (Controller.handleJob { s with works := s.works.eraseIdx i } w turn) := by
  have hw : w ∈ s.works := List.mem_of_getElem? hi
  have hgrown := h.grown_executed hw turn.reply
  have hrecent : recent w.key (s.log ++ [.executed w.key w.peer w.message turn.reply]) =
      recent w.key s.log ++ [⟨w.peer, w.message, turn.reply⟩] := by
    rw [recent_executed, if_pos rfl]
  have hbefore : (recent w.key s.log).filter Asked.settled = [] := by
    rw [List.filter_eq_nil_iff]
    intro a ha
    rw [(h.unsettled hw a ha).1]
    exact Bool.false_ne_true
  -- an attempt that was carried out is the only one
  have hanswers : Asked.settled ⟨w.peer, w.message, turn.reply⟩ = true →
      Answers (recent w.key (s.log ++ [.executed w.key w.peer w.message turn.reply])) turn.reply := by
    intro hsettled
    refine Or.inr ⟨⟨w.peer, w.message, turn.reply⟩, ?_, rfl⟩
    rw [hrecent, List.filter_append, hbefore, List.nil_append, List.filter_singleton, hsettled, cond_true]
  rw [Controller.handleJob]
  split
  · exact h.refused_work hi _
  · split
    · exact h.refused_work hi _
    · split
      · exact h.refused_work hi _
      · cases hreply : turn.reply with
        | ok response =>
          rw [hreply] at hgrown hanswers
          exact h.resulted hi hgrown (hanswers rfl)
        | error error =>
          rw [hreply] at hgrown hanswers hrecent
          dsimp only
          have hunsettled : error = busy → ∀ a ∈ recent w.key s.log ++ [⟨w.peer, w.message, .error error⟩],
              a.settled = false := by
            rintro rfl a ha
            rw [List.mem_append, List.mem_singleton] at ha
            rcases ha with ha | rfl
            · exact (h.unsettled hw a ha).1
            · rfl
          split
          · rename_i hbusy
            apply h.moved hi hgrown
            · rw [List.map_append, List.map_singleton, List.append_assoc]
              exact (List.perm_middle).trans (flight_perm hi).symm
            · intro x hx
              rw [List.mem_append, List.mem_singleton] at hx
              apply hx.imp_right
              rintro rfl
              refine ⟨rfl, ?_⟩
              rw [hrecent]
              exact hunsettled hbusy.1
            · intro r hr
              exact Or.inl hr
          · apply h.resulted hi hgrown
            by_cases hbusy : error = busy
            · refine Or.inl ⟨?_, error, rfl⟩
              rw [hrecent, List.filter_eq_nil_iff]
              intro a ha
              rw [hunsettled hbusy a ha]
              exact Bool.false_ne_true
            · exact hanswers (decide_eq_true hbusy)

/-- A result that arrives finishes its request. -/
theorem arrive (h : Consistent s) {i : Nat} {key : Text} {reply : Reply} (hi : s.results[i]? = some (key, reply)) :
    Consistent (finish { s with results := s.results.eraseIdx i } key reply) := by
  have hmem : (key, reply) ∈ s.results := List.mem_of_getElem? hi
  have hkey : key ∈ s.flight := List.mem_append_right _ (List.mem_map_of_mem hmem)
  obtain ⟨job, hjob, hopen⟩ := (h.open_ key).mp hkey
  have hperm : s.flight.Perm (key :: (s.works.map Work.key ++ (s.results.eraseIdx i).map Prod.fst)) := by
    obtain ⟨hlt, hget⟩ := List.getElem?_eq_some_iff.mp hi
    have hresults := (List.getElem_cons_eraseIdx_perm hlt).symm.map Prod.fst
    rw [List.map_cons, hget] at hresults
    exact (hresults.append_left _).trans List.perm_middle
  have halone := hperm.nodup_iff.mp h.once
  rw [List.nodup_cons] at halone
  obtain ⟨hothers, hnodup⟩ := halone
  rw [finish]
  dsimp only
  rw [hjob]
  constructor
  · dsimp only
    rw [Table.length_insert_of_find? _ _ hjob]
    exact h.small
  · intro other otherJob hother
    dsimp only at hother ⊢
    rw [Table.find?_insert] at hother
    split at hother
    · rename_i heq
      cases hother
      exact heq ▸ h.entered key job hjob
    · exact h.entered other otherJob hother
  · exact hnodup
  · intro other
    dsimp only
    rw [Table.find?_insert]
    split
    · rename_i heq
      subst heq
      constructor
      · intro hin
        exact absurd hin hothers
      · rintro ⟨other, hother, hfinished⟩
        cases hother
        cases hfinished
    · rename_i hne
      rw [← h.open_ other, hperm.mem_iff, List.mem_cons]
      constructor
      · exact Or.inr
      · rintro (heq | hin)
        · exact absurd heq hne
        · exact hin
  · intro other habsent
    dsimp only at habsent
    rw [Table.find?_insert] at habsent
    split at habsent
    · cases habsent
    · exact h.absent other habsent
  · intro other otherJob hother
    dsimp only at hother
    rw [Table.find?_insert] at hother
    split at hother
    · rename_i heq
      subst heq
      cases hother
      exact h.asked other job hjob
    · exact h.asked other otherJob hother
  · intro w hw
    obtain ⟨hunsettled, hsame⟩ := h.works w hw
    refine ⟨hunsettled, ?_⟩
    intro otherJob hother
    dsimp only at hother
    rw [Table.find?_insert] at hother
    split at hother
    · rename_i heq
      cases hother
      exact hsame job (heq ▸ hjob)
    · exact hsame otherJob hother
  · intro r hr
    exact h.results r (List.mem_of_mem_eraseIdx hr)
  · intro other otherJob hother hfinished
    dsimp only at hother
    rw [Table.find?_insert] at hother
    split at hother
    · rename_i heq
      subst heq
      cases hother
      exact h.results (other, reply) hmem
    · exact h.finished other otherJob hother hfinished
  · exact h.linked

/-- Finished requests leave the table. -/
theorem vacated (h : Consistent s) {now : Int} {jobs : Table Text Job} (hvacated : Vacated now s.jobs jobs) :
    Consistent { s with jobs, log := s.log ++ evictions s.jobs jobs } := by
  have hrecent : ∀ key, recent key (s.log ++ evictions s.jobs jobs) =
      if key ∈ s.jobs.keys ∧ key ∉ jobs.keys then [] else recent key s.log := by
    intro key
    rw [evictions, recent_evictions]
    simp only [List.mem_filter, decide_eq_true_eq]
  have hkept : ∀ key job, jobs.find? key = some job → recent key (s.log ++ evictions s.jobs jobs) = recent key s.log := by
    intro key job hjob
    rw [hrecent, if_neg]
    rintro ⟨-, hnone⟩
    exact hnone ((Table.mem_keys_iff _ _).mpr ⟨job, hjob⟩)
  -- what is in flight is not finished, so it stays
  have hopen : ∀ key, key ∈ s.flight → ∃ job, s.jobs.find? key = some job ∧ jobs.find? key = some job ∧
      job.finished = false := by
    intro key hkey
    obtain ⟨job, hjob, hfinished⟩ := (h.open_ key).mp hkey
    cases hafter : jobs.find? key with
    | none =>
      have hleft := (hvacated.left key job hjob hafter).finished
      rw [hfinished] at hleft
      cases hleft
    | some other =>
      cases hjob.symm.trans (hvacated.kept key other hafter)
      exact ⟨job, hjob, rfl, hfinished⟩
  constructor
  · exact hvacated.small
  · intro key job hjob
    exact h.entered key job (hvacated.kept key job hjob)
  · exact h.once
  · intro key
    constructor
    · intro hkey
      obtain ⟨job, -, hjob, hfinished⟩ := hopen key hkey
      exact ⟨job, hjob, hfinished⟩
    · rintro ⟨job, hjob, hfinished⟩
      exact (h.open_ key).mpr ⟨job, hvacated.kept key job hjob, hfinished⟩
  · intro key habsent
    dsimp only at habsent ⊢
    rw [hrecent]
    split
    · rfl
    · rename_i hstays
      apply h.absent
      rw [Table.find?_eq_none_iff] at habsent ⊢
      exact fun hin => hstays ⟨hin, habsent⟩
  · intro key job hjob
    dsimp only
    rw [hkept key job hjob]
    exact h.asked key job (hvacated.kept key job hjob)
  · intro w hw
    obtain ⟨job, -, hjob, -⟩ := hopen w.key (List.mem_append_left _ (List.mem_map_of_mem hw))
    obtain ⟨hunsettled, hsame⟩ := h.works w hw
    dsimp only
    rw [hkept w.key job hjob]
    exact ⟨hunsettled, fun other hother => hsame other (hvacated.kept w.key other hother)⟩
  · intro r hr
    obtain ⟨job, -, hjob, -⟩ := hopen r.1 (List.mem_append_right _ (List.mem_map_of_mem hr))
    dsimp only
    rw [hkept r.1 job hjob]
    exact h.results r hr
  · intro key job hjob hfinished
    dsimp only
    rw [hkept key job hjob]
    exact h.finished key job (hvacated.kept key job hjob) hfinished
  · exact linked_evictions h.linked _

/-- A request is entered under a key that is not in the table. -/
theorem accepted (h : Consistent s) {peer : Text} {e : Envelope} (now : Int) (hroom : s.jobs.rows.length < maxJobs)
    (habsent : s.jobs.find? (jobKey peer e.token.text) = none) (hscope : s.scope ≠ [] ∧ e.scope.text = s.scope)
    (hformed : malformed s.hostAccess e = none) :
    Consistent { s with
      jobs := s.jobs.insert (jobKey peer e.token.text) { request := e, created := now, peer }
      works := s.works ++ [⟨jobKey peer e.token.text, peer, e.message.getD {}, now + 120000⟩] } := by
  generalize hkey : jobKey peer e.token.text = key at habsent ⊢
  have hfresh : key ∉ s.flight := by
    intro hin
    obtain ⟨job, hjob, -⟩ := (h.open_ key).mp hin
    rw [hjob] at habsent
    cases habsent
  have hrecent : recent key s.log = [] := h.absent key habsent
  have hperm : ((s.works ++ ([⟨key, peer, e.message.getD {}, now + 120000⟩] : List Work)).map Work.key ++
      s.results.map Prod.fst).Perm (key :: s.flight) := by
    rw [List.map_append, List.map_singleton, List.append_assoc]
    exact List.perm_middle
  constructor
  · have hlength := Table.length_insert_le s.jobs key { request := e, created := now, peer : Job }
    dsimp only
    omega
  · intro other job hother
    dsimp only at hother ⊢
    rw [Table.find?_insert] at hother
    split at hother
    · rename_i heq
      cases hother
      exact ⟨heq.trans hkey.symm, hscope.1, hscope.2, hformed⟩
    · exact h.entered other job hother
  · exact hperm.nodup_iff.mpr (List.nodup_cons.mpr ⟨hfresh, h.once⟩)
  · intro other
    refine (hperm.mem_iff (a := other)).trans ?_
    dsimp only
    rw [List.mem_cons, Table.find?_insert]
    split
    · rename_i heq
      constructor
      · intro _
        exact ⟨{ request := e, created := now, peer }, rfl, rfl⟩
      · intro _
        exact Or.inl heq
    · rename_i hne
      rw [← h.open_ other]
      constructor
      · rintro (heq | hin)
        · exact absurd heq hne
        · exact hin
      · exact Or.inr
  · intro other hother
    dsimp only at hother
    rw [Table.find?_insert] at hother
    split at hother
    · cases hother
    · exact h.absent other hother
  · intro other job hother
    dsimp only at hother ⊢
    rw [Table.find?_insert] at hother
    split at hother
    · rename_i heq
      rw [heq, hrecent]
      rintro a ⟨⟩
    · exact h.asked other job hother
  · intro w hw
    rw [List.mem_append, List.mem_singleton] at hw
    dsimp only
    rcases hw with hw | rfl
    · obtain ⟨hunsettled, hsame⟩ := h.works w hw
      refine ⟨hunsettled, ?_⟩
      intro job hjob
      rw [Table.find?_insert] at hjob
      split at hjob
      · rename_i heq
        exact absurd (heq ▸ List.mem_append_left _ (List.mem_map_of_mem hw)) hfresh
      · exact hsame job hjob
    · dsimp only
      rw [hrecent, Table.find?_insert_self]
      constructor
      · rintro a ⟨⟩
      · intro job hjob
        cases hjob
        exact ⟨rfl, rfl⟩
  · exact h.results
  · intro other job hother hfinished
    dsimp only at hother ⊢
    rw [Table.find?_insert] at hother
    split at hother
    · cases hother
      cases hfinished
    · exact h.finished other job hother hfinished
  · exact h.linked

end Consistent

section

variable [StoreLayout]

theorem scope_of_not_refused {s : Controller} {peer : Text} {e : Envelope} (h : s.refused peer e = none) :
    (s.scope ≠ [] ∧ e.scope.text = s.scope) ∧ malformed s.hostAccess e = none := by
  rw [refused] at h
  split at h
  · cases h
  · rename_i hscope
    split at h
    · cases h
    · simp only [not_or, Decidable.not_not] at hscope
      exact ⟨hscope.2, h⟩

theorem Consistent.handle {s : Controller} (h : Consistent s) (peer : Text) (e : Envelope) (now : Int) :
    Consistent (s.handle peer e now).2 := by
  rw [Controller.handle]
  cases hrefused : s.refused peer e with
  | some error => exact h
  | none =>
    dsimp only
    cases hjob : s.jobs.find? (jobKey peer e.token.text) with
    | some job =>
      dsimp only
      split
      · exact h
      · split
        · exact h
        · exact h
    | none =>
      dsimp only
      obtain ⟨hvacated, hroom⟩ := vacate_spec now h.small
      have hsound := h.vacated hvacated
      split
      · rename_i hspace
        obtain ⟨hscope, hformed⟩ := scope_of_not_refused hrefused
        have habsent : (vacate now s.jobs).1.find? (jobKey peer e.token.text) = none := by
          cases hafter : (vacate now s.jobs).1.find? (jobKey peer e.token.text) with
          | none => rfl
          | some job =>
            rw [hvacated.kept _ job hafter] at hjob
            cases hjob
        exact hsound.accepted now (hroom hspace) habsent hscope hformed
      · exact hsound

theorem Consistent.perform {s : Controller} (h : Consistent s) (action : Action) : Consistent (s.perform action) := by
  cases action with
  | deliver peer envelope now => exact h.handle peer envelope now
  | work i turn =>
    rw [Controller.perform]
    cases hi : s.works[i]? with
    | none => exact h
    | some work => exact h.handleJob hi turn
  | arrive i =>
    rw [Controller.perform]
    cases hi : s.results[i]? with
    | none => exact h
    | some pair =>
      obtain ⟨key, reply⟩ := pair
      exact h.arrive hi
  | setPeers authorized => exact { h with }
  | available ready => exact { h with }

theorem Consistent.run {s : Controller} (h : Consistent s) (actions : List Action) : Consistent (s.run actions) := by
  induction actions generalizing s with
  | nil => exact h
  | cons action actions ih => exact ih (h.perform action)

/-- Requests leave the table only when another one is entered. -/
theorem leaves_of_perform {s : Controller} (h : Consistent s) {action : Action} {key : Text} {job : Job}
    (hjob : s.jobs.find? key = some job) (hgone : (s.perform action).jobs.find? key = none) :
    ∃ peer e now, action = .deliver peer e now ∧ s.jobs.find? (jobKey peer e.token.text) = none ∧
      Leaves now s.jobs job := by
  cases action with
  | deliver peer e now =>
    refine ⟨peer, e, now, rfl, ?_⟩
    rw [Controller.perform, Controller.handle] at hgone
    cases hrefused : s.refused peer e with
    | some error =>
      rw [hrefused] at hgone
      exact absurd (hjob.symm.trans hgone) (Option.some_ne_none job)
    | none =>
      rw [hrefused] at hgone
      dsimp only at hgone
      cases hold : s.jobs.find? (jobKey peer e.token.text) with
      | some other =>
        rw [hold] at hgone
        dsimp only at hgone
        split at hgone
        · exact absurd (hjob.symm.trans hgone) (Option.some_ne_none job)
        · split at hgone
          · exact absurd (hjob.symm.trans hgone) (Option.some_ne_none job)
          · exact absurd (hjob.symm.trans hgone) (Option.some_ne_none job)
      | none =>
        rw [hold] at hgone
        dsimp only at hgone
        have hleft := (vacate_spec now h.small).1.left key job hjob
        refine ⟨rfl, ?_⟩
        split at hgone
        · dsimp only at hgone
          rw [Table.find?_insert] at hgone
          split at hgone
          · cases hgone
          · exact hleft hgone
        · exact hleft hgone
  | work i turn =>
    have hjobs : (s.perform (.work i turn)).jobs = s.jobs := by
      rw [Controller.perform]
      cases s.works[i]? with
      | none => rfl
      | some work =>
        dsimp only
        rw [Controller.handleJob]
        split
        · rfl
        · split
          · rfl
          · split
            · rfl
            · cases turn.reply with
              | ok response => rfl
              | error error =>
                dsimp only
                split <;> rfl
    rw [hjobs, hjob] at hgone
    cases hgone
  | arrive i =>
    rw [Controller.perform] at hgone
    cases hi : s.results[i]? with
    | none =>
      rw [hi, hjob] at hgone
      cases hgone
    | some pair =>
      obtain ⟨other, reply⟩ := pair
      rw [hi] at hgone
      dsimp only at hgone
      rw [finish] at hgone
      dsimp only at hgone
      cases hother : s.jobs.find? other with
      | none =>
        rw [hother, hjob] at hgone
        cases hgone
      | some otherJob =>
        rw [hother] at hgone
        dsimp only at hgone
        rw [Table.find?_insert, hjob] at hgone
        split at hgone
        · cases hgone
        · cases hgone
  | setPeers authorized =>
    rw [Controller.perform, hjob] at hgone
    cases hgone
  | available ready =>
    rw [Controller.perform, hjob] at hgone
    cases hgone

/-- How a request that is in the table is answered when an envelope comes under its key: the same envelope is
told that it is pending, or the result of its one execution; any other is refused. Either way nothing is run. -/
structure AnsweredFrom (s : Controller) (peer : Text) (e : Envelope) (now : Int) (job : Job) : Prop where
  unchanged : (s.handle peer e now).2 = s
  pending : job.request = e → job.finished = false → (s.handle peer e now).1 = .pending
  result : job.request = e → job.finished = true → (s.handle peer e now).1 = .result job.result ∧
    Answers (recent (jobKey peer e.token.text) s.log) job.result
  other : job.request ≠ e → ∃ error, (s.handle peer e now).1 = .failed error

theorem Consistent.answered {s : Controller} (h : Consistent s) {peer : Text} {e : Envelope} (now : Int) {job : Job}
    (hpeer : peer ∈ s.authorized) (hready : s.ready = true)
    (hjob : s.jobs.find? (jobKey peer e.token.text) = some job) : AnsweredFrom s peer e now job := by
  obtain ⟨-, hscope, hsame, hformed⟩ := h.entered _ job hjob
  have haccepted : job.request = e → s.refused peer e = none := by
    rintro rfl
    rw [refused, if_neg, if_neg]
    · exact hformed
    · simp [hready]
    · simp [hpeer, hscope, hsame]
  have hhandle : s.refused peer e = none → s.handle peer e now = if job.request ≠ e then
      (.failed (text "different_request_token_reuse"), s)
      else if job.finished then (.result job.result, s) else (.pending, s) := by
    intro hrefused
    rw [Controller.handle, hrefused]
    dsimp only
    rw [hjob]
  constructor
  · cases hrefused : s.refused peer e with
    | some error => rw [Controller.handle, hrefused]
    | none =>
      rw [hhandle hrefused]
      split
      · rfl
      · split
        · rfl
        · rfl
  · intro hrequest hfinished
    rw [hhandle (haccepted hrequest), if_neg (not_not_intro hrequest), if_neg (by simp [hfinished])]
  · intro hrequest hfinished
    rw [hhandle (haccepted hrequest), if_neg (not_not_intro hrequest), if_pos hfinished]
    exact ⟨rfl, h.finished _ job hjob hfinished⟩
  · intro hrequest
    cases hrefused : s.refused peer e with
    | some error =>
      rw [Controller.handle, hrefused]
      exact ⟨error, rfl⟩
    | none =>
      rw [hhandle hrefused, if_pos hrequest]
      exact ⟨_, rfl⟩

/-- The replica carries a request out at most once, and only as it was first tried, until its key leaves the
table; until then it is answered from the table. It leaves the table only when it is finished and another
request is entered after a minute, or while the table is full and nothing that is finished is older. -/
structure RunsOnce (s : Controller) : Prop where
  admitted : Linked Admitted s.log
  answered : ∀ peer e now job, peer ∈ s.authorized → s.ready = true →
    s.jobs.find? (jobKey peer e.token.text) = some job → AnsweredFrom s peer e now job
  leaves : ∀ action key job, s.jobs.find? key = some job → (s.perform action).jobs.find? key = none →
    ∃ peer e now, action = .deliver peer e now ∧ s.jobs.find? (jobKey peer e.token.text) = none ∧
      Leaves now s.jobs job

/-- This holds whatever is delivered while the container stays open. -/
theorem executed_once (scope : Text) (hostAccess ready : Bool) (authorized : List Text) (actions : List Action) :
    RunsOnce (run actions { scope, hostAccess, ready, authorized }) := by
  have h := (Consistent.start scope hostAccess ready authorized).run actions
  constructor
  · exact h.linked
  · intro peer e now job hpeer hready hjob
    exact h.answered now hpeer hready hjob
  · intro action key job hjob hgone
    exact leaves_of_perform h hjob hgone

end

/-! ## A retransmission that comes too late -/

def carriedOut (key : Text) (log : List Event) : Nat :=
  log.countP fun event => match event with
    | .executed k peer message reply => k = key && Asked.settled ⟨peer, message, reply⟩
    | .evicted _ => false

def account : Text := List.replicate 64 'a'

def describing (token : Text) : Envelope where
  op := .string (text "society.sync")
  protocol := .other (text "2")
  namespaceVersion := .other (text "1")
  scope := .string account
  token := .string token
  message := some { action := text "describe" }

def firstToken : Text := text "00000000-0000-4000-8000-000000000001"
def secondToken : Text := text "00000000-0000-4000-8000-000000000002"

/-- A request runs and is finished; a minute after it came, another request is entered, and the first envelope
is delivered once more. -/
def retransmitted : List Action :=
  let turn : Turn := { start := 1, stop := 2, reply := .ok (.chunk []) }
  [.deliver (text "phone") (describing firstToken) 0, .work 0 turn, .arrive 0,
    .deliver (text "phone") (describing secondToken) 60001,
    .deliver (text "phone") (describing firstToken) 60002, .work 1 turn]

theorem carried_out_again : carriedOut (jobKey (text "phone") firstToken)
    (@run plainLayout retransmitted { scope := account, authorized := [text "phone"] }).log = 2 := by
  decide +kernel

end SocietyHelper.Sync.Controller
