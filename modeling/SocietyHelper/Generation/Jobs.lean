import SocietyHelper.Generation.Host

/-! # What becomes of a job

A job that is cancelled, completed or failed stays so. The engine runs for one
job at a time, and once for each: a job enters the queue when it is submitted,
and leaves it when its run starts.
-/

namespace SocietyHelper.Generation

open Library

def Response.over (status : Response) : Prop :=
  status.state = completed ∨ status.state = failed ∨ status.state = cancelled

structure HostSound (s : Host) : Prop where
  named : ∀ id job, s.jobs.find? id = some job → Host.identifier id = true ∧ job.status.id = .string id
  queue : s.queue.Nodup
  waiting : ∀ id ∈ s.queue, id ∉ s.runs.map Run.id ∧ ∃ job, s.jobs.find? id = some job ∧
    (job.status.state = queued ∨ job.status.state = cancelled ∧ job.cancelled = true)
  once : (s.runs.map Run.id).Nodup
  ran : ∀ run ∈ s.runs, ∃ job, s.jobs.find? run.id = some job ∧ job.status.state ≠ queued
  unfinished : ∀ i run, s.runs[i]? = some run → run.isDone = false → i + 1 = s.runs.length ∧ s.active = run.id
  watched : s.active ≠ [] → ∃ run, s.runs.getLast? = some run ∧ run.id = s.active ∧ s.signalled = false
  current : s.active ≠ [] → ∃ job, s.jobs.find? s.active = some job ∧
    (job.status.state = running ∨ job.status.state = cancelling)
  working : ∀ id job, s.jobs.find? id = some job → job.status.state = running ∨ job.status.state = cancelling →
    s.active = id
  told : s.active = [] → s.signalled = true
  flagged : ∀ id job, s.jobs.find? id = some job → job.cancelled = true →
    job.status.state = cancelled ∨ job.status.state = cancelling
  asked : ∀ id job, s.jobs.find? id = some job → job.status.state = cancelling → job.cancelled = true

/-- What a step leaves of each job: its owner, the fact that it was cancelled, and how it ended. -/
def Follows (s t : Host) : Prop :=
  ∀ id job, s.jobs.find? id = some job → ∃ after, t.jobs.find? id = some after ∧ after.peer = job.peer ∧
    (job.cancelled = true → after.cancelled = true) ∧
    (job.status.over → after.status.state = job.status.state ∧ after.status.bytes = job.status.bytes ∧
      after.status.sha256 = job.status.sha256)

theorem Follows.refl (s : Host) : Follows s s := by
  intro id job hjob
  exact ⟨job, hjob, rfl, fun h => h, fun _ => ⟨rfl, rfl, rfl⟩⟩

theorem Follows.trans {s t u : Host} (h : Follows s t) (h' : Follows t u) : Follows s u := by
  intro id job hjob
  obtain ⟨middle, hmiddle, hpeer, hcancelled, hover⟩ := h id job hjob
  obtain ⟨last, hlast, hpeer', hcancelled', hover'⟩ := h' id middle hmiddle
  refine ⟨last, hlast, hpeer'.trans hpeer, fun hc => hcancelled' (hcancelled hc), ?_⟩
  intro ho
  obtain ⟨hstate, hbytes, hhash⟩ := hover ho
  have ho' : middle.status.over := by
    rw [Response.over, hstate]
    exact ho
  obtain ⟨hstate', hbytes', hhash'⟩ := hover' ho'
  exact ⟨hstate'.trans hstate, hbytes'.trans hbytes, hhash'.trans hhash⟩

/-- Jobs are entered under new ids. -/
theorem Follows.insert {s : Host} {id : Text} (job : Job) (hnew : s.jobs.find? id = none) {t : Host}
    (ht : t.jobs = s.jobs.insert id job) : Follows s t := by
  intro other old hold
  refine ⟨old, ?_, rfl, fun h => h, fun _ => ⟨rfl, rfl, rfl⟩⟩
  rw [ht, Table.find?_insert_ne]
  · exact hold
  · rintro rfl
    rw [hnew] at hold
    cases hold

/-- One job changes while it is not over. -/
theorem Follows.update {s : Host} {id : Text} {job k : Job} (hjob : s.jobs.find? id = some job)
    (hpeer : k.peer = job.peer) (hcancelled : job.cancelled = true → k.cancelled = true)
    (hover : job.status.over → k.status.state = job.status.state ∧ k.status.bytes = job.status.bytes ∧
      k.status.sha256 = job.status.sha256) {t : Host} (ht : t.jobs = s.jobs.insert id k) : Follows s t := by
  intro other old hold
  rw [ht, Table.find?_insert]
  split
  · rename_i hother
    subst hother
    cases hjob.symm.trans hold
    exact ⟨k, rfl, hpeer, hcancelled, hover⟩
  · exact ⟨old, hold, rfl, fun h => h, fun _ => ⟨rfl, rfl, rfl⟩⟩

theorem Follows.same {s t : Host} (ht : t.jobs = s.jobs) : Follows s t := by
  intro id job hjob
  exact ⟨job, ht ▸ hjob, rfl, fun h => h, fun _ => ⟨rfl, rfl, rfl⟩⟩

theorem identifier_ne_nil {id : Text} (h : Host.identifier id = true) : id ≠ [] := by
  rintro rfl
  exact absurd h (by decide)

namespace HostSound

variable {s : Host}

theorem start : HostSound {} where
  named := by
    rintro id job ⟨⟩
  queue := List.nodup_nil
  waiting := by
    rintro id ⟨⟩
  once := List.nodup_nil
  ran := by
    rintro run ⟨⟩
  unfinished := by
    rintro i run hrun
    rw [List.getElem?_nil] at hrun
    cases hrun
  watched := fun h => absurd rfl h
  current := fun h => absurd rfl h
  working := by
    rintro id job ⟨⟩
  told := fun _ => rfl
  flagged := by
    rintro id job ⟨⟩
  asked := by
    rintro id job ⟨⟩

/-- Where no job is active, every run is over. -/
theorem all_done (h : HostSound s) (hidle : s.active = []) : ∀ run ∈ s.runs, run.isDone = true := by
  intro run hrun
  obtain ⟨i, hi⟩ := List.getElem?_of_mem hrun
  cases hdone : run.isDone with
  | true => rfl
  | false =>
    obtain ⟨-, hactive⟩ := h.unfinished i run hi hdone
    obtain ⟨job, hjob, -⟩ := h.ran run hrun
    exact absurd (hactive.symm.trans hidle) (identifier_ne_nil (h.named run.id job hjob).1)

/-- A job that waits does not run. -/
theorem not_active (h : HostSound s) {id : Text} {job : Job} (hjob : s.jobs.find? id = some job)
    (hstate : job.status.state ≠ running ∧ job.status.state ≠ cancelling) : s.active ≠ id := by
  rintro rfl
  by_cases hactive : s.active = []
  · exact identifier_ne_nil (h.named _ job hjob).1 hactive
  · obtain ⟨other, hother, hworking⟩ := h.current hactive
    cases hjob.symm.trans hother
    rcases hworking with hworking | hworking
    · exact hstate.1 hworking
    · exact hstate.2 hworking

/-- A job that is not over changes its status. -/
theorem update (h : HostSound s) {id : Text} {job k : Job} (hjob : s.jobs.find? id = some job)
    (hid : k.status.id = job.status.id)
    (hqueued : id ∈ s.queue → k.status.state = queued ∨ k.status.state = cancelled ∧ k.cancelled = true)
    (hran : k.status.state = queued → job.status.state = queued)
    (hworking : (k.status.state = running ∨ k.status.state = cancelling) ↔
      (job.status.state = running ∨ job.status.state = cancelling))
    (hflagged : k.cancelled = true → k.status.state = cancelled ∨ k.status.state = cancelling)
    (hasked : k.status.state = cancelling → k.cancelled = true) :
    HostSound { s with jobs := s.jobs.insert id k } where
  named := by
    intro other old hold
    dsimp only at hold
    rw [Table.find?_insert] at hold
    split at hold
    · rename_i heq
      cases hold
      subst heq
      exact ⟨(h.named _ job hjob).1, hid.trans (h.named _ job hjob).2⟩
    · exact h.named other old hold
  queue := h.queue
  waiting := by
    intro other hother
    obtain ⟨hnew, old, hold, hstate⟩ := h.waiting other hother
    refine ⟨hnew, ?_⟩
    dsimp only
    rw [Table.find?_insert]
    split
    · rename_i heq
      exact ⟨k, rfl, hqueued (heq ▸ hother)⟩
    · exact ⟨old, hold, hstate⟩
  once := h.once
  ran := by
    intro run hrun
    obtain ⟨old, hold, hstate⟩ := h.ran run hrun
    dsimp only
    rw [Table.find?_insert]
    split
    · rename_i heq
      rw [heq, hjob] at hold
      cases hold
      exact ⟨k, rfl, fun hq => hstate (hran hq)⟩
    · exact ⟨old, hold, hstate⟩
  unfinished := h.unfinished
  watched := h.watched
  current := by
    intro hactive
    obtain ⟨old, hold, hstate⟩ := h.current hactive
    dsimp only
    rw [Table.find?_insert]
    split
    · rename_i heq
      rw [heq, hjob] at hold
      cases hold
      exact ⟨k, rfl, hworking.mpr hstate⟩
    · exact ⟨old, hold, hstate⟩
  working := by
    intro other old hold hstate
    dsimp only at hold
    rw [Table.find?_insert] at hold
    split at hold
    · rename_i heq
      cases hold
      rw [heq]
      exact h.working id job hjob (hworking.mp hstate)
    · exact h.working other old hold hstate
  told := h.told
  flagged := by
    intro other old hold
    dsimp only at hold
    rw [Table.find?_insert] at hold
    split at hold
    · cases hold
      exact hflagged
    · exact h.flagged other old hold
  asked := by
    intro other old hold
    dsimp only at hold
    rw [Table.find?_insert] at hold
    split at hold
    · cases hold
      exact hasked
    · exact h.asked other old hold

/-- A job that has left the queue cannot be run. -/
theorem fail (h : HostSound s) {id : Text} {job : Job} {status : Response} (hjob : s.jobs.find? id = some job)
    (hnot : id ∉ s.queue) (hqueued : job.status.state = queued) (hcancelled : job.cancelled = false)
    (hstatus : status.id = job.status.id) (hstate : status.state = failed) :
    HostSound { s with jobs := s.jobs.insert id { job with status } } := by
  apply h.update hjob
  · exact hstatus
  · intro hin
    exact absurd hin hnot
  · dsimp only
    rw [hstate]
    intro hfalse
    exact absurd hfalse (by decide)
  · dsimp only
    rw [hstate, hqueued]
    decide
  · dsimp only
    rw [hcancelled]
    intro hfalse
    cases hfalse
  · dsimp only
    rw [hstate]
    intro hfalse
    exact absurd hfalse (by decide)

/-- A job is entered under a new id: queued, or already cancelled. -/
theorem enter (h : HostSound s) {id : Text} (job : Job) {queue : List Text} (hnew : s.jobs.find? id = none)
    (hid : Host.identifier id = true) (hstatus : job.status.id = .string id)
    (hqueue : queue = s.queue ∧ job.status.state = cancelled ∧ job.cancelled = true ∨
      queue = s.queue ++ [id] ∧ job.status.state = queued ∧ job.cancelled = false) :
    HostSound { s with jobs := s.jobs.insert id job, queue } := by
  have hfind : ∀ other old, s.jobs.find? other = some old → (s.jobs.insert id job).find? other = some old := by
    intro other old hold
    rw [Table.find?_insert_ne]
    · exact hold
    · rintro rfl
      rw [hnew] at hold
      cases hold
  have hcases : ∀ other old, (s.jobs.insert id job).find? other = some old →
      other = id ∧ old = job ∨ s.jobs.find? other = some old := by
    intro other old hold
    rw [Table.find?_insert] at hold
    split at hold
    · rename_i heq
      cases hold
      exact Or.inl ⟨heq, rfl⟩
    · exact Or.inr hold
  have hidle : job.status.state ≠ running ∧ job.status.state ≠ cancelling := by
    rcases hqueue with ⟨-, hstate, -⟩ | ⟨-, hstate, -⟩
    · rw [hstate]
      decide
    · rw [hstate]
      decide
  have hnotran : id ∉ s.runs.map Run.id := by
    intro hin
    obtain ⟨run, hrun, heq⟩ := List.mem_map.mp hin
    obtain ⟨old, hold, -⟩ := h.ran run hrun
    rw [heq, hnew] at hold
    cases hold
  have hnotqueued : id ∉ s.queue := by
    intro hin
    obtain ⟨-, old, hold, -⟩ := h.waiting id hin
    rw [hnew] at hold
    cases hold
  constructor
  · intro other old hold
    rcases hcases other old hold with ⟨rfl, rfl⟩ | hold
    · exact ⟨hid, hstatus⟩
    · exact h.named other old hold
  · rcases hqueue with ⟨rfl, -⟩ | ⟨rfl, -⟩
    · exact h.queue
    · rw [List.nodup_append]
      refine ⟨h.queue, List.nodup_singleton id, ?_⟩
      intro a ha b hb hab
      rw [hab, List.mem_singleton.mp hb] at ha
      exact hnotqueued ha
  · intro other hother
    rcases hqueue with ⟨rfl, -⟩ | ⟨rfl, hstate, -⟩
    · obtain ⟨hnot, old, hold, hwaits⟩ := h.waiting other hother
      exact ⟨hnot, old, hfind other old hold, hwaits⟩
    · rw [List.mem_append, List.mem_singleton] at hother
      rcases hother with hother | rfl
      · obtain ⟨hnot, old, hold, hwaits⟩ := h.waiting other hother
        exact ⟨hnot, old, hfind other old hold, hwaits⟩
      · exact ⟨hnotran, job, Table.find?_insert_self _ _ _, Or.inl hstate⟩
  · exact h.once
  · intro run hrun
    obtain ⟨old, hold, hstate⟩ := h.ran run hrun
    exact ⟨old, hfind run.id old hold, hstate⟩
  · exact h.unfinished
  · exact h.watched
  · intro hactive
    obtain ⟨old, hold, hstate⟩ := h.current hactive
    exact ⟨old, hfind s.active old hold, hstate⟩
  · intro other old hold hstate
    rcases hcases other old hold with ⟨-, rfl⟩ | hold
    · rcases hstate with hstate | hstate
      · exact absurd hstate hidle.1
      · exact absurd hstate hidle.2
    · exact h.working other old hold hstate
  · exact h.told
  · intro other old hold hcancelled
    rcases hcases other old hold with ⟨-, rfl⟩ | hold
    · rcases hqueue with ⟨-, hstate, -⟩ | ⟨-, -, hnot⟩
      · exact Or.inl hstate
      · rw [hnot] at hcancelled
        cases hcancelled
    · exact h.flagged other old hold hcancelled
  · intro other old hold hstate
    rcases hcases other old hold with ⟨-, rfl⟩ | hold
    · exact absurd hstate hidle.2
    · exact h.asked other old hold hstate

/-- What waits may leave the queue. -/
theorem dequeue (h : HostSound s) {queue : List Text} (hqueue : queue.Sublist s.queue) :
    HostSound { s with queue } :=
  { h with
    queue := h.queue.sublist hqueue
    waiting := fun id hid => h.waiting id (hqueue.subset hid) }

/-- A run that is not over goes on. -/
theorem setPhase (h : HostSound s) {i : Nat} {run : Run} (hrun : s.runs[i]? = some run) (hdone : run.isDone = false)
    (phase : Phase) : HostSound (s.setPhase i phase) := by
  obtain ⟨hlast, hactive⟩ := h.unfinished i run hrun hdone
  have hids : (s.runs.modify i fun run => { run with phase }).map Run.id = s.runs.map Run.id := by
    apply List.ext_getElem?
    intro k
    rw [List.getElem?_map, List.getElem?_map, List.getElem?_modify]
    by_cases hk : i = k
    · subst hk
      rw [hrun]
      simp
    · simp [hk]
  have hmem : ∀ other ∈ s.runs.modify i fun run => { run with phase }, ∃ old ∈ s.runs, old.id = other.id := by
    intro other hother
    have hin : other.id ∈ s.runs.map Run.id := hids ▸ List.mem_map_of_mem hother
    obtain ⟨old, hold, heq⟩ := List.mem_map.mp hin
    exact ⟨old, hold, heq⟩
  have hlength : (s.runs.modify i fun run => { run with phase }).length = s.runs.length := List.length_modify _ _ _
  constructor
  · exact h.named
  · exact h.queue
  · intro id hid
    obtain ⟨hnot, hjob⟩ := h.waiting id hid
    refine ⟨?_, hjob⟩
    rw [Host.setPhase, hids]
    exact hnot
  · rw [Host.setPhase, hids]
    exact h.once
  · intro other hother
    obtain ⟨old, hold, heq⟩ := hmem other hother
    rw [← heq]
    exact h.ran old hold
  · intro k other hother hnot
    rw [Host.setPhase, hlength]
    rw [Host.setPhase] at hother
    dsimp only at hother
    rw [List.getElem?_modify] at hother
    by_cases hk : i = k
    · subst hk
      have hsame : { run with phase } = other := by simpa [hrun] using hother
      subst hsame
      exact ⟨hlast, hactive⟩
    · have hold : s.runs[k]? = some other := by simpa [hk] using hother
      exact h.unfinished k other hold hnot
  · intro hne
    obtain ⟨old, hold, hid, hsignalled⟩ := h.watched hne
    refine ⟨{ run with phase }, ?_, ?_, hsignalled⟩
    · rw [Host.setPhase, List.getLast?_eq_getElem?, hlength, ← hlast, Nat.add_sub_cancel, List.getElem?_modify, hrun]
      simp
    · exact hactive.symm
  · exact h.current
  · exact h.working
  · exact h.told
  · exact h.flagged
  · exact h.asked

/-- The next job of the queue starts to run. -/
theorem begin_run (h : HostSound s) {id : Text} {queue : List Text} {job : Job} {status : Response}
    (hqueue : s.queue = id :: queue) (hidle : s.active = []) (hjob : s.jobs.find? id = some job)
    (hnot : job.cancelled = false) (hstatus : status.id = job.status.id) (hstate : status.state = running) :
    HostSound { s with
      jobs := s.jobs.insert id { job with status }
      queue
      active := id
      runs := s.runs ++ [⟨id, .engine⟩]
      signalled := false } := by
  have hnodup := h.queue
  rw [hqueue, List.nodup_cons] at hnodup
  obtain ⟨hfresh, -⟩ := h.waiting id (by rw [hqueue]; exact List.mem_cons_self)
  have hne : id ≠ [] := identifier_ne_nil (h.named id job hjob).1
  have hcases : ∀ other old, (s.jobs.insert id { job with status }).find? other = some old →
      other = id ∧ old = { job with status } ∨ other ≠ id ∧ s.jobs.find? other = some old := by
    intro other old hold
    rw [Table.find?_insert] at hold
    split at hold
    · rename_i heq
      cases hold
      exact Or.inl ⟨heq, rfl⟩
    · rename_i hother
      exact Or.inr ⟨hother, hold⟩
  have hfind : ∀ other old, other ≠ id → s.jobs.find? other = some old →
      (s.jobs.insert id { job with status }).find? other = some old := by
    intro other old hother hold
    rw [Table.find?_insert_ne _ _ hother, hold]
  constructor
  · intro other old hold
    rcases hcases other old hold with ⟨rfl, rfl⟩ | ⟨-, hold⟩
    · exact ⟨(h.named _ job hjob).1, hstatus.trans (h.named _ job hjob).2⟩
    · exact h.named other old hold
  · exact hnodup.2
  · intro other hother
    have hothers : other ≠ id := by
      rintro rfl
      exact hnodup.1 hother
    obtain ⟨hnotran, old, hold, hwaits⟩ := h.waiting other (by rw [hqueue]; exact List.mem_cons_of_mem id hother)
    refine ⟨?_, old, hfind other old hothers hold, hwaits⟩
    rw [List.map_append, List.map_singleton, List.mem_append, List.mem_singleton, not_or]
    exact ⟨hnotran, hothers⟩
  · rw [List.map_append, List.map_singleton, List.nodup_append]
    refine ⟨h.once, List.nodup_singleton id, ?_⟩
    intro a ha b hb hab
    rw [hab, List.mem_singleton.mp hb] at ha
    exact hfresh ha
  · intro run hrun
    rw [List.mem_append, List.mem_singleton] at hrun
    rcases hrun with hrun | rfl
    · obtain ⟨old, hold, hqueued⟩ := h.ran run hrun
      refine ⟨old, hfind run.id old ?_ hold, hqueued⟩
      rintro heq
      exact hfresh (heq ▸ List.mem_map_of_mem hrun)
    · refine ⟨{ job with status }, Table.find?_insert_self _ _ _, ?_⟩
      dsimp only
      rw [hstate]
      decide
  · intro k run hrun hopen
    dsimp only at hrun ⊢
    rw [List.length_append, List.length_singleton]
    rw [List.getElem?_append] at hrun
    split at hrun
    · rw [h.all_done hidle run (List.mem_of_getElem? hrun)] at hopen
      cases hopen
    · obtain ⟨hlt, rfl⟩ := List.getElem?_eq_some_iff.mp hrun
      rw [List.length_singleton] at hlt
      refine ⟨by omega, ?_⟩
      rw [List.getElem_singleton]
  · intro _
    refine ⟨⟨id, .engine⟩, ?_, rfl, rfl⟩
    exact List.getLast?_concat
  · intro _
    exact ⟨{ job with status }, Table.find?_insert_self _ _ _, Or.inl hstate⟩
  · intro other old hold hworks
    rcases hcases other old hold with ⟨rfl, -⟩ | ⟨-, hold⟩
    · rfl
    · exact absurd ((h.working other old hold hworks).symm.trans hidle)
        (identifier_ne_nil (h.named other old hold).1)
  · intro hactive
    exact absurd hactive hne
  · intro other old hold hcancelled
    rcases hcases other old hold with ⟨-, rfl⟩ | ⟨-, hold⟩
    · rw [hnot] at hcancelled
      cases hcancelled
    · exact h.flagged other old hold hcancelled
  · intro other old hold hstate'
    rcases hcases other old hold with ⟨-, rfl⟩ | ⟨-, hold⟩
    · rw [hstate] at hstate'
      exact absurd hstate' (by decide)
    · exact h.asked other old hold hstate'

/-- The active run is over and its job is told how it ended. -/
theorem end_run (h : HostSound s) {run : Run} {job : Job} {status : Response} (hlast : s.runs.getLast? = some run)
    (hdone : run.isDone = true) (hactive : s.active = run.id) (hjob : s.jobs.find? run.id = some job)
    (hstatus : status.id = job.status.id)
    (hstate : status.state = cancelled ∨ job.cancelled = false ∧ (status.state = completed ∨ status.state = failed)) :
    HostSound { s with jobs := s.jobs.insert run.id { job with status }, active := [], signalled := true } := by
  have hover : status.state ≠ queued ∧ status.state ≠ running ∧ status.state ≠ cancelling := by
    rcases hstate with hstate | ⟨-, hstate | hstate⟩
    · rw [hstate]
      decide
    · rw [hstate]
      decide
    · rw [hstate]
      decide
  have hworked : ∃ old, s.jobs.find? run.id = some old ∧ (old.status.state = running ∨ old.status.state = cancelling) := by
    rw [← hactive]
    apply h.current
    rw [hactive]
    exact identifier_ne_nil (h.named run.id job hjob).1
  have hnotqueued : run.id ∉ s.queue := by
    intro hin
    exact (h.waiting run.id hin).1 (List.mem_map_of_mem (List.mem_of_getLast? hlast))
  have hcases : ∀ other old, (s.jobs.insert run.id { job with status }).find? other = some old →
      other = run.id ∧ old = { job with status } ∨ other ≠ run.id ∧ s.jobs.find? other = some old := by
    intro other old hold
    rw [Table.find?_insert] at hold
    split at hold
    · rename_i heq
      cases hold
      exact Or.inl ⟨heq, rfl⟩
    · rename_i hother
      exact Or.inr ⟨hother, hold⟩
  constructor
  · intro other old hold
    rcases hcases other old hold with ⟨rfl, rfl⟩ | ⟨-, hold⟩
    · exact ⟨(h.named _ job hjob).1, hstatus.trans (h.named _ job hjob).2⟩
    · exact h.named other old hold
  · exact h.queue
  · intro other hother
    obtain ⟨hnot, old, hold, hwaits⟩ := h.waiting other hother
    refine ⟨hnot, old, ?_, hwaits⟩
    dsimp only
    rw [Table.find?_insert_ne]
    · exact hold
    · rintro rfl
      exact hnotqueued hother
  · exact h.once
  · intro other hother
    obtain ⟨old, hold, hqueued⟩ := h.ran other hother
    dsimp only
    rw [Table.find?_insert]
    split
    · exact ⟨_, rfl, hover.1⟩
    · exact ⟨old, hold, hqueued⟩
  · intro k other hother hopen
    obtain ⟨hk, hother'⟩ := h.unfinished k other hother hopen
    have heq : other = run := by
      rw [List.getLast?_eq_getElem?, ← hk, Nat.add_sub_cancel, hother] at hlast
      exact Option.some.inj hlast
    rw [heq, hdone] at hopen
    cases hopen
  · intro hne
    exact absurd rfl hne
  · intro hne
    exact absurd rfl hne
  · intro other old hold hworks
    rcases hcases other old hold with ⟨-, rfl⟩ | ⟨hne, hold⟩
    · rcases hworks with hworks | hworks
      · exact absurd hworks hover.2.1
      · exact absurd hworks hover.2.2
    · exact absurd ((h.working other old hold hworks).symm.trans hactive) hne
  · intro _
    rfl
  · intro other old hold hcancelled
    rcases hcases other old hold with ⟨-, rfl⟩ | ⟨-, hold⟩
    · rcases hstate with hstate | ⟨hnot, -⟩
      · exact Or.inl hstate
      · rw [hnot] at hcancelled
        cases hcancelled
    · exact h.flagged other old hold hcancelled
  · intro other old hold hstate'
    rcases hcases other old hold with ⟨-, rfl⟩ | ⟨-, hold⟩
    · exact absurd hstate' hover.2.2
    · exact h.asked other old hold hstate'

/-! ## Requests -/

theorem submit (h : HostSound s) (peer : Text) {id : Text} (hid : Host.identifier id = true) (input : Input)
    (modelError : Option Text) :
    HostSound (s.submit peer id input modelError).2 ∧ Follows s (s.submit peer id input modelError).2 := by
  rw [Host.submit.eq_def]
  cases hjob : s.jobs.find? id with
  | some job =>
    dsimp only
    split
    · exact ⟨h, Follows.refl s⟩
    · exact ⟨h, Follows.refl s⟩
  | none =>
    dsimp only
    split
    · exact ⟨h, Follows.refl s⟩
    · split
      · exact ⟨h, Follows.refl s⟩
      · cases modelError with
        | some error => exact ⟨h, Follows.refl s⟩
        | none =>
          dsimp only
          split
          · exact ⟨h, Follows.refl s⟩
          · exact ⟨h.enter _ hjob hid rfl (Or.inr ⟨rfl, rfl, rfl⟩), Follows.insert _ hjob rfl⟩

theorem cancelUnknown (h : HostSound s) (peer : Text) {id : Text} (hid : Host.identifier id = true)
    (hjob : s.jobs.find? id = none) :
    HostSound (s.cancelUnknown peer id).2 ∧ Follows s (s.cancelUnknown peer id).2 := by
  rw [Host.cancelUnknown]
  split
  · exact ⟨h, Follows.refl s⟩
  · exact ⟨h.enter _ hjob hid rfl (Or.inl ⟨rfl, rfl, rfl⟩), Follows.insert _ hjob rfl⟩

theorem cancelKnown (h : HostSound s) {id : Text} {job : Job} (hjob : s.jobs.find? id = some job) :
    HostSound (s.cancelKnown id job).2 ∧ Follows s (s.cancelKnown id job).2 := by
  rw [Host.cancelKnown]
  dsimp only
  split
  · rename_i hstate
    generalize hafter : (if job.status.state = queued then cancelled else cancelling) = state
    have hchoice : job.status.state = queued ∧ state = cancelled ∨
        (job.status.state = running ∨ job.status.state = cancelling) ∧ state = cancelling := by
      rw [← hafter]
      rcases hstate with hstate | hstate
      · exact Or.inl ⟨hstate, if_pos hstate⟩
      · refine Or.inr ⟨hstate, if_neg ?_⟩
        rcases hstate with hstate | hstate
        · rw [hstate]
          decide
        · rw [hstate]
          decide
    constructor
    · apply h.update hjob
      · rfl
      · intro hqueue
        obtain ⟨-, old, hold, hwaits⟩ := h.waiting id hqueue
        cases hjob.symm.trans hold
        rcases hchoice with ⟨-, rfl⟩ | ⟨hworks, -⟩
        · exact Or.inr ⟨rfl, rfl⟩
        · rcases hwaits with hwaits | ⟨hwaits, -⟩
          · rw [hwaits] at hworks
            exact absurd hworks (by decide)
          · rw [hwaits] at hworks
            exact absurd hworks (by decide)
      · intro hqueued
        dsimp only at hqueued
        rcases hchoice with ⟨-, rfl⟩ | ⟨-, rfl⟩
        · exact absurd hqueued (by decide)
        · exact absurd hqueued (by decide)
      · dsimp only
        rcases hchoice with ⟨hold, rfl⟩ | ⟨hworks, rfl⟩
        · rw [hold]
          decide
        · exact iff_of_true (by decide) hworks
      · intro _
        rcases hchoice with ⟨-, rfl⟩ | ⟨-, rfl⟩
        · exact Or.inl rfl
        · exact Or.inr rfl
      · intro _
        rfl
    · apply Follows.update (k := { job with status := { job.status with state }, cancelled := true }) hjob
      · rfl
      · intro _
        rfl
      · intro hover
        rw [Response.over] at hover
        rcases hstate with hstate | hstate | hstate
        · rw [hstate] at hover
          exact absurd hover (by decide)
        · rw [hstate] at hover
          exact absurd hover (by decide)
        · rw [hstate] at hover
          exact absurd hover (by decide)
      · rfl
  · exact ⟨h, Follows.refl s⟩

theorem handle (h : HostSound s) (peer : Text) (request : Request) (storage : Host.Storage) :
    HostSound (s.handle peer request storage).2 ∧ Follows s (s.handle peer request storage).2 := by
  rw [Host.handle]
  split
  · exact ⟨h, Follows.refl s⟩
  · split
    · exact ⟨h, Follows.refl s⟩
    · rename_i hvalid
      simp only [not_or, Bool.not_eq_true, Bool.not_eq_false] at hvalid
      have hid : Host.identifier request.id.text = true := by simpa using hvalid.2.2
      cases hjob : s.jobs.find? request.id.text with
      | none =>
        dsimp only
        split
        · exact h.submit peer hid request.job storage.modelError
        · split
          · exact h.cancelUnknown peer hid hjob
          · exact ⟨h, Follows.refl s⟩
      | some job =>
        dsimp only
        split
        · exact ⟨h, Follows.refl s⟩
        · split
          · exact h.submit peer hid request.job storage.modelError
          · split
            · exact ⟨h, Follows.refl s⟩
            · split
              · exact h.cancelKnown hjob
              · split
                · exact ⟨h, Follows.refl s⟩
                · exact ⟨h, Follows.refl s⟩

/-! ## The queue and the engine -/

theorem pump (h : HostSound s) (error : Option Text) : HostSound (s.pump error) ∧ Follows s (s.pump error) := by
  rw [Host.pump]
  split
  · exact ⟨h, Follows.refl s⟩
  · rename_i hfree
    rw [not_or, Decidable.not_not] at hfree
    cases hqueue : s.queue with
    | nil => exact ⟨h, Follows.refl s⟩
    | cons id queue =>
      have hrest : HostSound { s with queue } := h.dequeue (hqueue ▸ List.sublist_cons_self id queue)
      have hnodup := h.queue
      rw [hqueue, List.nodup_cons] at hnodup
      obtain ⟨-, job, hjob, hwaits⟩ := h.waiting id (by rw [hqueue]; exact List.mem_cons_self)
      dsimp only
      rw [hjob]
      dsimp only
      split
      · exact ⟨hrest, Follows.same rfl⟩
      · rename_i hnot
        have hqueued : job.status.state = queued := by
          rcases hwaits with hwaits | ⟨-, hcancelled⟩
          · exact hwaits
          · exact absurd hcancelled hnot
        have hover : ¬job.status.over := by
          rw [Response.over, hqueued]
          decide
        cases error with
        | some error =>
          dsimp only [Host.setStatus]
          rw [hjob]
          dsimp only
          constructor
          · exact hrest.fail hjob hnodup.1 hqueued (Bool.eq_false_iff.mpr hnot) rfl rfl
          · exact Follows.update (k := { job with status := { job.status with state := failed, error := .string error } })
              hjob rfl (fun hcancelled => hcancelled) (fun ho => absurd ho hover) rfl
        | none =>
          dsimp only [Host.setStatus]
          rw [hjob]
          dsimp only
          constructor
          · exact h.begin_run hqueue hfree.1 hjob (Bool.eq_false_iff.mpr hnot) rfl rfl
          · refine Follows.update hjob ?_ ?_ ?_ rfl
            · rfl
            · exact fun hcancelled => hcancelled
            · exact fun ho => absurd ho hover

theorem engineReturns (h : HostSound s) (i : Nat) (ending : Host.Ending) :
    HostSound (s.engineReturns i ending) ∧ Follows s (s.engineReturns i ending) := by
  rw [Host.engineReturns.eq_def]
  split
  · rename_i id hrun
    split
    · exact ⟨h.setPhase hrun rfl _, Follows.same rfl⟩
    · split
      · exact ⟨h.setPhase hrun rfl _, Follows.same rfl⟩
      · exact ⟨h.setPhase hrun rfl _, Follows.same rfl⟩
      · exact ⟨h.setPhase hrun rfl _, Follows.same rfl⟩
      · split
        · exact ⟨h.setPhase hrun rfl _, Follows.same rfl⟩
        · exact ⟨h.setPhase hrun rfl _, Follows.same rfl⟩
  · exact ⟨h, Follows.refl s⟩

theorem save (h : HostSound s) (i : Nat) (saved : Bool) : HostSound (s.save i saved) ∧ Follows s (s.save i saved) := by
  rw [Host.save]
  split
  · rename_i id png hrun
    split
    · exact ⟨h.setPhase hrun rfl _, Follows.same rfl⟩
    · split
      · exact ⟨h.setPhase hrun rfl _, Follows.same rfl⟩
      · split
        · exact ⟨h.setPhase hrun rfl _, Follows.same rfl⟩
        · exact ⟨{ h.setPhase hrun rfl _ with }, Follows.same rfl⟩
  · exact ⟨h, Follows.refl s⟩

theorem report (h : HostSound s) (i : Nat) (progress : Progress) :
    HostSound (s.report i progress) ∧ Follows s (s.report i progress) := by
  rw [Host.report]
  split
  · exact ⟨{ h with }, Follows.same rfl⟩
  · exact ⟨h, Follows.refl s⟩

theorem progressed (h : HostSound s) (i : Nat) : HostSound (s.progressed i) ∧ Follows s (s.progressed i) := by
  rw [Host.progressed]
  split
  · rename_i id progress hreport
    have hrest : HostSound { s with reports := s.reports.eraseIdx i } := { h with }
    rw [Host.setStatus]
    dsimp only
    cases hjob : s.jobs.find? id with
    | none => exact ⟨hrest, Follows.same rfl⟩
    | some job =>
      dsimp only
      constructor
      · apply hrest.update (k := { job with status := _ }) hjob
        · rfl
        · intro hin
          obtain ⟨-, old, hold, hwaits⟩ := h.waiting id hin
          cases hjob.symm.trans hold
          exact hwaits
        · intro hqueued
          exact hqueued
        · exact Iff.rfl
        · exact h.flagged id job hjob
        · exact h.asked id job hjob
      · refine Follows.update hjob ?_ ?_ ?_ rfl
        · rfl
        · exact fun hcancelled => hcancelled
        · exact fun _ => ⟨rfl, rfl, rfl⟩
  · exact ⟨h, Follows.refl s⟩

theorem conclude_state (job : Job) (result : Result) :
    (Host.conclude job result).id = job.status.id ∧ ((Host.conclude job result).state = cancelled ∨
      job.cancelled = false ∧ ((Host.conclude job result).state = completed ∨ (Host.conclude job result).state = failed)) := by
  cases hcancelled : (result.cancelled || job.cancelled) with
  | true => simp [Host.conclude, hcancelled]
  | false =>
    obtain ⟨hresult, hnot⟩ := Bool.or_eq_false_iff.mp hcancelled
    by_cases herror : result.error = []
    · simp [Host.conclude, hresult, herror, hnot]
    · simp [Host.conclude, hresult, herror, hnot]

theorem finished (h : HostSound s) (error : Option Text) : HostSound (s.finished error) ∧ Follows s (s.finished error) := by
  rw [Host.finished]
  split
  · rename_i id result hlast
    split
    · exact ⟨h, Follows.refl s⟩
    · rename_i hsignalled
      dsimp only
      have hne : s.active ≠ [] := by
        intro hidle
        exact hsignalled (h.told hidle)
      obtain ⟨run, hrun, hid, -⟩ := h.watched hne
      cases hlast.symm.trans hrun
      dsimp only at hid
      obtain ⟨job, hjob, hworks⟩ := h.current hne
      rw [← hid] at hjob
      rw [hjob]
      dsimp only
      obtain ⟨hstatus, hstate⟩ := conclude_state job result
      have hended := h.end_run hlast rfl hid.symm hjob hstatus hstate
      have hover : ¬job.status.over := by
        rw [Response.over]
        rcases hworks with hworks | hworks
        · rw [hworks]
          decide
        · rw [hworks]
          decide
      have hfollows : Follows s { s with
          jobs := s.jobs.insert id { job with status := Host.conclude job result }, active := [], signalled := true } :=
        Follows.update (k := { job with status := Host.conclude job result }) hjob rfl
          (fun hcancelled => hcancelled) (fun ho => absurd ho hover) rfl
      obtain ⟨hpumped, hrest⟩ := hended.pump error
      exact ⟨hpumped, hfollows.trans hrest⟩
  · exact ⟨h, Follows.refl s⟩

end HostSound

end SocietyHelper.Generation
