import SocietyHelper.Library.Effect
import SocietyHelper.Sync.ConfinedFiles

/-! # Appending that can be resumed

A part file grows by calls that name an offset. Here the call is taken apart into
its system calls: the open that may create the file, the comparison of bytes that
are there already, the loop of short writes with its question for cancellation,
and the flush. A run is any list of calls, each with what the system did in it.
-/

namespace SocietyHelper.Sync

open Library Effect

namespace ConfinedFiles

/-- What one turn of the writing loop comes to; `wrote more` stands for `more + 1` bytes. -/
inductive Turn where
  | cancelled
  | failed
  | wrote (more : Nat)

/-- What the system does in one call. When `turns` are over, a write takes all that is left. -/
structure Surroundings where
  opens : Bool := true
  stated : Bool := true
  readable : Bool := true
  turns : List Turn := []
  flushed : Bool := true

/-- The bytes of a file after `pwrite`: a gap is filled with zeros. -/
def overwritten (stored : Bytes) (position : Nat) (bytes : Bytes) : Bytes :=
  (stored ++ List.replicate (position - stored.length) 0).take position ++ bytes
    ++ stored.drop (position + bytes.length)

def pwriteAt (i position : Nat) (bytes : Bytes) : Effect Disk Unit :=
  modify fun d => d.write i (overwritten (d.inode i).bytes position bytes)

def writeLoop (i offset : Nat) (bytes : Bytes) : List Turn → Nat → Effect Disk Unit
  | [], done =>
    if done < bytes.length then pwriteAt i (offset + done) (bytes.drop done) else pure ()
  | turn :: turns, done =>
    if done < bytes.length then
      match turn with
      | .cancelled => throw (text "cancelled")
      | .failed => throw (text "write_failed")
      | .wrote more => do
        pwriteAt i (offset + done) ((bytes.drop done).take (more + 1))
        writeLoop i offset bytes turns (done + min (more + 1) (bytes.length - done))
    else pure ()

def openAt (c : Surroundings) (path : Path) : Effect Disk Unit := do
  let d ← get
  if c.opens = false ∨ path = [] ∨ d.walk path.dropLast ≠ .directory then throw (text "transfer_unavailable")
  else
    if d.node path = none then modify fun d => d.create path else pure ()
    if c.stated then pure () else throw (text "transfer_unavailable")

def appendTo (c : Surroundings) (offset : Int) (bytes : Bytes) (i : Nat) : Effect Disk Unit := do
  let d ← get
  let stored := (d.inode i).bytes
  if offset < 0 ∨ stored.length < offset then throw (text "invalid_offset")
  else if offset < stored.length then
    if stored.length < offset + bytes.length then throw (text "overlapping_chunk")
    else if c.readable ∧ (stored.drop offset.toNat).take bytes.length = bytes then pure ()
    else throw (text "different_chunk_retry")
  else
    writeLoop i offset.toNat bytes c.turns 0
    if c.flushed then pure () else throw (text "flush_failed")

/-- `ConfinedFiles::append`, system call by system call. -/
def appendWith (c : Surroundings) (path : Path) (offset : Int) (bytes : Bytes) : Effect Disk Unit := do
  openAt c path
  let d ← get
  match d.node path with
  | some (.file i) => appendTo c offset bytes i
  | _ => throw (text "transfer_unavailable")

/-! ## What the loop writes -/

theorem overwritten_end (stored bytes : Bytes) : overwritten stored stored.length bytes = stored ++ bytes := by
  simp [overwritten]

/-- Only one inode has other bytes than before. -/
structure Wrote (i : Nat) (bytes : Bytes) (d e : Disk) : Prop where
  nodes : ∀ p, e.node p = d.node p
  others : ∀ k, k ≠ i → (e.inode k).bytes = (d.inode k).bytes
  self : (e.inode i).bytes = bytes

theorem Wrote.refl (i : Nat) (d : Disk) : Wrote i (d.inode i).bytes d d := ⟨fun _ => rfl, fun _ _ => rfl, rfl⟩

theorem Wrote.trans {i : Nat} {bytes more : Bytes} {d e f : Disk} (h : Wrote i bytes d e) (h' : Wrote i more e f) :
    Wrote i more d f where
  nodes p := (h'.nodes p).trans (h.nodes p)
  others k hk := (h'.others k hk).trans (h.others k hk)
  self := h'.self

theorem wrote_write (i : Nat) (bytes : Bytes) (d : Disk) : Wrote i bytes d (d.write i bytes) := by
  constructor
  · intro p
    rfl
  · intro k hk
    rw [Disk.inode_write, if_neg hk]
  · rw [Disk.inode_write, if_pos rfl]

theorem Wrote.content {i : Nat} {bytes : Bytes} {d e : Disk} (h : Wrote i bytes d e) (p : Path) :
    e.content p = if d.node p = some (.file i) then some bytes else d.content p := by
  rw [Disk.content, h.nodes p]
  split
  · rename_i hp
    rw [hp, Disk.reads, h.self]
  · rename_i hp
    apply Disk.reads_congr
    intro k hk
    apply h.others k
    rintro rfl
    exact hp hk

theorem wrote_pwriteAt {i : Nat} {stored : Bytes} {d : Disk} (h : (d.inode i).bytes = stored) (bytes : Bytes) :
    ∃ e, pwriteAt i stored.length bytes d = .ok () e ∧ Wrote i (stored ++ bytes) d e := by
  refine ⟨d.write i (stored ++ bytes), ?_, wrote_write i _ d⟩
  rw [pwriteAt, modify_apply, h, overwritten_end]

/-- Whether a turn lets the loop go on. -/
def Turn.goesOn : Turn → Prop
  | .wrote _ => True
  | _ => False

theorem writeLoop_over (i offset : Nat) {bytes : Bytes} (turns : List Turn) {done : Nat} (h : bytes.length ≤ done)
    (d : Disk) : writeLoop i offset bytes turns done d = .ok () d := by
  cases turns with
  | nil =>
    rw [writeLoop, if_neg (by omega)]
    rfl
  | cons turn turns =>
    rw [writeLoop.eq_def]
    simp only [if_neg (by omega : ¬done < bytes.length)]
    rfl

theorem writeLoop_failed (i offset : Nat) {bytes : Bytes} (turns : List Turn) {done : Nat} (h : done < bytes.length)
    (d : Disk) : writeLoop i offset bytes (.failed :: turns) done d = .error (text "write_failed") d := by
  rw [writeLoop.eq_def]
  simp only [if_pos h]
  rfl

/-- However the loop ends, what it has written follows what was stored. -/
theorem writeLoop_spec {i : Nat} {stored : Bytes} (bytes : Bytes) (turns : List Turn) (done : Nat) {d : Disk}
    (hd : (d.inode i).bytes = stored ++ bytes.take done) :
    ∃ n, Wrote i (stored ++ bytes.take n) d (final (writeLoop i stored.length bytes turns done d)) ∧
      ((∃ e, writeLoop i stored.length bytes turns done d = .ok () e) → bytes.length ≤ n) ∧
      ((∀ t ∈ turns, t.goesOn) → ∃ e, writeLoop i stored.length bytes turns done d = .ok () e) := by
  induction turns generalizing done d with
  | nil =>
    rw [writeLoop]
    by_cases hdone : done < bytes.length
    · rw [if_pos hdone]
      have hlength : (stored ++ bytes.take done).length = stored.length + done := by
        simp only [List.length_append, List.length_take]
        omega
      obtain ⟨e, he, hwrote⟩ := wrote_pwriteAt hd (bytes.drop done)
      rw [hlength] at he
      rw [List.append_assoc, List.take_append_drop] at hwrote
      rw [he]
      refine ⟨bytes.length, ?_, fun _ => Nat.le_refl _, fun _ => ⟨e, rfl⟩⟩
      rw [List.take_length]
      exact hwrote
    · rw [if_neg hdone]
      refine ⟨done, ?_, fun _ => by omega, fun _ => ⟨d, rfl⟩⟩
      rw [← hd]
      exact Wrote.refl i d
  | cons turn turns ih =>
    by_cases hdone : done < bytes.length
    · rw [writeLoop.eq_def]
      simp only [if_pos hdone]
      have hstopped : Wrote i (stored ++ bytes.take done) d d := hd ▸ Wrote.refl i d
      cases turn with
      | cancelled =>
        refine ⟨done, hstopped, ?_, fun h => (h _ List.mem_cons_self).elim⟩
        rintro ⟨_, h⟩
        cases h
      | failed =>
        refine ⟨done, hstopped, ?_, fun h => (h _ List.mem_cons_self).elim⟩
        rintro ⟨_, h⟩
        cases h
      | wrote more =>
        simp only
        have hlength : (stored ++ bytes.take done).length = stored.length + done := by
          simp only [List.length_append, List.length_take]
          omega
        obtain ⟨e, he, hwrote⟩ := wrote_pwriteAt hd ((bytes.drop done).take (more + 1))
        rw [hlength] at he
        have htake : bytes.take done ++ (bytes.drop done).take (more + 1) =
            bytes.take (done + min (more + 1) (bytes.length - done)) := by
          rw [← List.length_drop, List.take_add (i := done), ← List.take_eq_take_min]
        rw [List.append_assoc, htake] at hwrote
        obtain ⟨n, hn, hok, hgoes⟩ := ih _ hwrote.self
        refine ⟨n, ?_, ?_, ?_⟩
        · rw [bind_of_ok he]
          exact hwrote.trans hn
        · rw [bind_of_ok he]
          exact hok
        · intro h
          rw [bind_of_ok he]
          exact hgoes fun t ht => h t (List.mem_cons_of_mem _ ht)
    · rw [writeLoop_over i _ _ (Nat.le_of_not_lt hdone)]
      refine ⟨done, ?_, fun _ => by omega, fun _ => ⟨d, rfl⟩⟩
      rw [← hd]
      exact Wrote.refl i d

/-! ## What one call does -/

/-- What a call makes of one file: nothing, a new empty file, or more bytes at its end. -/
inductive Fares (offset : Int) (bytes : Bytes) : Option Bytes → Option Bytes → Prop where
  | kept (stored : Option Bytes) : Fares offset bytes stored stored
  | created : Fares offset bytes none (some [])
  | extended (stored : Option Bytes) (n : Nat) (h : offset = ((stored.getD []).length : Int)) :
      Fares offset bytes stored (some (stored.getD [] ++ bytes.take n))

/-- A range that the file has, or the end of the file. -/
def Fits (stored : Bytes) (offset : Int) (bytes : Bytes) : Prop :=
  (0 ≤ offset ∧ offset + bytes.length ≤ stored.length ∧ (stored.drop offset.toNat).take bytes.length = bytes) ∨
    offset = stored.length

/-- No system call fails and nobody cancels; a write may still be a short one. -/
structure Surroundings.Undisturbed (c : Surroundings) : Prop where
  opens : c.opens = true
  stated : c.stated = true
  turns : ∀ t ∈ c.turns, t.goesOn
  flushed : c.flushed = true

/-- The tree that a call works on once the file is open. -/
def Opened (path : Path) (d e : Disk) : Prop :=
  path ≠ [] ∧ d.walk path.dropLast = .directory ∧
    (d.node path ≠ none ∧ e = d ∨ d.node path = none ∧ e = d.create path)

theorem openAt_cases (c : Surroundings) (path : Path) (d : Disk) :
    (∃ m, openAt c path d = .error m d) ∨
      ∃ e, Opened path d e ∧ ((∃ m, openAt c path d = .error m e) ∨ openAt c path d = .ok () e) := by
  rw [openAt, bind_of_ok (get_apply d)]
  split
  · exact Or.inl ⟨_, rfl⟩
  · rename_i hopen
    simp only [not_or, ne_eq, not_not] at hopen
    by_cases hnode : d.node path = none
    · refine Or.inr ⟨d.create path, ⟨hopen.2.1, hopen.2.2, Or.inr ⟨hnode, rfl⟩⟩, ?_⟩
      rw [if_pos hnode, bind_of_ok (modify_apply _ d)]
      split
      · exact Or.inr rfl
      · exact Or.inl ⟨_, rfl⟩
    · refine Or.inr ⟨d, ⟨hopen.2.1, hopen.2.2, Or.inl ⟨hnode, rfl⟩⟩, ?_⟩
      rw [if_neg hnode]
      beta_reduce
      split
      · exact Or.inr rfl
      · exact Or.inl ⟨_, rfl⟩

theorem openAt_ok {c : Surroundings} (h : c.Undisturbed) {path : Path} {d : Disk} (hpath : path ≠ [])
    (hwalk : d.walk path.dropLast = .directory) : ∃ e, openAt c path d = .ok () e := by
  rw [openAt, bind_of_ok (get_apply d), if_neg]
  · by_cases hnode : d.node path = none
    · rw [if_pos hnode, bind_of_ok (modify_apply _ d), if_pos h.stated]
      exact ⟨_, rfl⟩
    · rw [if_neg hnode]
      beta_reduce
      rw [if_pos h.stated]
      exact ⟨_, rfl⟩
  · simp [h.opens, hpath, hwalk]

theorem appendTo_cases (c : Surroundings) (offset : Int) (bytes : Bytes) (i : Nat) (d : Disk) :
    (∃ m, appendTo c offset bytes i d = .error m d) ∨
    (appendTo c offset bytes i d = .ok () d ∧ 0 ≤ offset ∧ offset + bytes.length ≤ (d.inode i).bytes.length ∧
      ((d.inode i).bytes.drop offset.toNat).take bytes.length = bytes) ∨
    (offset = (d.inode i).bytes.length ∧
      ∃ n, Wrote i ((d.inode i).bytes ++ bytes.take n) d (final (appendTo c offset bytes i d)) ∧
        ((∃ e, appendTo c offset bytes i d = .ok () e) → bytes.length ≤ n)) := by
  rw [appendTo, bind_of_ok (get_apply d)]
  split
  · exact Or.inl ⟨_, rfl⟩
  · rename_i hoffset
    split
    · split
      · exact Or.inl ⟨_, rfl⟩
      · rename_i hinside
        split
        · rename_i hsame
          exact Or.inr (Or.inl ⟨rfl, by omega, by omega, hsame.2⟩)
        · exact Or.inl ⟨_, rfl⟩
    · rename_i hend
      have hat : offset = (d.inode i).bytes.length := by omega
      refine Or.inr (Or.inr ⟨hat, ?_⟩)
      obtain ⟨n, hwrote, hok, -⟩ := writeLoop_spec (i := i) (d := d) bytes c.turns 0
        (List.append_nil _).symm
      rw [hat, Int.toNat_natCast]
      refine ⟨n, ?_, ?_⟩
      · cases hloop : writeLoop i (d.inode i).bytes.length bytes c.turns 0 d with
        | ok u e =>
          rw [hloop] at hwrote
          rw [bind_of_ok hloop]
          split
          · exact hwrote
          · exact hwrote
        | error m e =>
          rw [hloop] at hwrote
          rw [bind_of_error hloop]
          exact hwrote
      · rintro ⟨e, he⟩
        obtain ⟨u, t, hloop, -⟩ := bind_eq_ok.mp he
        exact hok ⟨t, hloop⟩

/-- From the end of the file, with no turn that breaks the loop off, only the flush may fail. -/
theorem appendTo_end {c : Surroundings} (hturns : ∀ t ∈ c.turns, t.goesOn) (bytes : Bytes) (i : Nat) (d : Disk) :
    ∃ e, Wrote i ((d.inode i).bytes ++ bytes) d e ∧
      appendTo c (d.inode i).bytes.length bytes i d =
        if c.flushed then .ok () e else .error (text "flush_failed") e := by
  obtain ⟨n, hwrote, hok, hgoes⟩ := writeLoop_spec (i := i) (d := d) bytes c.turns 0
    (List.append_nil _).symm
  obtain ⟨e, he⟩ := hgoes hturns
  rw [he, final_ok, List.take_of_length_le (hok ⟨e, he⟩)] at hwrote
  refine ⟨e, hwrote, ?_⟩
  rw [appendTo, bind_of_ok (get_apply d), if_neg (by omega), if_neg (by omega), Int.toNat_natCast, bind_of_ok he]
  cases c.flushed <;> rfl

/-- A call fails to open the file, or goes on with the file that it opened. -/
theorem appendWith_cases (c : Surroundings) (path : Path) (offset : Int) (bytes : Bytes) (d : Disk) :
    (∃ m, appendWith c path offset bytes d = .error m d) ∨
      ∃ e, Opened path d e ∧ ((∃ m, appendWith c path offset bytes d = .error m e) ∨
        ∃ i, e.node path = some (.file i) ∧ appendWith c path offset bytes d = appendTo c offset bytes i e) := by
  rw [appendWith]
  rcases openAt_cases c path d with ⟨m, hm⟩ | ⟨e, hopened, ⟨m, hm⟩ | hok⟩
  · exact Or.inl ⟨m, bind_of_error hm⟩
  · exact Or.inr ⟨e, hopened, Or.inl ⟨m, bind_of_error hm⟩⟩
  · refine Or.inr ⟨e, hopened, ?_⟩
    rw [bind_of_ok hok, bind_of_ok (get_apply e)]
    cases hnode : e.node path with
    | none => exact Or.inl ⟨_, rfl⟩
    | some n =>
      cases n with
      | directory i => exact Or.inl ⟨_, rfl⟩
      | file i => exact Or.inr ⟨i, rfl, rfl⟩
      | special => exact Or.inl ⟨_, rfl⟩

theorem Opened.content {path : Path} {d e : Disk} (h : Opened path d e) (q : Path) :
    e.content q = d.content q ∨ d.content q = none ∧ e.content q = some [] := by
  rcases h.2.2 with ⟨-, rfl⟩ | ⟨hnode, rfl⟩
  · exact Or.inl rfl
  · rw [Disk.content_create]
    split
    · rename_i hq
      refine Or.inr ⟨?_, rfl⟩
      simp [hq, Disk.content, hnode, Disk.reads]
    · exact Or.inl rfl

theorem Opened.stored {path : Path} {d e : Disk} (h : Opened path d e) {q : Path} {bytes : Bytes}
    (hq : e.content q = some bytes) : (d.content q).getD [] = bytes := by
  rcases h.content q with hsame | ⟨hnone, hempty⟩
  · rw [← hsame, hq, Option.getD_some]
  · rw [hnone, Option.getD_none]
    rw [hq] at hempty
    cases hempty
    rfl

theorem Opened.fares {path : Path} {d e : Disk} (h : Opened path d e) (offset : Int) (bytes : Bytes) (q : Path) :
    Fares offset bytes (d.content q) (e.content q) := by
  rcases h.content q with hsame | ⟨hnone, hempty⟩
  · rw [hsame]
    exact .kept _
  · rw [hnone, hempty]
    exact .created

/-- The step lemma: what one call makes of every file of the tree. -/
theorem appendWith_fares (c : Surroundings) (path : Path) (offset : Int) (bytes : Bytes) (d : Disk) (q : Path) :
    Fares offset bytes (d.content q) ((final (appendWith c path offset bytes d)).content q) := by
  rcases appendWith_cases c path offset bytes d with ⟨m, hm⟩ | ⟨e, hopened, ⟨m, hm⟩ | ⟨i, hi, heq⟩⟩
  · rw [hm]
    exact .kept _
  · rw [hm]
    exact hopened.fares offset bytes q
  · rw [heq]
    rcases appendTo_cases c offset bytes i e with ⟨m, hm⟩ | ⟨hok, -⟩ | ⟨hat, n, hwrote, -⟩
    · rw [hm]
      exact hopened.fares offset bytes q
    · rw [hok]
      exact hopened.fares offset bytes q
    · rw [hwrote.content]
      split
      · rename_i hq
        have hstored := hopened.stored (q := q) (by rw [Disk.content, hq, Disk.reads])
        rw [← hstored] at hat ⊢
        exact .extended _ n hat
      · exact hopened.fares offset bytes q

/-- What a call that succeeds has found, and what it leaves. -/
theorem appendWith_fits {c : Surroundings} {path : Path} {offset : Int} {bytes : Bytes} {d e : Disk}
    (h : appendWith c path offset bytes d = .ok () e) :
    Fits ((d.content path).getD []) offset bytes ∧
      (offset = ((d.content path).getD []).length → e.content path = some ((d.content path).getD [] ++ bytes)) := by
  rcases appendWith_cases c path offset bytes d with ⟨m, hm⟩ | ⟨f, hopened, ⟨m, hm⟩ | ⟨i, hi, heq⟩⟩
  · rw [hm] at h
    cases h
  · rw [hm] at h
    cases h
  · have hcontent : f.content path = some (f.inode i).bytes := by rw [Disk.content, hi, Disk.reads]
    rw [hopened.stored hcontent]
    rw [heq] at h
    rcases appendTo_cases c offset bytes i f with ⟨m, hm⟩ | ⟨hok, hinside⟩ | ⟨hat, n, hwrote, hn⟩
    · rw [hm] at h
      cases h
    · rw [hok] at h
      cases h
      refine ⟨Or.inl hinside, fun hat => ?_⟩
      have hempty : bytes = [] := List.length_eq_zero_iff.mp (by omega)
      rw [hcontent, hempty, List.append_nil]
    · refine ⟨Or.inr hat, fun _ => ?_⟩
      have hall := hn ⟨e, h⟩
      rw [h, final_ok, List.take_of_length_le hall] at hwrote
      rw [hwrote.content, if_pos hi]

/-! ## Runs -/

/-- A path whose file can be opened or created. -/
structure Ready (path : Path) (d : Disk) : Prop where
  relative : path ≠ []
  walk : d.walk path.dropLast = .directory
  node : d.node path = none ∨ ∃ i, d.node path = some (.file i)

theorem walkFrom_congr {d e : Disk} {parts base : Path} (h : ∀ q, q <+: base ++ parts → e.node q = d.node q) :
    e.walkFrom base parts = d.walkFrom base parts := by
  induction parts generalizing base with
  | nil => rfl
  | cons part parts ih =>
    rw [Disk.walkFrom, Disk.walkFrom, h (base ++ [part]) ⟨parts, by simp⟩]
    cases d.node (base ++ [part]) with
    | none => rfl
    | some n =>
      cases n with
      | directory i => exact ih fun q hq => h q (by simpa using hq)
      | file i => rfl
      | special => rfl

theorem Opened.node {path : Path} {d e : Disk} (h : Opened path d e) (q : Path) :
    e.node q = d.node q ∨ q = path ∧ ∃ i, e.node q = some (.file i) := by
  rcases h.2.2 with ⟨-, rfl⟩ | ⟨-, rfl⟩
  · exact Or.inl rfl
  · rw [Disk.node_create]
    split
    · exact Or.inr ⟨‹_›, _, rfl⟩
    · exact Or.inl rfl

theorem appendWith_node (c : Surroundings) (path : Path) (offset : Int) (bytes : Bytes) (d : Disk) (q : Path) :
    (final (appendWith c path offset bytes d)).node q = d.node q ∨
      q = path ∧ ∃ i, (final (appendWith c path offset bytes d)).node q = some (.file i) := by
  rcases appendWith_cases c path offset bytes d with ⟨m, hm⟩ | ⟨e, hopened, ⟨m, hm⟩ | ⟨i, hi, heq⟩⟩
  · rw [hm]
    exact Or.inl rfl
  · rw [hm]
    exact hopened.node q
  · rw [heq]
    rcases appendTo_cases c offset bytes i e with ⟨m, hm⟩ | ⟨hok, -⟩ | ⟨-, n, hwrote, -⟩
    · rw [hm]
      exact hopened.node q
    · rw [hok]
      exact hopened.node q
    · rw [hwrote.nodes q]
      exact hopened.node q

theorem Ready.appendWith {path : Path} {d : Disk} (h : Ready path d) (c : Surroundings) (offset : Int) (bytes : Bytes) :
    Ready path (final (appendWith c path offset bytes d)) where
  relative := h.relative
  walk := by
    rw [← h.walk]
    apply walkFrom_congr
    intro q hq
    rcases appendWith_node c path offset bytes d q with hsame | ⟨rfl, -⟩
    · exact hsame
    · have hlength := List.IsPrefix.length_le hq
      have hpositive := List.length_pos_iff.mpr h.relative
      simp only [List.nil_append, List.length_dropLast] at hlength
      omega
  node := by
    rcases appendWith_node c path offset bytes d path with hsame | ⟨-, i, hi⟩
    · rw [hsame]
      exact h.node
    · exact Or.inr ⟨i, hi⟩

/-- A call from the end of the file succeeds where nothing disturbs it. -/
theorem appendWith_ok {c : Surroundings} (hc : c.Undisturbed) {path : Path} {d : Disk} (h : Ready path d)
    {offset : Int} (hat : offset = ((d.content path).getD []).length) (bytes : Bytes) :
    ∃ e, appendWith c path offset bytes d = .ok () e := by
  obtain ⟨e, he⟩ := openAt_ok hc h.relative h.walk
  rcases openAt_cases c path d with ⟨m, hm⟩ | ⟨f, hopened, ⟨m, hm⟩ | hok⟩
  · rw [he] at hm
    cases hm
  · rw [he] at hm
    cases hm
  · have hfile : ∃ i, f.node path = some (.file i) := by
      rcases hopened.2.2 with ⟨hnode, rfl⟩ | ⟨-, rfl⟩
      · exact h.node.resolve_left hnode
      · rw [Disk.node_create, if_pos rfl]
        exact ⟨_, rfl⟩
    obtain ⟨i, hi⟩ := hfile
    have hcontent : f.content path = some (f.inode i).bytes := by rw [Disk.content, hi, Disk.reads]
    rw [hopened.stored hcontent] at hat
    obtain ⟨g, -, hg⟩ := appendTo_end hc.turns bytes i f
    rw [if_pos hc.flushed] at hg
    refine ⟨g, ?_⟩
    rw [ConfinedFiles.appendWith, bind_of_ok hok, bind_of_ok (get_apply f), hi, hat]
    exact hg

/-- One call of a run, with what the system does in it. -/
structure Call where
  surroundings : Surroundings
  path : Path
  offset : Int
  bytes : Bytes

def Call.run (a : Call) : Effect Disk Unit := appendWith a.surroundings a.path a.offset a.bytes

def afterCalls (calls : List Call) (d : Disk) : Disk := calls.foldl (fun d a => final (a.run d)) d

/-- The size that a look at the file reports; nothing stands for an empty file. -/
def reported (path : Path) (d : Disk) : Nat := ((d.content path).getD []).length

/-- Every file has all its bytes, and more at most behind them. -/
def grown : Frame Disk where
  rel d e := ∀ q bytes, d.content q = some bytes → ∃ more, e.content q = some (bytes ++ more)
  refl _ _ bytes h := ⟨[], by rw [h, List.append_nil]⟩
  trans h h' q bytes hq := by
    obtain ⟨more, hmore⟩ := h q bytes hq
    obtain ⟨rest, hrest⟩ := h' q _ hmore
    exact ⟨more ++ rest, by rw [hrest, List.append_assoc]⟩

theorem Call.grown (a : Call) : Keeps grown a.run := by
  intro d q bytes hq
  have hfares := appendWith_fares a.surroundings a.path a.offset a.bytes d q
  rw [hq] at hfares
  generalize hafter : (final (appendWith a.surroundings a.path a.offset a.bytes d)).content q = after at hfares
  rw [Call.run, hafter]
  cases hfares with
  | kept => exact ⟨[], by rw [List.append_nil]⟩
  | extended n h => exact ⟨_, rfl⟩

theorem afterCalls_grown (calls : List Call) (d : Disk) : ConfinedFiles.grown.rel d (afterCalls calls d) := by
  induction calls generalizing d with
  | nil => exact ConfinedFiles.grown.refl d
  | cons a calls ih => exact ConfinedFiles.grown.trans (a.grown d) (ih _)

/-- The furthest position that any call of a run names. -/
def furthest (calls : List Call) : Int := calls.foldr (fun a m => max (a.offset + a.bytes.length) m) 0

theorem reported_run (a : Call) (d : Disk) (q : Path) :
    (reported q (final (a.run d)) : Int) ≤ max (reported q d : Int) (a.offset + a.bytes.length) := by
  have hfares := appendWith_fares a.surroundings a.path a.offset a.bytes d q
  rw [reported, reported, Call.run]
  generalize (final (appendWith a.surroundings a.path a.offset a.bytes d)).content q = after at hfares
  generalize d.content q = stored at hfares
  cases hfares with
  | kept => exact le_max_left _ _
  | created => exact le_max_left _ _
  | extended _ n h =>
    rw [h, Option.getD_some, List.length_append, List.length_take]
    omega

theorem reported_afterCalls (calls : List Call) (d : Disk) (q : Path) :
    (reported q (afterCalls calls d) : Int) ≤ max (reported q d : Int) (furthest calls) := by
  induction calls generalizing d with
  | nil => exact le_max_left _ _
  | cons a calls ih =>
    have hhead := reported_run a d q
    have htail := ih (final (a.run d))
    simp only [afterCalls, List.foldl_cons, furthest, List.foldr_cons] at htail ⊢
    omega

/-! ## One byte string in chunks -/

/-- A call that passes bytes of one string at their own position. -/
def Slice (whole : Bytes) (a : Call) : Prop := ∃ n : Nat, a.offset = n ∧ a.bytes <+: whole.drop n

/-- Some call of the run starts at the size reported just before it, reaches a position
and is not disturbed. -/
def Retried (calls : List Call) (d : Disk) (path : Path) (upTo : Nat) : Prop :=
  ∃ (front : List Call) (a : Call) (back : List Call), calls = front ++ a :: back ∧
    a.offset = (reported path (afterCalls front d) : Int) ∧ (upTo : Int) ≤ a.offset + a.bytes.length ∧ a.surroundings.Undisturbed

/-- What a run of slices keeps of the part file. -/
structure Partial (whole : Bytes) (path : Path) (d : Disk) : Prop where
  ready : Ready path d
  stored : (d.content path).getD [] <+: whole

theorem Partial.run {whole : Bytes} {path : Path} {d : Disk} (h : Partial whole path d) {a : Call}
    (hpath : a.path = path) (ha : Slice whole a) : Partial whole path (final (a.run d)) where
  ready := by
    rw [Call.run, hpath]
    exact h.ready.appendWith _ _ _
  stored := by
    obtain ⟨n, hoffset, hbytes⟩ := ha
    have hstored := h.stored
    have hfares := appendWith_fares a.surroundings a.path a.offset a.bytes d path
    rw [Call.run]
    generalize (final (appendWith a.surroundings a.path a.offset a.bytes d)).content path = after at hfares
    generalize d.content path = stored at hfares hstored
    cases hfares with
    | kept => exact hstored
    | created => exact List.nil_prefix
    | extended _ m hat =>
      have hn : n = (stored.getD []).length := by omega
      obtain ⟨rest, rfl⟩ := hstored
      rw [hn, List.drop_left] at hbytes
      rw [Option.getD_some, List.prefix_append_right_inj]
      exact (List.take_prefix m a.bytes).trans hbytes

theorem Partial.afterCalls {whole : Bytes} {path : Path} {calls : List Call}
    (hcalls : ∀ a ∈ calls, a.path = path ∧ Slice whole a) {d : Disk} (h : Partial whole path d) :
    Partial whole path (afterCalls calls d) := by
  induction calls generalizing d with
  | nil => exact h
  | cons a calls ih =>
    obtain ⟨hpath, ha⟩ := hcalls a List.mem_cons_self
    exact ih (fun b hb => hcalls b (List.mem_cons_of_mem a hb)) (h.run hpath ha)

theorem afterCalls_append (front back : List Call) (d : Disk) :
    afterCalls (front ++ back) d = afterCalls back (afterCalls front d) := List.foldl_append

/-- The call that retries the last chunk completes the file, and it stays complete. -/
theorem complete_of_retried {whole : Bytes} {path : Path} {d : Disk} (h : Partial whole path d) {calls : List Call}
    (hcalls : ∀ a ∈ calls, a.path = path ∧ Slice whole a) (hretried : Retried calls d path whole.length) :
    (afterCalls calls d).content path = some whole := by
  have hend := h.afterCalls hcalls
  obtain ⟨front, a, back, rfl, hoffset, hreach, hundisturbed⟩ := hretried
  have hfront := h.afterCalls fun b hb => hcalls b (List.mem_append_left _ hb)
  have hpath := (hcalls a (by simp)).1
  obtain ⟨e, he⟩ := appendWith_ok hundisturbed hfront.ready hoffset a.bytes
  have hstored := (appendWith_fits he).2 hoffset
  rw [afterCalls_append] at hend ⊢
  change Partial whole path (afterCalls back (final (a.run (afterCalls front d)))) at hend
  change (afterCalls back (final (a.run (afterCalls front d)))).content path = some whole
  rw [Call.run, hpath, he, final_ok] at hend ⊢
  obtain ⟨more, hmore⟩ := afterCalls_grown back e path _ hstored
  have hprefix := hend.stored
  rw [hmore, Option.getD_some] at hprefix
  rw [hmore, hprefix.eq_of_length_le]
  simp only [reported] at hoffset
  simp only [List.length_append]
  omega

/-! ## The replica's call -/

/-- What the system does where the replica's call breaks off after so many bytes. -/
def torn (n : Nat) : Surroundings :=
  { turns := if n = 0 then [.failed] else [.wrote (n - 1), .failed], flushed := false }

theorem torn_appendTo (n : Nat) {bytes : Bytes} (hbytes : bytes ≠ []) {i : Nat} {d : Disk} :
    ∃ m e, appendTo (torn n) (d.inode i).bytes.length bytes i d = .error m e ∧
      Wrote i ((d.inode i).bytes ++ bytes.take n) d e := by
  have hpositive : 0 < bytes.length := List.length_pos_iff.mpr hbytes
  rw [appendTo, bind_of_ok (get_apply d), if_neg (by omega), if_neg (by omega), Int.toNat_natCast]
  by_cases hn : n = 0
  · refine ⟨_, d, bind_of_error (m := writeLoop _ _ _ _ _) (e := text "write_failed") ?_, ?_⟩
    · rw [torn, if_pos hn, writeLoop_failed i _ [] hpositive]
    · rw [hn, List.take_zero, List.append_nil]
      exact Wrote.refl i d
  · obtain ⟨e, he, hwrote⟩ := wrote_pwriteAt (d := d) (i := i) rfl (bytes.take n)
    have hloop : writeLoop i (d.inode i).bytes.length bytes (torn n).turns 0 d =
        writeLoop i (d.inode i).bytes.length bytes [.failed] (min n bytes.length) e := by
      rw [torn, if_neg hn, writeLoop.eq_def]
      simp only [if_pos hpositive, Nat.sub_add_cancel (Nat.pos_of_ne_zero hn), List.drop_zero, Nat.add_zero,
        Nat.sub_zero, Nat.zero_add]
      rw [bind_of_ok he]
    by_cases hall : min n bytes.length < bytes.length
    · rw [writeLoop_failed i _ [] hall] at hloop
      exact ⟨_, e, bind_of_error hloop, hwrote⟩
    · rw [writeLoop_over i _ _ (Nat.le_of_not_lt hall)] at hloop
      refine ⟨text "flush_failed", e, ?_, hwrote⟩
      rw [bind_of_ok hloop]
      rfl

/-- Two trees with the same names and the same bytes. -/
structure Alike (d e : Disk) : Prop where
  node : ∀ p, d.node p = e.node p
  content : ∀ p, d.content p = e.content p

theorem Alike.refl (d : Disk) : Alike d d := ⟨fun _ => rfl, fun _ => rfl⟩

theorem Wrote.alike {i : Nat} {bytes : Bytes} {d e f : Disk} (h : Wrote i bytes d e) (h' : Wrote i bytes d f) :
    Alike e f := ⟨fun p => (h.nodes p).trans (h'.nodes p).symm, fun p => (h.content p).trans (h'.content p).symm⟩

/-- One computation ends as another does: both fail or both succeed, with like trees. -/
def Matches (r : EStateM.Result Text Volume Unit) (r' : EStateM.Result Text Disk Unit) : Prop :=
  Alike (final r).disk (final r') ∧ ((∃ s, r = .ok () s) ↔ ∃ e, r' = .ok () e)

theorem matches_error {m m' : Text} {s : Volume} {e : Disk} (h : Alike s.disk e) :
    Matches (.error m s) (.error m' e) := ⟨h, by simp⟩

theorem matches_ok {s : Volume} {e : Disk} (h : Alike s.disk e) : Matches (.ok () s) (.ok () e) := ⟨h, by simp⟩

theorem openFile_cases (path : Path) (s : Volume) :
    (∃ m t, openFile path s = .error m t ∧ t.disk = s.disk) ∨
      (s.disk.walk path.dropLast = .directory ∧ openFile path s = .ok () { s with
        disk := if s.disk.node path = none then s.disk.create path else s.disk, faults := s.faults.tail }) := by
  rw [openFile]
  cases hattempt : attempt (text "transfer_unavailable") s with
  | error m t =>
    rw [bind_of_error hattempt]
    refine Or.inl ⟨m, t, rfl, ?_⟩
    rw [attempt] at hattempt
    split at hattempt
    · cases hattempt
      rfl
    · cases hattempt
  | ok u t =>
    have ht : t = { s with faults := s.faults.tail } := by
      rw [attempt] at hattempt
      split at hattempt
      · cases hattempt
      · cases hattempt
        rfl
    rw [bind_of_ok hattempt, bind_of_ok (get_apply t), ht]
    by_cases hwalk : s.disk.walk path.dropLast = .directory
    · refine Or.inr ⟨hwalk, ?_⟩
      rw [if_neg (not_not.mpr hwalk)]
      cases hnode : s.disk.node path with
      | none => rfl
      | some n => rfl
    · rw [if_pos hwalk]
      exact Or.inl ⟨_, _, rfl, rfl⟩

theorem openAt_plain {c : Surroundings} (hopens : c.opens = true) (hstated : c.stated = true) {path : Path}
    (hpath : path ≠ []) {d : Disk} (hwalk : d.walk path.dropLast = .directory) :
    openAt c path d = .ok () (if d.node path = none then d.create path else d) := by
  rw [openAt, bind_of_ok (get_apply d), if_neg]
  · by_cases hnode : d.node path = none
    · rw [if_pos hnode, if_pos hnode, bind_of_ok (modify_apply _ d), if_pos hstated]
      rfl
    · rw [if_neg hnode, if_neg hnode]
      beta_reduce
      rw [if_pos hstated]
      rfl
  · simp [hopens, hpath, hwalk]

theorem pwrite_cases (i : Nat) (bytes : Bytes) (s : Volume) :
    (∃ t, pwrite i bytes s = .ok () t ∧ Wrote i ((s.disk.inode i).bytes ++ bytes) s.disk t.disk) ∨
      (bytes ≠ [] ∧ ∃ n m t, pwrite i bytes s = .error m t ∧
        Wrote i ((s.disk.inode i).bytes ++ bytes.take n) s.disk t.disk) := by
  rw [pwrite]
  split
  · rename_i hbytes
    refine Or.inl ⟨s, rfl, ?_⟩
    rw [hbytes, List.append_nil]
    exact Wrote.refl i s.disk
  · rename_i hbytes
    split
    · exact Or.inr ⟨hbytes, _, _, _, rfl, wrote_write i _ s.disk⟩
    · exact Or.inl ⟨_, rfl, wrote_write i _ s.disk⟩

/-- Writing at the end of a file: a fault tears the write or spoils the flush. -/
theorem pwrite_matches (i : Nat) (bytes : Bytes) (s : Volume) :
    ∃ c : Surroundings, c.opens = true ∧ c.stated = true ∧
      Matches ((pwrite i bytes >>= fun _ => attempt (text "flush_failed")) s)
        (appendTo c (s.disk.inode i).bytes.length bytes i s.disk) := by
  rcases pwrite_cases i bytes s with ⟨t, hpwrite, hwrote⟩ | ⟨hbytes, n, m, t, hpwrite, hwrote⟩
  · rw [bind_of_ok hpwrite, attempt]
    split
    · obtain ⟨e, hplain, heq⟩ := appendTo_end (c := { flushed := false }) (by simp) bytes i s.disk
      refine ⟨{ flushed := false }, rfl, rfl, ?_⟩
      rw [heq]
      exact matches_error (hwrote.alike hplain)
    · obtain ⟨e, hplain, heq⟩ := appendTo_end (c := {}) (by simp) bytes i s.disk
      refine ⟨{}, rfl, rfl, ?_⟩
      rw [heq]
      exact matches_ok (hwrote.alike hplain)
  · obtain ⟨m', e, htorn, hwrote'⟩ := torn_appendTo (i := i) (d := s.disk) n hbytes
    refine ⟨torn n, rfl, rfl, ?_⟩
    rw [bind_of_error hpwrite, htorn]
    exact matches_error (hwrote.alike hwrote')

/-- Every outcome of the replica's call is one that the system calls can have. -/
theorem append_matches {path : Path} (hpath : path ≠ []) (offset : Nat) (bytes : Bytes) (s : Volume) :
    ∃ c, Matches (append path offset bytes s) (appendWith c path offset bytes s.disk) := by
  rcases openFile_cases path s with ⟨m, t, hopen, ht⟩ | ⟨hwalk, hopen⟩
  · refine ⟨{ opens := false }, ?_⟩
    rw [append, bind_of_error hopen, appendWith, openAt, bind_of_error (s := s.disk) (t := s.disk)
      (e := text "transfer_unavailable")]
    · exact matches_error (ht ▸ Alike.refl _)
    · rw [bind_of_ok (get_apply s.disk), if_pos (Or.inl rfl)]
      rfl
  · rw [append, bind_of_ok hopen, bind_of_ok (get_apply _)]
    simp only
    generalize hd : (if s.disk.node path = none then s.disk.create path else s.disk) = d
    have hplain : ∀ c : Surroundings, c.opens = true → c.stated = true → appendWith c path offset bytes s.disk =
        (match d.node path with
        | some (.file i) => appendTo c offset bytes i
        | _ => throw (text "transfer_unavailable")) d := by
      intro c hopens hstated
      rw [appendWith, bind_of_ok (openAt_plain hopens hstated hpath hwalk), bind_of_ok (get_apply _), hd]
    cases hnode : d.node path with
    | none =>
      refine ⟨{}, ?_⟩
      rw [hplain {} rfl rfl, hnode]
      exact matches_error (Alike.refl d)
    | some n =>
      cases n with
      | directory i =>
        refine ⟨{}, ?_⟩
        rw [hplain {} rfl rfl, hnode]
        exact matches_error (Alike.refl d)
      | special =>
        refine ⟨{}, ?_⟩
        rw [hplain {} rfl rfl, hnode]
        exact matches_error (Alike.refl d)
      | file i =>
        simp only
        by_cases hoffset : (d.inode i).bytes.length < offset
        · refine ⟨{}, ?_⟩
          rw [hplain {} rfl rfl, hnode, if_pos hoffset]
          simp only
          rw [appendTo, bind_of_ok (get_apply d), if_pos (Or.inr (by omega))]
          exact matches_error (Alike.refl d)
        · by_cases hinside : offset < (d.inode i).bytes.length
          · refine ⟨{}, ?_⟩
            rw [hplain {} rfl rfl, hnode, if_neg hoffset, if_pos hinside]
            have htail : appendTo {} offset bytes i d =
                if (d.inode i).bytes.length < offset + bytes.length then .error (text "overlapping_chunk") d
                else if ((d.inode i).bytes.drop offset).take bytes.length = bytes then .ok () d
                else .error (text "different_chunk_retry") d := by
              rw [appendTo, bind_of_ok (get_apply d), if_neg (by omega), if_pos (by omega)]
              simp only [Int.toNat_natCast, true_and, ← Int.natCast_add, Int.ofNat_lt]
              split_ifs <;> rfl
            simp only [htail]
            by_cases hover : (d.inode i).bytes.length < offset + bytes.length
            · rw [if_pos hover, if_pos hover]
              exact matches_error (Alike.refl d)
            · rw [if_neg hover, if_neg hover]
              by_cases hsame : ((d.inode i).bytes.drop offset).take bytes.length = bytes
              · rw [if_neg (not_not.mpr hsame), if_pos hsame]
                exact matches_ok (Alike.refl d)
              · rw [if_pos hsame, if_neg hsame]
                exact matches_error (Alike.refl d)
          · have hend : offset = (d.inode i).bytes.length := by omega
            obtain ⟨c, hopens, hstated, hmatches⟩ := pwrite_matches i bytes { s with disk := d, faults := s.faults.tail }
            refine ⟨c, ?_⟩
            rw [hplain c hopens hstated, hnode, if_neg hoffset, if_neg hinside, hend]
            exact hmatches

/-- The step lemma for the replica's call. -/
theorem append_fares {path : Path} (hpath : path ≠ []) (offset : Nat) (bytes : Bytes) (s : Volume) (q : Path) :
    Fares offset bytes (s.disk.content q) ((final (append path offset bytes s)).disk.content q) := by
  obtain ⟨c, halike, -⟩ := append_matches hpath offset bytes s
  rw [halike.content q]
  exact appendWith_fares c path offset bytes s.disk q

/-! ## The result -/

/-- No byte is changed or removed, a call that succeeds fits, chunks that are all retried give
the whole string, and no file grows beyond what it was or what a call names. -/
theorem append_resumes :
    (∀ calls d q bytes, d.content q = some bytes → ∃ more, (afterCalls calls d).content q = some (bytes ++ more)) ∧
    (∀ (a : Call) d e, a.run d = .ok () e → Fits ((d.content a.path).getD []) a.offset a.bytes) ∧
    (∀ (chunks : List Bytes) path d calls, chunks ≠ [] → Partial chunks.flatten path d →
      (∀ a ∈ calls, a.path = path ∧ Slice chunks.flatten a) →
      (∀ front chunk back, chunks = front ++ chunk :: back →
        Retried calls d path (front ++ [chunk]).flatten.length) →
      (afterCalls calls d).content path = some chunks.flatten) ∧
    ∀ calls d q, (reported q (afterCalls calls d) : Int) ≤ max (reported q d : Int) (furthest calls) := by
  refine ⟨fun calls d => afterCalls_grown calls d, fun a d e h => (appendWith_fits h).1, ?_, reported_afterCalls⟩
  intro chunks path d calls hne hpartial hcalls hretried
  apply complete_of_retried hpartial hcalls
  have hlast := hretried chunks.dropLast (chunks.getLast hne) [] (List.dropLast_append_getLast hne).symm
  rwa [List.dropLast_append_getLast hne] at hlast

/-- A write torn after one byte, and the retry from the size that is then reported. -/
theorem append_resumes_torn :
    (afterCalls [⟨{ turns := [.wrote 0, .cancelled] }, [[]], 0, [1, 2]⟩, ⟨{}, [[]], 1, [2]⟩] .empty).content [[]] =
      some [1, 2] := by
  apply append_resumes.2.2.1 [[1, 2]]
  · simp
  · exact ⟨⟨by simp, rfl, Or.inl rfl⟩, List.nil_prefix⟩
  · intro a ha
    simp only [List.mem_cons, List.not_mem_nil, or_false] at ha
    rcases ha with rfl | rfl
    · exact ⟨rfl, 0, rfl, List.prefix_rfl⟩
    · exact ⟨rfl, 1, rfl, List.prefix_rfl⟩
  · intro front chunk back h
    have hlength : (front ++ [chunk]).flatten.length ≤ 2 := by
      have hflat : (front ++ [chunk]).flatten ++ back.flatten = [1, 2] := by
        rw [← List.flatten_append, List.append_assoc, List.singleton_append, ← h]
        rfl
      have := congrArg List.length hflat
      simp only [List.length_append, List.length_cons, List.length_nil] at this
      omega
    refine ⟨[_], _, [], rfl, by decide, ?_, ⟨rfl, rfl, by simp, rfl⟩⟩
    simp only [List.length_cons, List.length_nil]
    omega

/-- A file that is longer than every range that was passed stays so. -/
theorem append_longer : ¬∀ calls d q, (reported q (afterCalls calls d) : Int) ≤ furthest calls := by
  intro h
  have hsize := h [⟨{}, [[]], 0, []⟩] ((Disk.empty.create [[]]).write 0 [7]) [[]]
  revert hsize
  decide

end ConfinedFiles

end SocietyHelper.Sync
