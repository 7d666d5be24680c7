import SocietyHelper.Library.History
import SocietyHelper.Media.FileDownload

/-! # Downloads are handed over in order

The log of a run is read session by session. What the worker carries out for one
session is the begin of a transfer, then chunks without a gap between them, then
the commit; a file is shown as ready only behind the answers that make it so.
The invariant says where the one operation is that the interface waits for.
-/

namespace SocietyHelper.Media

open Library Sync

/-! ## What the log says of a session -/

/-- An operation, the message that it passed on to the replica, and its result. -/
abbrev Move := Operation × Option Request × Result

def Output.move (n : Nat) : Output → Option Move
  | .performed m op sent r => if m = n then some (op, sent, r) else none
  | _ => none

/-- What the worker has carried out for a session. -/
def moves (n : Nat) (log : List Output) : List Move := log.filterMap (Output.move n)

@[simp] theorem moves_append (n : Nat) (log log' : List Output) : moves n (log ++ log') = moves n log ++ moves n log' :=
  List.filterMap_append

@[simp] theorem moves_performed (n m : Nat) (op : Operation) (sent : Option Request) (r : Result) :
    moves n [.performed m op sent r] = if m = n then [(op, sent, r)] else [] := by
  by_cases h : m = n
  · simp [moves, Output.move, h]
  · simp [moves, Output.move, h]

@[simp] theorem moves_started (n m : Nat) (o : Order) (b : Bool) : moves n [.started m o b] = [] := rfl

@[simp] theorem moves_asked (n m : Nat) (token : Text) (q : Question) : moves n [.asked m token q] = [] := rfl

@[simp] theorem moves_ready (n m : Nat) (file : FileAlias) : moves n [.ready m file] = [] := rfl

theorem mem_moves {n : Nat} {op : Operation} {sent : Option Request} {r : Result} {log : List Output} :
    (op, sent, r) ∈ moves n log ↔ .performed n op sent r ∈ log := by
  rw [moves, List.mem_filterMap]
  constructor
  · rintro ⟨x, hx, hmove⟩
    cases x with
    | performed m op' sent' r' =>
      rw [Output.move] at hmove
      split at hmove
      · rename_i hm
        cases hmove
        exact hm ▸ hx
      · cases hmove
    | started => cases hmove
    | asked => cases hmove
    | ready => cases hmove
  · intro hm
    exact ⟨_, hm, by simp [Output.move]⟩

/-- The message that an operation comes to. -/
def messageOf (e : Sync.Entry) : Operation → Request
  | .prepare _ => { action := text "begin", entry := some e, expectedVersion := e.version }
  | .chunk position encoded =>
    { action := text "chunk", entry := some e, expectedVersion := e.version
      offset := .string (decimalInt position), data := .string encoded }
  | .commit => { action := text "commit", entry := some e, expectedVersion := e.version }

/-- A message names the selected file in its selected version, and a result is a good one only behind a message. -/
structure Did (o : Order) (e : Sync.Entry) (op : Operation) (sent : Option Request) (r : Result) : Prop where
  message : ∀ q ∈ sent, q = messageOf e op ∧ e.isKind file ∧ e.version = .string o.version
  answered : r.ok → sent.isSome
  size : r.ok → (∃ p, op = .prepare p) → r.size = e.size

theorem Did.refused (o : Order) (e : Sync.Entry) (op : Operation) (error : Text) : Did o e op none (failure error) where
  message q hq := absurd hq (by simp)
  answered h := absurd h (by simp [failure])
  size h := absurd h (by simp [failure])

/-- The accepted moves of a session and the offset that they have reached. -/
inductive Carried (o : Order) (e : Sync.Entry) (total : Int) : List Move → Int → Prop where
  | begun {sent : Option Request} {r : Result} {offset : Int} (did : Did o e (.prepare o) sent r) (ok : r.ok)
      (size : toLongLong r.size.text = some total)
      (start : toLongLong (if r.offset.isString then r.offset.text else text "0") = some offset)
      (low : 0 ≤ offset) (high : offset ≤ total) : Carried o e total [(.prepare o, sent, r)] offset
  | stored {l : List Move} {position : Int} {bytes : Bytes} {sent : Option Request} {r : Result}
      (before : Carried o e total l position) (short : position < total)
      (length : (bytes.length : Int) = min FileDownload.chunkBytes (total - position))
      (did : Did o e (.chunk position (Base64.encode bytes)) sent r) (ok : r.ok) :
      Carried o e total (l ++ [(.chunk position (Base64.encode bytes), sent, r)]) (position + bytes.length)

/-- What may be carried out behind the moves of a session. -/
inductive Due (o : Order) (e : Sync.Entry) : List Move → Operation → Prop where
  | prepare : Due o e [] (.prepare o)
  | chunk {l : List Move} {total position : Int} {bytes : Bytes} (before : Carried o e total l position)
      (short : position < total) (length : (bytes.length : Int) = min FileDownload.chunkBytes (total - position)) :
      Due o e l (.chunk position (Base64.encode bytes))
  | commit {l : List Move} {total : Int} (before : Carried o e total l total) : Due o e l .commit

theorem Carried.bounds {o : Order} {e : Sync.Entry} {total offset : Int} {l : List Move} (h : Carried o e total l offset) :
    0 ≤ offset ∧ offset ≤ total := by
  cases h with
  | begun did ok size start low high => exact ⟨low, high⟩
  | stored before short length did ok =>
    have hlow : ∀ {l offset}, Carried o e total l offset → 0 ≤ offset := by
      intro l offset h
      induction h with
      | begun did ok size start low high => exact low
      | stored before short length did ok ih => omega
    have := hlow before
    constructor
    · omega
    · omega

/-- The begin of a transfer has been passed on for the selected file. -/
theorem Carried.selected {o : Order} {e : Sync.Entry} {total offset : Int} {l : List Move} (h : Carried o e total l offset) :
    e.isKind file ∧ e.version = .string o.version := by
  induction h with
  | begun did ok size start low high =>
    obtain ⟨q, hq⟩ := Option.isSome_iff_exists.mp (did.answered ok)
    exact (did.message q hq).2
  | stored before short length did ok ih => exact ih

/-- An operation of a session comes behind everything of earlier sessions, and is due in its own. -/
def InOrder (earlier : List Output) : Output → Prop
  | .performed n op sent r =>
    (∀ m, moves m earlier ≠ [] → m ≤ n) ∧
      ∃ o e b, .started n o b ∈ earlier ∧ Due o e (moves n earlier) op ∧ Did o e op sent r
  | _ => True

/-- The answer that lets a session show its file. -/
def Arrived (l : List Move) : Prop :=
  (∃ o sent r, l = [(.prepare o, sent, r)] ∧ r.ok ∧ r.complete) ∨
    ∃ o e total front sent r, Carried o e total front total ∧ l = front ++ [(.commit, sent, r)] ∧ r.ok

/-- A file is shown once in its session, in the container it was selected in. -/
def Earned (earlier : List Output) : Output → Prop
  | .ready n file =>
    file.available ∧ file.exists ∧ (∀ f, .ready n f ∉ earlier) ∧
      ∃ o b, .started n o b ∈ earlier ∧ file.containerId = .string o.id ∧
        (∀ m o' b', .started m o' b' ∈ earlier → m ≤ n) ∧ (b = true ∧ moves n earlier = [] ∨ Arrived (moves n earlier))
  | _ => True

/-! ## The worker -/

namespace DownloadWorker

theorem retryBusy_attempted {tries : List Try} (h : (retryBusy tries).ok) : tries.head?.any fun t => !t.cancelled := by
  cases tries with
  | nil => cases h
  | cons t rest =>
    rw [retryBusy] at h
    split at h
    · cases h
    · rename_i hcancelled
      simpa using hcancelled

theorem handle_message {w : DownloadWorker} {r : Request} {tries : List Try} :
    (∀ q ∈ (w.handle r tries).2, q = w.message r) ∧ ((w.handle r tries).1.ok → w.replica ∧ (w.handle r tries).2.isSome) := by
  rw [handle]
  split
  · refine ⟨fun q hq => ?_, fun h => ?_⟩
    · cases hq
    · cases h
  · rename_i hopen
    refine ⟨fun q hq => ?_, fun h => ⟨by simpa using hopen, ?_⟩⟩
    · dsimp only at hq
      split at hq
      · exact (Option.some.inj hq).symm
      · cases hq
    · dsimp only
      rw [if_pos (retryBusy_attempted h)]
      rfl

theorem commit_message (w : DownloadWorker) (a : Attempt) :
    (∀ q ∈ (w.commit a).2, q = w.message { action := text "commit" }) ∧ ((w.commit a).1.ok → (w.commit a).2.isSome) := by
  obtain ⟨hmessage, hok⟩ := @handle_message w { action := text "commit" } a.tries
  rw [commit]
  generalize w.handle { action := text "commit" } a.tries = x at hmessage hok ⊢
  obtain ⟨result, sent⟩ := x
  dsimp only at hmessage hok ⊢
  split
  · exact ⟨hmessage, fun _ => (hok ‹_›).2⟩
  · exact ⟨hmessage, fun h => (hok h).2⟩

theorem prepare_did (o : Order) (a : Attempt) :
    Did o (prepare o a).2.2.entry (.prepare o) (prepare o a).2.1 (prepare o a).1 := by
  rw [prepare]
  split
  · exact Did.refused o _ _ _
  · dsimp only
    split
    · exact Did.refused o _ _ _
    · split
      · exact Did.refused o _ _ _
      · split
        · exact Did.refused o _ _ _
        · rename_i hrecord
          simp only [Bool.not_eq_true, not_or, Bool.not_eq_false, not_not] at hrecord
          obtain ⟨hmessage, hok⟩ := @handle_message { replica := true, entry := a.record, binding := a.binding }
            { action := text "begin" } a.tries
          exact ⟨fun q hq => ⟨hmessage q hq, hrecord.1, hrecord.2⟩, fun h => (hok h).2, fun _ _ => rfl⟩

/-- Behind the begin of a transfer, an operation passes on the entry of the begin. -/
theorem perform_did {w : DownloadWorker} {o : Order} {l : List Move} {op : Operation} (hdue : Due o w.entry l op)
    (a : Attempt) :
    Did o (w.perform a op).2.2.entry op (w.perform a op).2.1 (w.perform a op).1 ∧
      ((∀ p, op ≠ .prepare p) → (w.perform a op).2.2 = w) := by
  cases hdue with
  | prepare => exact ⟨prepare_did o a, fun h => absurd rfl (h o)⟩
  | chunk before short length =>
    obtain ⟨hmessage, hok⟩ := @handle_message w _ a.tries
    exact ⟨⟨fun q hq => ⟨hmessage q hq, before.selected⟩, fun h => (hok h).2, fun _ hp => hp.elim fun p hp => absurd hp (by simp)⟩, fun _ => rfl⟩
  | commit before =>
    obtain ⟨hmessage, hok⟩ := commit_message w a
    exact ⟨⟨fun q hq => ⟨hmessage q hq, before.selected⟩, hok, fun _ hp => hp.elim fun p hp => absurd hp (by simp)⟩, fun _ => rfl⟩

end DownloadWorker

/-! ## The invariant -/

/-- The part of a state that only queues and the log are read from. -/
structure Core where
  log : List Output
  epoch : Nat
  cancelled : List Nat
  scheduled : List Nat
  line : List Job
  entry : Sync.Entry
  results : List (Post × Result)

def posts (l : List Job) : List Post :=
  l.filterMap fun
    | .post p => some p
    | .close => none

@[simp] theorem posts_append (l l' : List Job) : posts (l ++ l') = posts l ++ posts l' := List.filterMap_append

@[simp] theorem posts_post (p : Post) (l : List Job) : posts (.post p :: l) = p :: posts l := rfl

@[simp] theorem posts_close (l : List Job) : posts (.close :: l) = posts l := rfl

@[simp] theorem posts_nil : posts [] = [] := rfl

/-- What holds of every session, past or present. Only the first post of the line may be another one
than the begin of a transfer, so no other job comes between two operations of a session. -/
structure Core.Sound (c : Core) : Prop where
  inOrder : Linked InOrder c.log
  earned : Linked Earned c.log
  moved : ∀ m, moves m c.log ≠ [] → m ≤ c.epoch
  started : ∀ m o b, .started m o b ∈ c.log → m ≤ c.epoch
  same : ∀ m o b o' b', .started m o b ∈ c.log → .started m o' b' ∈ c.log → o = o' ∧ b = b'
  shown : ∀ m f, .ready m f ∈ c.log → m ∈ c.cancelled
  scheduled : ∀ m ∈ c.scheduled, ∃ o, .started m o true ∈ c.log
  due : ∀ p ∈ posts c.line, p.generation ≤ c.epoch ∧ (∀ m, moves m c.log ≠ [] → m ≤ p.generation) ∧
    ∃ o b, .started p.generation o b ∈ c.log ∧ Due o c.entry (moves p.generation c.log) p.operation
  rising : ((posts c.line).map Post.generation).Pairwise (· < ·)
  tail : ∀ p ∈ posts c.line.tail, ∃ o, p.operation = .prepare o
  results : ∀ x ∈ c.results, x.1.generation ≤ c.epoch
  flags : ∀ n ∈ c.cancelled, n ≤ c.epoch

namespace FileDownload

def line (s : FileDownload) : List Job := s.running.toList.map .post ++ s.jobs

def entry (s : FileDownload) : Sync.Entry := (s.worker.getD {}).entry

def core (s : FileDownload) : Core :=
  { log := s.log, epoch := s.epoch, cancelled := s.cancelled, scheduled := s.scheduled
    line := s.line, entry := s.entry, results := s.results }

/-- The operation that comes next in a session, with what becomes of its result. -/
inductive Expects (s : FileDownload) (o : Order) : Operation → Callback → Prop where
  | prepare (fresh : s.prepared = false) : Expects s o (.prepare o) .prepared
  | chunk {bytes : Bytes} (prepared : s.prepared = true) (short : s.offset < s.total)
      (length : (bytes.length : Int) = min chunkBytes (s.total - s.offset)) :
      Expects s o (.chunk s.offset (Base64.encode bytes)) (.stored (s.offset + bytes.length))
  | commit (prepared : s.prepared = true) (whole : s.offset = s.total) : Expects s o .commit .committed

/-- The moves that the session has accepted. -/
def Accepted (s : FileDownload) (o : Order) (l : List Move) : Prop :=
  if s.prepared then Carried o s.entry s.total l s.offset else l = []

/-- The session that is active. -/
structure Session (s : FileDownload) (o : Order) (b : Bool) : Prop where
  active : s.active = true
  deadline : s.deadline = true
  live : s.epoch ∉ s.cancelled
  started : .started s.epoch o b ∈ s.log
  id : o.id = s.id
  key : o.key = s.key

/-- Nothing of the session is with the worker. -/
structure Rests (s : FileDownload) (l : List Move) : Prop where
  pending : s.pending = false
  moves : moves s.epoch s.log = l
  line : ∀ p ∈ posts s.line, p.generation < s.epoch
  results : ∀ x ∈ s.results, x.1.generation < s.epoch
  idle : s.prepared = true → s.line = []

/-- An operation is on its way to the worker. -/
structure Queued (s : FileDownload) (o : Order) (l : List Move) (p : Post) : Prop where
  pending : s.pending = true
  generation : p.generation = s.epoch
  moves : moves s.epoch s.log = l
  line : ∃ front, s.line = front ++ [.post p] ∧ (∀ q ∈ posts front, q.generation < s.epoch) ∧ (s.prepared = true → front = [])
  results : ∀ x ∈ s.results, x.1.generation < s.epoch
  expects : Expects s o p.operation p.callback

/-- The result of an operation is on its way back. -/
structure Answered (s : FileDownload) (o : Order) (l : List Move) (p : Post) (r : Result) : Prop where
  pending : s.pending = true
  generation : p.generation = s.epoch
  moves : ∃ sent, moves s.epoch s.log = l ++ [(p.operation, sent, r)] ∧ Did o s.entry p.operation sent r
  line : s.line = []
  results : ∃ front, s.results = front ++ [(p, r)] ∧ ∀ x ∈ front, x.1.generation < s.epoch
  expects : Expects s o p.operation p.callback

inductive Live (s : FileDownload) : Prop where
  | rests {o : Order} {b : Bool} {l : List Move} (session : Session s o b) (accepted : Accepted s o l) (rests : Rests s l)
      (local_ : b = true → s.prepared = false)
      (asked : s.request ≠ [] → s.prepared = true ∧ (s.nativeVersion ≠ [] → s.offset < s.total))
  | queued {o : Order} {l : List Move} {p : Post} (session : Session s o false) (accepted : Accepted s o l)
      (queued : Queued s o l p) (request : s.request = [])
  | answered {o : Order} {l : List Move} {p : Post} {r : Result} (session : Session s o false) (accepted : Accepted s o l)
      (answered : Answered s o l p r) (request : s.request = [])

structure Inv (s : FileDownload) : Prop where
  sound : s.core.Sound
  live : s.active = true → Live s
  ended : s.active = false → s.epoch ∈ s.cancelled ∧ s.prepared = false ∧ s.pending = false ∧ s.request = []

end FileDownload

/-! ## Queues and the log -/

namespace Core.Sound

variable {c : Core}

theorem cancel (h : c.Sound) {n : Nat} (hn : n ≤ c.epoch) : Core.Sound { c with cancelled := n :: c.cancelled } :=
  { h with
    shown := fun m f hm => List.mem_cons_of_mem n (h.shown m f hm)
    flags := fun m hm => (List.mem_cons.mp hm).elim (fun heq => heq ▸ hn) (h.flags m) }

theorem close (h : c.Sound) : Core.Sound { c with line := c.line ++ [.close] } := by
  have hposts : posts (c.line ++ [.close]) = posts c.line := by simp
  have htail : ∀ p ∈ posts (c.line ++ [Job.close]).tail, p ∈ posts c.line.tail := by
    intro p hp
    cases hline : c.line with
    | nil => simp [hline] at hp
    | cons j rest => simpa [hline] using hp
  exact { h with
    due := fun p hp => h.due p (hposts ▸ hp)
    rising := by
      show ((posts (c.line ++ [.close])).map Post.generation).Pairwise (· < ·)
      rw [hposts]
      exact h.rising
    tail := fun p hp => h.tail p (htail p hp) }

/-- A note that is neither of a session's start nor of an operation. -/
theorem note (h : c.Sound) {x : Output} (hmoves : ∀ n, moves n [x] = []) (hstarted : ∀ m o b, x ≠ .started m o b)
    (horder : InOrder c.log x) (hearned : Earned c.log x) (hshown : ∀ m f, x = .ready m f → m ∈ c.cancelled) :
    Core.Sound { c with log := c.log ++ [x] } := by
  have hmoved : ∀ n, moves n (c.log ++ [x]) = moves n c.log := by
    intro n
    rw [moves_append, hmoves, List.append_nil]
  have hmem : ∀ m o b, .started m o b ∈ c.log ++ [x] → .started m o b ∈ c.log := by
    intro m o b hm
    rcases List.mem_append.mp hm with hm | hm
    · exact hm
    · exact absurd (List.mem_singleton.mp hm).symm (hstarted m o b)
  exact { h with
    inOrder := Linked.concat_iff.mpr ⟨h.inOrder, horder⟩
    earned := Linked.concat_iff.mpr ⟨h.earned, hearned⟩
    moved := fun m hm => h.moved m (hmoved m ▸ hm)
    started := fun m o b hm => h.started m o b (hmem m o b hm)
    same := fun m o b o' b' hm hm' => h.same m o b o' b' (hmem m o b hm) (hmem m o' b' hm')
    shown := fun m f hm => by
      rcases List.mem_append.mp hm with hm | hm
      · exact h.shown m f hm
      · exact hshown m f (List.mem_singleton.mp hm).symm
    scheduled := fun m hm => (h.scheduled m hm).imp fun o ho => List.mem_append_left _ ho
    due := fun p hp => by
      obtain ⟨hle, hbefore, o, b, ho, hdue⟩ := h.due p hp
      exact ⟨hle, fun m hm => hbefore m (hmoved m ▸ hm), o, b, List.mem_append_left _ ho, (hmoved p.generation).symm ▸ hdue⟩ }

theorem asked (h : c.Sound) (n : Nat) (token : Text) (q : Question) :
    Core.Sound { c with log := c.log ++ [.asked n token q] } :=
  h.note (fun n => rfl) (fun m o b => by simp) trivial trivial fun m f hm => by simp at hm

/-- A post joins the line behind everything of earlier sessions. -/
theorem post (h : c.Sound) {o : Order} {b : Bool} {p : Post} (hepoch : p.generation = c.epoch)
    (hstarted : .started c.epoch o b ∈ c.log) (hdue : Due o c.entry (moves c.epoch c.log) p.operation)
    (hline : ∀ q ∈ posts c.line, q.generation < c.epoch) (hfirst : c.line = [] ∨ ∃ o, p.operation = .prepare o) :
    Core.Sound { c with line := c.line ++ [.post p] } := by
  have hposts : posts (c.line ++ [.post p]) = posts c.line ++ [p] := by simp
  exact { h with
    due := fun q hq => by
      rcases List.mem_append.mp (hposts ▸ hq : q ∈ posts c.line ++ [p]) with hq | hq
      · exact h.due q hq
      · obtain rfl := List.mem_singleton.mp hq
        exact ⟨Nat.le_of_eq hepoch, fun m hm => hepoch ▸ h.moved m hm, o, b, hepoch ▸ hstarted, hepoch ▸ hdue⟩
    rising := by
      show ((posts (c.line ++ [.post p])).map Post.generation).Pairwise (· < ·)
      rw [hposts, List.map_append, List.pairwise_append]
      refine ⟨h.rising, List.pairwise_singleton _ _, fun m hm n hn => ?_⟩
      obtain ⟨q, hq, rfl⟩ := List.mem_map.mp hm
      obtain rfl := List.mem_singleton.mp hn
      exact hepoch ▸ hline q hq
    tail := fun q hq => by
      rcases hfirst with hempty | hprepare
      · rw [hempty] at hq
        simp at hq
      · cases hjobs : c.line with
        | nil =>
          rw [hjobs] at hq
          simp at hq
        | cons j rest =>
          rw [hjobs] at hq
          rcases List.mem_append.mp (by simpa using hq : q ∈ posts rest ++ [p]) with hq | hq
          · exact h.tail q (by rw [hjobs]; exact hq)
          · exact List.mem_singleton.mp hq ▸ hprepare }

end Core.Sound

/-! ## Steps of the interface -/

namespace FileDownload

variable {s : FileDownload} {o : Order} {b : Bool} {l : List Move}

theorem finish_core (state error : Text) : (s.finish state error).core = if s.worker.isSome then
    { s.core with cancelled := s.epoch :: s.cancelled, line := s.line ++ [.close] }
    else { s.core with cancelled := s.epoch :: s.cancelled } := by
  rw [finish, closeWorker]
  dsimp only
  split
  · simp only [core, line, entry, List.append_assoc]
  · rfl

theorem finish_sound (h : s.core.Sound) (state error : Text) : (s.finish state error).core.Sound := by
  rw [finish_core]
  split
  · exact (h.cancel (Nat.le_refl s.epoch)).close
  · exact h.cancel (Nat.le_refl s.epoch)

theorem finish_same (state error : Text) : (s.finish state error).epoch = s.epoch ∧ (s.finish state error).log = s.log ∧
    (s.finish state error).active = false ∧ s.epoch ∈ (s.finish state error).cancelled ∧
    (s.finish state error).id = s.id ∧ (s.finish state error).prepared = false ∧
    (s.finish state error).pending = false ∧ (s.finish state error).request = [] := by
  rw [finish, closeWorker]
  dsimp only
  split
  · exact ⟨rfl, rfl, rfl, List.mem_cons_self, rfl, rfl, rfl, rfl⟩
  · exact ⟨rfl, rfl, rfl, List.mem_cons_self, rfl, rfl, rfl, rfl⟩

theorem finish_inv (h : s.core.Sound) (state error : Text) : (s.finish state error).Inv := by
  obtain ⟨hepoch, -, hactive, hcancelled, -, hrest⟩ := @finish_same s state error
  refine ⟨finish_sound h state error, fun hlive => ?_, fun _ => ⟨hepoch.symm ▸ hcancelled, hrest⟩⟩
  rw [hactive] at hlive
  cases hlive

/-- The file is shown behind what lets the session show it. -/
theorem complete_inv (h : s.core.Sound) (hsession : Session s o b)
    (harrived : b = true ∧ moves s.epoch s.log = [] ∨ Arrived (moves s.epoch s.log)) (c : Surroundings) :
    (s.complete c).Inv := by
  rw [complete]
  split
  · exact finish_inv h _ _
  · -- The signal of the synchronization may end the session before the file is looked up.
    generalize hagain : (if s.active = true ∧ ¬s.sameStorage c.resynchronized = true then
      s.finish (text "cancelled") (text "remote_container_changed") else s) = t
    have ht : t.core.Sound ∧ t.epoch = s.epoch ∧ t.log = s.log ∧ t.id = s.id := by
      rw [← hagain]
      split
      · obtain ⟨hepoch, hlog, -, -, hid, -⟩ := @finish_same s (text "cancelled") (text "remote_container_changed")
        exact ⟨finish_sound h _ _, hepoch, hlog, hid⟩
      · exact ⟨h, rfl, rfl, rfl⟩
    obtain ⟨hsound, hepoch, hlog, hid⟩ := ht
    dsimp only
    split
    · exact finish_inv hsound _ _
    · rename_i hfile
      simp only [not_or, Bool.not_eq_true, Bool.not_eq_false, not_not] at hfile
      obtain ⟨havailable, hexists, hcontainer⟩ := hfile
      have hover : ({ t with offset := t.total }.finish (text "ready") []).core.Sound := finish_sound (s := { t with offset := t.total }) hsound _ _
      obtain ⟨hepoch', hlog', hactive, hcancelled, -, hrest⟩ := @finish_same { t with offset := t.total } (text "ready") []
      generalize { t with offset := t.total }.finish (text "ready") [] = u at hover hepoch' hlog' hactive hcancelled hrest
      have hlogs : u.log = s.log := hlog'.trans hlog
      have hepochs : u.epoch = s.epoch := hepoch'.trans hepoch
      refine ⟨?_, fun hlive => absurd (hactive.symm.trans hlive) (by simp), fun _ => ?_⟩
      · refine Core.Sound.note hover (fun n => rfl) (fun m o b => by simp) trivial ?_ ?_
        · show Earned u.log (.ready t.epoch c.file)
          rw [hlogs, hepoch]
          refine ⟨havailable, hexists, fun f hf => hsession.live (h.shown _ f hf), o, b, hsession.started, ?_,
            fun m o' b' hm => h.started m o' b' hm, harrived⟩
          rw [hcontainer, hid, hsession.id]
        · intro m f hm
          obtain ⟨rfl, -⟩ : t.epoch = m ∧ c.file = f := by simpa using hm
          exact hcancelled
      · exact ⟨hepoch'.symm ▸ hcancelled, hrest⟩

theorem Expects.congr {t : FileDownload} {op : Operation} {f : Callback} (h : Expects s o op f)
    (hprepared : s.prepared = t.prepared) (hoffset : s.offset = t.offset) (htotal : s.total = t.total) :
    Expects t o op f := by
  cases h with
  | prepare fresh => exact .prepare (hprepared ▸ fresh)
  | chunk prepared short length =>
    rw [hoffset] at short length ⊢
    rw [htotal] at short length
    exact .chunk (hprepared ▸ prepared) short length
  | commit prepared whole => exact .commit (hprepared ▸ prepared) (hoffset ▸ htotal ▸ whole)

theorem due_of_expects {op : Operation} {f : Callback} (haccepted : Accepted s o l) (h : Expects s o op f) :
    Due o s.entry l op := by
  cases h with
  | prepare fresh =>
    rw [Accepted, fresh] at haccepted
    obtain rfl : l = [] := haccepted
    exact .prepare
  | chunk prepared short length =>
    rw [Accepted, if_pos prepared] at haccepted
    exact .chunk haccepted short length
  | commit prepared whole =>
    rw [Accepted, if_pos prepared, whole] at haccepted
    exact .commit haccepted

theorem line_post (op : Operation) (f : Callback) :
    (s.post op f).line = s.line ++ [.post { generation := s.epoch, operation := op, callback := f }] := by
  simp [line, post]

theorem post_inv (h : s.core.Sound) (hsession : Session s o false) (haccepted : Accepted s o l) (hrests : Rests s l)
    (hrequest : s.request = []) {op : Operation} {f : Callback} (hexpects : Expects s o op f) : (s.post op f).Inv := by
  have hdue : Due o s.entry (moves s.epoch s.log) op := hrests.moves.symm ▸ due_of_expects haccepted hexpects
  have hfirst : s.line = [] ∨ ∃ o, op = .prepare o := by
    cases hexpects with
    | prepare fresh => exact .inr ⟨o, rfl⟩
    | chunk prepared short length => exact .inl (hrests.idle prepared)
    | commit prepared whole => exact .inl (hrests.idle prepared)
  refine ⟨?_, fun _ => ?_, fun hactive => absurd (hsession.active.symm.trans hactive) (by simp)⟩
  · have hpost := h.post (p := { generation := s.epoch, operation := op, callback := f }) rfl hsession.started hdue
      hrests.line hfirst
    rw [core, line_post]
    exact hpost
  · exact .queued (o := o) (l := l) (p := { generation := s.epoch, operation := op, callback := f })
      { hsession with } haccepted ⟨rfl, rfl, hrests.moves, ⟨s.line, line_post op f, hrests.line, hrests.idle⟩,
        hrests.results, hexpects.congr rfl rfl rfl⟩ hrequest

theorem ask_inv (h : s.core.Sound) (hsession : Session s o false) (haccepted : Accepted s o l) (hrests : Rests s l)
    (hprepared : s.prepared = true) (hread : s.nativeVersion ≠ [] → s.offset < s.total) (q : Question) (token : Text) :
    (s.ask q token).Inv := by
  rw [ask]
  split
  · exact finish_inv h _ _
  · refine ⟨h.asked _ token q, fun _ => ?_, fun hactive => absurd (hsession.active.symm.trans hactive) (by simp)⟩
    refine .rests (o := o) (b := false) (l := l) ?_ haccepted ?_ (fun hb => absurd hb (by simp)) fun _ => ⟨hprepared, hread⟩
    · exact { hsession with deadline := rfl, started := List.mem_append_left _ hsession.started }
    · refine { hrests with moves := ?_ }
      show moves s.epoch (s.log ++ [.asked s.epoch token q]) = l
      rw [moves_append, moves_asked, List.append_nil, hrests.moves]

/-- A session with a begun transfer has found its file missing. -/
theorem remote_of_prepared (hprepared : s.prepared = true) (hlocal : b = true → s.prepared = false) : b = false := by
  cases b with
  | false => rfl
  | true => exact absurd (hprepared.symm.trans (hlocal rfl)) (by simp)

/-- The session goes on where it stands. -/
theorem advance_inv (h : s.Inv) (c : Surroundings) : (s.advance c).Inv := by
  rw [advance]
  split
  · exact h
  · rename_i hgo
    simp only [not_or, Bool.not_eq_true, Bool.not_eq_false, not_not] at hgo
    obtain ⟨hactive, hprepared, hpending, hrequest, -⟩ := hgo
    cases h.live hactive with
    | queued session accepted queued => exact absurd (queued.pending.symm.trans hpending) (by simp)
    | answered session accepted answered => exact absurd (answered.pending.symm.trans hpending) (by simp)
    | @rests o b l session accepted rests local_ asked =>
      obtain rfl := remote_of_prepared hprepared local_
      split
      · exact finish_inv h.sound _ _
      · split
        · exact h
        · split
          · exact finish_inv h.sound _ _
          · dsimp only
            split
            · rename_i hversion
              exact ask_inv (s := { s with value.state := text "downloading" }) h.sound { session with } accepted
                { rests with } hprepared (fun hread => absurd hversion hread) _ _
            · split
              · rename_i hshort
                exact ask_inv (s := { s with value.state := text "downloading" }) h.sound { session with } accepted
                  { rests with } hprepared (fun _ => hshort) _ _
              · rename_i hwhole
                have hcarried := accepted
                rw [Accepted, if_pos hprepared] at hcarried
                have hreached : s.offset = s.total := le_antisymm hcarried.bounds.2 (not_lt.mp hwhole)
                exact post_inv (s := { s with value.state := text "verifying", deadline := true }) h.sound
                  { session with deadline := rfl } accepted { rests with } hrequest (.commit hprepared hreached)

theorem chunkOf_some {r : Response} {bytes : Bytes} (h : s.chunkOf r = some bytes) :
    Base64.decode r.data.text = some bytes ∧ Base64.encode bytes = r.data.text ∧
      (bytes.length : Int) = min chunkBytes (s.total - s.offset) := by
  rw [chunkOf] at h
  split at h
  · rename_i hdecoded
    split at h
    · rename_i hfits
      obtain ⟨-, -, -, hlength, hencoded, -⟩ := hfits
      obtain rfl := Option.some.inj h
      exact ⟨hdecoded, hencoded, hlength⟩
    · cases h
  · cases h

/-- The question that is open has been answered; the version is pinned or stays so. -/
theorem cleared_inv (h : s.Inv) (hactive : s.active = true) (hopen : s.request ≠ []) (version : Text) :
    ({ s with request := [], nativeVersion := version } : FileDownload).Inv := by
  refine ⟨h.sound, fun _ => ?_, fun hover => absurd (hactive.symm.trans hover) (by simp)⟩
  cases h.live hactive with
  | queued session accepted queued request => exact absurd request hopen
  | answered session accepted answered request => exact absurd request hopen
  | @rests o b l session accepted rests local_ asked =>
    exact .rests (o := o) (b := b) (l := l) { session with } accepted { rests with } local_ fun hrequest => absurd rfl hrequest

/-- An answer counts if it has the token of the question that is open. -/
theorem response_inv (h : s.Inv) {token : Text} (htoken : token ≠ []) (r : Response) (c c' : Surroundings) :
    (s.response token r c c').Inv := by
  rw [response]
  split
  · exact h
  · rename_i hgo
    simp only [not_or, Bool.not_eq_true, Bool.not_eq_false, not_not] at hgo
    obtain ⟨hactive, rfl⟩ := hgo
    cases h.live hactive with
    | queued session accepted queued request => exact absurd request htoken
    | answered session accepted answered request => exact absurd request htoken
    | @rests o b l session accepted rests local_ asked =>
      obtain ⟨hprepared, hread⟩ := asked htoken
      obtain rfl := remote_of_prepared hprepared local_
      dsimp only
      split
      · exact finish_inv (s := { s with request := [] }) h.sound _ _
      · split
        · exact finish_inv (s := { s with request := [] }) h.sound _ _
        · split
          · exact finish_inv (s := { s with request := [] }) h.sound _ _
          · split
            · exact advance_inv (cleared_inv h hactive htoken r.version.text) c'
            · rename_i hversion
              split
              · exact finish_inv (s := { s with request := [] }) h.sound _ _
              · rename_i bytes hchunk
                obtain ⟨-, hencoded, hlength⟩ := chunkOf_some hchunk
                rw [← hencoded]
                exact post_inv (s := { s with request := [] }) h.sound { session with } accepted { rests with } rfl
                  (.chunk (s := { s with request := [] }) hprepared (hread hversion) hlength)

/-! ## Results -/

/-- The result of an operation has come back; nothing else of the session is on its way. -/
structure Returned (s : FileDownload) (o : Order) (l : List Move) (op : Operation) (r : Result) : Prop where
  session : Session s o false
  accepted : Accepted s o l
  pending : s.pending = false
  request : s.request = []
  moves : ∃ sent, moves s.epoch s.log = l ++ [(op, sent, r)] ∧ Did o s.entry op sent r
  line : s.line = []
  results : ∀ x ∈ s.results, x.1.generation < s.epoch

theorem Returned.rests {op : Operation} {r : Result} (h : Returned s o l op r) : Rests s (Media.moves s.epoch s.log) where
  pending := h.pending
  moves := rfl
  line p hp := by
    rw [h.line] at hp
    cases hp
  results := h.results
  idle _ := h.line

theorem accepted_cases (r : Result) :
    (s.accepted r = .ok () ∧ r.ok = true) ∨ ∃ error, s.accepted r = .error (s.finish (text "failed") error) := by
  rw [accepted]
  split
  · rename_i hok
    exact .inl ⟨rfl, hok⟩
  · exact .inr ⟨_, rfl⟩

/-- The begin of a transfer is accepted. -/
theorem begun_inv (h : s.core.Sound) {r : Result} (hreturned : Returned s o [] (.prepare o) r) (hr : r.ok = true)
    {total offset : Int} (htotal : toLongLong r.size.text = some total)
    (hoffset : toLongLong (if r.offset.isString then r.offset.text else text "0") = some offset) (hlow : 0 ≤ offset)
    (hhigh : offset ≤ total) (value : Shown) :
    ({ s with total, offset, value, binding := r.binding, prepared := true } : FileDownload).Inv := by
  obtain ⟨sent, hmoves, hdid⟩ := hreturned.moves
  have hsession := hreturned.session
  refine ⟨h, fun _ => .rests (o := o) (b := false) (l := moves s.epoch s.log) { hsession with } ?_
    { hreturned.rests with idle := fun _ => hreturned.line } (fun hb => absurd hb (by simp))
    fun hrequest => absurd hreturned.request hrequest, fun hover => absurd (hsession.active.symm.trans hover) (by simp)⟩
  show Carried o s.entry total (moves s.epoch s.log) offset
  rw [hmoves]
  exact .begun hdid hr htotal hoffset hlow hhigh

/-- A chunk is accepted. -/
theorem continued_inv (h : s.core.Sound) {r : Result} {bytes : Bytes} (hprepared : s.prepared = true)
    (hshort : s.offset < s.total) (hlength : (bytes.length : Int) = min chunkBytes (s.total - s.offset))
    (hreturned : Returned s o l (.chunk s.offset (Base64.encode bytes)) r) (hr : r.ok = true) (value : Shown) :
    ({ s with offset := s.offset + bytes.length, deadline := true, value } : FileDownload).Inv := by
  have hcarried := hreturned.accepted
  rw [Accepted, if_pos hprepared] at hcarried
  obtain ⟨sent, hmoves, hdid⟩ := hreturned.moves
  have hsession := hreturned.session
  have hon : Carried o s.entry s.total (moves s.epoch s.log) (s.offset + bytes.length) :=
    hmoves ▸ .stored hcarried hshort hlength hdid hr
  have hrests := hreturned.rests
  exact ⟨h, fun _ => .rests (o := o) (b := false) (l := moves s.epoch s.log) { hsession with deadline := rfl }
    (by rw [Accepted, if_pos hprepared]; exact hon) { hrests with } (fun hb => absurd hb (by simp))
    fun hrequest => absurd hreturned.request hrequest, fun hover => absurd (hsession.active.symm.trans hover) (by simp)⟩

theorem prepared_inv (h : s.core.Sound) {r : Result} (hreturned : Returned s o l (.prepare o) r)
    (hfresh : s.prepared = false) (c c' : Surroundings) : (s.prepared_ r c c').Inv := by
  have hempty := hreturned.accepted
  rw [Accepted, hfresh] at hempty
  obtain rfl : l = [] := hempty
  obtain ⟨sent, hmoves, hdid⟩ := hreturned.moves
  have hsession := hreturned.session
  rw [prepared_]
  rcases @accepted_cases s r with ⟨hok, hr⟩ | ⟨error, herror⟩
  · rw [hok]
    dsimp only
    split
    · rename_i total offset htotal hoffset
      split
      · exact finish_inv (s := { s with total, offset }) h _ _
      · rename_i hbounds
        simp only [not_or, not_lt] at hbounds
        split
        · rename_i hcomplete
          exact complete_inv (s := { s with total, offset, value.total := total, value.completed := offset }) h
            { hsession with } (.inr (.inl ⟨o, sent, r, hmoves, hr, hcomplete⟩)) c
        · split
          · refine finish_inv ?_ _ _
            exact h
          · exact advance_inv (begun_inv h hreturned hr htotal hoffset hbounds.1 hbounds.2 _) c'
    · exact finish_inv (s := { s with total := (toLongLong r.size.text).getD 0, offset := _ }) h _ _
  · rw [herror]
    exact finish_inv h _ _

theorem stored_inv (h : s.core.Sound) {r : Result} {bytes : Bytes} (hprepared : s.prepared = true)
    (hshort : s.offset < s.total) (hlength : (bytes.length : Int) = min chunkBytes (s.total - s.offset))
    (hreturned : Returned s o l (.chunk s.offset (Base64.encode bytes)) r) (c c' : Surroundings) :
    (s.stored (s.offset + bytes.length) r c c').Inv := by
  rw [stored]
  rcases @accepted_cases s r with ⟨hok, hr⟩ | ⟨error, herror⟩
  · rw [hok]
    dsimp only
    apply advance_inv
    split
    · exact continued_inv h hprepared hshort hlength hreturned hr _
    · exact continued_inv h hprepared hshort hlength hreturned hr _
  · rw [herror]
    exact finish_inv h _ _

theorem committed_inv (h : s.core.Sound) {r : Result} (hprepared : s.prepared = true) (hwhole : s.offset = s.total)
    (hreturned : Returned s o l .commit r) (c : Surroundings) : (s.committed r c).Inv := by
  have hcarried := hreturned.accepted
  rw [Accepted, if_pos hprepared, hwhole] at hcarried
  obtain ⟨sent, hmoves, hdid⟩ := hreturned.moves
  rw [committed]
  rcases @accepted_cases s r with ⟨hok, hr⟩ | ⟨error, herror⟩
  · rw [hok]
    exact complete_inv h hreturned.session (.inr (.inr ⟨o, s.entry, s.total, l, sent, r, hcarried, hmoves, hr⟩)) c
  · rw [herror]
    exact finish_inv h _ _

/-- A result that is not dropped is the one that the session waits for. -/
theorem returned_of_results (h : s.Inv) {p : Post} {r : Result} {rest : List (Post × Result)}
    (hresults : s.results = (p, r) :: rest) (hgeneration : p.generation = s.epoch) (hflag : p.generation ∉ s.cancelled) :
    s.active = true ∧ ∃ o l, Returned { s with results := rest, pending := false } o l p.operation r ∧
      Expects s o p.operation p.callback := by
  have hactive : s.active = true := by
    by_contra hinactive
    exact hflag (hgeneration ▸ (h.ended (by simpa using hinactive)).1)
  have hhead : (p, r) ∈ s.results := hresults ▸ List.mem_cons_self
  refine ⟨hactive, ?_⟩
  cases h.live hactive with
  | rests session accepted rests local_ asked =>
    exact absurd hgeneration (Nat.ne_of_lt (rests.results _ hhead))
  | queued session accepted queued request =>
    exact absurd hgeneration (Nat.ne_of_lt (queued.results _ hhead))
  | @answered o l p' r' session accepted answered request =>
    obtain ⟨-, -, hmoves, hline, ⟨front, hfront, hold⟩, hexpects⟩ := answered
    rw [hfront] at hresults
    cases front with
    | cons x front =>
      have hx := hold x List.mem_cons_self
      obtain rfl : x = (p, r) := (List.cons.inj hresults).1
      exact absurd hgeneration (Nat.ne_of_lt hx)
    | nil =>
      obtain ⟨hpair, rfl⟩ : (p', r') = (p, r) ∧ [] = rest := by simpa using hresults
      obtain ⟨rfl, rfl⟩ := Prod.mk.inj hpair
      exact ⟨o, l, ⟨{ session with }, accepted, rfl, request, hmoves, hline, fun x hx => by cases hx⟩, hexpects⟩

theorem deliver_inv (h : s.Inv) (c c' : Surroundings) : (s.deliver c c').Inv := by
  rw [deliver]
  split
  · exact h
  · rename_i p r rest hresults
    have hsound : Core.Sound { s.core with results := rest } :=
      { h.sound with results := fun x hx => h.sound.results x (by rw [core, hresults]; exact List.mem_cons_of_mem _ hx) }
    have hrest : ∀ x ∈ rest, x ∈ s.results := fun x hx => hresults ▸ List.mem_cons_of_mem _ hx
    dsimp only
    split
    · rename_i hstale
      refine ⟨hsound, fun hactive => ?_, h.ended⟩
      cases h.live hactive with
      | rests session accepted rests local_ asked =>
        exact .rests { session with } accepted { rests with results := fun x hx => rests.results x (hrest x hx) } local_ asked
      | queued session accepted queued request =>
        obtain ⟨hpending, hgeneration, hmoves, hline, hold, hexpects⟩ := queued
        exact .queued { session with } accepted ⟨hpending, hgeneration, hmoves, hline, fun x hx => hold x (hrest x hx),
          hexpects.congr rfl rfl rfl⟩ request
      | answered session accepted answered request =>
        obtain ⟨hpending, hgeneration, hmoves, hline, ⟨front, hfront, hold⟩, hexpects⟩ := answered
        rw [hfront] at hresults
        cases front with
        | nil =>
          obtain ⟨⟨rfl, rfl⟩, -⟩ : (_ = p ∧ _ = r) ∧ [] = rest := by simpa using hresults
          exact absurd hgeneration fun heq => hstale.elim (fun hne => hne heq) fun hin => session.live (heq ▸ hin)
        | cons x front =>
          have hrest' : rest = front ++ [_] := (List.cons.inj hresults).2.symm
          exact .answered { session with } accepted ⟨hpending, hgeneration, hmoves, hline,
            ⟨front, hrest', fun x hx => hold x (List.mem_cons_of_mem _ hx)⟩, hexpects.congr rfl rfl rfl⟩ request
    · rename_i hcurrent
      simp only [not_or, ne_eq, not_not] at hcurrent
      obtain ⟨hgeneration, hflag⟩ := hcurrent
      obtain ⟨-, o, l, hreturned, hexpects⟩ := returned_of_results h hresults hgeneration hflag
      rw [callback.eq_def]
      generalize p.operation = op at hexpects hreturned
      generalize p.callback = f at hexpects
      cases hexpects with
      | prepare fresh => exact prepared_inv (s := { s with results := rest, pending := false }) hsound hreturned fresh c c'
      | chunk prepared short length =>
        exact stored_inv (s := { s with results := rest, pending := false }) hsound prepared short length hreturned c c'
      | commit prepared whole =>
        exact committed_inv (s := { s with results := rest, pending := false }) hsound prepared whole hreturned c

/-! ## Steps of the worker -/

/-- Only behind the begin of a transfer does it matter which entry the worker holds. -/
theorem due_congr {o : Order} {e e' : Sync.Entry} {l : List Move} {op : Operation} (h : Due o e l op)
    (he : (∀ p, op ≠ .prepare p) → e' = e) : Due o e' l op := by
  cases h with
  | prepare => exact .prepare
  | chunk before short length => exact .chunk (he (by simp) ▸ before) short length
  | commit before => exact .commit (he (by simp) ▸ before)

end FileDownload

namespace Core.Sound

variable {c : Core}

/-- The first job leaves the line, and the worker may hold another entry behind it. -/
theorem next (h : c.Sound) {j : Job} {rest : List Job} (hline : c.line = j :: rest) (e : Sync.Entry) :
    Core.Sound { c with line := rest, entry := e } := by
  have hposts : ∀ p ∈ posts rest, p ∈ posts c.line := by
    intro p hp
    rw [hline]
    cases j with
    | close => exact hp
    | post q => exact List.mem_cons_of_mem q hp
  have hprepare : ∀ p ∈ posts rest, ∃ o, p.operation = .prepare o := fun p hp => h.tail p (by rw [hline]; exact hp)
  exact { h with
    due := fun p hp => by
      obtain ⟨hle, hbefore, o, b, ho, hdue⟩ := h.due p (hposts p hp)
      obtain ⟨q, hq⟩ := hprepare p hp
      exact ⟨hle, hbefore, o, b, ho, FileDownload.due_congr hdue fun hnot => absurd hq (hnot q)⟩
    rising := by
      have hrising := h.rising
      rw [hline] at hrising
      cases j with
      | close => exact hrising
      | post q => exact (List.pairwise_cons.mp hrising).2
    tail := fun p hp => hprepare p (by
      cases rest with
      | nil => exact hp
      | cons k rest =>
        cases k with
        | close => exact hp
        | post q => exact List.mem_cons_of_mem q hp) }

theorem result (h : c.Sound) {p : Post} (hp : p.generation ≤ c.epoch) (r : Result) :
    Core.Sound { c with results := c.results ++ [(p, r)] } :=
  { h with
    results := fun x hx => by
      rcases List.mem_append.mp hx with hx | hx
      · exact h.results x hx
      · obtain rfl := List.mem_singleton.mp hx
        exact hp }

/-- The first post is carried out. -/
theorem performed (h : c.Sound) {p : Post} {rest : List Job} (hline : c.line = .post p :: rest) (e : Sync.Entry)
    (sent : Option Request) (r : Result)
    (hdid : ∀ o, Due o c.entry (moves p.generation c.log) p.operation → Due o e (moves p.generation c.log) p.operation ∧
      Did o e p.operation sent r) :
    Core.Sound { c with
      line := rest, entry := e, results := c.results ++ [(p, r)]
      log := c.log ++ [.performed p.generation p.operation sent r] } := by
  have hhead : p ∈ posts c.line := by
    rw [hline]
    exact List.mem_cons_self
  obtain ⟨hle, hbefore, o, b, ho, hdue⟩ := h.due p hhead
  obtain ⟨hdue, hdid⟩ := hdid o hdue
  have hrising : ∀ q ∈ posts rest, p.generation < q.generation := by
    intro q hq
    have hall := h.rising
    rw [hline, posts_post, List.map_cons, List.pairwise_cons] at hall
    exact hall.1 _ (List.mem_map_of_mem hq)
  have hother : ∀ n, n ≠ p.generation →
      moves n (c.log ++ [.performed p.generation p.operation sent r]) = moves n c.log := by
    intro n hn
    rw [moves_append, moves_performed, if_neg (Ne.symm hn), List.append_nil]
  have hmem : ∀ x : Output, (∀ n op sent r, x ≠ .performed n op sent r) →
      x ∈ c.log ++ [.performed p.generation p.operation sent r] → x ∈ c.log := by
    intro x hx hm
    rcases List.mem_append.mp hm with hm | hm
    · exact hm
    · exact absurd (List.mem_singleton.mp hm) (hx _ _ _ _)
  have hmoved : ∀ m n, p.generation ≤ n → (∀ m, moves m c.log ≠ [] → m ≤ n) →
      moves m (c.log ++ [.performed p.generation p.operation sent r]) ≠ [] → m ≤ n := by
    intro m n hpn hn hm
    by_cases heq : m = p.generation
    · exact heq ▸ hpn
    · exact hn m (hother m heq ▸ hm)
  exact { (h.next hline e).result hle r with
    inOrder := Linked.concat_iff.mpr ⟨h.inOrder, hbefore, o, e, b, ho, hdue, hdid⟩
    earned := Linked.concat_iff.mpr ⟨h.earned, trivial⟩
    moved := fun m hm => hmoved m c.epoch hle h.moved hm
    started := fun m o b hm => h.started m o b (hmem _ (by simp) hm)
    same := fun m o b o' b' hm hm' => h.same m o b o' b' (hmem _ (by simp) hm) (hmem _ (by simp) hm')
    shown := fun m f hm => h.shown m f (hmem _ (by simp) hm)
    scheduled := fun m hm => (h.scheduled m hm).imp fun o ho => List.mem_append_left _ ho
    due := fun q hq => by
      obtain ⟨hqle, hqbefore, o', b', ho', hqdue⟩ := (h.next hline e).due q hq
      have hlt := hrising q hq
      refine ⟨hqle, fun m hm => hmoved m q.generation hlt.le hqbefore hm, o', b', List.mem_append_left _ ho', ?_⟩
      show Due o' e (moves q.generation (c.log ++ [.performed p.generation p.operation sent r])) q.operation
      rw [hother q.generation hlt.ne']
      exact hqdue }

end Core.Sound

namespace FileDownload

variable {s : FileDownload}

/-- What the interface knows of its session. -/
def face (s : FileDownload) : Bool × Bool × Bool × Bool × Nat × List Nat × Text × Text × Text × Text × Int × Int :=
  (s.active, s.deadline, s.prepared, s.pending, s.epoch, s.cancelled, s.id, s.key, s.request, s.nativeVersion, s.offset,
    s.total)

/-- A job that is not of the session leaves the line. -/
theorem Live.next {t : FileDownload} (h : Live s) {j : Job} {rest : List Job} (hline : s.line = j :: rest)
    (hj : ∀ p, j = .post p → p.generation < s.epoch) (hface : t.face = s.face) (hrest : t.line = rest)
    (hstarted : ∀ n o b, .started n o b ∈ s.log → .started n o b ∈ t.log) (hmoves : moves s.epoch t.log = moves s.epoch s.log)
    (hresults : ∀ x ∈ t.results, x ∈ s.results ∨ x.1.generation < s.epoch) : Live t := by
  simp only [face, Prod.mk.injEq] at hface
  obtain ⟨hactive, hdeadline, hprepared, hpending, hepoch, hcancelled, hid, hkey, hrequest, hversion, hoffset, htotal⟩ := hface
  have hsession : ∀ {o : Order} {b : Bool}, Session s o b → Session t o b := fun h =>
    ⟨hactive.trans h.active, hdeadline.trans h.deadline, by rw [hepoch, hcancelled]; exact h.live,
      by rw [hepoch]; exact hstarted _ _ _ h.started, h.id.trans hid.symm, h.key.trans hkey.symm⟩
  have hfresh : ∀ {o : Order} {l : List Move}, s.prepared = false → Accepted s o l → Accepted t o l := by
    intro o l hnot haccepted
    rw [Accepted, hprepared, hnot]
    rwa [Accepted, hnot] at haccepted
  cases h with
  | @rests o b l session accepted rests local_ asked =>
    have hnot : s.prepared = false := by
      by_contra hnot
      exact absurd (rests.idle (by simpa using hnot)) (by simp [hline])
    refine .rests (hsession session) (hfresh hnot accepted) ⟨hpending.trans rests.pending, ?_, ?_, ?_, ?_⟩
      (fun hb => hprepared.trans (local_ hb)) fun hopen => ?_
    · rw [hepoch, hmoves]
      exact rests.moves
    · intro p hp
      rw [hepoch]
      refine rests.line p ?_
      rw [hrest] at hp
      rw [hline]
      cases j with
      | close => exact hp
      | post q => exact List.mem_cons_of_mem q hp
    · intro x hx
      rw [hepoch]
      exact (hresults x hx).elim (rests.results x) fun hlt => hlt
    · intro hyes
      rw [hprepared, hnot] at hyes
      cases hyes
    · have hasked := (asked (hrequest ▸ hopen)).1
      rw [hnot] at hasked
      cases hasked
  | @queued o l p session accepted queued request =>
    obtain ⟨hwaits, hgeneration, hown, ⟨front, hfront, hstale, hidle⟩, hold, hexpects⟩ := queued
    rw [hline] at hfront
    cases front with
    | nil =>
      obtain ⟨rfl, -⟩ := List.cons.inj hfront
      exact absurd hgeneration (Nat.ne_of_lt (hj p rfl))
    | cons k front =>
      obtain ⟨rfl, htail⟩ := List.cons.inj hfront
      have hnot : s.prepared = false := by
        by_contra hnot
        exact absurd (hidle (by simpa using hnot)) (by simp)
      refine .queued (hsession session) (hfresh hnot accepted) ⟨hpending.trans hwaits, hgeneration.trans hepoch.symm, ?_,
        ⟨front, hrest.trans htail, ?_, ?_⟩, ?_, hexpects.congr hprepared.symm hoffset.symm htotal.symm⟩
        (hrequest.trans request)
      · rw [hepoch, hmoves]
        exact hown
      · intro q hq
        rw [hepoch]
        refine hstale q ?_
        cases j with
        | close => exact hq
        | post k => exact List.mem_cons_of_mem k hq
      · intro hyes
        rw [hprepared, hnot] at hyes
        cases hyes
      · intro x hx
        rw [hepoch]
        exact (hresults x hx).elim (hold x) fun hlt => hlt
  | answered session accepted answered request =>
    exact absurd answered.line (by simp [hline])

theorem take_inv (h : s.Inv) : s.take.Inv := by
  rw [take]
  split
  · rename_i rest hrunning hjobs
    have hline : s.line = .close :: rest := by simp [line, hrunning, hjobs]
    have hrest : ({ s with jobs := rest, worker := s.worker.map DownloadWorker.close } : FileDownload).line = rest := by
      simp [line, hrunning]
    refine ⟨?_, fun hactive => ?_, h.ended⟩
    · have hnext := h.sound.next hline ((s.worker.map DownloadWorker.close).getD {}).entry
      rw [core, hrest]
      exact hnext
    · exact (h.live hactive).next hline (fun p hp => by cases hp) rfl hrest (fun n o b hm => hm) rfl fun x hx => .inl hx
  · rename_i p rest hrunning hjobs
    have hline : s.line = .post p :: rest := by simp [line, hrunning, hjobs]
    have hle : p.generation ≤ s.epoch := (h.sound.due p (by rw [core, hline]; exact List.mem_cons_self)).1
    split
    · rename_i hflag
      have hrest : ({ s with jobs := rest, results := s.results ++ [(p, failure (text "cancelled"))] } : FileDownload).line =
          rest := by
        simp [line, hrunning]
      refine ⟨?_, fun hactive => ?_, h.ended⟩
      · have hnext := (h.sound.next hline s.entry).result hle (failure (text "cancelled"))
        rw [core, hrest]
        exact hnext
      · have hlive := h.live hactive
        have hlt : p.generation < s.epoch := by
          refine lt_of_le_of_ne hle fun heq => ?_
          have hopen : s.epoch ∉ s.cancelled := by
            cases hlive with
            | rests session => exact session.live
            | queued session => exact session.live
            | answered session => exact session.live
          exact hopen (heq ▸ hflag)
        refine hlive.next hline (fun q hq => Job.post.inj hq ▸ hlt) rfl hrest (fun n o b hm => hm) rfl fun x hx => ?_
        rcases List.mem_append.mp hx with hx | hx
        · exact .inl hx
        · obtain rfl := List.mem_singleton.mp hx
          exact .inr hlt
    · -- The operation is still the first of the line.
      have hsame : ({ s with jobs := rest, running := some p } : FileDownload).line = s.line := by
        rw [hline]
        rfl
      refine ⟨?_, fun hactive => ?_, h.ended⟩
      · rw [core, hsame]
        exact h.sound
      · cases h.live hactive with
        | rests session accepted rests local_ asked =>
          exact .rests { session with } accepted ⟨rests.pending, rests.moves, hsame ▸ rests.line, rests.results,
            hsame ▸ rests.idle⟩ local_ asked
        | queued session accepted queued request =>
          obtain ⟨hpending, hgeneration, hmoves, hfront, hold, hexpects⟩ := queued
          exact .queued { session with } accepted ⟨hpending, hgeneration, hmoves, hsame ▸ hfront, hold,
            hexpects.congr rfl rfl rfl⟩ request
        | answered session accepted answered request => exact absurd answered.line (by simp [hline])
  · exact h

theorem perform_inv (h : s.Inv) (a : Attempt) : (s.perform a).Inv := by
  rw [perform]
  split
  · exact h
  · rename_i p hrunning
    have hline : s.line = .post p :: s.jobs := by simp [line, hrunning]
    have hdid : ∀ {o : Order} {l : List Move}, Due o s.entry l p.operation →
        Did o ((s.worker.getD {}).perform a p.operation).2.2.entry p.operation
          ((s.worker.getD {}).perform a p.operation).2.1 ((s.worker.getD {}).perform a p.operation).1 ∧
        ((∀ q, p.operation ≠ .prepare q) → ((s.worker.getD {}).perform a p.operation).2.2 = s.worker.getD {}) :=
      fun hdue => DownloadWorker.perform_did hdue a
    generalize (s.worker.getD {}).perform a p.operation = x at hdid ⊢
    obtain ⟨r, sent, worker⟩ := x
    dsimp only at hdid ⊢
    have hrest : ({ s with running := none, worker := some worker, results := s.results ++ [(p, r)] }.note
        (.performed p.generation p.operation sent r)).line = s.jobs := by
      simp [line, note]
    refine ⟨?_, fun hactive => ?_, h.ended⟩
    · have hperformed := h.sound.performed hline worker.entry sent r fun o hdue => by
        obtain ⟨hdid, hsame⟩ := hdid hdue
        exact ⟨due_congr hdue fun hnot => congrArg DownloadWorker.entry (hsame hnot), hdid⟩
      rw [core, hrest]
      exact hperformed
    · have hlive := h.live hactive
      have hle : p.generation ≤ s.epoch := (h.sound.due p (by rw [core, hline]; exact List.mem_cons_self)).1
      rcases Nat.lt_or_eq_of_le hle with hlt | heq
      · refine hlive.next hline (fun q hq => Job.post.inj hq ▸ hlt) rfl hrest
          (fun n o b hm => List.mem_append_left _ hm) ?_ fun x hx => ?_
        · show moves s.epoch (s.log ++ [.performed p.generation p.operation sent r]) = _
          rw [moves_append, moves_performed, if_neg hlt.ne, List.append_nil]
        · rcases List.mem_append.mp hx with hx | hx
          · exact .inl hx
          · obtain rfl := List.mem_singleton.mp hx
            exact .inr hlt
      · cases hlive with
        | rests session accepted rests local_ asked =>
          exact absurd heq (Nat.ne_of_lt (rests.line p (by rw [hline]; exact List.mem_cons_self)))
        | answered session accepted answered request => exact absurd answered.line (by simp [hline])
        | @queued o l q session accepted queued request =>
          obtain ⟨hpending, hgeneration, hmoves, ⟨front, hfront, hstale, hidle⟩, hold, hexpects⟩ := queued
          rw [hline] at hfront
          cases front with
          | cons k front =>
            obtain ⟨rfl, -⟩ := List.cons.inj hfront
            exact absurd heq (Nat.ne_of_lt (hstale p List.mem_cons_self))
          | nil =>
            obtain ⟨hpost, hjobs⟩ := List.cons.inj hfront
            obtain rfl := Job.post.inj hpost
            obtain ⟨hdid, hsame⟩ := hdid (due_of_expects accepted hexpects)
            refine .answered (o := o) (l := l) (p := p) (r := r)
              { session with started := List.mem_append_left _ session.started } ?_
              ⟨hpending, hgeneration, ⟨sent, ?_, hdid⟩, hrest.trans hjobs, ⟨s.results, rfl, hold⟩,
                hexpects.congr rfl rfl rfl⟩ request
            · show if s.prepared = true then Carried o worker.entry s.total l s.offset else l = []
              rw [Accepted] at accepted
              split
              · rename_i hprepared
                rw [if_pos hprepared] at accepted
                have hentry : worker = s.worker.getD {} := by
                  apply hsame
                  intro o' hprepare
                  generalize p.operation = op at hexpects hprepare
                  generalize p.callback = f at hexpects
                  cases hexpects with
                  | prepare fresh => exact absurd (hprepared.symm.trans fresh) (by simp)
                  | chunk prepared short length => cases hprepare
                  | commit prepared whole => cases hprepare
                rw [hentry]
                exact accepted
              · rename_i hprepared
                rwa [if_neg hprepared] at accepted
            · show moves s.epoch (s.log ++ [.performed p.generation p.operation sent r]) = _
              rw [moves_append, moves_performed, if_pos heq, hmoves]

/-! ## A new session -/

theorem cancel_inv (h : s.Inv) : s.cancel.Inv ∧ s.cancel.active = false ∧ s.cancel.epoch = s.epoch := by
  rw [cancel]
  split
  · obtain ⟨hepoch, -, hactive, -⟩ := @finish_same s (text "cancelled") []
    exact ⟨finish_inv h.sound _ _, hactive, hepoch⟩
  · rename_i hinactive
    exact ⟨h, by simpa using hinactive, rfl⟩

end FileDownload

namespace Core.Sound

variable {c : Core}

theorem turn (h : c.Sound) : Core.Sound { c with epoch := c.epoch + 1 } :=
  { h with
    moved := fun m hm => Nat.le_succ_of_le (h.moved m hm)
    started := fun m o b hm => Nat.le_succ_of_le (h.started m o b hm)
    due := fun p hp => ⟨Nat.le_succ_of_le (h.due p hp).1, (h.due p hp).2⟩
    results := fun x hx => Nat.le_succ_of_le (h.results x hx)
    flags := fun n hn => Nat.le_succ_of_le (h.flags n hn) }

theorem not_started (h : c.Sound) (o : Order) (b : Bool) : .started (c.epoch + 1) o b ∉ c.log :=
  fun hm => absurd (h.started _ o b hm) (Nat.not_succ_le_self c.epoch)

theorem not_cancelled (h : c.Sound) : c.epoch + 1 ∉ c.cancelled :=
  fun hm => absurd (h.flags _ hm) (Nat.not_succ_le_self c.epoch)

theorem not_moved (h : c.Sound) : moves (c.epoch + 1) c.log = [] := by
  by_contra hne
  exact absurd (h.moved _ hne) (Nat.not_succ_le_self c.epoch)

/-- A session is noted with a number that no other has. -/
theorem start (h : c.Sound) (o : Order) (b : Bool) (hfresh : ∀ o b, .started c.epoch o b ∉ c.log) (scheduled : List Nat)
    (hscheduled : ∀ m ∈ scheduled, m ∈ c.scheduled ∨ m = c.epoch ∧ b = true) :
    Core.Sound { c with log := c.log ++ [.started c.epoch o b], scheduled } := by
  have hmoved : ∀ n, moves n (c.log ++ [.started c.epoch o b]) = moves n c.log := by
    intro n
    rw [moves_append, moves_started, List.append_nil]
  have hmem : ∀ m o' b', .started m o' b' ∈ c.log ++ [.started c.epoch o b] →
      .started m o' b' ∈ c.log ∨ m = c.epoch ∧ o' = o ∧ b' = b := by
    intro m o' b' hm
    rcases List.mem_append.mp hm with hm | hm
    · exact .inl hm
    · exact .inr (by simpa using hm)
  exact { h with
    inOrder := Linked.concat_iff.mpr ⟨h.inOrder, trivial⟩
    earned := Linked.concat_iff.mpr ⟨h.earned, trivial⟩
    moved := fun m hm => h.moved m (hmoved m ▸ hm)
    started := fun m o' b' hm => (hmem m o' b' hm).elim (h.started m o' b') fun heq => Nat.le_of_eq heq.1
    same := fun m o₁ b₁ o₂ b₂ h₁ h₂ => by
      rcases hmem m o₁ b₁ h₁ with h₁ | ⟨rfl, rfl, rfl⟩
      · rcases hmem m o₂ b₂ h₂ with h₂ | ⟨rfl, -⟩
        · exact h.same m o₁ b₁ o₂ b₂ h₁ h₂
        · exact absurd h₁ (hfresh o₁ b₁)
      · rcases hmem _ o₂ b₂ h₂ with h₂ | ⟨-, rfl, rfl⟩
        · exact absurd h₂ (hfresh o₂ b₂)
        · exact ⟨rfl, rfl⟩
    shown := fun m f hm => h.shown m f (by simpa using hm)
    scheduled := fun m hm => by
      rcases hscheduled m hm with hm | ⟨rfl, rfl⟩
      · exact (h.scheduled m hm).imp fun o' ho' => List.mem_append_left _ ho'
      · exact ⟨o, List.mem_append_right _ (List.mem_singleton_self _)⟩
    due := fun p hp => by
      obtain ⟨hle, hbefore, o', b', ho', hdue⟩ := h.due p hp
      exact ⟨hle, fun m hm => hbefore m (hmoved m ▸ hm), o', b', List.mem_append_left _ ho', (hmoved p.generation).symm ▸ hdue⟩ }

end Core.Sound

namespace FileDownload

variable {s : FileDownload}

theorem begin_inv [StoreLayout] (h : s.Inv) (key id : Text) (c : Surroundings) : (s.begin key id c).Inv := by
  obtain ⟨hcancel, hactive, hepoch⟩ := cancel_inv h
  rw [begin]
  generalize s.cancel = u at hcancel hactive hepoch
  rw [← hepoch]
  obtain ⟨hflag, hprepared, hpending, hrequest⟩ := hcancel.ended hactive
  have hturn := hcancel.sound.turn
  dsimp only
  split
  · refine finish_inv ?_ _ _
    exact hturn
  · split
    · refine finish_inv ?_ _ _
      exact hturn
    · have hfresh := hcancel.sound.not_started
      have hopen := hcancel.sound.not_cancelled
      have hmoves : moves (u.epoch + 1) u.log = [] := hcancel.sound.not_moved
      have hnone : ∀ b, moves (u.epoch + 1) (u.log ++ [.started (u.epoch + 1) (order key id c) b]) = [] := by
        intro b
        rw [moves_append, moves_started, List.append_nil, hmoves]
      have hline : ∀ p ∈ posts u.line, p.generation < u.epoch + 1 := fun p hp =>
        Nat.lt_succ_of_le (hcancel.sound.due p hp).1
      have hresults : ∀ x ∈ u.results, x.1.generation < u.epoch + 1 := fun x hx =>
        Nat.lt_succ_of_le (hcancel.sound.results x hx)
      have hnot : ∀ {α : Prop}, u.prepared = true → α := fun hyes => absurd (hyes.symm.trans hprepared) (by simp)
      split
      · rename_i havailable
        refine ⟨?_, fun _ => ?_, fun hover => absurd hover (by simp [note])⟩
        · refine hturn.start (order key id c) c.file.available hfresh (u.scheduled ++ [u.epoch + 1]) fun m hm => ?_
          rcases List.mem_append.mp hm with hm | hm
          · exact .inl hm
          · exact .inr ⟨List.mem_singleton.mp hm, havailable⟩
        · refine .rests (o := order key id c) (b := c.file.available) (l := [])
            ⟨rfl, rfl, hopen, List.mem_append_right _ (List.mem_singleton_self _), rfl, rfl⟩ ?_
            ⟨hpending, hnone _, hline, hresults, fun hyes => hnot hyes⟩ (fun _ => hprepared)
            fun hask => absurd hrequest hask
          show if u.prepared = true then _ else _
          rw [hprepared]
          rfl
      · rename_i hmissing
        have hfalse : c.file.available = false := by simpa using hmissing
        have hstarted := hturn.start (order key id c) c.file.available hfresh u.scheduled fun m hm => .inl hm
        apply post_inv (o := order key id c) (l := [])
        · exact hstarted
        · refine ⟨rfl, rfl, hopen, ?_, rfl, rfl⟩
          rw [← hfalse]
          exact List.mem_append_right _ (List.mem_singleton_self _)
        · show if u.prepared = true then _ else _
          rw [hprepared]
          rfl
        · exact ⟨hpending, hnone _, hline, hresults, fun hyes => hnot hyes⟩
        · exact hrequest
        · exact .prepare hprepared

theorem start_inv [StoreLayout] (h : s.Inv) (key id : Text) (c c' : Surroundings) : (s.start key id c c').Inv := by
  rw [start]
  split
  · exact h
  · exact begin_inv h key id c'

/-! ## Every run -/

theorem later_inv (h : s.Inv) (c : Surroundings) : (s.later c).Inv := by
  rw [later]
  split
  · exact h
  · rename_i n rest hscheduled
    have hrest : ∀ m ∈ rest, m ∈ s.scheduled := fun m hm => hscheduled ▸ List.mem_cons_of_mem n hm
    have hsound : Core.Sound { s.core with scheduled := rest } :=
      { h.sound with scheduled := fun m hm => h.sound.scheduled m (hrest m hm) }
    dsimp only
    split
    · rename_i hcurrent
      obtain ⟨hactive, rfl⟩ := hcurrent
      obtain ⟨o', ho'⟩ := h.sound.scheduled s.epoch (by rw [core, hscheduled]; exact List.mem_cons_self)
      cases h.live hactive with
      | @rests o b l session accepted rests local_ asked =>
        obtain rfl : true = b := (h.sound.same _ _ _ _ _ ho' session.started).2
        rw [Accepted, local_ rfl] at accepted
        exact complete_inv (s := { s with scheduled := rest }) hsound { session with } (.inl ⟨rfl, rests.moves.trans accepted⟩) c
      | queued session => exact absurd (h.sound.same _ _ _ _ _ ho' session.started).2 (by simp)
      | answered session => exact absurd (h.sound.same _ _ _ _ _ ho' session.started).2 (by simp)
    · refine ⟨hsound, fun hactive => ?_, h.ended⟩
      cases h.live hactive with
      | rests session accepted rests local_ asked => exact .rests { session with } accepted { rests with } local_ asked
      | queued session accepted queued request =>
        exact .queued { session with } accepted ⟨queued.pending, queued.generation, queued.moves, queued.line,
          queued.results, queued.expects.congr rfl rfl rfl⟩ request
      | answered session accepted answered request =>
        exact .answered { session with } accepted ⟨answered.pending, answered.generation, answered.moves, answered.line,
          answered.results, answered.expects.congr rfl rfl rfl⟩ request

theorem inv_init : ({} : FileDownload).Inv where
  sound :=
    { inOrder := Linked.nil
      earned := Linked.nil
      moved := fun m hm => absurd rfl hm
      started := fun m o b hm => by cases hm
      same := fun m o b o' b' hm => by cases hm
      shown := fun m f hm => by cases hm
      scheduled := fun m hm => by cases hm
      due := fun p hp => by cases hp
      rising := List.Pairwise.nil
      tail := fun p hp => by cases hp
      results := fun x hx => by cases hx
      flags := fun n hn => Nat.le_of_eq (List.mem_singleton.mp hn) }
  live hactive := by cases hactive
  ended _ := ⟨List.mem_singleton_self 0, rfl, rfl, rfl⟩

/-- The transport gives every question a token of its own, and an answer carries one. -/
def Tokened : Event → Prop
  | .response token _ _ _ => token ≠ []
  | _ => True

theorem step_inv [StoreLayout] (h : s.Inv) {e : Event} (he : Tokened e) : (s.step e).Inv := by
  cases e with
  | start key id c c' => exact start_inv h key id c c'
  | cancel => exact (cancel_inv h).1
  | timeout =>
    rw [step, timeout]
    split
    · exact finish_inv h.sound _ _
    · exact h
  | later c => exact later_inv h c
  | storageChanged c =>
    rw [step, storageChanged]
    split
    · exact finish_inv h.sound _ _
    · exact h
  | clientChanged c => exact advance_inv h c
  | response token r c c' => exact response_inv h he r c c'
  | take => exact take_inv h
  | perform a => exact perform_inv h a
  | deliver c c' => exact deliver_inv h c c'

theorem run_inv [StoreLayout] (h : s.Inv) {events : List Event} (he : ∀ e ∈ events, Tokened e) : (s.run events).Inv := by
  induction events generalizing s with
  | nil => exact h
  | cons e events ih =>
    exact ih (step_inv h (he e List.mem_cons_self)) fun e' he' => he e' (List.mem_cons_of_mem e he')

/-- A session that is active has a deadline, and waits for one thing at most: an answer of the host or of the worker. -/
theorem active_waits [StoreLayout] (events : List Event) (he : ∀ e ∈ events, Tokened e)
    (hactive : (run {} events).active = true) :
    (run {} events).deadline = true ∧ ((run {} events).request = [] ∨ (run {} events).pending = false) := by
  cases (run_inv inv_init he).live hactive with
  | rests session accepted rests => exact ⟨session.deadline, .inr rests.pending⟩
  | queued session accepted queued request => exact ⟨session.deadline, .inl request⟩
  | answered session accepted answered request => exact ⟨session.deadline, .inl request⟩

/-! ## A download that ends well -/

instance : DecidablePred Tokened := fun e =>
  match e with
  | .response token _ _ _ => inferInstanceAs (Decidable (token ≠ []))
  | .start _ _ _ _ => isTrue trivial
  | .cancel => isTrue trivial
  | .timeout => isTrue trivial
  | .later _ => isTrue trivial
  | .storageChanged _ => isTrue trivial
  | .clientChanged _ => isTrue trivial
  | .take => isTrue trivial
  | .perform _ => isTrue trivial
  | .deliver _ _ => isTrue trivial

def deskBinding : Binding where
  container := .string (text "drive")
  scope := .string (text "account")
  host := .string (text "desk")
  complete := .bool true

def aside (token : Text) : Surroundings where
  storage := some (text "drive", text "/drive")
  resynchronized := some (text "drive", text "/drive")
  file := { «exists» := true, containerId := .string (text "drive"), version := .string (text "v1") }
  hostBinding := deskBinding
  token := token

def inPlace : Surroundings := { aside [] with file := { (aside []).file with available := true } }

def notesAttempt : Attempt where
  binding := deskBinding
  containerId := text "drive"
  bound := deskBinding
  record := { kind := .string file, version := .string (text "v1"), size := .string (text "3") }
  tries := [{ answer := { ok := true } }]
  publishing := [{ answer := { ok := true } }]

def notesAnswer : Response where
  ok := true
  path := .string (text "files/notes")
  kind := .string file
  size := .string (text "3")
  version := .string (text "m1")
  offset := .string (text "0")
  data := .string (text "AQID")
  eof := .bool true

def notesDownload : List Event :=
  [.start (text "files/notes") (text "drive") (aside []) (aside []), .take, .perform notesAttempt,
    .deliver (aside []) (aside (text "first")), .response (text "first") notesAnswer (aside []) (aside (text "second")),
    .response (text "first") notesAnswer (aside []) (aside []), .response (text "second") notesAnswer (aside []) (aside []),
    .take, .perform notesAttempt, .deliver (aside []) (aside []), .take, .perform notesAttempt, .deliver inPlace inPlace]

end FileDownload

end SocietyHelper.Media
