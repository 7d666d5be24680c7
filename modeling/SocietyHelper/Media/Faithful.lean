import SocietyHelper.Media.Downloads

/-! # Downloads from a truthful host

The host answers every question with what its file holds in one version. The
session pins the version with its first question, so the chunks that it hands to
the replica are pieces of that version alone, and together all that was missing.
-/

namespace SocietyHelper.Media

open Library Sync

/-- What the host holds for a key in a version. -/
abbrev Content := Text → Text → Bytes

/-- An answer that agrees with the content of the host. -/
def Answers (content : Content) : Question → Response → Prop
  | .stat key, r => toLongLong r.size.text = some ((content key r.version.text).length : Int)
  | .read key offset version, r =>
    r.version.text = version → ∀ bytes ∈ Base64.decode r.data.text, bytes <+: (content key version).drop offset.toNat

/-- The size that the begin of a transfer has announced. -/
def announced (l : List Move) : Option Int := l.head?.bind fun m => toLongLong m.2.2.size.text

/-- An operation that carries a piece of a file, or commits all of it. -/
def Serves (file : Bytes) (l : List Move) : Operation → Prop
  | .prepare _ => True
  | .chunk position encoded => 0 ≤ position ∧ ∃ bytes, encoded = Base64.encode bytes ∧ bytes <+: file.drop position.toNat
  | .commit => announced l = some (file.length : Int)

/-- The bytes that the chunks of a session have passed on. -/
def passed (l : List Move) : Bytes :=
  l.flatMap fun m =>
    match m.1 with
    | .chunk _ encoded => (Base64.decode encoded).getD []
    | _ => []

theorem announced_append {l : List Move} {k : Int} (h : announced l = some k) (l' : List Move) :
    announced (l ++ l') = some k := by
  cases l with
  | nil => cases h
  | cons m l => exact h

theorem Serves.append {file : Bytes} {l : List Move} {op : Operation} (h : Serves file l op) (l' : List Move) :
    Serves file (l ++ l') op := by
  cases op with
  | prepare o => trivial
  | chunk position encoded => exact h
  | commit => exact announced_append h l'

theorem Carried.announces {o : Order} {e : Sync.Entry} {total offset : Int} {l : List Move}
    (h : Carried o e total l offset) : announced l = some total := by
  induction h with
  | begun did ok size start low high => exact size
  | stored before short length did ok ih => exact announced_append ih _

/-- Chunks without a gap between them, each a piece of the file, are together one piece of it. -/
theorem Carried.passes {o : Order} {e : Sync.Entry} {total offset : Int} {l : List Move}
    (h : Carried o e total l offset) (file : Bytes)
    (hpieces : ∀ position encoded sent r, (.chunk position encoded, sent, r) ∈ l →
      0 ≤ position ∧ ∃ bytes, encoded = Base64.encode bytes ∧ bytes <+: file.drop position.toNat) :
    ∃ first : Nat, passed l <+: file.drop first ∧ ((first + (passed l).length : Nat) : Int) = offset := by
  induction h with
  | @begun sent r offset did ok size start low high =>
    refine ⟨offset.toNat, ?_, ?_⟩
    · simp [passed]
    · simpa [passed] using low
  | @stored l position bytes sent r before short length did ok ih =>
    obtain ⟨first, hfront, hat⟩ := ih fun position encoded sent r hm =>
      hpieces position encoded sent r (List.mem_append_left _ hm)
    obtain ⟨-, piece, hencoded, hpiece⟩ := hpieces _ _ _ _ (List.mem_append_right l (List.mem_singleton_self _))
    obtain rfl : piece = bytes := by
      have hdecoded := congrArg Base64.decode hencoded
      rw [Base64.decode_encode, Base64.decode_encode] at hdecoded
      exact (Option.some.inj hdecoded).symm
    have hpassed : passed (l ++ [(.chunk position (Base64.encode piece), sent, r)]) = passed l ++ piece := by
      simp [passed, Base64.decode_encode]
    have hposition : position.toNat = first + (passed l).length := by omega
    rw [hpassed]
    refine ⟨first, ?_, ?_⟩
    · obtain ⟨rest, hrest⟩ := hfront
      rw [hposition, ← List.drop_drop, ← hrest, List.drop_left] at hpiece
      obtain ⟨tail, rfl⟩ := hpiece
      exact ⟨tail, by rw [List.append_assoc]; exact hrest⟩
    · rw [List.length_append]
      omega

/-- Not a question with this token. -/
def Output.spares (token : Text) : Output → Bool
  | .asked _ t _ => t ≠ token
  | _ => true

/-- An answer with this token agrees with the content, if it is one to this question. -/
def Output.agrees (content : Content) (token : Text) (r : Response) : Output → Prop
  | .asked _ t q => t = token → r.ok = true → Answers content q r
  | _ => True

/-! ## What a step adds -/

/-- An operation that the worker has carried out for a session, or has still to carry out. -/
def Core.Of (c : Core) (n : Nat) (op : Operation) : Prop :=
  (∃ m ∈ moves n c.log, m.1 = op) ∨ ∃ p ∈ posts c.line, p.generation = n ∧ p.operation = op

theorem Core.of_note {c : Core} {x : Output} (hx : ∀ n, moves n [x] = []) {n : Nat} {op : Operation}
    (h : Core.Of { c with log := c.log ++ [x] } n op) : c.Of n op := by
  rcases h with ⟨m, hm, hop⟩ | h
  · have hm : m ∈ moves n (c.log ++ [x]) := hm
    rw [moves_append, hx, List.append_nil] at hm
    exact .inl ⟨m, hm, hop⟩
  · exact .inr h

/-- No session, no question and no operation is added. -/
structure Within (c d : Core) : Prop where
  of : ∀ n op, d.Of n op → c.Of n op
  moves : ∀ n, ∃ l, moves n d.log = moves n c.log ++ l
  started : ∀ n o b, .started n o b ∈ d.log ↔ .started n o b ∈ c.log
  asked : ∀ n token q, .asked n token q ∈ d.log ↔ .asked n token q ∈ c.log

namespace Within

theorem of_line {c d : Core} (hlog : d.log = c.log) (hposts : ∀ p ∈ posts d.line, p ∈ posts c.line) : Within c d where
  of n op h := by
    rcases h with h | ⟨p, hp, hop⟩
    · exact .inl (hlog ▸ h)
    · exact .inr ⟨p, hposts p hp, hop⟩
  moves n := ⟨[], by rw [hlog, List.append_nil]⟩
  started n o b := by rw [hlog]
  asked n token q := by rw [hlog]

theorem trans {c d e : Core} (h : Within c d) (h' : Within d e) : Within c e where
  of n op hop := h.of n op (h'.of n op hop)
  moves n := by
    obtain ⟨l, hl⟩ := h.moves n
    obtain ⟨l', hl'⟩ := h'.moves n
    exact ⟨l ++ l', by rw [hl', hl, List.append_assoc]⟩
  started n o b := (h'.started n o b).trans (h.started n o b)
  asked n token q := (h'.asked n token q).trans (h.asked n token q)

theorem ready (c : Core) (n : Nat) (file : FileAlias) : Within c { c with log := c.log ++ [.ready n file] } where
  of m op h := Core.of_note (fun n => rfl) h
  moves m := ⟨[], by simp⟩
  started m o b := by simp
  asked m token q := by simp

end Within

/-- Tokens are not used twice, and the operations of one session serve one version of its file. -/
structure History (content : Content) (c : Core) : Prop where
  once : ∀ n m token q q', .asked n token q ∈ c.log → .asked m token q' ∈ c.log → q = q'
  served : ∀ n o b, .started n o b ∈ c.log → ∃ v, ∀ op, c.Of n op → Serves (content o.key v) (moves n c.log) op

theorem History.within {content : Content} {c d : Core} (h : History content c) (hw : Within c d) : History content d where
  once n m token q q' ha ha' := h.once n m token q q' ((hw.asked n token q).mp ha) ((hw.asked m token q').mp ha')
  served n o b hm := by
    obtain ⟨v, hv⟩ := h.served n o b ((hw.started n o b).mp hm)
    obtain ⟨l, hl⟩ := hw.moves n
    exact ⟨v, fun op hop => hl ▸ (hv op (hw.of n op hop)).append l⟩

namespace FileDownload

variable {s : FileDownload} {content : Content}

/-- What the session asks next. -/
def question (s : FileDownload) : Question :=
  if s.nativeVersion = [] then .stat s.key else .read s.key s.offset s.nativeVersion

structure Current (content : Content) (s : FileDownload) : Prop where
  fresh : s.prepared = false → s.nativeVersion = []
  asked : s.request ≠ [] → .asked s.epoch s.request s.question ∈ s.log
  size : s.nativeVersion ≠ [] → s.total = ((content s.key s.nativeVersion).length : Int)
  served : ∀ op, s.core.Of s.epoch op → Serves (content s.key s.nativeVersion) (moves s.epoch s.log) op ∧
    (s.nativeVersion = [] → ∃ p, op = .prepare p)

structure Faithful (content : Content) (s : FileDownload) : Prop where
  inv : s.Inv
  history : History content s.core
  current : s.active = true → Current content s

theorem Current.still {t : FileDownload} (h : Current content s) (hface : t.face = s.face) (hw : Within s.core t.core) :
    Current content t := by
  simp only [face, Prod.mk.injEq] at hface
  obtain ⟨-, -, hprepared, -, hepoch, -, -, hkey, hrequest, hversion, hoffset, htotal⟩ := hface
  refine ⟨?_, fun hopen => ?_, ?_, fun op hop => ?_⟩
  · rw [hprepared, hversion]
    exact h.fresh
  · have hquestion : t.question = s.question := by rw [question, question, hversion, hkey, hoffset]
    rw [hrequest] at hopen
    rw [hepoch, hrequest, hquestion]
    exact (hw.asked _ _ _).mpr (h.asked hopen)
  · rw [hversion, htotal, hkey]
    exact h.size
  · rw [hepoch] at hop
    obtain ⟨hserves, hprepare⟩ := h.served op (hw.of _ op hop)
    obtain ⟨l, hl⟩ := hw.moves s.epoch
    have hl : moves s.epoch t.log = moves s.epoch s.log ++ l := hl
    rw [hepoch, hkey, hversion, hl]
    exact ⟨hserves.append l, hprepare⟩

theorem Faithful.still {t : FileDownload} (h : Faithful content s) (hinv : t.Inv) (hface : t.face = s.face)
    (hw : Within s.core t.core) : Faithful content t where
  inv := hinv
  history := h.history.within hw
  current hactive := (h.current ((congrArg Prod.fst hface).symm.trans hactive)).still hface hw

theorem finish_within (state error : Text) : Within s.core (s.finish state error).core := by
  rw [finish_core]
  split
  · refine .of_line rfl fun p hp => ?_
    have hp : p ∈ posts (s.line ++ [.close]) := hp
    rwa [posts_append, posts_close, posts_nil, List.append_nil] at hp
  · exact .of_line rfl fun p hp => hp

theorem finish_faithful (hs : s.core.Sound) (hh : History content s.core) (state error : Text) :
    Faithful content (s.finish state error) where
  inv := finish_inv hs state error
  history := hh.within (finish_within state error)
  current hactive := absurd ((@finish_same s state error).2.2.1.symm.trans hactive) (by simp)

theorem complete_within (c : Surroundings) : Within s.core (s.complete c).core ∧ (s.complete c).active = false := by
  rw [complete]
  split
  · exact ⟨finish_within _ _, (@finish_same s _ _).2.2.1⟩
  · generalize hagain : (if s.active = true ∧ ¬s.sameStorage c.resynchronized = true then
      s.finish (text "cancelled") (text "remote_container_changed") else s) = t
    have ht : Within s.core t.core := by
      rw [← hagain]
      split
      · exact finish_within _ _
      · exact .of_line rfl fun p hp => hp
    dsimp only
    split
    · exact ⟨ht.trans (finish_within _ _), (@finish_same t _ _).2.2.1⟩
    · refine ⟨ht.trans ?_, (@finish_same { t with offset := t.total } _ _).2.2.1⟩
      exact (finish_within (s := { t with offset := t.total }) (text "ready") []).trans (.ready _ _ _)

theorem complete_faithful {c : Surroundings} (hinv : (s.complete c).Inv) (hh : History content s.core) :
    Faithful content (s.complete c) where
  inv := hinv
  history := hh.within (complete_within c).1
  current hactive := absurd ((complete_within c).2.symm.trans hactive) (by simp)

/-- A question with a token of its own. -/
theorem ask_faithful {q : Question} {token : Text} (hinv : (s.ask q token).Inv) (hs : s.core.Sound)
    (hh : History content s.core) (hc : Current content s) (hq : q = s.question)
    (hunused : ∀ n q, .asked n token q ∉ s.log) : Faithful content (s.ask q token) := by
  rw [ask] at hinv ⊢
  by_cases htoken : token = []
  · rw [if_pos htoken]
    exact finish_faithful hs hh _ _
  · rw [if_neg htoken] at hinv ⊢
    have hof : ∀ n op, Core.Of { s.core with log := s.log ++ [.asked s.epoch token q] } n op → s.core.Of n op :=
      fun n op hop => Core.of_note (fun n => rfl) hop
    have hmoves : ∀ n, moves n (s.log ++ [.asked s.epoch token q]) = moves n s.log := by
      intro n
      rw [moves_append, moves_asked, List.append_nil]
    refine ⟨hinv, ⟨?_, fun n o b hm => ?_⟩, fun _ => ⟨hc.fresh, fun _ => ?_, hc.size, fun op hop => ?_⟩⟩
    · intro n m t q₁ q₂ h₁ h₂
      have hcases : ∀ n q', .asked n t q' ∈ s.log ++ [.asked s.epoch token q] → .asked n t q' ∈ s.log ∨ t = token ∧ q' = q := by
        intro n q' hm
        rcases List.mem_append.mp hm with hm | hm
        · exact .inl hm
        · obtain ⟨-, ht, hq'⟩ : n = s.epoch ∧ t = token ∧ q' = q := by simpa using hm
          exact .inr ⟨ht, hq'⟩
      rcases hcases n q₁ h₁ with hold₁ | ⟨ht, hq₁⟩
      · rcases hcases m q₂ h₂ with hold₂ | ⟨ht, -⟩
        · exact hh.once n m t q₁ q₂ hold₁ hold₂
        · exact absurd (ht ▸ hold₁) (hunused n q₁)
      · rcases hcases m q₂ h₂ with hold₂ | ⟨-, hq₂⟩
        · exact absurd (ht ▸ hold₂) (hunused m q₂)
        · exact hq₁.trans hq₂.symm
    · have hm : .started n o b ∈ s.log := by
        have hm : .started n o b ∈ s.log ++ [.asked s.epoch token q] := hm
        simpa using hm
      obtain ⟨v, hv⟩ := hh.served n o b hm
      refine ⟨v, fun op hop => ?_⟩
      show Serves _ (moves n (s.log ++ [.asked s.epoch token q])) op
      rw [hmoves]
      exact hv op (hof n op hop)
    · rw [hq]
      exact List.mem_append_right _ (List.mem_singleton_self _)
    · show Serves _ (moves s.epoch (s.log ++ [.asked s.epoch token q])) op ∧ _
      rw [hmoves]
      exact hc.served op (hof s.epoch op hop)

theorem of_post {op op' : Operation} {f : Callback} {n : Nat} (h : (s.post op f).core.Of n op') :
    s.core.Of n op' ∨ n = s.epoch ∧ op' = op := by
  rcases h with h | ⟨p, hp, hn, hop⟩
  · exact .inl (.inl h)
  · have hp : p ∈ posts (s.post op f).line := hp
    rw [line_post, posts_append, List.mem_append] at hp
    rcases hp with hp | hp
    · exact .inl (.inr ⟨p, hp, hn, hop⟩)
    · obtain rfl := List.mem_singleton.mp hp
      exact .inr ⟨hn.symm, hop.symm⟩

/-- An operation that serves the version of the session. -/
theorem post_faithful {op : Operation} {f : Callback} (hinv : (s.post op f).Inv) (hs : s.core.Sound)
    (hh : History content s.core) (hc : Current content s) {o : Order} {b : Bool} (hstarted : .started s.epoch o b ∈ s.log)
    (hkey : o.key = s.key) (hserves : Serves (content s.key s.nativeVersion) (moves s.epoch s.log) op)
    (hversion : s.nativeVersion = [] → ∃ p, op = .prepare p) : Faithful content (s.post op f) := by
  have hall : ∀ op', (s.post op f).core.Of s.epoch op' →
      Serves (content s.key s.nativeVersion) (moves s.epoch s.log) op' ∧ (s.nativeVersion = [] → ∃ p, op' = .prepare p) := by
    intro op' hop'
    rcases of_post hop' with hold | ⟨-, rfl⟩
    · exact hc.served op' hold
    · exact ⟨hserves, hversion⟩
  refine ⟨hinv, ⟨hh.once, fun n o' b' hm => ?_⟩, fun _ => ⟨hc.fresh, hc.asked, hc.size, hall⟩⟩
  by_cases hn : n = s.epoch
  · obtain rfl : o' = o := (hs.same n o' b' o b hm (hn ▸ hstarted)).1
    refine ⟨s.nativeVersion, fun op' hop' => ?_⟩
    rw [hn, hkey]
    exact (hall op' (hn ▸ hop')).1
  · obtain ⟨v, hv⟩ := hh.served n o' b' hm
    exact ⟨v, fun op' hop' => hv op' ((of_post hop').resolve_right fun heq => hn heq.1)⟩

/-! ## Steps -/

/-- Where the next question has a token of its own. -/
def Unused (s : FileDownload) (token : Text) : Prop := ∀ x ∈ s.log, x.spares token = true

theorem Unused.not_asked {token : Text} (h : s.Unused token) (n : Nat) (q : Question) : .asked n token q ∉ s.log :=
  fun hm => by simpa [Output.spares] using h _ hm

theorem advance_faithful (h : Faithful content s) (c : Surroundings) (hunused : s.Unused c.token) :
    Faithful content (s.advance c) := by
  have hinv := advance_inv h.inv c
  revert hinv
  rw [advance]
  split
  · exact fun _ => h
  · rename_i hgo
    simp only [not_or, Bool.not_eq_true, Bool.not_eq_false, not_not] at hgo
    obtain ⟨hactive, hprepared, hpending, hrequest, -⟩ := hgo
    have hcurrent := h.current hactive
    split
    · exact fun _ => finish_faithful h.inv.sound h.history _ _
    · split
      · exact fun _ => h
      · split
        · exact fun _ => finish_faithful h.inv.sound h.history _ _
        · dsimp only
          split
          · rename_i hversion
            intro hinv
            exact ask_faithful (s := { s with value.state := text "downloading" }) hinv h.inv.sound h.history
              ⟨hcurrent.fresh, hcurrent.asked, hcurrent.size, hcurrent.served⟩
              (show Question.stat s.key = s.question by rw [question, if_pos hversion]) hunused.not_asked
          · rename_i hversion
            split
            · intro hinv
              exact ask_faithful (s := { s with value.state := text "downloading" }) hinv h.inv.sound h.history
                ⟨hcurrent.fresh, hcurrent.asked, hcurrent.size, hcurrent.served⟩
                (show Question.read s.key s.offset s.nativeVersion = s.question by rw [question, if_neg hversion])
                hunused.not_asked
            · intro hinv
              cases h.inv.live hactive with
              | queued session accepted queued => exact absurd (queued.pending.symm.trans hpending) (by simp)
              | answered session accepted answered => exact absurd (answered.pending.symm.trans hpending) (by simp)
              | rests session accepted rests local_ asked =>
                have hcarried := accepted
                rw [Accepted, if_pos hprepared] at hcarried
                refine post_faithful (s := { s with value.state := text "verifying", deadline := true }) hinv h.inv.sound
                  h.history ⟨hcurrent.fresh, hcurrent.asked, hcurrent.size, hcurrent.served⟩ session.started session.key ?_
                  fun hnone => absurd hnone hversion
                show announced (moves s.epoch s.log) = some _
                rw [rests.moves, hcarried.announces, hcurrent.size hversion]

theorem prepared_of_request (h : s.Inv) (hactive : s.active = true) (hopen : s.request ≠ []) : s.prepared = true := by
  cases h.live hactive with
  | rests session accepted rests local_ asked => exact (asked hopen).1
  | queued session accepted queued request => exact absurd request hopen
  | answered session accepted answered request => exact absurd request hopen

/-- The answer of the host is one to the question that is open. -/
theorem response_faithful (h : Faithful content s) {token : Text} (htoken : token ≠ []) (r : Response)
    (hanswers : ∀ n q, .asked n token q ∈ s.log → r.ok = true → Answers content q r) (c c' : Surroundings)
    (hunused : s.Unused c'.token) : Faithful content (s.response token r c c') := by
  have hinv := response_inv h.inv htoken r c c'
  revert hinv
  rw [response]
  split
  · exact fun _ => h
  · rename_i hgo
    simp only [not_or, Bool.not_eq_true, Bool.not_eq_false, not_not] at hgo
    obtain ⟨hactive, rfl⟩ := hgo
    have hcurrent := h.current hactive
    have hprepared := prepared_of_request h.inv hactive htoken
    dsimp only
    split
    · exact fun _ => finish_faithful (s := { s with request := [] }) h.inv.sound h.history _ _
    · rename_i hok
      have hanswer := hanswers _ _ (hcurrent.asked htoken) (by simpa using hok)
      split
      · exact fun _ => finish_faithful (s := { s with request := [] }) h.inv.sound h.history _ _
      · split
        · exact fun _ => finish_faithful (s := { s with request := [] }) h.inv.sound h.history _ _
        · rename_i hvalid
          simp only [validFile, Bool.and_eq_true, decide_eq_true_eq, Bool.or_eq_true, not_not] at hvalid
          obtain ⟨⟨⟨⟨-, -⟩, hsize⟩, -⟩, hpinned⟩ := hvalid
          split
          · rename_i hversion
            intro _
            rw [question, if_pos hversion] at hanswer
            refine advance_faithful ⟨cleared_inv h.inv hactive htoken _, h.history, fun _ =>
              ⟨fun hnot => absurd (hprepared.symm.trans hnot) (by simp), fun hopen => absurd rfl hopen, fun _ => ?_, ?_⟩⟩
              c' hunused
            · exact Option.some.inj (hsize.symm.trans hanswer)
            · intro op hop
              obtain ⟨p, rfl⟩ := (hcurrent.served op hop).2 hversion
              exact ⟨trivial, fun _ => ⟨p, rfl⟩⟩
          · rename_i hversion
            rw [question, if_neg hversion] at hanswer
            split
            · exact fun _ => finish_faithful (s := { s with request := [] }) h.inv.sound h.history _ _
            · rename_i bytes hchunk
              intro hinv
              obtain ⟨hdecoded, hencoded, -⟩ := chunkOf_some hchunk
              cases h.inv.live hactive with
              | queued session accepted queued request => exact absurd request htoken
              | answered session accepted answered request => exact absurd request htoken
              | rests session accepted rests local_ asked =>
                rw [Accepted, if_pos hprepared] at accepted
                exact post_faithful (s := { s with request := [] }) hinv h.inv.sound h.history
                  ⟨hcurrent.fresh, fun hopen => absurd rfl hopen, hcurrent.size, hcurrent.served⟩ session.started session.key
                  ⟨accepted.bounds.1, bytes, hencoded.symm,
                    hanswer (hpinned.resolve_left hversion) bytes hdecoded⟩ fun hnone => absurd hnone hversion

section Results

variable {o : Order} {l : List Move} {r : Result} {c c' : Surroundings}

theorem prepared_faithful (hinv : (s.prepared_ r c c').Inv) (hs : s.core.Sound) (hh : History content s.core)
    (hc : Current content s) (hreturned : Returned s o l (.prepare o) r) (hfresh : s.prepared = false)
    (hunused : s.Unused c'.token) : Faithful content (s.prepared_ r c c') := by
  have hempty := hreturned.accepted
  rw [Accepted, hfresh] at hempty
  obtain rfl : l = [] := hempty
  revert hinv
  rw [prepared_]
  rcases @accepted_cases s r with ⟨hok, hr⟩ | ⟨error, herror⟩
  · rw [hok]
    dsimp only
    split
    · rename_i total offset htotal hoffset
      split
      · exact fun _ => finish_faithful (s := { s with total, offset }) hs hh _ _
      · rename_i hbounds
        simp only [not_or, not_lt] at hbounds
        split
        · exact fun hinv => complete_faithful hinv hh
        · split
          · intro _
            refine finish_faithful ?_ ?_ _ _
            · exact hs
            · exact hh
          · intro _
            exact advance_faithful ⟨begun_inv hs hreturned hr htotal hoffset hbounds.1 hbounds.2 _, hh, fun _ =>
              ⟨fun hnot => absurd hnot (by simp), fun hopen => absurd hreturned.request hopen,
                fun hpinned => absurd (hc.fresh hfresh) hpinned, hc.served⟩⟩ c' hunused
    · intro _
      refine finish_faithful ?_ ?_ _ _
      · exact hs
      · exact hh
  · rw [herror]
    exact fun _ => finish_faithful hs hh _ _

theorem stored_faithful {bytes : Bytes} (hs : s.core.Sound) (hh : History content s.core) (hc : Current content s)
    (hprepared : s.prepared = true) (hshort : s.offset < s.total)
    (hlength : (bytes.length : Int) = min chunkBytes (s.total - s.offset))
    (hreturned : Returned s o l (.chunk s.offset (Base64.encode bytes)) r) (hunused : s.Unused c'.token) :
    Faithful content (s.stored (s.offset + bytes.length) r c c') := by
  rw [stored]
  rcases @accepted_cases s r with ⟨hok, hr⟩ | ⟨error, herror⟩
  · rw [hok]
    dsimp only
    split
    · exact advance_faithful ⟨continued_inv hs hprepared hshort hlength hreturned hr _, hh, fun _ =>
        ⟨hc.fresh, fun hopen => absurd hreturned.request hopen, hc.size, hc.served⟩⟩ c' hunused
    · exact advance_faithful ⟨continued_inv hs hprepared hshort hlength hreturned hr _, hh, fun _ =>
        ⟨hc.fresh, fun hopen => absurd hreturned.request hopen, hc.size, hc.served⟩⟩ c' hunused
  · rw [herror]
    exact finish_faithful hs hh _ _

theorem committed_faithful (hinv : (s.committed r c).Inv) (hs : s.core.Sound) (hh : History content s.core) :
    Faithful content (s.committed r c) := by
  revert hinv
  rw [committed]
  rcases @accepted_cases s r with ⟨hok, hr⟩ | ⟨error, herror⟩
  · rw [hok]
    exact fun hinv => complete_faithful hinv hh
  · rw [herror]
    exact fun _ => finish_faithful hs hh _ _

theorem deliver_faithful (h : Faithful content s) (hunused : s.Unused c'.token) : Faithful content (s.deliver c c') := by
  have hinv := deliver_inv h.inv c c'
  revert hinv
  rw [deliver]
  split
  · exact fun _ => h
  · rename_i p r rest hresults
    dsimp only
    split
    · exact fun hinv => h.still hinv rfl (.of_line rfl fun p hp => hp)
    · rename_i hcurrent
      simp only [not_or, ne_eq, not_not] at hcurrent
      obtain ⟨hactive, o, l, hreturned, hexpects⟩ := returned_of_results h.inv hresults hcurrent.1 hcurrent.2
      have hnow := h.current hactive
      have hsound : Core.Sound { s.core with results := rest } :=
        { h.inv.sound with
          results := fun x hx => h.inv.sound.results x (by rw [core, hresults]; exact List.mem_cons_of_mem _ hx) }
      have hthen : Current content { s with results := rest, pending := false } :=
        ⟨hnow.fresh, hnow.asked, hnow.size, hnow.served⟩
      have hhistory : History content { s with results := rest, pending := false }.core :=
        ⟨h.history.once, h.history.served⟩
      rw [callback.eq_def]
      generalize p.operation = op at hexpects hreturned
      generalize p.callback = f at hexpects
      intro hinv
      cases hexpects with
      | prepare fresh => exact prepared_faithful hinv hsound hhistory hthen hreturned fresh hunused
      | chunk prepared short length =>
        exact stored_faithful (s := { s with results := rest, pending := false }) hsound hhistory hthen prepared short length
          hreturned hunused
      | commit prepared whole => exact committed_faithful hinv hsound hhistory

end Results

theorem take_faithful (h : Faithful content s) : Faithful content s.take := by
  have hinv := take_inv h.inv
  revert hinv
  rw [take]
  split
  · rename_i rest hrunning hjobs
    refine fun hinv => h.still hinv rfl (.of_line rfl fun p hp => ?_)
    simpa [core, line, hrunning, hjobs] using hp
  · rename_i p rest hrunning hjobs
    split
    · refine fun hinv => h.still hinv rfl (.of_line rfl fun q hq => ?_)
      have hq : q ∈ posts rest := by simpa [core, line, hrunning] using hq
      simp [core, line, hrunning, hjobs, hq]
    · refine fun hinv => h.still hinv rfl (.of_line rfl fun q hq => ?_)
      simpa [core, line, hrunning, hjobs] using hq
  · exact fun _ => h

theorem perform_faithful (h : Faithful content s) (a : Attempt) : Faithful content (s.perform a) := by
  have hinv := perform_inv h.inv a
  revert hinv
  rw [perform]
  split
  · exact fun _ => h
  · rename_i p hrunning
    generalize (s.worker.getD {}).perform a p.operation = x
    obtain ⟨r, sent, worker⟩ := x
    refine fun hinv => h.still hinv rfl ⟨fun n op hop => ?_, fun n => ⟨_, moves_append n _ _⟩, fun n o b => ?_, fun n token q => ?_⟩
    · have hline : s.line = .post p :: s.jobs := by simp [line, hrunning]
      rcases hop with ⟨m, hm, rfl⟩ | ⟨q, hq, hn, rfl⟩
      · have hm : m ∈ moves n (s.log ++ [.performed p.generation p.operation sent r]) := hm
        rw [moves_append, moves_performed, List.mem_append] at hm
        rcases hm with hm | hm
        · exact .inl ⟨m, hm, rfl⟩
        · split at hm
          · rename_i hn
            obtain rfl := List.mem_singleton.mp hm
            exact .inr ⟨p, by rw [core, hline]; exact List.mem_cons_self, hn, rfl⟩
          · cases hm
      · have hq : q ∈ posts s.jobs := by simpa [core, line, note] using hq
        exact .inr ⟨q, by rw [core, hline]; exact List.mem_cons_of_mem p hq, hn, rfl⟩
    · show _ ∈ s.log ++ [.performed p.generation p.operation sent r] ↔ _ ∈ s.log
      simp
    · show _ ∈ s.log ++ [.performed p.generation p.operation sent r] ↔ _ ∈ s.log
      simp

theorem cancel_faithful (h : Faithful content s) : Faithful content s.cancel := by
  rw [cancel]
  split
  · exact finish_faithful h.inv.sound h.history _ _
  · exact h

theorem begin_faithful [StoreLayout] (h : Faithful content s) (key id : Text) (c : Surroundings) :
    Faithful content (s.begin key id c) := by
  have hinv := begin_inv h.inv key id c
  have hcancel := cancel_faithful h
  obtain ⟨-, hactive, hepoch⟩ := cancel_inv h.inv
  revert hinv
  rw [begin]
  generalize s.cancel = u at hcancel hactive hepoch
  rw [← hepoch]
  obtain ⟨-, -, -, hrequest⟩ := hcancel.inv.ended hactive
  have hturn := hcancel.inv.sound.turn
  have hfresh := hcancel.inv.sound.not_started
  have hnone : ∀ op, ¬u.core.Of (u.epoch + 1) op := by
    rintro op (⟨m, hm, -⟩ | ⟨p, hp, hn, -⟩)
    · have hmoved : moves (u.epoch + 1) u.core.log = [] := hcancel.inv.sound.not_moved
      rw [hmoved] at hm
      cases hm
    · have hle : p.generation ≤ u.epoch := (hcancel.inv.sound.due p hp).1
      rw [hn] at hle
      exact absurd hle (Nat.not_succ_le_self u.epoch)
  have hof : ∀ (o : Order) (b : Bool) n op, Core.Of { u.core with log := u.log ++ [.started (u.epoch + 1) o b] } n op →
      u.core.Of n op := fun o b n op hop => Core.of_note (fun n => rfl) hop
  have hhistory : ∀ (o : Order) (b : Bool),
      History content { u.core with log := u.log ++ [.started (u.epoch + 1) o b] } := by
    intro o b
    have hasked : ∀ n token q, .asked n token q ∈ u.log ++ [.started (u.epoch + 1) o b] → .asked n token q ∈ u.log := by
      intro n token q hm
      simpa using hm
    refine ⟨fun n m token q q' ha ha' => hcancel.history.once n m token q q' (hasked n token q ha) (hasked m token q' ha'),
      fun n o' b' hm => ?_⟩
    rcases List.mem_append.mp hm with hm | hm
    · obtain ⟨v, hv⟩ := hcancel.history.served n o' b' hm
      refine ⟨v, fun op hop => ?_⟩
      show Serves _ (moves n (u.log ++ [.started (u.epoch + 1) o b])) op
      rw [moves_append, moves_started, List.append_nil]
      exact hv op (hof o b n op hop)
    · obtain ⟨rfl, -⟩ : n = u.epoch + 1 ∧ o' = o ∧ b' = b := by simpa using hm
      exact ⟨[], fun op hop => absurd (hof o b _ op hop) (hnone op)⟩
  dsimp only
  split
  · intro _
    refine finish_faithful ?_ ?_ _ _
    · exact hturn
    · exact ⟨hcancel.history.once, hcancel.history.served⟩
  · split
    · intro _
      refine finish_faithful ?_ ?_ _ _
      · exact hturn
      · exact ⟨hcancel.history.once, hcancel.history.served⟩
    · split
      · intro hinv
        refine ⟨hinv, ⟨(hhistory (order key id c) _).once, (hhistory (order key id c) _).served⟩, fun _ =>
          ⟨fun _ => rfl, fun hopen => absurd hrequest hopen, fun hpinned => absurd rfl hpinned,
            fun op hop => absurd (hof (order key id c) c.file.available _ op hop) (hnone op)⟩⟩
      · intro hinv
        apply post_faithful (o := order key id c) (b := c.file.available) hinv
        · exact hturn.start (order key id c) c.file.available hfresh u.scheduled fun m hm => .inl hm
        · exact ⟨(hhistory (order key id c) _).once, (hhistory (order key id c) _).served⟩
        · exact ⟨fun _ => rfl, fun hopen => absurd hrequest hopen, fun hpinned => absurd rfl hpinned,
            fun op hop => absurd (hof (order key id c) c.file.available _ op hop) (hnone op)⟩
        · exact List.mem_append_right _ (List.mem_singleton_self _)
        · rfl
        · trivial
        · exact fun _ => ⟨order key id c, rfl⟩

/-! ## Every run with a truthful host -/

/-- An answer agrees with the content of the host as the question with its token has been asked for it, and questions
have tokens of their own. -/
def Truthful (content : Content) (s : FileDownload) : Event → Prop
  | .response token r _ c' =>
    token ≠ [] ∧ (∀ x ∈ s.log, x.agrees content token r) ∧ s.Unused c'.token
  | .deliver _ c' => s.Unused c'.token
  | .clientChanged c => s.Unused c.token
  | _ => True

def Honest [StoreLayout] (content : Content) : FileDownload → List Event → Prop
  | _, [] => True
  | s, e :: events => Truthful content s e ∧ Honest content (s.step e) events

theorem step_faithful [StoreLayout] (h : Faithful content s) {e : Event} (he : Truthful content s e) :
    Faithful content (s.step e) := by
  cases e with
  | start key id c c' =>
    rw [step, start]
    split
    · exact h
    · exact begin_faithful h key id c'
  | cancel => exact cancel_faithful h
  | timeout =>
    rw [step, timeout]
    split
    · exact finish_faithful h.inv.sound h.history _ _
    · exact h
  | later c =>
    have hinv := later_inv h.inv c
    revert hinv
    rw [step, later]
    split
    · exact fun _ => h
    · dsimp only
      split
      · refine fun hinv => complete_faithful hinv ?_
        exact ⟨h.history.once, h.history.served⟩
      · exact fun hinv => h.still hinv rfl (.of_line rfl fun p hp => hp)
  | storageChanged c =>
    rw [step, storageChanged]
    split
    · exact finish_faithful h.inv.sound h.history _ _
    · exact h
  | clientChanged c => exact advance_faithful h c he
  | response token r c c' =>
    obtain ⟨htoken, hanswers, hunused⟩ := he
    exact response_faithful h htoken r (fun n q hq => hanswers _ hq rfl) c c' hunused
  | take => exact take_faithful h
  | perform a => exact perform_faithful h a
  | deliver c c' => exact deliver_faithful h he

theorem run_faithful [StoreLayout] (h : Faithful content s) {events : List Event} (he : Honest content s events) :
    Faithful content (s.run events) := by
  induction events generalizing s with
  | nil => exact h
  | cons e events ih => exact ih (step_faithful h he.1) he.2

theorem faithful_init (content : Content) : Faithful content {} where
  inv := inv_init
  history :=
    { once := fun n m token q q' ha => absurd ha List.not_mem_nil
      served := fun n o b hm => absurd hm List.not_mem_nil }
  current hactive := by cases hactive

instance (content : Content) (q : Question) (r : Response) : Decidable (Answers content q r) :=
  match q with
  | .stat _ => inferInstanceAs (Decidable (_ = _))
  | .read _ _ _ => inferInstanceAs (Decidable (_ → _))

instance (content : Content) (token : Text) (r : Response) : DecidablePred (Output.agrees content token r) := fun x =>
  match x with
  | .asked _ _ _ => inferInstanceAs (Decidable (_ → _ → _))
  | .started _ _ _ => isTrue trivial
  | .performed _ _ _ _ => isTrue trivial
  | .ready _ _ => isTrue trivial

instance (s : FileDownload) (token : Text) : Decidable (s.Unused token) :=
  inferInstanceAs (Decidable (∀ x ∈ s.log, x.spares token = true))

instance (content : Content) (s : FileDownload) : DecidablePred (Truthful content s) := fun e =>
  match e with
  | .response _ _ _ _ => inferInstanceAs (Decidable (_ ∧ _ ∧ _))
  | .deliver _ c' => inferInstanceAs (Decidable (s.Unused c'.token))
  | .clientChanged c => inferInstanceAs (Decidable (s.Unused c.token))
  | .start _ _ _ _ => isTrue trivial
  | .cancel => isTrue trivial
  | .timeout => isTrue trivial
  | .later _ => isTrue trivial
  | .storageChanged _ => isTrue trivial
  | .take => isTrue trivial
  | .perform _ => isTrue trivial

instance decidableHonest [StoreLayout] (content : Content) : ∀ s events, Decidable (Honest content s events)
  | _, [] => isTrue trivial
  | s, e :: events =>
    have := decidableHonest content (s.step e) events
    inferInstanceAs (Decidable (_ ∧ _))

def notesContent : Content := fun _ _ => [1, 2, 3]

def Output.opened : Output → Option (Nat × Order × Bool)
  | .started n o b => some (n, o, b)
  | _ => none

theorem started_of_opened {log : List Output} {n : Nat} {o : Order} {b : Bool}
    (h : (n, o, b) ∈ log.filterMap Output.opened) : .started n o b ∈ log := by
  obtain ⟨x, hx, hopened⟩ := List.mem_filterMap.mp h
  cases x with
  | started m o' b' =>
    cases hopened
    exact hx
  | asked => cases hopened
  | performed => cases hopened
  | ready => cases hopened

end FileDownload

end SocietyHelper.Media
