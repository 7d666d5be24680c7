import SocietyHelper.Sync.Windows

/-! # Chunks in line, and slices that move something

What the log of any session says: the chunks of a transfer are moved in line and
inside the file, every chunk that is handed on was answered in the window that
asked for it, and a slice that ends in a new list has moved a chunk of the first
transfer it asked for.
-/

namespace SocietyHelper.Sync.Synchronizer

open Library Replica

/-- A chunk that was handed to the local store or acknowledged by the peer. -/
def Output.chunk : Output → Option (Entry × Int)
  | .handed e offset _ => some (e, offset)
  | .advanced e offset _ => some (e, offset)
  | _ => none

def Output.begins : Output → Bool
  | .began _ _ _ => true
  | _ => false

def Output.opens : Output → Bool
  | .began _ _ _ => true
  | .opened _ _ => true
  | _ => false

def moved (log : List Output) : List (Entry × Int) := log.filterMap Output.chunk

@[simp] theorem moved_concat (log : List Output) (o : Output) : moved (log ++ [o]) = moved log ++ o.chunk.toList := by
  rw [moved, List.filterMap_append, moved]
  cases h : o.chunk <;> simp [h]

/-! ## One transfer -/

/-- Chunks that follow each other inside a file lie one chunk size apart. -/
theorem eq_range_of_line {size o : Int} {positions : List Int} (h : Line (after size) o positions)
    (hsize : ∀ p ∈ positions, p < size) :
    positions = (List.range positions.length).map fun i : Nat => o + (i : Int) * chunkBytes := by
  induction h with
  | nil o => rfl
  | @cons o rest h ih =>
    have hrest := ih fun p hp => hsize p (List.mem_cons_of_mem o hp)
    rw [List.length_cons, List.range_succ_eq_map, List.map_cons, List.map_map]
    congr 1
    · simp
    · by_cases hnil : rest = []
      · simp [hnil]
      · obtain ⟨later, hlater, -⟩ := h.eq_cons hnil
        have hnext : after size o < size := hsize _ (List.mem_cons_of_mem o (hlater ▸ List.mem_cons_self))
        have hfull : after size o = o + chunkBytes := by
          rw [after] at hnext ⊢
          omega
        rw [hfull] at hrest
        conv_lhs => rw [hrest]
        apply List.map_congr_left
        intro i _
        simp only [Function.comp_apply, Nat.cast_succ]
        ring

theorem line_concat {next : Int → Int} {o p : Int} {positions : List Int} (h : Line next o positions)
    (hp : lineEnd next o positions = p) : Line next o (positions ++ [p]) := by
  induction h with
  | nil o =>
    rw [← hp]
    exact .cons (.nil _)
  | cons h ih => exact .cons (ih hp)

/-- What a log has moved since its last begin. -/
structure Since (log mid : List Output) (push : Bool) (e : Entry) (o : Int) (positions : List Int) : Prop where
  moved : moved mid = positions.map fun p => (e, p)
  line : Line (after (Replica.sizeOf e)) o positions
  inside : ∀ p ∈ positions, p < Replica.sizeOf e
  visit : ∀ v, visit log = some v → v.push = push ∧ v.entry = e ∧ v.offset = lineEnd (after (Replica.sizeOf e)) o positions

theorem since_began {front mid : List Output} {push : Bool} {e : Entry} {o : Int}
    (h : Linked Justified (front ++ .began push e o :: mid)) (hmid : ∀ x ∈ mid, ¬x.begins) :
    ∃ positions, Since (front ++ .began push e o :: mid) mid push e o positions := by
  induction mid using List.reverseRecOn with
  | nil =>
    refine ⟨[], rfl, .nil o, by simp, fun v hv => ?_⟩
    rw [visit_concat] at hv
    cases hv
    exact ⟨rfl, rfl, rfl⟩
  | append_singleton mid x ih =>
    rw [← List.cons_append, ← List.append_assoc] at h ⊢
    obtain ⟨hlinked, hx⟩ := Linked.concat_iff.mp h
    obtain ⟨positions, hs⟩ := ih hlinked fun y hy => hmid y (List.mem_append_left _ hy)
    -- A chunk is moved from where the transfer stands; the rest leaves it there.
    have hmove : ∀ {way offset v}, Moves (front ++ .began push e o :: mid) way e offset v →
        Visit.follow (some v) x = some { v with offset := v.next offset } → x.chunk = some (e, offset) →
        ∃ positions, Since (front ++ .began push e o :: mid ++ [x]) (mid ++ [x]) push e o positions := by
      intro way offset v hmoves hfollow hchunk
      obtain ⟨hpush, hwhose, hplace⟩ := hs.visit v hmoves.told
      refine ⟨positions ++ [offset], ?_, line_concat hs.line (hplace ▸ hmoves.place), ?_, fun u hu => ?_⟩
      · rw [moved_concat, hs.moved, hchunk, List.map_append]
        rfl
      · intro p hp
        cases List.mem_append.mp hp with
        | inl hp => exact hs.inside p hp
        | inr hp => exact List.mem_singleton.mp hp ▸ hmoves.high
      · rw [visit_concat, hmoves.told, hfollow] at hu
        cases hu
        refine ⟨hpush, hwhose, ?_⟩
        rw [lineEnd_concat, Visit.next, hwhose]
    have hstay : x.chunk = none →
        (∀ v, visit (front ++ .began push e o :: mid ++ [x]) = some v →
          ∃ u, visit (front ++ .began push e o :: mid) = some u ∧ u.push = v.push ∧ u.entry = v.entry ∧ u.offset = v.offset) →
        ∃ positions, Since (front ++ .began push e o :: mid ++ [x]) (mid ++ [x]) push e o positions := by
      intro hchunk hvisit
      refine ⟨positions, ?_, hs.line, hs.inside, fun v hv => ?_⟩
      · rw [moved_concat, hchunk, hs.moved]
        simp
      · obtain ⟨u, hu, hpush, hentry, hoffset⟩ := hvisit v hv
        rw [← hpush, ← hentry, ← hoffset]
        exact hs.visit u hu
    cases x with
    | began _ _ _ => exact absurd rfl (hmid _ (List.mem_append_right _ (List.mem_singleton_self _)))
    | handed e' offset a =>
      obtain ⟨v, hmoves, -⟩ := hx
      have hwhose : e' = e := hmoves.whose ▸ (hs.visit v hmoves.told).2.1
      subst hwhose
      exact hmove hmoves rfl rfl
    | advanced e' offset next =>
      obtain ⟨v, hmoves, hnext, -⟩ := hx
      have hwhose : e' = e := hmoves.whose ▸ (hs.visit v hmoves.told).2.1
      subst hwhose
      exact hmove hmoves (by rw [hnext]; rfl) rfl
    | started => exact hstay rfl fun v hv => by rw [visit_concat] at hv; cases hv
    | restarted => exact hstay rfl fun v hv => by rw [visit_concat] at hv; cases hv
    | opened _ _ =>
      refine hstay rfl fun v hv => ?_
      rw [visit_concat] at hv
      obtain ⟨u, hu, rfl⟩ := Option.map_eq_some_iff.mp hv
      exact ⟨u, hu, rfl, rfl, rfl⟩
    | answered _ _ =>
      refine hstay rfl fun v hv => ?_
      rw [visit_concat] at hv
      obtain ⟨u, hu, rfl⟩ := Option.map_eq_some_iff.mp hv
      exact ⟨u, hu, rfl, rfl, rfl⟩

/-! ## Answers and their windows -/

/-- Where the answers of a visit come from: from the window that was opened last. -/
structure Sourced (log : List Output) (v : Visit) : Prop where
  fits : v.push = false → ∀ q ∈ v.answers, Fits v q.1 q.2
  nodup : v.answered.Nodup
  opened : v.asked ≠ [] → ∃ front mid, log = front ++ .opened v.entry v.asked :: mid ∧ (∀ x ∈ mid, ¬x.opens) ∧
    ∀ q ∈ v.answers, .answered q.1 q.2 ∈ mid

theorem sourced {log : List Output} (h : Linked Justified log) {v : Visit} (hv : visit log = some v) : Sourced log v := by
  induction log using List.reverseRecOn generalizing v with
  | nil => cases hv
  | append_singleton log x ih =>
    obtain ⟨hlinked, hx⟩ := Linked.concat_iff.mp h
    rw [visit_concat] at hv
    -- The window stays open over everything that neither begins nor opens.
    have hlonger : ∀ {u : Visit} (answers : List (Int × Answer)), Sourced log u → v.entry = u.entry → v.asked = u.asked →
        ¬x.opens → (∀ q ∈ answers, .answered q.1 q.2 ∈ [x]) → v.answers = u.answers ++ answers →
        v.asked ≠ [] → ∃ front mid, log ++ [x] = front ++ .opened v.entry v.asked :: mid ∧ (∀ y ∈ mid, ¬y.opens) ∧
          ∀ q ∈ v.answers, .answered q.1 q.2 ∈ mid := by
      intro u answers hu hentry hasked hopens hanswers hall hne
      obtain ⟨front, mid, rfl, hmid, hmem⟩ := hu.opened (hasked ▸ hne)
      refine ⟨front, mid ++ [x], ?_, ?_, ?_⟩
      · rw [hentry, hasked, List.append_assoc, List.cons_append]
      · intro y hy
        cases List.mem_append.mp hy with
        | inl hy => exact hmid y hy
        | inr hy => exact List.mem_singleton.mp hy ▸ hopens
      · intro q hq
        rw [hall] at hq
        cases List.mem_append.mp hq with
        | inl hq => exact List.mem_append_left _ (hmem q hq)
        | inr hq => exact List.mem_append_right _ (hanswers q hq)
    cases x with
    | started => cases hv
    | restarted => cases hv
    | began push e offset =>
      cases hv
      exact ⟨fun _ q hq => absurd hq List.not_mem_nil, List.nodup_nil, fun hne => absurd rfl hne⟩
    | opened e positions =>
      obtain ⟨u, hu, rfl⟩ := Option.map_eq_some_iff.mp hv
      obtain ⟨w, hw, hwhose, -⟩ := hx
      rw [hu] at hw
      cases hw
      refine ⟨fun _ q hq => absurd hq List.not_mem_nil, List.nodup_nil, fun _ => ⟨log, [], ?_, by simp, by simp⟩⟩
      rw [hwhose]
    | answered position a =>
      obtain ⟨u, hu, rfl⟩ := Option.map_eq_some_iff.mp hv
      obtain ⟨w, hw, -, hnew, -, hfits⟩ := hx
      rw [hu] at hw
      cases hw
      have hsource := ih hlinked hu
      refine ⟨fun hpull q hq => ?_, ?_, ?_⟩
      · cases List.mem_append.mp hq with
        | inl hq => exact ⟨(hsource.fits hpull q hq).bytes, (hsource.fits hpull q hq).offset, (hsource.fits hpull q hq).version⟩
        | inr hq =>
          have hfit := hfits hpull
          rw [List.mem_singleton.mp hq]
          exact ⟨hfit.bytes, hfit.offset, hfit.version⟩
      · have hanswered : ({ u with answers := u.answers ++ [(position, a)] } : Visit).answered = u.answered ++ [position] := by
          simp [Visit.answered]
        rw [hanswered]
        exact List.nodup_append.mpr ⟨hsource.nodup, List.nodup_singleton _, fun p hp q hq hpq =>
          hnew (List.mem_singleton.mp hq ▸ hpq ▸ hp)⟩
      · exact hlonger [(position, a)] hsource rfl rfl (by simp [Output.opens]) (by simp) rfl
    | handed e offset a =>
      obtain ⟨u, hu, rfl⟩ := Option.map_eq_some_iff.mp hv
      have hsource := ih hlinked hu
      refine ⟨fun hpull q hq => ?_, hsource.nodup, ?_⟩
      · exact ⟨(hsource.fits hpull q hq).bytes, (hsource.fits hpull q hq).offset, (hsource.fits hpull q hq).version⟩
      · exact hlonger [] hsource rfl rfl (by simp [Output.opens]) (by simp) (by simp)
    | advanced e offset next =>
      obtain ⟨u, hu, rfl⟩ := Option.map_eq_some_iff.mp hv
      have hsource := ih hlinked hu
      refine ⟨fun hpull q hq => ?_, hsource.nodup, ?_⟩
      · exact ⟨(hsource.fits hpull q hq).bytes, (hsource.fits hpull q hq).offset, (hsource.fits hpull q hq).version⟩
      · exact hlonger [] hsource rfl rfl (by simp [Output.opens]) (by simp) (by simp)

/-! ## Slices that end -/

def restarts (log : List Output) : Nat := log.countP fun o => match o with | .restarted => true | _ => false

/-- The offsets of the chunks of one entry that were moved. -/
def movedOf (e : Entry) (log : List Output) : List Int := (moved log).filterMap fun q => if q.1 = e then some q.2 else none

/-- A transfer that is taken up again goes on where it was left, or behind. -/
def Resumes (log : List Output) : Prop :=
  ∀ front push e o back, log = front ++ .began push e o :: back → ∀ p ∈ movedOf e front, after (Replica.sizeOf e) p ≤ o

/-- How many chunks an entry has. -/
def pieces (e : Entry) : Nat := ((Replica.sizeOf e + chunkBytes - 1) / chunkBytes).toNat

theorem Resumes.of_front {log log' : List Output} (h : Resumes log) (hfront : log' <+: log) : Resumes log' := by
  obtain ⟨rest, rfl⟩ := hfront
  intro front push e o back hlog
  refine h front push e o (back ++ rest) ?_
  rw [hlog, List.append_assoc, List.cons_append]

theorem movedOf_concat (e : Entry) (log : List Output) (o : Output) :
    movedOf e (log ++ [o]) = movedOf e log ++ (o.chunk.bind fun q => if q.1 = e then some q.2 else none).toList := by
  rw [movedOf, moved_concat, List.filterMap_append, movedOf]
  cases o.chunk with
  | none => rfl
  | some q =>
    simp only [Option.toList_some, Option.bind_some, List.filterMap_cons, List.filterMap_nil]
    split <;> rename_i h <;> simp [h]

/-- The chunks of one entry are moved in order, none of them twice. -/
structure Rising (e : Entry) (log : List Output) : Prop where
  apart : (movedOf e log).Pairwise fun p q => p + chunkBytes ≤ q
  inside : ∀ p ∈ movedOf e log, 0 ≤ p ∧ p < Replica.sizeOf e
  behind : ∀ v, visit log = some v → v.entry = e → ∀ p ∈ movedOf e log, v.next p ≤ v.offset

theorem rising (e : Entry) {log : List Output} (h : Linked Justified log) (hresumes : Resumes log) : Rising e log := by
  induction log using List.reverseRecOn with
  | nil => exact ⟨.nil, fun p hp => absurd hp List.not_mem_nil, fun v hv => nomatch hv⟩
  | append_singleton log x ih =>
    obtain ⟨hlinked, hx⟩ := Linked.concat_iff.mp h
    have hr := ih hlinked (hresumes.of_front (List.prefix_append log [x]))
    have hmove : ∀ {way e' offset v}, Moves log way e' offset v → x.chunk = some (e', offset) →
        Visit.follow (some v) x = some { v with offset := v.next offset } → Rising e (log ++ [x]) := by
      intro way e' offset v hmoves hchunk hfollow
      have hlast : ∀ u, visit (log ++ [x]) = some u → u.entry = e' ∧ u.next = v.next ∧ u.offset = v.next offset := by
        intro u hu
        rw [visit_concat, hmoves.told, hfollow] at hu
        cases hu
        exact ⟨hmoves.whose, rfl, rfl⟩
      by_cases he : e' = e
      · subst he
        have hlog : movedOf e' (log ++ [x]) = movedOf e' log ++ [offset] := by simp [movedOf_concat, hchunk]
        have hbehind := hr.behind v hmoves.told hmoves.whose
        rw [hmoves.place, Visit.next, hmoves.whose] at hbehind
        refine ⟨?_, ?_, fun u hu _ => ?_⟩
        · rw [hlog]
          refine List.pairwise_append.mpr ⟨hr.apart, List.pairwise_singleton _ _, fun p hp q hq => ?_⟩
          have hle := hbehind p hp
          have hhigh := hmoves.high
          rw [List.mem_singleton.mp hq]
          rw [after] at hle
          omega
        · rw [hlog]
          intro p hp
          cases List.mem_append.mp hp with
          | inl hp => exact hr.inside p hp
          | inr hp => exact List.mem_singleton.mp hp ▸ ⟨hmoves.low, hmoves.high⟩
        · obtain ⟨-, hnext, hoffset⟩ := hlast u hu
          rw [hlog, hnext, hoffset, Visit.next, hmoves.whose]
          intro p hp
          cases List.mem_append.mp hp with
          | inl hp => exact (hbehind p hp).trans (lt_after hmoves.high).le
          | inr hp => exact le_of_eq (congrArg _ (List.mem_singleton.mp hp))
      · have hlog : movedOf e (log ++ [x]) = movedOf e log := by simp [movedOf_concat, hchunk, he]
        exact ⟨hlog ▸ hr.apart, hlog ▸ hr.inside, fun u hu hu' => absurd ((hlast u hu).1.symm.trans hu') he⟩
    have hstay : x.chunk = none → (∀ v, visit (log ++ [x]) = some v → v.entry = e → ∀ p ∈ movedOf e log, v.next p ≤ v.offset) →
        Rising e (log ++ [x]) := by
      intro hchunk hbehind
      have hlog : movedOf e (log ++ [x]) = movedOf e log := by simp [movedOf_concat, hchunk]
      exact ⟨hlog ▸ hr.apart, hlog ▸ hr.inside, hlog ▸ hbehind⟩
    cases x with
    | started => exact hstay rfl fun v hv => by rw [visit_concat] at hv; cases hv
    | restarted => exact hstay rfl fun v hv => by rw [visit_concat] at hv; cases hv
    | began push e' offset =>
      refine hstay rfl fun v hv he p hp => ?_
      rw [visit_concat] at hv
      cases hv
      cases he
      exact hresumes log push _ offset [] rfl p hp
    | opened e' positions =>
      refine hstay rfl fun v hv => ?_
      rw [visit_concat] at hv
      obtain ⟨u, hu, rfl⟩ := Option.map_eq_some_iff.mp hv
      exact hr.behind u hu
    | answered position a =>
      refine hstay rfl fun v hv => ?_
      rw [visit_concat] at hv
      obtain ⟨u, hu, rfl⟩ := Option.map_eq_some_iff.mp hv
      exact hr.behind u hu
    | handed e' offset a =>
      obtain ⟨v, hmoves, -⟩ := hx
      exact hmove hmoves rfl rfl
    | advanced e' offset next =>
      obtain ⟨v, hmoves, hnext, -⟩ := hx
      exact hmove hmoves rfl (by rw [hnext]; rfl)

theorem length_mul_le {l : List Int} {x : Int} (h : (l ++ [x]).Pairwise fun p q => p + chunkBytes ≤ q)
    (hlow : ∀ p ∈ l ++ [x], 0 ≤ p) : l.length * chunkBytes ≤ x := by
  induction l using List.reverseRecOn generalizing x with
  | nil => simpa using hlow x
  | append_singleton l y ih =>
    obtain ⟨hinit, -, hcross⟩ := List.pairwise_append.mp h
    have hy := ih hinit fun p hp => hlow p (List.mem_append_left _ hp)
    have hxy := hcross y (by simp) x (List.mem_singleton_self x)
    rw [List.length_append, List.length_singleton]
    push_cast
    linarith

/-- Of one entry no more chunks are moved than it has. -/
theorem length_movedOf_le (e : Entry) {log : List Output} (h : Linked Justified log) (hresumes : Resumes log) :
    (movedOf e log).length ≤ pieces e := by
  have hr := rising e h hresumes
  rcases List.eq_nil_or_concat (movedOf e log) with hnil | ⟨front, last, hsplit⟩
  · rw [hnil]
    exact Nat.zero_le _
  · rw [List.concat_eq_append] at hsplit
    have hmul := length_mul_le (hsplit ▸ hr.apart) fun p hp => (hr.inside p (hsplit ▸ hp)).1
    have hlast := (hr.inside last (hsplit ▸ List.mem_append_right _ (List.mem_singleton_self last))).2
    have hchunk : chunkBytes = 262144 := by decide
    rw [hsplit, List.length_append, List.length_singleton, pieces]
    rw [hchunk] at hmul ⊢
    omega

/-- Every slice that has ended has moved a chunk. -/
theorem restarts_le {log : List Output} (h : Linked Justified log) :
    restarts log + (slice log).moved.length ≤ (moved log).length := by
  induction log using List.reverseRecOn with
  | nil => exact Nat.le_refl 0
  | append_singleton log x ih =>
    obtain ⟨hlinked, hx⟩ := Linked.concat_iff.mp h
    have hle := ih hlinked
    rw [restarts] at hle ⊢
    rw [slice_concat, moved_concat, List.countP_append, List.length_append]
    cases x with
    | restarted =>
      obtain ⟨e, -, hmoved⟩ := hx
      have hpos := List.length_pos_of_mem hmoved
      simp only [Slice.follow, Output.chunk, List.countP_cons, List.countP_nil, Option.toList_none, List.length_nil, if_true]
      omega
    | started =>
      simp only [Slice.follow, Output.chunk, List.countP_cons, List.countP_nil, Option.toList_none, List.length_nil]
      simp only [Bool.false_eq_true, if_false]
      omega
    | handed e offset a => simpa [Slice.follow, Output.chunk, ← Nat.add_assoc] using hle
    | advanced e offset next => simpa [Slice.follow, Output.chunk, ← Nat.add_assoc] using hle
    | began _ _ _ => simpa [Slice.follow, Output.chunk] using hle
    | opened _ _ => simpa [Slice.follow, Output.chunk] using hle
    | answered _ _ => simpa [Slice.follow, Output.chunk] using hle

theorem length_moved (E : Finset Entry) {l : List (Entry × Int)} (h : ∀ q ∈ l, q.1 ∈ E) :
    l.length = ∑ e ∈ E, (l.filterMap fun q => if q.1 = e then some q.2 else none).length := by
  induction l with
  | nil => simp
  | cons q l ih =>
    have hrest := ih fun r hr => h r (List.mem_cons_of_mem q hr)
    have hterm : ∀ e, ((q :: l).filterMap fun r => if r.1 = e then some r.2 else none).length =
        (if q.1 = e then 1 else 0) + (l.filterMap fun r => if r.1 = e then some r.2 else none).length := by
      intro e
      rw [List.filterMap_cons]
      split
      · rename_i hq
        rw [if_neg (by simpa using hq), Nat.zero_add]
      · rename_i p hq
        have he : q.1 = e := by
          by_contra hne
          simp [hne] at hq
        rw [if_pos he, List.length_cons, Nat.add_comm]
    simp only [hterm, Finset.sum_add_distrib, Finset.sum_ite_eq, if_pos (h q List.mem_cons_self), List.length_cons, hrest]
    exact Nat.add_comm _ _

/-- As long as the chunks of a fixed set of entries are moved, lists are made again only so often. -/
theorem restarts_le_pieces {log : List Output} (h : Linked Justified log) (hresumes : Resumes log) (E : Finset Entry)
    (hE : ∀ q ∈ moved log, q.1 ∈ E) : restarts log ≤ ∑ e ∈ E, pieces e := by
  calc
    restarts log ≤ (moved log).length := (Nat.le_add_right _ _).trans (restarts_le h)
    _ = ∑ e ∈ E, (movedOf e log).length := length_moved E hE
    _ ≤ ∑ e ∈ E, pieces e := Finset.sum_le_sum fun e _ => length_movedOf_le e h hresumes

/-! ## One transfer over many slices -/

/-- How many slices have ended whose first transfer was that of an entry. -/
def slicesOf (e : Entry) : Slice → List Output → Nat
  | _, [] => 0
  | t, .restarted :: log => (if t.first = some e then 1 else 0) + slicesOf e {} log
  | t, o :: log => slicesOf e (t.follow o) log

theorem slicesOf_concat (e : Entry) (t : Slice) (log : List Output) (o : Output) :
    slicesOf e t (log ++ [o]) = slicesOf e t log + slicesOf e (log.foldl Slice.follow t) [o] := by
  induction log generalizing t with
  | nil => simp [slicesOf]
  | cons x log ih =>
    cases x with
    | restarted =>
      simp only [List.cons_append, slicesOf, ih, List.foldl_cons, Slice.follow]
      exact (Nat.add_assoc _ _ _).symm
    | _ => simpa only [List.cons_append, slicesOf, List.foldl_cons] using ih _

/-- Every slice that has ended has moved a chunk of its first transfer. -/
theorem slicesOf_le (e : Entry) {log : List Output} (h : Linked Justified log) :
    slicesOf e {} log + (slice log).moved.count e ≤ (movedOf e log).length := by
  induction log using List.reverseRecOn with
  | nil => exact Nat.le_refl 0
  | append_singleton log x ih =>
    obtain ⟨hlinked, hx⟩ := Linked.concat_iff.mp h
    have hle := ih hlinked
    rw [slicesOf_concat, movedOf_concat, List.length_append, slice_concat]
    cases x with
    | restarted =>
      obtain ⟨e', hfirst, hmoved⟩ := hx
      have hended : slicesOf e (log.foldl Slice.follow {}) [.restarted] = if e' = e then 1 else 0 := by
        rw [slicesOf, slicesOf, show log.foldl Slice.follow {} = slice log from rfl, hfirst]
        simp
      have hcount : (if e' = e then 1 else 0) ≤ (slice log).moved.count e := by
        split
        · rename_i he
          exact List.count_pos_iff.mpr (he ▸ hmoved)
        · exact Nat.zero_le _
      rw [hended]
      simp only [Slice.follow, List.count_nil, Output.chunk, Option.bind_none, Option.toList_none, List.length_nil]
      omega
    | started =>
      simp only [slicesOf, Slice.follow, List.count_nil, Output.chunk, Option.bind_none, Option.toList_none, List.length_nil]
      omega
    | handed e' offset a =>
      by_cases he : e' = e
      · simp only [slicesOf, Slice.follow, List.count_append, Output.chunk, he, Option.bind_some, if_true]
        simp only [List.count_singleton_self, Option.toList_some, List.length_singleton]
        omega
      · simpa [slicesOf, Slice.follow, List.count_append, Output.chunk, he, List.count_singleton] using hle
    | advanced e' offset next =>
      by_cases he : e' = e
      · simp only [slicesOf, Slice.follow, List.count_append, Output.chunk, he, Option.bind_some, if_true]
        simp only [List.count_singleton_self, Option.toList_some, List.length_singleton]
        omega
      · simpa [slicesOf, Slice.follow, List.count_append, Output.chunk, he, List.count_singleton] using hle
    | began _ _ _ => simpa [slicesOf, Slice.follow, Output.chunk] using hle
    | opened _ _ => simpa [slicesOf, Slice.follow, Output.chunk] using hle
    | answered _ _ => simpa [slicesOf, Slice.follow, Output.chunk] using hle

/-- A transfer stands inside its file. -/
theorem visit_inside {log : List Output} (h : Linked Justified log) {v : Visit} (hv : visit log = some v) :
    0 ≤ v.offset ∧ v.offset ≤ Replica.sizeOf v.entry := by
  induction log using List.reverseRecOn generalizing v with
  | nil => cases hv
  | append_singleton log x ih =>
    obtain ⟨hlinked, hx⟩ := Linked.concat_iff.mp h
    rw [visit_concat] at hv
    have hmove : ∀ {way e offset u}, Moves log way e offset u →
        0 ≤ u.next offset ∧ u.next offset ≤ Replica.sizeOf u.entry := by
      intro way e offset u hmoves
      rw [Visit.next, hmoves.whose]
      exact ⟨hmoves.low.trans (lt_after hmoves.high).le, after_le hmoves.high.le⟩
    cases x with
    | started => cases hv
    | restarted => cases hv
    | began push e offset =>
      cases hv
      exact hx
    | opened e positions =>
      obtain ⟨u, hu, rfl⟩ := Option.map_eq_some_iff.mp hv
      have hu := ih hlinked hu
      exact hu
    | answered position a =>
      obtain ⟨u, hu, rfl⟩ := Option.map_eq_some_iff.mp hv
      have hu := ih hlinked hu
      exact hu
    | handed e offset a =>
      obtain ⟨u, hmoves, -⟩ := hx
      rw [hmoves.told] at hv
      cases hv
      exact hmove hmoves
    | advanced e offset next =>
      obtain ⟨u, hmoves, hnext, -⟩ := hx
      rw [hmoves.told] at hv
      cases hv
      rw [hnext]
      exact hmove hmoves

/-- After so many slices of its own a transfer stands so many chunks into its file, or at its end. -/
theorem le_offset {e : Entry} {log : List Output} (h : Linked Justified log) (hresumes : Resumes log) {v : Visit}
    (hv : visit log = some v) (he : v.entry = e) : min (Replica.sizeOf e) (slicesOf e {} log * chunkBytes) ≤ v.offset := by
  have hr := rising e h hresumes
  have hle : slicesOf e {} log ≤ (movedOf e log).length := (Nat.le_add_right _ _).trans (slicesOf_le e h)
  have hchunk : chunkBytes = 262144 := by decide
  rcases List.eq_nil_or_concat (movedOf e log) with hnil | ⟨front, last, hsplit⟩
  · rw [hnil, List.length_nil, Nat.le_zero] at hle
    rw [hle]
    exact (min_le_right _ _).trans (by simpa using (visit_inside h hv).1)
  · rw [List.concat_eq_append] at hsplit
    have hmul := length_mul_le (hsplit ▸ hr.apart) fun p hp => (hr.inside p (hsplit ▸ hp)).1
    have hbehind := hr.behind v hv he last (hsplit ▸ List.mem_append_right _ (List.mem_singleton_self last))
    rw [hsplit, List.length_append, List.length_singleton] at hle
    rw [Visit.next, he, after] at hbehind
    rw [hchunk] at hmul hbehind ⊢
    omega

/-! ## A whole session -/

/-- What the log of a session says of the chunks it has moved. -/
structure Carried (log : List Output) : Prop where
  /-- Between two begins the chunks of one file are moved one after the other, each once and inside the file. -/
  line : ∀ front push e o mid back, log = front ++ .began push e o :: mid ++ back → (∀ x ∈ mid, ¬x.begins) →
    ∃ n : Nat, moved mid = (List.range n).map (fun i : Nat => (e, o + (i : Int) * chunkBytes)) ∧
      ∀ i < n, o + (i : Int) * chunkBytes < Replica.sizeOf e
  /-- A window asks for up to four chunks from where the transfer stands. -/
  window : ∀ front e positions back, log = front ++ .opened e positions :: back →
    ∃ v, visit front = some v ∧ v.entry = e ∧ positions ≠ [] ∧ positions.length ≤ 4 ∧
      positions = (List.range positions.length).map (fun i : Nat => v.offset + (i : Int) * chunkBytes) ∧
      ∀ p ∈ positions, p < Replica.sizeOf e
  /-- A chunk that is handed on was answered in the window that is open, and fits its place in the file. -/
  handed : ∀ front e p a back, log = front ++ .handed e p a :: back →
    ∃ v, visit front = some v ∧ v.push = false ∧ v.entry = e ∧ v.offset = p ∧ Fits v p a ∧
      ∃ before asked since, front = before ++ .opened e asked :: since ∧ (∀ x ∈ since, ¬x.opens) ∧
        p ∈ asked ∧ .answered p a ∈ since
  /-- An upload moves on over a chunk that was acknowledged in the window that is open. -/
  advanced : ∀ front e p next back, log = front ++ .advanced e p next :: back →
    ∃ v, visit front = some v ∧ v.push ∧ v.entry = e ∧ v.offset = p ∧ next = after (Replica.sizeOf e) p ∧
      ∃ before asked since, front = before ++ .opened e asked :: since ∧ (∀ x ∈ since, ¬x.opens) ∧
        p ∈ asked ∧ ∃ a, .answered p a ∈ since
  /-- An upload stands behind the longest row of acknowledged chunks. -/
  settled : Settled log
  /-- A slice that ends in a new list has moved a chunk of the first transfer that it asked for. -/
  restarted : ∀ front back, log = front ++ .restarted :: back → (slice front).Advanced
  /-- While parts are kept, a transfer gets as many chunks on as slices have begun with it. -/
  progress : Resumes log → ∀ v, visit log = some v →
    min (Replica.sizeOf v.entry) (slicesOf v.entry {} log * chunkBytes) ≤ v.offset
  /-- While parts are kept, no more slices end than the entries that are moved have chunks. -/
  finite : Resumes log → ∀ E : Finset Entry, (∀ q ∈ moved log, q.1 ∈ E) → restarts log ≤ ∑ e ∈ E, pieces e

theorem carried_of_linked {log : List Output} (h : Linked Justified log) (hsettled : Settled log) : Carried log where
  line := by
    intro front push e o mid back hlog hmid
    obtain ⟨positions, hs⟩ := since_began (h.of_front ⟨back, hlog.symm⟩) hmid
    have heq := eq_range_of_line hs.line hs.inside
    refine ⟨positions.length, ?_, fun i hi => hs.inside _ ?_⟩
    · rw [hs.moved]
      conv_lhs => rw [heq]
      rw [List.map_map]
      rfl
    · rw [heq]
      exact List.mem_map_of_mem (List.mem_range.mpr hi)
  window := by
    intro front e positions back hlog
    obtain ⟨v, hv, hwhose, -, hne, hfour, hline, hrange⟩ := h front _ back hlog
    rw [Visit.next, hwhose] at hline
    exact ⟨v, hv, hwhose, hne, hfour, eq_range_of_line hline fun p hp => (hrange p hp).2, fun p hp => (hrange p hp).2⟩
  handed := by
    intro front e p a back hlog
    obtain ⟨v, hmoves, hanswer⟩ := h front _ back hlog
    have hs := sourced (h.of_front ⟨_, hlog.symm⟩) hmoves.told
    obtain ⟨before, since, hfront, hsince, hanswered⟩ := hs.opened (List.ne_nil_of_mem hmoves.asked)
    refine ⟨v, hmoves.told, hmoves.way, hmoves.whose, hmoves.place, hs.fits hmoves.way _ hanswer, before, v.asked, since, ?_,
      hsince, hmoves.asked, hanswered _ hanswer⟩
    rw [hfront, hmoves.whose]
  advanced := by
    intro front e p next back hlog
    obtain ⟨v, hmoves, hnext, hanswer⟩ := h front _ back hlog
    have hs := sourced (h.of_front ⟨_, hlog.symm⟩) hmoves.told
    obtain ⟨before, since, hfront, hsince, hanswered⟩ := hs.opened (List.ne_nil_of_mem hmoves.asked)
    obtain ⟨⟨q, a⟩, hq, hqp⟩ := List.mem_map.mp hanswer
    cases hqp
    refine ⟨v, hmoves.told, hmoves.way, hmoves.whose, hmoves.place, ?_, before, v.asked, since, ?_, hsince, hmoves.asked,
      a, hanswered _ hq⟩
    · rw [hnext, Visit.next, hmoves.whose]
    · rw [hfront, hmoves.whose]
  settled := hsettled
  restarted := fun front back hlog => h front _ back hlog
  progress := fun hresumes _ hv => le_offset h hresumes hv rfl
  finite := fun hresumes E hE => restarts_le_pieces h hresumes E hE

/-- Whatever list a session is given, whatever is answered and in whatever order, its chunks are carried. -/
theorem carried_in_windows [StoreLayout] (peer : Text) (store : World) (events : List Event) :
    Carried (run (created peer store) events).log :=
  have h := inv_run (inv_created peer store) events
  carried_of_linked h.linked h.settled

/-! ## A transfer that waits behind another

The clock of a slice runs for the session: a transfer that comes late in its slice
may meet the end of it before its first chunk.
-/

deriving instance DecidableEq for Answer, Output

def letter (key bytes : String) : Entry :=
  versioned
    { path := .string (text key), kind := .string file, size := .string (text "1")
      hash := .string (digest (utf8 (text bytes))), clock := some [(newMirror.id, .string (text "1"))] }

/-- A mirror with two local files of one byte. -/
def pair : World :=
  let d := (openedDisk.makeDirectory [text "Files"]).create [text "Files", text "a"]
  let d := (d.create [text "Files", text "b"]).write 6 (utf8 (text "A"))
  { newMirror with
    volume := { disk := d }
    db := { newMirror.db with
      entries := Table.empty.insert (text "files/a")
        { data := letter "files/a" "A", stamp := .seen (d.inode 6).token, sequence := 1 } } }

def told (offset : String) : Reply := { ok := true, result := some { ok := true, offset := .string (text offset) } }

/-- Two uploads in one slice; the second one is begun when the slice is over. -/
def slowUploads : List Event :=
  [.start 1 0,
   .receive 0 (told "") { plan := .push pair [letter "files/a" "A", letter "files/b" "B"] },
   .receive 1 (told "0") {},
   .receive 2 (told "1") {},
   .fire 0 {},
   .receive 3 (told "") {},
   .receive 4 (told "0") { now := 2000, bootstrapping := true }]

def slowLog : List Output := (@run plainLayout (created (text "desk") pair) slowUploads).log

theorem slowLog_restarts : slowLog.getLast? = some .restarted ∧
    (visit slowLog.dropLast).any (fun v => v.entry ∉ (slice slowLog.dropLast).moved) = true := by
  decide +kernel

/-- A slice may end at a transfer that it has not moved. -/
theorem not_every_transfer_moves : ¬∀ (_ : StoreLayout) (peer : Text) (store : World) (events : List Event)
    (front back : List Output), (run (created peer store) events).log = front ++ .restarted :: back →
    ∀ v, visit front = some v → v.entry ∈ (slice front).moved := by
  intro h
  obtain ⟨hlast, hany⟩ := slowLog_restarts
  obtain ⟨front, hfront⟩ := List.getLast?_eq_some_iff.mp hlast
  rw [hfront, List.dropLast_concat] at hany
  cases hv : visit front with
  | none => simp [hv] at hany
  | some v =>
    have hmoved := h plainLayout (text "desk") pair slowUploads front [] hfront v hv
    simp [hv, hmoved] at hany

end SocietyHelper.Sync.Synchronizer
