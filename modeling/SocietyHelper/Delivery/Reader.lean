import SocietyHelper.Delivery.Exchange

/-! # The consumer that reads in order

The cursor of a consumer that acknowledges only the last row of each page stands
at the last row of the pages it has settled, so the next page continues there.
-/

namespace SocietyHelper.Delivery

open Library Effect

/-- An acknowledgement under a consumer's name by a process other than its reading loop. -/
def Step.acknowledgesFor (reader : Text) (step : Step) : Prop :=
  ∃ process sequence, step.operation = .check process reader sequence

structure Following (reader : Text) (s : System) : Prop where
  cursor : (s.store.consumers.find? reader).getD 0 = lastOf s.settled
  front : s.settled ++ s.phase.page <+: s.store.inbox
  asked : ∀ c, s.phase = .asked c → c = lastOf s.settled
  held : ∀ rows, s.phase = .holding rows ∨ s.phase = .checked rows → rows ≠ []
  alone : ∀ p v, s.checked.find? p ≠ some (reader, v)
  kept : s.interrupted = false → s.received = s.settled ++ s.phase.page

/-- What a part of a run has settled: at least one row in each finished turn, unless nothing was left. -/
structure Advance (s t : System) : Prop where
  inbox : s.store.inbox <+: t.store.inbox
  settled : s.settled <+: t.settled
  rounds : s.rounds ≤ t.rounds
  progress : min s.store.inbox.length (s.settled.length + (t.rounds - s.rounds)) ≤ t.settled.length

theorem Advance.trans {s t u : System} (h : Advance s t) (h' : Advance t u) (hfront : t.settled <+: t.store.inbox) :
    Advance s u := by
  have hinbox := h.inbox.length_le
  have hsettled := h'.settled.length_le
  have hlength := hfront.length_le
  have hrounds := h.rounds
  have hrounds' := h'.rounds
  have hprogress := h.progress
  have hprogress' := h'.progress
  constructor
  · exact h.inbox.trans h'.inbox
  · exact h.settled.trans h'.settled
  · exact hrounds.trans hrounds'
  · omega

/-- A step that finishes no turn. -/
theorem Advance.unsettled {s t : System} (hinbox : s.store.inbox <+: t.store.inbox) (hsettled : t.settled = s.settled)
    (hrounds : t.rounds = s.rounds) : Advance s t := by
  constructor
  · exact hinbox
  · rw [hsettled]
  · rw [hrounds]
  · rw [hrounds, hsettled]
    omega

namespace Store

variable {s : Store}

theorem Ordered.le_lastOf (h : s.Ordered) {front rest : List InboxRow} (hs : s.inbox = front ++ rest) {r : InboxRow}
    (hr : r ∈ front) : r.sequence ≤ lastOf front := by
  rcases List.eq_nil_or_concat front with rfl | ⟨front, last, rfl⟩
  · cases hr
  · have hsequences := h.sequences
    rw [List.concat_eq_append] at hs hr ⊢
    rw [hs, List.map_append, List.map_append, List.append_assoc, List.pairwise_append] at hsequences
    have hlast : lastOf (front ++ [last]) = last.sequence := by simp [lastOf]
    rw [hlast]
    rw [List.mem_append, List.mem_singleton] at hr
    rcases hr with hr | rfl
    · exact (hsequences.2.2 _ (List.mem_map_of_mem hr) _ (by simp)).le
    · exact le_refl _

theorem Ordered.lastOf_lt (h : s.Ordered) {front rest : List InboxRow} (hs : s.inbox = front ++ rest) {r : InboxRow}
    (hr : r ∈ rest) : lastOf front < r.sequence := by
  rcases List.eq_nil_or_concat front with rfl | ⟨front, last, rfl⟩
  · have hmem : r ∈ s.inbox := by rwa [hs]
    have hgiven := (h.given r hmem).1
    change 0 < r.sequence
    omega
  · have hsequences := h.sequences
    rw [List.concat_eq_append] at hs ⊢
    rw [hs, List.map_append, List.pairwise_append] at hsequences
    have hlast : lastOf (front ++ [last]) = last.sequence := by simp [lastOf]
    rw [hlast]
    exact hsequences.2.2 _ (by simp) _ (List.mem_map_of_mem hr)

/-- What is read behind the last row of a front of the inbox is the rest of it. -/
theorem Ordered.filter_after (h : s.Ordered) {front rest : List InboxRow} (hs : s.inbox = front ++ rest) :
    (s.inbox.filter fun r => lastOf front < r.sequence) = rest := by
  rw [hs, List.filter_append]
  have hfront : (front.filter fun r => lastOf front < r.sequence) = [] := by
    rw [List.filter_eq_nil_iff]
    intro r hr
    have hle := h.le_lastOf hs hr
    rw [decide_eq_true_eq]
    omega
  have hrest : (rest.filter fun r => lastOf front < r.sequence) = rest := by
    rw [List.filter_eq_self]
    intro r hr
    rw [decide_eq_true_eq]
    exact h.lastOf_lt hs hr
  rw [hfront, hrest, List.nil_append]

theorem Ordered.lastOf_mono (h : s.Ordered) {front page : List InboxRow} (hs : front ++ page <+: s.inbox)
    (hpage : page ≠ []) : lastOf front ≤ lastOf page := by
  obtain ⟨rest, hs⟩ := hs
  rw [List.append_assoc] at hs
  rcases List.eq_nil_or_concat page with rfl | ⟨page, last, rfl⟩
  · exact absurd rfl hpage
  · have hlast : lastOf (page.concat last) = last.sequence := by simp [lastOf]
    rw [hlast]
    exact (h.lastOf_lt hs.symm (by simp)).le

end Store

theorem lastOf_append {front page : List InboxRow} (hpage : page ≠ []) : lastOf (front ++ page) = lastOf page := by
  rw [lastOf, lastOf, List.getLast?_append_of_ne_nil _ hpage]

/-! ## One step -/

namespace Following

variable {reader : Text} {s : System}

theorem start : Following reader {} where
  cursor := rfl
  front := List.prefix_refl _
  asked := by
    intro c hc
    cases hc
  held := by
    intro rows hrows
    rcases hrows with hrows | hrows <;> cases hrows
  alone := by
    intro p v hv
    cases hv
  kept := fun _ => rfl

theorem store_change (h : Following reader s) {t : Store} (hinbox : s.store.inbox <+: t.inbox)
    (hcursor : t.consumers.find? reader = s.store.consumers.find? reader) : Following reader { s with store := t } :=
  { h with
    cursor := hcursor ▸ h.cursor
    front := h.front.trans hinbox }

theorem store_same (h : Following reader s) {t : Store} (hsame : Store.Same.rel s.store t) :
    Following reader { s with store := t } := by
  obtain ⟨-, hinbox, -, hconsumers⟩ := Store.same_fields hsame
  apply h.store_change
  · rw [hinbox]
  · rw [hconsumers]

theorem forget_checked (h : Following reader s) (process : Nat) :
    Following reader { s with checked := s.checked.erase process } := by
  refine { h with alone := ?_ }
  intro p v hv
  rw [Table.find?_erase] at hv
  split at hv
  · cases hv
  · exact h.alone p v hv

/-- The page behind the cursor: nothing only where everything is settled. -/
theorem page_eq (h : Following reader s) (hs : s.store.Ordered) {c limit : Int} (hphase : s.phase = .asked c)
    {faults : List Bool} {page : List InboxRow} {t : Store}
    (hattempt : attempt (Store.readAfter c limit) faults s.store = (some page, t)) :
    s.settled ++ page <+: s.store.inbox ∧ (page = [] → s.settled = s.store.inbox) := by
  obtain ⟨u, hok, -⟩ := attempt_some hattempt
  obtain ⟨-, hlimit, hpage⟩ := Store.readAfter_ok (s := { s.store with faults }) (hs.same rfl) hok
  have hfront := h.front
  rw [hphase, Phase.page, List.append_nil] at hfront
  obtain ⟨rest, hrest⟩ := hfront
  have hafter : (s.store.inbox.filter fun r => c < r.sequence) = rest := by
    rw [h.asked c hphase]
    exact hs.filter_after hrest.symm
  rw [hafter] at hpage
  rw [hpage, ← hrest]
  constructor
  · exact (List.prefix_append_right_inj _).mpr (List.take_prefix _ _)
  · intro hnil
    rw [List.take_eq_nil_iff] at hnil
    rcases hnil with hzero | hnil
    · omega
    · rw [hnil, List.append_nil]

theorem ask (h : Following reader s) (faults : List Bool) (supply : Nat → Text) :
    Following reader (perform supply reader ⟨.ask, faults⟩ s) ∧ Advance s (perform supply reader ⟨.ask, faults⟩ s) := by
  cases hphase : s.phase with
  | asked c | holding page | checked page =>
    simp only [perform, hphase]
    exact ⟨h, .unsettled (List.prefix_refl _) rfl rfl⟩
  | idle =>
    have hsame := attempt_keeps (Store.acknowledged_keeps reader) faults s.store
    have hfront := h.front
    have hkept := h.kept
    rw [hphase] at hfront hkept
    cases hattempt : attempt (Store.acknowledged reader) faults s.store with
    | mk answer t =>
      rw [hattempt] at hsame
      have hinbox : s.store.inbox <+: t.inbox := by rw [(Store.same_fields hsame).2.1]
      have hstore := h.store_same hsame
      simp only [perform, hphase, hattempt]
      cases answer with
      | none =>
        refine ⟨{ hstore with front := ?_, asked := ?_, held := ?_, kept := hkept }, .unsettled hinbox rfl rfl⟩
        · exact hfront.trans hinbox
        · rintro c ⟨⟩
        · rintro rows (hrows | hrows) <;> cases hrows
      | some cursor =>
        obtain ⟨u, hok, -⟩ := attempt_some hattempt
        obtain ⟨-, hcursor⟩ := Store.acknowledged_ok hok
        refine ⟨{ hstore with front := ?_, asked := ?_, held := ?_, kept := hkept }, .unsettled hinbox rfl rfl⟩
        · exact hfront.trans hinbox
        · intro c hc
          cases hc
          exact hcursor.trans h.cursor
        · rintro rows (hrows | hrows) <;> cases hrows

theorem read (h : Following reader s) (hs : s.store.Ordered) (limit : Int) (faults : List Bool) (supply : Nat → Text) :
    Following reader (perform supply reader ⟨.read limit, faults⟩ s) ∧
      Advance s (perform supply reader ⟨.read limit, faults⟩ s) := by
  cases hphase : s.phase with
  | idle | holding page | checked page =>
    simp only [perform, hphase]
    exact ⟨h, .unsettled (List.prefix_refl _) rfl rfl⟩
  | asked c =>
    have hsame := attempt_keeps (Store.readAfter_keeps c limit) faults s.store
    have hfront := h.front
    have hkept := h.kept
    rw [hphase] at hfront hkept
    cases hattempt : attempt (Store.readAfter c limit) faults s.store with
    | mk answer t =>
      rw [hattempt] at hsame
      have hinbox : s.store.inbox <+: t.inbox := by rw [(Store.same_fields hsame).2.1]
      have hstore := h.store_same hsame
      simp only [perform, hphase, hattempt]
      cases answer with
      | none =>
        refine ⟨{ hstore with front := ?_, asked := ?_, held := ?_, kept := hkept }, .unsettled hinbox rfl rfl⟩
        · exact hfront.trans hinbox
        · rintro c ⟨⟩
        · rintro rows (hrows | hrows) <;> cases hrows
      | some page =>
        obtain ⟨hpage, hall⟩ := h.page_eq hs hphase hattempt
        cases page with
        | nil =>
          have hsettled : s.settled = s.store.inbox := hall rfl
          refine ⟨{ hstore with front := ?_, asked := ?_, held := ?_, kept := hkept }, ?_⟩
          · exact hfront.trans hinbox
          · rintro c ⟨⟩
          · rintro rows (hrows | hrows) <;> cases hrows
          · constructor
            · exact hinbox
            · exact List.prefix_refl _
            · exact Nat.le_succ _
            · rw [hsettled]
              exact min_le_left _ _
        | cons row rows =>
          refine ⟨{ hstore with front := ?_, asked := ?_, held := ?_, kept := ?_ }, .unsettled hinbox rfl rfl⟩
          · exact hpage.trans hinbox
          · rintro c ⟨⟩
          · rintro held (hheld | hheld)
            · cases hheld
              exact List.cons_ne_nil _ _
            · cases hheld
          · intro hinterrupted
            have hreceived : s.received = s.settled := (hkept hinterrupted).trans (List.append_nil _)
            dsimp only [Phase.page]
            rw [hreceived]

theorem writePage (h : Following reader s) (hs : s.store.Ordered) (faults : List Bool) (supply : Nat → Text) :
    Following reader (perform supply reader ⟨.writePage, faults⟩ s) ∧
      Advance s (perform supply reader ⟨.writePage, faults⟩ s) := by
  cases hphase : s.phase with
  | idle | asked c | holding page =>
    simp only [perform, hphase]
    exact ⟨h, .unsettled (List.prefix_refl _) rfl rfl⟩
  | checked page =>
    have hpage : page ≠ [] := h.held page (Or.inr hphase)
    have hfront := h.front
    have hkept := h.kept
    rw [hphase, Phase.page] at hfront hkept
    cases hattempt : attempt (Store.storeCursor reader (lastOf page)) faults s.store with
    | mk answer t =>
      simp only [perform, hphase, hattempt]
      cases answer with
      | none =>
        have hsame := Store.storeCursor_none hattempt
        have hinbox : s.store.inbox <+: t.inbox := by rw [(Store.same_fields hsame).2.1]
        refine ⟨{ h.store_same hsame with front := ?_, asked := ?_, held := ?_, kept := hkept },
          .unsettled hinbox rfl rfl⟩
        · exact hfront.trans hinbox
        · rintro c ⟨⟩
        · rintro rows (hrows | hrows)
          · cases hrows
            exact hpage
          · cases hrows
      | some _ =>
        obtain ⟨-, hinbox, -, hconsumers⟩ := Store.same_fields (Store.storeCursor_some hattempt)
        dsimp only at hinbox hconsumers
        have hstarts : s.store.inbox <+: t.inbox := by rw [hinbox]
        -- the cursor stood at the last settled row, which is before the page
        have hcursor : (t.consumers.find? reader).getD 0 = lastOf (s.settled ++ page) := by
          rw [hconsumers, Table.find?_insert_self, Option.getD_some, lastOf_append hpage]
          cases hold : s.store.consumers.find? reader with
          | none => exact max_self _
          | some old =>
            have hlast := h.cursor
            rw [hold, Option.getD_some] at hlast
            rw [Option.getD_some, hlast]
            exact max_eq_right (hs.lastOf_mono hfront hpage)
        have hempty : s.settled ++ page ++ [] = s.settled ++ page := List.append_nil _
        refine ⟨⟨hcursor, ?_, ?_, ?_, h.alone, ?_⟩, ?_⟩
        · dsimp only [Phase.page]
          rw [hempty]
          exact hfront.trans hstarts
        · rintro c ⟨⟩
        · rintro rows (hrows | hrows) <;> cases hrows
        · intro hinterrupted
          dsimp only [Phase.page]
          rw [hempty]
          exact hkept hinterrupted
        · have hlength := List.length_pos_iff.mpr hpage
          constructor
          · exact hstarts
          · exact List.prefix_append _ _
          · exact Nat.le_succ _
          · dsimp only
            rw [List.length_append]
            omega

theorem checkPage (h : Following reader s) (faults : List Bool) (supply : Nat → Text) :
    Following reader (perform supply reader ⟨.checkPage, faults⟩ s) ∧
      Advance s (perform supply reader ⟨.checkPage, faults⟩ s) := by
  cases hphase : s.phase with
  | idle | asked c | checked page =>
    simp only [perform, hphase]
    exact ⟨h, .unsettled (List.prefix_refl _) rfl rfl⟩
  | holding page =>
    have hsame := attempt_keeps (Store.checkReceived_keeps reader (lastOf page)) faults s.store
    have hpage : page ≠ [] := h.held page (Or.inl hphase)
    have hfront := h.front
    have hkept := h.kept
    rw [hphase, Phase.page] at hfront hkept
    cases hattempt : attempt (Store.checkReceived reader (lastOf page)) faults s.store with
    | mk answer t =>
      rw [hattempt] at hsame
      have hinbox : s.store.inbox <+: t.inbox := by rw [(Store.same_fields hsame).2.1]
      have hstore := h.store_same hsame
      have hheld : ∀ rows, page = rows → rows ≠ [] := fun rows hrows => hrows ▸ hpage
      simp only [perform, hphase, hattempt]
      cases answer with
      | none =>
        refine ⟨{ hstore with front := ?_, asked := ?_, held := ?_, kept := hkept }, .unsettled hinbox rfl rfl⟩
        · exact hfront.trans hinbox
        · rintro c ⟨⟩
        · rintro rows (hrows | hrows)
          · exact hheld rows (Phase.holding.inj hrows)
          · cases hrows
      | some _ =>
        refine ⟨{ hstore with front := ?_, asked := ?_, held := ?_, kept := hkept }, .unsettled hinbox rfl rfl⟩
        · exact hfront.trans hinbox
        · rintro c ⟨⟩
        · rintro rows (hrows | hrows)
          · cases hrows
          · exact hheld rows (Phase.checked.inj hrows)

/-- A restart gives up the page in hand: it was not settled. -/
theorem restartReader (h : Following reader s) (faults : List Bool) (supply : Nat → Text) :
    Following reader (perform supply reader ⟨.restartReader, faults⟩ s) ∧
      Advance s (perform supply reader ⟨.restartReader, faults⟩ s) := by
  refine ⟨{ h with front := ?_, asked := ?_, held := ?_, kept := ?_ }, .unsettled (List.prefix_refl _) rfl rfl⟩
  · change s.settled ++ [] <+: s.store.inbox
    rw [List.append_nil]
    exact (List.prefix_append _ _).trans h.front
  · rintro c ⟨⟩
  · rintro rows (hrows | hrows) <;> cases hrows
  · intro hinterrupted
    change (s.interrupted || !s.phase.page.isEmpty) = false at hinterrupted
    rw [Bool.or_eq_false_iff, Bool.not_eq_false', List.isEmpty_iff] at hinterrupted
    change s.received = s.settled ++ []
    rw [h.kept hinterrupted.1, hinterrupted.2]

end Following

theorem perform_follows {supply : Nat → Text} (hsupply : Function.Injective supply) {reader : Text} {step : Step}
    {s : System} (hs : Sound supply s) (h : Following reader s) (hstep : ¬step.acknowledgesFor reader) :
    Following reader (perform supply reader step s) ∧ Advance s (perform supply reader step s) := by
  have hinbox := (perform_spec hsupply reader step hs).1.inbox_front
  obtain ⟨operation, faults⟩ := step
  cases operation with
  | enqueue sender topic payload now answered =>
    cases hattempt : attempt (Store.enqueue sender topic payload (supply s.drawn) now) faults s.store with
    | mk answer t =>
      have hconsumers : t.consumers = s.store.consumers := by
        cases answer with
        | none =>
          obtain ⟨e, u, herror, hu⟩ := attempt_none hattempt
          rw [(Store.same_fields hu).2.2.2, (Store.same_fields (Store.enqueue_error herror)).2.2.2]
        | some id =>
          obtain ⟨u, hok, hu⟩ := attempt_some hattempt
          rw [(Store.same_fields hu).2.2.2, (Store.same_fields (Store.enqueue_ok hok).2).2.2.2]
      simp only [perform, hattempt] at hinbox ⊢
      cases answer with
      | none => exact ⟨{ h.store_change hinbox (by rw [hconsumers]) with }, .unsettled hinbox rfl rfl⟩
      | some id => exact ⟨{ h.store_change hinbox (by rw [hconsumers]) with }, .unsettled hinbox rfl rfl⟩
  | receivePending limit now =>
    obtain ⟨-, -, hconsumers⟩ := @Store.receivePending_change limit now faults _ _ _ hs.ordered rfl
    have hcursor := congrArg (fun consumers => consumers.find? reader) hconsumers
    exact ⟨h.store_change hinbox hcursor, .unsettled hinbox rfl rfl⟩
  | readAfter sequence limit =>
    have hsame := attempt_keeps (Store.readAfter_keeps sequence limit) faults s.store
    exact ⟨h.store_same hsame, .unsettled hinbox rfl rfl⟩
  | acknowledged consumer =>
    have hsame := attempt_keeps (Store.acknowledged_keeps consumer) faults s.store
    exact ⟨h.store_same hsame, .unsettled hinbox rfl rfl⟩
  | check process consumer sequence =>
    have hother : consumer ≠ reader := by
      rintro rfl
      exact hstep ⟨process, sequence, rfl⟩
    have hsame := attempt_keeps (Store.checkReceived_keeps consumer sequence) faults s.store
    cases hattempt : attempt (Store.checkReceived consumer sequence) faults s.store with
    | mk answer t =>
      rw [hattempt] at hsame
      simp only [perform, hattempt] at hinbox ⊢
      cases answer with
      | none => exact ⟨(h.store_same hsame).forget_checked process, .unsettled hinbox rfl rfl⟩
      | some _ =>
        refine ⟨{ h.store_same hsame with alone := ?_ }, .unsettled hinbox rfl rfl⟩
        intro p v hv
        rw [Table.find?_insert] at hv
        split at hv
        · cases hv
          exact hother rfl
        · exact h.alone p v hv
  | write process =>
    cases hfind : s.checked.find? process with
    | none =>
      simp only [perform, hfind]
      exact ⟨h, .unsettled (List.prefix_refl _) rfl rfl⟩
    | some pair =>
      obtain ⟨consumer, sequence⟩ := pair
      have hother : reader ≠ consumer := by
        rintro rfl
        exact h.alone process sequence hfind
      cases hattempt : attempt (Store.storeCursor consumer sequence) faults s.store with
      | mk answer t =>
        have hcursor : t.consumers.find? reader = s.store.consumers.find? reader := by
          cases answer with
          | none => rw [(Store.same_fields (Store.storeCursor_none hattempt)).2.2.2]
          | some _ =>
            rw [(Store.same_fields (Store.storeCursor_some hattempt)).2.2.2]
            exact Table.find?_insert_ne _ _ hother
        simp only [perform, hfind, hattempt] at hinbox ⊢
        exact ⟨(h.store_change hinbox hcursor).forget_checked process, .unsettled hinbox rfl rfl⟩
  | restart process => exact ⟨h.forget_checked process, .unsettled hinbox rfl rfl⟩
  | ask => exact h.ask faults supply
  | read limit => exact h.read hs.ordered limit faults supply
  | checkPage => exact h.checkPage faults supply
  | writePage => exact h.writePage hs.ordered faults supply
  | restartReader => exact h.restartReader faults supply

/-! ## Whole runs -/

theorem run_sound {supply : Nat → Text} (hsupply : Function.Injective supply) (reader : Text) (steps : List Step)
    {s : System} (h : Sound supply s) : Sound supply (run supply reader steps s) := by
  induction steps generalizing s with
  | nil => exact h
  | cons step steps ih => exact ih (perform_spec hsupply reader step h).2.1

theorem run_enqueued {supply : Nat → Text} (hsupply : Function.Injective supply) (reader : Text) (steps : List Step)
    {s : System} (h : Sound supply s) : s.enqueued <+: (run supply reader steps s).enqueued := by
  induction steps generalizing s with
  | nil => exact List.prefix_refl _
  | cons step steps ih =>
    obtain ⟨-, hsound, henqueued⟩ := perform_spec hsupply reader step h
    exact henqueued.trans (ih hsound)

theorem run_cursor {supply : Nat → Text} (hsupply : Function.Injective supply) (reader : Text) (steps : List Step)
    {s : System} (h : Sound supply s) {consumer : Text} {v : Int} (hv : s.store.consumers.find? consumer = some v) :
    ∃ w, (run supply reader steps s).store.consumers.find? consumer = some w ∧ v ≤ w := by
  induction steps generalizing s v with
  | nil => exact ⟨v, hv, le_refl v⟩
  | cons step steps ih =>
    obtain ⟨hchange, hsound, -⟩ := perform_spec hsupply reader step h
    obtain ⟨w, hw, hvw⟩ := hchange.cursor_mono hv
    obtain ⟨x, hx, hwx⟩ := ih hsound hw
    exact ⟨x, hx, hvw.trans hwx⟩

theorem run_follows {supply : Nat → Text} (hsupply : Function.Injective supply) {reader : Text} {steps : List Step}
    {s : System} (hs : Sound supply s) (h : Following reader s) (hsteps : ∀ step ∈ steps, ¬step.acknowledgesFor reader) :
    Following reader (run supply reader steps s) ∧ Advance s (run supply reader steps s) := by
  induction steps generalizing s with
  | nil => exact ⟨h, .unsettled (List.prefix_refl _) rfl rfl⟩
  | cons step steps ih =>
    have hsound := (perform_spec hsupply reader step hs).2.1
    obtain ⟨hfollowing, hadvance⟩ := perform_follows hsupply hs h (hsteps step List.mem_cons_self)
    obtain ⟨hlast, hrest⟩ := ih hsound hfollowing fun step hstep => hsteps step (List.mem_cons_of_mem _ hstep)
    exact ⟨hlast, hadvance.trans hrest ((List.prefix_append _ _).trans hfollowing.front)⟩

/-- Every id that was returned is in one of the queues, once; the inbox goes on in the outbox in the order in
which messages were queued, and no cursor is ahead of the inbox. -/
structure Delivered (s : System) : Prop where
  once : ∀ id ∈ s.returned, (s.store.outbox.map fun r => r.message.id).count id +
    (s.store.inbox.map fun r => r.message.id).count id = 1
  order : s.store.inbox.map InboxRow.message ++ s.store.outbox.map OutboxRow.message = s.enqueued
  distinct : (s.enqueued.map Message.id).Nodup
  sequences : (s.store.inbox.map InboxRow.sequence).Pairwise (· < ·)
  bounded : ∀ consumer v, s.store.consumers.find? consumer = some v → v ≤ s.store.maxSequence

theorem Sound.delivered {supply : Nat → Text} {s : System} (h : Sound supply s) : Delivered s where
  once := by
    intro id hid
    have hmem := h.returned id hid
    have hdistinct := h.ordered.distinct
    rw [← h.queue] at hmem
    have hcount := List.count_eq_one_of_mem hdistinct hmem
    rw [Store.queue, List.map_append, List.count_append, List.map_map, List.map_map, Nat.add_comm] at hcount
    exact hcount
  order := h.queue
  distinct := h.queue ▸ h.ordered.distinct
  sequences := h.ordered.sequences
  bounded := fun consumer v hv => (h.ordered.cursors consumer v hv).2

/-- From the first state on, whatever processes do and whichever statements fail, messages are delivered once
and in order, and cursors only move forward. A consumer whose name no other process acknowledges under settles
the inbox from its start, and is given each row once unless a restart takes a page from it; after as many turns
as there were rows left, it has settled them all. -/
theorem delivered_in_order (supply : Nat → Text) (hsupply : Function.Injective supply) (reader : Text)
    (steps later : List Step) (s t : System) (hs : s = run supply reader steps {}) (ht : t = run supply reader later s) :
    Delivered s ∧ s.enqueued <+: t.enqueued ∧
      (∀ consumer v, s.store.consumers.find? consumer = some v →
        ∃ w, t.store.consumers.find? consumer = some w ∧ v ≤ w) ∧
      ((∀ step ∈ steps ++ later, ¬step.acknowledgesFor reader) →
        s.settled <+: s.store.inbox ∧ (s.interrupted = false → s.received <+: s.store.inbox) ∧
        min s.store.inbox.length (s.settled.length + (t.rounds - s.rounds)) ≤ t.settled.length) := by
  subst hs
  subst ht
  have hsound := run_sound hsupply reader steps Sound.start
  refine ⟨hsound.delivered, run_enqueued hsupply reader later hsound, ?_, ?_⟩
  · intro consumer v hv
    exact run_cursor hsupply reader later hsound hv
  · intro halone
    obtain ⟨hfollowing, -⟩ := run_follows hsupply Sound.start (@Following.start reader)
      fun step hstep => halone step (List.mem_append_left _ hstep)
    obtain ⟨-, hadvance⟩ := run_follows hsupply hsound hfollowing
      fun step hstep => halone step (List.mem_append_right _ hstep)
    refine ⟨(List.prefix_append _ _).trans hfollowing.front, ?_, hadvance.progress⟩
    intro hinterrupted
    rw [hfollowing.kept hinterrupted]
    exact hfollowing.front

/-- Two messages, a receipt that fails at its last statement and one that succeeds, and a turn of the reader. -/
def exchange : List Step :=
  let sender : Peer := ⟨text "app", text "00000000-0000-4000-8000-000000000001", []⟩
  [⟨.enqueue sender (text "news") [] [] true, []⟩, ⟨.enqueue sender (text "news") [] [] true, []⟩,
    ⟨.receivePending 2 [], [false, false, false, false, false, true]⟩, ⟨.receivePending 2 [], []⟩,
    ⟨.ask, []⟩, ⟨.read 1, []⟩, ⟨.checkPage, []⟩, ⟨.writePage, []⟩]

def exchanged : System := run (fun n => List.replicate n 'a') (text "reader") exchange {}

theorem delivered_in_order_exchange :
    (exchanged.returned = [[], ['a']] ∧ exchanged.store.outbox = [] ∧ exchanged.settled.map InboxRow.sequence = [1]) ∧
      Delivered exchanged ∧ exchanged.settled <+: exchanged.store.inbox := by
  have h := delivered_in_order (fun n => List.replicate n 'a')
    (fun m n hmn => by simpa using congrArg List.length hmn) (text "reader") exchange [] exchanged exchanged rfl
    (by simp only [run, List.foldl_nil])
  refine ⟨by decide +kernel, h.1, (h.2.2.2 ?_).1⟩
  rintro step hstep ⟨process, sequence, hoperation⟩
  simp only [exchange, List.append_nil, List.mem_cons, List.not_mem_nil, or_false] at hstep
  rcases hstep with rfl | rfl | rfl | rfl | rfl | rfl | rfl | rfl <;> cases hoperation

end SocietyHelper.Delivery
