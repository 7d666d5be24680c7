import SocietyHelper.Discovery.NearbyDevices

/-! # An invitation is presented at most once

The token of an invitation stays in the table of seen requests for longer than
its link is valid, unless the table is emptied because it has grown too long.
-/

namespace SocietyHelper.Discovery

open Library

/-- No invitation has been presented twice, and the token of one whose link is valid is in the table. -/
structure Presented (lib : Platform) (s : NearbyDevices) : Prop where
  once : s.presented.Nodup
  kept : ∀ i ∈ s.presented, ∀ link, lib.decode i.link = some link → s.now < link.expiresAt →
    ∃ expires, s.seenRequests.find? i.request = some expires ∧ link.expiresAt ≤ expires

/-- A step that neither presents an invitation nor touches the table. -/
structure Quiet (s t : NearbyDevices) : Prop where
  presented : t.presented = s.presented
  now : t.now = s.now
  seenRequests : t.seenRequests = s.seenRequests

theorem Quiet.refl (s : NearbyDevices) : Quiet s s := ⟨rfl, rfl, rfl⟩

theorem Quiet.trans {s t u : NearbyDevices} (h : Quiet s t) (h' : Quiet t u) : Quiet s u :=
  ⟨h'.presented.trans h.presented, h'.now.trans h.now, h'.seenRequests.trans h.seenRequests⟩

namespace Quiet

variable (lib : Platform) (s : NearbyDevices)

theorem decline : Quiet s s.decline := ⟨rfl, rfl, rfl⟩

theorem cancel : Quiet s s.cancel := ⟨rfl, rfl, rfl⟩

theorem accept : Quiet s (s.accept lib) := by
  rw [NearbyDevices.accept]
  cases s.incoming with
  | none => exact decline s
  | some incoming =>
    dsimp only
    split
    · exact decline s
    · cases s.endpoint (.string incoming.sender) none with
      | none => exact decline s
      | some peer =>
        dsimp only
        split
        · exact decline s
        · exact ⟨rfl, rfl, rfl⟩

theorem found (service : Text) (record : Object) (address : Text) (port : Nat) (localAddress freshProof : Bool) :
    Quiet s (s.found lib service record address port localAddress freshProof) := by
  rw [NearbyDevices.found]
  split
  · exact refl s
  · dsimp only
    split
    · exact refl s
    · cases freshProof with
      | false =>
        simp only [Bool.false_eq_true, if_false]
        split
        · exact ⟨rfl, rfl, rfl⟩
        · split
          · exact ⟨rfl, rfl, rfl⟩
          · exact ⟨rfl, rfl, rfl⟩
      | true =>
        simp only [if_true]
        split
        · exact ⟨rfl, rfl, rfl⟩
        · split
          · exact ⟨rfl, rfl, rfl⟩
          · exact ⟨rfl, rfl, rfl⟩

theorem receiveAnswer (p : Object) (automatic : Bool) : Quiet s (s.receiveAnswer p automatic) := by
  rw [NearbyDevices.receiveAnswer]
  cases s.outgoing with
  | none => exact refl s
  | some outgoing =>
    dsimp only
    split
    · exact refl s
    · split
      · split
        · exact ⟨rfl, rfl, rfl⟩
        · exact refl s
      · split
        · exact ⟨rfl, rfl, rfl⟩
        · exact refl s

theorem receiveCancel (p : Object) (automatic : Bool) : Quiet s (s.receiveCancel p automatic) := by
  rw [NearbyDevices.receiveCancel]
  cases s.incoming with
  | none => exact refl s
  | some incoming =>
    dsimp only
    split
    · exact ⟨rfl, rfl, rfl⟩
    · exact refl s

theorem invite (id link nonce : Text) (automatic : Bool) : Quiet s (s.invite lib id link nonce automatic) := by
  rw [NearbyDevices.invite]
  cases s.endpoint (.string id) none with
  | none => exact refl s
  | some peer =>
    cases lib.decode link with
    | none => exact refl s
    | some decoded =>
      dsimp only
      split
      · exact refl s
      · exact ⟨rfl, rfl, rfl⟩

end Quiet

namespace Presented

variable {lib : Platform} {s t : NearbyDevices} (h : Presented lib s)

include h

theorem quiet (hquiet : Quiet s t) : Presented lib t where
  once := hquiet.presented ▸ h.once
  kept i hi link hlink hnow := by
    rw [hquiet.presented] at hi
    rw [hquiet.now] at hnow
    rw [hquiet.seenRequests]
    exact h.kept i hi link hlink hnow

theorem wait (elapsed : Nat) : Presented lib (s.wait elapsed) where
  once := h.once
  kept i hi link hlink hnow := h.kept i hi link hlink (Nat.lt_of_le_of_lt (Nat.le_add_right _ _) hnow)

/-- One more token in the table does no harm. -/
theorem remember {request : Text} (hnew : request ∉ s.seenRequests.keys) (expires : Nat) :
    Presented lib { s with seenRequests := s.seenRequests.insert request expires } where
  once := h.once
  kept i hi link hlink hnow := by
    obtain ⟨v, hv, hle⟩ := h.kept i hi link hlink hnow
    have hne : i.request ≠ request := by
      rintro heq
      exact hnew ((s.seenRequests.mem_keys_iff request).mpr ⟨v, heq ▸ hv⟩)
    exact ⟨v, (s.seenRequests.find?_insert_ne expires hne).trans hv, hle⟩

theorem receiveResume (d : Datagram) : Presented lib (s.receiveResume lib d) := by
  rw [NearbyDevices.receiveResume]
  split
  · exact h
  · split
    · split
      · exact h
      · rename_i hfree
        simp only [not_or] at hfree
        exact (h.remember hfree.2.2.2.2.1 _).quiet (Quiet.found lib _ _ _ _ _ _ _)
    · split
      · exact h
      · split
        · exact h
        · refine h.quiet (Quiet.trans ?_ (Quiet.found lib _ _ _ _ _ _ _))
          exact ⟨rfl, rfl, rfl⟩

theorem receiveInvite (p : Object) (peer : Endpoint) (automatic : Bool) :
    Presented lib (s.receiveInvite lib p peer automatic) := by
  rw [NearbyDevices.receiveInvite]
  cases hdecode : lib.decode (p.value "link").text with
  | none => exact h
  | some link =>
    dsimp only
    split
    · exact h
    · rename_i hvalid
      simp only [not_or, Nat.not_le, Nat.not_lt] at hvalid
      obtain ⟨-, -, hnew, -, -, hnow, hbound⟩ := hvalid
      split
      · exact h
      · have hremember := h.remember hnew (s.now + 70000)
        constructor
        · refine List.nodup_cons.mpr ⟨fun hmem => ?_, h.once⟩
          obtain ⟨v, hv, -⟩ := h.kept _ hmem link hdecode hnow
          exact hnew ((s.seenRequests.mem_keys_iff _).mpr ⟨v, hv⟩)
        · intro i hi other hother hlater
          cases List.mem_cons.mp hi with
          | inl heq =>
            subst heq
            rw [hdecode] at hother
            cases hother
            refine ⟨s.now + 70000, s.seenRequests.find?_insert_self _ _, ?_⟩
            omega
          | inr hmem => exact hremember.kept i hmem other hother hlater

theorem receive (d : Datagram) : Presented lib (s.receive lib d) := by
  rw [NearbyDevices.receive]
  split
  · exact h
  · split
    · exact h.receiveResume d
    · cases s.endpoint (.string (d.packet.members.value "from").text) (some (d.address, d.port)) with
      | none => exact h
      | some peer =>
        dsimp only
        split
        · exact h
        · split
          · exact h
          · split
            · exact h.receiveInvite _ _ _
            · split
              · exact h.quiet (Quiet.receiveAnswer s _ _)
              · split
                · exact h.quiet (Quiet.receiveCancel s _ _)
                · exact h

theorem tick (hfits : s.remembered.rows.length ≤ 128) : Presented lib s.tick where
  once := h.once
  kept i hi link hlink hnow := by
    obtain ⟨v, hv, hle⟩ := h.kept i hi link hlink hnow
    refine ⟨v, ?_, hle⟩
    have hlater : s.now < v := Nat.lt_of_lt_of_le hnow hle
    have hremembered : s.remembered.find? i.request = some v := by
      rw [NearbyDevices.remembered, Table.find?_filter, hv]
      exact Option.filter_eq_some_iff.mpr ⟨rfl, decide_eq_true hlater⟩
    have htick : s.tick.seenRequests = s.remembered := if_neg (Nat.not_lt.mpr hfits)
    rw [htick]
    exact hremembered

end Presented

/-- Whether a step leaves the table: no tick finds more than 128 tokens that have not expired. -/
def fits (s : NearbyDevices) : Action → Bool
  | .tick => s.remembered.rows.length ≤ 128
  | _ => true

def allFit (lib : Platform) : NearbyDevices → List (Nat × Action) → Bool
  | _, [] => true
  | s, action :: actions =>
    fits (s.wait action.1) action.2 && allFit lib ((s.wait action.1).act lib action.2) actions

theorem Presented.act {lib : Platform} {s : NearbyDevices} (h : Presented lib s) (action : Action)
    (hfits : fits s action) : Presented lib (s.act lib action) := by
  cases action with
  | receive d => exact h.receive d
  | tick => exact h.tick (of_decide_eq_true hfits)
  | accept => exact h.quiet (Quiet.accept lib s)
  | decline => exact h.quiet (Quiet.decline s)
  | cancel => exact h.quiet (Quiet.cancel s)
  | complete => exact h.quiet ⟨rfl, rfl, rfl⟩
  | found service record address port localAddress => exact h.quiet (Quiet.found lib s service record address port localAddress false)
  | lost service => exact h.quiet ⟨rfl, rfl, rfl⟩
  | invite id link nonce automatic => exact h.quiet (Quiet.invite lib s id link nonce automatic)
  | setCredentials hostAvailable primaryHost => exact h.quiet ⟨rfl, rfl, rfl⟩
  | setResume host challenge routes => exact h.quiet ⟨rfl, rfl, rfl⟩

theorem Presented.run {lib : Platform} {s : NearbyDevices} (h : Presented lib s) {actions : List (Nat × Action)}
    (hfits : allFit lib s actions) : Presented lib (s.run lib actions) := by
  induction actions generalizing s with
  | nil => exact h
  | cons action actions ih =>
    rw [allFit, Bool.and_eq_true] at hfits
    exact ih ((h.wait action.1).act action.2 hfits.1) hfits.2

/-- As long as the table is never emptied, no invitation is presented twice. -/
theorem presented_once (lib : Platform) (now : Nat) (record : Object) (actions : List (Nat × Action))
    (hfits : allFit lib (.start now record) actions) : ((NearbyDevices.start now record).run lib actions).presented.Nodup := by
  have hstart : Presented lib (.start now record) := by
    constructor
    · exact List.nodup_nil
    · intro i hi
      cases hi
  exact (hstart.run hfits).once

section

/-- One host, `m`, whose link is good for a minute. -/
def Platform.sample : Platform where
  decode link := if link = text "link" then some ⟨['m'], [text "10.0.0.2"], 60000⟩ else none
  verify _ _ := false
  verifyPacket _ _ := false

def object (members : List (String × Text)) : Object := Table.empty.insertAll (members.map fun m => (text m.1, .string m.2))

def device (id : Text) : Object :=
  object [("v", ['1']), ("scope", List.replicate 64 'a'), ("id", id), ("nonce", ['n']), ("name", id), ("kind", text "pc"),
    ("host", ['1'])]

def fromHost (op : String) (request : Nat) : Action :=
  .receive ⟨⟨object [("v", ['1']), ("op", text op), ("scope", List.replicate 64 'a'), ("from", ['m']), ("to", ['d']),
    ("request", decimal request), ("nonce", ['n']), ("link", text "link")], .empty⟩, text "10.0.0.2", 7, 500, true⟩

/-- The host is discovered, invites and is declined; a copy of its packet arrives after a tick. -/
theorem presented_once_declined : ((NearbyDevices.start 1000 (device ['d'])).run .sample
    [(0, .found ['s'] (device ['m']) (text "10.0.0.2") 7 true), (0, fromHost "invite" 0), (10, .decline), (1000, .tick),
      (10, fromHost "invite" 0)]).presented.Nodup :=
  presented_once .sample 1000 (device ['d']) _ (by decide +kernel)

/-- The host invites and cancels with 129 tokens, one after the other; then there is a tick and a copy of the first. -/
def flood : List (Nat × Action) :=
  (0, .found ['s'] (device ['m']) (text "10.0.0.2") 7 true) ::
    (List.range 129).flatMap (fun request => [(0, fromHost "invite" request), (0, fromHost "cancel" request)]) ++
    [(1000, .tick), (0, fromHost "invite" 0)]

theorem presented_twice : ¬((NearbyDevices.start 1000 (device ['d'])).run .sample flood).presented.Nodup := by
  decide +kernel

end

end SocietyHelper.Discovery
