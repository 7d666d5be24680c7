import SocietyHelper.Discovery.AutomaticPairing

/-! # The choice of a leader

Two devices that see the same devices choose the same leader, unless an open
connection holds one of them to another. A device never sees itself, so one that
has led so far is always held.
-/

namespace SocietyHelper.Discovery

open Library

namespace AutomaticPairing

/-! ## Only one step of the pump changes the leader -/

section

variable (s : AutomaticPairing) (t : Turn)

@[simp] theorem leader_call (calls : List Call) : (s.call calls).leader = s.leader := rfl

@[simp] theorem leader_finish (now : Nat) (success : Bool) : (s.finish now success).leader = s.leader := by
  rw [finish]
  split
  · rfl
  · cases success <;> rfl

theorem leader_follow (leader : Text) : (s.follow t leader).leader = leader := by
  rw [follow]
  split
  · rename_i h
    exact h.symm
  · rfl

@[simp] theorem leader_refresh (devices : List Text) (host : Bool) : (s.refresh devices t host).leader = s.leader := rfl

@[simp] theorem leader_attend (devices : List Text) (host : Bool) : (s.attend devices t host).leader = s.leader := by
  rw [attend]
  split
  · simp
  · split
    · cases host with
      | false => rfl
      | true =>
        simp only [if_true]
        split
        · rfl
        · split
          · simp
          · split <;> simp
    · rfl

@[simp] theorem leader_acceptIncoming (host : Bool) (sender : Text) :
    (s.acceptIncoming t host sender).leader = s.leader := by
  rw [acceptIncoming]
  split
  · rfl
  · dsimp only
    split
    · simp
    · split <;> simp

@[simp] theorem leader_inviteNext : (s.inviteNext t).leader = s.leader := by
  rw [inviteNext]
  split
  · rfl
  · dsimp only
    split
    · simp
    · split <;> simp

theorem leader_pump (collate : Text → Text → Bool) (hauthenticated : t.authenticated) (henabled : s.enabled) :
    (s.pump collate t).leader = choose collate t s := by
  rw [pump]
  simp only [hauthenticated, henabled, not_true, if_false]
  have hleader : ∀ devices host, ((s.follow t (choose collate t s)).refresh devices t host).leader = choose collate t s := by
    intro devices host
    rw [leader_refresh, leader_follow]
  split
  · rw [leader_attend, hleader]
  · split
    · rw [leader_acceptIncoming, hleader]
    · rw [hleader]
    · split
      · rw [hleader]
      · split
        · rw [hleader]
        · rw [leader_inviteNext, hleader]

end

end AutomaticPairing

/-! ## Who is to lead -/

/-- A device as the others see it. -/
structure Member where
  id : Text
  autoHost : Bool
  primary : Text := []
  deriving DecidableEq

/-- The advertised primary host, or else the smallest of the available hosts, if there is one. -/
def Elected (members : List Member) (leader : Text) : Prop :=
  (∃ m ∈ members, m.primary ≠ [] ∧ leader = m.primary) ∨
  ((∀ m ∈ members, m.primary = []) ∧
    (IsLeast {id | ∃ m ∈ members, m.autoHost ∧ m.id = id} leader ∨ ((∀ m ∈ members, ¬m.autoHost) ∧ leader = [])))

def OnePrimary (members : List Member) : Prop :=
  ∀ m ∈ members, ∀ n ∈ members, m.primary ≠ [] → n.primary ≠ [] → m.primary = n.primary

theorem Elected.unique {members : List Member} (h : OnePrimary members) {a b : Text} (ha : Elected members a)
    (hb : Elected members b) : a = b := by
  cases ha with
  | inl ha =>
    obtain ⟨m, hm, hprimary, rfl⟩ := ha
    cases hb with
    | inl hb =>
      obtain ⟨n, hn, hother, rfl⟩ := hb
      exact h m hm n hn hprimary hother
    | inr hb => exact absurd (hb.1 m hm) hprimary
  | inr ha =>
    cases hb with
    | inl hb =>
      obtain ⟨n, hn, hother, rfl⟩ := hb
      exact absurd (ha.1 n hn) hother
    | inr hb =>
      cases ha.2 with
      | inl hleast =>
        cases hb.2 with
        | inl hleast' => exact hleast.unique hleast'
        | inr hnone =>
          obtain ⟨m, hm, hhost, -⟩ := hleast.1
          exact absurd hhost (hnone.1 m hm)
      | inr hnone =>
        cases hb.2 with
        | inl hleast' =>
          obtain ⟨m, hm, hhost, -⟩ := hleast'.1
          exact absurd hhost (hnone.1 m hm)
        | inr hnone' => exact hnone.2.trans hnone'.2.symm

/-- A device's own turn among others: it has no primary host and its verified rows are those of the others. -/
structure Sees (collate : Text → Text → Bool) (t : Turn) (others : List Member) : Prop where
  authenticated : t.authenticated
  own : t.primaryHost = []
  rows : ∀ m, m ∈ others ↔ ∃ e ∈ AutomaticPairing.verified collate t, m = ⟨e.id, e.autoHost, e.primary⟩

def Turn.member (t : Turn) : Member := ⟨t.deviceId, t.automaticHostAvailable, t.primaryHost⟩

theorem head?_insertionSort {l : List Text} {x : Text} (h : (l.insertionSort (· ≤ ·)).head? = some x) :
    x ∈ l ∧ ∀ y ∈ l, x ≤ y := by
  obtain ⟨rest, hsort⟩ := List.head?_eq_some_iff.mp h
  have hmem : ∀ y, y ∈ l ↔ y ∈ x :: rest := fun y => by rw [← hsort, List.mem_insertionSort]
  have hpairwise := List.pairwise_insertionSort (· ≤ ·) l
  rw [hsort] at hpairwise
  refine ⟨(hmem x).mpr List.mem_cons_self, fun y hy => ?_⟩
  cases List.mem_cons.mp ((hmem y).mp hy) with
  | inl heq => exact le_of_eq heq.symm
  | inr hrest => exact (List.pairwise_cons.mp hpairwise).1 y hrest

theorem head?_insertionSort_eq_none {l : List Text} (h : (l.insertionSort (· ≤ ·)).head? = none) : l = [] := by
  have hnil := List.head?_eq_none_iff.mp h
  have hperm := List.perm_insertionSort (· ≤ ·) l
  rw [hnil] at hperm
  exact hperm.nil_eq.symm

namespace Sees

variable {collate : Text → Text → Bool} {t : Turn} {others : List Member} (h : Sees collate t others)

include h

theorem mem_established (x : Text) :
    x ∈ ((AutomaticPairing.verified collate t).map Sighting.primary).filter (· ≠ []) ↔
      ∃ m ∈ t.member :: others, m.primary ≠ [] ∧ x = m.primary := by
  simp only [List.mem_filter, List.mem_map, decide_eq_true_eq]
  constructor
  · rintro ⟨⟨e, he, rfl⟩, hprimary⟩
    exact ⟨⟨e.id, e.autoHost, e.primary⟩, List.mem_cons_of_mem _ ((h.rows _).mpr ⟨e, he, rfl⟩), hprimary, rfl⟩
  · rintro ⟨m, hm, hprimary, rfl⟩
    cases List.mem_cons.mp hm with
    | inl heq =>
      rw [heq] at hprimary
      exact absurd h.own hprimary
    | inr hmem =>
      obtain ⟨e, he, rfl⟩ := (h.rows m).mp hmem
      exact ⟨⟨e, he, rfl⟩, hprimary⟩

theorem mem_hosts (x : Text) :
    x ∈ ((AutomaticPairing.verified collate t).filter Sighting.autoHost).map Sighting.id ++
      (if t.automaticHostAvailable then [t.deviceId] else []) ↔ ∃ m ∈ t.member :: others, m.autoHost ∧ m.id = x := by
  simp only [List.mem_append, List.mem_map, List.mem_filter, List.mem_cons]
  constructor
  · rintro (⟨e, ⟨he, hhost⟩, rfl⟩ | hown)
    · exact ⟨⟨e.id, e.autoHost, e.primary⟩, Or.inr ((h.rows _).mpr ⟨e, he, rfl⟩), hhost, rfl⟩
    · split at hown
      · rename_i hhost
        exact ⟨t.member, Or.inl rfl, hhost, (List.mem_singleton.mp hown).symm⟩
      · cases hown
  · rintro ⟨m, hm, hhost, rfl⟩
    cases hm with
    | inl heq =>
      subst heq
      have havailable : t.automaticHostAvailable := hhost
      simp [havailable, Turn.member]
    | inr hmem =>
      obtain ⟨e, he, rfl⟩ := (h.rows m).mp hmem
      exact Or.inl ⟨e, ⟨he, hhost⟩, rfl⟩

/-- A device that is not held chooses whom all choose. -/
theorem elected (s : AutomaticPairing) (hfree : AutomaticPairing.holds collate t s = false) :
    Elected (t.member :: others) (AutomaticPairing.choose collate t s) := by
  simp only [AutomaticPairing.choose, hfree, h.own, ne_eq, not_true, if_false, Bool.false_eq_true]
  cases hestablished : (AutomaticPairing.established collate t).head? with
  | some x =>
    have hx := (head?_insertionSort hestablished).1
    exact Or.inl ((h.mem_established x).mp (List.mem_dedup.mp hx))
  | none =>
    have hnone := head?_insertionSort_eq_none hestablished
    apply Or.inr
    constructor
    · intro m hm
      by_contra hprimary
      have hmem := List.mem_dedup.mpr ((h.mem_established m.primary).mpr ⟨m, hm, hprimary, rfl⟩)
      rw [hnone] at hmem
      cases hmem
    · cases hhosts : (AutomaticPairing.hosts collate t).head? with
      | some x =>
        obtain ⟨hx, hleast⟩ := head?_insertionSort hhosts
        exact Or.inl ⟨(h.mem_hosts x).mp hx, fun y hy => hleast y ((h.mem_hosts y).mpr hy)⟩
      | none =>
        have hempty := head?_insertionSort_eq_none hhosts
        refine Or.inr ⟨fun m hm hhost => ?_, rfl⟩
        have hmem := (h.mem_hosts m.id).mpr ⟨m, hm, hhost, rfl⟩
        rw [hempty] at hmem
        cases hmem

/-- A pump elects the leader exactly if a device that is held has elected it before. -/
theorem elects_iff (s : AutomaticPairing) : Elected (t.member :: others) (AutomaticPairing.choose collate t s) ↔
    (AutomaticPairing.holds collate t s → Elected (t.member :: others) s.leader) := by
  cases hheld : AutomaticPairing.holds collate t s with
  | true =>
    have hchoose : AutomaticPairing.choose collate t s = s.leader := by
      rw [AutomaticPairing.choose]
      exact if_pos hheld
    rw [hchoose]
    exact ⟨fun helected _ => helected, fun helected => helected rfl⟩
  | false =>
    constructor
    · intro _ hheld'
      cases hheld'
    · intro _
      exact h.elected s hheld

end Sees

theorem Elected.congr {members other : List Member} (h : ∀ m, m ∈ members ↔ m ∈ other) (leader : Text) :
    Elected members leader ↔ Elected other leader := by
  simp only [Elected, h]

/-- Two devices that see each other and the same others have the same leader, the elected one, after both are
pumped, exactly if each of them is free or is held to that leader. -/
theorem leaders_agree_iff (collate : Text → Text → Bool) (history history' : List PairingEvent) (t t' : Turn)
    (others : List Member) (hone : OnePrimary others) (hsees : Sees collate t (t'.member :: others))
    (hsees' : Sees collate t' (t.member :: others)) (henabled : (AutomaticPairing.run collate history).enabled)
    (henabled' : (AutomaticPairing.run collate history').enabled) :
    let s := AutomaticPairing.run collate history
    let s' := AutomaticPairing.run collate history'
    let members := t.member :: t'.member :: others
    ((s.pump collate t).leader = (s'.pump collate t').leader ∧ Elected members (s.pump collate t).leader) ↔
      (AutomaticPairing.holds collate t s → Elected members s.leader) ∧
      (AutomaticPairing.holds collate t' s' → Elected members s'.leader) := by
  dsimp only
  have hmembers : OnePrimary (t.member :: t'.member :: others) := by
    have hothers : ∀ m ∈ t.member :: t'.member :: others, m.primary ≠ [] → m ∈ others := by
      intro m hm hprimary
      cases List.mem_cons.mp hm with
      | inl heq =>
        rw [heq] at hprimary
        exact absurd hsees.own hprimary
      | inr hrest =>
        cases List.mem_cons.mp hrest with
        | inl heq =>
          rw [heq] at hprimary
          exact absurd hsees'.own hprimary
        | inr hmem => exact hmem
    intro m hm n hn hprimary hother
    exact hone m (hothers m hm hprimary) n (hothers n hn hother) hprimary hother
  have hswap : ∀ leader, Elected (t.member :: t'.member :: others) leader ↔
      Elected (t'.member :: t.member :: others) leader :=
    Elected.congr fun m => (List.Perm.swap _ _ _).mem_iff
  rw [AutomaticPairing.leader_pump _ _ _ hsees.authenticated henabled,
    AutomaticPairing.leader_pump _ _ _ hsees'.authenticated henabled', ← hsees.elects_iff, hswap (AutomaticPairing.leader _),
    ← hsees'.elects_iff, ← hswap]
  constructor
  · rintro ⟨heq, helected⟩
    exact ⟨helected, heq ▸ helected⟩
  · rintro ⟨helected, helected'⟩
    exact ⟨helected.unique hmembers helected', helected⟩

section

theorem Sees.of_map {collate : Text → Text → Bool} {t : Turn} {others : List Member}
    (hauthenticated : t.authenticated) (hown : t.primaryHost = [])
    (hrows : (AutomaticPairing.verified collate t).map (fun e => ⟨e.id, e.autoHost, e.primary⟩) = others) :
    Sees collate t others where
  authenticated := hauthenticated
  own := hown
  rows m := by
    rw [← hrows, List.mem_map]
    simp only [eq_comm]

def byName (a b : Text) : Bool := a ≤ b

/-- Two desktops `a` and `b` and a phone `c`. -/
def seen (id : Text) (autoHost : Bool) : Sighting := ⟨id, id, true, autoHost, [], 0⟩

def first : Turn := { deviceId := ['a'], automaticHostAvailable := true, endpoints := [seen ['b'] true, seen ['c'] false] }

def second : Turn := { deviceId := ['b'], automaticHostAvailable := true, endpoints := [seen ['a'] true, seen ['c'] false] }

theorem leaders_agree_iff_fresh :
    ((AutomaticPairing.run byName []).pump byName first).leader = ((AutomaticPairing.run byName []).pump byName second).leader ∧
      Elected [first.member, second.member, ⟨['c'], false, []⟩] ((AutomaticPairing.run byName []).pump byName first).leader :=
  (leaders_agree_iff byName [] [] first second [⟨['c'], false, []⟩] (by simp [OnePrimary])
    (Sees.of_map rfl rfl (by decide)) (Sees.of_map rfl rfl (by decide)) rfl rfl).mpr
      ⟨fun hheld => absurd hheld (by decide), fun hheld => absurd hheld (by decide)⟩

/-- Alone with the phone, `b` has led and has connected to it. -/
def alone : List PairingEvent :=
  [.pump { deviceId := ['b'], automaticHostAvailable := true, endpoints := [seen ['c'] false] }, .paired ['c']]

/-- Now that `a` is there, `b` stays with itself, which it never sees, and `a` leads too. -/
theorem leaders_disagree :
    let connected := { second with connected := true, pairedDeviceIds := [['c']] }
    OnePrimary [⟨['c'], false, []⟩] ∧ Sees byName first [connected.member, ⟨['c'], false, []⟩] ∧
      Sees byName connected [first.member, ⟨['c'], false, []⟩] ∧ (AutomaticPairing.run byName alone).enabled ∧
      ((AutomaticPairing.run byName []).pump byName first).leader = ['a'] ∧
      ((AutomaticPairing.run byName alone).pump byName connected).leader = ['b'] := by
  refine ⟨by simp [OnePrimary], Sees.of_map rfl rfl (by decide), Sees.of_map rfl rfl (by decide), ?_, ?_, ?_⟩
  · decide
  · decide
  · decide

end

end SocietyHelper.Discovery
