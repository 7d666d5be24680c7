import SocietyHelper.Objects.ObjectCodec
import Mathlib.Logic.Relation
import Mathlib.Order.WellFounded

/-! # Snapshots and their envelopes

A captured object is the unfolding of the objects it refers to, so one from
which a cycle is reached is never captured. An envelope is opened as the value
it was made from.
-/

namespace SocietyHelper.Objects

open Library

section

variable {Id V : Type}

/-! ## The bounds of a value -/

mutual

/-- The number of nodes of a value: its parts and itself. -/
def Variant.size : Variant Id V → Nat
  | .map entries => entriesSize entries + 1
  | .hash entries => entriesSize entries + 1
  | .list entries => listSize entries + 1
  | .snapshot _ properties => entriesSize properties + 2
  | _ => 1

def entriesSize : Entries Id V → Nat
  | [] => 0
  | e :: es => e.2.size + entriesSize es

def listSize : List (Variant Id V) → Nat
  | [] => 0
  | v :: vs => v.size + listSize vs

end

mutual

def Variant.depth : Variant Id V → Nat
  | .map entries => entriesDepth entries
  | .hash entries => entriesDepth entries
  | .list entries => listDepth entries
  | .snapshot _ properties => entriesDepth properties + 1
  | _ => 0

def entriesDepth : Entries Id V → Nat
  | [] => 0
  | e :: es => max (e.2.depth + 1) (entriesDepth es)

def listDepth : List (Variant Id V) → Nat
  | [] => 0
  | v :: vs => max (v.depth + 1) (listDepth vs)

end

/-- What a check that succeeds has counted. -/
def Counted (levels : Nat) (v : Variant Id V) (nodes n : Nat) : Prop :=
  n = nodes + v.size ∧ v.depth < levels ∧ n ≤ maximumNodes

variable {check : Variant Id V → Nat → Except Text Nat} {levels : Nat}

theorem counted_entries (hcheck : ∀ v nodes n, check v nodes = .ok n → Counted levels v nodes n)
    {es : Entries Id V} {nodes n : Nat} (hnodes : nodes ≤ maximumNodes)
    (h : es.foldlM (checkEntry check) nodes = .ok n) :
    n = nodes + entriesSize es ∧ entriesDepth es ≤ levels ∧ n ≤ maximumNodes := by
  induction es generalizing nodes with
  | nil =>
    cases h
    exact ⟨rfl, Nat.zero_le _, hnodes⟩
  | cons e es ih =>
    rw [List.foldlM_cons] at h
    cases hentry : checkEntry check nodes e with
    | error t =>
      rw [hentry] at h
      cases h
    | ok m =>
      rw [hentry] at h
      rw [checkEntry] at hentry
      split at hentry
      · obtain ⟨hm, hdepth, hle⟩ := hcheck _ _ _ hentry
        obtain ⟨hn, hrest, hbound⟩ := ih hle h
        rw [entriesSize, entriesDepth]
        exact ⟨by omega, by omega, hbound⟩
      · cases hentry

theorem counted_list (hcheck : ∀ v nodes n, check v nodes = .ok n → Counted levels v nodes n)
    {vs : List (Variant Id V)} {nodes n : Nat} (hnodes : nodes ≤ maximumNodes)
    (h : vs.foldlM (fun nodes v => check v nodes) nodes = .ok n) :
    n = nodes + listSize vs ∧ listDepth vs ≤ levels ∧ n ≤ maximumNodes := by
  induction vs generalizing nodes with
  | nil =>
    cases h
    exact ⟨rfl, Nat.zero_le _, hnodes⟩
  | cons v vs ih =>
    rw [List.foldlM_cons] at h
    cases hvalue : check v nodes with
    | error t =>
      rw [hvalue] at h
      cases h
    | ok m =>
      rw [hvalue] at h
      obtain ⟨hm, hdepth, hle⟩ := hcheck _ _ _ hvalue
      obtain ⟨hn, hrest, hbound⟩ := ih hle h
      rw [listSize, listDepth]
      exact ⟨by omega, by omega, hbound⟩

theorem checkValue_counted {T : Type} (q : Types Id T V) (levels : Nat) {v : Variant Id V} {nodes n : Nat}
    (h : q.checkValue levels v nodes = .ok n) : Counted levels v nodes n := by
  induction levels generalizing v nodes n with
  | zero => cases h
  | succ levels ih =>
    have hcheck : ∀ v nodes n, q.checkValue levels v nodes = .ok n → Counted levels v nodes n := fun _ _ _ => ih
    unfold Types.checkValue at h
    split at h
    · cases h
    next hnodes =>
      have hle : nodes + 1 ≤ maximumNodes := Nat.le_of_not_lt hnodes
      have hleaf : v.size = 1 → v.depth = 0 → n = nodes + 1 → Counted (levels + 1) v nodes n := by
        intro hsize hdepth hn
        exact ⟨by omega, by omega, by omega⟩
      split at h
      next hinvalid =>
        cases v with
        | invalid => exact hleaf (by simp only [Variant.size]) (by simp only [Variant.depth]) (Except.ok.inj h).symm
        | _ => cases hinvalid
      next type htype =>
        split at h
        · cases h
        split at h
        · cases h
        cases v with
        | snapshot className properties =>
          simp only at h
          split at h
          · obtain ⟨hn, hdepth, hbound⟩ := ih h
            simp only [Variant.size, Variant.depth, Counted] at hn hdepth ⊢
            exact ⟨by omega, by omega, hbound⟩
          · cases h
        | map entries =>
          obtain ⟨hn, hdepth, hbound⟩ := counted_entries hcheck hle h
          simp only [Variant.size, Variant.depth, Counted]
          exact ⟨by omega, by omega, hbound⟩
        | hash entries =>
          obtain ⟨hn, hdepth, hbound⟩ := counted_entries hcheck hle h
          simp only [Variant.size, Variant.depth, Counted]
          exact ⟨by omega, by omega, hbound⟩
        | list entries =>
          obtain ⟨hn, hdepth, hbound⟩ := counted_list hcheck hle h
          simp only [Variant.size, Variant.depth, Counted]
          exact ⟨by omega, by omega, hbound⟩
        | invalid => cases htype
        | null => exact hleaf (by simp only [Variant.size]) (by simp only [Variant.depth]) (Except.ok.inj h).symm
        | object target => exact hleaf (by simp only [Variant.size]) (by simp only [Variant.depth]) (Except.ok.inj h).symm
        | other value => exact hleaf (by simp only [Variant.size]) (by simp only [Variant.depth]) (Except.ok.inj h).symm

/-! ## Unfolding the graph -/

def Property.reading (p : Property Id V) : Option (QString × Variant Id V) :=
  match p.read with
  | .value v => some (p.name, v)
  | _ => none

/-- What the getters of an object read, in the order of the calls. -/
def Graph.reads (g : Graph Id V) (o : Id) : Option (Entries Id V) :=
  match (g o).toVariantMap with
  | some (.value contract) => contract
  | some _ => none
  | none => ((g o).properties.filter fun p => p.isReadable && p.isStored).mapM Property.reading

def unfoldEntry (unfold : Variant Id V → Option (Variant Id V)) (e : QString × Variant Id V) :
    Option (QString × Variant Id V) :=
  (unfold e.2).map fun u => (e.1, u)

/-- The members of a snapshot: those of the contract, or the properties by their names. -/
def Graph.arrange (g : Graph Id V) (o : Id) (es : Entries Id V) : Entries Id V :=
  if (g o).toVariantMap.isSome then es else insertAll es

mutual

/-- The tree a value unfolds to within `n` levels, each object replaced by its own values. -/
def Graph.unfold (g : Graph Id V) : Nat → Variant Id V → Option (Variant Id V)
  | 0, _ => none
  | n + 1, v =>
    match v with
    | .object none => some .null
    | .object (some o) => (Graph.unfoldObject g n o).map fun s => .snapshot s.1 s.2
    | .map values => (values.mapM (unfoldEntry (Graph.unfold g n))).map .map
    | .hash values => (values.mapM (unfoldEntry (Graph.unfold g n))).map .hash
    | .list values => (values.mapM (Graph.unfold g n)).map .list
    | v => some v

def Graph.unfoldObject (g : Graph Id V) : Nat → Id → Option (QString × Entries Id V)
  | 0, _ => none
  | n + 1, o =>
    (g.reads o).bind fun es =>
      (es.mapM (unfoldEntry (Graph.unfold g n))).map fun us => ((g o).className, g.arrange o us)

end

/-- The objects a value holds a pointer to. -/
inductive Points : Variant Id V → Id → Prop
  | object {o : Id} : Points (.object (some o)) o
  | map {es : Entries Id V} {e : QString × Variant Id V} {o : Id} (he : e ∈ es) (h : Points e.2 o) : Points (.map es) o
  | hash {es : Entries Id V} {e : QString × Variant Id V} {o : Id} (he : e ∈ es) (h : Points e.2 o) : Points (.hash es) o
  | list {vs : List (Variant Id V)} {v : Variant Id V} {o : Id} (hv : v ∈ vs) (h : Points v o) : Points (.list vs) o

/-- One object reads a value that points to the other. -/
def Graph.Refers (g : Graph Id V) (a b : Id) : Prop := ∃ es, g.reads a = some es ∧ ∃ e ∈ es, Points e.2 b

theorem mapM_mem {α β : Type} {f : α → Option β} {as : List α} {bs : List β} (h : as.mapM f = some bs)
    {a : α} (ha : a ∈ as) : ∃ b, f a = some b := by
  induction as generalizing bs with
  | nil => cases ha
  | cons c as ih =>
    rw [List.mapM_cons] at h
    obtain ⟨b, hb, h⟩ := Option.bind_eq_some_iff.mp h
    obtain ⟨rest, hrest, -⟩ := Option.bind_eq_some_iff.mp h
    cases ha with
    | head => exact ⟨b, hb⟩
    | tail _ ha => exact ih hrest ha

theorem mapM_mono {α β : Type} {f f' : α → Option β} (hf : ∀ a b, f a = some b → f' a = some b) {as : List α}
    {bs : List β} (h : as.mapM f = some bs) : as.mapM f' = some bs := by
  induction as generalizing bs with
  | nil => exact h
  | cons a as ih =>
    rw [List.mapM_cons] at h ⊢
    obtain ⟨b, hb, h⟩ := Option.bind_eq_some_iff.mp h
    obtain ⟨rest, hrest, h⟩ := Option.bind_eq_some_iff.mp h
    exact Option.bind_eq_some_iff.mpr ⟨b, hf a b hb, Option.bind_eq_some_iff.mpr ⟨rest, ih hrest, h⟩⟩

theorem unfoldEntry_eq_some {unfold : Variant Id V → Option (Variant Id V)} {e u : QString × Variant Id V} :
    unfoldEntry unfold e = some u ↔ unfold e.2 = some u.2 ∧ u.1 = e.1 := by
  rw [unfoldEntry, Option.map_eq_some_iff]
  constructor
  · rintro ⟨v, hv, rfl⟩
    exact ⟨hv, rfl⟩
  · rintro ⟨hv, hname⟩
    exact ⟨u.2, hv, by rw [← hname]⟩

/-- More levels unfold no further: a value has one unfolding. -/
theorem unfold_step (g : Graph Id V) (n : Nat) :
    (∀ v u, g.unfold n v = some u → g.unfold (n + 1) v = some u) ∧
      ∀ o s, g.unfoldObject n o = some s → g.unfoldObject (n + 1) o = some s := by
  induction n with
  | zero => exact ⟨fun _ _ h => (by cases h), fun _ _ h => (by cases h)⟩
  | succ n ih =>
    have hentry : ∀ e u, unfoldEntry (g.unfold n) e = some u → unfoldEntry (g.unfold (n + 1)) e = some u := by
      intro e u h
      rw [unfoldEntry_eq_some] at h ⊢
      exact ⟨ih.1 _ _ h.1, h.2⟩
    constructor
    · intro v u h
      unfold Graph.unfold at h ⊢
      cases v with
      | object target =>
        cases target with
        | none => exact h
        | some o =>
          obtain ⟨s, hs, rfl⟩ := Option.map_eq_some_iff.mp h
          exact Option.map_eq_some_iff.mpr ⟨s, ih.2 o s hs, rfl⟩
      | map values =>
        obtain ⟨us, hus, rfl⟩ := Option.map_eq_some_iff.mp h
        exact Option.map_eq_some_iff.mpr ⟨us, mapM_mono hentry hus, rfl⟩
      | hash values =>
        obtain ⟨us, hus, rfl⟩ := Option.map_eq_some_iff.mp h
        exact Option.map_eq_some_iff.mpr ⟨us, mapM_mono hentry hus, rfl⟩
      | list values =>
        obtain ⟨us, hus, rfl⟩ := Option.map_eq_some_iff.mp h
        exact Option.map_eq_some_iff.mpr ⟨us, mapM_mono ih.1 hus, rfl⟩
      | invalid => exact h
      | null => exact h
      | snapshot className properties => exact h
      | other value => exact h
    · intro o s h
      rw [Graph.unfoldObject] at h ⊢
      obtain ⟨es, hes, h⟩ := Option.bind_eq_some_iff.mp h
      obtain ⟨us, hus, rfl⟩ := Option.map_eq_some_iff.mp h
      exact Option.bind_eq_some_iff.mpr ⟨es, hes, Option.map_eq_some_iff.mpr ⟨us, mapM_mono hentry hus, rfl⟩⟩

theorem unfoldObject_mono {g : Graph Id V} {m n : Nat} {o : Id} {s : QString × Entries Id V} (hle : m ≤ n)
    (h : g.unfoldObject m o = some s) : g.unfoldObject n o = some s := by
  induction hle with
  | refl => exact h
  | step _ ih => exact (unfold_step g _).2 o s ih

theorem unfoldObject_unique {g : Graph Id V} {m n : Nat} {o : Id} {s t : QString × Entries Id V}
    (hs : g.unfoldObject m o = some s) (ht : g.unfoldObject n o = some t) : s = t := by
  have hs := unfoldObject_mono (Nat.le_max_left m n) hs
  have ht := unfoldObject_mono (Nat.le_max_right m n) ht
  exact Option.some.inj (hs.symm.trans ht)

/-! ## Cycles -/

/-- What unfolds refers to objects from which every path of references ends. -/
theorem unfold_acc (g : Graph Id V) (n : Nat) :
    (∀ v u o, g.unfold n v = some u → Points v o → Acc (Function.swap g.Refers) o) ∧
      ∀ o s, g.unfoldObject n o = some s → Acc (Function.swap g.Refers) o := by
  induction n with
  | zero => exact ⟨fun _ _ _ h => (by cases h), fun _ _ h => (by cases h)⟩
  | succ n ih =>
    have hentries : ∀ {es : Entries Id V} {us} {e : QString × Variant Id V} {o : Id},
        es.mapM (unfoldEntry (g.unfold n)) = some us → e ∈ es → Points e.2 o → Acc (Function.swap g.Refers) o := by
      intro es us e o h he hpoints
      obtain ⟨u, hu⟩ := mapM_mem h he
      exact ih.1 _ _ _ (unfoldEntry_eq_some.mp hu).1 hpoints
    constructor
    · intro v u o h hpoints
      unfold Graph.unfold at h
      cases hpoints with
      | object =>
        obtain ⟨s, hs, -⟩ := Option.map_eq_some_iff.mp h
        exact ih.2 _ s hs
      | map he hpoints =>
        obtain ⟨us, hus, -⟩ := Option.map_eq_some_iff.mp h
        exact hentries hus he hpoints
      | hash he hpoints =>
        obtain ⟨us, hus, -⟩ := Option.map_eq_some_iff.mp h
        exact hentries hus he hpoints
      | list hv hpoints =>
        obtain ⟨us, hus, -⟩ := Option.map_eq_some_iff.mp h
        obtain ⟨u, hu⟩ := mapM_mem hus hv
        exact ih.1 _ _ _ hu hpoints
    · intro o s h
      rw [Graph.unfoldObject] at h
      obtain ⟨es, hes, h⟩ := Option.bind_eq_some_iff.mp h
      obtain ⟨us, hus, -⟩ := Option.map_eq_some_iff.mp h
      refine Acc.intro o fun b hb => ?_
      obtain ⟨fs, hfs, e, he, hpoints⟩ := hb
      cases hes.symm.trans hfs
      exact hentries hus he hpoints

theorem acc_irrefl {α : Type} {r : α → α → Prop} {a : α} (h : Acc r a) : ¬r a a := by
  induction h with
  | intro a _ ih =>
    intro hr
    exact ih a hr hr

theorem unfoldObject_acyclic {g : Graph Id V} {n : Nat} {root o : Id} {s : QString × Entries Id V}
    (h : g.unfoldObject n root = some s) (hreach : Relation.ReflTransGen g.Refers root o) :
    ¬Relation.TransGen g.Refers o o := by
  have hacc : Acc (Function.swap g.Refers) o := by
    induction hreach with
    | refl => exact (unfold_acc g n).2 root s h
    | tail _ hrefers ih => exact ih.inv hrefers
  intro hcycle
  exact acc_irrefl hacc.transGen (Relation.transGen_swap.mpr hcycle)

/-! ## Capturing -/

theorem ok_of_bind {α β : Type} {x : Except Text α} {f : α → Except Text β} {b : β} (h : x.bind f = .ok b) :
    ∃ a, x = .ok a ∧ f a = .ok b := by
  cases x with
  | error e => cases h
  | ok a => exact ⟨a, rfl, h⟩

theorem ok_of_map {α β : Type} {x : Except Text α} {f : α → β} {b : β} (h : x.map f = .ok b) :
    ∃ a, x = .ok a ∧ f a = b := by
  cases x with
  | error e => cases h
  | ok a => exact ⟨a, rfl, Except.ok.inj h⟩

theorem eachOf_mapM {α β γ : Type} {f : α → Nat → Except Text (β × Nat)} {read : α → Option γ}
    {unfold : γ → Option β} (hf : ∀ a nodes b, f a nodes = .ok b → ∃ c, read a = some c ∧ unfold c = some b.1)
    {as : List α} {nodes : Nat} {bs : List β × Nat} (h : eachOf f as nodes = .ok bs) :
    ∃ cs, as.mapM read = some cs ∧ cs.mapM unfold = some bs.1 := by
  induction as generalizing nodes bs with
  | nil =>
    cases h
    exact ⟨[], rfl, rfl⟩
  | cons a as ih =>
    obtain ⟨b, hb, h⟩ := ok_of_bind h
    obtain ⟨rest, hrest, h⟩ := ok_of_bind h
    cases h
    obtain ⟨c, hread, hunfold⟩ := hf a nodes b hb
    obtain ⟨cs, hreads, hunfolds⟩ := ih hrest
    refine ⟨c :: cs, ?_, ?_⟩
    · simp [hread, hreads]
    · simp [hunfold, hunfolds]

theorem mapM_some {α : Type} (as : List α) : as.mapM some = some as := by
  induction as with
  | nil => rfl
  | cons a as ih => simp [ih]

theorem unfold_map {g : Graph Id V} {n : Nat} {es : Entries Id V} {u : Variant Id V}
    (h : g.unfold n (.map es) = some u) : es.mapM (unfoldEntry (g.unfold n)) = some u.toMap := by
  cases n with
  | zero => cases h
  | succ n =>
    unfold Graph.unfold at h
    obtain ⟨us, hus, rfl⟩ := Option.map_eq_some_iff.mp h
    refine mapM_mono (fun e v he => ?_) hus
    rw [unfoldEntry_eq_some] at he ⊢
    exact ⟨(unfold_step g n).1 _ _ he.1, he.2⟩

section

variable {captureValue : Variant Id V → Nat → Except Text (Variant Id V × Nat)}
  {unfold : Variant Id V → Option (Variant Id V)}
  (hvalue : ∀ v nodes u, captureValue v nodes = .ok u → unfold v = some u.1)

include hvalue

theorem captureEntry_unfold {e : QString × Variant Id V} {nodes : Nat} {u : (QString × Variant Id V) × Nat}
    (h : captureEntry captureValue e nodes = .ok u) : unfoldEntry unfold e = some u.1 := by
  obtain ⟨v, hv, rfl⟩ := ok_of_map h
  exact unfoldEntry_eq_some.mpr ⟨hvalue _ _ _ hv, rfl⟩

theorem entries_unfold {es : Entries Id V} {nodes : Nat} {us : Entries Id V × Nat}
    (h : eachOf (captureEntry captureValue) es nodes = .ok us) : es.mapM (unfoldEntry unfold) = some us.1 := by
  obtain ⟨cs, hread, hunfold⟩ :=
    eachOf_mapM (fun e nodes u hu => ⟨e, rfl, captureEntry_unfold hvalue hu⟩) h
  rw [mapM_some] at hread
  cases hread
  exact hunfold

theorem list_unfold {vs : List (Variant Id V)} {nodes : Nat} {us : List (Variant Id V) × Nat}
    (h : eachOf captureValue vs nodes = .ok us) : vs.mapM unfold = some us.1 := by
  obtain ⟨cs, hread, hunfold⟩ := eachOf_mapM (fun v nodes u hu => ⟨v, rfl, hvalue v nodes u hu⟩) h
  rw [mapM_some] at hread
  cases hread
  exact hunfold

theorem captureProperty_unfold {p : Property Id V} {nodes : Nat} {u : (QString × Variant Id V) × Nat}
    (h : captureProperty captureValue p nodes = .ok u) :
    ∃ e, p.reading = some e ∧ unfoldEntry unfold e = some u.1 := by
  obtain ⟨v, hread, h⟩ := ok_of_bind h
  have hp : p.reading = some (p.name, v) := by
    rw [Property.reading]
    cases hr : p.read with
    | threw => rw [hr] at hread; cases hread
    | destroyed => rw [hr] at hread; cases hread
    | value a => rw [hr] at hread; cases hread; rfl
  refine ⟨_, hp, ?_⟩
  cases v with
  | invalid => cases h
  | _ => exact captureEntry_unfold hvalue h

end

variable [DecidableEq Id]

/-- What is captured is the unfolding. -/
theorem capture_unfold (g : Graph Id V) (levels : Nat) :
    (∀ active v nodes u, captureValue g levels active v nodes = .ok u → g.unfold levels v = some u.1) ∧
      ∀ active o nodes s, capture g levels active o nodes = .ok s →
        ∃ root, o = some root ∧ g.unfoldObject levels root = some s.1 := by
  induction levels with
  | zero =>
    refine ⟨fun _ _ _ _ h => (by cases h), fun active o nodes s h => ?_⟩
    cases o with
    | none => cases h
    | some o =>
      unfold capture at h
      split at h <;> cases h
  | succ levels ih =>
    constructor
    · intro active v nodes u h
      have hvalue := ih.1 active
      unfold captureValue at h
      unfold Graph.unfold
      split at h
      · cases h
      cases v with
      | object target =>
        cases target with
        | none =>
          cases h
          rfl
        | some o =>
          obtain ⟨s, hs, rfl⟩ := ok_of_map h
          obtain ⟨_, hroot, hunfold⟩ := ih.2 _ _ _ _ hs
          cases hroot
          exact Option.map_eq_some_iff.mpr ⟨s.1, hunfold, rfl⟩
      | map values =>
        obtain ⟨us, hus, rfl⟩ := ok_of_map h
        exact Option.map_eq_some_iff.mpr ⟨us.1, entries_unfold hvalue hus, rfl⟩
      | hash values =>
        obtain ⟨us, hus, rfl⟩ := ok_of_map h
        exact Option.map_eq_some_iff.mpr ⟨us.1, entries_unfold hvalue hus, rfl⟩
      | list values =>
        obtain ⟨us, hus, rfl⟩ := ok_of_map h
        exact Option.map_eq_some_iff.mpr ⟨us.1, list_unfold hvalue hus, rfl⟩
      | invalid => cases h; rfl
      | null => cases h; rfl
      | snapshot className properties => cases h; rfl
      | other value => cases h; rfl
    · intro active o nodes s h
      cases o with
      | none => cases h
      | some o =>
        refine ⟨o, rfl, ?_⟩
        unfold capture at h
        unfold Graph.unfoldObject
        split at h
        · cases h
        simp only at h
        split at h
        · cases h
        split at h
        · cases h
        split at h
        next reading hcontract =>
          obtain ⟨contract, hread, h⟩ := ok_of_bind h
          cases contract with
          | none => cases h
          | some properties =>
            obtain ⟨u, hu, rfl⟩ := ok_of_map h
            have hreads : g.reads o = some properties := by
              cases reading with
              | threw => cases hread
              | destroyed => cases hread
              | value contract =>
                cases hread
                rw [Graph.reads, hcontract]
            refine Option.bind_eq_some_iff.mpr ⟨properties, hreads, Option.map_eq_some_iff.mpr
              ⟨u.1.toMap, unfold_map (ih.1 _ _ _ _ hu), ?_⟩⟩
            rw [Graph.arrange, hcontract]
            rfl
        next hcontract =>
          obtain ⟨us, hus, rfl⟩ := ok_of_map h
          obtain ⟨es, hreads, hunfold⟩ := eachOf_mapM (fun p nodes u hu => captureProperty_unfold (ih.1 _) hu) hus
          refine Option.bind_eq_some_iff.mpr ⟨es, ?_, Option.map_eq_some_iff.mpr ⟨us.1, hunfold, ?_⟩⟩
          · rw [Graph.reads, hcontract]
            exact hreads
          · rw [Graph.arrange, hcontract]
            rfl

end

/-! ## Envelopes -/

section

variable {Id T V : Type} (q : Types Id T V)

/-- Loading undoes saving a value, and takes no more than was saved. -/
def Types.Undoes (v : Variant Id V) : Prop :=
  ∀ type bytes rest, q.metaType v = some type → q.saveValue v = .done bytes →
    q.loadValue type (bytes ++ rest) = .done (v, rest)

/-- The stream operators the envelope of a value rests on undo each other. -/
def Types.Lawful : Variant Id V → Prop
  | .snapshot className properties =>
    (∀ bytes rest, q.saveString className = .done bytes → q.loadString (bytes ++ rest) = .done (className, rest)) ∧
      q.Undoes (.map properties)
  | v => q.Undoes v

/-- The type of a value is found by its name. -/
def Types.Registered (v : Variant Id V) : Prop := ∀ type, q.metaType v = some type → q.fromName (q.name type) = some type

def Types.DefaultConstructible (v : Variant Id V) : Prop := ∀ type, q.metaType v = some type → q.isDefaultConstructible type

variable {q}

theorem load_save {v : Variant Id V} {type : MetaType T} {bytes : Bytes} (hlaw : q.Lawful v)
    (htype : q.metaType v = some type) (h : q.save v = .done bytes) : q.load type bytes = .done (v, []) := by
  have hload : q.Undoes v → q.saveValue v = .done bytes → q.loadValue type bytes = .done (v, []) := by
    intro hundoes hsave
    have hrest := hundoes type bytes [] htype hsave
    rwa [List.append_nil] at hrest
  cases v with
  | snapshot className properties =>
    cases htype
    rw [Types.save] at h
    cases hhead : q.saveString className with
    | threw => rw [hhead] at h; cases h
    | failed => rw [hhead] at h; cases h
    | done head =>
      cases htail : q.saveValue (.map properties) with
      | threw => rw [hhead, htail] at h; cases h
      | failed => rw [hhead, htail] at h; cases h
      | done tail =>
        rw [hhead, htail] at h
        cases h
        have hproperties := hlaw.2 .map tail [] rfl htail
        rw [List.append_nil] at hproperties
        simp only [Types.load, hlaw.1 head tail hhead, Streamed.bind, hproperties]
  | invalid => cases htype
  | null => cases htype; exact hload hlaw h
  | object target => cases htype; exact hload hlaw h
  | map entries => cases htype; exact hload hlaw h
  | hash entries => cases htype; exact hload hlaw h
  | list entries => cases htype; exact hload hlaw h
  | other value => cases htype; exact hload hlaw h

theorem boundedBuffer_done {s : Streamed Bytes} {bytes : Bytes} (h : boundedBuffer s = .done bytes) :
    s = .done bytes ∧ bytes.length ≤ maximumStreamBytes := by
  cases s with
  | threw => cases h
  | failed => cases h
  | done b =>
    rw [boundedBuffer] at h
    split at h
    next hlength =>
      cases h
      exact ⟨rfl, hlength⟩
    · cases h

theorem encode_cases {v : Variant Id V} {payload : Payload} (h : q.encode v = .ok payload) :
    ∃ type n bytes, q.metaType v = some type ∧ q.checkValue (maximumDepth + 1) v 0 = .ok n ∧
      validName (utf16 (q.name type)) ∧ q.save v = .done bytes ∧ bytes.length ≤ maximumStreamBytes ∧
      payload = payloadOf (q.name type) (Base64.encode bytes) ∧ utf8Size payload.toJson ≤ maximumPayloadBytes := by
  rw [Types.encode] at h
  split at h
  · cases h
  next type htype =>
    obtain ⟨n, hn, h⟩ := ok_of_bind h
    split at h
    next hname =>
      split at h
      · cases h
      · cases h
      next bytes hbytes =>
        split at h
        · cases h
        next hsize =>
          obtain ⟨hsave, hlength⟩ := boundedBuffer_done hbytes
          cases h
          exact ⟨type, n, bytes, htype, hn, hname, hsave, hlength, rfl, Nat.le_of_not_lt hsize⟩
    · cases h

theorem checkValue_type {levels nodes n : Nat} {v : Variant Id V} {type : MetaType T} (htype : q.metaType v = some type)
    (h : q.checkValue levels v nodes = .ok n) :
    q.pointerType type = false ∧ q.hasRegisteredDataStreamOperators type := by
  cases levels with
  | zero => cases h
  | succ levels =>
    unfold Types.checkValue at h
    split at h
    · cases h
    simp only [htype] at h
    split at h
    · cases h
    next hpointer =>
      split at h
      · cases h
      next hstreams => exact ⟨by simpa using hpointer, by simpa using hstreams⟩

theorem toLatin1_encode (bytes : Bytes) : toLatin1 (Base64.encode bytes) = Base64.encode bytes := by
  have hall := Base64.encode_lt bytes
  rw [toLatin1]
  generalize Base64.encode bytes = t at hall
  induction t with
  | nil => rfl
  | cons c t ih =>
    have hc := hall c List.mem_cons_self
    rw [List.flatMap_cons, if_pos (by omega), ih fun d hd => hall d (List.mem_cons_of_mem c hd)]
    rfl

theorem decode_encode {v : Variant Id V} {payload : Payload} (hlaw : q.Lawful v) (hregistered : q.Registered v)
    (hdefault : q.DefaultConstructible v) (h : q.encode v = .ok payload) : q.decode payload = .ok v := by
  obtain ⟨type, n, bytes, htype, hcheck, hname, hsave, hlength, rfl, hsize⟩ := encode_cases h
  obtain ⟨hpointer, hstreams⟩ := checkValue_type htype hcheck
  have hbound : ¬(maximumPayloadBytes < utf16Size (Base64.encode bytes)) := by
    rw [Base64.utf16Size_encode]
    simp only [maximumPayloadBytes, maximumStreamBytes] at hlength ⊢
    omega
  have hformat : (payloadOf (q.name type) (Base64.encode bytes)).value "format" = .string format := rfl
  have hnamed : (payloadOf (q.name type) (Base64.encode bytes)).value "typeName" = .string (q.name type) := rfl
  have hdata : (payloadOf (q.name type) (Base64.encode bytes)).value "data" = .string (Base64.encode bytes) := rfl
  have hversion : (payloadOf (q.name type) (Base64.encode bytes)).value "version" = .other (text "1") := rfl
  have hstream : (payloadOf (q.name type) (Base64.encode bytes)).value "streamVersion" = .other streamVersion := rfl
  have hfound : (q.fromName (q.name type)).filter (fun type =>
      !q.pointerType type && q.isDefaultConstructible type && q.hasRegisteredDataStreamOperators type) = some type := by
    simp [hregistered type htype, hpointer, hdefault type htype, hstreams]
  have hbytes : (Base64.decode (Base64.encode bytes)).filter (fun b =>
      b.length ≤ maximumStreamBytes && Base64.encode b = Base64.encode bytes) = some bytes := by
    simp [Base64.decode_encode, hlength]
  have hlist : (payloadOf (q.name type) (Base64.encode bytes)).length = 5 := rfl
  rw [Types.decode, hformat, hnamed, hdata, hversion, hstream, if_neg, if_neg, if_neg]
  · simp only [Value.text_string, toLatin1_encode, hfound, hbytes, load_save hlaw htype hsave, hcheck, Except.map]
  · simpa using hname
  · simp [hsize]
  · simp [hlist, Value.isString, hbound]

theorem encodeObject_unfolds [DecidableEq Id] {g : Graph Id V} {root : Option Id} {payload : Payload}
    (h : encodeObject g q root = .ok payload) :
    ∃ o s, root = some o ∧ g.unfoldObject (maximumDepth + 1) o = some s ∧
      q.encode (.snapshot s.1 s.2) = .ok payload := by
  obtain ⟨s, hs, hencode⟩ := ok_of_bind h
  obtain ⟨o, hroot, hunfold⟩ := (capture_unfold g _).2 _ _ _ _ hs
  exact ⟨o, s.1, hroot, hunfold, hencode⟩

/-- An envelope is opened as the value it was made from, and an object is sent as its unfolding or not at all. -/
theorem envelopes_round_trip [DecidableEq Id] (q : Types Id T V) (g : Graph Id V) :
    (∀ v payload, q.encode v = .ok payload → utf8Size payload.toJson ≤ 64 * 1024 ∧
      (q.Lawful v → q.Registered v → q.DefaultConstructible v → q.decode payload = .ok v)) ∧
    (∀ root payload, encodeObject g q root = .ok payload →
      ∃ o n s, root = some o ∧ g.unfoldObject n o = some s ∧ (∀ m t, g.unfoldObject m o = some t → t = s) ∧
        q.encode (.snapshot s.1 s.2) = .ok payload ∧ (Variant.snapshot s.1 s.2).depth ≤ 16 ∧
        (Variant.snapshot s.1 s.2).size ≤ 4096 ∧
        q.checkValue (maximumDepth + 1) (.snapshot s.1 s.2) 0 = .ok (Variant.snapshot s.1 s.2).size) ∧
    ∀ root o, Relation.ReflTransGen g.Refers root o → Relation.TransGen g.Refers o o →
      ∃ e, encodeObject g q (some root) = .error e := by
  refine ⟨fun v payload h => ⟨?_, fun hlaw hregistered hdefault => decode_encode hlaw hregistered hdefault h⟩,
    fun root payload h => ?_, fun root o hreach hcycle => ?_⟩
  · obtain ⟨_, _, _, _, _, _, _, _, _, hsize⟩ := encode_cases h
    exact hsize
  · obtain ⟨o, s, hroot, hunfold, hencode⟩ := encodeObject_unfolds h
    obtain ⟨type, n, bytes, -, hcheck, -⟩ := encode_cases hencode
    obtain ⟨hn, hdepth, hbound⟩ := checkValue_counted q _ hcheck
    rw [Nat.zero_add] at hn
    subst hn
    exact ⟨o, _, s, hroot, hunfold, fun m t ht => unfoldObject_unique ht hunfold, hencode,
      Nat.le_of_lt_succ hdepth, hbound, hcheck⟩
  · cases h : encodeObject g q (some root) with
    | error e => exact ⟨e, rfl⟩
    | ok payload =>
      obtain ⟨_, s, hroot, hunfold, -⟩ := encodeObject_unfolds h
      cases hroot
      exact absurd hcycle (unfoldObject_acyclic hunfold hreach)

end

/-- One registered type, whose values are a byte each. -/
def notes (constructible : Bool) : Types Nat Unit UInt8 where
  typeOf _ := ()
  name _ := text "Note"
  isPointer _ := false
  hasDataStreamOperators _ := true
  defaultConstructible _ := constructible
  fromName name := if name = text "Note" then some (.other ()) else none
  saveString s := .done (s.map fun u => UInt8.ofNat u.toNat)
  loadString stream := .done ([], stream)
  saveValue
    | .other b => .done [b]
    | _ => .done []
  loadValue
    | .other _, b :: rest => .done (.other b, rest)
    | _, _ => .failed

/-- Two properties that hold the same object. -/
def shared : Graph Nat UInt8 := fun o => {
  onCurrentThread := true
  className := [78]
  toVariantMap := none
  properties := if o = 0 then [⟨[97], true, true, .value (.object (some 1))⟩, ⟨[98], true, true, .value (.object (some 1))⟩]
    else [⟨[97], true, true, .value (.other 7)⟩] }

theorem notes_lawful (constructible : Bool) (b : UInt8) :
    (notes constructible).Lawful (.other b) ∧ (notes constructible).Registered (.other b) := by
  constructor
  · intro type bytes rest htype hsave
    cases htype
    cases hsave
    rfl
  · intro type htype
    cases htype
    rfl

theorem envelopes_round_trip_notes :
    (notes true).decode (payloadOf (text "Note") (text "Bw==")) = .ok (.other 7) ∧
      ∃ leaf : Variant Nat UInt8, shared.unfoldObject 5 0 = some ([78], [([97], leaf), ([98], leaf)]) ∧
        (Variant.snapshot [78] [([97], leaf), ([98], leaf)]).size ≤ 4096 := by
  have henvelopes := envelopes_round_trip (notes true) shared
  obtain ⟨hlaw, hregistered⟩ := notes_lawful true 7
  have hdefault : (notes true).DefaultConstructible (.other 7) := by
    intro type htype
    cases htype
    rfl
  obtain ⟨o, n, s, hroot, -, hunique, -, -, hsize, -⟩ := henvelopes.2.1 (some 0)
    (payloadOf (text "Note") (text "Tg==")) (by rfl)
  cases hroot
  have hunfold : shared.unfoldObject 5 0 = some ([78],
      [([97], .snapshot [78] [([97], .other 7)]), ([98], .snapshot [78] [([97], .other 7)])]) := by rfl
  refine ⟨(henvelopes.1 _ _ (by rfl)).2 hlaw hregistered hdefault, _, hunfold, ?_⟩
  rw [← hunique 5 _ hunfold] at hsize
  exact hsize

/-- Nothing asks, when a value is sent, for what its receiver has to do to load it. -/
theorem construction_unchecked :
    ((notes false).Lawful (.other 7) ∧ (notes false).Registered (.other 7)) ∧
      (notes false).encode (.other 7) = .ok (payloadOf (text "Note") (text "Bw==")) ∧
      (notes false).decode (payloadOf (text "Note") (text "Bw==")) =
        .error (text "Register the receiving object's metatype and QDataStream operators before decoding.") :=
  ⟨notes_lawful false 7, by rfl, by rfl⟩

end SocietyHelper.Objects
