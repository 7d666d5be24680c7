import SocietyHelper.Library.Sorting
import SocietyHelper.Library.Utf16
import SocietyHelper.Sync.Record
import Mathlib.Data.Prod.Lex
import Mathlib.Data.List.Lex

/-! # The order in which a list is applied

A session applies the entries of a list one after the other, so directories have
to come before what goes into them, and what is below a path has to be gone
before the path is. Priorities move whole kinds of entries and leave the rest of
the order as it was.
-/

namespace SocietyHelper.Sync

open Library

namespace Synchronizer

def applicationRank (e : Entry) : Nat := if e.isKind directory then 0 else if e.isKind file then 2 else 1

def slashes (t : Text) : Nat := t.count '/'

/-- The units by which strings are compared. -/
def units (t : Text) : List Nat := (utf16 t).map UInt16.toNat

/-- The comparison of `order`. -/
def before (a b : Entry) : Bool :=
  let pa := a.path.text
  let pb := b.path.text
  let sa := (toLongLong a.size.text).getD 0
  let sb := (toLongLong b.size.text).getD 0
  if applicationRank a ≠ applicationRank b then applicationRank a < applicationRank b
  else if applicationRank a = 2 ∧ sa ≠ sb then sa < sb
  else if slashes pa ≠ slashes pb then
    if applicationRank a = 1 then slashes pb < slashes pa else slashes pa < slashes pb
  else units pa < units pb

def order (std : Sorter before) (entries : List Entry) : List Entry := std.sort entries

/-- A newly completed local output precedes older files. -/
def newer (a b : Entry) : Bool :=
  let directoryA := a.isKind directory
  let directoryB := b.isKind directory
  if directoryA ≠ directoryB then directoryA
  else !directoryA && (toLongLong b.sequence.text).getD 0 < (toLongLong a.sequence.text).getD 0

/-- What the priorities depend on. -/
structure Selection where
  metadataFirst : Bool
  bootstrapping : Bool
  record : Text → Entry
  resident : Text → Bool
  objectMetadata : Text → Entry
  requested : List Text
  photoIdentities : List Text

namespace Selection

variable (s : Selection)

def metadataOnly (entry : Entry) : Bool :=
  if !s.metadataFirst || !entry.isKind file then false
  else
    let path := entry.path.text
    let local_ := s.record path
    let bytes := (toLongLong entry.size.text).getD 0
    let identity := s.photoIdentities.contains path ||
      ((text "models/").isPrefixOf path && (text "/model_index.json").isSuffixOf path && bytes ≤ 1048576)
    let pending := !local_.isEmpty && !local_.revision.defined
    !identity && !s.requested.contains path && !pending && !local_.isKind directory

def hasLocalPayload (entry : Entry) : Bool :=
  let path := entry.path.text
  let local_ := s.record path
  entry.isKind file && local_.isKind file && local_.hash = entry.hash && local_.size = entry.size && s.resident path

def priority (entry : Entry) : Nat :=
  let kind := entry.kind.text
  if kind = directory then 0 else if kind ≠ file then 1
  else if s.metadataOnly entry then 2 else if s.hasLocalPayload entry then 3
  else if s.requested.contains entry.path.text then 4 else 5

/-- A table by path: of entries with one path, the last one counts. -/
def priorities (entries : List Entry) (path : Text) : Nat :=
  match entries.reverse.find? fun e => e.path.text = path with
  | some e => s.priority e
  | none => 0

def orderDownloads (std : Sorter before) (entries : List Entry) : List Entry :=
  let entries := order std entries
  if !s.metadataFirst then entries
  else
    let priorities := s.priorities entries
    stableSort (fun a b => priorities a.path.text < priorities b.path.text) entries

def fresh (outgoing : List Entry) : List Entry :=
  outgoing.filter fun e =>
    (e.kind.text = directory || e.kind.text = file) && (s.objectMetadata e.path.text).isEmpty

/-- The list that is pushed early, where there is one. -/
def beginNewUploads (std : Sorter before) (outgoing : List Entry) : Option (List Entry) :=
  if !s.metadataFirst || s.bootstrapping then none
  else if s.fresh outgoing = [] then none
  else some (stableSort newer (order std (s.fresh outgoing)))

end Selection

/-! ## The comparisons are strict weak orders -/

/-- What `before` compares, the most important first. -/
def key (e : Entry) : ℕ ×ₗ ℤ ×ₗ ℤ ×ₗ List ℕ :=
  let size := if applicationRank e = 2 then (toLongLong e.size.text).getD 0 else 0
  let depth : ℤ := if applicationRank e = 1 then -slashes e.path.text else slashes e.path.text
  toLex (applicationRank e, toLex (size, toLex (depth, units e.path.text)))

/-- One comparison after the other is the lexicographic order. -/
theorem lex_iff {β : Type} [LinearOrder β] (x y : β) (rest : Bool) :
    (if x ≠ y then decide (x < y) else rest) = true ↔ x < y ∨ x = y ∧ rest := by
  by_cases h : x = y
  · simp [h]
  · simp [h]

theorem before_iff_key (a b : Entry) : before a b ↔ key a < key b := by
  simp only [key, Prod.Lex.toLex_lt_toLex, before]
  rw [lex_iff]
  refine or_congr Iff.rfl (and_congr_right fun hrank => ?_)
  rw [← hrank]
  by_cases hfile : applicationRank a = 2
  · simp only [hfile, true_and, if_true, lex_iff, Nat.cast_lt, Nat.cast_inj, decide_eq_true_eq,
      show (2 : ℕ) ≠ 1 by decide, if_false]
  · by_cases hdeleted : applicationRank a = 1
    · by_cases hdepth : slashes a.path.text = slashes b.path.text
      · simp [hdeleted, hdepth]
      · simp [hdeleted, hdepth]
    · simp only [hfile, hdeleted, false_and, if_false, lex_iff, Nat.cast_lt, Nat.cast_inj, decide_eq_true_eq,
        lt_irrefl, true_and, false_or]

theorem strictWeak_before : IsStrictWeakOrder Entry fun a b => before a b := strictWeak_of_key key before_iff_key

def newerKey (e : Entry) : ℕ ×ₗ ℤ :=
  if e.isKind directory then toLex (0, 0) else toLex (1, -(toLongLong e.sequence.text).getD 0)

theorem newer_iff_key (a b : Entry) : newer a b ↔ newerKey a < newerKey b := by
  simp only [newer, newerKey]
  cases ha : a.isKind directory <;> cases hb : b.isKind directory <;> simp [Prod.Lex.toLex_lt_toLex]

theorem strictWeak_newer : IsStrictWeakOrder Entry fun a b => newer a b := strictWeak_of_key newerKey newer_iff_key

/-! ## No entry has to wait for a later one -/

/-- One path lies below another. -/
def Below (path parent : Text) : Prop := parent ++ ['/'] <+: path

def live (e : Entry) : Bool := e.isKind directory || e.isKind file

/-- A directory comes before what lives in it, and what is deleted below a path before that
path is deleted or becomes a file. -/
inductive MustPrecede (a b : Entry) : Prop where
  | parent : a.isKind directory → live b → Below b.path.text a.path.text → MustPrecede a b
  | deletion : a.isKind deleted → b.isKind deleted ∨ b.isKind file → Below a.path.text b.path.text → MustPrecede a b

/-- Applied from left to right, no entry stands before one that has to precede it. -/
def Unblocked (entries : List Entry) : Prop :=
  ∀ i j (hi : i < entries.length) (hj : j < entries.length), MustPrecede entries[i] entries[j] → i < j

theorem slashes_below {path parent : Text} (h : Below path parent) : slashes parent < slashes path := by
  obtain ⟨rest, rfl⟩ := h
  simp only [slashes, List.count_append, List.count_singleton_self]
  omega

theorem isKind_iff {e : Entry} {kind : Text} : e.isKind kind ↔ e.kind = .string kind := decide_eq_true_iff

theorem rank_directory {e : Entry} (h : e.isKind directory) : applicationRank e = 0 := if_pos h

theorem rank_file {e : Entry} (h : e.isKind file) : applicationRank e = 2 := by
  have hkind := isKind_iff.mp h
  rw [applicationRank, Entry.isKind, Entry.isKind, hkind]
  rfl

theorem rank_deleted {e : Entry} (h : e.isKind deleted) : applicationRank e = 1 := by
  have hkind := isKind_iff.mp h
  rw [applicationRank, Entry.isKind, Entry.isKind, hkind]
  rfl

theorem before_of_mustPrecede {a b : Entry} (h : MustPrecede a b) : before a b := by
  cases h with
  | parent ha hb hbelow =>
    have hdepth := slashes_below hbelow
    rw [live, Bool.or_eq_true] at hb
    rcases hb with hb | hb
    · simp [before, rank_directory ha, rank_directory hb, hdepth.ne, hdepth]
    · simp [before, rank_directory ha, rank_file hb]
  | deletion ha hb hbelow =>
    have hdepth := slashes_below hbelow
    rcases hb with hb | hb
    · simp [before, rank_deleted ha, rank_deleted hb, hdepth.ne', hdepth]
    · simp [before, rank_deleted ha, rank_file hb]

theorem unblocked_of_pairwise {l : List Entry} (h : l.Pairwise fun a b => ¬MustPrecede b a) : Unblocked l := by
  intro i j hi hj hmust
  rcases Nat.lt_trichotomy i j with hij | rfl | hji
  · exact hij
  · exact absurd (before_of_mustPrecede hmust) (strictWeak_before.irrefl _)
  · exact absurd hmust (List.pairwise_iff_getElem.mp h j i hj hi hji)

section

variable (std : Sorter before) {entries : List Entry}

theorem order_keeps (entries : List Entry) : (order std entries).Pairwise fun a b => ¬MustPrecede b a :=
  (std.ordered entries).imp fun {a b} hab (hmust : MustPrecede b a) =>
    Bool.false_ne_true (hab.symm.trans (before_of_mustPrecede hmust))

/-- Moving entries by a priority blocks nothing, where it never puts one before what has to precede it. -/
theorem stableSort_unblocked {less : Entry → Entry → Bool} (hless : IsStrictWeakOrder Entry fun a b => less a b)
    (hprior : ∀ a ∈ entries, ∀ b ∈ entries, MustPrecede a b → less b a = false) :
    Unblocked (stableSort less (order std entries)) := by
  refine unblocked_of_pairwise ((stableSort_keeps hless (order_keeps std entries)).imp_of_mem ?_)
  intro a b ha hb hab hmust
  have hmem : ∀ e, e ∈ stableSort less (order std entries) → e ∈ entries := fun e he =>
    (std.perm entries).mem_iff.mp ((stableSort_perm less _).mem_iff.mp he)
  rcases hab with hab | hab
  · exact Bool.false_ne_true ((hprior b (hmem b hb) a (hmem a ha) hmust).symm.trans hab)
  · exact hab hmust

namespace Selection

variable (s : Selection)

theorem priority_le {a b : Entry} (h : MustPrecede a b) : s.priority a ≤ s.priority b := by
  cases h with
  | parent ha hb hbelow =>
    have hkind := isKind_iff.mp ha
    have hzero : s.priority a = 0 := by
      rw [priority, hkind]
      exact if_pos rfl
    omega
  | deletion ha hb hbelow =>
    have hone : s.priority a = 1 := by
      rw [priority, isKind_iff.mp ha]
      exact (if_neg (by decide)).trans (if_pos (by decide))
    have hmore : 1 ≤ s.priority b := by
      have hnot : b.kind.text ≠ directory := by
        rcases hb with hb | hb <;> rw [isKind_iff.mp hb] <;> decide
      rw [priority, if_neg hnot]
      repeat' split
      all_goals omega
    omega

/-- With different paths, each entry has its own priority. -/
theorem priorities_mem (hpaths : (entries.map fun e => e.path.text).Nodup) {e : Entry} (he : e ∈ entries) :
    s.priorities entries e.path.text = s.priority e := by
  rw [priorities]
  cases hfind : entries.reverse.find? fun d => d.path.text = e.path.text with
  | none =>
    have hnone := List.find?_eq_none.mp hfind e (List.mem_reverse.mpr he)
    simp at hnone
  | some d =>
    have hpath : d.path.text = e.path.text := by simpa using List.find?_some hfind
    have hd : d ∈ entries := List.mem_reverse.mp (List.mem_of_find?_eq_some hfind)
    rw [List.inj_on_of_nodup_map hpaths hd he hpath]

theorem orderDownloads_perm (entries : List Entry) : (s.orderDownloads std entries).Perm entries := by
  rw [orderDownloads]
  split
  · exact std.perm entries
  · exact (stableSort_perm _ _).trans (std.perm entries)

theorem orderDownloads_unblocked (hpaths : (entries.map fun e => e.path.text).Nodup) :
    Unblocked (s.orderDownloads std entries) := by
  rw [orderDownloads]
  split
  · exact unblocked_of_pairwise (order_keeps std entries)
  · have hperm := std.perm entries
    have hsorted : ((order std entries).map fun e => e.path.text).Nodup := (hperm.map _).nodup_iff.mpr hpaths
    have hown : ∀ e ∈ entries, s.priorities (order std entries) e.path.text = s.priority e := fun e he =>
      s.priorities_mem hsorted (hperm.mem_iff.mpr he)
    refine stableSort_unblocked std (strictWeak_of_key (fun e => s.priorities (order std entries) e.path.text)
      fun a b => decide_eq_true_iff) fun a ha b hb hmust => ?_
    rw [decide_eq_false_iff_not, hown a ha, hown b hb, not_lt]
    exact s.priority_le hmust

theorem isKind_of_fresh {outgoing : List Entry} {e : Entry} (he : e ∈ s.fresh outgoing) :
    e.kind.text = directory ∨ e.kind.text = file := by
  have h := (List.mem_filter.mp he).2
  simp only [Bool.and_eq_true, Bool.or_eq_true, decide_eq_true_eq] at h
  exact h.1

theorem newer_of_mustPrecede {outgoing : List Entry} {a b : Entry} (ha : a ∈ s.fresh outgoing)
    (h : MustPrecede a b) : newer b a = false := by
  cases h with
  | parent ha hb hbelow => cases hkind : b.isKind directory <;> simp [newer, ha, hkind]
  | deletion hdeleted hb hbelow =>
    have hkind := s.isKind_of_fresh ha
    rw [isKind_iff.mp hdeleted] at hkind
    rcases hkind with hkind | hkind <;> exact absurd hkind (by decide)

theorem beginNewUploads_cases {outgoing uploads : List Entry} (h : s.beginNewUploads std outgoing = some uploads) :
    uploads = stableSort newer (order std (s.fresh outgoing)) := by
  rw [beginNewUploads] at h
  split at h
  · cases h
  · split at h
    · cases h
    · exact (Option.some.inj h).symm

end Selection

end

/-- Whatever sort is used and whatever is selected, lists are only rearranged, and nothing stands before what it
needs. -/
theorem application_order :
    (IsStrictWeakOrder Entry fun a b => before a b) ∧
    ∀ (std : Sorter before) (s : Selection) (entries : List Entry),
      ((order std entries).Perm entries ∧ Unblocked (order std entries)) ∧
      ((entries.map fun e => e.path.text).Nodup →
        (s.orderDownloads std entries).Perm entries ∧ Unblocked (s.orderDownloads std entries)) ∧
      ∀ uploads, s.beginNewUploads std entries = some uploads →
        uploads.Perm (s.fresh entries) ∧ Unblocked uploads := by
  refine ⟨strictWeak_before, fun std s entries => ⟨?_, fun hpaths => ?_, fun uploads huploads => ?_⟩⟩
  · exact ⟨std.perm entries, unblocked_of_pairwise (order_keeps std entries)⟩
  · exact ⟨s.orderDownloads_perm std entries, s.orderDownloads_unblocked std hpaths⟩
  · rw [s.beginNewUploads_cases std huploads]
    exact ⟨(stableSort_perm _ _).trans (std.perm _), stableSort_unblocked std strictWeak_newer
      fun a ha b _ hmust => s.newer_of_mustPrecede ha hmust⟩

/-- A mirror that knows nothing yet. -/
def blank : Selection where
  metadataFirst := true
  bootstrapping := false
  record := fun _ => {}
  resident := fun _ => false
  objectMetadata := fun _ => {}
  requested := []
  photoIdentities := []

/-- A file that is announced before its directory. -/
def announced : List Entry :=
  [{ path := .string (text "files/a/b"), kind := .string file }, { path := .string (text "files/a"), kind := .string directory }]

theorem application_order_announced :
    Unblocked (blank.orderDownloads (stableSorter strictWeak_before) announced) ∧
    ∃ uploads, blank.beginNewUploads (stableSorter strictWeak_before) announced = some uploads ∧ Unblocked uploads := by
  obtain ⟨-, hdownloads, huploads⟩ := application_order.2 (stableSorter strictWeak_before) blank announced
  have hfresh : blank.fresh announced ≠ [] := by decide
  have hsome : blank.beginNewUploads (stableSorter strictWeak_before) announced =
      some (stableSort newer (order (stableSorter strictWeak_before) (blank.fresh announced))) :=
    (if_neg (by decide)).trans (if_neg hfresh)
  exact ⟨(hdownloads (by decide)).2, _, hsome, (huploads _ hsome).2⟩

end Synchronizer

end SocietyHelper.Sync
