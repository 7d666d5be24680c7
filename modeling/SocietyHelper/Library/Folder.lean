import SocietyHelper.Library.Text

/-! # Folders as data

A folder is the list of its entries in the order in which it is listed, so a
function over a tree of files is a recursion over its entries. A file is found
below a place by the names that lead to it.
-/

namespace SocietyHelper.Library

inductive Folder where
  | nil
  | file (name : Text) (bytes : Bytes) (rest : Folder)
  | directory (name : Text) (inner rest : Folder)
  | link (name : Text) (rest : Folder)
  deriving DecidableEq

/-- What a path leads to. -/
inductive Place where
  | file (bytes : Bytes)
  | directory (entries : Folder)
  | link
  deriving DecidableEq

namespace Folder

def entry (name : Text) (place : Place) (rest : Folder) : Folder :=
  match place with
  | .file bytes => .file name bytes rest
  | .directory inner => .directory name inner rest
  | .link => .link name rest

def find : Folder → Text → Option Place
  | .nil, _ => none
  | .file name bytes rest, n => if n = name then some (.file bytes) else rest.find n
  | .directory name inner rest, n => if n = name then some (.directory inner) else rest.find n
  | .link name rest, n => if n = name then some .link else rest.find n

/-- A new entry comes last, a known one stays where it is. -/
def put : Folder → Text → Place → Folder
  | .nil, n, place => entry n place .nil
  | .file name bytes rest, n, place =>
    if n = name then entry n place rest else .file name bytes (rest.put n place)
  | .directory name inner rest, n, place =>
    if n = name then entry n place rest else .directory name inner (rest.put n place)
  | .link name rest, n, place => if n = name then entry n place rest else .link name (rest.put n place)

/-- No entry is a link, at any depth. -/
def regular : Folder → Bool
  | .nil => true
  | .file _ _ rest => rest.regular
  | .directory _ inner rest => inner.regular && rest.regular
  | .link _ _ => false

/-- The bytes of every file. -/
def contents : Folder → List Bytes
  | .nil => []
  | .file _ bytes rest => bytes :: rest.contents
  | .directory _ inner rest => inner.contents ++ rest.contents
  | .link _ rest => rest.contents

@[simp] theorem find_entry (name : Text) (place : Place) (rest : Folder) (n : Text) :
    (entry name place rest).find n = if n = name then some place else rest.find n := by
  cases place <;> rfl

theorem find_put (f : Folder) (n : Text) (place : Place) (k : Text) :
    (f.put n place).find k = if k = n then some place else f.find k := by
  induction f with
  | nil => rw [put, find_entry, find]
  | file name bytes rest ih =>
    rw [put, find]
    split
    · subst name
      rw [find_entry]
      split <;> rfl
    · rw [find, ih]
      grind
  | directory name inner rest _ ih =>
    rw [put, find]
    split
    · subst name
      rw [find_entry]
      split <;> rfl
    · rw [find, ih]
      grind
  | link name rest ih =>
    rw [put, find]
    split
    · subst name
      rw [find_entry]
      split <;> rfl
    · rw [find, ih]
      grind

@[simp] theorem put_entry_self (name : Text) (place other : Place) (rest : Folder) :
    (entry name place rest).put name other = entry name other rest := by
  cases place <;> simp only [entry, put, if_true]

@[simp] theorem put_put (f : Folder) (n : Text) (a b : Place) : (f.put n a).put n b = f.put n b := by
  induction f with
  | nil => simp only [put, put_entry_self]
  | file name bytes rest ih =>
    rw [put, put]
    split
    · exact put_entry_self n a b rest
    · rw [put, if_neg ‹_›, ih]
  | directory name inner rest _ ih =>
    rw [put, put]
    split
    · exact put_entry_self n a b rest
    · rw [put, if_neg ‹_›, ih]
  | link name rest ih =>
    rw [put, put]
    split
    · exact put_entry_self n a b rest
    · rw [put, if_neg ‹_›, ih]

end Folder

namespace Place

def regular : Place → Bool
  | file _ => true
  | directory entries => entries.regular
  | link => false

def contents : Place → List Bytes
  | file bytes => [bytes]
  | directory entries => entries.contents
  | link => []

def child : Place → Text → Option Place
  | directory entries, name => entries.find name
  | _, _ => none

/-- Only a directory takes entries. -/
def put : Place → Text → Place → Option Place
  | directory entries, name, place => some (directory (entries.put name place))
  | _, _, _ => none

def fileAt : Place → List Text → Option Bytes
  | file bytes, [] => some bytes
  | _, [] => none
  | place, name :: path =>
    match place.child name with
    | some inner => inner.fileAt path
    | none => none

@[simp] theorem contents_entry (name : Text) (place : Place) (rest : Folder) :
    (Folder.entry name place rest).contents = place.contents ++ rest.contents := by
  cases place <;> rfl

@[simp] theorem regular_entry (name : Text) (place : Place) (rest : Folder) :
    (Folder.entry name place rest).regular = (place.regular && rest.regular) := by
  cases place <;> rfl

theorem contents_find {f : Folder} {name : Text} {place : Place} (h : f.find name = some place) :
    place.contents ⊆ f.contents := by
  induction f with
  | nil => cases h
  | file n bytes rest ih => rw [Folder.find] at h; split at h <;> grind [contents, Folder.contents]
  | directory n inner rest _ ih => rw [Folder.find] at h; split at h <;> grind [contents, Folder.contents]
  | link n rest ih => rw [Folder.find] at h; split at h <;> grind [contents, Folder.contents]

theorem regular_find {f : Folder} {name : Text} {place : Place} (h : f.find name = some place)
    (hf : f.regular) : place.regular := by
  induction f with
  | nil => cases h
  | file n bytes rest ih => rw [Folder.find] at h; split at h <;> grind [regular, Folder.regular]
  | directory n inner rest _ ih => rw [Folder.find] at h; split at h <;> grind [regular, Folder.regular]
  | link n rest ih => cases hf

theorem contents_put_subset (f : Folder) (name : Text) (place : Place) :
    (f.put name place).contents ⊆ place.contents ++ f.contents := by
  induction f with
  | nil =>
    rw [Folder.put, contents_entry]
    exact List.Subset.refl _
  | file n bytes rest ih => rw [Folder.put]; split <;> grind [Folder.contents, contents_entry]
  | directory n inner rest _ ih => rw [Folder.put]; split <;> grind [Folder.contents, contents_entry]
  | link n rest ih => rw [Folder.put]; split <;> grind [Folder.contents, contents_entry]

theorem regular_folder_put {f : Folder} {place : Place} (hf : f.regular) (hp : place.regular) (name : Text) :
    (f.put name place).regular := by
  induction f with
  | nil => simp [Folder.put, hp, Folder.regular]
  | file n bytes rest ih => rw [Folder.put]; split <;> grind [Folder.regular, regular_entry]
  | directory n inner rest _ ih => rw [Folder.put]; split <;> grind [Folder.regular, regular_entry]
  | link n rest ih => cases hf

theorem put_eq_some {into next place : Place} {name : Text} (h : into.put name place = some next) :
    ∃ entries, into = directory entries ∧ next = directory (entries.put name place) := by
  cases into with
  | directory entries => exact ⟨entries, rfl, (Option.some.inj h).symm⟩
  | file bytes => cases h
  | link => cases h

theorem child_put {into next place : Place} {name : Text} (h : into.put name place = some next) (k : Text) :
    next.child k = if k = name then some place else into.child k := by
  obtain ⟨entries, rfl, rfl⟩ := put_eq_some h
  exact entries.find_put name place k

theorem put_put {into next a b : Place} {name : Text} (h : into.put name a = some next) :
    next.put name b = into.put name b := by
  obtain ⟨entries, rfl, rfl⟩ := put_eq_some h
  exact congrArg (fun f => some (directory f)) (entries.put_put name a b)

theorem contents_child {into place : Place} {name : Text} (h : into.child name = some place) :
    place.contents ⊆ into.contents := by
  cases into with
  | directory entries => exact contents_find h
  | file bytes => cases h
  | link => cases h

theorem regular_child {into place : Place} {name : Text} (h : into.child name = some place)
    (hi : into.regular) : place.regular := by
  cases into with
  | directory entries => exact regular_find h hi
  | file bytes => cases h
  | link => cases h

theorem contents_put {into next place : Place} {name : Text} (h : into.put name place = some next) :
    next.contents ⊆ place.contents ++ into.contents := by
  obtain ⟨entries, rfl, rfl⟩ := put_eq_some h
  exact contents_put_subset entries name place

theorem regular_put {into next place : Place} {name : Text} (h : into.put name place = some next)
    (hi : into.regular) (hp : place.regular) : next.regular := by
  obtain ⟨entries, rfl, rfl⟩ := put_eq_some h
  exact regular_folder_put hi hp name

theorem fileAt_cons {place inner : Place} {name : Text} (h : place.child name = some inner) (path : List Text) :
    place.fileAt (name :: path) = inner.fileAt path := by
  cases place <;> simp only [fileAt, h]

theorem fileAt_eq_some {place : Place} {name : Text} {path : List Text} {b : Bytes}
    (h : place.fileAt (name :: path) = some b) :
    ∃ inner, place.child name = some inner ∧ inner.fileAt path = some b := by
  cases hc : place.child name with
  | none => cases place <;> simp only [fileAt, hc, reduceCtorEq] at h
  | some inner => exact ⟨inner, rfl, by rwa [fileAt_cons hc] at h⟩

/-- What is found after an entry was put: the new entry below its name, everything else as before. -/
theorem fileAt_put {into next place : Place} {name : Text} (h : into.put name place = some next) (k : Text)
    (path : List Text) :
    next.fileAt (k :: path) = if k = name then place.fileAt path else into.fileAt (k :: path) := by
  have hchild := child_put h k
  split at hchild
  · rw [if_pos ‹_›]
    exact fileAt_cons hchild path
  · rw [if_neg ‹_›]
    cases hc : into.child k with
    | none =>
      rw [hc] at hchild
      cases next <;> cases into <;> simp only [fileAt, hc, hchild]
    | some inner => rw [fileAt_cons (hchild.trans hc), fileAt_cons hc]

end Place

end SocietyHelper.Library
