import SocietyHelper.Library.Table
import SocietyHelper.Library.Text

/-! # A tree of files

Names are paths below one root, files and directories are inodes, and several
names may lead to one file. Every change of an inode gives it a new token, so
equal tokens mean that nothing happened in between. The operations here are the
atomic ones of a file system; their preconditions are checked by the caller.
-/

namespace SocietyHelper.Library

abbrev Path := List Text

inductive Node where
  | directory (ino : Nat)
  | file (ino : Nat)
  | special
  deriving DecidableEq

namespace Node

def ino : Node → Option Nat
  | directory i => some i
  | file i => some i
  | special => none

end Node

structure Inode where
  bytes : Bytes := []
  token : Nat := 0

/-- Inode numbers and tokens are drawn from `clock`, so they are never drawn again. -/
structure Disk where
  nodes : Table Path Node
  inodes : Table Nat Inode
  clock : Nat
  bound : ∀ p n i, nodes.find? p = some n → n.ino = some i → i < clock

namespace Disk

def empty : Disk := ⟨.empty, .empty, 0, fun _ _ _ h => by simp at h⟩

/-! ## Reading -/

def node (d : Disk) (p : Path) : Option Node := d.nodes.find? p

def inode (d : Disk) (i : Nat) : Inode := (d.inodes.find? i).getD {}

/-- The bytes that a name leads to, where it leads to a regular file. -/
def reads (d : Disk) : Option Node → Option Bytes
  | some (.file i) => some (d.inode i).bytes
  | _ => none

def content (d : Disk) (p : Path) : Option Bytes := d.reads (d.node p)

def isDirectory (d : Disk) (p : Path) : Bool :=
  match d.node p with
  | some (.directory _) => true
  | _ => p = []

/-- What following the directories of a path comes to. -/
inductive Walk where
  | directory
  | missing
  | redirected
  deriving DecidableEq

def walkFrom (d : Disk) (base : Path) : Path → Walk
  | [] => .directory
  | part :: parts =>
    match d.node (base ++ [part]) with
    | some (.directory _) => walkFrom d (base ++ [part]) parts
    | some _ => .redirected
    | none => .missing

def walk (d : Disk) (p : Path) : Walk := d.walkFrom [] p

def children (d : Disk) (p : Path) : List Text :=
  d.nodes.keys.filterMap fun q => if q.dropLast = p ∧ q ≠ [] then q.getLast? else none

/-! ## Writing -/

/-- Set the bytes of an inode and give it a new token. -/
def write (d : Disk) (i : Nat) (bytes : Bytes) : Disk where
  nodes := d.nodes
  inodes := d.inodes.insert i { bytes, token := d.clock }
  clock := d.clock + 1
  bound := fun p n k hp hn => Nat.lt_succ_of_lt (d.bound p n k hp hn)

def touch (d : Disk) (i : Nat) : Disk := d.write i (d.inode i).bytes

def touchNode (d : Disk) (p : Path) : Disk :=
  match (d.node p).bind Node.ino with
  | some i => d.touch i
  | none => d

/-- A new name, at the same time a change of its directory. -/
def put (d : Disk) (p : Path) (n : Node) (h : ∀ i, n.ino = some i → i < d.clock) : Disk :=
  touchNode
    { d with
      nodes := d.nodes.insert p n
      bound := fun q m i hq hm => by
        rw [Table.find?_insert] at hq
        split at hq
        · cases hq
          exact h i hm
        · exact d.bound q m i hq hm } p.dropLast

def fresh (d : Disk) : Disk where
  nodes := d.nodes
  inodes := d.inodes.insert d.clock { token := d.clock }
  clock := d.clock + 1
  bound := fun p n k hp hn => Nat.lt_succ_of_lt (d.bound p n k hp hn)

def create (d : Disk) (p : Path) : Disk :=
  d.fresh.put p (.file d.clock) fun _ h => by cases h; exact Nat.lt_succ_self _

def makeDirectory (d : Disk) (p : Path) : Disk :=
  d.fresh.put p (.directory d.clock) fun _ h => by cases h; exact Nat.lt_succ_self _

/-- A second name for a file. -/
def link (d : Disk) (p q : Path) : Disk :=
  match h : d.node p with
  | some (.file i) => (d.put q (.file i) fun k hk => d.bound p _ k h hk).touch i
  | _ => d

/-- The tree without a name. -/
def forget (d : Disk) (p : Path) : Disk where
  nodes := d.nodes.erase p
  inodes := d.inodes
  clock := d.clock
  bound := fun q n i hq hn => by
    rw [Table.find?_erase] at hq
    split at hq
    · cases hq
    · exact d.bound q n i hq hn

def unlink (d : Disk) (p : Path) : Disk := ((d.touchNode p).forget p).touchNode p.dropLast

def movedRows {ν : Type} (t : Table Path ν) (p q : Path) : List (Path × ν) :=
  t.rows.filterMap fun r => if p <+: r.1 then some (q ++ r.1.drop p.length, r.2) else none

/-- The table after everything below one path has moved below another. -/
def relocate {ν : Type} (t : Table Path ν) (p q : Path) : Table Path ν :=
  (t.filter fun k _ => ¬p <+: k).insertAll (movedRows t p q)

theorem nodup_movedRows {ν : Type} (t : Table Path ν) (p q : Path) : ((movedRows t p q).map Prod.fst).Nodup := by
  have hkeys : (movedRows t p q).map Prod.fst =
      t.keys.filterMap fun k => if p <+: k then some (q ++ k.drop p.length) else none := by
    simp only [movedRows, Table.keys, List.map_filterMap, List.filterMap_map]
    congr 1
    funext r
    simp only [Function.comp_apply]
    split <;> rfl
  rw [hkeys]
  refine List.Nodup.filterMap (fun a b c ha hb => ?_) t.unique
  simp only [Option.mem_def, Option.ite_none_right_eq_some, Option.some.injEq] at ha hb
  obtain ⟨⟨as, rfl⟩, hac⟩ := ha
  obtain ⟨⟨bs, rfl⟩, hbc⟩ := hb
  rw [List.drop_left] at hac hbc
  rw [List.append_cancel_left (hac.trans hbc.symm)]

theorem find?_relocate {ν : Type} (t : Table Path ν) (p q k : Path) :
    (relocate t p q).find? k =
      (if q <+: k then t.find? (p ++ k.drop q.length) else none).or (if p <+: k then none else t.find? k) := by
  have hmoved : (⟨movedRows t p q, nodup_movedRows t p q⟩ : Table Path ν).find? k =
      if q <+: k then t.find? (p ++ k.drop q.length) else none := by
    ext v
    rw [← Table.mem_rows_iff]
    simp only [movedRows, List.mem_filterMap, Option.ite_none_right_eq_some, Option.some.injEq, Prod.mk.injEq,
      Prod.exists]
    constructor
    · rintro ⟨k', v', hmem, ⟨rest, rfl⟩, rfl, rfl⟩
      rw [List.drop_left, List.drop_left]
      exact ⟨List.prefix_append q rest, (Table.mem_rows_iff t _ _).mp hmem⟩
    · rintro ⟨⟨rest, rfl⟩, hv⟩
      rw [List.drop_left] at hv
      exact ⟨p ++ rest, v, (Table.mem_rows_iff t _ _).mpr hv, List.prefix_append p rest, by rw [List.drop_left], rfl⟩
  have hrest : (t.filter fun k _ => ¬p <+: k).find? k = if p <+: k then none else t.find? k := by
    rw [Table.find?_filter]
    cases t.find? k <;> by_cases h : p <+: k <;> simp [h]
  rw [relocate, Table.find?_insertAll _ (nodup_movedRows t p q), hrest, ← hmoved]
  rfl

theorem exists_of_find?_relocate {ν : Type} {t : Table Path ν} {p q k : Path} {v : ν}
    (h : (relocate t p q).find? k = some v) : ∃ j, t.find? j = some v := by
  rw [find?_relocate, Option.or_eq_some_iff] at h
  rcases h with h | ⟨-, h⟩
  · split at h
    · exact ⟨_, h⟩
    · cases h
  · split at h
    · cases h
    · exact ⟨_, h⟩

theorem nodes_touchNode (d : Disk) (p : Path) : (d.touchNode p).nodes = d.nodes := by
  rw [touchNode]
  split <;> rfl

theorem clock_touchNode (d : Disk) (p : Path) : d.clock ≤ (d.touchNode p).clock := by
  rw [touchNode]
  split
  · exact Nat.le_succ _
  · exact Nat.le_refl _

theorem clock_unlink (d : Disk) (p : Path) : d.clock ≤ (d.unlink p).clock :=
  Nat.le_trans (clock_touchNode d p) (clock_touchNode ((d.touchNode p).forget p) p.dropLast)

/-- Move one name of a file over another. Two names of one file stay as they are. -/
def renameFile (d : Disk) (p q : Path) : Disk :=
  match h : d.node p with
  | some (.file i) =>
    if d.node q = some (.file i) then d
    else (d.unlink p).put q (.file i) fun k hk => Nat.lt_of_lt_of_le (d.bound p _ k h hk) (d.clock_unlink p)
  | _ => d

/-- Move a directory with everything below it to a free path. -/
def renameDirectory (d : Disk) (p q : Path) : Disk :=
  (touchNode
    { d with
      nodes := relocate d.nodes p q
      bound := fun _ n i hk hn => by
        obtain ⟨j, hj⟩ := exists_of_find?_relocate hk
        exact d.bound j n i hj hn } p.dropLast).touchNode q.dropLast

/-! ## What the operations do to names and bytes -/

theorem inode_write (d : Disk) (i k : Nat) (bytes : Bytes) :
    (d.write i bytes).inode k = if k = i then { bytes, token := d.clock } else d.inode k := by
  rw [inode, write, Table.find?_insert]
  split <;> rfl

theorem bytes_touchNode (d : Disk) (p : Path) (i : Nat) : ((d.touchNode p).inode i).bytes = (d.inode i).bytes := by
  rw [touchNode]
  split
  · rw [touch, inode_write]
    split
    · rename_i h
      rw [h]
    · rfl
  · rfl

theorem reads_congr {d e : Disk} {n : Option Node} (h : ∀ i, n = some (.file i) → (e.inode i).bytes = (d.inode i).bytes) :
    e.reads n = d.reads n := by
  rcases n with - | i | i | -
  · rfl
  · rfl
  · exact congrArg some (h i rfl)
  · rfl

@[simp] theorem reads_touchNode (d : Disk) (p : Path) (n : Option Node) : (d.touchNode p).reads n = d.reads n :=
  reads_congr fun i _ => bytes_touchNode d p i

@[simp] theorem node_touchNode (d : Disk) (p q : Path) : (d.touchNode p).node q = d.node q := by
  rw [node, nodes_touchNode, node]

@[simp] theorem content_touchNode (d : Disk) (p q : Path) : (d.touchNode p).content q = d.content q := by
  rw [content, reads_touchNode, node_touchNode, content]

@[simp] theorem node_write (d : Disk) (i : Nat) (bytes : Bytes) (q : Path) : (d.write i bytes).node q = d.node q := rfl

@[simp] theorem node_fresh (d : Disk) (q : Path) : d.fresh.node q = d.node q := rfl

theorem content_write (d : Disk) (i : Nat) (bytes : Bytes) (p : Path) :
    (d.write i bytes).content p = if d.node p = some (.file i) then some bytes else d.content p := by
  split
  · rename_i h
    rw [content, node_write, h, reads, inode_write, if_pos rfl]
  · rename_i h
    refine reads_congr fun k hk => ?_
    rw [inode_write, if_neg]
    rintro rfl
    exact h hk

@[simp] theorem content_touch (d : Disk) (i : Nat) (p : Path) : (d.touch i).content p = d.content p := by
  rw [touch, content_write]
  split
  · rename_i h
    rw [content, h, reads]
  · rfl

@[simp] theorem content_fresh (d : Disk) (p : Path) : d.fresh.content p = d.content p := by
  refine reads_congr fun i hi => ?_
  have hbound := d.bound p _ i hi rfl
  rw [inode, fresh, Table.find?_insert, if_neg (Nat.ne_of_lt hbound)]
  rfl

@[simp] theorem node_put (d : Disk) (p : Path) (n : Node) (h) (q : Path) :
    (d.put p n h).node q = if q = p then some n else d.node q := by
  rw [put, node_touchNode, node, Table.find?_insert]
  rfl

@[simp] theorem reads_put (d : Disk) (p : Path) (n : Node) (h) (m : Option Node) :
    (d.put p n h).reads m = d.reads m := by
  rw [put, reads_touchNode]
  exact reads_congr fun _ _ => rfl

theorem content_put (d : Disk) (p : Path) (n : Node) (h) (q : Path) :
    (d.put p n h).content q = if q = p then d.reads (some n) else d.content q := by
  rw [content, reads_put, node_put]
  split <;> rfl

@[simp] theorem node_create (d : Disk) (p q : Path) :
    (d.create p).node q = if q = p then some (.file d.clock) else d.node q := by
  rw [create, node_put, node_fresh]

@[simp] theorem content_create (d : Disk) (p q : Path) :
    (d.create p).content q = if q = p then some [] else d.content q := by
  rw [create, content_put, content_fresh, reads, inode, fresh, Table.find?_insert_self]
  rfl

@[simp] theorem node_makeDirectory (d : Disk) (p q : Path) :
    (d.makeDirectory p).node q = if q = p then some (.directory d.clock) else d.node q := by
  rw [makeDirectory, node_put, node_fresh]

@[simp] theorem content_makeDirectory (d : Disk) (p q : Path) :
    (d.makeDirectory p).content q = if q = p then none else d.content q := by
  rw [makeDirectory, content_put, content_fresh]
  rfl

@[simp] theorem node_unlink (d : Disk) (p q : Path) :
    (d.unlink p).node q = if q = p then none else d.node q := by
  rw [unlink, node_touchNode, node, forget, Table.find?_erase, nodes_touchNode]
  rfl

@[simp] theorem reads_unlink (d : Disk) (p : Path) (n : Option Node) : (d.unlink p).reads n = d.reads n := by
  rw [unlink, reads_touchNode, ← reads_touchNode d p]
  exact reads_congr fun _ _ => rfl

@[simp] theorem content_unlink (d : Disk) (p q : Path) :
    (d.unlink p).content q = if q = p then none else d.content q := by
  rw [content, reads_unlink, node_unlink]
  split <;> rfl

theorem node_link {d : Disk} {p : Path} {i : Nat} (h : d.node p = some (.file i)) (q k : Path) :
    (d.link p q).node k = if k = q then some (.file i) else d.node k := by
  rw [link]
  split
  · rename_i i' h'
    rw [h] at h'
    cases h'
    rw [touch, node_write, node_put]
  · rename_i h'
    exact absurd h (h' i)

theorem content_link {d : Disk} {p : Path} {i : Nat} (h : d.node p = some (.file i)) (q k : Path) :
    (d.link p q).content k = if k = q then d.content p else d.content k := by
  rw [link]
  split
  · rename_i i' h'
    rw [content_touch, content_put, content, content, h']
  · rename_i h'
    exact absurd h (h' i)

theorem node_renameFile {d : Disk} {p : Path} {i : Nat} (h : d.node p = some (.file i)) {q : Path}
    (hq : d.node q ≠ some (.file i)) (k : Path) :
    (d.renameFile p q).node k = if k = q then some (.file i) else if k = p then none else d.node k := by
  rw [renameFile]
  split
  · rename_i i' h'
    rw [h] at h'
    cases h'
    rw [if_neg hq, node_put, node_unlink]
  · rename_i h'
    exact absurd h (h' i)

theorem content_renameFile {d : Disk} {p : Path} {i : Nat} (h : d.node p = some (.file i)) {q : Path}
    (hq : d.node q ≠ some (.file i)) (k : Path) :
    (d.renameFile p q).content k = if k = q then d.content p else if k = p then none else d.content k := by
  rw [renameFile]
  split
  · rename_i i' h'
    rw [h] at h'
    cases h'
    rw [if_neg hq, content_put, reads_unlink, content_unlink, content, content, h]
  · rename_i h'
    exact absurd h (h' i)

theorem renameFile_self {d : Disk} {p : Path} {i : Nat} (h : d.node p = some (.file i)) {q : Path}
    (hq : d.node q = some (.file i)) : d.renameFile p q = d := by
  rw [renameFile]
  split
  · rename_i i' h'
    rw [h] at h'
    cases h'
    rw [if_pos hq]
  · rfl

theorem node_renameDirectory (d : Disk) (p q k : Path) :
    (d.renameDirectory p q).node k =
      (if q <+: k then d.node (p ++ k.drop q.length) else none).or (if p <+: k then none else d.node k) := by
  rw [renameDirectory, node_touchNode, node_touchNode, node, find?_relocate]
  rfl

theorem reads_renameDirectory (d : Disk) (p q : Path) (n : Option Node) :
    (d.renameDirectory p q).reads n = d.reads n := by
  rw [renameDirectory, reads_touchNode, reads_touchNode]
  exact reads_congr fun _ _ => rfl

end Disk

end SocietyHelper.Library
