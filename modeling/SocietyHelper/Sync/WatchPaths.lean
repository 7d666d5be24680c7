import SocietyHelper.Sync.Scan

/-! # Finding the paths to watch

The native watcher has room for a bounded number of paths. The search gives every
section root a place first and then works through directories in the order in
which they were found, under one budget for paths and one for inspected entries.
-/

namespace SocietyHelper.Sync

open Library

namespace WatchPaths

inductive Kind where
  | directory
  | regular
  | other
  deriving DecidableEq

/-- What the file system shows of a tree. A status that fails, and a listing that
breaks off after some entries, are errors that the search passes over. -/
structure Tree where
  status : Path → Kind
  entries : Path → List Text
  statusFails : Path → Bool := fun _ => false
  breaksOff : Path → Option Nat := fun _ => none
  reparse : Path → Bool := fun _ => false

namespace Tree

variable (t : Tree)

/-- The entries that the iterator gives out. -/
def yields (dir : Path) : List Text :=
  match t.breaksOff dir with
  | none => t.entries dir
  | some n => (t.entries dir).take n

def isDirectory (p : Path) : Bool := t.status p = .directory

/-- What a root has to be. -/
def rooted (p : Path) : Bool := !t.reparse p && !t.statusFails p && t.isDirectory p

/-- Whether an entry of a directory is watched. -/
def eligible (dir : Path) (name : Text) : Bool :=
  !Replica.indexControlName name && !t.statusFails (dir ++ [name]) && !t.reparse (dir ++ [name]) &&
    (t.status (dir ++ [name]) = .directory || t.status (dir ++ [name]) = .regular)

end Tree

def sizeMax : Nat := 2 ^ 64 - 1

/-- Arithmetic of `std::size_t`. -/
def wrapped (n : Nat) : Nat := n % (sizeMax + 1)

def inspectionLimit (limit : Nat) : Nat := if sizeMax / 8 < limit then sizeMax else wrapped (limit * 8)

structure Search where
  paths : List Path := []
  visitedEntries : Nat := 0
  cancelled : Bool := false
  seen : List Path := []
  directories : List Path := []
  asked : Nat := 0

section

variable (t : Tree) (cancelled : Nat → Bool) (limit : Nat)

/-- One question to the caller; its answer may be another one each time. -/
def ask (s : Search) : Search := { s with asked := s.asked + 1, cancelled := cancelled s.asked }

def includePath (path : Path) (isDirectory : Bool) (s : Search) : Search :=
  if path ∈ s.seen then s
  else { s with
    seen := path :: s.seen
    paths := s.paths ++ [path]
    directories := if isDirectory then s.directories ++ [path] else s.directories }

/-- Whether one of the two budgets is used up. -/
def exhausted (s : Search) : Bool := limit ≤ s.paths.length || inspectionLimit limit ≤ s.visitedEntries

def addRoots : List Path → Search → Search
  | [], s => s
  | root :: roots, s =>
    let s := ask cancelled s
    if s.cancelled then s
    else if limit ≤ s.paths.length then s
    else addRoots roots (if t.rooted root then includePath root true s else s)

def inspect (dir : Path) (name : Text) (s : Search) : Search :=
  let s := { s with visitedEntries := wrapped (s.visitedEntries + 1) }
  if t.eligible dir name then includePath (dir ++ [name]) (t.isDirectory (dir ++ [name])) s else s

def visit (dir : Path) : List Text → Search → Search
  | [], s => s
  | name :: names, s =>
    if exhausted limit s then s
    else
      let s := ask cancelled s
      if s.cancelled then s
      else
        let s := inspect t dir name s
        -- no further block of the directory is fetched once a budget is full
        if exhausted limit s then s
        else
          let s := ask cancelled s
          if s.cancelled then s else visit dir names s

/-- The loop over the directories found so far; a search has room for `limit` of them. -/
def expand : Nat → Nat → Search → Search
  | 0, _, s => s
  | rounds + 1, next, s =>
    match s.directories[next]? with
    | none => s
    | some dir =>
      if exhausted limit s then s
      else
        let s := ask cancelled s
        if s.cancelled then s
        else
          let s := visit t cancelled limit dir (t.yields dir) s
          if s.cancelled then s else expand rounds (next + 1) s

def search (rounds : Nat) (roots : List Path) : Search :=
  let s := ask cancelled {}
  if s.cancelled then s
  else if limit = 0 then s
  else
    let s := addRoots t cancelled limit roots s
    if s.cancelled then s
    else
      let s := expand t cancelled limit rounds 0 s
      if s.cancelled then s else ask cancelled s

def collectWatchPaths (roots : List Path) : Search := search t cancelled limit limit roots

end

theorem inspectionLimit_eq (limit : Nat) : inspectionLimit limit = min (8 * limit) sizeMax := by
  rw [inspectionLimit]
  split
  · rename_i h
    simp only [sizeMax] at h ⊢
    omega
  · rename_i h
    simp only [sizeMax, wrapped] at h ⊢
    omega

theorem inspectionLimit_le (limit : Nat) : inspectionLimit limit ≤ sizeMax := by
  rw [inspectionLimit_eq]
  exact Nat.min_le_right _ _

/-! ## Breadth first -/

variable {t : Tree} {cancelled : Nat → Bool} {limit : Nat}

/-- The paths found while the directory at one place of the queue is expanded. -/
inductive Found (t : Tree) (front : List Path) : Nat → List Path → Prop where
  | roots : Found t front 0 front
  | next {n : Nat} {paths : List Path} (h : Found t front n paths) : Found t front (n + 1) paths
  | entry {n : Nat} {paths : List Path} {dir : Path} {name : Text} (h : Found t front n paths)
      (hdir : (paths.filter t.isDirectory)[n]? = some dir) (hname : name ∈ t.entries dir)
      (heligible : t.eligible dir name) (hnew : dir ++ [name] ∉ paths) : Found t front n (paths ++ [dir ++ [name]])

/-- How far a path, read from its end, lies below the roots. -/
def levelFrom (front : List Path) : List Text → Nat
  | [] => 0
  | name :: names => if (name :: names).reverse ∈ front then 0 else levelFrom front names + 1

def level (front : List Path) (p : Path) : Nat := levelFrom front p.reverse

theorem level_of_mem {front : List Path} {p : Path} (h : p ∈ front) : level front p = 0 := by
  rw [level]
  cases hp : p.reverse with
  | nil => rfl
  | cons name names =>
    rw [levelFrom, if_pos]
    rwa [← hp, List.reverse_reverse]

theorem level_entry {front : List Path} {dir : Path} {name : Text} (h : dir ++ [name] ∉ front) :
    level front (dir ++ [name]) = level front dir + 1 := by
  rw [level, level, List.reverse_append, List.reverse_singleton, List.singleton_append, levelFrom, if_neg]
  simpa using h

namespace Found

variable {front paths : List Path} {n : Nat}

theorem nodup (h : Found t front n paths) (hfront : front.Nodup) : paths.Nodup := by
  induction h with
  | roots => exact hfront
  | next _ ih => exact ih
  | entry _ _ _ _ hnew ih => exact List.Nodup.append ih (List.nodup_singleton _) (List.disjoint_singleton.mpr hnew)

theorem prefix_front (h : Found t front n paths) : front <+: paths := by
  induction h with
  | roots => exact List.prefix_rfl
  | next _ ih => exact ih
  | entry _ _ _ _ _ ih => exact ih.trans (List.prefix_append _ _)

theorem mem_of_mem_directories {dir : Path} (h : (paths.filter t.isDirectory)[n]? = some dir) :
    dir ∈ paths ∧ t.isDirectory dir := List.mem_filter.mp (List.mem_of_getElem? h)

/-- Every path below the roots follows the directory it lies in. -/
theorem parent (h : Found t front n paths) {before after : List Path} {p : Path} (hp : paths = before ++ p :: after) :
    p ∈ front ∨ p.dropLast ∈ before ∧ t.isDirectory p.dropLast := by
  induction h generalizing after with
  | roots => exact Or.inl (hp ▸ by simp)
  | next _ ih => exact ih hp
  | @entry n paths dir name _ hdir _ _ hnew ih =>
    rcases List.eq_nil_or_concat after with rfl | ⟨rest, last, rfl⟩
    · obtain ⟨rfl, hlast⟩ := List.append_inj' hp rfl
      cases hlast
      rw [List.dropLast_concat]
      exact Or.inr (mem_of_mem_directories hdir)
    · rw [List.concat_eq_append, ← List.cons_append, ← List.append_assoc] at hp
      exact ih (List.append_inj' hp rfl).1

/-- No name below the root of a path is a control name. -/
theorem uncontrolled (h : Found t front n paths) :
    ∀ p ∈ paths, ∃ r ∈ front, ∃ names, p = r ++ names ∧ ∀ name ∈ names, ¬Replica.indexControlName name := by
  induction h with
  | roots => exact fun p hp => ⟨p, hp, [], (List.append_nil p).symm, by simp⟩
  | next _ ih => exact ih
  | @entry n paths dir name _ hdir _ heligible _ ih =>
    intro p hp
    rcases List.mem_append.mp hp with hold | hnew
    · exact ih p hold
    · obtain ⟨r, hr, names, hnames, hall⟩ := ih dir (mem_of_mem_directories hdir).1
      refine ⟨r, hr, names ++ [name], ?_, ?_⟩
      · rw [List.mem_singleton.mp hnew, hnames, List.append_assoc]
      · intro m hm
        rcases List.mem_append.mp hm with hm | hm
        · exact hall m hm
        · rw [List.mem_singleton.mp hm]
          simp only [Tree.eligible, Bool.and_eq_true, Bool.not_eq_true'] at heligible
          simp [heligible.1.1.1]

/-- Levels never fall along the paths, and none is more than one above the level that is
being expanded. -/
theorem levels (h : Found t front n paths) :
    paths.Pairwise (fun p q => level front p ≤ level front q) ∧
      ∀ dir, (paths.filter t.isDirectory)[n]? = some dir → ∀ p ∈ paths, level front p ≤ level front dir + 1 := by
  induction h with
  | roots =>
    constructor
    · exact List.pairwise_of_forall_mem_list fun p hp q _ => by rw [level_of_mem hp]; exact Nat.zero_le _
    · intro dir _ p hp
      rw [level_of_mem hp]
      exact Nat.zero_le _
  | @next n paths _ ih =>
    refine ⟨ih.1, fun dir hdir p hp => ?_⟩
    obtain ⟨hlt, heq⟩ := List.getElem?_eq_some_iff.mp hdir
    have hbefore : (paths.filter t.isDirectory)[n]? = some (paths.filter t.isDirectory)[n] :=
      List.getElem?_eq_getElem (by omega)
    have hlevel := ih.2 _ hbefore p hp
    have hordered := List.pairwise_iff_getElem.mp (ih.1.sublist List.filter_sublist) n (n + 1) (by omega) hlt
      (Nat.lt_succ_self n)
    rw [heq] at hordered
    omega
  | @entry n paths dir name hfound hdir _ _ hnew ih =>
    have hfront : dir ++ [name] ∉ front := fun h => hnew (hfound.prefix_front.subset h)
    have hlevel := level_entry hfront
    constructor
    · refine List.pairwise_append.mpr ⟨ih.1, List.pairwise_singleton _ _, fun p hp q hq => ?_⟩
      rw [List.mem_singleton.mp hq, hlevel]
      exact ih.2 dir hdir p hp
    · intro dir' hdir' p hp
      obtain ⟨hlt, -⟩ := List.getElem?_eq_some_iff.mp hdir
      rw [List.filter_append, List.getElem?_append_left hlt, hdir] at hdir'
      cases hdir'
      rcases List.mem_append.mp hp with hp | hp
      · exact ih.2 dir hdir p hp
      · rw [List.mem_singleton.mp hp, hlevel]

/-- Every path below the roots lies in a directory that was taken from the queue. -/
theorem expanded (h : Found t front n paths) (hnodup : front.Nodup) :
    ∀ p ∈ paths, p ∉ front → p.dropLast ∈ paths.filter t.isDirectory ∧
      (paths.filter t.isDirectory).idxOf p.dropLast ≤ n := by
  induction h with
  | roots => exact fun p hp hnot => absurd hp hnot
  | next _ ih =>
    intro p hp hnot
    obtain ⟨hmem, hle⟩ := ih p hp hnot
    exact ⟨hmem, by omega⟩
  | @entry n paths dir name hfound hdir _ _ _ ih =>
    intro p hp hnot
    rw [List.filter_append]
    rcases List.mem_append.mp hp with hp | hp
    · obtain ⟨hmem, hle⟩ := ih p hp hnot
      rw [List.idxOf_append_of_mem hmem]
      exact ⟨List.mem_append_left _ hmem, hle⟩
    · rw [List.mem_singleton.mp hp, List.dropLast_concat]
      have hmem := List.mem_of_getElem? hdir
      obtain ⟨hlt, heq⟩ := List.getElem?_eq_some_iff.mp hdir
      rw [List.idxOf_append_of_mem hmem]
      refine ⟨List.mem_append_left _ hmem, ?_⟩
      rw [← heq, ((hfound.nodup hnodup).filter _).idxOf_getElem]

/-- The directories are expanded in the order of the queue. -/
theorem ordered (h : Found t front n paths) (hnodup : front.Nodup) :
    paths.Pairwise fun p q => p ∉ front → q ∉ front →
      (paths.filter t.isDirectory).idxOf p.dropLast ≤ (paths.filter t.isDirectory).idxOf q.dropLast := by
  induction h with
  | roots => exact List.pairwise_of_forall_mem_list fun p hp q _ hnot => absurd hp hnot
  | next _ ih => exact ih
  | @entry n paths dir name hfound hdir _ _ _ ih =>
    have hexpanded := hfound.expanded hnodup
    obtain ⟨hlt, heq⟩ := List.getElem?_eq_some_iff.mp hdir
    rw [List.filter_append]
    refine List.pairwise_append.mpr ⟨?_, List.pairwise_singleton _ _, fun p hp q hq hnot _ => ?_⟩
    · refine ih.imp_of_mem fun hp hq hle hnotp hnotq => ?_
      rw [List.idxOf_append_of_mem (hexpanded _ hp hnotp).1, List.idxOf_append_of_mem (hexpanded _ hq hnotq).1]
      exact hle hnotp hnotq
    · obtain ⟨hmem, hle⟩ := hexpanded p hp hnot
      rw [List.mem_singleton.mp hq, List.dropLast_concat, List.idxOf_append_of_mem hmem,
        List.idxOf_append_of_mem (List.mem_of_getElem? hdir)]
      rw [← heq, ((hfound.nodup hnodup).filter _).idxOf_getElem]
      exact hle

end Found

/-! ## The search -/

theorem exhausted_eq_false {s : Search} :
    exhausted limit s = false ↔ s.paths.length < limit ∧ s.visitedEntries < inspectionLimit limit := by
  simp [exhausted]

/-- What holds of a search while it expands the directory at one place of the queue. -/
structure Watched (t : Tree) (limit : Nat) (roots front : List Path) (next : Nat) (s : Search) : Prop where
  found : Found t front next s.paths
  rooted : ∀ p ∈ front, p ∈ roots ∧ t.rooted p
  distinct : front.Nodup
  seen : ∀ p, p ∈ s.seen ↔ p ∈ s.paths
  directories : s.directories = s.paths.filter t.isDirectory
  within : s.paths.length ≤ limit
  visited : s.visitedEntries ≤ inspectionLimit limit

namespace Watched

variable {roots front : List Path} {next : Nat} {s : Search}

theorem ask (h : Watched t limit roots front next s) (cancelled : Nat → Bool) :
    Watched t limit roots front next (ask cancelled s) :=
  ⟨h.found, h.rooted, h.distinct, h.seen, h.directories, h.within, h.visited⟩

theorem following (h : Watched t limit roots front next s) : Watched t limit roots front (next + 1) s :=
  ⟨h.found.next, h.rooted, h.distinct, h.seen, h.directories, h.within, h.visited⟩

theorem length_directories (h : Watched t limit roots front next s) : s.directories.length ≤ limit := by
  rw [h.directories]
  exact (List.length_filter_le _ _).trans h.within

end Watched

/-- Nothing that a search has found or counted is taken back. -/
structure Extends (s s' : Search) : Prop where
  paths : s.paths <+: s'.paths
  directories : s.directories <+: s'.directories
  visited : s.visitedEntries ≤ s'.visitedEntries

theorem Extends.refl (s : Search) : Extends s s := ⟨List.prefix_rfl, List.prefix_rfl, Nat.le_refl _⟩

theorem Extends.trans {s s' s'' : Search} (h : Extends s s') (h' : Extends s' s'') : Extends s s'' :=
  ⟨h.paths.trans h'.paths, h.directories.trans h'.directories, h.visited.trans h'.visited⟩

theorem extends_ask (cancelled : Nat → Bool) (s : Search) : Extends s (ask cancelled s) :=
  ⟨List.prefix_rfl, List.prefix_rfl, Nat.le_refl _⟩

theorem wrapped_succ {n : Nat} (h : n < inspectionLimit limit) : wrapped (n + 1) = n + 1 := by
  have hle := inspectionLimit_le limit
  rw [wrapped]
  apply Nat.mod_eq_of_lt
  omega

/-- One inspected entry is counted, and watched if it may be. -/
theorem inspect_step {roots front : List Path} {next : Nat} {s : Search} (h : Watched t limit roots front next s)
    (dir : Path) (hdir : s.directories[next]? = some dir) {name : Text} (hname : name ∈ t.entries dir)
    (hroom : exhausted limit s = false) :
    Watched t limit roots front next (inspect t dir name s) ∧ Extends s (inspect t dir name s) ∧
      (t.eligible dir name → dir ++ [name] ∈ (inspect t dir name s).paths) := by
  obtain ⟨hpaths, hvisited⟩ := exhausted_eq_false.mp hroom
  have hcounted : Watched t limit roots front next { s with visitedEntries := wrapped (s.visitedEntries + 1) } := by
    refine ⟨h.found, h.rooted, h.distinct, h.seen, h.directories, h.within, ?_⟩
    rw [wrapped_succ hvisited]
    exact hvisited
  have hmore : Extends s { s with visitedEntries := wrapped (s.visitedEntries + 1) } := by
    refine ⟨List.prefix_rfl, List.prefix_rfl, ?_⟩
    rw [wrapped_succ hvisited]
    exact Nat.le_succ _
  rw [inspect]
  by_cases heligible : t.eligible dir name
  · simp only [if_pos heligible]
    rw [includePath]
    split
    · rename_i hseen
      exact ⟨hcounted, hmore, fun _ => (h.seen _).mp hseen⟩
    · rename_i hnew
      rw [h.seen] at hnew
      refine ⟨⟨?_, h.rooted, h.distinct, ?_, ?_, ?_, hcounted.visited⟩, ⟨List.prefix_append _ _, ?_, hmore.visited⟩, ?_⟩
      · exact h.found.entry (h.directories ▸ hdir) hname heligible hnew
      · intro p
        simp only [List.mem_cons, List.mem_append, h.seen, List.not_mem_nil, or_false]
        exact or_comm
      · rw [List.filter_append, ← h.directories, List.filter_singleton]
        cases t.isDirectory (dir ++ [name]) <;> simp
      · rw [List.length_append, List.length_singleton]
        exact hpaths
      · split
        · exact List.prefix_append _ _
        · exact List.prefix_rfl
      · intro _
        exact List.mem_append_right _ (List.mem_singleton.mpr rfl)
  · simp only [if_neg heligible]
    exact ⟨hcounted, hmore, fun h => absurd h heligible⟩

/-- The run of one directory; what is not cut short has looked at every entry. -/
theorem visit_run (cancelled : Nat → Bool) {roots front : List Path} {next : Nat} {dir : Path} (names : List Text)
    (hnames : ∀ name ∈ names, name ∈ t.entries dir) {s : Search} (h : Watched t limit roots front next s)
    (hdir : s.directories[next]? = some dir) :
    Watched t limit roots front next (visit t cancelled limit dir names s) ∧
      Extends s (visit t cancelled limit dir names s) ∧
      ((visit t cancelled limit dir names s).cancelled = false →
        exhausted limit (visit t cancelled limit dir names s) = false →
        ∀ name ∈ names, t.eligible dir name → dir ++ [name] ∈ (visit t cancelled limit dir names s).paths) := by
  induction names generalizing s with
  | nil => exact ⟨h, Extends.refl s, fun _ _ name hname => by cases hname⟩
  | cons name names ih =>
    rw [visit]
    by_cases hroom : exhausted limit s = true
    · rw [if_pos hroom]
      refine ⟨h, Extends.refl s, fun _ hfalse => ?_⟩
      rw [hroom] at hfalse
      cases hfalse
    rw [if_neg hroom]
    simp only
    by_cases hask : (ask cancelled s).cancelled = true
    · rw [if_pos hask]
      refine ⟨h.ask cancelled, extends_ask cancelled s, fun hfalse => ?_⟩
      rw [hask] at hfalse
      cases hfalse
    rw [if_neg hask]
    have hroom' : exhausted limit (ask cancelled s) = false := Bool.eq_false_iff.mpr hroom
    obtain ⟨hwatched, hextends, hincluded⟩ :=
      inspect_step (h.ask cancelled) dir hdir (hnames name List.mem_cons_self) hroom'
    generalize inspect t dir name (ask cancelled s) = u at hwatched hextends hincluded
    have hsu := (extends_ask cancelled s).trans hextends
    by_cases hfull : exhausted limit u = true
    · rw [if_pos hfull]
      refine ⟨hwatched, hsu, fun _ hfalse => ?_⟩
      rw [hfull] at hfalse
      cases hfalse
    rw [if_neg hfull]
    by_cases hask' : (ask cancelled u).cancelled = true
    · rw [if_pos hask']
      refine ⟨hwatched.ask cancelled, hsu.trans (extends_ask cancelled u), fun hfalse => ?_⟩
      rw [hask'] at hfalse
      cases hfalse
    rw [if_neg hask']
    have hdir' : (ask cancelled u).directories[next]? = some dir := by
      obtain ⟨more, hmore⟩ := hsu.directories
      change u.directories[next]? = some dir
      rw [← hmore, List.getElem?_append_left (List.getElem?_eq_some_iff.mp hdir).1, hdir]
    obtain ⟨hend, hgrown, hall⟩ := ih (fun m hm => hnames m (List.mem_cons_of_mem _ hm)) (hwatched.ask cancelled) hdir'
    refine ⟨hend, hsu.trans ((extends_ask cancelled u).trans hgrown), fun hcancelled hexhausted m hm heligible => ?_⟩
    rcases List.mem_cons.mp hm with rfl | hm
    · exact hgrown.paths.subset (hincluded heligible)
    · exact hall hcancelled hexhausted m hm heligible

/-- Whether the entries of the first directories of the queue have all been looked at. -/
def Covered (t : Tree) (next : Nat) (s : Search) : Prop :=
  ∀ k < next, ∀ dir, s.directories[k]? = some dir → ∀ name ∈ t.yields dir, t.eligible dir name →
    dir ++ [name] ∈ s.paths

theorem mem_entries_of_mem_yields {dir : Path} {name : Text} (h : name ∈ t.yields dir) : name ∈ t.entries dir := by
  rw [Tree.yields] at h
  split at h
  · exact h
  · exact List.mem_of_mem_take h

theorem Covered.step {next : Nat} {s s' : Search} {dir : Path} (h : Covered t next s) (hextends : Extends s s')
    (hdir : s.directories[next]? = some dir)
    (hnames : ∀ name ∈ t.yields dir, t.eligible dir name → dir ++ [name] ∈ s'.paths) : Covered t (next + 1) s' := by
  obtain ⟨more, hmore⟩ := hextends.directories
  have hlength := (List.getElem?_eq_some_iff.mp hdir).1
  intro k hk dir' hdir' name hname heligible
  rw [← hmore, List.getElem?_append_left (by omega)] at hdir'
  rcases Nat.lt_succ_iff_lt_or_eq.mp hk with hlt | rfl
  · exact hextends.paths.subset (h k hlt dir' hdir' name hname heligible)
  · rw [hdir] at hdir'
    cases hdir'
    exact hnames name hname heligible

/-- The run of the queue. -/
theorem expand_run (cancelled : Nat → Bool) (rounds : Nat) {roots front : List Path} {next : Nat} {s : Search} (h : Watched t limit roots front next s)
    (hrounds : limit ≤ next + rounds) (hcovered : exhausted limit s = false → Covered t next s) :
    (∃ last, Watched t limit roots front last (expand t cancelled limit rounds next s)) ∧
      ((expand t cancelled limit rounds next s).cancelled = false →
        exhausted limit (expand t cancelled limit rounds next s) = false →
        ∀ k, Covered t k (expand t cancelled limit rounds next s)) := by
  have hover : ∀ u : Search, exhausted limit u = false → Covered t next u → u.directories.length ≤ next →
      ∀ k, Covered t k u := by
    intro u _ hu hlength k j _ dir hdir
    have hj := (List.getElem?_eq_some_iff.mp hdir).1
    exact hu j (by omega) dir hdir
  induction rounds generalizing next s with
  | zero =>
    have hlength := h.length_directories
    exact ⟨⟨next, h⟩, fun _ hroom => hover s hroom (hcovered hroom) (by omega)⟩
  | succ rounds ih =>
    rw [expand]
    cases hdir : s.directories[next]? with
    | none => exact ⟨⟨next, h⟩, fun _ hroom => hover s hroom (hcovered hroom) (List.getElem?_eq_none_iff.mp hdir)⟩
    | some dir =>
      simp only
      by_cases hroom : exhausted limit s = true
      · rw [if_pos hroom]
        refine ⟨⟨next, h⟩, fun _ hfalse => ?_⟩
        rw [hroom] at hfalse
        cases hfalse
      rw [if_neg hroom]
      by_cases hask : (ask cancelled s).cancelled = true
      · rw [if_pos hask]
        refine ⟨⟨next, h.ask cancelled⟩, fun hfalse => ?_⟩
        rw [hask] at hfalse
        cases hfalse
      rw [if_neg hask]
      obtain ⟨hwatched, hextends, hall⟩ := visit_run cancelled (t.yields dir)
        (fun name hname => mem_entries_of_mem_yields hname) (h.ask cancelled) hdir
      generalize visit t cancelled limit dir (t.yields dir) (ask cancelled s) = u at hwatched hextends hall
      by_cases hstopped : u.cancelled = true
      · rw [if_pos hstopped]
        refine ⟨⟨next, hwatched⟩, fun hfalse => ?_⟩
        rw [hstopped] at hfalse
        cases hfalse
      rw [if_neg hstopped]
      apply ih hwatched.following (by omega)
      · intro hfree
        exact (hcovered (Bool.eq_false_iff.mpr hroom)).step ((extends_ask cancelled s).trans hextends) hdir
          (hall (Bool.eq_false_iff.mpr hstopped) hfree)
      · intro v _ hv hlength k j _ dir' hdir'
        have hj := (List.getElem?_eq_some_iff.mp hdir').1
        exact hv j (by omega) dir' hdir'

/-- More rounds than there are places change nothing: the loop has ended by itself. -/
theorem expand_more (cancelled : Nat → Bool) (rounds : Nat) {roots front : List Path} {next : Nat} {s : Search} (h : Watched t limit roots front next s)
    (hrounds : limit ≤ next + rounds) (more : Nat) :
    expand t cancelled limit (rounds + more) next s = expand t cancelled limit rounds next s := by
  induction rounds generalizing next s with
  | zero =>
    have hlength := h.length_directories
    cases more with
    | zero => rfl
    | succ more => rw [Nat.zero_add, expand, expand, List.getElem?_eq_none (by omega)]
  | succ rounds ih =>
    rw [Nat.succ_add, expand, expand]
    cases hdir : s.directories[next]? with
    | none => rfl
    | some dir =>
      obtain ⟨hwatched, -⟩ := visit_run cancelled (t.yields dir)
        (fun name hname => mem_entries_of_mem_yields hname) (h.ask cancelled) hdir
      simp only [ih hwatched.following (by omega)]

theorem root_step {all : List Path} {root : Path} (hroot : root ∈ all) {s : Search}
    (h : Watched t limit all s.paths 0 s) (hroom : ¬limit ≤ s.paths.length) :
    Watched t limit all (if t.rooted root then includePath root true s else s).paths 0
        (if t.rooted root then includePath root true s else s) ∧
      s.paths <+: (if t.rooted root then includePath root true s else s).paths ∧
      (t.rooted root → root ∈ (if t.rooted root then includePath root true s else s).paths) := by
  by_cases hrooted : t.rooted root
  · rw [if_pos hrooted, includePath]
    split
    · rename_i hseen
      exact ⟨h, List.prefix_rfl, fun _ => (h.seen _).mp hseen⟩
    · rename_i hnew
      rw [h.seen] at hnew
      refine ⟨⟨.roots, ?_, ?_, ?_, ?_, ?_, h.visited⟩, List.prefix_append _ _, fun _ => ?_⟩
      · intro p hp
        rcases List.mem_append.mp hp with hp | hp
        · exact h.rooted p hp
        · rw [List.mem_singleton.mp hp]
          exact ⟨hroot, hrooted⟩
      · exact List.Nodup.append h.distinct (List.nodup_singleton _) (List.disjoint_singleton.mpr hnew)
      · intro p
        simp only [List.mem_cons, List.mem_append, List.not_mem_nil, or_false]
        rw [or_comm]
        exact or_congr_left (h.seen p)
      · have hdirectory : t.isDirectory root = true := by
          simp only [Tree.rooted, Bool.and_eq_true] at hrooted
          exact hrooted.2
        rw [List.filter_append, List.filter_singleton, hdirectory]
        exact congrArg (· ++ [root]) h.directories
      · rw [List.length_append, List.length_singleton]
        exact Nat.lt_of_not_le hroom
      · exact List.mem_append_right _ (List.mem_singleton.mpr rfl)
  · rw [if_neg hrooted]
    exact ⟨h, List.prefix_rfl, fun hr => absurd hr hrooted⟩

/-- The run over the roots. -/
theorem addRoots_run (cancelled : Nat → Bool) {all roots : List Path} (hroots : ∀ r ∈ roots, r ∈ all) (s : Search)
    (h : Watched t limit all s.paths 0 s) :
    Watched t limit all (addRoots t cancelled limit roots s).paths 0 (addRoots t cancelled limit roots s) ∧
      s.paths <+: (addRoots t cancelled limit roots s).paths ∧
      ((addRoots t cancelled limit roots s).cancelled = false →
        (addRoots t cancelled limit roots s).paths.length < limit →
        ∀ r ∈ roots, t.rooted r → r ∈ (addRoots t cancelled limit roots s).paths) := by
  induction roots generalizing s with
  | nil => exact ⟨h, List.prefix_rfl, fun _ _ r hr => by cases hr⟩
  | cons root roots ih =>
    rw [addRoots]
    by_cases hask : (ask cancelled s).cancelled = true
    · rw [if_pos hask]
      refine ⟨h.ask cancelled, List.prefix_rfl, fun hfalse => ?_⟩
      rw [hask] at hfalse
      cases hfalse
    rw [if_neg hask]
    by_cases hfull : limit ≤ (ask cancelled s).paths.length
    · rw [if_pos hfull]
      exact ⟨h.ask cancelled, List.prefix_rfl, fun _ hlt => by omega⟩
    rw [if_neg hfull]
    obtain ⟨hwatched, hprefix, hroot⟩ := root_step (hroots root List.mem_cons_self) (h.ask cancelled) hfull
    obtain ⟨hend, hmore, hall⟩ := ih (fun r hr => hroots r (List.mem_cons_of_mem _ hr)) _ hwatched
    refine ⟨hend, hprefix.trans hmore, fun hcancelled hroom r hr hrooted => ?_⟩
    rcases List.mem_cons.mp hr with rfl | hr
    · exact hmore.subset (hroot hrooted)
    · exact hall hcancelled hroom r hr hrooted

/-! ## The result -/

/-- The directories and regular files below the roots that no control name hides. -/
inductive Below (t : Tree) (roots : List Path) : Path → Prop where
  | root {r : Path} (h : r ∈ roots) (hplain : t.reparse r = false) (hkind : t.status r = .directory) : Below t roots r
  | entry {dir : Path} {name : Text} (h : Below t roots dir) (hdir : t.status dir = .directory)
      (hname : name ∈ t.entries dir) (hcontrol : ¬Replica.indexControlName name)
      (hplain : t.reparse (dir ++ [name]) = false)
      (hkind : t.status (dir ++ [name]) = .directory ∨ t.status (dir ++ [name]) = .regular) :
      Below t roots (dir ++ [name])

/-- No status of a root or of a visible entry fails, and no listing breaks off. -/
structure Readable (t : Tree) (roots : List Path) : Prop where
  sections : ∀ r ∈ roots, t.statusFails r = false
  entries : ∀ dir, Below t roots dir → ∀ name ∈ t.entries dir, t.statusFails (dir ++ [name]) = false
  listed : ∀ dir, Below t roots dir → t.breaksOff dir = none

theorem below_of_found {roots front paths : List Path} {n : Nat} (h : Found t front n paths)
    (hfront : ∀ p ∈ front, p ∈ roots ∧ t.rooted p) : ∀ p ∈ paths, Below t roots p := by
  induction h with
  | roots =>
    intro p hp
    obtain ⟨hmem, hrooted⟩ := hfront p hp
    simp only [Tree.rooted, Tree.isDirectory, Bool.and_eq_true, Bool.not_eq_true', decide_eq_true_eq] at hrooted
    exact .root hmem hrooted.1.1 hrooted.2
  | next _ ih => exact ih
  | @entry n paths dir name _ hdir hname heligible _ ih =>
    intro p hp
    rcases List.mem_append.mp hp with hp | hp
    · exact ih p hp
    · obtain ⟨hmem, hdirectory⟩ := Found.mem_of_mem_directories hdir
      simp only [Tree.eligible, Bool.and_eq_true, Bool.not_eq_true', Bool.or_eq_true, decide_eq_true_eq] at heligible
      obtain ⟨⟨⟨hcontrol, -⟩, hplain⟩, hkind⟩ := heligible
      rw [List.mem_singleton.mp hp]
      exact .entry (ih dir hmem) (by simpa [Tree.isDirectory] using hdirectory) hname (by simp [hcontrol]) hplain hkind

theorem mem_of_below {roots front : List Path} {last : Nat} {s : Search} (h : Watched t limit roots front last s)
    (hreadable : Readable t roots) (hroots : ∀ r ∈ roots, t.rooted r → r ∈ s.paths)
    (hcovered : ∀ k, Covered t k s) {p : Path} (hp : Below t roots p) : p ∈ s.paths := by
  induction hp with
  | root hmem hplain hkind =>
    apply hroots _ hmem
    simp [Tree.rooted, Tree.isDirectory, hplain, hkind, hreadable.sections _ hmem]
  | @entry dir name hbelow hdir hname hcontrol hplain hkind ih =>
    have hmem : dir ∈ s.directories := by
      rw [h.directories]
      exact List.mem_filter.mpr ⟨ih, by simp [Tree.isDirectory, hdir]⟩
    obtain ⟨k, hk⟩ := List.getElem?_of_mem hmem
    apply hcovered (k + 1) k (Nat.lt_succ_self k) dir hk
    · rw [Tree.yields, hreadable.listed dir hbelow]
      exact hname
    · have hstatus := hreadable.entries dir hbelow name hname
      simpa [Tree.eligible, hplain, hstatus, hcontrol] using hkind

/-- What a search comes to, however it ends. -/
structure Outcome (t : Tree) (limit : Nat) (roots front : List Path) (s : Search) : Prop where
  watched : ∃ last, Watched t limit roots front last s
  first : front.length < s.paths.length → ∀ r ∈ roots, t.rooted r → r ∈ front
  complete : s.cancelled = false → exhausted limit s = false →
    (∀ r ∈ roots, t.rooted r → r ∈ s.paths) ∧ ∀ k, Covered t k s

theorem Outcome.of_cancelled {roots front : List Path} {last : Nat} {s : Search}
    (h : Watched t limit roots front last s) (hfirst : front.length < s.paths.length → ∀ r ∈ roots, t.rooted r → r ∈ front)
    (hcancelled : s.cancelled = true) : Outcome t limit roots front s := by
  refine ⟨⟨last, h⟩, hfirst, fun hfalse => ?_⟩
  rw [hcancelled] at hfalse
  cases hfalse

theorem watched_nil (t : Tree) (limit : Nat) (roots : List Path) : Watched t limit roots [] 0 {} :=
  ⟨.roots, by simp, List.nodup_nil, by simp, rfl, Nat.zero_le _, Nat.zero_le _⟩

theorem search_outcome (t : Tree) (cancelled : Nat → Bool) (limit : Nat) (roots : List Path) {rounds : Nat}
    (hrounds : limit ≤ rounds) : ∃ front, Outcome t limit roots front (search t cancelled limit rounds roots) := by
  have hnil := watched_nil t limit roots
  rw [search]
  simp only
  by_cases hask : (ask cancelled {}).cancelled = true
  · rw [if_pos hask]
    exact ⟨[], Outcome.of_cancelled (hnil.ask cancelled) (by simp [ask]) hask⟩
  rw [if_neg hask]
  by_cases hlimit : limit = 0
  · rw [if_pos hlimit]
    refine ⟨[], ⟨0, hnil.ask cancelled⟩, by simp [ask], fun _ hroom => ?_⟩
    have hlt := (exhausted_eq_false.mp hroom).1
    omega
  rw [if_neg hlimit]
  obtain ⟨hrooted, -, hall⟩ := addRoots_run cancelled (fun r hr => hr) (ask cancelled {})
    (hnil.ask cancelled)
  generalize addRoots t cancelled limit roots (ask cancelled {}) = u at hrooted hall
  refine ⟨u.paths, ?_⟩
  by_cases hstopped : u.cancelled = true
  · rw [if_pos hstopped]
    exact Outcome.of_cancelled hrooted (fun h => absurd h (lt_irrefl _)) hstopped
  rw [if_neg hstopped]
  have hroots := hall (Bool.eq_false_iff.mpr hstopped)
  obtain ⟨⟨last, hwatched⟩, hcovered⟩ := expand_run cancelled rounds hrooted (by omega)
    fun _ k hk => absurd hk (Nat.not_lt_zero k)
  generalize expand t cancelled limit rounds 0 u = v at hwatched hcovered
  have hprefix := hwatched.found.prefix_front
  have hfirst : u.paths.length < v.paths.length → ∀ r ∈ roots, t.rooted r → r ∈ u.paths := fun hlt =>
    hroots (lt_of_lt_of_le hlt hwatched.within)
  by_cases hcancelled : v.cancelled = true
  · rw [if_pos hcancelled]
    exact Outcome.of_cancelled hwatched hfirst hcancelled
  rw [if_neg hcancelled]
  refine ⟨⟨last, hwatched.ask cancelled⟩, hfirst, fun _ hroom => ⟨fun r hr hr' => ?_, ?_⟩⟩
  · have hlt := lt_of_le_of_lt hprefix.length_le (exhausted_eq_false.mp hroom).1
    exact hprefix.subset (hroots hlt r hr hr')
  · exact hcovered (Bool.eq_false_iff.mpr hcancelled) hroom

/-- A search never needs more rounds than its limit. -/
theorem search_more (t : Tree) (cancelled : Nat → Bool) (limit more : Nat) (roots : List Path) :
    search t cancelled limit (limit + more) roots = collectWatchPaths t cancelled limit roots := by
  have hrooted := (addRoots_run cancelled (fun r hr => hr) (ask cancelled {})
    ((watched_nil t limit roots).ask cancelled)).1
  rw [collectWatchPaths, search, search]
  simp only [expand_more cancelled limit hrooted (by omega)]

/-- The shape of the result, for every tree, every list of roots, every limit and every caller. -/
theorem collectWatchPaths_shape (t : Tree) (cancelled : Nat → Bool) (limit : Nat) (roots : List Path) :
    (∀ more, search t cancelled limit (limit + more) roots = collectWatchPaths t cancelled limit roots) ∧
    (collectWatchPaths t cancelled limit roots).paths.Nodup ∧
    (collectWatchPaths t cancelled limit roots).paths.length ≤ limit ∧
    (collectWatchPaths t cancelled limit roots).visitedEntries ≤ min (8 * limit) sizeMax ∧
    (collectWatchPaths t cancelled limit roots).directories =
      (collectWatchPaths t cancelled limit roots).paths.filter t.isDirectory ∧
    (∃ front rest, (collectWatchPaths t cancelled limit roots).paths = front ++ rest ∧
      (∀ p ∈ front, p ∈ roots ∧ t.rooted p) ∧ (rest ≠ [] → ∀ r ∈ roots, t.rooted r → r ∈ front) ∧
      (∀ before p after, (collectWatchPaths t cancelled limit roots).paths = before ++ p :: after →
        p ∈ front ∨ p.dropLast ∈ before ∧ t.isDirectory p.dropLast) ∧
      (collectWatchPaths t cancelled limit roots).paths.Pairwise (fun p q => level front p ≤ level front q) ∧
      (collectWatchPaths t cancelled limit roots).paths.Pairwise fun p q => p ∉ front → q ∉ front →
        (collectWatchPaths t cancelled limit roots).directories.idxOf p.dropLast ≤
          (collectWatchPaths t cancelled limit roots).directories.idxOf q.dropLast) ∧
    (∀ p ∈ (collectWatchPaths t cancelled limit roots).paths, ∃ r ∈ roots, t.rooted r ∧
      ∃ names, p = r ++ names ∧ ∀ name ∈ names, ¬Replica.indexControlName name) ∧
    ((collectWatchPaths t cancelled limit roots).cancelled = false →
      (collectWatchPaths t cancelled limit roots).paths.length < limit →
      (collectWatchPaths t cancelled limit roots).visitedEntries < inspectionLimit limit → Readable t roots →
      ∀ p, p ∈ (collectWatchPaths t cancelled limit roots).paths ↔ Below t roots p) := by
  obtain ⟨front, ⟨last, hwatched⟩, hfirst, hcomplete⟩ := search_outcome t cancelled limit roots (Nat.le_refl limit)
  rw [← collectWatchPaths] at hwatched hfirst hcomplete
  refine ⟨fun more => search_more t cancelled limit more roots, hwatched.found.nodup hwatched.distinct, hwatched.within,
    inspectionLimit_eq limit ▸ hwatched.visited, hwatched.directories, ?_, ?_, ?_⟩
  · obtain ⟨rest, hrest⟩ := hwatched.found.prefix_front
    refine ⟨front, rest, hrest.symm, hwatched.rooted, fun hne => hfirst ?_, fun before p after hp =>
      hwatched.found.parent hp, hwatched.found.levels.1, ?_⟩
    · have hpositive := List.length_pos_iff.mpr hne
      rw [← hrest, List.length_append]
      omega
    · rw [hwatched.directories]
      exact hwatched.found.ordered hwatched.distinct
  · intro p hp
    obtain ⟨r, hr, names, hnames, hall⟩ := hwatched.found.uncontrolled p hp
    exact ⟨r, (hwatched.rooted r hr).1, (hwatched.rooted r hr).2, names, hnames, hall⟩
  · intro hcancelled hpaths hvisited hreadable p
    obtain ⟨hroots, hcovered⟩ := hcomplete hcancelled (exhausted_eq_false.mpr ⟨hpaths, hvisited⟩)
    constructor
    · exact below_of_found hwatched.found hwatched.rooted p
    · exact mem_of_below hwatched hreadable hroots hcovered

/-- A root with a visible file and a private directory. -/
def Tree.sample : Tree where
  status p := if p = [text "root"] ∨ p = [text "root", text ".society-private"] then .directory
    else if p = [text "root", text "file"] then .regular else .other
  entries p := if p = [text "root"] then [text ".society-private", text "file"] else []

/-- Nothing is cancelled, full or unreadable there, so the result is complete. -/
theorem collectWatchPaths_shape_sample :
    Below Tree.sample [[text "root"]] [text "root", text "file"] ∧
      ¬Below Tree.sample [[text "root"]] [text "root", text ".society-private"] := by
  have hexact := (collectWatchPaths_shape Tree.sample (fun _ => false) 64 [[text "root"]]).2.2.2.2.2.2.2 (by decide)
    (by decide) (by decide) ⟨fun _ _ => rfl, fun _ _ _ _ => rfl, fun _ _ => rfl⟩
  exact ⟨(hexact _).mp (by decide), fun h => absurd ((hexact _).mpr h) (by decide)⟩

end WatchPaths

end SocietyHelper.Sync
