import SocietyHelper.Storage.GenerationStorage

/-! # The migration loses nothing

What a run can do to the two trees is a relation that names no clock and no
failure. Every run of the code stays within it, and whatever it allows keeps
every file and is finished by a run in which nothing fails.
-/

namespace SocietyHelper.Storage

open Library

def hash : Place → Text
  | .file bytes => sha256 bytes
  | _ => []

/-- A file has left the source: renamed to a free name, or given up for a file of its digest. -/
inductive Placed (name : Text) (bytes : Bytes) (into : Place) : Place → Prop where
  | renamed {next : Place} (free : into.child name = none) (put : into.put name (.file bytes) = some next) :
      Placed name bytes into next
  | dropped {target : Place} (taken : into.child name = some target) (regular : target.regular)
      (same : hash target = sha256 bytes) : Placed name bytes into into

/-- A directory of the destination stands ready for the entries of one in the source. -/
inductive Opened (name : Text) (into : Place) : Place → Folder → Prop where
  | made {next : Place} (free : into.child name = none) (put : into.put name (.directory .nil) = some next) :
      Opened name into next .nil
  | found {target : Folder} (taken : into.child name = some (.directory target)) (regular : target.regular) :
      Opened name into into target

/-- What a run over the entries of a directory may leave, and whether it went through all of them. -/
inductive Moves : Folder → Place → Folder → Place → Bool → Prop where
  | all (into : Place) : Moves .nil into .nil into true
  | stopped (f : Folder) (into : Place) : Moves f into f into false
  | file {name : Text} {bytes : Bytes} {rest left : Folder} {into next last : Place} {d : Bool}
      (placed : Placed name bytes into next) (go : Moves rest next left last d) :
      Moves (.file name bytes rest) into left last d
  | within {name : Text} {inner rest left target : Folder} {into next inside last : Place} {d : Bool}
      (opened : Opened name into next target) (go : Moves inner (.directory target) left inside d)
      (put : next.put name inside = some last) :
      Moves (.directory name inner rest) into (.directory name left rest) last false
  | through {name : Text} {inner rest left target : Folder} {into next inside after last : Place} {d : Bool}
      (opened : Opened name into next target) (go : Moves inner (.directory target) .nil inside true)
      (put : next.put name inside = some after) (on : Moves rest after left last d) :
      Moves (.directory name inner rest) into left last d

/-! ## The code stays within the relation -/

theorem digestFrom_eq (e : Environment) (bytes : Bytes) (blocks n : Nat) :
    (digestFrom e bytes blocks n).1 = [] ∨ (digestFrom e bytes blocks n).1 = sha256 bytes := by
  induction blocks generalizing n with
  | zero => exact .inr rfl
  | succ blocks ih =>
    rw [digestFrom]
    split
    · exact .inl rfl
    · exact ih (n + 2)

theorem digest_eq (e : Environment) (place : Place) (n : Nat) :
    (digest e place n).1 = [] ∨ (digest e place n).1 = hash place := by
  cases place with
  | file bytes =>
    rw [digest]
    split
    · exact .inl rfl
    · exact digestFrom_eq e bytes _ _
  | directory entries => exact .inl rfl
  | link => exact .inl rfl

theorem sha256_ne_nil (bytes : Bytes) : sha256 bytes ≠ [] := ne_nil_of_hex (hex_sha256 bytes)

theorem file_of_hash {target : Place} {bytes : Bytes} (h : hash target = sha256 bytes) :
    ∃ held, target = .file held ∧ sha256 held = sha256 bytes := by
  cases target with
  | file held => exact ⟨held, rfl, h⟩
  | directory entries => exact absurd h.symm (sha256_ne_nil bytes)
  | link => exact absurd h.symm (sha256_ne_nil bytes)

theorem moveFile_placed {e : Environment} {name : Text} {bytes : Bytes} {into next : Place} {n : Nat}
    (h : (moveFile e name bytes into n).2 = some next) : Placed name bytes into next := by
  rw [moveFile] at h
  split at h
  · cases h
  · cases hc : into.child name with
    | none =>
      simp only [hc] at h
      split at h
      · cases h
      · exact .renamed hc h
    | some target =>
      simp only [hc] at h
      split at h
      · cases h
      · rename_i hno
        simp only [Bool.or_eq_true, decide_eq_true_eq, not_or, Bool.not_eq_true, ne_eq, not_not,
          Bool.not_eq_false'] at hno
        obtain ⟨⟨⟨⟨hne, hregular⟩, hsame⟩, -⟩, -⟩ := hno
        have horiginal := (digest_eq e (.file bytes) (n + 1)).resolve_left hne
        have hfound := (digest_eq e target _).resolve_left (hsame ▸ hne)
        cases h
        exact .dropped hc hregular (hfound.symm.trans (hsame.symm.trans horiginal))

theorem openTarget_opened {e : Environment} {name : Text} {into next : Place} {target : Folder} {n : Nat}
    (h : openTarget e name into n = some (next, target)) : Opened name into next target := by
  rw [openTarget] at h
  split at h
  · cases h
  · cases hc : into.child name with
    | none =>
      simp only [hc] at h
      split at h
      · cases h
      · cases hp : into.put name (.directory .nil) with
        | none => simp [hp] at h
        | some made =>
          simp only [hp, Option.map_some, Option.some.injEq, Prod.mk.injEq] at h
          obtain ⟨rfl, rfl⟩ := h
          exact .made hc hp
    | some place =>
      simp only [hc] at h
      cases place with
      | directory entries =>
        simp only at h
        split at h
        · cases h
          exact .found hc ‹_›
        · cases h
      | file bytes => cases h
      | link => cases h

theorem Opened.child {name : Text} {into next : Place} {target : Folder} (h : Opened name into next target) :
    next.child name = some (.directory target) := by
  cases h with
  | made free put => rw [Place.child_put put, if_pos rfl]
  | found taken regular => exact taken

theorem put_of_child {into place : Place} {name : Text} (h : into.child name = some place) (new : Place) :
    ∃ next, into.put name new = some next := by
  cases into with
  | directory entries => exact ⟨_, rfl⟩
  | file bytes => cases h
  | link => cases h

/-- A failed listing looks like the end of a loop, but then something is left to be removed. -/
theorem listed_moves {e : Environment} {f : Folder} {into : Place} {n : Nat} {loop : Moved}
    (h : Moves f into loop.left loop.into loop.done) :
    let m := listed e f into n loop
    (∃ d, Moves f into m.left m.into d) ∧ (emptied e m → Moves f into .nil m.into true) := by
  rw [listed]
  split
  · refine ⟨⟨false, .stopped f into⟩, fun hm => ?_⟩
    simp only [emptied, Bool.true_and, Bool.and_eq_true, decide_eq_true_eq] at hm
    rw [hm.1]
    exact .all into
  · refine ⟨⟨loop.done, h⟩, fun hm => ?_⟩
    simp only [emptied, Bool.and_eq_true, decide_eq_true_eq] at hm
    rwa [hm.1.1, hm.1.2] at h

theorem moves_moveEntries (e : Environment) (f : Folder) (into : Place) (n : Nat) :
    let m := moveEntries e f into n
    Moves f into m.left m.into m.done := by
  induction f generalizing into n with
  | nil => exact .all into
  | file name bytes rest ih =>
    simp only [moveEntries]
    split
    · exact .stopped _ into
    · rename_i k next hm
      exact .file (moveFile_placed (congrArg Prod.snd hm)) (ih next k)
  | directory name inner rest ihInner ihRest =>
    simp only [moveEntries]
    split
    · exact .stopped _ into
    · rename_i next target ho
      have opened := openTarget_opened ho
      obtain ⟨⟨d, go⟩, full⟩ := listed_moves (e := e) (n := n + 2) (ihInner (.directory target) (n + 3))
      generalize hm : listed e inner (.directory target) (n + 2)
        (moveEntries e inner (.directory target) (n + 3)) = m at go full ⊢
      obtain ⟨last, put⟩ := put_of_child opened.child m.into
      simp only [put, Option.getD_some]
      split
      · exact .through opened (full ‹_›) put (ihRest last _)
      · exact .within opened go put
  | link name rest ih => exact .stopped _ into

/-! ## Nothing is lost -/

/-- Every file that was there is there, with the same bytes. -/
def Grows (into last : Place) : Prop := ∀ path b, into.fileAt path = some b → last.fileAt path = some b

theorem Grows.trans {a b c : Place} (h : Grows a b) (h' : Grows b c) : Grows a c :=
  fun path x hx => h' path x (h path x hx)

theorem fileAt_nil_put {into next place : Place} {name : Text} (h : into.put name place = some next) :
    into.fileAt [] = none ∧ next.fileAt [] = none := by
  obtain ⟨entries, rfl, rfl⟩ := Place.put_eq_some h
  exact ⟨rfl, rfl⟩

theorem Grows.put {into next old new : Place} {name : Text} (put : into.put name new = some next)
    (held : into.child name = some old) (h : Grows old new) : Grows into next := by
  intro path b hb
  cases path with
  | nil => simp [(fileAt_nil_put put).1] at hb
  | cons k path =>
    rw [Place.fileAt_put put]
    split
    · subst k
      rw [Place.fileAt_cons held] at hb
      exact h path b hb
    · exact hb

theorem Grows.put_free {into next new : Place} {name : Text} (put : into.put name new = some next)
    (free : into.child name = none) : Grows into next := by
  intro path b hb
  cases path with
  | nil => simp [(fileAt_nil_put put).1] at hb
  | cons k path =>
    rw [Place.fileAt_put put]
    split
    · subst k
      obtain ⟨inner, hc, -⟩ := Place.fileAt_eq_some hb
      simp [free] at hc
    · exact hb

theorem Placed.grows {name : Text} {bytes : Bytes} {into next : Place} (h : Placed name bytes into next) :
    Grows into next := by
  cases h with
  | renamed free put => exact .put_free put free
  | dropped taken regular same => exact fun _ _ hb => hb

theorem Opened.grows {name : Text} {into next : Place} {target : Folder} (h : Opened name into next target) :
    Grows into next := by
  cases h with
  | made free put => exact .put_free put free
  | found taken regular => exact fun _ _ hb => hb

theorem Moves.grows {f left : Folder} {into last : Place} {d : Bool} (h : Moves f into left last d) :
    Grows into last := by
  induction h with
  | all into => exact fun _ _ hb => hb
  | stopped f into => exact fun _ _ hb => hb
  | file placed go ih => exact placed.grows.trans ih
  | within opened go put ih => exact opened.grows.trans (.put put opened.child ih)
  | through opened go put on ih ihOn => exact (opened.grows.trans (.put put opened.child ih)).trans ihOn

/-- No two different files of the list have one digest. -/
def CollisionFree (files : List Bytes) : Prop := ∀ a ∈ files, ∀ b ∈ files, sha256 a = sha256 b → a = b

theorem CollisionFree.mono {files fewer : List Bytes} (h : CollisionFree files) (hs : fewer ⊆ files) :
    CollisionFree fewer := fun a ha b hb => h a (hs ha) b (hs hb)

theorem Placed.contents {name : Text} {bytes : Bytes} {into next : Place} (h : Placed name bytes into next)
    (rest : Folder) :
    rest.contents ++ next.contents ⊆ (Folder.file name bytes rest).contents ++ into.contents := by
  intro x hx
  cases h with
  | renamed free put =>
    have := Place.contents_put put (a := x)
    simp only [Folder.contents, Place.contents, List.mem_append, List.mem_cons, List.not_mem_nil] at *
    tauto
  | dropped taken regular same =>
    simp only [Folder.contents, List.mem_append, List.mem_cons] at *
    tauto

theorem Opened.inside {name : Text} {into next : Place} {target : Folder} (h : Opened name into next target)
    (inner rest : Folder) :
    inner.contents ++ target.contents ⊆ (Folder.directory name inner rest).contents ++ into.contents := by
  intro x hx
  cases h with
  | made free put =>
    simp only [Folder.contents, List.mem_append, List.not_mem_nil] at *
    tauto
  | found taken regular =>
    have := Place.contents_child taken (a := x)
    simp only [Folder.contents, Place.contents, List.mem_append] at *
    tauto

theorem Opened.outside {name : Text} {into next inside last : Place} {inner target : Folder}
    (h : Opened name into next target) (go : inside.contents ⊆ inner.contents ++ target.contents)
    (put : next.put name inside = some last) (rest : Folder) :
    rest.contents ++ last.contents ⊆ (Folder.directory name inner rest).contents ++ into.contents := by
  intro x hx
  have hnext : x ∈ next.contents → x ∈ into.contents := by
    cases h with
    | made free put => exact fun hn => by simpa [Place.contents, Folder.contents] using Place.contents_put put hn
    | found taken regular => exact id
  have hinside := h.inside inner rest (a := x)
  have hgo := go (a := x)
  have hput := Place.contents_put put (a := x)
  simp only [Folder.contents, List.mem_append] at *
  tauto

theorem Moves.contents {f left : Folder} {into last : Place} {d : Bool} (h : Moves f into left last d) :
    last.contents ⊆ f.contents ++ into.contents := by
  induction h with
  | all into => exact List.subset_append_right _ _
  | stopped f into => exact List.subset_append_right _ _
  | file placed go ih => exact List.Subset.trans ih (placed.contents _)
  | within opened go put ih => exact List.Subset.trans (List.subset_append_right _ _) (opened.outside ih put _)
  | through opened go put on ih ihOn => exact List.Subset.trans ihOn (opened.outside ih put _)

theorem Placed.fileAt {name : Text} {bytes : Bytes} {into next : Place} (h : Placed name bytes into next)
    (hfree : CollisionFree (bytes :: into.contents)) : next.fileAt [name] = some bytes := by
  cases h with
  | renamed free put => rw [Place.fileAt_put put, if_pos rfl]; rfl
  | dropped taken regular same =>
    obtain ⟨held, rfl, heq⟩ := file_of_hash same
    have hmem : held ∈ into.contents := Place.contents_child taken (List.mem_singleton.mpr rfl)
    have : held = bytes := hfree held (List.mem_cons_of_mem _ hmem) bytes List.mem_cons_self heq
    rw [Place.fileAt_cons taken, this]
    rfl

theorem fileAt_rest {rest : Folder} {k : Text} {place : Place} (h : rest.find k = some place)
    (path : List Text) : (Place.directory rest).fileAt (k :: path) = place.fileAt path :=
  Place.fileAt_cons (show (Place.directory rest).child k = some place from h) path

/-- Every file of the source is still there, or it is in the destination. -/
theorem Moves.keeps {f left : Folder} {into last : Place} {d : Bool} (h : Moves f into left last d)
    (hfree : CollisionFree (f.contents ++ into.contents)) {path : List Text} {b : Bytes}
    (hb : (Place.directory f).fileAt path = some b) :
    (Place.directory left).fileAt path = some b ∨ last.fileAt path = some b := by
  induction h generalizing path with
  | all into => exact .inl hb
  | stopped f into => exact .inl hb
  | @file name bytes rest left into next last d placed go ih =>
    cases path with
    | nil => cases hb
    | cons k path =>
      obtain ⟨inner, hc, hi⟩ := Place.fileAt_eq_some hb
      simp only [Place.child, Folder.find] at hc
      split at hc
      · subst k
        cases hc
        cases path with
        | cons _ _ => cases hi
        | nil =>
          cases hi
          exact .inr (go.grows _ _ (placed.fileAt (hfree.mono (by simp [Folder.contents]))))
      · exact ih (hfree.mono (placed.contents rest)) ((fileAt_rest hc path).trans hi)
  | @within name inner rest left target into next inside last d opened go put ih =>
    cases path with
    | nil => cases hb
    | cons k path =>
      obtain ⟨place, hc, hi⟩ := Place.fileAt_eq_some hb
      simp only [Place.child, Folder.find] at hc
      split at hc
      · subst k
        cases hc
        rcases ih (hfree.mono (opened.inside inner rest)) hi with h | h
        · exact .inl ((Place.fileAt_cons (by simp [Place.child, Folder.find]) path).trans h)
        · exact .inr ((Place.fileAt_put put name path).trans (by rw [if_pos rfl]; exact h))
      · refine .inl ((Place.fileAt_cons ?_ path).trans hi)
        simpa [Place.child, Folder.find, ‹k ≠ name›] using hc
  | @through name inner rest left target into next inside after last d opened go put on ih ihOn =>
    cases path with
    | nil => cases hb
    | cons k path =>
      obtain ⟨place, hc, hi⟩ := Place.fileAt_eq_some hb
      simp only [Place.child, Folder.find] at hc
      split at hc
      · subst k
        cases hc
        rcases ih (hfree.mono (opened.inside inner rest)) hi with h | h
        · cases path <;> cases h
        · exact .inr (on.grows _ _ ((Place.fileAt_put put name path).trans (by rw [if_pos rfl]; exact h)))
      · exact ihOn (hfree.mono (opened.outside go.contents put rest)) ((fileAt_rest hc path).trans hi)

/-! ## The next run finishes the work -/

namespace Moved

/-- What a loop leaves, without the time it took. -/
def outcome (m : Moved) : Folder × Place × Bool := (m.left, m.into, m.done)

end Moved

theorem digestFrom_calm (bytes : Bytes) (blocks n : Nat) :
    (digestFrom .calm bytes blocks n).1 = sha256 bytes := by
  induction blocks generalizing n with
  | zero => rfl
  | succ blocks ih => exact ih (n + 2)

theorem digest_calm (place : Place) (n : Nat) : (digest .calm place n).1 = hash place := by
  cases place with
  | file bytes =>
    rw [digest, if_neg (by simp [Environment.calm]), digestFrom_calm]
    rfl
  | directory entries => rfl
  | link => rfl

theorem moveFile_calm {name : Text} {bytes : Bytes} {into next : Place} (h : Placed name bytes into next)
    (n : Nat) : (moveFile .calm name bytes into n).2 = some next := by
  rw [moveFile, if_neg (by simp [Environment.calm])]
  cases h with
  | renamed free put => simpa [free, Environment.calm] using put
  | @dropped target taken regular same =>
    have hfile : hash (.file bytes) = sha256 bytes := rfl
    simp only [taken, digest_calm, hfile, same, sha256_ne_nil, regular]
    simp [Environment.calm]

theorem openTarget_calm {name : Text} {into next : Place} {target : Folder}
    (h : Opened name into next target) (n : Nat) : openTarget .calm name into n = some (next, target) := by
  rw [openTarget, if_neg (by simp [Environment.calm])]
  cases h with
  | made free put => simp [free, put, Environment.calm]
  | found taken regular => simp only [taken, regular, if_true]

/-- After a file has left the source, the calm run goes on with the entries that follow. -/
theorem calm_file {name : Text} {bytes : Bytes} {into next : Place} (h : Placed name bytes into next)
    (rest : Folder) (n : Nat) :
    ∃ k, moveEntries .calm (.file name bytes rest) into n = moveEntries .calm rest next k := by
  refine ⟨(moveFile .calm name bytes into n).1, ?_⟩
  have hm : moveFile .calm name bytes into n = ((moveFile .calm name bytes into n).1, some next) :=
    Prod.ext rfl (moveFile_calm h n)
  rw [moveEntries, hm]

/-- A directory is finished when nothing is left in it. -/
def whole (o : Folder × Place × Bool) : Bool := o.2.2 && o.1 = .nil

theorem calm_directory {name : Text} {into next : Place} {target : Folder}
    (h : Opened name into next target) (inner rest : Folder) (n : Nat) :
    let o := (moveEntries .calm inner (.directory target) (n + 3)).outcome
    ∃ last k, next.put name o.2.1 = some last ∧
      (moveEntries .calm (.directory name inner rest) into n).outcome =
        if whole o then (moveEntries .calm rest last k).outcome else (.directory name o.1 rest, last, false) := by
  generalize hm : moveEntries .calm inner (.directory target) (n + 3) = m
  obtain ⟨last, put⟩ := put_of_child h.child m.into
  refine ⟨last, m.clock + 1, put, ?_⟩
  have hlisted : listed .calm inner (.directory target) (n + 2) m = m := rfl
  have hempty : emptied .calm m = whole m.outcome := Bool.and_true _
  simp only [moveEntries, openTarget_calm h, hm, hlisted, put, Option.getD_some, hempty]
  split <;> rfl

theorem moveFile_clock (name : Text) (bytes : Bytes) (into : Place) (n k : Nat) :
    (moveFile .calm name bytes into n).2 = (moveFile .calm name bytes into k).2 := by
  ext next
  exact ⟨fun h => moveFile_calm (moveFile_placed h) k, fun h => moveFile_calm (moveFile_placed h) n⟩

theorem calm_clock (f : Folder) (into : Place) (n k : Nat) :
    (moveEntries .calm f into n).outcome = (moveEntries .calm f into k).outcome := by
  induction f generalizing into n k with
  | nil => rfl
  | file name bytes rest ih =>
    cases hn : (moveFile .calm name bytes into n).2 with
    | none =>
      have hk := (moveFile_clock name bytes into n k).symm.trans hn
      obtain ⟨i, hi⟩ : ∃ i, moveFile .calm name bytes into n = (i, none) := ⟨_, Prod.ext rfl hn⟩
      obtain ⟨j, hj⟩ : ∃ j, moveFile .calm name bytes into k = (j, none) := ⟨_, Prod.ext rfl hk⟩
      simp only [moveEntries, hi, hj, Moved.outcome]
    | some next =>
      obtain ⟨i, hi⟩ := calm_file (moveFile_placed hn) rest n
      obtain ⟨j, hj⟩ := calm_file (moveFile_placed hn) rest k
      rw [hi, hj]
      exact ih next i j
  | directory name inner rest ihInner ihRest =>
    cases ho : openTarget .calm name into n with
    | none =>
      have hk : openTarget .calm name into k = none := ho
      simp only [moveEntries, ho, hk, Moved.outcome]
    | some p =>
      obtain ⟨next, target⟩ := p
      obtain ⟨last, i, put, hi⟩ := calm_directory (openTarget_opened ho) inner rest n
      obtain ⟨last', j, put', hj⟩ := calm_directory (openTarget_opened ho) inner rest k
      rw [ihInner (.directory target) (k + 3) (n + 3)] at put' hj
      cases put.symm.trans put'
      rw [hi, hj]
      split
      · exact ihRest last i j
      · rfl
  | link name rest ih => rfl

theorem Opened.regular {name : Text} {into next : Place} {target : Folder}
    (h : Opened name into next target) (hi : into.regular) : next.regular := by
  cases h with
  | made free put => exact Place.regular_put put hi rfl
  | found taken regular => exact hi

theorem Opened.target_regular {name : Text} {into next : Place} {target : Folder}
    (h : Opened name into next target) : (Place.directory target).regular := by
  cases h with
  | made free put => rfl
  | found taken regular => exact regular

theorem Moves.regular {f left : Folder} {into last : Place} {d : Bool} (h : Moves f into left last d)
    (hi : into.regular) : last.regular := by
  induction h with
  | all into => exact hi
  | stopped f into => exact hi
  | file placed go ih =>
    refine ih ?_
    cases placed with
    | renamed free put => exact Place.regular_put put hi rfl
    | dropped taken regular same => exact hi
  | within opened go put ih => exact Place.regular_put put (opened.regular hi) (ih opened.target_regular)
  | through opened go put on ih ihOn =>
    exact ihOn (Place.regular_put put (opened.regular hi) (ih opened.target_regular))

theorem Moves.left_regular {f left : Folder} {into last : Place} {d : Bool} (h : Moves f into left last d)
    (hf : f.regular) : left.regular := by
  induction h with
  | all into => exact hf
  | stopped f into => exact hf
  | file placed go ih => exact ih hf
  | within opened go put ih =>
    simp only [Folder.regular, Bool.and_eq_true] at hf ⊢
    exact ⟨ih hf.1, hf.2⟩
  | through opened go put on ih ihOn =>
    simp only [Folder.regular, Bool.and_eq_true] at hf
    exact ihOn hf.2

theorem Moves.directory {f left entries : Folder} {into last : Place} {d : Bool}
    (h : Moves f into left last d) (hi : into = .directory entries) : ∃ after, last = .directory after := by
  induction h generalizing entries with
  | all into => exact ⟨entries, hi⟩
  | stopped f into => exact ⟨entries, hi⟩
  | file placed go ih =>
    cases placed with
    | renamed free put =>
      obtain ⟨f, -, hnext⟩ := Place.put_eq_some put
      exact ih hnext
    | dropped taken regular same => exact ih hi
  | within opened go put ih =>
    obtain ⟨f, -, hlast⟩ := Place.put_eq_some put
    exact ⟨_, hlast⟩
  | through opened go put on ih ihOn =>
    obtain ⟨f, -, hafter⟩ := Place.put_eq_some put
    exact ihOn hafter

/-- Whatever a run has left, a calm run makes of it what it would have made of the beginning. -/
theorem Moves.resumed {f left : Folder} {into last : Place} {d : Bool} (h : Moves f into left last d)
    (n k : Nat) :
    (moveEntries .calm left last n).outcome = (moveEntries .calm f into k).outcome := by
  induction h generalizing n k with
  | all into => rfl
  | stopped f into => exact calm_clock f into n k
  | @file name bytes rest left into next last d placed go ih =>
    obtain ⟨j, hj⟩ := calm_file placed rest k
    rw [hj]
    exact ih n j
  | @within name inner rest left target into next inside last d opened go put ih =>
    obtain ⟨entries, rfl⟩ := go.directory rfl
    have hregular : entries.regular := go.regular opened.target_regular
    have hchild : last.child name = some (.directory entries) := by rw [Place.child_put put, if_pos rfl]
    obtain ⟨l, i, hput, hleft⟩ := calm_directory (.found hchild hregular) left rest n
    obtain ⟨r, j, hput', hright⟩ := calm_directory opened inner rest k
    -- Both runs of the inner directory end alike, and what is put last decides what stands there.
    rw [ih (n + 3) (k + 3), Place.put_put put] at hput
    rw [ih (n + 3) (k + 3)] at hleft
    cases hput.symm.trans hput'
    rw [hleft, hright]
    split
    · exact calm_clock rest l i j
    · rfl
  | @through name inner rest left target into next inside after last d opened go put on ih ihOn =>
    obtain ⟨r, j, hput, hright⟩ := calm_directory opened inner rest k
    have hinner : (moveEntries .calm inner (.directory target) (k + 3)).outcome = (.nil, inside, true) :=
      (ih 0 (k + 3)).symm
    rw [hinner] at hput hright
    cases put.symm.trans hput
    rw [hright, if_pos (by rfl)]
    exact ihOn n j

/-! ## The migration -/

theorem moves_move (e : Environment) (f : Folder) (into : Place) :
    let m := move e f into 0
    (∃ d, Moves f into m.1.left m.1.into d) ∧ (m.2 = true → Moves f into .nil m.1.into true) :=
  listed_moves (moves_moveEntries e f into 1)

theorem move_calm {f left : Folder} {into last : Place} {d : Bool} (h : Moves f into left last d) :
    let m := move .calm left last 0
    let k := move .calm f into 0
    m.1.left = k.1.left ∧ m.1.into = k.1.into ∧ m.2 = k.2 := by
  have ho := h.resumed 1 1
  simp only [Moved.outcome, Prod.mk.injEq] at ho
  simp only [move, listed, emptied, Environment.calm, Bool.false_eq_true, if_false] at ho ⊢
  rw [ho.1, ho.2.1, ho.2.2]
  exact ⟨rfl, rfl, rfl⟩

/-- A migration that passes the checks and has a directory to move. -/
structure Ready (source destination : Location) (entries : Folder) (into : Place) : Prop where
  moved : source.place = some (.directory entries)
  taken : destination.place = some into
  regular : source.regularTree ∧ destination.regularTree
  apart : nested source.path destination.path = false

theorem migrate_ready (e : Environment) {source destination : Location} {entries : Folder} {into : Place}
    (h : Ready source destination entries into) :
    let m := move e entries into 0
    migrateLegacyCache e source destination =
      ⟨{ source with stored := if m.2 then none else some (.directory m.1.left) },
        { destination with stored := some m.1.into },
        if m.2 then none else some (if e.cancelled (m.1.clock + 1) then cancelledError else preservedError)⟩ := by
  simp only [migrateLegacyCache, h.moved, h.taken, h.regular.1, h.regular.2, h.apart]
  rfl

/-- Without such a directory nothing changes, and the answer says whether there is a source. -/
theorem ready_or (source destination : Location) :
    (∃ entries into, Ready source destination entries into) ∨
    ∀ e, ∃ error, migrateLegacyCache e source destination = ⟨source, destination, error⟩ ∧
      (error = none ↔ source.place = none) := by
  cases hs : source.place with
  | none => exact .inr fun e => ⟨none, by simp only [migrateLegacyCache, hs], by simp⟩
  | some moved =>
    cases hd : destination.place with
    | none => exact .inr fun e => ⟨some redirectedError, by simp only [migrateLegacyCache, hs, hd], by simp⟩
    | some into =>
      by_cases hc : !source.regularTree || !destination.regularTree || nested source.path destination.path
      · exact .inr fun e => ⟨some redirectedError, by simp only [migrateLegacyCache, hs, hd, hc, if_true], by simp⟩
      · cases moved with
        | directory entries =>
          simp only [Bool.or_eq_true, Bool.not_eq_true', not_or, Bool.not_eq_false, Bool.not_eq_true] at hc
          exact .inl ⟨entries, into, hs, hd, hc.1, hc.2⟩
        | file bytes => exact .inr fun e => ⟨_, by simp only [migrateLegacyCache, hs, hd, if_neg hc]; rfl, by simp⟩
        | link => exact .inr fun e => ⟨_, by simp only [migrateLegacyCache, hs, hd, if_neg hc]; rfl, by simp⟩

theorem path_ne_nil {l : Location} {p : Place} (h : l.place = some p) : l.path ≠ [] := by
  intro hp
  simp [Location.place, hp] at h

theorem place_stored {l : Location} {p : Place} (h : l.place = some p) (stored : Option Place) :
    ({ l with stored := stored } : Location).place = stored := if_neg (path_ne_nil h)

theorem regularTree_stored {l : Location} {p q : Place} (h : l.place = some p) (hr : l.regularTree)
    (hq : p.regular → q.regular) : ({ l with stored := some q } : Location).regularTree := by
  simp only [Location.regularTree, h, place_stored h, Bool.and_eq_true] at hr ⊢
  exact ⟨hr.1, hq hr.2⟩

/-- A run over what another has left is ready as well, and ends where a calm first run would have ended. -/
theorem migrate_again (e : Environment) {source destination : Location} {entries : Folder} {into : Place}
    (h : Ready source destination entries into) :
    let m := migrateLegacyCache e source destination
    migrateLegacyCache .calm m.source m.destination = migrateLegacyCache .calm source destination := by
  obtain ⟨⟨d, go⟩, gone⟩ := moves_move e entries into
  rw [migrate_ready e h, migrate_ready .calm h]
  generalize move e entries into 0 = m at go gone
  cases hm : m.2 with
  | true =>
    have hcalm := move_calm (gone hm)
    have hnil : move .calm .nil m.1.into 0 = (⟨.nil, m.1.into, 1, true⟩, true) := rfl
    rw [hnil] at hcalm
    simp only [migrateLegacyCache, place_stored h.moved, ← hcalm.2.1, ← hcalm.2.2, if_true]
  | false =>
    have hcalm := move_calm go
    have hready : Ready { source with stored := some (.directory m.1.left) }
        { destination with stored := some m.1.into } m.1.left m.1.into :=
      ⟨place_stored h.moved _, place_stored h.taken _,
        ⟨regularTree_stored h.moved h.regular.1 go.left_regular,
          regularTree_stored h.taken h.regular.2 go.regular⟩, h.apart⟩
    simp only [Bool.false_eq_true, if_false]
    rw [migrate_ready .calm hready, hcalm.1, hcalm.2.1, hcalm.2.2]
    rfl

/-- No file is lost or changed, the answer says whether the source is gone, and a calm run after a
cancelled or failed one ends where a calm first run would have ended. -/
theorem migration_loses_nothing (e : Environment) (source destination : Location)
    (hfree : CollisionFree (source.contents ++ destination.contents)) :
    let m := migrateLegacyCache e source destination
    (∀ path b, source.fileAt path = some b → m.source.fileAt path = some b ∨ m.destination.fileAt path = some b) ∧
    (∀ path b, destination.fileAt path = some b → m.destination.fileAt path = some b) ∧
    (m.error = none ↔ m.source.place = none) ∧
    migrateLegacyCache .calm m.source m.destination = migrateLegacyCache .calm source destination := by
  rcases ready_or source destination with ⟨entries, into, h⟩ | h
  · refine ⟨?_, ?_, ?_, migrate_again e h⟩
    all_goals obtain ⟨⟨d, go⟩, gone⟩ := moves_move e entries into
    all_goals rw [migrate_ready e h]
    all_goals generalize move e entries into 0 = m at go gone
    · intro path b hb
      simp only [Location.contents, h.moved, h.taken] at hfree
      simp only [Location.fileAt, h.moved, Option.bind_some] at hb
      simp only [Location.fileAt, place_stored h.moved, place_stored h.taken, Option.bind_some]
      cases hm : m.2 with
      | true =>
        refine .inr (((gone hm).keeps hfree hb).resolve_left fun hnil => ?_)
        cases path <;> cases hnil
      | false => exact go.keeps hfree hb
    · intro path b hb
      simp only [Location.fileAt, h.taken, Option.bind_some] at hb
      simp only [Location.fileAt, place_stored h.taken, Option.bind_some]
      exact go.grows path b hb
    · simp only [place_stored h.moved]
      cases m.2 <;> simp
  · obtain ⟨error, hm, herror⟩ := h e
    rw [hm]
    exact ⟨fun _ _ hb => .inl hb, fun _ _ hb => hb, herror, rfl⟩

def sampleCache : Location :=
  ⟨text "/Cache", some (.directory (.file (text "a") [1] (.directory (text "b") (.file (text "c") [2] .nil) .nil))), true⟩

def sampleModels : Location := ⟨text "/Models", some (.directory .nil), true⟩

/-- The first model has been moved when the cancellation comes. -/
theorem migration_loses_nothing_sample :
    let e : Environment := ⟨fun n => 3 ≤ n, fun _ => false⟩
    let m := migrateLegacyCache e sampleCache sampleModels
    m.error = some cancelledError ∧ m.source.fileAt [text "a"] = none ∧
    (∀ path b, sampleCache.fileAt path = some b → m.source.fileAt path = some b ∨ m.destination.fileAt path = some b) ∧
    (∀ path b, sampleModels.fileAt path = some b → m.destination.fileAt path = some b) ∧
    (m.error = none ↔ m.source.place = none) ∧
    migrateLegacyCache .calm m.source m.destination = migrateLegacyCache .calm sampleCache sampleModels := by
  have hne : sha256 [1] ≠ sha256 [2] := by decide +kernel
  have hfree : CollisionFree (sampleCache.contents ++ sampleModels.contents) := by
    have hcontents : sampleCache.contents ++ sampleModels.contents = [[1], [2]] := rfl
    rw [hcontents]
    intro a ha b hb h
    simp only [List.mem_cons, List.not_mem_nil, or_false] at ha hb
    grind
  exact ⟨by decide, by decide,
    migration_loses_nothing ⟨fun n => 3 ≤ n, fun _ => false⟩ sampleCache sampleModels hfree⟩

end SocietyHelper.Storage
