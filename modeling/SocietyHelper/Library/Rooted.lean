import SocietyHelper.Library.Disk

/-! # Trees without loose names

Where every name lies in a directory, the way to a name leads through
directories, and a path whose way is missing has no name.
-/

namespace SocietyHelper.Library.Disk

/-- Every name lies in a directory. -/
def Rooted (d : Disk) : Prop := ∀ p n, d.node p = some n → p ≠ [] → d.isDirectory p.dropLast

theorem Rooted.directory {d : Disk} (h : d.Rooted) {p q : Path} {n : Node} (hn : d.node p = some n) (hq : q <+: p)
    (hne : q ≠ p) (hnil : q ≠ []) : ∃ i, d.node q = some (.directory i) := by
  induction p using List.reverseRecOn generalizing n with
  | nil => exact absurd (List.prefix_nil.mp hq) hne
  | append_singleton r x ih =>
    have hr : q <+: r := (List.prefix_concat_iff.mp hq).resolve_left hne
    have hdirectory := h _ n hn (by simp)
    rw [List.dropLast_concat] at hdirectory
    have hrnil : r ≠ [] := by
      rintro rfl
      exact hnil (List.prefix_nil.mp hr)
    rw [isDirectory] at hdirectory
    split at hdirectory
    next i hi =>
      by_cases hsame : q = r
      · exact ⟨i, hsame ▸ hi⟩
      · exact ih hi hr hsame
    · simp [hrnil] at hdirectory

theorem walkFrom_directory {d : Disk} {base parts : Path}
    (h : ∀ k, k < parts.length → ∃ i, d.node (base ++ parts.take (k + 1)) = some (.directory i)) :
    d.walkFrom base parts = .directory := by
  induction parts generalizing base with
  | nil => rfl
  | cons part parts ih =>
    obtain ⟨i, hi⟩ := h 0 (by simp)
    rw [walkFrom]
    simp only [Nat.zero_add, List.take_succ_cons, List.take_zero] at hi
    rw [hi]
    refine ih fun k hk => ?_
    obtain ⟨i', hi'⟩ := h (k + 1) (by simpa using hk)
    exact ⟨i', by simpa using hi'⟩

theorem Rooted.walk {d : Disk} (h : d.Rooted) {p : Path} {n : Node} (hn : d.node p = some n) :
    d.walk p.dropLast = .directory := by
  refine walkFrom_directory fun k hk => ?_
  have hlength : k + 1 < p.length := by
    rw [List.length_dropLast] at hk
    omega
  have htake : (p.dropLast).take (k + 1) = p.take (k + 1) := by
    rw [List.dropLast_eq_take, List.take_take, Nat.min_eq_left (by omega)]
  rw [List.nil_append, htake]
  refine h.directory hn (List.take_prefix _ _) (fun heq => ?_) (by simp; intro hp; simp [hp] at hlength)
  have := congrArg List.length heq
  rw [List.length_take] at this
  omega

theorem isDirectory_of_walkFrom {d : Disk} {base parts : Path} (h : d.walkFrom base parts = .directory) :
    parts = [] ∨ ∃ i, d.node (base ++ parts) = some (.directory i) := by
  induction parts generalizing base with
  | nil => exact .inl rfl
  | cons part parts ih =>
    rw [walkFrom] at h
    split at h
    next i hi =>
      right
      rcases ih h with rfl | ⟨k, hk⟩
      · exact ⟨i, hi⟩
      · exact ⟨k, by simpa using hk⟩
    · cases h
    · cases h

theorem isDirectory_of_walk {d : Disk} {p : Path} (h : d.walk p = .directory) : d.isDirectory p := by
  rcases isDirectory_of_walkFrom h with rfl | ⟨i, hi⟩
  · rw [isDirectory]
    split <;> simp
  · rw [List.nil_append] at hi
    rw [isDirectory, hi]

/-- A new name in a directory leaves none loose. -/
theorem Rooted.added {d e : Disk} (h : d.Rooted) {p : Path} (hfree : d.node p = none)
    (hwalk : d.walk p.dropLast = .directory) (hnodes : ∀ q, q ≠ p → e.node q = d.node q) : e.Rooted := by
  intro q n hn hq
  have hparent : d.isDirectory q.dropLast := by
    by_cases hqp : q = p
    · rw [hqp]
      exact isDirectory_of_walk hwalk
    · rw [hnodes q hqp] at hn
      exact h q n hn hq
  by_cases hp : q.dropLast = p
  · rw [hp, isDirectory, hfree] at hparent
    rw [hp, isDirectory]
    split
    · rfl
    · exact hparent
  · rw [isDirectory, hnodes _ hp]
    exact hparent

theorem rooted_empty : empty.Rooted := fun _ _ h => by cases h

theorem Rooted.makeDirectory {d : Disk} (h : d.Rooted) {p : Path} (hfree : d.node p = none)
    (hwalk : d.walk p.dropLast = .directory) : (d.makeDirectory p).Rooted :=
  h.added hfree hwalk fun q hq => by rw [node_makeDirectory, if_neg hq]

theorem Rooted.create {d : Disk} (h : d.Rooted) {p : Path} (hfree : d.node p = none)
    (hwalk : d.walk p.dropLast = .directory) : (d.create p).Rooted :=
  h.added hfree hwalk fun q hq => by rw [node_create, if_neg hq]

end SocietyHelper.Library.Disk
