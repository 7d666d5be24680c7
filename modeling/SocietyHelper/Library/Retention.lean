import SocietyHelper.Library.Disk

/-! # Trees that lose no file

Some files of a tree are kept: whatever is done, their bytes stay under their
name or come under a name in a refuge, and what is in the refuge stays there.
Files of a region that have one name each can be written without harm to others.
-/

namespace SocietyHelper.Library.Disk

/-- What is kept in `d` is in `e` under its name or in the refuge. -/
structure Retains (kept : Path → Bytes → Prop) (refuge : Path → Prop) (d e : Disk) : Prop where
  inRefuge : ∀ {p b}, refuge p → d.content p = some b → e.content p = some b
  somewhere : ∀ {p b}, kept p b → d.content p = some b → e.content p = some b ∨ ∃ q, refuge q ∧ e.content q = some b

section

variable {kept : Path → Bytes → Prop} {refuge : Path → Prop} {d e f : Disk}

theorem Retains.of_content
    (h : ∀ {p b}, refuge p ∨ kept p b → d.content p = some b → e.content p = some b) : Retains kept refuge d e :=
  ⟨fun hp hb => h (.inl hp) hb, fun hp hb => .inl (h (.inr hp) hb)⟩

theorem Retains.refl (d : Disk) : Retains kept refuge d d := .of_content fun _ hb => hb

theorem Retains.trans (h : Retains kept refuge d e) (k : Retains kept refuge e f) : Retains kept refuge d f where
  inRefuge hp hb := k.inRefuge hp (h.inRefuge hp hb)
  somewhere hp hb := by
    rcases h.somewhere hp hb with hsame | ⟨q, hq, hmoved⟩
    · exact k.somewhere hp hsame
    · exact .inr ⟨q, hq, k.inRefuge hq hmoved⟩

/-- One name is lost whose bytes the refuge has. -/
theorem Retains.of_saved {p : Path} (hothers : ∀ q, q ≠ p → e.content q = d.content q) (hp : ¬refuge p)
    (hsaved : ∀ {b}, kept p b → d.content p = some b → ∃ q, refuge q ∧ d.content q = some b) : Retains kept refuge d e where
  inRefuge hq hb := by
    rw [hothers _ (by rintro rfl; exact hp hq)]
    exact hb
  somewhere {q b} hq hb := by
    by_cases hqp : q = p
    · subst hqp
      obtain ⟨r, hr, hrb⟩ := hsaved hq hb
      rw [← hothers r (by rintro rfl; exact hp hr)] at hrb
      exact .inr ⟨r, hr, hrb⟩
    · exact .inl ((hothers q hqp).trans hb)

/-- A directory moves into the refuge with everything below it. -/
theorem Retains.renameDirectory {p q : Path} (hp : ∀ k, p <+: k → ¬refuge k) (hq : ∀ k, q <+: k → refuge k)
    (hfree : ∀ k, q <+: k → d.node k = none) : Retains kept refuge d (d.renameDirectory p q) := by
  have hcontent : ∀ k, (d.renameDirectory p q).content k =
      d.reads ((if q <+: k then d.node (p ++ k.drop q.length) else none).or (if p <+: k then none else d.node k)) := by
    intro k
    rw [content, reads_renameDirectory, node_renameDirectory]
  have hstays : ∀ {k b}, ¬p <+: k → d.content k = some b → (d.renameDirectory p q).content k = some b := by
    intro k b hk hb
    rw [hcontent, if_neg hk]
    split
    next hqk =>
      rw [content, hfree k hqk] at hb
      cases hb
    next => exact hb
  refine ⟨fun {k b} hk hb => hstays (fun hpk => hp k hpk hk) hb, fun {k b} _ hb => ?_⟩
  by_cases hpk : p <+: k
  · obtain ⟨rest, rfl⟩ := hpk
    refine .inr ⟨q ++ rest, hq _ (List.prefix_append q rest), ?_⟩
    rw [hcontent, if_pos (List.prefix_append q rest), List.drop_left]
    cases hnode : d.node (p ++ rest) with
    | none =>
      rw [content, hnode] at hb
      cases hb
    | some n =>
      rw [content, hnode] at hb
      exact hb
  · exact .inl (hstays hpk hb)

end

/-! ## Files with one name -/

/-- The files of a region have no name beside the one that they have there. -/
def Single (region : Path → Prop) (d : Disk) : Prop :=
  ∀ p q i, region p → d.node p = some (.file i) → d.node q = some (.file i) → q = p

section

variable {region : Path → Prop} {d e : Disk}

/-- Names go, and directories come. -/
theorem Single.of_names (h : d.Single region) (hnames : ∀ k i, e.node k = some (.file i) → d.node k = some (.file i)) :
    e.Single region :=
  fun p q i hp hpi hqi => h p q i hp (hnames p i hpi) (hnames q i hqi)

theorem Single.create (h : d.Single region) {p : Path} : (d.create p).Single region := by
  intro a b i ha hai hbi
  rw [node_create] at hai hbi
  split at hai
  next hap =>
    split at hbi
    next hbp => exact hbp.trans hap.symm
    next =>
      cases hai
      exact absurd (d.bound b _ _ hbi rfl) (Nat.lt_irrefl _)
  next =>
    split at hbi
    next =>
      cases hbi
      exact absurd (d.bound a _ _ hai rfl) (Nat.lt_irrefl _)
    next => exact h a b i ha hai hbi

theorem Single.link (h : d.Single region) {p q : Path} {i : Nat} (hi : d.node p = some (.file i)) (hp : ¬region p)
    (hq : ¬region q) : (d.link p q).Single region := by
  have hregion : ∀ a, region a → d.node a ≠ some (.file i) := by
    intro a ha hai
    exact hp (h a p i ha hai hi ▸ ha)
  intro a b k ha hak hbk
  rw [node_link hi, if_neg (by rintro rfl; exact hq ha)] at hak
  rw [node_link hi] at hbk
  split at hbk
  next =>
    cases hbk
    exact absurd hak (hregion a ha)
  next => exact h a b k ha hak hbk

theorem Single.renameFile (h : d.Single region) {p q : Path} {i : Nat} (hi : d.node p = some (.file i)) (hp : region p)
    (hq : ¬region q) : (d.renameFile p q).Single region ∧
      ∀ k, (d.renameFile p q).content k = if k = q then d.content p else if k = p then none else d.content k := by
  have hne : d.node q ≠ some (.file i) := fun hqi => hq (h p q i hp hi hqi ▸ hp)
  refine ⟨fun a b k ha hak hbk => ?_, content_renameFile hi hne⟩
  rw [node_renameFile hi hne] at hak hbk
  rw [if_neg (by rintro rfl; exact hq ha)] at hak
  split at hak
  · cases hak
  next hap =>
    split at hbk
    next =>
      cases hbk
      exact absurd (h a p _ ha hak hi) (Ne.symm hap)
    next =>
      split at hbk
      · cases hbk
      next => exact h a b k ha hak hbk

theorem Single.renameDirectory (h : d.Single region) {p q : Path} (hregion : ∀ k, q <+: k → ¬region k) :
    (d.renameDirectory p q).Single region := by
  have hsource : ∀ k i, (d.renameDirectory p q).node k = some (.file i) →
      (q <+: k ∧ d.node (p ++ k.drop q.length) = some (.file i)) ∨ (¬p <+: k ∧ d.node k = some (.file i)) := by
    intro k i hk
    rw [node_renameDirectory, Option.or_eq_some_iff] at hk
    rcases hk with hk | ⟨-, hk⟩
    · split at hk
      next hq => exact .inl ⟨hq, hk⟩
      next => cases hk
    · split at hk
      · cases hk
      next hp => exact .inr ⟨hp, hk⟩
  intro a b i ha hai hbi
  rcases hsource a i hai with ⟨hq, -⟩ | ⟨hpa, hai⟩
  · exact absurd ha (hregion a hq)
  · rcases hsource b i hbi with ⟨-, hbi⟩ | ⟨-, hbi⟩
    · have hsame := h a _ i ha hai hbi
      exact absurd (hsame ▸ List.prefix_append p _) hpa
    · exact h a b i ha hai hbi

/-- Writing into a file with one name changes nothing under other names. -/
theorem Single.write (h : d.Single region) {p : Path} {i : Nat} (hp : region p) (hi : d.node p = some (.file i))
    (bytes : Bytes) {q : Path} (hq : q ≠ p) : (d.write i bytes).content q = d.content q := by
  rw [content_write, if_neg fun hqi => hq (h p q i hp hi hqi)]

end

end SocietyHelper.Library.Disk
