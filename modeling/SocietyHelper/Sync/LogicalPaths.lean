import SocietyHelper.Library.Utf16
import SocietyHelper.Monitoring.Publisher
import SocietyHelper.Sync.Visibility

/-! # Logical paths stay inside their section

Whatever string a peer sends as a path, what `physical` makes of it begins with
the directory of one section and goes on below it.
-/

namespace SocietyHelper.Sync

open Library

namespace Replica

/-- A string as Qt holds it; `isValidUtf16` refuses what has no text. -/
abbrev QString := List UInt16

def physicalOf [StoreLayout] (key : QString) : NativePath :=
  match fromUtf16 key with
  | some key => physical key
  | none => []

/-- The string that `physical` returns, empty where it refuses. -/
def nativeString [StoreLayout] (key : QString) : Text := ['/'].intercalate (physicalOf key)

end Replica

namespace ConfinedFiles

/-- A slash in front, or the colon of a resource. -/
def isAbsolutePath (path : Text) : Bool := path.head? = some '/' || path.head? = some ':'

def relative (path : Text) : Bool :=
  utf16Size path ≤ 4096 && !isAbsolutePath path && !path.contains '\\' && !path.contains ':' &&
    !path.contains '\x00' &&
    (path.splitOn '/').all fun part =>
      part ≠ [] && part ≠ text "." && part ≠ text ".." && utf8Size part ≤ 255

end ConfinedFiles

namespace Replica

/-- The sections of a container: keys and names of their own, short, ordinary names of one component. -/
structure OrdinarySections (layout : StoreLayout) : Prop where
  keys : ∀ s ∈ layout.sections, ∀ t ∈ layout.sections, s.key = t.key → s = t
  names : ∀ s ∈ layout.sections, ∀ t ∈ layout.sections, s.name = t.name → s = t
  short : ∀ s ∈ layout.sections, utf8Size s.name ≤ 255
  component : ∀ s ∈ layout.sections, s.name ≠ [] ∧ s.name ≠ text "." ∧ s.name ≠ text ".." ∧ controlPrefix s.name = false
  plain : ∀ s ∈ layout.sections, ∀ c ∈ s.name, c ≠ '/' ∧ c ≠ '\\' ∧ c ≠ ':' ∧ c ≠ '\x00'

theorem utf16Size_append (s t : Text) : utf16Size (s ++ t) = utf16Size s + utf16Size t := by
  simp [utf16Size]

theorem utf16Size_le_utf8Size (t : Text) : utf16Size t ≤ utf8Size t := by
  induction t with
  | nil => exact Nat.le_refl 0
  | cons c t ih =>
    have hc : (if c.val < 0x10000 then 1 else 2) ≤ c.utf8Size := by
      have hiff : c.val < 0x10000 ↔ c.val.toNat < 0x10000 := Iff.trans UInt32.lt_iff_toNat_lt Iff.rfl
      rw [← String.length_utf8EncodeChar, String.utf8EncodeChar]
      simp only [hiff]
      split
      · repeat' split
        all_goals simp
      · rw [if_neg (by omega), if_neg (by omega)]
        split <;> simp
    rw [utf8Size_cons]
    exact Nat.add_le_add hc ih

/-- What `physical` checks of a key as a whole. -/
structure Accepted (key : Text) : Prop where
  size : utf16Size key ≤ 3500
  plain : '\\' ∉ key ∧ ':' ∉ key ∧ '\x00' ∉ key

theorem accepted_of_physical [layout : StoreLayout] {key : Text} (h : physical key ≠ []) : Accepted key := by
  rw [physical] at h
  split at h
  · exact absurd rfl h
  · split at h
    · exact absurd rfl h
    · rename_i hrefused
      simp only [Bool.or_eq_true, decide_eq_true_eq, not_or, not_lt, List.contains_iff_mem] at hrefused
      obtain ⟨⟨⟨⟨⟨-, hsize⟩, hback⟩, hcolon⟩, hnull⟩, -⟩ := hrefused
      exact ⟨hsize, hback, hcolon, hnull⟩

theorem not_mem_of_mem_splitOn {key part : Text} {c : Char} (h : part ∈ key.splitOn c) : c ∉ part := by
  induction key generalizing part with
  | nil =>
    rw [List.splitOn_nil, List.mem_singleton] at h
    subst h
    exact List.not_mem_nil
  | cons d key ih =>
    rw [List.splitOn_cons_eq_if_modifyHead] at h
    split at h
    · rcases List.mem_cons.mp h with rfl | h
      · exact List.not_mem_nil
      · exact ih h
    · rename_i hd
      cases hsplit : key.splitOn c with
      | nil => exact absurd hsplit (List.splitOn_ne_nil c key)
      | cons first rest =>
        rw [hsplit] at h ih
        rcases List.mem_cons.mp h with rfl | h
        · intro hc
          rcases List.mem_cons.mp hc with rfl | hc
          · exact hd (beq_self_eq_true c)
          · exact ih List.mem_cons_self hc
        · exact ih (List.mem_cons_of_mem _ h)

section

variable [layout : StoreLayout] (hsections : OrdinarySections layout) {key : Text}

omit layout in
/-- What stands behind the section is copied from the key. -/
theorem tail_subset {s : StoreSection} {tail : List Text} (hsplit : key.splitOn '/' = s.key :: tail)
    (htail : tail ≠ []) : key = s.key ++ '/' :: ['/'].intercalate tail := by
  have hjoin : ['/'].intercalate (key.splitOn '/') = key := List.intercalate_splitOn '/'
  rw [hsplit] at hjoin
  cases tail with
  | nil => exact absurd rfl htail
  | cons part tail => rw [← hjoin, List.intercalate_cons_cons, List.append_assoc, List.singleton_append]

include hsections

/-- Every part of a native path is an ordinary name. -/
theorem physical_parts (h : physical key ≠ []) :
    ∀ part ∈ physical key, part ≠ [] ∧ part ≠ text "." ∧ part ≠ text ".." ∧ utf8Size part ≤ 255 ∧
      controlPrefix part = false ∧ '/' ∉ part := by
  obtain ⟨s, tail, hs, hsplit, htail, hphysical, hall⟩ := physical_cases h
  intro part hpart
  rw [hphysical] at hpart
  rcases List.mem_cons.mp hpart with rfl | hpart
  · obtain ⟨hne, hdot, hdots, hcontrol⟩ := hsections.component s hs
    exact ⟨hne, hdot, hdots, hsections.short s hs, hcontrol, fun hc => (hsections.plain s hs _ hc).1 rfl⟩
  · have hmem : part ∈ key.splitOn '/' := hsplit ▸ List.mem_cons_of_mem _ hpart
    have hsupported := hall part hmem
    simp only [supportedComponent, Bool.and_eq_true, decide_eq_true_eq, Bool.not_eq_true'] at hsupported
    obtain ⟨⟨⟨⟨⟨hne, hdot⟩, hdots⟩, hsize⟩, hcontrol⟩, -⟩ := hsupported
    exact ⟨hne, hdot, hdots, hsize.trans (by decide), hcontrol, not_mem_of_mem_splitOn hmem⟩

theorem splitOn_native (h : physical key ≠ []) : (nativeKey key).splitOn '/' = physical key :=
  List.splitOn_intercalate '/' (fun part hpart => (physical_parts hsections h part hpart).2.2.2.2.2) h

theorem relative_native (h : physical key ≠ []) : ConfinedFiles.relative (nativeKey key) := by
  obtain ⟨s, tail, hs, hsplit, htail, hphysical, -⟩ := physical_cases h
  have haccepted := accepted_of_physical h
  have hkey := tail_subset hsplit htail
  have hnative : nativeKey key = s.name ++ '/' :: ['/'].intercalate tail := by
    rw [nativeKey, hphysical]
    cases tail with
    | nil => exact absurd rfl htail
    | cons part tail => rw [List.intercalate_cons_cons, List.append_assoc, List.singleton_append]
  have hname := hsections.plain s hs
  -- A character of the native path stands in the section's name or in the key.
  have hmem : ∀ c ∈ nativeKey key, c ∈ s.name ∨ c ∈ key := by
    intro c hc
    rw [hnative] at hc
    rw [hkey]
    rcases List.mem_append.mp hc with hc | hc
    · exact .inl hc
    · exact .inr (List.mem_append.mpr (.inr hc))
  have hplain : ∀ c, c ∉ s.name → c ∉ key → (nativeKey key).contains c = false := by
    intro c hs hk
    rw [← Bool.not_eq_true, List.contains_iff_mem]
    exact fun hc => (hmem c hc).elim hs hk
  have hsize : utf16Size (nativeKey key) ≤ 4096 := by
    have hshort := (utf16Size_le_utf8Size s.name).trans (hsections.short s hs)
    have htotal := haccepted.size
    rw [hkey, utf16Size_append] at htotal
    rw [hnative, utf16Size_append]
    omega
  have hhead : ConfinedFiles.isAbsolutePath (nativeKey key) = false := by
    rw [hnative, ConfinedFiles.isAbsolutePath]
    cases hn : s.name with
    | nil => exact absurd hn (hsections.component s hs).1
    | cons c rest =>
      have hc := hname c (hn ▸ List.mem_cons_self)
      simp [hc.1, hc.2.2.1]
  have hparts : ((nativeKey key).splitOn '/').all fun part =>
      part ≠ [] && part ≠ text "." && part ≠ text ".." && utf8Size part ≤ 255 := by
    rw [splitOn_native hsections h, List.all_eq_true]
    intro part hpart
    obtain ⟨hne, hdot, hdots, hshort, -⟩ := physical_parts hsections h part hpart
    simp [hne, hdot, hdots, hshort]
  rw [ConfinedFiles.relative, hparts, hhead, decide_eq_true hsize,
    hplain '\\' (fun hc => (hname _ hc).2.1 rfl) haccepted.plain.1,
    hplain ':' (fun hc => (hname _ hc).2.2.1 rfl) haccepted.plain.2.1,
    hplain '\x00' (fun hc => (hname _ hc).2.2.2 rfl) haccepted.plain.2.2]
  rfl

theorem physical_injective {other : Text} (h : physical key ≠ []) (he : physical key = physical other) :
    key = other := by
  obtain ⟨s, tail, hs, hsplit, -, hphysical, -⟩ := physical_cases h
  obtain ⟨t, tail', ht, hsplit', -, hphysical', -⟩ := physical_cases (he ▸ h)
  rw [hphysical, hphysical'] at he
  obtain ⟨hname, rfl⟩ := List.cons.inj he
  rw [hsections.names s hs t ht hname] at hsplit
  calc key = ['/'].intercalate (key.splitOn '/') := (List.intercalate_splitOn '/').symm
    _ = ['/'].intercalate (other.splitOn '/') := by rw [hsplit, hsplit']
    _ = other := List.intercalate_splitOn '/'

end

/-- What is known of the path that `physical` gives for a string, where it gives one. -/
structure Confined [layout : StoreLayout] (p : QString) : Prop where
  relative : ConfinedFiles.relative (nativeString p)
  split : (nativeString p).splitOn '/' = physicalOf p
  section_ : ∃! s, s ∈ layout.sections ∧ (physicalOf p).head? = some s.name
  further : 2 ≤ (physicalOf p).length
  parts : ∀ part ∈ physicalOf p, part ≠ [] ∧ part ≠ text "." ∧ part ≠ text ".." ∧
    ¬text ".society-" <+: part ∧ ¬text ".iiwebserver-" <+: part
  outside : ¬[control] <+: physicalOf p

theorem confined_physical [layout : StoreLayout] (hsections : OrdinarySections layout) {p : QString} {key : Text}
    (hp : fromUtf16 p = some key) (h : physical key ≠ []) : Confined p := by
  obtain ⟨s, tail, hs, hsplit, htail, hphysical, -⟩ := physical_cases h
  have hof : physicalOf p = physical key := by rw [physicalOf, hp]
  have hnative : nativeString p = nativeKey key := by rw [nativeString, hof, nativeKey]
  have hparts : ∀ part ∈ physicalOf p, part ≠ [] ∧ part ≠ text "." ∧ part ≠ text ".." ∧
      ¬text ".society-" <+: part ∧ ¬text ".iiwebserver-" <+: part := by
    intro part hpart
    obtain ⟨hne, hdot, hdots, -, hcontrol, -⟩ := physical_parts hsections h part (hof ▸ hpart)
    simp only [controlPrefix, Bool.or_eq_false_iff] at hcontrol
    refine ⟨hne, hdot, hdots, fun hpre => ?_, fun hpre => ?_⟩
    · exact Bool.false_ne_true (hcontrol.1.symm.trans (List.isPrefixOf_iff_prefix.mpr hpre))
    · exact Bool.false_ne_true (hcontrol.2.symm.trans (List.isPrefixOf_iff_prefix.mpr hpre))
  refine ⟨hnative ▸ relative_native hsections h, ?_, ?_, ?_, hparts, ?_⟩
  · rw [hnative, hof]
    exact splitOn_native hsections h
  · refine ⟨s, ⟨hs, by rw [hof, hphysical]; rfl⟩, fun t ht => ?_⟩
    obtain ⟨ht, hhead⟩ := ht
    rw [hof, hphysical] at hhead
    exact hsections.names t ht s hs (Option.some.inj hhead).symm
  · rw [hof, hphysical, List.length_cons]
    have := List.length_pos_of_ne_nil htail
    omega
  · rintro ⟨rest, hrest⟩
    exact (hparts control (hrest ▸ List.mem_cons_self)).2.2.2.1 ⟨text "sync", rfl⟩

/-- A string is refused, or it names one path inside one section, and no other string names that path. -/
theorem physical_confined [layout : StoreLayout] (hsections : OrdinarySections layout) (p q : QString) :
    (nativeString p ≠ [] → Confined p) ∧ (nativeString p ≠ [] → nativeString p = nativeString q → p = q) := by
  have hread : ∀ r : QString, nativeString r ≠ [] → ∃ key, fromUtf16 r = some key ∧ physical key ≠ [] ∧
      nativeString r = nativeKey key := by
    intro r hr
    cases hkey : fromUtf16 r with
    | none =>
      rw [nativeString, physicalOf, hkey] at hr
      exact absurd rfl hr
    | some key =>
      have hnative : nativeString r = nativeKey key := by rw [nativeString, physicalOf, hkey, nativeKey]
      refine ⟨key, rfl, fun hnil => hr ?_, hnative⟩
      rw [hnative, nativeKey, hnil]
      rfl
  constructor
  · intro hp
    obtain ⟨key, hkey, hphysical, -⟩ := hread p hp
    exact confined_physical hsections hkey hphysical
  · intro hp he
    obtain ⟨key, hkey, hphysical, hnative⟩ := hread p hp
    obtain ⟨other, hother, hphysical', hnative'⟩ := hread q (he ▸ hp)
    have hsame : physical key = physical other := by
      rw [← splitOn_native hsections hphysical, ← splitOn_native hsections hphysical', ← hnative, ← hnative', he]
    rw [← physical_injective hsections hphysical hsame] at hother
    exact fromUtf16_injective hkey hother

/-- The sections that the monitor lists under the same keys. -/
@[reducible] def storeLayout : StoreLayout where
  sections := Monitoring.areas.map fun area => ⟨area.1, area.2⟩
  controlFile := fun _ => false
  ownedPresentation := fun _ => false

theorem ordinary_storeLayout : OrdinarySections storeLayout where
  keys := by decide
  names := by decide
  short := by decide
  component := by decide
  plain s hs c hc := by
    have hall : storeLayout.sections.all fun s => s.name.all fun c =>
      c ≠ '/' && c ≠ '\\' && c ≠ ':' && c ≠ '\x00' := by decide
    have hplain := List.all_eq_true.mp (List.all_eq_true.mp hall s hs) c hc
    simpa [and_assoc] using hplain

theorem physical_confined_sample :
    @Confined storeLayout (utf16 (text "asset-library/notes/a")) ∧
    (@nativeString storeLayout (utf16 (text "asset-library/notes/a")) = @nativeString storeLayout (utf16 (text "files/a")) →
      utf16 (text "asset-library/notes/a") = utf16 (text "files/a")) := by
  have hconfined := @physical_confined storeLayout ordinary_storeLayout (utf16 (text "asset-library/notes/a"))
    (utf16 (text "files/a"))
  have hread : @nativeString storeLayout (utf16 (text "asset-library/notes/a")) ≠ [] := by decide
  exact ⟨hconfined.1 hread, hconfined.2 hread⟩

end Replica

end SocietyHelper.Sync
