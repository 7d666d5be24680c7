import SocietyHelper.Sync.Requests

/-! # What a peer may name and what a scan visits

Two filters are kept apart from each other: `physical` refuses paths of records,
`indexControlName` hides names from a scan. The scan hides more names.
-/

namespace SocietyHelper.Sync

open Library Effect

namespace Replica

/-- The sections of a container have names and keys of their own, which no scan hides. -/
structure LawfulLayout (layout : StoreLayout) : Prop where
  names : ∀ s ∈ layout.sections, ∀ t ∈ layout.sections, s.name = t.name → s = t
  keys : ∀ s ∈ layout.sections, ¬indexControlName s.key ∧ '/' ∉ s.key

/-- Names that a scan hides although a record may use them. -/
def overlookedName (part : Text) : Bool :=
  let name := lowered part
  (text ".iisacc-preview").isSuffixOf name || (text ".iisacc-lock").isSuffixOf name ||
    (text ".iifile-stage-").isPrefixOf name || name = text ".iisacc-file-provider" ||
    (part ≠ name && (controlPrefix name || name = text ".iisacc-temporary.lock"))

/-- The tree has no name with a slash in it. -/
def Slashless (d : Disk) : Prop := ∀ p ∈ d.nodes.keys, ∀ part ∈ p, '/' ∉ part

theorem indexControlName_iff {part : Text} (h : supportedComponent part) :
    indexControlName part ↔ overlookedName part := by
  simp only [supportedComponent, Bool.and_eq_true, decide_eq_true_eq, Bool.not_eq_true'] at h
  obtain ⟨⟨-, hcontrol⟩, hlock⟩ := h
  constructor
  · intro hhidden
    -- A refused name can only come back under another spelling.
    have hspelled : controlPrefix (lowered part) ∨ lowered part = text ".iisacc-temporary.lock" → part ≠ lowered part := by
      rintro hname hsame
      rw [← hsame] at hname
      rcases hname with hname | hname
      · rw [hcontrol] at hname
        cases hname
      · exact hlock hname
    simp only [indexControlName, controlPrefix, Bool.or_eq_true, decide_eq_true_eq] at hhidden hspelled
    simp only [overlookedName, controlPrefix, Bool.or_eq_true, Bool.and_eq_true, decide_eq_true_eq]
    rcases hhidden with (((((hname | hname) | hname) | hname) | hname) | hname) | hname
    · exact Or.inr ⟨hspelled (Or.inl (Or.inl hname)), Or.inl (Or.inl hname)⟩
    · exact Or.inr ⟨hspelled (Or.inl (Or.inr hname)), Or.inl (Or.inr hname)⟩
    · exact Or.inr ⟨hspelled (Or.inr hname), Or.inr hname⟩
    · exact Or.inl (Or.inl (Or.inl (Or.inl hname)))
    · exact Or.inl (Or.inl (Or.inr hname))
    · exact Or.inl (Or.inr hname)
    · exact Or.inl (Or.inl (Or.inl (Or.inr hname)))
  · intro hmissed
    simp only [overlookedName, controlPrefix, Bool.or_eq_true, Bool.and_eq_true, decide_eq_true_eq] at hmissed
    simp only [indexControlName, Bool.or_eq_true, decide_eq_true_eq]
    rcases hmissed with (((hname | hname) | hname) | hname) | ⟨-, (hname | hname) | hname⟩
    · exact Or.inl (Or.inl (Or.inl (Or.inr hname)))
    · exact Or.inr hname
    · exact Or.inl (Or.inl (Or.inr hname))
    · exact Or.inl (Or.inr hname)
    · exact Or.inl (Or.inl (Or.inl (Or.inl (Or.inl (Or.inl hname)))))
    · exact Or.inl (Or.inl (Or.inl (Or.inl (Or.inl (Or.inr hname)))))
    · exact Or.inl (Or.inl (Or.inl (Or.inl (Or.inr hname))))

/-- The path of a record lies below the directory of its section. -/
theorem physical_cases [layout : StoreLayout] {key : Text} (h : physical key ≠ []) :
    ∃ s tail, s ∈ layout.sections ∧ key.splitOn '/' = s.key :: tail ∧ tail ≠ [] ∧ physical key = s.name :: tail ∧
      ∀ part ∈ key.splitOn '/', supportedComponent part := by
  rw [physical] at h ⊢
  split at h
  · exact absurd rfl h
  · rename_i section_ tail hsplit
    split at h
    · exact absurd rfl h
    · rename_i hrefused
      split at h
      · rename_i s hs
        have hallowed := hrefused
        simp only [Bool.or_eq_true, not_or, Bool.not_eq_true', Bool.not_eq_false, List.isEmpty_iff, List.all_eq_true]
          at hallowed
        obtain ⟨⟨⟨⟨⟨⟨htail, -⟩, -⟩, -⟩, -⟩, -⟩, hall⟩ := hallowed
        have hkey : s.key = section_ := by simpa using List.find?_some hs
        refine ⟨s, tail, List.mem_of_find?_eq_some hs, by rw [hsplit, hkey], htail, ?_, fun part hpart => ?_⟩
        · exact if_neg hrefused
        · exact hall part (hsplit ▸ hpart)
      · exact absurd rfl h

theorem keyOf_physical [layout : StoreLayout] (hlayout : LawfulLayout layout) {key : Text} {s : StoreSection}
    {tail : List Text} (hs : s ∈ layout.sections) (hsplit : key.splitOn '/' = s.key :: tail) (htail : tail ≠ []) :
    keyOf (s.name :: tail) = if tail.any indexControlName then none else some key := by
  have hfind : layout.sections.find? (fun t => t.name = s.name) = some s := by
    cases hfound : layout.sections.find? fun t => t.name = s.name with
    | none => exact absurd (decide_eq_true rfl) (List.find?_eq_none.mp hfound s hs)
    | some t =>
      have hname : t.name = s.name := by simpa using List.find?_some hfound
      rw [hlayout.names t (List.mem_of_find?_eq_some hfound) s hs hname]
  have hjoin : ['/'].intercalate (s.key :: tail) = key := by
    rw [← hsplit]
    exact List.intercalate_splitOn '/'
  rw [keyOf]
  by_cases hhidden : tail.any indexControlName
  · rw [if_pos (Or.inr hhidden), if_pos hhidden]
  · rw [if_neg (by simp [htail, hhidden]), if_neg hhidden, hfind, Option.map_some, hjoin]

/-- A scan that finds a key has seen a name for each of its components. -/
theorem splitOn_of_keyOf [layout : StoreLayout] (hlayout : LawfulLayout layout) {p : Path} {key : Text}
    (hp : ∀ part ∈ p, '/' ∉ part) (h : keyOf p = some key) :
    ∃ s ∈ layout.sections, ∃ tail, key.splitOn '/' = s.key :: tail ∧ ¬tail.any indexControlName := by
  cases p with
  | nil => cases h
  | cons name tail =>
    rw [keyOf] at h
    split at h
    · cases h
    · rename_i hshown
      obtain ⟨s, hs, rfl⟩ := Option.map_eq_some_iff.mp h
      have hmem := List.mem_of_find?_eq_some hs
      refine ⟨s, hmem, tail, ?_, fun hhidden => hshown (Or.inr hhidden)⟩
      refine List.splitOn_intercalate '/' ?_ (List.cons_ne_nil _ _)
      intro part hpart
      rcases List.mem_cons.mp hpart with rfl | hpart
      · exact (hlayout.keys s hmem).2
      · exact hp part (List.mem_cons_of_mem _ hpart)

/-- A published record is visited by a scan exactly if no part of its path is an overlooked name. -/
theorem mem_found_iff [layout : StoreLayout] (hlayout : LawfulLayout layout) {key : Text} (hkey : physical key ≠ [])
    {d : Disk} (hd : Slashless d) (hparent : d.walk (physical key).dropLast = .directory)
    (hnode : (d.node (physical key)).isSome) :
    key ∈ found d ↔ ∀ part ∈ key.splitOn '/', ¬indexControlName part := by
  obtain ⟨s, tail, hs, hsplit, htail, hphysical, -⟩ := physical_cases hkey
  have hpart : (∀ part ∈ key.splitOn '/', ¬indexControlName part) ↔ ¬tail.any indexControlName := by
    simp [hsplit, (hlayout.keys s hs).1]
  rw [hpart]
  constructor
  · intro hfound
    obtain ⟨p, hp, hkeyOf⟩ := List.mem_filterMap.mp hfound
    obtain ⟨t, -, tail', hsplit', hshown⟩ := splitOn_of_keyOf hlayout (hd p (List.mem_filter.mp hp).1) hkeyOf
    rw [hsplit] at hsplit'
    rw [(List.cons.inj hsplit').2]
    exact hshown
  · intro hshown
    refine List.mem_filterMap.mpr ⟨physical key, List.mem_filter.mpr ⟨?_, ?_⟩, ?_⟩
    · obtain ⟨n, hn⟩ := Option.isSome_iff_exists.mp hnode
      exact (Table.mem_keys_iff _ _).mpr ⟨n, hn⟩
    · exact decide_eq_true hparent
    · rw [hphysical, keyOf_physical hlayout hs hsplit htail, if_neg hshown]

/-- A valid record uses no hidden name, and a scan visits its path once it is published, exactly
if no part of its path is one of the overlooked names. -/
theorem visible_iff [layout : StoreLayout] (hlayout : LawfulLayout layout) {e : Entry} (h : validRecord e) :
    ((∀ part ∈ e.path.text.splitOn '/', ¬indexControlName part) ↔
      ∀ part ∈ e.path.text.splitOn '/', ¬overlookedName part) ∧
    ∀ d : Disk, Slashless d → d.walk (physical e.path.text).dropLast = .directory →
      (d.node (physical e.path.text)).isSome →
      (e.path.text ∈ found d ↔ ∀ part ∈ e.path.text.splitOn '/', ¬overlookedName part) := by
  have hpath := (validRecord_iff.mp h).path
  have hsame : (∀ part ∈ e.path.text.splitOn '/', ¬indexControlName part) ↔
      ∀ part ∈ e.path.text.splitOn '/', ¬overlookedName part := by
    obtain ⟨-, -, -, -, -, -, hall⟩ := physical_cases hpath
    constructor
    · intro hshown part hpart hmissed
      exact hshown part hpart ((indexControlName_iff (hall part hpart)).mpr hmissed)
    · intro hshown part hpart hhidden
      exact hshown part hpart ((indexControlName_iff (hall part hpart)).mp hhidden)
  refine ⟨hsame, fun d hd hparent hnode => ?_⟩
  exact (mem_found_iff hlayout hpath hd hparent hnode).trans hsame

/-! ## A planted file -/

def planted (name : String) : Entry :=
  versioned
    { path := .string (text name), kind := .string file, size := .string (text "5")
      hash := .string (digest (utf8 (text "hello"))), clock := some [(newMirror.id, .string (text "1"))] }

/-- Send a whole small file at once. -/
def plant (name : String) : Request where
  action := text "commit"
  entry := some (planted name)
  inlineData := .string (text "aGVsbG8=")

/-- A peer publishes a file under a hidden name, and no scan ever visits it. -/
theorem planted_unseen :
    (¬∀ e, @validRecord plainLayout e → ∀ part ∈ e.path.text.splitOn '/', ¬indexControlName part) ∧
    (final (@handle plainLayout (text "tablet") (plant "files/.notes.iisacc-preview") false openedAuthority)).volume.disk.content
        [text "Files", text ".notes.iisacc-preview"] = some (utf8 (text "hello")) ∧
    (planted "files/.notes.iisacc-preview").path.text ∉ @found plainLayout
      (final (@handle plainLayout (text "tablet") (plant "files/.notes.iisacc-preview") false openedAuthority)).volume.disk := by
  constructor
  · intro h
    have hvalid : @validRecord plainLayout (planted "files/.notes.iisacc-preview") := by decide +kernel
    exact h _ hvalid (text ".notes.iisacc-preview") (by decide +kernel) (by decide +kernel)
  · decide +kernel

deriving instance DecidableEq for StoreSection

theorem lawful_plainLayout : LawfulLayout plainLayout where
  names := by decide
  keys := by decide

/-- A tree with one file below its first section. -/
def notesDisk : Disk := (Disk.empty.makeDirectory [text "Files"]).create [text "Files", text "notes"]

theorem visible_iff_notes : (planted "files/notes").path.text ∈ @found plainLayout notesDisk := by
  have hvisible := (@visible_iff plainLayout lawful_plainLayout (planted "files/notes") (by decide +kernel)).2 notesDisk
    (by unfold Slashless; decide +kernel) (by decide +kernel) (by decide +kernel)
  exact hvisible.mpr (by decide +kernel)

end Replica

end SocietyHelper.Sync
