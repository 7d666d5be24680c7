import SocietyHelper.Sync.LogicalPaths

/-! # The names of conflict copies

The losing version of a file is kept next to it, under a name made from the old
one and the version. Where it stands and what it is called can be read back off
the name, so two losers share one only if they share both.
-/

namespace SocietyHelper.Sync

open Library

namespace Replica

/-! ## A path and its last component -/

theorem parentPart_append_namePart (key : Text) : parentPart key ++ namePart key = key := by
  rw [parentPart, namePart, ← List.reverse_append, List.takeWhile_append_dropWhile, List.reverse_reverse]

theorem not_mem_namePart (key : Text) : '/' ∉ namePart key := by
  intro h
  have := List.mem_takeWhile_imp (List.mem_reverse.mp h)
  simp at this

/-- A directory is empty or ends in a slash. -/
def Directory (t : Text) : Prop := t = [] ∨ ∃ s, t = s ++ ['/']

theorem directory_parentPart (key : Text) : Directory (parentPart key) := by
  rw [parentPart]
  cases h : key.reverse.dropWhile (· ≠ '/') with
  | nil => exact .inl rfl
  | cons c rest =>
    have hc : c = '/' := by
      have := List.head?_dropWhile_not (· ≠ '/') key.reverse
      rw [h] at this
      simpa using this
    exact .inr ⟨rest.reverse, by rw [hc, List.reverse_cons]⟩

theorem split_unique {d n : Text} (hd : Directory d) (hn : '/' ∉ n) :
    parentPart (d ++ n) = d ∧ namePart (d ++ n) = n := by
  have hall : ∀ c ∈ n.reverse, (decide (c ≠ '/')) = true := fun c hc =>
    decide_eq_true fun he => hn (he ▸ List.mem_reverse.mp hc)
  have htake : d.reverse.takeWhile (fun c => decide (c ≠ '/')) = [] := by
    rcases hd with rfl | ⟨s, rfl⟩ <;> simp
  have hdrop : d.reverse.dropWhile (fun c => decide (c ≠ '/')) = d.reverse := by
    rcases hd with rfl | ⟨s, rfl⟩ <;> simp
  rw [parentPart, namePart, List.reverse_append, List.takeWhile_append_of_pos hall,
    List.dropWhile_append_of_pos hall, htake, hdrop]
  simp

/-- The components of a directory stay the same under every name in it. -/
theorem splitOn_directory {d : Text} (hd : Directory d) :
    ∃ init, ∀ n, '/' ∉ n → (d ++ n).splitOn '/' = init ++ [n] := by
  rcases hd with rfl | ⟨s, rfl⟩
  · exact ⟨[], fun n hn => List.splitOn_eq_singleton hn⟩
  · refine ⟨s.splitOn '/', fun n hn => ?_⟩
    rw [List.append_assoc, List.singleton_append, List.splitOn_append_cons_self, List.splitOn_eq_singleton hn]

/-! ## The name of the copy -/

def infix_ : Text := text ".sync-conflict-"

/-- What is kept of the old name. -/
def keptName (e : Entry) : Text :=
  if utf8Size (namePart e.path.text) ≤ 160 then namePart e.path.text else file

def conflictName (e : Entry) : Text := keptName e ++ (infix_ ++ e.version.text.take 32)

theorem conflictPath_eq (e : Entry) : conflictPath e = parentPart e.path.text ++ conflictName e := by
  rw [conflictPath, conflictName, keptName, infix_]
  simp only [List.append_assoc]

/-- Beginnings of names that no scan shows, under any spelling. -/
def reservedPrefix (name : Text) : Bool :=
  (text ".society-").isPrefixOf (lowered name) || (text ".iiwebserver-").isPrefixOf (lowered name) ||
    (text ".iifile-stage-").isPrefixOf (lowered name)

/-- A losing name that is kept in its copy and that no scan shows. -/
def reservedName (name : Text) : Bool := utf8Size name ≤ 160 && reservedPrefix name

section

variable [StoreLayout] {e : Entry}

theorem hex_version (h : validRecord e) : hex e.version.text := by
  rw [(validRecord_iff.mp h).version]
  exact hex_sha256 _

theorem length_version (h : validRecord e) : (e.version.text.take 32).length = 32 := by
  rw [List.length_take, hex_length (hex_version h)]
  rfl

theorem isHexDigit_version (h : validRecord e) : ∀ c ∈ e.version.text.take 32, isHexDigit c :=
  fun c hc => isHexDigit_of_hex (hex_version h) c (List.mem_of_mem_take hc)

end

theorem mem_hexDigits {c : Char} (h : isHexDigit c) : c ∈ text "0123456789abcdef" := by
  have hsmall : ∀ n < 128, isHexDigit (Char.ofNat n) → Char.ofNat n ∈ text "0123456789abcdef" := by decide
  have hlt : c.toNat < 128 := by
    simp only [isHexDigit, Bool.or_eq_true, Bool.and_eq_true, decide_eq_true_eq] at h
    rcases h with ⟨-, h⟩ | ⟨-, h⟩
    · exact Nat.lt_of_le_of_lt (show c.toNat ≤ 57 from h) (by decide)
    · exact Nat.lt_of_le_of_lt (show c.toNat ≤ 102 from h) (by decide)
  have hc := hsmall c.toNat hlt
  rw [Char.ofNat_toNat] at hc
  exact hc h

/-- Characters that `physical` takes anywhere in a component, and that no case folding changes. -/
def plainCharacter (c : Char) : Bool :=
  c ≠ '/' && c ≠ '\\' && c ≠ ':' && c ≠ '\x00' && c.utf8Size = 1 && c.toLower = c

theorem hexDigit_plain {c : Char} (h : isHexDigit c) : plainCharacter c := by
  have hall : (text "0123456789abcdef").all plainCharacter := by decide
  exact List.all_eq_true.mp hall c (mem_hexDigits h)

theorem plain_infix : ∀ c ∈ infix_, plainCharacter c := by
  have hall : infix_.all plainCharacter := by decide
  exact List.all_eq_true.mp hall

/-- A prefix with no second dot that reaches into what begins with a dot ends before it. -/
theorem prefix_of_append_dot {p kept rest : Text} (hp : '.' ∉ p.tail) (hkept : kept ≠ [])
    (h : p <+: kept ++ '.' :: rest) : p <+: kept := by
  rcases List.prefix_or_prefix_of_prefix h (List.prefix_append kept ('.' :: rest)) with h' | ⟨q, rfl⟩
  · exact h'
  · cases q with
    | nil =>
      rw [List.append_nil]
    | cons c q =>
      rw [List.prefix_append_right_inj, List.cons_prefix_cons] at h
      refine absurd ?_ hp
      cases kept with
      | nil => exact absurd rfl hkept
      | cons d kept =>
        rw [List.cons_append, List.tail_cons, h.1]
        exact List.mem_append_right _ List.mem_cons_self

theorem prefix_iff_kept {p kept rest : Text} (hp : '.' ∉ p.tail) (hkept : kept ≠ []) :
    p.isPrefixOf (kept ++ '.' :: rest) = p.isPrefixOf kept := by
  rw [Bool.eq_iff_iff, List.isPrefixOf_iff_prefix, List.isPrefixOf_iff_prefix]
  exact ⟨prefix_of_append_dot hp hkept, fun h => h.trans (List.prefix_append _ _)⟩

section

variable [layout : StoreLayout] {e : Entry}

/-- The last component of a valid path is an ordinary name below the section. -/
theorem namePart_supported (h : physical e.path.text ≠ []) :
    ∃ s init, s ∈ layout.sections ∧ e.path.text.splitOn '/' = s.key :: (init ++ [namePart e.path.text]) ∧
      physical e.path.text = s.name :: (init ++ [namePart e.path.text]) ∧
      (∀ part ∈ s.key :: (init ++ [namePart e.path.text]), supportedComponent part) ∧
      ∀ n, '/' ∉ n → (parentPart e.path.text ++ n).splitOn '/' = s.key :: (init ++ [n]) := by
  obtain ⟨s, tail, hs, hsplit, htail, hphysical, hall⟩ := physical_cases h
  obtain ⟨parts, hparts⟩ := splitOn_directory (directory_parentPart e.path.text)
  have hown := hparts _ (not_mem_namePart e.path.text)
  rw [parentPart_append_namePart, hsplit] at hown
  cases parts with
  | nil =>
    rw [List.nil_append] at hown
    exact absurd (List.cons.inj hown).2 htail
  | cons first init =>
    obtain ⟨hfirst, rfl⟩ := List.cons.inj hown
    rw [hsplit] at hall
    exact ⟨s, init, hs, hsplit, hphysical, hall, fun n hn => hfirst ▸ hparts n hn⟩

theorem keptName_supported (h : physical e.path.text ≠ []) : supportedComponent (keptName e) := by
  obtain ⟨s, init, -, -, -, hall, -⟩ := namePart_supported h
  rw [keptName]
  split
  · exact hall _ (List.mem_cons_of_mem _ (List.mem_append_right _ List.mem_cons_self))
  · decide

omit layout in
theorem utf8Size_keptName (e : Entry) : utf8Size (keptName e) ≤ 160 := by
  rw [keptName]
  split
  · assumption
  · decide

theorem keptName_ne_nil (h : physical e.path.text ≠ []) : keptName e ≠ [] := by
  have hsupported := keptName_supported h
  intro hnil
  rw [hnil] at hsupported
  cases hsupported

omit layout in
theorem utf8Size_plain_text {t : Text} (h : ∀ c ∈ t, plainCharacter c) : utf8Size t = t.length :=
  utf8Size_eq_length fun c hc => by
    have hplain := h c hc
    simp only [plainCharacter, Bool.and_eq_true, decide_eq_true_eq] at hplain
    exact hplain.1.2

theorem plain_version (h : validRecord e) : ∀ c ∈ infix_ ++ e.version.text.take 32, plainCharacter c := by
  intro c hc
  rcases List.mem_append.mp hc with hc | hc
  · exact plain_infix c hc
  · exact hexDigit_plain (isHexDigit_version h c hc)

theorem length_ending (h : validRecord e) : (infix_ ++ e.version.text.take 32).length = 47 := by
  rw [List.length_append, length_version h]
  rfl

theorem utf8Size_conflictName (h : validRecord e) : utf8Size (conflictName e) ≤ 220 := by
  have hending := utf8Size_plain_text (plain_version h)
  have hkept := utf8Size_keptName e
  rw [length_ending h] at hending
  rw [conflictName, utf8Size_append]
  omega

omit layout in
theorem ending_eq (e : Entry) :
    infix_ ++ e.version.text.take 32 = '.' :: (text "sync-conflict-" ++ e.version.text.take 32) := rfl

theorem lowered_conflictName (h : validRecord e) :
    lowered (conflictName e) = lowered (keptName e) ++ (infix_ ++ e.version.text.take 32) := by
  rw [conflictName, lowered, lowered, List.map_append]
  congr 1
  conv_rhs => rw [← List.map_id (infix_ ++ e.version.text.take 32)]
  refine List.map_congr_left fun c hc => ?_
  have hplain := plain_version h c hc
  simp only [plainCharacter, Bool.and_eq_true, decide_eq_true_eq] at hplain
  exact hplain.2

/-- No name that is fixed or ends in a fixed way is that of a copy. -/
theorem not_suffix_ending (h : validRecord e) (kept : Text) {p : Text} (hp : p.length ≤ 32) (hdot : '.' ∈ p) :
    ¬p <:+ kept ++ (infix_ ++ e.version.text.take 32) := by
  intro hsuffix
  have hversion : e.version.text.take 32 <:+ kept ++ (infix_ ++ e.version.text.take 32) := by
    rw [← List.append_assoc]
    exact List.suffix_append _ _
  have hshort := List.suffix_of_suffix_length_le hsuffix hversion (by rw [length_version h]; exact hp)
  have hdigit := isHexDigit_version h '.' (hshort.subset hdot)
  cases hdigit

theorem supported_conflictName (h : validRecord e) : supportedComponent (conflictName e) := by
  have hpath := (validRecord_iff.mp h).path
  have hkept := keptName_supported hpath
  have hne := keptName_ne_nil hpath
  have hlength : 47 ≤ (conflictName e).length := by
    rw [conflictName, List.length_append, length_ending h]
    omega
  have hlock : conflictName e ≠ text ".iisacc-temporary.lock" := by
    intro he
    refine not_suffix_ending h (keptName e) (show (text ".iisacc-temporary.lock").length ≤ 32 by decide) (by decide) ?_
    rw [← he]
    exact List.suffix_refl _
  simp only [supportedComponent, Bool.and_eq_true, decide_eq_true_eq, Bool.not_eq_true'] at hkept ⊢
  have hcontrol : controlPrefix (conflictName e) = false := by
    rw [controlPrefix, conflictName, ending_eq, prefix_iff_kept (by decide) hne, prefix_iff_kept (by decide) hne]
    exact hkept.1.2
  refine ⟨⟨⟨⟨⟨?_, ?_⟩, ?_⟩, utf8Size_conflictName h⟩, hcontrol⟩, hlock⟩
  all_goals
    intro he
    rw [he] at hlength
    exact absurd hlength (by decide)

/-- A copy is hidden from scans only by what it keeps of the old name. -/
theorem indexControlName_conflictName (h : validRecord e) :
    indexControlName (conflictName e) = reservedName (namePart e.path.text) := by
  have hpath := (validRecord_iff.mp h).path
  have hne : lowered (keptName e) ≠ [] := by
    rw [lowered, Ne, List.map_eq_nil_iff]
    exact keptName_ne_nil hpath
  have hfixed : ∀ p : Text, p.length ≤ 32 → '.' ∈ p →
      p.isSuffixOf (lowered (keptName e) ++ (infix_ ++ e.version.text.take 32)) = false := by
    intro p hp hdot
    rw [← Bool.not_eq_true, List.isSuffixOf_iff_suffix]
    exact not_suffix_ending h _ hp hdot
  have hequal : ∀ p : Text, p.length ≤ 32 → '.' ∈ p →
      lowered (keptName e) ++ (infix_ ++ e.version.text.take 32) ≠ p := by
    intro p hp hdot he
    refine not_suffix_ending h (lowered (keptName e)) hp hdot ?_
    rw [he]
  have hreserved : reservedName (namePart e.path.text) = reservedPrefix (keptName e) := by
    rw [reservedName, keptName]
    split
    · simp [*]
    · rw [decide_eq_false ‹_›, Bool.false_and]
      decide
  rw [hreserved, indexControlName, lowered_conflictName h, hfixed _ (by decide) (by decide),
    hfixed _ (by decide) (by decide), decide_eq_false (hequal _ (by decide) (by decide)),
    decide_eq_false (hequal _ (by decide) (by decide)), ending_eq, prefix_iff_kept (by decide) hne,
    prefix_iff_kept (by decide) hne, prefix_iff_kept (by decide) hne, reservedPrefix]
  simp only [Bool.or_false]

/-! ## The path of the copy -/

theorem conflictName_slashless (h : validRecord e) : '/' ∉ conflictName e := by
  intro hslash
  rcases List.mem_append.mp hslash with hkept | hending
  · rw [keptName] at hkept
    split at hkept
    · exact not_mem_namePart _ hkept
    · revert hkept
      decide
  · have hplain := plain_version h '/' hending
    revert hplain
    decide

theorem parts_conflictPath (h : validRecord e) :
    parentPart (conflictPath e) = parentPart e.path.text ∧ namePart (conflictPath e) = conflictName e := by
  rw [conflictPath_eq]
  exact split_unique (directory_parentPart _) (conflictName_slashless h)

/-- Characters that no key may hold stand in the copy's path only if they stood in the old one. -/
theorem mem_conflictPath (h : validRecord e) {c : Char} (hc : c ∈ conflictPath e) :
    c ∈ e.path.text ∨ c ∈ file ∨ plainCharacter c := by
  rw [conflictPath_eq, conflictName, keptName] at hc
  rcases List.mem_append.mp hc with hparent | hname
  · left
    rw [← parentPart_append_namePart e.path.text]
    exact List.mem_append_left _ hparent
  · rcases List.mem_append.mp hname with hkept | hending
    · split at hkept
      · left
        rw [← parentPart_append_namePart e.path.text]
        exact List.mem_append_right _ hkept
      · exact .inr (.inl hkept)
    · exact .inr (.inr (plain_version h c hending))

/-- Where the whole key and each component are accepted, the section alone decides. -/
theorem physical_of_split {key k : Text} {tail : List Text} (hsplit : key.splitOn '/' = k :: tail) (htail : tail ≠ [])
    (hkey : Accepted key) (hall : ∀ part ∈ k :: tail, supportedComponent part) :
    physical key = ((layout.sections.find? fun s => s.key = k).map fun s => s.name :: tail).getD [] := by
  obtain ⟨hsize, hback, hcolon, hnull⟩ := hkey
  have hempty : tail ≠ [[]] := by
    rintro rfl
    exact absurd (hall [] (List.mem_cons_of_mem _ List.mem_cons_self)) (by decide)
  rw [physical, hsplit]
  dsimp only
  rw [if_neg]
  · cases layout.sections.find? fun s => s.key = k <;> rfl
  · have hcomponents : (k :: tail).all supportedComponent = true := List.all_eq_true.mpr hall
    simp only [Bool.or_eq_true, decide_eq_true_eq, List.isEmpty_iff, List.contains_iff_mem, hcomponents,
      Bool.not_true, Bool.false_eq_true, not_or, not_lt, not_false_eq_true, and_true]
    exact ⟨⟨⟨⟨⟨htail, hempty⟩, hsize⟩, hback⟩, hcolon⟩, hnull⟩

theorem accepted_conflictPath (h : validRecord e) (hroom : utf16Size (conflictPath e) ≤ 3500) :
    Accepted (conflictPath e) := by
  obtain ⟨-, hback, hcolon, hnull⟩ := accepted_of_physical (validRecord_iff.mp h).path
  have hplain : ∀ c : Char, c ∉ e.path.text → c ∉ file → ¬plainCharacter c → c ∉ conflictPath e := by
    intro c hkey hfile hnot hc
    rcases mem_conflictPath h hc with hc | hc | hc
    · exact hkey hc
    · exact hfile hc
    · exact hnot hc
  exact ⟨hroom, hplain _ hback (by decide) (by decide), hplain _ hcolon (by decide) (by decide),
    hplain _ hnull (by decide) (by decide)⟩

theorem physical_conflictPath (h : validRecord e) (hroom : utf16Size (conflictPath e) ≤ 3500) :
    physical (conflictPath e) = (physical e.path.text).dropLast ++ [conflictName e] := by
  have hpath := (validRecord_iff.mp h).path
  obtain ⟨s, init, hs, hsplit, hphysical, hall, hnames⟩ := namePart_supported hpath
  have hcopy : (conflictPath e).splitOn '/' = s.key :: (init ++ [conflictName e]) := by
    rw [conflictPath_eq]
    exact hnames _ (conflictName_slashless h)
  have hcomponents : ∀ part ∈ s.key :: (init ++ [conflictName e]), supportedComponent part := by
    intro part hpart
    rcases List.mem_cons.mp hpart with rfl | hpart
    · exact hall _ List.mem_cons_self
    · rcases List.mem_append.mp hpart with hpart | hpart
      · exact hall _ (List.mem_cons_of_mem _ (List.mem_append_left _ hpart))
      · rw [List.mem_singleton.mp hpart]
        exact supported_conflictName h
  have hold := physical_of_split hsplit (by simp) (accepted_of_physical hpath) hall
  have hnew := physical_of_split hcopy (by simp) (accepted_conflictPath h hroom) hcomponents
  rw [hold] at hpath
  cases hfind : layout.sections.find? fun t => t.key = s.key with
  | none =>
    rw [hfind] at hpath
    exact absurd rfl hpath
  | some t =>
    rw [hfind] at hold hnew
    rw [hnew, hold]
    simp only [Option.map_some, Option.getD_some, ← List.cons_append, List.dropLast_concat]

/-- What the path of a conflict copy has to be. -/
structure ConflictCopy (e : Entry) : Prop where
  accepted : physical (conflictPath e) ≠ []
  beside : parentPart (conflictPath e) = parentPart e.path.text
  directory : (physical (conflictPath e)).dropLast = (physical e.path.text).dropLast
  short : utf8Size (namePart (conflictPath e)) ≤ 220
  visible : ¬indexControlName (namePart (conflictPath e))

theorem conflictCopy_iff (h : validRecord e) (hroom : utf16Size (conflictPath e) ≤ 3500) :
    ConflictCopy e ↔ ¬reservedName (namePart e.path.text) := by
  obtain ⟨hparent, hname⟩ := parts_conflictPath h
  constructor
  · intro hcopy
    rw [← indexControlName_conflictName h, ← hname]
    exact hcopy.visible
  · intro hname'
    have hphysical := physical_conflictPath h hroom
    constructor
    · rw [hphysical]
      simp
    · exact hparent
    · rw [hphysical, List.dropLast_concat]
    · rw [hname]
      exact utf8Size_conflictName h
    · rw [hname, indexControlName_conflictName h]
      exact hname'

/-! ## No two losers share a copy -/

theorem conflictPath_inj {a b : Entry} (ha : validRecord a) (hb : validRecord b) (h : conflictPath a = conflictPath b) :
    parentPart a.path.text = parentPart b.path.text ∧ a.version.text.take 32 = b.version.text.take 32 := by
  obtain ⟨hparent, hname⟩ := parts_conflictPath ha
  obtain ⟨hparent', hname'⟩ := parts_conflictPath hb
  rw [h] at hparent hname
  refine ⟨hparent.symm.trans hparent', ?_⟩
  have hnames : conflictName a = conflictName b := hname.symm.trans hname'
  rw [conflictName, conflictName, ← List.append_assoc, ← List.append_assoc] at hnames
  exact List.append_inj_right' hnames ((length_version ha).trans (length_version hb).symm)

/-! ## Room for the copy -/

omit layout in
theorem utf8Size_le_utf16Size (t : Text) : utf8Size t ≤ 4 * utf16Size t := by
  induction t with
  | nil => exact Nat.le_refl 0
  | cons c t ih =>
    have hc := c.utf8Size_le_four
    rw [utf8Size_cons]
    have hunits : utf16Size (c :: t) = (if c.val < 0x10000 then 1 else 2) + utf16Size t := rfl
    rw [hunits]
    split <;> omega

/-- The ending of a copy is all the room it needs. -/
theorem room_of_path (h : validRecord e) : utf16Size (conflictPath e) ≤ utf16Size e.path.text + 47 := by
  have hending : utf16Size (infix_ ++ e.version.text.take 32) ≤ 47 := by
    have hplain := utf8Size_plain_text (plain_version h)
    rw [length_ending h] at hplain
    exact hplain ▸ utf16Size_le_utf8Size _
  have hkept : utf16Size (keptName e) ≤ utf16Size (namePart e.path.text) := by
    rw [keptName]
    split
    · exact Nat.le_refl _
    · have hbytes := utf8Size_le_utf16Size (namePart e.path.text)
      have hfile : utf16Size file = 4 := by decide
      omega
  have hwhole := congrArg utf16Size (parentPart_append_namePart e.path.text)
  rw [utf16Size_append] at hwhole
  rw [conflictPath_eq, conflictName, utf16Size_append, utf16Size_append]
  omega

/-- Copies stand beside their originals under short names that physical takes; only an old name with a reserved
beginning hides them. -/
theorem conflict_names :
    (∀ e, validRecord e → utf16Size e.path.text + 47 ≤ 3500 → utf16Size (conflictPath e) ≤ 3500) ∧
    (∀ e, validRecord e → utf16Size (conflictPath e) ≤ 3500 → (ConflictCopy e ↔ ¬reservedName (namePart e.path.text))) ∧
    (∀ a b : Entry, a.path.text = b.path.text → a.version.text = b.version.text → conflictPath a = conflictPath b) ∧
    ∀ a b, validRecord a → validRecord b →
      (a.version.text ≠ b.version.text → a.version.text.take 32 ≠ b.version.text.take 32) →
      a.version.text ≠ b.version.text ∨ parentPart a.path.text ≠ parentPart b.path.text →
      conflictPath a ≠ conflictPath b := by
  refine ⟨fun e h hroom => (room_of_path h).trans hroom, fun e h hroom => conflictCopy_iff h hroom, ?_, ?_⟩
  · intro a b hpath hversion
    rw [conflictPath, conflictPath, hpath, hversion]
  · intro a b ha hb hprefix hdiffer heq
    obtain ⟨hparent, hversion⟩ := conflictPath_inj ha hb heq
    rcases hdiffer with hdiffer | hdiffer
    · exact hprefix hdiffer hversion
    · exact hdiffer hparent

end

/-- A file with the name of a staged one loses, and no scan sees the copy. -/
theorem staged_name_hidden :
    ¬∀ e, @validRecord plainLayout e → e.kind.text = file → utf16Size e.path.text + 47 ≤ 3500 →
      @ConflictCopy plainLayout e := by
  intro h
  have hvalid : @validRecord plainLayout (planted "files/.iifile-stage-notes") := by decide +kernel
  have hcopy := h _ hvalid rfl (by decide)
  have hroom := (@room_of_path plainLayout _ hvalid).trans (by decide : _ ≤ 3500)
  exact (@conflictCopy_iff plainLayout _ hvalid hroom).mp hcopy (by decide)

/-- The same file, and where its copy stands. -/
theorem conflict_names_notes :
    @ConflictCopy plainLayout (planted "files/notes") ∧
      conflictPath (planted "files/notes") ≠ conflictPath (planted "files/old/notes") := by
  obtain ⟨hroom, hcopy, -, hdiffer⟩ := @conflict_names plainLayout
  have hvalid : @validRecord plainLayout (planted "files/notes") ∧ @validRecord plainLayout (planted "files/old/notes") ∧
      (planted "files/notes").version.text.take 32 ≠ (planted "files/old/notes").version.text.take 32 := by
    decide +kernel
  constructor
  · exact (hcopy _ hvalid.1 (hroom _ hvalid.1 (by decide))).mpr (by decide)
  · exact hdiffer _ _ hvalid.1 hvalid.2.1 (fun _ => hvalid.2.2) (.inr (by decide))

end Replica

end SocietyHelper.Sync
