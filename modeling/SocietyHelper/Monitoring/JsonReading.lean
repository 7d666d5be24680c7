import SocietyHelper.Monitoring.JsonScanning

/-! # The reader accepts the grammar

What the reader takes of a text is a value with the whitespace before it; the
whitespace behind it is left to whoever reads on. A value is taken whole as long
as what follows it may follow a value.
-/

namespace SocietyHelper.Monitoring.Json

open Library JsonGrammar

/-! ## Literals -/

theorem utf8_prefix {name t : Text} (hname : ∀ c ∈ name, c.toNat < 128) (h : utf8 name <+: utf8 t) :
    ∃ t', t = name ++ t' := by
  induction name generalizing t with
  | nil => exact ⟨t, rfl⟩
  | cons c name ih =>
    have hc := hname c List.mem_cons_self
    obtain ⟨rest, hrest⟩ := h
    rw [utf8_ascii hc, List.cons_append] at hrest
    obtain ⟨t', rfl, hb⟩ := (utf8_head hc).mp hrest.symm
    obtain ⟨t'', rfl⟩ := ih (fun d hd => hname d (List.mem_cons_of_mem c hd)) ⟨rest, hb⟩
    exact ⟨t'', rfl⟩

theorem literal_ascii : ∀ name ∈ [text "true", text "false", text "null"], ∀ c ∈ name, c.toNat < 128 := by
  intro name h c hc
  have hall : [text "true", text "false", text "null"].all fun name => name.all fun c => c.toNat < 128 := by decide
  exact of_decide_eq_true (List.all_eq_true.mp (List.all_eq_true.mp hall name h) c hc)

theorem literal_sound {t : Text} {b : Bytes} (h : literal (utf8 t) = some b) :
    ∃ name t', name ∈ [text "true", text "false", text "null"] ∧ t = name ++ t' ∧ b = utf8 t' := by
  obtain ⟨name, hmem, hname⟩ := List.exists_of_findSome?_eq_some h
  split at hname
  · rename_i hprefix
    obtain ⟨t', rfl⟩ := utf8_prefix (literal_ascii name hmem) (List.isPrefixOf_iff_prefix.mp hprefix)
    cases hname
    refine ⟨name, t', hmem, rfl, ?_⟩
    rw [utf8_append, List.drop_left]
  · cases hname

theorem literal_complete {name : Text} (h : name ∈ [text "false", text "null", text "true"]) (t : Text) :
    literal (utf8 (name ++ t)) = some (utf8 t) := by
  simp only [List.mem_cons, List.not_mem_nil, or_false] at h
  rcases h with rfl | rfl | rfl <;> rfl

/-! ## Sequences -/

/-- What the items of a sequence do, one after the other. -/
inductive Run {σ : Type} (P : σ → Text → σ → Prop) : σ → List Text → σ → Prop where
  | nil (s : σ) : Run P s [] s
  | cons {s s' s'' : σ} {k : Text} {ks : List Text} (h : P s k s') (hs : Run P s' ks s'') : Run P s (k :: ks) s''

/-- What an item takes is a text that does `P`, with whitespace before it. -/
def Sound {σ : Type} (item : σ × Bytes → Option (σ × Bytes)) (P : σ → Text → σ → Prop) : Prop :=
  ∀ s t s' b, item (s, utf8 t) = some (s', b) → ∃ w k t', Ws w ∧ t = w ++ (k ++ t') ∧ b = utf8 t' ∧ P s k s'

/-- Each text that does `P` is taken, but for whitespace at its end. -/
def Complete {σ : Type} (item : σ × Bytes → Option (σ × Bytes)) (P : σ → Text → σ → Prop) : Prop :=
  ∀ s k s' w t, P s k s' → Ws w → Follow t → ∃ v, Ws v ∧ item (s, utf8 (w ++ (k ++ t))) = some (s', utf8 (v ++ t))

theorem ws_nil : Ws [] := fun _ hc => by cases hc

theorem mark_comma : Mark ',' := ⟨by decide, by decide⟩

theorem Follow.ws {v t : Text} (hv : Ws v) (ht : Follow t) : Follow (v ++ t) := by
  cases v with
  | nil => exact ht
  | cons c v =>
    intro d hd
    obtain rfl : c = d := Option.some.inj hd
    exact .inl (hv c List.mem_cons_self)

theorem Follow.token {c : Char} (hc : c = ',' ∨ c = ']' ∨ c = '\x7d') {a : Text} (h : Token c a) (t : Text) :
    Follow (a ++ t) := by
  obtain ⟨x, y, hx, -, rfl⟩ := h
  rw [List.append_assoc]
  refine Follow.ws hx fun d hd => .inr ?_
  obtain rfl : c = d := Option.some.inj hd
  exact hc

theorem take_ws {c : Char} {v : Text} (hv : Ws v) (t : Text) : take c (utf8 (v ++ t)) = take c (utf8 t) := by
  rw [take, take, space_utf8, space_utf8, skip_append hv]

theorem take_other {c d : Char} (hc : c.toNat < 128) (hne : c ≠ d) {t r : Text} (h : skip t = d :: r) :
    take c (utf8 t) = none := by
  cases htake : take c (utf8 t) with
  | none => rfl
  | some b =>
    obtain ⟨t', ht, -⟩ := (take_utf8 hc).mp htake
    rw [h] at ht
    exact absurd (List.cons.inj ht).1.symm hne

section

variable {σ : Type} {item : σ × Bytes → Option (σ × Bytes)} {P : σ → Text → σ → Prop}

theorem doWhile_sound (hitem : Sound item P) {n : Nat} {s s' : σ} {t : Text} {b : Bytes}
    (h : doWhile item n (s, utf8 t) = some (s', b)) :
    ∃ w ks x t', Ws w ∧ t = w ++ (x ++ t') ∧ b = utf8 t' ∧ Separated ks x ∧ Run P s ks s' := by
  induction n generalizing s t with
  | zero => cases h
  | succ n ih =>
    rw [doWhile] at h
    split at h
    · cases h
    · rename_i first hfirst
      obtain ⟨w, k, t₁, hw, rfl, hb, hk⟩ := hitem s t first.1 first.2 hfirst
      rw [hb] at h
      split at h
      · rename_i b' hcomma
        obtain ⟨a, t₂, ha, rfl, rfl⟩ := take_sound mark_comma hcomma
        obtain ⟨w', ks, x, t', hw', rfl, hrest, hx, hrun⟩ := ih h
        refine ⟨w, k :: ks, k ++ (a ++ ',' :: w' ++ x), t', hw, by simp, hrest, ?_, .cons hk hrun⟩
        exact .more ⟨a, w', ha, hw', rfl⟩ hx
      · cases h
        exact ⟨w, [k], k, t₁, hw, rfl, hb, .one k, .cons hk (.nil _)⟩

theorem doWhile_complete (hitem : Complete item P) {ks : List Text} {x : Text} (hx : Separated ks x) {s s' : σ}
    (hrun : Run P s ks s') {w t : Text} (hw : Ws w) (ht : Follow t) (hend : take ',' (utf8 t) = none) {n : Nat}
    (hn : ks.length ≤ n) :
    ∃ v, Ws v ∧ doWhile item n (s, utf8 (w ++ (x ++ t))) = some (s', utf8 (v ++ t)) := by
  induction hx generalizing s w n with
  | one k =>
    cases hrun with
    | cons hk hnil =>
      cases hnil
      obtain ⟨n, rfl⟩ := Nat.exists_eq_add_of_le' (show 1 ≤ n from hn)
      obtain ⟨v, hv, hread⟩ := hitem _ _ _ w t hk hw ht
      refine ⟨v, hv, ?_⟩
      rw [doWhile, hread]
      dsimp only
      rw [take_ws hv, hend]
  | @more k comma x ks hcomma hx ih =>
    cases hrun with
    | cons hk hrest =>
      obtain ⟨n, rfl⟩ := Nat.exists_eq_add_of_le' (Nat.le_trans (Nat.le_add_left 1 _) hn)
      obtain ⟨v, hv, hread⟩ := hitem _ _ _ w (comma ++ (x ++ t)) hk hw (.token (.inl rfl) hcomma _)
      obtain ⟨w', hw', htake⟩ := take_token mark_comma (hcomma.ws hv) (x ++ t)
      obtain ⟨u, hu, hmore⟩ := ih hrest hw' (n := n) (Nat.le_of_succ_le_succ hn)
      refine ⟨u, hu, ?_⟩
      rw [List.append_assoc] at htake
      rw [List.append_assoc, List.append_assoc, doWhile, hread]
      dsimp only
      rw [htake]
      exact hmore

theorem enclosed_sound {close : Char} (hclose : Mark close) (hitem : Sound item P) {s s' : σ} {t : Text} {b : Bytes}
    (h : enclosed close item (s, utf8 t) = some (s', b)) :
    (∃ a t', Ws a ∧ t = a ++ close :: t' ∧ s' = s ∧ b = utf8 t') ∨
    ∃ w ks x a t', Ws w ∧ Ws a ∧ t = w ++ (x ++ (a ++ close :: t')) ∧ Separated ks x ∧ Run P s ks s' ∧ b = utf8 t' := by
  rw [enclosed] at h
  split at h
  · rename_i b' htake
    obtain ⟨a, t', ha, rfl, rfl⟩ := take_sound hclose htake
    cases h
    exact .inl ⟨a, t', ha, rfl, rfl, rfl⟩
  · obtain ⟨last, hloop, hend⟩ := Option.bind_eq_some_iff.mp h
    obtain ⟨w, ks, x, t₁, hw, rfl, hb, hx, hrun⟩ := doWhile_sound hitem (show _ = some (last.1, last.2) from hloop)
    obtain ⟨b', htake, hlast⟩ := Option.map_eq_some_iff.mp hend
    rw [hb] at htake
    obtain ⟨a, t', ha, rfl, rfl⟩ := take_sound hclose htake
    cases hlast
    exact .inr ⟨w, ks, x, a, t', hw, ha, rfl, hx, hrun, rfl⟩

variable (item) in
theorem enclosed_nil {close : Char} (hclose : Mark close) {e w : Text} (he : Token close e) (hw : Ws w) (s : σ) (t : Text) :
    ∃ v, Ws v ∧ enclosed close item (s, utf8 (w ++ (e ++ t))) = some (s, utf8 (v ++ t)) := by
  obtain ⟨v, hv, htake⟩ := take_token hclose (he.ws hw) t
  rw [List.append_assoc] at htake
  exact ⟨v, hv, by rw [enclosed, htake]⟩

theorem length_utf8_le (t : Text) : t.length ≤ (utf8 t).length := by
  induction t with
  | nil => exact Nat.le_refl 0
  | cons c t ih =>
    have hc := List.length_pos_of_ne_nil (encode_ne_nil c)
    rw [utf8_cons, List.length_cons, List.length_append]
    omega

/-- The closing character ends the loop, as no item begins with it and no comma does. -/
theorem enclosed_complete {close : Char} (hclose : Mark close) (hkind : close = ',' ∨ close = ']' ∨ close = '\x7d')
    (hne : close ≠ ',') (hitem : Complete item P) {ks : List Text} {x e w : Text} (hx : Separated ks x) {s s' : σ}
    (hrun : Run P s ks s') (he : Token close e) (hw : Ws w) {t : Text}
    (hfirst : take close (utf8 (w ++ (x ++ (e ++ t)))) = none) :
    ∃ v, Ws v ∧ enclosed close item (s, utf8 (w ++ (x ++ (e ++ t)))) = some (s', utf8 (v ++ t)) := by
  have hcomma : take ',' (utf8 (e ++ t)) = none := by
    obtain ⟨a, b, ha, -, rfl⟩ := he
    refine take_other mark_comma.small (Ne.symm hne) (?_ : _ = close :: (b ++ t))
    rw [List.append_assoc, skip_append ha, List.cons_append, skip_cons hclose.visible]
  have hfuel : ks.length ≤ (utf8 (w ++ (x ++ (e ++ t)))).length := by
    have hks := hx.length_le
    have hbytes := length_utf8_le (w ++ (x ++ (e ++ t)))
    obtain ⟨a, b, -, -, rfl⟩ := he
    simp only [List.length_append, List.length_cons] at hbytes
    omega
  obtain ⟨u, hu, hloop⟩ := doWhile_complete hitem hx hrun hw (.token hkind he t) hcomma hfuel
  obtain ⟨v, hv, htake⟩ := take_token hclose (he.ws hu) t
  rw [List.append_assoc] at htake
  refine ⟨v, hv, ?_⟩
  rw [enclosed, hfirst]
  dsimp only
  rw [hloop, Option.bind_some, htake]
  rfl

end

/-! ## Values -/

def keyOf (ps : List Piece) : Bytes := utf8 ((decode ps).getD [])

/-- What the reader keeps of a value. -/
def scalarOf : Tree → Scalar
  | .string ps => ⟨.string, keyOf ps⟩
  | .number lexeme => ⟨.number, utf8 lexeme⟩
  | _ => {}

/-- A member that may stand where `n` levels are left. -/
structure Good (n : Nat) (m : Member) : Prop where
  name : JsonString m.name m.key
  colon : Token ':' m.colon
  value : Value m.value m.tree
  key : (decode m.key).isSome
  within : m.tree.Within n

def ValueSound (n : Nat) : Prop :=
  ∀ t s b, value n (utf8 t) = some (s, b) →
    ∃ w k tree t', Ws w ∧ t = w ++ (k ++ t') ∧ b = utf8 t' ∧ Value k tree ∧ tree.Within n ∧ s = scalarOf tree

def ValueComplete (n : Nat) : Prop :=
  ∀ k tree w t, Value k tree → tree.Within n → Ws w → Follow t →
    ∃ v, Ws v ∧ value n (utf8 (w ++ (k ++ t))) = some (scalarOf tree, utf8 (v ++ t))

theorem keyOf_decodes {ps : List Piece} {s : Text} (h : Decodes ps s) : keyOf ps = utf8 s ∧ (decode ps).isSome := by
  rw [keyOf, decode_of_decodes h]
  exact ⟨rfl, rfl⟩

theorem decodes_of_isSome {ps : List Piece} (h : (decode ps).isSome) : ∃ s, Decodes ps s := by
  obtain ⟨s, hs⟩ := Option.isSome_iff_exists.mp h
  exact ⟨s, decodes_of_decode hs⟩

theorem mark_colon : Mark ':' := ⟨by decide, by decide⟩

theorem member_sound {n : Nat} (hvalue : ValueSound n) {t : Text} {key b : Bytes} {scalar : Scalar}
    (h : member (value n) (utf8 t) = some ((key, scalar), b)) :
    ∃ w m t', Ws w ∧ t = w ++ (m.text ++ t') ∧ b = utf8 t' ∧ Good n m ∧ key = keyOf m.key ∧ scalar = scalarOf m.tree := by
  obtain ⟨⟨key', b₁⟩, hstring, h⟩ := Option.bind_eq_some_iff.mp h
  obtain ⟨w, name, ps, s, t₁, hw, rfl, hname, hs, rfl, rfl⟩ := string_sound hstring
  obtain ⟨b₂, hcolon, h⟩ := Option.bind_eq_some_iff.mp h
  obtain ⟨a, t₂, ha, rfl, rfl⟩ := take_sound mark_colon hcolon
  obtain ⟨⟨scalar', b₃⟩, hread, hboth⟩ := Option.map_eq_some_iff.mp h
  obtain ⟨w', k, tree, t', hw', rfl, rfl, hk, hwithin, rfl⟩ := hvalue t₂ scalar' b₃ hread
  cases hboth
  obtain ⟨hkey, hsome⟩ := keyOf_decodes hs
  refine ⟨w, ⟨name, ps, a ++ ':' :: w', k, tree⟩, t', hw, by simp [Member.text], rfl, ?_, hkey.symm, rfl⟩
  exact ⟨hname, ⟨a, w', ha, hw', rfl⟩, hk, hsome, hwithin⟩

theorem member_complete {n : Nat} (hvalue : ValueComplete n) {m : Member} (hm : Good n m) {w t : Text} (hw : Ws w)
    (ht : Follow t) :
    ∃ v, Ws v ∧ member (value n) (utf8 (w ++ (m.text ++ t))) = some ((keyOf m.key, scalarOf m.tree), utf8 (v ++ t)) := by
  obtain ⟨s, hs⟩ := decodes_of_isSome hm.key
  have hstring := string_complete hw hm.name hs (m.colon ++ (m.value ++ t))
  obtain ⟨w', hw', htake⟩ := take_token mark_colon hm.colon (m.value ++ t)
  obtain ⟨v, hv, hread⟩ := hvalue m.value m.tree w' t hm.value hm.within hw' ht
  refine ⟨v, hv, ?_⟩
  rw [member, Member.text, List.append_assoc, List.append_assoc, hstring, Option.bind_some]
  dsimp only
  rw [htake, Option.bind_some, hread, (keyOf_decodes hs).1]
  rfl

theorem sound_items {n : Nat} (hvalue : ValueSound n) :
    Sound (ignoring (value n)) fun _ k _ => ∃ tree, Value k tree ∧ tree.Within n := by
  intro s t s' b h
  obtain ⟨⟨scalar, b'⟩, hread, hb⟩ := Option.map_eq_some_iff.mp h
  obtain ⟨w, k, tree, t', hw, ht, hrest, hk, hwithin, -⟩ := hvalue t scalar b' hread
  exact ⟨w, k, t', hw, ht, (Prod.mk.inj hb).2.symm.trans hrest, tree, hk, hwithin⟩

theorem complete_items {n : Nat} (hvalue : ValueComplete n) :
    Complete (ignoring (value n)) fun _ k _ => ∃ tree, Value k tree ∧ tree.Within n := by
  rintro s k s' w t ⟨tree, hk, hwithin⟩ hw ht
  obtain ⟨v, hv, hread⟩ := hvalue k tree w t hk hwithin hw ht
  exact ⟨v, hv, by rw [ignoring, hread]; rfl⟩

theorem sound_members {n : Nat} (hvalue : ValueSound n) :
    Sound (ignoring (member (value n))) fun _ k _ => ∃ m, Member.text m = k ∧ Good n m := by
  intro s t s' b h
  obtain ⟨⟨⟨key, scalar⟩, b'⟩, hread, hb⟩ := Option.map_eq_some_iff.mp h
  obtain ⟨w, m, t', hw, ht, hrest, hm, -, -⟩ := member_sound hvalue hread
  exact ⟨w, m.text, t', hw, ht, (Prod.mk.inj hb).2.symm.trans hrest, m, rfl, hm⟩

theorem complete_members {n : Nat} (hvalue : ValueComplete n) :
    Complete (ignoring (member (value n))) fun _ k _ => ∃ m, Member.text m = k ∧ Good n m := by
  rintro s k s' w t ⟨m, rfl, hm⟩ hw ht
  obtain ⟨v, hv, hread⟩ := member_complete hvalue hm hw ht
  exact ⟨v, hv, by rw [ignoring, hread]; rfl⟩

theorem Run.imp {σ : Type} {P Q : σ → Text → σ → Prop} {s s' : σ} {ks : List Text} (h : Run P s ks s')
    (himp : ∀ s k s', P s k s' → Q s k s') : Run Q s ks s' := by
  induction h with
  | nil s => exact .nil s
  | cons h _ ih => exact .cons (himp _ _ _ h) ih

/-- What a run over texts of one form does is a list of what they are texts of. -/
theorem Run.gather {α : Type} {f : α → Text} {Q : α → Prop} {s s' : Unit} {ks : List Text}
    (h : Run (fun _ k _ => ∃ m, f m = k ∧ Q m) s ks s') : ∃ ms : List α, ms.map f = ks ∧ ∀ m ∈ ms, Q m := by
  induction h with
  | nil => exact ⟨[], rfl, fun _ hm => by cases hm⟩
  | cons h _ ih =>
    obtain ⟨m, rfl, hm⟩ := h
    obtain ⟨ms, rfl, hms⟩ := ih
    exact ⟨m :: ms, rfl, List.forall_mem_cons.mpr ⟨hm, hms⟩⟩

theorem Run.of_forall {α : Type} {f : α → Text} {P : Unit → Text → Unit → Prop} {ms : List α}
    (h : ∀ m ∈ ms, P () (f m) ()) : Run P () (ms.map f) () := by
  induction ms with
  | nil => exact .nil ()
  | cons m ms ih =>
    rw [List.forall_mem_cons] at h
    exact .cons h.1 (ih h.2)

theorem mark_bracket : Mark ']' := ⟨by decide, by decide⟩

theorem mark_brace : Mark '\x7d' := ⟨by decide, by decide⟩

/-- A structural character with whitespace on one side only. -/
theorem token_before (c : Char) {b : Text} (hb : Ws b) : Token c (c :: b) := ⟨[], b, ws_nil, hb, rfl⟩

theorem token_behind (c : Char) {a : Text} (ha : Ws a) : Token c (a ++ [c]) := ⟨a, [], ha, ws_nil, rfl⟩

theorem array_sound {n : Nat} (hvalue : ValueSound n) {s s' : Unit} {t : Text} {b : Bytes}
    (h : enclosed ']' (ignoring (value n)) (s, utf8 t) = some (s', b)) :
    ∃ k items t', '[' :: t = k ++ t' ∧ b = utf8 t' ∧ Value k (.array items) ∧ (Tree.array items).Within (n + 1) := by
  rcases enclosed_sound mark_bracket (sound_items hvalue) h with
    ⟨a, t', ha, rfl, -, rfl⟩ | ⟨w, ks, x, a, t', hw, ha, rfl, hx, hrun, rfl⟩
  · refine ⟨['['] ++ (a ++ [']']), [], t', by simp, rfl, ?_, fun _ hm => by cases hm⟩
    exact .emptyArray (token_before '[' ws_nil) (token_behind ']' ha)
  · obtain ⟨vs, rfl, hvs⟩ := Run.gather (f := Prod.fst) (Q := fun v : Text × Tree => Value v.1 v.2 ∧ v.2.Within n) <| by
      refine hrun.imp fun _ k _ => ?_
      rintro ⟨tree, hk, hwithin⟩
      exact ⟨(k, tree), rfl, hk, hwithin⟩
    refine ⟨('[' :: w) ++ (x ++ (a ++ [']'])), vs.map Prod.snd, t', by simp, rfl, ?_, ?_⟩
    · exact .array (token_before '[' hw) hx (fun v hv => (hvs v hv).1) (token_behind ']' ha)
    · intro tree htree
      obtain ⟨v, hv, rfl⟩ := List.mem_map.mp htree
      exact (hvs v hv).2

theorem object_sound {n : Nat} (hvalue : ValueSound n) {s s' : Unit} {t : Text} {b : Bytes}
    (h : enclosed '\x7d' (ignoring (member (value n))) (s, utf8 t) = some (s', b)) :
    ∃ k ms t', '\x7b' :: t = k ++ t' ∧ b = utf8 t' ∧ Value k (.object ms) ∧ (Tree.object ms).Within (n + 1) := by
  rcases enclosed_sound mark_brace (sound_members hvalue) h with
    ⟨a, t', ha, rfl, -, rfl⟩ | ⟨w, ks, x, a, t', hw, ha, rfl, hx, hrun, rfl⟩
  · refine ⟨['\x7b'] ++ (a ++ ['\x7d']), [], t', by simp, rfl, ?_, fun _ hm => by cases hm⟩
    exact .emptyObject (token_before '\x7b' ws_nil) (token_behind '\x7d' ha)
  · obtain ⟨ms, rfl, hms⟩ := Run.gather hrun
    refine ⟨('\x7b' :: w) ++ (x ++ (a ++ ['\x7d'])), ms.map Member.denoted, t', by simp, rfl, ?_, ?_⟩
    · exact .object (token_before '\x7b' hw) hx (fun m hm => ⟨(hms m hm).name, (hms m hm).colon⟩)
        (fun m hm => (hms m hm).value) (token_behind '\x7d' ha)
    · intro p hp
      obtain ⟨m, hm, rfl⟩ := List.mem_map.mp hp
      exact ⟨(hms m hm).key, (hms m hm).within⟩

theorem value_sound (n : Nat) : ValueSound n := by
  induction n with
  | zero =>
    intro t s b h
    cases h
  | succ n ih =>
    intro t s b h
    obtain ⟨w, hw, ht⟩ := skipped t
    rw [value, space_utf8] at h
    split at h
    · cases h
    · rename_i c rest hrest
      split at h
      · obtain ⟨⟨out, b'⟩, hstring, hboth⟩ := Option.map_eq_some_iff.mp h
        rw [← hrest] at hstring
        obtain ⟨w', k, ps, u, t', hw', hskip, hk, hu, rfl, rfl⟩ := string_sound hstring
        obtain ⟨hkey, hsome⟩ := keyOf_decodes hu
        cases hboth
        refine ⟨w ++ w', k, .string ps, t', ?_, by rw [ht, hskip, List.append_assoc], rfl, .string hk, hsome, ?_⟩
        · exact fun d hd => (List.mem_append.mp hd).elim (hw d) (hw' d)
        · rw [scalarOf, hkey]
      · split at h
        · rename_i hbrace
          obtain ⟨t₁, hskip, rfl⟩ := (head_utf8 hrest '\x7b' (by decide)).mp hbrace
          obtain ⟨⟨s', b'⟩, hread, hboth⟩ := Option.map_eq_some_iff.mp h
          obtain ⟨k, ms, t', hk, rfl, hvalue, hwithin⟩ := object_sound ih hread
          cases hboth
          exact ⟨w, k, _, t', hw, by rw [ht, hskip, hk], rfl, hvalue, hwithin, rfl⟩
        · split at h
          · rename_i hbracket
            obtain ⟨t₁, hskip, rfl⟩ := (head_utf8 hrest '[' (by decide)).mp hbracket
            obtain ⟨⟨s', b'⟩, hread, hboth⟩ := Option.map_eq_some_iff.mp h
            obtain ⟨k, items, t', hk, rfl, hvalue, hwithin⟩ := array_sound ih hread
            cases hboth
            exact ⟨w, k, _, t', hw, by rw [ht, hskip, hk], rfl, hvalue, hwithin, rfl⟩
          · rw [← hrest] at h
            split at h
            · rename_i r hliteral
              obtain ⟨name, t', hname, hskip, rfl⟩ := literal_sound hliteral
              cases h
              refine ⟨w, name, .literal name, t', hw, by rw [ht, hskip], rfl, .literal ?_, trivial, rfl⟩
              revert hname
              simp only [List.mem_cons]
              tauto
            · obtain ⟨⟨out, b'⟩, hnumber, hboth⟩ := Option.map_eq_some_iff.mp h
              obtain ⟨w', k, t', hw', hskip, hk, rfl, rfl⟩ := number_sound hnumber
              cases hboth
              refine ⟨w ++ w', k, .number k, t', ?_, by rw [ht, hskip, List.append_assoc], rfl, .number hk, trivial, rfl⟩
              exact fun d hd => (List.mem_append.mp hd).elim (hw d) (hw' d)

/-! ## Every value of the grammar is read -/

theorem separated_head {ks : List Text} {x : Text} (h : Separated ks x) : ∃ k ∈ ks, ∃ r, x = k ++ r := by
  cases h with
  | one => exact ⟨x, List.mem_cons_self, [], (List.append_nil x).symm⟩
  | more => exact ⟨_, List.mem_cons_self, _, rfl⟩

theorem token_skip {c : Char} (hc : isWs c = false) {a : Text} (h : Token c a) (t : Text) :
    ∃ w, Ws w ∧ skip (a ++ t) = c :: (w ++ t) := by
  obtain ⟨x, y, hx, hy, rfl⟩ := h
  exact ⟨y, hy, by rw [List.append_assoc, skip_append hx, List.cons_append, skip_cons hc]⟩

/-- A number begins with a minus or a digit. -/
theorem number_first {k : Text} (hk : Number k) (t : Text) :
    ∃ c r, k ++ t = c :: r ∧ isWs c = false ∧ (c = '-' ∨ c.isDigit) := by
  cases hk with
  | @mk m i f e hm hi hf he =>
    simp only [List.mem_cons, List.not_mem_nil, or_false] at hm
    rcases hm with rfl | rfl
    · obtain ⟨c, hhead, hdigit⟩ := head_int hi (f ++ e ++ t)
      rw [List.nil_append, List.append_assoc]
      cases hwhole : i ++ (f ++ e ++ t) with
      | nil =>
        rw [hwhole] at hhead
        cases hhead
      | cons d r =>
        rw [hwhole] at hhead
        obtain rfl : d = c := Option.some.inj hhead
        exact ⟨d, r, rfl, not_isWs_digit hdigit, .inr hdigit⟩
    · exact ⟨'-', _, rfl, by decide, .inl rfl⟩

theorem value_first {k : Text} {tree : Tree} (h : Value k tree) (t : Text) :
    ∃ c r, skip (k ++ t) = c :: r ∧ c ≠ ']' := by
  cases h with
  | literal h =>
    simp only [List.mem_cons, List.not_mem_nil, or_false] at h
    rcases h with rfl | rfl | rfl <;> exact ⟨_, _, rfl, by decide⟩
  | number h =>
    obtain ⟨c, r, hk, hw, hkind⟩ := number_first h t
    refine ⟨c, r, hk ▸ skip_cons hw r, ?_⟩
    rintro rfl
    exact absurd hkind (by decide)
  | string h =>
    obtain ⟨body, -, rfl⟩ := h
    exact ⟨'"', body ++ ['"'] ++ t, skip_cons (by decide) _, by decide⟩
  | emptyArray begun ended =>
    obtain ⟨w, -, hskip⟩ := token_skip (by decide) begun (_ ++ t)
    exact ⟨_, _, by rw [List.append_assoc]; exact hskip, by decide⟩
  | array begun items each ended =>
    obtain ⟨w, -, hskip⟩ := token_skip (by decide) begun (_ ++ t)
    exact ⟨_, _, by rw [List.append_assoc]; exact hskip, by decide⟩
  | emptyObject begun ended =>
    obtain ⟨w, -, hskip⟩ := token_skip (by decide) begun (_ ++ t)
    exact ⟨_, _, by rw [List.append_assoc]; exact hskip, by decide⟩
  | object begun members names each ended =>
    obtain ⟨w, -, hskip⟩ := token_skip (by decide) begun (_ ++ t)
    exact ⟨_, _, by rw [List.append_assoc]; exact hskip, by decide⟩

/-- What the reader of values does, by the first character that it looks at. -/
theorem value_step {n : Nat} {t r : Text} {c : Char} (hskip : skip t = c :: r) (hc : c.toNat < 128) :
    value (n + 1) (utf8 t) =
      if c = '"' then (string (utf8 (c :: r))).map fun (v, b) => (⟨.string, v⟩, b)
      else if c = '\x7b' then
        (enclosed '\x7d' (ignoring (member (value n))) ((), utf8 r)).map fun s => ({}, s.2)
      else if c = '[' then (enclosed ']' (ignoring (value n)) ((), utf8 r)).map fun s => ({}, s.2)
      else match literal (utf8 (c :: r)) with
        | some b => some ({}, b)
        | none => (number (utf8 (c :: r))).map fun (v, b) => (⟨.number, v⟩, b) := by
  rw [value, space_utf8, hskip, utf8_ascii hc]
  dsimp only
  simp only [ascii_inj hc (show '"'.toNat < 128 by decide), ascii_inj hc (show '\x7b'.toNat < 128 by decide),
    ascii_inj hc (show '['.toNat < 128 by decide)] <;> rfl

theorem literal_none {c : Char} {r : Text} (hc : c = '-' ∨ c.isDigit) : literal (utf8 (c :: r)) = none := by
  cases h : literal (utf8 (c :: r)) with
  | none => rfl
  | some b =>
    obtain ⟨name, t', hname, ht, -⟩ := literal_sound h
    simp only [List.mem_cons, List.not_mem_nil, or_false] at hname
    rcases hname with rfl | rfl | rfl
    all_goals
      obtain rfl := (List.cons.inj ht).1
      exact absurd hc (by decide)

theorem array_complete {n : Nat} (hvalue : ValueComplete n) {vs : List (Text × Tree)} {x e w t : Text}
    (hx : Separated (vs.map Prod.fst) x) (hvs : ∀ v ∈ vs, Value v.1 v.2 ∧ v.2.Within n) (he : Token ']' e) (hw : Ws w) :
    ∃ v, Ws v ∧ enclosed ']' (ignoring (value n)) ((), utf8 (w ++ (x ++ (e ++ t)))) = some ((), utf8 (v ++ t)) := by
  refine enclosed_complete mark_bracket (.inr (.inl rfl)) (by decide) (complete_items hvalue) hx
    (Run.of_forall fun v hv => ⟨v.2, hvs v hv⟩) he hw ?_
  obtain ⟨k, hk, r, rfl⟩ := separated_head hx
  obtain ⟨v, hv, rfl⟩ := List.mem_map.mp hk
  obtain ⟨c, r', hskip, hne⟩ := value_first (hvs v hv).1 (r ++ (e ++ t))
  refine take_other mark_bracket.small (Ne.symm hne) (?_ : _ = c :: r')
  rw [skip_append hw, List.append_assoc, hskip]

/-- No member begins with the brace that ends an object. -/
theorem members_first {ms : List Member} {x w : Text} (hx : Separated (ms.map Member.text) x)
    (hnames : ∀ m ∈ ms, JsonString m.name m.key) (hw : Ws w) (t : Text) :
    take '\x7d' (utf8 (w ++ (x ++ t))) = none := by
  obtain ⟨k, hk, r, rfl⟩ := separated_head hx
  obtain ⟨m, hm, rfl⟩ := List.mem_map.mp hk
  obtain ⟨body, -, hname⟩ := hnames m hm
  refine take_other mark_brace.small (by decide : _ ≠ '"') (?_ : _ = '"' :: (body ++ ['"'] ++ (m.colon ++ m.value) ++ r ++ t))
  rw [skip_append hw, Member.text, hname]
  exact skip_cons (by decide) _

theorem object_complete {n : Nat} (hvalue : ValueComplete n) {ms : List Member} {x e w t : Text}
    (hx : Separated (ms.map Member.text) x) (hms : ∀ m ∈ ms, Good n m) (he : Token '\x7d' e) (hw : Ws w) :
    ∃ v, Ws v ∧
      enclosed '\x7d' (ignoring (member (value n))) ((), utf8 (w ++ (x ++ (e ++ t)))) = some ((), utf8 (v ++ t)) := by
  refine enclosed_complete mark_brace (.inr (.inr rfl)) (by decide) (complete_members hvalue) hx
    (Run.of_forall fun m hm => ⟨m, rfl, hms m hm⟩) he hw ?_
  exact members_first hx (fun m hm => (hms m hm).name) hw (e ++ t)

theorem value_complete (n : Nat) : ValueComplete n := by
  induction n with
  | zero =>
    intro k tree w t _ hwithin
    cases hwithin
  | succ n ih =>
    intro k tree w t hk hwithin hw ht
    cases hk with
    | literal h =>
      obtain ⟨c, r, hname, hc, hlow, hne⟩ : ∃ c r, k ++ t = c :: r ∧ isWs c = false ∧ c.toNat < 128 ∧
          c ≠ '"' ∧ c ≠ '\x7b' ∧ c ≠ '[' := by
        have hnames := h
        simp only [List.mem_cons, List.not_mem_nil, or_false] at hnames
        rcases hnames with rfl | rfl | rfl
        all_goals
          refine ⟨_, _, rfl, ?_⟩
          decide
      have hskip : skip (w ++ (k ++ t)) = c :: r := by rw [skip_append hw, hname, skip_cons hc]
      refine ⟨[], ws_nil, ?_⟩
      rw [value_step hskip hlow, if_neg hne.1, if_neg hne.2.1, if_neg hne.2.2, ← hname, literal_complete h t]
      rfl
    | @number k h =>
      obtain ⟨c, r, hk, hc, hkind⟩ := number_first h t
      have hskip : skip (w ++ (k ++ t)) = c :: r := by rw [skip_append hw, hk, skip_cons hc]
      have hlow : c.toNat < 128 := by
        rcases hkind with rfl | hdigit
        · decide
        · rw [Char.isDigit, Bool.and_eq_true, decide_eq_true_eq, decide_eq_true_eq] at hdigit
          exact Nat.lt_of_le_of_lt (show c.toNat ≤ '9'.toNat from hdigit.2) (by decide)
      have hne : ∀ d : Char, ¬(d = '-' ∨ d.isDigit) → c ≠ d := by
        rintro d hd rfl
        exact hd hkind
      have hread := number_complete ws_nil h ht
      refine ⟨[], ws_nil, ?_⟩
      rw [value_step hskip hlow, if_neg (hne _ (by decide)), if_neg (hne _ (by decide)), if_neg (hne _ (by decide)),
        literal_none hkind, ← hk]
      dsimp only
      rw [List.nil_append] at hread
      rw [hread]
      rfl
    | @string k ps h =>
      obtain ⟨s, hs⟩ := decodes_of_isSome hwithin
      have hread := string_complete ws_nil h hs t
      obtain ⟨body, -, rfl⟩ := h
      have hskip : skip (w ++ ('"' :: (body ++ ['"']) ++ t)) = '"' :: (body ++ ['"'] ++ t) := by
        rw [skip_append hw]
        exact skip_cons (by decide) _
      refine ⟨[], ws_nil, ?_⟩
      rw [List.nil_append, List.cons_append] at hread
      rw [value_step hskip (by decide), if_pos rfl, scalarOf, (keyOf_decodes hs).1, hread]
      rfl
    | @emptyArray a b begun ended =>
      obtain ⟨u, hu, hskip⟩ := token_skip (by decide) (begun.ws hw) (b ++ t)
      obtain ⟨v, hv, hread⟩ := enclosed_nil (ignoring (value n)) mark_bracket ended hu () t
      refine ⟨v, hv, ?_⟩
      rw [List.append_assoc] at hskip
      rw [List.append_assoc, value_step hskip (by decide), if_neg (by decide), if_neg (by decide), if_pos rfl, hread]
      rfl
    | @array a x b vs begun hx each ended =>
      obtain ⟨u, hu, hskip⟩ := token_skip (by decide) (begun.ws hw) (x ++ (b ++ t))
      have hvs : ∀ v ∈ vs, Value v.1 v.2 ∧ v.2.Within n := fun v hv =>
        ⟨each v hv, hwithin v.2 (List.mem_map_of_mem hv)⟩
      obtain ⟨v, hv, hread⟩ := array_complete ih hx hvs ended hu
      refine ⟨v, hv, ?_⟩
      rw [List.append_assoc] at hskip
      rw [List.append_assoc, List.append_assoc, value_step hskip (by decide), if_neg (by decide), if_neg (by decide),
        if_pos rfl, hread]
      rfl
    | @emptyObject a b begun ended =>
      obtain ⟨u, hu, hskip⟩ := token_skip (by decide) (begun.ws hw) (b ++ t)
      obtain ⟨v, hv, hread⟩ := enclosed_nil (ignoring (member (value n))) mark_brace ended hu () t
      refine ⟨v, hv, ?_⟩
      rw [List.append_assoc] at hskip
      rw [List.append_assoc, value_step hskip (by decide), if_neg (by decide), if_pos rfl, hread]
      rfl
    | @object a x b ms begun hx names each ended =>
      obtain ⟨u, hu, hskip⟩ := token_skip (by decide) (begun.ws hw) (x ++ (b ++ t))
      have hms : ∀ m ∈ ms, Good n m := fun m hm =>
        have hdenoted := hwithin m.denoted (List.mem_map_of_mem hm)
        ⟨(names m hm).1, (names m hm).2, each m hm, hdenoted.1, hdenoted.2⟩
      obtain ⟨v, hv, hread⟩ := object_complete ih hx hms ended hu
      refine ⟨v, hv, ?_⟩
      rw [List.append_assoc] at hskip
      rw [List.append_assoc, List.append_assoc, value_step hskip (by decide), if_neg (by decide), if_pos rfl, hread]
      rfl

/-! ## Documents -/

def entryOf (m : List Piece × Tree) : Bytes × Scalar := (keyOf m.1, scalarOf m.2)

/-- Keys that are texts and different, and values within the levels. -/
structure Readable (ms : List (List Piece × Tree)) : Prop where
  keys : ∀ m ∈ ms, (decode m.1).isSome
  within : ∀ m ∈ ms, m.2.Within levels
  distinct : (ms.map fun m => decode m.1).Nodup

/-- One member goes to the end of what has been gathered, under a key of its own. -/
def Emplaces (s : List (Bytes × Scalar)) (k : Text) (s' : List (Bytes × Scalar)) : Prop :=
  ∃ m, Member.text m = k ∧ Good levels m ∧ keyOf m.key ∉ s.map Prod.fst ∧ s' = s ++ [entryOf m.denoted]

theorem sound_emplaced : Sound emplaced Emplaces := by
  intro s t s' b h
  obtain ⟨⟨⟨key, scalar⟩, b'⟩, hread, h⟩ := Option.bind_eq_some_iff.mp h
  obtain ⟨w, m, t', hw, ht, hrest, hm, rfl, rfl⟩ := member_sound (value_sound levels) hread
  dsimp only at h
  split at h
  · cases h
  · rename_i hfresh
    cases h
    exact ⟨w, m.text, t', hw, ht, hrest, m, rfl, hm, hfresh, rfl⟩

theorem complete_emplaced : Complete emplaced Emplaces := by
  rintro s k s' w t ⟨m, rfl, hm, hfresh, rfl⟩ hw ht
  obtain ⟨v, hv, hread⟩ := member_complete (value_complete levels) hm hw ht
  refine ⟨v, hv, ?_⟩
  rw [emplaced, hread, Option.bind_some]
  exact if_neg hfresh

theorem run_emplaces {s s' : List (Bytes × Scalar)} {ks : List Text} (h : Run Emplaces s ks s')
    (hs : (s.map Prod.fst).Nodup) :
    ∃ ms : List Member, ms.map Member.text = ks ∧ (∀ m ∈ ms, Good levels m) ∧
      s' = s ++ (ms.map Member.denoted).map entryOf ∧ (s'.map Prod.fst).Nodup := by
  induction h with
  | nil s => exact ⟨[], rfl, fun _ hm => (by cases hm), (List.append_nil s).symm, hs⟩
  | @cons s _ _ _ _ h _ ih =>
    obtain ⟨m, rfl, hm, hfresh, rfl⟩ := h
    have hmore : ((s ++ [entryOf m.denoted]).map Prod.fst).Nodup := by
      rw [List.map_append]
      exact hs.append (List.nodup_singleton _) (List.disjoint_singleton.mpr hfresh)
    obtain ⟨ms, rfl, hms, rfl, hnodup⟩ := ih hmore
    refine ⟨m :: ms, rfl, List.forall_mem_cons.mpr ⟨hm, hms⟩, ?_, hnodup⟩
    rw [List.append_assoc]
    rfl

theorem emplaces_run {ms : List Member} (hms : ∀ m ∈ ms, Good levels m) {s : List (Bytes × Scalar)}
    (hnodup : ((s ++ (ms.map Member.denoted).map entryOf).map Prod.fst).Nodup) :
    Run Emplaces s (ms.map Member.text) (s ++ (ms.map Member.denoted).map entryOf) := by
  induction ms generalizing s with
  | nil =>
    rw [List.map_nil, List.map_nil, List.map_nil, List.append_nil]
    exact .nil s
  | cons m ms ih =>
    rw [List.forall_mem_cons] at hms
    have hsplit : s ++ ((m :: ms).map Member.denoted).map entryOf =
        s ++ [entryOf m.denoted] ++ (ms.map Member.denoted).map entryOf := by
      rw [List.append_assoc]
      rfl
    rw [hsplit] at hnodup ⊢
    have hfirst := List.Nodup.of_append_left (List.map_append ▸ hnodup)
    rw [List.map_append, List.nodup_append] at hfirst
    refine .cons ⟨m, rfl, hms.1, fun hmem => ?_, rfl⟩ (ih hms.2 hnodup)
    exact hfirst.2.2 _ hmem _ (List.mem_singleton_self _) rfl

theorem members_ok_iff {b b' : Bytes} {r : List (Bytes × Scalar)} :
    members b = .ok (r, b') ↔ enclosed '\x7d' emplaced ([], b) = some (r, b') := by
  rw [members, enclosed]
  dsimp only
  cases htake : take '\x7d' b with
  | some b₁ => simp
  | none =>
    cases hloop : doWhile emplaced b.length ([], b) with
    | none => simp
    | some s => cases hend : take '\x7d' s.2 <;> simp [hend, Prod.ext_iff]

theorem object_ok_iff {serializes : Bytes → Bool} {b : Bytes} {r : List (Bytes × Scalar)} (h : serializes b) :
    object serializes b = .ok r ↔
      ∃ b₁ b₂, take '\x7b' b = some b₁ ∧ enclosed '\x7d' emplaced ([], b₁) = some (r, b₂) ∧ space b₂ = [] := by
  simp only [object, h, Bool.not_true, Bool.false_eq_true, if_false, ← members_ok_iff]
  cases htake : take '\x7b' b with
  | none => simp
  | some b₁ =>
    cases hmembers : members b₁ with
    | error e => simp [hmembers]
    | ok s =>
      obtain ⟨entries, b₂⟩ := s
      by_cases hs : space b₂ = []
      · simp [hmembers, hs]
      · simp only [hmembers, ne_eq, hs, not_false_eq_true, if_true, reduceCtorEq, false_iff, not_exists]
        rintro b₁' b' ⟨hb₁, hread, hspace⟩
        obtain rfl := Option.some.inj hb₁
        obtain ⟨-, rfl⟩ := Prod.mk.inj (Except.ok.inj (hmembers.symm.trans hread))
        exact hs hspace

theorem keyOf_injOn {ps qs : List Piece} (hps : (decode ps).isSome) (hqs : (decode qs).isSome) (h : keyOf ps = keyOf qs) :
    decode ps = decode qs := by
  obtain ⟨s, hs⟩ := Option.isSome_iff_exists.mp hps
  obtain ⟨t, ht⟩ := Option.isSome_iff_exists.mp hqs
  rw [keyOf, keyOf, hs, ht] at h
  rw [hs, ht]
  exact congrArg some (utf8_injective h)

/-- Keys differ as bytes just when they differ as texts. -/
theorem distinct_iff {ms : List (List Piece × Tree)} (hkeys : ∀ m ∈ ms, (decode m.1).isSome) :
    ((ms.map entryOf).map Prod.fst).Nodup ↔ (ms.map fun m => decode m.1).Nodup := by
  rw [List.map_map, List.Nodup, List.Nodup, List.pairwise_map, List.pairwise_map]
  refine List.Pairwise.iff_of_mem fun ha hb => not_congr ⟨keyOf_injOn (hkeys _ ha) (hkeys _ hb), fun h => ?_⟩
  rw [Function.comp_apply, Function.comp_apply, entryOf, entryOf, keyOf, keyOf, h]

theorem readable_of_good {ms : List Member} (hms : ∀ m ∈ ms, Good levels m)
    (hnodup : (((ms.map Member.denoted).map entryOf).map Prod.fst).Nodup) : Readable (ms.map Member.denoted) := by
  have hkeys : ∀ m ∈ ms.map Member.denoted, (decode m.1).isSome := by
    intro p hp
    obtain ⟨m, hm, rfl⟩ := List.mem_map.mp hp
    exact (hms m hm).key
  refine ⟨hkeys, ?_, (distinct_iff hkeys).mp hnodup⟩
  intro p hp
  obtain ⟨m, hm, rfl⟩ := List.mem_map.mp hp
  exact (hms m hm).within

theorem mark_open : Mark '\x7b' := ⟨by decide, by decide⟩

theorem ws_of_space {t : Text} (h : space (utf8 t) = []) : Ws t := by
  rw [space_utf8, utf8_eq_nil] at h
  obtain ⟨a, ha, ht⟩ := skipped t
  rw [h, List.append_nil] at ht
  exact ht ▸ ha

theorem object_sound_document {t : Text} {b₁ b₂ : Bytes} {r : List (Bytes × Scalar)} (htake : take '\x7b' (utf8 t) = some b₁)
    (hread : enclosed '\x7d' emplaced ([], b₁) = some (r, b₂)) (hspace : space b₂ = []) :
    ∃ ms, JsonText t (.object ms) ∧ Readable ms ∧ r = ms.map entryOf := by
  obtain ⟨w₀, t₁, hw₀, rfl, rfl⟩ := take_sound mark_open htake
  rcases enclosed_sound mark_brace sound_emplaced hread with
    ⟨a, t', ha, rfl, rfl, rfl⟩ | ⟨w, ks, x, a, t', hw, ha, rfl, hx, hrun, rfl⟩
  · refine ⟨[], ⟨w₀, ['\x7b'] ++ (a ++ ['\x7d']), t', hw₀, ?_, ws_of_space hspace, by simp⟩, ?_, rfl⟩
    · exact .emptyObject (token_before '\x7b' ws_nil) (token_behind '\x7d' ha)
    · exact ⟨fun _ hm => (by cases hm), fun _ hm => (by cases hm), List.nodup_nil⟩
  · obtain ⟨ms, rfl, hms, rfl, hnodup⟩ := run_emplaces hrun List.nodup_nil
    refine ⟨ms.map Member.denoted, ⟨w₀, ('\x7b' :: w) ++ (x ++ (a ++ ['\x7d'])), t', hw₀, ?_, ws_of_space hspace, by simp⟩,
      readable_of_good hms hnodup, rfl⟩
    exact .object (token_before '\x7b' hw) hx (fun m hm => ⟨(hms m hm).name, (hms m hm).colon⟩)
      (fun m hm => (hms m hm).value) (token_behind '\x7d' ha)

theorem space_ws {t : Text} (h : Ws t) : space (utf8 t) = [] := by
  have hskip := skip_append h []
  rw [List.append_nil] at hskip
  rw [space_utf8, hskip]
  rfl

theorem object_complete_document {t : Text} {ms : List (List Piece × Tree)} (h : JsonText t (.object ms))
    (hms : Readable ms) :
    ∃ b₁ b₂, take '\x7b' (utf8 t) = some b₁ ∧ enclosed '\x7d' emplaced ([], b₁) = some (ms.map entryOf, b₂) ∧
      space b₂ = [] := by
  obtain ⟨a, v, b, ha, hv, hb, rfl⟩ := h
  cases hv with
  | @emptyObject x y begun ended =>
    obtain ⟨w, hw, htake⟩ := take_token mark_open (begun.ws ha) (y ++ b)
    obtain ⟨u, hu, hread⟩ := enclosed_nil emplaced mark_brace ended hw [] b
    refine ⟨_, _, ?_, hread, space_ws fun c hc => (List.mem_append.mp hc).elim (hu c) (hb c)⟩
    rw [← htake]
    simp only [List.append_assoc]
  | @object x s y members begun hs names each ended =>
    have hgood : ∀ m ∈ members, Good levels m := fun m hm =>
      ⟨(names m hm).1, (names m hm).2, each m hm, hms.keys _ (List.mem_map_of_mem hm),
        hms.within _ (List.mem_map_of_mem hm)⟩
    have hrun := emplaces_run hgood (s := []) ((distinct_iff hms.keys).mpr hms.distinct)
    obtain ⟨w, hw, htake⟩ := take_token mark_open (begun.ws ha) (s ++ (y ++ b))
    obtain ⟨u, hu, hread⟩ := enclosed_complete mark_brace (.inr (.inr rfl)) (by decide) complete_emplaced hs hrun ended hw
      (members_first hs (fun m hm => (names m hm).1) hw (y ++ b))
    refine ⟨_, _, ?_, hread, space_ws fun c hc => (List.mem_append.mp hc).elim (hu c) (hb c)⟩
    rw [← htake]
    simp only [List.append_assoc]

/-- The reader accepts the objects of the grammar, and gives what they denote. -/
theorem object_iff {serializes : Bytes → Bool} {t : Text} (h : serializes (utf8 t)) (r : List (Bytes × Scalar)) :
    object serializes (utf8 t) = .ok r ↔ ∃ ms, JsonText t (.object ms) ∧ Readable ms ∧ r = ms.map entryOf := by
  rw [object_ok_iff h]
  constructor
  · rintro ⟨b₁, b₂, htake, hread, hspace⟩
    exact object_sound_document htake hread hspace
  · rintro ⟨ms, htext, hms, rfl⟩
    exact object_complete_document htext hms

end SocietyHelper.Monitoring.Json
