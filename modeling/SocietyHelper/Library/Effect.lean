import SocietyHelper.Library.Text

/-! # Failing computations on a state

A computation may stop with an error text; the state it had reached by then is
kept. A frame is a reflexive and transitive relation between states. A
computation keeps a frame when, however it ends, its first and last state are
related; programs keep a frame as soon as their steps do.
-/

namespace SocietyHelper.Library

universe u

abbrev Effect (σ : Type) := EStateM Text σ

namespace Effect

variable {σ α β : Type}

/-- The state a computation ends in, whether it succeeds or fails. -/
def final : EStateM.Result Text σ α → σ
  | .ok _ s => s
  | .error _ s => s

@[simp] theorem final_ok (a : α) (s : σ) : final (.ok a s : EStateM.Result Text σ α) = s := rfl
@[simp] theorem final_error (e : Text) (s : σ) : final (.error e s : EStateM.Result Text σ α) = s := rfl

@[simp] theorem pure_apply (a : α) (s : σ) : (pure a : Effect σ α) s = .ok a s := rfl
@[simp] theorem throw_apply (e : Text) (s : σ) : (throw e : Effect σ α) s = .error e s := rfl
@[simp] theorem get_apply (s : σ) : (get : Effect σ σ) s = .ok s s := rfl
@[simp] theorem set_apply (t s : σ) : (set t : Effect σ PUnit) s = .ok ⟨⟩ t := rfl
@[simp] theorem modify_apply (f : σ → σ) (s : σ) : (modify f : Effect σ PUnit) s = .ok ⟨⟩ (f s) := rfl

theorem bind_apply (m : Effect σ α) (f : α → Effect σ β) (s : σ) :
    (m >>= f) s = EStateM.bind m f s := rfl

theorem bind_of_ok {m : Effect σ α} {f : α → Effect σ β} {s t : σ} {a : α} (h : m s = .ok a t) :
    (m >>= f) s = f a t := by
  rw [bind_apply, EStateM.bind, h]

theorem bind_of_error {m : Effect σ α} {f : α → Effect σ β} {s t : σ} {e : Text} (h : m s = .error e t) :
    (m >>= f) s = .error e t := by
  rw [bind_apply, EStateM.bind, h]

theorem bind_eq_ok {m : Effect σ α} {f : α → Effect σ β} {s u : σ} {b : β} :
    (m >>= f) s = .ok b u ↔ ∃ a t, m s = .ok a t ∧ f a t = .ok b u := by
  cases h : m s with
  | ok a t =>
    rw [bind_of_ok h]
    constructor
    · intro hf
      exact ⟨a, t, rfl, hf⟩
    · rintro ⟨a', t', hat, hf⟩
      cases hat
      exact hf
  | error e t =>
    rw [bind_of_error h]
    simp

/-- Run a computation; if it fails, repair the state it left with the state before. -/
def rollback (restore : σ → σ → σ) (m : Effect σ α) : Effect σ α := fun s =>
  match m s with
  | .ok a t => .ok a t
  | .error e t => .error e (restore s t)

theorem rollback_eq_ok {restore : σ → σ → σ} {m : Effect σ α} {s t : σ} {a : α} :
    rollback restore m s = .ok a t ↔ m s = .ok a t := by
  rw [rollback]
  cases m s <;> simp

/-- Run a computation, then a second one that only cleans up: the first answer counts. -/
def andThen (m : Effect σ α) (cleanup : Effect σ Unit) : Effect σ α := fun s =>
  match m s with
  | .ok a t => .ok a (final (cleanup t))
  | .error e t => .error e (final (cleanup t))

/-- Where a computation fails, clean up and fail. -/
def onError (m : Effect σ α) (cleanup : Effect σ Unit) : Effect σ α := fun s =>
  match m s with
  | .ok a t => .ok a t
  | .error e t => .error e (final (cleanup t))

/-- Where a computation fails, fail with another error. -/
def relabel (error : Text) (m : Effect σ α) : Effect σ α := fun s =>
  match m s with
  | .ok a t => .ok a t
  | .error _ t => .error error t

theorem relabel_of_ok {error : Text} {m : Effect σ α} {s t : σ} {a : α} (h : m s = .ok a t) :
    relabel error m s = .ok a t := by
  rw [relabel, h]

theorem relabel_of_error {error e : Text} {m : Effect σ α} {s t : σ} (h : m s = .error e t) :
    relabel error m s = .error error t := by
  rw [relabel, h]

/-- Run a computation on one part of the state. -/
def zoom {τ : Type} (view : σ → τ) (update : σ → τ → σ) (m : Effect τ α) : Effect σ α := fun s =>
  match m (view s) with
  | .ok a t => .ok a (update s t)
  | .error e t => .error e (update s t)

theorem zoom_eq_ok {τ : Type} {view : σ → τ} {update : σ → τ → σ} {m : Effect τ α} {s u : σ} {a : α} :
    zoom view update m s = .ok a u ↔ ∃ t, m (view s) = .ok a t ∧ u = update s t := by
  rw [zoom]
  cases m (view s) with
  | ok b t => simp [eq_comm]
  | error e t => simp

theorem zoom_of_ok {τ : Type} {view : σ → τ} {update : σ → τ → σ} {m : Effect τ α} {s : σ} {t : τ} {a : α}
    (h : m (view s) = .ok a t) : zoom view update m s = .ok a (update s t) := by
  rw [zoom, h]

theorem zoom_of_error {τ : Type} {view : σ → τ} {update : σ → τ → σ} {m : Effect τ α} {s : σ} {t : τ} {e : Text}
    (h : m (view s) = .error e t) : zoom view update m s = .error e (update s t) := by
  rw [zoom, h]

/-- Where a computation fails, answer with a value instead. -/
def orElse (a : α) (m : Effect σ α) : Effect σ α := fun s =>
  match m s with
  | .ok b t => .ok b t
  | .error _ t => .ok a t

end Effect

/-- A reflexive and transitive relation between the states of a computation. -/
structure Frame (σ : Type) where
  rel : σ → σ → Prop
  refl : ∀ s, rel s s
  trans : ∀ {s t u}, rel s t → rel t u → rel s u

def Keeps {σ α : Type} (F : Frame σ) (m : Effect σ α) : Prop := ∀ s, F.rel s (Effect.final (m s))

namespace Keeps

open Effect

variable {σ α β : Type} {F : Frame σ}

theorem pure (a : α) : Keeps F (Pure.pure a : Effect σ α) := fun s => F.refl s

theorem throw (e : Text) : Keeps F (MonadExcept.throw e : Effect σ α) := fun s => F.refl s

theorem get : Keeps F (MonadState.get : Effect σ σ) := fun s => F.refl s

theorem modify {f : σ → σ} (h : ∀ s, F.rel s (f s)) : Keeps F (modifyThe σ f : Effect σ PUnit) := fun s => h s

theorem bind {m : Effect σ α} {f : α → Effect σ β} (hm : Keeps F m) (hf : ∀ a, Keeps F (f a)) :
    Keeps F (m >>= f) := by
  intro s
  have h := hm s
  cases hs : m s with
  | ok a t =>
    rw [bind_of_ok hs]
    rw [hs] at h
    exact F.trans h (hf a t)
  | error e t =>
    rw [bind_of_error hs]
    rwa [hs] at h

theorem ite {p : Prop} [Decidable p] {m n : Effect σ α} (hm : p → Keeps F m) (hn : ¬p → Keeps F n) :
    Keeps F (if p then m else n) := by
  split
  · exact hm ‹p›
  · exact hn ‹¬p›

/-- From one state: the rest of a program starts where its first step has ended. -/
theorem rel_bind {m : Effect σ α} {f : α → Effect σ β} {s : σ} (hm : F.rel s (final (m s)))
    (hf : ∀ a t, m s = .ok a t → F.rel t (final (f a t))) : F.rel s (final ((m >>= f) s)) := by
  cases hs : m s with
  | ok a t =>
    rw [hs] at hm
    rw [bind_of_ok hs]
    exact F.trans hm (hf a t hs)
  | error e t =>
    rw [hs] at hm
    rwa [bind_of_error hs]

/-- A program that looks at the state first. -/
theorem read {f : σ → Effect σ β} (h : ∀ s, F.rel s (final (f s s))) : Keeps F (MonadState.get >>= f) := by
  intro s
  apply rel_bind (F.refl s)
  intro a t hat
  cases hat
  exact h s

/-- A step that is taken under a condition, and the rest of the program after it. -/
theorem when {p : Prop} [Decidable p] {m : Effect σ Unit} {f : Unit → Effect σ β} (hm : p → Keeps F m)
    (hf : ∀ u, Keeps F (f u)) : Keeps F (if p then m >>= f else f ()) := by
  apply ite
  · intro hp
    exact bind (hm hp) hf
  · intro _
    exact hf ()

theorem rollback {restore : σ → σ → σ} {m : Effect σ α} (hm : Keeps F m)
    (hr : ∀ s t, F.rel s t → F.rel s (restore s t)) : Keeps F (Effect.rollback restore m) := by
  intro s
  have h := hm s
  rw [Effect.rollback]
  cases hs : m s with
  | ok a t =>
    rwa [hs] at h
  | error e t =>
    rw [hs] at h
    exact hr s t h

theorem andThen {m : Effect σ α} {cleanup : Effect σ Unit} (hm : Keeps F m) (hc : Keeps F cleanup) :
    Keeps F (Effect.andThen m cleanup) := by
  intro s
  have h := hm s
  rw [Effect.andThen]
  cases hs : m s with
  | ok a t =>
    rw [hs] at h
    exact F.trans h (hc t)
  | error e t =>
    rw [hs] at h
    exact F.trans h (hc t)

theorem zoom {τ : Type} {view : σ → τ} {update : σ → τ → σ} {m : Effect τ α}
    (h : ∀ s, F.rel s (update s (final (m (view s))))) : Keeps F (Effect.zoom view update m) := by
  intro s
  have hs := h s
  rw [Effect.zoom]
  cases hm : m (view s) with
  | ok a t =>
    rw [hm] at hs
    exact hs
  | error e t =>
    rw [hm] at hs
    exact hs

theorem orElse {m : Effect σ α} (hm : Keeps F m) (a : α) : Keeps F (Effect.orElse a m) := by
  intro s
  have h := hm s
  rw [Effect.orElse]
  cases hs : m s with
  | ok b t =>
    rw [hs] at h
    exact h
  | error e t =>
    rw [hs] at h
    exact h

theorem onError {m : Effect σ α} {cleanup : Effect σ Unit} (hm : Keeps F m) (hc : Keeps F cleanup) :
    Keeps F (Effect.onError m cleanup) := by
  intro s
  have h := hm s
  rw [Effect.onError]
  cases hs : m s with
  | ok a t =>
    rw [hs] at h
    exact h
  | error e t =>
    rw [hs] at h
    exact F.trans h (hc t)

theorem relabel {m : Effect σ α} (hm : Keeps F m) (error : Text) : Keeps F (Effect.relabel error m) := by
  intro s
  have h := hm s
  rw [Effect.relabel]
  cases hs : m s with
  | ok a t =>
    rw [hs] at h
    exact h
  | error e t =>
    rw [hs] at h
    exact h

theorem forM {l : List α} {f : α → Effect σ PUnit} (hf : ∀ a ∈ l, Keeps F (f a)) : Keeps F (l.forM f) := by
  induction l with
  | nil => exact pure _
  | cons a l ih =>
    change Keeps F (f a >>= fun _ => l.forM f)
    exact bind (hf a List.mem_cons_self) fun _ => ih fun b hb => hf b (List.mem_cons_of_mem a hb)

end Keeps

/-- However a computation ends, it keeps the frame; an answer it gives satisfies `Q` together
with the first and the last state. -/
def Concludes {σ α : Type} (F : Frame σ) (Q : σ → α → σ → Prop) (m : Effect σ α) : Prop :=
  ∀ s, (∃ e t, m s = .error e t ∧ F.rel s t) ∨ ∃ a t, m s = .ok a t ∧ Q s a t

namespace Concludes

open Effect

variable {σ α β : Type} {F : Frame σ} {Q : σ → β → σ → Prop}

/-- What is concluded of the rest of a program after a step that keeps the frame. -/
theorem bind {m : Effect σ α} {f : α → Effect σ β} (hm : Keeps F m) (hf : ∀ a, Concludes F Q (f a))
    (hQ : ∀ {s t u : σ} {b : β}, F.rel s t → Q t b u → Q s b u) : Concludes F Q (m >>= f) := by
  intro s
  have h := hm s
  cases hs : m s with
  | ok a t =>
    rw [hs] at h
    rw [bind_of_ok hs]
    rcases hf a t with ⟨e, u, heq, hrel⟩ | ⟨b, u, heq, hb⟩
    · exact Or.inl ⟨e, u, heq, F.trans h hrel⟩
    · exact Or.inr ⟨b, u, heq, hQ h hb⟩
  | error e t =>
    rw [hs] at h
    rw [bind_of_error hs]
    exact Or.inl ⟨e, t, rfl, h⟩

/-- Conclusions under a condition on the first state. -/
theorem of_pre {pre : σ → Prop} {rel : σ → σ → Prop} {P : σ → β → σ → Prop} {m : Effect σ β}
    (hrel : ∀ {s t}, (pre s → rel s t) → F.rel s t)
    (h : ∀ s, pre s → (∃ e t, m s = .error e t ∧ rel s t) ∨ ∃ b t, m s = .ok b t ∧ P s b t) :
    Concludes F (fun s b t => pre s → P s b t) m := by
  intro s
  cases hs : m s with
  | error e t =>
    refine Or.inl ⟨e, t, rfl, hrel fun hpre => ?_⟩
    cases h s hpre with
    | inl herror =>
      obtain ⟨e', t', heq, hrel⟩ := herror
      cases hs.symm.trans heq
      exact hrel
    | inr hok =>
      obtain ⟨b, t', heq, -⟩ := hok
      cases hs.symm.trans heq
  | ok b t =>
    refine Or.inr ⟨b, t, rfl, fun hpre => ?_⟩
    cases h s hpre with
    | inl herror =>
      obtain ⟨e, t', heq, -⟩ := herror
      cases hs.symm.trans heq
    | inr hok =>
      obtain ⟨b', t', heq, hb⟩ := hok
      cases hs.symm.trans heq
      exact hb

/-- What is concluded of two steps, each of which concludes something. -/
theorem chain {m : Effect σ α} {f : α → Effect σ β} {P : σ → α → σ → Prop} {R : σ → β → σ → Prop}
    (hm : Concludes F P m) (hP : ∀ s a t, P s a t → F.rel s t) (hf : ∀ a, Concludes F R (f a))
    (hQ : ∀ {s t u : σ} {a : α} {b : β}, P s a t → R t b u → Q s b u) : Concludes F Q (m >>= f) := by
  intro s
  cases hm s with
  | inl herror =>
    obtain ⟨e, t, heq, hrel⟩ := herror
    rw [bind_of_error heq]
    exact Or.inl ⟨e, t, rfl, hrel⟩
  | inr hok =>
    obtain ⟨a, t, heq, ha⟩ := hok
    rw [bind_of_ok heq]
    cases hf a t with
    | inl herror =>
      obtain ⟨e, u, hu, hrel⟩ := herror
      exact Or.inl ⟨e, u, hu, F.trans (hP s a t ha) hrel⟩
    | inr hok =>
      obtain ⟨b, u, hu, hb⟩ := hok
      exact Or.inr ⟨b, u, hu, hQ ha hb⟩

/-- What a program that looks at the state first concludes from each state. -/
theorem read {f : σ → Effect σ β}
    (h : ∀ s, (∃ e t, f s s = .error e t ∧ F.rel s t) ∨ ∃ b t, f s s = .ok b t ∧ Q s b t) :
    Concludes F Q (MonadState.get >>= f) := h

theorem pure {b : β} (h : ∀ s, Q s b s) : Concludes F Q (Pure.pure b : Effect σ β) := fun s =>
  Or.inr ⟨b, s, rfl, h s⟩

theorem keeps {m : Effect σ β} (h : Concludes F Q m) (hQ : ∀ s b t, Q s b t → F.rel s t) : Keeps F m := by
  intro s
  rcases h s with ⟨e, t, heq, hrel⟩ | ⟨b, t, heq, hb⟩
  · rw [heq]
    exact hrel
  · rw [heq]
    exact hQ s b t hb

theorem throw (e : Text) : Concludes F Q (MonadExcept.throw e : Effect σ β) := fun s =>
  Or.inl ⟨e, s, rfl, F.refl s⟩

theorem ite {p : Prop} [Decidable p] {m n : Effect σ β} (hm : p → Concludes F Q m) (hn : ¬p → Concludes F Q n) :
    Concludes F Q (if p then m else n) := by
  split
  · exact hm ‹p›
  · exact hn ‹¬p›

theorem when {p : Prop} [Decidable p] {m : Effect σ Unit} {f : Unit → Effect σ β} (hm : p → Keeps F m)
    (hf : ∀ u, Concludes F Q (f u)) (hQ : ∀ {s t u : σ} {b : β}, F.rel s t → Q t b u → Q s b u) :
    Concludes F Q (if p then m >>= f else f ()) := by
  apply ite
  · intro hp
    exact bind (hm hp) hf hQ
  · intro _
    exact hf ()

end Concludes

end SocietyHelper.Library
