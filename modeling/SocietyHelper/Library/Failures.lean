import SocietyHelper.Library.Effect

/-! # What a computation fails with

A computation fails within a set of errors when every error that it ends with is
one of them. Programs do as soon as their steps do, and a relabelled computation
fails with its label alone.
-/

namespace SocietyHelper.Library

def FailsWith {σ α : Type} (P : Text → Prop) (m : Effect σ α) : Prop := ∀ s t e, m s = .error e t → P e

namespace FailsWith

open Effect

variable {σ α β : Type} {P : Text → Prop}

theorem pure (a : α) : FailsWith P (Pure.pure a : Effect σ α) := by
  intro s t e h
  cases h

theorem throw {e : Text} (he : P e) : FailsWith P (MonadExcept.throw e : Effect σ α) := by
  intro s t e' h
  cases h
  exact he

theorem get : FailsWith P (MonadState.get : Effect σ σ) := by
  intro s t e h
  cases h

theorem modify (f : σ → σ) : FailsWith P (modifyThe σ f : Effect σ PUnit) := by
  intro s t e h
  cases h

theorem bind {m : Effect σ α} {f : α → Effect σ β} (hm : FailsWith P m) (hf : ∀ a, FailsWith P (f a)) :
    FailsWith P (m >>= f) := by
  intro s t e h
  cases hfirst : m s with
  | ok a u =>
    rw [bind_of_ok hfirst] at h
    exact hf a _ _ _ h
  | error e' u =>
    rw [bind_of_error hfirst] at h
    cases h
    exact hm _ _ _ hfirst

theorem relabel {e : Text} (he : P e) (m : Effect σ α) : FailsWith P (Effect.relabel e m) := by
  intro s t e' h
  cases hm : m s with
  | ok a u =>
    rw [relabel_of_ok hm] at h
    cases h
  | error e'' u =>
    rw [relabel_of_error hm] at h
    cases h
    exact he

theorem zoom {τ : Type} {m : Effect τ α} (hm : FailsWith P m) (view : σ → τ) (update : σ → τ → σ) :
    FailsWith P (Effect.zoom view update m) := by
  intro s t e h
  cases hview : m (view s) with
  | ok a u =>
    rw [zoom_of_ok hview] at h
    cases h
  | error e' u =>
    rw [zoom_of_error hview] at h
    cases h
    exact hm _ _ _ hview

end FailsWith

end SocietyHelper.Library
