import Mathlib.Data.List.Basic
import Mathlib.Data.List.Forall2

namespace EbbrtContrib.Fallible

variable {ε α β : Type} {f : α → Except ε β}

@[simp] theorem ok_bind (a : α) (f : α → Except ε β) : (Except.ok a >>= f) = f a := rfl

@[simp] theorem error_bind (e : ε) (f : α → Except ε β) : (Except.error e >>= f) = .error e := rfl

@[simp] theorem pure_ok (a : α) : (pure a : Except ε α) = .ok a := rfl

theorem bind_eq_ok {x : Except ε α} {b : β} : (x >>= f) = .ok b ↔ ∃ a, x = .ok a ∧ f a = .ok b := by
  cases x <;> simp

/-- A loop whose every step succeeds succeeds, with a result for each element in order. -/
theorem mapM_ok {P : α → β → Prop} (xs : List α) (h : ∀ x ∈ xs, ∃ y, f x = .ok y ∧ P x y) :
    ∃ ys, xs.mapM f = .ok ys ∧ List.Forall₂ P xs ys := by
  induction xs with
  | nil => exact ⟨[], rfl, .nil⟩
  | cons x xs ih =>
    obtain ⟨y, hy, hp⟩ := h x (by simp)
    obtain ⟨ys, hys, hps⟩ := ih fun x hx => h x (by simp [hx])
    exact ⟨y :: ys, by simp [List.mapM_cons, hy, hys], .cons hp hps⟩

/-- A loop that reaches a failing step does not succeed. -/
theorem mapM_ne_ok {xs : List α} {x : α} (hx : x ∈ xs) {e : ε} (he : f x = .error e)
    (ys : List β) : xs.mapM f ≠ .ok ys := by
  induction xs generalizing ys with
  | nil => simp at hx
  | cons a xs ih =>
    rw [List.mapM_cons]
    rcases List.mem_cons.mp hx with rfl | hm
    · simp [he]
    · cases hfa : f a with
      | error e' => simp
      | ok b =>
        cases hrest : xs.mapM f with
        | error e' => simp
        | ok bs => exact absurd hrest (ih hm bs)

end EbbrtContrib.Fallible
