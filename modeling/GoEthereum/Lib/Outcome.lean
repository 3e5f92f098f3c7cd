/-
  Computations that can fail.

  `Meets x Q E` says that `x` returns a result with `Q` or fails with an error in `E`.
-/
import Mathlib.Data.Nat.Notation
import Mathlib.Tactic.SplitIfs

namespace Outcome

variable {ε α β : Type} {x y : Except ε α} {f g : α → Except ε β}

-- in parentheses: the kernel is not to unfold `f a` when `simp` uses the equation
theorem ok_bind (a : α) (f : α → Except ε β) : (Except.ok a >>= f) = f a := (rfl)

/-- A computation that returns has returned in its first part. -/
theorem bind_eq_ok {b : β} (h : (x >>= f) = .ok b) : ∃ a, x = .ok a ∧ f a = .ok b := by
  cases x with
  | error e => cases h
  | ok a => exact ⟨a, rfl, h⟩

/-! ## Postconditions -/

/-- The result has `Q`, the error has `E`. -/
def Meets (x : Except ε α) (Q : α → Prop) (E : ε → Prop) : Prop :=
  match x with
  | .ok a => Q a
  | .error e => E e

namespace Meets

variable {P Q : α → Prop} {R : β → Prop} {E E' : ε → Prop}

theorem mono (h : Meets x P E) (hQ : ∀ a, P a → Q a) (hE : ∀ e, E e → E' e) : Meets x Q E' := by
  cases x with
  | ok a => exact hQ a h
  | error e => exact hE e h

theorem bind (h : Meets x P E) (hf : ∀ a, P a → Meets (f a) R E) : Meets (x >>= f) R E := by
  cases x with
  | ok a => exact hf a h
  | error e => exact h

theorem returns (h : Meets x Q E) : Meets x (fun a => Q a ∧ x = .ok a) E := by
  cases x with
  | ok a => exact ⟨h, rfl⟩
  | error e => exact h

theorem ite {c : Prop} [Decidable c] (h : c → Meets x Q E) (h' : ¬c → Meets y Q E) :
    Meets (if c then x else y) Q E := by
  split_ifs with hc
  · exact h hc
  · exact h' hc

theorem result {a : α} (h : Meets x Q E) (hx : x = .ok a) : Q a := by
  rw [hx] at h
  exact h

theorem exists_ok (h : Meets x Q fun _ => False) : ∃ a, x = .ok a ∧ Q a := by
  cases x with
  | ok a => exact ⟨a, rfl, h⟩
  | error e => exact h.elim

end Meets

end Outcome
