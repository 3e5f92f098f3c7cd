/-
  Loops that a callback may end.

  The callback returns its new state, and whether it wants more.  `visit` calls it for the
  elements of a list in their order.
-/
import Mathlib.Data.List.Basic

section
variable {σ α β : Type}

/-- Goes on unless the callback has had enough. -/
def andThen (r : σ × Bool) (g : σ → σ × Bool) : σ × Bool := if r.2 then g r.1 else r

def visit (f : σ → α → σ × Bool) : List α → σ → σ × Bool
  | [], s => (s, true)
  | x :: xs, s => andThen (f s x) (visit f xs)

variable {f g : σ → α → σ × Bool}

@[simp]
theorem andThen_true (s : σ) (g : σ → σ × Bool) : andThen (s, true) g = g s := rfl

@[simp]
theorem andThen_mk (r : σ × Bool) : andThen r (fun s => (s, true)) = r := by
  obtain ⟨s, _ | _⟩ := r <;> rfl

theorem andThen_assoc (r : σ × Bool) (g h : σ → σ × Bool) :
    andThen (andThen r g) h = andThen r fun s => andThen (g s) h := by
  obtain ⟨s, _ | _⟩ := r <;> rfl

theorem visit_append (xs ys : List α) (s : σ) :
    visit f (xs ++ ys) s = andThen (visit f xs s) (visit f ys) := by
  induction xs generalizing s with
  | nil => rfl
  | cons x xs ih =>
    rw [List.cons_append, visit, visit, andThen_assoc]
    exact congrArg _ (funext ih)

theorem visit_singleton (x : α) (s : σ) : visit f [x] s = f s x := andThen_mk _

theorem visit_congr {xs : List α} (h : ∀ x ∈ xs, ∀ s, f s x = g s x) (s : σ) :
    visit f xs s = visit g xs s := by
  induction xs generalizing s with
  | nil => rfl
  | cons x xs ih =>
    rw [visit, visit, h x (.head _)]
    exact congrArg _ (funext fun s => ih (fun y hy => h y (.tail _ hy)) s)

theorem visit_flatMap {ns : List β} {l : β → List α} {each : σ → β → σ × Bool}
    (h : ∀ n ∈ ns, ∀ s, each s n = visit f (l n) s) (s : σ) :
    visit each ns s = visit f (ns.flatMap l) s := by
  induction ns generalizing s with
  | nil => rfl
  | cons n ns ih =>
    rw [visit, List.flatMap_cons, visit_append, h n (.head _)]
    exact congrArg _ (funext fun s => ih (fun m hm => h m (.tail _ hm)) s)

/-- Elements that the loop passes over need not be there. -/
theorem visit_filter (p : α → Bool) (xs : List α) (s : σ) :
    visit (fun s x => if p x then f s x else (s, true)) xs s = visit f (xs.filter p) s := by
  induction xs generalizing s with
  | nil => rfl
  | cons x xs ih =>
    rw [visit, List.filter_cons]
    by_cases hx : p x = true
    · rw [if_pos hx, if_pos hx, visit]
      exact congrArg _ (funext ih)
    · rw [if_neg hx, if_neg hx, andThen_true, ih]

theorem visit_map {h : β → α} (xs : List β) (s : σ) :
    visit f (xs.map h) s = visit (fun s x => f s (h x)) xs s := by
  induction xs generalizing s with
  | nil => rfl
  | cons x xs ih =>
    rw [List.map_cons, visit, visit]
    exact congrArg _ (funext ih)

end
