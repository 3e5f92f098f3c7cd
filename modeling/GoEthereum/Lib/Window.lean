/-
  Sliding windows over a history.

  A map keeps the last entries of a history, and each step drops one entry.  The length of
  the window may change by one in a step (`Exact.grow`, `Exact.shrink`); what the map tells the
  next step stays exact (`Window.advance`).
-/
import GoEthereum.Lib.AssocMap

open AssocMap

/-- The map has entries of the window only, and all of those that the next step looks at. -/
structure Window {α : Type*} (hist : ℕ → Option α) (n len : ℕ) (m : AssocMap ℕ α) : Prop where
  sound : ∀ {k a}, m.get k = some a → hist k = some a ∧ k ≤ n ∧ n < k + len
  complete : ∀ {k a}, hist k = some a → k ≤ n → n + 1 < k + len → m.get k = some a

/-- The map has exactly the entries of the window. -/
def Window.Exact {α : Type*} (hist : ℕ → Option α) (n len : ℕ) (m : AssocMap ℕ α) : Prop :=
  ∀ {k a}, m.get k = some a ↔ hist k = some a ∧ k ≤ n ∧ n < k + len

/-- The entry that leaves a window of the length is dropped. -/
def Window.forget {α : Type*} (n len : ℕ) (m : AssocMap ℕ α) : AssocMap ℕ α :=
  if n ≥ len then m.erase (n - len) else m

namespace Window

variable {α : Type*} {hist hist' : ℕ → Option α} {n len len' k : ℕ} {m : AssocMap ℕ α} {a b : α}

theorem empty (hist : ℕ → Option α) (len : ℕ) (h : hist 0 = none) :
    Window hist 0 len (.empty : AssocMap ℕ α) := by
  refine ⟨fun hget => ?_, fun hhist hk _ => ?_⟩
  · rw [get_empty] at hget
    cases hget
  · rw [Nat.le_zero.1 hk, h] at hhist
    cases hhist

theorem get_forget : (forget n len m).get k = some a ↔ m.get k = some a ∧ k + len ≠ n := by
  rw [forget]
  split_ifs with hle
  · rw [get_erase]
    split_ifs with hk
    · constructor
      · intro h
        cases h
      · rintro ⟨_, hne⟩
        exact absurd hk (by omega)
    · exact ⟨fun h => ⟨h, by omega⟩, And.left⟩
  · exact ⟨fun h => ⟨h, by omega⟩, And.left⟩

/-- What the next step sees. -/
theorem advance (h : Window hist n len m) : (forget (n + 1) len m).get k = some a ↔
    hist k = some a ∧ k ≤ n ∧ n + 1 < k + len := by
  rw [get_forget]
  constructor
  · rintro ⟨hget, hne⟩
    obtain ⟨hhist, hle, hlt⟩ := h.sound hget
    exact ⟨hhist, hle, by omega⟩
  · rintro ⟨hhist, hle, hlt⟩
    exact ⟨h.complete hhist hle hlt, by omega⟩

/-- The next step adds its entry. -/
theorem next (h : Window hist n len m) (hlen : 0 < len) (hold : ∀ k ≤ n, hist' k = hist k)
    (hnew : hist' (n + 1) = some b) :
    Exact hist' (n + 1) len ((forget (n + 1) len m).set (n + 1) b) := by
  intro k a
  rw [get_set]
  split_ifs with hk
  · rw [hk, hnew]
    exact ⟨fun hget => ⟨hget, le_rfl, by omega⟩, And.left⟩
  · rw [h.advance]
    constructor
    · rintro ⟨hhist, hle, hlt⟩
      rw [hold k hle]
      exact ⟨hhist, by omega, hlt⟩
    · rintro ⟨hhist, hle, hlt⟩
      have hle : k ≤ n := by omega
      rw [hold k hle] at hhist
      exact ⟨hhist, hle, hlt⟩

/-- The window may be longer by one. -/
theorem Exact.grow (h : Exact hist n len m) (hle : len ≤ len') (hle' : len' ≤ len + 1) :
    Window hist n len' m := by
  refine ⟨fun hget => ?_, fun hhist hk hlt => h.2 ⟨hhist, hk, by omega⟩⟩
  obtain ⟨hhist, hk, hlt⟩ := h.1 hget
  exact ⟨hhist, hk, by omega⟩

/-- The window may be shorter by one, if one more entry is dropped. -/
theorem Exact.shrink (h : Exact hist n len m) (hle : len' ≤ len) (hle' : len ≤ len' + 1) :
    Window hist n len' (forget n len' m) := by
  refine ⟨fun hget => ?_, fun hhist hk hlt => get_forget.2 ⟨h.2 ⟨hhist, hk, by omega⟩, by omega⟩⟩
  obtain ⟨hget, hne⟩ := get_forget.1 hget
  obtain ⟨hhist, hk, hlt⟩ := h.1 hget
  exact ⟨hhist, hk, by omega⟩

end Window
