/-
  Sets of numbers as lists of ranges.

  A range is a pair of its first and its last number.  In an ordered list there is a number
  between any two ranges that is in neither, so that the list is determined by the set.
  `insertRange` adds a range and joins what it touches.
-/
import Mathlib.Tactic

namespace Ranges

/-- The ranges have elements, and each one begins behind the next number after the one before. -/
structure Ordered (l : List (ℕ × ℕ)) : Prop where
  apart : l.Pairwise fun r s => r.2 + 1 < s.1
  nonempty : ∀ r ∈ l, r.1 ≤ r.2

/-- The number is in one of the ranges. -/
def Mem (n : ℕ) (l : List (ℕ × ℕ)) : Prop := ∃ r ∈ l, r.1 ≤ n ∧ n ≤ r.2

variable {a b n : ℕ} {r : ℕ × ℕ} {l : List (ℕ × ℕ)}

@[simp]
theorem mem_nil : Mem n [] ↔ False := by simp [Mem]

@[simp]
theorem mem_cons : Mem n (r :: l) ↔ (r.1 ≤ n ∧ n ≤ r.2) ∨ Mem n l := by simp [Mem]

theorem ordered_nil : Ordered [] := ⟨.nil, by simp⟩

theorem ordered_cons : Ordered (r :: l) ↔ r.1 ≤ r.2 ∧ (∀ s ∈ l, r.2 + 1 < s.1) ∧ Ordered l := by
  constructor
  · rintro ⟨hapart, hne⟩
    obtain ⟨hr, hl⟩ := List.pairwise_cons.1 hapart
    exact ⟨hne r (by simp), hr, hl, fun s hs => hne s (by simp [hs])⟩
  · rintro ⟨hr, hbehind, hl⟩
    refine ⟨List.pairwise_cons.2 ⟨hbehind, hl.apart⟩, ?_⟩
    rintro s (_ | ⟨_, hs⟩)
    · exact hr
    · exact hl.nonempty s hs

/-- The list with a range more. -/
def insertRange (a b : ℕ) : List (ℕ × ℕ) → List (ℕ × ℕ)
  | [] => [(a, b)]
  | r :: l =>
    if r.2 + 1 < a then r :: insertRange a b l
    else if b + 1 < r.1 then (a, b) :: r :: l
    else insertRange (min a r.1) (max b r.2) l

theorem mem_insertRange (hab : a ≤ b) (hl : Ordered l) :
    Mem n (insertRange a b l) ↔ (a ≤ n ∧ n ≤ b) ∨ Mem n l := by
  induction l generalizing a b with
  | nil => simp [insertRange]
  | cons r l ih =>
    obtain ⟨hr, -, hl⟩ := ordered_cons.1 hl
    rw [insertRange]
    split_ifs with hbefore hbehind
    · rw [mem_cons, ih hab hl, mem_cons]
      tauto
    · rw [mem_cons]
    · -- the ranges touch, so their union is a range
      rw [ih (by omega) hl, mem_cons]
      have : (min a r.1 ≤ n ∧ n ≤ max b r.2) ↔ (a ≤ n ∧ n ≤ b) ∨ (r.1 ≤ n ∧ n ≤ r.2) := by omega
      rw [this, or_assoc]

/-- What holds of the ranges and of what joins two of them holds of the new ranges. -/
theorem forall_mem_insertRange {P : ℕ × ℕ → Prop}
    (hjoin : ∀ r s, P r → P s → P (min r.1 s.1, max r.2 s.2)) (hab : P (a, b))
    (hl : ∀ r ∈ l, P r) : ∀ r ∈ insertRange a b l, P r := by
  induction l generalizing a b with
  | nil => simpa [insertRange] using hab
  | cons r l ih =>
    obtain ⟨hr, hrest⟩ := List.forall_mem_cons.1 hl
    rw [insertRange]
    split_ifs
    · exact List.forall_mem_cons.2 ⟨hr, ih hab hrest⟩
    · exact List.forall_mem_cons.2 ⟨hab, hl⟩
    · exact ih (hjoin _ _ hab hr) hrest

theorem ordered_insertRange (hab : a ≤ b) (hl : Ordered l) : Ordered (insertRange a b l) := by
  induction l generalizing a b with
  | nil => exact ordered_cons.2 ⟨hab, by simp, ordered_nil⟩
  | cons r l ih =>
    obtain ⟨hr, hbehind, hrest⟩ := ordered_cons.1 hl
    rw [insertRange]
    split_ifs with hbefore hafter
    · refine ordered_cons.2 ⟨hr, forall_mem_insertRange ?_ hbefore hbehind, ih hab hrest⟩
      intro s t hs ht
      exact lt_min hs ht
    · refine ordered_cons.2 ⟨hab, List.forall_mem_cons.2 ⟨hafter, fun s hs => ?_⟩, hl⟩
      have := hbehind s hs
      omega
    · exact ih (by omega) hrest

end Ranges
