/-
  Proximity of bit strings: the position of the first bit in which they differ.

  It is an ultrametric (`prox_of_lt`), and, as a bit has two values, two strings that leave a third
  at the same position are closer to each other than to it (`lt_prox`).
-/
import Mathlib.Data.List.Range

namespace GoEthereum

/-- The first of `n` positions in which the bits differ, `n` if there is none. -/
def prox (n : ℕ) (f g : ℕ → Bool) : ℕ := ((List.range n).find? fun i => f i != g i).getD n

variable {n p : ℕ} {f g h : ℕ → Bool}

theorem prox_cases (n : ℕ) (f g : ℕ → Bool) :
    (∀ i < prox n f g, f i = g i) ∧
      (prox n f g = n ∨ prox n f g < n ∧ f (prox n f g) ≠ g (prox n f g)) := by
  rw [prox]
  cases hfind : (List.range n).find? fun i => f i != g i with
  | none =>
    rw [List.find?_range_eq_none] at hfind
    exact ⟨fun i hi => by simpa using hfind i hi, .inl rfl⟩
  | some i =>
    obtain ⟨hdiff, hmem, hbefore⟩ := List.find?_range_eq_some.mp hfind
    refine ⟨fun j hj => by simpa using hbefore j hj, .inr ⟨List.mem_range.mp hmem, ?_⟩⟩
    simpa using hdiff

theorem prox_le (n : ℕ) (f g : ℕ → Bool) : prox n f g ≤ n := by
  rcases (prox_cases n f g).2 with h | h
  · exact h.le
  · exact h.1.le

theorem prox_eq_of_ne (hp : p < n) (hlow : ∀ i < p, f i = g i) (hne : f p ≠ g p) :
    prox n f g = p := by
  obtain ⟨hagree, hdiff⟩ := prox_cases n f g
  rcases Nat.lt_trichotomy (prox n f g) p with hlt | heq | hgt
  · rcases hdiff with hn | ⟨-, hd⟩
    · omega
    · exact absurd (hlow _ hlt) hd
  · exact heq
  · exact absurd (hagree p hgt) hne

theorem prox_eq_max_iff : prox n f g = n ↔ ∀ i < n, f i = g i := by
  obtain ⟨hagree, hdiff⟩ := prox_cases n f g
  constructor
  · intro heq i hi
    exact hagree i (by omega)
  · intro hall
    rcases hdiff with heq | ⟨hlt, hd⟩
    · exact heq
    · exact absurd (hall _ hlt) hd

theorem prox_lt_spec (hp : prox n f g < n) : f (prox n f g) ≠ g (prox n f g) := by
  rcases (prox_cases n f g).2 with h | h
  · omega
  · exact h.2

theorem prox_comm : prox n f g = prox n g f := by
  simp only [prox, bne_comm]

/-- A string that leaves `f` before `g` does leaves `g` at the same position. -/
theorem prox_of_lt (hlt : prox n f h < prox n f g) : prox n g h = prox n f h := by
  have hn := prox_le n f g
  have hfg := (prox_cases n f g).1
  refine prox_eq_of_ne (by omega) (fun i hi => ?_) ?_
  · rw [← hfg i (hi.trans hlt)]
    exact (prox_cases n f h).1 i hi
  · rw [← hfg _ hlt]
    exact prox_lt_spec (by omega)

/-- Two strings that leave a third at one position go on together. -/
theorem lt_prox (hp : p < n) (hf : prox n h f = p) (hg : prox n h g = p) : p < prox n f g := by
  have hf' := prox_lt_spec (n := n) (f := h) (g := f) (by omega)
  have hg' := prox_lt_spec (n := n) (f := h) (g := g) (by omega)
  rw [hf] at hf'
  rw [hg] at hg'
  have hbit : f p = g p := by
    revert hf' hg'
    cases f p <;> cases g p <;> cases h p <;> simp
  by_contra hle
  rcases (prox_cases n f g).2 with hmax | ⟨hlt, hd⟩
  · omega
  · rcases Nat.lt_or_ge (prox n f g) p with hlow | hge
    · refine hd ?_
      rw [← (prox_cases n h f).1 _ (by omega), ← (prox_cases n h g).1 _ (by omega)]
    · exact hd (by rwa [show prox n f g = p by omega])

end GoEthereum
