/-
  Loops in which every round changes only what belongs to its key.

  A state shows a part for every key.  If a round for a key changes the part of this key
  alone, then a loop over different keys changes the part of each of them once, in
  whatever order it goes through them.
-/
import Mathlib.Tactic

namespace LocalFold

variable {σ κ ν : Type*}

/-- The round for a key changes its part by `g`; `P` is what all rounds rely on. -/
def Local [DecidableEq κ] (P : σ → Prop) (part : σ → κ → ν) (f : σ → κ → Option σ)
    (g : κ → ν → Option ν) : Prop :=
  ∀ s k, P s → (f s k = none ∧ g k (part s k) = none) ∨
    ∃ s' x, f s k = some s' ∧ g k (part s k) = some x ∧ P s' ∧
      ∀ k', part s' k' = if k' = k then x else part s k'

variable [DecidableEq κ] {P : σ → Prop} {part : σ → κ → ν} {f : σ → κ → Option σ}
  {g : κ → ν → Option ν}

/-- The loop fails exactly if a part cannot be changed. -/
theorem foldlM_local (h : Local P part f g) {l : List κ} (hl : l.Nodup) {s : σ} (hs : P s) :
    (l.foldlM f s = none ∧ ∃ k ∈ l, g k (part s k) = none) ∨
      ∃ s', l.foldlM f s = some s' ∧ P s' ∧ (∀ k ∈ l, g k (part s k) = some (part s' k)) ∧
        ∀ k ∉ l, part s' k = part s k := by
  induction l generalizing s with
  | nil => exact .inr ⟨s, rfl, hs, by simp, fun _ _ => rfl⟩
  | cons a l ih =>
    obtain ⟨ha, hl⟩ := List.nodup_cons.1 hl
    rw [List.foldlM_cons]
    rcases h s a hs with ⟨hf, hg⟩ | ⟨s₁, x, hf, hg, hs₁, hpart⟩
    · rw [hf]
      exact .inl ⟨rfl, a, .head _, hg⟩
    · have hother : ∀ k ∈ l, part s₁ k = part s k := fun k hk => by
        have hne : k ≠ a := fun he => ha (he ▸ hk)
        rw [hpart, if_neg hne]
      rw [hf]
      rcases ih hl hs₁ with ⟨hnone, k, hk, hgk⟩ | ⟨s', hsome, hs', hin, hout⟩
      · exact .inl ⟨hnone, k, .tail _ hk, hother k hk ▸ hgk⟩
      · refine .inr ⟨s', hsome, hs', fun k hk => ?_, fun k hk => ?_⟩
        · rcases List.mem_cons.1 hk with rfl | hk
          · rw [hg, hout k ha, hpart, if_pos rfl]
          · rw [← hother k hk]
            exact hin k hk
        · rw [List.mem_cons, not_or] at hk
          rw [hout k hk.2, hpart, if_neg hk.1]

/-- The same for a loop that does not fail. -/
theorem foldl_local (part : σ → κ → ν) {f : σ → κ → σ} {g : κ → ν → ν} (hP : ∀ s k, P s → P (f s k))
    (h : ∀ s k k', P s → part (f s k) k' = if k' = k then g k (part s k) else part s k')
    {l : List κ} (hl : l.Nodup) {s : σ} (hs : P s) :
    P (l.foldl f s) ∧
      ∀ k, part (l.foldl f s) k = if k ∈ l then g k (part s k) else part s k := by
  induction l generalizing s with
  | nil => exact ⟨hs, fun k => by simp⟩
  | cons a l ih =>
    obtain ⟨ha, hl⟩ := List.nodup_cons.1 hl
    obtain ⟨hP', hpart⟩ := ih hl (hP s a hs)
    refine ⟨hP', fun k => ?_⟩
    rw [List.foldl_cons, hpart, h s a k hs]
    by_cases hk : k = a
    · subst hk
      simp [ha]
    · simp [hk]

end LocalFold
