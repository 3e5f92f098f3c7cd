/-
  The types of package common, and what several packages take from the standard library.
-/
import GoEthereum.Rlp.Encode

namespace GoEthereum

abbrev Address := BitVec 160

/-- `common.Hash`, and the words of the virtual machine. -/
abbrev Word := BitVec 256

/-- One constant, wherever membership in a list of words is decided. -/
instance lawfulBEq_word : LawfulBEq Word := inferInstance

/-- `sort.Search`, with what it finds for a condition that stays true. -/
structure SearchFn where
  search : ℕ → (ℕ → Bool) → ℕ
  spec {n : ℕ} {p : ℕ → Bool} : (∀ i j, i ≤ j → j < n → p i = true → p j = true) →
    ∀ i < n, p i = decide (search n p ≤ i)

end GoEthereum
