/-
  Big-endian numerals over bytes.

  `ofBE` reads a byte string as a number, `toBE k` writes a number with `k`
  bytes, and `byteLen` is the least number of bytes (at least one) that hold a
  number.  `toBE_ofBE` and `ofBE_toBE` are the two round trips; the shortest
  numeral of a number has no leading zero byte (`toBE_byteLen_head`).
-/
import Mathlib.Data.Nat.Log
import Mathlib.Tactic

namespace BigEndian

/-- The number written by `bs`, most significant byte first. -/
def ofBE : List UInt8 → ℕ
  | [] => 0
  | b :: bs => b.toNat * 256 ^ bs.length + ofBE bs

/-- The low `k` bytes of `n`, most significant byte first. -/
def toBE : ℕ → ℕ → List UInt8
  | 0, _ => []
  | k + 1, n => UInt8.ofNat (n / 256 ^ k) :: toBE k n

/-- The least number of bytes, at least one, that hold `n`. -/
def byteLen (n : ℕ) : ℕ := Nat.log 256 n + 1

@[simp] theorem length_toBE (k n : ℕ) : (toBE k n).length = k := by
  induction k with
  | zero => rfl
  | succ k ih => simp [toBE, ih]

theorem ofBE_lt : ∀ bs : List UInt8, ofBE bs < 256 ^ bs.length
  | [] => by simp [ofBE]
  | b :: bs => by
    have ih := ofBE_lt bs
    have hb := b.toNat_lt
    simp only [ofBE, List.length_cons, pow_succ]
    nlinarith [Nat.zero_le (ofBE bs)]

theorem ofBE_toBE (k n : ℕ) : ofBE (toBE k n) = n % 256 ^ k := by
  induction k with
  | zero => simp [toBE, ofBE, Nat.mod_one]
  | succ k ih =>
    simp only [toBE, ofBE, length_toBE, ih, UInt8.toNat_ofNat']
    rw [pow_succ 256 k, Nat.mod_mul, show 2 ^ 8 = 256 by norm_num]
    ring

theorem ofBE_toBE_of_lt {k n : ℕ} (h : n < 256 ^ k) : ofBE (toBE k n) = n := by
  rw [ofBE_toBE, Nat.mod_eq_of_lt h]

theorem toBE_add_mul (k a n : ℕ) : toBE k (a * 256 ^ k + n) = toBE k n := by
  induction k generalizing a with
  | zero => rfl
  | succ k ih =>
    have hdiv : (a * 256 ^ (k + 1) + n) / 256 ^ k = a * 256 + n / 256 ^ k := by
      rw [pow_succ, show a * (256 ^ k * 256) + n = n + 256 ^ k * (a * 256) by ring,
        Nat.add_mul_div_left _ _ (by positivity)]
      omega
    have hbyte : UInt8.ofNat (a * 256 + n / 256 ^ k) = UInt8.ofNat (n / 256 ^ k) := by
      apply UInt8.toNat_inj.mp
      simp only [UInt8.toNat_ofNat']
      omega
    rw [toBE, toBE, hdiv, hbyte, show a * 256 ^ (k + 1) + n = (a * 256) * 256 ^ k + n by ring, ih]

theorem toBE_ofBE : ∀ bs : List UInt8, toBE bs.length (ofBE bs) = bs
  | [] => rfl
  | b :: bs => by
    have hlt := ofBE_lt bs
    have hdiv : (b.toNat * 256 ^ bs.length + ofBE bs) / 256 ^ bs.length = b.toNat := by
      rw [Nat.mul_comm, Nat.mul_add_div (by positivity), Nat.div_eq_of_lt hlt, Nat.add_zero]
    simp only [List.length_cons, toBE, ofBE, hdiv, toBE_add_mul, toBE_ofBE bs, UInt8.ofNat_toNat]

/-- A short number is written with zero bytes before it. -/
theorem toBE_add_of_lt {k n : ℕ} (m : ℕ) (h : n < 256 ^ k) :
    toBE (m + k) n = List.replicate m 0 ++ toBE k n := by
  induction m with
  | zero => rw [Nat.zero_add, List.replicate_zero, List.nil_append]
  | succ m ih =>
    have hlt : n < 256 ^ (m + k) := h.trans_le (Nat.pow_le_pow_right (by norm_num) (by omega))
    rw [Nat.succ_add, toBE, ih, Nat.div_eq_of_lt hlt, List.replicate_succ, List.cons_append]
    rfl

theorem lt_pow_byteLen (n : ℕ) : n < 256 ^ byteLen n := Nat.lt_pow_succ_log_self (by norm_num) n

theorem byteLen_pos (n : ℕ) : 0 < byteLen n := Nat.succ_pos _

theorem byteLen_le {k n : ℕ} (hk : 0 < k) (h : n < 256 ^ k) : byteLen n ≤ k := by
  rcases Nat.eq_zero_or_pos n with rfl | hn
  · rw [byteLen, Nat.log_zero_right]; omega
  · exact Nat.log_lt_of_lt_pow hn.ne' h

theorem ofBE_toBE_byteLen (n : ℕ) : ofBE (toBE (byteLen n) n) = n :=
  ofBE_toBE_of_lt (lt_pow_byteLen n)

/-- The shortest numeral of a positive number does not start with a zero byte. -/
theorem toBE_byteLen_head {n : ℕ} (hn : 0 < n) :
    ∃ b bs, toBE (byteLen n) n = b :: bs ∧ b ≠ 0 ∧ bs.length = Nat.log 256 n := by
  refine ⟨_, _, rfl, ?_, length_toBE _ _⟩
  have hle := Nat.pow_log_le_self 256 hn.ne'
  have hlt := Nat.lt_pow_succ_log_self (by norm_num : 1 < 256) n
  intro h0
  have h1 := congrArg UInt8.toNat h0
  rw [UInt8.toNat_ofNat'] at h1
  have hd : n / 256 ^ Nat.log 256 n < 256 := by
    rw [Nat.div_lt_iff_lt_mul (by positivity), Nat.mul_comm]
    exact hlt
  have hp : 0 < n / 256 ^ Nat.log 256 n := Nat.div_pos hle (by positivity)
  simp at h1
  omega

end BigEndian
