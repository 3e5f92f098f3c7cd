/-
  What the functions of the machine return: sums without overflow and jump destinations.
-/
import GoEthereum.Vm.Instructions
import GoEthereum.Lib.Outcome

namespace GoEthereum.Vm

open GoEthereum.Rlp BigEndian Outcome

/-! ## Machine integers -/

theorem uint64_toNat {x : ℕ} (h : x < 2 ^ 64) : (uint64 x).toNat = x :=
  UInt64.toNat_ofNat_of_lt' h

theorem uint64_le (x : ℕ) : (uint64 x).toNat ≤ x := by
  rw [uint64, UInt64.toNat_ofNat']
  exact Nat.mod_le _ _

theorem int64_of_lt {x : ℕ} (h : x < 2 ^ 63) : int64 x = x := by
  have hpow : ((2 ^ 64 : ℕ) : ℤ) = 18446744073709551616 := by norm_num
  have hx : x < 9223372036854775808 := h
  apply Int.bmod_eq_of_le
  · rw [hpow]
    omega
  · rw [hpow]
    omega

theorem maxUint64_sub (x : UInt64) : (maxUint64 - x).toNat = 2 ^ 64 - 1 - x.toNat := by
  have hx := x.toNat_lt
  rw [UInt64.toNat_sub_of_le _ _ (UInt64.le_iff_toNat_le.2 (by change _ ≤ 2 ^ 64 - 1; omega))]
  rfl

theorem safeAdd_eq_some {x y z : UInt64} (h : safeAdd x y = some z) :
    z.toNat = x.toNat + y.toNat := by
  rw [safeAdd] at h
  split_ifs at h with hlt
  cases h
  have hle : y.toNat ≤ 2 ^ 64 - 1 - x.toNat := by
    rw [← maxUint64_sub]
    exact UInt64.le_iff_toNat_le.1 (UInt64.not_lt.1 hlt)
  have hx := x.toNat_lt
  rw [UInt64.toNat_add, Nat.mod_eq_of_lt (by omega)]

theorem bigUint64_eq_some {v : ℕ} {x : UInt64} (h : bigUint64 v = some x) :
    x.toNat = v ∧ v < 2 ^ 64 := by
  rw [bigUint64] at h
  split_ifs at h with hlt
  cases h
  exact ⟨uint64_toNat hlt, hlt⟩

theorem useGas_eq_some {c c' : Contract} {gas : UInt64} (h : c.useGas gas = some c') :
    c' = { c with gas := c'.gas } ∧ c'.gas.toNat + gas.toNat = c.gas.toNat := by
  rw [Contract.useGas] at h
  split_ifs at h with hlt
  cases h
  have hle : gas ≤ c.gas := UInt64.not_lt.1 hlt
  refine ⟨rfl, ?_⟩
  rw [UInt64.toNat_sub_of_le _ _ hle]
  exact Nat.sub_add_cancel (UInt64.le_iff_toNat_le.1 hle)

/-! ## Jump destinations -/

theorem index_spec {α : Type} {l : List α} {i : ℕ} (h : i < l.length) :
    index l i = .ok (l[i]) := by
  rw [index, List.getElem?_eq_getElem h]

theorem index_eq_ok {α : Type} {l : List α} {i : ℕ} {a : α} (h : index l i = .ok a) :
    l[i]? = some a := by
  rw [index] at h
  rcases hget : l[i]? with _ | b
  · rw [hget] at h
    cases h
  · rw [hget] at h
    cases h
    rfl

namespace Bitvec

variable {bits : Bitvec} {n pc pos : ℕ}

theorem orAt_spec (mask : UInt8) (h : pos < bits.length) :
    ∃ bits' : Bitvec, bits.orAt pos mask = .ok bits' ∧ bits'.length = bits.length := by
  rw [orAt, index_spec h]
  exact ⟨_, rfl, List.length_set ..⟩

theorem markEights_spec (h : pc + 8 * n < 8 * bits.length) :
    ∃ bits' : Bitvec, bits.markEights n pc = .ok bits' ∧ bits'.length = bits.length := by
  induction n generalizing pc bits with
  | zero => exact ⟨bits, rfl, rfl⟩
  | succ n ih =>
    obtain ⟨bits₁, h₁, hlen₁⟩ := @orAt_spec bits (pc / 8)
      ((0xff : UInt8) >>> UInt8.ofNat (pc % 8)) (by omega)
    obtain ⟨bits₂, h₂, hlen₂⟩ := @orAt_spec bits₁ (pc / 8 + 1)
      (~~~((0xff : UInt8) >>> UInt8.ofNat (pc % 8))) (by omega)
    obtain ⟨bits', h', hlen'⟩ := @ih bits₂ (pc + 8) (by omega)
    refine ⟨bits', ?_, by omega⟩
    rw [markEights, mark8, h₁]
    change (bits₁.orAt _ _ >>= fun bits => markEights n (pc + 8) bits) = _
    rw [h₂]
    exact h'

theorem markOnes_spec (h : pc + n ≤ 8 * bits.length) :
    ∃ bits' : Bitvec, bits.markOnes n pc = .ok bits' ∧ bits'.length = bits.length := by
  induction n generalizing pc bits with
  | zero => exact ⟨bits, rfl, rfl⟩
  | succ n ih =>
    obtain ⟨bits₁, h₁, hlen₁⟩ := @orAt_spec bits (pc / 8)
      ((0x80 : UInt8) >>> UInt8.ofNat (pc % 8)) (by omega)
    obtain ⟨bits', h', hlen'⟩ := @ih bits₁ (pc + 1) (by omega)
    refine ⟨bits', ?_, by omega⟩
    rw [markOnes, mark, h₁]
    exact h'

end Bitvec

theorem codeBitmapLoop_spec (code : Bytes) (fuel pc : ℕ) {bits : Bitvec}
    (h : bits.length = code.length / 8 + 5) :
    ∃ bits' : Bitvec, codeBitmapLoop code fuel pc bits = .ok bits' ∧
      bits'.length = code.length / 8 + 5 := by
  induction fuel generalizing pc bits with
  | zero => exact ⟨bits, rfl, h⟩
  | succ fuel ih =>
    rw [codeBitmapLoop]
    rcases hop : code[pc]? with _ | op
    · exact ⟨bits, rfl, h⟩
    · obtain ⟨hpc, -⟩ := List.getElem?_eq_some_iff.1 hop
      simp only
      split_ifs with hpush
      · have hle : op.toNat ≤ 0x7f := UInt8.le_iff_toNat_le.1 hpush.2
        obtain ⟨bits₁, h₁, hlen₁⟩ := @Bitvec.markEights_spec bits
          ((op.toNat - 0x60 + 1) / 8) (pc + 1) (by omega)
        obtain ⟨bits₂, h₂, hlen₂⟩ := @Bitvec.markOnes_spec bits₁
          ((op.toNat - 0x60 + 1) % 8) (pc + 1 + 8 * ((op.toNat - 0x60 + 1) / 8)) (by omega)
        rw [h₁]
        change ∃ bits', (bits₁.markOnes _ _ >>= _) = _ ∧ _
        rw [h₂]
        exact ih _ (by omega)
      · exact ih _ h

end GoEthereum.Vm
