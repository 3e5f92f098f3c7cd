/-
  Modular exponentiation as a precompiled contract (core/vm/contracts.go), and the check of
  signature values (crypto/crypto.go).
-/
import GoEthereum.Vm.Machine

namespace GoEthereum.Vm

open GoEthereum.Rlp BigEndian

/-- What running code returns. -/
structure Output where
  ret : Bytes := []
  err : Option VMError := none

structure PrecompiledContract where
  requiredGas : Bytes → Except Fault UInt64
  run : Bytes → Except Fault Output

/-- `Bytes` of a number. -/
def natBytes (n : ℕ) : Bytes := if n = 0 then [] else toBE (byteLen n) n

/-- The bytes with zeros before them, `l` in all. -/
def leftPad (slice : Bytes) (l : ℕ) : Bytes := List.replicate (l - slice.length) 0 ++ slice

theorem leftPad_natBytes {n k : ℕ} (h : n < 256 ^ k) : leftPad (natBytes n) k = toBE k n := by
  rcases Nat.eq_zero_or_pos n with rfl | hn
  · have hzeros := toBE_add_of_lt (k := 0) (n := 0) k (by decide)
    rw [Nat.add_zero] at hzeros
    rw [hzeros, natBytes, if_pos rfl, leftPad, List.length_nil]
    simp [toBE]
  · have hle : byteLen n ≤ k := by
      refine byteLen_le (Nat.pos_of_ne_zero fun hk => ?_) h
      subst hk
      omega
    have hsplit := toBE_add_of_lt (k - byteLen n) (lt_pow_byteLen n)
    rw [Nat.sub_add_cancel hle] at hsplit
    rw [hsplit, natBytes, if_neg hn.ne', leftPad, length_toBE]

/-! ## Signatures -/

def secp256k1N : ℕ := 0xfffffffffffffffffffffffffffffffebaaedce6af48a03bbfd25e8cd0364141

def secp256k1HalfN : ℕ := secp256k1N / 2

def validateSignatureValues (v : UInt8) (r s : ℕ) (homestead : Bool) : Bool :=
  if r < 1 || s < 1 then false
  else if homestead && s > secp256k1HalfN then false
  else r < secp256k1N && s < secp256k1N && (v == 0 || v == 1)

/-! ## Modular exponentiation -/

namespace BigModExp

variable (maxAlloc : ℕ)

/-- The complexity of a multiplication of numbers with `x` bytes. -/
def multComplexity (x : ℕ) : ℕ :=
  if x ≤ 64 then x * x
  else if x ≤ 1024 then x * x / 4 + (96 * x - 3072)
  else x * x / 16 + (480 * x - 199680)

/-- The first word of the exponent. -/
def expHead (input : Bytes) (baseLen expLen : ℕ) : Except Fault Bytes :=
  if input.length ≤ baseLen then .ok []
  else if expLen > 32 then getData maxAlloc input (uint64 baseLen) 32
  else getData maxAlloc input (uint64 baseLen) (uint64 expLen)

/-- The price for operands of some lengths; `msb` is the highest bit of the first word of
    the exponent. -/
def price (baseLen expLen modLen msb : ℕ) : ℕ :=
  let adjExpLen := (if expLen > 32 then 8 * (expLen - 32) else 0) + msb
  multComplexity (max modLen baseLen) * max adjExpLen 1 / modExpQuadCoeffDiv

/-- A price, cut to 64 bits. -/
def capped (gas : ℕ) : UInt64 := if gas ≥ 2 ^ 64 then maxUint64 else uint64 gas

def requiredGas (input : Bytes) : Except Fault UInt64 := do
  let baseLen := ofBE (← getData maxAlloc input 0 32)
  let expLen := ofBE (← getData maxAlloc input 32 32)
  let modLen := ofBE (← getData maxAlloc input 64 32)
  let head ← expHead maxAlloc (input.drop 96) baseLen expLen
  return capped (price baseLen expLen modLen ((ofBE head).size - 1))

/-- `Run`; the lengths are cut to 64 bits, and their sum can wrap. -/
def run (input : Bytes) : Except Fault Output := do
  let baseLen := uint64 (ofBE (← getData maxAlloc input 0 32))
  let expLen := uint64 (ofBE (← getData maxAlloc input 32 32))
  let modLen := uint64 (ofBE (← getData maxAlloc input 64 32))
  let input := input.drop 96
  if baseLen == 0 && modLen == 0 then return {}
  let base := ofBE (← getData maxAlloc input 0 baseLen)
  let exp := ofBE (← getData maxAlloc input baseLen expLen)
  let mod := ofBE (← getData maxAlloc input (baseLen + expLen) modLen)
  if mod = 0 then return { ret := ← leftPadBytes maxAlloc [] (int64 modLen.toNat) }
  return { ret := ← leftPadBytes maxAlloc (natBytes (base ^ exp % mod)) (int64 modLen.toNat) }

end BigModExp

def bigModExp (maxAlloc : ℕ) : PrecompiledContract :=
  ⟨BigModExp.requiredGas maxAlloc, BigModExp.run maxAlloc⟩

/-- What running a contract returns, with the contract after it. -/
structure RunResult extends Output where
  contract : Contract

end GoEthereum.Vm
