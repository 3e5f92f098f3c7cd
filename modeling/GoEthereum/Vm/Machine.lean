/-
  The machine: numbers, memory, stack and contracts (core/vm/common.go, memory.go, stack.go,
  contract.go, analysis.go, common/math).

  Stack items are numbers without a sign: what the instructions push is never negative.
  Machine integers that can wrap are `UInt64`.  A panic is a `Fault`.  The cache of jump
  destinations is left out.
-/
import GoEthereum.Vm.OpCode
import GoEthereum.State.StateDB

namespace GoEthereum.Vm

open GoEthereum.Rlp GoEthereum.State BigEndian

/-- What stops the program: its panics, and the end of the fuel. -/
inductive Fault where
  /-- `Refund counter below zero` -/
  | refundCounter
  /-- a revision that cannot be reverted -/
  | revision
  /-- `invalid memory: store empty` -/
  | memory
  /-- an index or a slice that is out of range -/
  | bounds
  /-- `makeslice: len out of range` -/
  | makeslice
  | outOfFuel
  deriving DecidableEq

/-- The errors of the virtual machine. -/
inductive VMError where
  | outOfGas
  | codeStoreOutOfGas
  | depth
  | insufficientBalance
  | contractAddressCollision
  | writeProtection
  | returnDataOutOfBounds
  | executionReverted
  | maxCodeSizeExceeded
  | gasUintOverflow
  | invalidOpcode (op : OpCode)
  | stackUnderflow (len pop : ℕ)
  | stackLimitReached (len : ℕ)
  | invalidJump (nop : OpCode) (pos : ℕ)
  /-- an error of a precompiled contract -/
  | precompiled
  deriving DecidableEq

/-- An element of a slice, or a panic. -/
def index {α : Type} (l : List α) (i : ℕ) : Except Fault α :=
  match l[i]? with
  | some a => .ok a
  | none => .error .bounds

/-! ## Numbers -/

def maxUint64 : UInt64 := 0xffffffffffffffff

/-- `Uint64` of a number. -/
def uint64 (x : ℕ) : UInt64 := .ofNat x

/-- `Int64` of a number. -/
def int64 (x : ℕ) : ℤ := Int.bmod x (2 ^ 64)

def u256 (x : ℤ) : ℕ := (x % 2 ^ 256).toNat

def s256 (x : ℕ) : ℤ := if x < 2 ^ 255 then x else x - 2 ^ 256

/-- `bigUint64`; `none` is an overflow. -/
def bigUint64 (v : ℕ) : Option UInt64 := if v < 2 ^ 64 then some (uint64 v) else none

/-- `SafeAdd`; `none` is an overflow. -/
def safeAdd (x y : UInt64) : Option UInt64 := if y > maxUint64 - x then none else some (x + y)

def toWordSize (size : UInt64) : UInt64 :=
  if size > maxUint64 - 31 then maxUint64 / 32 + 1 else (size + 31) / 32

def bigToAddress (x : ℕ) : Address := .ofNat 160 x

/-- The bytes of an address. -/
def addressBytes (a : Address) : Bytes := toBE 20 a.toNat

/-! ## Slices -/

section
-- `make` panics for more than `maxAlloc` bytes, a constant of the runtime
variable (maxAlloc : ℕ)

/-- `make([]byte, l)` -/
def makeBytes (l : ℤ) : Except Fault Bytes :=
  if l < 0 ∨ l > maxAlloc then .error .makeslice else .ok (List.replicate l.toNat 0)

def rightPadBytes (slice : Bytes) (l : ℤ) : Except Fault Bytes :=
  if l ≤ slice.length then .ok slice
  else do
    let padded ← makeBytes maxAlloc l
    return slice ++ padded.drop slice.length

def leftPadBytes (slice : Bytes) (l : ℤ) : Except Fault Bytes :=
  if l ≤ slice.length then .ok slice
  else do
    let padded ← makeBytes maxAlloc l
    return padded.take (l.toNat - slice.length) ++ slice

/-- `getData`; the end of the range can wrap. -/
def getData (data : Bytes) (start size : UInt64) : Except Fault Bytes :=
  let start := if start.toNat > data.length then uint64 data.length else start
  let stop := start + size
  let stop := if stop.toNat > data.length then uint64 data.length else stop
  if stop < start then .error .bounds
  else rightPadBytes maxAlloc (data.extract start.toNat stop.toNat) (int64 size.toNat)

end

/-! ## Memory -/

structure Memory where
  store : Bytes := []
  lastGasCost : UInt64 := 0

namespace Memory

def len (m : Memory) : ℕ := m.store.length

end Memory

/-! ## Jump destinations -/

abbrev Bitvec := List UInt8

namespace Bitvec

/-- Some bits of a byte are set. -/
def orAt (bits : Bitvec) (i : ℕ) (mask : UInt8) : Except Fault Bitvec := do
  let b ← index bits i
  return List.set bits i (b ||| mask)

/-- `set` -/
def mark (bits : Bitvec) (pos : ℕ) : Except Fault Bitvec :=
  bits.orAt (pos / 8) ((0x80 : UInt8) >>> UInt8.ofNat (pos % 8))

/-- `set8` -/
def mark8 (bits : Bitvec) (pos : ℕ) : Except Fault Bitvec := do
  let bits ← bits.orAt (pos / 8) ((0xff : UInt8) >>> UInt8.ofNat (pos % 8))
  bits.orAt (pos / 8 + 1) (~~~((0xff : UInt8) >>> UInt8.ofNat (pos % 8)))

def codeSegment (bits : Bitvec) (pos : ℕ) : Except Fault Bool := do
  let b ← index bits (pos / 8)
  return b &&& ((0x80 : UInt8) >>> UInt8.ofNat (pos % 8)) == 0

/-- The loop over eight bits at once. -/
def markEights : ℕ → ℕ → Bitvec → Except Fault Bitvec
  | 0, _, bits => .ok bits
  | n + 1, pc, bits => do markEights n (pc + 8) (← bits.mark8 pc)

/-- The loop over the bits that are left. -/
def markOnes : ℕ → ℕ → Bitvec → Except Fault Bitvec
  | 0, _, bits => .ok bits
  | n + 1, pc, bits => do markOnes n (pc + 1) (← bits.mark pc)

end Bitvec

/-- The loop of `codeBitmap`. -/
def codeBitmapLoop (code : Bytes) : ℕ → ℕ → Bitvec → Except Fault Bitvec
  | 0, _, bits => .ok bits
  | fuel + 1, pc, bits =>
    match code[pc]? with
    | none => .ok bits
    | some op =>
      if 0x60 ≤ op ∧ op ≤ 0x7f then do
        let numbits := op.toNat - 0x60 + 1
        let bits ← bits.markEights (numbits / 8) (pc + 1)
        let bits ← bits.markOnes (numbits % 8) (pc + 1 + 8 * (numbits / 8))
        codeBitmapLoop code fuel (pc + 1 + numbits) bits
      else codeBitmapLoop code fuel (pc + 1) bits

/-- `codeBitmap`; the loop has at most one round for each byte. -/
def codeBitmap (code : Bytes) : Except Fault Bitvec :=
  codeBitmapLoop code code.length 0 (List.replicate (code.length / 8 + 1 + 4) 0)

/-! ## Contracts -/

structure Contract where
  callerAddress : Address
  self : Address
  code : Bytes := []
  codeAddr : Option Address := none
  input : Bytes := []
  gas : UInt64
  value : ℕ

namespace Contract

/-- `UseGas`; `none` if there is not enough. -/
def useGas (c : Contract) (gas : UInt64) : Option Contract :=
  if c.gas < gas then none else some { c with gas := c.gas - gas }

def validJumpdest (c : Contract) (dest : ℕ) : Except Fault Bool :=
  if 2 ^ 62 ≤ dest ∨ c.code.length ≤ dest then .ok false
  else if c.code[dest]? ≠ some 0x5b then .ok false
  else do (← codeBitmap c.code).codeSegment dest

end Contract

/-! ## The environment -/

/-- `Context`; `CanTransfer` and `Transfer` are those of core/evm.go. -/
structure Context where
  getHash : UInt64 → Word := fun _ => 0
  origin : Address := 0
  gasPrice : ℕ := 0
  coinbase : Address := 0
  gasLimit : UInt64 := 0
  blockNumber : ℕ := 0
  time : ℕ := 0
  difficulty : ℕ := 0

structure Config where
  noRecursion : Bool := false
  enablePreimageRecording : Bool := false

/-- The functions that precompiled contracts call. -/
structure Crypto where
  /-- `Ecrecover` of a hash and a signature -/
  ecrecover : Bytes → Bytes → Option Bytes
  sha256 : Bytes → Bytes
  ripemd160 : Bytes → Bytes
  /-- the sum of two points of the curve; `none` if one of them is malformed -/
  addPoints : Bytes → Bytes → Option Bytes
  /-- a multiple of a point of the curve -/
  scalarMult : Bytes → ℕ → Option Bytes
  /-- `PairingCheck` of pairs of points -/
  pairingCheck : List (Bytes × Bytes) → Option Bool

/-- What does not change while a message is processed. -/
structure Env where
  rules : Rules
  config : Config := {}
  context : Context := {}
  hashing : Hashing
  crypto : Crypto

/-- What `CaptureState` is shown of a step. -/
structure Captured where
  statedb : StateDB
  pc : ℕ
  op : OpCode
  gas : UInt64
  cost : UInt64
  stack : List ℕ
  address : Address
  depth : ℕ

/-- `EVM` with its interpreter, and a tracer that keeps all steps; the last one stands
    first. -/
structure EVM where
  statedb : StateDB
  depth : ℕ := 0
  callGasTemp : UInt64 := 0
  readOnly : Bool := false
  returnData : Bytes := []
  trace : List Captured := []

/-- The variables of `Run`; the top of the stack stands first. -/
structure Frame where
  contract : Contract
  pc : ℕ := 0
  memory : Memory := {}
  stack : List ℕ := []

def back (stack : List ℕ) (n : ℕ) : Except Fault ℕ := index stack n

end GoEthereum.Vm
