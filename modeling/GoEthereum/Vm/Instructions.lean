/-
  The instructions on words (core/vm/instructions.go).

  An instruction takes the variables of the loop and the machine and returns them with the
  bytes and the error that the source's function returns.  The instructions here are one of two
  shapes with a function on numbers.
-/
import GoEthereum.Vm.GasTable
import Mathlib.Data.Int.Bitwise

namespace GoEthereum.Vm

open GoEthereum.Rlp GoEthereum.State BigEndian

/-- What running a contract returns, with the machine after it. -/
structure Ran extends RunResult where
  evm : EVM

/-- `Run` of an interpreter: contract, input and whether the state must not be changed. -/
abbrev Interpreter := Contract → Bytes → Bool → EVM → Except Fault Ran

/-- What an instruction returns. -/
structure Executed where
  frame : Frame
  evm : EVM
  res : Bytes := []
  err : Option VMError := none

abbrev ExecutionFunc := Env → Interpreter → Frame → EVM → Except Fault Executed

/-- The stack with its top item taken off. -/
def pop (stack : List ℕ) : Except Fault (ℕ × List ℕ) :=
  match stack with
  | x :: rest => .ok (x, rest)
  | [] => .error .bounds

/-! ## Shapes of instructions -/

/-- The two top items are replaced. -/
def binary (op : ℕ → ℕ → ℕ) : ExecutionFunc := fun _ _ f evm => do
  let (x, stack) ← pop f.stack
  let (y, stack) ← pop stack
  return { frame := { f with stack := op x y :: stack }, evm }

/-- The three top items are replaced. -/
def ternary (op : ℕ → ℕ → ℕ → ℕ) : ExecutionFunc := fun _ _ f evm => do
  let (x, stack) ← pop f.stack
  let (y, stack) ← pop stack
  let (z, stack) ← pop stack
  return { frame := { f with stack := op x y z :: stack }, evm }

/-- One for true and zero for false. -/
def flag (b : Bool) : ℕ := if b then 1 else 0

/-! ## Arithmetic -/

def opAdd : ExecutionFunc := binary fun x y => u256 (x + y)

def opSub : ExecutionFunc := binary fun x y => u256 ((x : ℤ) - y)

def opMul : ExecutionFunc := binary fun x y => u256 (x * y)

def opDiv : ExecutionFunc := binary fun x y => if y ≠ 0 then u256 ((x / y : ℕ) : ℤ) else 0

def opSdiv : ExecutionFunc := binary fun x y =>
  let x := s256 x
  let y := s256 y
  if y = 0 ∨ x = 0 then 0
  else
    let res : ℤ := (x.natAbs / y.natAbs : ℕ)
    u256 (if x.sign ≠ y.sign then -res else res)

def opMod : ExecutionFunc := binary fun x y => if y = 0 then 0 else u256 ((x % y : ℕ) : ℤ)

def opSmod : ExecutionFunc := binary fun x y =>
  let x := s256 x
  let y := s256 y
  if y = 0 then 0
  else
    let res : ℤ := (x.natAbs % y.natAbs : ℕ)
    u256 (if x < 0 then -res else res)

/-- The loop of `Exp`: a round squares the base and halves the exponent. -/
def expLoop : ℕ → ℕ → ℕ → ℕ → ℕ
  | 0, result, _, _ => result
  | n + 1, result, base, word =>
    let result := if word % 2 = 1 then u256 (result * base) else result
    expLoop n result (u256 (base * base)) (word / 2)

/-- `Exp`; the loop goes through all bits of the words of the exponent. -/
def mathExp (base exponent : ℕ) : ℕ := expLoop (64 * ((exponent.size + 63) / 64)) 1 base exponent

def opExp : ExecutionFunc := binary fun base exponent =>
  if exponent < 1 then 1
  else if base = 0 then 0
  else if exponent = 1 then base
  else mathExp base exponent

def opSignExtend : ExecutionFunc := binary fun back num =>
  if back < 31 then
    let bit := back * 8 + 7
    let mask : ℤ := 2 ^ bit - 1
    u256 (if num.testBit bit then Int.lor num (Int.lnot mask) else Int.land num mask)
  else num

def opLt : ExecutionFunc := binary fun x y => flag (x < y)

def opGt : ExecutionFunc := binary fun x y => flag (x > y)

def opSlt : ExecutionFunc := binary fun x y =>
  if 2 ^ 255 ≤ x ∧ y < 2 ^ 255 then 1
  else if x < 2 ^ 255 ∧ 2 ^ 255 ≤ y then 0
  else flag (x < y)

def opSgt : ExecutionFunc := binary fun x y =>
  if 2 ^ 255 ≤ x ∧ y < 2 ^ 255 then 0
  else if x < 2 ^ 255 ∧ 2 ^ 255 ≤ y then 1
  else flag (x > y)

/-- `Byte` of a number with 32 bytes. -/
def mathByte (x n : ℕ) : ℕ := if n ≥ 32 then 0 else x / 256 ^ (32 - 1 - n) % 256

def opByte : ExecutionFunc := binary fun th val => if th < 32 then mathByte val th else 0

def opAddmod : ExecutionFunc := ternary fun x y z =>
  if z > 0 then u256 ((x + y) % z : ℕ) else 0

def opMulmod : ExecutionFunc := ternary fun x y z =>
  if z > 0 then u256 ((x * y) % z : ℕ) else 0

def opSHL : ExecutionFunc := binary fun shift value =>
  if u256 shift ≥ 256 then 0 else u256 ((u256 value <<< u256 shift : ℕ) : ℤ)

def opSHR : ExecutionFunc := binary fun shift value =>
  if u256 shift ≥ 256 then 0 else u256 ((u256 value >>> u256 shift : ℕ) : ℤ)

def opSAR : ExecutionFunc := binary fun shift value =>
  if u256 shift ≥ 256 then u256 (if s256 value ≥ 0 then 0 else -1)
  else u256 (s256 value >>> u256 shift)

end GoEthereum.Vm
