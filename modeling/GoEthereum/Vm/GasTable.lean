/-
  The prices of instructions and the memory that they use (core/vm/gas_table.go, gas.go,
  memory_table.go).
-/
import GoEthereum.Vm.Contracts

namespace GoEthereum.Vm

open GoEthereum.Rlp GoEthereum.State

/-! ## Memory -/

/-- `memoryGasCost`; the first result is `none` if the size is too large. -/
def memoryGasCost (mem : Memory) (newMemSize : UInt64) : Option UInt64 × Memory :=
  if newMemSize = 0 then (some 0, mem)
  else if newMemSize > 0xffffffffe0 then (none, mem)
  else
    let newMemSizeWords := toWordSize newMemSize
    let newMemSize := newMemSizeWords * 32
    if newMemSize > uint64 mem.len then
      let square := newMemSizeWords * newMemSizeWords
      let linCoef := newMemSizeWords * memoryGas
      let quadCoef := square / quadCoeffDiv
      let newTotalFee := linCoef + quadCoef
      (some (newTotalFee - mem.lastGasCost), { mem with lastGasCost := newTotalFee })
    else (some 0, mem)

/-! ## Prices -/

/-- The price of an instruction, or `none` if it does not fit; a gas function can change
    the memory and the machine. -/
structure GasResult where
  cost : Option UInt64
  memory : Memory
  evm : EVM

abbrev GasFunc := Env → Frame → EVM → UInt64 → Except Fault GasResult

/-- `callGas`; the difference can wrap. -/
def callGas (gasTable : GasTable) (availableGas base : UInt64) (callCost : ℕ) : Option UInt64 :=
  if gasTable.createBySuicide > 0 then
    let availableGas := availableGas - base
    let gas := availableGas - availableGas / 64
    if 2 ^ 64 ≤ callCost ∨ gas < uint64 callCost then some gas else bigUint64 callCost
  else bigUint64 callCost

/-- The price of a call with the gas that is handed to it; the latter is kept in
    `callGasTemp`. -/
def callCharge (env : Env) (f : Frame) (evm : EVM) (memory : Memory) (gas : Option UInt64) :
    Except Fault GasResult :=
  match gas with
  | none => .ok ⟨none, memory, evm⟩
  | some gas => do
    match callGas env.rules.gasTable f.contract.gas gas (← back f.stack 0) with
    | none => return ⟨none, memory, { evm with callGasTemp := 0 }⟩
    | some callGasTemp => return ⟨safeAdd gas callGasTemp, memory, { evm with callGasTemp }⟩

def gasCall : GasFunc := fun env f evm memorySize => do
  let transfersValue := (← back f.stack 2) != 0
  let address := bigToAddress (← back f.stack 1)
  let (isNew, s) :=
    if env.rules.isEIP158 then
      if transfersValue then evm.statedb.empty address else (false, evm.statedb)
    else
      let (found, s) := evm.statedb.exist address
      (!found, s)
  let gas := env.rules.gasTable.calls
  let gas := if isNew then gas + callNewAccountGas else gas
  let gas := if transfersValue then gas + callValueTransferGas else gas
  let (memoryGas, memory) := memoryGasCost f.memory memorySize
  callCharge env f { evm with statedb := s } memory (memoryGas.bind (safeAdd gas))

def gasCallCode : GasFunc := fun env f evm memorySize => do
  let gas := env.rules.gasTable.calls
  let gas := if (← back f.stack 2) != 0 then gas + callValueTransferGas else gas
  let (memoryGas, memory) := memoryGasCost f.memory memorySize
  callCharge env f evm memory (memoryGas.bind (safeAdd gas))

/-- The price of a call without a value. -/
def gasPlainCall : GasFunc := fun env f evm memorySize =>
  let (gas, memory) := memoryGasCost f.memory memorySize
  callCharge env f evm memory (gas.bind fun gas => safeAdd gas env.rules.gasTable.calls)

def gasDelegateCall : GasFunc := gasPlainCall
def gasStaticCall : GasFunc := gasPlainCall

end GoEthereum.Vm
