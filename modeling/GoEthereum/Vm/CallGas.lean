/-
  The gas that is handed to a call: all but a 64th of what is left after the other costs.

  `callGas` takes the base cost off the available gas before it is known to be there; the
  difference wraps if it is not.  `callGas_spec`: then the whole charge fails.
-/
import GoEthereum.State.Revert
import GoEthereum.Vm.Numbers

namespace GoEthereum.Vm

open GoEthereum.State Outcome

/-- The gas tables of the forks. -/
def gasTables : List GasTable :=
  [gasTableHomestead, gasTableEIP150, gasTableEIP158, gasTableConstantinople]

theorem Rules.gasTable_mem (r : Rules) : r.gasTable ∈ gasTables := by
  rw [gasTable]
  split_ifs <;> simp [gasTables]

/-- The rules of Byzantium. -/
def byzantiumRules : Rules :=
  { isHomestead := true, isEIP150 := true, isEIP158 := true, isByzantium := true }

/-- An environment in which no signature and no point is valid. -/
def plainEnv (rules : Rules) (hashing : Hashing) : Env where
  rules
  hashing
  crypto := ⟨fun _ _ => none, fun _ => [], fun _ => [], fun _ _ => none, fun _ _ => none,
    fun _ => none⟩

/-- What is handed to a call at most, of the gas `a`. -/
def allButOne64th (a : ℕ) : ℕ := a - a / 64

/-- A charge that can be paid. -/
theorem callGas_spec {gt : GasTable} (ht : 0 < gt.createBySuicide)
    {available base gas cost : UInt64} {requested : ℕ}
    (hgas : callGas gt available base requested = some gas)
    (hcost : safeAdd base gas = some cost) (hpaid : cost.toNat ≤ available.toNat) :
    base.toNat ≤ available.toNat ∧ cost.toNat = base.toNat + gas.toNat ∧
      gas.toNat = min requested (allButOne64th (available.toNat - base.toNat)) := by
  have hsum := safeAdd_eq_some hcost
  have hbase : base.toNat ≤ available.toNat := by omega
  have hleft : (available - base).toNat = available.toNat - base.toNat :=
    UInt64.toNat_sub_of_le _ _ (UInt64.le_iff_toNat_le.2 hbase)
  have hmost : (available - base - (available - base) / 64).toNat =
      allButOne64th (available.toNat - base.toNat) := by
    rw [UInt64.toNat_sub_of_le, UInt64.toNat_div, hleft]
    · rfl
    · rw [UInt64.le_iff_toNat_le, UInt64.toNat_div]
      exact Nat.div_le_self ..
  refine ⟨hbase, hsum, ?_⟩
  rw [callGas, if_pos ht] at hgas
  dsimp only at hgas
  split_ifs at hgas with hlarge
  · cases hgas
    rw [hmost, min_eq_right]
    rcases hlarge with h | h
    · have := available.toNat_lt
      unfold allButOne64th
      omega
    · rw [UInt64.lt_iff_toNat_lt, hmost] at h
      exact h.le.trans (uint64_le requested)
  · obtain ⟨heq, hlt⟩ := bigUint64_eq_some hgas
    have hle := (not_or.1 hlarge).2
    rw [UInt64.lt_iff_toNat_lt, hmost, uint64_toNat hlt] at hle
    rw [heq, min_eq_left (not_lt.1 hle)]

/-- The instructions that call. -/
inductive CallOp where
  | call | callCode | delegateCall | staticCall

namespace CallOp

/-- The price of the instruction. -/
def gasFunc : CallOp → GasFunc
  | call => gasCall
  | callCode => gasCallCode
  | delegateCall => gasDelegateCall
  | staticCall => gasStaticCall

/-- Whether a call makes an account. -/
def makesAccount (env : Env) (evm : EVM) (value : ℕ) (address : Address) : Bool :=
  if env.rules.isEIP158 then value != 0 && (evm.statedb.empty address).1
  else !(evm.statedb.exist address).1

/-- What the instruction costs beyond the memory and the gas that is handed on. -/
def surcharge (op : CallOp) (env : Env) (f : Frame) (evm : EVM) : ℕ :=
  let value := f.stack.getD 2 0
  let transfer := if value ≠ 0 then callValueTransferGas.toNat else 0
  env.rules.gasTable.calls.toNat + match op with
    | call => (if makesAccount env evm value (bigToAddress (f.stack.getD 1 0)) then
        callNewAccountGas.toNat else 0) + transfer
    | callCode => transfer
    | delegateCall | staticCall => 0

end CallOp

theorem back_eq_ok {stack : List ℕ} {n x : ℕ} (h : back stack n = .ok x) : stack.getD n 0 = x := by
  rw [List.getD_eq_getElem?_getD, index_eq_ok h]
  rfl

/-- The parts of a charge. -/
theorem callCharge_eq_ok {env : Env} {f : Frame} {evm : EVM} {m : Memory} {gas : Option UInt64}
    {g : GasResult} {cost : UInt64} (h : callCharge env f evm m gas = .ok g)
    (hcost : g.cost = some cost) : ∃ base, gas = some base ∧
      callGas env.rules.gasTable f.contract.gas base (f.stack.getD 0 0) = some g.evm.callGasTemp ∧
      safeAdd base g.evm.callGasTemp = some cost := by
  rcases gas with _ | base
  · cases h
    cases hcost
  · obtain ⟨requested, hback, h⟩ := bind_eq_ok h
    refine ⟨base, rfl, ?_⟩
    rw [back_eq_ok hback]
    rcases hcall : callGas env.rules.gasTable f.contract.gas base requested with _ | temp
    · rw [hcall] at h
      cases h
      cases hcost
    · rw [hcall] at h
      cases h
      exact ⟨rfl, hcost⟩

theorem surcharge_toNat (t : GasTable) (ht : t ∈ gasTables) (isNew transfersValue : Bool) :
    (let gas := if isNew then t.calls + callNewAccountGas else t.calls
      if transfersValue then gas + callValueTransferGas else gas).toNat =
    t.calls.toNat + ((if isNew then callNewAccountGas.toNat else 0) +
      if transfersValue then callValueTransferGas.toNat else 0) := by
  revert t isNew transfersValue
  decide

theorem base_eq {memoryGas : Option UInt64} {gas base : UInt64}
    (h : memoryGas.bind (safeAdd gas) = some base) :
    ∃ m, memoryGas = some m ∧ base.toNat = gas.toNat + m.toNat := by
  obtain ⟨m, hm, hadd⟩ := Option.bind_eq_some_iff.1 h
  exact ⟨m, hm, safeAdd_eq_some hadd⟩

/-- What `gasCall` finds out about the callee. -/
theorem newAccount_eq (env : Env) (evm : EVM) (value : ℕ) (address : Address) :
    (if env.rules.isEIP158 then
      if value != 0 then evm.statedb.empty address else (false, evm.statedb)
    else
      match evm.statedb.exist address with
      | (found, s) => (!found, s)) =
    (CallOp.makesAccount env evm value address,
      if env.rules.isEIP158 then
        if value != 0 then (evm.statedb.empty address).2 else evm.statedb
      else (evm.statedb.exist address).2) := by
  unfold CallOp.makesAccount
  split_ifs with heip158 hvalue
  · rw [hvalue, Bool.true_and]
  · rw [Bool.eq_false_of_not_eq_true hvalue, Bool.false_and]
  · rfl

theorem CallOp.gasFunc_eq_ok {env : Env} {f : Frame} {evm : EVM} {ms : UInt64} {g : GasResult}
    (op : CallOp) (h : op.gasFunc env f evm ms = .ok g) : ∃ (evm' : EVM) (gas : Option UInt64),
      callCharge env f evm' (memoryGasCost f.memory ms).2 gas = .ok g ∧
      ∀ base, gas = some base → ∃ memoryGas, (memoryGasCost f.memory ms).1 = some memoryGas ∧
        base.toNat = op.surcharge env f evm + memoryGas.toNat := by
  have htable := env.rules.gasTable_mem
  cases op with
  | call =>
    obtain ⟨value, hvalue, h⟩ := bind_eq_ok h
    obtain ⟨address, haddress, h⟩ := bind_eq_ok h
    dsimp only at h
    rw [newAccount_eq] at h
    refine ⟨_, _, h, fun base hbase => ?_⟩
    obtain ⟨m, hm, hsum⟩ := base_eq hbase
    refine ⟨m, hm, ?_⟩
    have hno := surcharge_toNat _ htable (makesAccount env evm value (bigToAddress address))
      (value != 0)
    dsimp only at hno
    rw [hsum, hno, CallOp.surcharge, back_eq_ok hvalue, back_eq_ok haddress]
    simp
  | callCode =>
    obtain ⟨value, hvalue, h⟩ := bind_eq_ok h
    refine ⟨_, _, h, fun base hbase => ?_⟩
    obtain ⟨m, hm, hsum⟩ := base_eq hbase
    refine ⟨m, hm, ?_⟩
    rw [hsum, CallOp.surcharge, back_eq_ok hvalue]
    have := surcharge_toNat _ htable false (value != 0)
    simp only [Bool.false_eq_true, if_false, zero_add] at this
    rw [this]
    simp
  | delegateCall | staticCall =>
    refine ⟨evm, _, h, fun base hbase => ?_⟩
    obtain ⟨m, hm, hadd⟩ := Option.bind_eq_some_iff.1 hbase
    refine ⟨m, hm, ?_⟩
    rw [safeAdd_eq_some hadd, CallOp.surcharge, Nat.add_zero, Nat.add_comm]

/-- **The 64th that stays.**  If the price of a call can be paid, the base cost can be paid,
    the call gets what it asks for or all but a 64th of what is left after the base cost, and
    the price is the sum of the two. -/
theorem call_gas_rule {env : Env} {f : Frame} {evm : EVM} {memorySize : UInt64} {g : GasResult}
    {cost : UInt64} {contract : Contract} (op : CallOp)
    (heip150 : 0 < env.rules.gasTable.createBySuicide)
    (hgas : op.gasFunc env f evm memorySize = .ok g) (hcost : g.cost = some cost)
    (huse : f.contract.useGas cost = some contract) :
    ∃ memoryGas, (memoryGasCost f.memory memorySize).1 = some memoryGas ∧
      ∃ base, base = op.surcharge env f evm + memoryGas.toNat ∧ base ≤ f.contract.gas.toNat ∧
        g.evm.callGasTemp.toNat =
          min (f.stack.getD 0 0) (allButOne64th (f.contract.gas.toNat - base)) ∧
        cost.toNat = base + g.evm.callGasTemp.toNat := by
  obtain ⟨evm', gas, hcharge, hbase⟩ := op.gasFunc_eq_ok hgas
  obtain ⟨base, hsome, hcall, hsum⟩ := callCharge_eq_ok hcharge hcost
  obtain ⟨memoryGas, hmemory, heq⟩ := hbase base hsome
  have hpaid := (useGas_eq_some huse).2
  obtain ⟨hle, hadd, hrule⟩ := callGas_spec heip150 hcall hsum (by omega)
  exact ⟨memoryGas, hmemory, base.toNat, heq, hle, hrule, hadd⟩

/-- A frame that asks for more than it has left. -/
def greedyFrame : Frame where
  contract := { callerAddress := 1, self := 2, gas := 7000, value := 0 }
  stack := [10 ^ 9, 3, 0, 0, 0, 0]

theorem call_gas_rule_static : ∃ g contract,
    CallOp.staticCall.gasFunc (plainEnv byzantiumRules emptyHashing) greedyFrame
      { statedb := emptyState } 0 = .ok g ∧ greedyFrame.contract.useGas 6902 = some contract ∧
    g.evm.callGasTemp.toNat = allButOne64th 6300 := by
  have hgas : CallOp.staticCall.gasFunc (plainEnv byzantiumRules emptyHashing) greedyFrame
    { statedb := emptyState } 0 = .ok ⟨some 6902, _, _⟩ := rfl
  have huse : greedyFrame.contract.useGas 6902 = some _ := rfl
  obtain ⟨memoryGas, hmemory, base, hbase, -, hrule, -⟩ :=
    call_gas_rule .staticCall (by decide) hgas rfl huse
  cases hmemory
  cases hbase
  exact ⟨_, _, hgas, huse, hrule⟩

end GoEthereum.Vm
