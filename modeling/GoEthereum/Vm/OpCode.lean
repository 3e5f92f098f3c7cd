/-
  Opcodes (core/vm/opcodes.go), and the prices of the protocol (params/protocol_params.go,
  params/gas_table.go, core/vm/gas.go).
-/
import GoEthereum.Common

namespace GoEthereum.Vm

open GoEthereum.Rlp

/-! ## Opcodes -/

/-- `OpCode`; a byte that has no name is `undefined`. -/
inductive OpCode where
  | stop | add | mul | sub | div | sdiv | mod | smod | addmod | mulmod | exp | signextend
  | lt | gt | slt | sgt | eq | iszero | and | or | xor | not | byte | shl | shr | sar
  | sha3
  | address | balance | origin | caller | callvalue | calldataload | calldatasize | calldatacopy
  | codesize | codecopy | gasprice | extcodesize | extcodecopy | returndatasize | returndatacopy
  | extcodehash
  | blockhash | coinbase | timestamp | number | difficulty | gaslimit
  | pop | mload | mstore | mstore8 | sload | sstore | jump | jumpi | pc | msize | gas | jumpdest
  /-- `PUSH1` to `PUSH32` -/
  | push (n : Fin 32)
  /-- `DUP1` to `DUP16` -/
  | dup (n : Fin 16)
  /-- `SWAP1` to `SWAP16` -/
  | swap (n : Fin 16)
  /-- `LOG0` to `LOG4` -/
  | log (n : Fin 5)
  | create | call | callcode | ret | delegatecall | create2 | staticcall | revert | selfdestruct
  | undefined (b : UInt8)
  deriving DecidableEq

/-! ## Prices -/

def callValueTransferGas : UInt64 := 9000
def callNewAccountGas : UInt64 := 25000
def quadCoeffDiv : UInt64 := 512
def memoryGas : UInt64 := 3

def modExpQuadCoeffDiv : ℕ := 20

/-! ## Forks -/

/-- `Rules`: the forks that are active in the block. -/
structure Rules where
  isHomestead : Bool := false
  isEIP150 : Bool := false
  isEIP158 : Bool := false
  isByzantium : Bool := false
  isConstantinople : Bool := false

structure GasTable where
  extcodeSize : UInt64
  extcodeCopy : UInt64
  extcodeHash : UInt64 := 0
  balance : UInt64
  sLoad : UInt64
  calls : UInt64
  suicide : UInt64
  expByte : UInt64
  createBySuicide : UInt64 := 0

def gasTableHomestead : GasTable where
  extcodeSize := 20
  extcodeCopy := 20
  balance := 20
  sLoad := 50
  calls := 40
  suicide := 0
  expByte := 10

def gasTableEIP150 : GasTable where
  extcodeSize := 700
  extcodeCopy := 700
  balance := 400
  sLoad := 200
  calls := 700
  suicide := 5000
  expByte := 10
  createBySuicide := 25000

def gasTableEIP158 : GasTable where
  extcodeSize := 700
  extcodeCopy := 700
  balance := 400
  sLoad := 200
  calls := 700
  suicide := 5000
  expByte := 50
  createBySuicide := 25000

def gasTableConstantinople : GasTable where
  extcodeSize := 700
  extcodeCopy := 700
  extcodeHash := 400
  balance := 400
  sLoad := 200
  calls := 700
  suicide := 5000
  expByte := 50
  createBySuicide := 25000

/-- `GasTable` of the chain configuration. -/
def Rules.gasTable (r : Rules) : GasTable :=
  if r.isConstantinople then gasTableConstantinople
  else if r.isEIP158 then gasTableEIP158
  else if r.isEIP150 then gasTableEIP150
  else gasTableHomestead

end GoEthereum.Vm
