/-
  The types of package types: transactions, headers and blocks.

  A value comes with the hash that its method `Hash` returns; that different values have
  different hashes is said where it is needed.  Numbers that come from RLP are not negative.
-/
import GoEthereum.Common

namespace GoEthereum.Core

open GoEthereum.Rlp

structure Transaction where
  hash : Word
  nonce : UInt64
  gasPrice : ℤ
  gas : UInt64
  recipient : Option Address
  value : ℤ
  data : Bytes
deriving DecidableEq

def txDifference (a b : List Transaction) : List Transaction :=
  a.filter fun tx => decide (tx.hash ∉ b.map Transaction.hash)

structure Header where
  hash : Word
  parentHash : Word
  uncleHash : Word := 0
  coinbase : Address := 0
  root : Word := 0
  txHash : Word := 0
  receiptHash : Word := 0
  difficulty : ℤ
  number : ℕ
  gasLimit : UInt64 := 0
  gasUsed : UInt64 := 0
  time : ℕ := 0
  extra : Bytes := []
  mixDigest : Word := 0
  nonce : UInt64 := 0
deriving DecidableEq

/-- `Number.Uint64` -/
def Header.numberU64 (h : Header) : UInt64 := .ofNat h.number

structure Body where
  transactions : List Transaction := []
  uncles : List Header := []
deriving DecidableEq

structure Block where
  header : Header
  body : Body := {}
deriving DecidableEq

namespace Block

def hash (b : Block) : Word := b.header.hash

def parentHash (b : Block) : Word := b.header.parentHash

def number (b : Block) : ℕ := b.header.number

def numberU64 (b : Block) : UInt64 := b.header.numberU64

def difficulty (b : Block) : ℤ := b.header.difficulty

def transactions (b : Block) : List Transaction := b.body.transactions

def uncles (b : Block) : List Header := b.body.uncles

end Block

end GoEthereum.Core
