/-
  The chain database (package rawdb).

  A node is kept under its number and hash.  Writes that fail end the program, so they are
  left out; the caches in front of the database return what it holds.
-/
import GoEthereum.Lib.AssocMap
import GoEthereum.Core.Types

namespace GoEthereum.Core

structure TxLookupEntry where
  blockHash : Word
  blockIndex : UInt64
  index : UInt64
deriving DecidableEq

/-- The chain database. -/
structure ChainDb where
  canonicalHash : AssocMap UInt64 Word := .empty
  headerNumber : AssocMap Word UInt64 := .empty
  headers : AssocMap (UInt64 × Word) Header := .empty
  bodies : AssocMap (UInt64 × Word) Body := .empty
  td : AssocMap (UInt64 × Word) ℤ := .empty
  txLookup : AssocMap Word TxLookupEntry := .empty
  headHeaderHash : Word := 0
  headBlockHash : Word := 0
  headFastBlockHash : Word := 0

namespace ChainDb

/-- `ReadCanonicalHash`; the zero hash stands for nothing. -/
def readCanonicalHash (db : ChainDb) (number : UInt64) : Word :=
  (db.canonicalHash.get number).getD 0

def writeCanonicalHash (db : ChainDb) (hash : Word) (number : UInt64) : ChainDb :=
  { db with canonicalHash := db.canonicalHash.set number hash }

def readHeader (db : ChainDb) (hash : Word) (number : UInt64) : Option Header :=
  db.headers.get (number, hash)

def writeHeader (db : ChainDb) (header : Header) : ChainDb :=
  { db with
    headerNumber := db.headerNumber.set header.hash header.numberU64
    headers := db.headers.set (header.numberU64, header.hash) header }

def readBody (db : ChainDb) (hash : Word) (number : UInt64) : Option Body :=
  db.bodies.get (number, hash)

def writeBody (db : ChainDb) (hash : Word) (number : UInt64) (body : Body) : ChainDb :=
  { db with bodies := db.bodies.set (number, hash) body }

def readTd (db : ChainDb) (hash : Word) (number : UInt64) : Option ℤ := db.td.get (number, hash)

def writeTd (db : ChainDb) (hash : Word) (number : UInt64) (td : ℤ) : ChainDb :=
  { db with td := db.td.set (number, hash) td }

def readBlock (db : ChainDb) (hash : Word) (number : UInt64) : Option Block := do
  let header ← db.readHeader hash number
  let body ← db.readBody hash number
  return ⟨header, body⟩

def writeBlock (db : ChainDb) (block : Block) : ChainDb :=
  (db.writeBody block.hash block.numberU64 block.body).writeHeader block.header

def writeTxLookupEntries (db : ChainDb) (block : Block) : ChainDb :=
  { db with
    txLookup := (block.transactions.zipIdx).foldl
      (fun m p => m.set p.1.hash ⟨block.hash, block.numberU64, .ofNat p.2⟩) db.txLookup }

def deleteTxLookupEntry (db : ChainDb) (hash : Word) : ChainDb :=
  { db with txLookup := db.txLookup.erase hash }

end ChainDb

end GoEthereum.Core
