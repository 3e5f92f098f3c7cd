/-
  The block chain (core/blockchain.go): writing blocks and reorganisations.

  The tries of the states, the receipts and the events are left out; what the other
  components answer while a block is written is an argument (`Answers`).  A nil pointer that
  is followed ends a call with a fault.
-/
import GoEthereum.Core.Rawdb

namespace GoEthereum.Core

/-- Why a call does not return. -/
inductive Fault where
  | nilPointer
  | outOfFuel
deriving DecidableEq

/-- The errors of the chain. -/
inductive ChainError where
  | unknownAncestor
  | prunedAncestor
  | futureBlock
  | knownBlock
  | blacklistedHash
  | invalidOldChain
  | invalidNewChain
  | ghostState
  | missingParent
  /-- An error of the state, of a batch or of another component. -/
  | other
deriving DecidableEq

inductive WriteStatus where
  | nonStatTy
  | canonStatTy
  | sideStatTy
deriving DecidableEq

/-- What the configuration and the miner decide. -/
structure ChainConfig where
  /-- `cacheConfig.Disabled`: an archive node. -/
  disabled : Bool := false
  shouldPreserve : Option (Block → Bool) := none

/-- What happens outside while a block is written. -/
structure Answers where
  /-- The state is written. -/
  committed : Bool := true
  /-- The batch is written. -/
  written : Bool := true
  /-- `mrand.Float64() < 0.5` -/
  coin : Bool := false

/-- The blocks of a chain: its database and its heads. -/
structure BlockChain where
  db : ChainDb
  genesisHeader : Header
  /-- `hc.currentHeader`; `Rollback` can set it to nil. -/
  currentHeader : Option Header
  currentHeaderHash : Word
  currentBlock : Block
  currentFastBlock : Block

/-- `Header.Hash` of a pointer; nil is encoded as an empty list. -/
def hashOf : Option Header → Word
  | none => 0x1dcc4de8dec75d7aab85b567b6ccd41ad312451b948a7413f0a142fd40d49347
  | some header => header.hash

def triesInMemory : UInt64 := 128

namespace BlockChain

/-- A chain that has only its first block. -/
def ofGenesis (genesis : Block) : BlockChain where
  db :=
    let db := (({} : ChainDb).writeTd genesis.hash genesis.numberU64 genesis.difficulty).writeBlock
      genesis
    { db.writeCanonicalHash genesis.hash genesis.numberU64 with
      headHeaderHash := genesis.hash
      headBlockHash := genesis.hash
      headFastBlockHash := genesis.hash }
  genesisHeader := genesis.header
  currentHeader := some genesis.header
  currentHeaderHash := genesis.hash
  currentBlock := genesis
  currentFastBlock := genesis

def getTd (bc : BlockChain) (hash : Word) (number : UInt64) : Option ℤ := bc.db.readTd hash number

def getHeader (bc : BlockChain) (hash : Word) (number : UInt64) : Option Header :=
  bc.db.readHeader hash number

def getHeaderByNumber (bc : BlockChain) (number : UInt64) : Option Header :=
  let hash := bc.db.readCanonicalHash number
  if hash = 0 then none else bc.getHeader hash number

def getBlock (bc : BlockChain) (hash : Word) (number : UInt64) : Option Block :=
  bc.db.readBlock hash number

def setCurrentHeader (bc : BlockChain) (head : Option Header) : BlockChain :=
  { bc with
    db := { bc.db with headHeaderHash := hashOf head }
    currentHeader := head
    currentHeaderHash := hashOf head }

def insert (bc : BlockChain) (block : Block) : BlockChain :=
  let updateHeads := bc.db.readCanonicalHash block.numberU64 ≠ block.hash
  let bc := { bc with
    db := { bc.db.writeCanonicalHash block.hash block.numberU64 with headBlockHash := block.hash }
    currentBlock := block }
  if updateHeads then
    let bc := bc.setCurrentHeader (some block.header)
    { bc with
      db := { bc.db with headFastBlockHash := block.hash }
      currentFastBlock := block }
  else bc

/-! ### Reorganisations -/

/-- The loops at the start of `reorg`: from a block down to a number, and the blocks above. -/
def reduce (bc : BlockChain) (number : UInt64) :
    ℕ → Option Block → List Block → Except Fault (Option Block × List Block)
  | _, none, chain => .ok (none, chain)
  | 0, some block, chain =>
    if block.numberU64 = number then .ok (some block, chain) else .error .outOfFuel
  | fuel + 1, some block, chain =>
    if block.numberU64 = number then .ok (some block, chain)
    else bc.reduce number fuel (bc.getBlock block.parentHash (block.numberU64 - 1)) (chain ++ [block])

/-- What the search for the common block has found. -/
structure Split where
  commonBlock : Block
  oldChain : List Block
  newChain : List Block

/-- The loop of `reorg` that goes back on both sides. -/
def findCommon (bc : BlockChain) :
    ℕ → Block → Block → List Block → List Block → Except Fault (Except ChainError Split)
  | fuel, oldBlock, newBlock, oldChain, newChain =>
    if oldBlock.hash = newBlock.hash then .ok (.ok ⟨oldBlock, oldChain, newChain⟩)
    else
      match fuel with
      | 0 => .error .outOfFuel
      | fuel + 1 =>
        match bc.getBlock oldBlock.parentHash (oldBlock.numberU64 - 1),
          bc.getBlock newBlock.parentHash (newBlock.numberU64 - 1) with
        | none, _ => .ok (.error .invalidOldChain)
        | some _, none => .ok (.error .invalidNewChain)
        | some old, some new =>
          bc.findCommon fuel old new (oldChain ++ [oldBlock]) (newChain ++ [newBlock])

/-- The common block of two branches, and the blocks above it. -/
def split (bc : BlockChain) (oldBlock newBlock : Block) : Except Fault (Except ChainError Split) := do
  -- every round goes down by one number, and both loops end at the first block
  let fuel := oldBlock.number + newBlock.number
  let (oldBlock, oldChain, newBlock, newChain) ←
    if oldBlock.numberU64 > newBlock.numberU64 then do
      let (old, oldChain) ← bc.reduce newBlock.numberU64 fuel (some oldBlock) []
      pure (old, oldChain, some newBlock, [])
    else do
      let (new, newChain) ← bc.reduce oldBlock.numberU64 fuel (some newBlock) []
      pure (some oldBlock, [], new, newChain)
  match oldBlock, newBlock with
  | none, _ => return .error .invalidOldChain
  | some _, none => return .error .invalidNewChain
  | some old, some new => bc.findCommon fuel old new oldChain newChain

/-- A block becomes canonical, with its transactions. -/
def adopt (bc : BlockChain) (block : Block) : BlockChain :=
  let bc := bc.insert block
  { bc with db := bc.db.writeTxLookupEntries block }

/-- The second half of `reorg`: the new branch becomes canonical, and the transactions that
    are only on the old branch are no longer found. -/
def switchTo (bc : BlockChain) (s : Split) : BlockChain :=
  let deletedTxs := s.oldChain.flatMap Block.transactions
  -- from the common block upwards
  let bc := s.newChain.foldr (fun block bc => bc.adopt block) bc
  let addedTxs := s.newChain.reverse.flatMap Block.transactions
  let diff := txDifference deletedTxs addedTxs
  { bc with db := diff.foldl (fun db tx => db.deleteTxLookupEntry tx.hash) bc.db }

def reorg (bc : BlockChain) (oldBlock newBlock : Block) :
    Except Fault (Option ChainError × BlockChain) := do
  match ← bc.split oldBlock newBlock with
  | .error err => return (some err, bc)
  | .ok s => return (none, bc.switchTo s)

/-! ### Writing blocks -/

/-- The part of `writeBlockWithState` that looks for a state to be written: the header that
    lies `triesInMemory` blocks back on the canonical chain. -/
def chooseHeader (bc : BlockChain) (cfg : ChainConfig) (block : Block) : Except Fault Unit :=
  if cfg.disabled then .ok ()
  else if block.numberU64 > triesInMemory then
    match bc.getHeaderByNumber (block.numberU64 - triesInMemory) with
    | none => .error .nilPointer
    | some _ => .ok ()
  else .ok ()

/-- The choice between the block and the current one. -/
def prefers (bc : BlockChain) (cfg : ChainConfig) (coin : Bool) (block : Block)
    (externTd localTd : ℤ) : Bool :=
  if localTd < externTd then true
  else if externTd = localTd then
    if block.numberU64 < bc.currentBlock.numberU64 then true
    else if block.numberU64 = bc.currentBlock.numberU64 then
      let (currentPreserve, blockPreserve) :=
        match cfg.shouldPreserve with
        | none => (false, false)
        | some f => (f bc.currentBlock, f block)
      !currentPreserve && (blockPreserve || coin)
    else false
  else false

def writeBlockWithoutState (bc : BlockChain) (block : Block) (td : ℤ) : BlockChain :=
  { bc with db := (bc.db.writeTd block.hash block.numberU64 td).writeBlock block }

/-- The block becomes the head, with its transactions. -/
def putHead (bc : BlockChain) (block : Block) : BlockChain :=
  { bc with db := bc.db.writeTxLookupEntries block }.insert block

/-- The reorganisation that is needed before a block becomes the head: none if it is put on
    the current one. -/
def reorgFor (bc : BlockChain) (block : Block) : Except Fault (Option ChainError × BlockChain) :=
  if block.parentHash ≠ bc.currentBlock.hash then bc.reorg bc.currentBlock block
  else .ok (none, bc)

/-- The end of `writeBlockWithState`, when the choice is made. -/
def finishWrite (bc : BlockChain) (answers : Answers) (block : Block) (reorg : Bool) :
    Except Fault (WriteStatus × Option ChainError × BlockChain) :=
  if reorg then do
    let (err, bc) ← bc.reorgFor block
    return if err.isSome then (.nonStatTy, err, bc)
      else if !answers.written then (.nonStatTy, some .other, bc)
      else (.canonStatTy, none, bc.putHead block)
  else
    return if !answers.written then (.nonStatTy, some .other, bc) else (.sideStatTy, none, bc)

def writeBlockWithState (bc : BlockChain) (cfg : ChainConfig) (answers : Answers) (block : Block) :
    Except Fault (WriteStatus × Option ChainError × BlockChain) := do
  let some ptd := bc.getTd block.parentHash (block.numberU64 - 1)
    | return (.nonStatTy, some .unknownAncestor, bc)
  let localTd := bc.getTd bc.currentBlock.hash bc.currentBlock.numberU64
  let externTd := block.difficulty + ptd
  let bc := bc.writeBlockWithoutState block externTd
  if !answers.committed then return (.nonStatTy, some .other, bc)
  bc.chooseHeader cfg block
  let some localTd := localTd | .error .nilPointer
  bc.finishWrite answers block (bc.prefers cfg answers.coin block externTd localTd)

end BlockChain

end GoEthereum.Core
