/-
  The rules of the engine (consensus/ethash/consensus.go, consensus/misc).

  Headers, uncles and rewards.  The proof of work is an argument (`Engine.pow`), as are the
  clock and the engine of a shared proof of work.
-/
import GoEthereum.Core.Types
import GoEthereum.State.StateDB

namespace GoEthereum.Ethash

open GoEthereum.Core GoEthereum.Rlp

/-! ## Configuration -/

structure ChainConfig where
  homesteadBlock : Option ℕ := none
  daoForkBlock : Option ℕ := none
  daoForkSupport : Bool := false
  eip150Block : Option ℕ := none
  eip150Hash : Word := 0
  byzantiumBlock : Option ℕ := none
  constantinopleBlock : Option ℕ := none

def isForked (fork : Option ℕ) (head : ℕ) : Bool := fork.any (· ≤ head)

namespace ChainConfig

variable (config : ChainConfig) (num : ℕ)

def isHomestead : Bool := isForked config.homesteadBlock num

def isByzantium : Bool := isForked config.byzantiumBlock num

def isConstantinople : Bool := isForked config.constantinopleBlock num

end ChainConfig

/-! ## Difficulty -/

def difficultyBoundDivisor : ℤ := 2048
def minimumDifficulty : ℤ := 131072
def durationLimit : ℤ := 13
def expDiffPeriod : ℕ := 100000

/-- The exponential factor of a period. -/
def bomb (periodCount : ℕ) : ℤ := if periodCount > 1 then 2 ^ (periodCount - 2) else 0

def emptyUncleHash : Word := 0x1dcc4de8dec75d7aab85b567b6ccd41ad312451b948a7413f0a142fd40d49347

/-- The difficulty before the exponential factor, for the adjustment `x` of the parent. -/
def adjusted (parent : Header) (x : ℤ) : ℤ :=
  max (parent.difficulty + parent.difficulty / difficultyBoundDivisor * max x (-99)) minimumDifficulty

def makeDifficultyCalculator (bombDelay : ℕ) (time : UInt64) (parent : Header) : ℤ :=
  let x : ℤ := (time.toNat - parent.time) / 9
  let x := if parent.uncleHash = emptyUncleHash then 1 - x else 2 - x
  let fakeBlockNumber := if parent.number ≥ bombDelay - 1 then parent.number - (bombDelay - 1) else 0
  adjusted parent x + bomb (fakeBlockNumber / expDiffPeriod)

def calcDifficultyConstantinople : UInt64 → Header → ℤ := makeDifficultyCalculator 5000000

def calcDifficultyByzantium : UInt64 → Header → ℤ := makeDifficultyCalculator 3000000

def calcDifficultyHomestead (time : UInt64) (parent : Header) : ℤ :=
  adjusted parent (1 - (time.toNat - parent.time) / 10) + bomb ((parent.number + 1) / expDiffPeriod)

def calcDifficultyFrontier (time : UInt64) (parent : Header) : ℤ :=
  let adjust := parent.difficulty / difficultyBoundDivisor
  let diff := if (time.toNat : ℤ) - parent.time < durationLimit then parent.difficulty + adjust
    else parent.difficulty - adjust
  let diff := max diff minimumDifficulty
  let periodCount := (parent.number + 1) / expDiffPeriod
  if periodCount > 1 then max (diff + bomb periodCount) minimumDifficulty else diff

def calcDifficulty (config : ChainConfig) (time : UInt64) (parent : Header) : ℤ :=
  let next := parent.number + 1
  if config.isConstantinople next then calcDifficultyConstantinople time parent
  else if config.isByzantium next then calcDifficultyByzantium time parent
  else if config.isHomestead next then calcDifficultyHomestead time parent
  else calcDifficultyFrontier time parent

/-! ## Headers -/

/-- The errors of the engine. -/
inductive VerifyError where
  | extraTooLong (length : ℕ)
  | largeBlockTime
  | futureBlock
  | zeroBlockTime
  | difficulty (given expected : ℤ)
  | gasLimitCap (given : UInt64)
  | gasUsed (used limit : UInt64)
  | gasLimit (given parent bound : UInt64)
  | invalidNumber
  | invalidDifficulty
  | invalidMixDigest
  | invalidPoW
  | badProDAOExtra
  | badNoDAOExtra
  | forkHash (given expected : Word)
  | tooManyUncles
  | duplicateUncle
  | uncleIsAncestor
  | danglingUncle
deriving DecidableEq

/-- A check that fails with an error. -/
def ensure (holds : Prop) [Decidable holds] (err : VerifyError) : Except VerifyError Unit :=
  if holds then .ok () else .error err

inductive Mode where
  | normal
  | shared
  | test
  | fake
  | fullFake
deriving DecidableEq

/-- `Ethash`, with the configuration and the clock it reads. -/
structure Engine where
  powMode : Mode
  fakeFail : UInt64 := 0
  /-- The engine of a shared proof of work. -/
  sharedSeal : Option (Header → Except VerifyError Unit) := none
  /-- The digest and the value of the proof of work of a header. -/
  pow : Header → Word × ℕ
  config : ChainConfig := {}
  now : ℕ := 0

def maximumExtraDataSize : ℕ := 32
def allowedFutureBlockTime : ℕ := 15
def gasLimitBoundDivisor : UInt64 := 1024
def minGasLimit : UInt64 := 5000
def maxUncles : ℕ := 2

def daoForkBlockExtra : Bytes :=
  [0x64, 0x61, 0x6f, 0x2d, 0x68, 0x61, 0x72, 0x64, 0x2d, 0x66, 0x6f, 0x72, 0x6b]

def daoForkExtraRange : ℕ := 10

def verifyDAOHeaderExtraData (config : ChainConfig) (header : Header) : Except VerifyError Unit :=
  match config.daoForkBlock with
  | none => .ok ()
  | some fork =>
    if header.number < fork ∨ header.number ≥ fork + daoForkExtraRange then .ok ()
    else if config.daoForkSupport then
      if header.extra = daoForkBlockExtra then .ok () else .error .badProDAOExtra
    else if header.extra = daoForkBlockExtra then .error .badNoDAOExtra else .ok ()

def verifyForkHashes (config : ChainConfig) (header : Header) (uncle : Bool) :
    Except VerifyError Unit :=
  if uncle then .ok ()
  else if config.eip150Block = some header.number ∧ config.eip150Hash ≠ 0 ∧
      config.eip150Hash ≠ header.hash then .error (.forkHash header.hash config.eip150Hash)
  else .ok ()

/-- The distance of two gas limits, computed on 64 bits. -/
def gasLimitDiff (parent header : Header) : UInt64 :=
  let diff := parent.gasLimit.toInt64 - header.gasLimit.toInt64
  (if diff < 0 then -diff else diff).toUInt64

namespace Engine

variable (e : Engine)

def verifySeal (header : Header) : Except VerifyError Unit :=
  if e.powMode = .fake ∨ e.powMode = .fullFake then
    if e.fakeFail = header.numberU64 then .error .invalidPoW else .ok ()
  else match e.sharedSeal with
    | some verify => verify header
    | none =>
      if header.difficulty ≤ 0 then .error .invalidDifficulty
      else if header.mixDigest ≠ (e.pow header).1 then .error .invalidMixDigest
      else if ((e.pow header).2 : ℤ) > 2 ^ 256 / header.difficulty then .error .invalidPoW
      else .ok ()

/-- The checks of the time of a header. -/
def verifyTime (header parent : Header) (uncle : Bool) : Except VerifyError Unit :=
  if uncle ∧ header.time > 2 ^ 256 - 1 then .error .largeBlockTime
  else if ¬ uncle ∧ header.time > e.now + allowedFutureBlockTime then .error .futureBlock
  else if header.time ≤ parent.time then .error .zeroBlockTime
  else .ok ()

/-- The checks of the gas of a header. -/
def verifyGas (header parent : Header) : Except VerifyError Unit :=
  if header.gasLimit > 0x7fffffffffffffff then .error (.gasLimitCap header.gasLimit)
  else if header.gasUsed > header.gasLimit then .error (.gasUsed header.gasUsed header.gasLimit)
  else if gasLimitDiff parent header ≥ parent.gasLimit / gasLimitBoundDivisor ∨
      header.gasLimit < minGasLimit then
    .error (.gasLimit header.gasLimit parent.gasLimit (parent.gasLimit / gasLimitBoundDivisor))
  else .ok ()

def verifyHeader (header parent : Header) (uncle withSeal : Bool) : Except VerifyError Unit := do
  ensure (header.extra.length ≤ maximumExtraDataSize) (.extraTooLong header.extra.length)
  e.verifyTime header parent uncle
  let expected := calcDifficulty e.config (.ofNat header.time) parent
  ensure (expected = header.difficulty) (.difficulty header.difficulty expected)
  verifyGas header parent
  ensure (header.number = parent.number + 1) .invalidNumber
  if withSeal then e.verifySeal header else .ok ()
  verifyDAOHeaderExtraData e.config header
  verifyForkHashes e.config header uncle

/-! ## Uncles -/

/-- The ancestors of a block and their uncles, over `n` generations. -/
def collect (getBlock : Word → UInt64 → Option Block) : ℕ → Word → UInt64 →
    AssocMap Word Header × List Word → AssocMap Word Header × List Word
  | 0, _, _, seen => seen
  | n + 1, parent, number, seen => match getBlock parent number with
    | none => seen
    | some ancestor => collect getBlock n ancestor.parentHash (number - 1)
        (seen.1.set ancestor.hash ancestor.header, ancestor.uncles.map Header.hash ++ seen.2)

/-- The check of one uncle; the hashes are those of the uncles so far. -/
def verifyUncle (block : Block) (ancestors : AssocMap Word Header) (uncles : List Word)
    (uncle : Header) : Except VerifyError (List Word) :=
  if uncle.hash ∈ uncles then .error .duplicateUncle
  else if (ancestors.get uncle.hash).isSome then .error .uncleIsAncestor
  else match ancestors.get uncle.parentHash with
    | none => .error .danglingUncle
    | some parent =>
      if uncle.parentHash = block.parentHash then .error .danglingUncle
      else do
        e.verifyHeader uncle parent true true
        return uncle.hash :: uncles

def verifyUncles (getBlock : Word → UInt64 → Option Block) (block : Block) :
    Except VerifyError Unit :=
  if e.powMode = .fullFake then .ok ()
  else if block.uncles.length > maxUncles then .error .tooManyUncles
  else do
    let seen := collect getBlock 7 block.parentHash (block.numberU64 - 1) (.empty, [])
    let ancestors := seen.1.set block.hash block.header
    let _ ← block.uncles.foldlM (e.verifyUncle block ancestors) (block.hash :: seen.2)

end Engine

/-! ## Rewards -/

def frontierBlockReward : ℤ := 5 * 10 ^ 18
def byzantiumBlockReward : ℤ := 3 * 10 ^ 18
def constantinopleBlockReward : ℤ := 2 * 10 ^ 18

/-- The reward of a block. -/
def blockReward (config : ChainConfig) (number : ℕ) : ℤ :=
  if config.isConstantinople number then constantinopleBlockReward
  else if config.isByzantium number then byzantiumBlockReward
  else frontierBlockReward

/-- The reward of an uncle. -/
def uncleReward (config : ChainConfig) (header uncle : Header) : ℤ :=
  (uncle.number + 8 - header.number) * blockReward config header.number / 8

/-- The amounts that `accumulateRewards` pays, in their order. -/
def rewards (config : ChainConfig) (header : Header) (uncles : List Header) : List (Address × ℤ) :=
  let reward := blockReward config header.number
  uncles.map (fun uncle => (uncle.coinbase, uncleReward config header uncle)) ++
    [(header.coinbase, reward + uncles.length * (reward / 32))]

end GoEthereum.Ethash
