/-
  Snapshots of the signers, their votes and their recent blocks (consensus/clique).

  The recovery of a signer is an argument (`Config.ecrecover`), since the cache of signatures
  returns what was recovered before.  Block numbers are below 2^64; the unsigned subtraction of
  `verifySeal` is the one that can wrap.
-/
import Mathlib.Data.Finset.Sort
import Mathlib.Data.BitVec
import GoEthereum.Lib.AssocMap
import GoEthereum.Core.Types

namespace GoEthereum.Clique

open GoEthereum.Core

/-- The errors of the engine. -/
inductive CliqueError where
  | unknownBlock
  | invalidVote
  | missingSignature
  | invalidVotingChain
  | unauthorizedSigner
  | recentlySigned
  | wrongDifficulty
  | unknownAncestor
  | crypto
deriving DecidableEq

/-- `CliqueConfig`, with the recovery of signers.  `New` replaces an epoch of 0. -/
structure Config where
  epoch : ℕ
  epoch_pos : 0 < epoch
  period : ℕ := 0
  ecrecover : Header → Except CliqueError Address
  fakeDiff : Bool := false

structure Vote where
  signer : Address
  block : ℕ
  address : Address
  authorize : Bool
deriving DecidableEq

structure Tally where
  authorize : Bool
  votes : ℕ
deriving DecidableEq

/-- The part of a snapshot that headers change. -/
structure Board where
  signers : Finset Address
  recents : AssocMap ℕ Address
  votes : List Vote
  tally : AssocMap Address Tally

structure Snapshot extends Board where
  number : ℕ
  hash : Word

def newSnapshot (number : ℕ) (hash : Word) (signers : List Address) : Snapshot where
  number
  hash
  signers := signers.toFinset
  recents := .empty
  votes := []
  tally := .empty

namespace Board

variable (s : Board)

/-- The number of blocks in which a signer can sign once. -/
def limit : ℕ := s.signers.card / 2 + 1

/-! ## Votes -/

def validVote (address : Address) (authorize : Bool) : Bool :=
  (decide (address ∈ s.signers) && !authorize) || (decide (address ∉ s.signers) && authorize)

def cast (address : Address) (authorize : Bool) : Bool × Board :=
  if !s.validVote address authorize then (false, s)
  else
    let tally := match s.tally.get address with
      | some old => { old with votes := old.votes + 1 }
      | none => { authorize, votes := 1 }
    (true, { s with tally := s.tally.set address tally })

end Board

def uncast (tally : AssocMap Address Tally) (address : Address) (authorize : Bool) :
    AssocMap Address Tally :=
  match tally.get address with
  | none => tally
  | some t =>
    if t.authorize ≠ authorize then tally
    else if t.votes > 1 then tally.set address { t with votes := t.votes - 1 }
    else tally.erase address

/-- The loop that drops the votes of a signer. -/
def dropVotes (signer : Address) : List Vote → AssocMap Address Tally →
    List Vote × AssocMap Address Tally
  | [], tally => ([], tally)
  | vote :: votes, tally =>
    if vote.signer = signer then dropVotes signer votes (uncast tally vote.address vote.authorize)
    else
      let (votes, tally) := dropVotes signer votes tally
      (vote :: votes, tally)

namespace Board

variable (s : Board)

/-! ## Applying headers -/

/-- On a checkpoint block, all votes are dropped. -/
def resetVotes (epoch number : ℕ) : Board :=
  if number % epoch = 0 then { s with votes := [], tally := .empty } else s

/-- The oldest signer may sign again. -/
def forget (number : ℕ) : Board :=
  if number ≥ s.limit then { s with recents := s.recents.erase (number - s.limit) } else s

/-- The earlier vote of the signer is discarded. -/
def discard (signer address : Address) : Board :=
  match s.votes.find? fun vote => vote.signer = signer ∧ vote.address = address with
  | none => s
  | some vote => { s with
      tally := uncast s.tally vote.address vote.authorize
      votes := s.votes.eraseP fun vote => vote.signer = signer ∧ vote.address = address }

/-- The vote of the signer is counted. -/
def record (signer : Address) (number : ℕ) (address : Address) (authorize : Bool) : Board :=
  let (counted, s) := s.cast address authorize
  if counted then { s with votes := s.votes ++ [{ signer, block := number, address, authorize }] }
  else s

/-- A signer leaves. -/
def deauthorize (number : ℕ) (address : Address) : Board :=
  let s := { s with signers := s.signers.erase address }.forget number
  let (votes, tally) := dropVotes address s.votes s.tally
  { s with votes, tally }

/-- If the vote passed, the list of signers is updated. -/
def decideVote (number : ℕ) (address : Address) : Board :=
  let tally := (s.tally.get address).getD ⟨false, 0⟩
  if tally.votes > s.signers.card / 2 then
    let s := if tally.authorize then { s with signers := insert address s.signers }
      else s.deauthorize number address
    { s with
      votes := s.votes.filter fun vote => vote.address ≠ address
      tally := s.tally.erase address }
  else s

/-- The vote in the nonce of a header. -/
def voteOf (header : Header) : Except CliqueError Bool :=
  if header.nonce = 0xffffffffffffffff then .ok true
  else if header.nonce = 0 then .ok false
  else .error .invalidVote

/-- The loop body of `apply`. -/
def applyHeader (config : Config) (header : Header) : Except CliqueError Board := do
  let number := header.number
  let s := (s.resetVotes config.epoch number).forget number
  let signer ← config.ecrecover header
  if signer ∉ s.signers then .error .unauthorizedSigner
  else if ∃ k ∈ s.recents.keys, s.recents.get k = some signer then .error .recentlySigned
  else
    let s := { s with recents := s.recents.set number signer }.discard signer header.coinbase
    let authorize ← voteOf header
    return (s.record signer number header.coinbase authorize).decideVote number header.coinbase

end Board

/-- The headers have consecutive numbers. -/
def consecutive : List Header → Bool
  | h :: h' :: headers => h'.number = h.number + 1 && consecutive (h' :: headers)
  | _ => true

namespace Snapshot

variable (s : Snapshot)

/-- `copy`: the maps are filled anew. -/
def copy : Snapshot where
  number := s.number
  hash := s.hash
  signers := s.signers.image id
  recents := .ofList s.recents.toList
  votes := s.votes
  tally := .ofList s.tally.toList

theorem copy_eq : s.copy = s := by
  simp only [copy, Finset.image_id, AssocMap.ofList_toList]

def apply (config : Config) (headers : List Header) : Except CliqueError Snapshot :=
  match headers with
  | [] => .ok s
  | h :: rest =>
    if ¬ consecutive (h :: rest) then .error .invalidVotingChain
    else if h.number ≠ s.number + 1 then .error .invalidVotingChain
    else do
      let snap := s.copy
      let board ← (h :: rest).foldlM (fun board header => board.applyHeader config header)
        snap.toBoard
      return { board with
        number := snap.number + (h :: rest).length
        hash := ((h :: rest).getLast (List.cons_ne_nil h rest)).hash }

theorem apply_cons (config : Config) (h : Header) (rest : List Header) :
    s.apply config (h :: rest) =
      if ¬ consecutive (h :: rest) then .error .invalidVotingChain
      else if h.number ≠ s.number + 1 then .error .invalidVotingChain
      else do
        let board ← (h :: rest).foldlM (fun board header => board.applyHeader config header)
          s.toBoard
        return { board with
          number := s.number + (h :: rest).length
          hash := ((h :: rest).getLast (List.cons_ne_nil h rest)).hash } := by
  rw [apply, copy_eq]

/-! ## Turns -/

/-- `signers` -/
def sortedSigners : List Address := s.signers.sort (· ≤ ·)

def inturn (number : ℕ) (signer : Address) : Bool :=
  number % s.sortedSigners.length = s.sortedSigners.idxOf signer

end Snapshot

/-! ## Seals -/

/-- Subtraction on 64 bits. -/
def sub64 (a b : ℕ) : ℕ := (a + (2 ^ 64 - b % 2 ^ 64)) % 2 ^ 64

/-- The checks of the signer of a header in `verifySeal`. -/
def verifySigner (config : Config) (snap : Snapshot) (header : Header) :
    Except CliqueError Address := do
  let signer ← config.ecrecover header
  if signer ∉ snap.signers then .error .unauthorizedSigner
  else if ∃ seen ∈ snap.recents.keys, snap.recents.get seen = some signer ∧
      seen > sub64 header.number snap.limit then .error .recentlySigned
  else return signer

def diffInTurn : ℤ := 2
def diffNoTurn : ℤ := 1

/-- `verifySeal`, with the snapshot of the parent. -/
def verifySeal (config : Config) (snap : Snapshot) (header : Header) : Except CliqueError Unit :=
  if header.number = 0 then .error .unknownBlock
  else do
    let signer ← verifySigner config snap header
    if config.fakeDiff then return ()
    else if header.difficulty = (if snap.inturn header.number signer then diffInTurn else diffNoTurn)
    then return () else .error .wrongDifficulty

/-- What `Seal` does with a block. -/
inductive Sealing where
  | failed (err : CliqueError)
  | paused
  | signedRecently
  | signs
deriving DecidableEq

/-- `seal`, with the snapshot of the parent and the local signer. -/
def sealBlock (config : Config) (snap : Snapshot) (signer : Address) (block : Block) : Sealing :=
  if block.number = 0 then .failed .unknownBlock
  else if config.period = 0 ∧ block.transactions = [] then .paused
  else if signer ∉ snap.signers then .failed .unauthorizedSigner
  else if ∃ seen ∈ snap.recents.keys, snap.recents.get seen = some signer ∧
      (block.number < snap.limit ∨ seen > sub64 block.number snap.limit) then .signedRecently
  else .signs

end GoEthereum.Clique
