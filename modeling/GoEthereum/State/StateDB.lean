/-
  The state database with its journal (core/state/statedb.go, core/state/journal.go).

  Getters load objects and slots on the way, so they return the state after them as
  well.  `none` stands for a panic.  A loop over a map goes through its keys in the
  order of the model's map; each round changes only what belongs to its key.
-/
import GoEthereum.State.Object

namespace GoEthereum.State

open GoEthereum.Rlp AssocMap

/-! ## The journal -/

structure Log where
  address : Address
  topics : List Word
  data : Bytes
  txHash : Word := 0
  blockHash : Word := 0
  txIndex : ℕ := 0
  index : ℕ := 0

inductive JournalEntry where
  | createObject (account : Address)
  | resetObject (account : Address) (prev : StateObject)
  | suicide (account : Address) (prev : Bool) (prevbalance : ℤ)
  | balance (account : Address) (prev : ℤ)
  | nonce (account : Address) (prev : UInt64)
  | storage (account : Address) (key prevalue : Word)
  | code (account : Address) (prevcode : Option Bytes) (prevhash : Word)
  | refund (prev : UInt64)
  | addLog (txhash : Word)
  | addPreimage (hash : Word)
  | touch (account : Address)

def JournalEntry.dirtied : JournalEntry → Option Address
  | .createObject account | .suicide account _ _ | .balance account _ | .nonce account _
  | .storage account _ _ | .code account _ _ | .touch account => some account
  | .resetObject _ _ | .refund _ | .addLog _ | .addPreimage _ => none

/-- `journal`; the last entry stands first. -/
structure Journal where
  entries : List JournalEntry := []
  dirties : AssocMap Address ℤ := .empty

namespace Journal

def dirty (j : Journal) (addr : Address) : Journal :=
  { j with dirties := j.dirties.set addr ((j.dirties.get addr).getD 0 + 1) }

def append (j : Journal) (entry : JournalEntry) : Journal :=
  let j := { j with entries := entry :: j.entries }
  match entry.dirtied with
  | none => j
  | some addr => j.dirty addr

/-- What the loop of `revert` does to the dirty accounts. -/
def undirty (j : Journal) (entry : JournalEntry) : Journal :=
  match entry.dirtied with
  | none => j
  | some addr =>
    let n := (j.dirties.get addr).getD 0 - 1
    { j with dirties := if n = 0 then j.dirties.erase addr else j.dirties.set addr n }

end Journal

def ripemd : Address := 3

/-! ## The state -/

structure Revision where
  id : ℕ
  journalIndex : ℕ

structure StateDB where
  db : Database
  trie : Accounts
  stateObjects : AssocMap Address StateObject := .empty
  stateObjectsDirty : AssocMap Address Unit := .empty
  refund : UInt64 := 0
  thash : Word := 0
  bhash : Word := 0
  txIndex : ℕ := 0
  logs : AssocMap Word (List Log) := .empty
  logSize : ℕ := 0
  preimages : AssocMap Word Bytes := .empty
  journal : Journal := {}
  validRevisions : List Revision := []
  nextRevisionId : ℕ := 0

def Database.openTrie (db : Database) (root : Word) : Option Accounts :=
  if root ≠ 0 ∧ root ≠ emptyRoot then db.state root else some fun _ => none

namespace StateDB

def new (root : Word) (db : Database) : Option StateDB :=
  (db.openTrie root).map fun trie => { db, trie }

section
variable (s : StateDB)

def clearJournalAndRefund : StateDB :=
  { s with journal := {}, validRevisions := [], refund := 0 }

/-- `Reset`; if the root cannot be opened, the error leaves the state as it is. -/
def reset (root : Word) : StateDB :=
  match s.db.openTrie root with
  | none => s
  | some trie => { db := s.db, trie, nextRevisionId := s.nextRevisionId }

def prepare (thash bhash : Word) (txIndex : ℕ) : StateDB := { s with thash, bhash, txIndex }

/-- A change that is entered in the journal. -/
def append (entry : JournalEntry) : StateDB := { s with journal := s.journal.append entry }

def setStateObject (addr : Address) (object : StateObject) : StateDB :=
  { s with stateObjects := s.stateObjects.set addr object }

def getStateObject (addr : Address) : Option StateObject × StateDB :=
  match s.stateObjects.get addr with
  | some obj => (if obj.deleted then none else some obj, s)
  | none =>
    match s.trie addr with
    | none => (none, s)
    | some data =>
      let obj := newObject data
      (some obj, s.setStateObject addr obj)

def createObject (addr : Address) : StateObject × Option StateObject × StateDB :=
  let (prev, s) := s.getStateObject addr
  let newobj := (newObject {}).setNonce 0
  let s := match prev with
    | none => s.append (.createObject addr)
    | some prev => s.append (.resetObject addr prev)
  (newobj, prev, s.setStateObject addr newobj)

def getOrNewStateObject (addr : Address) : StateObject × StateDB :=
  match s.getStateObject addr with
  | (some obj, s) => (obj, s)
  | (none, s) =>
    let (newobj, _, s) := s.createObject addr
    (newobj, s)

end

/-! ### Getters -/

section
variable (s : StateDB) (addr : Address)

/-- A getter of a loaded object, and its result if there is none. -/
def getter {α : Type} (missing : α) (read : StateObject → α) : α × StateDB :=
  match s.getStateObject addr with
  | (none, s) => (missing, s)
  | (some obj, s) => (read obj, s)

def exist : Bool × StateDB := s.getter addr false fun _ => true

def empty : Bool × StateDB := s.getter addr true StateObject.empty

def getBalance : ℤ × StateDB := s.getter addr 0 fun obj => obj.data.balance

def getNonce : UInt64 × StateDB := s.getter addr 0 fun obj => obj.data.nonce

def getCodeHash : Word × StateDB := s.getter addr 0 fun obj => obj.data.codeHash

def hasSuicided : Bool × StateDB := s.getter addr false fun obj => obj.suicided

def getCodeSize : ℕ × StateDB := s.getter addr 0 fun obj =>
  match obj.code with
  | some code => code.length
  | none => ((s.db.code obj.data.codeHash).getD []).length

/-- A getter that loads a part of the object. -/
def loader {α : Type} (missing : α) (read : StateObject → α × StateObject) : α × StateDB :=
  match s.getStateObject addr with
  | (none, s) => (missing, s)
  | (some obj, s) =>
    let (value, obj) := read obj
    (value, s.setStateObject addr obj)

def getCode : Option Bytes × StateDB := s.loader addr none fun obj => obj.loadCode s.db

def getState (key : Word) : Word × StateDB := s.loader addr 0 fun obj => obj.getState s.db key

def getCommittedState (key : Word) : Word × StateDB :=
  s.loader addr 0 fun obj => obj.getCommittedState s.db key

end

/-! ### Setters -/

section
variable (s : StateDB) (addr : Address)

/-- `SetBalance` of an object. -/
def objectSetBalance (obj : StateObject) (amount : ℤ) : StateDB :=
  (s.append (.balance addr obj.data.balance)).setStateObject addr (obj.setBalance amount)

def touch : StateDB :=
  let s := s.append (.touch addr)
  if addr = ripemd then { s with journal := s.journal.dirty addr } else s

def addBalance (amount : ℤ) : StateDB :=
  let (obj, s) := s.getOrNewStateObject addr
  if amount = 0 then
    if obj.empty then s.touch addr else s
  else s.objectSetBalance addr obj (obj.data.balance + amount)

def subBalance (amount : ℤ) : StateDB :=
  let (obj, s) := s.getOrNewStateObject addr
  if amount = 0 then s else s.objectSetBalance addr obj (obj.data.balance - amount)

def setBalance (amount : ℤ) : StateDB :=
  let (obj, s) := s.getOrNewStateObject addr
  s.objectSetBalance addr obj amount

def setNonce (nonce : UInt64) : StateDB :=
  let (obj, s) := s.getOrNewStateObject addr
  (s.append (.nonce addr obj.data.nonce)).setStateObject addr (obj.setNonce nonce)

def setCode (H : Hashing) (code : Option Bytes) : StateDB :=
  let (obj, s) := s.getOrNewStateObject addr
  let (prevcode, obj) := obj.loadCode s.db
  (s.append (.code addr prevcode obj.data.codeHash)).setStateObject addr
    (obj.setCode (H.keccak (code.getD [])) code)

def setState (key value : Word) : StateDB :=
  let (obj, s) := s.getOrNewStateObject addr
  let (prev, obj) := obj.getState s.db key
  if prev = value then s.setStateObject addr obj
  else (s.append (.storage addr key prev)).setStateObject addr (obj.setState key value)

def createAccount : StateDB :=
  let (newObj, prev, s) := s.createObject addr
  match prev with
  | none => s
  | some prev => s.setStateObject addr (newObj.setBalance prev.data.balance)

def suicide : Bool × StateDB :=
  match s.getStateObject addr with
  | (none, s) => (false, s)
  | (some obj, s) =>
    let s := s.append (.suicide addr obj.suicided obj.data.balance)
    (true, s.setStateObject addr { obj.setBalance 0 with suicided := true })

def addRefund (gas : UInt64) : StateDB :=
  { s.append (.refund s.refund) with refund := s.refund + gas }

def subRefund (gas : UInt64) : Option StateDB :=
  if gas > s.refund then none
  else some { s.append (.refund s.refund) with refund := s.refund - gas }

def getLogs (hash : Word) : List Log := (s.logs.get hash).getD []

def addLog (log : Log) : StateDB :=
  let log := { log with
    txHash := s.thash, blockHash := s.bhash, txIndex := s.txIndex, index := s.logSize }
  { s.append (.addLog s.thash) with
    logs := s.logs.set s.thash (s.getLogs s.thash ++ [log]), logSize := s.logSize + 1 }

def addPreimage (hash : Word) (preimage : Bytes) : StateDB :=
  if s.preimages.has hash then s
  else { s.append (.addPreimage hash) with preimages := s.preimages.set hash preimage }

end

/-! ### Snapshots -/

/-- Undoing a change of an account that is there, or a panic. -/
def revertObject (s : StateDB) (addr : Address) (undo : StateObject → StateObject) :
    Option StateDB :=
  match s.getStateObject addr with
  | (none, _) => none
  | (some obj, s) => some (s.setStateObject addr (undo obj))

/-- `revert` of an entry. -/
def revertEntry (s : StateDB) : JournalEntry → Option StateDB
  | .createObject account => some { s with
      stateObjects := s.stateObjects.erase account
      stateObjectsDirty := s.stateObjectsDirty.erase account }
  | .resetObject account prev => some (s.setStateObject account prev)
  | .suicide account prev prevbalance =>
    match s.getStateObject account with
    | (none, s) => some s
    | (some obj, s) =>
      some (s.setStateObject account { obj.setBalance prevbalance with suicided := prev })
  | .balance account prev => s.revertObject account fun obj => obj.setBalance prev
  | .nonce account prev => s.revertObject account fun obj => obj.setNonce prev
  | .storage account key prevalue => s.revertObject account fun obj => obj.setState key prevalue
  | .code account prevcode prevhash => s.revertObject account fun obj => obj.setCode prevhash prevcode
  | .refund prev => some { s with refund := prev }
  | .addLog txhash =>
    if s.getLogs txhash = [] then none
    else some { s with
      logs := if (s.getLogs txhash).length = 1 then s.logs.erase txhash
        else s.logs.set txhash (s.getLogs txhash).dropLast
      logSize := s.logSize - 1 }
  | .addPreimage hash => some { s with preimages := s.preimages.erase hash }
  | .touch _ => some s

/-- The loop of `revert` of the journal. -/
def revertEntries : List JournalEntry → StateDB → Option StateDB
  | [], s => some s
  | e :: es, s =>
    match s.revertEntry e with
    | none => none
    | some s => revertEntries es { s with journal := s.journal.undirty e }

/-- `revert` of the journal. -/
def revertJournal (s : StateDB) (snapshot : ℕ) : Option StateDB :=
  let n := s.journal.entries.length - snapshot
  (revertEntries (s.journal.entries.take n) s).map fun s =>
    { s with journal := { s.journal with entries := s.journal.entries.drop n } }

def snapshot (s : StateDB) : ℕ × StateDB :=
  (s.nextRevisionId, { s with
    nextRevisionId := s.nextRevisionId + 1
    validRevisions := s.validRevisions ++ [⟨s.nextRevisionId, s.journal.entries.length⟩] })

def revertToSnapshot (s : StateDB) (revid : ℕ) : Option StateDB :=
  let idx := s.validRevisions.findIdx fun r => revid ≤ r.id
  match s.validRevisions[idx]? with
  | none => none
  | some r =>
    if r.id ≠ revid then none
    else (s.revertJournal r.journalIndex).map fun s =>
      { s with validRevisions := s.validRevisions.take idx }

/-! ### Writing the state -/

section
variable (H : Hashing)

/-- `updateStateObject`; a negative balance has no encoding. -/
def updateStateObject (s : StateDB) (addr : Address) (obj : StateObject) : Option StateDB :=
  if obj.data.balance < 0 then none
  else some { s with trie := Function.update s.trie addr (some obj.data) }

def deleteStateObject (s : StateDB) (addr : Address) (obj : StateObject) : StateDB :=
  { s.setStateObject addr { obj with deleted := true } with
    trie := Function.update s.trie addr none }

/-- The loop body of `Finalise`. -/
def finaliseAccount (deleteEmptyObjects : Bool) (s : StateDB) (addr : Address) : Option StateDB :=
  match s.stateObjects.get addr with
  | none => some s
  | some obj =>
    let s := { s with stateObjectsDirty := s.stateObjectsDirty.set addr () }
    if obj.suicided || (deleteEmptyObjects && obj.empty) then some (s.deleteStateObject addr obj)
    else
      let obj := obj.updateRoot s.db H
      (s.setStateObject addr obj).updateStateObject addr obj

def finalise (s : StateDB) (deleteEmptyObjects : Bool) : Option StateDB :=
  (s.journal.dirties.keys.foldlM (finaliseAccount H deleteEmptyObjects) s).map
    clearJournalAndRefund

def intermediateRoot (s : StateDB) (deleteEmptyObjects : Bool) : Option (Word × StateDB) :=
  (s.finalise H deleteEmptyObjects).map fun s => (H.stateRoot s.trie, s)

/-- A node under its hash; what is there stays. -/
def insertAt {α : Type} (m : Word → Option α) (hash : Word) (a : α) : Word → Option α :=
  Function.update m hash (some ((m hash).getD a))

/-- The code of an object is stored. -/
def commitCode (db : Database) (obj : StateObject) : Database × StateObject :=
  match obj.code with
  | none => (db, obj)
  | some code =>
    if obj.dirtyCode then
      ({ db with code := insertAt db.code obj.data.codeHash code }, { obj with dirtyCode := false })
    else (db, obj)

def commitTrie (db : Database) (obj : StateObject) : Database × StateObject :=
  let obj := obj.updateRoot db H
  ({ db with storage := insertAt db.storage obj.data.root (obj.getTrie db).1 }, obj)

/-- The loop body of `Commit`. -/
def commitAccount (deleteEmptyObjects : Bool) (s : StateDB) (addr : Address) : Option StateDB :=
  match s.stateObjects.get addr with
  | none => some s
  | some obj =>
    let isDirty := s.stateObjectsDirty.has addr
    let s := { s with stateObjectsDirty := s.stateObjectsDirty.erase addr }
    if obj.suicided || (isDirty && deleteEmptyObjects && obj.empty) then
      some (s.deleteStateObject addr obj)
    else if isDirty then
      let (db, obj) := commitCode s.db obj
      let (db, obj) := commitTrie H db obj
      ({ s with db }.setStateObject addr obj).updateStateObject addr obj
    else some s

def commit (s : StateDB) (deleteEmptyObjects : Bool) : Option (Word × StateDB) :=
  let s := { s with stateObjectsDirty :=
    s.journal.dirties.keys.foldl (fun m addr => m.set addr ()) s.stateObjectsDirty }
  (s.stateObjects.keys.foldlM (commitAccount H deleteEmptyObjects) s).map fun s =>
    let root := H.stateRoot s.trie
    (root, { s with
      db := { s.db with state := insertAt s.db.state root s.trie } }.clearJournalAndRefund)

end

/-! ### Copies -/

/-- An object is copied and dirty in the copy. -/
def copyObject (state : StateDB) (addr : Address) (object : StateObject) : StateDB :=
  { state with
    stateObjects := state.stateObjects.set addr object.deepCopy
    stateObjectsDirty := state.stateObjectsDirty.set addr () }

/-- The body of the first loop of `Copy`. -/
def copyJournaled (s state : StateDB) (addr : Address) : StateDB :=
  match s.stateObjects.get addr with
  | none => state
  | some object => state.copyObject addr object

/-- The body of the second loop of `Copy`; copying `nil` panics. -/
def copyDirty (s state : StateDB) (addr : Address) : Option StateDB :=
  if state.stateObjects.has addr then some state
  else (s.stateObjects.get addr).map (state.copyObject addr)

/-- The copy before its objects. -/
def copyBare (s : StateDB) : StateDB where
  db := s.db
  trie := s.trie
  refund := s.refund
  logs := s.logs
  logSize := s.logSize
  preimages := s.preimages

def copy (s : StateDB) : Option StateDB :=
  let state := s.journal.dirties.keys.foldl (copyJournaled s) s.copyBare
  s.stateObjectsDirty.keys.foldlM (copyDirty s) state

end StateDB

end GoEthereum.State
