/-
  State objects (core/state/state_object.go) over the tries of the state.

  A trie is what it maps: by `Trie.tryGet_run` and `Trie.hash_eq_of_content` this is all
  that can be seen of it.  A storage trie maps slots to words, and a slot that is not
  there is zero; the trie of the state maps addresses to accounts.  `Hashing` has the
  hashes of tries as functions of what they map.  An object is stored under its
  address, so it does not carry the address itself.
-/
import GoEthereum.Common
import GoEthereum.Lib.AssocMap

namespace GoEthereum.State

open GoEthereum.Rlp AssocMap

/-- The slots of a contract. -/
abbrev Storage := Word → Word

/-- The hash of no code. -/
def emptyCodeHash : Word := 0xc5d2460186f7233c927e7db2dcc703c0e500b653ca82273b7bfad8045d85a470

/-- The hash of the empty trie. -/
def emptyRoot : Word := 0x56e81f171bcc55a6ff8345e692c0f86e5b48e01b996cadc001622fb5e363b421

structure Account where
  nonce : UInt64 := 0
  balance : ℤ := 0
  root : Word := 0
  codeHash : Word := emptyCodeHash
  deriving DecidableEq

/-- What the trie of the state maps. -/
abbrev Accounts := Address → Option Account

/-- The hash function and the hashes of tries. -/
structure Hashing where
  keccak : Bytes → Word
  storageRoot : Storage → Word
  stateRoot : Accounts → Word

/-- The tries and codes under their hashes. -/
structure Database where
  state : Word → Option Accounts
  storage : Word → Option Storage
  code : Word → Option Bytes

namespace Database

/-- `OpenStorageTrie`, or an empty trie if there is none with the root. -/
def openStorage (db : Database) (root : Word) : Storage :=
  if root ≠ 0 ∧ root ≠ emptyRoot then (db.storage root).getD fun _ => 0 else fun _ => 0

end Database

structure StateObject where
  data : Account
  trie : Option Storage := none
  code : Option Bytes := none
  originStorage : AssocMap Word Word := .empty
  dirtyStorage : AssocMap Word Word := .empty
  dirtyCode : Bool := false
  suicided : Bool := false
  deleted : Bool := false

def newObject (data : Account) : StateObject := { data }

namespace StateObject

def empty (o : StateObject) : Bool :=
  o.data.nonce == 0 && o.data.balance == 0 && o.data.codeHash == emptyCodeHash

section
variable (o : StateObject) (db : Database)

def getTrie : Storage × StateObject :=
  match o.trie with
  | some tr => (tr, o)
  | none =>
    let tr := db.openStorage o.data.root
    (tr, { o with trie := some tr })

def getCommittedState (key : Word) : Word × StateObject :=
  match o.originStorage.get key with
  | some value => (value, o)
  | none =>
    let (tr, o) := o.getTrie db
    let value := tr key
    (value, { o with originStorage := o.originStorage.set key value })

def getState (key : Word) : Word × StateObject :=
  match o.dirtyStorage.get key with
  | some value => (value, o)
  | none => o.getCommittedState db key

def setState (key value : Word) : StateObject :=
  { o with dirtyStorage := o.dirtyStorage.set key value }

/-- `Code` -/
def loadCode : Option Bytes × StateObject :=
  match o.code with
  | some code => (some code, o)
  | none =>
    if o.data.codeHash = emptyCodeHash then (none, o)
    else
      let code := db.code o.data.codeHash
      (code, { o with code })

def setCode (codeHash : Word) (code : Option Bytes) : StateObject :=
  { o with code, data := { o.data with codeHash }, dirtyCode := true }

def setBalance (balance : ℤ) : StateObject := { o with data := { o.data with balance } }

def setNonce (nonce : UInt64) : StateObject := { o with data := { o.data with nonce } }

/-- The loop body of `updateTrie`; a slot that is set to zero is deleted. -/
def updateSlot (o : StateObject) (key : Word) : StateObject :=
  match o.dirtyStorage.get key with
  | none => o
  | some value =>
    let o := { o with dirtyStorage := o.dirtyStorage.erase key }
    if value = (o.originStorage.get key).getD 0 then o
    else { o with
      originStorage := o.originStorage.set key value
      trie := o.trie.map fun tr => Function.update tr key value }

def updateTrie : StateObject :=
  let (_, o) := o.getTrie db
  o.dirtyStorage.keys.foldl updateSlot o

def updateRoot (H : Hashing) : StateObject :=
  let o := o.updateTrie db
  { o with data := { o.data with root := H.storageRoot (o.getTrie db).1 } }

def deepCopy : StateObject :=
  { newObject o.data with
    trie := o.trie
    code := o.code
    dirtyStorage := o.dirtyStorage
    originStorage := o.originStorage
    suicided := o.suicided
    dirtyCode := o.dirtyCode
    deleted := o.deleted }

end

end StateObject

end GoEthereum.State
