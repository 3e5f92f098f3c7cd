/-
  Hashing of the trie (`trie/hasher.go`).

  `hash` replaces a node by its hash, or keeps it if its encoding is shorter than a
  hash, and returns the node with the hash cached in it.  With a database it also
  stores the nodes and unloads old ones from memory.

  Keccak-256 is a parameter.  None of the functions ever returns an error; no result
  is a panic.
-/
import GoEthereum.Trie.Database

namespace GoEthereum.Trie

open GoEthereum.Rlp

/-- `LeafCallback`, as far as it changes the database. -/
abbrev LeafCallback := Bytes → Hash → Database → Option Database

/-- `hasher` without its buffers; `keccak` is what the field `sha` computes. -/
structure Hasher where
  keccak : Bytes → Hash
  cachegen : UInt16
  cachelimit : UInt16
  onleaf : Option LeafCallback

/-- The nibbles as the bytes they are. -/
def rawNibbles (key : Hex) : Bytes := key.map nib

/-- The type assertion `n.(hashNode)`. -/
def Node.hashOf {κ : Type} : Node κ → Option Hash
  | .hash h => some h
  | _ => none

/-- The type assertion `n.(valueNode)`. -/
def Node.valueOf {κ : Type} : Node κ → Option Bytes
  | .value v => some v
  | _ => none

namespace Hasher

variable (h : Hasher)

/-- The callback for the values in a stored node. -/
def leaves (n : Node Bytes) (hash : Hash) (db : Database) : Option Database :=
  match h.onleaf with
  | none => some db
  | some onleaf =>
    match n with
    | .short _ val _ =>
      match val.valueOf with
      | some child => onleaf child hash db
      | none => some db
    | .full children _ =>
      (List.finRange 16).foldlM (fun db i =>
        match (children i.castSucc).valueOf with
        | some child => onleaf child hash db
        | none => some db) db
    | _ => some db

def store (n : Node Bytes) (db : Option Database) (force : Bool) :
    Option (Node Bytes × Option Database) :=
  if n.isNil || n.hashOf.isSome then some (n, db)
  else
    let tmp := enc n.item
    if tmp.length < 32 && !force then some (n, db)
    else
      let hash := n.cache.1.getD (h.keccak tmp)
      match db with
      | none => some (.hash hash, none)
      | some db =>
        match db.insert hash tmp n with
        | none => none
        | some db => (h.leaves n hash db).map fun db => (.hash hash, some db)

/-- What `hash` and `hashChildren` return: the collapsed node, the node with the cached
    hashes and the database. -/
abbrev Hashed := Node Bytes × Node Hex × Option Database

/-- `hashChildren` of a short node; `hashVal` hashes the child. -/
def hashShort (key : Hex) (val : Node Hex) (flags : NodeFlag)
    (hashVal : Option Database → Option Hashed) (db : Option Database) : Option Hashed :=
  if val.isValue then some (.short (hexToCompact key) (val.map rawNibbles) flags, .short key val flags, db)
  else (hashVal db).map fun (collapsed, cached, db) =>
    (.short (hexToCompact key) collapsed flags, .short key cached flags, db)

/-- The children of a full node while they are hashed, collapsed and with the cached
    hashes, and the database. -/
abbrev Children := (Fin 17 → Node Bytes) × (Fin 17 → Node Hex) × Option Database

/-- The loop body of `hashChildren`: child `i` is hashed by `hashNode`. -/
def hashChild (children : Fin 17 → Node Hex)
    (hashNode : Fin 17 → Option Database → Option Hashed) (st : Children) (i : Fin 16) :
    Option Children :=
  if (children i.castSucc).isNil then some st
  else (hashNode i.castSucc st.2.2).map fun (c, n, db) =>
    (Function.update st.1 i.castSucc c, Function.update st.2.1 i.castSucc n, db)

/-- `hashChildren` of a full node. -/
def hashFull (children : Fin 17 → Node Hex) (flags : NodeFlag)
    (hashNode : Fin 17 → Option Database → Option Hashed) (db : Option Database) : Option Hashed :=
  ((List.finRange 16).foldlM (hashChild children hashNode)
    (fun i => (children i).map rawNibbles, children, db)).map fun (collapsed, cached, db) =>
      (.full collapsed flags, .full cached flags, db)

/-- The results of `hash` that need no work: the cached hash, with the node or, if it
    can be unloaded, without it. -/
def cached (n : Node Hex) (db : Option Database) : Option (Node Bytes × Node Hex) :=
  match n.cache with
  | (none, _) => none
  | (some hash, dirty) =>
    if db.isNone then some (.hash hash, n)
    else if n.canUnload h.cachegen h.cachelimit then some (.hash hash, .hash hash)
    else if !dirty then some (.hash hash, n)
    else none

/-- Caching the hash of a node; once it is stored the node is not dirty. -/
def setHash (n : Node Hex) (hash : Option Hash) (stored : Bool) : Node Hex :=
  match n with
  | .short key val flags => .short key val { flags with hash, dirty := flags.dirty && !stored }
  | .full children flags => .full children { flags with hash, dirty := flags.dirty && !stored }
  | n => n

/-- `hash`, where `hashChildren` is the one of `n`. -/
def hashWith (n : Node Hex) (hashChildren : Option Database → Option Hashed)
    (db : Option Database) (force : Bool) : Option Hashed :=
  match h.cached n db with
  | some (hash, n) => some (hash, n, db)
  | none =>
    match hashChildren db with
    | none => none
    | some (collapsed, cached, db) =>
      (h.store collapsed db force).map fun (hashed, db) =>
        (hashed, setHash cached hashed.hashOf db.isSome, db)

def hash : Node Hex → Option Database → Bool → Option Hashed
  | .short key val flags => h.hashWith (.short key val flags)
      (hashShort key val flags fun db => hash val db false)
  | .full children flags => h.hashWith (.full children flags)
      (hashFull children flags fun i db => hash (children i) db false)
  | .nil => h.hashWith .nil fun db => some (.nil, .nil, db)
  | .value v => h.hashWith (.value v) fun db => some (.value v, .value v, db)
  | .hash x => h.hashWith (.hash x) fun db => some (.hash x, .hash x, db)

def hashChildren : Node Hex → Option Database → Option Hashed
  | .short key val flags => hashShort key val flags fun db => h.hash val db false
  | .full children flags => hashFull children flags fun i db => h.hash (children i) db false
  | n => fun db => some (n.map rawNibbles, n, db)

end Hasher

end GoEthereum.Trie
