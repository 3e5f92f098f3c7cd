/-
  The Merkle Patricia trie (`trie/trie.go`).

  The root of a trie is a node in memory; hash nodes in it stand for nodes of the
  database, which are loaded when a key leads to them.  `Commit` stores the trie in
  the database and unloads what has not been used for some generations.

  A trie and its database are separate here, as the tries of one database share it.
  A function that meets a node missing in the database returns the error of the
  source; what it returns beside an error is not used and left out.  The source
  recurses on its nodes: here a recursion has fuel, and `panic` is the result of a
  panic and of missing fuel.  The fuel of the exported functions is enough for
  every trie (`tryGet_rep`, `insert_rep`, `delete_rep`).
-/
import GoEthereum.Trie.Hasher

namespace GoEthereum.Trie

open GoEthereum.Rlp

structure MissingNodeError where
  nodeHash : Hash
  path : Hex
  deriving DecidableEq

/-- The result of a function that returns an error beside its results, or panics. -/
inductive Result (α : Type) where
  | ok (a : α)
  | error (e : MissingNodeError)
  | panic

namespace Result

variable {α β : Type}

instance : Monad Result where
  pure := .ok
  bind x f :=
    match x with
    | .ok a => f a
    | .error e => .error e
    | .panic => .panic

@[simp]
theorem ok_bind (a : α) (f : α → Result β) : (Result.ok a >>= f) = f a := rfl

end Result

def emptyRoot : Hash :=
  ⟨[0x56, 0xE8, 0x1F, 0x17, 0x1B, 0xCC, 0x55, 0xA6, 0xFF, 0x83, 0x45, 0xE6, 0x92, 0xC0, 0xF8, 0x6E,
    0x5B, 0x48, 0xE0, 0x1B, 0x99, 0x6C, 0xAD, 0xC0, 0x01, 0x62, 0x2F, 0xB5, 0xE3, 0x63, 0xB4, 0x21],
    rfl⟩

/-! ## The recursive functions -/

section
-- the database and the generation of the trie
variable (db : Database) (cachegen : UInt16)

def newFlag : NodeFlag := { dirty := true, gen := cachegen }

/-- `resolveHash`; the error has the path to the missing node. -/
def resolveHash (n : Hash) (path : Hex) : Result (Node Hex) :=
  match db.node n cachegen with
  | none => .panic
  | some node => if node.isNil then .error ⟨n, path⟩ else .ok node

def resolve (n : Node Hex) (path : Hex) : Result (Node Hex) :=
  match n with
  | .hash h => resolveHash db cachegen h path
  | n => .ok n

/-- `tryGet`: the value, the node to put in the place of the given one, and whether a
    node was loaded. -/
def tryGet : ℕ → Node Hex → Hex → ℕ → Result (Option Bytes × Node Hex × Bool)
  | 0, _, _, _ => .panic
  | fuel + 1, n, key, pos =>
    match n with
    | .nil => .ok (none, .nil, false)
    | .value v => .ok (some v, .value v, false)
    | .short nkey val flags =>
      if key.length - pos < nkey.length ∨ nkey ≠ (key.drop pos).take nkey.length then
        .ok (none, n, false)
      else do
        let (value, newnode, didResolve) ← tryGet fuel val key (pos + nkey.length)
        if didResolve then
          .ok (value, .short nkey newnode { flags with gen := cachegen }, didResolve)
        else .ok (value, n, didResolve)
    | .full children flags =>
      match key[pos]? with
      | none => .panic
      | some c => do
        let (value, newnode, didResolve) ← tryGet fuel (children c) key (pos + 1)
        if didResolve then
          .ok (value, .full (Function.update children c newnode) { flags with gen := cachegen },
            didResolve)
        else .ok (value, n, didResolve)
    | .hash h => do
      let child ← resolveHash db cachegen h (key.take pos)
      let (value, newnode, _) ← tryGet fuel child key pos
      .ok (value, newnode, true)

/-- `insert`: whether something changed, and the new node. -/
def insert : ℕ → Node Hex → Hex → Hex → Node Hex → Result (Bool × Node Hex)
  | 0, _, _, _, _ => .panic
  | fuel + 1, n, path, key, value =>
    if key.length = 0 then
      match n with
      | .value v =>
        match value.valueOf with
        | some w => .ok (v != w, value)
        | none => .panic
      | _ => .ok (true, value)
    else
      match n with
      | .short nkey val flags =>
        let matchlen := prefixLen key nkey
        if matchlen = nkey.length then do
          let (dirty, nn) ← insert fuel val (path ++ key.take matchlen) (key.drop matchlen) value
          if !dirty then .ok (false, .short nkey val flags)
          else .ok (true, .short nkey nn (newFlag cachegen))
        else
          match nkey[matchlen]?, key[matchlen]? with
          | some a, some b => do
            let (_, na) ← insert fuel .nil (path ++ nkey.take (matchlen + 1))
              (nkey.drop (matchlen + 1)) val
            let (_, nb) ← insert fuel .nil (path ++ key.take (matchlen + 1))
              (key.drop (matchlen + 1)) value
            let branch : Node Hex :=
              .full (Function.update (Function.update (fun _ => .nil) a na) b nb) (newFlag cachegen)
            if matchlen = 0 then .ok (true, branch)
            else .ok (true, .short (key.take matchlen) branch (newFlag cachegen))
          | _, _ => .panic
      | .full children flags =>
        match key with
        | [] => .panic
        | c :: key => do
          let (dirty, nn) ← insert fuel (children c) (path ++ [c]) key value
          if !dirty then .ok (false, .full children flags)
          else .ok (true, .full (Function.update children c nn) (newFlag cachegen))
      | .nil => .ok (true, .short key value (newFlag cachegen))
      | .hash h => do
        let rn ← resolveHash db cachegen h path
        let (dirty, nn) ← insert fuel rn path key value
        if !dirty then .ok (false, rn) else .ok (true, nn)
      | .value _ => .panic

/-- The loop of `delete` over the children: the position of the only one, none if there
    is no child or more than one. -/
def onlyChild (children : Fin 17 → Node Hex) : Option (Fin 17) :=
  match (List.finRange 17).filter fun i => !(children i).isNil with
  | [pos] => some pos
  | _ => none

/-- `delete`: whether something changed, and the new node. -/
def delete : ℕ → Node Hex → Hex → Hex → Result (Bool × Node Hex)
  | 0, _, _, _ => .panic
  | fuel + 1, n, path, key =>
    match n with
    | .short nkey val flags =>
      let matchlen := prefixLen key nkey
      if matchlen < nkey.length then .ok (false, .short nkey val flags)
      else if matchlen = key.length then .ok (true, .nil)
      else do
        let (dirty, child) ← delete fuel val (path ++ key.take nkey.length) (key.drop nkey.length)
        if !dirty then .ok (false, .short nkey val flags)
        else
          match child with
          | .short ckey cval _ => .ok (true, .short (nkey ++ ckey) cval (newFlag cachegen))
          | child => .ok (true, .short nkey child (newFlag cachegen))
    | .full children flags =>
      match key with
      | [] => .panic
      | c :: key => do
        let (dirty, nn) ← delete fuel (children c) (path ++ [c]) key
        if !dirty then .ok (false, .full children flags)
        else
          let children := Function.update children c nn
          match onlyChild children with
          | none => .ok (true, .full children (newFlag cachegen))
          | some pos =>
            if pos ≠ 16 then do
              let cnode ← resolve db cachegen (children pos) path
              match cnode with
              | .short ckey cval _ => .ok (true, .short (pos :: ckey) cval (newFlag cachegen))
              | _ => .ok (true, .short [pos] (children pos) (newFlag cachegen))
            else .ok (true, .short [pos] (children pos) (newFlag cachegen))
    | .value _ => .ok (true, .nil)
    | .nil => .ok (false, .nil)
    | .hash h => do
      let rn ← resolveHash db cachegen h path
      let (dirty, nn) ← delete fuel rn path key
      if !dirty then .ok (false, rn) else .ok (true, nn)

end

/-! ## The trie -/

/-- `Trie` without its database. -/
structure MerkleTrie where
  root : Node Hex := .nil
  cachegen : UInt16 := 0
  cachelimit : UInt16 := 0

namespace MerkleTrie

def setCacheLimit (t : MerkleTrie) (l : UInt16) : MerkleTrie := { t with cachelimit := l }

def new (root : Hash) (db : Database) : Result MerkleTrie :=
  if root ≠ .zero ∧ root ≠ emptyRoot then do
    let rootnode ← resolveHash db 0 root []
    .ok { root := rootnode }
  else .ok {}

/-- Enough fuel for a key: below each nibble there may be a node to load. -/
def fuel (key : Hex) : ℕ := 2 * key.length + 2

def tryGet (t : MerkleTrie) (db : Database) (key : Bytes) : Result (Option Bytes × MerkleTrie) := do
  let key := keybytesToHex key
  let (value, newroot, didResolve) ← Trie.tryGet db t.cachegen (fuel key) t.root key 0
  .ok (value, if didResolve then { t with root := newroot } else t)

def tryDelete (t : MerkleTrie) (db : Database) (key : Bytes) : Result MerkleTrie := do
  let k := keybytesToHex key
  let (_, n) ← Trie.delete db t.cachegen (fuel k) t.root [] k
  .ok { t with root := n }

def tryUpdate (t : MerkleTrie) (db : Database) (key value : Bytes) : Result MerkleTrie := do
  let k := keybytesToHex key
  if value.length ≠ 0 then
    let (_, n) ← Trie.insert db t.cachegen (fuel k) t.root [] k (.value value)
    .ok { t with root := n }
  else
    let (_, n) ← Trie.delete db t.cachegen (fuel k) t.root [] k
    .ok { t with root := n }

section
variable (keccak : Bytes → Hash)

def hashRoot (t : MerkleTrie) (db : Option Database) (onleaf : Option LeafCallback) :
    Option Hasher.Hashed :=
  if t.root.isNil then some (.hash emptyRoot, .nil, db)
  else Hasher.hash ⟨keccak, t.cachegen, t.cachelimit, onleaf⟩ t.root db true

def hash (t : MerkleTrie) : Option (Hash × MerkleTrie) :=
  match hashRoot keccak t none none with
  | some (.hash hash, cached, _) => some (hash, { t with root := cached })
  | _ => none

def commit (t : MerkleTrie) (db : Database) (onleaf : Option LeafCallback) :
    Option (Hash × MerkleTrie × Database) :=
  match hashRoot keccak t (some db) onleaf with
  | some (.hash hash, cached, some db) =>
    some (hash, { t with root := cached, cachegen := t.cachegen + 1 }, db)
  | _ => none

end

end MerkleTrie

end GoEthereum.Trie
