/-
  The node database between the tries and the disk (`trie/database.go`).

  New nodes are collected in `dirties`, with the number of references to them,
  and linked into a list in the order of insertion.  `Dereference` deletes the
  nodes that are no longer referenced, `Cap` writes the oldest nodes to disk
  and `Commit` writes one trie.  The database is the one of `NewDatabase`, which
  has no cache of clean nodes.

  A panic, such as writing through a missing map entry, has no result.  Go leaves
  open in which order a map is iterated: `iter n` is the order of the keys in the
  `n`-th iteration.
-/
import GoEthereum.Lib.AssocMap
import GoEthereum.Trie.Node

namespace GoEthereum.Trie

open GoEthereum.Rlp

/-! ## Collapsed nodes -/

/-- The collapsed nodes of the database: `nil`, `valueNode`, `hashNode`,
    `rawShortNode` and `rawFullNode`. -/
inductive RawNode where
  | nil
  | value (v : Bytes)
  | hash (h : Hash)
  | short (key : Bytes) (val : RawNode)
  | full (children : Fin 17 → RawNode)

/-- The results of all children, if there are all of them. -/
def allSome {β : Type} (f : Fin 17 → Option β) : Option (Fin 17 → β) :=
  if h : ∀ i, (f i).isSome then some fun i => (f i).get (h i) else none

theorem allSome_eq_some {β : Type} {f : Fin 17 → Option β} {g : Fin 17 → β} :
    allSome f = some g ↔ ∀ i, f i = some (g i) := by
  unfold allSome
  constructor
  · split_ifs with h
    · rintro hg i
      cases hg
      exact (Option.some_get (h i)).symm
    · simp
  · intro h
    rw [dif_pos fun i => by simp [h i]]
    simp [h]

namespace RawNode

/-- `n == nil` -/
def isNil : RawNode → Bool
  | .nil => true
  | _ => false

/-- What is encoded for a collapsed node; it is what is encoded for the node it was
    made from. -/
def item : RawNode → Item
  | .nil => .list []
  | .value v => .str v
  | .hash h => .str h
  | .short key val => .list [.str key, val.item]
  | .full children => .list (List.ofFn fun i =>
      if (children i).isNil then .str [] else (children i).item)

def gatherChildren : RawNode → List Hash
  | .nil | .value _ => []
  | .hash h => [h]
  | .short _ val => val.gatherChildren
  | .full children => ((List.finRange 16).map fun i => (children i.castSucc).gatherChildren).flatten

end RawNode

/-- `simplifyNode`, which panics on `nil`. -/
def simplifyNode : Node Bytes → Option RawNode
  | .nil => none
  | .value v => some (.value v)
  | .hash h => some (.hash h)
  | .short key val _ => (simplifyNode val).map (.short key)
  | .full children _ =>
    (allSome fun i => if (children i).isNil then some .nil else simplifyNode (children i)).map .full

/-- `expandNode`, which panics on `nil` and on an empty path. -/
def expandNode (hash : Option Hash) (n : RawNode) (cachegen : UInt16) : Option (Node Hex) :=
  match n with
  | .nil => none
  | .value v => some (.value v)
  | .hash h => some (.hash h)
  | .short key val =>
    match compactToHex key, expandNode none val cachegen with
    | some key, some val => some (.short key val { hash := hash, gen := cachegen })
    | _, _ => none
  | .full children =>
    (allSome fun i =>
      if (children i).isNil then some .nil else expandNode none (children i) cachegen).map
      fun children => .full children { hash := hash, gen := cachegen }

/-- The field `node` of `cachedNode`: a collapsed node or a `rawNode`. -/
inductive Stored where
  | node (n : RawNode)
  | blob (b : Bytes)

/-- The hash nodes in a stored node; those in a `rawNode` are not tracked. -/
def Stored.children : Stored → List Hash
  | .blob _ => []
  | .node n => n.gatherChildren

/-- `cachedNode`; no map of children is the empty one. -/
structure CachedNode where
  node : Stored := .node .nil
  size : UInt16 := 0
  parents : UInt32 := 0
  children : AssocMap Hash UInt16 := .empty
  flushPrev : Hash := .zero
  flushNext : Hash := .zero

namespace CachedNode

/-- `rlp`; encoding `nil` panics. -/
def rlp (n : CachedNode) : Option Bytes :=
  match n.node with
  | .blob b => some b
  | .node .nil => none
  | .node n => some (enc n.item)

def obj (n : CachedNode) (hash : Hash) (cachegen : UInt16) : Option (Node Hex) :=
  match n.node with
  | .blob b => mustDecodeNode (some hash) b cachegen
  | .node n => expandNode (some hash) n cachegen

/-- `childs`, where the external children come in the given order. -/
def childs (n : CachedNode) (order : List Hash → List Hash) : List Hash :=
  order n.children.keys ++ n.node.children

/-- The children, external ones first. -/
def refs (n : CachedNode) : List Hash := n.childs id

end CachedNode

/-! ## The disk -/

/-- A pair written to disk.  `refs` are the children of the node when it was
    written; they are recorded here for the statements about the disk. -/
structure Put where
  key : Bytes
  value : Bytes
  refs : List Hash

/-- The disk: everything written to it, the last write first. -/
abbrev Disk := List Put

def Disk.get (d : Disk) (key : Bytes) : Option Bytes :=
  (d.find? fun p => p.key = key).map Put.value

/-- The writes in their order. -/
def Disk.write (d : Disk) (ps : List Put) : Disk := ps.reverse ++ d

/-- A batch, with the batches written before it. -/
structure Batch where
  written : List (List Put) := []
  puts : List Put := []
  size : ℕ := 0

def idealBatchSize : ℕ := 100 * 1024

def Batch.put (b : Batch) (p : Put) : Batch :=
  { b with puts := b.puts ++ [p], size := b.size + p.value.length }

/-- `Write` and `Reset` -/
def Batch.write (b : Batch) : Batch := { written := b.written ++ [b.puts] }

/-- `Put`, and `Write` if the batch is big enough. -/
def Batch.add (b : Batch) (p : Put) : Batch :=
  let b := b.put p
  if b.size ≥ idealBatchSize then b.write else b

/-! ## The database -/

/-- `Database`.  The sizes count bytes; `iters` is the number of iterations over maps
    so far. -/
structure Database where
  disk : Disk
  dirties : AssocMap Hash CachedNode
  oldest : Hash
  newest : Hash
  preimages : AssocMap Hash Bytes
  dirtiesSize : ℤ
  preimagesSize : ℤ
  iters : ℕ

namespace Database

/-- `NewDatabase` -/
def new (disk : Disk) : Database where
  disk := disk
  dirties := AssocMap.empty.set .zero {}
  oldest := .zero
  newest := .zero
  preimages := .empty
  dirtiesSize := 0
  preimagesSize := 0
  iters := 0

/-- Writing to a field of `dirties[h]`. -/
def modify (db : Database) (h : Hash) (f : CachedNode → CachedNode) : Option Database :=
  (db.dirties.get h).map fun e => { db with dirties := db.dirties.set h (f e) }

/-- One more reference to a child, if it is in memory. -/
def addParent (dirties : AssocMap Hash CachedNode) (child : Hash) :
    AssocMap Hash CachedNode :=
  match dirties.get child with
  | some c => dirties.set child { c with parents := c.parents + 1 }
  | none => dirties

/-- `insert` once the node is simplified.  The size is added up in 16 bits. -/
def insertStored (db : Database) (hash : Hash) (blob : Bytes) (node : Stored) : Option Database :=
  if db.dirties.has hash then some db
  else
    let entry : CachedNode :=
      { node := node, size := .ofNat blob.length, flushPrev := db.newest }
    let dirties := (entry.refs.foldl addParent db.dirties).set hash entry
    let dirtiesSize := db.dirtiesSize + ((32 + entry.size).toNat : ℤ)
    if db.oldest = .zero then
      some { db with dirties, dirtiesSize, oldest := hash, newest := hash }
    else
      ({ db with dirties, dirtiesSize } : Database).modify db.newest
        (fun e => { e with flushNext := hash }) |>.map fun db => { db with newest := hash }

def insert (db : Database) (hash : Hash) (blob : Bytes) (node : Node Bytes) : Option Database :=
  if db.dirties.has hash then some db
  else
    match simplifyNode node with
    | none => none
    | some n => db.insertStored hash blob (.node n)

def insertBlob (db : Database) (hash : Hash) (blob : Bytes) : Option Database :=
  db.insertStored hash blob (.blob blob)

def insertPreimage (db : Database) (hash : Hash) (preimage : Bytes) : Database :=
  if db.preimages.has hash then db
  else { db with
    preimages := db.preimages.set hash preimage
    preimagesSize := db.preimagesSize + (32 + preimage.length : ℕ) }

/-- `node`; the node is `nil` if it is nowhere. -/
def node (db : Database) (hash : Hash) (cachegen : UInt16) : Option (Node Hex) :=
  match db.dirties.get hash with
  | some dirty => dirty.obj hash cachegen
  | none =>
    match db.disk.get hash with
    | none => some .nil
    | some enc => mustDecodeNode (some hash) enc cachegen

def reference (db : Database) (child parent : Hash) : Option Database :=
  match db.dirties.get child with
  | none => some db
  | some node =>
    match db.dirties.get parent with
    | none => none
    | some p =>
      if p.children.has child ∧ parent ≠ .zero then some db
      else
        ({ db with dirties := db.dirties.set child { node with parents := node.parents + 1 } } :
          Database).modify parent fun p =>
            { p with children := p.children.set child ((p.children.get child).getD 0 + 1) }

/-- Taking `children[child]` down by one. -/
def dropChild (n : CachedNode) (child : Hash) : CachedNode :=
  match n.children.get child with
  | none => n
  | some c =>
    if c > 0 then
      if c - 1 = 0 then { n with children := n.children.erase child }
      else { n with children := n.children.set child (c - 1) }
    else n

/-- Taking `parents` down by one, unless it is zero: a node that was loaded from disk
    and inserted again has no parents in memory. -/
def dropParent (n : CachedNode) : CachedNode :=
  if n.parents > 0 then { n with parents := n.parents - 1 } else n

/-- Taking a node out of the flush list. -/
def unlink (db : Database) (hash : Hash) (node : CachedNode) : Option Database :=
  if hash = db.oldest then
    ({ db with oldest := node.flushNext } : Database).modify node.flushNext
      fun e => { e with flushPrev := .zero }
  else if hash = db.newest then
    ({ db with newest := node.flushPrev } : Database).modify node.flushPrev
      fun e => { e with flushNext := .zero }
  else
    match db.modify node.flushPrev fun e => { e with flushNext := node.flushNext } with
    | none => none
    | some db => db.modify node.flushNext fun e => { e with flushPrev := node.flushPrev }

/-- Deleting a node from memory. -/
def drop (db : Database) (hash : Hash) (node : CachedNode) : Database :=
  { db with
    dirties := db.dirties.erase hash
    dirtiesSize := db.dirtiesSize - (32 + node.size.toNat : ℕ) }

section
variable (iter : ℕ → List Hash → List Hash)

/-- `dereference`, at most `fuel` calls deep. -/
def dereference : ℕ → Hash → Hash → Database → Option Database
  | 0, _, _, _ => none
  | fuel + 1, child, parent, db =>
    match db.modify parent (dropChild · child) with
    | none => none
    | some db =>
      match db.dirties.get child with
      | none => some db
      | some node =>
        let node := dropParent node
        let db := { db with dirties := db.dirties.set child node }
        if node.parents = 0 then
          match db.unlink child node with
          | none => none
          | some db =>
            ((node.childs (iter db.iters)).foldlM (fun db c => dereference fuel c child db)
              { db with iters := db.iters + 1 }).map fun db => db.drop child node
        else some db

/-- `Dereference` -/
def dereferenceRoot (db : Database) (root : Hash) : Option Database :=
  if root = .zero then some db
  else dereference iter (db.dirties.size + 1) root .zero db

/-- The size that `Cap` compares with the limit: for each node there are two hashes
    for the flush list. -/
def totalSize (db : Database) : ℤ :=
  db.dirtiesSize + ((db.dirties.size : ℤ) - 1) * 2 * 32

/-- `secureKeyPrefix`, "secure-key-". -/
def secureKeyPrefix : Bytes :=
  [0x73, 0x65, 0x63, 0x75, 0x72, 0x65, 0x2D, 0x6B, 0x65, 0x79, 0x2D]

def secureKey (hash : Hash) : Bytes := secureKeyPrefix ++ hash

/-- The loop that writes the preimages. -/
def putPreimages (db : Database) (b : Batch) : Batch :=
  (iter db.iters db.preimages.keys).foldl (fun b h =>
    let b := b.put ⟨secureKey h, (db.preimages.get h).getD [], []⟩
    if b.size > idealBatchSize then b.write else b) b

/-- The loop of `Cap` that writes the oldest nodes; it returns the first node that
    stays. -/
def capLoop (db : Database) (limit : ℤ) : ℕ → ℤ → Hash → Batch → Option (Hash × Batch)
  | 0, _, _, _ => none
  | fuel + 1, size, oldest, b =>
    if size > limit ∧ oldest ≠ .zero then
      match db.dirties.get oldest with
      | none => none
      | some node =>
        match node.rlp with
        | none => none
        | some blob =>
          capLoop db limit fuel (size - (3 * 32 + node.size.toNat : ℕ)) node.flushNext
            (b.add ⟨oldest, blob, node.refs⟩)
    else some (oldest, b)

/-- `Cap` writes the preimages once they take more than four megabytes. -/
def capPreimages (db : Database) : Bool := db.preimagesSize > 4 * 1024 * 1024

/-- What `Cap` writes: the first node that stays and the batches. -/
def capFlush (db : Database) (limit : ℤ) : Option (Hash × List (List Put)) :=
  let b : Batch := if db.capPreimages then putPreimages iter db {} else {}
  (capLoop db limit (db.dirties.size + 1) db.totalSize db.oldest b).map
    fun (oldest, b) => (oldest, b.write.written)

/-- The loop of `Cap` that deletes the written nodes from memory. -/
def capClean (oldest : Hash) : ℕ → Database → Option Database
  | 0, _ => none
  | fuel + 1, db =>
    if db.oldest ≠ oldest then
      match db.dirties.get db.oldest with
      | none => none
      | some node => capClean oldest fuel { db.drop db.oldest node with oldest := node.flushNext }
    else some db

/-- `Cap` once the batches are written. -/
def capFinish (db : Database) (oldest : Hash) : Option Database :=
  let db := if db.capPreimages then { db with preimages := .empty, preimagesSize := 0 } else db
  match capClean oldest (db.dirties.size + 1) db with
  | none => none
  | some db =>
    if db.oldest ≠ .zero then db.modify db.oldest fun e => { e with flushPrev := .zero }
    else some db

/-- `Cap`; the limit is a number of bytes. -/
def cap (db : Database) (limit : ℤ) : Option Database :=
  match capFlush iter db limit with
  | none => none
  | some (oldest, batches) =>
    ({ db with disk := db.disk.write batches.flatten, iters := db.iters + 1 } :
      Database).capFinish oldest

/-- `commit`, at most `fuel` calls deep; the number of iterations is passed on. -/
def commitNode (db : Database) : ℕ → Hash → Batch × ℕ → Option (Batch × ℕ)
  | 0, _, _ => none
  | fuel + 1, hash, (b, n) =>
    match db.dirties.get hash with
    | none => some (b, n)
    | some node =>
      match (node.childs (iter n)).foldlM (fun st c => commitNode db fuel c st) (b, n + 1) with
      | none => none
      | some (b, n) => node.rlp.map fun blob => (b.add ⟨hash, blob, node.refs⟩, n)

/-- `uncache`, at most `fuel` calls deep. -/
def uncache : ℕ → Hash → Database → Option Database
  | 0, _, _ => none
  | fuel + 1, hash, db =>
    match db.dirties.get hash with
    | none => some db
    | some node =>
      match db.unlink hash node with
      | none => none
      | some db =>
        ((node.childs (iter db.iters)).foldlM (fun db c => uncache fuel c db)
          { db with iters := db.iters + 1 }).map fun db => db.drop hash node

/-- What `Commit` writes: the batches, and the number of iterations after it. -/
def commitFlush (db : Database) (node : Hash) : Option (List (List Put) × ℕ) :=
  (commitNode iter db (db.dirties.size + 1) node
    (putPreimages iter db {}, db.iters + 1)).map fun (b, n) => (b.write.written, n)

def commit (db : Database) (node : Hash) : Option Database :=
  match commitFlush iter db node with
  | none => none
  | some (batches, n) =>
    uncache iter (db.dirties.size + 1) node
      { db with
        disk := db.disk.write batches.flatten, iters := n, preimages := .empty, preimagesSize := 0 }

end

end Database

end GoEthereum.Trie
