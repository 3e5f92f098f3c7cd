/-
  The scheduler of trie downloads (trie/sync.go).

  `Sync` keeps a request for every node that is not downloaded or that waits for nodes
  below it.  A request is named by its hash: as long as another request refers to it, it is
  registered under that hash.  The queue of `Missing`, which is filled by `schedule`, and the
  depths that order it are left out.

  Callbacks are named by the members of a type, and `Callbacks` says what they do.
-/
import GoEthereum.Trie.Trie

namespace GoEthereum.Trie

open GoEthereum.Rlp AssocMap

def emptyState : Hash :=
  ⟨[0xC5, 0xD2, 0x46, 0x01, 0x86, 0xF7, 0x23, 0x3C, 0x92, 0x7E, 0x7D, 0xB2, 0xDC, 0xC7, 0x03, 0xC0,
    0xE5, 0x00, 0xB6, 0x53, 0xCA, 0x82, 0x27, 0x3B, 0x7B, 0xFA, 0xD8, 0x04, 0x5D, 0x85, 0xA4, 0x70],
    rfl⟩

structure Request (C : Type) where
  data : Option Bytes := none
  raw : Bool := false
  parents : List Hash := []
  deps : ℤ := 0
  callback : Option C := none

/-- A call by which an entry is added. -/
inductive Add (C : Type) where
  | subTrie (root : Hash) (callback : Option C)
  | rawEntry (hash : Hash)

/-- The callbacks: the entries that are added for a leaf, under the node that has the leaf,
    and whether the error is nil. -/
abbrev Callbacks (C : Type) := C → Bytes → Hash → List (Add C) × Bool

/-- `Sync`, with the fields of its `syncMemBatch`. -/
structure Sync (C : Type) where
  database : Hash → Option Bytes
  batch : AssocMap Hash Bytes := .empty
  order : List Hash := []
  requests : AssocMap Hash (Request C) := .empty

/-- The errors of `Process`. -/
inductive ProcessError where
  | notRequested
  | alreadyProcessed
  | decode (e : DecodeError)
  | callback

/-- Why a call does not return: `decodeNode` panics, a parent is not registered, or a commit
    is deeper than expected. -/
inductive Fault where
  | decode
  | ancestor
  | depth
  deriving DecidableEq

/-- The children that the function `children` looks at. -/
def Node.parts : Node Hex → List (Node Hex)
  | .short _ val _ => [val]
  | .full children _ => (List.ofFn children).filter (!·.isNil)
  | _ => []

namespace Sync

variable {C : Type}

/-- The registered request changes. -/
def put (s : Sync C) (hash : Hash) (req : Request C) : Sync C :=
  { s with requests := s.requests.set hash req }

def schedule (s : Sync C) (hash : Hash) (req : Request C) : Sync C :=
  match s.requests.get hash with
  | some old => s.put hash { old with parents := old.parents ++ req.parents }
  | none => s.put hash req

/-- The last part of `AddSubTrie` and `AddRawEntry`, which panic if there is no parent. -/
def link (s : Sync C) (hash parent : Hash) (req : Request C) : Except Fault (Sync C) :=
  if parent ≠ .zero then
    match s.requests.get parent with
    | none => .error .ancestor
    | some ancestor =>
      .ok ((s.put parent { ancestor with deps := ancestor.deps + 1 }).schedule hash
        { req with parents := req.parents ++ [parent] })
  else .ok (s.schedule hash req)

def addSubTrie (s : Sync C) (root parent : Hash) (callback : Option C) : Except Fault (Sync C) :=
  if root = emptyRoot then .ok s
  else if s.batch.has root then .ok s
  else
    match decodeNode (some root) ((s.database root).getD []) 0 with
    | none => .error .decode
    | some (.ok _) => .ok s
    | some (.error _) => s.link root parent { callback }

def addRawEntry (s : Sync C) (hash parent : Hash) : Except Fault (Sync C) :=
  if hash = emptyState then .ok s
  else if s.batch.has hash then .ok s
  else if (s.database hash).isSome then .ok s
  else s.link hash parent { raw := true }

/-- An entry is added. -/
def add (s : Sync C) (parent : Hash) : Add C → Except Fault (Sync C)
  | .subTrie root callback => s.addSubTrie root parent callback
  | .rawEntry hash => s.addRawEntry hash parent

/-- The entries that a callback adds. -/
def addAll (parent : Hash) : List (Add C) → Sync C → Except Fault (Sync C)
  | [], s => .ok s
  | a :: as, s => s.add parent a >>= addAll parent as

def newSync (root : Hash) (database : Hash → Option Bytes) (callback : Option C) :
    Except Fault (Sync C) :=
  ({ database } : Sync C).addSubTrie root .zero callback

/-- The loop over the parents in `commit`. -/
def notify (commit : Hash → Sync C → Except Fault (Sync C)) :
    List Hash → Sync C → Except Fault (Sync C)
  | [], s => .ok s
  | parent :: rest, s =>
    match s.requests.get parent with
    | none => .error .ancestor
    | some req =>
      let req := { req with deps := req.deps - 1 }
      let s := s.put parent req
      if req.deps = 0 then commit parent s >>= notify commit rest else notify commit rest s

/-- The entry of a request moves to the batch. -/
def store (s : Sync C) (hash : Hash) (data : Bytes) : Sync C :=
  { s with
    batch := s.batch.set hash data
    order := s.order ++ [hash]
    requests := s.requests.erase hash }

/-- `commit`, with commits in each other at most `fuel` deep. -/
def commit : ℕ → Hash → Sync C → Except Fault (Sync C)
  | 0, _, _ => .error .depth
  | fuel + 1, hash, s =>
    match s.requests.get hash with
    | none => .error .ancestor
    | some req => notify (commit fuel) req.parents (s.store hash (req.data.getD []))

/-- `commit` of a request; every commit inside it is of another request. -/
def commitRequest (s : Sync C) (hash : Hash) : Except Fault (Bool × Sync C) :=
  (commit s.requests.size hash s).map fun s => (true, s)

/-- The children of a node are scheduled. -/
def scheduleAll (parent : Hash) (callback : Option C) : List Hash → Sync C → Sync C
  | [], s => s
  | h :: hs, s => scheduleAll parent callback hs (s.schedule h { parents := [parent], callback })

section
variable (calls : Callbacks C)

/-- The loop of `children`: the hashes to request, or `none` for the error of a callback. -/
def children (hash : Hash) (callback : Option C) :
    List (Node Hex) → Sync C → Except Fault (Option (List Hash) × Sync C)
  | [], s => .ok (some [], s)
  | .value v :: rest, s =>
    match callback with
    | none => children hash callback rest s
    | some c => do
      let s ← addAll hash (calls c v hash).1 s
      if (calls c v hash).2 then children hash callback rest s else .ok (none, s)
  | .hash h :: rest, s =>
    if s.batch.has h ∨ (s.database h).isSome then children hash callback rest s
    else do
      let (hashes, s) ← children hash callback rest s
      .ok (hashes.map (h :: ·), s)
  | _ :: rest, s => children hash callback rest s

/-- The end of the body of the loop of `Process`, for the result of `children`. -/
def finish (hash : Hash) :
    Option (List Hash) × Sync C → Except Fault (Except ProcessError Bool × Sync C)
  | (none, s) => .ok (.error .callback, s)
  | (some hashes, s) =>
    match s.requests.get hash with
    | none => .error .ancestor
    | some request =>
      if hashes.length = 0 ∧ request.deps = 0 then do
        let (b, s) ← s.commitRequest hash
        .ok (.ok b, s)
      else
        let s := s.put hash { request with deps := request.deps + hashes.length }
        .ok (.ok false, scheduleAll hash request.callback hashes s)

/-- The body of the loop of `Process`: whether the entry is committed, or the error. -/
def processItem (s : Sync C) (hash : Hash) (data : Bytes) :
    Except Fault (Except ProcessError Bool × Sync C) :=
  match s.requests.get hash with
  | none => .ok (.error .notRequested, s)
  | some request =>
    if request.data.isSome then .ok (.error .alreadyProcessed, s)
    else if request.raw then do
      let (b, s) ← (s.put hash { request with data := some data }).commitRequest hash
      .ok (.ok b, s)
    else
      match decodeNode (some hash) data 0 with
      | none => .error .decode
      | some (.error e) => .ok (.error (.decode e), s)
      | some (.ok node) =>
        children calls hash request.callback node.parts
          (s.put hash { request with data := some data }) >>= finish hash

/-- `Process` from item `i` on: whether something is committed, the index and the error. -/
def process (committed : Bool) (i : ℕ) :
    List (Hash × Bytes) → Sync C → Except Fault ((Bool × ℕ × Option ProcessError) × Sync C)
  | [], s => .ok ((committed, 0, none), s)
  | (hash, data) :: rest, s => do
    let (out, s) ← s.processItem calls hash data
    match out with
    | .error e => .ok ((committed, i, some e), s)
    | .ok b => process (committed || b) (i + 1) rest s

end

/-- `Commit` with a database whose `Put` fails at entry `n`. -/
def commitTo (s : Sync C) (n : ℕ) : Sync C :=
  let s' := { s with
    database := fun h => if h ∈ s.order.take n then s.batch.get h else s.database h }
  if n < s.order.length then s' else { s' with batch := .empty, order := [] }

end Sync

end GoEthereum.Trie
