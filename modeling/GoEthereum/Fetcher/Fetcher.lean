/-
  The block fetcher (eth/fetcher/fetcher.go).

  The loop of the fetcher forgets the fetches that have expired, imports what it can from the
  queue and waits for an event; `Reached` are the states between these phases.  The times, the
  blocks that the chain has and its height are arguments of each phase.  The blocks that are
  imported are a list, a goroutine of `insert` being the promise of an event `done`; the
  requests that were sent are lists as well.  Hooks, metrics and `dropPeer` are left out.
-/
import GoEthereum.Lib.AssocMap
import GoEthereum.Lib.SwapHeap
import GoEthereum.Core.Types

namespace GoEthereum.Eth

open GoEthereum.Core

def arriveTimeout : ℤ := 500000000
def gatherSlack : ℤ := 100000000
def fetchTimeout : ℤ := 5000000000
def maxUncleDist : ℕ := 7
def maxQueueDist : ℕ := 32
def hashLimit : ℤ := 256
def blockLimit : ℤ := 64

/-! ## State -/

/-- `announce`, before its header has arrived. -/
structure Announce where
  hash : Word
  number : UInt64
  time : ℤ
  origin : String

/-- `announce`, with its header. -/
structure Delivered where
  announce : Announce
  header : Header

/-- A slice that is not empty. -/
structure Batch (α : Type) where
  head : α
  tail : List α := []

def Batch.toList {α : Type} (b : Batch α) : List α := b.head :: b.tail

def Batch.append {α : Type} (b : Batch α) (a : α) : Batch α := { b with tail := b.tail ++ [a] }

/-- The element at `rand.Intn(len(b))`. -/
def Batch.pick {α : Type} (b : Batch α) (rand : ℕ) : α :=
  b.toList.get ⟨rand % b.toList.length, Nat.mod_lt _ (Nat.succ_pos _)⟩

/-- `append` to the slice of a hash. -/
def appendTo {α : Type} (m : AssocMap Word (Batch α)) (hash : Word) (a : α) :
    AssocMap Word (Batch α) :=
  m.set hash (match m.get hash with
    | some b => b.append a
    | none => { head := a })

structure Inject where
  origin : String
  block : Block

/-- `item` of package prque. -/
structure Item where
  value : Inject
  priority : Int64

def Item.less (x y : Item) : Bool := 0 < x.priority - y.priority

structure Fetcher where
  announces : AssocMap String ℤ := .empty
  announced : AssocMap Word (Batch Announce) := .empty
  fetching : AssocMap Word Announce := .empty
  fetched : AssocMap Word (Batch Delivered) := .empty
  completing : AssocMap Word Delivered := .empty
  queue : List Item := []
  queues : AssocMap String ℤ := .empty
  queued : AssocMap Word Inject := .empty
  /-- The imports that are running. -/
  importing : List Word := []
  /-- The headers that were requested, with the peers. -/
  headerRequests : List (String × Word) := []
  /-- The bodies that were requested, with the peers. -/
  bodyRequests : List (String × Word) := []

/-- A counter; an absent key means zero. -/
def counter (m : AssocMap String ℤ) (p : String) : ℤ := (m.get p).getD 0

/-- `m[p]--`, and the key is deleted at zero. -/
def decrement (m : AssocMap String ℤ) (p : String) : AssocMap String ℤ :=
  let m := m.set p (counter m p - 1)
  if counter m p = 0 then m.erase p else m

/-- The order in which `range` visits the keys of a map. -/
structure RangeOrder where
  keys : List Word → List Word
  perm (l : List Word) : (keys l).Perm l

/-- The order in which the keys are kept. -/
def RangeOrder.kept : RangeOrder := ⟨id, .refl⟩

/-- The hashes of lists. -/
structure Derive where
  /-- `DeriveSha` of transactions. -/
  deriveSha : List Transaction → Word
  /-- `CalcUncleHash` -/
  calcUncleHash : List Header → Word

namespace Fetcher

/-! ## Forgetting -/

/-- The peers whose counters `forgetHash` decrements. -/
def announcers (f : Fetcher) (hash : Word) : List String :=
  (f.announced.get hash).elim [] (fun b => b.toList.map (·.origin)) ++
    (f.fetching.get hash).elim [] (fun a => [a.origin]) ++
    (f.fetched.get hash).elim [] (fun b => b.toList.map (·.announce.origin)) ++
    (f.completing.get hash).elim [] (fun d => [d.announce.origin])

def forgetHash (f : Fetcher) (hash : Word) : Fetcher :=
  { f with
    announces := (f.announcers hash).foldl decrement f.announces
    announced := f.announced.erase hash
    fetching := f.fetching.erase hash
    fetched := f.fetched.erase hash
    completing := f.completing.erase hash }

def forgetBlock (f : Fetcher) (hash : Word) : Fetcher :=
  match f.queued.get hash with
  | some insert =>
    { f with queues := decrement f.queues insert.origin, queued := f.queued.erase hash }
  | none => f

/-! ## Queue -/

/-- `int64(number) - int64(height)` -/
def dist (number height : UInt64) : Int64 := number.toInt64 - height.toInt64

/-- The distance of a block that is dropped. -/
def farAway (number height : UInt64) : Bool :=
  dist number height < -Int64.ofNat maxUncleDist || Int64.ofNat maxQueueDist < dist number height

/-- The item of a block, with the priority `-int64(number)`. -/
def item (op : Inject) : Item := { value := op, priority := -op.block.numberU64.toInt64 }

section
variable (q : QueueFns Item Item.less)

def enqueue (f : Fetcher) (peer : String) (block : Block) (height : UInt64) : Fetcher :=
  let count := counter f.queues peer + 1
  if count > blockLimit then f.forgetHash block.hash
  else if farAway block.numberU64 height then f.forgetHash block.hash
  else if (f.queued.get block.hash).isSome then f
  else
    let op : Inject := { origin := peer, block }
    { f with
      queues := f.queues.set peer count
      queued := f.queued.set block.hash op
      queue := q.push f.queue (item op) }

/-- `insert` starts the import of a block. -/
def insert (f : Fetcher) (block : Block) : Fetcher :=
  { f with importing := f.importing ++ [block.hash] }

/-- The loop that imports queued blocks; `fuel` is the number of items. -/
def importLoop (height : UInt64) (known : Word → Bool) : ℕ → Fetcher → Fetcher
  | 0, f => f
  | fuel + 1, f =>
    match q.pop f.queue with
    | none => f
    | some (x, rest) =>
      let f := { f with queue := rest }
      let hash := x.value.block.hash
      let number := x.value.block.numberU64
      if number > height + 1 then { f with queue := q.push f.queue (item x.value) }
      else if number + UInt64.ofNat maxUncleDist < height ∨ known hash then
        importLoop height known fuel (f.forgetBlock hash)
      else importLoop height known fuel (f.insert x.value.block)

/-- The import phase. -/
def imports (f : Fetcher) (height : UInt64) (known : Word → Bool) : Fetcher :=
  f.importLoop q height known f.queue.length

end

/-! ## Fetching -/

/-- The phase that clears expired fetches; `now` is the clock when a hash is visited. -/
def expire (f : Fetcher) (order : RangeOrder) (now : Word → ℤ) : Fetcher :=
  (order.keys f.fetching.keys).foldl (fun f hash =>
    match f.fetching.get hash with
    | some announce =>
      if now hash - announce.time > fetchTimeout then f.forgetHash hash else f
    | none => f) f

/-- A notification. -/
def notify (f : Fetcher) (a : Announce) (height : UInt64) : Fetcher :=
  let count := counter f.announces a.origin + 1
  if count > hashLimit then f
  else if 0 < a.number ∧ farAway a.number height then f
  else if (f.fetching.get a.hash).isSome ∨ (f.completing.get a.hash).isSome then f
  else
    { f with
      announces := f.announces.set a.origin count
      announced := appendTo f.announced a.hash a }

/-- A hash that the fetch timer visits. -/
def fetchHash (now : Word → ℤ) (rand : Word → ℕ) (known : Word → Bool) (f : Fetcher)
    (hash : Word) : Fetcher :=
  match f.announced.get hash with
  | some announces =>
    if now hash - announces.head.time > arriveTimeout - gatherSlack then
      let announce := announces.pick (rand hash)
      let f := f.forgetHash hash
      if known hash then f
      else
        { f with
          fetching := f.fetching.set hash announce
          headerRequests := f.headerRequests ++ [(announce.origin, hash)] }
    else f
  | none => f

/-- A hash that the completion timer visits. -/
def completeHash (rand : Word → ℕ) (known : Word → Bool) (f : Fetcher) (hash : Word) : Fetcher :=
  match f.fetched.get hash with
  | some announces =>
    let announce := announces.pick (rand hash)
    let f := f.forgetHash hash
    if known hash then f
    else
      { f with
        completing := f.completing.set hash announce
        bodyRequests := f.bodyRequests ++ [(announce.announce.origin, hash)] }
  | none => f

/-! ## Headers and bodies -/

/-- What the loop over the headers of a task has collected. -/
structure Sorted where
  fetcher : Fetcher
  unknown : List Header := []
  incomplete : List Delivered := []
  complete : List Block := []

/-- A header of a task, with the answer of `getBlock` for it. -/
def sortHeader (derive : Derive) (peer : String) (time : ℤ) (s : Sorted) (x : Header × Bool) :
    Sorted :=
  let f := s.fetcher
  let header := x.1
  let hash := header.hash
  match f.fetching.get hash with
  | none => { s with unknown := s.unknown ++ [header] }
  | some announce =>
    if announce.origin = peer ∧ (f.fetched.get hash).isNone ∧ (f.completing.get hash).isNone ∧
        (f.queued.get hash).isNone then
      if header.numberU64 ≠ announce.number then { s with fetcher := f.forgetHash hash }
      else if x.2 then { s with fetcher := f.forgetHash hash }
      else
        let announce := { announce with time }
        let f := { f with fetching := f.fetching.set hash announce }
        if header.txHash = derive.deriveSha [] ∧ header.uncleHash = derive.calcUncleHash [] then
          { s with
            fetcher := { f with completing := f.completing.set hash { announce, header } }
            complete := s.complete ++ [{ header }] }
        else { s with fetcher := f, incomplete := s.incomplete ++ [{ announce, header }] }
    else { s with unknown := s.unknown ++ [header] }

/-- A header whose body has to be retrieved. -/
def scheduleBody (f : Fetcher) (d : Delivered) : Fetcher :=
  if (f.completing.get d.header.hash).isSome then f
  else { f with fetched := appendTo f.fetched d.header.hash d }

/-- A block that is complete, with the height of the chain then. -/
def enqueueComplete (q : QueueFns Item Item.less) (f : Fetcher) (x : Block × UInt64) : Fetcher :=
  match f.completing.get x.1.hash with
  | some d => f.enqueue q d.announce.origin x.1 x.2
  | none => f

/-- Headers arrive; the second result are those that are returned to the sender. -/
def filterHeaders (q : QueueFns Item Item.less) (derive : Derive) (f : Fetcher) (peer : String)
    (headers : List (Header × Bool)) (time : ℤ) (height : ℕ → UInt64) : Fetcher × List Header :=
  let s := headers.foldl (sortHeader derive peer time) { fetcher := f }
  let f := s.incomplete.foldl scheduleBody s.fetcher
  ((s.complete.zipIdx.map fun x => (x.1, height x.2)).foldl (enqueueComplete q) f, s.unknown)

/-- What the loop over the bodies of a task has collected. -/
structure Matched where
  fetcher : Fetcher
  unmatched : List Body := []
  blocks : List Block := []

/-- A body is compared with a hash in `completing`; the flag is set by a match. -/
def matchHash (derive : Derive) (peer : String) (body : Body) (known : Word → Bool)
    (s : Fetcher × List Block × Bool) (hash : Word) : Fetcher × List Block × Bool :=
  let f := s.1
  match f.completing.get hash with
  | none => s
  | some d =>
    if (f.queued.get hash).isNone ∧ derive.deriveSha body.transactions = d.header.txHash ∧
        derive.calcUncleHash body.uncles = d.header.uncleHash ∧ d.announce.origin = peer then
      if known hash then (f.forgetHash hash, s.2.1, true)
      else (f, s.2.1 ++ [{ header := d.header, body }], true)
    else s

/-- A body of a task, with the answers of `getBlock` for it. -/
def matchBody (derive : Derive) (order : RangeOrder) (peer : String) (s : Matched)
    (x : Body × (Word → Bool)) : Matched :=
  let r := (order.keys s.fetcher.completing.keys).foldl (matchHash derive peer x.1 x.2)
    (s.fetcher, s.blocks, false)
  { fetcher := r.1
    blocks := r.2.1
    unmatched := if r.2.2 then s.unmatched else s.unmatched ++ [x.1] }

/-- Bodies arrive; the other results are the lists that are returned to the sender. -/
def filterBodies (q : QueueFns Item Item.less) (derive : Derive) (order : RangeOrder) (f : Fetcher)
    (peer : String) (transactions : List (List Transaction)) (uncles : List (List Header))
    (known : ℕ → Word → Bool) (height : ℕ → UInt64) :
    Fetcher × List (List Transaction) × List (List Header) :=
  let bodies := (transactions.zip uncles).zipIdx.map fun x =>
    ({ transactions := x.1.1, uncles := x.1.2 : Body }, known x.2)
  let s := bodies.foldl (matchBody derive order peer) { fetcher := f }
  ((s.blocks.zipIdx.map fun x => (x.1, height x.2)).foldl (enqueueComplete q) s.fetcher,
    s.unmatched.map (·.transactions) ++ transactions.drop bodies.length,
    s.unmatched.map (·.uncles) ++ uncles.drop bodies.length)

/-! ## What leaves the queue alone -/

/-- The queue and its counters are the same. -/
structure SameQueue (f f' : Fetcher) : Prop where
  queue : f'.queue = f.queue
  queues : f'.queues = f.queues
  queued : f'.queued = f.queued

namespace SameQueue

variable {f f' f'' : Fetcher}

theorem refl (f : Fetcher) : SameQueue f f := ⟨rfl, rfl, rfl⟩

theorem trans (h : SameQueue f f') (h' : SameQueue f' f'') : SameQueue f f'' :=
  ⟨h'.queue.trans h.queue, h'.queues.trans h.queues, h'.queued.trans h.queued⟩

theorem foldl {α σ : Type} {g : σ → Fetcher} {step : σ → α → σ}
    (hstep : ∀ s a, SameQueue (g s) (g (step s a))) (l : List α) (s : σ) :
    SameQueue (g s) (g (l.foldl step s)) := by
  induction l generalizing s with
  | nil => exact refl _
  | cons a l ih => exact (hstep s a).trans (ih _)

theorem expire (order : RangeOrder) (now : Word → ℤ) : SameQueue f (f.expire order now) := by
  refine foldl (g := id) (fun f hash => ?_) _ f
  dsimp only [id]
  split
  · split_ifs <;> exact ⟨rfl, rfl, rfl⟩
  · exact refl f

theorem notify (a : Announce) (height : UInt64) : SameQueue f (f.notify a height) := by
  simp only [Fetcher.notify]
  split_ifs <;> exact ⟨rfl, rfl, rfl⟩

theorem fetchHash (now : Word → ℤ) (rand : Word → ℕ) (known : Word → Bool) (hash : Word) :
    SameQueue f (f.fetchHash now rand known hash) := by
  rw [Fetcher.fetchHash]
  split
  · dsimp only
    split_ifs <;> exact ⟨rfl, rfl, rfl⟩
  · exact refl f

theorem completeHash (rand : Word → ℕ) (known : Word → Bool) (hash : Word) :
    SameQueue f (f.completeHash rand known hash) := by
  rw [Fetcher.completeHash]
  split
  · dsimp only
    split_ifs <;> exact ⟨rfl, rfl, rfl⟩
  · exact refl f

theorem scheduleBody (d : Delivered) : SameQueue f (f.scheduleBody d) := by
  rw [Fetcher.scheduleBody]
  split_ifs <;> exact ⟨rfl, rfl, rfl⟩

theorem sortHeader (derive : Derive) (peer : String) (time : ℤ) (s : Sorted) (x : Header × Bool) :
    SameQueue s.fetcher (Fetcher.sortHeader derive peer time s x).fetcher := by
  simp only [Fetcher.sortHeader]
  split
  · exact refl _
  · split_ifs <;> exact ⟨rfl, rfl, rfl⟩

theorem matchHash (derive : Derive) (peer : String) (body : Body) (known : Word → Bool)
    (s : Fetcher × List Block × Bool) (hash : Word) :
    SameQueue s.1 (Fetcher.matchHash derive peer body known s hash).1 := by
  simp only [Fetcher.matchHash]
  split
  · exact refl _
  · split_ifs <;> exact ⟨rfl, rfl, rfl⟩

theorem matchBody (derive : Derive) (order : RangeOrder) (peer : String) (s : Matched)
    (x : Body × (Word → Bool)) :
    SameQueue s.fetcher (Fetcher.matchBody derive order peer s x).fetcher :=
  foldl (g := Prod.fst) (SameQueue.matchHash derive peer x.1 x.2) _ (s.fetcher, s.blocks, false)

end SameQueue

end Fetcher

/-! ## Runs -/

/-- What the loop waits for. -/
inductive Event where
  | notify (a : Announce) (height : UInt64)
  | inject (op : Inject) (height : UInt64)
  | done (hash : Word)
  | fetchTimer (order : RangeOrder) (now : Word → ℤ) (rand : Word → ℕ) (known : Word → Bool)
  | completeTimer (order : RangeOrder) (rand : Word → ℕ) (known : Word → Bool)
  | headerFilter (peer : String) (headers : List (Header × Bool)) (time : ℤ) (height : ℕ → UInt64)
  | bodyFilter (order : RangeOrder) (peer : String) (transactions : List (List Transaction))
      (uncles : List (List Header)) (known : ℕ → Word → Bool) (height : ℕ → UInt64)

/-- The heights of the chain that an event reads are in `H`. -/
def Event.Within (H : Set UInt64) : Event → Prop
  | notify _ height | inject _ height => height ∈ H
  | headerFilter _ _ _ height | bodyFilter _ _ _ _ _ height => ∀ i, height i ∈ H
  | done _ | fetchTimer _ _ _ _ | completeTimer _ _ _ => True

section
variable (q : QueueFns Item Item.less) (derive : Derive)

/-- The `select` of `loop`. -/
def Fetcher.select (f : Fetcher) : Event → Fetcher
  | .notify a height => f.notify a height
  | .inject op height => f.enqueue q op.origin op.block height
  | .done hash => { (f.forgetHash hash).forgetBlock hash with importing := f.importing.erase hash }
  | .fetchTimer order now rand known =>
    (order.keys f.announced.keys).foldl (Fetcher.fetchHash now rand known) f
  | .completeTimer order rand known =>
    (order.keys f.fetched.keys).foldl (Fetcher.completeHash rand known) f
  | .headerFilter peer headers time height => (f.filterHeaders q derive peer headers time height).1
  | .bodyFilter order peer transactions uncles known height =>
    (f.filterBodies q derive order peer transactions uncles known height).1

/-- The phases of `loop`. -/
inductive Phase where
  | expire
  | imports
  | select

/-- The states before each phase, in runs that read heights in `H`. -/
inductive Reached (H : Set UInt64) : Phase → Fetcher → Prop
  | new : Reached H .expire {}
  | expire {f : Fetcher} (order : RangeOrder) (now : Word → ℤ) :
    Reached H .expire f → Reached H .imports (f.expire order now)
  | imports {f : Fetcher} (height : UInt64) (known : Word → Bool) :
    Reached H .imports f → height ∈ H → Reached H .select (f.imports q height known)
  | select {f : Fetcher} (ev : Event) : Reached H .select f → ev.Within H →
    (∀ hash, ev = .done hash → hash ∈ f.importing) → Reached H .expire (f.select q derive ev)

end

end GoEthereum.Eth
