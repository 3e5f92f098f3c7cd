/-
  The priority queue of `common/prque`.

  The items of the queue are in a stack of blocks of a fixed size.  The slice `active` is the
  block in which the stack ends, and `offset` the place in it after the last item.  The heap
  algorithm over the stack is the one of the standard library.  `none` stands for a panic: an
  index that is out of range, or a nil item.
-/
import Mathlib.Logic.Function.Basic
import GoEthereum.Lib.SwapHeap

namespace GoEthereum.Common

@[irreducible]
def blockSize : ℕ := 4096

theorem blockSize_pos : 0 < blockSize := by
  unfold blockSize
  decide

/-- An item, with the number of its allocation for its address. -/
structure Item (α : Type) where
  id : ℕ
  value : α
  priority : ℤ

abbrev Block (α : Type) := Fin blockSize → Option (Item α)

/-- The stack.  `active` is the number of the block the slice is of.  `calls` are the calls of
    `setIndex`, the last one first, each with the item whose value it was given. -/
structure Sstack (α : Type) where
  setIndex : Bool
  size : ℕ
  capacity : ℕ
  offset : ℕ
  blocks : List (Block α)
  active : ℕ
  calls : List (Item α × ℤ)

variable {α : Type}

/-! ## The stack -/

def newSstack (setIndex : Bool) (calls : List (Item α × ℤ)) : Sstack α :=
  ⟨setIndex, 0, blockSize, 0, [fun _ => none], 0, calls⟩

def read (blocks : List (Block α)) (b o : ℕ) : Option (Option (Item α)) := do
  let block ← blocks[b]?
  if h : o < blockSize then some (block ⟨o, h⟩) else none

def write (blocks : List (Block α)) (b o : ℕ) (x : Option (Item α)) : Option (List (Block α)) := do
  let block ← blocks[b]?
  if h : o < blockSize then some (blocks.set b (Function.update block ⟨o, h⟩ x)) else none

/-- The item at a position of the stack. -/
def cell (blocks : List (Block α)) (i : ℕ) : Option (Option (Item α)) :=
  read blocks (i / blockSize) (i % blockSize)

namespace Sstack

/-- Calls `setIndex`, if there is one. -/
def notify (s : Sstack α) (x : Option (Item α)) (i : ℤ) : Option (Sstack α) :=
  if s.setIndex then x.map fun x => { s with calls := (x, i) :: s.calls } else some s

/-- Makes room for an item. -/
def grow (s : Sstack α) : Option (Sstack α) :=
  if s.size = s.capacity then
    some { s with
      active := s.blocks.length, blocks := s.blocks ++ [fun _ => none],
      capacity := s.capacity + blockSize, offset := 0 }
  else if s.offset = blockSize then
    if s.size / blockSize < s.blocks.length then
      some { s with active := s.size / blockSize, offset := 0 }
    else none
  else some s

def push (s : Sstack α) (x : Item α) : Option (Sstack α) := do
  let s ← s.grow
  let s ← s.notify (some x) s.size
  let blocks ← write s.blocks s.active s.offset (some x)
  some { s with blocks := blocks, offset := s.offset + 1, size := s.size + 1 }

/-- Moves back to the last item. -/
def back (s : Sstack α) : Option (Sstack α) :=
  if s.offset = 0 then
    if (s.size - 1) / blockSize < s.blocks.length then
      some { s with
        size := s.size - 1, offset := blockSize - 1, active := (s.size - 1) / blockSize }
    else none
  else some { s with size := s.size - 1, offset := s.offset - 1 }

def pop (s : Sstack α) : Option (Option (Item α) × Sstack α) := do
  let s ← s.back
  let res ← read s.blocks s.active s.offset
  let blocks ← write s.blocks s.active s.offset none
  let s ← { s with blocks := blocks }.notify res (-1)
  some (res, s)

/-- Compares by the sign of the difference, as a number of 64 bits. -/
def less (s : Sstack α) (i j : ℕ) : Option Bool := do
  let x ← (← cell s.blocks i)
  let y ← (← cell s.blocks j)
  some (decide (0 < (x.priority - y.priority).bmod (2 ^ 64)))

def swap (s : Sstack α) (i j : ℕ) : Option (Sstack α) := do
  let a ← cell s.blocks j
  let b ← cell s.blocks i
  let s ← s.notify a i
  let s ← s.notify b j
  let blocks ← write s.blocks (i / blockSize) (i % blockSize) a
  let blocks ← write blocks (j / blockSize) (j % blockSize) b
  some { s with blocks := blocks }

end Sstack

/-! ## The queue -/

/-- The stack as the heap algorithm sees it. -/
def stackHeap : HeapInterface (Sstack α) (Item α) :=
  ⟨Sstack.size, Sstack.less, Sstack.swap, Sstack.push, Sstack.pop⟩

/-- The queue, and the number of items that were allocated. -/
structure Prque (α : Type) where
  cont : Sstack α
  allocs : ℕ

inductive Op (α : Type) where
  | push (data : α) (priority : ℤ)
  | pop
  | popItem
  | remove (i : ℤ)
  | reset

/-- What a call returns: nothing or nil, a value, a value with its priority, or an item. -/
inductive Ret (α : Type) where
  | nil
  | value (data : α)
  | prioritised (data : α) (priority : ℤ)
  | item (x : Option (Item α))

namespace Prque

def new (setIndex : Bool) : Prque α := ⟨newSstack setIndex [], 0⟩

def step (p : Prque α) : Op α → Option (Ret α × Prque α)
  | .push data priority => do
    let s ← stackHeap.heapPush p.cont ⟨p.allocs, data, priority⟩
    some (.nil, ⟨s, p.allocs + 1⟩)
  | .pop => do
    let (x, s) ← stackHeap.heapPop p.cont
    let item ← x
    some (.prioritised item.value item.priority, { p with cont := s })
  | .popItem => do
    let (x, s) ← stackHeap.heapPop p.cont
    let item ← x
    some (.value item.value, { p with cont := s })
  | .remove i =>
    if i < 0 then some (.nil, p)
    else do
      let (x, s) ← stackHeap.heapRemove p.cont i.toNat
      some (.item x, { p with cont := s })
  | .reset => some (.nil, { p with cont := newSstack p.cont.setIndex p.cont.calls })

/-- The items of the queue by position. -/
def items (p : Prque α) : List (Item α) :=
  (List.range p.cont.size).filterMap fun i => (cell p.cont.blocks i).join

end Prque

/-- The index of the last call for an item. -/
def lastIndex (calls : List (Item α × ℤ)) (x : Item α) : Option ℤ :=
  (calls.find? fun c => c.1.id = x.id).map Prod.snd

/-- Calls with a priority in the window from `w` and with an index of the queue. -/
def Allowed (w : ℤ) (p : Prque α) : Op α → Prop
  | .push _ priority => w ≤ priority ∧ priority < w + 2 ^ 63
  | .pop | .popItem => p.cont.size ≠ 0
  | .remove i => i < p.cont.size
  | .reset => True

/-- The queues after any number of calls. -/
inductive Reached (c : Bool) (w : ℤ) : Prque α → Prop
  | new : Reached c w (.new c)
  | step {p p' : Prque α} {op : Op α} {r : Ret α} : Reached c w p → Allowed w p op →
      p.step op = some (r, p') → Reached c w p'

/-! ## Blocks -/

section Blocks
variable {blocks : List (Block α)} {b o : ℕ} {x : Option (Item α)}

theorem lastIndex_cons (calls : List (Item α × ℤ)) (x y : Item α) (i : ℤ) :
    lastIndex ((y, i) :: calls) x = if y.id = x.id then some i else lastIndex calls x := by
  rw [lastIndex, List.find?_cons]
  split <;> simp_all [lastIndex]

theorem write_spec (hb : b < blocks.length) (ho : o < blockSize) (x : Option (Item α)) :
    ∃ bl, write blocks b o x = some bl ∧ bl.length = blocks.length ∧
      ∀ i, cell bl i = if i = b * blockSize + o then some x else cell blocks i := by
  refine ⟨blocks.set b (Function.update blocks[b] ⟨o, ho⟩ x), ?_, List.length_set, fun i => ?_⟩
  · simp [write, hb, ho]
  · have hlt : i % blockSize < blockSize := Nat.mod_lt _ blockSize_pos
    have hi := Nat.div_add_mod' i blockSize
    rw [cell, cell, read, read, List.getElem?_set]
    by_cases hbi : b = i / blockSize
    · rw [if_pos hbi, if_pos hb, ← hbi, List.getElem?_eq_getElem hb]
      dsimp only [bind, Option.bind]
      rw [dif_pos hlt, dif_pos hlt, Function.update_apply, if_congr Fin.mk_eq_mk rfl rfl]
      by_cases hoi : i % blockSize = o
      · rw [if_pos hoi, if_pos (by rw [hbi, ← hoi, hi])]
      · rw [if_neg hoi, if_neg fun h => hoi (by rw [← hi, ← hbi] at h; omega)]
    · rw [if_neg hbi, if_neg fun h => hbi ?_]
      rw [h, Nat.mul_comm, Nat.mul_add_div blockSize_pos, Nat.div_eq_of_lt ho, Nat.add_zero]

theorem cell_append {i : ℕ} (block : Block α) (hi : i < blocks.length * blockSize) :
    cell (blocks ++ [block]) i = cell blocks i := by
  rw [cell, cell, read, read, List.getElem?_append_left]
  exact Nat.div_lt_of_lt_mul (by rwa [Nat.mul_comm])

theorem read_eq_cell (ho : o < blockSize) : read blocks b o = cell blocks (b * blockSize + o) := by
  rw [cell, Nat.mul_comm, Nat.mul_add_div blockSize_pos, Nat.div_eq_of_lt ho, Nat.mul_add_mod,
    Nat.mod_eq_of_lt ho, Nat.add_zero]

end Blocks

/-! ## What the stack holds -/

/-- The stack holds the items of a list, at their positions. -/
structure Holds (s : Sstack α) (l : List (Item α)) : Prop where
  size : s.size = s.active * blockSize + s.offset
  offset : s.offset ≤ blockSize
  active : s.active < s.blocks.length
  capacity : s.capacity = s.blocks.length * blockSize
  length : l.length = s.size
  cell : ∀ i x, l[i]? = some x → cell s.blocks i = some (some x)
  nodup : (l.map Item.id).Nodup
  index : s.setIndex = true → ∀ (i : ℕ) x, l[i]? = some x → lastIndex s.calls x = some (i : ℤ)

variable {w : ℤ} {s : Sstack α} {l l' : List (Item α)} {i j n : ℕ} {x y : Item α}

theorem holds_new (c : Bool) (calls : List (Item α × ℤ)) : Holds (newSstack c calls) [] where
  size := (Nat.zero_mul _).symm
  offset := Nat.zero_le _
  active := Nat.zero_lt_one
  capacity := by rw [newSstack, List.length_singleton, Nat.one_mul]
  length := rfl
  cell i x hx := by simp at hx
  nodup := List.nodup_nil
  index _ i x hx := by simp at hx

theorem Holds.block_lt (hs : Holds s l) (hx : l[i]? = some x) :
    i / blockSize < s.blocks.length := by
  have hi := hs.length ▸ (List.getElem?_eq_some_iff.1 hx).1
  have h1 := hs.size
  have h2 := hs.offset
  have h3 := Nat.mul_le_mul_right blockSize (Nat.succ_le_of_lt hs.active)
  rw [Nat.succ_mul] at h3
  exact Nat.div_lt_of_lt_mul (by rw [Nat.mul_comm]; omega)

theorem Holds.eq_of_id (hs : Holds s l) (hx : l[i]? = some x) (hy : l[j]? = some y)
    (h : x.id = y.id) : i = j := by
  have hi : i < (l.map Item.id).length := by
    rw [List.length_map]
    exact (List.getElem?_eq_some_iff.1 hx).1
  refine (List.getElem?_inj hi hs.nodup).1 ?_
  rw [List.getElem?_map, List.getElem?_map, hx, hy, Option.map_some, Option.map_some, h]

theorem notify_spec (s : Sstack α) (x : Item α) (i : ℤ) :
    ∃ calls, s.notify (some x) i = some { s with calls := calls } ∧
      (s.setIndex = true → calls = (x, i) :: s.calls) := by
  by_cases hc : s.setIndex
  · exact ⟨_, if_pos hc, fun _ => rfl⟩
  · exact ⟨s.calls, if_neg hc, fun h => absurd h hc⟩

theorem swap_spec (hs : Holds s l) (hx : l[i]? = some x) (hy : l[j]? = some y) :
    ∃ s', s.swap i j = some s' ∧ Holds s' ((l.set i y).set j x) ∧ s'.setIndex = s.setIndex := by
  obtain ⟨calls, hcalls, hc⟩ := notify_spec s y i
  obtain ⟨calls', hcalls', hc'⟩ := notify_spec { s with calls := calls } x j
  obtain ⟨bl, hbl, hlen, hcell⟩ := write_spec (hs.block_lt hx) (Nat.mod_lt i blockSize_pos) (some y)
  obtain ⟨bl', hbl', hlen', hcell'⟩ := write_spec (hlen ▸ hs.block_lt hy)
    (Nat.mod_lt j blockSize_pos) (some x)
  have hperm := HeapInterface.perm_swap hx hy
  refine ⟨{ s with blocks := bl', calls := calls' }, ?_, ⟨hs.size, hs.offset, ?_, ?_, ?_,
    fun k z hz => ?_, (hperm.map _).nodup_iff.2 hs.nodup, fun hset k z hz => ?_⟩, rfl⟩
  · rw [Sstack.swap, hs.cell i x hx, hs.cell j y hy]
    dsimp only [bind, Option.bind]
    rw [hcalls]
    dsimp only
    rw [hcalls']
    dsimp only
    rw [hbl]
    dsimp only
    rw [hbl']
  · exact (hlen'.trans hlen) ▸ hs.active
  · exact (hlen'.trans hlen) ▸ hs.capacity
  · exact hperm.length_eq.trans hs.length
  · change Common.cell bl' k = _
    rw [HeapInterface.getElem?_swap hx hy] at hz
    rw [hcell', hcell, Nat.div_add_mod', Nat.div_add_mod']
    split_ifs at hz ⊢
    · rw [hz]
    · rw [hz]
    · exact hs.cell k z hz
  · change lastIndex calls' z = _
    rw [hc' hset, lastIndex_cons, hc hset, lastIndex_cons]
    rw [HeapInterface.getElem?_swap hx hy] at hz
    split_ifs at hz with hkj hki
    · cases hz
      rw [if_pos rfl, hkj]
    · cases hz
      rw [if_neg fun h => hkj (hki.trans (hs.eq_of_id hx hy h)), if_pos rfl, hki]
    · rw [if_neg fun h => hki (hs.eq_of_id hx hz h).symm,
        if_neg fun h => hkj (hs.eq_of_id hy hz h).symm]
      exact hs.index hset k z hz

theorem grow_spec (hs : Holds s l) : ∃ s', s.grow = some s' ∧ Holds s' l ∧
    s'.offset < blockSize ∧ s'.setIndex = s.setIndex := by
  have hsize := hs.size
  rw [Sstack.grow]
  by_cases hfull : s.size = s.capacity
  · rw [if_pos hfull]
    have hcap := hs.capacity
    refine ⟨_, rfl, ⟨by simpa [← hcap] using hfull, Nat.zero_le _, by simp, ?_, hs.length,
      fun i x hx => ?_, hs.nodup, hs.index⟩, blockSize_pos, rfl⟩
    · change s.capacity + blockSize = (s.blocks ++ [_]).length * blockSize
      rw [hcap, List.length_append, Nat.add_mul, List.length_singleton, Nat.one_mul]
    · rw [← hs.cell i x hx]
      refine cell_append _ ?_
      rw [← hcap, ← hfull, ← hs.length]
      exact (List.getElem?_eq_some_iff.1 hx).1
  · rw [if_neg hfull]
    by_cases hend : s.offset = blockSize
    · have hnext : s.size = (s.active + 1) * blockSize := by rw [hsize, hend, Nat.succ_mul]
      have hdiv : s.size / blockSize = s.active + 1 := by
        rw [hnext, Nat.mul_div_cancel _ blockSize_pos]
      have hlt : s.active + 1 < s.blocks.length := by
        refine lt_of_le_of_ne hs.active fun h => hfull ?_
        rw [hs.capacity, ← h, hnext]
      rw [if_pos hend, if_pos (by rw [hdiv]; exact hlt)]
      exact ⟨_, rfl, ⟨by simpa [hdiv] using hnext, Nat.zero_le _, by simpa [hdiv] using hlt,
        hs.capacity, hs.length, hs.cell, hs.nodup, hs.index⟩, blockSize_pos, rfl⟩
    · rw [if_neg hend]
      exact ⟨s, rfl, hs, lt_of_le_of_ne hs.offset hend, rfl⟩

theorem push_spec (hs : Holds s l) (hnew : ∀ y ∈ l, y.id ≠ x.id) : ∃ s', s.push x = some s' ∧
    Holds s' (l ++ [x]) ∧ s'.setIndex = s.setIndex := by
  obtain ⟨s₁, hgrow, hs₁, ho, hset⟩ := grow_spec hs
  rw [← hset]
  obtain ⟨calls, hcalls, hc⟩ := notify_spec s₁ x s₁.size
  obtain ⟨bl, hbl, hlen, hcell⟩ := write_spec hs₁.active ho (some x)
  rw [← hs₁.size] at hcell
  -- the new item is the last one, and the others are where they were
  have hcases : ∀ i y, (l ++ [x])[i]? = some y → i = s₁.size ∧ y = x ∨
      i ≠ s₁.size ∧ l[i]? = some y := by
    intro i y hy
    rw [← hs₁.length]
    rcases Nat.lt_or_ge i l.length with hi | hi
    · exact .inr ⟨hi.ne, (List.getElem?_append_left hi).symm.trans hy⟩
    · rw [List.getElem?_append_right hi, List.getElem?_singleton] at hy
      split_ifs at hy
      cases hy
      exact .inl ⟨by omega, rfl⟩
  refine ⟨{ s₁ with blocks := bl, calls := calls, offset := s₁.offset + 1, size := s₁.size + 1 },
    ?_, ⟨congrArg Nat.succ hs₁.size, ho, hlen ▸ hs₁.active, hlen ▸ hs₁.capacity, ?_,
      fun i y hy => ?_, ?_, fun hc' i y hy => ?_⟩, rfl⟩
  · rw [Sstack.push, hgrow]
    dsimp only [bind, Option.bind]
    rw [hcalls]
    dsimp only
    rw [hbl]
  · rw [List.length_append, hs₁.length]
    rfl
  · rw [hcell]
    rcases hcases i y hy with ⟨rfl, rfl⟩ | ⟨hne, hy⟩
    · rw [if_pos rfl]
    · rw [if_neg hne, hs₁.cell i y hy]
  · rw [List.map_append, List.map_singleton]
    exact List.nodup_append.2 ⟨hs.nodup, List.nodup_singleton _, by simpa using hnew⟩
  · change lastIndex calls y = _
    rw [hc hc', lastIndex_cons]
    rcases hcases i y hy with ⟨rfl, rfl⟩ | ⟨-, hy⟩
    · exact if_pos rfl
    · rw [if_neg (hnew y (List.mem_of_getElem? hy)).symm]
      exact hs₁.index hc' i y hy

theorem back_spec (hs : Holds s l) (hn : s.size = n + 1) : ∃ a o,
    s.back = some { s with size := n, active := a, offset := o } ∧ a < s.blocks.length ∧
      o < blockSize ∧ n = a * blockSize + o := by
  have hsize := hs.size
  have hact := hs.active
  rw [Sstack.back, hn, Nat.add_sub_cancel]
  by_cases hzero : s.offset = 0
  · have hpos := blockSize_pos
    rw [hzero, hn, Nat.add_zero] at hsize
    obtain ⟨a, ha⟩ : ∃ a, s.active = a + 1 := Nat.exists_eq_succ_of_ne_zero fun h => by
      rw [h, Nat.zero_mul] at hsize
      omega
    rw [ha, Nat.succ_mul] at hsize
    have hdiv : n / blockSize = a := by
      rw [show n = blockSize * a + (blockSize - 1) by rw [Nat.mul_comm]; omega,
        Nat.mul_add_div hpos, Nat.div_eq_of_lt (by omega), Nat.add_zero]
    rw [if_pos hzero, hdiv, if_pos (by omega)]
    exact ⟨a, blockSize - 1, rfl, by omega, by omega, by omega⟩
  · have hoff := hs.offset
    rw [if_neg hzero]
    exact ⟨s.active, s.offset - 1, rfl, hact, by omega, by omega⟩

theorem pop_spec (hs : Holds s (l ++ [x])) : ∃ s', s.pop = some (some x, s') ∧
    Holds s' l ∧ s'.setIndex = s.setIndex := by
  have hsize : s.size = l.length + 1 := hs.length ▸ List.length_append
  have hlast : (l ++ [x])[l.length]? = some x := List.getElem?_concat_length
  have hleft : ∀ {i y}, l[i]? = some y → i < l.length ∧ (l ++ [x])[i]? = some y := fun hy =>
    have hi := (List.getElem?_eq_some_iff.1 hy).1
    ⟨hi, (List.getElem?_append_left hi).trans hy⟩
  obtain ⟨a, o, hback, ha, ho, hao⟩ := back_spec hs hsize
  obtain ⟨bl, hbl, hlen, hcell⟩ := write_spec ha ho none
  obtain ⟨calls, hcalls, hc⟩ :=
    notify_spec { s with size := l.length, active := a, offset := o, blocks := bl } x (-1)
  refine ⟨{ s with size := l.length, active := a, offset := o, blocks := bl, calls := calls }, ?_,
    ⟨hao, ho.le, hlen ▸ ha, hlen ▸ hs.capacity, rfl, fun i y hy => ?_, ?_,
      fun hset i y hy => ?_⟩, rfl⟩
  · rw [Sstack.pop, hback]
    dsimp only [bind, Option.bind]
    rw [read_eq_cell ho, ← hao, hs.cell _ x hlast]
    dsimp only
    rw [hbl]
    dsimp only
    rw [hcalls]
  · rw [hcell, if_neg (hao ▸ (hleft hy).1.ne)]
    exact hs.cell i y (hleft hy).2
  · exact hs.nodup.sublist ((List.sublist_append_left l [x]).map _)
  · change lastIndex calls y = _
    rw [hc hset, lastIndex_cons,
      if_neg fun h => (hleft hy).1.ne' (hs.eq_of_id hlast (hleft hy).2 h)]
    exact hs.index hset i y (hleft hy).2

/-! ## The heap -/

/-- The comparison of items, and the key by which they are compared in a window: the greater the
    priority, the nearer to the front. -/
def before (x y : Item α) : Bool := decide (0 < (x.priority - y.priority).bmod (2 ^ 64))

def key (x : Item α) : ℤ := -x.priority

theorem comparesBy_window (hw : ∀ x ∈ l, w ≤ x.priority ∧ x.priority < w + 2 ^ 63) :
    ComparesBy before key l := by
  intro x hx y hy
  have hwx := hw x hx
  have hwy := hw y hy
  rw [before, decide_eq_true_iff, Int.bmod_eq_of_le (by omega) (by omega), key, key]
  omega

theorem heap_presents (c : Bool) : stackHeap.Presents (α := Item α) before
    (fun l x => ∀ y ∈ l, y.id ≠ x.id) fun s l => Holds s l ∧ s.setIndex = c where
  less {s l i j x y} hs hx hy := by
    change s.less i j = _
    rw [Sstack.less, hs.1.cell i x hx, hs.1.cell j y hy]
    rfl
  swap hs hx hy := by
    obtain ⟨hs, rfl⟩ := hs
    exact swap_spec hs hx hy
  len hs := hs.1.length.symm
  push hs hx := by
    obtain ⟨hs, rfl⟩ := hs
    exact push_spec hs hx
  pop hs := by
    obtain ⟨hs, rfl⟩ := hs
    exact pop_spec hs

open HeapInterface

/-! ## Runs -/

/-- The queue holds the items of a list, which are in the order of a heap. -/
structure Queue (c : Bool) (w : ℤ) (p : Prque α) (l : List (Item α)) : Prop where
  holds : Holds p.cont l
  callback : p.cont.setIndex = c
  heap : IsHeap key l
  item : ∀ x ∈ l, x.id < p.allocs ∧ w ≤ x.priority ∧ x.priority < w + 2 ^ 63

variable {c : Bool} {p p' : Prque α} {op : Op α} {r : Ret α}

theorem Queue.items_eq (hp : Queue c w p l) : p.items = l := by
  have hcells : (List.range p.cont.size).map (fun i => (cell p.cont.blocks i).join) =
      l.map some := by
    refine List.ext_getElem (by simp [hp.holds.length]) fun i _ hi => ?_
    rw [List.length_map] at hi
    rw [List.getElem_map, List.getElem_map, List.getElem_range,
      hp.holds.cell i _ (List.getElem?_eq_getElem hi)]
    rfl
  have hitems := List.filterMap_map (f := fun i => (cell p.cont.blocks i).join) (g := id)
    (l := List.range p.cont.size)
  rw [hcells, List.filterMap_map] at hitems
  exact hitems.symm.trans (List.filterMap_some ..)

theorem Queue.compares (hp : Queue c w p l) : ComparesBy before key l :=
  comparesBy_window fun x hx => (hp.item x hx).2

/-- What a call does to the items of the queue, and what it returns. -/
def Effect (p : Prque α) (r : Ret α) (p' : Prque α) : Op α → Prop
  | .push data priority => r = .nil ∧ p'.items.Perm (⟨p.allocs, data, priority⟩ :: p.items)
  | .pop => ∃ x, p.items.Perm (x :: p'.items) ∧ (∀ y ∈ p.items, y.priority ≤ x.priority) ∧
      r = .prioritised x.value x.priority
  | .popItem => ∃ x, p.items.Perm (x :: p'.items) ∧ (∀ y ∈ p.items, y.priority ≤ x.priority) ∧
      r = .value x.value
  | .remove i => if i < 0 then r = .nil ∧ p' = p
      else ∃ x, p.items[i.toNat]? = some x ∧ p.items.Perm (x :: p'.items) ∧ r = .item (some x)
  | .reset => r = .nil ∧ p'.items = []

theorem Queue.push (hp : Queue c w p l) (data : α) (priority : ℤ)
    (hw : w ≤ priority ∧ priority < w + 2 ^ 63) :
    ∃ s l', stackHeap.heapPush p.cont ⟨p.allocs, data, priority⟩ = some s ∧
      Queue c w ⟨s, p.allocs + 1⟩ l' ∧ l'.Perm (⟨p.allocs, data, priority⟩ :: l) := by
  obtain ⟨s, l', hpush, ⟨hs, hc⟩, hperm, hheap⟩ := heapPush_spec key (heap_presents c)
    ⟨hp.holds, hp.callback⟩ (x := ⟨p.allocs, data, priority⟩) fun y hy => (hp.item y hy).1.ne
  have hitem : ∀ x ∈ ⟨p.allocs, data, priority⟩ :: l,
      x.id < p.allocs + 1 ∧ w ≤ x.priority ∧ x.priority < w + 2 ^ 63 := by
    rintro x (_ | ⟨_, hx⟩)
    · exact ⟨Nat.lt_succ_self _, hw⟩
    · exact ⟨(hp.item x hx).1.trans (Nat.lt_succ_self _), (hp.item x hx).2⟩
  exact ⟨s, l', hpush, ⟨hs, hc, hheap (comparesBy_window fun x hx => (hitem x hx).2) hp.heap,
    fun x hx => hitem x (hperm.subset hx)⟩, hperm⟩

theorem Queue.pop (hp : Queue c w p l) (hne : p.cont.size ≠ 0) :
    ∃ x s l', stackHeap.heapPop p.cont = some (some x, s) ∧ Queue c w { p with cont := s } l' ∧
      p.items.Perm (x :: Prque.items { p with cont := s }) ∧
      ∀ y ∈ p.items, y.priority ≤ x.priority := by
  obtain ⟨x, rest, rfl⟩ : ∃ x rest, l = x :: rest := List.exists_cons_of_ne_nil fun h =>
    hne (by rw [← hp.holds.length, h]; rfl)
  obtain ⟨s, l', hpop, ⟨hs, hc⟩, hperm, hheap⟩ :=
    heapPop_spec key (heap_presents c) ⟨hp.holds, hp.callback⟩
  have hq : Queue c w { p with cont := s } l' := ⟨hs, hc, hheap hp.compares hp.heap,
    fun y hy => hp.item y (.tail _ (hperm.subset hy))⟩
  rw [hp.items_eq]
  exact ⟨x, s, l', hpop, hq, hq.items_eq.symm ▸ (hperm.cons x).symm,
    fun y hy => neg_le_neg_iff.1 (hp.heap.head_le y hy)⟩

theorem Queue.remove (hp : Queue c w p l) (hi : i < p.cont.size) :
    ∃ x s l', stackHeap.heapRemove p.cont i = some (some x, s) ∧
      Queue c w { p with cont := s } l' ∧ l[i]? = some x ∧ l.Perm (x :: l') := by
  have hx := List.getElem?_eq_getElem (hp.holds.length ▸ hi)
  obtain ⟨s, l', hremove, ⟨hs, hc⟩, hperm, hheap⟩ :=
    heapRemove_spec key (heap_presents c) ⟨hp.holds, hp.callback⟩ hx
  exact ⟨_, s, l', hremove, ⟨hs, hc, hheap hp.compares hp.heap,
    fun y hy => hp.item y (hperm.subset (.tail _ hy))⟩, hx, hperm.symm⟩

theorem Queue.step (hp : Queue c w p l) (ha : Allowed w p op) :
    ∃ r p' l', p.step op = some (r, p') ∧ Queue c w p' l' ∧ Effect p r p' op := by
  cases op with
  | push data priority =>
    obtain ⟨s, l', hpush, hq, hperm⟩ := hp.push data priority ha
    refine ⟨.nil, ⟨s, p.allocs + 1⟩, l', ?_, hq, rfl, ?_⟩
    · rw [Prque.step, hpush]
      rfl
    · rwa [hq.items_eq, hp.items_eq]
  | pop | popItem =>
    obtain ⟨x, s, l', hpop, hq, hperm, hmax⟩ := hp.pop ha
    refine ⟨_, _, l', ?_, hq, x, hperm, hmax, rfl⟩
    rw [Prque.step, hpop]
    rfl
  | remove i =>
    simp only [Prque.step, Effect]
    by_cases hi : i < 0
    · simp only [if_pos hi]
      exact ⟨_, _, l, rfl, hp, rfl, rfl⟩
    · have hlt : i < p.cont.size := ha
      obtain ⟨x, s, l', hremove, hq, hx, hperm⟩ := hp.remove (i := i.toNat) (by omega)
      simp only [if_neg hi, hremove, hp.items_eq]
      exact ⟨_, _, l', rfl, hq, x, hx, hq.items_eq ▸ hperm, rfl⟩
  | reset =>
    exact ⟨_, _, [], rfl, ⟨holds_new .., hp.callback, isHeap_nil, nofun⟩, rfl, rfl⟩

theorem queue_new (c : Bool) : Queue c w (.new c : Prque α) [] :=
  ⟨holds_new .., rfl, isHeap_nil, nofun⟩

theorem Reached.queue (h : Reached c w p) : ∃ l, Queue c w p l := by
  induction h with
  | new => exact ⟨[], queue_new c⟩
  | step _ ha hstep ih =>
    obtain ⟨l, hp⟩ := ih
    obtain ⟨r, p', l', hstep', hq, -⟩ := hp.step ha
    rw [hstep] at hstep'
    cases hstep'
    exact ⟨l', hq⟩

/-- The result of a call that removes is the value of the item at that index. -/
def ReturnsValue (p : Prque α) (r : Ret α) (op : Op α) : Prop :=
  ∀ i x, op = .remove i → 0 ≤ i → p.items[i.toNat]? = some x → r = .value x.value

/-- **The priority queue.**  After any calls, there is an item at every position and the last
    call of its callback was for that position.  No call panics: a push adds its item, a pop
    takes one of greatest priority, and a removal takes the one at its index.  What the
    removal returns is not the value that was pushed, but the item of the heap around it. -/
theorem prque_run (h : Reached c w p) : p.items.length = p.cont.size ∧
    (c = true → ∀ (i : ℕ) x, p.items[i]? = some x → lastIndex p.cont.calls x = some (i : ℤ)) ∧
    ∀ op, Allowed w p op → ∃ r p', p.step op = some (r, p') ∧ Effect p r p' op ∧
      (ReturnsValue p r op ↔ ∀ i, op = .remove i → i < 0) := by
  obtain ⟨l, hp⟩ := h.queue
  refine ⟨by rw [hp.items_eq, hp.holds.length], fun hc i x hx => ?_, fun op ha => ?_⟩
  · rw [hp.items_eq] at hx
    exact hp.holds.index (hp.callback.trans hc) i x hx
  · obtain ⟨r, p', l', hstep, -, heffect⟩ := hp.step ha
    refine ⟨r, p', hstep, heffect, fun hr i hi => ?_, fun hneg i x hi h0 => ?_⟩
    · by_contra h0
      subst hi
      rw [Effect.eq_def] at heffect
      dsimp only at heffect
      rw [if_neg h0] at heffect
      obtain ⟨x, hx, -, hitem⟩ := heffect
      rw [hr i x rfl (not_lt.1 h0) hx] at hitem
      cases hitem
    · exact absurd (hneg i hi) (not_lt.2 h0)

/-- Of two values, the one of greater priority is popped. -/
theorem prque_run_two : ∃ (r₁ r₂ : Ret ℕ) (p₁ p₂ p₃ : Prque ℕ),
    (Prque.new true).step (.push 7 1) = some (r₁, p₁) ∧ p₁.step (.push 9 2) = some (r₂, p₂) ∧
      p₂.step .pop = some (.prioritised 9 2, p₃) := by
  have h₀ : Reached true 0 (Prque.new true : Prque ℕ) := .new
  have ha₁ : Allowed 0 (Prque.new true) (.push 7 1 : Op ℕ) := by constructor <;> decide
  obtain ⟨r₁, p₁, hstep₁, ⟨-, hitems₁⟩, -⟩ := (prque_run h₀).2.2 _ ha₁
  have ha₂ : Allowed 0 p₁ (.push 9 2) := by constructor <;> decide
  have h₁ := h₀.step ha₁ hstep₁
  obtain ⟨r₂, p₂, hstep₂, ⟨-, hitems₂⟩, -⟩ := (prque_run h₁).2.2 _ ha₂
  obtain ⟨hlen, -, hops⟩ := prque_run (h₁.step ha₂ hstep₂)
  obtain ⟨r₃, p₃, hstep₃, ⟨x, hx, hmax, rfl⟩, -⟩ := hops .pop (by
    rw [Allowed, ← hlen, hitems₂.length_eq]
    exact Nat.succ_ne_zero _)
  have hmem : x ∈ p₂.items := hx.mem_iff.2 (.head _)
  have hgreater : 2 ≤ x.priority := hmax _ (hitems₂.mem_iff.2 (.head _))
  rcases List.mem_cons.1 (hitems₂.mem_iff.1 hmem) with rfl | hmem
  · exact ⟨r₁, r₂, p₁, p₂, p₃, hstep₁, hstep₂, hstep₃⟩
  · rw [List.mem_singleton.1 (hitems₁.mem_iff.1 hmem)] at hgreater
    exact absurd hgreater (by decide)

/-- The only item, with the value 7, is removed.  The call returns the item. -/
theorem remove_item : ∃ p p' : Prque ℕ, (Prque.new true).step (.push 7 1) = some (.nil, p) ∧
    p.items = [⟨0, 7, 1⟩] ∧ p.step (.remove 0) = some (.item (some ⟨0, 7, 1⟩), p') ∧
    Ret.item (some ⟨0, 7, 1⟩) ≠ Ret.value 7 := by
  have hnew : Queue true 0 (Prque.new true : Prque ℕ) [] := queue_new true
  obtain ⟨s, l, hpush, hp, hperm⟩ := hnew.push 7 1 (by decide)
  obtain rfl : l = [⟨0, 7, 1⟩] := List.perm_singleton.1 hperm
  change Queue true 0 ⟨s, 1⟩ [⟨0, 7, 1⟩] at hp
  obtain ⟨x, s', l', hremove, -, hx, -⟩ :=
    hp.remove (i := 0) (hp.holds.length ▸ Nat.zero_lt_one)
  cases hx
  refine ⟨⟨s, 1⟩, ⟨s', 1⟩, ?_, hp.items_eq, ?_, by simp⟩
  · rw [Prque.step]
    change (stackHeap.heapPush _ _).bind _ = _
    rw [hpush]
    rfl
  · rw [Prque.step, if_neg (by decide)]
    change (stackHeap.heapRemove _ _).bind _ = _
    rw [Int.toNat_zero, hremove]
    rfl

end GoEthereum.Common
