/-
  The states that a full node keeps: `writeBlockWithState` references the root of each state
  that it writes, and dereferences those that lie `triesInMemory` blocks back.

  The queue is ordered by the numbers of the blocks, with the lowest one first as long as
  numbers are below `2 ^ 63`; the window does not depend on the order.  The trie database
  is the list of the calls it gets.  Sizes and times, which decide about flushes, are
  arguments.
-/
import GoEthereum.Core.Canonical
import GoEthereum.Lib.SwapHeap

namespace GoEthereum.Core

open BlockTree BlockChain Outcome

/-- A root in the queue, with the number of its block. -/
structure Item where
  root : Word
  number : UInt64
deriving DecidableEq

/-- The priority of an item, `-int64(number)`. -/
def Item.priority (i : Item) : Int64 := -i.number.toInt64

/-- The highest priority comes first. -/
def Item.key (i : Item) : ℤ := -i.priority.toInt

theorem Item.key_eq {i : Item} (h : i.number.toNat < 2 ^ 63) : i.key = i.number.toNat := by
  have hint : i.number.toInt64.toInt = (i.number.toNat : ℤ).bmod (2 ^ 64) :=
    BitVec.toInt_eq_toNat_bmod _
  rw [key, priority, Int64.toInt_neg, hint]
  simp only [Int.bmod_def]
  omega

/-- The calls of the trie database; that of an item is a call for its root. -/
inductive TrieCall where
  | reference (i : Item)
  | dereference (i : Item)
  | cap
  | commit (root : Word)

/-- What decides about flushes: the sizes are over their limits, and so is the time. -/
structure Flush where
  size : Bool := false
  time : Bool := false

/-- `triegc` and the calls of the trie database, the first one first. -/
structure TrieGc where
  triegc : List Item := []
  calls : List TrieCall := []

namespace TrieGc

variable (heap : HeapFns)

def call (gc : TrieGc) (c : TrieCall) : TrieGc := { gc with calls := gc.calls ++ [c] }

/-- The loop that dereferences old roots. -/
def collect (chosen : UInt64) : ℕ → TrieGc → Option TrieGc
  | 0, gc => if gc.triegc = [] then some gc else none
  | fuel + 1, gc =>
    match gc.triegc with
    | [] => some gc
    | _ :: _ => do
      let (i, triegc) ← heap.pop Item.key gc.triegc
      if i.number > chosen then return { gc with triegc := heap.push Item.key triegc i }
      else collect chosen fuel ({ gc with triegc }.call (.dereference i))

/-- The part of `writeBlockWithState` for full nodes; `none` is a nil header. -/
def write (gc : TrieGc) (flush : Flush) (i : Item) (header : Option Header) : Option TrieGc := do
  let gc := gc.call (.reference i)
  let gc := { gc with triegc := heap.push Item.key gc.triegc i }
  if i.number > triesInMemory then
    let gc := if flush.size then gc.call .cap else gc
    let header ← header
    let gc := if flush.time then gc.call (.commit header.root) else gc
    gc.collect heap header.numberU64 gc.triegc.length
  else return gc

/-- The items of some calls. -/
def referenced (gc : TrieGc) : List Item :=
  gc.calls.filterMap fun | .reference i => some i | _ => none

def dereferenced (gc : TrieGc) : List Item :=
  gc.calls.filterMap fun | .dereference i => some i | _ => none

end TrieGc

/-- A chain with the states that it keeps. -/
structure PruningChain where
  bc : BlockChain
  gc : TrieGc := {}

/-- `writeBlockWithState` with the references; `root` is what `Commit` returned. -/
def PruningChain.write (s : PruningChain) (heap : HeapFns) (cfg : ChainConfig) (answers : Answers)
    (flush : Flush) (root : Word) (b : Block) :
    Except Fault (WriteStatus × Option ChainError × PruningChain) := do
  let (status, err, bc) ← s.bc.writeBlockWithState cfg answers b
  match s.bc.getTd b.parentHash (b.numberU64 - 1) with
  | none => return (status, err, { s with bc })
  | some ptd =>
    if !answers.committed then return (status, err, { s with bc })
    else if cfg.disabled then return (status, err, ⟨bc, s.gc.call (.commit root)⟩)
    else
      let stored := s.bc.writeBlockWithoutState b (b.difficulty + ptd)
      let header := stored.getHeaderByNumber (b.numberU64 - triesInMemory)
      match s.gc.write heap flush ⟨root, b.numberU64⟩ header with
      | none => .error .nilPointer
      | some gc => return (status, err, ⟨bc, gc⟩)

/-- The state of the block is written: its parent is known. -/
def PruningChain.Stores (s : PruningChain) (answers : Answers) (b : Block) : Prop :=
  answers.committed = true ∧ (s.bc.getTd b.parentHash (b.numberU64 - 1)).isSome = true

/-- A chain after blocks of a tree were written, each under the condition `P`; with the blocks
    whose states were written, and their roots. -/
inductive Runs (T : BlockTree) (cfg : ChainConfig) (heap : HeapFns)
    (P : PruningChain → Block → Prop) : List (Block × Word) → PruningChain → Prop
  | genesis : Runs T cfg heap P [] { bc := ofGenesis T.genesis }
  | write {ws : List (Block × Word)} {s s' : PruningChain} {b : Block} {root : Word}
      {status : WriteStatus} {err : Option ChainError} (answers : Answers) (flush : Flush) :
      Runs T cfg heap P ws s → T.mem b → b ≠ T.genesis → P s b → s.Stores answers b →
      s.write heap cfg answers flush root b = .ok (status, err, s') →
      Runs T cfg heap P (ws ++ [(b, root)]) s'
  | refuse {ws : List (Block × Word)} {s s' : PruningChain} {b : Block} {root : Word}
      {status : WriteStatus} {err : Option ChainError} (answers : Answers) (flush : Flush) :
      Runs T cfg heap P ws s → T.mem b → b ≠ T.genesis → P s b → ¬ s.Stores answers b →
      s.write heap cfg answers flush root b = .ok (status, err, s') → Runs T cfg heap P ws s'

/-- The block is at most `triesInMemory` numbers above the head. -/
def Near (s : PruningChain) (b : Block) : Prop :=
  b.number ≤ s.bc.currentBlock.number + triesInMemory.toNat

/-! ## The queue -/

/-- The item of a block that was written, with the root of its state. -/
def Item.ofWrite (w : Block × Word) : Item := ⟨w.2, w.1.numberU64⟩

namespace TrieGc
variable {gc : TrieGc} {ws : List (Block × Word)} {i : Item}

@[simp] theorem referenced_reference : (gc.call (.reference i)).referenced = gc.referenced ++ [i] := by
  simp [referenced, call]

@[simp] theorem referenced_dereference :
    (gc.call (.dereference i)).referenced = gc.referenced := by
  simp [referenced, call]

@[simp] theorem dereferenced_reference :
    (gc.call (.reference i)).dereferenced = gc.dereferenced := by
  simp [dereferenced, call]

@[simp] theorem dereferenced_dereference :
    (gc.call (.dereference i)).dereferenced = gc.dereferenced ++ [i] := by
  simp [dereferenced, call]

/-- No item of the queue comes before those above a number. -/
def Above (chosen : UInt64) (q : List Item) : Prop :=
  ∀ i ∈ q, ∃ j ∈ q, chosen < j.number ∧ j.key ≤ i.key

/-- The queue and the calls after some blocks were written. -/
structure Kept (ws : List (Block × Word)) (gc : TrieGc) : Prop where
  heap : IsHeap Item.key gc.triegc
  referenced : gc.referenced = ws.map Item.ofWrite
  perm : (gc.dereferenced ++ gc.triegc).Perm (ws.map Item.ofWrite)
  old : ∀ i ∈ gc.dereferenced, ∃ w ∈ ws, i.number.toNat + triesInMemory.toNat ≤ w.1.number

theorem Kept.flush (h : Kept ws gc) {c : TrieCall} (hr : ∀ i, c ≠ .reference i)
    (hd : ∀ i, c ≠ .dereference i) : Kept ws (gc.call c) := by
  have hcalls : (gc.call c).referenced = gc.referenced ∧
      (gc.call c).dereferenced = gc.dereferenced := by
    cases c with
    | reference i => exact absurd rfl (hr i)
    | dereference i => exact absurd rfl (hd i)
    | cap | commit => simp [TrieGc.referenced, TrieGc.dereferenced, call]
  exact ⟨h.heap, hcalls.1.trans h.referenced, by rw [hcalls.2]; exact h.perm,
    by rw [hcalls.2]; exact h.old⟩

theorem Kept.collect (h : Kept ws gc) (heap : HeapFns) {chosen : UInt64} {fuel : ℕ}
    (hfuel : gc.triegc.length ≤ fuel)
    (hchosen : ∃ w ∈ ws, chosen.toNat + triesInMemory.toNat ≤ w.1.number) :
    ∃ gc', gc.collect heap chosen fuel = some gc' ∧ Kept ws gc' ∧ Above chosen gc'.triegc := by
  have hempty (hnil : gc.triegc = []) : Above chosen gc.triegc := by
    rw [hnil]
    exact fun i hi => by cases hi
  induction fuel generalizing gc with
  | zero =>
    have hnil : gc.triegc = [] := List.length_eq_zero_iff.1 (by omega)
    exact ⟨gc, by rw [TrieGc.collect, if_pos hnil], h, hempty hnil⟩
  | succ fuel ih =>
    rw [TrieGc.collect]
    rcases hq : gc.triegc with _ | ⟨i, q⟩
    · exact ⟨gc, rfl, h, hempty hq⟩
    · have hheap := h.heap
      have hperm := h.perm
      rw [hq] at hheap hperm hfuel
      obtain ⟨rest, hpop, hrest, hrestPerm⟩ := heap.pop_spec hheap
      rw [hpop, Option.bind_eq_bind, Option.bind_some]
      dsimp only
      split_ifs with hgt
      · have hback := (heap.push_spec i hrest).2.trans (hrestPerm.cons i)
        refine ⟨_, rfl, ⟨(heap.push_spec i hrest).1, h.referenced,
          (hback.append_left _).trans hperm, h.old⟩, fun j hj => ?_⟩
        exact ⟨i, hback.mem_iff.2 List.mem_cons_self, hgt, hheap.head_le j (hback.mem_iff.1 hj)⟩
      · refine ih ⟨hrest, ?_, ?_, ?_⟩ ?_ fun hnil i hi => by cases hnil ▸ hi
        · rw [referenced_dereference]
          exact h.referenced
        · rw [dereferenced_dereference, List.append_assoc]
          exact ((hrestPerm.cons i).append_left _).trans hperm
        · intro j hj
          rw [dereferenced_dereference, List.mem_append, List.mem_singleton] at hj
          rcases hj with hj | rfl
          · exact h.old j hj
          · obtain ⟨w, hw, hle⟩ := hchosen
            refine ⟨w, hw, le_trans ?_ hle⟩
            have := UInt64.le_iff_toNat_le.1 (UInt64.not_lt.1 hgt)
            omega
        · have := hrestPerm.length_eq
          rw [List.length_cons] at hfuel
          exact this.trans_le (by omega)

theorem Kept.write (h : Kept ws gc) (heap : HeapFns) (flush : Flush) {w : Block × Word}
    {header : Option Header} (hheader : w.1.numberU64 > triesInMemory → ∃ hd, header = some hd ∧
      hd.numberU64.toNat + triesInMemory.toNat ≤ w.1.number) :
    ∃ gc', gc.write heap flush (.ofWrite w) header = some gc' ∧ Kept (ws ++ [w]) gc' ∧
      (w.1.numberU64 > triesInMemory → ∀ hd, header = some hd → Above hd.numberU64 gc'.triegc) := by
  have hpush : Kept (ws ++ [w]) { gc.call (.reference (.ofWrite w)) with
      triegc := heap.push Item.key gc.triegc (.ofWrite w) } := by
    refine ⟨(heap.push_spec _ h.heap).1, ?_, ?_, ?_⟩
    · change (gc.call (.reference (.ofWrite w))).referenced = _
      rw [referenced_reference, h.referenced, List.map_append]
      rfl
    · change ((gc.call (.reference (.ofWrite w))).dereferenced ++ _).Perm _
      rw [dereferenced_reference, List.map_append]
      exact ((heap.push_spec _ h.heap).2.append_left _).trans
        (List.perm_middle.trans ((h.perm.cons _).trans (List.perm_append_singleton _ _).symm))
    · change ∀ i ∈ (gc.call (.reference (.ofWrite w))).dereferenced, _
      rw [dereferenced_reference]
      intro i hi
      obtain ⟨w', hw', hle⟩ := h.old i hi
      exact ⟨w', List.mem_append_left _ hw', hle⟩
  have hflush {gc : TrieGc} (h : Kept (ws ++ [w]) gc) (c : Bool) (call : TrieCall)
      (hr : ∀ i, call ≠ .reference i) (hd : ∀ i, call ≠ .dereference i) :
      Kept (ws ++ [w]) (if c then gc.call call else gc) := by
    split_ifs
    · exact h.flush hr hd
    · exact h
  rw [TrieGc.write]
  dsimp only
  by_cases hgt : w.1.numberU64 > triesInMemory
  · obtain ⟨hd, rfl, hle⟩ := hheader hgt
    rw [show (Item.ofWrite w).number = w.1.numberU64 from rfl, if_pos hgt, Option.bind_eq_bind,
      Option.bind_some]
    obtain ⟨gc', hcollect, hkept, habove⟩ :=
      (hflush (hflush hpush flush.size .cap (by simp) (by simp)) flush.time (.commit hd.root)
        (by simp) (by simp)).collect heap le_rfl ⟨w, by simp, hle⟩
    exact ⟨gc', hcollect, hkept, fun _ hd hhd => by cases hhd; exact habove⟩
  · rw [show (Item.ofWrite w).number = w.1.numberU64 from rfl, if_neg hgt]
    exact ⟨_, rfl, hpush, fun hlt => absurd hlt hgt⟩

end TrieGc

/-! ## The chain -/

section
variable {T : BlockTree} {bc : BlockChain} {cfg : ChainConfig} {heap : HeapFns}
  {answers : Answers} {b a : Block} {s : PruningChain} {ws : List (Block × Word)}

theorem DbOk.stored_anc {db : ChainDb} (h : DbOk T db) (hb : Stored db b) (ha : T.nodes.Anc b a) :
    Stored db a := by
  induction ha with
  | refl => exact hb
  | tail _ hp ih => exact h.parents ih hp

theorem ChainOk.getHeaderByNumber (h : ChainOk T bc) (hb : T.mem b) (td : ℤ) {n : ℕ}
    (hn : n ≤ bc.currentBlock.number) : ∃ header : Header,
      (bc.writeBlockWithoutState b td).getHeaderByNumber (.ofNat n) = some header ∧
      header.number = n := by
  obtain ⟨a, ha, rfl, hhash⟩ := h.ancestors n hn
  have hmem := ha.mem h.head_mem
  have hstored := (stored_put hmem hb td).2 (.inr (h.db.stored_anc h.head ha))
  refine ⟨a.header, ?_, rfl⟩
  have hindex : (bc.writeBlockWithoutState b td).db.readCanonicalHash (.ofNat a.number) = a.hash :=
    hhash
  rw [BlockChain.getHeaderByNumber, hindex, if_neg (T.hash_ne_zero hmem)]
  exact hstored.header

/-- The parts of a write. -/
theorem PruningChain.write_eq_ok {s s' : PruningChain} {flush : Flush} {root : Word}
    {status : WriteStatus} {err : Option ChainError}
    (h : s.write heap cfg answers flush root b = .ok (status, err, s')) :
    s.bc.writeBlockWithState cfg answers b = .ok (status, err, s'.bc) ∧
    (¬ s.Stores answers b → s'.gc = s.gc) ∧
    (s.Stores answers b → cfg.disabled = false → ∃ ptd,
      s.bc.getTd b.parentHash (b.numberU64 - 1) = some ptd ∧
      s.gc.write heap flush (.ofWrite (b, root)) ((s.bc.writeBlockWithoutState b
        (b.difficulty + ptd)).getHeaderByNumber (b.numberU64 - triesInMemory)) = some s'.gc) := by
  obtain ⟨⟨status', err', bc⟩, hwrite, h⟩ := bind_eq_ok h
  dsimp only at h
  rcases hptd : s.bc.getTd b.parentHash (b.numberU64 - 1) with _ | ptd
  · rw [hptd] at h
    cases h
    refine ⟨hwrite, fun _ => rfl, fun hstores => ?_⟩
    rw [Stores, hptd] at hstores
    cases hstores.2
  · rw [hptd] at h
    dsimp only at h
    have hstores : s.Stores answers b ↔ answers.committed = true := by
      rw [Stores, hptd]
      exact and_iff_left rfl
    rw [hstores]
    rcases hc : answers.committed with _ | _
    · rw [hc] at h
      cases h
      exact ⟨hwrite, fun _ => rfl, fun hno => by cases hno⟩
    · rw [hc] at h
      rcases hd : cfg.disabled with _ | _
      · rw [hd] at h
        refine ⟨?_, fun hno => absurd rfl hno, fun _ _ => ⟨ptd, rfl, ?_⟩⟩
        all_goals
          rcases hgc : s.gc.write heap flush (.ofWrite (b, root)) ((s.bc.writeBlockWithoutState b
            (b.difficulty + ptd)).getHeaderByNumber (b.numberU64 - triesInMemory)) with _ | gc
          all_goals
            rw [Item.ofWrite] at hgc
            simp only [hgc] at h
            cases h
        · exact hwrite
        · rfl
      · rw [hd] at h
        cases h
        exact ⟨hwrite, fun hno => absurd rfl hno, fun _ hno => by cases hno⟩

theorem Runs.reached {P : PruningChain → Block → Prop} (h : Runs T cfg heap P ws s) :
    Reached T cfg (fun _ _ _ => True) s.bc := by
  induction h with
  | genesis => exact .genesis
  | write answers _ _ hb hne _ _ hw ih | refuse answers _ _ hb hne _ _ hw ih =>
    exact .write answers ih hb hne trivial (PruningChain.write_eq_ok hw).1

/-- The header is there for a block that is near the head. -/
theorem ChainOk.chosen (h : ChainOk T bc) (hb : T.mem b) (td : ℤ)
    (hnear : b.number ≤ bc.currentBlock.number + triesInMemory.toNat)
    (hgt : b.numberU64 > triesInMemory) : ∃ header : Header,
      (bc.writeBlockWithoutState b td).getHeaderByNumber (b.numberU64 - triesInMemory) =
        some header ∧ header.numberU64.toNat + triesInMemory.toNat ≤ b.number := by
  have hnum := toNat_numberU64 hb
  have hlt := UInt64.lt_iff_toNat_lt.1 hgt
  have hsub : b.numberU64 - triesInMemory = .ofNat (b.number - triesInMemory.toNat) := by
    apply UInt64.toNat_inj.1
    have := T.number_lt hb
    rw [UInt64.toNat_sub_of_le _ _ (UInt64.le_of_lt hgt), hnum, UInt64.toNat_ofNat_of_lt']
    exact (Nat.sub_le _ _).trans_lt (Nat.lt_of_succ_lt this)
  obtain ⟨header, hget, hnumber⟩ := h.getHeaderByNumber hb td
    (show b.number - triesInMemory.toNat ≤ bc.currentBlock.number by omega)
  refine ⟨header, by rw [hsub, hget], ?_⟩
  have hle : header.numberU64.toNat ≤ header.number := by
    rw [Header.numberU64, UInt64.toNat_ofNat']
    exact Nat.mod_le _ _
  omega

theorem Runs.kept (hcfg : cfg.disabled = false) (h : Runs T cfg heap Near ws s) :
    s.gc.Kept ws ∧ ∀ w ∈ ws, T.mem w.1 := by
  induction h with
  | genesis =>
    exact ⟨⟨isHeap_nil, rfl, .refl _, fun i hi => by cases hi⟩, fun w hw => by cases hw⟩
  | @write ws s s' b root status err answers flush hruns hb hne hnear hstores hw ih =>
    obtain ⟨-, -, hgc⟩ := PruningChain.write_eq_ok hw
    obtain ⟨ptd, -, hwrite⟩ := hgc hstores hcfg
    obtain ⟨gc', hgc', hkept, -⟩ := ih.1.write heap flush (w := (b, root))
      (hruns.reached.chainOk.chosen hb (b.difficulty + ptd) hnear)
    rw [hwrite] at hgc'
    cases hgc'
    refine ⟨hkept, fun w hw => ?_⟩
    rcases List.mem_append.1 hw with hold | hlast
    · exact ih.2 w hold
    · rw [List.mem_singleton.1 hlast]
      exact hb
  | refuse _ _ _ _ _ _ hno hw ih =>
    obtain ⟨-, hgc, -⟩ := PruningChain.write_eq_ok hw
    rw [hgc hno]
    exact ih

theorem chooseHeader_near (h : ChainOk T bc) (hb : T.mem b) (td : ℤ)
    (hnear : b.number ≤ bc.currentBlock.number + triesInMemory.toNat) :
    Meets ((bc.writeBlockWithoutState b td).chooseHeader cfg b) (fun _ => True) fun _ => False := by
  rw [chooseHeader]
  split_ifs with hd hgt
  · trivial
  · obtain ⟨header, hheader, -⟩ := h.chosen hb td hnear hgt
    rw [hheader]
    trivial
  · trivial

theorem Runs.write_ok (hcfg : cfg.disabled = false) (h : Runs T cfg heap Near ws s)
    (answers : Answers) (flush : Flush) (root : Word) (hb : T.mem b) (hne : b ≠ T.genesis)
    (hnear : Near s b) : ∃ r, s.write heap cfg answers flush root b = .ok r := by
  have hkept := (h.kept hcfg).1
  have hok := h.reached.chainOk
  have hmeets : Meets (s.bc.writeBlockWithState cfg answers b) _ fun _ => False :=
    writeBlockWithState_meets hok hb hne fun td => chooseHeader_near hok hb td hnear
  obtain ⟨⟨status, err, bc⟩, hwrite, -⟩ := hmeets.exists_ok
  rw [PruningChain.write, hwrite, ok_bind]
  dsimp only
  rcases s.bc.getTd b.parentHash (b.numberU64 - 1) with _ | ptd
  · exact ⟨_, rfl⟩
  · obtain ⟨gc, hgc, -⟩ := hkept.write heap flush (w := (b, root))
      (hok.chosen hb (b.difficulty + ptd) hnear)
    rw [Item.ofWrite] at hgc
    rw [hcfg]
    cases answers.committed with
    | false => exact ⟨_, rfl⟩
    | true =>
      simp only [hgc]
      exact ⟨_, rfl⟩

/-- **The window of states.**  In every run whose blocks are at most `triesInMemory` numbers
    above the head, writing does not panic; the root of each state is referenced once and
    dereferenced at most once, after a block that is `triesInMemory` numbers higher, so that
    the states that are less far below the highest block stay. -/
theorem pruning_window (hcfg : cfg.disabled = false) (h : Runs T cfg heap Near ws s) :
    (∀ answers flush root b, T.mem b → b ≠ T.genesis → Near s b →
      ∃ r, s.write heap cfg answers flush root b = .ok r) ∧
    s.gc.referenced = ws.map Item.ofWrite ∧
    (s.gc.dereferenced ++ s.gc.triegc).Perm (ws.map Item.ofWrite) ∧
    (∀ i ∈ s.gc.dereferenced, ∃ w ∈ ws, i.number.toNat + triesInMemory.toNat ≤ w.1.number) ∧
    ∀ w ∈ ws, (∀ w' ∈ ws, w'.1.number < w.1.number + triesInMemory.toNat) →
      Item.ofWrite w ∈ s.gc.triegc ∧ Item.ofWrite w ∉ s.gc.dereferenced := by
  obtain ⟨hkept, hmem⟩ := h.kept hcfg
  refine ⟨fun answers flush root b hb hne hnear => h.write_ok hcfg answers flush root hb hne hnear,
    hkept.referenced, hkept.perm, hkept.old, fun w hw hhigh => ?_⟩
  · have hnot : Item.ofWrite w ∉ s.gc.dereferenced := by
      intro hd
      obtain ⟨w', hw', hle⟩ := hkept.old _ hd
      have hnum : (Item.ofWrite w).number.toNat = w.1.number := toNat_numberU64 (hmem w hw)
      have := hhigh w' hw'
      omega
    refine ⟨?_, hnot⟩
    have hin := hkept.perm.mem_iff.2 (List.mem_map_of_mem hw)
    exact (List.mem_append.1 hin).resolve_left hnot

end

/-! ### A long and light branch -/

/-- The blocks of a branch; the first one is that of the tree. -/
def lightBlock (n : ℕ) : Block := bareBlock (.ofNat _ (n + 1)) (.ofNat _ n) n 1

/-- A block beside the first one of the branch, heavier than all of them. -/
def heavyBlock : Block := bareBlock 1000 1 1 1000

theorem hash_lightBlock {n : ℕ} (hn : n ≤ 130) : (lightBlock n).hash.toNat = n + 1 :=
  Nat.mod_eq_of_lt (by omega)

/-- The branch with the block beside it. -/
def lightTree : BlockTree where
  genesis := lightBlock 0
  mem b := b = heavyBlock ∨ ∃ n ≤ 130, b = lightBlock n
  genesis_mem := .inr ⟨0, by decide, rfl⟩
  number_genesis := rfl
  body_genesis := rfl
  hash_inj := by
    have hne {n : ℕ} (hn : n ≤ 130) : heavyBlock.hash ≠ (lightBlock n).hash := by
      intro h
      have := congrArg BitVec.toNat h
      rw [hash_lightBlock hn] at this
      change 1000 = n + 1 at this
      omega
    rintro a b (rfl | ⟨n, hn, rfl⟩) (rfl | ⟨m, hm, rfl⟩) h
    · rfl
    · exact absurd h (hne hm)
    · exact absurd h.symm (hne hn)
    · have := congrArg BitVec.toNat h
      rw [hash_lightBlock hn, hash_lightBlock hm] at this
      rw [Nat.succ.inj this]
  linked := by
    rintro b (rfl | ⟨n, hn, rfl⟩) hne
    · exact ⟨lightBlock 0, .inr ⟨0, by decide, rfl⟩, rfl, rfl⟩
    · cases n with
      | zero => exact absurd rfl hne
      | succ n => exact ⟨lightBlock n, .inr ⟨n, by omega, rfl⟩, rfl, rfl⟩
  hash_ne_zero := by
    rintro b (rfl | ⟨n, hn, rfl⟩) h
    · cases h
    · have := congrArg BitVec.toNat h
      rw [hash_lightBlock hn] at this
      cases this
  number_lt := by
    rintro b (rfl | ⟨n, hn, rfl⟩)
    · decide
    · change n + 1 < 2 ^ 64
      omega

/-- The heavy block is the head, and the light branch has `n` blocks. -/
structure Behind (n : ℕ) (bc : BlockChain) : Prop where
  head : bc.currentBlock = heavyBlock
  headTd : bc.getTd heavyBlock.hash heavyBlock.numberU64 = some 1001
  td : bc.getTd (lightBlock n).hash (lightBlock n).numberU64 = some ((n : ℤ) + 1)
  index : bc.db.readCanonicalHash 2 = 0

theorem heavyBlock_ne (n : ℕ) : heavyBlock ≠ lightBlock n := by
  intro h
  cases congrArg Block.difficulty h

theorem light_parent {n : ℕ} (hn : n < 130) :
    lightTree.nodes.Parent (lightBlock (n + 1)) (lightBlock n) := by
  refine ⟨.inr ⟨n + 1, hn, rfl⟩, fun h => ?_, .inr ⟨n, hn.le, rfl⟩, rfl⟩
  cases congrArg Block.number h

theorem Behind.written {n : ℕ} {bc bc' : BlockChain} (h : Behind n bc) (hn : n < 130)
    (hw : Written lightTree {} bc (lightBlock (n + 1)) bc') : Behind (n + 1) bc' := by
  have hparent := light_parent hn
  cases hw with
  | refused hnone =>
    rw [getTd_parent hparent, h.td] at hnone
    cases hnone
  | kept hp htd =>
    cases hp.unique hparent
    rw [h.td] at htd
    cases htd
    have hheavy : lightTree.mem heavyBlock := .inl rfl
    refine ⟨h.head, (readTd_put_of_ne hheavy hparent.child_mem (heavyBlock_ne _) _).trans h.headTd,
      (readTd_put_self _).trans ?_, h.index⟩
    change some (1 + ((n : ℤ) + 1)) = _
    rw [Nat.cast_succ, add_comm]
  | extended hp =>
    rw [h.head] at hp
    exact absurd (hp.unique hparent) (heavyBlock_ne n)
  | switched hp htd hlocal hle =>
    cases hp.unique hparent
    rw [h.td] at htd
    rw [h.head, h.headTd] at hlocal
    cases htd
    cases hlocal
    change (1001 : ℤ) ≤ 1 + (n + 1) at hle
    omega

/-- The next block of the branch. -/
theorem Behind.next {n : ℕ} {ws : List (Block × Word)} {s : PruningChain} (h : Behind n s.bc)
    (hn : n ≤ 128) (hruns : Runs lightTree {} .slices Near ws s) : ∃ status err s',
      s.write .slices {} {} {} 0 (lightBlock (n + 1)) = .ok (status, err, s') ∧
      s.Stores {} (lightBlock (n + 1)) ∧ Near s (lightBlock (n + 1)) ∧
      Runs lightTree {} .slices Near (ws ++ [(lightBlock (n + 1), 0)]) s' ∧
      Behind (n + 1) s'.bc := by
  have hparent := light_parent (show n < 130 by omega)
  have hnear : Near s (lightBlock (n + 1)) := by
    rw [Near, h.head]
    change n + 1 ≤ 1 + 128
    omega
  have hstores : s.Stores {} (lightBlock (n + 1)) := by
    refine ⟨rfl, ?_⟩
    rw [getTd_parent hparent, h.td]
    rfl
  obtain ⟨⟨status, err, s'⟩, hw⟩ :=
    hruns.write_ok rfl {} {} 0 hparent.child_mem hparent.ne_root hnear
  refine ⟨status, err, s', hw, hstores, hnear,
    .write {} {} hruns hparent.child_mem hparent.ne_root hnear hstores hw, ?_⟩
  exact h.written (by omega) ((writeBlockWithState_spec hruns.reached.chainOk
    hparent.child_mem hparent.ne_root).result (PruningChain.write_eq_ok hw).1).1

theorem exists_behind {n : ℕ} (hn : n ≤ 129) :
    ∃ ws s, Runs lightTree {} .slices Near ((heavyBlock, 0) :: ws) s ∧ Behind n s.bc := by
  induction n with
  | zero =>
    have h : Runs lightTree {} .slices Near [(heavyBlock, 0)] _ :=
      .write {} {} .genesis (.inl rfl) (heavyBlock_ne 0)
        (show (1 : ℕ) ≤ 0 + 128 by decide) ⟨rfl, rfl⟩ rfl
    exact ⟨[], _, h, rfl, rfl, rfl, rfl⟩
  | succ n ih =>
    obtain ⟨ws, s, hruns, hbehind⟩ := ih (by omega)
    obtain ⟨_, _, s', -, -, -, hruns', hbehind'⟩ := hbehind.next (by omega) hruns
    exact ⟨_, s', hruns', hbehind'⟩

/-- The header 128 blocks back is above the head. -/
theorem pruning_panics : ∃ ws s, Runs lightTree {} .slices Near ws s ∧
    s.write .slices {} {} {} 0 (lightBlock 130) = .error .nilPointer := by
  obtain ⟨_, s, hruns, hbehind⟩ := exists_behind le_rfl
  have htd : s.bc.getTd (lightBlock 130).parentHash ((lightBlock 130).numberU64 - 1) = some 130 :=
    hbehind.td
  have hheader (td : ℤ) : (s.bc.writeBlockWithoutState (lightBlock 130) td).getHeaderByNumber
      ((lightBlock 130).numberU64 - triesInMemory) = none := if_pos hbehind.index
  have hchoose (td : ℤ) : (s.bc.writeBlockWithoutState (lightBlock 130) td).chooseHeader {}
      (lightBlock 130) = .error .nilPointer := by
    rw [chooseHeader, if_neg (by decide), if_pos (by decide), hheader]
  refine ⟨_, s, hruns, ?_⟩
  have hwrite : s.bc.writeBlockWithState {} {} (lightBlock 130) = .error .nilPointer := by
    rw [writeBlockWithState, htd]
    simp only [hchoose]
    rfl
  rw [PruningChain.write, hwrite]
  rfl

/-- With block 129 of the branch, the state of the head goes. -/
theorem pruning_window_light : ∃ ws s, Runs lightTree {} .slices Near ws s ∧
    s.gc.referenced = ws.map Item.ofWrite ∧ s.bc.currentBlock = heavyBlock ∧
    Item.ofWrite (heavyBlock, 0) ∈ s.gc.dereferenced := by
  obtain ⟨ws, s, hruns, hbehind⟩ := exists_behind (show 128 ≤ 129 by decide)
  obtain ⟨_, _, s', hw, hstores, hnear, hruns', hbehind'⟩ := hbehind.next le_rfl hruns
  obtain ⟨-, hreferenced, hperm, -⟩ := pruning_window rfl hruns'
  refine ⟨_, s', hruns', hreferenced, hbehind'.head, ?_⟩
  obtain ⟨ptd, -, hgc⟩ := (PruningChain.write_eq_ok hw).2.2 hstores rfl
  have hok := hruns.reached.chainOk
  have hmem : lightTree.mem (lightBlock 129) := .inr ⟨129, by decide, rfl⟩
  obtain ⟨header, hheader, hnumber⟩ := hok.getHeaderByNumber hmem
    ((lightBlock 129).difficulty + ptd) (n := 1) (by rw [hbehind.head]; exact le_rfl)
  obtain ⟨gc', hgc', -, habove⟩ := (hruns.kept rfl).1.write .slices {} (w := (lightBlock 129, 0))
    (hok.chosen hmem ((lightBlock 129).difficulty + ptd) hnear)
  cases hgc.symm.trans hgc'
  refine (List.mem_append.1 (hperm.mem_iff.2 (by simp))).resolve_right fun hin => ?_
  obtain ⟨j, hj, hlt, hkey⟩ := habove (by decide) header hheader _ hin
  have hone : header.numberU64 = 1 := congrArg UInt64.ofNat hnumber
  have hsmall : j.number.toNat ≤ 130 := by
    obtain ⟨w, hw, rfl⟩ := List.mem_map.1 (hperm.mem_iff.1 (List.mem_append_right _ hj))
    have hmem := (hruns'.kept rfl).2 w hw
    refine (toNat_numberU64 hmem).trans_le ?_
    rcases hmem with h | ⟨n, hn, h⟩ <;> rw [h]
    · decide
    · exact hn
  rw [hone, UInt64.lt_iff_toNat_lt] at hlt
  rw [Item.key_eq (by omega), Item.key_eq (by decide)] at hkey
  change (j.number.toNat : ℤ) ≤ 1 at hkey
  change 1 < j.number.toNat at hlt
  omega

end GoEthereum.Core
