/-
  The list of an account's transactions, with upper bounds of their costs and gas.

  `Filter` returns at once if the bounds are below its limits.  The bounds are raised by
  `Add` and lowered by `Filter` to limits that all transactions meet, and the other
  operations only remove transactions (`Bounded`).
-/
import GoEthereum.TxPool.SortedMap

namespace GoEthereum.TxPool

open GoEthereum.Core

def cost (tx : Transaction) : ℤ := tx.gasPrice * tx.gas.toNat + tx.value

structure TxList where
  strict : Bool
  txs : TxSortedMap := {}
  costcap : ℤ := 0
  gascap : UInt64 := 0

namespace TxList

variable (heap : HeapFns) (ord ord' : IterOrder) (l : TxList)

def len : ℕ := l.txs.len

/-- The price of a transaction is high enough for the place of an old one; the percentage is
    an `int64`. -/
def replaces (priceBump : UInt64) (old tx : Transaction) : Bool :=
  let threshold := old.gasPrice * Int.bmod (100 + priceBump.toNat) (2 ^ 64) / 100
  ¬ (old.gasPrice ≥ tx.gasPrice ∨ threshold > tx.gasPrice)

def add (tx : Transaction) (priceBump : UInt64) : (Bool × Option Transaction) × TxList :=
  let old := l.txs.get tx.nonce
  if old.all fun old => replaces priceBump old tx then
    ((true, old), { l with
      txs := l.txs.put heap tx
      costcap := if l.costcap < cost tx then cost tx else l.costcap
      gascap := if l.gascap < tx.gas then tx.gas else l.gascap })
  else ((false, none), l)

def forward (threshold : UInt64) : Option (List (Option Transaction) × TxList) := do
  let (removed, txs) ← l.txs.forward heap threshold
  return (removed, { l with txs })

/-- The lowest nonce of some transactions. -/
def lowest (removed : List Transaction) : UInt64 :=
  removed.foldl (fun lowest tx => if lowest > tx.nonce then tx.nonce else lowest) 0xffffffffffffffff

/-- The transactions that cost more, or use more gas, than the limits. -/
def exceeds (costLimit : ℤ) (gasLimit : UInt64) (tx : Transaction) : Bool :=
  cost tx > costLimit ∨ tx.gas > gasLimit

/-- `Filter`; the two orders are those of the loops in the two calls of the map's `Filter`. -/
def filter (costLimit : ℤ) (gasLimit : UInt64) :
    (List Transaction × List Transaction) × TxList :=
  if l.costcap ≤ costLimit ∧ l.gascap ≤ gasLimit then (([], []), l)
  else
    let l := { l with costcap := costLimit, gascap := gasLimit }
    let (removed, txs) := l.txs.filter heap ord (exceeds costLimit gasLimit)
    if l.strict ∧ removed ≠ [] then
      let (invalids, txs) := txs.filter heap ord' fun tx => tx.nonce > lowest removed
      ((removed, invalids), { l with txs })
    else ((removed, []), { l with txs })

def cap (threshold : ℕ) : Option (List (Option Transaction) × TxList) := do
  let (drops, txs) ← l.txs.cap heap threshold
  return (drops, { l with txs })

def remove (tx : Transaction) : (Bool × List Transaction) × TxList :=
  let (removed, txs) := l.txs.remove heap tx.nonce
  if ¬ removed then ((false, []), l)
  else if l.strict then
    let (invalids, txs) := txs.filter heap ord fun tx' => tx'.nonce > tx.nonce
    ((true, invalids), { l with txs })
  else ((true, []), { l with txs })

def ready (start : UInt64) : Option (List (Option Transaction) × TxList) := do
  let (ready, txs) ← l.txs.ready heap start
  return (ready, { l with txs })

/-- What is reached from a new list. -/
inductive Reached : TxList → Prop
  | new (strict : Bool) : Reached { strict }
  | add {l : TxList} (tx : Transaction) (priceBump : UInt64) : Reached l →
      Reached (l.add heap tx priceBump).2
  | forward {l l' : TxList} {threshold : UInt64} {removed : List (Option Transaction)} :
      Reached l → l.forward heap threshold = some (removed, l') → Reached l'
  | filter {l : TxList} (ord ord' : IterOrder) (costLimit : ℤ) (gasLimit : UInt64) : Reached l →
      Reached (l.filter heap ord ord' costLimit gasLimit).2
  | cap {l l' : TxList} {threshold : ℕ} {drops : List (Option Transaction)} :
      Reached l → l.cap heap threshold = some (drops, l') → Reached l'
  | remove {l : TxList} (ord : IterOrder) (tx : Transaction) : Reached l →
      Reached (l.remove heap ord tx).2
  | ready {l l' : TxList} {start : UInt64} {ready : List (Option Transaction)} :
      Reached l → l.ready heap start = some (ready, l') → Reached l'

/-! ## The bounds -/

/-- The map is in step, and the bounds hold. -/
structure Bounded (l : TxList) : Prop where
  ok : l.txs.Ok
  cost : ∀ tx ∈ l.txs.sorted, cost tx ≤ l.costcap
  gas : ∀ tx ∈ l.txs.sorted, tx.gas ≤ l.gascap

variable {heap ord ord' l}

theorem Bounded.of_subset {txs : TxSortedMap} (h : l.Bounded) (hok : txs.Ok)
    (hsub : ∀ tx ∈ txs.sorted, tx ∈ l.txs.sorted) : Bounded { l with txs } :=
  ⟨hok, fun tx htx => h.cost tx (hsub tx htx), fun tx htx => h.gas tx (hsub tx htx)⟩

theorem mem_filter {m : TxSortedMap} (h : m.Ok) (heap : HeapFns) (ord : IterOrder)
    (p : Transaction → Bool) (tx : Transaction) :
    (tx ∈ (m.filter heap ord p).1 ↔ tx ∈ m.sorted ∧ p tx) ∧
      (tx ∈ (m.filter heap ord p).2.sorted ↔ tx ∈ m.sorted ∧ ¬ p tx) := by
  obtain ⟨-, hremoved, hget⟩ := h.filter heap ord p
  constructor
  · rw [hremoved.mem_iff, List.mem_filter, AssocMap.mem_values, TxSortedMap.mem_sorted]
  · simp only [TxSortedMap.mem_sorted, hget, Option.filter_eq_some_iff]
    simp

theorem Bounded.add (h : l.Bounded) (heap : HeapFns) (tx : Transaction) (priceBump : UInt64) :
    (l.add heap tx priceBump).2.Bounded := by
  have hmem : ∀ tx' ∈ (l.txs.put heap tx).sorted, tx' = tx ∨ tx' ∈ l.txs.sorted := by
    intro tx' htx'
    obtain ⟨n, hn⟩ := TxSortedMap.mem_sorted.1 htx'
    have hn : (l.txs.items.set tx.nonce tx).get n = some tx' := hn
    rcases AssocMap.get_set_some hn with ⟨-, rfl⟩ | ⟨-, hn⟩
    · exact .inl rfl
    · exact .inr (TxSortedMap.mem_sorted.2 ⟨n, hn⟩)
  by_cases hbetter : (l.txs.get tx.nonce).all fun old => replaces priceBump old tx
  · rw [TxList.add, if_pos hbetter]
    refine ⟨h.ok.put heap tx, fun tx' htx' => ?_, fun tx' htx' => ?_⟩
    · change TxPool.cost tx' ≤ if l.costcap < TxPool.cost tx then TxPool.cost tx else l.costcap
      rcases hmem tx' htx' with rfl | hold
      · split_ifs <;> omega
      · have := h.cost tx' hold
        split_ifs <;> omega
    · change tx'.gas ≤ if l.gascap < tx.gas then tx.gas else l.gascap
      rcases hmem tx' htx' with rfl | hold
      · split_ifs with hlt
        · exact UInt64.le_refl _
        · exact UInt64.not_lt.1 hlt
      · have := h.gas tx' hold
        split_ifs with hlt
        · exact UInt64.le_trans this (UInt64.le_of_lt hlt)
        · exact this
  · rw [TxList.add, if_neg hbetter]
    exact h

theorem lowest_lt {n : UInt64} {removed : List Transaction} :
    lowest removed < n ↔ ∃ tx ∈ removed, tx.nonce < n := by
  have hfold (init : UInt64) : removed.foldl
      (fun lowest tx => if lowest > tx.nonce then tx.nonce else lowest) init < n ↔
      init < n ∨ ∃ tx ∈ removed, tx.nonce < n := by
    induction removed generalizing init with
    | nil => simp
    | cons tx removed ih =>
      rw [List.foldl_cons, ih]
      simp only [List.mem_cons, exists_eq_or_imp]
      split_ifs with h
      · have : init < n → tx.nonce < n := UInt64.lt_trans h
        tauto
      · have : tx.nonce < n → init < n := UInt64.lt_of_le_of_lt (UInt64.not_lt.1 h)
        tauto
  rw [lowest, hfold, or_iff_right]
  rw [UInt64.lt_iff_toNat_lt]
  have := n.toNat_lt
  change ¬ 2 ^ 64 - 1 < n.toNat
  omega

/-- What `Filter` removes and keeps. -/
structure Filtered (costLimit : ℤ) (gasLimit : UInt64) (l : TxList)
    (r : (List Transaction × List Transaction) × TxList) : Prop where
  removed : ∀ tx, tx ∈ r.1.1 ↔ tx ∈ l.txs.sorted ∧ exceeds costLimit gasLimit tx
  invalids : ∀ tx, tx ∈ r.1.2 ↔ l.strict ∧ tx ∈ l.txs.sorted ∧ ¬ exceeds costLimit gasLimit tx ∧
    ∃ tx' ∈ l.txs.sorted, exceeds costLimit gasLimit tx' ∧ tx'.nonce < tx.nonce
  kept : ∀ tx, tx ∈ r.2.txs.sorted ↔ tx ∈ l.txs.sorted ∧ tx ∉ r.1.1 ∧ tx ∉ r.1.2

theorem Bounded.filter (h : l.Bounded) (heap : HeapFns) (ord ord' : IterOrder) (costLimit : ℤ)
    (gasLimit : UInt64) : (l.filter heap ord ord' costLimit gasLimit).2.Bounded ∧
      Filtered costLimit gasLimit l (l.filter heap ord ord' costLimit gasLimit) := by
  have hmem := mem_filter h.ok heap ord (exceeds costLimit gasLimit)
  have hok := (h.ok.filter heap ord (exceeds costLimit gasLimit)).1
  have hexceeds (tx : Transaction) : exceeds costLimit gasLimit tx ↔
      TxPool.cost tx > costLimit ∨ tx.gas > gasLimit := decide_eq_true_iff
  rw [TxList.filter]
  by_cases hshort : l.costcap ≤ costLimit ∧ l.gascap ≤ gasLimit
  · have hnone : ∀ tx ∈ l.txs.sorted, ¬ exceeds costLimit gasLimit tx := by
      intro tx htx
      rw [hexceeds]
      rintro (hcost | hgas)
      · have := h.cost tx htx
        omega
      · exact UInt64.not_lt.2 (UInt64.le_trans (h.gas tx htx) hshort.2) hgas
    rw [if_pos hshort]
    refine ⟨h, fun tx => ?_, fun tx => ?_, fun tx => by simp⟩
    · exact iff_of_false List.not_mem_nil fun hex => hnone tx hex.1 hex.2
    · exact iff_of_false List.not_mem_nil fun ⟨_, _, _, tx', hmem, hex, _⟩ => hnone tx' hmem hex
  rw [if_neg hshort]
  dsimp only
  generalize l.txs.filter heap ord (exceeds costLimit gasLimit) = r at hmem hok
  obtain ⟨removed, txs⟩ := r
  dsimp only at hmem hok ⊢
  have hbounded : Bounded { l with txs, costcap := costLimit, gascap := gasLimit } := by
    refine ⟨hok, fun tx htx => ?_, fun tx htx => ?_⟩ <;>
      have hex := ((hmem tx).2.1 htx).2 <;> rw [hexceeds, not_or] at hex
    · exact not_lt.1 hex.1
    · exact UInt64.not_lt.1 hex.2
  split_ifs with hstrict
  · have hinvalids := mem_filter hok heap ord' fun tx => tx.nonce > lowest removed
    have hlow (tx : Transaction) : decide (tx.nonce > lowest removed) = true ↔
        ∃ tx' ∈ l.txs.sorted, exceeds costLimit gasLimit tx' ∧ tx'.nonce < tx.nonce := by
      rw [decide_eq_true_iff, gt_iff_lt, lowest_lt]
      simp only [(hmem _).1, and_assoc]
    refine ⟨hbounded.of_subset (hok.filter ..).1 fun tx htx => ((hinvalids tx).2.1 htx).1,
      fun tx => (hmem tx).1, fun tx => ?_, fun tx => ?_⟩
    · rw [(hinvalids tx).1, (hmem tx).2, hlow, and_assoc]
      exact (and_iff_right hstrict.1).symm
    · rw [(hinvalids tx).2, (hinvalids tx).1, (hmem tx).2, (hmem tx).1]
      tauto
  · refine ⟨hbounded, fun tx => (hmem tx).1, fun tx => ?_, fun tx => ?_⟩
    · refine iff_of_false List.not_mem_nil ?_
      rintro ⟨hs, -, -, tx', htx', hex, -⟩
      exact hstrict ⟨hs, List.ne_nil_of_mem ((hmem tx').1.2 ⟨htx', hex⟩)⟩
    · rw [(hmem tx).2, (hmem tx).1, and_iff_left List.not_mem_nil]
      tauto

theorem Bounded.remove (h : l.Bounded) (heap : HeapFns) (ord : IterOrder) (tx : Transaction) :
    (l.remove heap ord tx).2.Bounded := by
  obtain ⟨hok, hget⟩ := h.ok.remove heap tx.nonce
  have hsub : ∀ tx' ∈ (l.txs.remove heap tx.nonce).2.sorted, tx' ∈ l.txs.sorted := by
    intro tx' htx'
    obtain ⟨n, hn⟩ := TxSortedMap.mem_sorted.1 htx'
    rw [hget] at hn
    split_ifs at hn
    exact TxSortedMap.mem_sorted.2 ⟨n, hn⟩
  rw [TxList.remove]
  generalize l.txs.remove heap tx.nonce = r at hok hsub
  obtain ⟨removed, txs⟩ := r
  dsimp only at hok hsub ⊢
  cases removed with
  | false => exact h
  | true =>
    rw [if_neg (by simp)]
    split_ifs
    · have hmem := mem_filter hok heap ord fun tx' => tx'.nonce > tx.nonce
      exact h.of_subset (hok.filter ..).1 fun tx' htx' => hsub tx' ((hmem tx').2.1 htx').1
    · exact h.of_subset hok hsub

theorem Reached.bounded (h : Reached heap l) : l.Bounded := by
  induction h with
  | new strict =>
    have hnil : ∀ tx, tx ∉ ({} : TxSortedMap).sorted := by
      intro tx htx
      obtain ⟨n, hn⟩ := TxSortedMap.mem_sorted.1 htx
      rw [AssocMap.get_empty] at hn
      cases hn
    have hnew : TxSortedMap.Reached heap {} := .new
    exact ⟨hnew.ok, fun tx htx => absurd htx (hnil tx),
      fun tx htx => absurd htx (hnil tx)⟩
  | add tx priceBump _ ih => exact ih.add heap tx priceBump
  | filter ord ord' costLimit gasLimit _ ih => exact (ih.filter heap ord ord' costLimit gasLimit).1
  | remove ord tx _ ih => exact ih.remove heap ord tx
  | forward _ hforward ih =>
    obtain ⟨removed, txs, heq, hok, hsorted, -⟩ := ih.ok.forward heap _
    rw [TxList.forward, heq] at hforward
    cases hforward
    exact ih.of_subset hok fun tx htx => by rw [hsorted]; exact List.mem_append_right _ htx
  | cap _ hcap ih =>
    obtain ⟨drops, txs, heq, hok, htake, -⟩ := ih.ok.cap heap _
    rw [TxList.cap, heq] at hcap
    cases hcap
    exact ih.of_subset hok fun tx htx => List.mem_of_mem_take (htake ▸ htx)
  | ready _ hready ih =>
    obtain ⟨ready, txs, heq, hok, hsorted⟩ := ih.ok.ready heap _
    rw [TxList.ready, heq] at hready
    cases hready
    exact ih.of_subset hok fun tx htx => by rw [hsorted]; exact List.mem_append_right _ htx

/-- **The bounds are sound**: `Filter` removes exactly the transactions beyond its limits, and
    from a strict list those after the first of them. -/
theorem caps_sound (h : Reached heap l) :
    (∀ tx ∈ l.txs.sorted, cost tx ≤ l.costcap ∧ tx.gas ≤ l.gascap) ∧
    ∀ ord ord' costLimit gasLimit,
      Filtered costLimit gasLimit l (l.filter heap ord ord' costLimit gasLimit) := by
  have hl := h.bounded
  exact ⟨fun tx htx => ⟨hl.cost tx htx, hl.gas tx htx⟩, fun ord ord' costLimit gasLimit =>
    (hl.filter heap ord ord' costLimit gasLimit).2⟩

/-- The second of three transactions is beyond the limit, so the third goes as well. -/
theorem caps_sound_three : ∃ l third, Reached .slices l ∧ l.txs.sorted.length = 3 ∧
    third ∈ l.txs.sorted ∧ cost third ≤ l.costcap ∧ cost third ≤ 30000 ∧
    ∀ ord ord', third ∈ (l.filter .slices ord ord' 30000 21000).1.2 := by
  have h : Reached .slices _ := .add ⟨3, 9, 1, 21000, none, 0, []⟩ 10
    (.add ⟨2, 8, 2, 21000, none, 0, []⟩ 10 (.add ⟨1, 7, 1, 21000, none, 0, []⟩ 10 (.new true)))
  obtain ⟨hcaps, hfilter⟩ := caps_sound h
  have hthird := hcaps ⟨3, 9, 1, 21000, none, 0, []⟩ (by decide +kernel)
  refine ⟨_, _, h, by decide +kernel, by decide +kernel, hthird.1, by decide, fun ord ord' => ?_⟩
  exact ((hfilter ord ord' 30000 21000).invalids _).2 ⟨rfl, by decide +kernel, by decide,
    ⟨2, 8, 2, 21000, none, 0, []⟩, by decide +kernel, by decide, by decide⟩

end TxList

end GoEthereum.TxPool
