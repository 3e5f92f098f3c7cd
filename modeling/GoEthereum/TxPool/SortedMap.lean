/-
  The transactions of an account: a map by nonces with a heap of the nonces and the sorted
  transactions, made when they are asked for.

  Each operation keeps the three in step (`Ok`).  The functions of container/heap are those
  of `HeapFns`, and a loop over the map sees its keys in any order (`IterOrder`).
-/
import GoEthereum.Core.Types
import GoEthereum.Lib.AssocMap
import GoEthereum.Lib.SwapHeap

namespace GoEthereum.TxPool

open GoEthereum.Core

abbrev Items := AssocMap UInt64 Transaction

/-- The orders in which loops see the keys of a map. -/
structure IterOrder where
  keys : Items → List UInt64
  perm (items : Items) : (keys items).Perm items.keys

/-- `txSortedMap`; the cache is `none` for a nil slice. -/
structure TxSortedMap where
  items : Items := .empty
  index : List UInt64 := []
  cache : Option (List Transaction) := none

/-- `TxByNonce` -/
def byNonce (txs : List Transaction) : List Transaction := sortBy (fun tx => tx.nonce.toNat) txs

namespace TxSortedMap

variable (heap : HeapFns) (ord : IterOrder) (m : TxSortedMap)

def get (nonce : UInt64) : Option Transaction := m.items.get nonce

def len : ℕ := m.items.size

def put (tx : Transaction) : TxSortedMap where
  items := m.items.set tx.nonce tx
  index := if m.get tx.nonce = none then heap.push UInt64.toNat m.index tx.nonce else m.index
  cache := none

/-- The loop of `Forward`; it has a round for each nonce that is removed. -/
def forwardLoop (threshold : UInt64) :
    ℕ → TxSortedMap → Option (List (Option Transaction) × TxSortedMap)
  | 0, m => some ([], m)
  | fuel + 1, m =>
    match m.index with
    | [] => some ([], m)
    | least :: _ =>
      if least < threshold then do
        let (nonce, index) ← heap.pop UInt64.toNat m.index
        let (removed, m') ← forwardLoop threshold fuel
          { m with items := m.items.erase nonce, index }
        return (m.items.get nonce :: removed, m')
      else some ([], m)

/-- `Forward`; `none` is a slice out of range. -/
def forward (threshold : UInt64) : Option (List (Option Transaction) × TxSortedMap) := do
  let (removed, m) ← forwardLoop heap threshold m.index.length m
  match m.cache with
  | none => return (removed, m)
  | some cache =>
    if cache.length < removed.length then none
    else return (removed, { m with cache := some (cache.drop removed.length) })

/-- A round of the first loop of `Filter`. -/
def filterStep (p : Transaction → Bool) (acc : List Transaction × Items) (nonce : UInt64) :
    List Transaction × Items :=
  match acc.2.get nonce with
  | some tx => if p tx then (acc.1 ++ [tx], acc.2.erase nonce) else acc
  | none => acc

def filter (p : Transaction → Bool) : List Transaction × TxSortedMap :=
  let (removed, items) := (ord.keys m.items).foldl (filterStep p) ([], m.items)
  if removed = [] then ([], m)
  else (removed, { items, index := heap.init UInt64.toNat (ord.keys items), cache := none })

/-- The loop of `Cap` over the sorted nonces. -/
def capLoop (index : List UInt64) (threshold : ℕ) :
    ℕ → Items → Option (List (Option Transaction) × Items)
  | 0, items => some ([], items)
  | size + 1, items =>
    if size + 1 > threshold then do
      let nonce ← index[size]?
      let (drops, items') ← capLoop index threshold size (items.erase nonce)
      return (items.get nonce :: drops, items')
    else some ([], items)

/-- `Cap`; `none` is an index or a slice out of range. -/
def cap (threshold : ℕ) : Option (List (Option Transaction) × TxSortedMap) :=
  if m.items.size ≤ threshold then some ([], m)
  else do
    let sorted := sortBy UInt64.toNat m.index
    let (drops, items) ← capLoop sorted threshold m.items.size m.items
    let index := heap.init UInt64.toNat (sorted.take threshold)
    match m.cache with
    | none => return (drops, { items, index, cache := none })
    | some cache =>
      if cache.length < drops.length then none
      else
        let cache := cache.take (cache.length - drops.length)
        return (drops, { items, index, cache := some cache })

def remove (nonce : UInt64) : Bool × TxSortedMap :=
  match m.items.get nonce with
  | none => (false, m)
  | some _ => (true,
    { items := m.items.erase nonce
      index := if nonce ∈ m.index then heap.remove UInt64.toNat m.index (m.index.idxOf nonce)
        else m.index
      cache := none })

/-- The loop of `Ready`. -/
def readyLoop : ℕ → UInt64 → TxSortedMap → Option (List (Option Transaction) × TxSortedMap)
  | 0, _, m => some ([], m)
  | fuel + 1, next, m =>
    match m.index with
    | [] => some ([], m)
    | least :: _ =>
      if least = next then do
        let (_, index) ← heap.pop UInt64.toNat m.index
        let (ready, m') ← readyLoop fuel (next + 1) { m with items := m.items.erase next, index }
        return (m.items.get next :: ready, m')
      else some ([], m)

def ready (start : UInt64) : Option (List (Option Transaction) × TxSortedMap) :=
  match m.index with
  | [] => some ([], m)
  | least :: _ =>
    if least > start then some ([], m)
    else do
      let (ready, m) ← readyLoop heap m.index.length least m
      return (ready, { m with cache := none })

def flatten : List Transaction × TxSortedMap :=
  let cache := m.cache.getD (byNonce ((ord.keys m.items).filterMap m.items.get))
  (cache, { m with cache := some cache })

/-- The transactions in the order of their nonces. -/
def sorted : List Transaction := byNonce m.items.values

/-- What is reached from a new map. -/
inductive Reached : TxSortedMap → Prop
  | new : Reached {}
  | put {m : TxSortedMap} (tx : Transaction) : Reached m → Reached (m.put heap tx)
  | forward {m m' : TxSortedMap} {threshold : UInt64} {removed : List (Option Transaction)} :
      Reached m → m.forward heap threshold = some (removed, m') → Reached m'
  | filter {m : TxSortedMap} (ord : IterOrder) (p : Transaction → Bool) : Reached m →
      Reached (m.filter heap ord p).2
  | cap {m m' : TxSortedMap} {threshold : ℕ} {drops : List (Option Transaction)} :
      Reached m → m.cap heap threshold = some (drops, m') → Reached m'
  | remove {m : TxSortedMap} (nonce : UInt64) : Reached m → Reached (m.remove heap nonce).2
  | ready {m m' : TxSortedMap} {start : UInt64} {ready : List (Option Transaction)} :
      Reached m → m.ready heap start = some (ready, m') → Reached m'
  | flatten {m : TxSortedMap} (ord : IterOrder) : Reached m → Reached (m.flatten ord).2

end TxSortedMap

/-! ## Sorted transactions -/

/-- The transactions stand under their nonces. -/
def Keyed (items : Items) : Prop := ∀ n tx, items.get n = some tx → tx.nonce = n

section
variable {items : Items} {n : UInt64} {tx : Transaction}

theorem Keyed.erase (h : Keyed items) (n : UInt64) : Keyed (items.erase n) :=
  fun k tx hk => h k tx (AssocMap.get_erase_some hk).2

theorem Keyed.inj (h : Keyed items) {l : List Transaction} (hl : l.Perm items.values) :
    ∀ x ∈ l, ∀ y ∈ l, x.nonce.toNat = y.nonce.toNat → x = y := by
  intro x hx y hy heq
  obtain ⟨a, ha⟩ := AssocMap.mem_values.1 (hl.mem_iff.1 hx)
  obtain ⟨b, hb⟩ := AssocMap.mem_values.1 (hl.mem_iff.1 hy)
  have hab : a = b := by
    rw [← h a x ha, ← h b y hb]
    exact UInt64.toNat_inj.1 heq
  rw [hab, hb] at ha
  exact (Option.some.inj ha).symm

theorem Keyed.byNonce_eq (h : Keyed items) {l : List Transaction} (hl : l.Perm items.values) :
    byNonce l = byNonce items.values :=
  sortBy_eq (h.inj hl) ((perm_sortBy _ _).trans hl.symm) (pairwise_sortBy _ _)

theorem Keyed.nonce_mem_keys {y : Transaction} (h : Keyed items)
    (hy : y ∈ byNonce (items.erase n).values) : y.nonce ∈ items.keys := by
  obtain ⟨k, hk⟩ := AssocMap.mem_values.1 ((perm_sortBy _ _).mem_iff.1 hy)
  obtain ⟨-, hk⟩ := AssocMap.get_erase_some hk
  rw [h k y hk]
  exact (items.mem_keys k).2 ⟨y, hk⟩

theorem Keyed.byNonce_cons (h : Keyed items) (hget : items.get n = some tx)
    (hmin : ∀ k ∈ items.keys, n.toNat ≤ k.toNat) :
    byNonce items.values = tx :: byNonce (items.erase n).values := by
  refine sortBy_eq (h.inj (.refl _))
    (((perm_sortBy _ _).cons tx).trans (AssocMap.values_erase hget).symm)
    (List.pairwise_cons.2 ⟨fun y hy => ?_, pairwise_sortBy _ _⟩)
  rw [h n tx hget]
  exact hmin _ (h.nonce_mem_keys hy)

theorem Keyed.byNonce_concat (h : Keyed items) (hget : items.get n = some tx)
    (hmax : ∀ k ∈ items.keys, k.toNat ≤ n.toNat) :
    byNonce items.values = byNonce (items.erase n).values ++ [tx] := by
  refine sortBy_eq (h.inj (.refl _)) ((List.perm_append_singleton _ _).trans
    (((perm_sortBy _ _).cons tx).trans (AssocMap.values_erase hget).symm))
    (List.pairwise_append.2 ⟨pairwise_sortBy _ _, List.pairwise_singleton _ _, ?_⟩)
  intro y hy z hz
  rw [List.mem_singleton] at hz
  subst hz
  rw [h n z hget]
  exact hmax _ (h.nonce_mem_keys hy)

end

/-! ## The operations -/

namespace TxSortedMap

/-- The heap has the nonces of the transactions. -/
structure InStep (m : TxSortedMap) : Prop where
  heap : IsHeap UInt64.toNat m.index
  perm : m.index.Perm m.items.keys
  keyed : Keyed m.items

/-- The heap has the nonces, and the cache has the sorted transactions. -/
structure Ok (m : TxSortedMap) : Prop extends InStep m where
  cache : ∀ c, m.cache = some c → c = m.sorted

variable {heap : HeapFns} {m : TxSortedMap}

theorem InStep.get_none (h : m.InStep) (hindex : m.index = []) (n : UInt64) :
    m.items.get n = none := by
  by_contra hne
  obtain ⟨tx, htx⟩ := Option.ne_none_iff_exists'.1 hne
  have hmem := h.perm.mem_iff.2 ((m.items.mem_keys n).2 ⟨tx, htx⟩)
  rw [hindex] at hmem
  cases hmem

theorem InStep.pop (h : m.InStep) (heap : HeapFns) {least : UInt64} {l : List UInt64}
    (hindex : m.index = least :: l) : ∃ tx index, m.items.get least = some tx ∧
      (∀ k ∈ m.items.keys, least.toNat ≤ k.toNat) ∧
      heap.pop UInt64.toNat m.index = some (least, index) ∧ index.length = l.length ∧
      InStep { m with items := m.items.erase least, index } ∧
      m.sorted = tx :: byNonce (m.items.erase least).values := by
  have hheap := h.heap
  have hperm := h.perm
  rw [hindex] at hheap hperm
  obtain ⟨tx, htx⟩ := (m.items.mem_keys least).1 (hperm.mem_iff.1 (.head _))
  have hmin : ∀ k ∈ m.items.keys, least.toNat ≤ k.toNat := fun k hk =>
    hheap.head_le k (hperm.mem_iff.2 hk)
  obtain ⟨index, hpop, hindex', hrest⟩ := heap.pop_spec hheap
  refine ⟨tx, index, htx, hmin, ?_, hrest.length_eq, ⟨hindex', ?_, h.keyed.erase _⟩,
    h.keyed.byNonce_cons htx hmin⟩
  · rw [hindex, hpop]
  · change index.Perm (m.items.erase least).keys
    rw [AssocMap.keys_erase]
    have := hperm.erase least
    rw [List.erase_cons_head] at this
    exact hrest.trans this

theorem forwardLoop_spec (heap : HeapFns) (threshold : UInt64) {fuel : ℕ} (h : m.InStep)
    (hfuel : m.index.length ≤ fuel) : ∃ removed m',
      forwardLoop heap threshold fuel m = some (removed.map some, m') ∧ m'.InStep ∧
      m'.cache = m.cache ∧ m.sorted = removed ++ m'.sorted ∧
      ∀ n, m'.items.get n = if n < threshold then none else m.items.get n := by
  induction fuel generalizing m with
  | zero =>
    have hindex : m.index = [] := List.length_eq_zero_iff.1 (by omega)
    refine ⟨[], m, rfl, h, rfl, rfl, fun n => ?_⟩
    rw [h.get_none hindex, ite_self]
  | succ fuel ih =>
    rw [forwardLoop]
    rcases hindex : m.index with _ | ⟨least, l⟩
    · refine ⟨[], m, rfl, h, rfl, rfl, fun n => ?_⟩
      rw [h.get_none hindex, ite_self]
    · obtain ⟨tx, index, htx, hmin, hpop, hlen, hstep, hsorted⟩ := h.pop heap hindex
      rw [hindex, List.length_cons] at hfuel
      dsimp only
      split_ifs with hlt
      · obtain ⟨removed, m', hloop, hm', hcache, hrest, hget⟩ :=
          ih hstep (show index.length ≤ fuel by omega)
        refine ⟨tx :: removed, m', ?_, hm', hcache, ?_, fun n => ?_⟩
        · rw [← hindex, hpop]
          simp [hloop, htx]
        · rw [hsorted, List.cons_append, ← hrest]
          rfl
        · rw [hget, AssocMap.get_erase]
          split_ifs with hn heq
          · rfl
          · rw [heq] at hn
            exact absurd hlt hn
          · rfl
      · refine ⟨[], m, rfl, h, rfl, rfl, fun n => ?_⟩
        split_ifs with hn
        · by_contra hne
          obtain ⟨tx', htx'⟩ := Option.ne_none_iff_exists'.1 hne
          have := hmin n ((m.items.mem_keys n).2 ⟨tx', htx'⟩)
          rw [UInt64.lt_iff_toNat_lt] at hlt hn
          omega
        · rfl

theorem Ok.forward (h : m.Ok) (heap : HeapFns) (threshold : UInt64) : ∃ removed m',
    m.forward heap threshold = some (removed.map some, m') ∧ m'.Ok ∧
    m.sorted = removed ++ m'.sorted ∧
    ∀ n, m'.items.get n = if n < threshold then none else m.items.get n := by
  obtain ⟨removed, m', hloop, hm', hcache, hsorted, hget⟩ :=
    forwardLoop_spec heap threshold h.toInStep le_rfl
  rw [TxSortedMap.forward, hloop, Option.bind_eq_bind, Option.bind_some]
  dsimp only
  rcases hc : m.cache with _ | cache
  · rw [hc] at hcache
    rw [hcache]
    refine ⟨removed, m', rfl, ⟨hm', fun c h' => ?_⟩, hsorted, hget⟩
    rw [hcache] at h'
    cases h'
  · rw [hc] at hcache
    have hcache' := h.cache cache hc
    rw [hsorted] at hcache'
    rw [hcache, hcache', List.length_map]
    dsimp only
    rw [if_neg (by simp), List.drop_left]
    refine ⟨removed, { m' with cache := some m'.sorted }, rfl,
      ⟨⟨hm'.heap, hm'.perm, hm'.keyed⟩, fun c h' => ?_⟩, hsorted, hget⟩
    cases h'
    rfl

theorem readyLoop_spec (heap : HeapFns) (fuel : ℕ) (next : UInt64) (h : m.InStep) : ∃ ready m',
    readyLoop heap fuel next m = some (ready.map some, m') ∧ m'.InStep ∧
      m.sorted = ready ++ m'.sorted := by
  induction fuel generalizing m next with
  | zero => exact ⟨[], m, rfl, h, rfl⟩
  | succ fuel ih =>
    rw [readyLoop]
    rcases hindex : m.index with _ | ⟨least, l⟩
    · exact ⟨[], m, rfl, h, rfl⟩
    · obtain ⟨tx, index, htx, -, hpop, -, hstep, hsorted⟩ := h.pop heap hindex
      dsimp only
      split_ifs with heq
      · subst heq
        obtain ⟨ready, m', hloop, hm', hrest⟩ := ih (least + 1) hstep
        refine ⟨tx :: ready, m', ?_, hm', ?_⟩
        · rw [← hindex, hpop]
          simp [hloop, htx]
        · rw [hsorted, List.cons_append, ← hrest]
          rfl
      · exact ⟨[], m, rfl, h, rfl⟩

theorem Ok.ready (h : m.Ok) (heap : HeapFns) (start : UInt64) :
    ∃ ready m', m.ready heap start = some (ready.map some, m') ∧ m'.Ok ∧
      m.sorted = ready ++ m'.sorted := by
  rw [TxSortedMap.ready]
  rcases hindex : m.index with _ | ⟨least, l⟩
  · exact ⟨[], m, rfl, h, rfl⟩
  · dsimp only
    split_ifs
    · exact ⟨[], m, rfl, h, rfl⟩
    · obtain ⟨ready, m', hloop, hm', hsorted⟩ :=
        readyLoop_spec heap (least :: l).length least h.toInStep
      rw [hloop]
      exact ⟨ready, { m' with cache := none }, rfl,
        ⟨⟨hm'.heap, hm'.perm, hm'.keyed⟩, fun c hc => by cases hc⟩, hsorted⟩

theorem Ok.put (h : m.Ok) (heap : HeapFns) (tx : Transaction) : (m.put heap tx).Ok := by
  have hkeyed : Keyed (m.items.set tx.nonce tx) := by
    intro n tx' hget
    rcases AssocMap.get_set_some hget with ⟨rfl, rfl⟩ | ⟨-, hget⟩
    · rfl
    · exact h.keyed n tx' hget
  rw [TxSortedMap.put]
  split_ifs with hnone
  · refine ⟨⟨(heap.push_spec _ h.heap).1, ?_, hkeyed⟩, fun c hc => by cases hc⟩
    change (heap.push UInt64.toNat m.index tx.nonce).Perm (m.items.set tx.nonce tx).keys
    rw [AssocMap.keys_set_of_get_none _ _ _ hnone]
    exact (heap.push_spec _ h.heap).2.trans (h.perm.cons _)
  · refine ⟨⟨h.heap, ?_, hkeyed⟩, fun c hc => by cases hc⟩
    have hkeys : (m.items.set tx.nonce tx).keys = tx.nonce :: m.items.keys.erase tx.nonce :=
      AList.keys_insert m.items
    change m.index.Perm (m.items.set tx.nonce tx).keys
    rw [hkeys]
    exact h.perm.trans (List.perm_cons_erase ((m.items.mem_keys _).2
      (Option.ne_none_iff_exists'.1 hnone)))

theorem Ok.remove (h : m.Ok) (heap : HeapFns) (nonce : UInt64) :
    (m.remove heap nonce).2.Ok ∧
      ∀ n, (m.remove heap nonce).2.items.get n = if n = nonce then none else m.items.get n := by
  rw [TxSortedMap.remove]
  rcases hget : m.items.get nonce with _ | tx
  · dsimp only
    refine ⟨h, fun n => ?_⟩
    split_ifs with heq
    · rw [heq, hget]
    · rfl
  · have hmem : nonce ∈ m.index := h.perm.mem_iff.2 ((m.items.mem_keys _).2 ⟨tx, hget⟩)
    dsimp only
    rw [if_pos hmem]
    refine ⟨⟨⟨(heap.remove_spec _ h.heap).1, ?_, h.keyed.erase _⟩, fun c hc => by cases hc⟩,
      fun n => AssocMap.get_erase ..⟩
    change (heap.remove UInt64.toNat m.index _).Perm (m.items.erase nonce).keys
    rw [AssocMap.keys_erase]
    refine (heap.remove_spec _ h.heap).2.trans ?_
    rw [← List.erase_eq_eraseIdx_of_idxOf rfl]
    exact h.perm.erase nonce

/-- The first loop of `Filter` over some of the nonces. -/
theorem foldl_filterStep (p : Transaction → Bool) {l : List UInt64} (hl : l.Nodup)
    (removed : List Transaction) (items : Items) :
    (l.foldl (filterStep p) (removed, items)).1 = removed ++ (l.filterMap items.get).filter p ∧
    ∀ n, (l.foldl (filterStep p) (removed, items)).2.get n =
      if n ∈ l then (items.get n).filter (fun tx => !p tx) else items.get n := by
  induction l generalizing removed items with
  | nil => simp
  | cons a l ih =>
    obtain ⟨ha, hl⟩ := List.nodup_cons.1 hl
    have hrest : l.filterMap (items.erase a).get = l.filterMap items.get := by
      refine List.filterMap_congr fun x hx => ?_
      rw [AssocMap.get_erase, if_neg]
      rintro rfl
      exact ha hx
    rw [List.foldl_cons, filterStep]
    rcases hget : items.get a with _ | tx
    · obtain ⟨h₁, h₂⟩ := ih hl removed items
      refine ⟨by rw [h₁, List.filterMap_cons_none hget], fun n => ?_⟩
      rw [h₂]
      by_cases hn : n = a
      · subst hn
        simp [hget]
      · simp [hn]
    · dsimp only
      split_ifs with hp
      · obtain ⟨h₁, h₂⟩ := ih hl (removed ++ [tx]) (items.erase a)
        refine ⟨by simp [h₁, hrest, List.filterMap_cons_some hget, hp], fun n => ?_⟩
        rw [h₂, AssocMap.get_erase]
        by_cases hn : n = a
        · subst hn
          simp [hget, hp, Option.filter]
        · simp [hn]
      · obtain ⟨h₁, h₂⟩ := ih hl removed items
        refine ⟨by simp [h₁, List.filterMap_cons_some hget, hp], fun n => ?_⟩
        rw [h₂]
        by_cases hn : n = a
        · subst hn
          simp [hget, hp, Option.filter]
        · simp [hn]

theorem Ok.filter (h : m.Ok) (heap : HeapFns) (ord : IterOrder) (p : Transaction → Bool) :
    (m.filter heap ord p).2.Ok ∧ (m.filter heap ord p).1.Perm (m.items.values.filter p) ∧
      ∀ n, (m.filter heap ord p).2.items.get n = (m.items.get n).filter fun tx => !p tx := by
  have hord := ord.perm m.items
  obtain ⟨h₁, h₂⟩ := foldl_filterStep p (hord.nodup_iff.2 m.items.nodup_keys) [] m.items
  have hremoved : ((ord.keys m.items).foldl (filterStep p) ([], m.items)).1.Perm
      (m.items.values.filter p) := by
    rw [h₁]
    exact (AssocMap.filterMap_get hord).filter p
  have hget (n : UInt64) : ((ord.keys m.items).foldl (filterStep p) ([], m.items)).2.get n =
      (m.items.get n).filter fun tx => !p tx := by
    rw [h₂]
    split_ifs with hn
    · rfl
    · rw [hord.mem_iff, AssocMap.mem_keys, not_exists] at hn
      rw [Option.eq_none_iff_forall_not_mem.2 hn]
      rfl
  rw [TxSortedMap.filter]
  generalize (ord.keys m.items).foldl (filterStep p) ([], m.items) = r at hremoved hget
  obtain ⟨removed, items⟩ := r
  dsimp only at hremoved hget ⊢
  split_ifs with hnil
  · subst hnil
    refine ⟨h, hremoved, fun n => ?_⟩
    have hkeep := List.filter_eq_nil_iff.1 hremoved.nil_eq.symm
    rcases hn : m.items.get n with _ | tx
    · rfl
    · have := hkeep tx (AssocMap.mem_values.2 ⟨n, hn⟩)
      rw [Option.filter_some_pos (by simpa using this)]
  · refine ⟨⟨⟨(heap.init_spec _ _).1, (heap.init_spec _ _).2.trans (ord.perm items), ?_⟩,
      fun c hc => by cases hc⟩, hremoved, hget⟩
    intro n tx hn
    rw [hget, Option.filter_eq_some_iff] at hn
    exact h.keyed n tx hn.1

/-- The loop of `Cap` takes the last of the sorted nonces away. -/
theorem capLoop_spec {index : List UInt64} (hindex : index.Pairwise fun x y => x.toNat ≤ y.toNat)
    (threshold : ℕ) {size : ℕ} {items : Items} (hkeyed : Keyed items)
    (hperm : (index.take size).Perm items.keys) (hsize : size ≤ index.length) :
    ∃ (drops : List Transaction) (items' : Items),
      capLoop index threshold size items = some (drops.map some, items') ∧
      Keyed items' ∧ (index.take (min size threshold)).Perm items'.keys ∧
      byNonce items.values = byNonce items'.values ++ drops.reverse := by
  induction size generalizing items with
  | zero => exact ⟨[], items, rfl, hkeyed, by simpa using hperm, by simp⟩
  | succ size ih =>
    rw [capLoop]
    split_ifs with hgt
    · have hlt : size < index.length := by omega
      rw [List.take_succ_eq_append_getElem hlt] at hperm
      obtain ⟨tx, htx⟩ := (items.mem_keys index[size]).1
        (hperm.mem_iff.1 (List.mem_append_right _ (.head _)))
      have hmax : ∀ k ∈ items.keys, k.toNat ≤ index[size].toNat := by
        intro k hk
        rcases List.mem_append.1 (hperm.mem_iff.2 hk) with hk | hk
        · obtain ⟨j, hj, rfl⟩ := List.mem_take_iff_getElem.1 hk
          exact List.pairwise_iff_getElem.1 hindex j size (by omega) hlt (by omega)
        · rw [List.mem_singleton.1 hk]
      have hrest : (index.take size).Perm (items.erase index[size]).keys := by
        rw [AssocMap.keys_erase]
        have := ((List.perm_append_singleton _ _).symm.trans hperm).erase index[size]
        rwa [List.erase_cons_head] at this
      obtain ⟨drops, items', hloop, hkeyed', hperm', hsorted⟩ :=
        ih (hkeyed.erase _) hrest (by omega)
      refine ⟨tx :: drops, items', ?_, hkeyed', ?_, ?_⟩
      · rw [List.getElem?_eq_getElem hlt]
        simp [hloop, htx]
      · rwa [show min (size + 1) threshold = min size threshold by omega]
      · rw [hkeyed.byNonce_concat htx hmax, hsorted, List.reverse_cons, List.append_assoc]
    · refine ⟨[], items, rfl, hkeyed, ?_, by simp⟩
      rwa [min_eq_left (by omega)]

theorem mem_sorted {tx : Transaction} : tx ∈ m.sorted ↔ ∃ n, m.items.get n = some tx :=
  (perm_sortBy _ _).mem_iff.trans AssocMap.mem_values

theorem length_sorted (m : TxSortedMap) : m.sorted.length = m.len :=
  (perm_sortBy _ _).length_eq.trans m.items.length_values

theorem Ok.cap (h : m.Ok) (heap : HeapFns) (threshold : ℕ) : ∃ (drops : List Transaction) (m' : _),
    m.cap heap threshold = some (drops.map some, m') ∧ m'.Ok ∧
      m'.sorted = m.sorted.take threshold ∧ drops = (m.sorted.drop threshold).reverse := by
  have hlen := m.length_sorted
  rw [TxSortedMap.cap]
  split_ifs with hle
  · have hle' : m.sorted.length ≤ threshold := hlen.trans_le hle
    refine ⟨[], m, rfl, h, (List.take_of_length_le hle').symm, ?_⟩
    rw [List.drop_of_length_le hle']
    rfl
  · have hperm := (perm_sortBy UInt64.toNat m.index).trans h.perm
    have hlength : (sortBy UInt64.toNat m.index).length = m.items.size :=
      hperm.length_eq.trans m.items.length_keys
    obtain ⟨drops, items, hloop, hkeyed, hperm', hsorted⟩ := capLoop_spec
      (pairwise_sortBy UInt64.toNat m.index) threshold h.keyed
      (by rwa [List.take_of_length_le hlength.le]) hlength.ge
    rw [min_eq_right (not_le.1 hle).le] at hperm'
    have hsplit : m.sorted = byNonce items.values ++ drops.reverse := hsorted
    have hthreshold : (byNonce items.values).length = threshold := by
      rw [byNonce, (perm_sortBy _ _).length_eq, items.length_values, ← items.length_keys,
        ← hperm'.length_eq, List.length_take, hlength]
      exact min_eq_left (not_le.1 hle).le
    have htake : byNonce items.values = m.sorted.take threshold := by
      rw [hsplit, List.take_left' hthreshold]
    have hdrop : drops = (m.sorted.drop threshold).reverse := by
      rw [hsplit, List.drop_left' hthreshold, List.reverse_reverse]
    have hstep (cache : Option (List Transaction)) : InStep
        { items, index := heap.init UInt64.toNat ((sortBy UInt64.toNat m.index).take threshold),
          cache } := ⟨(heap.init_spec _ _).1, (heap.init_spec _ _).2.trans hperm', hkeyed⟩
    dsimp only
    rw [hloop, Option.bind_eq_bind, Option.bind_some]
    rcases hc : m.cache with _ | cache
    · exact ⟨drops, _, rfl, ⟨hstep none, fun c hc => by cases hc⟩, htake, hdrop⟩
    · have hcache := h.cache cache hc
      have hcount : cache.length - drops.length = threshold := by
        rw [hcache, hsplit, List.length_append, List.length_reverse, hthreshold]
        omega
      dsimp only
      rw [List.length_map, if_neg (by rw [hcache, hsplit]; simp), hcount]
      refine ⟨drops, _, rfl, ⟨hstep _, fun c hc => ?_⟩, htake, hdrop⟩
      cases hc
      rw [hcache, ← htake]
      rfl

theorem Ok.flatten (h : m.Ok) (ord : IterOrder) :
    (m.flatten ord).1 = m.sorted ∧ (m.flatten ord).2.Ok := by
  have hcache : (m.flatten ord).1 = m.sorted := by
    rw [TxSortedMap.flatten]
    rcases hc : m.cache with _ | cache
    · exact h.keyed.byNonce_eq (AssocMap.filterMap_get (ord.perm _))
    · exact h.cache cache hc
  refine ⟨hcache, ⟨h.heap, h.perm, h.keyed⟩, fun c hc => ?_⟩
  cases hc
  exact hcache

theorem Reached.ok (h : Reached heap m) : m.Ok := by
  induction h with
  | new =>
    refine ⟨⟨isHeap_nil, .refl _, fun n tx hget => ?_⟩, fun c hc => by cases hc⟩
    rw [AssocMap.get_empty] at hget
    cases hget
  | put tx _ ih => exact ih.put heap tx
  | forward _ hforward ih =>
    obtain ⟨removed, m', heq, hm', -⟩ := ih.forward heap _
    cases hforward.symm.trans heq
    exact hm'
  | filter ord p _ ih => exact (ih.filter heap ord p).1
  | cap _ hcap ih =>
    obtain ⟨drops, m', heq, hm', -⟩ := ih.cap heap _
    cases hcap.symm.trans heq
    exact hm'
  | remove nonce _ ih => exact (ih.remove heap nonce).1
  | ready _ hready ih =>
    obtain ⟨ready, m', heq, hm', -⟩ := ih.ready heap _
    cases hready.symm.trans heq
    exact hm'
  | flatten ord _ ih => exact (ih.flatten ord).2

/-- **The sorted map.**  The heap has the nonces of the items once each, the cache has the
    items in their order, `Flatten` returns them, `Forward` removes the nonces below its
    threshold and `Cap` the largest ones beyond its limit. -/
theorem sorted_map (h : Reached heap m) :
    IsHeap UInt64.toNat m.index ∧ m.index.Perm m.items.keys ∧ m.index.Nodup ∧
    (∀ c, m.cache = some c → c = m.sorted) ∧ (∀ ord, (m.flatten ord).1 = m.sorted) ∧
    (∀ threshold, ∃ removed m', m.forward heap threshold = some (removed, m') ∧
      ∀ n, m'.items.get n = if n < threshold then none else m.items.get n) ∧
    ∀ limit, ∃ drops m', m.cap heap limit = some (drops, m') ∧
      m'.sorted = m.sorted.take limit ∧ drops = (m.sorted.drop limit).reverse.map some := by
  have hm := h.ok
  refine ⟨hm.heap, hm.perm, hm.perm.nodup_iff.2 m.items.nodup_keys, hm.cache,
    fun ord => (hm.flatten ord).1, fun threshold => ?_, fun limit => ?_⟩
  · obtain ⟨removed, m', heq, -, -, hget⟩ := hm.forward heap threshold
    exact ⟨_, m', heq, hget⟩
  · obtain ⟨drops, m', heq, -, htake, hdrop⟩ := hm.cap heap limit
    exact ⟨_, m', heq, htake, by rw [hdrop]⟩

/-- Three transactions, put in another order than that of their nonces. -/
theorem sorted_map_three : ∃ m, Reached .slices m ∧ m.index = [7, 9, 8] ∧ m.index.Nodup ∧
    ∃ drops m', m.cap .slices 2 = some (drops, m') ∧
      m'.sorted.map Transaction.nonce = [7, 8] := by
  have h : Reached .slices _ := .put ⟨3, 8, 1, 21000, none, 0, []⟩
    (.put ⟨1, 7, 1, 21000, none, 0, []⟩ (.put ⟨2, 9, 1, 21000, none, 0, []⟩ .new))
  obtain ⟨-, -, hnodup, -, -, -, hcap⟩ := sorted_map h
  obtain ⟨drops, m', heq, hsorted, -⟩ := hcap 2
  exact ⟨_, h, by decide +kernel, hnodup, drops, m', heq, by rw [hsorted]; decide +kernel⟩

end TxSortedMap

end GoEthereum.TxPool
