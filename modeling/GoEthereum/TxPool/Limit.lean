/-
  The limit of pending transactions.

  When there are too many, the accounts with the most lose their last transactions: the
  largest one down to the second, both down to the third, and so on, in the end down to the
  slots that every account has.  In each round the accounts that are being cut have the same
  number of transactions (`Level`), so that all end at one number (`pending_limit`).
-/
import GoEthereum.TxPool.TxList

namespace GoEthereum.TxPool

open GoEthereum.Core

abbrev Accounts := AssocMap Address TxList

/-- The orders in which a loop sees the accounts. -/
structure AccountOrder where
  keys : Accounts → List Address
  perm (m : Accounts) : (keys m).Perm m.keys

/-- The fields of `TxPool` that the limit reads and writes; the nonces are those of
    `pendingState`. -/
structure Pool where
  pending : Accounts := .empty
  all : AssocMap Word Transaction := .empty
  nonces : Address → UInt64 := fun _ => 0
  locals : Finset Address := ∅

/-- The limits of `TxPoolConfig`. -/
structure Config where
  accountSlots : ℕ
  globalSlots : ℕ

/-- An account in the queue of the largest ones. -/
structure Spammer where
  addr : Address
  priority : ℤ

/-- The queue has the highest priority in front. -/
def Spammer.key (s : Spammer) : ℤ := -s.priority

namespace Pool

/-! ## The program -/

section
variable (heap : HeapFns) (cfg : Config)

/-- The number of pending transactions. -/
def count (pool : Pool) : ℕ := pool.pending.total TxList.len

/-- A transaction leaves the pool. -/
def forget (addr : Address) (pool : Pool) (tx : Transaction) : Pool :=
  { pool with
    all := pool.all.erase tx.hash
    nonces := if pool.nonces addr > tx.nonce then Function.update pool.nonces addr tx.nonce
      else pool.nonces }

/-- The body of the loops over the offenders; `none` is a nil pointer or an index out of
    range, as with `Cap(-1)`. -/
def dropLast (pool : Pool) (addr : Address) : Option Pool := do
  let list ← pool.pending.get addr
  if list.len = 0 then none
  else
    let (drops, list) ← list.cap heap (list.len - 1)
    drops.foldlM (fun pool tx => tx.map (pool.forget addr))
      { pool with pending := pool.pending.set addr list }

/-- A loop over the offenders, which counts down. -/
def dropEach (addrs : List Address) (s : Pool × ℕ) : Option (Pool × ℕ) :=
  addrs.foldlM (fun s addr => do return (← s.1.dropLast heap addr, s.2 - 1)) s

/-- The loops that cut the offenders while there are too many transactions and the last one
    is above the threshold. -/
def lower (addrs : List Address) (last : Address) (threshold : ℕ) :
    ℕ → Pool × ℕ → Option (Pool × ℕ)
  | fuel, s =>
    if s.2 > cfg.globalSlots then do
      let list ← s.1.pending.get last
      if list.len > threshold then
        match fuel with
        | 0 => none
        | fuel + 1 => do lower addrs last threshold fuel (← dropEach heap addrs s)
      else return s
    else return s

/-- The offenders before the last one are brought down to it. -/
def equalize (offenders : List Address) (offender : Address) (s : Pool × ℕ) :
    Option (Pool × ℕ) :=
  match offenders.getLast? with
  | none => some s
  | some last => do
    let list ← s.1.pending.get offender
    lower heap cfg offenders last list.len s.2 s

/-- The loop that takes one more offender and brings the others down to it. -/
def punish : ℕ → List Spammer → List Address → Pool × ℕ → Option (List Address × (Pool × ℕ))
  | fuel, spammers, offenders, s =>
    if s.2 > cfg.globalSlots ∧ spammers ≠ [] then
      match fuel with
      | 0 => none
      | fuel + 1 => do
        let (offender, spammers) ← heap.pop Spammer.key spammers
        let s ← equalize heap cfg offenders offender.addr s
        punish fuel spammers (offenders ++ [offender.addr]) s
    else some (offenders, s)

/-- The offenders are brought down to the slots of an account. -/
def reduce (offenders : List Address) (s : Pool × ℕ) : Option (Pool × ℕ) :=
  match offenders.getLast? with
  | none => some s
  | some last => lower heap cfg offenders last cfg.accountSlots s.2 s

/-- The number of pending transactions of an account. -/
def len (pool : Pool) (addr : Address) : ℕ := (pool.pending.get addr).elim 0 TxList.len

/-- The account may lose transactions. -/
def Spams (pool : Pool) (addr : Address) : Prop :=
  addr ∉ pool.locals ∧ pool.len addr > cfg.accountSlots

instance (pool : Pool) : DecidablePred (pool.Spams cfg) := fun _ => instDecidableAnd

/-- The queue of the accounts that may lose transactions. -/
def spammers (pool : Pool) (keys : List Address) : List Spammer :=
  keys.foldl (fun spammers addr =>
    if pool.Spams cfg addr then heap.push Spammer.key spammers ⟨addr, pool.len addr⟩
    else spammers) []

/-- The pending limit of `promoteExecutables`. -/
def limitPending (ord : AccountOrder) (pool : Pool) : Option Pool :=
  if pool.count > cfg.globalSlots then do
    let spammers := pool.spammers heap cfg (ord.keys pool.pending)
    let (offenders, s) ← punish heap cfg spammers.length spammers [] (pool, pool.count)
    let s ← reduce heap cfg offenders s
    return s.1
  else some pool

end

/-! ## One round -/

variable {heap : HeapFns} {cfg : Config} {pool : Pool} {a : Address} {l : TxList} {n : ℕ}
  {addrs : List Address} {pool' : Pool}

theorem foldlM_forget (drops : List Transaction) (pool : Pool) (addr : Address) :
    ∃ pool', (drops.map some).foldlM (fun pool tx => tx.map (forget addr pool)) pool = some pool' ∧
      pool'.pending = pool.pending ∧ pool'.locals = pool.locals := by
  induction drops generalizing pool with
  | nil => exact ⟨pool, rfl, rfl, rfl⟩
  | cons tx drops ih => exact ih (pool.forget addr tx)

theorem dropLast_spec (heap : HeapFns) (hget : pool.pending.get a = some l) (hok : l.txs.Ok)
    (hlen : l.len = n + 1) :
    ∃ pool' l', pool.dropLast heap a = some pool' ∧ pool'.pending = pool.pending.set a l' ∧
      pool'.locals = pool.locals ∧ l'.txs.Ok ∧ l'.txs.sorted = l.txs.sorted.take n := by
  obtain ⟨drops, m, hcap, hm, hsorted, -⟩ := hok.cap heap n
  have hcap' : l.cap heap (l.len - 1) = some (drops.map some, { l with txs := m }) := by
    rw [hlen, TxList.cap, Nat.add_sub_cancel, hcap]
    rfl
  obtain ⟨pool', hfold, hpending, hlocals⟩ := foldlM_forget drops
    { pool with pending := pool.pending.set a { l with txs := m } } a
  refine ⟨pool', _, ?_, hpending, hlocals, hm, hsorted⟩
  rw [dropLast, hget, Option.bind_eq_bind, Option.bind_some, if_neg (by omega), hcap']
  exact hfold

/-- The accounts keep their first `n` transactions, and the others all of them. -/
structure Cut (addrs : List Address) (n : ℕ) (pool pool' : Pool) : Prop where
  locals : pool'.locals = pool.locals
  other : ∀ a ∉ addrs, pool'.pending.get a = pool.pending.get a
  take : ∀ a ∈ addrs, ∃ l l', pool.pending.get a = some l ∧ pool'.pending.get a = some l' ∧
    l'.txs.Ok ∧ l'.txs.sorted = l.txs.sorted.take n

/-- The accounts have `n` transactions. -/
def Level (addrs : List Address) (n : ℕ) (pool : Pool) : Prop :=
  ∀ a ∈ addrs, ∃ l, pool.pending.get a = some l ∧ l.txs.Ok ∧ l.len = n

theorem len_eq_length (l : TxList) : l.len = l.txs.sorted.length := l.txs.length_sorted.symm

theorem Level.cut_self (h : Level addrs n pool) : Cut addrs n pool pool := by
  refine ⟨rfl, fun a _ => rfl, fun a ha => ?_⟩
  obtain ⟨l, hget, hok, hlen⟩ := h a ha
  refine ⟨l, l, hget, hget, hok, ?_⟩
  rw [List.take_of_length_le (by rw [← len_eq_length, hlen])]

theorem Cut.trans {pool' pool'' : Pool} {k : ℕ} (h : Cut addrs n pool pool')
    (h' : Cut addrs k pool' pool'') (hk : k ≤ n) : Cut addrs k pool pool'' := by
  refine ⟨h'.locals.trans h.locals, fun a ha => (h'.other a ha).trans (h.other a ha),
    fun a ha => ?_⟩
  obtain ⟨l, l', hget, hget', -, htake⟩ := h.take a ha
  obtain ⟨l'', l''', hget'', hget''', hok, htake'⟩ := h'.take a ha
  rw [hget'] at hget''
  cases hget''
  refine ⟨l, l''', hget, hget''', hok, ?_⟩
  rw [htake', htake, List.take_take, min_eq_left hk]

theorem Cut.level (h : Cut addrs n pool pool')
    (hlen : ∀ a ∈ addrs, n ≤ pool.len a) : Level addrs n pool' := by
  intro a ha
  obtain ⟨l, l', hget, hget', hok, htake⟩ := h.take a ha
  have hle := hlen a ha
  rw [len, hget, Option.elim_some, len_eq_length] at hle
  refine ⟨l', hget', hok, ?_⟩
  rw [len_eq_length, htake, List.length_take, min_eq_left hle]

theorem dropEach_spec (heap : HeapFns) (hnodup : addrs.Nodup) (h : Level addrs (n + 1) pool) :
    ∃ pool', dropEach heap addrs (pool, pool.count) = some (pool', pool'.count) ∧
      Cut addrs n pool pool' := by
  induction addrs generalizing pool with
  | nil => exact ⟨pool, rfl, rfl, fun a _ => rfl, fun a ha => by cases ha⟩
  | cons a addrs ih =>
    obtain ⟨ha, hnodup⟩ := List.nodup_cons.1 hnodup
    obtain ⟨l, hget, hok, hlen⟩ := h a (.head _)
    obtain ⟨pool₁, l', hdrop, hpending, hlocals, hok', htake⟩ :=
      dropLast_spec heap hget hok hlen
    have hother (b : Address) (hb : b ≠ a) : pool₁.pending.get b = pool.pending.get b := by
      rw [hpending, AssocMap.get_set, if_neg hb]
    have hcount : pool.count - 1 = pool₁.count := by
      have hlen' : l'.len = n := by
        rw [len_eq_length, htake, List.length_take, ← len_eq_length, hlen]
        omega
      rw [count, count, hpending, AssocMap.total_set, AssocMap.total_erase _ hget, hlen, hlen']
      omega
    have hlevel : Level addrs (n + 1) pool₁ := fun b hb => by
      rw [hother b (fun hba => ha (hba ▸ hb))]
      exact h b (.tail _ hb)
    obtain ⟨pool', hfold, hcut⟩ := ih hnodup hlevel
    refine ⟨pool', ?_, hcut.locals.trans hlocals, fun b hb => ?_, fun b hb => ?_⟩
    · rw [dropEach, List.foldlM_cons, hdrop]
      change dropEach heap addrs (pool₁, pool.count - 1) = _
      rw [hcount]
      exact hfold
    · rw [List.mem_cons, not_or] at hb
      rw [hcut.other b hb.2, hother b hb.1]
    · by_cases hba : b = a
      · subst hba
        refine ⟨l, l', hget, ?_, hok', htake⟩
        rw [hcut.other b ha, hpending, AssocMap.get_set_self]
      · obtain ⟨l, l', hget, h⟩ := hcut.take b (List.mem_of_ne_of_mem hba hb)
        exact ⟨l, l', (hother b hba).symm.trans hget, h⟩

theorem Level.len_eq (h : Level addrs n pool) (ha : a ∈ addrs) : pool.len a = n := by
  obtain ⟨l, hget, -, hlen⟩ := h a ha
  rw [len, hget, Option.elim_some, hlen]

/-- The accounts are cut until there are few enough transactions, or down to the threshold. -/
theorem lower_spec (heap : HeapFns) (cfg : Config) {last : Address} {threshold fuel : ℕ}
    (hnodup : addrs.Nodup)
    (hlast : last ∈ addrs) (h : Level addrs n pool) (hfuel : n ≤ fuel) (hle : threshold ≤ n) :
    ∃ pool' k, lower heap cfg addrs last threshold fuel (pool, pool.count) =
        some (pool', pool'.count) ∧
      Cut addrs k pool pool' ∧ threshold ≤ k ∧ k ≤ n ∧
      (pool'.count ≤ cfg.globalSlots ∨ k = threshold) := by
  induction fuel generalizing pool n with
  | zero =>
    obtain rfl : n = 0 := by omega
    obtain ⟨l, hget, -, hlen⟩ := h last hlast
    refine ⟨pool, 0, ?_, h.cut_self, hle, le_rfl, .inr (by omega)⟩
    rw [lower, hget]
    split_ifs with hcount
    · rw [Option.bind_eq_bind, Option.bind_some, if_neg (by omega)]
      rfl
    · rfl
  | succ fuel ih =>
    rw [lower]
    split_ifs with hcount
    · obtain ⟨l, hget, -, hlen⟩ := h last hlast
      rw [hget, Option.bind_eq_bind, Option.bind_some]
      split_ifs with hgt
      · obtain ⟨k, rfl⟩ := Nat.exists_eq_succ_of_ne_zero (n := n) (by omega)
        obtain ⟨pool₁, hdrop, hcut⟩ := dropEach_spec heap hnodup h
        have hlevel := hcut.level fun a ha => by rw [h.len_eq ha]; omega
        obtain ⟨pool', k', hlower, hcut', hk, hk', hend⟩ := ih hlevel (by omega) (by omega)
        refine ⟨pool', k', ?_, hcut.trans hcut' hk', hk, by omega, hend⟩
        rw [hdrop]
        exact hlower
      · exact ⟨pool, n, rfl, h.cut_self, hle, le_rfl, .inr (by omega)⟩
    · exact ⟨pool, n, rfl, h.cut_self, hle, le_rfl, .inl (not_lt.1 hcount)⟩

/-! ## The queue -/

/-- The accounts of a list that may lose transactions, as they are in the queue. -/
def queued (cfg : Config) (pool : Pool) (keys : List Address) : List Spammer :=
  (keys.filter fun addr => pool.Spams cfg addr).map fun addr => ⟨addr, pool.len addr⟩

theorem foldl_push (heap : HeapFns) (cfg : Config) (pool : Pool) (keys : List Address)
    {q : List Spammer} (hq : IsHeap Spammer.key q) :
    let q' := keys.foldl (fun q addr => if pool.Spams cfg addr then
      heap.push Spammer.key q ⟨addr, pool.len addr⟩ else q) q
    IsHeap Spammer.key q' ∧ q'.Perm (queued cfg pool keys ++ q) := by
  induction keys generalizing q with
  | nil => exact ⟨hq, .refl _⟩
  | cons addr keys ih =>
    by_cases hspams : pool.Spams cfg addr
    · have hpush := ih (heap.push_spec (⟨addr, pool.len addr⟩ : Spammer) hq).1
      simp only [List.foldl_cons, queued, List.filter_cons, hspams, decide_true,
        if_true, List.map_cons, List.cons_append]
      refine ⟨hpush.1, hpush.2.trans ?_⟩
      exact ((heap.push_spec _ hq).2.append_left _).trans List.perm_middle
    · simp only [List.foldl_cons, queued, List.filter_cons, hspams, decide_false]
      exact ih hq

theorem spammers_spec (keys : List Address) :
    IsHeap Spammer.key (pool.spammers heap cfg keys) ∧
      (pool.spammers heap cfg keys).Perm (queued cfg pool keys) := by
  have h := foldl_push heap cfg pool keys isHeap_nil
  exact ⟨h.1, List.append_nil (queued cfg pool keys) ▸ h.2⟩

/-! ## Rounds -/

variable {pool₀ : Pool} {keys offenders : List Address} {q : List Spammer} {x : Spammer}

/-- The offenders are cut to `n`, which nobody in the queue exceeds. -/
structure Punished (cfg : Config) (pool₀ : Pool) (keys : List Address) (n : ℕ) (q : List Spammer)
    (offenders : List Address) (pool : Pool) : Prop where
  cut : Cut offenders n pool₀ pool
  heap : IsHeap Spammer.key q
  perm : (offenders.map (fun addr => (⟨addr, pool₀.len addr⟩ : Spammer)) ++ q).Perm
    (queued cfg pool₀ keys)
  slots : cfg.accountSlots ≤ n
  queue : ∀ s ∈ q, pool₀.len s.addr ≤ n
  level : cfg.globalSlots < pool.count → ∀ a ∈ offenders, n ≤ pool₀.len a

theorem Punished.mem_queued (h : Punished cfg pool₀ keys n q offenders pool) {s : Spammer}
    (hs : s ∈ q) : pool₀.Spams cfg s.addr ∧ s = ⟨s.addr, pool₀.len s.addr⟩ := by
  have hmem := h.perm.mem_iff.1 (List.mem_append_right _ hs)
  obtain ⟨addr, haddr, rfl⟩ := List.mem_map.1 hmem
  exact ⟨of_decide_eq_true (List.mem_filter.1 haddr).2, rfl⟩

theorem Punished.addr_perm (h : Punished cfg pool₀ keys n q offenders pool) :
    (offenders ++ q.map Spammer.addr).Perm (keys.filter fun addr => pool₀.Spams cfg addr) := by
  have hperm := h.perm.map Spammer.addr
  rw [List.map_append, List.map_map, queued, List.map_map] at hperm
  have hid (l : List Address) :
      l.map (Spammer.addr ∘ fun addr => ⟨addr, pool₀.len addr⟩) = l := List.map_id l
  rwa [hid, hid] at hperm

theorem exists_of_spams (hok : ∀ a l, pool.pending.get a = some l → l.txs.Ok)
    (h : pool.Spams cfg a) : ∃ l, pool.pending.get a = some l ∧ l.txs.Ok ∧ l.len = pool.len a := by
  rcases hget : pool.pending.get a with _ | l
  · have hlen := h.2
    rw [len, hget] at hlen
    exact absurd hlen (Nat.not_lt_zero _)
  · refine ⟨l, rfl, hok a l hget, ?_⟩
    rw [len, hget, Option.elim_some]

/-- The offenders are brought down to the next one. -/
theorem Punished.equalize (h : Punished cfg pool₀ keys n q offenders pool) (heap : HeapFns)
    (hok : ∀ a l, pool₀.pending.get a = some l → l.txs.Ok) (hnodup : offenders.Nodup)
    (hcount : cfg.globalSlots < pool.count) (hspams : pool₀.Spams cfg a) (ha : a ∉ offenders)
    (hle : pool₀.len a ≤ n) :
    ∃ pool' k,
      Pool.equalize heap cfg offenders a (pool, pool.count) = some (pool', pool'.count) ∧
      Cut offenders k pool₀ pool' ∧ pool₀.len a ≤ k ∧
      (cfg.globalSlots < pool'.count → k = pool₀.len a ∧ ∀ b ∈ offenders, k ≤ pool₀.len b) := by
  rw [Pool.equalize]
  rcases hlast : offenders.getLast? with _ | last
  · obtain rfl := List.getLast?_eq_none_iff.1 hlast
    exact ⟨pool, pool₀.len a, rfl, ⟨h.cut.locals, h.cut.other, fun b hb => by cases hb⟩, le_rfl,
      fun _ => ⟨rfl, fun b hb => by cases hb⟩⟩
  · have hmem := List.mem_of_getLast? hlast
    have hlevel := h.cut.level (h.level hcount)
    have hfuel : n ≤ pool.count := by
      obtain ⟨l, hget, -, hlen⟩ := hlevel last hmem
      rw [← hlen]
      exact AssocMap.le_total _ hget
    obtain ⟨l, hget, -, hlen⟩ := exists_of_spams hok hspams
    obtain ⟨pool', k, hlower, hcut, hk, hkn, hend⟩ :=
      lower_spec heap cfg hnodup hmem hlevel hfuel hle
    refine ⟨pool', k, ?_, h.cut.trans hcut hkn, hk, fun hcount' => ⟨?_, fun b hb => ?_⟩⟩
    · dsimp only
      rw [h.cut.other a ha, hget, Option.bind_eq_bind, Option.bind_some, hlen]
      exact hlower
    · exact hend.resolve_left (not_le.2 hcount')
    · exact hkn.trans (h.level hcount b hb)

theorem Cut.concat (h : Cut addrs n pool pool') (ha : a ∉ addrs)
    (hget : pool.pending.get a = some l) (hok : l.txs.Ok) (hle : l.len ≤ n) :
    Cut (addrs ++ [a]) n pool pool' := by
  refine ⟨h.locals, fun b hb => h.other b fun hb' => hb (List.mem_append_left _ hb'),
    fun b hb => ?_⟩
  rcases List.mem_append.1 hb with hb | hb
  · exact h.take b hb
  · obtain rfl := List.mem_singleton.1 hb
    refine ⟨l, l, hget, (h.other b ha).trans hget, hok, ?_⟩
    rw [List.take_of_length_le (by rwa [← len_eq_length])]

theorem Punished.front (h : Punished cfg pool₀ keys n (x :: q) offenders pool) {s : Spammer}
    (hs : s ∈ q) : pool₀.len s.addr ≤ pool₀.len x.addr := by
  have hkey := h.heap.head_le s (.tail _ hs)
  rw [(h.mem_queued (.head _)).2, (h.mem_queued (.tail _ hs)).2] at hkey
  simpa [Spammer.key] using hkey

/-- The account in front becomes an offender. -/
theorem Punished.next (h : Punished cfg pool₀ keys n (x :: q) offenders pool)
    (hok : ∀ a l, pool₀.pending.get a = some l → l.txs.Ok) {rest : List Spammer} {k : ℕ}
    (hx : x.addr ∉ offenders) (hheap : IsHeap Spammer.key rest) (hrest : rest.Perm q)
    (hcut : Cut offenders k pool₀ pool') (hk : pool₀.len x.addr ≤ k)
    (hlevel : cfg.globalSlots < pool'.count →
      k = pool₀.len x.addr ∧ ∀ b ∈ offenders, k ≤ pool₀.len b) :
    Punished cfg pool₀ keys k rest (offenders ++ [x.addr]) pool' := by
  obtain ⟨hspams, hxeq⟩ := h.mem_queued (.head _)
  obtain ⟨l, hget, hl, hlen⟩ := exists_of_spams hok hspams
  refine ⟨hcut.concat hx hget hl (hlen.trans_le hk), hheap, ?_, hspams.2.le.trans hk,
    fun s hs => (h.front (hrest.mem_iff.1 hs)).trans hk, fun hcount b hb => ?_⟩
  · rw [List.map_append, List.append_assoc, List.map_singleton, ← hxeq, List.singleton_append]
    exact ((hrest.cons x).append_left _).trans h.perm
  · rcases List.mem_append.1 hb with hb | hb
    · exact (hlevel hcount).2 b hb
    · rw [List.mem_singleton.1 hb]
      exact (hlevel hcount).1.le

theorem punish_spec (heap : HeapFns) {fuel : ℕ} (hok : ∀ a l, pool₀.pending.get a = some l → l.txs.Ok)
    (hkeys : keys.Nodup) (h : Punished cfg pool₀ keys n q offenders pool)
    (hfuel : q.length ≤ fuel) :
    ∃ n' q' offenders' pool', punish heap cfg fuel q offenders (pool, pool.count) =
        some (offenders', (pool', pool'.count)) ∧
      Punished cfg pool₀ keys n' q' offenders' pool' ∧
      (cfg.globalSlots < pool'.count → q' = []) := by
  induction fuel generalizing n q offenders pool with
  | zero =>
    obtain rfl := List.length_eq_zero_iff.1 (Nat.le_zero.1 hfuel)
    refine ⟨n, [], offenders, pool, ?_, h, fun _ => rfl⟩
    rw [punish, if_neg fun hc => hc.2 rfl]
  | succ fuel ih =>
    rw [punish]
    split_ifs with hcond
    · obtain ⟨hcount, hne⟩ := hcond
      obtain ⟨x, q, rfl⟩ := List.exists_cons_of_ne_nil hne
      obtain ⟨rest, hpop, hheap, hrest⟩ := heap.pop_spec h.heap
      obtain ⟨hnodup, -, hdisjoint⟩ := List.nodup_append.1 (h.addr_perm.nodup_iff.2 (hkeys.filter _))
      have hx : x.addr ∉ offenders := fun hmem => hdisjoint _ hmem _ (.head _) rfl
      obtain ⟨pool', k, hlower, hcut, hk, hlevel⟩ := h.equalize heap hok hnodup hcount
        (h.mem_queued (.head _)).1 hx (h.queue x (.head _))
      have hlength : rest.length ≤ fuel := by
        rw [hrest.length_eq]
        simpa using hfuel
      obtain ⟨n', q', offenders', pool'', hpunish, hend⟩ :=
        ih (h.next hok hx hheap hrest hcut hk hlevel) hlength
      refine ⟨n', q', offenders', pool'', ?_, hend⟩
      rw [hpop, Option.bind_eq_bind, Option.bind_some]
      dsimp only
      rw [hlower]
      exact hpunish
    · refine ⟨n, q, offenders, pool, rfl, h, fun hcount => ?_⟩
      by_contra hne
      exact hcond ⟨hcount, hne⟩

/-! ## The limit -/

/-- The pending transactions of an account, by nonces. -/
def txs (pool : Pool) (addr : Address) : List Transaction :=
  (pool.pending.get addr).elim [] fun l => l.txs.sorted

theorem length_txs (pool : Pool) (addr : Address) : (pool.txs addr).length = pool.len addr := by
  rw [txs, len]
  rcases pool.pending.get addr with _ | l
  · rfl
  · exact (len_eq_length l).symm

/-- The accounts that may lose transactions keep the first `n`, and there are few enough, or
    only the local ones have more than their slots. -/
structure Limited (cfg : Config) (n : ℕ) (pool pool' : Pool) : Prop where
  slots : cfg.accountSlots ≤ n
  spams : ∀ a, pool.Spams cfg a → pool'.txs a = (pool.txs a).take n
  other : ∀ a, ¬ pool.Spams cfg a → pool'.txs a = pool.txs a
  limit : pool'.count ≤ cfg.globalSlots ∨
    ∀ a ∉ pool.locals, (pool'.txs a).length ≤ cfg.accountSlots

theorem Cut.txs_of_mem (h : Cut addrs n pool pool') (ha : a ∈ addrs) :
    pool'.txs a = (pool.txs a).take n := by
  obtain ⟨l, l', hget, hget', -, htake⟩ := h.take a ha
  rw [txs, txs, hget, hget', Option.elim_some, Option.elim_some, htake]

theorem Cut.txs_of_not_mem (h : Cut addrs n pool pool') (ha : a ∉ addrs) :
    pool'.txs a = pool.txs a := by
  rw [txs, txs, h.other a ha]

theorem len_le_count (pool : Pool) (addr : Address) : pool.len addr ≤ pool.count := by
  rw [len]
  rcases hget : pool.pending.get addr with _ | l
  · exact Nat.zero_le _
  · exact AssocMap.le_total TxList.len hget

theorem Punished.start (heap : HeapFns) (cfg : Config) (pool : Pool) (keys : List Address) :
    Punished cfg pool keys (max pool.count cfg.accountSlots) (pool.spammers heap cfg keys) []
      pool where
  cut := ⟨rfl, fun a _ => rfl, fun a ha => by cases ha⟩
  heap := (spammers_spec _).1
  perm := (spammers_spec _).2
  slots := le_max_right _ _
  queue s _ := (pool.len_le_count s.addr).trans (le_max_left _ _)
  level _ a ha := by cases ha

theorem Punished.limited (h : Punished cfg pool₀ keys n q offenders pool)
    (hok : ∀ a l, pool₀.pending.get a = some l → l.txs.Ok) (hkeys : keys.Perm pool₀.pending.keys)
    (hlimit : pool.count ≤ cfg.globalSlots ∨
      q = [] ∧ ∀ a ∈ offenders, n = cfg.accountSlots) : Limited cfg n pool₀ pool := by
  have hmem (a : Address) (ha : pool₀.Spams cfg a) : a ∈ offenders ∨ ∃ s ∈ q, s.addr = a := by
    obtain ⟨l, hget, -⟩ := exists_of_spams hok ha
    have := h.addr_perm.mem_iff.2 (List.mem_filter.2
      ⟨hkeys.mem_iff.2 ((AssocMap.mem_keys _ _).2 ⟨l, hget⟩), decide_eq_true ha⟩)
    rwa [List.mem_append, List.mem_map] at this
  have hspams (a : Address) (ha : pool₀.Spams cfg a) : pool.txs a = (pool₀.txs a).take n := by
    by_cases hoff : a ∈ offenders
    · exact h.cut.txs_of_mem hoff
    · obtain ⟨s, hs, rfl⟩ := (hmem a ha).resolve_left hoff
      rw [h.cut.txs_of_not_mem hoff, List.take_of_length_le]
      exact (pool₀.length_txs _).trans_le (h.queue s hs)
  have hother (a : Address) (ha : ¬ pool₀.Spams cfg a) : pool.txs a = pool₀.txs a := by
    refine h.cut.txs_of_not_mem fun hoff => ha ?_
    have := h.addr_perm.mem_iff.1 (List.mem_append_left _ hoff)
    exact of_decide_eq_true (List.mem_filter.1 this).2
  refine ⟨h.slots, hspams, hother, hlimit.imp id ?_⟩
  rintro ⟨rfl, hn⟩ a ha
  by_cases hspam : pool₀.Spams cfg a
  · have hoff := (hmem a hspam).resolve_right (by simp)
    rw [hspams a hspam, hn a hoff, List.length_take]
    exact min_le_left _ _
  · rw [hother a hspam, length_txs]
    exact not_lt.1 fun hlt => hspam ⟨ha, hlt⟩

/-- The offenders are brought down to their slots. -/
theorem Punished.reduce (h : Punished cfg pool₀ keys n q offenders pool) (heap : HeapFns)
    (hnodup : offenders.Nodup) (hq : cfg.globalSlots < pool.count → q = []) :
    ∃ k pool', Pool.reduce heap cfg offenders (pool, pool.count) = some (pool', pool'.count) ∧
      Punished cfg pool₀ keys k q offenders pool' ∧ (pool'.count ≤ cfg.globalSlots ∨
        q = [] ∧ ∀ a ∈ offenders, k = cfg.accountSlots) := by
  rw [Pool.reduce]
  by_cases hgt : cfg.globalSlots < pool.count
  · obtain rfl := hq hgt
    rcases hlast : offenders.getLast? with _ | last
    · obtain rfl := List.getLast?_eq_none_iff.1 hlast
      exact ⟨n, pool, rfl, h, .inr ⟨rfl, fun a ha => by cases ha⟩⟩
    · have hmem := List.mem_of_getLast? hlast
      have hlevel := h.cut.level (h.level hgt)
      obtain ⟨pool', k, hlower, hcut, hk, hkn, hend⟩ := lower_spec heap cfg
        hnodup hmem hlevel (hlevel.len_eq hmem ▸ pool.len_le_count last) h.slots
      refine ⟨k, pool', hlower, ⟨h.cut.trans hcut hkn, h.heap, h.perm, hk,
        fun s hs => (List.not_mem_nil hs).elim, fun _ a ha => hkn.trans (h.level hgt a ha)⟩,
        hend.imp id fun hk => ⟨rfl, fun _ _ => hk⟩⟩
  · refine ⟨n, pool, ?_, h, .inl (not_lt.1 hgt)⟩
    rcases offenders.getLast? with _ | last
    · rfl
    · dsimp only
      unfold Pool.lower
      rw [if_neg hgt]
      rfl

theorem limitPending_spec (heap : HeapFns) (cfg : Config) (ord : AccountOrder)
    (hok : ∀ a l, pool.pending.get a = some l → l.txs.Ok) :
    ∃ n pool', pool.limitPending heap cfg ord = some pool' ∧ Limited cfg n pool pool' := by
  have hkeys := ord.perm pool.pending
  have hstart := Punished.start heap cfg pool (ord.keys pool.pending)
  rw [limitPending]
  split_ifs with hcount
  · have hnodup := hkeys.nodup_iff.2 pool.pending.nodup_keys
    obtain ⟨n, q, offenders, pool', hpunish, h, hq⟩ :=
      punish_spec heap hok hnodup hstart le_rfl
    obtain ⟨k, pool'', hreduce, h', hlimit⟩ := h.reduce heap
      (List.nodup_append.1 (h.addr_perm.nodup_iff.2 (hnodup.filter _))).1 hq
    refine ⟨k, pool'', ?_, h'.limited hok hkeys hlimit⟩
    dsimp only
    rw [hpunish, Option.bind_eq_bind, Option.bind_some]
    dsimp only
    rw [hreduce]
    rfl
  · exact ⟨_, pool, rfl, hstart.limited hok hkeys (.inl (not_lt.1 hcount))⟩

/-- **The pending limit is fair**: there are few enough transactions, or only local accounts have
    more than their slots; local and small accounts lose nothing, nobody is cut below the slots,
    the transactions with the highest nonces go, and all accounts that lose any end at one
    number. -/
theorem pending_limit (heap : HeapFns) (cfg : Config) (ord : AccountOrder) (pool : Pool)
    (hlists : ∀ a l, pool.pending.get a = some l → l.Reached heap) :
    ∃ pool', pool.limitPending heap cfg ord = some pool' ∧
      (pool'.count ≤ cfg.globalSlots ∨
        ∀ a ∉ pool.locals, (pool'.txs a).length ≤ cfg.accountSlots) ∧
      (∀ a, a ∈ pool.locals ∨ (pool.txs a).length ≤ cfg.accountSlots →
        pool'.txs a = pool.txs a) ∧
      (∀ a, min (pool.txs a).length cfg.accountSlots ≤ (pool'.txs a).length) ∧
      (∀ a, pool'.txs a = (pool.txs a).take (pool'.txs a).length) ∧
      (∀ a b, (pool'.txs a).length < (pool.txs a).length →
        (pool'.txs b).length < (pool.txs b).length →
        (pool.txs a).length ≤ (pool.txs b).length → (pool'.txs a).length ≤ (pool'.txs b).length) ∧
      ∃ n, ∀ a ∉ pool.locals, cfg.accountSlots < (pool.txs a).length →
        (pool'.txs a).length = min (pool.txs a).length n := by
  obtain ⟨n, pool', heq, h⟩ := limitPending_spec heap cfg ord
    fun a l hget => (hlists a l hget).bounded.ok
  have hspams (a : Address) (hlt : (pool'.txs a).length < (pool.txs a).length) :
      (pool'.txs a).length = n := by
    by_cases ha : pool.Spams cfg a
    · rw [h.spams a ha, List.length_take] at hlt ⊢
      omega
    · rw [h.other a ha] at hlt
      exact absurd hlt (lt_irrefl _)
  refine ⟨pool', heq, h.limit, fun a ha => h.other a ?_, fun a => ?_, fun a => ?_, ?_, n,
    fun a hlocal hlt => ?_⟩
  · rintro ⟨hlocal, hlt⟩
    rw [length_txs] at ha
    exact ha.elim hlocal (not_le.2 hlt)
  · by_cases ha : pool.Spams cfg a
    · rw [h.spams a ha, List.length_take]
      have := h.slots
      omega
    · rw [h.other a ha]
      exact min_le_left _ _
  · by_cases ha : pool.Spams cfg a
    · rw [h.spams a ha, List.length_take, ← List.take_eq_take_min]
    · rw [h.other a ha, List.take_length]
  · intro a b ha hb _
    rw [hspams a ha, hspams b hb]
  · rw [length_txs] at hlt
    rw [h.spams a ⟨hlocal, hlt⟩, List.length_take, min_comm]

/-- An account with two transactions. -/
def twoTxs : TxList :=
  ((({ strict := true } : TxList).add .slices ⟨1, 7, 1, 21000, none, 0, []⟩ 10).2.add .slices
    ⟨2, 8, 1, 21000, none, 0, []⟩ 10).2

theorem pending_limit_two : ∃ pool', limitPending .slices ⟨1, 1⟩ ⟨AssocMap.keys, fun _ => .refl _⟩
    { pending := AssocMap.empty.set 5 twoTxs } = some pool' ∧ (pool'.txs 5).length ≤ 1 := by
  obtain ⟨pool', heq, hlimit, -⟩ := pending_limit .slices ⟨1, 1⟩ ⟨AssocMap.keys, fun _ => .refl _⟩
    { pending := AssocMap.empty.set 5 twoTxs } (by
      intro a l hget
      rw [AssocMap.get_set, AssocMap.get_empty] at hget
      split_ifs at hget
      cases hget
      exact .add _ _ (.add _ _ (.new true)))
  refine ⟨pool', heq, ?_⟩
  rcases hlimit with hcount | hslots
  · exact ((pool'.length_txs 5).trans_le (pool'.len_le_count 5)).trans hcount
  · exact hslots 5 (Finset.notMem_empty 5)

end Pool

end GoEthereum.TxPool
