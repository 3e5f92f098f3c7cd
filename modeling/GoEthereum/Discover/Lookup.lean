/-
  The lookup of nodes (p2p/discover/table.go).

  `lookup` asks the nodes of its result that have not been asked, three at a time, and pushes
  the nodes of the replies that it has not seen into the result.  The result is the closest
  nodes among the first ones and those of the replies (`Inv.result`); a first node that a reply
  has too is in it twice, as it has not been seen, and the local node is never asked.
-/
import GoEthereum.Lib.BigEndian
import GoEthereum.Lib.Closest

namespace GoEthereum.Discover

open BigEndian Closest

/-! ## Model -/

def ID := { bytes : List UInt8 // bytes.length = 32 }
deriving DecidableEq

def alpha : ℕ := 3

def bucketSize : ℕ := 16

/-- `enode.DistCmp`, on bytes. -/
def distCmp : List UInt8 → List UInt8 → List UInt8 → ℤ
  | t :: target, a :: as, b :: bs =>
    let da := a ^^^ t
    let db := b ^^^ t
    if da > db then 1 else if da < db then -1 else distCmp target as bs
  | _, _, _ => 0

/-- `nodesByDistance.push`.  The entries are in order, so that `sort.Search` finds the first one
    that is farther. -/
def push (target : ID) (entries : List ID) (n : ID) (maxElems : ℕ) : List ID :=
  let ix := entries.findIdx fun e => decide (distCmp target.1 e.1 n.1 > 0)
  let entries := if entries.length < maxElems then entries ++ [n] else entries
  if ix = entries.length then entries
  else entries.take ix ++ n :: (entries.drop ix).dropLast

/-- `Table`: the entries of the buckets, which are different and not the local node. -/
structure Table where
  self : ID
  buckets : List (List ID)
  distinct : buckets.flatten.Nodup
  self_not_mem : self ∉ buckets.flatten

def Table.closest (tab : Table) (target : ID) (nresults : ℕ) : List ID :=
  tab.buckets.flatten.foldl (fun close n => push target close n nresults) []

/-- The variables of `lookup`; `pending` are the nodes whose replies have not arrived. -/
structure Lookup where
  result : List ID
  asked : List ID
  seen : List ID
  pending : List ID

/-- The loop that asks nodes. -/
def ask : List ID → Lookup → Lookup
  | [], s => s
  | n :: entries, s =>
    if s.pending.length < alpha then
      if n ∈ s.asked then ask entries s
      else ask entries { s with asked := n :: s.asked, pending := n :: s.pending }
    else s

/-- A node of a reply. -/
def see (target : ID) (s : Lookup) : Option ID → Lookup
  | none => s
  | some n =>
    if n ∈ s.seen then s
    else { s with seen := n :: s.seen, result := push target s.result n bucketSize }

/-- The reply of a node. -/
def receive (target : ID) (s : Lookup) (q : ID) (reply : List (Option ID)) : Lookup :=
  let s := reply.foldl (see target) s
  { s with pending := s.pending.erase q }

/-- The first nodes: `refreshed` is the table after a refresh, which is made if it is empty. -/
def Table.initial (tab refreshed : Table) (target : ID) (refreshIfEmpty : Bool) : List ID :=
  let result := tab.closest target bucketSize
  if result.length > 0 ∨ refreshIfEmpty = false then result
  else refreshed.closest target bucketSize

/-- `lookup` before the first reply. -/
def Table.start (tab refreshed : Table) (target : ID) (refreshIfEmpty : Bool) : Lookup :=
  let result := tab.initial refreshed target refreshIfEmpty
  ask result ⟨result, [tab.self], [], []⟩

/-- Replies arrive, in any order; `lookup` is done when none is pending. -/
inductive Run (target : ID) : Lookup → List (ID × List (Option ID)) → Lookup → Prop
  | nil (s : Lookup) : Run target s [] s
  | cons {s s' : Lookup} {q : ID} {reply : List (Option ID)}
      {events : List (ID × List (Option ID))} :
      q ∈ s.pending →
      Run target (ask (receive target s q reply).result (receive target s q reply)) events s' →
      Run target s ((q, reply) :: events) s'

/-! ## Distances -/

/-- The distance to the target, as a number. -/
def dist (target id : ID) : ℕ := ofBE (List.zipWith (· ^^^ ·) id.1 target.1)

theorem distCmp_pos {target a b : List UInt8} (ha : a.length = target.length)
    (hb : b.length = target.length) : distCmp target a b > 0 ↔
      ofBE (List.zipWith (· ^^^ ·) b target) < ofBE (List.zipWith (· ^^^ ·) a target) := by
  induction target generalizing a b with
  | nil =>
    rw [List.length_nil, List.length_eq_zero_iff] at ha hb
    simp [ha, hb, distCmp]
  | cons t target ih =>
    obtain ⟨x, a, rfl⟩ := List.exists_cons_of_length_eq_add_one ha
    obtain ⟨y, b, rfl⟩ := List.exists_cons_of_length_eq_add_one hb
    simp only [List.length_cons, Nat.add_right_cancel_iff] at ha hb
    have hlt := ofBE_lt (List.zipWith (· ^^^ ·) a target)
    have hlt' := ofBE_lt (List.zipWith (· ^^^ ·) b target)
    simp only [distCmp, List.zipWith_cons_cons, ofBE, gt_iff_lt, List.length_zipWith, ha, hb,
      min_self] at hlt hlt' ⊢
    simp only [UInt8.lt_iff_toNat_lt]
    generalize (x ^^^ t).toNat = dx
    generalize (y ^^^ t).toNat = dy
    split_ifs with h₁ h₂
    · have := Nat.mul_le_mul_right (256 ^ target.length) (Nat.succ_le_of_lt h₁)
      rw [Nat.succ_mul] at this
      simp
      omega
    · have := Nat.mul_le_mul_right (256 ^ target.length) (Nat.succ_le_of_lt h₂)
      rw [Nat.succ_mul] at this
      simp
      omega
    · obtain rfl : dx = dy := by omega
      rw [← gt_iff_lt, ih ha hb]
      omega

theorem zipWith_xor_cancel {a t : List UInt8} (h : a.length = t.length) :
    List.zipWith (· ^^^ ·) (List.zipWith (· ^^^ ·) a t) t = a := by
  induction t generalizing a with
  | nil => simpa using h
  | cons y t ih =>
    obtain ⟨x, a, rfl⟩ := List.exists_cons_of_length_eq_add_one h
    simp only [List.length_cons, Nat.add_right_cancel_iff] at h
    rw [List.zipWith_cons_cons, List.zipWith_cons_cons, ih h, UInt8.xor_assoc, UInt8.xor_self,
      UInt8.xor_zero]

theorem dist_injective (target : ID) : Function.Injective (dist target) := by
  intro a b h
  have hlen : ∀ c : ID, (List.zipWith (· ^^^ ·) c.1 target.1).length = 32 := fun c => by
    rw [List.length_zipWith, c.2, target.2, min_self]
  have hzip : List.zipWith (· ^^^ ·) a.1 target.1 = List.zipWith (· ^^^ ·) b.1 target.1 := by
    rw [← toBE_ofBE (List.zipWith _ a.1 _), ← toBE_ofBE (List.zipWith _ b.1 _), hlen, hlen]
    exact congrArg (toBE 32) h
  refine Subtype.ext ?_
  rw [← zipWith_xor_cancel (a.2.trans target.2.symm), hzip,
    zipWith_xor_cancel (b.2.trans target.2.symm)]

theorem dist_lt (target id : ID) : dist target id < 2 ^ 256 := by
  have h := ofBE_lt (List.zipWith (· ^^^ ·) id.1 target.1)
  rw [List.length_zipWith, id.2, target.2, min_self] at h
  exact h.trans_eq (by norm_num)

/-! ## Pushing -/

/-- **`push` is insertion into a bounded list.** -/
theorem push_eq (target : ID) {entries : List ID} (n : ID) {maxElems : ℕ}
    (h : entries.length ≤ maxElems) : push target entries n maxElems =
      (insertBy (fun a b => decide (dist target a < dist target b)) n entries).take maxElems := by
  have hpred : (fun e : ID => decide (distCmp target.1 e.1 n.1 > 0)) =
      fun e => decide (dist target n < dist target e) := by
    funext e
    exact decide_eq_decide.2 (distCmp_pos (e.2.trans target.2.symm) (n.2.trans target.2.symm))
  rw [insertBy_eq_take_drop, push, hpred]
  have hle : (entries.findIdx fun e => decide (dist target n < dist target e)) ≤
      entries.length := List.findIdx_le_length
  generalize (entries.findIdx fun e => decide (dist target n < dist target e)) = ix at hle ⊢
  by_cases hroom : entries.length < maxElems
  · have hne : ix ≠ (entries ++ [n]).length := by
      rw [List.length_append, List.length_singleton]
      omega
    simp only [if_pos hroom, if_neg hne]
    rw [List.take_append_of_le_length hle, List.drop_append_of_le_length hle,
      List.dropLast_concat]
    refine (List.take_of_length_le ?_).symm
    rw [List.length_append, List.length_cons, List.length_take, List.length_drop]
    omega
  · have hlen : entries.length = maxElems := by omega
    simp only [if_neg hroom]
    split_ifs with hend
    · rw [hend, List.take_length, List.take_append_of_le_length hlen.ge, ← hlen, List.take_length]
    · have hrest : maxElems - ix = (entries.drop ix).length - 1 + 1 := by
        rw [List.length_drop]
        omega
      rw [List.take_append, List.length_take, min_eq_left hle, List.take_take,
        min_eq_right (by omega), hrest, List.take_succ_cons, List.dropLast_eq_take]

theorem push_closest (target : ID) (l : List ID) (n : ID) (k : ℕ) :
    push target (Closest.closest (dist target) k l) n k =
      Closest.closest (dist target) k (n :: l) := by
  rw [push_eq target n (by simp [Closest.closest]),
    take_insertBy_closest (dist_injective target)]

theorem closest_eq (tab : Table) (target : ID) (nresults : ℕ) :
    tab.closest target nresults =
      Closest.closest (dist target) nresults tab.buckets.flatten.reverse := by
  rw [Table.closest, List.foldl_eq_foldr_reverse]
  induction tab.buckets.flatten.reverse with
  | nil => simp [Closest.closest, sortBy]
  | cons n l ih => rw [List.foldr_cons, ih, push_closest]

theorem initial_eq (tab refreshed : Table) (target : ID) (refreshIfEmpty : Bool) :
    ∃ t ∈ [tab, refreshed], tab.initial refreshed target refreshIfEmpty =
      Closest.closest (dist target) bucketSize t.buckets.flatten.reverse := by
  rw [Table.initial]
  simp only [closest_eq]
  split_ifs
  · exact ⟨tab, by simp, rfl⟩
  · exact ⟨refreshed, by simp, rfl⟩

/-! ## Asking and receiving -/

/-- What the loop that asks nodes does. -/
structure Asks (s s' : Lookup) : Prop where
  result : s'.result = s.result
  seen : s'.seen = s.seen
  subset : ∀ x ∈ s.asked, x ∈ s'.asked
  nodup : s.asked.Nodup → s'.asked.Nodup
  count : s'.asked.length + s.pending.length = s.asked.length + s'.pending.length

theorem ask_asks (entries : List ID) (s : Lookup) : Asks s (ask entries s) := by
  induction entries generalizing s with
  | nil => exact ⟨rfl, rfl, fun x => id, id, rfl⟩
  | cons n entries ih =>
    rw [ask]
    split_ifs with hroom hasked
    · exact ih s
    · obtain ⟨h₁, h₂, h₃, h₄, h₅⟩ := ih ⟨s.result, n :: s.asked, s.seen, n :: s.pending⟩
      refine ⟨h₁, h₂, fun x hx => h₃ x (List.mem_cons_of_mem _ hx), fun h => ?_, ?_⟩
      · exact h₄ (List.nodup_cons.2 ⟨hasked, h⟩)
      · simp only [List.length_cons] at h₅
        omega
    · exact ⟨rfl, rfl, fun x => id, id, rfl⟩

theorem mem_asked_ask {entries : List ID} {s : Lookup}
    (h : (ask entries s).pending.length < alpha) : ∀ x ∈ entries, x ∈ (ask entries s).asked := by
  induction entries generalizing s with
  | nil => simp
  | cons n entries ih =>
    rw [ask] at h ⊢
    split_ifs at h ⊢ with hroom hasked
    · exact List.forall_mem_cons.2 ⟨(ask_asks entries s).subset n hasked, ih h⟩
    · exact List.forall_mem_cons.2 ⟨(ask_asks entries _).subset n (List.mem_cons_self ..), ih h⟩
    · exact absurd h hroom

/-- The result and the nodes of replies that have been seen. -/
structure Collected (target : ID) (initial : List ID) (s : Lookup) : Prop where
  result : s.result = Closest.closest (dist target) bucketSize (s.seen ++ initial)
  nodup : s.seen.Nodup

theorem Collected.see {target : ID} {initial : List ID} {s : Lookup}
    (h : Collected target initial s) (n : Option ID) :
    Collected target initial (see target s n) ∧
      (∀ x, x ∈ (see target s n).seen ↔ x ∈ s.seen ∨ n = some x) ∧
      (see target s n).asked = s.asked ∧ (see target s n).pending = s.pending := by
  cases n with
  | none => exact ⟨h, by simp [Discover.see], rfl, rfl⟩
  | some n =>
    rw [Discover.see]
    split_ifs with hn
    · refine ⟨h, fun x => ?_, rfl, rfl⟩
      constructor
      · exact .inl
      · rintro (hx | hx)
        · exact hx
        · cases hx
          exact hn
    · refine ⟨⟨?_, List.nodup_cons.2 ⟨hn, h.nodup⟩⟩, fun x => ?_, rfl, rfl⟩
      · rw [h.result, push_closest, List.cons_append]
      · simp only [List.mem_cons, Option.some.injEq, eq_comm, or_comm]

theorem Collected.foldl {target : ID} {initial : List ID} {s : Lookup}
    (h : Collected target initial s) (reply : List (Option ID)) :
    Collected target initial (reply.foldl (Discover.see target) s) ∧
      (∀ x, x ∈ (reply.foldl (Discover.see target) s).seen ↔ x ∈ s.seen ∨ some x ∈ reply) ∧
      (reply.foldl (Discover.see target) s).asked = s.asked ∧
      (reply.foldl (Discover.see target) s).pending = s.pending := by
  induction reply generalizing s with
  | nil => exact ⟨h, by simp, rfl, rfl⟩
  | cons n reply ih =>
    obtain ⟨hn, hseen, hasked, hpending⟩ := h.see n
    obtain ⟨hr, hseen', hasked', hpending'⟩ := ih hn
    refine ⟨hr, fun x => ?_, hasked'.trans hasked, hpending'.trans hpending⟩
    rw [List.foldl_cons, hseen', hseen, List.mem_cons, or_assoc, eq_comm]

/-! ## Runs -/

/-- The nodes of the replies. -/
def replies (events : List (ID × List (Option ID))) : List ID :=
  events.flatMap fun e => e.2.filterMap id

/-- After the replies `events`. -/
structure Inv (target own : ID) (initial : List ID) (events : List (ID × List (Option ID)))
    (s : Lookup) : Prop extends Collected target initial s where
  seen_iff : ∀ x, x ∈ s.seen ↔ x ∈ replies events
  asked_nodup : s.asked.Nodup
  own_asked : own ∈ s.asked
  count : s.asked.length = events.length + s.pending.length + 1
  idle : s.pending.length < alpha → ∀ x ∈ s.result, x ∈ s.asked

variable {target own : ID} {initial : List ID} {events : List (ID × List (Option ID))}
  {s s' : Lookup}

theorem inv_start (tab refreshed : Table) (target : ID) (refreshIfEmpty : Bool) :
    Inv target tab.self (tab.initial refreshed target refreshIfEmpty) []
      (tab.start refreshed target refreshIfEmpty) := by
  rw [Table.start]
  obtain ⟨h₁, h₂, h₃, h₄, h₅⟩ := ask_asks (tab.initial refreshed target refreshIfEmpty)
    ⟨tab.initial refreshed target refreshIfEmpty, [tab.self], [], []⟩
  refine ⟨⟨?_, ?_⟩, fun x => ?_, h₄ (by simp), h₃ _ (by simp), ?_, fun hidle => ?_⟩
  · rw [h₁, h₂, List.nil_append]
    obtain ⟨t, -, ht⟩ := initial_eq tab refreshed target refreshIfEmpty
    rw [ht, closest_closest (dist_injective target)]
  · rw [h₂]
    exact List.nodup_nil
  · rw [h₂]
    simp [replies]
  · simp only [List.length_nil, List.length_cons] at h₅ ⊢
    omega
  · rw [h₁]
    exact mem_asked_ask hidle

theorem Inv.reply (h : Inv target own initial events s) {q : ID} (hq : q ∈ s.pending)
    (reply : List (Option ID)) :
    Inv target own initial (events ++ [(q, reply)])
      (ask (receive target s q reply).result (receive target s q reply)) := by
  obtain ⟨hcollected, hseen, hasked, hpending⟩ := h.toCollected.foldl reply
  have hlength : (receive target s q reply).pending.length + 1 = s.pending.length := by
    simp only [receive, hpending, List.length_erase_of_mem hq]
    have := List.length_pos_of_mem hq
    omega
  obtain ⟨h₁, h₂, h₃, h₄, h₅⟩ :=
    ask_asks (receive target s q reply).result (receive target s q reply)
  have hasked' : (receive target s q reply).asked = s.asked := hasked
  refine ⟨⟨?_, ?_⟩, fun x => ?_, h₄ (hasked' ▸ h.asked_nodup), h₃ _ (hasked' ▸ h.own_asked), ?_,
    fun hidle => ?_⟩
  · rw [h₁, h₂]
    exact hcollected.result
  · rw [h₂]
    exact hcollected.nodup
  · rw [h₂]
    refine (hseen x).trans ?_
    rw [h.seen_iff]
    simp [replies]
  · have := h.count
    rw [hasked'] at h₅
    rw [List.length_append, List.length_singleton]
    omega
  · rw [h₁]
    exact mem_asked_ask hidle

/-- **What holds after any replies.** -/
theorem Inv.run {events' : List (ID × List (Option ID))} (h : Inv target own initial events s)
    (hrun : Run target s events' s') : Inv target own initial (events ++ events') s' := by
  induction hrun generalizing events with
  | nil s => rwa [List.append_nil]
  | cons hq _ ih =>
    rw [List.append_cons]
    exact ih (h.reply hq _)

theorem length_le_of_nodup (target : ID) {l : List ID} (h : l.Nodup) : l.length ≤ 2 ^ 256 := by
  rw [← List.length_map (dist target), ← List.toFinset_card_of_nodup
    (h.map (dist_injective target)), ← Finset.card_range (2 ^ 256)]
  refine Finset.card_le_card fun d hd => ?_
  obtain ⟨x, -, rfl⟩ := List.mem_map.1 (List.mem_toFinset.1 hd)
  exact Finset.mem_range.2 (dist_lt target x)

/-- **The lookup.**  After any replies: fewer than `2 ^ 256` have arrived, no node has been asked
    twice, and the result is in order.  When no reply is pending, the result has different nodes,
    the closest ones among the first nodes and those of the replies, and all of them have been
    asked, if and only if a first node that a reply has too is not among the `15` closest ones, and
    the local node is not among the `16` closest ones if a reply has it. -/
theorem lookup_closest (tab refreshed : Table) (hself : refreshed.self = tab.self) (target : ID)
    (refreshIfEmpty : Bool) {events : List (ID × List (Option ID))} {s : Lookup}
    (hrun : Run target (tab.start refreshed target refreshIfEmpty) events s) :
    events.length < 2 ^ 256 ∧ s.asked.Nodup ∧
    (s.result.Pairwise fun x y => dist target x ≤ dist target y) ∧
    (s.pending = [] →
      let initial := tab.initial refreshed target refreshIfEmpty
      let nodes := replies events ++ initial
      ((s.result.Nodup ∧
        (∀ x, x ∈ s.result ↔ x ∈ nodes ∧ rank (dist target) nodes x < bucketSize) ∧
        ∀ x ∈ s.result, x ∈ s.asked ∧ x ≠ tab.self) ↔
      (∀ x ∈ replies events, x ∈ initial → bucketSize ≤ rank (dist target) nodes x + 1) ∧
        (tab.self ∈ replies events → bucketSize ≤ rank (dist target) nodes tab.self))) := by
  have h := (inv_start tab refreshed target refreshIfEmpty).run hrun
  rw [List.nil_append] at h
  obtain ⟨t, ht, hinitial⟩ := initial_eq tab refreshed target refreshIfEmpty
  have hflat : t.buckets.flatten.Nodup ∧ tab.self ∉ t.buckets.flatten := by
    simp only [List.mem_cons, List.not_mem_nil, or_false] at ht
    rcases ht with rfl | rfl
    · exact ⟨t.distinct, t.self_not_mem⟩
    · exact ⟨t.distinct, hself ▸ t.self_not_mem⟩
  refine ⟨?_, h.asked_nodup, ?_, fun hdone => ?_⟩
  · have := length_le_of_nodup target h.asked_nodup
    have := h.count
    omega
  · rw [h.result]
    exact (pairwise_sortBy _ _).sublist (List.take_sublist _ _)
  · generalize tab.initial refreshed target refreshIfEmpty = initial at h hinitial ⊢
    have hmem : ∀ x, x ∈ s.seen ++ initial ↔ x ∈ replies events ++ initial := by
      simp [h.seen_iff]
    have hsorted : (sortBy (dist target) t.buckets.flatten.reverse).Perm t.buckets.flatten :=
      (perm_sortBy _ _).trans (List.reverse_perm _)
    have hnodup : initial.Nodup := by
      rw [hinitial]
      exact (hsorted.nodup_iff.2 hflat.1).sublist (List.take_sublist _ _)
    have hnot : tab.self ∉ initial := by
      rw [hinitial]
      exact fun hin => hflat.2 (hsorted.mem_iff.1 (List.mem_of_mem_take hin))
    have hasked : (∀ x ∈ s.result, x ∈ s.asked ∧ x ≠ tab.self) ↔ tab.self ∉ s.result := by
      constructor
      · exact fun hall hin => (hall _ hin).2 rfl
      · rintro hnot x hx
        exact ⟨h.idle (by rw [hdone]; decide) x hx, fun heq => hnot (heq ▸ hx)⟩
    have hexact := exact_iff (dist_injective target) h.nodup hnodup hnot bucketSize
    simp only [← h.result, hmem, rank_congr hmem, h.seen_iff] at hexact
    simp only [hasked]
    exact hexact

/-- The node whose last byte is `b`. -/
def node (b : UInt8) : ID := ⟨List.replicate 31 0 ++ [b], by simp⟩

/-- A table with one node. -/
def single : Table := ⟨node 0, [[node 1]], by decide, by decide⟩

/-- The node replies with another one, which does not answer. -/
theorem lookup_closest_two :
    ∃ s, Run (node 0) (single.start single (node 0) false)
      [(node 1, [some (node 2)]), (node 2, [])] s ∧ s.result.Nodup := by
  refine ⟨_, .cons (by decide) (.cons (by decide) (.nil _)), ?_⟩
  refine (((lookup_closest single single rfl (node 0) false
    (.cons (by decide) (.cons (by decide) (.nil _)))).2.2.2 (by decide)).2 ?_).1
  decide

/-- The node replies with itself and is in the result twice. -/
theorem lookup_twice :
    ∃ s, Run (node 0) (single.start single (node 0) false) [(node 1, [some (node 1)])] s ∧
      s.pending = [] ∧ s.result = [node 1, node 1] :=
  ⟨_, .cons (by decide) (.nil _), by decide, by decide⟩

end GoEthereum.Discover
