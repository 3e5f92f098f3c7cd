/-
  The counters of the fetcher (`announces_exact`).

  Forgetting a hash takes as much from the counter of a peer as from what is held of it
  (`balance_forgetHash`), and a notification adds the same to both.  A fetch holds an
  announcement whose counter was decremented before, so a peer that was asked for a header
  holds more than is counted, and goes on to do so.  The counters of the queue are exact.
-/
import GoEthereum.Fetcher.Fetcher

namespace GoEthereum.Eth

open GoEthereum.Core

/-! ## What is held -/

namespace Fetcher

/-- The number of announcements of a peer in the four stages. -/
def held (f : Fetcher) (p : String) : ℕ :=
  f.announced.total (fun b => (b.toList.map (·.origin)).count p) +
    f.fetching.total (fun a => [a.origin].count p) +
    f.fetched.total (fun b => (b.toList.map (·.announce.origin)).count p) +
    f.completing.total (fun d => [d.announce.origin].count p)

/-- The number of queued blocks of a peer. -/
def queuedBy (f : Fetcher) (p : String) : ℕ := f.queued.total fun op => [op.origin].count p

/-- The peers that were asked for a header. -/
def asked (f : Fetcher) : List String := f.headerRequests.map Prod.fst

/-- What is held of a peer and not counted. -/
def balance (f : Fetcher) (p : String) : ℤ := f.held p - counter f.announces p

end Fetcher

variable {f f' : Fetcher} {p o : String}

theorem counter_set (m : AssocMap String ℤ) (o p : String) (n : ℤ) :
    counter (m.set o n) p = if p = o then n else counter m p := by
  rw [counter, AssocMap.get_set]
  split
  · rfl
  · rfl

theorem counter_decrement (m : AssocMap String ℤ) (o p : String) :
    counter (decrement m o) p = counter m p - [o].count p := by
  have hset := counter_set m o p (counter m o - 1)
  have hcount : ([o].count p : ℤ) = if p = o then 1 else 0 := by
    by_cases h : p = o
    · simp [h]
    · simp [h, Ne.symm h]
  simp only [decrement]
  split
  · rename_i hzero
    rw [counter, AssocMap.get_erase]
    by_cases h : p = o
    · rw [counter_set, if_pos rfl] at hzero
      subst h
      simpa using hzero.symm
    · rw [if_neg h, ← counter, hset, hcount, if_neg h, if_neg h, sub_zero]
  · rw [hset, hcount]
    split
    · rename_i h
      rw [h]
    · rw [sub_zero]

theorem counter_foldl_decrement (l : List String) (m : AssocMap String ℤ) (p : String) :
    counter (l.foldl decrement m) p = counter m p - l.count p := by
  induction l generalizing m with
  | nil => simp
  | cons o l ih =>
    have hcount : (o :: l).count p = [o].count p + l.count p := by
      rw [← List.count_append, List.singleton_append]
    rw [List.foldl_cons, ih, counter_decrement, hcount]
    push_cast
    ring

theorem held_forgetHash (f : Fetcher) (hash : Word) (p : String) :
    f.held p = (f.announcers hash).count p + (f.forgetHash hash).held p := by
  have hcount {α : Type} (m : AssocMap Word α) (g : α → List String) :
      m.total (fun a => (g a).count p) =
        ((m.get hash).elim [] g).count p + (m.erase hash).total fun a => (g a).count p := by
    rw [AssocMap.total_eq_add_erase _ m hash]
    cases m.get hash with
    | none => rfl
    | some a => rfl
  simp only [Fetcher.held, Fetcher.announcers, Fetcher.forgetHash, List.count_append]
  rw [hcount f.announced, hcount f.fetching, hcount f.fetched, hcount f.completing]
  omega

/-- **Forgetting a hash takes what is held from the counters.** -/
theorem balance_forgetHash (f : Fetcher) (hash : Word) (p : String) :
    (f.forgetHash hash).balance p = f.balance p := by
  have hcounter : counter (f.forgetHash hash).announces p =
      counter f.announces p - (f.announcers hash).count p := counter_foldl_decrement _ _ _
  rw [Fetcher.balance, Fetcher.balance, hcounter, held_forgetHash f hash p]
  push_cast
  ring

theorem total_appendTo {α : Type} (m : AssocMap Word (Batch α)) (hash : Word) (a : α)
    (g : α → String) (p : String) :
    ((appendTo m hash a).total fun b => (b.toList.map g).count p) =
      (m.total fun b => (b.toList.map g).count p) + [g a].count p := by
  rw [appendTo, AssocMap.total_set, AssocMap.total_eq_add_erase _ m hash]
  cases m.get hash with
  | none => simp [Batch.toList]; omega
  | some b => simp [Batch.toList, Batch.append, List.count_cons]; omega

theorem total_set_of_none {m : AssocMap Word α} {hash : Word} (h : m.get hash = none) (a : α)
    (w : α → ℕ) : (m.set hash a).total w = m.total w + w a := by
  rw [AssocMap.total_set, AssocMap.total_erase_of_none w h, Nat.add_comm]

theorem mem_pick {α : Type} (b : Batch α) (rand : ℕ) : b.pick rand ∈ b.toList := List.get_mem ..

/-! ## Invariant -/

/-- What is known of the announcements. -/
structure Announced (f : Fetcher) : Prop where
  unasked : ∀ p ∉ f.asked, f.balance p = 0
  asked : ∀ p ∈ f.asked, 0 < f.balance p
  limit : ∀ p, counter f.announces p ≤ hashLimit
  fetching : ∀ hash a, f.fetching.get hash = some a → a.origin ∈ f.asked
  fetched : ∀ hash b, f.fetched.get hash = some b → ∀ d ∈ b.toList, d.announce.origin ∈ f.asked
  completing : ∀ hash d, f.completing.get hash = some d → d.announce.origin ∈ f.asked

/-- What is known of the queue. -/
structure Queued (f : Fetcher) : Prop where
  exact : ∀ p, counter f.queues p = f.queuedBy p
  limit : ∀ p, counter f.queues p ≤ blockLimit

theorem Announced.forgetHash (h : Announced f) (hash : Word) : Announced (f.forgetHash hash) where
  unasked p hp := (balance_forgetHash f hash p).trans (h.unasked p hp)
  asked p hp := by
    rw [balance_forgetHash]
    exact h.asked p hp
  limit p := by
    have hcounter : counter (f.forgetHash hash).announces p =
        counter f.announces p - (f.announcers hash).count p := counter_foldl_decrement _ _ _
    have := h.limit p
    omega
  fetching hash' a ha := h.fetching hash' a (AssocMap.get_erase_some ha).2
  fetched hash' b hb := h.fetched hash' b (AssocMap.get_erase_some hb).2
  completing hash' d hd := h.completing hash' d (AssocMap.get_erase_some hd).2

theorem Announced.notify (h : Announced f) (a : Announce) (height : UInt64) :
    Announced (f.notify a height) := by
  simp only [Fetcher.notify]
  split
  · exact h
  rename_i hlimit
  split
  · exact h
  split
  · exact h
  have hbalance : ∀ p, Fetcher.balance { f with
      announces := f.announces.set a.origin (counter f.announces a.origin + 1)
      announced := appendTo f.announced a.hash a } p = f.balance p := fun p => by
    simp only [Fetcher.balance, Fetcher.held, counter_set, total_appendTo]
    by_cases hp : p = a.origin
    · simp [hp]
      ring
    · simp [hp, Ne.symm hp]
  refine { h with
    unasked := fun p hp => (hbalance p).trans (h.unasked p hp)
    asked := fun p hp => (h.asked p hp).trans_eq (hbalance p).symm
    limit := fun p => ?_ }
  rw [counter_set]
  split
  · exact not_lt.1 hlimit
  · exact h.limit p

/-- An announcement of a peer that was asked enters a stage and is not counted. -/
theorem Announced.enter (h : Announced f) (hannounces : f'.announces = f.announces)
    (hheld : ∀ p, f'.held p = f.held p + [o].count p)
    (hasked : ∀ p, p ∈ f'.asked ↔ p ∈ f.asked ∨ p = o)
    (hfetching : ∀ hash a, f'.fetching.get hash = some a → a.origin ∈ f'.asked)
    (hfetched : ∀ hash b, f'.fetched.get hash = some b →
      ∀ d ∈ b.toList, d.announce.origin ∈ f'.asked)
    (hcompleting : ∀ hash d, f'.completing.get hash = some d → d.announce.origin ∈ f'.asked) :
    Announced f' := by
  have hbalance : ∀ p, f'.balance p = f.balance p + [o].count p := fun p => by
    rw [Fetcher.balance, Fetcher.balance, hheld, hannounces]
    push_cast
    ring
  refine ⟨fun p hp => ?_, fun p hp => ?_, fun p => hannounces ▸ h.limit p, hfetching, hfetched,
    hcompleting⟩
  · rw [hasked, not_or] at hp
    rw [hbalance, h.unasked p hp.1, List.count_singleton, if_neg (by simpa using Ne.symm hp.2)]
    rfl
  · have hnonneg : 0 ≤ f.balance p := by
      by_cases hp' : p ∈ f.asked
      · exact (h.asked p hp').le
      · exact (h.unasked p hp').ge
    rw [hbalance]
    rcases (hasked p).1 hp with hp | rfl
    · have := h.asked p hp
      omega
    · rw [List.count_singleton_self]
      omega

theorem asked_append (f : Fetcher) (a : Announce) (hash : Word) (p : String) :
    p ∈ Fetcher.asked { f with headerRequests := f.headerRequests ++ [(a.origin, hash)] } ↔
      p ∈ f.asked ∨ p = a.origin := by
  simp only [Fetcher.asked, List.map_append, List.mem_append, List.map_cons, List.map_nil,
    List.mem_singleton]

theorem Announced.fetchHash (h : Announced f) (now : Word → ℤ) (rand : Word → ℕ)
    (known : Word → Bool) (hash : Word) : Announced (f.fetchHash now rand known hash) := by
  rw [Fetcher.fetchHash]
  split
  · rename_i announces _
    simp only []
    split
    · have h' := h.forgetHash hash
      split
      · exact h'
      · have hnone : (f.forgetHash hash).fetching.get hash = none := by
          rw [Fetcher.forgetHash, AssocMap.get_erase, if_pos rfl]
        have hasked := asked_append (f.forgetHash hash) (announces.pick (rand hash)) hash
        refine h'.enter rfl (fun p => ?_) hasked (fun hash' a ha => ?_)
          (fun hash' b hb d hd => (hasked _).2 (.inl (h'.fetched hash' b hb d hd)))
          fun hash' d hd => (hasked _).2 (.inl (h'.completing hash' d hd))
        · simp only [Fetcher.held, total_set_of_none hnone]
          omega
        · rcases AssocMap.get_set_some ha with ⟨-, rfl⟩ | ⟨-, ha⟩
          · exact (hasked _).2 (.inr rfl)
          · exact (hasked _).2 (.inl (h'.fetching hash' a ha))
    · exact h
  · exact h

theorem Announced.complete (h : Announced f) {hash : Word} {d : Delivered}
    (hnone : f.completing.get hash = none) (horigin : d.announce.origin ∈ f.asked) :
    Announced { f with completing := f.completing.set hash d } := by
  refine h.enter (o := d.announce.origin) rfl (fun p => ?_)
    (fun p => ⟨.inl, fun hp => hp.elim id (· ▸ horigin)⟩) h.fetching h.fetched fun hash' d' hd => ?_
  · simp only [Fetcher.held, total_set_of_none hnone]
    omega
  · rcases AssocMap.get_set_some hd with ⟨-, rfl⟩ | ⟨-, hd⟩
    · exact horigin
    · exact h.completing hash' d' hd

theorem Announced.completeHash (h : Announced f) (rand : Word → ℕ) (known : Word → Bool)
    (hash : Word) : Announced (f.completeHash rand known hash) := by
  rw [Fetcher.completeHash]
  split
  · rename_i announces hget
    simp only []
    have h' := h.forgetHash hash
    split
    · exact h'
    · have hnone : (f.forgetHash hash).completing.get hash = none := by
        rw [Fetcher.forgetHash, AssocMap.get_erase, if_pos rfl]
      have horigin := h.fetched hash _ hget _ (mem_pick announces (rand hash))
      exact { h'.complete hnone horigin with }
  · exact h

theorem Announced.scheduleBody (h : Announced f) {d : Delivered}
    (horigin : d.announce.origin ∈ f.asked) : Announced (f.scheduleBody d) := by
  rw [Fetcher.scheduleBody]
  split
  · exact h
  · refine h.enter (o := d.announce.origin) rfl (fun p => ?_)
      (fun p => ⟨.inl, fun hp => hp.elim id (· ▸ horigin)⟩) h.fetching (fun hash b hb => ?_)
      h.completing
    · simp only [Fetcher.held, total_appendTo]
      omega
    · rcases AssocMap.get_set_some hb with ⟨-, rfl⟩ | ⟨-, hb⟩
      · cases hget : f.fetched.get d.header.hash with
        | none =>
          rintro d' hd
          cases List.mem_singleton.1 hd
          exact horigin
        | some b =>
          rintro d' hd
          rcases List.mem_append.1 (show d' ∈ b.toList ++ [d] from hd) with hd | hd
          · exact h.fetched _ b hget d' hd
          · cases List.mem_singleton.1 hd
            exact horigin
      · exact h.fetched hash b hb

/-! ## Queue -/

theorem Queued.of_same (h : Queued f) (hs : Fetcher.SameQueue f f') : Queued f' := by
  obtain ⟨-, hqueues, hqueued⟩ := hs
  refine ⟨fun p => ?_, fun p => ?_⟩
  · rw [hqueues, Fetcher.queuedBy, hqueued]
    exact h.exact p
  · rw [hqueues]
    exact h.limit p

theorem Queued.forgetHash (h : Queued f) (hash : Word) : Queued (f.forgetHash hash) := ⟨h.1, h.2⟩

theorem Queued.forgetBlock (h : Queued f) (hash : Word) : Queued (f.forgetBlock hash) := by
  rw [Fetcher.forgetBlock]
  split
  · rename_i op hget
    constructor
    · intro p
      have htotal := AssocMap.total_erase (fun op : Inject => [op.origin].count p) hget
      have hexact := h.exact p
      rw [Fetcher.queuedBy] at hexact
      rw [counter_decrement, hexact, Fetcher.queuedBy, htotal]
      push_cast
      ring
    · intro p
      rw [counter_decrement]
      have := h.limit p
      omega
  · exact h

theorem Queued.enqueue (h : Queued f) (q : QueueFns Item Item.less) (peer : String) (block : Block)
    (height : UInt64) : Queued (f.enqueue q peer block height) := by
  simp only [Fetcher.enqueue]
  split
  · exact h.forgetHash _
  rename_i hlimit
  split
  · exact h.forgetHash _
  split
  · exact h
  rename_i hnone
  rw [Option.not_isSome_iff_eq_none] at hnone
  constructor
  · intro p
    simp only [Fetcher.queuedBy, counter_set, total_set_of_none hnone]
    have hexact := h.exact p
    rw [Fetcher.queuedBy] at hexact
    by_cases hp : p = peer
    · subst hp
      simp [hexact]
    · simp [hp, Ne.symm hp, hexact]
  · intro p
    rw [counter_set]
    split
    · exact not_lt.1 hlimit
    · exact h.limit p

/-! ## Phases -/

/-- The invariant of the counters. -/
structure Accounts (f : Fetcher) : Prop where
  announced : Announced f
  queued : Queued f

theorem Accounts.forgetHash (h : Accounts f) (hash : Word) : Accounts (f.forgetHash hash) :=
  ⟨h.announced.forgetHash hash, h.queued.forgetHash hash⟩

theorem Accounts.forgetBlock (h : Accounts f) (hash : Word) : Accounts (f.forgetBlock hash) := by
  refine ⟨?_, h.queued.forgetBlock hash⟩
  rw [Fetcher.forgetBlock]
  split
  · exact { h.announced with }
  · exact h.announced

theorem Accounts.enqueue (h : Accounts f) (q : QueueFns Item Item.less) (peer : String)
    (block : Block) (height : UInt64) : Accounts (f.enqueue q peer block height) := by
  refine ⟨?_, h.queued.enqueue q peer block height⟩
  simp only [Fetcher.enqueue]
  split
  · exact h.announced.forgetHash _
  split
  · exact h.announced.forgetHash _
  split
  · exact h.announced
  · exact { h.announced with }

theorem Accounts.foldl {α : Type} {step : Fetcher → α → Fetcher}
    (hstep : ∀ f a, Accounts f → Accounts (step f a)) (l : List α) (h : Accounts f) :
    Accounts (l.foldl step f) := by
  induction l generalizing f with
  | nil => exact h
  | cons a l ih => exact ih (hstep f a h)

theorem Accounts.expire (h : Accounts f) (order : RangeOrder) (now : Word → ℤ) :
    Accounts (f.expire order now) := by
  refine Accounts.foldl (fun f hash h => ?_) _ h
  split
  · split
    · exact h.forgetHash hash
    · exact h
  · exact h

theorem Accounts.importLoop (q : QueueFns Item Item.less) (height : UInt64) (known : Word → Bool)
    (fuel : ℕ) (h : Accounts f) : Accounts (f.importLoop q height known fuel) := by
  induction fuel generalizing f with
  | zero => exact h
  | succ fuel ih =>
    rw [Fetcher.importLoop]
    split
    · exact h
    · rename_i x rest _
      have h' : Accounts { f with queue := rest } := ⟨{ h.announced with }, { h.queued with }⟩
      simp only []
      split
      · exact ⟨{ h.announced with }, { h.queued with }⟩
      split
      · exact ih (h'.forgetBlock _)
      · exact ih ⟨{ h.announced with }, { h.queued with }⟩

/-- The invariant, and the headers that wait for a body come from peers that were asked. -/
structure SortedOk (s : Fetcher.Sorted) : Prop where
  accounts : Accounts s.fetcher
  incomplete : ∀ d ∈ s.incomplete, d.announce.origin ∈ s.fetcher.asked

theorem SortedOk.sortHeader {s : Fetcher.Sorted} (h : SortedOk s) (derive : Derive) (peer : String)
    (time : ℤ) (x : Header × Bool) : SortedOk (Fetcher.sortHeader derive peer time s x) := by
  obtain ⟨h, hincomplete⟩ := h
  simp only [Fetcher.sortHeader]
  split
  · exact ⟨h, hincomplete⟩
  rename_i announce hget
  have horigin := h.announced.fetching _ _ hget
  split
  · rename_i hguard
    split
    · exact ⟨h.forgetHash _, hincomplete⟩
    split
    · exact ⟨h.forgetHash _, hincomplete⟩
    -- only the time of the announcement changes
    have hfetching : Announced { s.fetcher with
        fetching := s.fetcher.fetching.set x.1.hash { announce with time } } := by
      have hheld : ∀ p, Fetcher.held { s.fetcher with
          fetching := s.fetcher.fetching.set x.1.hash { announce with time } } p =
            s.fetcher.held p := fun p => by
        simp only [Fetcher.held, AssocMap.total_set,
          AssocMap.total_erase (fun a : Announce => [a.origin].count p) hget]
      refine { h.announced with
        unasked := fun p hp => ?_, asked := fun p hp => ?_, fetching := fun hash a ha => ?_ }
      · rw [Fetcher.balance, hheld]
        exact h.announced.unasked p hp
      · rw [Fetcher.balance, hheld]
        exact h.announced.asked p hp
      · rcases AssocMap.get_set_some ha with ⟨-, rfl⟩ | ⟨-, ha⟩
        · exact horigin
        · exact h.announced.fetching hash a ha
    split
    · have hnone := Option.isNone_iff_eq_none.1 hguard.2.2.1
      exact ⟨⟨hfetching.complete hnone horigin, { h.queued with }⟩, hincomplete⟩
    · refine ⟨⟨hfetching, { h.queued with }⟩, fun d hd => ?_⟩
      rcases List.mem_append.1 hd with hd | hd
      · exact hincomplete d hd
      · cases List.mem_singleton.1 hd
        exact horigin
  · exact ⟨h, hincomplete⟩

theorem Accounts.enqueueComplete (h : Accounts f) (q : QueueFns Item Item.less)
    (x : Block × UInt64) : Accounts (f.enqueueComplete q x) := by
  rw [Fetcher.enqueueComplete]
  split
  · exact h.enqueue q _ _ _
  · exact h

theorem Accounts.filterHeaders (h : Accounts f) (q : QueueFns Item Item.less) (derive : Derive)
    (peer : String) (headers : List (Header × Bool)) (time : ℤ) (height : ℕ → UInt64) :
    Accounts (f.filterHeaders q derive peer headers time height).1 := by
  have hsorted : ∀ (l : List (Header × Bool)) s, SortedOk s →
      SortedOk (l.foldl (Fetcher.sortHeader derive peer time) s) := by
    intro l
    induction l with
    | nil => exact fun _ hs => hs
    | cons x l ih => exact fun s hs => ih _ (hs.sortHeader derive peer time x)
  obtain ⟨hs, hincomplete⟩ := hsorted headers { fetcher := f } ⟨h, by simp⟩
  refine Accounts.foldl (fun f x hf => hf.enqueueComplete q x) _ ?_
  revert hs hincomplete
  generalize (headers.foldl (Fetcher.sortHeader derive peer time) { fetcher := f }).incomplete = l
  generalize (headers.foldl (Fetcher.sortHeader derive peer time) { fetcher := f }).fetcher = f
  intro hs hincomplete
  induction l generalizing f with
  | nil => exact hs
  | cons d l ih =>
    have hasked : (f.scheduleBody d).asked = f.asked := by
      rw [Fetcher.scheduleBody]
      split <;> rfl
    refine ih _ ⟨hs.announced.scheduleBody (hincomplete d (by simp)),
      hs.queued.of_same (.scheduleBody d)⟩ fun d' hd => ?_
    rw [hasked]
    exact hincomplete d' (List.mem_cons_of_mem _ hd)

theorem Accounts.matchHash (derive : Derive) (peer : String) (body : Body) (known : Word → Bool)
    (l : List Word) (s : Fetcher × List Block × Bool) (h : Accounts s.1) :
    Accounts (l.foldl (Fetcher.matchHash derive peer body known) s).1 := by
  induction l generalizing s with
  | nil => exact h
  | cons hash l ih =>
    refine ih _ ?_
    simp only [Fetcher.matchHash]
    split
    · exact h
    split
    · split
      · exact h.forgetHash hash
      · exact h
    · exact h

theorem Accounts.filterBodies (h : Accounts f) (q : QueueFns Item Item.less) (derive : Derive)
    (order : RangeOrder) (peer : String) (transactions : List (List Transaction))
    (uncles : List (List Header)) (known : ℕ → Word → Bool) (height : ℕ → UInt64) :
    Accounts (f.filterBodies q derive order peer transactions uncles known height).1 := by
  refine Accounts.foldl (fun f x hf => hf.enqueueComplete q x) _ ?_
  have hmatched : ∀ (l : List (Body × (Word → Bool))) (s : Fetcher.Matched), Accounts s.fetcher →
      Accounts (l.foldl (Fetcher.matchBody derive order peer) s).fetcher := by
    intro l
    induction l with
    | nil => exact fun _ hs => hs
    | cons x l ih =>
      intro s hs
      exact ih _ (Accounts.matchHash derive peer x.1 x.2 _ (s.fetcher, s.blocks, false) hs)
  exact hmatched _ _ h

theorem Accounts.select (h : Accounts f) (q : QueueFns Item Item.less) (derive : Derive)
    (ev : Event) : Accounts (f.select q derive ev) := by
  cases ev with
  | notify a height =>
    exact ⟨h.announced.notify a height, h.queued.of_same (.notify a height)⟩
  | inject op height => exact h.enqueue q _ _ _
  | done hash =>
    have h' := (h.forgetHash hash).forgetBlock hash
    exact ⟨{ h'.announced with }, { h'.queued with }⟩
  | fetchTimer order now rand known =>
    exact Accounts.foldl (fun f hash hf => ⟨hf.announced.fetchHash now rand known hash,
      hf.queued.of_same (.fetchHash now rand known hash)⟩) _ h
  | completeTimer order rand known =>
    exact Accounts.foldl (fun f hash hf => ⟨hf.announced.completeHash rand known hash,
      hf.queued.of_same (.completeHash rand known hash)⟩) _ h
  | headerFilter peer headers time height => exact h.filterHeaders q derive peer headers time height
  | bodyFilter order peer transactions uncles known height =>
    exact h.filterBodies q derive order peer transactions uncles known height

theorem Accounts.new : Accounts {} where
  announced :=
    { unasked := fun _ _ => rfl
      asked := fun _ hp => by cases hp
      limit := fun _ => (by decide : (0 : ℤ) ≤ 256)
      fetching := fun _ _ h => by cases h
      fetched := fun _ _ h => by cases h
      completing := fun _ _ h => by cases h }
  queued := ⟨fun _ => rfl, fun _ => (by decide : (0 : ℤ) ≤ 64)⟩

theorem Reached.accounts {q : QueueFns Item Item.less} {derive : Derive} {H : Set UInt64}
    {phase : Phase} (h : Reached q derive H phase f) : Accounts f := by
  induction h with
  | new => exact Accounts.new
  | expire order now _ ih => exact ih.expire order now
  | imports height known _ _ ih => exact ih.importLoop q height known _
  | select ev _ _ _ ih => exact ih.select q derive ev

/-! ## Quotas -/

/-- The counters of a peer are exact and within their limits. -/
structure Fetcher.Exact (f : Fetcher) (p : String) : Prop where
  announces : counter f.announces p = f.held p
  nonneg : 0 ≤ counter f.announces p
  announcesLimit : counter f.announces p ≤ hashLimit
  queues : counter f.queues p = f.queuedBy p
  queuesLimit : counter f.queues p ≤ blockLimit

/-- **The counters of a peer are exact as long as it was not asked for a header**, and no longer.
    Those of the queue are always exact, and the limits hold. -/
theorem announces_exact {q : QueueFns Item Item.less} {derive : Derive} {H : Set UInt64}
    {phase : Phase} (h : Reached q derive H phase f) (p : String) :
    (f.Exact p ↔ p ∉ f.asked) ∧ counter f.announces p ≤ hashLimit ∧
      counter f.queues p = f.queuedBy p ∧ counter f.queues p ≤ blockLimit := by
  obtain ⟨hannounced, hqueued⟩ := h.accounts
  refine ⟨⟨fun hexact hp => ?_, fun hp => ?_⟩, hannounced.limit p, hqueued.exact p, hqueued.limit p⟩
  · have hpos := hannounced.asked p hp
    rw [Fetcher.balance, hexact.announces, sub_self] at hpos
    exact hpos.false
  · have hzero := hannounced.unasked p hp
    have heq : counter f.announces p = f.held p := (sub_eq_zero.1 hzero).symm
    exact ⟨heq, heq ▸ Int.natCast_nonneg _, hannounced.limit p, hqueued.exact p, hqueued.limit p⟩

/-- The announcement of block 101 by `p` is fetched and expires. -/
def expired : Fetcher :=
  let a : Announce := { hash := 1, number := 101, time := 0, origin := "p" }
  let f := Fetcher.notify {} a 100
  let f := f.fetchHash (fun _ => fetchTimeout) (fun _ => 0) (fun _ => false) 1
  f.expire .kept fun _ => fetchTimeout + 1

theorem reached_expired :
    Reached (.slices _) ⟨fun _ => 0, fun _ => 0⟩ .univ .imports expired := by
  have hnew : Reached (.slices _) ⟨fun _ => 0, fun _ => 0⟩ .univ .expire {} := .new
  have hnotify := Reached.select
    (.notify { hash := 1, number := 101, time := 0, origin := "p" } 100)
    (.imports 100 (fun _ => false) (.expire .kept (fun _ => 0) hnew) trivial) trivial (by simp)
  have hfetch := Reached.select
    (.fetchTimer .kept (fun _ => fetchTimeout) (fun _ => 0) fun _ => false)
    (.imports 100 (fun _ => false) (.expire .kept (fun _ => 0) hnotify) trivial) trivial (by simp)
  exact .expire .kept (fun _ => fetchTimeout + 1) hfetch

theorem announces_exact_expired : (expired.Exact "p" ↔ "p" ∉ expired.asked) ∧
    counter expired.announces "p" ≤ hashLimit ∧
    counter expired.queues "p" = expired.queuedBy "p" ∧ counter expired.queues "p" ≤ blockLimit :=
  announces_exact reached_expired "p"

theorem overdrawn : ∃ f : Fetcher, ∃ p : String,
    Reached (.slices _) ⟨fun _ => 0, fun _ => 0⟩ .univ .imports f ∧ ¬ f.Exact p ∧
      counter f.announces p = -1 :=
  ⟨expired, "p", reached_expired, fun h => absurd h.nonneg (by decide), rfl⟩

end GoEthereum.Eth
