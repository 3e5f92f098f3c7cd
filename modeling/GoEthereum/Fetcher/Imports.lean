/-
  Blocks in the import queue of the fetcher (`queue_not_held_up`).

  Distances and priorities are differences modulo 2^64, read as signed numbers.  They are those
  of the integers as long as the heights of the chain stay away from the ends of `uint64` and
  lie less than 2^63 apart (`Window`).  The queue is then ordered by the numbers, and the loop
  that imports blocks stops at a block only if all others come later.
-/
import GoEthereum.Fetcher.Fetcher

namespace GoEthereum.Eth

open GoEthereum.Core Fetcher

variable {f : Fetcher} {H : Set UInt64} {height : UInt64} {N : Set ℕ}

/-! ## Distances -/

theorem toInt_toInt64 (n : UInt64) : n.toInt64.toInt = (n.toNat : ℤ).bmod (2 ^ 64) :=
  BitVec.toInt_eq_toNat_bmod _

theorem toInt_dist (n h : UInt64) :
    (Fetcher.dist n h).toInt = ((n.toNat : ℤ) - h.toNat).bmod (2 ^ 64) := by
  rw [Fetcher.dist, Int64.toInt_sub, toInt_toInt64, toInt_toInt64, Int.sub_bmod_bmod,
    Int.bmod_sub_bmod]

theorem farAway_eq_false (n h : UInt64) : farAway n h = false ↔
    -7 ≤ ((n.toNat : ℤ) - h.toNat).bmod (2 ^ 64) ∧
      ((n.toNat : ℤ) - h.toNat).bmod (2 ^ 64) ≤ 32 := by
  rw [← toInt_dist, farAway, Bool.or_eq_false_iff, decide_eq_false_iff_not, decide_eq_false_iff_not,
    Int64.lt_iff_toInt_lt, Int64.lt_iff_toInt_lt, not_lt, not_lt]
  rfl

/-- The number of an item. -/
def Item.number (x : Item) : ℕ := x.value.block.numberU64.toNat

theorem less_item (a b : Inject) : (item a).less (item b) = true ↔
    0 < (((item b).number : ℤ) - (item a).number).bmod (2 ^ 64) := by
  have hsub : (item a).priority - (item b).priority =
      Fetcher.dist b.block.numberU64 a.block.numberU64 := by
    simp only [item, Fetcher.dist]
    grind
  rw [Item.less, decide_eq_true_iff, Int64.lt_iff_toInt_lt, hsub, toInt_dist]
  rfl

theorem bmod_eq {x y : ℤ} (h₁ : -2 ^ 63 ≤ y) (h₂ : y < 2 ^ 63)
    (h : x = y ∨ x = y + 2 ^ 64 ∨ x = y - 2 ^ 64) : x.bmod (2 ^ 64) = y := by
  rw [Int.bmod_def]
  split
  all_goals omega

/-! ## Order of the queue -/

/-- The heights for which the numbers near them do not wrap, nor their differences. -/
def Window (H : Set UInt64) : Prop :=
  ∀ h ∈ H, 7 ≤ h.toNat ∧ h.toNat + 32 < 2 ^ 64 ∧ ∀ h' ∈ H, h.toNat + 39 < h'.toNat + 2 ^ 63

theorem near_of_farAway {n h : UInt64} (hlow : 7 ≤ h.toNat) (hhigh : h.toNat + 32 < 2 ^ 64)
    (hfar : farAway n h = false) : h.toNat ≤ n.toNat + 7 ∧ n.toNat ≤ h.toNat + 32 := by
  have hn := n.toNat_lt
  rw [farAway_eq_false, Int.bmod_def] at hfar
  split at hfar
  all_goals omega

/-- The number of an item is near a height of the chain. -/
def Item.Near (H : Set UInt64) (x : Item) : Prop :=
  ∃ h ∈ H, h.toNat ≤ x.number + 7 ∧ x.number ≤ h.toNat + 32

/-- A queue in the order of the numbers, each near a height of the chain. -/
structure InOrder (q : QueueFns Item Item.less) (H : Set UInt64) (queue : List Item) : Prop where
  near : ∀ x ∈ queue, x.Near H
  isItem : ∀ x ∈ queue, x = item x.value
  ordered : q.Ordered queue

section
variable {q : QueueFns Item Item.less}

theorem comparesBy_number (hH : Window H) {l : List Item}
    (hnear : ∀ x ∈ l, x.Near H) (hitem : ∀ x ∈ l, x = item x.value) :
    ComparesBy Item.less (fun x => (x.number : ℤ)) l := by
  intro x hx y hy
  obtain ⟨h, hh, hx₁, hx₂⟩ := hnear x hx
  obtain ⟨h', hh', hy₁, hy₂⟩ := hnear y hy
  have h₁ := (hH h hh).2.2 h' hh'
  have h₂ := (hH h' hh').2.2 h hh
  have hless : x.less y = true ↔ 0 < ((y.number : ℤ) - x.number).bmod (2 ^ 64) := by
    rw [hitem x hx, hitem y hy]
    exact less_item x.value y.value
  rw [hless, bmod_eq (by omega) (by omega) (.inl rfl), sub_pos]

theorem InOrder.comparesBy {queue : List Item} (hH : Window H) (h : InOrder q H queue) :
    ComparesBy Item.less (fun x => (x.number : ℤ)) queue := comparesBy_number hH h.near h.isItem

theorem InOrder.nil : InOrder q H [] := ⟨by simp, by simp, q.ordered_nil⟩

theorem InOrder.of_same {f' : Fetcher} (h : InOrder q H f.queue) (hs : SameQueue f f') :
    InOrder q H f'.queue := hs.queue ▸ h

theorem InOrder.push {queue : List Item} {op : Inject} (hH : Window H) (h : InOrder q H queue)
    (hnear : (item op).Near H) :
    InOrder q H (q.push queue (item op)) := by
  have hperm := q.push_perm queue (item op)
  have hnear' : ∀ x ∈ item op :: queue, x.Near H := List.forall_mem_cons.2 ⟨hnear, h.near⟩
  have hitem' : ∀ x ∈ item op :: queue, x = item x.value := List.forall_mem_cons.2 ⟨rfl, h.isItem⟩
  exact ⟨fun x hx => hnear' x (hperm.mem_iff.1 hx), fun x hx => hitem' x (hperm.mem_iff.1 hx),
    q.push_ordered (comparesBy_number hH hnear' hitem') h.ordered⟩

theorem InOrder.pop {queue rest : List Item} {x : Item} (hH : Window H) (h : InOrder q H queue)
    (hpop : q.pop queue = some (x, rest)) :
    x = item x.value ∧ x.Near H ∧ InOrder q H rest ∧ ∀ y ∈ rest, x.number ≤ y.number := by
  have hperm := q.pop_perm hpop
  have hrest : ∀ y ∈ rest, y ∈ queue := fun y hy => hperm.mem_iff.2 (List.mem_cons_of_mem _ hy)
  have hx : x ∈ queue := hperm.mem_iff.2 (by simp)
  obtain ⟨hordered, hle⟩ := q.pop_ordered (h.comparesBy hH) h.ordered hpop
  exact ⟨h.isItem x hx, h.near x hx,
    ⟨fun y hy => h.near y (hrest y hy), fun y hy => h.isItem y (hrest y hy), hordered⟩,
    fun y hy => by exact_mod_cast hle y hy⟩

/-! ## Phases -/

theorem InOrder.enqueue (hH : Window H) (h : InOrder q H f.queue) (peer : String) (block : Block)
    (hheight : height ∈ H) :
    InOrder q H (f.enqueue q peer block height).queue := by
  simp only [Fetcher.enqueue]
  split
  · exact h
  split
  · exact h
  rename_i hfar
  split
  · exact h
  · obtain ⟨hlow, hhigh, -⟩ := hH height hheight
    exact h.push hH ⟨height, hheight, near_of_farAway hlow hhigh (Bool.not_eq_true _ ▸ hfar)⟩

@[simp]
theorem queue_forgetBlock (f : Fetcher) (hash : Word) : (f.forgetBlock hash).queue = f.queue := by
  rw [Fetcher.forgetBlock]
  split
  · rfl
  · rfl

/-- **The import phase takes out every block that is not too high.** -/
theorem InOrder.importLoop (hH : Window H) (hheight : height ∈ H) (known : Word → Bool) (fuel : ℕ)
    (h : InOrder q H f.queue) (hfuel : f.queue.length ≤ fuel) :
    InOrder q H (f.importLoop q height known fuel).queue ∧
      ∀ x ∈ (f.importLoop q height known fuel).queue, height.toNat + 1 < x.number := by
  induction fuel generalizing f with
  | zero =>
    have hnil : f.queue = [] := List.length_eq_zero_iff.1 (Nat.le_zero.1 hfuel)
    exact ⟨h, by simp [Fetcher.importLoop, hnil]⟩
  | succ fuel ih =>
    rw [Fetcher.importLoop]
    split
    · rename_i hpop
      have hnil : f.queue = [] := by
        by_contra hne
        have := q.pop_isSome hne
        rw [hpop] at this
        cases this
      exact ⟨h, by simp [hnil]⟩
    · rename_i x rest hpop
      obtain ⟨hitem, hnear, hrest, hle⟩ := h.pop hH hpop
      have hlength : rest.length ≤ fuel := by
        have := (q.pop_perm hpop).length_eq
        rw [List.length_cons] at this
        omega
      have hsucc : (height + 1).toNat = height.toNat + 1 := by
        have := (hH height hheight).2.1
        rw [UInt64.toNat_add]
        exact Nat.mod_eq_of_lt (by simpa using by omega)
      simp only []
      split
      · rename_i hnumber
        rw [gt_iff_lt, UInt64.lt_iff_toNat_lt, hsucc] at hnumber
        refine ⟨hrest.push hH (hitem ▸ hnear), fun y hy => ?_⟩
        rcases List.mem_cons.1 ((q.push_perm rest _).mem_iff.1 hy) with rfl | hy
        · exact hnumber
        · exact hnumber.trans_le (hle y hy)
      split
      · exact ih (by simpa using hrest) (by simpa using hlength)
      · exact ih hrest hlength

theorem within_zipIdx {height : ℕ → UInt64} (hheight : ∀ i, height i ∈ H) (l : List Block) :
    ∀ x ∈ l.zipIdx.map fun x => (x.1, height x.2), x.2 ∈ H := by
  intro x hx
  obtain ⟨y, -, rfl⟩ := List.mem_map.1 hx
  exact hheight y.2

theorem InOrder.enqueueComplete (hH : Window H) {l : List (Block × UInt64)} (hl : ∀ x ∈ l, x.2 ∈ H)
    (h : InOrder q H f.queue) : InOrder q H (l.foldl (Fetcher.enqueueComplete q) f).queue := by
  induction l generalizing f with
  | nil => exact h
  | cons x l ih =>
    obtain ⟨hx, hl⟩ := List.forall_mem_cons.1 hl
    refine ih hl ?_
    rw [Fetcher.enqueueComplete]
    split
    · exact h.enqueue hH _ _ hx
    · exact h

theorem InOrder.select (hH : Window H) (derive : Derive) {ev : Event} (hev : ev.Within H)
    (h : InOrder q H f.queue) : InOrder q H (f.select q derive ev).queue := by
  cases ev with
  | notify a height => exact h.of_same (.notify a height)
  | inject op height => exact h.enqueue hH _ _ hev
  | done hash =>
    rw [Fetcher.select]
    simpa using show InOrder q H (f.forgetHash hash).queue from h
  | fetchTimer order now rand known =>
    exact h.of_same (.foldl (g := id) (fun f => .fetchHash now rand known) _ f)
  | completeTimer order rand known =>
    exact h.of_same (.foldl (g := id) (fun f => .completeHash rand known) _ f)
  | headerFilter peer headers time height =>
    refine InOrder.enqueueComplete hH (within_zipIdx hev _) ?_
    have hsorted := SameQueue.foldl (.sortHeader derive peer time) headers { fetcher := f }
    exact h.of_same (hsorted.trans (.foldl (g := id) (fun f => .scheduleBody) _ _))
  | bodyFilter order peer transactions uncles known height =>
    refine InOrder.enqueueComplete hH (within_zipIdx hev _) ?_
    exact h.of_same (.foldl (.matchBody derive order peer) _ { fetcher := f })

theorem Reached.inOrder {derive : Derive} {phase : Phase} (hH : Window H)
    (h : Reached q derive H phase f) : InOrder q H f.queue := by
  induction h with
  | new => exact InOrder.nil
  | expire order now _ ih => exact ih.of_same (.expire order now)
  | imports height known _ hheight ih => exact (ih.importLoop hH hheight known _ le_rfl).1
  | select ev _ hev _ ih => exact ih.select hH derive hev

/-! ## Importable blocks -/

/-- An accepted block with a number in `N` is near the height of the chain; after the import
    phase no block in the queue could be imported. -/
structure NotHeldUp (q : QueueFns Item Item.less) (derive : Derive) (H : Set UInt64) (N : Set ℕ) :
    Prop where
  accepted : ∀ (f : Fetcher) (peer : String) (block : Block), block.number ∈ N → ∀ height ∈ H,
    (f.enqueue q peer block height).queue ≠ f.queue →
      height.toNat ≤ block.number + 7 ∧ block.number ≤ height.toNat + 32
  imported : ∀ f : Fetcher, Reached q derive H .imports f → ∀ height ∈ H, ∀ known : Word → Bool,
    ∀ x ∈ (f.imports q height known).queue, height.toNat + 1 < x.value.block.number

/-- A number whose low 64 bits are near a height fits in 64 bits. -/
def FitNear (H : Set UInt64) (N : Set ℕ) : Prop :=
  ∀ n ∈ N, ∀ h ∈ H, farAway (.ofNat n) h = false → n < 2 ^ 64

theorem toNat_numberU64 {block : Block} (h : block.number < 2 ^ 64) :
    block.numberU64.toNat = block.number := UInt64.toNat_ofNat_of_lt' h

theorem number_le (x : Item) : x.number ≤ x.value.block.number := by
  rw [Item.number, Block.numberU64, Header.numberU64, UInt64.toNat_ofNat']
  exact Nat.mod_le ..

theorem notHeldUp_of_window (hH : Window H) (hN : FitNear H N) (derive : Derive) :
    NotHeldUp q derive H N where
  accepted f peer block hblock height hheight hne := by
    obtain ⟨hlow, hhigh, -⟩ := hH height hheight
    have hfar : farAway block.numberU64 height = false := by
      by_contra hfar
      refine hne ?_
      simp only [Fetcher.enqueue, Bool.not_eq_false] at hfar ⊢
      rw [if_pos hfar]
      split <;> rfl
    have hnear := near_of_farAway hlow hhigh hfar
    rwa [toNat_numberU64 (hN _ hblock height hheight hfar)] at hnear
  imported f hf height hheight known x hx :=
    (((hf.inOrder hH).importLoop hH hheight known _ le_rfl).2 x hx).trans_le (number_le x)

theorem enqueue_accepted {peer : String} {block : Block}
    (hcount : counter f.queues peer + 1 ≤ blockLimit)
    (hfar : farAway block.numberU64 height = false) (hqueued : f.queued.get block.hash = none) :
    f.enqueue q peer block height = { f with
      queues := f.queues.set peer (counter f.queues peer + 1)
      queued := f.queued.set block.hash { origin := peer, block }
      queue := q.push f.queue (item { origin := peer, block }) } := by
  simp only [Fetcher.enqueue]
  rw [if_neg (not_lt.2 hcount), if_neg (by simp [hfar]), if_neg (by simp [hqueued])]

theorem imports_tooHigh {known : Word → Bool} {x : Item} {rest : List Item}
    (hpop : q.pop f.queue = some (x, rest)) (hnumber : height + 1 < x.value.block.numberU64) :
    f.imports q height known = { f with queue := q.push rest (item x.value) } := by
  rw [imports, (q.pop_perm hpop).length_eq, List.length_cons, Fetcher.importLoop, hpop]
  exact if_pos hnumber

end

/-- A block with a hash and a number. -/
def blockAt (hash : Word) (number : ℕ) : Block :=
  { header := { hash, parentHash := 0, difficulty := 0, number } }

theorem farAway_blockAt {hash : Word} {n : ℕ} {h : UInt64} (hn : n < 2 ^ 64)
    (hnear : ((n : ℤ) - h.toNat).bmod (2 ^ 64) = -7 ∨ ((n : ℤ) - h.toNat).bmod (2 ^ 64) = 32) :
    farAway (blockAt hash n).numberU64 h = false := by
  have hnumber : (blockAt hash n).numberU64.toNat = n := toNat_numberU64 hn
  rw [farAway_eq_false, hnumber]
  omega

theorem NotHeldUp.near {q : QueueFns Item Item.less} {derive : Derive} (h : NotHeldUp q derive H N)
    (hheight : height ∈ H) {n : ℕ} (hn : n ∈ N)
    (hfar : farAway (blockAt 1 n).numberU64 height = false) :
    height.toNat ≤ n + 7 ∧ n ≤ height.toNat + 32 := by
  refine h.accepted {} "p" (blockAt 1 n) hn height hheight ?_
  rw [enqueue_accepted (by decide) hfar rfl]
  intro hnil
  cases (q.push_nil (item ⟨"p", blockAt 1 n⟩)).symm.trans hnil

/-- Two heights far apart: a block near the higher one stays in front of a block near the lower
    one. -/
theorem heldUp_of_apart {derive : Derive} {h h' : UInt64} (hh : h ∈ H) (hh' : h' ∈ H)
    (hhigh : h.toNat + 32 < 2 ^ 64) (hlow : 7 ≤ h'.toNat)
    (hapart : h'.toNat + 2 ^ 63 ≤ h.toNat + 39) : ¬ NotHeldUp (.slices _) derive H N := by
  intro hsafe
  let a : Inject := { origin := "a", block := blockAt 1 (h.toNat + 32) }
  let b : Inject := { origin := "b", block := blockAt 2 (h'.toNat - 7) }
  have ha : a.block.numberU64.toNat = h.toNat + 32 := toNat_numberU64 hhigh
  have hb : b.block.numberU64.toNat = h'.toNat - 7 :=
    toNat_numberU64 (show h'.toNat - 7 < 2 ^ 64 by omega)
  -- the fetcher with `a`, and with `a` and `b`
  let f₁ : Fetcher :=
    { queue := [item a], queues := AssocMap.empty.set "a" 1, queued := AssocMap.empty.set 1 a }
  let f₂ : Fetcher :=
    { f₁ with
      queue := [item a, item b], queues := f₁.queues.set "b" 1, queued := f₁.queued.set 2 b }
  have hsucc : ∀ k : UInt64, k.toNat + 1 < 2 ^ 64 → (k + 1).toNat = k.toNat + 1 := fun k hk => by
    rw [UInt64.toNat_add]
    exact Nat.mod_eq_of_lt (by simpa using hk)
  have htooHigh : ∀ k : UInt64, k.toNat ≤ h.toNat → k + 1 < a.block.numberU64 := fun k hk => by
    rw [UInt64.lt_iff_toNat_lt, hsucc k (by omega), ha]
    omega
  have hfirst : ({} : Fetcher).enqueue (.slices _) "a" a.block h = f₁ := by
    rw [enqueue_accepted (by decide) (farAway_blockAt hhigh (by simp)) rfl]
    exact congrArg (fun l : List Item => { f₁ with queue := l }) (QueueFns.push_nil _ _)
  have hkept : f₁.imports (.slices _) h (fun _ => false) = f₁ := by
    have hpop : (QueueFns.slices Item.less).pop f₁.queue = some (item a, []) :=
      QueueFns.pop_single _ _
    rw [imports_tooHigh hpop (htooHigh h le_rfl), QueueFns.push_nil]
    rfl
  have hsecond : f₁.enqueue (.slices _) "b" b.block h' = f₂ := by
    have hless : (item b).less (item a) = false := by
      have hlt : (((item a).number : ℤ) - (item b).number).bmod (2 ^ 64) =
          h.toNat + 39 - h'.toNat - 2 ^ 64 := by
        rw [Item.number, Item.number, show (item a).value = a from rfl,
          show (item b).value = b from rfl, ha, hb]
        exact bmod_eq (by omega) (by omega) (by omega)
      rw [← Bool.not_eq_true, less_item, hlt]
      omega
    have hfar : farAway b.block.numberU64 h' = false :=
      farAway_blockAt (by omega) (.inl (bmod_eq (by omega) (by omega) (by omega)))
    have hcount : counter f₁.queues "b" + 1 ≤ blockLimit :=
      (by decide : counter (AssocMap.empty.set "a" 1) "b" + 1 ≤ blockLimit)
    have hqueued : f₁.queued.get 2 = none := rfl
    rw [enqueue_accepted hcount hfar hqueued]
    exact congrArg (fun l : List Item => { f₂ with queue := l }) (slices_push_pair hless)
  have hreached : Reached (.slices _) derive H .imports f₂ := by
    have h₁ : Reached (.slices _) derive H .expire f₁ := by
      rw [← hfirst]
      exact .select (.inject a h)
        (.imports h (fun _ => false) (.expire .kept (fun _ => 0) .new) hh) hh (by simp)
    have h₂ : Reached (.slices _) derive H .select f₁ := by
      rw [← hkept]
      exact .imports h _ (.expire .kept (fun _ => 0) h₁) hh
    have h₃ : Reached (.slices _) derive H .expire f₂ := by
      rw [← hsecond]
      exact .select (.inject b h') h₂ hh' (by simp)
    exact .expire .kept (fun _ => 0) h₃
  have hstays : item b ∈ (f₂.imports (.slices _) h' fun _ => false).queue := by
    have hpop : (QueueFns.slices Item.less).pop f₂.queue = some (item a, [item b]) :=
      slices_pop_pair
    rw [imports_tooHigh hpop (htooHigh h' (by omega))]
    exact ((QueueFns.slices _).push_perm _ _).mem_iff.2 (.tail _ (.head _))
  have := hsafe.imported f₂ hreached h' hh' (fun _ => false) (item b) hstays
  have hnumber : (item b).value.block.number = h'.toNat - 7 := rfl
  omega

/-- **No block holds up the queue**, exactly if the heights of the chain are in a window and
    no block has a number beyond 64 bits that looks near. -/
theorem queue_not_held_up (derive : Derive) (H : Set UInt64) {N : Set ℕ}
    (hN : ∀ n < 2 ^ 64, n ∈ N) :
    (∀ q, NotHeldUp q derive H N) ↔ Window H ∧ FitNear H N := by
  refine ⟨fun hsafe => ?_, fun hH q => notHeldUp_of_window hH.1 hH.2 derive⟩
  have hnear := fun {h} (hh : h ∈ H) {n} (hn : n < 2 ^ 64) hdist =>
    (hsafe (.slices _)).near hh (hN n hn) (farAway_blockAt hn hdist)
  have hlow : ∀ h ∈ H, 7 ≤ h.toNat := fun h hh => by
    by_contra hlow
    have := hnear hh (n := 2 ^ 64 - 7 + h.toNat) (by omega)
      (.inl (bmod_eq (by omega) (by omega) (by omega)))
    omega
  have hhigh : ∀ h ∈ H, h.toNat + 32 < 2 ^ 64 := fun h hh => by
    by_contra hhigh
    have hlt := h.toNat_lt
    have := hnear hh (n := h.toNat + 32 - 2 ^ 64) (by omega)
      (.inr (bmod_eq (by omega) (by omega) (by omega)))
    omega
  refine ⟨fun h hh => ⟨hlow h hh, hhigh h hh, fun h' hh' => ?_⟩, fun n hn h hh hfar => ?_⟩
  · by_contra hapart
    exact heldUp_of_apart hh hh' (hhigh h hh) (hlow h' hh') (by omega) (hsafe (.slices _))
  · have := (hsafe (.slices _)).near hh hn hfar
    have := hhigh h hh
    omega

theorem queue_not_held_up_two :
    NotHeldUp (.slices _) ⟨fun _ => 0, fun _ => 0⟩ {1000, 1001} {n | n < 2 ^ 64} := by
  refine (queue_not_held_up _ _ fun n hn => hn).2 ⟨?_, fun n hn _ _ _ => hn⟩ _
  simp [Window]

/-- At height 0, a block with the number 2^64 - 7 is accepted, and block 1 stays behind it. -/
theorem held_up : ∃ f : Fetcher,
    Reached (.slices _) ⟨fun _ => 0, fun _ => 0⟩ {0} .imports f ∧
      ∃ x ∈ (f.imports (.slices _) 0 fun _ => false).queue, x.value.block.number = 1 := by
  have hnew : Reached (.slices _) ⟨fun _ => 0, fun _ => 0⟩ {0} .expire {} := .new
  have hfirst := Reached.select (.inject ⟨"a", blockAt 1 (2 ^ 64 - 7)⟩ 0)
    (.imports 0 (fun _ => false) (.expire .kept (fun _ => 0) hnew) rfl) rfl (by simp)
  have hsecond := Reached.select (.inject ⟨"b", blockAt 2 1⟩ 0)
    (.imports 0 (fun _ => false) (.expire .kept (fun _ => 0) hfirst) rfl) rfl (by simp)
  exact ⟨_, .expire .kept (fun _ => 0) hsecond, List.mem_map.1 (by decide +kernel)⟩

end GoEthereum.Eth
