/-
  Weighted random selection (`les/randselect.go`).

  The items are the leaves of a tree with 8 branches at each node; a node keeps the
  number and the weight of the items below it, and an item is found by an index, which
  is read level by level.  A call changes one place of the tree (`Changed`), so what is
  cached on the way to it stays right; after any calls the tree has the items of the
  calls, and each is chosen by as many values as it weighs (`select_run`).

  Weights are integers of 64 bits.  As long as their sum is one as well, so are all numbers
  in the tree and all differences (`run_fits`).  An index would not fit in 64 bits from the
  2^60th item on, more than there is memory for.
-/
import Mathlib.Algebra.Group.Action.Defs
import Mathlib.Algebra.Order.BigOperators.Group.List
import Mathlib.Data.List.FinRange
import Mathlib.Data.List.Induction
import Mathlib.Data.List.Perm.Basic
import Mathlib.Logic.Function.Basic
import Mathlib.Tactic.Ring

namespace GoEthereum.Les

variable {α β ι : Type}

/-! ## The tree -/

/-- `wrsNode`, with items or nodes of a level below it. -/
structure WrsNode (ι : Type) where
  items : Fin 8 → Option ι
  weights : Fin 8 → ℤ
  sumWeight : ℤ
  itemCnt : ℤ
  maxItems : ℕ

/-- What is in the `items` of a node at a level. -/
@[reducible]
def Item (α : Type) : ℕ → Type
  | 0 => α
  | l + 1 => WrsNode (Item α l)

/-- A node without items. -/
def WrsNode.empty (maxItems : ℕ) : WrsNode ι := ⟨fun _ => none, fun _ => 0, 0, 0, maxItems⟩

/-- The loop of `insert`: the first branch that is not taken, or a panic. -/
def freeBranch (taken : Fin 8 → Bool) : Option (Fin 8) :=
  (List.finRange 8).find? fun i => !taken i

/-- `wrsNode.insert`: the node, and the index of the item. -/
def insert : (l : ℕ) → WrsNode (Item α l) → α → ℤ → Option (WrsNode (Item α l) × ℕ)
  | 0, n, item, weight => do
    let branch ← freeBranch fun i => (n.items i).isSome
    some ({ n with
      itemCnt := n.itemCnt + 1
      sumWeight := n.sumWeight + weight
      weights := Function.update n.weights branch (n.weights branch + weight)
      items := Function.update n.items branch (some item) }, branch)
  | l + 1, n, item, weight => do
    let branch ← freeBranch fun i => (n.items i).any fun sub => sub.itemCnt = sub.maxItems
    let subNode := (n.items branch).getD (.empty (n.maxItems / 8))
    let (subNode, subIdx) ← insert l subNode item weight
    some ({ n with
      itemCnt := n.itemCnt + 1
      sumWeight := n.sumWeight + weight
      weights := Function.update n.weights branch (n.weights branch + weight)
      items := Function.update n.items branch (some subNode) },
      subNode.maxItems * branch + subIdx)

/-- The place of an index in an array of 8; other indices panic. -/
def slotOf (idx : ℕ) : Option (Fin 8) := if h : idx < 8 then some ⟨idx, h⟩ else none

/-- The branch of an index, and the index below it. -/
def branchOf (n : WrsNode ι) (idx : ℕ) : Option (Fin 8 × ℕ) := do
  let branchItems := n.maxItems / 8
  let branch ← slotOf (idx / branchItems)
  some (branch, idx - branch * branchItems)

/-- `wrsNode.setWeight`: the node, and the change of the weight. -/
def setWeight : (l : ℕ) → WrsNode (Item α l) → ℕ → ℤ → Option (WrsNode (Item α l) × ℤ)
  | 0, n, idx, weight => do
    let i ← slotOf idx
    let diff := weight - n.weights i
    some ({ n with
      weights := Function.update n.weights i weight
      sumWeight := n.sumWeight + diff
      items := if weight = 0 then Function.update n.items i none else n.items
      itemCnt := if weight = 0 then n.itemCnt - 1 else n.itemCnt }, diff)
  | l + 1, n, idx, weight => do
    let (branch, idx) ← branchOf n idx
    let sub ← n.items branch
    let (sub, diff) ← setWeight l sub idx weight
    some ({ n with
      items := Function.update n.items branch (some sub)
      weights := Function.update n.weights branch (n.weights branch + diff)
      sumWeight := n.sumWeight + diff
      itemCnt := if weight = 0 then n.itemCnt - 1 else n.itemCnt }, diff)

/-- The loop of `choose`: the branch, and what is left of the value. -/
def pick (weights : Fin 8 → ℤ) : List (Fin 8) → ℤ → Option (Fin 8 × ℤ)
  | [], _ => none
  | i :: is, val => if val < weights i then some (i, val) else pick weights is (val - weights i)

def choose : (l : ℕ) → WrsNode (Item α l) → ℤ → Option (α × ℤ)
  | 0, n, val => do
    let (i, _) ← pick n.weights (List.finRange 8) val
    let item ← n.items i
    some (item, n.weights i)
  | l + 1, n, val => do
    let (i, val) ← pick n.weights (List.finRange 8) val
    let sub ← n.items i
    choose l sub val

/-- `weightedRandomSelect` -/
structure Select (α : Type) where
  level : ℕ
  root : WrsNode (Item α level)
  idx : α → Option ℕ

/-- `newWeightedRandomSelect` -/
def Select.new : Select α := ⟨0, .empty 8, fun _ => none⟩

/-- A new level over the root. -/
def Select.grow (s : Select α) : Select α where
  level := s.level + 1
  root := {
    items := Function.update (fun _ => none) 0 (some s.root)
    weights := Function.update (fun _ => 0) 0 s.root.sumWeight
    sumWeight := s.root.sumWeight
    itemCnt := s.root.itemCnt
    maxItems := s.root.maxItems * 8 }
  idx := s.idx

section
variable [DecidableEq α]

def Select.setWeight (s : Select α) (item : α) (weight : ℤ) : Option (Select α) :=
  match s.idx item with
  | some idx => do
    let (root, _) ← Les.setWeight s.level s.root idx weight
    some { s with root, idx := if weight = 0 then Function.update s.idx item none else s.idx }
  | none =>
    if weight ≠ 0 then do
      let s := if s.root.itemCnt = s.root.maxItems then s.grow else s
      let (root, idx) ← insert s.level s.root item weight
      some { s with root, idx := Function.update s.idx item (some idx) }
    else some s

/-- `update` of an item, with its weight then, or `remove`. -/
inductive Op (α : Type) where
  | update (item : α) (weight : ℤ)
  | remove (item : α)

def Op.item : Op α → α
  | .update item _ | .remove item => item

def Op.weight : Op α → ℤ
  | .update _ weight => weight
  | .remove _ => 0

/-- The calls of a run. -/
def Select.run (ops : List (Op α)) : Option (Select α) :=
  ops.foldlM (fun s op => s.setWeight op.item op.weight) .new

/-! ## Weighted items -/

/-- An item with its weight; nothing if the weight is zero. -/
def entry (item : α) (weight : ℤ) : List (α × ℤ) := if weight = 0 then [] else [(item, weight)]

/-- The items after a run, with their weights. -/
def contents (ops : List (Op α)) : List (α × ℤ) :=
  ops.foldl (fun xs op => entry op.item op.weight ++ xs.filter fun x => x.1 ≠ op.item) []

end

/-- The weights of some of the items. -/
def weigh (p : α → Bool) : List (α × ℤ) → ℤ
  | [] => 0
  | (x, w) :: xs => (if p x then w else 0) + weigh p xs

/-- The sum of all weights. -/
abbrev total (xs : List (α × ℤ)) : ℤ := weigh (fun _ => true) xs

variable {p : α → Bool} {xs ys olds news : List (α × ℤ)}

theorem weigh_perm (h : xs.Perm ys) : weigh p xs = weigh p ys := by
  induction h with
  | nil => rfl
  | cons x _ ih => rw [weigh, weigh, ih]
  | swap x y l =>
    simp only [weigh]
    omega
  | trans _ _ ih₁ ih₂ => exact ih₁.trans ih₂

theorem weigh_append (xs ys : List (α × ℤ)) : weigh p (xs ++ ys) = weigh p xs + weigh p ys := by
  induction xs with
  | nil => simp [weigh]
  | cons x xs ih =>
    rw [List.cons_append, weigh, weigh, ih]
    omega

theorem total_perm (h : xs.Perm ys) : total xs = total ys := weigh_perm h

theorem total_append (xs ys : List (α × ℤ)) : total (xs ++ ys) = total xs + total ys :=
  weigh_append xs ys

theorem total_cons (x : α × ℤ) (xs : List (α × ℤ)) : total (x :: xs) = x.2 + total xs := rfl

theorem total_nonneg (h : ∀ x ∈ xs, 0 < x.2) : 0 ≤ total xs := by
  induction xs with
  | nil => exact le_refl _
  | cons x xs ih =>
    have hx := h x (.head _)
    have hxs := ih fun y hy => h y (.tail _ hy)
    rw [total_cons]
    omega

theorem flatMap_split (b : Fin 8) (f : Fin 8 → List β) : ∃ rest, ∀ g : Fin 8 → List β,
    (∀ i, i ≠ b → g i = f i) → ((List.finRange 8).flatMap g).Perm (g b ++ rest) := by
  obtain ⟨l₁, l₂, hl⟩ := List.append_of_mem (List.mem_finRange b)
  have hnodup := List.nodup_finRange 8
  rw [hl, List.nodup_append] at hnodup
  refine ⟨l₁.flatMap f ++ l₂.flatMap f, fun g hg => ?_⟩
  have h₁ : l₁.flatMap g = l₁.flatMap f := List.flatMap_congr fun i hi =>
    hg i fun h => hnodup.2.2 i hi b (.head _) h
  have h₂ : l₂.flatMap g = l₂.flatMap f := List.flatMap_congr fun i hi =>
    hg i fun h => (List.nodup_cons.1 hnodup.2.1).1 (h ▸ hi)
  rw [hl, List.flatMap_append, List.flatMap_cons, h₁, h₂]
  exact List.perm_append_comm_assoc _ _ _

/-! ## The items below a node -/

/-- The items below a node, with their weights. -/
def below : (l : ℕ) → WrsNode (Item α l) → List (α × ℤ)
  | 0, n => (List.finRange 8).flatMap fun i => ((n.items i).map fun x => (x, n.weights i)).toList
  | l + 1, n => (List.finRange 8).flatMap fun i => ((n.items i).map (below l)).getD []

/-- The items below a branch of a node. -/
def part : (l : ℕ) → WrsNode (Item α l) → Fin 8 → List (α × ℤ)
  | 0, n, i => ((n.items i).map fun x => (x, n.weights i)).toList
  | l + 1, n, i => ((n.items i).map (below l)).getD []

theorem below_eq (l : ℕ) (n : WrsNode (Item α l)) :
    below l n = (List.finRange 8).flatMap (part l n) := by
  cases l <;> rfl

/-- The item an index leads to, with its weight. -/
def find : (l : ℕ) → WrsNode (Item α l) → ℕ → Option (α × ℤ)
  | 0, n, idx => do
    let i ← slotOf idx
    let item ← n.items i
    some (item, n.weights i)
  | l + 1, n, idx => do
    let (branch, idx) ← branchOf n idx
    let sub ← n.items branch
    find l sub idx

/-- A node keeps the number and the weight of the items below it. -/
structure Cached (l : ℕ) (n : WrsNode (Item α l)) : Prop where
  maxItems : n.maxItems = 8 ^ (l + 1)
  itemCnt : n.itemCnt = (below l n).length
  sumWeight : n.sumWeight = total (below l n)
  weights : ∀ i, n.weights i = total (part l n i)
  pos : ∀ x ∈ below l n, 0 < x.2

/-- All nodes of a tree are right. -/
def Sound : (l : ℕ) → WrsNode (Item α l) → Prop
  | 0, n => Cached 0 n
  | l + 1, n => Cached (l + 1) n ∧ ∀ i sub, n.items i = some sub → Sound l sub

variable {l : ℕ} {n n' : WrsNode (Item α l)} {b : Fin 8} {idx : ℕ} {item : α} {w d : ℤ}

theorem Sound.cached (h : Sound l n) : Cached l n := by
  cases l with
  | zero => exact h
  | succ l => exact h.1

theorem Cached.part_pos (h : Cached l n) (i : Fin 8) : ∀ x ∈ part l n i, 0 < x.2 := by
  intro x hx
  refine h.pos x ?_
  rw [below_eq]
  exact List.mem_flatMap.2 ⟨i, List.mem_finRange i, hx⟩

theorem below_empty (l m : ℕ) : below l (.empty m : WrsNode (Item α l)) = [] := by
  cases l <;> exact List.flatMap_eq_nil_iff.2 fun i _ => rfl

theorem sound_empty (l : ℕ) : Sound l (.empty (8 ^ (l + 1)) : WrsNode (Item α l)) := by
  have hcached : Cached l (.empty (8 ^ (l + 1)) : WrsNode (Item α l)) := by
    refine ⟨rfl, ?_, ?_, fun i => ?_, fun x hx => ?_⟩
    · rw [below_empty]
      rfl
    · rw [below_empty]
      rfl
    · cases l <;> rfl
    · rw [below_empty] at hx
      cases hx
  cases l with
  | zero => exact hcached
  | succ l => exact ⟨hcached, fun i sub h => by cases h⟩

/-! ## Numbers of 64 bits -/

def InInt64 (z : ℤ) : Prop := -2 ^ 63 ≤ z ∧ z < 2 ^ 63

/-- The sums and weights in a tree are integers of 64 bits. -/
def Fits : (l : ℕ) → WrsNode (Item α l) → Prop
  | 0, n => InInt64 n.sumWeight ∧ ∀ i, InInt64 (n.weights i)
  | l + 1, n => (InInt64 n.sumWeight ∧ ∀ i, InInt64 (n.weights i)) ∧
    ∀ i sub, n.items i = some sub → Fits l sub

theorem Cached.weights_le (h : Cached l n) (i : Fin 8) :
    0 ≤ n.weights i ∧ n.weights i ≤ n.sumWeight := by
  obtain ⟨rest, hrest⟩ := flatMap_split i (part l n)
  have hperm := hrest _ fun _ _ => rfl
  rw [← below_eq] at hperm
  have hpart := total_nonneg (h.part_pos i)
  have hrest := total_nonneg fun x (hx : x ∈ rest) =>
    h.pos x (hperm.mem_iff.2 (List.mem_append_right _ hx))
  rw [h.weights, h.sumWeight, total_perm hperm, total_append]
  omega

theorem Cached.fits (h : Cached l n) (hsum : n.sumWeight < 2 ^ 63) :
    InInt64 n.sumWeight ∧ ∀ i, InInt64 (n.weights i) := by
  have hle := h.weights_le
  refine ⟨⟨?_, hsum⟩, fun i => ⟨?_, (hle i).2.trans_lt hsum⟩⟩
  · have := hle 0
    omega
  · have := hle i
    omega

/-- The sum at the root is the largest number in a tree. -/
theorem Sound.fits (h : Sound l n) (hsum : n.sumWeight < 2 ^ 63) : Fits l n := by
  induction l with
  | zero => exact h.cached.fits hsum
  | succ l ih =>
    refine ⟨h.cached.fits hsum, fun i sub hi => ih (h.2 i sub hi) ?_⟩
    have hweight : n.weights i = sub.sumWeight := by
      rw [h.cached.weights, part, hi, (h.2 i sub hi).cached.sumWeight]
      rfl
    exact hweight ▸ (h.cached.weights_le i).2.trans_lt hsum

theorem length_flatMap_le {f : Fin 8 → List β} {c : ℕ} (h : ∀ i, (f i).length ≤ c) :
    ((List.finRange 8).flatMap f).length ≤ 8 * c := by
  have hsum := List.sum_le_card_nsmul ((List.finRange 8).map fun i => (f i).length) c
    (by simpa using h)
  rwa [List.length_map, List.length_finRange, smul_eq_mul, ← List.length_flatMap] at hsum

theorem Sound.length_le (h : Sound l n) : (below l n).length ≤ 8 ^ (l + 1) := by
  induction l with
  | zero =>
    rw [zero_add, pow_one, ← mul_one 8]
    refine length_flatMap_le fun i => ?_
    cases n.items i with
    | none => exact Nat.zero_le _
    | some x => exact le_refl _
  | succ l ih =>
    rw [pow_succ, mul_comm]
    refine length_flatMap_le fun i => ?_
    rcases hi : n.items i with _ | sub
    · exact Nat.zero_le _
    · exact ih (h.2 i sub hi)

theorem exists_freeBranch {taken : Fin 8 → Bool} {f : Fin 8 → List β} {c : ℕ}
    (hfull : ∀ i, taken i = true → (f i).length = c)
    (hroom : ((List.finRange 8).flatMap f).length < 8 * c) :
    ∃ b, freeBranch taken = some b ∧ taken b = false := by
  rcases hfree : freeBranch taken with _ | b
  · have hall : ∀ i, taken i = true := by simpa [freeBranch] using hfree
    have hlen : ((List.finRange 8).flatMap f).length = 8 * c := by
      simp only [List.length_flatMap, fun i => hfull i (hall i), List.map_const',
        List.sum_replicate, List.length_finRange, smul_eq_mul]
    omega
  · exact ⟨b, rfl, by simpa using List.find?_some hfree⟩

/-! ## Indices -/

theorem slotOf_val (b : Fin 8) : slotOf b = some b := dif_pos b.isLt

theorem find_leaf (n : WrsNode (Item α 0)) (j : Fin 8) : find 0 n j = (part 0 n j).head? := by
  rw [find, slotOf_val, part]
  change ((n.items j).bind fun x => some (x, n.weights j)) = _
  cases n.items j <;> rfl

theorem branchOf_index {n : WrsNode ι} {c j : ℕ} (hmax : n.maxItems = 8 * c) (b : Fin 8)
    (hj : j < c) : branchOf n (c * b + j) = some (b, j) := by
  have hitems : n.maxItems / 8 = c := by omega
  rw [branchOf, hitems, Nat.mul_add_div (by omega), Nat.div_eq_of_lt hj, add_zero, slotOf_val]
  change some (b, c * b + j - b * c) = some (b, j)
  rw [mul_comm, Nat.add_sub_cancel_left]

theorem find_index {n : WrsNode (Item α (l + 1))} (hmax : n.maxItems = 8 ^ (l + 2)) (b : Fin 8)
    {j : ℕ} (hj : j < 8 ^ (l + 1)) :
    find (l + 1) n (8 ^ (l + 1) * b + j) = (n.items b).bind fun sub => find l sub j := by
  rw [find, branchOf_index (by rw [hmax]; ring) b hj]
  rfl

theorem exists_index {c j : ℕ} (hj : j < 8 * c) :
    ∃ (b : Fin 8) (j' : ℕ), j = c * b + j' ∧ j' < c := by
  have hc : 0 < c := by omega
  exact ⟨⟨j / c, (Nat.div_lt_iff_lt_mul hc).2 hj⟩, j % c, (Nat.div_add_mod j c).symm,
    Nat.mod_lt j hc⟩

theorem find_empty (l m j : ℕ) : find l (.empty m : WrsNode (Item α l)) j = none := by
  cases l with
  | zero =>
    rw [find]
    cases slotOf j <;> rfl
  | succ l =>
    rw [find]
    cases branchOf (.empty m : WrsNode (Item α (l + 1))) j <;> rfl

/-! ## A change at one place -/

/-- A tree is changed at the place of an index, from some items to others. -/
structure Changed (l : ℕ) (n n' : WrsNode (Item α l)) (idx : ℕ) (olds news : List (α × ℤ)) :
    Prop where
  sound : Sound l n'
  lt : idx < 8 ^ (l + 1)
  perm : ∃ rest, (below l n).Perm (olds ++ rest) ∧ (below l n').Perm (news ++ rest)
  old : find l n idx = olds.head?
  new : find l n' idx = news.head?
  others : ∀ j, j < 8 ^ (l + 1) → j ≠ idx → find l n' j = find l n j

/-- The numbers in a node after a change below the branch `b`. -/
structure Counted (n n' : WrsNode ι) (b : Fin 8) (olds news : List (α × ℤ)) : Prop where
  maxItems : n'.maxItems = n.maxItems
  itemCnt : n'.itemCnt + olds.length = n.itemCnt + news.length
  sumWeight : n'.sumWeight = n.sumWeight + (total news - total olds)
  weights : n'.weights = Function.update n.weights b (n.weights b + (total news - total olds))

/-- What a change below one branch does to a node. -/
theorem Cached.change (hc : Cached l n) (hn : Counted n n' b olds news)
    (hother : ∀ i, i ≠ b → part l n' i = part l n i) {r : List (α × ℤ)}
    (hold : (part l n b).Perm (olds ++ r)) (hnew : (part l n' b).Perm (news ++ r))
    (hpos : ∀ x ∈ news, 0 < x.2) : Cached l n' ∧
      ∃ rest, (below l n).Perm (olds ++ rest) ∧ (below l n').Perm (news ++ rest) := by
  obtain ⟨rest, hrest⟩ := flatMap_split b (part l n)
  have hperm : (below l n).Perm (olds ++ (r ++ rest)) := by
    rw [below_eq, ← List.append_assoc]
    exact (hrest _ fun _ _ => rfl).trans (hold.append_right rest)
  have hperm' : (below l n').Perm (news ++ (r ++ rest)) := by
    rw [below_eq, ← List.append_assoc]
    exact (hrest _ hother).trans (hnew.append_right rest)
  refine ⟨⟨hn.maxItems.trans hc.maxItems, ?_, ?_, fun i => ?_, fun x hx => ?_⟩, r ++ rest, hperm,
    hperm'⟩
  · have hlen := hperm.length_eq
    have hlen' := hperm'.length_eq
    have hitem := hc.itemCnt
    have hcnt := hn.itemCnt
    rw [List.length_append] at hlen hlen'
    omega
  · rw [hn.sumWeight, hc.sumWeight, total_perm hperm, total_perm hperm', total_append olds,
      total_append news]
    omega
  · rw [hn.weights]
    by_cases hi : i = b
    · subst hi
      rw [Function.update_self, hc.weights, total_perm hold, total_perm hnew, total_append olds,
        total_append news]
      omega
    · rw [Function.update_of_ne hi, hc.weights, hother i hi]
  · rcases List.mem_append.1 (hperm'.mem_iff.1 hx) with hx | hx
    · exact hpos x hx
    · exact hc.pos x (hperm.mem_iff.2 (List.mem_append_right _ hx))

/-- A change of an item in a leaf. -/
theorem changed_leaf {n n' : WrsNode (Item α 0)} (hs : Sound 0 n) (holds : part 0 n b = olds)
    {x : Option α} (hnews : news = (x.map fun x => (x, n'.weights b)).toList)
    (hpos : ∀ x ∈ news, 0 < x.2) (hn : Counted n n' b olds news)
    (hitems : n'.items = Function.update n.items b x) : Changed 0 n n' b olds news := by
  have hother : ∀ i, i ≠ b → part 0 n' i = part 0 n i := by
    intro i hi
    rw [part, part, hitems, hn.weights, Function.update_of_ne hi, Function.update_of_ne hi]
  have hpart : part 0 n' b = news := by
    rw [part, hitems, Function.update_self, hnews]
  obtain ⟨hcached, hperm⟩ := hs.cached.change hn hother (by rw [holds, List.append_nil])
    (by rw [hpart, List.append_nil]) hpos
  refine ⟨hcached, b.isLt, hperm, ?_, ?_, fun j hj hne => ?_⟩
  · rw [find_leaf, holds]
  · rw [find_leaf, hpart]
  · have hne : (⟨j, hj⟩ : Fin 8) ≠ b := fun h => hne (congrArg Fin.val h)
    rw [show j = ((⟨j, hj⟩ : Fin 8) : ℕ) from rfl, find_leaf, find_leaf, hother _ hne]

/-- A change below a branch is a change of the node. -/
theorem Changed.lift {n n' : WrsNode (Item α (l + 1))} {sub sub' : WrsNode (Item α l)}
    (hs : Sound (l + 1) n)
    (hsub : n.items b = some sub ∨ n.items b = none ∧ sub = .empty (8 ^ (l + 1)))
    (hch : Changed l sub sub' idx olds news) (hn : Counted n n' b olds news)
    (hitems : n'.items = Function.update n.items b (some sub')) :
    Changed (l + 1) n n' (8 ^ (l + 1) * b + idx) olds news := by
  obtain ⟨r, hr, hr'⟩ := hch.perm
  have hb : part (l + 1) n b = below l sub ∧
      ∀ j, ((n.items b).bind fun sub => find l sub j) = find l sub j := by
    rcases hsub with hsub | ⟨hsub, rfl⟩
    · rw [part, hsub]
      exact ⟨rfl, fun _ => rfl⟩
    · rw [part, hsub, below_empty]
      exact ⟨rfl, fun j => (find_empty l _ j).symm⟩
  have hother : ∀ i, i ≠ b → part (l + 1) n' i = part (l + 1) n i := by
    intro i hi
    rw [part, part, hitems, Function.update_of_ne hi]
  have hb' : part (l + 1) n' b = below l sub' := by
    rw [part, hitems, Function.update_self]
    rfl
  have hpos : ∀ x ∈ news, 0 < x.2 := fun x hx =>
    hch.sound.cached.pos x (hr'.mem_iff.2 (List.mem_append_left _ hx))
  obtain ⟨hcached, hperm⟩ := hs.cached.change hn hother (by rwa [hb.1]) (by rwa [hb']) hpos
  have hpow : 8 ^ (l + 2) = 8 * 8 ^ (l + 1) := by ring
  have hbc : 8 ^ (l + 1) * b.val ≤ 8 ^ (l + 1) * 7 := Nat.mul_le_mul_left _ (by omega)
  have hlt := hch.lt
  refine ⟨⟨hcached, fun j sub₁ hj => ?_⟩, ?_, hperm, ?_, ?_, fun j hj hne => ?_⟩
  · rw [hitems] at hj
    by_cases hjb : j = b
    · subst hjb
      rw [Function.update_self] at hj
      cases hj
      exact hch.sound
    · rw [Function.update_of_ne hjb] at hj
      exact hs.2 j sub₁ hj
  · rw [hpow]
    omega
  · rw [find_index hs.cached.maxItems b hlt, hb.2, hch.old]
  · rw [find_index hcached.maxItems b hlt, hitems, Function.update_self]
    exact hch.new
  · rw [hpow] at hj
    obtain ⟨b', j', rfl, hj'⟩ := exists_index hj
    rw [find_index hs.cached.maxItems b' hj', find_index hcached.maxItems b' hj', hitems]
    by_cases hbb : b' = b
    · subst hbb
      rw [Function.update_self, hb.2]
      exact hch.others j' hj' fun h => hne (by rw [h])
    · rw [Function.update_of_ne hbb]

/-! ## The calls of a node -/

theorem Sound.sub_of_free {n : WrsNode (Item α (l + 1))} (hs : Sound (l + 1) n)
    (hfree : ((n.items b).any fun sub => sub.itemCnt = sub.maxItems) = false) :
    ∃ sub, (n.items b).getD (.empty (n.maxItems / 8)) = sub ∧
      (n.items b = some sub ∨ n.items b = none ∧ sub = .empty (8 ^ (l + 1))) ∧ Sound l sub ∧
      sub.itemCnt < sub.maxItems := by
  rcases hitem : n.items b with _ | sub
  · refine ⟨.empty (8 ^ (l + 1)), ?_, .inr ⟨rfl, rfl⟩, sound_empty l,
      Int.natCast_pos.2 (Nat.pow_pos (by decide))⟩
    rw [hs.cached.maxItems, pow_succ, Nat.mul_div_cancel _ (by decide)]
    rfl
  · have hsub := hs.2 b sub hitem
    rw [hitem] at hfree
    have hne : sub.itemCnt ≠ sub.maxItems := by simpa using hfree
    refine ⟨sub, rfl, .inl rfl, hsub, lt_of_le_of_ne ?_ hne⟩
    rw [hsub.cached.itemCnt, hsub.cached.maxItems]
    exact Int.ofNat_le.2 hsub.length_le

/-- **`insert` finds a free place.** -/
theorem insert_changed (hs : Sound l n) (hroom : n.itemCnt < n.maxItems) (item : α) (hw : 0 < w) :
    ∃ n' idx, insert l n item w = some (n', idx) ∧ Changed l n n' idx [] [(item, w)] := by
  have hd : total [(item, w)] - total ([] : List (α × ℤ)) = w := by simp [weigh]
  induction l with
  | zero =>
    rw [hs.cached.itemCnt, hs.cached.maxItems, below_eq, Nat.cast_lt] at hroom
    obtain ⟨b, hb, hfree⟩ := exists_freeBranch (c := 1)
      (fun i (hi : (n.items i).isSome = true) => by
        obtain ⟨x, hx⟩ := Option.isSome_iff_exists.1 hi
        rw [part, hx]
        rfl) hroom
    have hnone : n.items b = none := by simpa using hfree
    have hold : part 0 n b = [] := by rw [part, hnone]; rfl
    have hweight : n.weights b = 0 := by rw [hs.cached.weights, hold]; rfl
    rw [insert, hb]
    refine ⟨_, _, rfl, changed_leaf (x := some item) hs hold ?_ (by simpa using hw)
      ⟨rfl, by simp, by rw [hd], by rw [hd]⟩ rfl⟩
    dsimp only
    rw [Function.update_self, hweight, zero_add]
    rfl
  | succ l ih =>
    have hlen := hroom
    rw [hs.cached.itemCnt, hs.cached.maxItems, below_eq, Nat.cast_lt, pow_succ, mul_comm] at hlen
    obtain ⟨b, hb, hfree⟩ := exists_freeBranch
      (fun i (hi : ((n.items i).any fun sub => sub.itemCnt = sub.maxItems) = true) => by
        obtain ⟨sub, hsub, hfull⟩ := (Option.any_eq_true _ _).1 hi
        have hc := (hs.2 i sub hsub).cached
        rw [decide_eq_true_iff, hc.itemCnt, hc.maxItems, Nat.cast_inj] at hfull
        rw [part, hsub]
        exact hfull) hlen
    obtain ⟨sub, hget, hcase, hsound, hsubroom⟩ := hs.sub_of_free hfree
    obtain ⟨sub', idx, hins, hch⟩ := ih hsound hsubroom
    rw [insert, hb]
    dsimp only [bind, Option.bind]
    rw [hget, hins]
    dsimp only
    rw [hch.sound.cached.maxItems]
    exact ⟨_, _, rfl, hch.lift hs hcase ⟨rfl, by simp, by rw [hd], by rw [hd]⟩ rfl⟩

theorem total_entry (item : α) (w : ℤ) : total (entry item w) = w := by
  rw [entry]
  split_ifs with hw
  · exact hw.symm
  · simp [weigh]

theorem entry_pos (hw : 0 ≤ w) : ∀ x ∈ entry item w, 0 < x.2 := by
  rw [entry]
  split_ifs with hw0
  · simp
  · simpa using lt_of_le_of_ne hw (Ne.symm hw0)

/-- **`setWeight` changes the item of its index.** -/
theorem setWeight_changed (hs : Sound l n) (hidx : idx < 8 ^ (l + 1)) {old : ℤ}
    (hfind : find l n idx = some (item, old)) (hw : 0 ≤ w) :
    ∃ n', setWeight l n idx w = some (n', w - old) ∧
      Changed l n n' idx [(item, old)] (entry item w) := by
  have hd : total (entry item w) - total [(item, old)] = w - old := by
    rw [total_entry, total_cons]
    simp [weigh]
  have hcnt : ∀ c : ℤ, (if w = 0 then c - 1 else c) + [(item, old)].length =
      c + (entry item w).length := by
    intro c
    rw [entry]
    split_ifs <;> simp
  induction l generalizing idx with
  | zero =>
    obtain ⟨b, rfl⟩ : ∃ b : Fin 8, idx = b := ⟨⟨idx, hidx⟩, rfl⟩
    rw [find_leaf] at hfind
    have hitem : n.items b = some item ∧ n.weights b = old := by
      rw [part] at hfind
      rcases hi : n.items b with _ | x
      · rw [hi] at hfind
        cases hfind
      · rw [hi] at hfind
        cases hfind
        exact ⟨rfl, rfl⟩
    have hold : part 0 n b = [(item, old)] := by
      rw [part, hitem.1, hitem.2]
      rfl
    rw [setWeight, slotOf_val]
    dsimp only [bind, Option.bind]
    rw [hitem.2]
    refine ⟨_, rfl, ?_⟩
    refine changed_leaf (x := if w = 0 then none else some item) hs hold ?_ (entry_pos hw)
      ⟨rfl, hcnt _, by rw [hd], ?_⟩ ?_
    · dsimp only
      rw [entry, Function.update_self]
      split_ifs <;> rfl
    · rw [hd, hitem.2, add_sub_cancel]
    · dsimp only
      split_ifs
      · rfl
      · rw [← hitem.1, Function.update_eq_self]
  | succ l ih =>
    have hmax := hs.cached.maxItems
    have hpow : 8 ^ (l + 2) = 8 * 8 ^ (l + 1) := by ring
    rw [hpow] at hidx
    obtain ⟨b, i, rfl, hi⟩ := exists_index hidx
    rw [find_index hmax b hi] at hfind
    obtain ⟨sub, hsub, hfind⟩ := Option.bind_eq_some_iff.1 hfind
    obtain ⟨sub', hset, hch⟩ := ih (hs.2 b sub hsub) hi hfind
    rw [setWeight, branchOf_index (hmax.trans hpow) b hi]
    dsimp only [bind, Option.bind]
    rw [hsub]
    dsimp only
    rw [hset]
    exact ⟨_, rfl, hch.lift hs (.inl hsub) ⟨rfl, hcnt _, by rw [hd], by rw [hd]⟩ rfl⟩

/-! ## The choice -/

/-- The item a value stands for, when the items are laid end to end. -/
def walk : List (α × ℤ) → ℤ → Option (α × ℤ)
  | [], _ => none
  | x :: xs, val => if val < x.2 then some x else walk xs (val - x.2)

theorem walk_append {val : ℤ} (hxs : ∀ x ∈ xs, 0 < x.2) (h0 : 0 ≤ val) : walk (xs ++ ys) val =
    if val < total xs then walk xs val else walk ys (val - total xs) := by
  induction xs generalizing val with
  | nil =>
    rw [if_neg (by simpa [weigh] using h0)]
    simp [weigh]
  | cons x xs ih =>
    have htail : ∀ y ∈ xs, 0 < y.2 := fun y hy => hxs y (.tail _ hy)
    have hnonneg := total_nonneg htail
    rw [List.cons_append, walk, walk, total_cons]
    by_cases hx : val < x.2
    · rw [if_pos hx, if_pos (by omega), if_pos hx]
    · rw [if_neg hx, ih htail (by omega)]
      by_cases hval : val - x.2 < total xs
      · rw [if_pos hval, if_pos (by omega), if_neg hx]
      · rw [if_neg hval, if_neg (by omega), ← sub_sub]

theorem pick_bounds {weights : Fin 8 → ℤ} {is : List (Fin 8)} {val v : ℤ} {i : Fin 8}
    (h0 : 0 ≤ val) (h : pick weights is val = some (i, v)) : 0 ≤ v ∧ v < weights i := by
  induction is generalizing val with
  | nil => cases h
  | cons j is ih =>
    rw [pick] at h
    split_ifs at h with hval
    · cases h
      exact ⟨h0, hval⟩
    · exact ih (by omega) h

theorem walk_flatMap {weights : Fin 8 → ℤ} {f : Fin 8 → List (α × ℤ)}
    (hf : ∀ i, weights i = total (f i)) (hpos : ∀ i, ∀ x ∈ f i, 0 < x.2) (is : List (Fin 8))
    {val : ℤ} (h0 : 0 ≤ val) :
    walk (is.flatMap f) val = (pick weights is val).bind fun r => walk (f r.1) r.2 := by
  induction is generalizing val with
  | nil => rfl
  | cons i is ih =>
    rw [List.flatMap_cons, walk_append (hpos i) h0, pick, hf]
    by_cases hval : val < total (f i)
    · rw [if_pos hval, if_pos hval]
      rfl
    · rw [if_neg hval, if_neg hval, ih (by omega)]

theorem choose_eq_walk (hs : Sound l n) {val : ℤ} (h0 : 0 ≤ val) :
    choose l n val = walk (below l n) val := by
  have hwalk := walk_flatMap hs.cached.weights hs.cached.part_pos (List.finRange 8) h0
  rw [← below_eq] at hwalk
  rw [hwalk]
  induction l generalizing val with
  | zero =>
    rw [choose]
    rcases hpick : pick n.weights (List.finRange 8) val with _ | ⟨i, v⟩
    · rfl
    · obtain ⟨-, hv⟩ := pick_bounds h0 hpick
      change ((n.items i).bind fun x => some (x, n.weights i)) = walk (part 0 n i) v
      rw [part]
      cases n.items i with
      | none => rfl
      | some x => exact (if_pos hv).symm
  | succ l ih =>
    rw [choose]
    rcases hpick : pick n.weights (List.finRange 8) val with _ | ⟨i, v⟩
    · rfl
    · obtain ⟨hv0, -⟩ := pick_bounds h0 hpick
      change ((n.items i).bind fun sub => choose l sub v) = walk (part (l + 1) n i) v
      rw [part]
      rcases hi : n.items i with _ | sub
      · rfl
      · have hsub := hs.2 i sub hi
        have hwalk := walk_flatMap hsub.cached.weights hsub.cached.part_pos (List.finRange 8) hv0
        rw [← below_eq] at hwalk
        exact (ih hsub hv0 hwalk).trans hwalk.symm

theorem count_walk (p : α → Bool) (hxs : ∀ x ∈ xs, 0 < x.2) :
    ((List.range (total xs).toNat).countP fun v : ℕ => (walk xs v).any fun x => p x.1) =
      weigh p xs := by
  induction xs with
  | nil => rfl
  | cons x xs ih =>
    have hx := hxs x (.head _)
    have htail : ∀ y ∈ xs, 0 < y.2 := fun y hy => hxs y (.tail _ hy)
    have hnonneg := total_nonneg htail
    have hsplit : (total (x :: xs)).toNat = x.2.toNat + (total xs).toNat := by
      rw [total_cons]
      omega
    have hfirst : ((List.range x.2.toNat).countP fun v : ℕ =>
        (walk (x :: xs) v).any fun y => p y.1) = if p x.1 then x.2.toNat else 0 := by
      rw [List.countP_congr (q := fun _ => p x.1) fun v hv => ?_]
      · cases p x.1 <;> simp
      · rw [walk, if_pos (by have := List.mem_range.1 hv; omega)]
        rfl
    have hrest : (((List.range (total xs).toNat).map fun v => x.2.toNat + v).countP fun v : ℕ =>
        (walk (x :: xs) v).any fun y => p y.1) =
        (List.range (total xs).toNat).countP fun v : ℕ => (walk xs v).any fun y => p y.1 := by
      rw [List.countP_map]
      refine List.countP_congr fun v _ => ?_
      have hv : ((x.2.toNat + v : ℕ) : ℤ) - x.2 = v := by omega
      rw [Function.comp_apply, walk, if_neg (by omega), hv]
    rw [hsplit, List.range_add, List.countP_append, hfirst, hrest, Nat.cast_add, ih htail]
    change _ = (if p x.1 then x.2 else 0) + weigh p xs
    split_ifs
    · omega
    · rfl

theorem walk_isSome (hxs : ∀ x ∈ xs, 0 < x.2) {val : ℤ} (h0 : 0 ≤ val) (hval : val < total xs) :
    ∃ x ∈ xs, walk xs val = some x := by
  induction xs generalizing val with
  | nil => exact absurd hval (by simpa [weigh] using h0)
  | cons x xs ih =>
    rw [walk]
    split_ifs with hx
    · exact ⟨x, .head _, rfl⟩
    · rw [total_cons] at hval
      obtain ⟨y, hy, hwalk⟩ := @ih (fun y hy => hxs y (.tail _ hy)) (val - x.2) (by omega)
        (by omega)
      exact ⟨y, .tail _ hy, hwalk⟩

/-! ## Runs -/

/-- The tree has the items, and their indices lead to them. -/
structure Inv (s : Select α) (xs : List (α × ℤ)) : Prop where
  sound : Sound s.level s.root
  perm : (below s.level s.root).Perm xs
  nodup : (xs.map Prod.fst).Nodup
  absent : ∀ x, s.idx x = none → x ∉ xs.map Prod.fst
  present : ∀ x i, s.idx x = some i → i < 8 ^ (s.level + 1) ∧
    ∃ w, (x, w) ∈ xs ∧ find s.level s.root i = some (x, w)

theorem inv_new : Inv (.new : Select α) [] where
  sound := sound_empty 0
  perm := by rw [Select.new, below_empty]
  nodup := List.nodup_nil
  absent x _ := by simp
  present x i h := by cases h

theorem Inv.grow {s : Select α} (hi : Inv s xs) : Inv s.grow xs := by
  have hroot := hi.sound.cached
  have hpart : ∀ i, part (s.level + 1) s.grow.root i =
      if i = 0 then below s.level s.root else [] := by
    intro i
    change ((Function.update (fun _ => none) 0 (some s.root) i).map _).getD [] = _
    rw [Function.update_apply]
    split_ifs <;> rfl
  have hbelow : (below (s.level + 1) s.grow.root).Perm (below s.level s.root) := by
    obtain ⟨rest, hrest⟩ := flatMap_split 0 fun _ => ([] : List (α × ℤ))
    have hnil := hrest (fun _ => []) fun _ _ => rfl
    rw [List.flatMap_eq_nil_iff.2 fun _ _ => rfl, List.nil_append, List.nil_perm] at hnil
    have h := hrest (part (s.level + 1) s.grow.root) fun i h => by rw [hpart, if_neg h]
    rw [hnil, List.append_nil, hpart, if_pos rfl] at h
    exact h
  have hcached : Cached (s.level + 1) s.grow.root := by
    refine ⟨?_, ?_, ?_, fun i => ?_, fun x hx => hroot.pos x (hbelow.mem_iff.1 hx)⟩
    · change s.root.maxItems * 8 = _
      rw [hroot.maxItems]
      ring
    · rw [hbelow.length_eq]
      exact hroot.itemCnt
    · rw [total_perm hbelow]
      exact hroot.sumWeight
    · rw [hpart]
      change Function.update (fun _ => (0 : ℤ)) 0 s.root.sumWeight i = _
      rw [Function.update_apply]
      split_ifs
      · exact hroot.sumWeight
      · rfl
  refine ⟨⟨hcached, fun i sub h => ?_⟩, hbelow.trans hi.perm, hi.nodup, hi.absent, ?_⟩
  · change Function.update (fun _ => none) 0 (some s.root) i = some sub at h
    rw [Function.update_apply] at h
    split_ifs at h
    cases h
    exact hi.sound
  · intro x i hx
    obtain ⟨hlt, w, hw, hfind⟩ := hi.present x i hx
    refine ⟨hlt.trans_le (Nat.pow_le_pow_right (by decide) (Nat.le_succ _)), w, hw, ?_⟩
    have h := find_index hcached.maxItems 0 hlt
    rw [Fin.val_zero, mul_zero, zero_add] at h
    exact h.trans hfind

section
variable [DecidableEq α]

theorem filter_of_absent {x : α} (hx : x ∉ xs.map Prod.fst) :
    (xs.filter fun y => y.1 ≠ x) = xs := by
  refine List.filter_eq_self.2 fun y hy => ?_
  have hne : y.1 ≠ x := by
    rintro rfl
    exact hx (List.mem_map_of_mem hy)
  simpa using hne

theorem perm_filter {x : α} {w : ℤ} (hnodup : (xs.map Prod.fst).Nodup) (hx : (x, w) ∈ xs) :
    xs.Perm ((x, w) :: xs.filter fun y => y.1 ≠ x) := by
  obtain ⟨l₁, l₂, rfl⟩ := List.append_of_mem hx
  rw [List.map_append, List.map_cons, List.nodup_middle, List.nodup_cons,
    ← List.map_append] at hnodup
  have hfilter := filter_of_absent hnodup.1
  rw [List.filter_append, List.filter_cons_of_neg (by simp), ← List.filter_append, hfilter]
  exact List.perm_middle

theorem mem_set {x y : α} {w : ℤ} : y ∈ (entry x w ++ xs.filter fun z => z.1 ≠ x).map Prod.fst ↔
    y = x ∧ w ≠ 0 ∨ y ≠ x ∧ y ∈ xs.map Prod.fst := by
  have hfilter : y ∈ (xs.filter fun z => z.1 ≠ x).map Prod.fst ↔ y ≠ x ∧ y ∈ xs.map Prod.fst := by
    simp only [List.mem_map, List.mem_filter, decide_eq_true_eq]
    constructor
    · rintro ⟨z, ⟨hz, hne⟩, rfl⟩
      exact ⟨hne, z, hz, rfl⟩
    · rintro ⟨hne, z, hz, rfl⟩
      exact ⟨z, ⟨hz, hne⟩, rfl⟩
  rw [List.map_append, List.mem_append, hfilter, entry]
  split_ifs with hw <;> simp [hw]

theorem nodup_set (h : (xs.map Prod.fst).Nodup) (x : α) (w : ℤ) :
    ((entry x w ++ xs.filter fun y => y.1 ≠ x).map Prod.fst).Nodup := by
  have hfilter : ((xs.filter fun y => y.1 ≠ x).map Prod.fst).Nodup :=
    h.sublist (List.filter_sublist.map _)
  rw [entry]
  split_ifs with hw
  · exact hfilter
  · rw [List.singleton_append, List.map_cons, List.nodup_cons]
    refine ⟨fun hmem => ?_, hfilter⟩
    obtain ⟨y, hy, heq⟩ := List.mem_map.1 hmem
    have hne := (List.mem_filter.1 hy).2
    simp [heq] at hne

variable {s : Select α} {x : α} {w : ℤ}

/-- What one place of the tree and the index of one item become. -/
theorem Inv.change (hi : Inv s xs) {root : WrsNode (Item α s.level)} {i : ℕ}
    (hch : Changed s.level s.root root i olds (entry x w)) (holds : ∀ y ∈ olds, y.1 = x)
    (hperm : xs.Perm (olds ++ xs.filter fun y => y.1 ≠ x)) {idx : α → Option ℕ}
    (hx : idx x = if w = 0 then none else some i) (hidx : ∀ y, y ≠ x → idx y = s.idx y) :
    Inv ⟨s.level, root, idx⟩ (entry x w ++ xs.filter fun y => y.1 ≠ x) := by
  obtain ⟨rest, hrest, hrest'⟩ := hch.perm
  have hfilter : rest.Perm (xs.filter fun y => y.1 ≠ x) :=
    (List.perm_append_left_iff olds).1 (hrest.symm.trans (hi.perm.trans hperm))
  refine ⟨hch.sound, hrest'.trans (hfilter.append_left _), nodup_set hi.nodup x w, ?_, ?_⟩
  · intro y hy hmem
    dsimp only at hy
    rcases mem_set.1 hmem with ⟨rfl, hw⟩ | ⟨hne, hmem⟩
    · rw [hx, if_neg hw] at hy
      cases hy
    · rw [hidx y hne] at hy
      exact hi.absent y hy hmem
  · intro y j hy
    dsimp only at hy ⊢
    by_cases hyx : y = x
    · subst hyx
      rw [hx] at hy
      split_ifs at hy with hw
      cases hy
      refine ⟨hch.lt, w, ?_, ?_⟩
      · rw [entry, if_neg hw]
        exact .head _
      · rw [hch.new, entry, if_neg hw]
        rfl
    · rw [hidx y hyx] at hy
      obtain ⟨hjlt, v, hv, hjfind⟩ := hi.present y j hy
      have hne : j ≠ i := by
        rintro rfl
        rw [hch.old] at hjfind
        exact hyx (holds _ (List.mem_of_mem_head? hjfind))
      refine ⟨hjlt, v, ?_, (hch.others j hjlt hne).trans hjfind⟩
      exact List.mem_append_right _ (List.mem_filter.2 ⟨hv, by simpa using hyx⟩)

/-- **One call.** -/
theorem Inv.step (hi : Inv s xs) (x : α) (hw : 0 ≤ w) :
    ∃ s', s.setWeight x w = some s' ∧ Inv s' (entry x w ++ xs.filter fun y => y.1 ≠ x) := by
  rcases hx : s.idx x with _ | i
  · rw [Select.setWeight, hx]
    dsimp only
    have habsent := filter_of_absent (hi.absent x hx)
    by_cases hw0 : w = 0
    · rw [if_neg (not_not.2 hw0), habsent, entry, if_pos hw0]
      exact ⟨s, rfl, hi⟩
    rw [if_pos hw0]
    have hpos : 0 < w := lt_of_le_of_ne hw (Ne.symm hw0)
    -- there is room, if need be in a new level
    obtain ⟨s', hs', hi', hx', hroom⟩ : ∃ s' : Select α,
        (if s.root.itemCnt = s.root.maxItems then s.grow else s) = s' ∧ Inv s' xs ∧
        s'.idx x = none ∧ s'.root.itemCnt < s'.root.maxItems := by
      by_cases hfull : s.root.itemCnt = s.root.maxItems
      · refine ⟨s.grow, if_pos hfull, hi.grow, hx, ?_⟩
        change s.root.itemCnt < ((s.root.maxItems * 8 : ℕ) : ℤ)
        have hmax : 0 < s.root.maxItems := by
          rw [hi.sound.cached.maxItems]
          exact Nat.pow_pos (by decide)
        omega
      · refine ⟨s, if_neg hfull, hi, hx, lt_of_le_of_ne ?_ hfull⟩
        rw [hi.sound.cached.maxItems, hi.sound.cached.itemCnt]
        exact Int.ofNat_le.2 hi.sound.length_le
    obtain ⟨root, i, hins, hch⟩ := insert_changed hi'.sound hroom x hpos
    have hentry : entry x w = [(x, w)] := if_neg hw0
    rw [← hentry] at hch
    rw [hs', hins]
    refine ⟨_, rfl, hi'.change hch (by simp) ?_ ?_ fun y hy => Function.update_of_ne hy _ _⟩
    · rw [habsent, List.nil_append]
    · rw [Function.update_self, if_neg hw0]
  · obtain ⟨hlt, old, hold, hfind⟩ := hi.present x i hx
    obtain ⟨root, hset, hch⟩ := setWeight_changed hi.sound hlt hfind hw
    rw [Select.setWeight, hx]
    dsimp only
    rw [hset]
    refine ⟨_, rfl, hi.change hch (by simp) (perm_filter hi.nodup hold) ?_ fun y hy => ?_⟩
    · split_ifs with hw0
      · exact Function.update_self ..
      · exact hx
    · split_ifs with hw0
      · exact Function.update_of_ne hy ..
      · rfl

theorem contents_concat (ops : List (Op α)) (op : Op α) : contents (ops ++ [op]) =
    entry op.item op.weight ++ (contents ops).filter fun y => y.1 ≠ op.item := by
  rw [contents, List.foldl_append]
  rfl

theorem run_inv (ops : List (Op α)) (hw : ∀ op ∈ ops, 0 ≤ op.weight) :
    ∃ s, Select.run ops = some s ∧ Inv s (contents ops) := by
  induction ops using List.reverseRecOn with
  | nil => exact ⟨.new, rfl, inv_new⟩
  | append_singleton ops op ih =>
    obtain ⟨s, hrun, hi⟩ := ih fun o ho => hw o (List.mem_append_left _ ho)
    obtain ⟨s', hstep, hi'⟩ := hi.step op.item (hw op (by simp))
    rw [contents_concat]
    refine ⟨s', ?_, hi'⟩
    rw [Select.run, List.foldlM_append]
    change (Select.run ops).bind _ = some s'
    rw [hrun]
    simp [hstep]

/-- **Numbers fit in 64 bits** before and in a call, if the sums of the weights do. -/
theorem run_fits (ops : List (Op α)) (op : Op α) (hw : ∀ o ∈ ops ++ [op], 0 ≤ o.weight)
    (hsum : total (contents ops) < 2 ^ 63) (hsum' : total (contents (ops ++ [op])) < 2 ^ 63) :
    ∃ s, Select.run ops = some s ∧ Fits s.level s.root ∧ ∀ i, s.idx op.item = some i →
      ∃ root d, Les.setWeight s.level s.root i op.weight = some (root, d) ∧ InInt64 d := by
  obtain ⟨s, hrun, hi⟩ := run_inv ops fun o ho => hw o (List.mem_append_left _ ho)
  have hop := hw op (by simp)
  have hroot := hi.sound.cached
  rw [← total_perm hi.perm, ← hroot.sumWeight] at hsum
  refine ⟨s, hrun, hi.sound.fits hsum, fun i hidx => ?_⟩
  obtain ⟨hlt, old, hold, hfind⟩ := hi.present op.item i hidx
  obtain ⟨root, hset, -⟩ := setWeight_changed hi.sound hlt hfind hop
  refine ⟨root, _, hset, ?_⟩
  have hpos : ∀ x ∈ contents ops, 0 < x.2 := fun x hx => hroot.pos x (hi.perm.mem_iff.2 hx)
  have hrest := total_nonneg fun x (hx : x ∈ (contents ops).filter fun y => y.1 ≠ op.item) =>
    hpos x (List.mem_of_mem_filter hx)
  -- the old weight is part of the old sum, and the new one of the new sum
  rw [hroot.sumWeight, total_perm hi.perm, total_perm (perm_filter hi.nodup hold),
    total_cons] at hsum
  rw [contents_concat, total_append, total_entry] at hsum'
  have hold := hpos _ hold
  constructor <;> omega

/-- **Weighted random selection.**  After any calls with weights that are not negative, no
    call has panicked and every node is right.  The items in the tree are those of the
    calls, with their weights, and the index of each leads to it.  Of the values below the
    sum, as many choose an item as it weighs. -/
theorem select_run (ops : List (Op α)) (hw : ∀ op ∈ ops, 0 ≤ op.weight) :
    ∃ s, Select.run ops = some s ∧ Sound s.level s.root ∧
      (below s.level s.root).Perm (contents ops) ∧
      (∀ x w, (x, w) ∈ contents ops ↔
        ∃ i, s.idx x = some i ∧ find s.level s.root i = some (x, w)) ∧
      (∀ v, 0 ≤ v → v < s.root.sumWeight →
        ∃ x ∈ contents ops, choose s.level s.root v = some x) ∧
      ∀ x, ((List.range s.root.sumWeight.toNat).countP fun v : ℕ =>
          (choose s.level s.root v).any fun y => y.1 = x) =
        weigh (fun y => y = x) (contents ops) := by
  obtain ⟨s, hrun, hi⟩ := run_inv ops hw
  refine ⟨s, hrun, hi.sound, hi.perm, fun x w => ⟨fun hx => ?_, ?_⟩, fun v h0 hv => ?_, fun x => ?_⟩
  · rcases hidx : s.idx x with _ | i
    · exact absurd (List.mem_map_of_mem hx) (hi.absent x hidx)
    · obtain ⟨-, w', hw', hfind⟩ := hi.present x i hidx
      have heq : (x, w) = (x, w') := List.inj_on_of_nodup_map hi.nodup hx hw' rfl
      exact ⟨i, rfl, by rw [hfind, heq]⟩
  · rintro ⟨i, hidx, hfind⟩
    obtain ⟨-, w', hw', hfind'⟩ := hi.present x i hidx
    rw [hfind] at hfind'
    cases hfind'
    exact hw'
  · rw [hi.sound.cached.sumWeight] at hv
    obtain ⟨x, hx, hwalk⟩ := walk_isSome hi.sound.cached.pos h0 hv
    exact ⟨x, hi.perm.mem_iff.1 hx, (choose_eq_walk hi.sound h0).trans hwalk⟩
  · rw [hi.sound.cached.sumWeight, ← weigh_perm hi.perm, ← count_walk _ hi.sound.cached.pos]
    congr 2
    funext v
    rw [choose_eq_walk hi.sound (Int.natCast_nonneg v)]

/-- Two items, one of which changes its weight and is removed. -/
theorem select_run_two : ∃ s, Select.run [.update 0 3, .update 1 2, .update 0 1, .remove (0 : ℕ)] =
    some s ∧ s.root.sumWeight = 2 := by
  obtain ⟨s, hrun, hsound, hperm, -⟩ := select_run
    [.update 0 3, .update 1 2, .update 0 1, .remove (0 : ℕ)] (by decide)
  refine ⟨s, hrun, ?_⟩
  rw [hsound.cached.sumWeight, total_perm hperm]
  decide

end

end GoEthereum.Les
