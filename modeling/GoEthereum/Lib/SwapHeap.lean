/-
  Heaps behind an interface.

  A heap of this kind reaches its elements by position, through a comparison and an exchange of
  two positions, and grows and shrinks at its end; any of these may fail.  `up` and `down` move
  the element at one position to where it belongs.  A state `Presents` a list when the
  interface does on the state what it says of the list; then the operations of the heap do not
  fail and rearrange the list, and into a heap if the comparison is that of a key.  A slice
  presents itself, which gives the operations of Lib/MinHeap.lean (`HeapFns.slices`,
  `QueueFns.slices`).
-/
import Mathlib.Logic.Equiv.Basic
import Mathlib.Order.WithBot
import GoEthereum.Lib.MinHeap

structure HeapInterface (σ α : Type) where
  len : σ → ℕ
  less : σ → ℕ → ℕ → Option Bool
  swap : σ → ℕ → ℕ → Option σ
  push : σ → α → Option σ
  pop : σ → Option (Option α × σ)

namespace HeapInterface

variable {σ α K : Type} (h : HeapInterface σ α)

/-- Exchanges an element with its parent for as long as it is the lesser of the two. -/
def up (s : σ) (j : ℕ) : Option σ :=
  if hj : (j - 1) / 2 = j then some s
  else do
    if ← h.less s j ((j - 1) / 2) then up (← h.swap s ((j - 1) / 2) j) ((j - 1) / 2) else some s
termination_by j

/-- Whether the right child is the lesser one of the children. -/
def right (n : ℕ) (s : σ) (i : ℕ) : Option Bool :=
  if 2 * i + 2 < n then h.less s (2 * i + 2) (2 * i + 1) else some false

/-- Exchanges an element with the least of its children for as long as that is the lesser of
    the two, among the first `n` positions.  The position it ends at is returned. -/
def down (n : ℕ) (s : σ) (i : ℕ) : Option (σ × ℕ) :=
  if hn : n ≤ 2 * i + 1 then some (s, i)
  else do
    let j := if ← h.right n s i then 2 * i + 2 else 2 * i + 1
    if ← h.less s j i then down n (← h.swap s i j) j else some (s, i)
termination_by n - i
decreasing_by split <;> omega

def heapPush (s : σ) (x : α) : Option σ := do
  let s ← h.push s x
  h.up s (h.len s - 1)

def heapPop (s : σ) : Option (Option α × σ) := do
  -- on an empty heap, the last position is -1 and the exchange fails
  if h.len s = 0 then none
  else
    let s ← h.swap s 0 (h.len s - 1)
    let (s, _) ← h.down (h.len s - 1) s 0
    h.pop s

/-- Puts the element that has come to position `i` in order. -/
def settle (n : ℕ) (s : σ) (i : ℕ) : Option σ := do
  let (s, k) ← h.down n s i
  if i < k then some s else h.up s i

def heapFix (s : σ) (i : ℕ) : Option σ := h.settle (h.len s) s i

def heapRemove (s : σ) (i : ℕ) : Option (Option α × σ) := do
  if h.len s - 1 = i then h.pop s
  else
    let s ← h.swap s i (h.len s - 1)
    let s ← h.settle (h.len s - 1) s i
    h.pop s

/-- The elements before `i`, the last one first, move down. -/
def initLoop (n : ℕ) : ℕ → σ → Option σ
  | 0, s => some s
  | i + 1, s => do
    let (s, _) ← h.down n s i
    initLoop n i s

def heapInit (s : σ) : Option σ := h.initLoop (h.len s) (h.len s / 2) s

/-! ## Order -/

section
variable {f g : ℕ → K} {lo i j k : ℕ}

theorem swapped_left : (f ∘ Equiv.swap i j) i = f j := by
  rw [Function.comp_apply, Equiv.swap_apply_left]

theorem swapped_right : (f ∘ Equiv.swap i j) j = f i := by
  rw [Function.comp_apply, Equiv.swap_apply_right]

theorem swapped_of_ne (hi : k ≠ i) (hj : k ≠ j) : (f ∘ Equiv.swap i j) k = f k := by
  rw [Function.comp_apply, Equiv.swap_apply_of_ne_of_ne hi hj]

variable [LinearOrder K]

/-- The value at `k` is not less than that of its parent. -/
def Ordered (f : ℕ → K) (k : ℕ) : Prop := f ((k - 1) / 2) ≤ f k

/-- The order of a heap below the positions from `lo` on. -/
def IsHeapFrom (lo : ℕ) (f : ℕ → K) : Prop := ∀ k, lo ≤ (k - 1) / 2 → Ordered f k

/-- The children of `i` are in order. -/
def Over (i : ℕ) (f : ℕ → K) : Prop := ∀ k, k ≠ i → (k - 1) / 2 = i → Ordered f k

/-- The order of a heap below the positions from `lo` on, but for the value at `i`. -/
structure Near (lo i : ℕ) (f : ℕ → K) : Prop where
  off : ∀ k, lo ≤ (k - 1) / 2 → k ≠ i → (k - 1) / 2 ≠ i → Ordered f k
  across : ∀ k, (k - 1) / 2 = i → 0 < i → lo ≤ (i - 1) / 2 → f ((i - 1) / 2) ≤ f k

theorem IsHeapFrom.near (hf : IsHeapFrom 0 f) (i : ℕ) : Near 0 i f where
  off k hk _ _ := hf k hk
  across k hk _ hi := (hf i hi).trans (hk ▸ hf k (Nat.zero_le _))

/-- What stands at `i` does not matter to the order around it. -/
theorem Near.congr (hf : Near lo i f) (hg : ∀ k, k ≠ i → g k = f k) : Near lo i g where
  off k hlo hki hpi := by
    rw [Ordered, hg k hki, hg _ hpi]
    exact hf.off k hlo hki hpi
  across k hki hi hlo := by
    rw [hg k (by omega), hg _ (by omega)]
    exact hf.across k hki hi hlo

theorem Near.isHeapFrom (hf : Near lo i f) (hi : lo ≤ (i - 1) / 2 → Ordered f i)
    (hchild : Over i f) : IsHeapFrom lo f := by
  intro k hlo
  by_cases hki : k = i
  · exact hki ▸ hi (hki ▸ hlo)
  · by_cases hpi : (k - 1) / 2 = i
    · exact hchild k hki hpi
    · exact hf.off k hlo hki hpi

/-- The value goes up: the place of its parent is the one that is left to look at. -/
theorem Near.up (hf : Near 0 j f) (hij : (j - 1) / 2 = i) (hne : i ≠ j) (hlt : f j < f i) :
    Near 0 i (f ∘ Equiv.swap i j) ∧ Over i (f ∘ Equiv.swap i j) := by
  have hsibling : ∀ k, k ≠ j → (k - 1) / 2 = i → f i ≤ f k := by
    intro k hkj hki
    have := hf.off k (Nat.zero_le _) hkj (hki ▸ hne)
    rwa [Ordered, hki] at this
  refine ⟨⟨fun k _ hki hpi => ?_, fun k hki hi _ => ?_⟩, fun k hki hpi => ?_⟩
  · have hkj : k ≠ j := fun h => hpi (h ▸ hij)
    rw [Ordered, swapped_of_ne hki hkj]
    by_cases hpj : (k - 1) / 2 = j
    · rw [hpj, swapped_right, ← hij]
      exact hf.across k hpj (by omega) (Nat.zero_le _)
    · rw [swapped_of_ne hpi hpj]
      exact hf.off k (Nat.zero_le _) hkj hpj
  · have hgrand := hf.off i (Nat.zero_le _) hne (by omega)
    rw [swapped_of_ne (by omega) (by omega)]
    by_cases hkj : k = j
    · rwa [hkj, swapped_right]
    · rw [swapped_of_ne (by omega) hkj]
      exact hgrand.trans (hsibling k hkj hki)
  · rw [Ordered, hpi, swapped_left]
    by_cases hkj : k = j
    · rw [hkj, swapped_right]
      exact hlt.le
    · rw [swapped_of_ne hki hkj]
      exact hlt.le.trans (hsibling k hkj hpi)

/-- The value goes down: the place of its least child is the one that is left to look at. -/
theorem Near.down (hf : Near lo i f) (hlo : lo ≤ i) (hji : (j - 1) / 2 = i) (hne : j ≠ i)
    (hlt : f j < f i) (hleast : ∀ k, k ≠ i → (k - 1) / 2 = i → f j ≤ f k) :
    Near lo j (f ∘ Equiv.swap i j) ∧ Ordered (f ∘ Equiv.swap i j) j := by
  refine ⟨⟨fun k hpk hkj hpj => ?_, fun k hkj _ _ => ?_⟩, ?_⟩
  · by_cases hki : k = i
    · subst hki
      rcases Nat.eq_zero_or_pos k with rfl | hpos
      · exact le_rfl
      · rw [Ordered, swapped_left, swapped_of_ne (by omega) (by omega)]
        exact hf.across j hji hpos hpk
    · rw [Ordered, swapped_of_ne hki hkj]
      by_cases hpi : (k - 1) / 2 = i
      · rw [hpi, swapped_left]
        exact hleast k hki hpi
      · rw [swapped_of_ne hpi hpj]
        exact hf.off k hpk hki hpi
  · rw [hji, swapped_left, swapped_of_ne (by omega) (by omega), ← hkj]
    exact hf.off k (by omega) (by omega) (by omega)
  · rw [Ordered, hji, swapped_left, swapped_right]
    exact hlt.le

end

/-! ## Lists as functions of positions -/

section
variable {key : α → K} {l l' : List α} {i j k : ℕ} {x y : α}

/-- The key at a position; there is none behind the end, which is above all others. -/
def keyAt (key : α → K) (l : List α) (k : ℕ) : WithTop K := l[k]?.map key

theorem keyAt_of_le (hk : l.length ≤ k) : keyAt key l k = ⊤ := by
  rw [keyAt, List.getElem?_eq_none hk]
  rfl

theorem getElem?_swap (hx : l[i]? = some x) (hy : l[j]? = some y) (k : ℕ) :
    ((l.set i y).set j x)[k]? = if k = j then some x else if k = i then some y else l[k]? := by
  obtain ⟨hi, -⟩ := List.getElem?_eq_some_iff.1 hx
  obtain ⟨hj, -⟩ := List.getElem?_eq_some_iff.1 hy
  rw [List.getElem?_set, List.getElem?_set, List.length_set, if_pos hi, if_pos hj]
  simp only [eq_comm]

theorem keyAt_swap (hx : l[i]? = some x) (hy : l[j]? = some y) :
    keyAt key ((l.set i y).set j x) = keyAt key l ∘ Equiv.swap i j := by
  funext k
  rw [keyAt, getElem?_swap hx hy, Function.comp_apply, keyAt, Equiv.swap_apply_def]
  by_cases hki : k = i
  · subst hki
    rw [if_pos rfl, if_pos rfl, hy]
    split_ifs with hkj
    · rw [← hx, hkj, hy]
    · rfl
  · rw [if_neg hki, if_neg hki]
    split_ifs with hkj
    · rw [hx]
    · rfl

theorem perm_swap (hx : l[i]? = some x) (hy : l[j]? = some y) :
    ((l.set i y).set j x).Perm l := by
  obtain ⟨hi, rfl⟩ := List.getElem?_eq_some_iff.1 hx
  obtain ⟨hj, rfl⟩ := List.getElem?_eq_some_iff.1 hy
  exact List.set_set_perm hi hj

variable [LinearOrder K]

theorem compare_eq {lt : α → α → Bool} (h : ComparesBy lt key l) (hx : l[i]? = some x)
    (hy : l[j]? = some y) : lt x y = decide (keyAt key l i < keyAt key l j) := by
  rw [Bool.eq_iff_iff, decide_eq_true_iff, keyAt, keyAt, hx, hy]
  exact (h x (List.mem_of_getElem? hx) y (List.mem_of_getElem? hy)).trans WithTop.coe_lt_coe.symm

theorem isHeap_iff : IsHeap key l ↔ IsHeapFrom 0 (keyAt key l) := by
  constructor
  · intro hl k _
    rcases hx : l[k]? with _ | x
    · rw [Ordered, keyAt, keyAt, hx]
      exact le_top
    · have hk := (List.getElem?_eq_some_iff.1 hx).1
      have hp := List.getElem?_eq_getElem (show (k - 1) / 2 < l.length by omega)
      rw [Ordered, keyAt, keyAt, hx, hp]
      rcases Nat.eq_zero_or_pos k with rfl | hpos
      · cases hx.symm.trans hp
        exact le_rfl
      · exact WithTop.coe_le_coe.2 (hl k x _ hpos hx hp)
  · intro hl k x p _ hx hp
    have := hl k (Nat.zero_le _)
    rw [Ordered, keyAt, keyAt, hx, hp] at this
    exact WithTop.coe_le_coe.1 this

end

/-! ## The two loops -/

/-- The state has the elements of a list, which are compared by `lt`. -/
structure Swaps (lt : α → α → Bool) (R : σ → List α → Prop) : Prop where
  less {s : σ} {l : List α} {i j : ℕ} {x y : α} : R s l → l[i]? = some x → l[j]? = some y →
    h.less s i j = some (lt x y)
  swap {s : σ} {l : List α} {i j : ℕ} {x y : α} : R s l → l[i]? = some x → l[j]? = some y →
    ∃ s', h.swap s i j = some s' ∧ R s' ((l.set i y).set j x)

variable {h} {lt : α → α → Bool} {R : σ → List α → Prop} {s : σ} {l : List α} {x : α}
  {lo i j : ℕ} [LinearOrder K] (key : α → K)

/-- Elements at the end are not touched. -/
theorem Swaps.append (hp : h.Swaps lt R) (r : List α) : h.Swaps lt fun s l => R s (l ++ r) where
  less {s l i j x y} hs hx hy := by
    have hi := (List.getElem?_eq_some_iff.1 hx).1
    have hj := (List.getElem?_eq_some_iff.1 hy).1
    exact hp.less hs ((List.getElem?_append_left hi).trans hx)
      ((List.getElem?_append_left hj).trans hy)
  swap {s l i j x y} hs hx hy := by
    have hi := (List.getElem?_eq_some_iff.1 hx).1
    have hj := (List.getElem?_eq_some_iff.1 hy).1
    have := hp.swap hs ((List.getElem?_append_left hi).trans hx)
      ((List.getElem?_append_left hj).trans hy)
    rwa [List.set_append_left _ _ hi, List.set_append_left _ _ (by rwa [List.length_set])] at this

theorem up_spec (hp : h.Swaps lt R) (hs : R s l) (hj : j < l.length) :
    ∃ s' l', h.up s j = some s' ∧ R s' l' ∧ l'.Perm l ∧
      (ComparesBy lt key l → Near 0 j (keyAt key l) → Over j (keyAt key l) → IsHeap key l') := by
  induction j using Nat.strongRecOn generalizing s l with
  | ind j ih =>
    rw [up]
    by_cases hroot : (j - 1) / 2 = j
    · rw [dif_pos hroot]
      refine ⟨s, l, rfl, hs, .refl _, fun _ hnear hover => isHeap_iff.2 (hnear.isHeapFrom ?_ hover)⟩
      rw [Ordered, hroot]
      exact fun _ => le_rfl
    · have hx := List.getElem?_eq_getElem hj
      have hy := List.getElem?_eq_getElem (show (j - 1) / 2 < l.length by omega)
      rw [dif_neg hroot, hp.less hs hx hy]
      dsimp only [bind, Option.bind]
      cases hlt : lt l[j] l[(j - 1) / 2] with
      | true =>
        obtain ⟨s₁, hswap, hs₁⟩ := hp.swap hs hy hx
        have hperm := perm_swap hy hx
        obtain ⟨s', l', hup, hs', hl', hheap⟩ := ih ((j - 1) / 2) (by omega) hs₁ (by
          rw [hperm.length_eq]
          omega)
        rw [if_pos rfl, hswap]
        refine ⟨s', l', hup, hs', hl'.trans hperm, fun hkey hnear hover => ?_⟩
        rw [compare_eq hkey hx hy, decide_eq_true_iff] at hlt
        obtain ⟨hnear', hover'⟩ := hnear.up rfl hroot hlt
        rw [keyAt_swap hy hx] at hheap
        exact hheap (hkey.of_subset hperm.subset) hnear' hover'
      | false =>
        rw [if_neg (by simp)]
        refine ⟨s, l, rfl, hs, .refl _, fun hkey hnear hover =>
          isHeap_iff.2 (hnear.isHeapFrom (fun _ => ?_) hover)⟩
        rw [compare_eq hkey hx hy, decide_eq_false_iff_not, not_lt] at hlt
        exact hlt

/-- The child `down` looks at. -/
theorem exists_child (hp : h.Swaps lt R) (hs : R s l) (hi : 2 * i + 1 < l.length) :
    ∃ b : Bool, h.right l.length s i = some b ∧
      (if b then 2 * i + 2 else 2 * i + 1) < l.length ∧
      (ComparesBy lt key l → ∀ k, k ≠ i → (k - 1) / 2 = i →
        keyAt key l (if b then 2 * i + 2 else 2 * i + 1) ≤ keyAt key l k) := by
  have hchild : ∀ k, k ≠ i → (k - 1) / 2 = i → k = 2 * i + 1 ∨ k = 2 * i + 2 := by omega
  rw [right]
  by_cases hright : 2 * i + 2 < l.length
  · have hx := List.getElem?_eq_getElem hright
    have hy := List.getElem?_eq_getElem hi
    rw [if_pos hright, hp.less hs hx hy]
    refine ⟨_, rfl, by split <;> assumption, fun hkey k hki hpi => ?_⟩
    cases hlt : lt l[2 * i + 2] l[2 * i + 1] with
    | true =>
      rw [compare_eq hkey hx hy, decide_eq_true_iff] at hlt
      obtain rfl | rfl := hchild k hki hpi
      exacts [hlt.le, le_rfl]
    | false =>
      rw [compare_eq hkey hx hy, decide_eq_false_iff_not, not_lt] at hlt
      obtain rfl | rfl := hchild k hki hpi
      exacts [le_rfl, hlt]
  · rw [if_neg hright]
    refine ⟨false, rfl, hi, fun _ k hki hpi => ?_⟩
    obtain rfl | rfl := hchild k hki hpi
    · exact le_rfl
    · rw [keyAt_of_le (not_lt.1 hright)]
      exact le_top

/-- What becomes of a list whose element at `i` has moved down to `k`: if it has moved it leaves
    a heap, and if not it is not greater than its children. -/
structure Sunk (lt : α → α → Bool) (lo : ℕ) (l : List α) (i : ℕ) (l' : List α) (k : ℕ) :
    Prop where
  perm : l'.Perm l
  le : i ≤ k
  same : ¬i < k → l' = l
  heap : ComparesBy lt key l → lo ≤ i → Near lo i (keyAt key l) →
    i < k ∨ (lo ≤ (i - 1) / 2 → Ordered (keyAt key l) i) → IsHeapFrom lo (keyAt key l')
  stays : ComparesBy lt key l → ¬i < k → Over i (keyAt key l)

theorem sunk_self (hover : ComparesBy lt key l → Over i (keyAt key l)) :
    Sunk key lt lo l i l i where
  perm := .refl _
  le := le_rfl
  same _ := rfl
  heap hkey _ hnear hi := hnear.isHeapFrom (hi.resolve_left (lt_irrefl i)) (hover hkey)
  stays hkey _ := hover hkey

theorem down_spec (hp : h.Swaps lt R) (hs : R s l) (lo i : ℕ) :
    ∃ s' l' k, h.down l.length s i = some (s', k) ∧ R s' l' ∧ Sunk key lt lo l i l' k := by
  obtain ⟨d, hd⟩ : ∃ d, l.length - i = d := ⟨_, rfl⟩
  induction d using Nat.strongRecOn generalizing s l i with
  | ind d ih =>
    rw [down]
    by_cases hend : l.length ≤ 2 * i + 1
    · rw [dif_pos hend]
      refine ⟨s, l, i, rfl, hs, sunk_self key fun _ k hki hpi => ?_⟩
      rw [Ordered, keyAt_of_le (show l.length ≤ k by omega)]
      exact le_top
    · obtain ⟨b, hb, hj, hleast⟩ := exists_child key hp hs (not_le.1 hend)
      rw [dif_neg hend, hb]
      dsimp only [bind, Option.bind]
      obtain ⟨j, hj'⟩ : ∃ j, (if b then 2 * i + 2 else 2 * i + 1) = j := ⟨_, rfl⟩
      have hji : (j - 1) / 2 = i ∧ i < j := by split at hj' <;> omega
      rw [hj'] at hj hleast ⊢
      have hx := List.getElem?_eq_getElem hj
      have hy := List.getElem?_eq_getElem (hji.2.trans hj)
      rw [hp.less hs hx hy]
      dsimp only
      cases hlt : lt l[j] l[i] with
      | true =>
        obtain ⟨s₁, hswap, hs₁⟩ := hp.swap hs hy hx
        have hperm := perm_swap hy hx
        obtain ⟨s', l', k, hdown, hs', hsunk⟩ := ih (l.length - j) (by omega) hs₁ j
          (by rw [hperm.length_eq])
        have hik := hji.2.trans_le hsunk.le
        rw [if_pos rfl, hswap, ← hperm.length_eq]
        refine ⟨s', l', k, hdown, hs', hsunk.perm.trans hperm, hik.le, fun hk => absurd hik hk,
          fun hkey hlo hnear _ => ?_, fun _ hk => absurd hik hk⟩
        rw [compare_eq hkey hx hy, decide_eq_true_iff] at hlt
        obtain ⟨hnear', hord⟩ := hnear.down hlo hji.1 hji.2.ne' hlt (hleast hkey)
        rw [← keyAt_swap hy hx] at hnear' hord
        exact hsunk.heap (hkey.of_subset hperm.subset) (by omega) hnear' (.inr fun _ => hord)
      | false =>
        rw [if_neg (by simp)]
        refine ⟨s, l, i, rfl, hs, sunk_self key fun hkey k hki hpi => ?_⟩
        rw [compare_eq hkey hx hy, decide_eq_false_iff_not, not_lt] at hlt
        rw [Ordered, hpi]
        exact hlt.trans (hleast hkey k hki hpi)

theorem settle_spec (hp : h.Swaps lt R) (hs : R s l) (hi : i < l.length) :
    ∃ s' l', h.settle l.length s i = some s' ∧ R s' l' ∧ l'.Perm l ∧
      (ComparesBy lt key l → Near 0 i (keyAt key l) → IsHeap key l') := by
  obtain ⟨s₁, l₁, k, hdown, hs₁, hsunk⟩ := down_spec key hp hs 0 i
  rw [settle, hdown]
  dsimp only [bind, Option.bind]
  by_cases hik : i < k
  · rw [if_pos hik]
    exact ⟨s₁, l₁, rfl, hs₁, hsunk.perm, fun hkey hnear =>
      isHeap_iff.2 (hsunk.heap hkey (Nat.zero_le _) hnear (.inl hik))⟩
  · obtain rfl := hsunk.same hik
    obtain ⟨s', l', hup, hs', hl', hheap⟩ := up_spec key hp hs₁ hi
    rw [if_neg hik]
    exact ⟨s', l', hup, hs', hl', fun hkey hnear => hheap hkey hnear (hsunk.stays hkey hik)⟩

/-! ## The operations -/

/-- The state has the elements of a list.  `Ok` says what can be pushed. -/
structure Presents (h : HeapInterface σ α) (lt : α → α → Bool) (Ok : List α → α → Prop)
    (R : σ → List α → Prop) : Prop extends h.Swaps lt R where
  len {s : σ} {l : List α} : R s l → h.len s = l.length
  push {s : σ} {l : List α} {x : α} : R s l → Ok l x → ∃ s', h.push s x = some s' ∧ R s' (l ++ [x])
  pop {s : σ} {l : List α} {x : α} : R s (l ++ [x]) → ∃ s', h.pop s = some (some x, s') ∧ R s' l

variable {Ok : List α → α → Prop}

theorem heapPush_spec (hp : h.Presents lt Ok R) (hs : R s l) (hx : Ok l x) :
    ∃ s' l', h.heapPush s x = some s' ∧ R s' l' ∧ l'.Perm (x :: l) ∧
      (ComparesBy lt key (x :: l) → IsHeap key l → IsHeap key l') := by
  obtain ⟨s₁, hpush, hs₁⟩ := hp.push hs hx
  have hperm := List.perm_append_singleton x l
  obtain ⟨s', l', hup, hs', hl', hheap⟩ :=
    up_spec key hp.toSwaps hs₁ (show l.length < (l ++ [x]).length by simp)
  have hbehind : ∀ k, l.length < k → keyAt key (l ++ [x]) k = ⊤ := fun k hk =>
    keyAt_of_le (by simpa using hk)
  have hold : ∀ k < l.length, keyAt key (l ++ [x]) k = keyAt key l k := fun k hk => by
    rw [keyAt, List.getElem?_append_left hk, keyAt]
  refine ⟨s', l', ?_, hs', hl'.trans hperm, fun hkey hl => hheap (hkey.of_subset hperm.subset)
    ⟨fun k _ hki hpi => ?_, fun k hki _ _ => ?_⟩ fun k hki hpi => ?_⟩
  · rw [heapPush, hpush]
    dsimp only [bind, Option.bind]
    rw [hp.len hs₁, List.length_append, List.length_singleton, Nat.add_sub_cancel]
    exact hup
  · rcases Nat.lt_or_ge l.length k with hk | hk
    · rw [Ordered, hbehind k hk]
      exact le_top
    · rw [Ordered, hold k (by omega), hold _ (by omega)]
      exact isHeap_iff.1 hl k (Nat.zero_le _)
  · rw [hbehind k (by omega)]
    exact le_top
  · rw [Ordered, hbehind k (by omega)]
    exact le_top

/-- The exchange of an element with the last one. -/
theorem swap_last {y : α} (hx : (l ++ [y])[i]? = some x) :
    ((l ++ [y]).set i y).set l.length x = l.set i y ++ [x] ∧
      (x :: l.set i y).Perm (l ++ [y]) := by
  have hy : (l ++ [y])[l.length]? = some y := List.getElem?_concat_length
  have heq : ((l ++ [y]).set i y).set l.length x = l.set i y ++ [x] := by
    rcases Nat.lt_or_ge i l.length with hi | hi
    · rw [List.set_append_left _ _ hi, List.set_append_right _ _ (by simp), List.length_set,
        Nat.sub_self, List.set_cons_zero]
    · obtain rfl : i = l.length := by
        have := (List.getElem?_eq_some_iff.1 hx).1
        simp at this
        omega
      cases hx.symm.trans hy
      simp [List.set_eq_of_length_le]
  exact ⟨heq, (List.perm_append_singleton ..).symm.trans (heq ▸ perm_swap hx hy)⟩

variable {key} in
theorem isHeap_left {r : List α} (hl : IsHeap key (l ++ r)) : IsHeap key l := fun k x p hk hx hp =>
  hl k x p hk ((List.getElem?_append_left (List.getElem?_eq_some_iff.1 hx).1).trans hx)
    ((List.getElem?_append_left (List.getElem?_eq_some_iff.1 hp).1).trans hp)

theorem near_last {y : α} (hl : IsHeap key (l ++ [y])) (i : ℕ) :
    Near 0 i (keyAt key (l.set i y)) := by
  refine ((isHeap_iff.1 (isHeap_left hl)).near i).congr fun k hk => ?_
  rw [keyAt, List.getElem?_set_ne (Ne.symm hk), keyAt]

theorem heapPop_spec (hp : h.Presents lt Ok R) (hs : R s (x :: l)) :
    ∃ s' l', h.heapPop s = some (some x, s') ∧ R s' l' ∧ l'.Perm l ∧
      (ComparesBy lt key (x :: l) → IsHeap key (x :: l) → IsHeap key l') := by
  obtain ⟨l₀, y, hl₀⟩ : ∃ l₀ y, x :: l = l₀ ++ [y] :=
    ⟨_, _, (List.dropLast_append_getLast (List.cons_ne_nil x l)).symm⟩
  have hx : (l₀ ++ [y])[0]? = some x := hl₀ ▸ rfl
  obtain ⟨hset, hperm⟩ := swap_last hx
  rw [hl₀] at hs ⊢
  obtain ⟨s₁, hswap, hs₁⟩ := hp.swap hs hx List.getElem?_concat_length
  rw [hset] at hs₁
  obtain ⟨s₂, l', k, hdown, hs₂, hsunk⟩ := down_spec key (hp.toSwaps.append [x]) hs₁ 0 0
  obtain ⟨s', hpop, hs'⟩ := hp.pop hs₂
  refine ⟨s', l', ?_, hs', ?_, fun hkey hl => isHeap_iff.2 (hsunk.heap
    (hkey.of_subset fun a ha => hperm.mem_iff.1 (.tail _ ha)) le_rfl (near_last key hl 0)
    (.inr fun _ => le_rfl))⟩
  · have hlen := hp.len hs
    have hlen₁ := hp.len hs₁
    simp only [List.length_append, List.length_singleton, List.length_set] at hlen hlen₁ hdown
    rw [heapPop, hlen, if_neg (Nat.succ_ne_zero _), Nat.add_sub_cancel, hswap]
    dsimp only [bind, Option.bind]
    rw [hlen₁, Nat.add_sub_cancel, hdown]
    exact hpop
  · exact hsunk.perm.trans ((hl₀ ▸ hperm : (x :: l₀.set 0 y).Perm (x :: l)).cons_inv)

theorem heapRemove_spec (hp : h.Presents lt Ok R) (hs : R s l) (hx : l[i]? = some x) :
    ∃ s' l', h.heapRemove s i = some (some x, s') ∧ R s' l' ∧ (x :: l').Perm l ∧
      (ComparesBy lt key l → IsHeap key l → IsHeap key l') := by
  have hi := (List.getElem?_eq_some_iff.1 hx).1
  obtain ⟨l₀, y, rfl⟩ : ∃ l₀ y, l = l₀ ++ [y] :=
    ⟨_, _, (List.dropLast_append_getLast (List.ne_nil_of_length_pos (by omega))).symm⟩
  obtain ⟨hset, hperm⟩ := swap_last hx
  have hlen := hp.len hs
  simp only [List.length_append, List.length_singleton] at hlen hi
  rw [heapRemove, hlen, Nat.add_sub_cancel]
  by_cases hlast : l₀.length = i
  · subst hlast
    cases hx.symm.trans List.getElem?_concat_length
    obtain ⟨s', hpop, hs'⟩ := hp.pop hs
    rw [if_pos rfl]
    exact ⟨s', l₀, hpop, hs', (List.perm_append_singleton ..).symm, fun _ hl => isHeap_left hl⟩
  · obtain ⟨s₁, hswap, hs₁⟩ := hp.swap hs hx List.getElem?_concat_length
    rw [hset] at hs₁
    obtain ⟨s₂, l', hsettle, hs₂, hl', hheap⟩ := settle_spec key (hp.toSwaps.append [x]) hs₁
      (show i < (l₀.set i y).length by rw [List.length_set]; omega)
    obtain ⟨s', hpop, hs'⟩ := hp.pop hs₂
    have hlen₁ := hp.len hs₁
    simp only [List.length_append, List.length_singleton, List.length_set] at hlen₁ hsettle
    rw [if_neg hlast, hswap]
    dsimp only [bind, Option.bind]
    rw [hlen₁, Nat.add_sub_cancel, hsettle]
    refine ⟨s', l', hpop, hs', (hl'.cons x).trans hperm, fun hkey hl =>
      hheap (hkey.of_subset fun a ha => hperm.mem_iff.1 (.tail _ ha)) (near_last key hl i)⟩

/-- What is not ordered yet is above `i`. -/
theorem initLoop_spec (hp : h.Swaps lt R) (hs : R s l) (i : ℕ) :
    ∃ s' l', h.initLoop l.length i s = some s' ∧ R s' l' ∧ l'.Perm l ∧
      (ComparesBy lt key l → IsHeapFrom i (keyAt key l) → IsHeap key l') := by
  induction i generalizing s l with
  | zero => exact ⟨s, l, rfl, hs, .refl _, fun _ hl => isHeap_iff.2 hl⟩
  | succ i ih =>
    obtain ⟨s₁, l₁, k, hdown, hs₁, hsunk⟩ := down_spec key hp hs i i
    obtain ⟨s', l', hloop, hs', hl', hheap⟩ := ih hs₁
    refine ⟨s', l', ?_, hs', hl'.trans hsunk.perm, fun hkey hl =>
      hheap (hkey.of_subset hsunk.perm.subset)
      (hsunk.heap hkey le_rfl ⟨fun k hlo hki hpi => hl k (by omega), fun k hki hi hlo => by omega⟩
        (.inr fun hlo => ?_))⟩
    · rw [initLoop, hdown, ← hsunk.perm.length_eq]
      exact hloop
    · obtain rfl : i = 0 := by omega
      exact le_rfl

theorem heapInit_spec (hp : h.Presents lt Ok R) (hs : R s l) :
    ∃ s' l', h.heapInit s = some s' ∧ R s' l' ∧ l'.Perm l ∧
      (ComparesBy lt key l → IsHeap key l') := by
  obtain ⟨s', l', hloop, hs', hl', hheap⟩ := initLoop_spec key hp.toSwaps hs (l.length / 2)
  rw [heapInit, hp.len hs]
  refine ⟨s', l', hloop, hs', hl', fun hkey => hheap hkey fun k hk => ?_⟩
  rcases Nat.eq_zero_or_pos k with rfl | hpos
  · exact le_rfl
  · rw [Ordered, keyAt_of_le (show l.length ≤ k by omega)]
    exact le_top

theorem heapFix_spec (hp : h.Presents lt Ok R) (hs : R s l) (hi : i < l.length) :
    ∃ s' l', h.heapFix s i = some s' ∧ R s' l' ∧ l'.Perm l ∧
      (ComparesBy lt key l → Near 0 i (keyAt key l) → IsHeap key l') := by
  rw [heapFix, hp.len hs]
  exact settle_spec key hp.toSwaps hs hi

/-! ## Slices -/

/-- A slice as the heap sees it. -/
def slice (less : α → α → Bool) : HeapInterface (List α) α where
  len := List.length
  less l i j := do some (less (← l[i]?) (← l[j]?))
  swap l i j := do
    let x ← l[i]?
    let y ← l[j]?
    some ((l.set i y).set j x)
  push l x := some (l ++ [x])
  pop l := l.getLast?.map fun x => (some x, l.dropLast)

theorem slice_presents (less : α → α → Bool) :
    (slice less).Presents less (fun _ _ => True) Eq where
  less hl hx hy := by
    subst hl
    simp [slice, hx, hy]
  swap hl hx hy := by
    subst hl
    simp [slice, hx, hy]
  len hl := hl ▸ rfl
  push hl _ := ⟨_, rfl, hl ▸ rfl⟩
  pop {_ l x} hl := by
    subst hl
    exact ⟨l, by simp [slice], rfl⟩

end HeapInterface

open HeapInterface

/-- The heap in slices by a key. -/
def HeapFns.slices : HeapFns where
  init key l := ((slice fun x y => decide (key x < key y)).heapInit l).getD l
  push key l x := ((slice fun x y => decide (key x < key y)).heapPush l x).getD l
  pop key l := do
    let (x, rest) ← (slice fun x y => decide (key x < key y)).heapPop l
    some (← x, rest)
  remove key l i := ((slice fun x y => decide (key x < key y)).heapRemove l i).elim l Prod.snd
  init_spec key l := by
    obtain ⟨l', _, hinit, rfl, hl', hheap⟩ := heapInit_spec key (slice_presents _) (Eq.refl l)
    rw [hinit]
    exact ⟨hheap (comparesBy_lt key l), hl'⟩
  push_spec {_ _ _ key l} x hl := by
    obtain ⟨l', _, hpush, rfl, hl', hheap⟩ :=
      heapPush_spec key (slice_presents _) (Eq.refl l) (x := x) trivial
    rw [hpush]
    exact ⟨hheap (comparesBy_lt key _) hl, hl'⟩
  pop_spec {_ _ _ key x l} hl := by
    obtain ⟨l', _, hpop, rfl, hl', hheap⟩ :=
      heapPop_spec key (slice_presents _) (Eq.refl (x :: l))
    rw [hpop]
    exact ⟨l', rfl, hheap (comparesBy_lt key _) hl, hl'⟩
  remove_spec {_ _ _ key l} i hl := by
    rcases hx : l[i]? with _ | x
    · have hi := List.getElem?_eq_none_iff.1 hx
      rw [List.eraseIdx_of_length_le hi, heapRemove]
      by_cases hlast : l.length - 1 = i
      · obtain rfl : l = [] := List.length_eq_zero_iff.1 (by omega)
        rw [if_pos (by exact hlast)]
        exact ⟨hl, .refl _⟩
      · simp only [slice, if_neg hlast, hx]
        exact ⟨hl, .refl _⟩
    · obtain ⟨l', _, hremove, rfl, hl', hheap⟩ :=
        heapRemove_spec key (slice_presents _) (Eq.refl l) hx
      rw [hremove]
      refine ⟨hheap (comparesBy_lt key l) hl, ?_⟩
      obtain ⟨hi, rfl⟩ := List.getElem?_eq_some_iff.1 hx
      exact (hl'.trans (List.getElem_cons_eraseIdx_perm hi).symm).cons_inv

def FixHeapFns.slices : FixHeapFns where
  toHeapFns := .slices
  fix key l := ((slice fun x y => decide (key x < key y)).heapFix l 0).getD l
  fix_spec {_ _ _ key x y l} hl := by
    obtain ⟨l', _, hfix, rfl, hl', hheap⟩ :=
      heapFix_spec key (slice_presents _) (Eq.refl (y :: l)) (Nat.succ_pos l.length)
    rw [hfix]
    refine ⟨hheap (comparesBy_lt key _) (((isHeap_iff.1 hl).near 0).congr fun k hk => ?_), hl'⟩
    obtain ⟨k, rfl⟩ := Nat.exists_eq_succ_of_ne_zero hk
    rfl

/-- The heap in slices by any comparison; no element comes before its parent. -/
def QueueFns.slices {α : Type} (less : α → α → Bool) : QueueFns α less where
  push l x := ((slice less).heapPush l x).getD l
  pop l := do
    let (x, rest) ← (slice less).heapPop l
    some (← x, rest)
  Ordered l := ∀ i x p, 0 < i → l[i]? = some x → l[(i - 1) / 2]? = some p → less x p = false
  push_perm l x := by
    obtain ⟨l', _, hpush, rfl, hl', -⟩ :=
      heapPush_spec (fun _ => (0 : ℤ)) (slice_presents less) (Eq.refl l) (x := x) trivial
    rwa [hpush]
  pop_perm {l rest x} hpop := by
    rcases l with _ | ⟨y, l⟩
    · cases hpop
    · obtain ⟨l', _, hpop', rfl, hl', -⟩ :=
        heapPop_spec (fun _ => (0 : ℤ)) (slice_presents less) (Eq.refl (y :: l))
      rw [hpop'] at hpop
      cases hpop
      exact hl'.symm.cons x
  pop_isSome {l} hl := by
    rcases l with _ | ⟨y, l⟩
    · exact absurd rfl hl
    · obtain ⟨l', _, hpop, -⟩ :=
        heapPop_spec (fun _ => (0 : ℤ)) (slice_presents less) (Eq.refl (y :: l))
      rw [hpop]
      rfl
  ordered_nil i x p _ hx := by simp at hx
  push_ordered {key l x} hless hl := by
    obtain ⟨l', _, hpush, rfl, hl', hheap⟩ :=
      heapPush_spec key (slice_presents less) (Eq.refl l) (x := x) trivial
    rw [hpush]
    exact (hless.of_subset hl'.subset).isHeap_iff.1
      (hheap hless ((hless.of_subset (List.subset_cons_self x l)).isHeap_iff.2 hl))
  pop_ordered {key l rest x} hless hl hpop := by
    rcases l with _ | ⟨y, l⟩
    · cases hpop
    · obtain ⟨l', _, hpop', rfl, hl', hheap⟩ :=
        heapPop_spec key (slice_presents less) (Eq.refl (y :: l))
      rw [hpop'] at hpop
      cases hpop
      have hl := hless.isHeap_iff.2 hl
      have hsub : rest ⊆ x :: l := fun z hz => .tail _ (hl'.subset hz)
      exact ⟨(hless.of_subset hsub).isHeap_iff.1 (hheap hless hl),
        fun z hz => hl.head_le z (hsub hz)⟩

section
variable {α : Type} {less : α → α → Bool} {x y : α}

theorem slices_push_pair (h : less y x = false) : (QueueFns.slices less).push [x] y = [x, y] := by
  change ((slice less).up [x, y] 1).getD _ = _
  rw [up]
  simp [slice, h]

theorem slices_pop_pair : (QueueFns.slices less).pop [x, y] = some (x, [y]) := by
  change (((slice less).down 1 [y, x] 0).bind _).bind _ = _
  rw [down]
  rfl

end
