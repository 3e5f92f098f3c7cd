/-
  Binary heaps in lists.

  `IsHeap key l`: no element of `l` has a smaller key than its parent, so the first one has
  the least key.  `HeapFns` are operations that keep lists in this order, `QueueFns` are those
  of a queue over a comparison that is an order on some lists only.
-/
import Mathlib.Data.List.Sort
import Mathlib.Tactic

section
variable {α K : Type} [LinearOrder K] {key : α → K} {x : α} {l : List α}

/-- No element is less than its parent. -/
def IsHeap (key : α → K) (l : List α) : Prop :=
  ∀ i x p, 0 < i → l[i]? = some x → l[(i - 1) / 2]? = some p → key p ≤ key x

theorem isHeap_nil : IsHeap key ([] : List α) := by
  intro i x p _ hx
  simp at hx

/-- The first element is a least one. -/
theorem IsHeap.head_le (h : IsHeap key (x :: l)) : ∀ y ∈ x :: l, key x ≤ key y := by
  have hall : ∀ (i : ℕ) y, (x :: l)[i]? = some y → key x ≤ key y := by
    intro i
    induction i using Nat.strongRecOn with
    | ind i ih =>
      intro y hy
      rcases Nat.eq_zero_or_pos i with rfl | hpos
      · cases hy
        exact le_rfl
      · have hi := (List.getElem?_eq_some_iff.1 hy).1
        have hparent := List.getElem?_eq_getElem (show (i - 1) / 2 < (x :: l).length by omega)
        exact (ih _ (by omega) _ hparent).trans (h i y _ hpos hy hparent)
  intro y hy
  obtain ⟨i, hi, rfl⟩ := List.mem_iff_getElem.1 hy
  exact hall i _ (List.getElem?_eq_getElem hi)

/-! ## Sorted lists -/

/-- The list in the order of the keys. -/
def sortBy (key : α → K) (l : List α) : List α := l.insertionSort fun x y => key x ≤ key y

theorem pairwise_sortBy (key : α → K) (l : List α) :
    (sortBy key l).Pairwise fun x y => key x ≤ key y := by
  have : Std.Total fun x y : α => key x ≤ key y := ⟨fun x y => le_total (key x) (key y)⟩
  have : IsTrans α fun x y => key x ≤ key y := ⟨fun x y z => le_trans⟩
  exact List.pairwise_insertionSort _ l

theorem perm_sortBy (key : α → K) (l : List α) : (sortBy key l).Perm l :=
  List.perm_insertionSort _ l

/-- A list in the order of its keys, which are different, is the only one. -/
theorem sortBy_eq {key : α → K} {l l' : List α} (hinj : ∀ x ∈ l, ∀ y ∈ l, key x = key y → x = y)
    (hperm : l'.Perm l) (h : l'.Pairwise fun x y => key x ≤ key y) : sortBy key l = l' := by
  refine List.Perm.eq_of_pairwise (fun x y hx hy hxy hyx => ?_) (pairwise_sortBy key l) h
    ((perm_sortBy key l).trans hperm.symm)
  exact hinj x ((perm_sortBy key l).mem_iff.1 hx) y (hperm.mem_iff.1 hy) (le_antisymm hxy hyx)

end

/-- Operations on heaps, with what they do. -/
structure HeapFns where
  init {α K : Type} [LinearOrder K] : (α → K) → List α → List α
  push {α K : Type} [LinearOrder K] : (α → K) → List α → α → List α
  pop {α K : Type} [LinearOrder K] : (α → K) → List α → Option (α × List α)
  remove {α K : Type} [LinearOrder K] : (α → K) → List α → ℕ → List α
  init_spec {α K : Type} [LinearOrder K] (key : α → K) (l : List α) :
    IsHeap key (init key l) ∧ (init key l).Perm l
  push_spec {α K : Type} [LinearOrder K] {key : α → K} {l : List α} (x : α) :
    IsHeap key l → IsHeap key (push key l x) ∧ (push key l x).Perm (x :: l)
  pop_spec {α K : Type} [LinearOrder K] {key : α → K} {x : α} {l : List α} :
    IsHeap key (x :: l) → ∃ rest, pop key (x :: l) = some (x, rest) ∧ IsHeap key rest ∧ rest.Perm l
  remove_spec {α K : Type} [LinearOrder K] {key : α → K} {l : List α} (i : ℕ) :
    IsHeap key l → IsHeap key (remove key l i) ∧ (remove key l i).Perm (l.eraseIdx i)

/-- Operations on heaps, with one that puts a heap in order whose first element is new. -/
structure FixHeapFns extends HeapFns where
  fix {α K : Type} [LinearOrder K] : (α → K) → List α → List α
  fix_spec {α K : Type} [LinearOrder K] {key : α → K} {x y : α} {l : List α} :
    IsHeap key (x :: l) → IsHeap key (fix key (y :: l)) ∧ (fix key (y :: l)).Perm (y :: l)

/-! ## Queues by a comparison -/

section
variable {α K : Type} [LinearOrder K] {less : α → α → Bool} {key : α → K} {l : List α}

/-- On a list, the comparison is that of a key. -/
def ComparesBy (less : α → α → Bool) (key : α → K) (l : List α) : Prop :=
  ∀ x ∈ l, ∀ y ∈ l, less x y = true ↔ key x < key y

theorem comparesBy_lt (key : α → K) (l : List α) :
    ComparesBy (fun x y => decide (key x < key y)) key l :=
  fun _ _ _ _ => decide_eq_true_iff

theorem ComparesBy.not_less {x y : α} (h : ComparesBy less key l) (hx : x ∈ l)
    (hy : y ∈ l) : less x y = false ↔ key y ≤ key x := by
  rw [← Bool.not_eq_true, h x hx y hy, not_lt]

theorem ComparesBy.of_subset {l l' : List α} (h : ComparesBy less key l)
    (hl : l' ⊆ l) : ComparesBy less key l' :=
  fun x hx y hy => h x (hl hx) y (hl hy)

theorem ComparesBy.isHeap_iff (h : ComparesBy less key l) : IsHeap key l ↔
      ∀ i x p, 0 < i → l[i]? = some x → l[(i - 1) / 2]? = some p → less x p = false :=
  forall₃_congr fun _ _ _ => forall₃_congr fun _ hx hp =>
    (h.not_less (List.mem_of_getElem? hx) (List.mem_of_getElem? hp)).symm

/-- A queue over a comparison that need not be an order.  The queue is in order as long as the
    comparison of its elements is that of a key. -/
structure QueueFns (α : Type) (less : α → α → Bool) where
  push : List α → α → List α
  pop : List α → Option (α × List α)
  Ordered : List α → Prop
  push_perm (l : List α) (x : α) : (push l x).Perm (x :: l)
  pop_perm {l rest : List α} {x : α} : pop l = some (x, rest) → l.Perm (x :: rest)
  pop_isSome {l : List α} : l ≠ [] → (pop l).isSome
  ordered_nil : Ordered []
  push_ordered {key : α → ℤ} {l : List α} {x : α} :
    ComparesBy less key (x :: l) → Ordered l → Ordered (push l x)
  pop_ordered {key : α → ℤ} {l rest : List α} {x : α} : ComparesBy less key l → Ordered l →
    pop l = some (x, rest) → Ordered rest ∧ ∀ y ∈ rest, key x ≤ key y

theorem QueueFns.push_nil (q : QueueFns α less) (x : α) :
    q.push [] x = [x] :=
  List.perm_singleton.1 (q.push_perm [] x)

theorem QueueFns.pop_single (q : QueueFns α less) (x : α) :
    q.pop [x] = some (x, []) := by
  obtain ⟨⟨y, rest⟩, hpop⟩ := Option.isSome_iff_exists.1 (q.pop_isSome (List.cons_ne_nil x []))
  cases List.perm_singleton.1 (q.pop_perm hpop).symm
  exact hpop

/-- Insertion in front of the first element that comes later. -/
def insertBy (less : α → α → Bool) (x : α) : List α → List α
  | [] => [x]
  | y :: l => if less x y then x :: y :: l else y :: insertBy less x l

theorem perm_insertBy (less : α → α → Bool) (x : α) (l : List α) :
    (insertBy less x l).Perm (x :: l) := by
  induction l with
  | nil => exact .refl _
  | cons y l ih =>
    rw [insertBy]
    split
    · exact .refl _
    · exact (ih.cons y).trans (.swap x y l)

theorem pairwise_insertBy {key : α → ℤ} {x : α} (hkey : ComparesBy less key (x :: l))
    (h : l.Pairwise fun y z => less z y = false) :
    (insertBy less x l).Pairwise fun y z => less z y = false := by
  induction l with
  | nil => exact List.pairwise_singleton _ _
  | cons y l ih =>
    obtain ⟨hy, hl⟩ := List.pairwise_cons.1 h
    rw [insertBy]
    split
    · rename_i hxy
      rw [hkey x (by simp) y (by simp)] at hxy
      refine List.pairwise_cons.2 ⟨fun z hz => ?_, h⟩
      rw [hkey.not_less (List.mem_cons_of_mem _ hz) (by simp)]
      rcases List.mem_cons.1 hz with rfl | hz
      · exact hxy.le
      · exact hxy.le.trans ((hkey.not_less (by simp [hz]) (by simp)).1 (hy z hz))
    · rename_i hxy
      refine List.pairwise_cons.2 ⟨fun z hz => ?_, ih (fun a ha b hb => ?_) hl⟩
      · rcases List.mem_cons.1 ((perm_insertBy less x l).mem_iff.1 hz) with rfl | hz
        · simpa using hxy
        · exact hy z hz
      · have hmem : ∀ a, a ∈ x :: l → a ∈ x :: y :: l := by simp; tauto
        exact hkey a (hmem a ha) b (hmem b hb)

end
