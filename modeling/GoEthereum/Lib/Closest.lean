/-
  The elements with the least keys.

  `closest key k l` are the first `k` elements of `l` in the order of their keys, with their
  repetitions.  A bounded list that is kept in order by insertion is such a list
  (`take_insertBy_closest`).  For two lists without repetitions, `exact_iff` says when the closest
  elements of both together are the closest elements of their union.
-/
import GoEthereum.Lib.MinHeap

namespace Closest

variable {α : Type} {key : α → ℕ} {k m : ℕ} {x : α} {l : List α}

/-- The `k` elements with the least keys, in order. -/
def closest (key : α → ℕ) (k : ℕ) (l : List α) : List α := (sortBy key l).take k

/-! ## Insertion -/

theorem sortBy_cons (hinj : Function.Injective key) (x : α) (l : List α) :
    sortBy key (x :: l) = insertBy (fun a b => decide (key a < key b)) x (sortBy key l) := by
  have hkey : ∀ l : List α, ComparesBy (fun a b => decide (key a < key b))
      (fun a => (key a : ℤ)) l := fun l a _ b _ => by simp
  have hle : ∀ {l : List α}, (l.Pairwise fun y z => decide (key z < key y) = false) ↔
      l.Pairwise fun y z => key y ≤ key z := by simp
  refine sortBy_eq (fun a _ b _ h => hinj h) ?_ ?_
  · exact (perm_insertBy _ x _).trans ((perm_sortBy key l).cons x)
  · exact hle.1 (pairwise_insertBy (hkey _) (hle.2 (pairwise_sortBy key l)))

theorem insertBy_eq_take_drop (less : α → α → Bool) (x : α) (l : List α) :
    insertBy less x l = l.take (l.findIdx (less x)) ++ x :: l.drop (l.findIdx (less x)) := by
  induction l with
  | nil => rfl
  | cons y l ih =>
    rw [insertBy, List.findIdx_cons]
    cases hy : less x y with
    | true => simp
    | false => simp [ih]

theorem take_insertBy (less : α → α → Bool) (x : α) (k : ℕ) (l : List α) :
    (insertBy less x (l.take k)).take k = (insertBy less x l).take k := by
  induction l generalizing k with
  | nil => rw [List.take_nil]
  | cons y l ih =>
    cases k with
    | zero => simp
    | succ k =>
      rw [List.take_succ_cons, insertBy, insertBy]
      split
      · rw [List.take_succ_cons, List.take_succ_cons]
        cases k with
        | zero => simp
        | succ k => simp [List.take_take]
      · rw [List.take_succ_cons, List.take_succ_cons, ih]

/-- Insertion into a bounded list. -/
theorem take_insertBy_closest (hinj : Function.Injective key) (k : ℕ) (x : α) (l : List α) :
    (insertBy (fun a b => decide (key a < key b)) x (closest key k l)).take k =
      closest key k (x :: l) := by
  rw [closest, take_insertBy, closest, sortBy_cons hinj]

theorem closest_closest (hinj : Function.Injective key) (k : ℕ) (l : List α) :
    closest key k (closest key k l) = closest key k l := by
  have hsame : sortBy key (closest key k l) = closest key k l :=
    sortBy_eq (fun a _ b _ h => hinj h) (.refl _)
      ((pairwise_sortBy key l).sublist (List.take_sublist k _))
  change (sortBy key (closest key k l)).take k = _
  rw [hsame, closest, List.take_take, min_self]

/-! ## Counting -/

/-- The first elements of a list in order are those with the least keys. -/
theorem key_lt_of_mem_take (hl : l.Pairwise fun x y => key x ≤ key y)
    (hm : m ≤ l.countP fun y => key y < key x) : ∀ y ∈ l.take m, key y < key x := by
  induction l generalizing m with
  | nil => simp
  | cons z l ih =>
    obtain ⟨hz, hl⟩ := List.pairwise_cons.1 hl
    cases m with
    | zero => simp
    | succ m =>
      have hzx : key z < key x := by
        by_contra hzx
        have hnone : (z :: l).countP (fun y => key y < key x) = 0 := by
          rw [List.countP_eq_zero]
          intro y hy
          have : key z ≤ key y := by
            rcases List.mem_cons.1 hy with rfl | hy
            · exact le_rfl
            · exact hz y hy
          simp only [decide_eq_true_eq]
          omega
        omega
      rw [List.countP_cons_of_pos (by simpa using hzx)] at hm
      rw [List.take_succ_cons]
      exact List.forall_mem_cons.2 ⟨hzx, ih hl (by omega)⟩

section
variable [DecidableEq α]

/-- How often an element is among the first `k` ones: its copies stand behind those with smaller
    keys. -/
theorem count_take (hinj : Function.Injective key) (hl : l.Pairwise fun x y => key x ≤ key y)
    (k : ℕ) (x : α) :
    (l.take k).count x = min (l.count x) (k - l.countP fun y => key y < key x) := by
  induction l generalizing k with
  | nil => simp
  | cons z l ih =>
    obtain ⟨hz, hl⟩ := List.pairwise_cons.1 hl
    cases k with
    | zero => simp
    | succ k =>
      rw [List.take_succ_cons]
      rcases lt_trichotomy (key z) (key x) with hlt | heq | hgt
      · have hne : z ≠ x := by
          rintro rfl
          exact lt_irrefl _ hlt
        rw [List.count_cons_of_ne hne, List.count_cons_of_ne hne, ih hl,
          List.countP_cons_of_pos (by simpa using hlt), Nat.add_sub_add_right]
      · obtain rfl := hinj heq
        have hnone : (l.countP fun y => key y < key z) = 0 := by
          rw [List.countP_eq_zero]
          intro y hy
          simpa using hz y hy
        rw [List.count_cons_self, List.count_cons_self, ih hl,
          List.countP_cons_of_neg (by simp), hnone]
        omega
      · have hnot : ∀ j, x ∉ (z :: l).take j := by
          intro j hx
          rcases List.mem_cons.1 (List.mem_of_mem_take hx) with rfl | hx
          · exact lt_irrefl _ hgt
          · exact absurd (hz x hx) (not_le.2 hgt)
        have hnot' := hnot (z :: l).length
        rw [List.take_length] at hnot'
        rw [← List.take_succ_cons, List.count_eq_zero_of_not_mem (hnot _),
          List.count_eq_zero_of_not_mem hnot', Nat.zero_min]

/-- The number of different elements with smaller keys. -/
def rank (key : α → ℕ) (l : List α) (x : α) : ℕ := (l.toFinset.filter (key · < key x)).card

theorem rank_congr {l l' : List α} (h : ∀ y, y ∈ l ↔ y ∈ l') (x : α) :
    rank key l x = rank key l' x := by
  have hset : l.toFinset = l'.toFinset := by
    ext y
    simp [h y]
  rw [rank, hset, rank]

theorem rank_le_countP (l : List α) (x : α) :
    rank key l x ≤ (sortBy key l).countP fun y => key y < key x := by
  rw [(perm_sortBy key l).countP_eq, List.countP_eq_length_filter, rank]
  refine le_trans (Finset.card_le_card (t := (l.filter fun y => key y < key x).toFinset) ?_)
    (List.toFinset_card_le _)
  intro y
  simp

/-- First elements that are all different. -/
theorem le_rank (hm : m ≤ (sortBy key l).countP fun y => key y < key x)
    (hnodup : ((sortBy key l).take m).Nodup) : m ≤ rank key l x := by
  have hlength : ((sortBy key l).take m).length = m := by
    rw [List.length_take, min_eq_left (hm.trans List.countP_le_length)]
  rw [← hlength, ← List.toFinset_card_of_nodup hnodup, rank]
  refine Finset.card_le_card fun y hy => ?_
  rw [List.mem_toFinset] at hy
  rw [Finset.mem_filter, List.mem_toFinset]
  exact ⟨(perm_sortBy key l).mem_iff.1 (List.mem_of_mem_take hy),
    key_lt_of_mem_take (pairwise_sortBy key l) hm y hy⟩

theorem mem_closest (hinj : Function.Injective key) (k : ℕ) (l : List α) (x : α) :
    x ∈ closest key k l ↔ x ∈ l ∧ ((sortBy key l).countP fun y => key y < key x) < k := by
  rw [closest, ← List.count_pos_iff, count_take hinj (pairwise_sortBy key l),
    (perm_sortBy key l).count_eq, ← List.count_pos_iff (l := l), lt_min_iff, Nat.sub_pos_iff_lt]

/-- **The closest elements of two lists.**  They are different, the closest ones of the union and
    without `self` if and only if an element of both lists is not among the first `k - 1` ones,
    nor `self` among the first `k` ones. -/
theorem exact_iff (hinj : Function.Injective key) {l₁ l₂ : List α} (h₁ : l₁.Nodup)
    (h₂ : l₂.Nodup) {self : α} (hself : self ∉ l₂) (k : ℕ) :
    ((closest key k (l₁ ++ l₂)).Nodup ∧
      (∀ x, x ∈ closest key k (l₁ ++ l₂) ↔ x ∈ l₁ ++ l₂ ∧ rank key (l₁ ++ l₂) x < k) ∧
      self ∉ closest key k (l₁ ++ l₂)) ↔
    (∀ x ∈ l₁, x ∈ l₂ → k ≤ rank key (l₁ ++ l₂) x + 1) ∧
      (self ∈ l₁ → k ≤ rank key (l₁ ++ l₂) self) := by
  have hcount : ∀ x, (closest key k (l₁ ++ l₂)).count x = min (l₁.count x + l₂.count x)
      (k - (sortBy key (l₁ ++ l₂)).countP fun y => key y < key x) := by
    intro x
    rw [closest, count_take hinj (pairwise_sortBy key _), (perm_sortBy key _).count_eq,
      List.count_append]
  constructor
  · rintro ⟨hnodup, hmem, hnot⟩
    constructor
    · intro x hx₁ hx₂
      have hle := List.nodup_iff_count_le_one.1 hnodup x
      rw [hcount, List.count_eq_one_of_mem h₁ hx₁, List.count_eq_one_of_mem h₂ hx₂] at hle
      have hfirst : ((sortBy key (l₁ ++ l₂)).take (k - 1)).Nodup :=
        hnodup.sublist ((List.take_sublist_take_left (Nat.sub_le k 1)))
      have := le_rank (m := k - 1) (x := x) (by omega) hfirst
      omega
    · intro hs
      by_contra hlt
      exact hnot ((hmem self).2 ⟨List.mem_append_left _ hs, not_le.1 hlt⟩)
  · rintro ⟨hboth, hs⟩
    have hnodup : (closest key k (l₁ ++ l₂)).Nodup := by
      rw [List.nodup_iff_count_le_one]
      intro x
      have hle₁ := List.nodup_iff_count_le_one.1 h₁ x
      have hle₂ := List.nodup_iff_count_le_one.1 h₂ x
      rw [hcount]
      by_cases hx₁ : x ∈ l₁
      · by_cases hx₂ : x ∈ l₂
        · have := hboth x hx₁ hx₂
          have : rank key (l₁ ++ l₂) x ≤ _ := rank_le_countP (l₁ ++ l₂) x
          omega
        · rw [List.count_eq_zero_of_not_mem hx₂]
          omega
      · rw [List.count_eq_zero_of_not_mem hx₁]
        omega
    have hmem : ∀ x, x ∈ closest key k (l₁ ++ l₂) ↔
        x ∈ l₁ ++ l₂ ∧ rank key (l₁ ++ l₂) x < k := by
      intro x
      rw [mem_closest hinj]
      refine and_congr_right fun _ => ⟨(rank_le_countP _ x).trans_lt, fun hlt => ?_⟩
      by_contra hge
      exact absurd (le_rank (not_lt.1 hge) hnodup) (not_le.2 hlt)
    refine ⟨hnodup, hmem, fun hin => ?_⟩
    obtain ⟨hl, hlt⟩ := (hmem self).1 hin
    rcases List.mem_append.1 hl with hl | hl
    · exact absurd (hs hl) (not_le.2 hlt)
    · exact hself hl

end

end Closest
