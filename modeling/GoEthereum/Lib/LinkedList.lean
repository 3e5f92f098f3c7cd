/-
  Doubly linked lists laid out in memory.

  `next` and `prev` give the two pointers of a cell, `first` and `last` the ends.
  `Chain` says that they lay out the list `l`: the pointers of neighbours agree
  and the last cell points to `null`.  The back pointer of the first cell is not
  read and may be stale, and so may `last` when the list is empty.
-/
import Mathlib.Data.List.Chain
import Mathlib.Data.List.Nodup
import Mathlib.Tactic

namespace LinkedList

section
variable {α : Type*} {R R' : α → α → Prop}

/-- In a chain only the last element is no left neighbour and only the first one
    no right neighbour. -/
theorem isChain_imp : ∀ {l : List α}, (∀ a ∈ l.dropLast, ∀ b ∈ l.tail, R a b → R' a b) →
    l.IsChain R → l.IsChain R'
  | [], _, _ => .nil
  | [a], _, _ => .singleton a
  | a :: b :: l, h, hc => by
    rw [List.isChain_cons_cons] at hc ⊢
    refine ⟨h a (by simp) b (by simp) hc.1, isChain_imp (fun x hx y hy => ?_) hc.2⟩
    exact h x (by simp [List.dropLast_cons_of_ne_nil, hx]) y (List.mem_cons_of_mem _ hy)

end

/-- The pointers lay out the list `l`. -/
structure Chain {α : Type*} (null : α) (next prev : α → α) (first last : α) (l : List α) :
    Prop where
  nodup : l.Nodup
  notMem : null ∉ l
  head : first = l.headD null
  back : ∀ a ∈ l.getLast?, last = a
  stop : ∀ a ∈ l.getLast?, next a = null
  link : l.IsChain fun a b => next a = b ∧ prev b = a

namespace Chain

variable {α : Type*} {null first last a x : α} {next prev next' prev' : α → α} {l xs ys : List α}

theorem empty : Chain null next prev null last [] where
  nodup := List.nodup_nil
  notMem := List.not_mem_nil
  head := rfl
  back := by simp
  stop := by simp
  link := .nil

theorem first_eq_null (h : Chain null next prev first last l) : first = null ↔ l = [] := by
  rw [h.head]
  cases l with
  | nil => simp
  | cons a l =>
    simp only [List.headD_cons, reduceCtorEq, iff_false]
    rintro rfl
    exact h.notMem (by simp)

/-- A cell behind another one is not the first. -/
theorem ne_first (h : Chain null next prev first last (xs ++ a :: ys)) (hxs : xs ≠ []) :
    a ≠ first := by
  obtain ⟨x, xs, rfl⟩ := List.exists_cons_of_ne_nil hxs
  have hne := (List.nodup_append.1 h.nodup).2.2 x (by simp) a (by simp)
  rw [h.head]
  exact hne.symm

/-- A cell before another one is not the last. -/
theorem ne_last (h : Chain null next prev first last (xs ++ a :: ys)) (hys : ys ≠ []) :
    a ≠ last := by
  obtain ⟨ys, y, rfl⟩ := (List.eq_nil_or_concat ys).resolve_left hys
  rw [h.back y (by simp [List.getLast?_append, List.getLast?_cons])]
  rintro rfl
  have := (List.nodup_cons.1 (List.nodup_append.1 h.nodup).2.1).1
  simp at this

/-- Only the forward pointers of the cells and the back pointers behind the first
    one matter. -/
theorem congr (h : Chain null next prev first last l) (hn : ∀ a ∈ l, next' a = next a)
    (hp : ∀ a ∈ l.tail, prev' a = prev a) : Chain null next' prev' first last l where
  nodup := h.nodup
  notMem := h.notMem
  head := h.head
  back := h.back
  stop a ha := (hn a (List.mem_of_getLast? ha)).trans (h.stop a ha)
  link := isChain_imp (fun a ha b hb hab =>
    ⟨(hn a (List.mem_of_mem_dropLast ha)).trans hab.1, (hp b hb).trans hab.2⟩) h.link

/-- The cell behind the first one. -/
theorem next_cons (h : Chain null next prev first last (a :: l)) : next a = l.headD null := by
  cases l with
  | nil => exact h.stop a (by simp)
  | cons b l => exact (List.isChain_cons_cons.1 h.link).1.1

/-- The first cell is taken out. -/
theorem tail (h : Chain null next prev first last (a :: l)) :
    Chain null next prev (next a) last l := by
  have hlast : ∀ b ∈ l.getLast?, b ∈ (a :: l).getLast? := by
    intro b hb
    cases l with
    | nil => simp at hb
    | cons c l => simpa using hb
  exact {
    nodup := (List.nodup_cons.1 h.nodup).2
    notMem := fun hm => h.notMem (by simp [hm])
    head := h.next_cons
    back := fun b hb => h.back b (hlast b hb)
    stop := fun b hb => h.stop b (hlast b hb)
    link := h.link.tail }

/-- The cell behind a cell. -/
theorem next_append : ∀ {xs : List α} {first : α}, Chain null next prev first last (xs ++ a :: ys) →
    next a = ys.headD null
  | [], _, h => h.next_cons
  | _ :: _, _, h => next_append h.tail

/-- The cells from `x` on, at most `fuel` of them. -/
def walk [DecidableEq α] (null : α) (next : α → α) : ℕ → α → List α
  | 0, _ => []
  | fuel + 1, x => if x = null then [] else x :: walk null next fuel (next x)

/-- A walk from the first cell finds the list. -/
theorem walk_eq [DecidableEq α] : ∀ {l : List α} {first : α} {fuel : ℕ},
    Chain null next prev first last l → l.length ≤ fuel → walk null next fuel first = l
  | [], _, 0, _, _ => rfl
  | [], _, _ + 1, h, _ => by rw [walk, if_pos (h.first_eq_null.2 rfl)]
  | a :: l, first, fuel + 1, h, hf => by
    have hfirst : first = a := h.head
    have hne : first ≠ null := fun he => by cases h.first_eq_null.1 he
    rw [walk, if_neg hne, hfirst, walk_eq h.tail (Nat.le_of_succ_le_succ hf)]

/-- A cell is put into an empty list. -/
theorem singleton (hx : x ≠ null) (hn : next x = null) : Chain null next prev x x [x] where
  nodup := List.nodup_singleton x
  notMem := by simpa using hx.symm
  head := rfl
  back := by simp
  stop := by simpa using hn
  link := .singleton x

/-- A cell is put behind the last one, `z`. -/
theorem push {z : α} (h : Chain null next prev first last (l ++ [z])) (hx : x ∉ l ++ [z])
    (hnull : x ≠ null) (hn : ∀ b ∈ l, next' b = next b) (hlast : next' z = x)
    (hstop : next' x = null) (hp : ∀ b ∈ (l ++ [z]).tail, prev' b = prev b) (hback : prev' x = z) :
    Chain null next' prev' first x (l ++ [z] ++ [x]) where
  nodup := by
    rw [← List.concat_eq_append, List.nodup_concat]
    exact ⟨hx, h.nodup⟩
  notMem hm := by
    rcases List.mem_append.1 hm with hm | hm
    · exact h.notMem hm
    · exact hnull (List.mem_singleton.1 hm).symm
  head := by rw [h.head]; cases l <;> simp
  back := by simp
  stop := by simpa using hstop
  link := by
    rw [List.isChain_append]
    refine ⟨isChain_imp (fun a ha b hb hab => ?_) h.link, .singleton x, by simp [hlast, hback]⟩
    rw [List.dropLast_concat] at ha
    exact ⟨(hn a ha).trans hab.1, (hp b hb).trans hab.2⟩

/-- The cell behind `z` is taken out. -/
theorem remove [DecidableEq α] {z last' : α}
    (h : Chain null next prev first last (xs ++ z :: a :: ys))
    (hn : ∀ b, next' b = if b = z then ys.headD null else next b)
    (hp : ∀ b, prev' b = if b ∈ ys.head? then z else prev b)
    (hlast : ∀ b ∈ (xs ++ z :: ys).getLast?, last' = b) :
    Chain null next' prev' first last' (xs ++ z :: ys) := by
  have hsub : (xs ++ z :: ys).Sublist (xs ++ z :: a :: ys) :=
    ((List.sublist_cons_self a ys).cons_cons z).append_left xs
  obtain ⟨hl, hr⟩ := List.isChain_split.1 h.link
  have hnd := h.nodup.sublist hsub
  obtain ⟨-, hys, hxs⟩ := List.nodup_append.1 hnd
  -- the pointers of the other cells stay
  have hkeep : ∀ b ∈ xs ++ ys, next' b = next b := by
    intro b hb
    rw [hn, if_neg]
    rintro rfl
    rcases List.mem_append.1 hb with hb | hb
    · exact hxs b hb b (by simp) rfl
    · exact (List.nodup_cons.1 hys).1 hb
  refine ⟨hnd, fun hm => h.notMem (hsub.subset hm), ?_, hlast, fun b hb => ?_,
    List.isChain_split.2 ⟨isChain_imp (fun b hb c hc hbc => ?_) hl, ?_⟩⟩
  · rw [h.head]
    cases xs <;> simp
  · cases ys with
    | nil =>
      obtain rfl : z = b := by simpa using hb
      exact (hn z).trans (if_pos rfl)
    | cons y ys =>
      have hb' : b ∈ (y :: ys).getLast? := by simpa [List.getLast?_append] using hb
      rw [hkeep b (List.mem_append_right _ (List.mem_of_getLast? hb'))]
      exact h.stop b (by simpa [List.getLast?_append] using hb)
  · rw [List.dropLast_concat] at hb
    refine ⟨(hkeep b (List.mem_append_left _ hb)).trans hbc.1, ?_⟩
    rw [hp, if_neg]
    · exact hbc.2
    · intro hy
      have hc' := List.mem_of_mem_tail hc
      have hy' := List.mem_of_mem_head? hy
      rcases List.mem_append.1 hc' with hc' | hc'
      · exact hxs c hc' c (List.mem_cons_of_mem _ hy') rfl
      · exact (List.nodup_cons.1 hys).1 (List.mem_singleton.1 hc' ▸ hy')
  · cases ys with
    | nil => exact .singleton z
    | cons y ys =>
      refine List.isChain_cons_cons.2 ⟨⟨(hn z).trans (if_pos rfl), (hp y).trans (if_pos rfl)⟩, ?_⟩
      refine isChain_imp (fun b hb c hc hbc => ⟨?_, ?_⟩) hr.tail.tail
      · rw [hkeep b (List.mem_append_right _ (List.mem_of_mem_dropLast hb))]
        exact hbc.1
      · rw [hp, if_neg]
        · exact hbc.2
        · rintro ⟨⟩
          exact (List.nodup_cons.1 (List.nodup_cons.1 hys).2).1 hc

end Chain

end LinkedList
