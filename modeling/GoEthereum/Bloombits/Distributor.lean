/-
  The distribution of requests for bloom bits (core/bloombits/matcher.go).

  The distributor keeps the requested sections of each bit in a sorted list, allots bits to
  retrievers and hands out their sections.  Its events are received one at a time.  A retriever
  gets a bit, asks for sections of it once, and delivers them, some of them perhaps empty;
  `PendingSections` changes nothing.  The scheduler of a bit requests a section once.

  A bit is found by its first section, which is compared with the greatest number; a section
  with that number is not found (`distribution`).
-/
import Mathlib.Data.Finset.Basic
import Mathlib.Data.List.GetD
import Mathlib.Data.List.Perm.Basic
import Mathlib.Algebra.BigOperators.Group.List.Basic
import Mathlib.Tactic
import GoEthereum.Common

namespace GoEthereum.Bloombits

open GoEthereum.Rlp

/-! ## Model -/

def maxUint64 : UInt64 := .ofNat (2 ^ 64 - 1)

/-- The state of `distributor` and of the retrievers. -/
structure Distributor where
  /-- The requested sections of each bit; an absent key means an empty list. -/
  requests : ℕ → List UInt64 := fun _ => []
  unallocs : Finset ℕ := ∅
  /-- The channel `retrievers` is not nil. -/
  listening : Bool := false
  allocs : ℤ := 0
  /-- The bits allotted to retrievers that have not asked for sections. -/
  allotted : List ℕ := []
  /-- The sections that retrievers hold, with the bit. -/
  outstanding : List (ℕ × List UInt64) := []
  /-- What the schedulers have requested. -/
  requested : List (ℕ × UInt64) := []
  /-- What the schedulers were given. -/
  delivered : List (ℕ × UInt64) := []

namespace Distributor

/-- `assign`; `waiting` says whether a retriever is waiting. -/
def assign (s : Distributor) (bit : ℕ) (waiting : Bool) : Distributor :=
  if waiting then { s with allocs := s.allocs + 1, allotted := bit :: s.allotted }
  else { s with listening := true, unallocs := insert bit s.unallocs }

/-- A section is put into a list, in front of the first one that is not smaller. -/
def insertSection (sort : SearchFn) (queue : List UInt64) (x : UInt64) : List UInt64 :=
  let index := sort.search queue.length fun i => decide (x ≤ queue.getD i 0)
  queue.take index ++ x :: queue.drop index

/-- A request arrives. -/
def request (sort : SearchFn) (s : Distributor) (bit : ℕ) (x : UInt64) (waiting : Bool) :
    Distributor :=
  let queue := s.requests bit
  let s := { s with
    requests := Function.update s.requests bit (insertSection sort queue x)
    requested := (bit, x) :: s.requested }
  if queue.length = 0 then s.assign bit waiting else s

/-- The bit with the lowest section, and that section; reading the first element of an empty list
    is `none`. -/
def lowest (requests : ℕ → List UInt64) : List ℕ → ℕ × UInt64 → Option (ℕ × UInt64)
  | [], best => some best
  | idx :: order, best =>
    match requests idx with
    | [] => none
    | x :: _ => lowest requests order (if x < best.2 then (idx, x) else best)

/-- A retriever arrives; `order` are the bits in `unallocs` as they are visited. -/
def arrive (s : Distributor) (order : List ℕ) : Option Distributor :=
  (lowest s.requests order (0, maxUint64)).map fun best =>
    let unallocs := s.unallocs.erase best.1
    { s with
      unallocs
      listening := if unallocs = ∅ then false else s.listening
      allocs := s.allocs + 1
      allotted := best.1 :: s.allotted }

/-- A retriever asks for sections of its bit. -/
def retrieve (s : Distributor) (bit : ℕ) (want : ℕ) (waiting : Bool) : Distributor :=
  let queue := s.requests bit
  let sections := if want ≥ queue.length then queue else queue.take want
  let rest := if want ≥ queue.length then [] else queue.drop want
  let s := { s with
    requests := Function.update s.requests bit rest
    allotted := s.allotted.erase bit
    outstanding := (bit, sections) :: s.outstanding }
  if rest.length > 0 then s.assign bit waiting else s

/-- The sections of a delivery whose data is missing, or is not. -/
def sectionsOf (missing : Bool) (sections : List UInt64) (bitsets : List Bytes) : List UInt64 :=
  ((sections.zip bitsets).filter fun x => x.2.isEmpty == missing).map Prod.fst

/-- A retriever delivers its sections. -/
def deliver (sort : SearchFn) (s : Distributor) (bit : ℕ) (sections : List UInt64)
    (bitsets : List Bytes) (waiting : Bool) : Distributor :=
  let missing := sectionsOf true sections bitsets
  let s := { s with
    allocs := s.allocs - 1
    outstanding := s.outstanding.erase (bit, sections)
    delivered := (sectionsOf false sections bitsets).map (bit, ·) ++ s.delivered }
  if missing.length > 0 then
    let queue := missing.foldl (insertSection sort) (s.requests bit)
    let s := { s with requests := Function.update s.requests bit queue }
    if queue.length = missing.length then s.assign bit waiting else s
  else s

end Distributor

/-- The states of runs in which the sections in `U` are requested. -/
inductive Reached (sort : SearchFn) (U : Set UInt64) : Distributor → Prop
  | start : Reached sort U {}
  | request {s : Distributor} (bit : ℕ) (x : UInt64) (waiting : Bool) : Reached sort U s →
    x ∈ U → (bit, x) ∉ s.requested → Reached sort U (s.request sort bit x waiting)
  | arrive {s s' : Distributor} (order : List ℕ) : Reached sort U s → s.listening = true →
    order.Nodup → (∀ b, b ∈ order ↔ b ∈ s.unallocs) → s.arrive order = some s' → Reached sort U s'
  | retrieve {s : Distributor} (bit want : ℕ) (waiting : Bool) : Reached sort U s →
    bit ∈ s.allotted → Reached sort U (s.retrieve bit want waiting)
  | deliver {s : Distributor} (bit : ℕ) (sections : List UInt64) (bitsets : List Bytes)
    (waiting : Bool) : Reached sort U s → (bit, sections) ∈ s.outstanding →
    bitsets.length = sections.length → Reached sort U (s.deliver sort bit sections bitsets waiting)

/-! ## Sorted lists -/

variable {sort : SearchFn} {U : Set UInt64} {s : Distributor}
  {bit : ℕ} {queue : List UInt64} {requests : ℕ → List UInt64}

theorem insertSection_perm (sort : SearchFn) (queue : List UInt64) (x : UInt64) :
    (Distributor.insertSection sort queue x).Perm (x :: queue) := by
  simp only [Distributor.insertSection]
  refine List.perm_middle.trans ?_
  rw [List.take_append_drop]

theorem insertSection_sorted (h : queue.Pairwise (· ≤ ·)) (x : UInt64) :
    (Distributor.insertSection sort queue x).Pairwise (· ≤ ·) := by
  have hget := List.pairwise_iff_getElem.1 h
  have hmono : ∀ i j, i ≤ j → j < queue.length → decide (x ≤ queue.getD i 0) = true →
      decide (x ≤ queue.getD j 0) = true := by
    intro i j hij hj hi
    rw [List.getD_eq_getElem _ _ (hij.trans_lt hj), decide_eq_true_iff] at hi
    rw [List.getD_eq_getElem _ _ hj, decide_eq_true_iff]
    rcases hij.eq_or_lt with rfl | hlt
    · exact hi
    · exact UInt64.le_trans hi (hget i j _ hj hlt)
  have hspec := sort.spec hmono
  simp only [Distributor.insertSection]
  generalize sort.search queue.length (fun i => decide (x ≤ queue.getD i 0)) = index at hspec
  have hsplit := h
  rw [← List.take_append_drop index queue, List.pairwise_append] at hsplit
  obtain ⟨htake, hdrop, hcross⟩ := hsplit
  -- the elements before the index are smaller, those after it are not
  have hbefore : ∀ a ∈ queue.take index, a ≤ x := by
    intro a ha
    obtain ⟨i, hi, rfl⟩ := List.mem_take_iff_getElem.1 ha
    have hlt : i < index ∧ i < queue.length := lt_min_iff.1 hi
    have hfalse := hspec i hlt.2
    rw [List.getD_eq_getElem _ _ hlt.2, decide_eq_false (not_le.2 hlt.1),
      decide_eq_false_iff_not] at hfalse
    exact UInt64.le_of_lt (UInt64.not_le.1 hfalse)
  have hafter : ∀ b ∈ queue.drop index, x ≤ b := by
    intro b hb
    obtain ⟨i, hi, rfl⟩ := List.mem_drop_iff_getElem.1 hb
    have htrue := hspec (index + i) (by omega)
    rw [List.getD_eq_getElem _ _ (by omega), decide_eq_true (Nat.le_add_right index i),
      decide_eq_true_iff] at htrue
    exact htrue
  refine List.pairwise_append.2 ⟨htake, List.pairwise_cons.2 ⟨hafter, hdrop⟩, fun a ha b hb => ?_⟩
  rcases List.mem_cons.1 hb with rfl | hb
  · exact hbefore a ha
  · exact hcross a ha b hb

theorem foldl_insertSection (sort : SearchFn) (missing queue : List UInt64) :
    (missing.foldl (Distributor.insertSection sort) queue).Perm (missing ++ queue) ∧
      (queue.Pairwise (· ≤ ·) →
        (missing.foldl (Distributor.insertSection sort) queue).Pairwise (· ≤ ·)) := by
  induction missing generalizing queue with
  | nil => exact ⟨.refl _, id⟩
  | cons x missing ih =>
    obtain ⟨hperm, hsorted⟩ := ih (Distributor.insertSection sort queue x)
    refine ⟨hperm.trans ?_, fun h => hsorted (insertSection_sorted h x)⟩
    exact ((insertSection_perm sort queue x).append_left missing).trans List.perm_middle

/-! ## Invariant -/

namespace Distributor

/-- How often a section of a bit is held by a retriever. -/
def heldBy (outstanding : List (ℕ × List UInt64)) (bit : ℕ) (x : UInt64) : ℕ :=
  (outstanding.map fun a => if a.1 = bit then a.2.count x else 0).sum

/-- The number of places of a section: the list of its bit, and the retrievers. -/
def places (s : Distributor) (bit : ℕ) (x : UInt64) : ℕ :=
  (s.requests bit).count x + heldBy s.outstanding bit x

/-- The number of places of a bit: `unallocs`, and the retrievers that have not asked. -/
def allotments (s : Distributor) (bit : ℕ) : ℕ :=
  (if bit ∈ s.unallocs then 1 else 0) + s.allotted.count bit

end Distributor

open Distributor

/-- What is known of the sections. -/
structure Placed (U : Set UInt64) (s : Distributor) : Prop where
  places : ∀ b x, s.places b x = if (b, x) ∈ s.requested ∧ (b, x) ∉ s.delivered then 1 else 0
  sorted : ∀ b, (s.requests b).Pairwise (· ≤ ·)
  requested : ∀ b x, (b, x) ∈ s.requested → x ∈ U
  delivered : ∀ b x, (b, x) ∈ s.delivered → (b, x) ∈ s.requested
  listening : s.listening = true → s.unallocs.Nonempty
  allocs : s.allocs = s.allotted.length + s.outstanding.length

/-- What is known of the sections and the bits. -/
structure Inv (U : Set UInt64) (s : Distributor) : Prop extends Placed U s where
  allotments : ∀ b, s.allotments b = if s.requests b = [] then 0 else 1

theorem heldBy_cons (bit b : ℕ) (sections : List UInt64) (l : List (ℕ × List UInt64)) (x : UInt64) :
    heldBy ((bit, sections) :: l) b x =
      (if b = bit then sections.count x else 0) + heldBy l b x := by
  simp only [heldBy, List.map_cons, List.sum_cons, eq_comm (a := bit)]

theorem heldBy_erase {sections : List UInt64} {l : List (ℕ × List UInt64)}
    (h : (bit, sections) ∈ l) (b : ℕ) (x : UInt64) :
    heldBy l b x =
      (if b = bit then sections.count x else 0) + heldBy (l.erase (bit, sections)) b x := by
  rw [← heldBy_cons]
  exact ((List.perm_cons_erase h).map _).sum_eq

theorem allotments_assign (waiting : Bool) (hbit : bit ∉ s.unallocs) (b : ℕ) :
    (s.assign bit waiting).allotments b = s.allotments b + if b = bit then 1 else 0 := by
  rw [Distributor.assign]
  split
  · simp only [Distributor.allotments, List.count_cons, beq_iff_eq, eq_comm (a := bit)]
    omega
  · simp only [Distributor.allotments, Finset.mem_insert]
    by_cases hb : b = bit
    · subst hb
      simp [hbit]
      omega
    · simp [hb]

theorem Placed.assign (h : Placed U s) (waiting : Bool)
    (hallotments : ∀ b, s.allotments b = if s.requests b = [] ∨ b = bit then 0 else 1)
    (hne : s.requests bit ≠ []) : Inv U (s.assign bit waiting) := by
  have hbit : bit ∉ s.unallocs := fun hmem => by
    have := hallotments bit
    simp [Distributor.allotments, hmem] at this
  have hallotments' : ∀ b, (s.assign bit waiting).allotments b =
      if s.requests b = [] then 0 else 1 := by
    intro b
    rw [allotments_assign waiting hbit, hallotments]
    by_cases hb : b = bit
    · subst hb
      simp [hne]
    · simp [hb]
  revert hallotments'
  rw [Distributor.assign]
  split
  · intro hallotments'
    refine { h with allotments := hallotments', allocs := ?_ }
    simp only [List.length_cons, h.allocs]
    push_cast
    ring
  · exact fun hallotments' => { h with
      allotments := hallotments', listening := fun _ => ⟨bit, Finset.mem_insert_self ..⟩ }

theorem count_update (b : ℕ) (x : UInt64) : (Function.update requests bit queue b).count x =
      if b = bit then queue.count x else (requests b).count x := by
  by_cases hb : b = bit
  · subst hb
    simp
  · simp [hb]

theorem sorted_update (h : ∀ b, (requests b).Pairwise (· ≤ ·)) (hqueue : queue.Pairwise (· ≤ ·))
    (b : ℕ) :
    (Function.update requests bit queue b).Pairwise (· ≤ ·) := by
  by_cases hb : b = bit
  · subst hb
    simpa using hqueue
  · simpa [hb] using h b

theorem Placed.filled {old : ℕ → List UInt64} (h : Placed U s)
    (hrequests : s.requests = Function.update old bit queue) (hne : queue ≠ [])
    (hallotments : ∀ b, s.allotments b = if old b = [] then 0 else 1) (waiting : Bool) :
    (old bit = [] → Inv U (s.assign bit waiting)) ∧ (old bit ≠ [] → Inv U s) := by
  have hother : ∀ b, b ≠ bit → s.requests b = old b := fun b hb => by
    rw [hrequests, Function.update_of_ne hb]
  have hbit : s.requests bit ≠ [] := by rwa [hrequests, Function.update_self]
  refine ⟨fun hnil => h.assign waiting (fun b => (hallotments b).trans ?_) hbit,
    fun hcons => { h with allotments := fun b => (hallotments b).trans ?_ }⟩
  all_goals
    by_cases hb : b = bit
    · subst hb
      simp [*]
    · simp [hb, hother b hb]

theorem Inv.request (h : Inv U s) (sort : SearchFn) {x : UInt64} (waiting : Bool) (hx : x ∈ U)
    (hnew : (bit, x) ∉ s.requested) : Inv U (s.request sort bit x waiting) := by
  have hperm := insertSection_perm sort (s.requests bit) x
  have hne : insertSection sort (s.requests bit) x ≠ [] := fun hnil => by
    have := hperm.length_eq
    rw [hnil] at this
    cases this
  have hplaced : Placed U { s with
      requests := Function.update s.requests bit (insertSection sort (s.requests bit) x)
      requested := (bit, x) :: s.requested } := by
    refine { h with places := ?_, sorted := ?_, requested := ?_, delivered := ?_ }
    · intro b y
      have hold := h.places b y
      simp only [Distributor.places, count_update, hperm.count_eq, List.count_cons] at hold ⊢
      by_cases heq : b = bit ∧ y = x
      · obtain ⟨rfl, rfl⟩ := heq
        rw [if_neg (fun hmem => hnew hmem.1)] at hold
        have hdelivered : (b, y) ∉ s.delivered := fun hmem => hnew (h.delivered b y hmem)
        simp [hdelivered]
        omega
      · have hpair : (b, y) ≠ (bit, x) := fun h' => heq (Prod.mk.inj h')
        simp only [List.mem_cons, hpair, false_or, ← hold]
        by_cases hb : b = bit
        · have hy : ¬ x = y := fun hy => heq ⟨hb, hy.symm⟩
          simp [hb, hy]
        · simp [hb]
    · exact sorted_update h.sorted (insertSection_sorted (h.sorted bit) x)
    · intro b y hy
      rcases List.mem_cons.1 hy with heq | hy
      · cases heq
        exact hx
      · exact h.requested b y hy
    · exact fun b y hy => List.mem_cons_of_mem _ (h.delivered b y hy)
  obtain ⟨hassign, hkeep⟩ := hplaced.filled rfl hne h.allotments waiting
  simp only [Distributor.request]
  split
  · rename_i hlength
    exact hassign (List.length_eq_zero_iff.1 hlength)
  · rename_i hlength
    exact hkeep fun hnil => hlength (by rw [hnil]; rfl)

theorem Inv.retrieve (h : Inv U s) (want : ℕ) (waiting : Bool) (hbit : bit ∈ s.allotted) :
    Inv U (s.retrieve bit want waiting) := by
  have hone := h.allotments bit
  have hcount : 0 < s.allotted.count bit := List.count_pos_iff.2 hbit
  have hcons : s.requests bit ≠ [] := fun hnil => by
    rw [if_pos hnil, Distributor.allotments] at hone
    omega
  rw [if_neg hcons, Distributor.allotments] at hone
  simp only [Distributor.retrieve]
  generalize hsections : (if want ≥ (s.requests bit).length then s.requests bit
    else (s.requests bit).take want) = sections
  generalize hrest : (if want ≥ (s.requests bit).length then []
    else (s.requests bit).drop want) = rest
  have hsplit : sections ++ rest = s.requests bit := by
    rw [← hsections, ← hrest]
    split
    · exact List.append_nil _
    · exact List.take_append_drop ..
  have hplaced : Placed U { s with
      requests := Function.update s.requests bit rest
      allotted := s.allotted.erase bit
      outstanding := (bit, sections) :: s.outstanding } := by
    refine { h with places := ?_, sorted := ?_, allocs := ?_ }
    · intro b x
      rw [← h.places b x]
      simp only [Distributor.places, count_update, heldBy_cons]
      by_cases hb : b = bit
      · subst hb
        rw [← hsplit, List.count_append]
        simp
        omega
      · simp [hb]
    · refine sorted_update h.sorted ?_
      have := h.sorted bit
      rw [← hsplit] at this
      exact (List.pairwise_append.1 this).2.1
    · have hlength : 0 < s.allotted.length := List.length_pos_of_mem hbit
      rw [h.allocs, List.length_erase_of_mem hbit, List.length_cons]
      push_cast [Nat.cast_sub hlength]
      omega
  have hallotments : ∀ b, Distributor.allotments { s with
      requests := Function.update s.requests bit rest
      allotted := s.allotted.erase bit
      outstanding := (bit, sections) :: s.outstanding } b =
        if s.requests b = [] ∨ b = bit then 0 else 1 := by
    intro b
    have hb := h.allotments b
    simp only [Distributor.allotments, List.count_erase, beq_iff_eq] at hb hone ⊢
    by_cases heq : b = bit
    · subst heq
      simp only [or_true, if_true]
      omega
    · simp [heq, Ne.symm heq, hb]
  split
  · rename_i hpos
    refine hplaced.assign waiting (fun b => (hallotments b).trans ?_) ?_
    · by_cases hb : b = bit
      · simp [hb]
      · simp [hb]
    · simpa using List.length_pos_iff.1 hpos
  · rename_i hzero
    have hnil : rest = [] := List.length_eq_zero_iff.1 (by omega)
    refine { hplaced with allotments := fun b => (hallotments b).trans ?_ }
    by_cases hb : b = bit
    · simp [hb, hnil]
    · simp [hb]

theorem sectionsOf_count {sections : List UInt64} {bitsets : List Bytes}
    (hlength : bitsets.length = sections.length) (x : UInt64) :
    (sectionsOf true sections bitsets).count x + (sectionsOf false sections bitsets).count x =
      sections.count x := by
  have hperm := (List.filter_append_perm (fun y : UInt64 × Bytes => y.2.isEmpty == true)
    (sections.zip bitsets)).map Prod.fst
  have hfilter : (sections.zip bitsets).filter (fun y => !(y.2.isEmpty == true)) =
      (sections.zip bitsets).filter fun y => y.2.isEmpty == false := by
    refine List.filter_congr fun y _ => ?_
    cases y.2.isEmpty <;> rfl
  rw [hfilter, List.map_append, List.map_fst_zip hlength.ge] at hperm
  rw [← hperm.count_eq, List.count_append, sectionsOf, sectionsOf]

theorem Inv.deliver (h : Inv U s) (sort : SearchFn) {sections : List UInt64}
    {bitsets : List Bytes} (waiting : Bool) (hmem : (bit, sections) ∈ s.outstanding)
    (hlength : bitsets.length = sections.length) :
    Inv U (s.deliver sort bit sections bitsets waiting) := by
  have hcount := fun x => sectionsOf_count hlength x
  simp only [Distributor.deliver]
  generalize sectionsOf true sections bitsets = missing at hcount
  generalize sectionsOf false sections bitsets = got at hcount
  obtain ⟨hperm, hsorted⟩ := foldl_insertSection sort missing (s.requests bit)
  -- a section that was delivered was in one place only
  have hgot : ∀ x ∈ got, (bit, x) ∈ s.requested ∧ (s.requests bit).count x + missing.count x +
      heldBy (s.outstanding.erase (bit, sections)) bit x = 0 := by
    intro x hx
    have hpos : 0 < got.count x := List.count_pos_iff.2 hx
    have hplaces := h.places bit x
    rw [Distributor.places, heldBy_erase hmem, if_pos rfl, ← hcount x] at hplaces
    split at hplaces
    · rename_i hin
      exact ⟨hin.1, by omega⟩
    · omega
  have hplaced : Placed U { s with
      allocs := s.allocs - 1
      outstanding := s.outstanding.erase (bit, sections)
      delivered := got.map (bit, ·) ++ s.delivered
      requests := Function.update s.requests bit
        (missing.foldl (insertSection sort) (s.requests bit)) } := by
    refine { h with places := ?_, sorted := ?_, delivered := ?_, allocs := ?_ }
    · intro b x
      have hplaces := h.places b x
      simp only [Distributor.places, count_update, hperm.count_eq, List.count_append,
        heldBy_erase hmem b x, List.mem_append, List.mem_map] at hplaces ⊢
      by_cases hb : b = bit
      · subst hb
        by_cases hx : x ∈ got
        · obtain ⟨-, hzero⟩ := hgot x hx
          simp only [if_true]
          rw [if_neg (fun hnot => hnot.2 (.inl ⟨x, hx, rfl⟩))]
          omega
        · have hnone : got.count x = 0 := List.count_eq_zero.2 hx
          have hsum := hcount x
          simp only [if_true] at hplaces ⊢
          have hnot : ¬ ∃ a ∈ got, (b, a) = (b, x) := by
            rintro ⟨a, ha, heq⟩
            cases heq
            exact hx ha
          simp only [hnot, false_or]
          omega
      · have hnot : ¬ ∃ a ∈ got, (bit, a) = (b, x) := by
          rintro ⟨a, ha, heq⟩
          cases heq
          exact hb rfl
        simp only [hb, if_false, hnot, false_or, Nat.zero_add] at hplaces ⊢
        exact hplaces
    · exact sorted_update h.sorted (hsorted (h.sorted bit))
    · intro b x hx
      rcases List.mem_append.1 hx with hx | hx
      · obtain ⟨a, ha, heq⟩ := List.mem_map.1 hx
        cases heq
        exact (hgot _ ha).1
      · exact h.delivered b x hx
    · have hpos : 0 < s.outstanding.length := List.length_pos_of_mem hmem
      rw [h.allocs, List.length_erase_of_mem hmem]
      push_cast [Nat.cast_sub hpos]
      omega
  split
  · rename_i hpos
    have hne : missing.foldl (insertSection sort) (s.requests bit) ≠ [] := fun hnil => by
      have := hperm.length_eq
      rw [hnil, List.length_append, List.length_nil] at this
      omega
    obtain ⟨hassign, hkeep⟩ := hplaced.filled rfl hne h.allotments waiting
    have hsum := hperm.length_eq
    rw [List.length_append] at hsum
    split
    · exact hassign (List.length_eq_zero_iff.1 (by omega))
    · refine hkeep fun hnil => ?_
      have := List.length_eq_zero_iff.2 hnil
      omega
  · rename_i hzero
    have hnil : missing = [] := List.length_eq_zero_iff.1 (by omega)
    subst hnil
    rw [List.foldl_nil, Function.update_eq_self] at hplaced
    exact { hplaced with allotments := h.allotments }

theorem lowest_mem (order : List ℕ) (best : ℕ × UInt64) (h : ∀ b ∈ order, requests b ≠ []) :
    ∃ r, lowest requests order best = some r ∧ (r = best ∨ r.1 ∈ order) := by
  induction order generalizing best with
  | nil => exact ⟨best, rfl, .inl rfl⟩
  | cons idx order ih =>
    obtain ⟨hidx, horder⟩ := List.forall_mem_cons.1 h
    rw [lowest]
    split
    · rename_i hnil
      exact absurd hnil hidx
    · rename_i x rest _
      obtain ⟨r, hr, hmem⟩ := ih (if x < best.2 then (idx, x) else best) horder
      refine ⟨r, hr, ?_⟩
      rcases hmem with rfl | hmem
      · split
        · exact .inr (List.mem_cons_self ..)
        · exact .inl rfl
      · exact .inr (List.mem_cons_of_mem _ hmem)

theorem Inv.mem_lowest (h : Inv U s) (hU : maxUint64 ∉ U) {order : List ℕ}
    (hne : order ≠ []) (horder : ∀ b ∈ order, s.requests b ≠ []) :
    ∃ r, lowest s.requests order (0, maxUint64) = some r ∧ r.1 ∈ order := by
  cases order with
  | nil => exact absurd rfl hne
  | cons idx order =>
    obtain ⟨hidx, horder⟩ := List.forall_mem_cons.1 horder
    obtain ⟨x, rest, hrequests⟩ := List.exists_cons_of_ne_nil hidx
    -- the first bit that is visited replaces the start value
    have hx : x < maxUint64 := by
      have hmem : x ∈ U := by
        refine h.requested idx x ?_
        have hplaces := h.places idx x
        by_contra hnot
        rw [if_neg (fun hin => hnot hin.1), Distributor.places, hrequests, List.count_cons_self]
          at hplaces
        omega
      have hne : x ≠ maxUint64 := fun heq => hU (heq ▸ hmem)
      have hlt := x.toNat_lt
      have hmax : maxUint64.toNat = 2 ^ 64 - 1 := rfl
      have hne' : x.toNat ≠ 2 ^ 64 - 1 := fun heq => hne (UInt64.toNat_inj.1 (heq.trans hmax.symm))
      rw [UInt64.lt_iff_toNat_lt, hmax]
      omega
    rw [lowest, hrequests]
    obtain ⟨r, hr, hmem⟩ := lowest_mem order (idx, x) horder
    refine ⟨r, by simpa [hx] using hr, ?_⟩
    rcases hmem with rfl | hmem
    · exact List.mem_cons_self ..
    · exact List.mem_cons_of_mem _ hmem

theorem Inv.requests_ne (h : Inv U s) {b : ℕ} (hb : b ∈ s.unallocs) : s.requests b ≠ [] := by
  intro hnil
  have := h.allotments b
  rw [if_pos hnil, Distributor.allotments, if_pos hb] at this
  omega

theorem Inv.arrive (h : Inv U s) (hU : maxUint64 ∉ U) {order : List ℕ}
    (hlistening : s.listening = true) (horder : ∀ b, b ∈ order ↔ b ∈ s.unallocs) {s' : Distributor}
    (harrive : s.arrive order = some s') : Inv U s' := by
  have hne : order ≠ [] := fun hnil => by
    obtain ⟨b, hb⟩ := h.listening hlistening
    rw [hnil] at horder
    exact absurd ((horder b).2 hb) (by simp)
  obtain ⟨r, hr, hmem⟩ := h.mem_lowest hU hne fun b hb => h.requests_ne ((horder b).1 hb)
  rw [Distributor.arrive, hr] at harrive
  cases harrive
  have hunalloc := (horder r.1).1 hmem
  refine { h with listening := fun hlisten => ?_, allocs := ?_, allotments := fun b => ?_ }
  · by_contra hempty
    have hif : (if s.unallocs.erase r.1 = ∅ then false else s.listening) = true := hlisten
    rw [if_pos (Finset.not_nonempty_iff_eq_empty.1 hempty)] at hif
    cases hif
  · simp only [List.length_cons, h.allocs]
    push_cast
    ring
  · rw [← h.allotments b]
    simp only [Distributor.allotments, Finset.mem_erase, List.count_cons, beq_iff_eq]
    by_cases hb : b = r.1
    · subst hb
      simp [hunalloc]
      omega
    · simp [hb, Ne.symm hb]

theorem Reached.inv (hU : maxUint64 ∉ U) (h : Reached sort U s) : Inv U s := by
  induction h with
  | start =>
    refine ⟨⟨fun b x => ?_, fun b => .nil, ?_, ?_, ?_, rfl⟩, fun b => ?_⟩
    all_goals simp [Distributor.places, heldBy, Distributor.allotments]
  | request bit x waiting _ hx hnew ih => exact ih.request sort waiting hx hnew
  | arrive order _ hlistening _ horder harrive ih => exact ih.arrive hU hlistening horder harrive
  | retrieve bit want waiting _ hbit ih => exact ih.retrieve want waiting hbit
  | deliver bit sections bitsets waiting _ hmem hlength ih =>
    exact ih.deliver sort waiting hmem hlength

/-! ## Distribution -/

/-- The requests are distributed: a section that is not delivered is in one place, a bit with
    sections to one retriever at most, and no empty list is accessed when a retriever arrives. -/
structure Distributed (s : Distributor) : Prop where
  once : ∀ b x, (b, x) ∈ s.requested → (b, x) ∉ s.delivered → s.places b x = 1
  allotted : ∀ b, s.requests b ≠ [] → b ∈ s.unallocs ∧ b ∉ s.allotted ∨
    b ∉ s.unallocs ∧ s.allotted.count b = 1
  sorted : ∀ b, (s.requests b).Pairwise (· ≤ ·)
  firsts : ∀ order, (∀ b, b ∈ order ↔ b ∈ s.unallocs) → (s.arrive order).isSome
  allocs : s.allocs = s.allotted.length + s.outstanding.length

theorem Inv.distributed (h : Inv U s) : Distributed s where
  once b x hreq hdel := (h.places b x).trans (if_pos ⟨hreq, hdel⟩)
  allotted b hne := by
    have hone := h.allotments b
    rw [if_neg hne, Distributor.allotments] at hone
    by_cases hb : b ∈ s.unallocs
    · rw [if_pos hb] at hone
      exact .inl ⟨hb, List.count_eq_zero.1 (by omega)⟩
    · rw [if_neg hb] at hone
      exact .inr ⟨hb, by omega⟩
  sorted := h.sorted
  firsts order horder := by
    obtain ⟨r, hr, -⟩ := lowest_mem order (0, maxUint64) fun b hb => h.requests_ne ((horder b).1 hb)
    rw [Distributor.arrive, hr]
    rfl
  allocs := h.allocs

/-- Two retrievers get bit 0: the first section of the only bit in `unallocs` is not below the
    start value. -/
theorem reached_twice (sort : SearchFn) (hU : maxUint64 ∈ U) :
    ∃ s, Reached sort U s ∧ s.requests 0 ≠ [] ∧ s.allotted = [0, 0] := by
  have hinsert : insertSection sort [] maxUint64 = [maxUint64] := by simp [insertSection]
  let s₁ : Distributor :=
    { requests := Function.update (fun _ => []) 0 [maxUint64], allocs := 1, allotted := [0],
      requested := [(0, maxUint64)] }
  let s₂ : Distributor :=
    { s₁ with
      requests := Function.update s₁.requests 5 [maxUint64], unallocs := {5}, listening := true,
      requested := [(5, maxUint64), (0, maxUint64)] }
  have hs₁ : Reached sort U s₁ := by
    have h := Reached.request 0 maxUint64 true (.start : Reached sort U {}) hU (by simp)
    simp only [Distributor.request, hinsert] at h
    exact h
  have hs₂ : Reached sort U s₂ := by
    have h := Reached.request 5 maxUint64 false hs₁ hU (by simp [s₁])
    simp only [Distributor.request, show s₁.requests 5 = [] from rfl, hinsert] at h
    exact h
  have harrive : s₂.arrive [5] = some { s₂ with allocs := 2, allotted := [0, 0] } := rfl
  exact ⟨_, .arrive [5] hs₂ rfl (by simp) (by simp [s₂]) harrive, by simp [s₂, s₁], rfl⟩

theorem not_distributed_of_twice (hne : s.requests 0 ≠ []) (htwice : s.allotted = [0, 0]) :
    ¬ Distributed s := by
  intro h
  rcases h.allotted 0 hne with ⟨-, hmem⟩ | ⟨-, hcount⟩
  · exact hmem (by simp [htwice])
  · simp [htwice] at hcount

/-- **The requests stay distributed**, exactly if the greatest number is no section. -/
theorem distribution (sort : SearchFn) (U : Set UInt64) :
    (∀ s, Reached sort U s → Distributed s) ↔ maxUint64 ∉ U := by
  refine ⟨fun h hU => ?_, fun hU s hs => (hs.inv hU).distributed⟩
  obtain ⟨s, hs, hne, htwice⟩ := reached_twice sort hU
  exact not_distributed_of_twice hne htwice (h s hs)

/-- The sections that `Matcher.run` goes through for the blocks from `start` to `stop`. -/
def sections (sectionSize start stop : UInt64) : Set UInt64 :=
  {i | start / sectionSize ≤ i ∧ i ≤ stop / sectionSize}

/-- **Requests stay distributed** in a search for any blocks, if a section has more than one. -/
theorem sections_distributed (sort : SearchFn) {sectionSize : UInt64} (hsize : 1 < sectionSize)
    (start stop : UInt64) {s : Distributor}
    (hs : Reached sort (sections sectionSize start stop) s) : Distributed s := by
  refine (distribution sort _).2 (fun hmax => ?_) s hs
  have hle : 2 ^ 64 - 1 ≤ (stop / sectionSize).toNat := UInt64.le_iff_toNat_le.1 hmax.2
  rw [UInt64.toNat_div] at hle
  have hdiv : stop.toNat / sectionSize.toNat ≤ stop.toNat / 2 :=
    Nat.div_le_div_left (UInt64.lt_iff_toNat_lt.1 hsize) (by decide)
  have hstop := stop.toNat_lt
  omega

/-- The search from the start. -/
def linear : ℕ → (ℕ → Bool) → ℕ
  | 0, _ => 0
  | n + 1, p => if p 0 then 0 else linear n (fun i => p (i + 1)) + 1

theorem linear_spec {n : ℕ} {p : ℕ → Bool} (h : ∀ i j, i ≤ j → j < n → p i = true → p j = true) :
    ∀ i < n, p i = decide (linear n p ≤ i) := by
  induction n generalizing p with
  | zero => exact fun i hi => absurd hi (Nat.not_lt_zero i)
  | succ n ih =>
    intro i hi
    rw [linear]
    split
    · rename_i hzero
      simpa using h 0 i (Nat.zero_le i) hi hzero
    · rename_i hzero
      cases i with
      | zero => simpa using hzero
      | succ i =>
        have := ih (fun i j hij hj => h (i + 1) (j + 1) (by omega) (by omega)) i (by omega)
        simpa using this

/-- Two bits are requested, and each of them is allotted to a retriever. -/
theorem sections_distributed_two : ∃ s, Reached ⟨linear, linear_spec⟩ (sections 4096 5000 9000) s ∧
    s.allotted = [5, 0] ∧ Distributed s := by
  have h₁ : Reached ⟨linear, linear_spec⟩ (sections 4096 5000 9000) _ :=
    .request 0 1 true .start ⟨by decide, by decide⟩ (by simp)
  have h₂ : Reached ⟨linear, linear_spec⟩ (sections 4096 5000 9000) _ :=
    .request 5 2 false h₁ ⟨by decide, by decide⟩ (by decide)
  have h₃ : Reached ⟨linear, linear_spec⟩ (sections 4096 5000 9000) _ :=
    .arrive [5] h₂ rfl (by decide) (fun b => by change b ∈ [5] ↔ b ∈ ({5} : Finset ℕ); simp) rfl
  exact ⟨_, h₃, rfl, sections_distributed ⟨linear, linear_spec⟩ (by decide) 5000 9000 h₃⟩

end GoEthereum.Bloombits
