/-
  Iteration over pots (swarm/pot/pot.go) by the proximity to a key.

  A pot is arranged around its pin, and the iteration around a key that leaves the pin at some
  proximity order.  The sub-pots before it are bins of the key as they are, the pin and the
  sub-pots after it are one bin, and the sub-pot at it, if there is one, is iterated over in the
  same way (`WF.level`).  `order` is the order in which `each` visits.
-/
import GoEthereum.Lib.Visit
import GoEthereum.Swarm.PotSet

namespace GoEthereum.Swarm.Pot

variable {V : Type} [BytesAddress V] {σ : Type}

/-! ## Model -/

/-- `DefaultPof(256)` of a pin and the bytes of a key. -/
def pofKey (one : Option V) (k : Key) (pos : ℕ) : ℕ × Bool :=
  let (po, eq) := proximityOrder (toBytes one) k.bytes pos
  if po ≥ maxkeylen then (maxkeylen, true) else (po, eq)

mutual

def each (f : σ → Option V → σ × Bool) : Pot V → σ → σ × Bool
  | ⟨pin, bins, size, _⟩, s =>
    if size = 0 then (s, false) else andThen (eachBins f bins s) fun s => f s pin

/-- The loop of `each` over the sub-pots. -/
def eachBins (f : σ → Option V → σ × Bool) : List (Pot V) → σ → σ × Bool
  | [], s => (s, true)
  | n :: bins, s => andThen (each f n s) (eachBins f bins)

end

def getPos (po : ℕ) : List (Pot V) → Option (Pot V) × ℕ
  | [] => (none, 0)
  | n :: bins =>
    if po > n.po then
      let (m, i) := getPos po bins
      (m, i + 1)
    else if po < n.po then (none, 0)
    else (some n, 0)

def eachFrom (f : σ → Option V → σ × Bool) (po : ℕ) : Pot V → σ → σ × Bool
  | ⟨pin, bins, size, _⟩, s =>
    if size = 0 then (s, false)
    else andThen (eachBins f (bins.drop (getPos po bins).2) s) fun s => f s pin

/-- An iterator over the elements of a bin, as `EachBin` gives it to its callback. -/
abbrev Iter (V : Type) := ∀ τ : Type, (τ → Option V → τ × Bool) → τ → τ × Bool

mutual

/-- `eachBin`.  The flag is false if the callback ended it. -/
def eachBin (k : Key) (po : ℕ) (f : σ → ℕ → ℤ → Iter V → σ × Bool) : Pot V → σ → σ × Bool
  | ⟨pin, bins, size, tpo⟩, s =>
    if size = 0 then (s, true)
    else
      let spr := (pofKey pin k tpo).1
      let lim := (getPos spr bins).2
      andThen (visit (fun s n => if n.po < po then (s, true)
        else f s n.po n.size fun _ g s => each g n s) (bins.take lim) s) fun s =>
      match bins[lim]? with
      | none => if spr ≥ po then f s spr 1 fun _ g s => g s pin else (s, true)
      | some n =>
        let before := (bins.take lim).foldl (fun size n => size + n.size) 0
        let (spo, before) := if n.po = spr then (spr + 1, before + n.size) else (spr, before)
        andThen (if spr ≥ po then
            f s spr (size - before) fun _ g s => eachFrom g spo ⟨pin, bins, size, tpo⟩ s
          else (s, true)) fun s =>
        if n.po = spr then eachBinAt k po f spr bins s else (s, true)

/-- `eachBin` on the sub-pot with a proximity order. -/
def eachBinAt (k : Key) (po : ℕ) (f : σ → ℕ → ℤ → Iter V → σ × Bool) (p : ℕ) :
    List (Pot V) → σ → σ × Bool
  | [], s => (s, true)
  | n :: bins, s =>
    if p > n.po then eachBinAt k po f p bins s
    else if p < n.po then (s, true)
    else eachBin k po f n s

end

mutual

def eachNeighbour (k : Key) (f : σ → Option V → ℕ → σ × Bool) : Pot V → σ → σ × Bool
  | ⟨pin, bins, size, tpo⟩, s =>
    if size = 0 then (s, false)
    else
      let (po, eq) := pofKey pin k tpo
      let (n, il) := if eq then (none, bins.length) else getPos po bins
      -- the loop goes down to, but not including, `il` if there is a sub-pot at it
      let ir := if n.isSome then il + 1 else il
      andThen (if eq then (s, true) else eachNeighbourAt k f po bins s) fun s =>
      andThen (f s pin po) fun s =>
      andThen (visit (fun s n => each (fun s v => f s v po) n s) (bins.drop ir).reverse s) fun s =>
      visit (fun s n => each (fun s v => f s v n.po) n s) (bins.take il).reverse s

/-- `eachNeighbour` on the sub-pot with a proximity order, if there is one. -/
def eachNeighbourAt (k : Key) (f : σ → Option V → ℕ → σ × Bool) (p : ℕ) :
    List (Pot V) → σ → σ × Bool
  | [], s => (s, true)
  | n :: bins, s =>
    if p > n.po then eachNeighbourAt k f p bins s
    else if p < n.po then (s, true)
    else eachNeighbour k f n s

end

/-! ## The order of the elements -/

mutual

/-- The elements in the order of `each`: those of the sub-pots, and the pin. -/
def order : Pot V → List V
  | ⟨pin, bins, _, _⟩ => orderBins bins ++ pin.toList

def orderBins : List (Pot V) → List V
  | [] => []
  | n :: bins => order n ++ orderBins bins

end

variable {v : V} {bins pre post : List (Pot V)} {size : ℤ} {po p : ℕ} {o : Option (Pot V)}
  {t : Pot V} {k : Key} {lo : ℕ}

section
omit [BytesAddress V]

theorem orderBins_eq (bins : List (Pot V)) : orderBins bins = bins.flatMap order := by
  induction bins with
  | nil => rfl
  | cons n bins ih => rw [orderBins, List.flatMap_cons, ih]

theorem elemsBins_eq (bins : List (Pot V)) : elemsBins bins = bins.flatMap elems := by
  induction bins with
  | nil => rfl
  | cons n bins ih => rw [elemsBins_cons, List.flatMap_cons, ih]

end

theorem WF.order_perm (h : t.WF) : t.order.Perm t.elems := by
  induction h with
  | @mk v bins size po hbins hangs hsize ih =>
    rw [order, elems_mk, orderBins_eq, elemsBins_eq]
    exact List.perm_append_comm.trans ((List.Perm.flatMap_left bins ih).append_left _)

theorem WF.mem_order {e : V} (h : t.WF) : e ∈ t.order ↔ e ∈ t.elems := h.order_perm.mem_iff

theorem flatMap_order_perm (h : ∀ n ∈ bins, n.WF) :
    (bins.flatMap order).Perm (elemsBins bins) := by
  rw [elemsBins_eq]
  exact List.Perm.flatMap_left bins fun n hn => (h n hn).order_perm

theorem reverse_order_perm (h : ∀ n ∈ bins, n.WF) :
    (bins.reverse.flatMap order).Perm (elemsBins bins) :=
  ((List.reverse_perm bins).flatMap_right order).trans (flatMap_order_perm h)

theorem WF.size_ne_zero (h : t.WF) : t.size ≠ 0 := by
  have := List.length_pos_iff.mpr h.elems_ne_nil
  rw [h.size_eq]
  omega

omit [BytesAddress V] in
theorem eachBins_eq (f : σ → Option V → σ × Bool) (s : σ)
    (h : ∀ n ∈ bins, ∀ s, each f n s = visit (fun s e => f s (some e)) n.order s) :
    eachBins f bins s = visit (fun s e => f s (some e)) (bins.flatMap order) s := by
  induction bins generalizing s with
  | nil => rfl
  | cons n bins ih =>
    rw [eachBins, List.flatMap_cons, visit_append, h n (.head _)]
    exact congrArg _ (funext fun s => ih s fun m hm => h m (.tail _ hm))

theorem WF.each_eq (h : t.WF) (f : σ → Option V → σ × Bool) (s : σ) :
    each f t s = visit (fun s e => f s (some e)) t.order s := by
  induction h generalizing s with
  | @mk v bins size po hbins hangs hsize ih =>
    have h : WF ⟨some v, bins, size, po⟩ := ⟨hbins, hangs, hsize⟩
    rw [each, if_neg h.size_ne_zero, order, orderBins_eq, visit_append, eachBins_eq f s ih]
    exact congrArg _ (funext fun s => (andThen_mk _).symm)

/-! ## One level -/

theorem pofKey_eq (hpo : po ≤ (address v).prox k) :
    pofKey (some v) k po = ((address v).prox k, decide (address v = k)) := by
  simp only [pofKey, toBytes, proximityOrder_eq hpo]
  split_ifs with hmax
  · have heq := le_antisymm ((address v).prox_le k) hmax
    simp [Key.prox_eq_max.mp heq, Key.prox_self]
  · rfl

/-- A pot as it is seen from a key: the sub-pots before, at and after the proximity order of the
    pin and the key. -/
structure Level (k : Key) (v : V) (pre : List (Pot V)) (o : Option (Pot V))
    (post : List (Pot V)) : Prop where
  ordered : pre.Pairwise fun n n' => n.po < n'.po
  pre : ∀ n ∈ pre, n.WF ∧ n.po < k.prox (address v) ∧ ∀ e ∈ n.elems, k.prox (address e) = n.po
  sub : ∀ n ∈ o, n.WF ∧ n.po = k.prox (address v) ∧ n.po < maxkeylen ∧
    (∀ w ∈ n.pin, n.po ≤ (address w).prox k) ∧
    ∀ e ∈ n.elems, k.prox (address v) < k.prox (address e)
  post : ∀ n ∈ post, n.WF ∧ ∀ e ∈ n.elems, k.prox (address e) = k.prox (address v)

theorem WF.level (h : WF ⟨some v, bins, size, po⟩)
    (hs : Splits (k.prox (address v)) bins pre o post) : Level k v pre o post := by
  obtain ⟨rfl, hpre, hat, hpost⟩ := hs
  cases h with
  | mk hbins hangs hsize =>
    refine ⟨(List.pairwise_append.mp (List.pairwise_append.mp hangs.ordered).1).1, fun n hn => ?_,
      fun n hn => ?_, fun n hn => ?_⟩
    · have hmem : n ∈ pre ++ o.toList ++ post := by simp [hn]
      refine ⟨hbins n hmem, hpre n hn, fun e he => ?_⟩
      have hlt := hpre n hn
      rw [← hangs.prox n hmem e he, Key.prox_comm k] at hlt
      rw [Key.prox_of_lt hlt, hangs.prox n hmem e he]
    · have hmem : n ∈ pre ++ o.toList ++ post := by simp [Option.mem_toList.mpr hn]
      have hlt := hangs.po_lt n hmem
      have hfar : ∀ e ∈ n.elems, n.po < k.prox (address e) := fun e he =>
        Key.lt_prox hlt (by rw [Key.prox_comm, hat n hn]) (hangs.prox n hmem e he)
      refine ⟨hbins n hmem, hat n hn, hlt, fun w hw => ?_, hat n hn ▸ hfar⟩
      rw [Key.prox_comm]
      refine (hfar w ?_).le
      obtain ⟨pin, bins, size, po⟩ := n
      cases hw
      simp
    · have hmem : n ∈ pre ++ o.toList ++ post := by simp [hn]
      refine ⟨hbins n hmem, fun e he => ?_⟩
      have hlt := hpost n hn
      rw [← hangs.prox n hmem e he, Key.prox_comm k] at hlt
      rw [Key.prox_comm k, Key.prox_of_lt hlt, Key.prox_comm k]

omit [BytesAddress V] in
theorem getPos_eq (hs : Splits p bins pre o post) : getPos p bins = (o, pre.length) := by
  refine hs.search ?_ ?_ ?_ ?_
  · rintro n rfl hn
    simp [getPos, hn]
  · rintro rfl rfl
    rfl
  · rintro n rest rfl rfl hn
    simp [getPos, hn, hn.le]
  · intro m pre bins hm ih
    simp only [getPos, if_pos (show p > m.po from hm), ih, List.length_cons]

omit [BytesAddress V] in
theorem take_eq (hs : Splits p bins pre o post) : bins.take pre.length = pre := by
  rw [hs.eq, List.append_assoc, List.take_left]

omit [BytesAddress V] in
theorem drop_eq (hs : Splits p bins pre o post) : bins.drop pre.length = o.toList ++ post := by
  rw [hs.eq, List.append_assoc, List.drop_left]

theorem eachNeighbourAt_eq (hs : Splits p bins pre o post) (f : σ → Option V → ℕ → σ × Bool)
    (s : σ) : eachNeighbourAt k f p bins s =
      o.elim (s, true) fun n => eachNeighbour k f n s := by
  refine hs.search ?_ ?_ ?_ fun m pre bins hm ih => ?_
  · rintro n rfl hn
    simp [eachNeighbourAt, hn]
  · rintro rfl rfl
    simp [eachNeighbourAt]
  · rintro n rest rfl rfl hn
    simp [eachNeighbourAt, hn, hn.le]
  · rw [eachNeighbourAt, if_pos hm]
    exact ih

/-! ## Neighbours -/

/-- The elements in an order in which they come closer to the key, last to first. -/
structure Nearest (k : Key) (t : Pot V) (l : List V) : Prop where
  perm : l.Perm t.elems
  sorted : l.Pairwise fun e e' => k.prox (address e') ≤ k.prox (address e)

theorem visit_bins (f : σ → Option V → ℕ → σ × Bool) {c : Pot V → ℕ}
    (h : ∀ n ∈ bins, n.WF ∧ ∀ e ∈ n.elems, k.prox (address e) = c n) (s : σ) :
    visit (fun s n => each (fun s v => f s v (c n)) n s) bins.reverse s =
      visit (fun s e => f s (some e) (k.prox (address e))) (bins.reverse.flatMap order) s := by
  refine visit_flatMap (fun n hn s => ?_) s
  obtain ⟨hwf, hc⟩ := h n (List.mem_reverse.mp hn)
  rw [hwf.each_eq]
  exact visit_congr (fun e he s => by rw [hc e (hwf.mem_order.mp he)]) s

theorem WF.splits_self (h : WF ⟨some v, bins, size, po⟩)
    (hs : Splits (k.prox (address v)) bins pre o post) (hv : address v = k) :
    o = none ∧ post = [] := by
  have hmax : k.prox (address v) = maxkeylen := by rw [hv, Key.prox_self]
  cases h with
  | mk hbins hangs hsize =>
    refine ⟨Option.eq_none_iff_forall_not_mem.mpr fun n hn => ?_,
      List.eq_nil_iff_forall_not_mem.mpr fun n hn => ?_⟩
    · have := hangs.po_lt n (by simp [hs.eq, Option.mem_toList.mpr hn])
      have := hs.at_eq n hn
      omega
    · have := hangs.po_lt n (by simp [hs.eq, hn])
      have := hs.lt_post n hn
      omega

/-- The loops of `eachNeighbour`: the sub-pot that the key is in, the pin, and the other sub-pots
    from the last one to the first. -/
theorem WF.eachNeighbour_mk (h : WF ⟨some v, bins, size, po⟩)
    (hs : Splits (k.prox (address v)) bins pre o post) (hpo : po ≤ (address v).prox k)
    (f : σ → Option V → ℕ → σ × Bool) (s : σ) :
    eachNeighbour k f ⟨some v, bins, size, po⟩ s =
      andThen (o.elim (s, true) fun n => eachNeighbour k f n s) (visit
        (fun s e => f s (some e) (k.prox (address e)))
        (v :: (post.reverse.flatMap order ++ pre.reverse.flatMap order))) := by
  have hlevel := h.level hs
  have hpos : (if decide (address v = k) = true then (none, bins.length) else
      getPos (k.prox (address v)) bins) = (o, pre.length) := by
    split_ifs with hv
    · obtain ⟨rfl, rfl⟩ := h.splits_self hs (of_decide_eq_true hv)
      simp [hs.eq]
    · exact getPos_eq hs
  have hsub : (if decide (address v = k) = true then (s, true) else
      eachNeighbourAt k f (k.prox (address v)) bins s) =
      o.elim (s, true) fun n => eachNeighbour k f n s := by
    split_ifs with hv
    · obtain ⟨rfl, -⟩ := h.splits_self hs (of_decide_eq_true hv)
      rfl
    · exact eachNeighbourAt_eq hs f s
  have hdrop : bins.drop (if o.isSome then pre.length + 1 else pre.length) = post := by
    cases o with
    | none => exact drop_eq hs
    | some n => simp [hs.eq]
  rw [eachNeighbour, if_neg h.size_ne_zero, pofKey_eq hpo, Key.prox_comm (address v)]
  dsimp only
  rw [hpos, hsub, hdrop, take_eq hs]
  refine congrArg _ (funext fun s => congrArg _ (funext fun s => ?_))
  rw [visit_append, visit_bins f hlevel.post]
  exact congrArg _ (funext fun s => visit_bins f (fun n hn =>
    ⟨(hlevel.pre n hn).1, (hlevel.pre n hn).2.2⟩) s)

/-! ## Bins -/

/-- The iterator over a list of elements. -/
def iter (l : List V) : Iter V := fun _ g s => visit (fun s e => g s (some e)) l s

/-- The bins of a key from `po` on, each with its elements. -/
structure Binned (k : Key) (po : ℕ) (t : Pot V) (bs : List (ℕ × List V)) : Prop where
  increasing : bs.Pairwise fun b b' => b.1 < b'.1
  bin : ∀ b ∈ bs, po ≤ b.1 ∧ b.2 ≠ [] ∧ ∀ e ∈ b.2, k.prox (address e) = b.1
  perm : (bs.flatMap Prod.snd).Perm (t.elems.filter fun e => po ≤ k.prox (address e))

theorem eachBinAt_eq {n : Pot V} (hs : Splits p bins pre (some n) post)
    (f : σ → ℕ → ℤ → Iter V → σ × Bool) (s : σ) :
    eachBinAt k lo f p bins s = eachBin k lo f n s := by
  refine hs.search ?_ nofun nofun fun m pre bins hm ih => ?_
  · rintro n ⟨⟩ hn
    simp [eachBinAt, hn]
  · rw [eachBinAt, if_pos hm]
    exact ih

theorem WF.iter_each (h : t.WF) : (fun _ g s => each g t s : Iter V) = iter t.order := by
  funext τ g s
  exact h.each_eq g s

theorem WF.iter_eachFrom (h : WF ⟨some v, bins, size, po⟩) {spo : ℕ}
    (hdrop : bins.drop (getPos spo bins).2 = post) :
    (fun _ g s => eachFrom g spo ⟨some v, bins, size, po⟩ s : Iter V) =
      iter (post.flatMap order ++ [v]) := by
  funext τ g s
  have hwf : ∀ n ∈ post, n.WF := fun n hn => by
    cases h with
    | mk hbins => exact hbins n (List.mem_of_mem_drop (hdrop ▸ hn))
  rw [eachFrom, if_neg h.size_ne_zero, hdrop, iter, visit_append,
    eachBins_eq g s fun n hn => (hwf n hn).each_eq g]
  exact congrArg _ (funext fun s => (andThen_mk _).symm)

omit [BytesAddress V] in
theorem getPos_snd {l l' : List (Pot V)} (hl : ∀ n ∈ l, n.po < p) (hl' : ∀ n ∈ l', p ≤ n.po) :
    (getPos p (l ++ l')).2 = l.length := by
  induction l with
  | nil =>
    cases l' with
    | nil => rfl
    | cons n l' =>
      rw [List.nil_append, getPos, if_neg (not_lt.mpr (hl' n (.head _)))]
      split_ifs <;> rfl
  | cons m l ih =>
    rw [List.cons_append, getPos, if_pos (hl m (.head _))]
    exact congrArg Nat.succ (ih fun n hn => hl n (.tail _ hn))

/-- The bin of the pin: the sub-pots after the key has left are in it. -/
def middle (lo p : ℕ) (mid : List V) : List (ℕ × List V) := if lo ≤ p then [(p, mid)] else []

/-- The bins that are sub-pots of the pot. -/
def front (lo : ℕ) (pre : List (Pot V)) : List (ℕ × List V) :=
  (pre.filter fun n => lo ≤ n.po).map fun n => (n.po, n.order)

/-- A call for a bin, with its size and its iterator. -/
def call (f : σ → ℕ → ℤ → Iter V → σ × Bool) (s : σ) (b : ℕ × List V) : σ × Bool :=
  f s b.1 b.2.length (iter b.2)

theorem visit_front (f : σ → ℕ → ℤ → Iter V → σ × Bool) (h : ∀ n ∈ pre, n.WF) (s : σ) :
    visit (fun s n => if n.po < lo then (s, true)
      else f s n.po n.size fun _ g s => each g n s) pre s = visit (call f) (front lo pre) s := by
  rw [front, visit_map, ← visit_filter]
  refine visit_congr (fun n hn s => ?_) s
  by_cases hlo : n.po < lo
  · rw [if_pos hlo, if_neg (by simpa using hlo)]
  · rw [if_neg hlo, if_pos (by simpa using hlo), call, (h n hn).iter_each, (h n hn).size_eq,
      (h n hn).order_perm.length_eq]

omit [BytesAddress V] in
theorem visit_middle (f : σ → ℕ → ℤ → Iter V → σ × Bool) {mid : List V} (s : σ) :
    visit (call f) (middle lo p mid) s =
      if p ≥ lo then f s p mid.length (iter mid) else (s, true) := by
  rw [middle]
  split_ifs
  · exact visit_singleton _ s
  · rfl

/-- The calls of `eachBin` at one level. -/
theorem WF.eachBin_mk (h : WF ⟨some v, bins, size, po⟩)
    (hs : Splits (k.prox (address v)) bins pre o post) (hpo : po ≤ (address v).prox k)
    (f : σ → ℕ → ℤ → Iter V → σ × Bool) (s : σ) :
    eachBin k lo f ⟨some v, bins, size, po⟩ s =
      andThen (visit (call f) (front lo pre ++
          middle lo (k.prox (address v)) (post.flatMap order ++ [v])) s) fun s =>
        o.elim (s, true) fun n => eachBin k lo f n s := by
  have hlevel := h.level hs
  have hpre : ∀ n ∈ pre, n.WF := fun n hn => (hlevel.pre n hn).1
  have hpost : ∀ n ∈ post, n.WF := fun n hn => (hlevel.post n hn).1
  have hsize : size = 1 + (elemsBins (pre ++ o.toList ++ post)).length := by
    rw [← hs.eq]
    cases h
    assumption
  have hlast : ((post.flatMap order ++ [v]).length : ℤ) = 1 + (elemsBins post).length := by
    rw [List.length_append, (flatMap_order_perm hpost).length_eq]
    push_cast
    exact add_comm _ _
  rw [elemsBins_append, elemsBins_append, List.length_append, List.length_append] at hsize
  rw [eachBin, if_neg h.size_ne_zero, pofKey_eq hpo, Key.prox_comm (address v)]
  dsimp only
  rw [getPos_eq hs, take_eq hs, visit_front f hpre, visit_append, andThen_assoc]
  refine congrArg _ (funext fun s => ?_)
  rw [visit_middle]
  cases o with
  | some n =>
    have hget : bins[pre.length]? = some n := by simp [hs.eq]
    have hn := hs.at_eq n rfl
    have hdrop : bins.drop (getPos (k.prox (address v) + 1) bins).2 = post := by
      rw [hs.eq, getPos_snd]
      · exact List.drop_left
      · intro m hm
        rcases List.mem_append.mp hm with hm | hm
        · exact (hs.pre_lt m hm).trans (Nat.lt_succ_self _)
        · simp at hm
          rw [hm, hn]
          exact Nat.lt_succ_self _
      · exact hs.lt_post
    have hcount : size - (0 + (elemsBins pre).length + n.size) = 1 + (elemsBins post).length := by
      rw [(hlevel.sub n rfl).1.size_eq, hsize]
      simp only [Option.toList_some, elemsBins_cons, elemsBins_nil, List.append_nil]
      push_cast
      ring
    simp only [hget, if_pos hn, foldl_size hpre, eachBinAt_eq hs, h.iter_eachFrom hdrop, hlast,
      hcount, Option.elim_some]
  | none =>
    have hcount : size - (0 + (elemsBins pre).length) = 1 + (elemsBins post).length := by
      rw [hsize]
      simp only [Option.toList_none, elemsBins_nil, List.length_nil]
      push_cast
      ring
    cases post with
    | nil =>
      have hget : bins[pre.length]? = none := by simp [hs.eq]
      have hiter : (fun _ g s => g s (some v) : Iter V) = iter [v] := by
        funext τ g s
        exact (andThen_mk _).symm
      simp only [hget, Option.elim_none, andThen_mk, hiter]
      rfl
    | cons m post =>
      have hget : bins[pre.length]? = some m := by simp [hs.eq]
      have hm : ¬m.po = k.prox (address v) := (hs.lt_post m (.head _)).ne'
      have hdrop : bins.drop (getPos (k.prox (address v)) bins).2 = m :: post := by
        rw [getPos_eq hs, drop_eq hs]
        rfl
      simp only [hget, if_neg hm, foldl_size hpre, h.iter_eachFrom hdrop, hlast, hcount,
        Option.elim_none]

theorem front_perm (h : ∀ n ∈ pre, n.WF ∧ ∀ e ∈ n.elems, k.prox (address e) = n.po) :
    ((front lo pre).flatMap Prod.snd).Perm
      ((elemsBins pre).filter fun e => lo ≤ k.prox (address e)) := by
  induction pre with
  | nil => simp [front]
  | cons n pre ih =>
    obtain ⟨hwf, hn⟩ := h n (.head _)
    have ih := ih fun m hm => h m (.tail _ hm)
    rw [elemsBins_cons, List.filter_append, front, List.filter_cons]
    by_cases hlo : lo ≤ n.po
    · rw [if_pos (by simpa using hlo), List.map_cons, List.flatMap_cons]
      refine List.Perm.append ?_ ih
      rw [List.filter_eq_self.mpr fun e he => by simpa [hn e he] using hlo]
      exact hwf.order_perm
    · have hnil : (n.elems.filter fun e => lo ≤ k.prox (address e)) = [] :=
        List.filter_eq_nil_iff.mpr fun e he => by simpa [hn e he] using hlo
      rw [if_neg (by simpa using hlo), hnil]
      exact ih

theorem middle_perm {mid : List V} (h : ∀ e ∈ mid, k.prox (address e) = p) :
    ((middle lo p mid).flatMap Prod.snd).Perm (mid.filter fun e => lo ≤ k.prox (address e)) := by
  rw [middle]
  by_cases hlo : lo ≤ p
  · rw [if_pos hlo, List.filter_eq_self.mpr fun e he => by simpa [h e he] using hlo]
    simp only [List.flatMap_cons, List.flatMap_nil, List.append_nil]
    exact .refl _
  · rw [if_neg hlo, List.filter_eq_nil_iff.mpr fun e he => by simpa [h e he] using hlo]
    exact .refl _

/-- The bins of the sub-pot that the key is in are closer to the key than the pin. -/
theorem Level.binned_sub (h : Level k v pre o post) {bo : List (ℕ × List V)}
    (hbo : o.elim (bo = []) fun n => Binned k lo n bo) :
    (bo.Pairwise fun b b' => b.1 < b'.1) ∧
      (∀ b ∈ bo, k.prox (address v) < b.1 ∧ lo ≤ b.1 ∧ b.2 ≠ [] ∧
        ∀ e ∈ b.2, k.prox (address e) = b.1) ∧
      (bo.flatMap Prod.snd).Perm ((elemsBins o.toList).filter fun e => lo ≤ k.prox (address e)) := by
  cases o with
  | none =>
    obtain rfl : bo = [] := hbo
    exact ⟨.nil, by simp, by simp⟩
  | some n =>
    have hbo : Binned k lo n bo := hbo
    refine ⟨hbo.increasing, fun b hb => ⟨?_, hbo.bin b hb⟩, by simpa using hbo.perm⟩
    -- a bin has an element, which is closer to the key than the pin
    obtain ⟨-, hne, hprox⟩ := hbo.bin b hb
    obtain ⟨e, he⟩ := List.exists_mem_of_ne_nil _ hne
    have hmem := hbo.perm.mem_iff.mp (List.mem_flatMap.mpr ⟨b, hb, he⟩)
    rw [← hprox e he]
    exact (h.sub n rfl).2.2.2.2 e (List.mem_of_mem_filter hmem)

theorem Level.mem_front (h : Level k v pre o post) {b : ℕ × List V}
    (hb : b ∈ front lo pre) : lo ≤ b.1 ∧ b.1 < k.prox (address v) ∧ b.2 ≠ [] ∧
      ∀ e ∈ b.2, k.prox (address e) = b.1 := by
  obtain ⟨n, hn, rfl⟩ := List.mem_map.mp hb
  obtain ⟨hn, hlo⟩ := List.mem_filter.mp hn
  obtain ⟨hwf, hlt, hprox⟩ := h.pre n hn
  refine ⟨by simpa using hlo, hlt, fun hnil => hwf.elems_ne_nil ?_,
    fun e he => hprox e (hwf.mem_order.mp he)⟩
  have hperm := hwf.order_perm
  rw [show n.order = [] from hnil] at hperm
  exact hperm.nil_eq.symm

/-- The bins of a pot are its sub-pots before the key leaves, the bin of the pin, and the bins of
    the sub-pot that the key is in. -/
theorem Level.binned (h : Level k v pre o post) (hs : Splits (k.prox (address v)) bins pre o post)
    {mid : List V} (hmid : mid.Perm (v :: elemsBins post)) {bo : List (ℕ × List V)}
    (hbo : o.elim (bo = []) fun n => Binned k lo n bo) :
    Binned k lo ⟨some v, bins, size, po⟩
      (front lo pre ++ middle lo (k.prox (address v)) mid ++ bo) := by
  obtain ⟨hinc, hbin, hperm⟩ := h.binned_sub hbo
  have hprox : ∀ e ∈ mid, k.prox (address e) = k.prox (address v) := by
    intro e he
    rcases List.mem_cons.mp (hmid.mem_iff.mp he) with rfl | he
    · rfl
    · obtain ⟨n, hn, he⟩ := mem_elemsBins.mp he
      exact (h.post n hn).2 e he
  have hpin : ∀ b ∈ middle lo (k.prox (address v)) mid, lo ≤ b.1 ∧ b.1 = k.prox (address v) ∧
      b.2 ≠ [] ∧ ∀ e ∈ b.2, k.prox (address e) = b.1 := by
    intro b hb
    rw [middle] at hb
    split_ifs at hb with hlo
    · rw [List.mem_singleton.mp hb]
      exact ⟨hlo, rfl, fun hnil => by simp [show mid = [] from hnil] at hmid, hprox⟩
    · cases hb
  refine ⟨?_, fun b hb => ?_, ?_⟩
  · refine List.pairwise_append.mpr ⟨List.pairwise_append.mpr ⟨?_, ?_, fun b hb b' hb' => ?_⟩,
      hinc, fun b hb b' hb' => lt_of_le_of_lt ?_ (hbin b' hb').1⟩
    · exact List.pairwise_map.mpr (h.ordered.filter _)
    · rw [middle]
      split_ifs <;> simp
    · rw [(hpin b' hb').2.1]
      exact (h.mem_front hb).2.1
    · rcases List.mem_append.mp hb with hb | hb
      · exact (h.mem_front hb).2.1.le
      · exact (hpin b hb).2.1.le
  · rcases List.mem_append.mp hb with hb | hb
    · rcases List.mem_append.mp hb with hb | hb
      · exact ⟨(h.mem_front hb).1, (h.mem_front hb).2.2⟩
      · exact ⟨(hpin b hb).1, (hpin b hb).2.2⟩
    · exact (hbin b hb).2
  · have hfront := @front_perm _ _ pre k lo fun n hn => ⟨(h.pre n hn).1, (h.pre n hn).2.2⟩
    rw [List.flatMap_append, List.flatMap_append]
    refine ((hfront.append ((middle_perm hprox).trans (hmid.filter _))).append hperm).trans ?_
    rw [← List.filter_append, ← List.filter_append]
    refine List.Perm.filter _ ?_
    simp only [elems_mk, hs.eq, elemsBins_append, Option.toList_some, List.singleton_append]
    rw [List.append_assoc, List.cons_append, List.append_assoc]
    exact List.perm_middle.trans (List.Perm.cons v (List.perm_append_comm.append_left _))

theorem WF.eachBin_eq (h : t.WF) (hpo : ∀ w ∈ t.pin, t.po ≤ (address w).prox k) (lo : ℕ) :
    ∃ bs, Binned k lo t bs ∧ ∀ (σ : Type) (f : σ → ℕ → ℤ → Iter V → σ × Bool) (s : σ),
      eachBin k lo f t s = visit (call f) bs s := by
  induction h with
  | @mk v bins size po hbins hangs hsize ih =>
    have h : WF ⟨some v, bins, size, po⟩ := ⟨hbins, hangs, hsize⟩
    obtain ⟨pre, o, post, hs⟩ := exists_splits (k.prox (address v)) hangs.ordered
    have hlevel := h.level hs
    obtain ⟨bo, hbo, hvisit⟩ : ∃ bo, (o.elim (bo = []) fun n => Binned k lo n bo) ∧
        ∀ (σ : Type) (f : σ → ℕ → ℤ → Iter V → σ × Bool) (s : σ),
          (o.elim (s, true) fun n => eachBin k lo f n s) = visit (call f) bo s := by
      cases o with
      | none => exact ⟨[], rfl, fun σ f s => rfl⟩
      | some n => exact ih n (by simp [hs.eq]) (hlevel.sub n rfl).2.2.2.1
    have hmid : (post.flatMap order ++ [v]).Perm (v :: elemsBins post) :=
      List.perm_append_comm.trans ((flatMap_order_perm fun n hn => (hlevel.post n hn).1).cons v)
    refine ⟨_, hlevel.binned hs hmid hbo, fun σ f s => ?_⟩
    rw [h.eachBin_mk hs (hpo v rfl), visit_append (front lo pre ++ _) bo]
    exact congrArg _ (funext fun s => hvisit σ f s)

/-- The elements of the bins from the last one to the first come closer to the key. -/
theorem Binned.nearest {bs : List (ℕ × List V)} (h : Binned k 0 t bs) :
    Nearest k t (bs.reverse.flatMap Prod.snd) where
  perm := by
    have hperm := ((List.reverse_perm bs).flatMap_right Prod.snd).trans h.perm
    simpa using hperm
  sorted := by
    refine List.pairwise_flatMap.mpr ⟨fun b hb => ?_, List.pairwise_reverse.mpr ?_⟩
    · have hbin := (h.bin b (List.mem_reverse.mp hb)).2.2
      refine List.pairwise_of_forall_mem_list fun e he e' he' => ?_
      rw [hbin e he, hbin e' he']
    · refine h.increasing.imp_of_mem fun {b b'} hb hb' hlt e he e' he' => ?_
      rw [(h.bin b' hb').2.2 e he, (h.bin b hb).2.2 e' he']
      exact hlt.le

theorem WF.eachNeighbour_eq (h : t.WF) (hpo : ∀ w ∈ t.pin, t.po ≤ (address w).prox k) :
    ∃ bs, Binned k 0 t bs ∧ ∀ (σ : Type) (f : σ → Option V → ℕ → σ × Bool) (s : σ),
      eachNeighbour k f t s = visit (fun s e => f s (some e) (k.prox (address e)))
        (bs.reverse.flatMap Prod.snd) s := by
  induction h with
  | @mk v bins size po hbins hangs hsize ih =>
    have h : WF ⟨some v, bins, size, po⟩ := ⟨hbins, hangs, hsize⟩
    obtain ⟨pre, o, post, hs⟩ := exists_splits (k.prox (address v)) hangs.ordered
    have hlevel := h.level hs
    obtain ⟨bo, hbo, hvisit⟩ : ∃ bo, (o.elim (bo = []) fun n => Binned k 0 n bo) ∧
        ∀ (σ : Type) (f : σ → Option V → ℕ → σ × Bool) (s : σ),
          (o.elim (s, true) fun n => eachNeighbour k f n s) =
            visit (fun s e => f s (some e) (k.prox (address e))) (bo.reverse.flatMap Prod.snd) s := by
      cases o with
      | none => exact ⟨[], rfl, fun σ f s => rfl⟩
      | some n => exact ih n (by simp [hs.eq]) (hlevel.sub n rfl).2.2.2.1
    have hmid : (v :: post.reverse.flatMap order).Perm (v :: elemsBins post) :=
      (reverse_order_perm fun n hn => (hlevel.post n hn).1).cons v
    refine ⟨_, hlevel.binned hs hmid hbo, fun σ f s => ?_⟩
    rw [h.eachNeighbour_mk hs (hpo v rfl), hvisit, ← visit_append]
    simp [front, middle, ← List.map_reverse, List.flatMap_map]

theorem Ok.neighbours (h : t.Ok) (hpo : t.po = 0) (k : Key) :
    ∃ l, Nearest k t l ∧ ∀ (σ : Type) (f : σ → Option V → ℕ → σ × Bool) (s : σ),
      (eachNeighbour k f t s).1 =
        (visit (fun s e => f s (some e) (k.prox (address e))) l s).1 := by
  cases h with
  | empty po =>
    refine ⟨[], ⟨by simp, .nil⟩, fun σ f s => ?_⟩
    rw [eachNeighbour, if_pos rfl]
    rfl
  | wf h =>
    obtain ⟨bs, hbs, hvisit⟩ := h.eachNeighbour_eq fun w _ => hpo ▸ Nat.zero_le _
    exact ⟨_, hbs.nearest, fun σ f s => by rw [hvisit]⟩

theorem Ok.binned (h : t.Ok) (hpo : t.po = 0) (k : Key) (lo : ℕ) :
    ∃ bs, Binned k lo t bs ∧ ∀ (σ : Type) (f : σ → ℕ → ℤ → Iter V → σ × Bool) (s : σ),
      eachBin k lo f t s = visit (call f) bs s := by
  cases h with
  | empty po =>
    refine ⟨[], ⟨.nil, by simp, by simp⟩, fun σ f s => ?_⟩
    rw [eachBin, if_pos rfl]
    rfl
  | wf h => exact h.eachBin_eq (fun w _ => hpo ▸ Nat.zero_le _) lo

/-- **Iteration by proximity.**  For a well-formed pot and any key, `EachNeighbour` calls its
    callback for every element once, from the closest one on, with the proximity of each.
    `EachBin` calls its callback for the proximity orders from `lo` on that have elements, in
    increasing order, with all elements of that proximity and their number. -/
theorem pot_each {t : Pot V} (h : t.Ok) (hpo : t.po = 0) (k : Key) (lo : ℕ) :
    (∃ l, Nearest k t l ∧ ∀ (σ : Type) (f : σ → Option V → ℕ → σ × Bool) (s : σ),
      (eachNeighbour k f t s).1 =
        (visit (fun s e => f s (some e) (k.prox (address e))) l s).1) ∧
    ∃ bs, Binned k lo t bs ∧ ∀ (σ : Type) (f : σ → ℕ → ℤ → Iter V → σ × Bool) (s : σ),
      eachBin k lo f t s = visit (call f) bs s :=
  ⟨h.neighbours hpo k, h.binned hpo k lo⟩

/-- A key by its first byte. -/
def byteKey (b : UInt8) : Key := ⟨b :: .replicate 31 0, rfl⟩

/-- Three elements, each in a sub-pot of the one before. -/
def threePot : Pot Key := (((leaf (byteKey 0) 0).add (byteKey 0x80)).1.add (byteKey 0xc0)).1

/-- The callback is called for the closest element first. -/
theorem pot_each_three : (eachNeighbour (byteKey 0xe0)
    (fun (s : List ℕ) _ po => (s ++ [po], true)) threePot []).1 = [2, 1, 0] := by
  have hleaf : (leaf (byteKey 0) 0).WF := ⟨by simp, ⟨.nil, by simp, by simp⟩, by simp⟩
  have htwo := hleaf.add (byteKey 0x80) fun _ _ => Nat.zero_le _
  have hthree := (htwo.ok.isSome_iff.1 (by decide +kernel)).add (byteKey 0xc0) fun _ _ =>
    (show ((leaf (byteKey 0) 0).add (byteKey 0x80)).1.po = 0 by decide +kernel) ▸ Nat.zero_le _
  obtain ⟨⟨l, hl, hvisit⟩, -⟩ :=
    pot_each (t := threePot) hthree.ok (by decide +kernel) (byteKey 0xe0) 0
  have hperm : l.Perm [byteKey 0xc0, byteKey 0x80, byteKey 0] :=
    hl.perm.trans (by decide +kernel)
  have heq : l = [byteKey 0xc0, byteKey 0x80, byteKey 0] := by
    refine hperm.eq_of_pairwise (fun e e' he he' hle hge => ?_) hl.sorted (by decide +kernel)
    exact (by decide +kernel : ∀ e ∈ [byteKey 0xc0, byteKey 0x80, byteKey 0],
      ∀ e' ∈ [byteKey 0xc0, byteKey 0x80, byteKey 0],
        (byteKey 0xe0).prox e = (byteKey 0xe0).prox e' → e = e')
      e (hperm.mem_iff.1 he) e' he' (le_antisymm hge hle)
  rw [hvisit, heq]
  decide +kernel

end GoEthereum.Swarm.Pot
