/-
  The depth of a Kademlia table (swarm/network/kademlia.go).

  The neighbourhood radius is the proximity of the peer with which the neighbourhood is full, and
  the depth is the first empty bin before it, or the radius.  Both are computed by iterations
  over the pot of peers that their callbacks end.
-/
import Mathlib.Order.Bounds.Basic
import GoEthereum.Swarm.PotEach

namespace GoEthereum.Swarm.Pot

variable {V : Type} [BytesAddress V]

/-- The callback of `neighbourhoodRadiusForPot`, on the number of peers and the depth. -/
def countPeer (neighbourhoodSize : ℤ) (s : ℤ × ℕ) (_ : Option V) (i : ℕ) : (ℤ × ℕ) × Bool :=
  if i = 256 then (s, true)
  else if s.1 + 1 = neighbourhoodSize then ((s.1 + 1, i), false)
  else ((s.1 + 1, s.2), true)

def neighbourhoodRadiusForPot (p : Pot V) (neighbourhoodSize : ℤ) (pivotAddr : Key) : ℕ :=
  if p.size ≤ neighbourhoodSize then 0
  else (eachNeighbour pivotAddr (countPeer neighbourhoodSize) p (0, 0)).1.2

/-- The callback of `depthForPot`, on the depth. -/
def countBin (maxDepth depth po : ℕ) (_ : ℤ) (_ : Iter V) : ℕ × Bool :=
  if po = depth then if maxDepth = depth then (depth, false) else (depth + 1, true)
  else (depth, false)

def depthForPot (p : Pot V) (neighbourhoodSize : ℤ) (pivotAddr : Key) : ℕ :=
  if p.size ≤ neighbourhoodSize then 0
  else
    let maxDepth := neighbourhoodRadiusForPot p neighbourhoodSize pivotAddr
    (eachBin pivotAddr 0 (countBin maxDepth) p 0).1

/-! ## The radius -/

variable {base : Key} {t : Pot V} {k : ℕ}

/-- The proximity of the `k`-th closest peer: fewer than `k` peers are closer, and with those as
    close there are `k`. -/
def IsKth (base : Key) (t : Pot V) (k r : ℕ) : Prop :=
  (t.elems.countP fun e => r < base.prox (address e)) < k ∧
    k ≤ t.elems.countP fun e => r ≤ base.prox (address e)

theorem visit_countPeer {l : List V} {n : ℕ} {d : ℕ} (hbase : ∀ e ∈ l, address e ≠ base)
    (hn : n < k) (hk : k ≤ n + l.length) : ∃ l₁ e l₂, l = l₁ ++ e :: l₂ ∧ n + l₁.length + 1 = k ∧
      (visit (fun s e => countPeer k s (some e) (base.prox (address e))) l (n, d)).1.2 =
        base.prox (address e) := by
  induction l generalizing n d with
  | nil =>
    rw [List.length_nil] at hk
    omega
  | cons e l ih =>
    have hne : base.prox (address e) ≠ 256 := (Key.prox_lt (hbase e (.head _)).symm).ne
    have hcall : countPeer (k : ℤ) ((n : ℤ), d) (some e) (base.prox (address e)) =
        if n + 1 = k then ((((n + 1 : ℕ) : ℤ), base.prox (address e)), false)
        else ((((n + 1 : ℕ) : ℤ), d), true) := by
      simp only [countPeer, if_neg hne]
      norm_cast
    rw [visit, hcall]
    by_cases hlast : n + 1 = k
    · rw [if_pos hlast]
      exact ⟨[], e, l, rfl, hlast, rfl⟩
    · rw [if_neg hlast, andThen_true]
      rw [List.length_cons] at hk
      obtain ⟨l₁, e', l₂, rfl, hlen, hvisit⟩ := @ih (n + 1) d
        (fun e he => hbase e (.tail _ he)) (by omega) (by omega)
      exact ⟨e :: l₁, e', l₂, rfl, by rw [List.length_cons]; omega, hvisit⟩

theorem Nearest.isKth {l₁ l₂ : List V} {e : V} (h : Nearest base t (l₁ ++ e :: l₂))
    (hlen : l₁.length + 1 = k) : IsKth base t k (base.prox (address e)) := by
  obtain ⟨-, hsorted, hcross⟩ := List.pairwise_append.mp h.sorted
  obtain ⟨hafter, -⟩ := List.pairwise_cons.mp hsorted
  rw [IsKth, ← h.perm.countP_eq, ← h.perm.countP_eq, List.countP_append, List.countP_append,
    List.countP_cons, List.countP_cons]
  constructor
  · have hzero : (l₂.countP fun e' => base.prox (address e) < base.prox (address e')) = 0 :=
      List.countP_eq_zero.mpr fun e' he' => by simpa using hafter e' he'
    have hle : (l₁.countP fun e' => base.prox (address e) < base.prox (address e')) ≤ l₁.length :=
      List.countP_le_length
    rw [hzero, if_neg (by simp)]
    omega
  · have hall : (l₁.countP fun e' => base.prox (address e) ≤ base.prox (address e')) = l₁.length :=
      List.countP_eq_length.mpr fun e' he' => by simpa using hcross e' he' e (.head _)
    rw [hall, if_pos (by simp)]
    omega

theorem radius_isKth (h : t.Ok) (hpo : t.po = 0) (hbase : ∀ e ∈ t.elems, address e ≠ base)
    (hk : 0 < k) (hsize : k < t.elems.length) :
    IsKth base t k (neighbourhoodRadiusForPot t k base) := by
  obtain ⟨l, hl, hvisit⟩ := h.neighbours hpo base
  obtain ⟨l₁, e, l₂, rfl, hlen, hdepth⟩ := @visit_countPeer V _ base k l 0 0
    (fun e he => hbase e (hl.perm.mem_iff.mp he)) hk (by rw [hl.perm.length_eq]; omega)
  rw [neighbourhoodRadiusForPot, if_neg (by rw [h.size_eq]; omega), hvisit]
  rw [Nat.cast_zero] at hdepth
  rw [hdepth]
  exact hl.isKth (by omega)

/-! ## The depth -/

/-- The depths that do not exceed the radius and have no empty bin before them. -/
def depths (base : Key) (t : Pot V) (r : ℕ) : Set ℕ :=
  {d | d ≤ r ∧ ∀ j < d, ∃ e ∈ t.elems, base.prox (address e) = j}

omit [BytesAddress V] in
theorem visit_countBin {bs : List (ℕ × List V)} {m d : ℕ}
    (hinc : bs.Pairwise fun b b' => b.1 < b'.1) (hd : ∀ b ∈ bs, d ≤ b.1) (hm : d ≤ m) :
    ∃ d', (visit (call (countBin m)) bs d).1 = d' ∧ d ≤ d' ∧ d' ≤ m ∧
      (∀ j, d ≤ j → j < d' → ∃ b ∈ bs, b.1 = j) ∧ (d' = m ∨ ∀ b ∈ bs, b.1 ≠ d') := by
  induction bs generalizing d with
  | nil => exact ⟨d, rfl, le_rfl, hm, fun j hj hlt => by omega, .inr (by simp)⟩
  | cons b bs ih =>
    obtain ⟨hb, hinc⟩ := List.pairwise_cons.mp hinc
    rw [visit, call, countBin]
    by_cases heq : b.1 = d
    · rw [if_pos heq]
      by_cases hmax : m = d
      · rw [if_pos hmax]
        exact ⟨d, rfl, le_rfl, hm, fun j hj hlt => by omega, .inl hmax.symm⟩
      · rw [if_neg hmax, andThen_true]
        obtain ⟨d', hd', hge, hle, hbin, hend⟩ := @ih (d + 1) hinc (fun b' hb' => heq ▸ hb b' hb')
          (by omega)
        refine ⟨d', hd', by omega, hle, fun j hj hlt => ?_, hend.imp_right fun hend b' hb' => ?_⟩
        · by_cases hjd : j = d
          · exact ⟨b, .head _, heq.trans hjd.symm⟩
          · obtain ⟨b', hb', hj'⟩ := hbin j (by omega) hlt
            exact ⟨b', .tail _ hb', hj'⟩
        · rcases List.mem_cons.mp hb' with rfl | hb'
          · omega
          · exact hend b' hb'
    · rw [if_neg heq]
      have := hd b (.head _)
      refine ⟨d, rfl, le_rfl, hm, fun j hj hlt => by omega, .inr fun b' hb' => ?_⟩
      rcases List.mem_cons.mp hb' with rfl | hb'
      · exact heq
      · have := hb b' hb'
        omega

theorem depth_isGreatest (h : t.Ok) (hpo : t.po = 0) (hsize : k < t.elems.length) :
    IsGreatest (depths base t (neighbourhoodRadiusForPot t k base)) (depthForPot t k base) := by
  obtain ⟨bs, hbs, hvisit⟩ := h.binned hpo base 0
  -- the bins are the proximity orders of the peers
  have hbins : ∀ j, (∃ b ∈ bs, b.1 = j) ↔ ∃ e ∈ t.elems, base.prox (address e) = j := by
    intro j
    constructor
    · rintro ⟨b, hb, rfl⟩
      obtain ⟨-, hne, hprox⟩ := hbs.bin b hb
      obtain ⟨e, he⟩ := List.exists_mem_of_ne_nil _ hne
      have hmem := hbs.perm.mem_iff.mp (List.mem_flatMap.mpr ⟨b, hb, he⟩)
      exact ⟨e, List.mem_of_mem_filter hmem, hprox e he⟩
    · rintro ⟨e, he, rfl⟩
      have hmem := hbs.perm.mem_iff.mpr (List.mem_filter.mpr ⟨he, by simp⟩)
      obtain ⟨b, hb, he⟩ := List.mem_flatMap.mp hmem
      exact ⟨b, hb, ((hbs.bin b hb).2.2 e he).symm⟩
  obtain ⟨d, hd, -, hle, hbin, hend⟩ := visit_countBin hbs.increasing
    (fun b _ => Nat.zero_le b.1) (Nat.zero_le (neighbourhoodRadiusForPot t k base))
  have hdepth : depthForPot t k base = d := by
    rw [depthForPot, if_neg (by rw [h.size_eq]; omega)]
    dsimp only
    rw [hvisit, hd]
  rw [hdepth]
  refine ⟨⟨hle, fun j hj => (hbins j).mp (hbin j (Nat.zero_le j) hj)⟩, fun d' ⟨hle', hd'⟩ => ?_⟩
  by_contra hlt
  obtain ⟨b, hb, hbd⟩ := (hbins d).mpr (hd' d (by omega))
  rcases hend with hend | hend
  · omega
  · exact hend b hb hbd

/-! ## A new peer -/

theorem IsKth.mono {t' : Pot V} {r r' : ℕ} (h : IsKth base t k r) (h' : IsKth base t' k r')
    (hnodup : (t.elems.map address).Nodup)
    (hsub : ∀ e ∈ t.elems, ∃ e' ∈ t'.elems, address e' = address e) : r ≤ r' := by
  by_contra hlt
  have hsubset : t.elems.map address ⊆ t'.elems.map address := fun a ha => by
    obtain ⟨e, he, rfl⟩ := List.mem_map.mp ha
    obtain ⟨e', he', heq⟩ := hsub e he
    exact List.mem_map.mpr ⟨e', he', heq⟩
  have hcount := (hnodup.subperm hsubset).countP_le fun a => decide (r ≤ base.prox a)
  rw [List.countP_map, List.countP_map] at hcount
  have hmore : (t'.elems.countP fun e => r ≤ base.prox (address e)) ≤
      t'.elems.countP fun e => r' < base.prox (address e) :=
    List.countP_mono_left fun e _ he => by
      simp only [decide_eq_true_eq] at he ⊢
      omega
  exact absurd (h.2.trans (hcount.trans hmore)) (not_le.mpr h'.1)

theorem depth_le_add (h : t.Ok) (hpo : t.po = 0) (hbase : ∀ e ∈ t.elems, address e ≠ base)
    (hk : 0 < k) {val : V} (hval : address val ≠ base) :
    depthForPot t k base ≤ depthForPot (t.add val).1 k base := by
  rcases Nat.lt_or_ge k t.elems.length with hsize | hsize
  · have hwf : t.WF := by
      cases h with
      | empty po => simp at hsize
      | wf h => exact h
    have hb := hwf.add val fun w _ => hpo ▸ Nat.zero_le _
    have hpo' : (t.add val).1.po = 0 := hb.po.elim (·.trans hpo) And.right
    have hsize' : k < (t.add val).1.elems.length := by
      have hlen := hb.length
      have := Bool.toNat_le (t.add val).2.2
      rw [Option.isSome_some, Bool.toNat_true] at hlen
      omega
    have hbase' : ∀ e ∈ (t.add val).1.elems, address e ≠ base := by
      intro e he
      rcases (hb.mem e).mp he with ⟨he, -⟩ | heq
      · exact hbase e he
      · exact Option.some.inj heq ▸ hval
    have hsub : ∀ e ∈ t.elems, ∃ e' ∈ (t.add val).1.elems, address e' = address e := by
      intro e he
      by_cases heq : address e = address val
      · exact ⟨val, (hb.mem val).mpr (.inr rfl), heq.symm⟩
      · exact ⟨e, (hb.mem e).mpr (.inl ⟨he, heq⟩), rfl⟩
    have hradius := (radius_isKth h hpo hbase hk hsize).mono
      (radius_isKth hb.ok hpo' hbase' hk hsize') h.nodup hsub
    refine (depth_isGreatest h hpo hsize).mono (depth_isGreatest hb.ok hpo' hsize') ?_
    rintro d ⟨hle, hd⟩
    refine ⟨hle.trans hradius, fun j hj => ?_⟩
    obtain ⟨e, he, rfl⟩ := hd j hj
    obtain ⟨e', he', heq⟩ := hsub e he
    exact ⟨e', he', by rw [heq]⟩
  · rw [depthForPot, if_pos (by rw [h.size_eq]; omega)]
    exact Nat.zero_le _

/-- **The depth of a pot of peers** that the base address is not in.  With more peers than the
    neighbourhood has, the radius is the proximity of the `k`-th closest peer, and the depth is
    the greatest one up to the radius with no empty bin before it.  Otherwise both are 0.  A new
    peer does not make the depth less. -/
theorem depth_spec {t : Pot V} (h : t.Ok) (hpo : t.po = 0) {base : Key}
    (hbase : ∀ e ∈ t.elems, address e ≠ base) {k : ℕ} (hk : 1 ≤ k) :
    (t.elems.length ≤ k →
      neighbourhoodRadiusForPot t k base = 0 ∧ depthForPot t k base = 0) ∧
    (k < t.elems.length → IsKth base t k (neighbourhoodRadiusForPot t k base) ∧
      IsGreatest (depths base t (neighbourhoodRadiusForPot t k base)) (depthForPot t k base)) ∧
    ∀ val : V, address val ≠ base →
      depthForPot t k base ≤ depthForPot (t.add val).1 k base := by
  refine ⟨fun hsize => ?_, fun hsize => ?_, fun val hval => depth_le_add h hpo hbase hk hval⟩
  · have hle : t.size ≤ k := by
      rw [h.size_eq]
      omega
    rw [neighbourhoodRadiusForPot, depthForPot, if_pos hle, if_pos hle]
    exact ⟨rfl, rfl⟩
  · exact ⟨radius_isKth h hpo hbase hk hsize, depth_isGreatest h hpo hsize⟩

/-- Two peers that leave the base address at bits 7 and 6. -/
def twoPeers : Pot Key := ⟨some ⟨.replicate 32 1, rfl⟩, [leaf ⟨.replicate 32 2, rfl⟩ 6], 2, 0⟩

theorem depth_spec_two : IsKth ⟨.replicate 32 0, rfl⟩ twoPeers 1 7 := by
  have hok : twoPeers.Ok := by
    refine .wf ⟨fun n hn => ?_, ⟨by simp, fun n hn => ?_, fun n hn e he => ?_⟩, by simp [leaf]⟩
    · rw [List.mem_singleton.mp hn]
      exact ⟨by simp, ⟨.nil, by simp, by simp⟩, by simp⟩
    · rw [List.mem_singleton.mp hn]
      decide
    · rw [List.mem_singleton.mp hn] at he ⊢
      simp only [leaf, elems_mk, elemsBins_nil, Option.toList_some, List.append_nil,
        List.mem_singleton] at he
      subst he
      decide
  have hspec := @depth_spec Key _ _ hok rfl ⟨.replicate 32 0, rfl⟩
    (by simp [twoPeers, leaf, address]) 1 le_rfl
  exact (hspec.2.1 (by simp [twoPeers, leaf])).1

end GoEthereum.Swarm.Pot
