/-
  Union of pots (swarm/pot/pot.go).

  The sub-pots below the proximity of the two pins are merged; then what is left of the first pot
  is regrouped around the second pin, and the roles change.  Nothing of this changes the elements,
  up to the number of keys that were there twice (`Joins`).
-/
import Mathlib.Data.Finset.Card
import Mathlib.Data.List.TakeWhile
import GoEthereum.Swarm.Pot

namespace GoEthereum.Swarm.Pot

variable {V : Type} [BytesAddress V]

/-! ## Model -/

/-- The inner loop of `union`, on the sub-pots below the proximity of the pins: the new sub-pots
and the sum of `mis`. -/
def mergeBins (union : Pot V → Pot V → Option (Pot V × ℤ)) :
    List (Pot V) → List (Pot V) → Option (List (Pot V) × ℤ)
  | [], bins1 => some (bins1, 0)
  | n0 :: bins0, [] => some (n0 :: bins0, 0)
  | n0 :: bins0, n1 :: bins1 =>
    if n0.po < n1.po then (mergeBins union bins0 (n1 :: bins1)).map fun r => (n0 :: r.1, r.2)
    else if n1.po < n0.po then
      (mergeBins union (n0 :: bins0) bins1).map fun r => (n1 :: r.1, r.2)
    else
      (union n0 n1).bind fun s => (mergeBins union bins0 bins1).map fun r => (s.1 :: r.1, s.2 + r.2)
termination_by bins0 bins1 => bins0.length + bins1.length

/-- What is left of a pot around its pin. -/
def pinned (pin : V) (bins : List (Pot V)) (po : ℕ) : Pot V :=
  ⟨some pin, bins, bins.foldl (fun size n => size + n.size) 0 + 1, po⟩

/-- The outer loop of `union`: `bins0` and `bins1` are what is left from `i0` and `i1` on.  The
result is the pin, the sub-pots and the number of common elements. -/
def unionLoop (union : Pot V → Pot V → Option (Pot V × ℤ)) (pin0 pin1 : V)
    (bins0 bins1 : List (Pot V)) (po : ℕ) (eq : Bool) (bins : List (Pot V)) (common : ℤ) :
    ℕ → Option (V × List (Pot V) × ℤ)
  | 0 => none
  | fuel + 1 =>
    (mergeBins union (bins0.takeWhile fun n => n.po < po)
        (bins1.takeWhile fun n => n.po < po)).bind fun r =>
      let bins0 := bins0.dropWhile fun n => n.po < po
      let bins1 := bins1.dropWhile fun n => n.po < po
      if eq then some (pin1, bins ++ r.1, common + r.2 + 1)
      else
        let n0 := bins0.head?.filter fun n => n.po = po
        let rest := if n0.isSome then bins0.tail else bins0
        let np := pinned pin0 rest po
        match n0 with
        | none =>
          unionLoop union pin1 pin1 bins1 [np] (maxkeylen + 1) true (bins ++ r.1)
            (common + r.2 - 1) fuel
        | some n0 =>
          n0.pin.bind fun pin =>
            let (po, eq) := pof (some pin1) pin n0.po
            unionLoop union pin1 pin bins1 (np :: n0.bins) po eq (bins ++ r.1) (common + r.2) fuel

/-- `union` of pots that are not `nil`; the fuel bounds the depth. -/
def union : ℕ → Pot V → Pot V → Option (Pot V × ℤ)
  | 0, _, _ => none
  | fuel + 1, t0, t1 =>
    if t0.size = 0 then some (t1, 0)
    else if t1.size = 0 then some (t0, 0)
    else
      t0.pin.bind fun pin0 => t1.pin.bind fun pin1 =>
        let (po, eq) := pof (some pin0) pin1 0
        (unionLoop (union fuel) pin0 pin1 t0.bins t1.bins po eq [] 0 (maxkeylen + 2)).map fun r =>
          (⟨some r.1, r.2.1, t0.size + t1.size - r.2.2, t0.po⟩, r.2.2)

/-! ## Elements -/

/-- The same keys, `c` of them once less. -/
structure Joins (l src : List V) (c : ℤ) : Prop where
  mem : ∀ k, k ∈ l.map address ↔ k ∈ src.map address
  length : (l.length : ℤ) + c = src.length

theorem Joins.refl (l : List V) : Joins l l 0 := ⟨fun _ => Iff.rfl, by simp⟩

theorem Joins.of_perm {l l' : List V} (h : l.Perm l') : Joins l l' 0 :=
  ⟨fun _ => (h.map address).mem_iff, by rw [h.length_eq]; simp⟩

theorem Joins.trans {l l' l'' : List V} {c c' : ℤ} (h : Joins l l' c) (h' : Joins l' l'' c') :
    Joins l l'' (c + c') :=
  ⟨fun k => (h.mem k).trans (h'.mem k), by have := h.length; have := h'.length; omega⟩

theorem Joins.append {l l' s s' : List V} {c c' : ℤ} (h : Joins l s c) (h' : Joins l' s' c') :
    Joins (l ++ l') (s ++ s') (c + c') := by
  refine ⟨fun k => ?_, ?_⟩
  · rw [List.map_append, List.map_append, List.mem_append, List.mem_append, h.mem, h'.mem]
  · have := h.length
    have := h'.length
    simp only [List.length_append]
    omega

/-- What a union has to be. -/
def Unites (union : Pot V → Pot V → Option (Pot V × ℤ)) (n0 n1 : Pot V) : Prop :=
  ∃ r c, union n0 n1 = some (r, c) ∧ r.WF ∧ r.po = n0.po ∧ Joins r.elems (n0.elems ++ n1.elems) c

section

variable {v : V} {l l' : List (Pot V)} {n : Pot V}

theorem bins_singleton (hn : n.WF) (hpo : n.po < maxkeylen)
    (hprox : ∀ e ∈ n.elems, (address v).prox (address e) = n.po) : Bins v [n] :=
  ⟨⟨List.pairwise_singleton _ _, by simpa using hpo, by simpa using hprox⟩, by simpa using hn⟩

theorem Bins.cons (h : Bins v l) (hn : Bins v [n]) (hlt : ∀ m ∈ l, n.po < m.po) :
    Bins v (n :: l) :=
  hn.append h (by simpa using hlt)

theorem Bins.head (h : Bins v (n :: l)) : Bins v [n] ∧ Bins v l ∧ ∀ m ∈ l, n.po < m.po :=
  ⟨h.sublist (by simp), h.sublist (by simp), (List.pairwise_cons.mp h.ordered).1⟩

end

/-! ## The loops -/

/-- The orders of the sub-pots are some of the others'. -/
def Within (l src : List (Pot V)) : Prop := ∀ n ∈ l, ∃ m ∈ src, m.po = n.po

omit [BytesAddress V] in
theorem Within.forall {l src : List (Pot V)} (h : Within l src) (p : ℕ → Prop)
    (hp : ∀ m ∈ src, p m.po) : ∀ n ∈ l, p n.po := by
  intro n hn
  obtain ⟨m, hm, heq⟩ := h n hn
  exact heq ▸ hp m hm

omit [BytesAddress V] in
theorem Within.cons {l src src' : List (Pot V)} {n n' : Pot V} (h : Within l src)
    (hn : n' ∈ src') (hpo : n'.po = n.po) (hsub : src ⊆ src') : Within (n :: l) src' := by
  intro m hm
  rcases List.mem_cons.mp hm with rfl | hm
  · exact ⟨n', hn, hpo⟩
  · obtain ⟨m', hm', heq⟩ := h m hm
    exact ⟨m', hsub hm', heq⟩

/-- The inner loop joins the elements; its orders are those of the two sides. -/
theorem mergeBins_spec {union : Pot V → Pot V → Option (Pot V × ℤ)} {v : V}
    {bins0 bins1 : List (Pot V)} (h0 : Bins v bins0) (h1 : Bins v bins1)
    (hu : ∀ n0 ∈ bins0, ∀ n1 ∈ bins1, n0.po = n1.po → Unites union n0 n1) :
    ∃ l c, mergeBins union bins0 bins1 = some (l, c) ∧ Bins v l ∧
      Joins (elemsBins l) (elemsBins bins0 ++ elemsBins bins1) c ∧ Within l (bins0 ++ bins1) := by
  induction bins0, bins1 using mergeBins.induct with
  | case1 bins1 => exact ⟨bins1, 0, by rw [mergeBins], h1, .refl _, fun n hn => ⟨n, hn, rfl⟩⟩
  | case2 n0 bins0 =>
    refine ⟨n0 :: bins0, 0, by rw [mergeBins], h0, ?_, fun n hn => ⟨n, by simpa using hn, rfl⟩⟩
    simpa using Joins.refl (elemsBins (n0 :: bins0))
  | case3 n0 bins0 n1 bins1 hlt ih =>
    obtain ⟨hn0, hbins0, hlt0⟩ := h0.head
    obtain ⟨-, -, hlt1⟩ := h1.head
    obtain ⟨l, c, heq, hl, hjoins, hpos⟩ := ih hbins0 h1 fun m hm => hu m (by simp [hm])
    refine ⟨n0 :: l, c, by rw [mergeBins, if_pos hlt, heq]; rfl,
      hl.cons hn0 (hpos.forall (n0.po < ·) ?_),
      by simpa using (Joins.refl n0.elems).append hjoins, hpos.cons (by simp) rfl (by simp)⟩
    simp only [List.mem_append, List.mem_cons]
    rintro m (hm | rfl | hm)
    · exact hlt0 m hm
    · exact hlt
    · exact hlt.trans (hlt1 m hm)
  | case4 n0 bins0 n1 bins1 hge hlt ih =>
    obtain ⟨-, -, hlt0⟩ := h0.head
    obtain ⟨hn1, hbins1, hlt1⟩ := h1.head
    obtain ⟨l, c, heq, hl, hjoins, hpos⟩ := ih h0 hbins1 fun m hm m' hm' =>
      hu m hm m' (by simp [hm'])
    refine ⟨n1 :: l, c, by rw [mergeBins, if_neg hge, if_pos hlt, heq]; rfl,
      hl.cons hn1 (hpos.forall (n1.po < ·) ?_), ?_,
      hpos.cons (by simp) rfl fun m hm => by simp at hm ⊢; tauto⟩
    · simp only [List.mem_append, List.mem_cons]
      rintro m ((rfl | hm) | hm)
      · exact hlt
      · exact hlt.trans (hlt0 m hm)
      · exact hlt1 m hm
    · have hperm : (n1.elems ++ (elemsBins (n0 :: bins0) ++ elemsBins bins1)).Perm
          (elemsBins (n0 :: bins0) ++ elemsBins (n1 :: bins1)) := by
        rw [elemsBins_cons n1, ← List.append_assoc, ← List.append_assoc]
        exact List.perm_append_comm.append_right _
      simpa using ((Joins.refl n1.elems).append hjoins).trans (.of_perm hperm)
  | case5 n0 bins0 n1 bins1 hge hge' ih =>
    obtain ⟨hn0, hbins0, hlt0⟩ := h0.head
    obtain ⟨hn1, hbins1, hlt1⟩ := h1.head
    have hpo : n0.po = n1.po := le_antisymm (not_lt.mp hge') (not_lt.mp hge)
    obtain ⟨r, c', hr, hrwf, hrpo, hrjoins⟩ := hu n0 (by simp) n1 (by simp) hpo
    obtain ⟨l, c, heq, hl, hjoins, hpos⟩ := ih hbins0 hbins1 fun m hm m' hm' =>
      hu m (by simp [hm]) m' (by simp [hm'])
    have hrbins : Bins v [r] := by
      refine bins_singleton hrwf (hrpo ▸ hn0.po_lt n0 (by simp)) fun e he => ?_
      obtain ⟨e', he', heq'⟩ := List.mem_map.mp
        ((hrjoins.mem (address e)).mp (List.mem_map_of_mem he))
      rw [← heq', hrpo]
      rcases List.mem_append.mp he' with he' | he'
      · exact hn0.prox n0 (by simp) e' he'
      · rw [hpo]
        exact hn1.prox n1 (by simp) e' he'
    refine ⟨r :: l, c' + c,
      by rw [mergeBins, if_neg hge, if_neg hge', hr, Option.bind_some, heq]; rfl,
      hl.cons hrbins (hpos.forall (r.po < ·) ?_), ?_, hpos.cons (by simp) hrpo.symm ?_⟩
    · rw [hrpo]
      intro m hm
      rcases List.mem_append.mp hm with hm | hm
      · exact hlt0 m hm
      · rw [hpo]
        exact hlt1 m hm
    · have hperm : (n0.elems ++ n1.elems ++ (elemsBins bins0 ++ elemsBins bins1)).Perm
          (elemsBins (n0 :: bins0) ++ elemsBins (n1 :: bins1)) := by
        simp only [elemsBins_cons, List.append_assoc]
        refine List.Perm.append_left _ ?_
        rw [← List.append_assoc, ← List.append_assoc]
        exact List.perm_append_comm.append_right _
      simpa using (hrjoins.append hjoins).trans (.of_perm hperm)
    · simp [List.subset_def]
      tauto

section

variable {union : Pot V → Pot V → Option (Pot V × ℤ)} {v : V} {acc bins0 bins1 l : List (Pot V)}

theorem Bins.append_within (h0 : Bins v (acc ++ bins0)) (h1 : Bins v (acc ++ bins1))
    (hl : Bins v l) (hw : Within l (bins0 ++ bins1)) : Bins v (acc ++ l) := by
  obtain ⟨-, -, hlt0⟩ := List.pairwise_append.mp h0.ordered
  obtain ⟨-, -, hlt1⟩ := List.pairwise_append.mp h1.ordered
  refine (h0.sublist (List.sublist_append_left _ _)).append hl fun n hn => hw.forall (n.po < ·) ?_
  intro m hm
  exact (List.mem_append.mp hm).elim (hlt0 n hn m) (hlt1 n hn m)

/-- The last round: both sides hang off the pin, and all of their sub-pots are merged. -/
theorem unionLoop_last (pin0 : V) (po fuel : ℕ) (common : ℤ) (h0 : Bins v (acc ++ bins0))
    (h1 : Bins v (acc ++ bins1)) (hpo : maxkeylen ≤ po)
    (hu : ∀ n0 ∈ bins0, ∀ n1 ∈ bins1, n0.po = n1.po → Unites union n0 n1) :
    ∃ l c, unionLoop union pin0 v bins0 bins1 po true acc common (fuel + 1) =
        some (v, acc ++ l, common + c + 1) ∧ Bins v (acc ++ l) ∧
      Joins (elemsBins l) (elemsBins bins0 ++ elemsBins bins1) c := by
  have hall : ∀ {bins : List (Pot V)}, Bins v (acc ++ bins) →
      bins.takeWhile (fun n => n.po < po) = bins := fun h =>
    List.takeWhile_eq_self_iff.mpr fun n hn => by
      have := h.po_lt n (by simp [hn])
      simp
      omega
  obtain ⟨l, c, heq, hl, hjoins, hpos⟩ := mergeBins_spec
    (h0.sublist (List.sublist_append_right _ _)) (h1.sublist (List.sublist_append_right _ _)) hu
  refine ⟨l, c, ?_, h0.append_within h1 hl hpos, hjoins⟩
  simp [unionLoop, hall h0, hall h1, heq]

end

section

variable {union : Pot V → Pot V → Option (Pot V × ℤ)} {p : ℕ} {bins : List (Pot V)}

omit [BytesAddress V] in
theorem le_po_of_mem_dropWhile (h : bins.Pairwise fun n n' => n.po < n'.po) :
    ∀ n ∈ bins.dropWhile fun n => n.po < p, p ≤ n.po := by
  induction bins with
  | nil => simp
  | cons n bins ih =>
    obtain ⟨hn, hbins⟩ := List.pairwise_cons.mp h
    by_cases hlt : n.po < p
    · simpa [List.dropWhile_cons, hlt] using ih hbins
    · intro m hm
      rcases List.mem_cons.mp (by simpa [List.dropWhile_cons, hlt] using hm) with rfl | hm
      · omega
      · have := hn m hm
        omega

omit [BytesAddress V] in
theorem exists_head (h : bins.Pairwise fun n n' => n.po < n'.po) (hle : ∀ n ∈ bins, p ≤ n.po) :
    ∃ o rest, bins.head?.filter (fun n => n.po = p) = o ∧
      (if o.isSome then bins.tail else bins) = rest ∧ bins = o.toList ++ rest ∧
      (∀ n ∈ o, n.po = p) ∧ ∀ n ∈ rest, p < n.po := by
  cases bins with
  | nil => exact ⟨none, [], by simp⟩
  | cons n bins =>
    obtain ⟨hn, -⟩ := List.pairwise_cons.mp h
    by_cases heq : n.po = p
    · exact ⟨some n, bins, by simp [heq], rfl, rfl, by simpa using heq, fun m hm => heq ▸ hn m hm⟩
    · have hlt : p < n.po := lt_of_le_of_ne (hle n List.mem_cons_self) (Ne.symm heq)
      refine ⟨none, n :: bins, by simp [heq], rfl, rfl, by simp, ?_⟩
      simpa [hlt] using fun m hm => hlt.trans (hn m hm)

omit [BytesAddress V] in
theorem length_elems_le {n : Pot V} (hn : n ∈ bins) :
    n.elems.length ≤ (elemsBins bins).length := by
  obtain ⟨l, l', rfl⟩ := List.append_of_mem hn
  simp only [elemsBins_append, elemsBins_cons, List.length_append]
  omega

omit [BytesAddress V] in
@[simp] theorem elems_pinned (pin : V) (rest : List (Pot V)) :
    (pinned pin rest p).elems = pin :: elemsBins rest := by
  simp [pinned]

theorem bins_pinned {pin0 pin1 : V} {rest : List (Pot V)} (h : Bins pin0 rest)
    (hp : (address pin0).prox (address pin1) = p) (hlt : p < maxkeylen)
    (hrest : ∀ n ∈ rest, p < n.po) :
    Bins pin1 [pinned pin0 rest p] := by
  refine bins_singleton ⟨h.wf, h.toHangs, by rw [foldl_size h.wf]; omega⟩ hlt fun e he => ?_
  change _ = p
  rw [pinned, elems_mk] at he
  rcases List.mem_append.mp he with he | he
  · obtain rfl : e = pin0 := by simpa using he
    rw [Key.prox_comm, hp]
  · obtain ⟨n, hn, -, hprox, -⟩ := h.mem_prox he
    rw [Key.prox_comm, Key.prox_of_lt (k := address pin0), hp]
    rw [hp, hprox]
    exact hrest n hn

end

section

variable {union : Pot V → Pot V → Option (Pot V × ℤ)} {pin0 pin1 : V}
  {acc bins0 bins1 : List (Pot V)} {N : ℕ}

/-- A round with different pins: what is below their proximity is merged, and what is left of the
first side is the sub-pot at it and the part around the pin. -/
theorem unionLoop_round (common : ℤ) (fuel : ℕ) (h0 : Bins pin0 (acc ++ bins0))
    (h1 : Bins pin1 (acc ++ bins1))
    (hacc : ∀ n ∈ acc, n.po < (address pin0).prox (address pin1))
    (hu : ∀ n0 ∈ bins0, ∀ n1 ∈ bins1, n0.po = n1.po → Unites union n0 n1) :
    ∃ (low0 : List (Pot V)) (o : Option (Pot V)) (rest low1 rest1 l : List (Pot V)) (c : ℤ),
      bins0 = low0 ++ (o.toList ++ rest) ∧ bins1 = low1 ++ rest1 ∧
      Bins pin1 (acc ++ l ++ rest1) ∧ Joins (elemsBins l) (elemsBins low0 ++ elemsBins low1) c ∧
      (∀ n ∈ acc ++ l, n.po < (address pin0).prox (address pin1)) ∧
      (∀ n ∈ o, n.po = (address pin0).prox (address pin1)) ∧
      (∀ n ∈ rest, (address pin0).prox (address pin1) < n.po) ∧
      unionLoop union pin0 pin1 bins0 bins1 ((address pin0).prox (address pin1)) false acc common
          (fuel + 1) =
        o.elim (unionLoop union pin1 pin1 rest1
            [pinned pin0 rest ((address pin0).prox (address pin1))] (maxkeylen + 1) true (acc ++ l)
            (common + c - 1) fuel)
          fun n => n.pin.bind fun pin =>
            unionLoop union pin1 pin rest1
              (pinned pin0 rest ((address pin0).prox (address pin1)) :: n.bins)
              (pof (some pin1) pin n.po).1 (pof (some pin1) pin n.po).2 (acc ++ l) (common + c)
              fuel := by
  set p := (address pin0).prox (address pin1) with hp
  have hlow : ∀ {bins : List (Pot V)}, ∀ n ∈ bins.takeWhile (fun n => n.po < p), n.po < p :=
    fun n hn => by simpa using List.mem_takeWhile_imp hn
  have hsub : ∀ bins : List (Pot V), (bins.takeWhile fun n => n.po < p) ++
      (bins.dropWhile fun n => n.po < p) = bins := fun _ => List.takeWhile_append_dropWhile
  have hsub0 := hsub bins0
  have hsub1 := hsub bins1
  set low0 := bins0.takeWhile fun n => n.po < p with hlow0
  set rest0 := bins0.dropWhile fun n => n.po < p with hrest0
  set low1 := bins1.takeWhile fun n => n.po < p with hlow1
  set rest1 := bins1.dropWhile fun n => n.po < p with hrest1
  have hord0 := (List.pairwise_append.mp h0.ordered).2.1
  have hord1 := (List.pairwise_append.mp h1.ordered).2.1
  have hacc0 : Bins pin0 (acc ++ low0) := h0.sublist (by
    rw [← hsub0]
    exact (List.sublist_append_left _ _).append_left _)
  have hacc1 : Bins pin1 (acc ++ low1) := h1.sublist (by
    rw [← hsub1]
    exact (List.sublist_append_left _ _).append_left _)
  have hbelow : ∀ n ∈ acc ++ low0, n.po < p := fun n hn =>
    (List.mem_append.mp hn).elim (hacc n) (hlow n)
  -- below their proximity, what hangs off one pin hangs off the other
  have hacc0' : Bins pin1 (acc ++ low0) := ⟨hacc0.toHangs.move hbelow, hacc0.wf⟩
  obtain ⟨l, c, hmerge, hl, hjoins, hwithin⟩ := mergeBins_spec
    (hacc0'.sublist (List.sublist_append_right _ _)) (hacc1.sublist (List.sublist_append_right _ _))
    fun n0 hn0 n1 hn1 => hu n0 (hsub0 ▸ List.mem_append_left _ hn0) n1
      (hsub1 ▸ List.mem_append_left _ hn1)
  have hlp : ∀ n ∈ l, n.po < p := hwithin.forall (· < p) fun m hm =>
    (List.mem_append.mp hm).elim (hlow m) (hlow m)
  have haccl : ∀ n ∈ acc ++ l, n.po < p := fun n hn =>
    (List.mem_append.mp hn).elim (hacc n) (hlp n)
  obtain ⟨o, rest, ho, hrest, hsplit, hat, habove⟩ := @exists_head V p rest0
    (hord0.sublist (by rw [← hsub0]; exact List.sublist_append_right _ _))
    (le_po_of_mem_dropWhile hord0)
  refine ⟨low0, o, rest, low1, rest1, l, c, by rw [← hsplit, hsub0], hsub1.symm, ?_, hjoins, haccl,
    hat, habove, ?_⟩
  · refine (hacc0'.append_within hacc1 hl hwithin).append (h1.sublist ?_) fun n hn n' hn' =>
      (haccl n hn).trans_le (le_po_of_mem_dropWhile hord1 n' hn')
    rw [← hsub1]
    exact (List.sublist_append_right _ _).trans (List.sublist_append_right _ _)
  · simp only [unionLoop, ← hlow0, ← hlow1, ← hrest0, ← hrest1, hmerge, Option.bind_some,
      Bool.false_eq_true, if_false, ho, hrest]
    cases o <;> rfl

/-- What a round does to the elements. -/
theorem joins_round {low0 rest low1 rest1 l : List (Pot V)} {o : Option (Pot V)} {c : ℤ}
    {X : List V} (hjoins : Joins (elemsBins l) (elemsBins low0 ++ elemsBins low1) c)
    (hX : X.Perm (elemsBins o.toList ++ pin0 :: elemsBins rest)) :
    Joins (elemsBins (acc ++ l) ++ (pin1 :: elemsBins rest1 ++ X))
      (elemsBins acc ++ (pin0 :: elemsBins (low0 ++ (o.toList ++ rest)) ++
        pin1 :: elemsBins (low1 ++ rest1))) c := by
  have hperm : (elemsBins acc ++ (elemsBins low0 ++ elemsBins low1) ++ (pin1 :: elemsBins rest1 ++
      (elemsBins o.toList ++ pin0 :: elemsBins rest))).Perm (elemsBins acc ++ (pin0 :: elemsBins
        (low0 ++ (o.toList ++ rest)) ++ pin1 :: elemsBins (low1 ++ rest1))) := by
    classical
    refine List.perm_iff_count.mpr fun e => ?_
    simp only [elemsBins_append, List.count_append, List.count_cons]
    omega
  rw [elemsBins_append]
  simpa using (((Joins.refl (elemsBins acc)).append hjoins).append
    ((Joins.refl (pin1 :: elemsBins rest1)).append (.of_perm hX))).trans (.of_perm hperm)

/-- The outer loop: the elements of both sides and of what was merged before, joined. -/
theorem unionLoop_spec {fuel : ℕ} (common : ℤ) (h0 : Bins pin0 (acc ++ bins0))
    (h1 : Bins pin1 (acc ++ bins1))
    (hacc : ∀ n ∈ acc, n.po < (address pin0).prox (address pin1))
    (hfuel : maxkeylen + 2 ≤ fuel + (address pin0).prox (address pin1))
    (hN : (elemsBins bins0).length + (elemsBins bins1).length + 2 ≤ N)
    (hu : ∀ n0 n1 : Pot V, n0.WF → n1.WF → n0.po = n1.po →
      n0.elems.length + n1.elems.length < N → Unites union n0 n1) :
    ∃ pin l c, unionLoop union pin0 pin1 bins0 bins1 ((address pin0).prox (address pin1))
        (decide (address pin0 = address pin1)) acc common fuel = some (pin, l, common + c) ∧
      Bins pin l ∧ Joins (pin :: elemsBins l)
        (elemsBins acc ++ (pin0 :: elemsBins bins0 ++ pin1 :: elemsBins bins1)) c := by
  -- unions of sub-pots of the two sides are smaller
  have hsmall : ∀ {v w : V} {l0 l1 : List (Pot V)}, Bins v l0 → Bins w l1 →
      (elemsBins l0).length + (elemsBins l1).length < N →
      ∀ n0 ∈ l0, ∀ n1 ∈ l1, n0.po = n1.po → Unites union n0 n1 := by
    intro v w l0 l1 hl0 hl1 hlen n0 hn0 n1 hn1 hpo
    have hle0 := length_elems_le hn0
    have hle1 := length_elems_le hn1
    exact hu n0 n1 (hl0.wf n0 hn0) (hl1.wf n1 hn1) hpo (by omega)
  induction fuel generalizing pin0 pin1 acc bins0 bins1 common with
  | zero =>
    have := (address pin0).prox_le (address pin1)
    omega
  | succ fuel ih =>
    have hbins := hsmall (h0.sublist (List.sublist_append_right acc _))
      (h1.sublist (List.sublist_append_right acc _)) (by omega)
    by_cases heq : address pin0 = address pin1
    · have hmax := Key.prox_eq_max.mpr heq
      have h0' : Bins pin1 (acc ++ bins0) := ⟨h0.toHangs.congr heq.symm, h0.wf⟩
      obtain ⟨l, c, hloop, hl, hjoins⟩ := unionLoop_last pin0 _ fuel common h0' h1 hmax.ge hbins
      refine ⟨pin1, acc ++ l, c + 1, by rw [decide_eq_true heq, hloop, Int.add_assoc], hl, ?_⟩
      refine ⟨fun k => ?_, ?_⟩
      · have hmem := hjoins.mem k
        simp only [elemsBins_append, List.map_append, List.map_cons, List.cons_append,
          List.mem_append, List.mem_cons, heq] at hmem ⊢
        tauto
      · have hlen := hjoins.length
        simp only [elemsBins_append, List.length_append, List.length_cons] at hlen ⊢
        omega
    · obtain ⟨low0, o, rest, low1, rest1, l, c, rfl, rfl, hrest1, hjoins, haccl, hat, habove,
        hround⟩ := unionLoop_round common fuel h0 h1 hacc hbins
      have hlt := Key.prox_lt heq
      have hrest : Bins pin0 rest := h0.sublist
        (((List.sublist_append_right _ _).trans (List.sublist_append_right _ _)).trans
          (List.sublist_append_right _ _))
      have hnp := bins_pinned hrest rfl hlt habove
      have hacc1 : Bins pin1 (acc ++ l) := hrest1.sublist (List.sublist_append_left _ _)
      simp only [elemsBins_append, List.length_append] at hN
      rw [decide_eq_false heq, hround]
      cases o with
      | none =>
        obtain ⟨fuel, rfl⟩ : ∃ f, fuel = f + 1 := ⟨fuel - 1, by omega⟩
        obtain ⟨l', c', hloop, hl', hjoins'⟩ := unionLoop_last pin1 (maxkeylen + 1)
          fuel (common + c - 1) hrest1 (hacc1.append hnp (by simpa [pinned] using haccl)) (by omega)
          (hsmall (hrest1.sublist (List.sublist_append_right _ _)) hnp (by
            simp at hN ⊢
            omega))
        refine ⟨pin1, acc ++ l ++ l', c' + c, ?_, hl', ?_⟩
        · rw [Option.elim_none, hloop, show common + c - 1 + c' + 1 = common + (c' + c) by omega]
        have hperm : (pin1 :: elemsBins (acc ++ l) ++ (elemsBins rest1 ++ elemsBins
            [pinned pin0 rest ((address pin0).prox (address pin1))])).Perm
            (elemsBins (acc ++ l) ++ (pin1 :: elemsBins rest1 ++ pin0 :: elemsBins rest)) := by
          rw [elemsBins_cons, elems_pinned, elemsBins_nil, List.append_nil]
          exact List.perm_middle.symm
        have hround' : Joins (elemsBins (acc ++ l) ++ (pin1 :: elemsBins rest1 ++
            pin0 :: elemsBins rest)) (elemsBins acc ++ (pin0 :: elemsBins (low0 ++
              ((none : Option (Pot V)).toList ++ rest)) ++ pin1 :: elemsBins (low1 ++ rest1))) c :=
          joins_round hjoins (by simp)
        have hall := (((Joins.refl (pin1 :: elemsBins (acc ++ l))).append hjoins').trans
          (.of_perm hperm)).trans hround'
        simpa using hall
      | some n =>
        have hn : n ∈ acc ++ (low0 ++ ((some n).toList ++ rest)) := by simp
        have hpo := hat n rfl
        have hnwf := h0.wf n hn
        have hnbins := h0.po_lt_of_mem hn hnwf
        have hnprox := h0.prox n hn
        obtain ⟨npin, nbins, nsize, npo⟩ := n
        cases hnwf with
        | @mk w _ _ _ hwf hangs hsize =>
          simp only at hpo hnbins hnprox
          subst hpo
          have hw : (address pin0).prox (address w) = (address pin0).prox (address pin1) :=
            hnprox w (by simp)
          have hgt := Key.lt_prox hlt rfl hw
          have haccw : Bins w (acc ++ l) :=
            ⟨hacc1.toHangs.move fun m hm => (haccl m hm).trans hgt, hacc1.wf⟩
          have hnpw : Bins w [pinned pin0 rest _] :=
            ⟨hnp.toHangs.move (by simpa [pinned] using hgt), hnp.wf⟩
          have hside : Bins w (pinned pin0 rest _ :: nbins) :=
            Bins.cons ⟨hangs, hwf⟩ hnpw hnbins
          have hside' : Bins w (acc ++ l ++
              (pinned pin0 rest ((address pin0).prox (address pin1)) :: nbins)) := by
            refine haccw.append hside fun m hm m' hm' => ?_
            rcases List.mem_cons.mp hm' with rfl | hm'
            · exact haccl m hm
            · exact (haccl m hm).trans (hnbins m' hm')
          obtain ⟨pin, l', c', hloop, hl', hjoins'⟩ := ih (common + c) hrest1 hside'
            (fun m hm => (haccl m hm).trans hgt) (by omega) (by
              simp at hN ⊢
              omega)
          refine ⟨pin, l', c' + c, ?_, hl', hjoins'.trans (joins_round hjoins ?_)⟩
          · rw [Option.elim_some, Option.bind_some, pof_eq hgt.le, hloop, Int.add_assoc,
              Int.add_comm c]
          · simp only [elemsBins_cons, elems_pinned, Option.toList_some, elems_mk, elemsBins_nil,
              List.append_nil, List.singleton_append]
            exact List.Perm.cons w List.perm_append_comm

end

/-! ## The union -/

theorem unites_union {fuel : ℕ} {t0 t1 : Pot V} (h0 : t0.WF) (h1 : t1.WF)
    (hfuel : t0.elems.length + t1.elems.length ≤ fuel) : Unites (union fuel) t0 t1 := by
  induction fuel generalizing t0 t1 with
  | zero =>
    have := List.length_pos_iff.mpr h0.elems_ne_nil
    omega
  | succ fuel ih =>
    have hsize0 := h0.size_eq
    have hsize1 := h1.size_eq
    have hpos0 := List.length_pos_iff.mpr h0.elems_ne_nil
    have hpos1 := List.length_pos_iff.mpr h1.elems_ne_nil
    cases h0 with
    | @mk pin0 bins0 size0 po0 hbins0 hangs0 hlen0 =>
      cases h1 with
      | @mk pin1 bins1 size1 po1 hbins1 hangs1 hlen1 =>
        simp only [elems_mk, Option.toList_some, List.singleton_append, List.length_cons] at *
        have hside0 : Bins pin0 ([] ++ bins0) := ⟨hangs0, hbins0⟩
        have hside1 : Bins pin1 ([] ++ bins1) := ⟨hangs1, hbins1⟩
        obtain ⟨pin, l, c, hloop, hl, hjoins⟩ := unionLoop_spec 0 hside0 hside1 (by simp)
          (Nat.le_add_right (maxkeylen + 2) _) le_rfl
          fun n0 n1 hn0 hn1 hpo hlt => ih hn0 hn1 (by omega)
        refine ⟨⟨some pin, l, size0 + size1 - c, po0⟩, c, ?_, ⟨hl.wf, hl.toHangs, ?_⟩, rfl, ?_⟩
        · simp only [union, show ¬ size0 = 0 by omega, show ¬ size1 = 0 by omega, if_false,
            Option.bind_some, pof_eq (Nat.zero_le _), hloop, Option.map_some, Int.zero_add]
        · have := hjoins.length
          simp only [elemsBins_nil, List.nil_append, List.length_append, List.length_cons] at this
          omega
        · simpa using hjoins

/-- **The union of two well-formed pots** is a well-formed pot with the keys of both; the second
result is the number of common keys. -/
theorem pot_union {t0 t1 : Pot V} (h0 : t0.Ok) (h1 : t1.Ok) {fuel : ℕ}
    (hfuel : t0.elems.length + t1.elems.length < fuel) :
    ∃ r c, union fuel t0 t1 = some (r, c) ∧ r.Ok ∧ r.size = r.elems.length ∧
      (r.elems.map address).Nodup ∧
      (∀ k, k ∈ r.elems.map address ↔ k ∈ t0.elems.map address ∨ k ∈ t1.elems.map address) ∧
      c = ((t0.elems.map address).toFinset ∩ (t1.elems.map address).toFinset).card := by
  obtain ⟨r, c, heq, hr, hjoins⟩ : ∃ r c, union fuel t0 t1 = some (r, c) ∧ r.Ok ∧
      Joins r.elems (t0.elems ++ t1.elems) c := by
    obtain ⟨fuel, rfl⟩ : ∃ f, fuel = f + 1 := ⟨fuel - 1, by omega⟩
    cases h0 with
    | empty po => exact ⟨t1, 0, by simp [union], h1, by simpa using Joins.refl t1.elems⟩
    | wf hwf0 =>
      cases h1 with
      | empty po =>
        have hsize := hwf0.size_eq
        have hpos := List.length_pos_iff.mpr hwf0.elems_ne_nil
        refine ⟨t0, 0, ?_, .wf hwf0, by simpa using Joins.refl t0.elems⟩
        simp [union, show ¬ t0.size = 0 by omega]
      | wf hwf1 =>
        obtain ⟨r, c, heq, hr, -, hjoins⟩ : Unites (union (fuel + 1)) t0 t1 :=
          unites_union hwf0 hwf1 (by omega)
        exact ⟨r, c, heq, .wf hr, hjoins⟩
  refine ⟨r, c, heq, hr, hr.size_eq, hr.nodup,
    by simpa [or_and_right, exists_or] using hjoins.mem, ?_⟩
  have hunion : (r.elems.map address).toFinset =
      (t0.elems.map address).toFinset ∪ (t1.elems.map address).toFinset := by
    ext k
    rw [List.mem_toFinset, hjoins.mem, Finset.mem_union, List.mem_toFinset, List.mem_toFinset,
      List.map_append, List.mem_append]
  have hcard := Finset.card_union_add_card_inter (t0.elems.map address).toFinset
    (t1.elems.map address).toFinset
  rw [← hunion, List.toFinset_card_of_nodup hr.nodup, List.toFinset_card_of_nodup h0.nodup,
    List.toFinset_card_of_nodup h1.nodup] at hcard
  simp only [List.length_map] at hcard
  have hlen := hjoins.length
  rw [List.length_append] at hlen
  omega

/-- Two pots with one element each, with different keys. -/
theorem pot_union_two : ∃ r c, union 3 ⟨some (⟨.replicate 32 0, rfl⟩ : Key), [], 1, 0⟩
    ⟨some ⟨1 :: .replicate 31 0, rfl⟩, [], 1, 0⟩ = some (r, c) ∧ r.Ok ∧ r.size = r.elems.length ∧
    c = 0 := by
  have hleaf : ∀ k : Key, Ok ⟨some k, [], 1, 0⟩ := fun k =>
    .wf ⟨by simp, ⟨.nil, by simp, by simp⟩, by simp⟩
  obtain ⟨r, c, heq, hok, hsize, -, -, hc⟩ := pot_union (hleaf ⟨.replicate 32 0, rfl⟩)
    (hleaf ⟨1 :: .replicate 31 0, rfl⟩) (show _ < 3 by simp)
  refine ⟨r, c, heq, hok, hsize, ?_⟩
  rw [hc]
  simp [address]

end GoEthereum.Swarm.Pot
