/-
  Proximity order tries (swarm/pot): the values, their proximity, and well-formed pots.
-/
import Mathlib.Data.List.Basic
import GoEthereum.Lib.Proximity

namespace GoEthereum.Swarm

/-! ## Keys -/

/-- The bytes of a 256-bit key. -/
structure Key where
  bytes : List UInt8
  length_bytes : bytes.length = 32
deriving DecidableEq

/-- `BytesAddress`: what a pot reads of its values. -/
class BytesAddress (V : Type) where
  address : V → Key

export BytesAddress (address)

/-- Byte slices are their own keys. -/
instance : BytesAddress Key := ⟨id⟩

/-- The first bit from `start` on in which the bytes at index `i` differ. -/
def firstBit (one other : List UInt8) (i start : ℕ) : Option ℕ :=
  let oxo := one.getD i 0 ^^^ other.getD i 0
  (List.range' start (8 - start)).findSome? fun j =>
    if (oxo >>> UInt8.ofNat (7 - j)) &&& 1 ≠ 0 then some (i * 8 + j) else none

def proximityOrder (one other : List UInt8) (pos : ℕ) : ℕ × Bool :=
  match (List.range' (pos / 8) (one.length - pos / 8)).findSome? fun i =>
      if one.getD i 0 = other.getD i 0 then none
      else firstBit one other i (if i = pos / 8 then pos % 8 else 0) with
  | some po => (po, false)
  | none => (one.length * 8, true)

def maxkeylen : ℕ := 256

section
variable {V : Type} [BytesAddress V]

def toBytes : Option V → List UInt8
  | none => []
  | some v => (address v).bytes

/-- `DefaultPof(256)` -/
def pof (one : Option V) (other : V) (pos : ℕ) : ℕ × Bool :=
  let (po, eq) := proximityOrder (toBytes one) (toBytes (some other)) pos
  if po ≥ maxkeylen then (maxkeylen, true) else (po, eq)

end

/-! ## Pots -/

structure Pot (V : Type) where
  pin : Option V
  bins : List (Pot V)
  size : ℤ
  po : ℕ

namespace Pot

variable {V : Type}

mutual

/-- The elements, the pin first. -/
def elems : Pot V → List V
  | ⟨pin, bins, _, _⟩ => pin.toList ++ elemsBins bins

/-- The elements of the sub-pots. -/
def elemsBins : List (Pot V) → List V
  | [] => []
  | n :: bins => elems n ++ elemsBins bins

end

end Pot

/-! ## Proximity of keys -/

/-- The bits of a key, the highest of each byte first. -/
def Key.bit (k : Key) (i : ℕ) : Bool := (k.bytes.getD (i / 8) 0).toNat.testBit (7 - i % 8)

/-- The proximity of two keys. -/
def Key.prox (k k' : Key) : ℕ := GoEthereum.prox maxkeylen k.bit k'.bit

theorem bit_xor (x y : UInt8) {j : ℕ} (hj : j < 8) :
    ((x ^^^ y) >>> UInt8.ofNat (7 - j)) &&& 1 ≠ 0 ↔
      x.toNat.testBit (7 - j) ≠ y.toNat.testBit (7 - j) := by
  have hshift : (UInt8.ofNat (7 - j)).toNat % 8 = 7 - j := by
    rw [UInt8.toNat_ofNat']
    omega
  rw [Ne, ← UInt8.toNat_inj, UInt8.toNat_and, UInt8.toNat_shiftRight, hshift, UInt8.toNat_xor,
    UInt8.toNat_one, UInt8.toNat_zero]
  have hbit : (x.toNat ^^^ y.toNat) >>> (7 - j) &&& 1 = 0 ↔
      (x.toNat ^^^ y.toNat).testBit (7 - j) = false := by
    simp [Nat.testBit, Nat.and_comm]
  rw [hbit, Nat.testBit_xor]
  cases x.toNat.testBit (7 - j) <;> cases y.toNat.testBit (7 - j) <;> simp

theorem byte_ext {x y : UInt8} (h : ∀ j < 8, x.toNat.testBit (7 - j) = y.toNat.testBit (7 - j)) :
    x = y := by
  refine UInt8.toNat_inj.mp (Nat.eq_of_testBit_eq fun i => ?_)
  rcases Nat.lt_or_ge i 8 with hi | hi
  · have := h (7 - i) (by omega)
    rwa [show 7 - (7 - i) = i by omega] at this
  · have hpow : 2 ^ 8 ≤ 2 ^ i := Nat.pow_le_pow_right (by omega) hi
    rw [Nat.testBit_lt_two_pow (x.toNat_lt.trans_le hpow),
      Nat.testBit_lt_two_pow (y.toNat_lt.trans_le hpow)]

theorem Key.ext_bit {k k' : Key} (h : ∀ i < maxkeylen, k.bit i = k'.bit i) : k = k' := by
  obtain ⟨bytes, hlen⟩ := k
  obtain ⟨bytes', hlen'⟩ := k'
  congr 1
  refine List.ext_getElem (hlen.trans hlen'.symm) fun i hi hi' => byte_ext fun j hj => ?_
  have hbit := h (i * 8 + j) (by rw [maxkeylen]; omega)
  rw [Key.bit, Key.bit, show (i * 8 + j) / 8 = i by omega, show (i * 8 + j) % 8 = j by omega]
    at hbit
  simpa [hi, hi'] using hbit

namespace Key

variable {k k' k'' : Key} {p : ℕ}

theorem prox_le (k k' : Key) : k.prox k' ≤ maxkeylen := GoEthereum.prox_le _ _ _

theorem prox_comm (k k' : Key) : k.prox k' = k'.prox k := GoEthereum.prox_comm

theorem prox_eq_max : k.prox k' = maxkeylen ↔ k = k' := by
  rw [prox, prox_eq_max_iff]
  exact ⟨ext_bit, fun h => by simp [h]⟩

theorem prox_lt (h : k ≠ k') : k.prox k' < maxkeylen :=
  lt_of_le_of_ne (prox_le _ _) (mt prox_eq_max.mp h)

theorem prox_self (k : Key) : k.prox k = maxkeylen := prox_eq_max.mpr rfl

theorem ne_of_prox (h : k.prox k' = p) (hp : p < maxkeylen) : k ≠ k' := by
  rintro rfl
  rw [prox_self] at h
  omega

theorem prox_of_lt (h : k.prox k'' < k.prox k') : k'.prox k'' = k.prox k'' :=
  GoEthereum.prox_of_lt h

theorem lt_prox (hp : p < maxkeylen) (h : k''.prox k = p) (h' : k''.prox k' = p) :
    p < k.prox k' :=
  GoEthereum.lt_prox hp h h'

end Key

theorem findSome?_range'_eq_some {β : Type} {f : ℕ → Option β} {s n : ℕ} {b : β}
    (h : (List.range' s n).findSome? f = some b) :
    ∃ i, s ≤ i ∧ i < s + n ∧ f i = some b ∧ ∀ j, s ≤ j → j < i → f j = none := by
  obtain ⟨l, i, l', heq, hi, hl⟩ := List.findSome?_eq_some_iff.mp h
  obtain ⟨m, hm, rfl, hrest⟩ := List.range'_eq_append_iff.mp heq
  obtain ⟨rfl, hpos, -⟩ := List.range'_eq_cons_iff.mp hrest.symm
  rw [Nat.mul_one] at hi
  exact ⟨s + m, by omega, by omega, hi, fun j hj hlt => hl j (List.mem_range'_1.mpr ⟨hj, hlt⟩)⟩

section

variable {k k' : Key} {i start pos po : ℕ}

theorem bit_eq_iff {j : ℕ} (hj : j < 8) : k.bit (i * 8 + j) = k'.bit (i * 8 + j) ↔
    ¬ ((k.bytes.getD i 0 ^^^ k'.bytes.getD i 0) >>> UInt8.ofNat (7 - j)) &&& 1 ≠ 0 := by
  rw [bit_xor _ _ hj, Key.bit, Key.bit, show (i * 8 + j) / 8 = i by omega,
    show (i * 8 + j) % 8 = j by omega, not_not]

theorem firstBit_eq_none (h : firstBit k.bytes k'.bytes i start = none) {j : ℕ}
    (hstart : start ≤ j) (hj : j < 8) : k.bit (i * 8 + j) = k'.bit (i * 8 + j) := by
  have hnone := List.findSome?_eq_none_iff.mp h j (List.mem_range'_1.mpr ⟨hstart, by omega⟩)
  rw [bit_eq_iff hj]
  intro hne
  rw [if_pos hne] at hnone
  cases hnone

theorem firstBit_eq_some (h : firstBit k.bytes k'.bytes i start = some po) :
    ∃ j, po = i * 8 + j ∧ start ≤ j ∧ j < 8 ∧ k.bit po ≠ k'.bit po ∧
      ∀ j', start ≤ j' → j' < j → k.bit (i * 8 + j') = k'.bit (i * 8 + j') := by
  obtain ⟨j, hstart, hlt, hj, hbefore⟩ := findSome?_range'_eq_some h
  split_ifs at hj with hne
  cases hj
  refine ⟨j, rfl, hstart, by omega, fun heq => (bit_eq_iff (by omega)).mp heq hne, ?_⟩
  intro j' hstart' hlt'
  rw [bit_eq_iff (by omega)]
  intro hne'
  have hnone := hbefore j' hstart' hlt'
  rw [if_pos hne'] at hnone
  cases hnone

theorem proximityOrder_eq (hpos : pos ≤ k.prox k') :
    proximityOrder k.bytes k'.bytes pos = (k.prox k', decide (k = k')) := by
  have hlow : ∀ q < pos, k.bit q = k'.bit q := fun q hq =>
    (prox_cases maxkeylen k.bit k'.bit).1 q (hq.trans_le hpos)
  have hle := hpos.trans (k.prox_le k')
  rw [maxkeylen] at hle
  -- a byte without a result agrees from where the loop starts on it
  have hbyte : ∀ q, pos ≤ q → ((if k.bytes.getD (q / 8) 0 = k'.bytes.getD (q / 8) 0 then none
      else firstBit k.bytes k'.bytes (q / 8) (if q / 8 = pos / 8 then pos % 8 else 0)) = none) →
      k.bit q = k'.bit q := by
    intro q hq hnone
    split_ifs at hnone with heq
    · rw [Key.bit, Key.bit, heq]
    all_goals
      have hbit := firstBit_eq_none hnone (j := q % 8) (by omega) (by omega)
      rwa [show q / 8 * 8 + q % 8 = q by omega] at hbit
  rw [proximityOrder, k.length_bytes]
  cases hfind : (List.range' (pos / 8) (32 - pos / 8)).findSome? fun i =>
      if k.bytes.getD i 0 = k'.bytes.getD i 0 then none
      else firstBit k.bytes k'.bytes i (if i = pos / 8 then pos % 8 else 0) with
  | none =>
    have hall : ∀ q < maxkeylen, k.bit q = k'.bit q := by
      intro q hq
      rw [maxkeylen] at hq
      rcases Nat.lt_or_ge q pos with hqp | hqp
      · exact hlow q hqp
      · refine hbyte q hqp (List.findSome?_eq_none_iff.mp hfind (q / 8) ?_)
        exact List.mem_range'_1.mpr ⟨by omega, by omega⟩
    obtain rfl := Key.ext_bit hall
    simp [Key.prox_self, maxkeylen]
  | some po =>
    obtain ⟨i, hpi, hi, hfi, hbefore⟩ := findSome?_range'_eq_some hfind
    split_ifs at hfi with heq
    all_goals
      obtain ⟨j, rfl, hstart, hj, hne, hagree⟩ := firstBit_eq_some hfi
      have hprox : k.prox k' = i * 8 + j := by
        refine prox_eq_of_ne (by rw [maxkeylen]; omega) (fun q hq => ?_) hne
        rcases Nat.lt_or_ge q pos with hqp | hqp
        · exact hlow q hqp
        rcases Nat.lt_or_ge (q / 8) i with hqi | hqi
        · exact hbyte q hqp (hbefore _ (by omega) hqi)
        · have := hagree (q % 8) (by omega) (by omega)
          rwa [show i * 8 + q % 8 = q by omega] at this
      have hkeys : k ≠ k' := Key.ne_of_prox hprox (by rw [maxkeylen]; omega)
      simp [hprox, hkeys]

end

variable {V : Type} [BytesAddress V]

theorem pof_eq {v w : V} {pos : ℕ} (hpos : pos ≤ (address v).prox (address w)) :
    pof (some v) w pos = ((address v).prox (address w), decide (address v = address w)) := by
  simp only [pof, toBytes, proximityOrder_eq hpos]
  split_ifs with hmax
  · have heq := le_antisymm ((address v).prox_le (address w)) hmax
    simp [Key.prox_eq_max.mp heq, Key.prox_self]
  · rfl

/-! ## Well-formed pots -/

namespace Pot

/-- The sub-pots are in increasing order, and every element of one has that proximity to `v`. -/
structure Hangs (v : V) (bins : List (Pot V)) : Prop where
  ordered : bins.Pairwise fun n n' => n.po < n'.po
  po_lt : ∀ n ∈ bins, n.po < maxkeylen
  prox : ∀ n ∈ bins, ∀ e ∈ n.elems, (address v).prox (address e) = n.po

/-- A well-formed pot that is not empty. -/
inductive WF : Pot V → Prop
  | mk {v : V} {bins : List (Pot V)} {size : ℤ} {po : ℕ} (hbins : ∀ n ∈ bins, WF n)
      (hangs : Hangs v bins) (hsize : size = 1 + (elemsBins bins).length) :
      WF ⟨some v, bins, size, po⟩

/-- A well-formed pot. -/
inductive Ok : Pot V → Prop
  | empty (po : ℕ) : Ok ⟨none, [], 0, po⟩
  | wf {t : Pot V} (h : t.WF) : Ok t

section
omit [BytesAddress V]

@[simp] theorem elems_mk {pin : Option V} {bins : List (Pot V)} {size : ℤ} {po : ℕ} :
    elems ⟨pin, bins, size, po⟩ = pin.toList ++ elemsBins bins := by
  rw [elems]

@[simp] theorem elemsBins_nil : elemsBins ([] : List (Pot V)) = [] := by
  rw [elemsBins]

@[simp] theorem elemsBins_cons (n : Pot V) (bins : List (Pot V)) :
    elemsBins (n :: bins) = n.elems ++ elemsBins bins := by
  rw [elemsBins]

@[simp] theorem elemsBins_append (l l' : List (Pot V)) :
    elemsBins (l ++ l') = elemsBins l ++ elemsBins l' := by
  induction l with
  | nil => simp
  | cons n l ih => simp [ih]

theorem mem_elemsBins {e : V} {bins : List (Pot V)} :
    e ∈ elemsBins bins ↔ ∃ n ∈ bins, e ∈ n.elems := by
  induction bins with
  | nil => simp
  | cons n bins ih => simp [ih]

end

variable {v w e : V} {bins l l' : List (Pot V)} {t : Pot V}

theorem WF.exists_pin (h : t.WF) : ∃ v, t.pin = some v ∧ v ∈ t.elems := by
  cases h
  simp

theorem WF.elems_ne_nil (h : t.WF) : t.elems ≠ [] := by
  obtain ⟨v, -, hv⟩ := h.exists_pin
  exact List.ne_nil_of_mem hv

theorem WF.size_eq (h : t.WF) : t.size = t.elems.length := by
  cases h with
  | mk _ _ hsize =>
    simp only [elems_mk, Option.toList_some, List.singleton_append, List.length_cons]
    omega

theorem Ok.size_eq (h : t.Ok) : t.size = t.elems.length := by
  cases h with
  | empty po => simp
  | wf h => exact h.size_eq

theorem Hangs.mem_prox (h : Hangs v bins) (he : e ∈ elemsBins bins) :
    ∃ n ∈ bins, e ∈ n.elems ∧ (address v).prox (address e) = n.po ∧ n.po < maxkeylen := by
  obtain ⟨n, hn, hmem⟩ := mem_elemsBins.mp he
  exact ⟨n, hn, hmem, h.prox n hn e hmem, h.po_lt n hn⟩

theorem Hangs.address_ne (h : Hangs v bins) (he : e ∈ elemsBins bins) : address v ≠ address e := by
  obtain ⟨n, hn, -, hprox, hlt⟩ := h.mem_prox he
  exact Key.ne_of_prox hprox hlt

theorem Hangs.sublist (h : Hangs v bins) (hsub : l.Sublist bins) : Hangs v l where
  ordered := h.ordered.sublist hsub
  po_lt := fun n hn => h.po_lt n (hsub.subset hn)
  prox := fun n hn => h.prox n (hsub.subset hn)

theorem Hangs.po_lt_of_mem {n : Pot V} (h : Hangs v bins) (hn : n ∈ bins) (hwf : n.WF) :
    ∀ m ∈ n.bins, n.po < m.po := by
  intro m hm
  cases hwf with
  | @mk w lbins size po hbins hangs hsize =>
    obtain ⟨e, -, he⟩ := (hbins m hm).exists_pin
    rw [← hangs.prox m hm e he]
    exact Key.lt_prox (h.po_lt _ hn) (h.prox _ hn w (by simp))
      (h.prox _ hn e (by simp [mem_elemsBins.mpr ⟨m, hm, he⟩]))

theorem Hangs.congr (h : Hangs v bins) (heq : address w = address v) : Hangs w bins where
  ordered := h.ordered
  po_lt := h.po_lt
  prox := fun n hn e he => heq ▸ h.prox n hn e he

theorem Hangs.move (h : Hangs v bins)
    (hlt : ∀ n ∈ bins, n.po < (address v).prox (address w)) : Hangs w bins where
  ordered := h.ordered
  po_lt := h.po_lt
  prox := fun n hn e he => by
    have hn' := h.prox n hn e he
    rw [Key.prox_of_lt (hn'.trans_lt (hlt n hn)), hn']

theorem Hangs.append (h : Hangs v l) (h' : Hangs v l')
    (hlt : ∀ n ∈ l, ∀ n' ∈ l', n.po < n'.po) : Hangs v (l ++ l') where
  ordered := List.pairwise_append.mpr ⟨h.ordered, h'.ordered, hlt⟩
  po_lt := fun n hn => (List.mem_append.mp hn).elim (h.po_lt n) (h'.po_lt n)
  prox := fun n hn => (List.mem_append.mp hn).elim (h.prox n) (h'.prox n)

theorem WF.nodup (h : t.WF) : (t.elems.map address).Nodup := by
  induction h with
  | @mk v bins size po hbins hangs hsize ih =>
    simp only [elems_mk, Option.toList_some, List.singleton_append, List.map_cons, List.nodup_cons]
    refine ⟨?_, ?_⟩
    · intro hmem
      obtain ⟨e, he, heq⟩ := List.mem_map.mp hmem
      exact hangs.address_ne he heq.symm
    clear hsize hbins
    induction bins with
    | nil => simp
    | cons n bins ihb =>
      simp only [elemsBins_cons, List.map_append]
      refine List.nodup_append.mpr ⟨ih n List.mem_cons_self, ihb
        (hangs.sublist (List.sublist_cons_self n bins))
        fun m hm => ih m (List.mem_cons_of_mem n hm), ?_⟩
      intro k hk k' hk' heq
      obtain ⟨e, he, rfl⟩ := List.mem_map.mp hk
      obtain ⟨e', he', rfl⟩ := List.mem_map.mp hk'
      obtain ⟨n', hn', hmem⟩ := mem_elemsBins.mp he'
      have hlt := List.rel_of_pairwise_cons hangs.ordered hn'
      rw [← hangs.prox n List.mem_cons_self e he, heq,
        hangs.prox n' (List.mem_cons_of_mem n hn') e' hmem] at hlt
      exact lt_irrefl _ hlt

/-- Well-formed sub-pots that hang off `v`. -/
structure Bins (v : V) (bins : List (Pot V)) : Prop extends Hangs v bins where
  wf : ∀ n ∈ bins, n.WF

theorem WF.toBins {size : ℤ} {po : ℕ} (h : WF ⟨some v, bins, size, po⟩) : Bins v bins := by
  cases h with
  | mk hbins hangs hsize => exact ⟨hangs, hbins⟩

theorem Bins.sublist (h : Bins v l) (hsub : l'.Sublist l) : Bins v l' :=
  ⟨h.toHangs.sublist hsub, fun n hn => h.wf n (hsub.subset hn)⟩

theorem Bins.append (h : Bins v l) (h' : Bins v l') (hlt : ∀ n ∈ l, ∀ n' ∈ l', n.po < n'.po) :
    Bins v (l ++ l') :=
  ⟨h.toHangs.append h'.toHangs hlt, fun n hn =>
    (List.mem_append.mp hn).elim (h.wf n) (h'.wf n)⟩

theorem foldl_size (h : ∀ n ∈ bins, n.WF) (z : ℤ) :
    bins.foldl (fun size n => size + n.size) z = z + (elemsBins bins).length := by
  induction bins generalizing z with
  | nil => simp
  | cons n bins ih =>
    rw [List.foldl_cons, ih fun m hm => h m (.tail _ hm), (h n (.head _)).size_eq, elemsBins_cons,
      List.length_append, Int.natCast_add, Int.add_assoc]

theorem Ok.nodup (h : t.Ok) : (t.elems.map address).Nodup := by
  cases h with
  | empty po => simp
  | wf h => exact h.nodup

end Pot

end GoEthereum.Swarm
