/-
  Compression of sparse bytes (common/bitutil/compress.go).

  Bytes are encoded as the encoding of the set of the nonzero ones, followed by these.  A set
  is known by its bits (`bits_ext`), and the decoder accepts the bytes that fill the bits in
  order, and no others (`fill_eq_ok_iff`), so it inverts the encoder (`compression_lossless`).
  An access outside of a slice is the error `panic`.
-/
import Mathlib.Data.Nat.Bitwise
import Mathlib.Tactic.IntervalCases
import GoEthereum.Lib.Outcome
import GoEthereum.Common

namespace GoEthereum.Bitutil

open GoEthereum.Rlp Outcome

inductive DecompressError where
  | missingData
  | unreferencedData
  | exceededTarget
  | zeroContent
  | panic
deriving DecidableEq

/-- An element of a slice. -/
def index (l : Bytes) (i : ℕ) : Except DecompressError UInt8 :=
  match l[i]? with
  | some b => .ok b
  | none => .error .panic

/-- The place of an element in its byte of the set. -/
def mask (i : ℕ) : UInt8 := 1 <<< UInt8.ofNat (7 - i % 8)

/-! ## Encoding -/

/-- The loop body of `bitsetEncodeBytes`, for a byte and its index. -/
def collect (st : Bytes × Bytes) (x : UInt8 × ℕ) : Bytes × Bytes :=
  if x.1 ≠ 0 then (st.1.modify (x.2 / 8) (· ||| mask x.2), st.2 ++ [x.1]) else st

/-- The set of the nonzero bytes, and these bytes. -/
def nonZero (data : Bytes) : Bytes × Bytes :=
  data.zipIdx.foldl collect (List.replicate ((data.length + 7) / 8) 0, [])

theorem length_collect (st : Bytes × Bytes) (x : UInt8 × ℕ) :
    (collect st x).1.length = st.1.length := by
  rw [collect]
  split_ifs
  · exact List.length_modify _ _ _
  · rfl

theorem length_nonZero (data : Bytes) : (nonZero data).1.length = (data.length + 7) / 8 := by
  have h : ∀ (l : List (UInt8 × ℕ)) st, (l.foldl collect st).1.length = st.1.length := by
    intro l
    induction l with
    | nil => exact fun _ => rfl
    | cons x l ih => exact fun st => (ih _).trans (length_collect st x)
  rw [nonZero, h, List.length_replicate]

def bitsetEncodeBytes : Bytes → Bytes
  | [] => []
  | [b] => if b = 0 then [] else [b]
  | b :: b' :: rest =>
    let data := b :: b' :: rest
    if (nonZero data).2 = [] then [] else bitsetEncodeBytes (nonZero data).1 ++ (nonZero data).2
termination_by data => data.length
decreasing_by
  rw [length_nonZero]
  simp only [List.length_cons]
  omega

def compressBytes (data : Bytes) : Bytes :=
  if (bitsetEncodeBytes data).length < data.length then bitsetEncodeBytes data else data

/-! ## Decoding -/

/-- The loop body of `bitsetDecodePartialBytes`. -/
def fillBit (data nonZeroBitset : Bytes) (st : Bytes × ℕ) (i : ℕ) :
    Except DecompressError (Bytes × ℕ) := do
  let byte ← index nonZeroBitset (i / 8)
  if byte &&& mask i = 0 then .ok st
  else if st.2 ≥ data.length then .error .missingData
  else if i ≥ st.1.length then .error .exceededTarget
  else do
    let b ← index data st.2
    if b = 0 then .error .zeroContent else .ok (st.1.set i b, st.2 + 1)

def bitsetDecodePartialBytes (data : Bytes) (target : ℕ) : Except DecompressError (Bytes × ℕ) :=
  if target = 0 then .ok ([], 0)
  else if data.length = 0 then .ok (List.replicate target 0, 0)
  else if target = 1 then do
    let b ← index data 0
    return ([b], if b ≠ 0 then 1 else 0)
  else do
    let r ← bitsetDecodePartialBytes data ((target + 7) / 8)
    (List.range (8 * r.1.length)).foldlM (fillBit data r.1) (List.replicate target 0, r.2)
termination_by target

def bitsetDecodeBytes (data : Bytes) (target : ℕ) : Except DecompressError Bytes := do
  let r ← bitsetDecodePartialBytes data target
  if r.2 ≠ data.length then .error .unreferencedData else return r.1

def decompressBytes (data : Bytes) (target : ℕ) : Except DecompressError Bytes :=
  if data.length > target then .error .exceededTarget
  else if data.length = target then .ok data
  else bitsetDecodeBytes data target

/-! ## Sets as bits -/

/-- The bit of a set; there are no bits behind its end. -/
def bit (bs : Bytes) (i : ℕ) : Bool := (bs.getD (i / 8) 0).toNat.testBit (7 - i % 8)

theorem toNat_mask (i : ℕ) : (mask i).toNat = 2 ^ (7 - i % 8) := by
  have h : i % 8 < 8 := Nat.mod_lt _ (by norm_num)
  rw [mask]
  interval_cases i % 8 <;> rfl

theorem and_mask (b : UInt8) (i : ℕ) : b &&& mask i = 0 ↔ b.toNat.testBit (7 - i % 8) = false := by
  rw [← UInt8.toNat_inj, UInt8.toNat_and, toNat_mask, Nat.and_two_pow]
  cases b.toNat.testBit (7 - i % 8) <;> simp

theorem bit_eq_false {bs : Bytes} {i : ℕ} (hi : 8 * bs.length ≤ i) : bit bs i = false := by
  have hnone : bs[i / 8]? = none := List.getElem?_eq_none (by omega)
  rw [bit, List.getD_eq_getElem?_getD, hnone]
  exact Nat.zero_testBit _

theorem bits_ext {bs bs' : Bytes} (hlen : bs.length = bs'.length) (h : ∀ i, bit bs i = bit bs' i) :
    bs = bs' := by
  refine List.ext_getElem hlen fun k hk hk' => ?_
  rw [← UInt8.toNat_inj]
  refine Nat.eq_of_testBit_eq fun j => ?_
  rcases Nat.lt_or_ge j 8 with hj | hj
  · have hbit := h (8 * k + (7 - j))
    rw [bit, bit, show (8 * k + (7 - j)) / 8 = k by omega,
      show 7 - (8 * k + (7 - j)) % 8 = j by omega, List.getD_eq_getElem _ _ hk,
      List.getD_eq_getElem _ _ hk'] at hbit
    exact hbit
  · have hlow : ∀ b : UInt8, b.toNat.testBit j = false := fun b =>
      Nat.testBit_lt_two_pow (b.toNat_lt.trans_le (Nat.pow_le_pow_right (by norm_num) hj))
    rw [hlow, hlow]

theorem bit_modify {bs : Bytes} {k : ℕ} (hk : k / 8 < bs.length) (i : ℕ) :
    bit (bs.modify (k / 8) (· ||| mask k)) i = (bit bs i || decide (i = k)) := by
  rw [bit, bit, List.getD_eq_getElem?_getD, List.getD_eq_getElem?_getD, List.getElem?_modify]
  by_cases hdiv : k / 8 = i / 8
  · rw [← hdiv, List.getElem?_eq_getElem hk]
    simp only [Functor.map, Option.map, if_true, Option.getD_some, UInt8.toNat_or, toNat_mask,
      Nat.testBit_or, Nat.testBit_two_pow]
    congr 1
    exact decide_eq_decide.2 (by omega)
  · have hne : i ≠ k := fun h => hdiv (h ▸ rfl)
    simp [hdiv, hne]

theorem collect_spec {st : Bytes × Bytes} {k : ℕ} (hk : k < 8 * st.1.length) (b : UInt8) :
    (collect st (b, k)).2 = st.2 ++ [b].filter (· ≠ 0) ∧
      ∀ i, bit (collect st (b, k)).1 i = (bit st.1 i || decide (i = k ∧ b ≠ 0)) := by
  rw [collect]
  by_cases hb : b = 0
  · simp [hb]
  · rw [if_pos hb]
    refine ⟨by simp [hb], fun i => ?_⟩
    rw [bit_modify (by omega)]
    simp [hb]

theorem foldl_collect (l : Bytes) (k : ℕ) (st : Bytes × Bytes)
    (hlen : k + l.length ≤ 8 * st.1.length) :
    ((l.zipIdx k).foldl collect st).2 = st.2 ++ l.filter (· ≠ 0) ∧
      ∀ i, bit ((l.zipIdx k).foldl collect st).1 i =
        (bit st.1 i || decide (k ≤ i ∧ l.getD (i - k) 0 ≠ 0)) := by
  induction l generalizing k st with
  | nil => simp
  | cons b l ih =>
    rw [List.length_cons] at hlen
    obtain ⟨hbytes, hbits⟩ := @collect_spec st k (by omega) b
    obtain ⟨hbytes', hbits'⟩ := ih (k + 1) (collect st (b, k)) (by rw [length_collect]; omega)
    rw [List.zipIdx_cons, List.foldl_cons]
    refine ⟨?_, fun i => ?_⟩
    · rw [hbytes', hbytes, List.append_assoc, ← List.filter_append, List.singleton_append]
    · rw [hbits', hbits, Bool.or_assoc]
      congr 1
      rw [← Bool.decide_or]
      refine decide_eq_decide.2 ?_
      rcases Nat.lt_trichotomy i k with hlt | rfl | hgt
      · omega
      · simp
      · rw [show i - k = i - (k + 1) + 1 by omega, List.getD_cons_succ]
        simp only [hgt.ne', hgt.le, Nat.succ_le_of_lt hgt, false_and, false_or, true_and]

theorem getD_replicate (n i : ℕ) : (List.replicate n (0 : UInt8)).getD i 0 = 0 := by
  rw [List.getD_eq_getElem?_getD, List.getElem?_replicate]
  split_ifs <;> rfl

theorem nonZero_spec (data : Bytes) : (nonZero data).2 = data.filter (· ≠ 0) ∧
    ∀ i, bit (nonZero data).1 i = decide (data.getD i 0 ≠ 0) := by
  obtain ⟨hbytes, hbits⟩ := foldl_collect data 0 (List.replicate ((data.length + 7) / 8) 0, [])
    (by rw [List.length_replicate]; omega)
  refine ⟨hbytes, fun i => (hbits i).trans ?_⟩
  have hzero : bit (List.replicate ((data.length + 7) / 8) 0) i = false := by
    rw [bit, getD_replicate]
    exact Nat.zero_testBit _
  rw [hzero]
  simp

/-! ## Filling -/

theorem index_eq_ok {l : Bytes} {i : ℕ} {b : UInt8} : index l i = .ok b ↔ l[i]? = some b := by
  rw [index]
  cases l[i]? <;> simp

/-- The step of the loop, by the bit it reads. -/
theorem fillBit_eq {data bs : Bytes} {i : ℕ} (hi : i < 8 * bs.length) (st : Bytes × ℕ) :
    fillBit data bs st i = if bit bs i = false then .ok st
      else match data[st.2]? with
        | none => .error .missingData
        | some b => if st.1.length ≤ i then .error .exceededTarget
          else if b = 0 then .error .zeroContent else .ok (st.1.set i b, st.2 + 1) := by
  have hbyte : i / 8 < bs.length := by omega
  rw [fillBit, index_eq_ok.2 (List.getElem?_eq_getElem hbyte), ok_bind, bit,
    List.getD_eq_getElem _ _ hbyte]
  simp only [and_mask]
  refine if_congr Iff.rfl rfl ?_
  rcases hget : data[st.2]? with _ | b
  · exact if_pos (List.getElem?_eq_none_iff.1 hget)
  · rw [if_neg (not_le.2 (List.getElem?_eq_some_iff.1 hget).1), index_eq_ok.2 hget, ok_bind]

/-- The bytes `q` fill the bits from `i` on; the nonzero ones are the data from `ptr` to `ptr'`. -/
@[mk_iff]
structure Fills (data bs : Bytes) (i ptr : ℕ) (q : Bytes) (ptr' : ℕ) : Prop where
  bits : ∀ j, bit bs (i + j) = decide (q.getD j 0 ≠ 0)
  taken : data.drop ptr = q.filter (· ≠ 0) ++ data.drop ptr'
  length : ptr' = ptr + (q.filter (· ≠ 0)).length

section
variable {data bs q : Bytes} {i ptr ptr' n : ℕ} {c : UInt8}

theorem fills_end (hi : 8 * bs.length ≤ i) (hq : q.length = n) :
    Fills data bs i ptr q ptr' ↔ q = List.replicate n 0 ∧ ptr' = ptr := by
  have hzero : ∀ j, bit bs (i + j) = false := fun j => bit_eq_false (by omega)
  constructor
  · intro h
    have hrep : q = List.replicate n 0 := by
      refine List.eq_replicate_iff.2 ⟨hq, fun b hb => ?_⟩
      obtain ⟨j, hj, rfl⟩ := List.mem_iff_getElem.1 hb
      have hbit := h.bits j
      rw [hzero, List.getD_eq_getElem _ _ hj] at hbit
      simpa using hbit
    have hlen := h.length
    rw [hrep] at hlen
    exact ⟨hrep, by simpa using hlen⟩
  · rintro ⟨rfl, rfl⟩
    refine ⟨fun j => ?_, by simp, by simp⟩
    rw [hzero, getD_replicate]
    rfl

theorem drop_eq_cons {l r : Bytes} : l.drop n = c :: r ↔ l[n]? = some c ∧ l.drop (n + 1) = r := by
  rcases Nat.lt_or_ge n l.length with hn | hn
  · rw [List.drop_eq_getElem_cons hn, List.getElem?_eq_getElem hn, List.cons_eq_cons,
      Option.some.injEq]
  · rw [List.drop_eq_nil_of_le hn, List.getElem?_eq_none hn]
    simp

theorem fills_cons : Fills data bs i ptr (c :: q) ptr' ↔
    bit bs i = decide (c ≠ 0) ∧ (c ≠ 0 → data[ptr]? = some c) ∧
      Fills data bs (i + 1) (if c = 0 then ptr else ptr + 1) q ptr' := by
  have hbits : (∀ j, bit bs (i + j) = decide ((c :: q).getD j 0 ≠ 0)) ↔
      bit bs i = decide (c ≠ 0) ∧ ∀ j, bit bs (i + 1 + j) = decide (q.getD j 0 ≠ 0) := by
    constructor
    · intro h
      refine ⟨h 0, fun j => ?_⟩
      rw [Nat.add_assoc, Nat.add_comm 1]
      exact h (j + 1)
    · rintro ⟨hhead, htail⟩ j
      cases j with
      | zero => exact hhead
      | succ j =>
        rw [← Nat.add_assoc, Nat.add_right_comm]
        exact htail j
  rw [fills_iff, fills_iff, hbits]
  by_cases hc : c = 0
  · simp [hc, and_assoc]
  · rw [List.filter_cons_of_pos (by simpa using hc), List.cons_append, drop_eq_cons,
      List.length_cons, if_neg hc, ← Nat.add_assoc, Nat.add_right_comm]
    simp only [hc, ne_eq, not_false_iff, true_imp_iff, and_assoc]
    exact and_congr_right fun _ => and_left_comm

theorem fills_nil : Fills data bs i ptr [] ptr' ↔
    bit bs i = false ∧ Fills data bs (i + 1) ptr [] ptr' := by
  have hbits : (∀ j, bit bs (i + j) = false) ↔
      bit bs i = false ∧ ∀ j, bit bs (i + 1 + j) = false := by
    constructor
    · intro h
      refine ⟨h 0, fun j => ?_⟩
      rw [Nat.add_assoc]
      exact h (1 + j)
    · rintro ⟨hhead, htail⟩ j
      cases j with
      | zero => exact hhead
      | succ j =>
        rw [← Nat.add_assoc, Nat.add_right_comm]
        exact htail j
  simp only [fills_iff, List.getD_nil, ne_eq, not_true, decide_false, hbits, and_assoc]

end

theorem fill_eq_ok_iff {data bs d : Bytes} {ptr' t : ℕ} (n i : ℕ) (hn : i + n = 8 * bs.length)
    (p : Bytes) (hp : p.length = min i t) (ptr : ℕ) :
    (List.range' i n).foldlM (fillBit data bs) (p ++ List.replicate (t - i) 0, ptr) =
      .ok (d, ptr') ↔ ∃ q, d = p ++ q ∧ q.length = t - i ∧ Fills data bs i ptr q ptr' := by
  induction n generalizing i p ptr with
  | zero =>
    constructor
    · intro h
      cases h
      exact ⟨_, rfl, List.length_replicate,
        (fills_end (by omega) List.length_replicate).2 ⟨rfl, rfl⟩⟩
    · rintro ⟨q, rfl, hlen, hq⟩
      obtain ⟨rfl, rfl⟩ := (fills_end (by omega) hlen).1 hq
      rfl
  | succ n ih =>
    rw [List.range'_succ, List.foldlM_cons, fillBit_eq (by omega)]
    rcases Nat.lt_or_ge i t with hit | hit
    · -- the byte at `i` is written, or it stays zero
      have hi : p.length = i := hp.trans (min_eq_left hit.le)
      have hnext : ∀ c ptr, (List.range' (i + 1) n).foldlM (fillBit data bs)
          (p ++ c :: List.replicate (t - (i + 1)) 0, ptr) = .ok (d, ptr') ↔
          ∃ q, d = p ++ c :: q ∧ q.length + 1 = t - i ∧ Fills data bs (i + 1) ptr q ptr' := by
        intro c ptr
        have hlen : (p ++ [c]).length = min (i + 1) t := by
          rw [List.length_append, List.length_singleton]
          omega
        rw [List.append_cons, ih (i + 1) (by omega) _ hlen]
        refine exists_congr fun q => ?_
        rw [← List.append_cons, show q.length + 1 = t - i ↔ q.length = t - (i + 1) by omega]
      have hcons : (∃ q, d = p ++ q ∧ q.length = t - i ∧ Fills data bs i ptr q ptr') ↔
          ∃ c q, d = p ++ c :: q ∧ q.length + 1 = t - i ∧ Fills data bs i ptr (c :: q) ptr' := by
        constructor
        · rintro ⟨q, hd, hlen, hq⟩
          cases q with
          | nil => exact absurd hlen (by simp; omega)
          | cons c q => exact ⟨c, q, hd, hlen, hq⟩
        · rintro ⟨c, q, h⟩
          exact ⟨c :: q, h⟩
      rw [hcons, show t - i = t - (i + 1) + 1 by omega, List.replicate_succ]
      simp only [fills_cons]
      cases hbit : bit bs i with
      | false =>
        rw [if_pos rfl, ok_bind, hnext]
        constructor
        · rintro ⟨q, hd, hlen, hq⟩
          exact ⟨0, q, hd, by omega, rfl, fun h => absurd rfl h, hq⟩
        · rintro ⟨c, q, hd, hlen, hc, -, hq⟩
          obtain rfl : c = 0 := by simpa using hc
          exact ⟨q, hd, by omega, hq⟩
      | true =>
        rw [if_neg Bool.true_eq_false_eq_False]
        rcases hget : data[ptr]? with _ | b
        · refine iff_of_false (fun h => (by cases h)) ?_
          rintro ⟨c, q, -, -, hc, htaken, -⟩
          cases htaken (of_decide_eq_true hc.symm)
        · have hlen : ¬ (p ++ 0 :: List.replicate (t - (i + 1)) 0).length ≤ i := by
            simp
            omega
          have hset : (p ++ 0 :: List.replicate (t - (i + 1)) 0).set i b =
              p ++ b :: List.replicate (t - (i + 1)) 0 := by
            rw [List.set_append, hi, if_neg (lt_irrefl i), Nat.sub_self]
            rfl
          dsimp only
          rw [if_neg hlen, hset]
          constructor
          · intro h
            split_ifs at h with hb
            · cases h
            · rw [ok_bind, hnext] at h
              obtain ⟨q, hd, hlen, hq⟩ := h
              refine ⟨b, q, hd, by omega, (decide_eq_true hb).symm, fun _ => rfl, ?_⟩
              rw [if_neg hb]
              exact hq
          · rintro ⟨c, q, hd, hlen, hc, htaken, hq⟩
            have hc := of_decide_eq_true hc.symm
            obtain rfl : b = c := Option.some.inj (htaken hc)
            rw [if_neg hc] at hq ⊢
            rw [ok_bind, hnext]
            exact ⟨q, hd, by omega, hq⟩
    · -- behind the end, no bit is set
      have hend : t - i = 0 := by omega
      have hnext := ih (i + 1) (by omega) p (by omega) ptr
      rw [show t - (i + 1) = t - i by omega] at hnext
      cases hbit : bit bs i with
      | false =>
        rw [if_pos rfl, ok_bind, hnext]
        refine exists_congr fun q => and_congr_right fun _ => and_congr_right fun hq => ?_
        rw [List.length_eq_zero_iff.1 (hq.trans hend), @fills_nil data bs i, hbit, eq_self,
          true_and]
      | true =>
        rw [if_neg Bool.true_eq_false_eq_False]
        refine iff_of_false ?_ ?_
        · rcases data[ptr]? with _ | b
          · exact fun h => (by cases h)
          · have hlen : (p ++ List.replicate (t - i) 0).length ≤ i := by
              simp
              omega
            dsimp only
            rw [if_pos hlen]
            exact fun h => (by cases h)
        · rintro ⟨q, -, hq, hfills⟩
          rw [List.length_eq_zero_iff.1 (hq.trans hend), fills_nil, hbit] at hfills
          exact Bool.true_eq_false_eq_False hfills.1

/-! ## The decoder inverts the encoder -/

section
variable {data bs d : Bytes} {t size ptr : ℕ}

theorem fill_ok_iff : (List.range (8 * bs.length)).foldlM (fillBit data bs)
    (List.replicate t 0, ptr) = .ok (d, size) ↔ d.length = t ∧ Fills data bs 0 ptr d size := by
  have h := @fill_eq_ok_iff data bs d size t (8 * bs.length) 0 (by omega) [] (by simp) ptr
  rw [List.nil_append, ← List.range_eq_range'] at h
  rw [Nat.sub_zero] at h
  rw [h]
  constructor
  · rintro ⟨q, rfl, hq⟩
    exact hq
  · intro hq
    exact ⟨d, rfl, hq⟩

theorem eq_nonZero (hlen : bs.length = (d.length + 7) / 8)
    (hbits : ∀ j, bit bs j = decide (d.getD j 0 ≠ 0)) : bs = (nonZero d).1 :=
  bits_ext (hlen.trans (length_nonZero d).symm) fun i => (hbits i).trans ((nonZero_spec d).2 i).symm

theorem encode_zero (hd : d.filter (· ≠ 0) = []) : bitsetEncodeBytes d = [] := by
  rcases d with _ | ⟨b, _ | ⟨b', rest⟩⟩
  · rw [bitsetEncodeBytes]
  · rw [bitsetEncodeBytes, if_pos (by simpa using hd)]
  · rw [bitsetEncodeBytes]
    exact if_pos ((nonZero_spec _).1.trans hd)

theorem encode_long (hlen : 2 ≤ d.length) (hd : d.filter (· ≠ 0) ≠ []) :
    bitsetEncodeBytes d = bitsetEncodeBytes (nonZero d).1 ++ d.filter (· ≠ 0) := by
  rcases d with _ | ⟨b, _ | ⟨b', rest⟩⟩
  · exact absurd hlen (by simp)
  · exact absurd hlen (by simp)
  · rw [bitsetEncodeBytes, ← (nonZero_spec _).1]
    exact if_neg (fun h => hd ((nonZero_spec _).1.symm.trans h))

theorem filter_nonZero : (nonZero d).1.filter (· ≠ 0) = [] ↔ d.filter (· ≠ 0) = [] := by
  have hzero : ∀ l : Bytes, l.filter (· ≠ 0) = [] ↔ l = List.replicate l.length 0 := by
    intro l
    simp [List.filter_eq_nil_iff, List.eq_replicate_iff]
  have hbits := (nonZero_spec d).2
  rw [hzero, hzero]
  constructor
  · intro h
    refine List.eq_replicate_iff.2 ⟨rfl, fun b hb => ?_⟩
    obtain ⟨i, hi, rfl⟩ := List.mem_iff_getElem.1 hb
    have hbit := hbits i
    rw [h, bit, getD_replicate, List.getD_eq_getElem _ _ hi] at hbit
    simpa using hbit
  · intro h
    refine bits_ext List.length_replicate.symm fun i => ?_
    rw [hbits, h, getD_replicate, bit, getD_replicate]
    exact (Nat.zero_testBit _).symm

theorem decode_sound (h : bitsetDecodePartialBytes data t = .ok (d, size)) :
    d.length = t ∧ size ≤ data.length ∧ data.take size = bitsetEncodeBytes d := by
  induction t using Nat.strong_induction_on generalizing d size with
  | h t ih =>
    rw [bitsetDecodePartialBytes] at h
    split_ifs at h with ht hdata hone
    · cases h
      exact ⟨ht.symm, Nat.zero_le _, by rw [encode_zero rfl]; rfl⟩
    · cases h
      exact ⟨List.length_replicate, Nat.zero_le _, by rw [encode_zero (by simp)]; rfl⟩
    · obtain ⟨b, hb, h⟩ := bind_eq_ok h
      obtain ⟨rest, rfl⟩ : ∃ rest, data = b :: rest := by
        cases data with
        | nil => cases hb
        | cons c rest =>
          cases hb
          exact ⟨rest, rfl⟩
      cases h
      by_cases hzero : b = 0
      · exact ⟨hone.symm, by simp [hzero], by simp [hzero, bitsetEncodeBytes]⟩
      · exact ⟨hone.symm, by simp [hzero], by simp [hzero, bitsetEncodeBytes]⟩
    · obtain ⟨⟨bs, ptr⟩, hrec, hfill⟩ := bind_eq_ok h
      obtain ⟨hlen, hptr, htake⟩ := ih _ (by omega) hrec
      obtain ⟨rfl, hbits, htaken, hsize⟩ := fill_ok_iff.1 hfill
      simp only [Nat.zero_add] at hbits
      have hbs := eq_nonZero hlen hbits
      have hlengths := congrArg List.length htaken
      rw [List.length_append, List.length_drop, List.length_drop] at hlengths
      refine ⟨rfl, by omega, ?_⟩
      rw [hsize, List.take_add, htake, htaken, List.take_left]
      by_cases hd : d.filter (· ≠ 0) = []
      · rw [encode_zero hd, hd, hbs, encode_zero (filter_nonZero.2 hd)]
        rfl
      · rw [encode_long (by omega) hd, hbs]

theorem decode_complete (hd : d.filter (· ≠ 0) ≠ []) (rest : Bytes) :
    bitsetDecodePartialBytes (bitsetEncodeBytes d ++ rest) d.length =
      .ok (d, (bitsetEncodeBytes d).length) := by
  induction hn : d.length using Nat.strong_induction_on generalizing d rest with
  | h n ih =>
    subst hn
    rcases Nat.lt_or_ge d.length 2 with hlt | hlen
    · obtain ⟨b, rfl⟩ : ∃ b, d = [b] := by
        cases d with
        | nil => exact absurd rfl hd
        | cons b l =>
          obtain rfl := List.length_eq_zero_iff.1 (show l.length = 0 by simpa using hlt)
          exact ⟨b, rfl⟩
      have hb : b ≠ 0 := by simpa using hd
      simp [bitsetDecodePartialBytes, bitsetEncodeBytes, hb, index]
    · have hne : (bitsetEncodeBytes d ++ rest).length ≠ 0 := by
        rw [encode_long hlen hd]
        have := List.length_pos_iff.2 hd
        simp only [List.length_append]
        omega
      have hbs := length_nonZero d
      have hrec := ih (nonZero d).1.length (by omega) (fun h => hd (filter_nonZero.1 h))
        (d.filter (· ≠ 0) ++ rest) rfl
      rw [bitsetDecodePartialBytes, if_neg (by omega), if_neg hne, if_neg (by omega), ← hbs,
        encode_long hlen hd, List.append_assoc, hrec, ok_bind]
      refine fill_ok_iff.2 ⟨rfl, fun j => ?_, ?_, List.length_append⟩
      · rw [Nat.zero_add]
        exact (nonZero_spec d).2 j
      · rw [List.drop_left, ← List.append_assoc, List.drop_left]

end

/-! ## No panics -/

theorem fillBit_ne_panic {data bs : Bytes} {i : ℕ} (hi : i < 8 * bs.length) (st : Bytes × ℕ) :
    fillBit data bs st i ≠ .error .panic := by
  rw [fillBit_eq hi]
  cases bit bs i
  · simp
  · rcases data[st.2]? with _ | b
    · simp
    · simp only [Bool.true_eq_false, if_false]
      split_ifs <;> simp

theorem bind_ne_panic {α β : Type} {x : Except DecompressError α}
    {f : α → Except DecompressError β} (hx : x ≠ .error .panic) (hf : ∀ a, f a ≠ .error .panic) :
    (x >>= f) ≠ .error .panic := by
  cases x with
  | error e =>
    intro h
    cases h
    exact hx rfl
  | ok a => exact hf a

theorem foldlM_ne_panic {α β : Type} {f : β → α → Except DecompressError β} {l : List α}
    (hf : ∀ st, ∀ x ∈ l, f st x ≠ .error .panic) (st : β) : l.foldlM f st ≠ .error .panic := by
  induction l generalizing st with
  | nil => exact fun h => (by cases h)
  | cons x l ih =>
    rw [List.foldlM_cons]
    exact bind_ne_panic (hf st x (.head _)) fun st' => ih (fun st y hy => hf st y (.tail _ hy)) st'

theorem decode_ne_panic (data : Bytes) (t : ℕ) :
    bitsetDecodePartialBytes data t ≠ .error .panic := by
  induction t using Nat.strong_induction_on with
  | h t ih =>
    rw [bitsetDecodePartialBytes]
    split_ifs with ht hdata hone
    · simp
    · simp
    · cases data with
      | nil => exact absurd rfl hdata
      | cons b rest => exact fun h => (by cases h)
    · refine bind_ne_panic (ih _ (by omega)) fun r => ?_
      exact foldlM_ne_panic (fun st i hi => fillBit_ne_panic (List.mem_range.1 hi) st) _

/-! ## Compression -/

theorem bitsetDecodeBytes_eq_ok_iff {c d : Bytes} {target : ℕ} :
    bitsetDecodeBytes c target = .ok d ↔ d.length = target ∧ c = bitsetEncodeBytes d := by
  constructor
  · intro h
    obtain ⟨⟨d', size⟩, hpartial, h⟩ := bind_eq_ok h
    obtain ⟨hlen, hsize, htake⟩ := decode_sound hpartial
    dsimp only at h
    split_ifs at h with hall
    cases h
    rw [not_not.1 hall, List.take_length] at htake
    exact ⟨hlen, htake⟩
  · rintro ⟨rfl, rfl⟩
    rw [bitsetDecodeBytes]
    by_cases hd : d.filter (· ≠ 0) = []
    · have hrep : d = List.replicate d.length 0 :=
        List.eq_replicate_iff.2 ⟨rfl, by simpa [List.filter_eq_nil_iff] using hd⟩
      rw [encode_zero hd, bitsetDecodePartialBytes]
      split_ifs with hzero hnil
      · rw [List.length_eq_zero_iff.1 hzero]
        rfl
      · rw [ok_bind, ← hrep]
        rfl
      all_goals exact absurd rfl hnil
    · have h := decode_complete hd []
      rw [List.append_nil] at h
      rw [h, ok_bind]
      exact if_neg (not_not.2 rfl)

/-- **Compression is lossless and canonical.**  Decompression inverts it, it never makes the bytes
    longer, and from fewer bytes than the target only an encoding is decompressed; everything else
    is an error and no panic. -/
theorem compression_lossless :
    (∀ d, decompressBytes (compressBytes d) d.length = .ok d ∧
      (compressBytes d).length ≤ d.length) ∧
    ∀ c target, c.length < target →
      (∀ d, decompressBytes c target = .ok d ↔ d.length = target ∧ c = bitsetEncodeBytes d) ∧
      decompressBytes c target ≠ .error .panic := by
  constructor
  · intro d
    by_cases hshort : (bitsetEncodeBytes d).length < d.length
    · rw [compressBytes, if_pos hshort, decompressBytes, if_neg (by omega), if_neg hshort.ne]
      exact ⟨bitsetDecodeBytes_eq_ok_iff.2 ⟨rfl, rfl⟩, hshort.le⟩
    · rw [compressBytes, if_neg hshort, decompressBytes, if_neg (lt_irrefl _), if_pos rfl]
      exact ⟨rfl, le_rfl⟩
  · intro c target hlt
    rw [decompressBytes, if_neg (by omega), if_neg hlt.ne]
    refine ⟨fun d => bitsetDecodeBytes_eq_ok_iff, ?_⟩
    refine bind_ne_panic (decode_ne_panic c target) fun r => ?_
    split_ifs
    · simp
    · exact fun h => (by cases h)

/-- The set of the bytes of `data` is itself compressed, and so is its set. -/
theorem compression_lossless_nested :
    decompressBytes [0xC0, 0x80, 0x08, 0x80, 0x10, 5, 6] 100 =
      .ok ([5] ++ List.replicate 98 0 ++ [6]) :=
  ((compression_lossless.2 _ 100 (by decide)).1 _).2 ⟨rfl, by decide +kernel⟩

end GoEthereum.Bitutil
