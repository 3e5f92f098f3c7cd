/-
  The answers of `bigModExp`.

  `RequiredGas` reads the lengths of the operands as full numbers, `Run` cuts them to 64 bits,
  adds them and allocates the operands.  A price below `panicGas` keeps the operands small
  enough to be allocated (`price_bounds`), and then the answer is right; at that price there
  is an exponent for which `make` panics.
-/
import GoEthereum.Vm.Numbers

namespace GoEthereum.Vm

open GoEthereum.Rlp BigEndian Outcome

/-! ## Zero-extended data -/

/-- A range of the data, which has zeros after its end. -/
def zeroExtended (data : Bytes) (start size : ℕ) : Bytes :=
  (List.range size).map fun i => data.getD (start + i) 0

@[simp] theorem length_zeroExtended (data : Bytes) (start size : ℕ) :
    (zeroExtended data start size).length = size := by
  simp [zeroExtended]

theorem zeroExtended_beyond {data : Bytes} {start : ℕ} (size : ℕ) (h : data.length ≤ start) :
    zeroExtended data start size = List.replicate size 0 := by
  refine List.ext_getElem (by simp) fun i hi _ => ?_
  simp [zeroExtended, List.getElem?_eq_none (h.trans (Nat.le_add_right start i))]

theorem zeroExtended_append {a b c : Bytes} {start size : ℕ} (ha : a.length = start)
    (hb : b.length = size) : zeroExtended (a ++ b ++ c) start size = b := by
  subst ha hb
  refine List.ext_getElem (by simp) fun i hi hi' => ?_
  have hget : (a ++ b ++ c)[a.length + i]? = b[i]? := by
    rw [List.append_assoc, List.getElem?_append_right (Nat.le_add_right _ _),
      Nat.add_sub_cancel_left, List.getElem?_append_left hi']
  simp only [zeroExtended, List.getElem_map, List.getElem_range, List.getD_eq_getElem?_getD, hget,
    List.getElem?_eq_getElem hi', Option.getD_some]

section
variable {maxAlloc : ℕ}

theorem rightPad_extract (data : Bytes) {start size : ℕ} (hsize : size ≤ maxAlloc) :
    rightPadBytes maxAlloc (data.extract start (min (start + size) data.length)) size =
      .ok (zeroExtended data start size) := by
  have hlength : (data.extract start (min (start + size) data.length)).length =
      min (start + size) data.length - start := by
    rw [List.extract_eq_take_drop, List.length_take, List.length_drop]
    omega
  have hpad : data.extract start (min (start + size) data.length) ++
      List.replicate (size - (min (start + size) data.length - start)) 0 =
      zeroExtended data start size := by
    refine List.ext_getElem ?_ fun i hi hi' => ?_
    · rw [List.length_append, hlength, List.length_replicate, length_zeroExtended]
      omega
    · simp only [zeroExtended, List.getElem_map, List.getElem_range, List.getElem_append, hlength]
      split_ifs with h
      · simp [List.getElem?_eq_getElem (show start + i < data.length by omega)]
      · rw [length_zeroExtended] at hi'
        rw [List.getElem_replicate, List.getD_eq_default]
        omega
  rw [← hpad, rightPadBytes, hlength]
  split_ifs with hle
  · rw [show size - (min (start + size) data.length - start) = 0 by omega]
    simp
  · rw [makeBytes, if_neg (by omega), ok_bind, Int.toNat_natCast, List.drop_replicate]
    rfl

theorem start_le (data : Bytes) (start : UInt64) :
    (if start.toNat > data.length then uint64 data.length else start).toNat ≤ data.length := by
  split_ifs with h
  · exact uint64_le _
  · exact not_lt.1 h

theorem getData_eq {data : Bytes} {start size : UInt64} (hmax : maxAlloc < 2 ^ 63)
    (hlen : data.length ≤ maxAlloc) (hsize : size.toNat ≤ maxAlloc) :
    getData maxAlloc data start size = .ok (zeroExtended data start.toNat size.toNat) := by
  have hlength : (uint64 data.length).toNat = data.length := uint64_toNat (by omega)
  have hstart := start_le data start
  have hzero : zeroExtended data
      (if start.toNat > data.length then uint64 data.length else start).toNat size.toNat =
      zeroExtended data start.toNat size.toNat := by
    split_ifs with h
    · rw [hlength, zeroExtended_beyond _ le_rfl, zeroExtended_beyond _ h.le]
    · rfl
  rw [getData, int64_of_lt (by omega), ← hzero, ← rightPad_extract data hsize]
  generalize (if start.toNat > data.length then uint64 data.length else start) = from_ at hstart
  have hadd : (from_ + size).toNat = from_.toNat + size.toNat := by
    rw [UInt64.toNat_add, Nat.mod_eq_of_lt (by omega)]
  have hstop : (if (from_ + size).toNat > data.length then uint64 data.length
      else from_ + size).toNat = min (from_.toNat + size.toNat) data.length := by
    split_ifs with h
    · rw [hlength, min_eq_right (by omega)]
    · rw [hadd, min_eq_left (by omega)]
  rw [if_neg, hstop]
  rw [UInt64.lt_iff_toNat_lt, hstop]
  omega

/-- A range of no data that is too large to be allocated. -/
theorem getData_makeslice (start : UInt64) {size : UInt64} (hsize : maxAlloc < size.toNat)
    (hlt : size.toNat < 2 ^ 63) : getData maxAlloc [] start size = .error .makeslice := by
  have hstart : (if start.toNat > ([] : Bytes).length then uint64 ([] : Bytes).length else start)
      = 0 := by
    split_ifs with h
    · rfl
    · exact UInt64.toNat_inj.1 (Nat.le_zero.1 (not_lt.1 h))
  have hstop : (if (0 + size).toNat > ([] : Bytes).length then uint64 ([] : Bytes).length
      else 0 + size) = 0 := by
    rw [if_pos (by rw [UInt64.zero_add]; exact Nat.zero_lt_of_lt hsize)]
    rfl
  rw [getData, hstart, hstop, if_neg (by decide), int64_of_lt hlt]
  rw [rightPadBytes, if_neg (by simp; omega), makeBytes, if_pos (by omega)]
  rfl

end

/-! ## The answer -/

namespace ModExp

/-- The power of the numbers that stand in the data with the given lengths. -/
def power (data : Bytes) (baseLen expLen modLen : ℕ) : ℕ :=
  let base := ofBE (zeroExtended data 0 baseLen)
  let exp := ofBE (zeroExtended data baseLen expLen)
  let mod := ofBE (zeroExtended data (baseLen + expLen) modLen)
  if mod = 0 then 0 else base ^ exp % mod

def baseLen (input : Bytes) : ℕ := ofBE (zeroExtended input 0 32)
def expLen (input : Bytes) : ℕ := ofBE (zeroExtended input 32 32)
def modLen (input : Bytes) : ℕ := ofBE (zeroExtended input 64 32)

/-- The power, with the length of the modulus. -/
def result (input : Bytes) : Bytes :=
  toBE (modLen input) (power (input.drop 96) (baseLen input) (expLen input) (modLen input))

end ModExp

/-- The least price of an operand that cannot be allocated: an exponent of `maxAlloc + 1`
    bytes, with a base of one byte. -/
def panicGas (maxAlloc : ℕ) : ℕ := 8 * (maxAlloc + 1 - 32) / 20

open BigModExp ModExp

theorem multComplexity_pos {x : ℕ} (h : 1 ≤ x) : 1 ≤ multComplexity x := by
  have hsq : x ≤ x * x := Nat.le_mul_self x
  rw [multComplexity]
  split_ifs <;> omega

theorem power_lt (data : Bytes) (baseLen expLen modLen : ℕ) :
    power data baseLen expLen modLen < 256 ^ modLen := by
  rw [power]
  split_ifs with h
  · positivity
  · have hmod := ofBE_lt (zeroExtended data (baseLen + expLen) modLen)
    rw [length_zeroExtended] at hmod
    exact (Nat.mod_lt _ (Nat.pos_of_ne_zero h)).trans hmod

section
variable {maxAlloc : ℕ}

theorem lt_of_capped {gas : ℕ} (hmax : maxAlloc < 2 ^ 63)
    (h : (capped gas).toNat < panicGas maxAlloc) : gas < panicGas maxAlloc := by
  have hlt : panicGas maxAlloc < 2 ^ 64 - 1 := by
    rw [panicGas]
    omega
  rw [capped] at h
  split_ifs at h with hbig
  · exact absurd (h.trans hlt) (by decide)
  · rwa [uint64_toNat (not_le.1 hbig)] at h

theorem price_bounds {baseLen expLen modLen msb : ℕ} (hmin : 1024 ≤ maxAlloc)
    (hne : 1 ≤ max modLen baseLen) (h : price baseLen expLen modLen msb < panicGas maxAlloc) :
    max modLen baseLen ≤ maxAlloc ∧ expLen ≤ maxAlloc := by
  rw [price, modExpQuadCoeffDiv, Nat.div_lt_iff_lt_mul (by decide)] at h
  set adjExpLen := (if expLen > 32 then 8 * (expLen - 32) else 0) + msb with hadj
  have hexp : 8 * (expLen - 32) ≤ max adjExpLen 1 := by
    rw [hadj]
    split_ifs <;> omega
  have hpanic : panicGas maxAlloc * 20 ≤ 8 * (maxAlloc + 1 - 32) := Nat.div_mul_le_self _ _
  have hbound (n m : ℕ) (hn : n ≤ multComplexity (max modLen baseLen)) (hm : m ≤ max adjExpLen 1) :
      n * m < 8 * (maxAlloc + 1 - 32) := (Nat.mul_le_mul hn hm).trans_lt (h.trans_le hpanic)
  refine ⟨?_, ?_⟩
  · by_contra hgt
    have hsq : 1024 * max modLen baseLen ≤ max modLen baseLen * max modLen baseLen :=
      Nat.mul_le_mul_right _ (by omega)
    have hlarge : 8 * maxAlloc ≤ multComplexity (max modLen baseLen) := by
      rw [multComplexity, if_neg (by omega), if_neg (by omega)]
      omega
    have hone := hbound _ 1 hlarge (le_max_right _ _)
    omega
  · have hone := hbound 1 _ (multComplexity_pos hne) hexp
    omega

theorem leftPadBytes_natBytes {n k : ℕ} (h : n < 256 ^ k) (hk : k ≤ maxAlloc) :
    leftPadBytes maxAlloc (natBytes n) k = .ok (toBE k n) := by
  rw [← leftPad_natBytes h, leftPad, leftPadBytes]
  split_ifs with hle
  · rw [show k - (natBytes n).length = 0 by omega]
    rfl
  · rw [makeBytes, if_neg (by omega), ok_bind, Int.toNat_natCast, List.take_replicate,
      Nat.min_eq_left (Nat.sub_le _ _)]
    rfl

section
variable {input b e m : Bytes} (hmin : 1024 ≤ maxAlloc) (hmax : maxAlloc < 2 ^ 63)
  (hlen : input.length ≤ maxAlloc)
include hmin hmax hlen

/-- What the price and the answer are read from. -/
theorem words_eq (start : UInt64) :
    getData maxAlloc input start 32 = .ok (zeroExtended input start.toNat 32) :=
  getData_eq hmax hlen (show 32 ≤ maxAlloc by omega)

variable (hb : getData maxAlloc input 0 32 = .ok b) (he : getData maxAlloc input 32 32 = .ok e)
  (hm : getData maxAlloc input 64 32 = .ok m)
include hb he hm

theorem requiredGas_spec : ∃ head, expHead maxAlloc (input.drop 96) (ofBE b) (ofBE e) = .ok head ∧
      requiredGas maxAlloc input =
        .ok (capped (price (ofBE b) (ofBE e) (ofBE m) ((ofBE head).size - 1))) := by
  have hdrop : (input.drop 96).length ≤ maxAlloc := by
    rw [List.length_drop]
    omega
  obtain ⟨head, hhead⟩ : ∃ head,
      expHead maxAlloc (input.drop 96) (ofBE b) (ofBE e) = .ok head := by
    rw [expHead]
    split_ifs with hshort hexp
    · exact ⟨_, rfl⟩
    · exact ⟨_, words_eq hmin hmax hdrop _⟩
    · exact ⟨_, getData_eq hmax hdrop ((uint64_le _).trans (by omega))⟩
  refine ⟨head, hhead, ?_⟩
  rw [requiredGas, hb, he, hm]
  simp only [Except.bind, bind, hhead]
  rfl

theorem run_eq {msb : ℕ} (hprice : price (ofBE b) (ofBE e) (ofBE m) msb < panicGas maxAlloc) :
    BigModExp.run maxAlloc input =
      .ok { ret := toBE (ofBE m) (power (input.drop 96) (ofBE b) (ofBE e) (ofBE m)) } := by
  have hdrop : (input.drop 96).length ≤ maxAlloc := by
    rw [List.length_drop]
    omega
  simp only [BigModExp.run, hb, he, hm, ok_bind]
  generalize input.drop 96 = data at hdrop
  generalize ofBE b = baseLen at hprice
  generalize ofBE e = expLen at hprice
  generalize ofBE m = modLen at hprice
  rcases Nat.eq_zero_or_pos (max modLen baseLen) with hzero | hne
  · obtain ⟨rfl, rfl⟩ : modLen = 0 ∧ baseLen = 0 := by omega
    rw [if_pos (by decide), toBE]
    rfl
  obtain ⟨hsize, hexp⟩ := price_bounds hmin hne hprice
  have hb : (uint64 baseLen).toNat = baseLen := uint64_toNat (by omega)
  have he : (uint64 expLen).toNat = expLen := uint64_toNat (by omega)
  have hm : (uint64 modLen).toNat = modLen := uint64_toNat (by omega)
  have hadd : (uint64 baseLen + uint64 expLen).toNat = baseLen + expLen := by
    rw [UInt64.toNat_add, hb, he, Nat.mod_eq_of_lt (by omega)]
  have hcond : ¬ (uint64 baseLen == 0 && uint64 modLen == 0) = true := by
    intro h
    rw [Bool.and_eq_true, beq_iff_eq, beq_iff_eq] at h
    rw [h.1] at hb
    rw [h.2] at hm
    have : (0 : UInt64).toNat = 0 := rfl
    omega
  have hbaseData : getData maxAlloc data 0 (uint64 baseLen) = .ok (zeroExtended data 0 baseLen) := by
    rw [getData_eq hmax hdrop (by omega), hb]
    rfl
  have hexpData : getData maxAlloc data (uint64 baseLen) (uint64 expLen) =
      .ok (zeroExtended data baseLen expLen) := by
    rw [getData_eq hmax hdrop (by omega), hb, he]
  have hmodData : getData maxAlloc data (uint64 baseLen + uint64 expLen) (uint64 modLen) =
      .ok (zeroExtended data (baseLen + expLen) modLen) := by
    rw [getData_eq hmax hdrop (by omega), hadd, hm]
  have hpower := power_lt data baseLen expLen modLen
  rw [power] at hpower ⊢
  rw [if_neg hcond, hbaseData, hexpData, hmodData, hm, int64_of_lt (by omega)]
  simp only [ok_bind]
  split_ifs at hpower ⊢ with hzero
  · have hnil : leftPadBytes maxAlloc [] modLen = .ok (toBE modLen 0) :=
      leftPadBytes_natBytes hpower (by omega)
    rw [hnil]
    rfl
  · rw [leftPadBytes_natBytes hpower (by omega)]
    rfl

end

end

/-! ## The bound -/

/-- A base of one byte, and an exponent of as many bytes as a length of 64 bits can say. -/
def wrappingInput : Bytes := toBE 32 1 ++ toBE 32 (2 ^ 64 - 1) ++ toBE 32 0 ++ [0]

/-- The range of the exponent wraps, before anything is allocated. -/
theorem modExp_wraps : ∃ price, (bigModExp (2 ^ 48)).requiredGas wrappingInput = .ok price ∧
    price.toNat = 7378697629483820633 ∧
    (bigModExp (2 ^ 48)).run wrappingInput = .error .bounds :=
  ⟨_, rfl, by decide, rfl⟩

/-- A base of one byte, and an exponent that cannot be allocated. -/
def largeInput (maxAlloc : ℕ) : Bytes := toBE 32 1 ++ toBE 32 (maxAlloc + 1) ++ toBE 32 0

theorem largeInput_panics {maxAlloc : ℕ} (hmin : 1024 ≤ maxAlloc) (hmax : maxAlloc + 1 < 2 ^ 63) :
    ∃ price, (bigModExp maxAlloc).requiredGas (largeInput maxAlloc) = .ok price ∧
      price.toNat = panicGas maxAlloc ∧
      (bigModExp maxAlloc).run (largeInput maxAlloc) = .error .makeslice := by
  have hlen : (largeInput maxAlloc).length ≤ maxAlloc := by
    simp only [largeInput, List.length_append, length_toBE]
    omega
  have hdrop : (largeInput maxAlloc).drop 96 = [] := by
    simp [largeInput]
  have hword := words_eq hmin (by omega) hlen
  have hb : getData maxAlloc (largeInput maxAlloc) 0 32 = .ok (toBE 32 1) := by
    rw [hword]
    refine congrArg _ ?_
    rw [largeInput, List.append_assoc, ← List.nil_append (toBE 32 1)]
    exact zeroExtended_append rfl (by simp)
  have he : getData maxAlloc (largeInput maxAlloc) 32 32 = .ok (toBE 32 (maxAlloc + 1)) := by
    rw [hword]
    exact congrArg _ (zeroExtended_append (by simp) (by simp))
  have hm : getData maxAlloc (largeInput maxAlloc) 64 32 = .ok (toBE 32 0) := by
    rw [hword, ← List.append_nil (largeInput maxAlloc)]
    exact congrArg _ (zeroExtended_append (by simp) (by simp))
  have hone : ofBE (toBE 32 1) = 1 := ofBE_toBE_of_lt (by norm_num)
  have hexp : ofBE (toBE 32 (maxAlloc + 1)) = maxAlloc + 1 := ofBE_toBE_of_lt (by omega)
  have hzero : ofBE (toBE 32 0) = 0 := ofBE_toBE_of_lt (by norm_num)
  obtain ⟨head, hhead, hgas⟩ := requiredGas_spec hmin (by omega) hlen hb he hm
  rw [hdrop, expHead, hone, if_pos (by simp)] at hhead
  cases hhead
  rw [hone, hexp, hzero] at hgas
  refine ⟨_, hgas, ?_, ?_⟩
  · have hprice : price 1 (maxAlloc + 1) 0 ((ofBE []).size - 1) = panicGas maxAlloc := by
      rw [price, if_pos (by omega), panicGas]
      change 1 * max (8 * (maxAlloc + 1 - 32) + 0) 1 / 20 = _
      rw [Nat.one_mul, Nat.add_zero, max_eq_left (by omega)]
    have hlt : panicGas maxAlloc < 2 ^ 64 := by
      rw [panicGas]
      omega
    rw [hprice, capped, if_neg (not_le.2 hlt), uint64_toNat hlt]
  · have hsize : (uint64 (maxAlloc + 1)).toNat = maxAlloc + 1 := uint64_toNat (by omega)
    have hbase : getData maxAlloc [] 0 (uint64 1) = .ok [0] :=
      getData_eq (by omega) (Nat.zero_le _) (show 1 ≤ maxAlloc by omega)
    change BigModExp.run maxAlloc _ = _
    simp only [BigModExp.run, hb, he, hm, ok_bind, hdrop, hone, hexp, hzero, hbase,
      getData_makeslice (uint64 1) (show maxAlloc < (uint64 (maxAlloc + 1)).toNat by omega)
        (by omega)]
    rfl

/-- **Modular exponentiation.**  With less gas than the price of an operand that cannot be
    allocated, every input that can be paid is answered with the power. -/
theorem modExp_correct (c : Contract) {maxAlloc : ℕ} (hmin : 1024 ≤ maxAlloc)
    (hmax : maxAlloc + 1 < 2 ^ 63) :
    (∀ input : Bytes, input.length ≤ maxAlloc → ∃ price,
      (bigModExp maxAlloc).requiredGas input = .ok price ∧ ∀ c', c.useGas price = some c' →
        (bigModExp maxAlloc).run input = .ok { ret := ModExp.result input }) ↔
      c.gas.toNat < panicGas maxAlloc := by
  constructor
  · intro h
    by_contra hge
    obtain ⟨price, hprice, hgas, hpanic⟩ := largeInput_panics hmin hmax
    obtain ⟨price', hprice', hrun⟩ := h (largeInput maxAlloc) (by
      simp only [largeInput, List.length_append, length_toBE]
      omega)
    cases hprice.symm.trans hprice'
    rw [Contract.useGas, if_neg] at hrun
    · cases hpanic.symm.trans (hrun _ rfl)
    · rw [UInt64.lt_iff_toNat_lt, hgas]
      exact hge
  · intro hgas input hlen
    have hmax : maxAlloc < 2 ^ 63 := by omega
    have hword := words_eq hmin hmax hlen
    obtain ⟨head, -, hprice⟩ := requiredGas_spec hmin hmax hlen (hword 0) (hword 32) (hword 64)
    refine ⟨_, hprice, fun c' huse => ?_⟩
    have hpaid := (useGas_eq_some huse).2
    have hlow := lt_of_capped hmax ((Nat.le_add_left _ _).trans_lt (hpaid.trans_lt hgas))
    exact run_eq hmin hmax hlen (hword 0) (hword 32) (hword 64) hlow

/-- A base, an exponent and a modulus of one byte each. -/
def powerInput (base exp mod : UInt8) : Bytes :=
  toBE 32 1 ++ toBE 32 1 ++ toBE 32 1 ++ [base, exp, mod]

/-- Ten to the power of three modulo seven, where up to `2 ^ 48` bytes can be allocated. -/
theorem modExp_correct_ten : ∃ price c',
    (bigModExp (2 ^ 48)).requiredGas (powerInput 10 3 7) = .ok price ∧
      (⟨1, 2, [], none, [], 1000, 0⟩ : Contract).useGas price = some c' ∧
      (bigModExp (2 ^ 48)).run (powerInput 10 3 7) = .ok { ret := [6] } := by
  obtain ⟨price, hprice, hrun⟩ := (modExp_correct ⟨1, 2, [], none, [], 1000, 0⟩
    (show 1024 ≤ 2 ^ 48 by norm_num) (by norm_num)).2 (by decide) (powerInput 10 3 7)
    (show 99 ≤ 2 ^ 48 by norm_num)
  have hsix : ModExp.result (powerInput 10 3 7) = [6] := by decide
  cases hprice
  exact ⟨_, _, rfl, rfl, hsix ▸ hrun _ rfl⟩

end GoEthereum.Vm
