/-
  The arithmetic of words.

  `WordOp.value` says what an arithmetic instruction means on words of 256 bits in two's
  complement.  The instructions work with signed numbers of any size; `word_arithmetic` says that
  what they leave on the stack is that value.
-/
import GoEthereum.Vm.Instructions

namespace GoEthereum.Vm

open GoEthereum.State

/-! ## The instructions and what they mean -/

/-- The arithmetic instructions with two operands. -/
inductive WordOp where
  | add | sub | mul | div | sdiv | mod | smod | exp | signExtend
  | lt | gt | slt | sgt | byte | shl | shr | sar

namespace WordOp

/-- The instruction. -/
def exec : WordOp → ExecutionFunc
  | add => opAdd
  | sub => opSub
  | mul => opMul
  | div => opDiv
  | sdiv => opSdiv
  | mod => opMod
  | smod => opSmod
  | exp => opExp
  | signExtend => opSignExtend
  | lt => opLt
  | gt => opGt
  | slt => opSlt
  | sgt => opSgt
  | byte => opByte
  | shl => opSHL
  | shr => opSHR
  | sar => opSAR

/-- What the instruction means; the first operand is the top of the stack. -/
def value : WordOp → Word → Word → Word
  | add, x, y => x + y
  | sub, x, y => x - y
  | mul, x, y => x * y
  | div, x, y => x / y
  | sdiv, x, y => x.sdiv y
  | mod, x, y => if y = 0 then 0 else x % y
  | smod, x, y => if y = 0 then 0 else x.srem y
  | exp, x, y => .ofNat 256 (x.toNat ^ y.toNat)
  | signExtend, x, y =>
    if x.toNat < 31 then (y.setWidth (8 * (x.toNat + 1))).signExtend 256 else y
  | lt, x, y => if x.ult y then 1 else 0
  | gt, x, y => if y.ult x then 1 else 0
  | slt, x, y => if x.slt y then 1 else 0
  | sgt, x, y => if y.slt x then 1 else 0
  | byte, x, y =>
    if x.toNat < 32 then (y >>> (8 * (31 - x.toNat))).setWidth 8 |>.setWidth 256 else 0
  | shl, x, y => y <<< x.toNat
  | shr, x, y => y >>> x.toNat
  | sar, x, y => y.sshiftRight x.toNat

end WordOp

/-! ## Numbers and words -/

section
variable (x y : Word)

theorem u256_eq (z : ℤ) : u256 z = (BitVec.ofInt 256 z).toNat := by
  rw [u256, BitVec.toNat_ofInt]
  rfl

theorem u256_natCast (n : ℕ) : u256 n = n % 2 ^ 256 := by
  unfold u256
  omega

theorem u256_of_lt {n : ℕ} (h : n < 2 ^ 256) : u256 n = n := by
  rw [u256_natCast, Nat.mod_eq_of_lt h]

theorem u256_toNat : u256 x.toNat = x.toNat := u256_of_lt x.isLt

theorem u256_toInt : u256 x.toInt = x.toNat := by
  rw [u256_eq, BitVec.ofInt_toInt]

theorem s256_toNat : s256 x.toNat = x.toInt := by
  rw [s256, BitVec.toInt_eq_toNat_cond]
  split_ifs
  · rfl
  · omega
  · omega
  · rfl

theorem toNat_flag (p : Bool) : flag p = (if p then 1 else 0 : Word).toNat := by
  cases p with
  | false => rfl
  | true => rfl

/-! ## Signed division -/

theorem tdiv_eq {a b : ℤ} (ha : a ≠ 0) (hb : b ≠ 0) : a.tdiv b =
    if a.sign ≠ b.sign then -((a.natAbs / b.natAbs : ℕ) : ℤ) else (a.natAbs / b.natAbs : ℕ) := by
  obtain ⟨n, rfl | rfl⟩ := a.eq_nat_or_neg <;> obtain ⟨m, rfl | rfl⟩ := b.eq_nat_or_neg
  all_goals
    have hn : n ≠ 0 := by simpa using ha
    have hm : m ≠ 0 := by simpa using hb
    simp [Int.sign_natCast_of_ne_zero hn, Int.sign_natCast_of_ne_zero hm, Int.neg_tdiv,
      Int.tdiv_neg]

theorem tmod_eq (a b : ℤ) : a.tmod b =
    if a < 0 then -((a.natAbs % b.natAbs : ℕ) : ℤ) else (a.natAbs % b.natAbs : ℕ) := by
  rcases lt_or_ge a 0 with ha | ha
  · have hneg := Int.tmod_nonneg b (show 0 ≤ -a by omega)
    rw [Int.neg_tmod] at hneg
    rw [if_pos ha, ← Int.natAbs_tmod, Int.ofNat_natAbs_of_nonpos (by omega), neg_neg]
  · rw [if_neg ha.not_gt, ← Int.natAbs_tmod, Int.natAbs_of_nonneg (Int.tmod_nonneg _ ha)]

theorem toNat_sdiv : (if y.toInt = 0 ∨ x.toInt = 0 then 0 else
    u256 (if x.toInt.sign ≠ y.toInt.sign then -((x.toInt.natAbs / y.toInt.natAbs : ℕ) : ℤ)
      else (x.toInt.natAbs / y.toInt.natAbs : ℕ))) = (x.sdiv y).toNat := by
  have hval : BitVec.ofInt 256 (x.toInt.tdiv y.toInt) = x.sdiv y := by
    apply BitVec.eq_of_toInt_eq
    rw [BitVec.toInt_ofInt, BitVec.toInt_sdiv]
  by_cases hzero : y.toInt = 0 ∨ x.toInt = 0
  · rw [if_pos hzero, ← hval]
    rcases hzero with h | h
    · rw [h, Int.tdiv_zero]
      rfl
    · rw [h, Int.zero_tdiv]
      rfl
  · obtain ⟨hy, hx⟩ := not_or.1 hzero
    rw [if_neg hzero, ← tdiv_eq hx hy, u256_eq, hval]

theorem toNat_srem :
    u256 (if x.toInt < 0 then -((x.toInt.natAbs % y.toInt.natAbs : ℕ) : ℤ)
      else (x.toInt.natAbs % y.toInt.natAbs : ℕ)) = (x.srem y).toNat := by
  rw [← tmod_eq, ← BitVec.toInt_srem, u256_toInt]

/-! ## Powers -/

theorem expLoop_eq {n r b w : ℕ} (hr : r < 2 ^ 256) (hw : w < 2 ^ n) :
    expLoop n r b w = r * b ^ w % 2 ^ 256 := by
  induction n generalizing r b w with
  | zero =>
    obtain rfl : w = 0 := by omega
    rw [expLoop, pow_zero, mul_one, Nat.mod_eq_of_lt hr]
  | succ n ih =>
    have hhalf : w / 2 < 2 ^ n := by omega
    have hbase : (b * b % 2 ^ 256) ^ (w / 2) % 2 ^ 256 = b ^ (2 * (w / 2)) % 2 ^ 256 := by
      rw [← Nat.pow_mod, pow_mul, sq]
    simp only [expLoop]
    rw [← Nat.cast_mul, u256_natCast, ← Nat.cast_mul, u256_natCast]
    split_ifs with hodd
    · rw [ih (Nat.mod_lt _ (by norm_num)) hhalf, Nat.mul_mod, hbase, ← Nat.mul_mod, Nat.mod_mul_mod,
        Nat.mul_assoc, ← pow_succ', show 2 * (w / 2) + 1 = w by omega]
    · rw [ih hr hhalf, Nat.mul_mod, hbase, ← Nat.mul_mod, show 2 * (w / 2) = w by omega]

theorem mathExp_eq (b e : ℕ) : mathExp b e = b ^ e % 2 ^ 256 := by
  have hsize : e < 2 ^ (64 * ((e.size + 63) / 64)) :=
    (Nat.lt_size_self e).trans_le (Nat.pow_le_pow_right (by norm_num) (by omega))
  rw [mathExp, expLoop_eq (by norm_num) hsize, one_mul]

/-! ## Sign extension -/

theorem ldiff_mask (b n : ℕ) : Nat.ldiff (2 ^ b - 1) n = 2 ^ b - (n % 2 ^ b + 1) := by
  apply Nat.eq_of_testBit_eq
  intro i
  rw [Nat.testBit_ldiff, Nat.testBit_two_pow_sub_one,
    Nat.testBit_two_pow_sub_succ (Nat.mod_lt n (by positivity)), Nat.testBit_mod_two_pow]
  by_cases hi : i < b
  · simp [hi]
  · simp [hi]

theorem lor_lnot_mask (b n : ℕ) : Int.lor n (Int.lnot (2 ^ b - 1)) = n % 2 ^ b - 2 ^ b := by
  have hmask : (2 ^ b - 1 : ℤ) = ((2 ^ b - 1 : ℕ) : ℤ) := by
    rw [Nat.cast_sub Nat.one_le_two_pow]
    norm_num
  have hlor : Int.lor n (Int.lnot ((2 ^ b - 1 : ℕ) : ℤ)) =
      -((Nat.ldiff (2 ^ b - 1) n + 1 : ℕ) : ℤ) := rfl
  have := Nat.mod_lt n (show 0 < 2 ^ b by positivity)
  rw [hmask, hlor, ldiff_mask]
  push_cast [Nat.cast_sub (show n % 2 ^ b + 1 ≤ 2 ^ b by omega)]
  ring

theorem land_mask (b n : ℕ) : Int.land n (2 ^ b - 1) = (n % 2 ^ b : ℕ) := by
  have hmask : (2 ^ b - 1 : ℤ) = ((2 ^ b - 1 : ℕ) : ℤ) := by
    rw [Nat.cast_sub Nat.one_le_two_pow]
    norm_num
  rw [hmask, ← Nat.and_two_pow_sub_one_eq_mod]
  rfl

theorem toInt_setWidth_succ (b : ℕ) : (x.setWidth (b + 1)).toInt =
    if x.toNat.testBit b then (x.toNat : ℤ) % 2 ^ b - 2 ^ b else (x.toNat % 2 ^ b : ℕ) := by
  have hmod : x.toNat % 2 ^ (b + 1) = x.toNat % 2 ^ b + 2 ^ b * (x.toNat / 2 ^ b % 2) :=
    Nat.mod_pow_succ
  have hlt := Nat.mod_lt x.toNat (show 0 < 2 ^ b by positivity)
  rw [BitVec.toInt_eq_toNat_cond, BitVec.toNat_setWidth, hmod, Nat.testBit_eq_decide_div_mod_eq]
  rcases Nat.mod_two_eq_zero_or_one (x.toNat / 2 ^ b) with h | h
  · rw [h, if_pos (by rw [pow_succ]; omega)]
    simp
  · rw [h, if_neg (by rw [pow_succ]; omega)]
    simp
    ring

end

/-! ## The instructions -/

/-- On words, the instruction leaves the value on the stack, and nothing else changes. -/
def Computes (exec : ExecutionFunc) (value : Word → Word → Word) : Prop :=
  ∀ (env : Env) (interpreter : Interpreter) (f : Frame) (evm : EVM) (rest : List ℕ) (x y : Word),
    exec env interpreter { f with stack := x.toNat :: y.toNat :: rest } evm =
      .ok { frame := { f with stack := (value x y).toNat :: rest }, evm }

/-- The same for three operands. -/
def Computes₃ (exec : ExecutionFunc) (value : Word → Word → Word → Word) : Prop :=
  ∀ (env : Env) (interpreter : Interpreter) (f : Frame) (evm : EVM) (rest : List ℕ) (x y z : Word),
    exec env interpreter { f with stack := x.toNat :: y.toNat :: z.toNat :: rest } evm =
      .ok { frame := { f with stack := (value x y z).toNat :: rest }, evm }

theorem binary_computes {fn : ℕ → ℕ → ℕ} {value : Word → Word → Word}
    (h : ∀ x y : Word, fn x.toNat y.toNat = (value x y).toNat) : Computes (binary fn) value := by
  intro env interpreter f evm rest x y
  rw [← h]
  rfl

theorem ternary_computes {fn : ℕ → ℕ → ℕ → ℕ} {value : Word → Word → Word → Word}
    (h : ∀ x y z : Word, fn x.toNat y.toNat z.toNat = (value x y z).toNat) :
    Computes₃ (ternary fn) value := by
  intro env interpreter f evm rest x y z
  rw [← h]
  rfl

theorem eq_zero_iff (x : Word) : x = 0 ↔ x.toNat = 0 := by
  rw [← BitVec.toNat_inj]
  rfl

theorem opAdd_computes : Computes opAdd (· + ·) := by
  refine binary_computes fun x y => ?_
  rw [← Nat.cast_add, u256_natCast, BitVec.toNat_add]

theorem opSub_computes : Computes opSub (· - ·) := by
  refine binary_computes fun x y => ?_
  have := x.isLt
  have := y.isLt
  rw [BitVec.toNat_sub, u256]
  omega

theorem opMul_computes : Computes opMul (· * ·) := by
  refine binary_computes fun x y => ?_
  rw [← Nat.cast_mul, u256_natCast, BitVec.toNat_mul]

theorem opDiv_computes : Computes opDiv (· / ·) := by
  refine binary_computes fun x y => ?_
  rw [BitVec.toNat_udiv]
  split_ifs with h
  · exact u256_of_lt ((Nat.div_le_self ..).trans_lt x.isLt)
  · rw [not_not.1 h, Nat.div_zero]

theorem opSdiv_computes : Computes opSdiv BitVec.sdiv := by
  refine binary_computes fun x y => ?_
  simp only [s256_toNat]
  exact toNat_sdiv x y

theorem opMod_computes : Computes opMod fun x y => if y = 0 then 0 else x % y := by
  refine binary_computes fun x y => ?_
  simp only [eq_zero_iff]
  split_ifs
  · rfl
  · rw [BitVec.toNat_umod]
    exact u256_of_lt ((Nat.mod_le ..).trans_lt x.isLt)

theorem opSmod_computes : Computes opSmod fun x y => if y = 0 then 0 else x.srem y := by
  refine binary_computes fun x y => ?_
  have hzero : y.toInt = 0 ↔ y = 0 := by
    rw [← BitVec.toInt_inj]
    rfl
  simp only [s256_toNat, hzero]
  by_cases h : y = 0
  · rw [if_pos h, if_pos h]
    rfl
  · rw [if_neg h, if_neg h]
    exact toNat_srem x y

theorem opExp_computes : Computes opExp fun x y => .ofNat 256 (x.toNat ^ y.toNat) := by
  refine binary_computes fun x y => ?_
  rw [BitVec.toNat_ofNat]
  split_ifs with h₀ hx h₁
  · rw [Nat.lt_one_iff.1 h₀, pow_zero]
    rfl
  · rw [hx, zero_pow (by omega)]
    rfl
  · rw [h₁, pow_one, Nat.mod_eq_of_lt x.isLt]
  · exact mathExp_eq ..

theorem opSignExtend_computes : Computes opSignExtend fun x y =>
    if x.toNat < 31 then (y.setWidth (8 * (x.toNat + 1))).signExtend 256 else y := by
  refine binary_computes fun x y => ?_
  split_ifs
  · rw [BitVec.signExtend, ← u256_eq, show 8 * (x.toNat + 1) = x.toNat * 8 + 7 + 1 by omega,
      toInt_setWidth_succ, ← lor_lnot_mask, ← land_mask]
  · rfl

theorem opLt_computes : Computes opLt fun x y => if x.ult y then 1 else 0 := by
  refine binary_computes fun x y => ?_
  rw [BitVec.ult_eq_decide, ← toNat_flag]

theorem opGt_computes : Computes opGt fun x y => if y.ult x then 1 else 0 := by
  refine binary_computes fun x y => ?_
  rw [BitVec.ult_eq_decide, ← toNat_flag]

theorem slt_eq (x y : Word) : x.slt y =
    if 2 ^ 255 ≤ x.toNat ∧ y.toNat < 2 ^ 255 then true
    else if x.toNat < 2 ^ 255 ∧ 2 ^ 255 ≤ y.toNat then false else decide (x.toNat < y.toNat) := by
  rw [BitVec.slt_eq_decide, BitVec.toInt_eq_toNat_cond, BitVec.toInt_eq_toNat_cond]
  split_ifs <;> simp <;> omega

theorem opSlt_computes : Computes opSlt fun x y => if x.slt y then 1 else 0 := by
  refine binary_computes fun x y => ?_
  rw [← toNat_flag, slt_eq]
  split_ifs
  · rfl
  · rfl
  · rfl

theorem opSgt_computes : Computes opSgt fun x y => if y.slt x then 1 else 0 := by
  refine binary_computes fun x y => ?_
  rw [← toNat_flag, slt_eq]
  split_ifs <;> first | rfl | omega

theorem opByte_computes : Computes opByte fun x y => if x.toNat < 32 then
    ((y >>> (8 * (31 - x.toNat))).setWidth 8).setWidth 256 else 0 := by
  refine binary_computes fun x y => ?_
  have hmod : ∀ m : ℕ, m % 2 ^ 8 % 2 ^ 256 = m % 256 := by omega
  split_ifs with h
  · rw [mathByte, if_neg (by omega), BitVec.toNat_setWidth, BitVec.toNat_setWidth,
      BitVec.toNat_ushiftRight, Nat.shiftRight_eq_div_pow, pow_mul, hmod]
    rfl
  · rfl

theorem opSHL_computes : Computes opSHL fun x y => y <<< x.toNat := by
  refine binary_computes fun x y => ?_
  rw [u256_toNat, u256_toNat, BitVec.toNat_shiftLeft, u256_natCast]
  split_ifs with h
  · rw [Nat.shiftLeft_eq, eq_comm]
    exact Nat.mod_eq_zero_of_dvd (Dvd.dvd.mul_left (pow_dvd_pow 2 h) _)
  · rfl

theorem opSHR_computes : Computes opSHR fun x y => y >>> x.toNat := by
  refine binary_computes fun x y => ?_
  rw [u256_toNat, u256_toNat, BitVec.toNat_ushiftRight, Nat.shiftRight_eq_div_pow]
  split_ifs with h
  · exact (Nat.div_eq_of_lt (y.isLt.trans_le (Nat.pow_le_pow_right (by norm_num) h))).symm
  · exact u256_of_lt ((Nat.div_le_self ..).trans_lt y.isLt)

theorem shiftRight_large (x : Word) {n : ℕ} (h : 256 ≤ n) :
    x.toInt >>> n = if x.toInt ≥ 0 then 0 else -1 := by
  have hlt := x.toInt_lt
  have hle := x.le_toInt
  have hpow : (2 : ℤ) ^ 256 ≤ 2 ^ n := pow_le_pow_right₀ (by norm_num) h
  rw [Int.shiftRight_eq_div_pow]
  push_cast
  split_ifs with hx
  · exact Int.ediv_eq_zero_of_lt hx (by omega)
  · rw [Int.ediv_eq_iff_of_pos (by positivity)]
    omega

theorem opSAR_computes : Computes opSAR fun x y => y.sshiftRight x.toNat := by
  refine binary_computes fun x y => ?_
  rw [u256_toNat, s256_toNat, ← u256_toInt (y.sshiftRight x.toNat), BitVec.toInt_sshiftRight]
  split_ifs with h hy
  · rw [shiftRight_large y h, if_pos hy]
  · rw [shiftRight_large y h, if_neg hy]
  · rfl

theorem modular_eq (n : ℕ) (z : Word) : (if z.toNat > 0 then u256 ((n % z.toNat : ℕ) : ℤ) else 0) =
    (if z = 0 then 0 else .ofNat 256 (n % z.toNat) : Word).toNat := by
  simp only [eq_zero_iff]
  split_ifs
  · omega
  · rw [u256_natCast, BitVec.toNat_ofNat]
  · rfl
  · omega

theorem opAddmod_computes : Computes₃ opAddmod fun x y z =>
    if z = 0 then 0 else .ofNat 256 ((x.toNat + y.toNat) % z.toNat) :=
  ternary_computes fun _ _ z => modular_eq _ z

theorem opMulmod_computes : Computes₃ opMulmod fun x y z =>
    if z = 0 then 0 else .ofNat 256 (x.toNat * y.toNat % z.toNat) :=
  ternary_computes fun _ _ z => modular_eq _ z

/-- **Arithmetic.**  On words, every arithmetic instruction leaves its value in two's
    complement on the stack; so what it leaves is a word. -/
theorem word_arithmetic : (∀ op : WordOp, Computes op.exec op.value) ∧
    (Computes₃ opAddmod fun x y z =>
      if z = 0 then 0 else .ofNat 256 ((x.toNat + y.toNat) % z.toNat)) ∧
    Computes₃ opMulmod fun x y z =>
      if z = 0 then 0 else .ofNat 256 (x.toNat * y.toNat % z.toNat) := by
  refine ⟨fun op => ?_, opAddmod_computes, opMulmod_computes⟩
  cases op with
  | add => exact opAdd_computes
  | sub => exact opSub_computes
  | mul => exact opMul_computes
  | div => exact opDiv_computes
  | sdiv => exact opSdiv_computes
  | mod => exact opMod_computes
  | smod => exact opSmod_computes
  | exp => exact opExp_computes
  | signExtend => exact opSignExtend_computes
  | lt => exact opLt_computes
  | gt => exact opGt_computes
  | slt => exact opSlt_computes
  | sgt => exact opSgt_computes
  | byte => exact opByte_computes
  | shl => exact opSHL_computes
  | shr => exact opSHR_computes
  | sar => exact opSAR_computes

end GoEthereum.Vm
