/-
  The difficulties and the gas limits of headers.

  The rule of the difficulty is stated for the fork of a block and for any time
  (`Fork.difficulty`).  The engine cuts the time of a header to 64 bits: a header of a block
  keeps the rule, an uncle from the far future need not (`difficulty_rule`).  The gas limits
  that a miner chooses pass the checks of the engine (`calcGasLimit_accepted`).
-/
import Mathlib.Tactic.IntervalCases
import Mathlib.Tactic.GCongr
import Mathlib.Tactic.Linarith
import GoEthereum.Lib.Outcome
import GoEthereum.Ethash.Consensus

namespace GoEthereum.Ethash

open GoEthereum.Core Outcome

/-! ## Accepted headers -/

section
variable {e : Engine} {header parent : Header} {uncle withSeal : Bool}

theorem ensure_eq_ok {holds : Prop} [Decidable holds] {err : VerifyError} :
    ensure holds err = .ok () ↔ holds := by
  rw [ensure]
  split_ifs with h
  · exact iff_of_true rfl h
  · exact iff_of_false (by simp) h

/-- What the engine accepts. -/
theorem verifyHeader_eq_ok : e.verifyHeader header parent uncle withSeal = .ok () ↔
    header.extra.length ≤ maximumExtraDataSize ∧ e.verifyTime header parent uncle = .ok () ∧
      header.difficulty = calcDifficulty e.config (.ofNat header.time) parent ∧
      Engine.verifyGas header parent = .ok () ∧ header.number = parent.number + 1 ∧
      (withSeal → e.verifySeal header = .ok ()) ∧
      verifyDAOHeaderExtraData e.config header = .ok () ∧
      verifyForkHashes e.config header uncle = .ok () := by
  have hbind : ∀ {x : Except VerifyError Unit} {f : Unit → Except VerifyError Unit},
      (x >>= f) = .ok () ↔ x = .ok () ∧ f () = .ok () := by
    intro x f
    constructor
    · intro h
      obtain ⟨_, hx, hf⟩ := bind_eq_ok h
      exact ⟨hx, hf⟩
    · rintro ⟨rfl, hf⟩
      exact hf
  rw [Engine.verifyHeader, eq_comm (a := header.difficulty)]
  cases withSeal
  · simp only [hbind, ensure_eq_ok, Bool.false_eq_true, if_false, false_imp_iff, true_and]
  · simp only [hbind, ensure_eq_ok, if_true, true_imp_iff]

theorem verifyTime_eq_ok : e.verifyTime header parent uncle = .ok () ↔
    (uncle → header.time < 2 ^ 256) ∧ (¬ uncle → header.time ≤ e.now + allowedFutureBlockTime) ∧
      parent.time < header.time := by
  rw [Engine.verifyTime]
  split_ifs with hlarge hfuture hzero
  · exact iff_of_false (by simp) fun h => absurd (h.1 hlarge.1) (by omega)
  · exact iff_of_false (by simp) fun h => absurd (h.2.1 hfuture.1) (by omega)
  · exact iff_of_false (by simp) fun h => absurd h.2.2 (by omega)
  · refine iff_of_true rfl ⟨fun h => ?_, fun h => ?_, by omega⟩
    · have := not_and.1 hlarge h
      omega
    · have := not_and.1 hfuture h
      omega

end

/-! ## Forks -/

/-- The rules of the difficulty. -/
inductive Fork where
  | frontier
  | homestead
  | byzantium
  | constantinople

namespace Fork

/-- The steps by which the difficulty changes when a block follows after `dt`. -/
def factor (uncles : Bool) (dt : ℤ) : Fork → ℤ
  | frontier => if dt < 13 then 1 else -1
  | homestead => max (1 - dt / 10) (-99)
  | byzantium | constantinople => max ((if uncles then 2 else 1) - dt / 9) (-99)

/-- The number of blocks by which the bomb is delayed. -/
def delay : Fork → ℕ
  | frontier | homestead => 0
  | byzantium => 3000000
  | constantinople => 5000000

/-- The difficulty of a block after `parent`, for a time of any size. -/
def difficulty (fork : Fork) (parent : Header) (time : ℕ) : ℤ :=
  let steps := fork.factor (parent.uncleHash ≠ emptyUncleHash) (time - parent.time)
  max (parent.difficulty + parent.difficulty / 2048 * steps) 131072 +
    bomb ((parent.number + 1 - fork.delay) / 100000)

end Fork

/-- The rules of the block with the number. -/
def ChainConfig.fork (config : ChainConfig) (number : ℕ) : Fork :=
  if config.isConstantinople number then .constantinople
  else if config.isByzantium number then .byzantium
  else if config.isHomestead number then .homestead
  else .frontier

theorem bomb_nonneg (periodCount : ℕ) : 0 ≤ bomb periodCount := by
  rw [bomb]
  split_ifs
  · positivity
  · exact le_rfl

section
variable {config : ChainConfig} {time : UInt64} {parent : Header}

theorem makeDifficultyCalculator_eq {bombDelay : ℕ} (hdelay : 0 < bombDelay) :
    makeDifficultyCalculator bombDelay time parent =
      max (parent.difficulty + parent.difficulty / 2048 * Fork.factor
        (parent.uncleHash ≠ emptyUncleHash) (time.toNat - parent.time) .byzantium) 131072 +
        bomb ((parent.number + 1 - bombDelay) / 100000) := by
  have hfake : (if parent.number ≥ bombDelay - 1 then parent.number - (bombDelay - 1) else 0) =
      parent.number + 1 - bombDelay := by
    split_ifs <;> omega
  rw [makeDifficultyCalculator]
  simp only [hfake, adjusted, Fork.factor]
  by_cases huncles : parent.uncleHash = emptyUncleHash
  · simp only [huncles, if_true, ne_eq, not_true, decide_false, Bool.false_eq_true, if_false]
    rfl
  · simp only [huncles, if_false, ne_eq, not_false_iff, decide_true, if_true]
    rfl

theorem calcDifficultyFrontier_eq :
    calcDifficultyFrontier time parent = Fork.difficulty .frontier parent time.toNat := by
  have hdiff : (if (time.toNat : ℤ) - parent.time < durationLimit then
        parent.difficulty + parent.difficulty / difficultyBoundDivisor
      else parent.difficulty - parent.difficulty / difficultyBoundDivisor) = parent.difficulty +
        parent.difficulty / 2048 * if (time.toNat : ℤ) - parent.time < 13 then 1 else -1 := by
    rw [difficultyBoundDivisor, durationLimit]
    split_ifs <;> ring
  rw [calcDifficultyFrontier, Fork.difficulty]
  simp only [hdiff, Fork.factor, Fork.delay, Nat.sub_zero]
  by_cases hperiod : (parent.number + 1) / expDiffPeriod > 1
  · -- the second comparison with the minimum changes nothing
    rw [if_pos hperiod]
    exact max_eq_left ((le_max_right _ _).trans (le_add_of_nonneg_right (bomb_nonneg _)))
  · have hnone : bomb ((parent.number + 1) / 100000) = 0 := if_neg hperiod
    rw [if_neg hperiod, hnone, add_zero]
    rfl

theorem calcDifficulty_eq : calcDifficulty config time parent =
    (config.fork (parent.number + 1)).difficulty parent time.toNat := by
  rw [calcDifficulty, ChainConfig.fork]
  split_ifs
  · exact makeDifficultyCalculator_eq (by norm_num)
  · exact makeDifficultyCalculator_eq (by norm_num)
  · rfl
  · exact calcDifficultyFrontier_eq

end

section
variable {parent : Header}

theorem Fork.le_difficulty (fork : Fork) (time : ℕ) : 131072 ≤ fork.difficulty parent time := by
  have hbomb := bomb_nonneg ((parent.number + 1 - fork.delay) / 100000)
  rw [Fork.difficulty]
  omega

theorem Fork.factor_antitone (fork : Fork) (uncles : Bool) :
    Antitone fun dt => fork.factor uncles dt := by
  intro dt dt' hle
  cases fork with
  | frontier =>
    dsimp only [Fork.factor]
    split_ifs <;> omega
  | homestead | byzantium | constantinople =>
    dsimp only [Fork.factor]
    omega

theorem Fork.le_factor (fork : Fork) (uncles : Bool) (dt : ℤ) : -99 ≤ fork.factor uncles dt := by
  cases fork with
  | frontier =>
    dsimp only [Fork.factor]
    split_ifs <;> omega
  | homestead | byzantium | constantinople => exact le_max_right _ _

theorem Fork.difficulty_antitone (fork : Fork) {t t' : ℕ} (hle : t ≤ t') :
    fork.difficulty parent t' ≤ fork.difficulty parent t := by
  have hsteps := Fork.factor_antitone fork (parent.uncleHash ≠ emptyUncleHash)
    (show (t : ℤ) - parent.time ≤ t' - parent.time by omega)
  dsimp only at hsteps
  rw [Fork.difficulty, Fork.difficulty]
  refine add_le_add_left ?_ _
  rcases le_or_gt 0 (parent.difficulty / 2048) with hpos | hneg
  · have := mul_le_mul_of_nonneg_left hsteps hpos
    omega
  · -- a negative difficulty gives the minimum
    have hlow := Fork.le_factor fork (parent.uncleHash ≠ emptyUncleHash)
      ((t' : ℤ) - parent.time)
    have := mul_le_mul_of_nonpos_left hlow hneg.le
    omega

end

/-! ## Times -/

/-- The rule of the difficulty, for headers and uncles with a time in `S`: the clock reads
    seconds on 63 bits. -/
structure DifficultyRule (S : Set ℕ) : Prop where
  formula : ∀ (e : Engine) (header parent : Header) (uncle withSeal : Bool),
    e.now + allowedFutureBlockTime < 2 ^ 63 →
    e.verifyHeader header parent uncle withSeal = .ok () → header.time ∈ S →
    header.difficulty = (e.config.fork header.number).difficulty parent header.time ∧
      131072 ≤ header.difficulty
  later : ∀ (e e' : Engine) (header header' parent : Header)
    (uncle withSeal uncle' withSeal' : Bool),
    e.now + allowedFutureBlockTime < 2 ^ 63 → e'.now + allowedFutureBlockTime < 2 ^ 63 →
    e.config = e'.config → e.verifyHeader header parent uncle withSeal = .ok () →
    e'.verifyHeader header' parent uncle' withSeal' = .ok () → header.time ∈ S →
    header'.time ∈ S → header.time < header'.time → header'.difficulty ≤ header.difficulty

variable {e : Engine} {header parent : Header} {uncle withSeal : Bool}

theorem difficulty_of_verifyHeader (h : e.verifyHeader header parent uncle withSeal = .ok ()) :
    header.difficulty =
      (e.config.fork header.number).difficulty parent (header.time % 2 ^ 64) := by
  obtain ⟨-, -, hdifficulty, -, hnumber, -⟩ := verifyHeader_eq_ok.1 h
  rw [hdifficulty, calcDifficulty_eq, hnumber, UInt64.toNat_ofNat']

theorem time_of_verifyHeader (hnow : e.now + allowedFutureBlockTime < 2 ^ 63)
    (h : e.verifyHeader header parent uncle withSeal = .ok ())
    (ht : header.time < 2 ^ 64 ∨ 2 ^ 256 ≤ header.time) : header.time < 2 ^ 64 := by
  obtain ⟨huncle, hblock, -⟩ := verifyTime_eq_ok.1 (verifyHeader_eq_ok.1 h).2.1
  cases uncle with
  | false =>
    have := hblock (by decide)
    omega
  | true =>
    have := huncle rfl
    omega

/-- A parent whose time is the low part of `t`. -/
def farParent (t : ℕ) : Header :=
  { hash := 1, parentHash := 0, difficulty := 2 ^ 20, number := 0, gasLimit := 5000
    time := t % 2 ^ 64 }

/-- A child that seems to follow at once, at the time `t`. -/
def farUncle (t : ℕ) : Header :=
  { hash := 2, parentHash := 1, difficulty := 2 ^ 20 + 512, number := 1, gasLimit := 5000
    time := t }

/-- An engine that finds any proof of work. -/
def easyEngine : Engine where
  powMode := .normal
  pow _ := (0, 0)

theorem farUncle_accepted {t : ℕ} (hfar : 2 ^ 64 ≤ t) (hlt : t < 2 ^ 256) :
    easyEngine.verifyHeader (farUncle t) (farParent t) true true = .ok () := by
  have hgas : Engine.verifyGas (farUncle 0) (farParent 0) = .ok () := by rfl
  refine verifyHeader_eq_ok.2 ⟨Nat.zero_le _, ?_, ?_, hgas, rfl, fun _ => by rfl, by rfl, by rfl⟩
  · refine verifyTime_eq_ok.2 ⟨fun _ => hlt, fun h => absurd rfl h, ?_⟩
    exact (Nat.mod_lt _ (by norm_num)).trans_le hfar
  · rw [calcDifficulty_eq, UInt64.toNat_ofNat']
    change 2 ^ 20 + 512 = Fork.difficulty .frontier (farParent t) (t % 2 ^ 64)
    simp only [Fork.difficulty, Fork.factor, farParent, sub_self]
    rfl

theorem farUncle_rule {t : ℕ} (hfar : 2 ^ 64 ≤ t) :
    Fork.difficulty .frontier (farParent t) t = 2 ^ 20 - 512 := by
  have hdt : ¬ ((t : ℤ) - (farParent t).time < 13) := by
    dsimp only [farParent]
    omega
  simp only [Fork.difficulty, Fork.factor, if_neg hdt]
  norm_num [farParent, Fork.delay, bomb]

/-- **The rule of the difficulty.**  It holds for all headers and uncles with a time in `S` iff
    no such time is between `2 ^ 64` and the limit for uncles. -/
theorem difficulty_rule (S : Set ℕ) :
    DifficultyRule S ↔ ∀ t ∈ S, t < 2 ^ 64 ∨ 2 ^ 256 ≤ t := by
  constructor
  · intro h t ht
    by_contra hbad
    obtain ⟨hfar, hlt⟩ := not_or.1 hbad
    have hrule := (h.formula easyEngine (farUncle t) (farParent t) true true (by decide)
      (farUncle_accepted (not_lt.1 hfar) (not_le.1 hlt)) ht).1
    change 2 ^ 20 + 512 = Fork.difficulty .frontier (farParent t) t at hrule
    rw [farUncle_rule (not_lt.1 hfar)] at hrule
    norm_num at hrule
  · intro h
    have hrule : ∀ {e : Engine} {header parent : Header} {uncle withSeal : Bool},
        e.now + allowedFutureBlockTime < 2 ^ 63 →
        e.verifyHeader header parent uncle withSeal = .ok () → header.time ∈ S →
        header.difficulty = (e.config.fork header.number).difficulty parent header.time := by
      intro e header parent uncle withSeal hnow hok hmem
      rw [difficulty_of_verifyHeader hok,
        Nat.mod_eq_of_lt (time_of_verifyHeader hnow hok (h _ hmem))]
    constructor
    · intro e header parent uncle withSeal hnow hok hmem
      have heq := hrule hnow hok hmem
      exact ⟨heq, heq ▸ Fork.le_difficulty _ _⟩
    · intro e e' header header' parent uncle withSeal uncle' withSeal' hnow hnow' hconfig hok hok'
        hmem hmem' hlt
      obtain ⟨-, -, -, -, hnumber, -⟩ := verifyHeader_eq_ok.1 hok
      obtain ⟨-, -, -, -, hnumber', -⟩ := verifyHeader_eq_ok.1 hok'
      rw [hrule hnow hok hmem, hrule hnow' hok' hmem', hnumber, hnumber', hconfig]
      exact Fork.difficulty_antitone _ hlt.le

/-- Of two uncles of the same parent, the one that is later by centuries is more difficult. -/
theorem difficulty_wraps :
    easyEngine.verifyHeader { farUncle 20 with difficulty := 2 ^ 20 - 512 } (farParent (2 ^ 64))
        true true = .ok () ∧
      easyEngine.verifyHeader (farUncle (2 ^ 64)) (farParent (2 ^ 64)) true true = .ok () ∧
      (easyEngine.config.fork 1).difficulty (farParent (2 ^ 64)) (2 ^ 64) = 2 ^ 20 - 512 ∧
      (farUncle (2 ^ 64)).difficulty = 2 ^ 20 + 512 :=
  ⟨by rfl, farUncle_accepted le_rfl (by norm_num), farUncle_rule le_rfl, rfl⟩

/-! ## Gas limits -/

def calcGasLimit (parent : Block) (gasFloor gasCeil : UInt64) : UInt64 :=
  let contrib := (parent.header.gasUsed + parent.header.gasUsed / 2) / gasLimitBoundDivisor
  let decay := parent.header.gasLimit / gasLimitBoundDivisor - 1
  let limit := parent.header.gasLimit - decay + contrib
  let limit := if limit < minGasLimit then minGasLimit else limit
  if limit < gasFloor then
    let limit := parent.header.gasLimit + decay
    if limit > gasFloor then gasFloor else limit
  else if limit > gasCeil then
    let limit := parent.header.gasLimit - decay
    if limit < gasCeil then gasCeil else limit
  else limit

theorem toInt_toInt64 {x : UInt64} (h : x.toNat < 2 ^ 63) : x.toInt64.toInt = x.toNat := by
  change x.toBitVec.toInt = _
  exact BitVec.toInt_eq_toNat_of_lt (by change 2 * x.toNat < _; omega)

theorem toNat_gasLimitDiff {parent header : Header} (hp : parent.gasLimit.toNat < 2 ^ 63)
    (hh : header.gasLimit.toNat < 2 ^ 63) : ((gasLimitDiff parent header).toNat : ℤ) =
      |(parent.gasLimit.toNat : ℤ) - header.gasLimit.toNat| := by
  have hdiff : (parent.gasLimit.toInt64 - header.gasLimit.toInt64).toInt =
      parent.gasLimit.toNat - header.gasLimit.toNat := by
    rw [Int64.toInt_sub, toInt_toInt64 hp, toInt_toInt64 hh]
    exact Int.bmod_eq_of_le (by norm_num; omega) (by norm_num; omega)
  have hneg : (-(parent.gasLimit.toInt64 - header.gasLimit.toInt64)).toInt =
      header.gasLimit.toNat - parent.gasLimit.toNat := by
    rw [Int64.toInt_neg, hdiff, neg_sub]
    exact Int.bmod_eq_of_le (by norm_num; omega) (by norm_num; omega)
  have hnat : ∀ {x : Int64}, 0 ≤ x.toInt → (x.toUInt64.toNat : ℤ) = x.toInt := by
    intro x hx
    rw [Int64.toNat_toUInt64_of_le (by rwa [Int64.le_iff_toInt_le])]
    exact Int.toNat_of_nonneg hx
  rw [gasLimitDiff]
  split_ifs with hlt
  · rw [Int64.lt_iff_toInt_lt, hdiff] at hlt
    change _ < (0 : ℤ) at hlt
    rw [hnat (by omega), hneg, abs_of_neg hlt, neg_sub]
  · rw [Int64.lt_iff_toInt_lt, hdiff] at hlt
    change ¬ _ < (0 : ℤ) at hlt
    rw [hnat (by omega), hdiff, abs_of_nonneg (not_lt.1 hlt)]

theorem gas_of_verifyHeader (h : e.verifyHeader header parent uncle withSeal = .ok ()) :
    5000 ≤ header.gasLimit.toNat ∧ header.gasLimit.toNat < 2 ^ 63 ∧
      header.gasUsed.toNat ≤ header.gasLimit.toNat := by
  obtain ⟨-, -, -, hgas, -⟩ := verifyHeader_eq_ok.1 h
  rw [Engine.verifyGas] at hgas
  split_ifs at hgas with hcap hused hlimit
  obtain ⟨-, hmin⟩ := not_or.1 hlimit
  rw [gt_iff_lt, UInt64.lt_iff_toNat_lt] at hcap hused
  rw [UInt64.lt_iff_toNat_lt] at hmin
  change ¬ 2 ^ 63 - 1 < _ at hcap
  change ¬ _ < 5000 at hmin
  omega

/-- No sum or difference of `CalcGasLimit` leaves the 64 bits. -/
structure NoWrap (gasLimit gasUsed : ℕ) : Prop where
  contrib : gasUsed + gasUsed / 2 < 2 ^ 64
  decay : 1 ≤ gasLimit / 1024
  base : gasLimit / 1024 - 1 ≤ gasLimit
  limit : gasLimit - (gasLimit / 1024 - 1) + (gasUsed + gasUsed / 2) / 1024 < 2 ^ 64
  rise : gasLimit + (gasLimit / 1024 - 1) < 2 ^ 64

theorem toNat_calcGasLimit {parent : Block} {gasFloor gasCeil : UInt64} {G U : ℕ}
    (hG : parent.header.gasLimit.toNat = G) (hU : parent.header.gasUsed.toNat = U)
    (h : NoWrap G U) : (calcGasLimit parent gasFloor gasCeil).toNat =
      let limit := max (G - (G / 1024 - 1) + (U + U / 2) / 1024) 5000
      if limit < gasFloor.toNat then min (G + (G / 1024 - 1)) gasFloor.toNat
      else if limit > gasCeil.toNat then max (G - (G / 1024 - 1)) gasCeil.toNat
      else limit := by
  have hcontrib : ((parent.header.gasUsed + parent.header.gasUsed / 2) /
      gasLimitBoundDivisor).toNat = (U + U / 2) / 1024 := by
    rw [UInt64.toNat_div, UInt64.toNat_add, UInt64.toNat_div, hU]
    change (U + U / 2) % 2 ^ 64 / 1024 = _
    rw [Nat.mod_eq_of_lt h.contrib]
  have hdiv : (parent.header.gasLimit / gasLimitBoundDivisor).toNat = G / 1024 := by
    rw [UInt64.toNat_div, hG]
    rfl
  have hdecay : (parent.header.gasLimit / gasLimitBoundDivisor - 1).toNat = G / 1024 - 1 := by
    rw [UInt64.toNat_sub_of_le _ _ (UInt64.le_iff_toNat_le.2 (hdiv ▸ h.decay)), hdiv]
    rfl
  have hbase : (parent.header.gasLimit -
      (parent.header.gasLimit / gasLimitBoundDivisor - 1)).toNat = G - (G / 1024 - 1) := by
    rw [UInt64.toNat_sub_of_le _ _ (UInt64.le_iff_toNat_le.2 (by rw [hdecay, hG]; exact h.base)),
      hdecay, hG]
  have hlimit := UInt64.toNat_add (parent.header.gasLimit -
    (parent.header.gasLimit / gasLimitBoundDivisor - 1))
    ((parent.header.gasUsed + parent.header.gasUsed / 2) / gasLimitBoundDivisor)
  rw [hbase, hcontrib, Nat.mod_eq_of_lt h.limit] at hlimit
  have hrise := UInt64.toNat_add parent.header.gasLimit
    (parent.header.gasLimit / gasLimitBoundDivisor - 1)
  rw [hdecay, hG, Nat.mod_eq_of_lt h.rise] at hrise
  have hmin : minGasLimit.toNat = 5000 := rfl
  rw [calcGasLimit]
  simp only [gt_iff_lt, UInt64.lt_iff_toNat_lt, apply_ite UInt64.toNat, hlimit, hrise, hbase, hmin]
  split_ifs <;> omega

/-- **The gas limit of a miner.**  It passes the checks of a child, and no step of its
    computation leaves the 64 bits. -/
theorem calcGasLimit_accepted {e : Engine} {parent : Block} {grandparent : Header}
    {uncle withSeal : Bool} {gasFloor gasCeil : UInt64}
    (hparent : e.verifyHeader parent.header grandparent uncle withSeal = .ok ())
    (hused : parent.header.gasUsed = 0 ∨ 21000 ≤ parent.header.gasUsed)
    (hfloor : gasFloor ≤ gasCeil) (hceil : 5000 ≤ gasCeil) (hcap : gasCeil ≤ 0x7fffffffffffffff) :
    NoWrap parent.header.gasLimit.toNat parent.header.gasUsed.toNat ∧
      let limit := calcGasLimit parent gasFloor gasCeil
      |(parent.header.gasLimit.toNat : ℤ) - limit.toNat| < parent.header.gasLimit.toNat / 1024 ∧
        5000 ≤ limit ∧ limit ≤ 0x7fffffffffffffff ∧
        ∀ child : Header, child.gasLimit = limit → child.gasUsed ≤ limit →
          Engine.verifyGas child parent.header = .ok () := by
  obtain ⟨hmin, hmax, hle⟩ := gas_of_verifyHeader hparent
  generalize hG : parent.header.gasLimit.toNat = G at hmin hmax hle
  generalize hU : parent.header.gasUsed.toNat = U at hle
  have hused : U = 0 ∨ 21000 ≤ U := by
    rcases hused with h | h
    · exact .inl (by rw [← hU, h]; rfl)
    · exact .inr (hU ▸ UInt64.le_iff_toNat_le.1 h)
  rw [UInt64.le_iff_toNat_le] at hfloor hceil hcap
  change 5000 ≤ _ at hceil
  change _ ≤ 2 ^ 63 - 1 at hcap
  have hexact : NoWrap G U := by
    constructor <;> omega
  have hlimit := @toNat_calcGasLimit parent gasFloor gasCeil G U hG hU hexact
  generalize calcGasLimit parent gasFloor gasCeil = limit at hlimit
  -- a block that is used pays for a transaction, so its limit is large enough to rise by a half
  have hbounds : 5000 ≤ limit.toNat ∧ limit.toNat ≤ 2 ^ 63 - 1 ∧
      G < limit.toNat + G / 1024 ∧ limit.toNat < G + G / 1024 := by
    rw [hlimit]
    dsimp only
    split_ifs <;> omega
  obtain ⟨hlow, hhigh, hdown, hup⟩ := hbounds
  have hdist : |(G : ℤ) - limit.toNat| < G / 1024 := by
    rw [abs_lt]
    omega
  refine ⟨hexact, hdist, UInt64.le_iff_toNat_le.2 hlow, UInt64.le_iff_toNat_le.2 hhigh, ?_⟩
  intro child hchild hchildUsed
  have hdiff := @toNat_gasLimitDiff parent.header child (by omega) (by rw [hchild]; omega)
  have hbound : (parent.header.gasLimit / gasLimitBoundDivisor).toNat = G / 1024 := by
    rw [UInt64.toNat_div, hG]
    rfl
  rw [hG, hchild] at hdiff
  rw [Engine.verifyGas, hchild, if_neg, if_neg, if_neg]
  · rintro (h | h)
    · rw [ge_iff_le, UInt64.le_iff_toNat_le, hbound] at h
      omega
    · rw [UInt64.lt_iff_toNat_lt] at h
      change _ < 5000 at h
      omega
  · exact UInt64.not_lt.2 hchildUsed
  · rw [gt_iff_lt, UInt64.lt_iff_toNat_lt]
    change ¬ 2 ^ 63 - 1 < _
    omega

/-- A block with one transaction that uses all gas. -/
def fullBlock : Block :=
  { header := { hash := 2, parentHash := 1, difficulty := 2 ^ 20 + 512, number := 1, time := 5
                gasLimit := 21000, gasUsed := 21000 } }

theorem calcGasLimit_accepted_full : Engine.verifyGas
    { fullBlock.header with gasLimit := calcGasLimit fullBlock 8000000 8000000 } fullBlock.header =
      .ok () := by
  have hparent : easyEngine.verifyHeader fullBlock.header { farParent 0 with gasLimit := 21000 }
      false true = .ok () := by rfl
  have hfloor : (8000000 : UInt64) ≤ 8000000 := UInt64.le_refl _
  exact (calcGasLimit_accepted hparent (.inr (by decide)) hfloor (by decide) (by decide)).2.2.2.2 _
    rfl (by decide)

end GoEthereum.Ethash
