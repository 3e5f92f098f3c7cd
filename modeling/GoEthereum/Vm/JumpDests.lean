/-
  Jump destinations: the bit vector of `codeBitmap` is clear exactly where instructions
  start, and the vectors that the contracts of a tree share are those of their own codes.

  The other modules analyse the code at each jump; `Tree.validJumpdest_eq` says that the
  cache answers the same.
-/
import GoEthereum.Vm.Numbers

namespace GoEthereum.Vm

open GoEthereum.Rlp GoEthereum.State Outcome

/-! ## Instructions -/

/-- The bytes of data after an instruction. -/
def pushSize (op : UInt8) : ℕ := if 0x60 ≤ op ∧ op ≤ 0x7f then op.toNat - 0x60 + 1 else 0

/-- Where the instruction after the one at `p` starts. -/
def nextInstr (code : Bytes) (p : ℕ) : ℕ := p + 1 + pushSize (code.getD p 0)

/-- The linear decoding of the code has an instruction at `p`. -/
def InstrStart (code : Bytes) (p : ℕ) : Prop := ∃ n, (nextInstr code)^[n] 0 = p

theorem InstrStart.next {code : Bytes} {p : ℕ} (h : InstrStart code p) :
    InstrStart code (nextInstr code p) := by
  obtain ⟨n, rfl⟩ := h
  exact ⟨n + 1, Function.iterate_succ_apply' ..⟩

theorem InstrStart.le_or_next_le {code : Bytes} {p q : ℕ} (hp : InstrStart code p)
    (hq : InstrStart code q) : q ≤ p ∨ nextInstr code p ≤ q := by
  obtain ⟨n, rfl⟩ := hp
  obtain ⟨m, rfl⟩ := hq
  have hmono : StrictMono fun k => (nextInstr code)^[k] 0 := strictMono_nat_of_lt_succ fun k => by
    rw [Function.iterate_succ_apply', nextInstr]
    omega
  rcases Nat.lt_or_ge n m with hlt | hge
  · right
    rw [← Function.iterate_succ_apply' (nextInstr code)]
    exact hmono.monotone hlt
  · exact .inl (hmono.monotone hge)

/-! ## The bit vector -/

namespace Bitvec
variable {bits bits' bits₁ : Bitvec} {a b c n pc pos q : ℕ}

/-- The bit of a position. -/
def isData (bits : Bitvec) (q : ℕ) : Prop :=
  bits.getD (q / 8) 0 &&& ((0x80 : UInt8) >>> UInt8.ofNat (q % 8)) ≠ 0

/-- Exactly the bits from `a` to `b` are new. -/
def Marks (bits bits' : Bitvec) (a b : ℕ) : Prop :=
  ∀ q, bits'.isData q ↔ bits.isData q ∨ a ≤ q ∧ q < b

theorem Marks.trans (h : bits.Marks bits₁ a b) (h' : bits₁.Marks bits' b c) (hab : a ≤ b)
    (hbc : b ≤ c) : bits.Marks bits' a c := by
  intro q
  rw [h' q, h q, or_assoc]
  exact or_congr_right (by omega)

theorem Marks.refl (bits : Bitvec) (a : ℕ) : bits.Marks bits a a := fun q => by
  rw [or_iff_left (by omega)]

theorem orAt_eq_ok {mask : UInt8} (h : bits.orAt pos mask = .ok bits') :
    pos < bits.length ∧ bits' = bits.set pos (bits.getD pos 0 ||| mask) := by
  obtain ⟨b, hb, h⟩ := bind_eq_ok h
  have hget := index_eq_ok hb
  cases h
  rw [List.getD_eq_getElem?_getD, hget]
  exact ⟨(List.getElem?_eq_some_iff.1 hget).1, rfl⟩

theorem or_and_ne_zero (x y z : UInt8) : (x ||| y) &&& z ≠ 0 ↔ x &&& z ≠ 0 ∨ y &&& z ≠ 0 := by
  have hdistrib : (x ||| y) &&& z = x &&& z ||| y &&& z :=
    UInt8.toBitVec_inj.1 BitVec.and_or_distrib_right
  rw [hdistrib, Ne, UInt8.or_eq_zero_iff, not_and_or]

theorem isData_orAt {mask : UInt8} (h : bits.orAt pos mask = .ok bits') :
    bits'.isData q ↔ bits.isData q ∨
      q / 8 = pos ∧ mask &&& ((0x80 : UInt8) >>> UInt8.ofNat (q % 8)) ≠ 0 := by
  obtain ⟨hpos, rfl⟩ := orAt_eq_ok h
  rw [isData, isData]
  by_cases hq : q / 8 = pos
  · subst hq
    rw [List.getD_eq_getElem?_getD, List.getElem?_set_self hpos, Option.getD_some, or_and_ne_zero]
    simp
  · rw [List.getD_eq_getElem?_getD, List.getElem?_set_ne (Ne.symm hq), ← List.getD_eq_getElem?_getD]
    simp [hq]

theorem masks : ∀ r < 8, ∀ i < 8,
    (((0x80 : UInt8) >>> UInt8.ofNat r &&& (0x80 : UInt8) >>> UInt8.ofNat i ≠ 0) ↔ i = r) ∧
    (((0xff : UInt8) >>> UInt8.ofNat r &&& (0x80 : UInt8) >>> UInt8.ofNat i ≠ 0) ↔ r ≤ i) ∧
    ((~~~((0xff : UInt8) >>> UInt8.ofNat r) &&& (0x80 : UInt8) >>> UInt8.ofNat i ≠ 0) ↔ i < r) := by
  decide

theorem marks_mark (h : bits.mark pos = .ok bits') : bits.Marks bits' pos (pos + 1) := by
  intro q
  have hmask := (masks (pos % 8) (by omega) (q % 8) (by omega)).1
  rw [isData_orAt h, hmask]
  exact or_congr_right (by omega)

theorem marks_mark8 (h : bits.mark8 pos = .ok bits') : bits.Marks bits' pos (pos + 8) := by
  intro q
  obtain ⟨bits₁, h₁, h₂⟩ := bind_eq_ok h
  obtain ⟨-, hlow, hhigh⟩ := masks (pos % 8) (by omega) (q % 8) (by omega)
  rw [isData_orAt h₂, isData_orAt h₁, hlow, hhigh, or_assoc]
  exact or_congr_right (by omega)

theorem marks_markEights (h : bits.markEights n pc = .ok bits') :
    bits.Marks bits' pc (pc + 8 * n) := by
  induction n generalizing pc bits with
  | zero =>
    cases h
    exact Marks.refl bits' pc
  | succ n ih =>
    obtain ⟨bits₁, h₁, h⟩ := bind_eq_ok h
    have := (marks_mark8 h₁).trans (ih h) (by omega) (by omega)
    rwa [show pc + 8 + 8 * n = pc + 8 * (n + 1) by ring] at this

theorem marks_markOnes (h : bits.markOnes n pc = .ok bits') : bits.Marks bits' pc (pc + n) := by
  induction n generalizing pc bits with
  | zero =>
    cases h
    exact Marks.refl bits' pc
  | succ n ih =>
    obtain ⟨bits₁, h₁, h⟩ := bind_eq_ok h
    have := (marks_mark h₁).trans (ih h) (by omega) (by omega)
    rwa [show pc + 1 + n = pc + (n + 1) by ring] at this

theorem codeSegment_eq_true {x : Bool} (h : bits.codeSegment q = .ok x) :
    x = true ↔ ¬ bits.isData q := by
  obtain ⟨b, hb, h⟩ := bind_eq_ok h
  cases h
  rw [isData, List.getD_eq_getElem?_getD, index_eq_ok hb, not_not, beq_iff_eq]
  rfl

end Bitvec

/-- The bits before `pc` are set for data, and those after it are clear. -/
def Analysed (code : Bytes) (bits : Bitvec) (pc : ℕ) : Prop :=
  ∀ q, bits.isData q ↔ q < pc ∧ ¬ InstrStart code q

theorem Analysed.step {code : Bytes} {bits bits' : Bitvec} {pc : ℕ} (h : Analysed code bits pc)
    (hpc : InstrStart code pc) (hmarks : bits.Marks bits' (pc + 1) (nextInstr code pc)) :
    Analysed code bits' (nextInstr code pc) := by
  intro q
  have hlt : pc < nextInstr code pc := by
    rw [nextInstr]
    omega
  rw [hmarks q, h q]
  constructor
  · rintro (⟨hq, hdata⟩ | ⟨hge, hq⟩)
    · exact ⟨hq.trans hlt, hdata⟩
    · refine ⟨hq, fun hstart => ?_⟩
      have := hpc.le_or_next_le hstart
      omega
  · rintro ⟨hq, hdata⟩
    rcases Nat.lt_trichotomy q pc with hbefore | rfl | hafter
    · exact .inl ⟨hbefore, hdata⟩
    · exact absurd hpc hdata
    · exact .inr ⟨hafter, hq⟩

theorem codeBitmapLoop_analysed {code : Bytes} {fuel pc : ℕ} {bits bits' : Bitvec}
    (hpc : InstrStart code pc) (hbits : Analysed code bits pc) (hfuel : code.length ≤ pc + fuel)
    (h : codeBitmapLoop code fuel pc bits = .ok bits') :
    ∃ stop, code.length ≤ stop ∧ Analysed code bits' stop := by
  induction fuel generalizing pc bits with
  | zero =>
    cases h
    exact ⟨pc, hfuel, hbits⟩
  | succ fuel ih =>
    rw [codeBitmapLoop] at h
    rcases hop : code[pc]? with _ | op
    · rw [hop] at h
      cases h
      exact ⟨pc, List.getElem?_eq_none_iff.1 hop, hbits⟩
    · rw [hop] at h
      have hnext : nextInstr code pc = pc + 1 + pushSize op := by
        rw [nextInstr, List.getD_eq_getElem?_getD, hop]
        rfl
      dsimp only at h
      split_ifs at h with hpush
      · obtain ⟨bits₁, h₁, h⟩ := bind_eq_ok h
        obtain ⟨bits₂, h₂, h⟩ := bind_eq_ok h
        have hmarks := (Bitvec.marks_markEights h₁).trans (Bitvec.marks_markOnes h₂)
          (by omega) (by omega)
        rw [pushSize, if_pos hpush] at hnext
        rw [show pc + 1 + 8 * ((op.toNat - 0x60 + 1) / 8) + (op.toNat - 0x60 + 1) % 8 =
          nextInstr code pc by omega] at hmarks
        rw [← hnext] at h
        exact ih hpc.next (hbits.step hpc hmarks) (by omega) h
      · rw [pushSize, if_neg hpush] at hnext
        rw [Nat.add_zero] at hnext
        have hmarks := Bitvec.Marks.refl bits (pc + 1)
        rw [← hnext] at h
        exact ih hpc.next (hbits.step hpc (hnext ▸ hmarks)) (by omega) h

theorem codeBitmap_spec (code : Bytes) : ∃ bits : Bitvec, codeBitmap code = .ok bits ∧
    ∀ p < code.length, ∃ b, bits.codeSegment p = .ok b ∧ (b = true ↔ InstrStart code p) := by
  obtain ⟨bits, hbits, hlen⟩ := @codeBitmapLoop_spec code code.length 0
    (List.replicate (code.length / 8 + 1 + 4) 0) List.length_replicate
  have hclear : Analysed code (List.replicate (code.length / 8 + 1 + 4) 0) 0 := by
    intro q
    rw [Bitvec.isData, List.getD_eq_getElem?_getD, List.getElem?_replicate]
    split_ifs <;> simp
  obtain ⟨stop, hstop, hdata⟩ := codeBitmapLoop_analysed ⟨0, rfl⟩ hclear (by omega) hbits
  refine ⟨bits, hbits, fun p hp => ?_⟩
  have hsegment : ∃ b, bits.codeSegment p = .ok b := by
    rw [Bitvec.codeSegment, index_spec (by omega)]
    exact ⟨_, rfl⟩
  obtain ⟨b, hb⟩ := hsegment
  refine ⟨b, hb, ?_⟩
  rw [Bitvec.codeSegment_eq_true hb, hdata p, and_iff_right (hp.trans_le hstop), not_not]

theorem Contract.validJumpdest_iff (c : Contract) (hlen : c.code.length ≤ 2 ^ 62) (dest : ℕ) :
    ∃ b, c.validJumpdest dest = .ok b ∧ (b = true ↔
      dest < c.code.length ∧ c.code[dest]? = some 0x5b ∧ InstrStart c.code dest) := by
  rw [Contract.validJumpdest]
  split_ifs with hrange hop
  · refine ⟨false, rfl, ?_⟩
    rw [Bool.false_eq_true, false_iff]
    rintro ⟨hlt, -⟩
    omega
  · refine ⟨false, rfl, ?_⟩
    rw [Bool.false_eq_true, false_iff]
    rintro ⟨-, heq, -⟩
    exact hop heq
  · have hdest : dest < c.code.length := by omega
    obtain ⟨bits, hbits, hspec⟩ := codeBitmap_spec c.code
    obtain ⟨b, hb, hiff⟩ := hspec dest hdest
    refine ⟨b, ?_, ?_⟩
    · rw [hbits]
      exact hb
    · rw [hiff, and_iff_right hdest, and_iff_right (not_not.1 hop)]

/-! ## The cache -/

/-- `Contract` with the fields of the analysis; `codeHash` is zero if the code has none. -/
structure CachedContract extends Contract where
  codeHash : Word
  analysis : Option Bitvec := none

/-- `validJumpdest`; the map is the one that the contracts share. -/
def CachedContract.validJumpdest (c : CachedContract) (jumpdests : AssocMap Word Bitvec)
    (dest : ℕ) : Except Fault (Bool × CachedContract × AssocMap Word Bitvec) :=
  if 2 ^ 62 ≤ dest ∨ c.code.length ≤ dest then .ok (false, c, jumpdests)
  else if c.code[dest]? ≠ some 0x5b then .ok (false, c, jumpdests)
  else if c.codeHash ≠ 0 then
    match jumpdests.get c.codeHash with
    | some analysis => do return (← analysis.codeSegment dest, c, jumpdests)
    | none => do
      let analysis ← codeBitmap c.code
      return (← analysis.codeSegment dest, c, jumpdests.set c.codeHash analysis)
  else
    match c.analysis with
    | some analysis => do return (← analysis.codeSegment dest, c, jumpdests)
    | none => do
      let analysis ← codeBitmap c.code
      return (← analysis.codeSegment dest, { c with analysis := some analysis }, jumpdests)

/-- A call with the calls and creations under it; `NewContract` hands the map of the caller
    on. -/
structure Tree where
  jumpdests : AssocMap Word Bitvec := .empty
  contracts : List CachedContract := []

namespace Tree

/-- One of the contracts checks a destination. -/
def validJumpdest (t : Tree) (i dest : ℕ) : Except Fault (Bool × Tree) := do
  let c ← index t.contracts i
  let (b, c, jumpdests) ← c.validJumpdest t.jumpdests dest
  return (b, ⟨jumpdests, t.contracts.set i c⟩)

/-- The trees in which the contracts have some of the given codes.  `SetCallCode` sets the
    hash of the code, or none with the empty code of a missing account;
    `SetCodeOptionalHash` sets it for CREATE2 only. -/
inductive Reached (H : Hashing) (codes : Set Bytes) : Tree → Prop
  | empty : Reached H codes {}
  | newContract {t : Tree} (c : Contract) (codeHash : Word) : Reached H codes t →
      c.code ∈ codes → c.code.length ≤ 2 ^ 62 → (codeHash = 0 ∨ codeHash = H.keccak c.code) →
      Reached H codes { t with contracts := t.contracts ++ [⟨c, codeHash, none⟩] }
  | validJumpdest {t t' : Tree} {i dest : ℕ} {b : Bool} : Reached H codes t →
      t.validJumpdest i dest = .ok (b, t') → Reached H codes t'

/-- The vectors in the map are those of the codes with their hashes. -/
def Cached (H : Hashing) (codes : Set Bytes) (jumpdests : AssocMap Word Bitvec) : Prop :=
  ∀ h bits, jumpdests.get h = some bits →
    ∃ code ∈ codes, H.keccak code = h ∧ codeBitmap code = .ok bits

end Tree

/-- The fields of a contract agree with each other. -/
structure CachedContract.Ok (H : Hashing) (codes : Set Bytes) (c : CachedContract) : Prop where
  code : c.code ∈ codes
  length : c.code.length ≤ 2 ^ 62
  hash : c.codeHash = 0 ∨ c.codeHash = H.keccak c.code
  analysis : ∀ bits, c.analysis = some bits → codeBitmap c.code = .ok bits

section
variable {H : Hashing} {codes : Set Bytes} (hinj : Set.InjOn H.keccak codes)
include hinj

theorem CachedContract.validJumpdest_eq {c : CachedContract} {jumpdests : AssocMap Word Bitvec}
    (hc : c.Ok H codes) (hcached : Tree.Cached H codes jumpdests) (dest : ℕ) :
    ∃ b c' jumpdests', c.validJumpdest jumpdests dest = .ok (b, c', jumpdests') ∧
      c.toContract.validJumpdest dest = .ok b ∧ c'.Ok H codes ∧
      Tree.Cached H codes jumpdests' := by
  rw [validJumpdest, Contract.validJumpdest]
  split_ifs with hrange hop hhash
  · exact ⟨_, _, _, rfl, rfl, hc, hcached⟩
  · exact ⟨_, _, _, rfl, rfl, hc, hcached⟩
  all_goals
    obtain ⟨bits, hbits, hspec⟩ := codeBitmap_spec c.code
    obtain ⟨b, hb, -⟩ := hspec dest (by omega)
    rw [hbits]
  · have hkeccak := hc.hash.resolve_left hhash
    rcases hget : jumpdests.get c.codeHash with _ | analysis
    · refine ⟨b, c, jumpdests.set c.codeHash bits, ?_, hb, hc, fun h bits' h' => ?_⟩
      · simp only [bind, Except.bind, hb]
        rfl
      · rcases AssocMap.get_set_some h' with ⟨rfl, rfl⟩ | ⟨-, h'⟩
        · exact ⟨c.code, hc.code, hkeccak.symm, hbits⟩
        · exact hcached h bits' h'
    · obtain ⟨code, hcode, heq, hanalysis⟩ := hcached _ _ hget
      cases hinj hcode hc.code (heq.trans hkeccak)
      cases hbits.symm.trans hanalysis
      refine ⟨b, c, jumpdests, ?_, hb, hc, hcached⟩
      simp only [bind, Except.bind, hb]
      rfl
  · rcases hget : c.analysis with _ | analysis
    · refine ⟨b, { c with analysis := some bits }, jumpdests, ?_, hb, ⟨hc.code, hc.length, hc.hash,
        fun bits' h' => ?_⟩, hcached⟩
      · simp only [bind, Except.bind, hb]
        rfl
      · cases h'
        exact hbits
    · cases hbits.symm.trans (hc.analysis _ hget)
      refine ⟨b, c, jumpdests, ?_, hb, hc, hcached⟩
      simp only [bind, Except.bind, hb]
      rfl

namespace Tree

/-- What holds in every tree. -/
structure Ok (H : Hashing) (codes : Set Bytes) (t : Tree) : Prop where
  cached : Cached H codes t.jumpdests
  contracts : ∀ c ∈ t.contracts, c.Ok H codes

theorem Ok.validJumpdest {t : Tree} {i : ℕ} {c : CachedContract} (h : t.Ok H codes)
    (hget : t.contracts[i]? = some c) (dest : ℕ) : ∃ b t', t.validJumpdest i dest = .ok (b, t') ∧
      c.toContract.validJumpdest dest = .ok b ∧ t'.Ok H codes := by
  have hc := h.contracts c (List.mem_of_getElem? hget)
  obtain ⟨b, c', jumpdests, heq, hplain, hc', hcached⟩ := c.validJumpdest_eq hinj hc h.cached dest
  refine ⟨b, ⟨jumpdests, t.contracts.set i c'⟩, ?_, hplain, hcached, fun d hd => ?_⟩
  · rw [Tree.validJumpdest, index, hget]
    simp only [bind, Except.bind, heq]
    rfl
  · rcases List.mem_or_eq_of_mem_set hd with hmem | rfl
    · exact h.contracts d hmem
    · exact hc'

theorem Reached.ok {t : Tree} (h : Reached H codes t) : t.Ok H codes := by
  induction h with
  | empty => exact ⟨fun h bits hget => by simp at hget, fun c hc => by simp at hc⟩
  | newContract c codeHash _ hcode hlen hhash ih =>
    refine ⟨ih.cached, fun d hd => ?_⟩
    rcases List.mem_append.1 hd with hmem | hnew
    · exact ih.contracts d hmem
    · rw [List.mem_singleton] at hnew
      subst hnew
      exact ⟨hcode, hlen, hhash, by simp⟩
  | @validJumpdest t t' i dest b _ hjump ih =>
    obtain ⟨c, hget, -⟩ := bind_eq_ok hjump
    obtain ⟨b', t'', heq, -, hok⟩ := ih.validJumpdest hinj (index_eq_ok hget) dest
    cases hjump.symm.trans heq
    exact hok

end Tree

/-- **Jump destinations.**  The bit vector of a code is clear where its instructions start,
    and a contract in a tree jumps to those of its instructions that are JUMPDEST. -/
theorem jump_destinations : (∀ code : Bytes, ∃ bits : Bitvec, codeBitmap code = .ok bits ∧
      ∀ p < code.length, ∃ b, bits.codeSegment p = .ok b ∧ (b = true ↔ InstrStart code p)) ∧
    ∀ t : Tree, t.Reached H codes → ∀ i c, t.contracts[i]? = some c → ∀ dest, ∃ b t',
      t.validJumpdest i dest = .ok (b, t') ∧ (b = true ↔
        dest < c.code.length ∧ c.code[dest]? = some 0x5b ∧ InstrStart c.code dest) := by
  refine ⟨codeBitmap_spec, fun t ht i c hget dest => ?_⟩
  have hok := ht.ok hinj
  obtain ⟨b, t', heq, hplain, -⟩ := hok.validJumpdest hinj hget dest
  have hlen := (hok.contracts c (List.mem_of_getElem? hget)).length
  obtain ⟨b', hb', hiff⟩ := c.toContract.validJumpdest_iff hlen dest
  cases hplain.symm.trans hb'
  exact ⟨b, t', heq, hiff⟩

end

/-- PUSH1 with a byte that looks like JUMPDEST, and JUMPDEST. -/
def pushCode : Bytes := [0x60, 0x5b, 0x5b]

/-- Keccak-256 of this code, and the hashes of no code and of empty tries. -/
def pushHashing : Hashing where
  keccak code := if code = pushCode
    then 0xef2b56b362c04c80b70f83c01073fb31a54133d8134532abfa4de9dbeb38a6dc else emptyCodeHash
  storageRoot _ := emptyRoot
  stateRoot _ := emptyRoot

/-- Two contracts with the same code; the first one leaves its analysis to the second. -/
theorem jump_destinations_push : ∃ t t' t'' : Tree, t.Reached pushHashing {pushCode} ∧
    t.jumpdests.keys = [pushHashing.keccak pushCode] ∧
    t.validJumpdest 1 1 = .ok (false, t') ∧ t.validJumpdest 1 2 = .ok (true, t'') := by
  have hfirst : Tree.Reached pushHashing {pushCode} _ :=
    .newContract ⟨1, 2, pushCode, none, [], 0, 0⟩ (pushHashing.keccak pushCode) .empty rfl
      (by decide) (.inr rfl)
  have hsecond := hfirst.newContract ⟨2, 3, pushCode, none, [], 0, 0⟩
    (pushHashing.keccak pushCode) rfl (by decide) (.inr rfl)
  have ht := hsecond.validJumpdest (show Tree.validJumpdest _ 0 2 = .ok (true, _) from rfl)
  have hjump := (jump_destinations (Set.injOn_singleton ..)).2 _ ht 1 _ rfl
  obtain ⟨b, t', heq, hiff⟩ := hjump 1
  obtain ⟨b', t'', heq', hiff'⟩ := hjump 2
  have hb : b = false := by
    rw [← Bool.not_eq_true, hiff]
    rintro ⟨-, -, h⟩
    rcases InstrStart.le_or_next_le ⟨0, rfl⟩ h with h | h <;> revert h <;> decide
  have hb' : b' = true := hiff'.2 ⟨by decide, rfl, 1, rfl⟩
  rw [hb] at heq
  rw [hb'] at heq'
  exact ⟨_, t', t'', ht, rfl, heq, heq'⟩

end GoEthereum.Vm
