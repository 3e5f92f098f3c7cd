/-
  The transactions that come back into the pool when the head changes: those of the old
  branch that are not on the new one.

  `reset` walks both branches back to their common block.  Blocks that are missing on the
  way are noticed, those of the two heads are not.
-/
import Mathlib.Data.Nat.Size
import GoEthereum.Core.Canonical

namespace GoEthereum.TxPool

open GoEthereum.Core BlockTree

/-- What `GetBlock` finds of a tree, whose first block names no block as its parent. -/
structure Blocks (T : BlockTree) where
  getBlock : Word → UInt64 → Option Block
  sound {hash : Word} {number : UInt64} {b : Block} : getBlock hash number = some b →
    T.mem b ∧ b.hash = hash
  root {b : Block} : T.mem b → b.hash ≠ T.genesis.parentHash

/-! ## The program -/

/-- The nearest number with 53 significant bits, or the even one of two. -/
def float64 (n : ℕ) : ℕ :=
  let unit := 2 ^ (n.size - 53)
  let q := n / unit
  let r := n % unit
  (if 2 * r > unit ∨ (2 * r = unit ∧ q % 2 = 1) then q + 1 else q) * unit

/-- `uint64(math.Abs(float64(oldNum) - float64(newNum)))` -/
def depth (oldNum newNum : UInt64) : ℕ :=
  float64 ((float64 oldNum.toNat : ℤ) - float64 newNum.toNat).natAbs

variable {T : BlockTree} (B : Blocks T)

/-- The loops that bring the higher block down to the number of the other one; `none` is the
    return at a missing block. -/
def level (other : Block) : ℕ → Block → List Transaction →
    Except Fault (Option (Block × List Transaction))
  | fuel, block, txs =>
    if block.numberU64 > other.numberU64 then
      match fuel with
      | 0 => .error .outOfFuel
      | fuel + 1 =>
        match B.getBlock block.parentHash (block.numberU64 - 1) with
        | none => .ok none
        | some p => level other fuel p (txs ++ block.transactions)
    else .ok (some (block, txs))

/-- The loop that brings both blocks down to the common one. -/
def descend : ℕ → Block → Block → List Transaction → List Transaction →
    Except Fault (Option (List Transaction × List Transaction))
  | fuel, rem, add, discarded, included =>
    if rem.hash ≠ add.hash then
      match fuel with
      | 0 => .error .outOfFuel
      | fuel + 1 =>
        match B.getBlock rem.parentHash (rem.numberU64 - 1) with
        | none => .ok none
        | some rem' =>
          match B.getBlock add.parentHash (add.numberU64 - 1) with
          | none => .ok none
          | some add' => descend fuel rem' add' (discarded ++ rem.transactions)
              (included ++ add.transactions)
    else .ok (some (discarded, included))

/-- The start of `reset` with two heads: the transactions that are injected again, or `none`
    if it returns at a missing block. -/
def reset (oldHead newHead : Header) : Except Fault (Option (List Transaction)) :=
  if oldHead.hash = newHead.parentHash then .ok (some [])
  else if depth oldHead.numberU64 newHead.numberU64 > 64 then .ok (some [])
  else
    match B.getBlock oldHead.hash oldHead.numberU64, B.getBlock newHead.hash newHead.numberU64 with
    | some rem, some add => do
      let some (rem, discarded) ← level B add oldHead.number rem [] | return none
      let some (add, included) ← level B rem newHead.number add [] | return none
      let some (discarded, included) ← descend B oldHead.number rem add discarded included
        | return none
      return some (txDifference discarded included)
    | _, _ => .error .nilPointer

/-- The block is found. -/
def Blocks.Present (b : Block) : Prop := B.getBlock b.hash b.numberU64 = some b

/-! ## Depth -/

theorem float64_of_lt {n : ℕ} (h : n < 2 ^ 53) : float64 n = n := by
  have hunit : n.size - 53 = 0 := Nat.sub_eq_zero_of_le (Nat.size_le.2 h)
  rw [float64, hunit]
  simp [Nat.mod_one]

theorem depth_eq {a b : UInt64} (ha : a.toNat < 2 ^ 53) (hb : b.toNat < 2 ^ 53) :
    depth a b = ((a.toNat : ℤ) - b.toNat).natAbs := by
  rw [depth, float64_of_lt ha, float64_of_lt hb, float64_of_lt (by omega)]

/-! ## The walks -/

section
variable {B} {b p q block other rem add old new c : Block}
  {txs discarded included : List Transaction} {fuel : ℕ} {l l' : List Block}

theorem getBlock_eq_parent (hp : T.nodes.Parent b p)
    (h : B.getBlock b.parentHash (b.numberU64 - 1) = some q) : q = p :=
  T.hash_inj (B.sound h).1 hp.mem ((B.sound h).2.trans hp.key_eq.symm)

theorem Blocks.Present.getBlock_parent (h : B.Present p) (hp : T.nodes.Parent b p) :
    B.getBlock b.parentHash (b.numberU64 - 1) = some p := by
  have hkey : p.hash = b.parentHash := hp.key_eq
  rw [numberU64_parent hp, ← hkey]
  exact h

theorem number_parent (hp : T.nodes.Parent b p) : b.number = p.number + 1 := hp.height_eq

theorem exists_parent_of_pos (hb : T.mem b) (hpos : 0 < b.number) : ∃ p, T.nodes.Parent b p := by
  refine HashTree.exists_parent (T := T.nodes) hb ?_
  rintro rfl
  exact hpos.ne' T.number_genesis

theorem number_pos_of_ne (hr : T.mem rem) (ha : T.mem add) (heq : rem.number = add.number)
    (hne : rem.hash ≠ add.hash) : 0 < rem.number := by
  rw [Nat.pos_iff_ne_zero]
  intro hzero
  rw [eq_genesis hr hzero, eq_genesis ha (heq ▸ hzero)] at hne
  exact hne rfl

theorem level_stop (hb : T.mem block) (ho : T.mem other) (hle : block.number ≤ other.number) :
    level B other fuel block txs = .ok (some (block, txs)) := by
  have hgt : ¬ block.numberU64 > other.numberU64 := by
    rw [gt_iff_lt, numberU64_lt ho hb]
    omega
  unfold level
  rw [if_neg hgt]

theorem level_succ (hb : T.mem block) (ho : T.mem other) (hgt : other.number < block.number) :
    level B other (fuel + 1) block txs =
      match B.getBlock block.parentHash (block.numberU64 - 1) with
      | none => .ok none
      | some p => level B other fuel p (txs ++ block.transactions) := by
  rw [level, if_pos ((numberU64_lt ho hb).2 hgt)]

theorem level_ok (txs : List Transaction) (hb : T.mem block) (ho : T.mem other)
    (hfuel : block.number ≤ fuel) :
    ∃ r, level B other fuel block txs = .ok r ∧ ∀ b txs, r = some (b, txs) →
      T.mem b ∧ b.number = min block.number other.number := by
  induction fuel generalizing block txs with
  | zero =>
    refine ⟨_, level_stop hb ho (by omega), fun b txs h => ?_⟩
    cases h
    exact ⟨hb, by omega⟩
  | succ fuel ih =>
    by_cases hgt : other.number < block.number
    · obtain ⟨p, hp⟩ := exists_parent_of_pos hb (by omega)
      have hnumber := number_parent hp
      rw [level_succ hb ho hgt]
      rcases hget : B.getBlock block.parentHash (block.numberU64 - 1) with _ | q
      · exact ⟨none, rfl, fun b txs h => by cases h⟩
      · cases getBlock_eq_parent hp hget
        obtain ⟨r, hr, hspec⟩ := ih (txs ++ block.transactions) hp.mem (by omega)
        refine ⟨r, hr, fun b txs h => ⟨(hspec b txs h).1, ?_⟩⟩
        rw [(hspec b txs h).2]
        omega
    · refine ⟨_, level_stop hb ho (by omega), fun b txs h => ?_⟩
      cases h
      exact ⟨hb, by omega⟩

theorem descend_stop (heq : rem.hash = add.hash) :
    descend B fuel rem add discarded included = .ok (some (discarded, included)) := by
  unfold descend
  rw [if_neg (not_not.2 heq)]

theorem descend_ok (discarded included : List Transaction) (hr : T.mem rem) (ha : T.mem add)
    (heq : rem.number = add.number) (hfuel : rem.number ≤ fuel) :
    ∃ r, descend B fuel rem add discarded included = .ok r := by
  induction fuel generalizing rem add discarded included with
  | zero =>
    refine ⟨_, descend_stop ?_⟩
    by_contra hne
    have := number_pos_of_ne hr ha heq hne
    omega
  | succ fuel ih =>
    rw [descend]
    split_ifs with hne
    · have hpos := number_pos_of_ne hr ha heq hne
      obtain ⟨p, hp⟩ := exists_parent_of_pos hr hpos
      obtain ⟨q, hq⟩ := exists_parent_of_pos ha (heq ▸ hpos)
      have hpnumber := number_parent hp
      have hqnumber := number_parent hq
      rcases hgetp : B.getBlock rem.parentHash (rem.numberU64 - 1) with _ | p'
      · exact ⟨_, rfl⟩
      rcases hgetq : B.getBlock add.parentHash (add.numberU64 - 1) with _ | q'
      · exact ⟨_, rfl⟩
      cases getBlock_eq_parent hp hgetp
      cases getBlock_eq_parent hq hgetq
      exact ih _ _ hp.mem hq.mem (by omega) (by omega)
    · exact ⟨_, rfl⟩

/-! ## The blocks of the two branches -/

theorem present_of_path (hpath : T.nodes.Path b l c) (hpresent : ∀ d, d ∈ l ∨ d = c → B.Present d) :
    B.Present b := by
  cases hpath with
  | nil => exact hpresent _ (.inr rfl)
  | cons => exact hpresent _ (.inl (.head _))

/-- A walk down to the number of another block takes the part of the branch above it. -/
theorem level_path (txs : List Transaction) (hpath : T.nodes.Path block l c) (hb : T.mem block)
    (ho : T.mem other)
    (hpresent : ∀ d, d ∈ l ∨ d = c → B.Present d) (hle : c.number ≤ other.number)
    (hfuel : block.number ≤ fuel) : ∃ b l₀ l₁, l = l₀ ++ l₁ ∧ T.nodes.Path b l₁ c ∧ T.mem b ∧
      b.number = min block.number other.number ∧
      level B other fuel block txs = .ok (some (b, txs ++ l₀.flatMap Block.transactions)) := by
  induction hpath generalizing fuel txs with
  | nil =>
    refine ⟨_, [], [], rfl, .nil, hb, by omega, ?_⟩
    rw [level_stop hb ho hle, List.flatMap_nil, List.append_nil]
  | @cons b p c l hp hpath ih =>
    by_cases hgt : other.number < b.number
    · have hnumber := number_parent hp
      have hpp : B.Present p := present_of_path hpath fun d hd => hpresent d (hd.imp (.tail _) id)
      obtain ⟨fuel, rfl⟩ := Nat.exists_eq_succ_of_ne_zero (n := fuel) (by omega)
      obtain ⟨b', l₀, l₁, rfl, hpath', hb', hnumber', heq⟩ :=
        ih (txs ++ b.transactions) hp.mem
          (fun d hd => hpresent d (hd.imp (.tail _) id)) hle (show p.number ≤ fuel by omega)
      refine ⟨b', b :: l₀, l₁, rfl, hpath', hb', by omega, ?_⟩
      rw [level_succ hb ho hgt, hpp.getBlock_parent hp]
      dsimp only
      rw [heq, List.flatMap_cons, List.append_assoc]
    · refine ⟨b, [], b :: l, rfl, .cons hp hpath, hb, by omega, ?_⟩
      rw [level_stop hb ho (by omega), List.flatMap_nil, List.append_nil]

/-- Two branches of one length that meet are walked to their end. -/
theorem descend_path (hrem : T.nodes.Path rem l c) (hadd : T.nodes.Path add l' c)
    (heq : rem.number = add.number) (hdisjoint : ∀ d ∈ l, d ∉ l')
    (hpresent : ∀ d, d ∈ l ∨ d = c → B.Present d) (hpresent' : ∀ d, d ∈ l' ∨ d = c → B.Present d)
    (hfuel : rem.number ≤ fuel) : descend B fuel rem add discarded included =
      .ok (some (discarded ++ l.flatMap Block.transactions,
        included ++ l'.flatMap Block.transactions)) := by
  induction hrem generalizing add l' fuel discarded included with
  | nil =>
    cases hadd with
    | nil => simp [descend_stop]
    | cons hp hadd =>
      have hlt := (hadd.cons hp).height_lt (.head _)
      exact absurd heq hlt.ne
  | @cons b p c l hp hpath ih =>
    cases hadd with
    | nil =>
      have hlt := (hpath.cons hp).height_lt (.head _)
      exact absurd heq hlt.ne'
    | @cons _ q _ l' hq hadd =>
      have hpnumber := number_parent hp
      have hqnumber := number_parent hq
      have hne : b.hash ≠ add.hash := fun h => by
        cases T.hash_inj hp.child_mem hq.child_mem h
        exact hdisjoint _ (.head _) (.head _)
      have hpp : B.Present p := present_of_path hpath fun d hd => hpresent d (hd.imp (.tail _) id)
      have hqp : B.Present q := present_of_path hadd fun d hd => hpresent' d (hd.imp (.tail _) id)
      obtain ⟨fuel, rfl⟩ := Nat.exists_eq_succ_of_ne_zero (n := fuel) (by omega)
      rw [descend, if_pos hne, hpp.getBlock_parent hp, hqp.getBlock_parent hq]
      dsimp only
      rw [ih hadd (by omega) (fun d hd hd' => hdisjoint d (.tail _ hd) (.tail _ hd'))
        (fun d hd => hpresent d (hd.imp (.tail _) id))
        (fun d hd => hpresent' d (hd.imp (.tail _) id)) (by omega)]
      simp only [List.flatMap_cons, List.append_assoc]

/-! ## Re-injection -/

/-- All blocks from the two heads down to their common ancestor `c` are there. -/
structure Branches (B : Blocks T) (old new : Block) (l l' : List Block) (c : Block) : Prop where
  old_path : T.nodes.Path old l c
  new_path : T.nodes.Path new l' c
  disjoint : ∀ d ∈ l, d ∉ l'
  present : ∀ d, d ∈ l ∨ d = c → B.Present d
  present' : ∀ d, d ∈ l' ∨ d = c → B.Present d

/-- The transaction is in a block of the old branch and in none of the new one. -/
def Discarded (l l' : List Block) (tx : Transaction) : Prop :=
  (∃ d ∈ l, tx ∈ d.transactions) ∧ ∀ d ∈ l', tx.hash ∉ d.transactions.map Transaction.hash

/-- The transactions injected again are the discarded ones, if the branches are there; `reset`
    returns in any case. -/
def Reinjects (B : Blocks T) (old new : Block) : Prop :=
  (∃ r, reset B old.header new.header = .ok r) ∧
    ∀ {l l' c}, Branches B old new l l' c →
      ∃ txs, reset B old.header new.header = .ok (some txs) ∧ ∀ tx, tx ∈ txs ↔ Discarded l l' tx

theorem mem_txDifference_flatMap {tx : Transaction} :
    tx ∈ txDifference (l.flatMap Block.transactions) (l'.flatMap Block.transactions) ↔
      Discarded l l' tx := by
  simp only [txDifference, List.mem_filter, List.mem_flatMap, decide_eq_true_eq, Discarded,
    List.mem_map, not_exists, not_and]
  refine and_congr_right fun _ => ⟨fun h d hd tx' htx' => h tx' ⟨d, hd, htx'⟩, ?_⟩
  rintro h tx' ⟨d, hd, htx'⟩
  exact h d hd tx' htx'

theorem Branches.eq_nil (h : Branches B old new l l' c) (hp : T.nodes.Parent new old) : l = [] := by
  obtain ⟨hold, hnew, hdisjoint, -, -⟩ := h
  cases hold with
  | nil => rfl
  | @cons _ p _ l hp' hold =>
    exfalso
    have hlt := (hold.cons hp').height_lt (.head _)
    cases hnew with
    | nil =>
      have := hp.height_eq
      omega
    | cons hq hnew =>
      cases hp.unique hq
      cases hnew with
      | nil => exact absurd rfl hlt.ne
      | cons => exact hdisjoint _ (.head _) (.tail _ (.head _))

theorem Blocks.parent_of_hash_eq (B : Blocks T) (hold : T.mem old) (hnew : T.mem new)
    (heq : old.hash = new.parentHash) : T.nodes.Parent new old := by
  refine ⟨hnew, ?_, hold, heq⟩
  rintro rfl
  exact B.root hold heq

theorem reset_of_parent (heq : old.hash = new.parentHash) :
    reset B old.header new.header = .ok (some []) :=
  if_pos heq

theorem reset_of_deep (hdepth : 64 < depth old.numberU64 new.numberU64) :
    reset B old.header new.header = .ok (some []) :=
  (ite_eq_left_iff.2 fun _ => if_pos hdepth)

theorem present_of_getBlock (hb : T.mem b) (h : B.getBlock b.hash b.numberU64 = some q) :
    B.Present b := by
  rw [T.hash_inj (B.sound h).1 hb (B.sound h).2] at h
  exact h

section
variable (hne : old.hash ≠ new.parentHash) (hdepth : depth old.numberU64 new.numberU64 ≤ 64)
include hne hdepth

theorem reset_of_near : reset B old.header new.header =
      match B.getBlock old.hash old.numberU64, B.getBlock new.hash new.numberU64 with
      | some rem, some add => do
        let some (rem, discarded) ← level B add old.number rem [] | return none
        let some (add, included) ← level B rem new.number add [] | return none
        let some (discarded, included) ← descend B old.number rem add discarded included
          | return none
        return some (txDifference discarded included)
      | _, _ => .error .nilPointer :=
  (if_neg hne).trans (if_neg (not_lt.2 hdepth))

variable (hold : T.mem old) (hnew : T.mem new)
include hold hnew

theorem reset_panics (h : ¬ (B.Present old ∧ B.Present new)) :
    reset B old.header new.header = .error .nilPointer := by
  rw [reset_of_near hne hdepth]
  rcases hgetold : B.getBlock old.hash old.numberU64 with _ | rem
  · rfl
  rcases hgetnew : B.getBlock new.hash new.numberU64 with _ | add
  · rfl
  exact absurd ⟨present_of_getBlock hold hgetold, present_of_getBlock hnew hgetnew⟩ h

theorem reset_walk_ok (hold' : B.Present old) (hnew' : B.Present new) :
    ∃ r, reset B old.header new.header = .ok r := by
  rw [Blocks.Present] at hold' hnew'
  rw [reset_of_near hne hdepth, hold', hnew']
  dsimp only
  obtain ⟨r, hlevel, hr⟩ := level_ok (B := B) [] hold hnew le_rfl
  rw [hlevel]
  rcases r with _ | ⟨rem, discarded⟩
  · exact ⟨_, rfl⟩
  obtain ⟨hrem, hremnumber⟩ := hr _ _ rfl
  obtain ⟨r, hlevel, hr⟩ := level_ok (B := B) [] hnew hrem le_rfl
  simp only [Outcome.ok_bind, hlevel]
  rcases r with _ | ⟨add, included⟩
  · exact ⟨_, rfl⟩
  obtain ⟨hadd, haddnumber⟩ := hr _ _ rfl
  obtain ⟨r, hdescend⟩ := descend_ok (B := B) discarded included hrem hadd (by omega)
    (show rem.number ≤ old.number by omega)
  simp only [Outcome.ok_bind, hdescend]
  rcases r with _ | r
  · exact ⟨_, rfl⟩
  · exact ⟨_, rfl⟩

theorem Branches.reset_eq (h : Branches B old new l l' c) : reset B old.header new.header =
      .ok (some (txDifference (l.flatMap Block.transactions) (l'.flatMap Block.transactions))) := by
  have hold' := present_of_path h.old_path h.present
  have hnew' := present_of_path h.new_path h.present'
  rw [Blocks.Present] at hold' hnew'
  rw [reset_of_near hne hdepth, hold', hnew']
  dsimp only
  obtain ⟨rem, l₀, l₁, rfl, hrem, hremmem, hremnumber, hlevel⟩ :=
    level_path [] h.old_path hold hnew h.present h.new_path.anc.height_le le_rfl
  rw [hlevel]
  obtain ⟨add, l₂, l₃, rfl, hadd, -, haddnumber, hlevel⟩ :=
    level_path [] h.new_path hnew hremmem h.present' hrem.anc.height_le le_rfl
  simp only [Outcome.ok_bind, hlevel]
  rw [descend_path hrem hadd (by omega)
    (fun d hd hd' => h.disjoint d (List.mem_append_right _ hd) (List.mem_append_right _ hd'))
    (fun d hd => h.present d (hd.imp (List.mem_append_right _) id))
    (fun d hd => h.present' d (hd.imp (List.mem_append_right _) id)) (by omega)]
  simp only [Outcome.ok_bind, List.nil_append, List.flatMap_append]
  rfl

end

theorem large_of_deep (hold : T.mem old) (hnew : T.mem new)
    (hnear : ((old.number : ℤ) - new.number).natAbs ≤ 64)
    (hdeep : 64 < depth old.numberU64 new.numberU64) : 2 ^ 53 ≤ max old.number new.number := by
  by_contra hlt
  have hmax : old.number < 2 ^ 53 ∧ new.number < 2 ^ 53 := max_lt_iff.1 (not_le.1 hlt)
  rw [depth_eq (by rw [toNat_numberU64 hold]; exact hmax.1)
    (by rw [toNat_numberU64 hnew]; exact hmax.2), toNat_numberU64 hold,
    toNat_numberU64 hnew] at hdeep
  omega

/-- **Which transactions come back**: `reset` with heads that are at most 64 heights apart
    injects the discarded transactions again if and only if the old head is the parent of the
    new one, or both heads are found, or the distance of numbers from `2 ^ 53` on is rounded up
    and nothing was discarded. -/
theorem reset_reinjects (hold : T.mem old) (hnew : T.mem new)
    (hnear : ((old.number : ℤ) - new.number).natAbs ≤ 64) :
    Reinjects B old new ↔ T.nodes.Parent new old ∨
      (depth old.numberU64 new.numberU64 ≤ 64 ∧ B.Present old ∧ B.Present new) ∨
      (2 ^ 53 ≤ max old.number new.number ∧ 64 < depth old.numberU64 new.numberU64 ∧
        ∀ {l l' c}, Branches B old new l l' c → ∀ tx, ¬ Discarded l l' tx) := by
  by_cases heq : old.hash = new.parentHash
  · have hp : T.nodes.Parent new old := B.parent_of_hash_eq hold hnew heq
    refine iff_of_true ⟨⟨_, reset_of_parent heq⟩, fun {l l' c} h => ?_⟩ (.inl hp)
    refine ⟨_, reset_of_parent heq, fun tx => ?_⟩
    rw [h.eq_nil hp]
    simp [Discarded]
  have hparent : ¬ T.nodes.Parent new old := fun hp => heq hp.key_eq
  by_cases hdepth : depth old.numberU64 new.numberU64 ≤ 64
  · have hdeep : ¬ 64 < depth old.numberU64 new.numberU64 := not_lt.2 hdepth
    simp only [hparent, hdepth, hdeep, true_and, false_and, and_false, false_or, or_false]
    constructor
    · rintro ⟨⟨r, hr⟩, -⟩
      by_contra h
      rw [reset_panics heq hdepth hold hnew h] at hr
      cases hr
    · rintro ⟨hold', hnew'⟩
      refine ⟨reset_walk_ok heq hdepth hold hnew hold' hnew', fun h => ?_⟩
      exact ⟨_, h.reset_eq heq hdepth hold hnew, fun tx => mem_txDifference_flatMap⟩
  · have hdeep : 64 < depth old.numberU64 new.numberU64 := not_le.1 hdepth
    have hlarge := large_of_deep hold hnew hnear hdeep
    simp only [hparent, hdepth, hdeep, hlarge, true_and, false_and, false_or]
    constructor
    · rintro ⟨-, h⟩ l l' c hbranches tx htx
      obtain ⟨txs, htxs, hmem⟩ := h hbranches
      rw [reset_of_deep hdeep] at htxs
      cases htxs
      cases (hmem tx).2 htx
    · intro h
      refine ⟨⟨_, reset_of_deep hdeep⟩, fun hbranches => ?_⟩
      exact ⟨_, reset_of_deep hdeep, fun tx =>
        iff_of_false List.not_mem_nil (h hbranches tx)⟩

end

/-- The blocks of the fork that are found. -/
def forkFound (found : List Block) (h : ∀ b ∈ found, b ∈ forkBlocks) : Blocks forkTree where
  getBlock hash number := found.find? fun b => b.hash = hash ∧ b.numberU64 = number
  sound {hash number b} hfind := by
    refine ⟨h b (List.mem_of_find?_eq_some hfind), ?_⟩
    have := List.find?_some hfind
    simp only [decide_eq_true_eq] at this
    exact this.1
  root hb := forkTree.hash_ne_zero hb

theorem reset_reinjects_fork :
    Reinjects (forkFound forkBlocks fun _ h => h) (bareBlock 3 2 2 1) (bareBlock 4 1 1 5) :=
  (reset_reinjects (T := forkTree) (by change _ ∈ forkBlocks; decide)
    (by change _ ∈ forkBlocks; decide) (by decide)).2 (.inr (.inl ⟨by decide, rfl, rfl⟩))

/-- The block of the old head is missing. -/
theorem reset_missing : ∃ (T : BlockTree) (B : Blocks T) (old new : Block),
    T.mem old ∧ T.mem new ∧ ((old.number : ℤ) - new.number).natAbs ≤ 64 ∧
      reset B old.header new.header = .error .nilPointer := by
  refine ⟨forkTree, forkFound [bareBlock 1 0 0 1, bareBlock 2 1 1 1, bareBlock 4 1 1 5] (by decide),
    bareBlock 3 2 2 1, bareBlock 4 1 1 5, ?_, ?_, by decide, rfl⟩
  · change _ ∈ forkBlocks
    decide
  · change _ ∈ forkBlocks
    decide

end GoEthereum.TxPool
