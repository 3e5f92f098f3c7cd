/-
  Uncles are rewarded once (`uncles_once`).

  The engine looks at seven generations.  An uncle of a block is a child of one of its
  ancestors but not of its parent, so its number is one of the six before the block
  (`UncleOk`), and any block of the chain that includes it again is near enough to see it.
-/
import GoEthereum.Core.Tree
import GoEthereum.Ethash.Headers

namespace GoEthereum.Ethash

open GoEthereum.Core AssocMap Outcome

/-! ## Headers of a tree -/

/-- A tree of blocks and the headers of their uncles: the hash of a header determines it, and no
    block includes a header that names the block itself as its parent. -/
structure UncleTree extends BlockTree where
  header_inj : ∀ {a b : Block} {x y : Header}, mem a → mem b → x ∈ a.header :: a.uncles →
    y ∈ b.header :: b.uncles → x.hash = y.hash → x = y
  acyclic : ∀ {b : Block} {u : Header}, mem b → u ∈ b.uncles → u.parentHash ≠ b.hash

/-- The reader has the ancestors of the block, and only blocks of the tree. -/
structure Reads (T : BlockTree) (getBlock : Word → UInt64 → Option Block) (head : Block) : Prop where
  mem : T.mem head
  available : ∀ {b}, T.nodes.Anc head b → getBlock b.hash b.numberU64 = some b
  sound : ∀ {hash number b}, getBlock hash number = some b → T.mem b ∧ b.hash = hash ∧
    b.numberU64 = number

variable {T : BlockTree} {getBlock : Word → UInt64 → Option Block} {head b p : Block}

theorem Reads.of_anc (h : Reads T getBlock head) (hb : T.nodes.Anc head b) : Reads T getBlock b :=
  ⟨hb.mem h.mem, fun ha => h.available (hb.trans ha), h.sound⟩

theorem Reads.genesis (h : Reads T getBlock head) (hash : Word) :
    getBlock hash (T.genesis.numberU64 - 1) = none := by
  rw [Option.eq_none_iff_forall_ne_some]
  intro b hb
  obtain ⟨hmem, -, hnumber⟩ := h.sound hb
  have hlt := T.number_lt hmem
  have hzero : T.genesis.numberU64 = 0 := by
    rw [Block.numberU64, Header.numberU64]
    exact congrArg UInt64.ofNat T.number_genesis
  have hnat := congrArg UInt64.toNat hnumber
  rw [BlockTree.toNat_numberU64 hmem, hzero] at hnat
  change b.number = 2 ^ 64 - 1 at hnat
  omega

/-! ## Seven generations -/

/-- A block is added to what was seen. -/
def see (seen : AssocMap Word Header × List Word) (a : Block) : AssocMap Word Header × List Word :=
  (seen.1.set a.hash a.header, a.uncles.map Header.hash ++ seen.2)

theorem collect_eq (n : ℕ) (h : Reads T getBlock p) (seen : AssocMap Word Header × List Word) :
    ∃ l : List Block, (∀ a, a ∈ l ↔ T.nodes.Anc p a ∧ p.number < a.number + n) ∧
      Engine.collect getBlock n p.hash p.numberU64 seen = l.foldl see seen := by
  induction n generalizing p seen with
  | zero =>
    refine ⟨[], fun a => ⟨nofun, fun ⟨ha, hlt⟩ => ?_⟩, rfl⟩
    exact absurd ha.height_le hlt.not_ge
  | succ n ih =>
    have hstep : Engine.collect getBlock (n + 1) p.hash p.numberU64 seen =
        Engine.collect getBlock n p.parentHash (p.numberU64 - 1) (see seen p) := by
      rw [Engine.collect, h.available (.refl p)]
      rfl
    rw [hstep]
    by_cases hp : p = T.genesis
    · refine ⟨[p], fun a => ?_, ?_⟩
      · rw [List.mem_singleton]
        constructor
        · rintro rfl
          exact ⟨.refl a, by omega⟩
        · rintro ⟨ha, -⟩
          rw [hp] at ha ⊢
          exact BlockTree.eq_genesis_of_anc ha
      · cases n with
        | zero => rfl
        | succ n =>
          rw [Engine.collect, hp, h.genesis]
          rfl
    · obtain ⟨q, hq⟩ := HashTree.exists_parent (T := T.nodes) h.mem hp
      have hkey : p.parentHash = q.hash := hq.key_eq.symm
      have hheight : p.number = q.number + 1 := hq.height_eq
      obtain ⟨l, hl, heq⟩ := ih (h.of_anc (.of_parent hq)) (see seen p)
      rw [hkey, BlockTree.numberU64_parent hq, heq]
      refine ⟨p :: l, fun a => ?_, rfl⟩
      rw [List.mem_cons, hl]
      constructor
      · rintro (rfl | ⟨ha, hlt⟩)
        · exact ⟨.refl a, by omega⟩
        · exact ⟨(HashTree.Anc.of_parent hq).trans ha, by omega⟩
      · rintro ⟨ha, hlt⟩
        rcases ha.cases_parent hq with rfl | ha
        · exact .inl rfl
        · exact .inr ⟨ha, by omega⟩

variable {l : List Block} {seen : AssocMap Word Header × List Word} {hash : Word} {x : Header}

theorem mem_foldl_see : hash ∈ (l.foldl see seen).2 ↔
    hash ∈ seen.2 ∨ ∃ a ∈ l, ∃ u ∈ a.uncles, u.hash = hash := by
  induction l generalizing seen with
  | nil => simp
  | cons a l ih =>
    rw [List.foldl_cons, ih]
    simp only [see, List.mem_append, List.mem_map, List.mem_cons, exists_eq_or_imp]
    rw [or_comm (a := ∃ u ∈ a.uncles, _), or_assoc]

theorem get_foldl_see (h : (l.foldl see seen).1.get hash = some x) :
    seen.1.get hash = some x ∨ ∃ a ∈ l, a.hash = hash ∧ a.header = x := by
  induction l generalizing seen with
  | nil => exact .inl h
  | cons a l ih =>
    rcases ih h with h | ⟨b, hb, heq⟩
    · rcases get_set_some h with ⟨rfl, rfl⟩ | ⟨-, h⟩
      · exact .inr ⟨a, .head _, rfl, rfl⟩
      · exact .inl h
    · exact .inr ⟨b, .tail _ hb, heq⟩

theorem isSome_foldl_see (h : (seen.1.get hash).isSome ∨ ∃ a ∈ l, a.hash = hash) :
    ((l.foldl see seen).1.get hash).isSome := by
  induction l generalizing seen with
  | nil => exact h.resolve_right nofun
  | cons a l ih =>
    apply ih
    rw [see, get_set]
    split_ifs with hhash
    · exact .inl rfl
    · rcases h with h | ⟨b, hb, hbhash⟩
      · exact .inl h
      · rcases List.mem_cons.1 hb with rfl | hb
        · exact absurd hbhash.symm hhash
        · exact .inr ⟨b, hb, hbhash⟩

/-! ## The checks of an uncle -/

variable {e : Engine} {u : Header}

/-- What the check of one uncle has found. -/
structure Checked (b : Block) (ancestors : AssocMap Word Header) (uncles : List Word) (u : Header) :
    Prop where
  fresh : u.hash ∉ uncles
  notAncestor : ancestors.get u.hash = none
  parent : ∃ x, ancestors.get u.parentHash = some x ∧ u.number = x.number + 1
  notParent : u.parentHash ≠ b.parentHash

theorem verifyUncle_ok {ancestors : AssocMap Word Header} {uncles uncles' : List Word}
    (h : e.verifyUncle b ancestors uncles u = .ok uncles') :
    Checked b ancestors uncles u ∧ uncles' = u.hash :: uncles := by
  rw [Engine.verifyUncle] at h
  rcases hparent : ancestors.get u.parentHash with _ | x
  · rw [hparent] at h
    split_ifs at h
  · rw [hparent] at h
    split_ifs at h with hfresh hanc hne
    have hanc := Option.not_isSome_iff_eq_none.1 hanc
    obtain ⟨_, hverify, h⟩ := bind_eq_ok h
    cases h
    exact ⟨⟨hfresh, hanc, ⟨x, hparent, (verifyHeader_eq_ok.1 hverify).2.2.2.2.1⟩, hne⟩, rfl⟩

theorem foldlM_ok {ancestors : AssocMap Word Header} {us : List Header} {uncles uncles' : List Word}
    (h : us.foldlM (e.verifyUncle b ancestors) uncles = .ok uncles') :
    (∀ u ∈ us, Checked b ancestors uncles u) ∧ (us.map Header.hash).Nodup := by
  induction us generalizing uncles with
  | nil => exact ⟨nofun, .nil⟩
  | cons v us ih =>
    rw [List.foldlM_cons] at h
    obtain ⟨next, hv, h⟩ := bind_eq_ok h
    obtain ⟨hchecked, rfl⟩ := verifyUncle_ok hv
    obtain ⟨hrest, hnodup⟩ := ih h
    refine ⟨fun u hu => ?_, List.nodup_cons.2 ⟨fun hmem => ?_, hnodup⟩⟩
    · rcases List.mem_cons.1 hu with rfl | hu
      · exact hchecked
      · obtain ⟨hfresh, hanc, hparent, hne⟩ := hrest u hu
        exact ⟨fun hmem => hfresh (.tail _ hmem), hanc, hparent, hne⟩
    · obtain ⟨u, hu, heq⟩ := List.mem_map.1 hmem
      exact (hrest u hu).fresh (heq ▸ .head _)

/-- An uncle of a block of the chain. -/
structure UncleOk (T : BlockTree) (b : Block) (u : Header) : Prop where
  low : b.number ≤ u.number + 6
  high : u.number < b.number
  parent : ∃ p, T.nodes.Anc b p ∧ p ≠ b ∧ p.hash = u.parentHash
  notSeen : ∀ {a}, T.nodes.Anc b a → a ≠ b → b.number ≤ a.number + 7 → a.hash ≠ u.hash ∧
    ∀ v ∈ a.uncles, v.hash ≠ u.hash
  notSelf : u.hash ≠ b.hash

variable {U : UncleTree}

theorem verifyUncles_ok (hmode : e.powMode ≠ .fullFake)
    (hpass : e.verifyUncles getBlock b = .ok ()) : ∃ uncles', b.uncles.foldlM (e.verifyUncle b
      ((Engine.collect getBlock 7 b.parentHash (b.numberU64 - 1) (.empty, [])).1.set b.hash b.header))
      (b.hash :: (Engine.collect getBlock 7 b.parentHash (b.numberU64 - 1) (.empty, [])).2) =
        .ok uncles' := by
  rw [Engine.verifyUncles, if_neg hmode] at hpass
  split_ifs at hpass
  obtain ⟨uncles', hfold, -⟩ := bind_eq_ok hpass
  exact ⟨uncles', hfold⟩

theorem uncleOk (hmode : e.powMode ≠ .fullFake) (h : Reads U.toBlockTree getBlock b)
    (hpass : e.verifyUncles getBlock b = .ok ()) (hu : u ∈ b.uncles) :
    UncleOk U.toBlockTree b u := by
  have hb : b ≠ U.genesis := by
    rintro rfl
    rw [Block.uncles, U.body_genesis] at hu
    cases hu
  obtain ⟨p, hp⟩ := HashTree.exists_parent (T := U.nodes) h.mem hb
  have hkey : b.parentHash = p.hash := hp.key_eq.symm
  have hheight : b.number = p.number + 1 := hp.height_eq
  obtain ⟨l, hl, hcollect⟩ := collect_eq 7 (h.of_anc (.of_parent hp)) (.empty, [])
  obtain ⟨uncles', hfold⟩ := verifyUncles_ok hmode hpass
  rw [hkey, BlockTree.numberU64_parent hp, hcollect] at hfold
  obtain ⟨hfresh, hanc, ⟨x, hx, hnumber⟩, hne⟩ := (foldlM_ok hfold).1 u hu
  rw [List.mem_cons, not_or] at hfresh
  -- the parent of the uncle is a block that was seen, and neither the block nor its parent
  rw [get_set, if_neg (U.acyclic h.mem hu)] at hx
  rcases get_foldl_see hx with hx | ⟨a, ha, hhash, rfl⟩
  · cases hx
  obtain ⟨hanca, hlt⟩ := (hl a).1 ha
  have hle : a.number ≤ p.number := hanca.height_le
  have hap : a ≠ p := by
    rintro rfl
    exact hne (hhash.symm.trans hkey.symm)
  have hlow : a.number < p.number := by
    refine lt_of_le_of_ne hle fun heq => hap ?_
    exact hanca.eq_of_height_le (Nat.le_of_eq heq.symm)
  have hnum : u.number = a.number + 1 := hnumber
  refine ⟨by omega, by omega, ⟨a, (HashTree.Anc.of_parent hp).trans hanca, ?_, hhash⟩, ?_, hfresh.1⟩
  · rintro rfl
    omega
  · intro c hc hcb hnear
    have hpc : U.nodes.Anc p c := (hc.cases_parent hp).resolve_left hcb
    have hmem : c ∈ l := (hl c).2 ⟨hpc, by omega⟩
    constructor
    · intro heq
      rw [get_set, if_neg hfresh.1] at hanc
      have hsome := @isSome_foldl_see l (.empty, []) u.hash (.inr ⟨c, hmem, heq⟩)
      rw [hanc] at hsome
      cases hsome
    · intro v hv heq
      exact hfresh.2 (mem_foldl_see.2 (.inr ⟨c, hmem, v, hv, heq⟩))

/-! ## Rewards -/

theorem uncleReward_bounds (config : ChainConfig) {header : Header}
    (hlow : header.number ≤ u.number + 6) (hhigh : u.number < header.number) :
    2 * blockReward config header.number ≤ 8 * uncleReward config header u ∧
      8 * uncleReward config header u ≤ 7 * blockReward config header.number ∧
      0 < uncleReward config header u := by
  have hreward : blockReward config header.number = 5 * 10 ^ 18 ∨
      blockReward config header.number = 3 * 10 ^ 18 ∨
      blockReward config header.number = 2 * 10 ^ 18 := by
    rw [blockReward]
    split_ifs
    · exact .inr (.inr rfl)
    · exact .inr (.inl rfl)
    · exact .inl rfl
  rw [uncleReward]
  obtain ⟨k, hk⟩ : ∃ k : ℤ, (u.number + 8 - header.number : ℤ) = k := ⟨_, rfl⟩
  have hk2 : 2 ≤ k := by omega
  have hk7 : k ≤ 7 := by omega
  rw [hk]
  rcases hreward with hreward | hreward | hreward
  · rw [hreward]
    omega
  · rw [hreward]
    omega
  · rw [hreward]
    omega

theorem rewards_get (config : ChainConfig) (header : Header) {uncles : List Header} {k : ℕ}
    (hk : uncles[k]? = some u) : (rewards config header uncles)[k]? =
      some (u.coinbase, uncleReward config header u) := by
  have hlt := (List.getElem?_eq_some_iff.1 hk).1
  rw [rewards, List.getElem?_append_left (by rw [List.length_map]; exact hlt), List.getElem?_map, hk]
  rfl

/-- **Uncles are rewarded once.**  In a chain whose blocks all pass `VerifyUncles`, no hash of an
    uncle is in two blocks or twice in one, no uncle is an ancestor of its block, its number is one
    of the six before the block, its parent is an ancestor of the block, and its reward is between
    2/8 and 7/8 of the reward of the block. -/
theorem uncles_once (U : UncleTree) (e : Engine) (hmode : e.powMode ≠ .fullFake)
    (getBlock : Word → UInt64 → Option Block) (head : Block)
    (h : Reads U.toBlockTree getBlock head)
    (hpass : ∀ b, U.nodes.Anc head b → e.verifyUncles getBlock b = .ok ()) :
    (∀ a b (u v : Header), U.nodes.Anc head a → U.nodes.Anc head b → u ∈ a.uncles → v ∈ b.uncles →
      u.hash = v.hash → a = b) ∧
    (∀ b, U.nodes.Anc head b → (b.uncles.map Header.hash).Nodup) ∧
    ∀ (b : Block) (k : ℕ) (u : Header), U.nodes.Anc head b → b.uncles[k]? = some u →
      (∀ a, U.nodes.Anc b a → a.hash ≠ u.hash) ∧ b.number ≤ u.number + 6 ∧ u.number < b.number ∧
      (∃ p, U.nodes.Anc b p ∧ p ≠ b ∧ p.hash = u.parentHash) ∧
      ∃ reward, (rewards e.config b.header b.uncles)[k]? = some (u.coinbase, reward) ∧
        2 * blockReward e.config b.number ≤ 8 * reward ∧
        8 * reward ≤ 7 * blockReward e.config b.number ∧ 0 < reward := by
  have hok : ∀ {b : Block} {u : Header}, U.nodes.Anc head b → u ∈ b.uncles →
      UncleOk U.toBlockTree b u :=
    fun hb hu => uncleOk hmode (h.of_anc hb) (hpass _ hb) hu
  -- of two blocks with the same uncle, the later one sees the earlier one
  have honce : ∀ {a b : Block} {u v : Header}, U.nodes.Anc head b → U.nodes.Anc b a →
      u ∈ a.uncles → v ∈ b.uncles →
      u.hash = v.hash → a = b := by
    intro a b u v hb hab hu hv hhash
    by_contra hne
    have ha := hb.trans hab
    have huv : u = v := U.header_inj (ha.mem h.mem) (hb.mem h.mem) (.tail _ hu) (.tail _ hv) hhash
    have huok := hok ha hu
    have hvok := hok hb hv
    have hhigh := huok.high
    have hlow := hvok.low
    rw [← huv] at hlow
    exact (hvok.notSeen hab hne (by omega)).2 u hu hhash
  refine ⟨fun a b u v ha hb hu hv hhash => ?_, fun b hb => ?_, fun b k u hb hk => ?_⟩
  · rcases ha.total hb with hab | hba
    · exact (honce ha hab hv hu hhash.symm).symm
    · exact honce hb hba hu hv hhash
  · obtain ⟨_, hfold⟩ := verifyUncles_ok hmode (hpass b hb)
    exact (foldlM_ok hfold).2
  · have hu : u ∈ b.uncles := List.mem_of_getElem? hk
    have huok := hok hb hu
    refine ⟨fun a hab hhash => ?_, huok.low, huok.high, huok.parent, _, rewards_get _ _ hk,
      uncleReward_bounds e.config huok.low huok.high⟩
    have hmem := hb.mem h.mem
    have hau : a.header = u := U.header_inj (hab.mem hmem) hmem (.head _) (.tail _ hu) hhash
    have hnumber : a.number = u.number := congrArg Header.number hau
    have hlow := huok.low
    by_cases hne : a = b
    · rw [hne] at hhash
      exact huok.notSelf hhash.symm
    · exact (huok.notSeen hab hne (by omega)).1 hhash

/-! ## A chain -/

/-- The blocks of a list. -/
def reader (blocks : List Block) (hash : Word) (number : UInt64) : Option Block :=
  blocks.find? fun b => b.hash = hash ∧ b.numberU64 = number

theorem reads_reader {genesis head : Block} {blocks : List Block}
    (ht : BlockTree.IsTree genesis blocks) (hhead : head ∈ blocks) :
    Reads (.ofBlocks genesis blocks ht) (reader blocks) head := by
  have hsound : ∀ {hash number b}, reader blocks hash number = some b →
      b ∈ blocks ∧ b.hash = hash ∧ b.numberU64 = number := by
    intro hash number b hfind
    have hsome := List.find?_some hfind
    exact ⟨List.mem_of_find?_eq_some hfind, of_decide_eq_true hsome⟩
  refine ⟨hhead, fun {b} hb => ?_, hsound⟩
  have hmem : b ∈ blocks := hb.mem hhead
  rcases hfind : reader blocks b.hash b.numberU64 with _ | c
  · exact absurd (decide_eq_true ⟨rfl, rfl⟩) (List.find?_eq_none.1 hfind b hmem)
  · obtain ⟨hc, hhash, -⟩ := hsound hfind
    rw [ht.2.2.2.1 c hc b hmem hhash]

/-- An uncle of number 1. -/
def uncleHeader (hash : Word) : Header :=
  { hash, parentHash := 1, difficulty := 131072, number := 1, gasLimit := 5000, time := 13 }

def uncleGenesis : Block :=
  { header := { hash := 1, parentHash := 0, difficulty := 131072, number := 0, gasLimit := 5000 } }

def uncleBlock (number : ℕ) (uncles : List Header) : Block where
  header :=
    { hash := .ofNat 256 (number + 1), parentHash := .ofNat 256 number, difficulty := 131072,
      number := number, gasLimit := 5000, time := 13 * number }
  body := { uncles := uncles }

def twoUncles : Block := uncleBlock 2 [uncleHeader 11, uncleHeader 12]

/-- A chain of four blocks, of which the third one has two uncles. -/
def uncleBlocks : List Block := [uncleGenesis, uncleBlock 1 [], twoUncles, uncleBlock 3 []]

/-- The engine that does not check the proof of work. -/
def fakeEngine (powMode : Mode) : Engine where
  powMode
  fakeFail := 100
  pow _ := (0, 0)

def uncleTree : UncleTree where
  toBlockTree := .ofBlocks uncleGenesis uncleBlocks (by decide)
  header_inj ha hb hx hy := (by decide : ∀ a ∈ uncleBlocks, ∀ b ∈ uncleBlocks,
    ∀ x ∈ a.header :: a.uncles, ∀ y ∈ b.header :: b.uncles, x.hash = y.hash → x = y)
    _ ha _ hb _ hx _ hy
  acyclic hb hu :=
    (by decide : ∀ b ∈ uncleBlocks, ∀ u ∈ b.uncles, u.parentHash ≠ b.hash) _ hb _ hu

theorem uncleBlocks_pass :
    ∀ b ∈ uncleBlocks, (fakeEngine .fake).verifyUncles (reader uncleBlocks) b = .ok () := by
  intro b hb
  simp only [uncleBlocks, List.mem_cons, List.not_mem_nil, or_false] at hb
  rcases hb with rfl | rfl | rfl | rfl <;> rfl

theorem uncles_once_fork : (twoUncles.uncles.map Header.hash).Nodup ∧ ∃ reward,
    (rewards {} twoUncles.header twoUncles.uncles)[1]? = some (0, reward) ∧
      2 * frontierBlockReward ≤ 8 * reward ∧ 8 * reward ≤ 7 * frontierBlockReward ∧ 0 < reward := by
  have hmem : uncleBlock 3 [] ∈ uncleBlocks := by decide
  have hreads : Reads uncleTree.toBlockTree (reader uncleBlocks) (uncleBlock 3 []) :=
    reads_reader (by decide) hmem
  have hanc : uncleTree.nodes.Anc (uncleBlock 3 []) twoUncles :=
    .of_parent ⟨hmem, by decide, (by decide : twoUncles ∈ uncleBlocks), by decide⟩
  obtain ⟨-, hnodup, hpaid⟩ := uncles_once uncleTree (fakeEngine .fake) (by decide)
    (reader uncleBlocks) (uncleBlock 3 []) hreads fun b hb => uncleBlocks_pass b (hb.mem hmem)
  exact ⟨hnodup _ hanc, (hpaid _ 1 (uncleHeader 12) hanc rfl).2.2.2.2⟩

/-! ## The ether of a chain -/

/-- What is paid for a block. -/
def issued (config : ChainConfig) (b : Block) : ℤ :=
  ((rewards config b.header b.uncles).map Prod.snd).sum

theorem issued_bounds (hmode : e.powMode ≠ .fullFake) (h : Reads U.toBlockTree getBlock b)
    (hpass : e.verifyUncles getBlock b = .ok ()) :
    blockReward e.config b.number ≤ issued e.config b ∧
      16 * issued e.config b ≤ 45 * blockReward e.config b.number := by
  have hlen : b.uncles.length ≤ 2 := by
    rw [Engine.verifyUncles, if_neg hmode] at hpass
    by_contra hgt
    rw [if_pos (show b.uncles.length > maxUncles from not_le.1 hgt)] at hpass
    cases hpass
  have hsum : ∀ us ⊆ b.uncles, 0 ≤ (us.map (uncleReward e.config b.header)).sum ∧
      8 * (us.map (uncleReward e.config b.header)).sum ≤
        7 * us.length * blockReward e.config b.number := by
    intro us hus
    induction us with
    | nil => simp
    | cons u us ih =>
      have hu := uncleOk hmode h hpass (hus List.mem_cons_self)
      obtain ⟨-, hle, hpos⟩ := uncleReward_bounds e.config hu.low hu.high
      have hle : 8 * uncleReward e.config b.header u ≤ 7 * blockReward e.config b.number := hle
      obtain ⟨ih₀, ih₁⟩ := ih (List.subset_of_cons_subset hus)
      rw [List.map_cons, List.sum_cons, List.length_cons]
      push_cast
      constructor <;> linarith
  obtain ⟨h₀, h₁⟩ := hsum b.uncles (List.Subset.refl _)
  have hissued : issued e.config b = (b.uncles.map (uncleReward e.config b.header)).sum +
      (blockReward e.config b.number + b.uncles.length * (blockReward e.config b.number / 32)) := by
    simp [issued, rewards, Function.comp_def]
    rfl
  have hreward : 0 ≤ blockReward e.config b.number := by
    rw [blockReward]
    split_ifs <;> decide
  rw [hissued]
  interval_cases b.uncles.length <;> omega

/-- **The ether of a chain.**  If all blocks of a chain pass `VerifyUncles`, what is paid for them
    is between the sum of their rewards and 45/16 of it. -/
theorem issuance (U : UncleTree) (e : Engine) (hmode : e.powMode ≠ .fullFake)
    (getBlock : Word → UInt64 → Option Block) (head : Block)
    (h : Reads U.toBlockTree getBlock head)
    (hpass : ∀ b, U.nodes.Anc head b → e.verifyUncles getBlock b = .ok ())
    {l : List Block} (hl : U.nodes.Path head l U.genesis) :
    (l.map fun b => blockReward e.config b.number).sum ≤ (l.map (issued e.config)).sum ∧
      16 * (l.map (issued e.config)).sum ≤ 45 * (l.map fun b => blockReward e.config b.number).sum := by
  have hb : ∀ b ∈ l, blockReward e.config b.number ≤ issued e.config b ∧
      16 * issued e.config b ≤ 45 * blockReward e.config b.number := by
    intro b hb
    have hanc := hl.anc_iff.2 (.inl hb)
    exact issued_bounds hmode (h.of_anc hanc) (hpass b hanc)
  clear hl
  induction l with
  | nil => simp
  | cons b l ih =>
    obtain ⟨h₀, h₁⟩ := hb b List.mem_cons_self
    obtain ⟨ih₀, ih₁⟩ := ih fun b h => hb b (List.mem_cons_of_mem _ h)
    simp only [List.map_cons, List.sum_cons]
    constructor <;> linarith

theorem issuance_fork :
    16 * ([uncleBlock 3 [], twoUncles, uncleBlock 1 []].map (issued {})).sum ≤
      45 * (3 * frontierBlockReward) := by
  have h₃ : uncleBlock 3 [] ∈ uncleBlocks := by decide
  have h₂ : twoUncles ∈ uncleBlocks := by decide
  have h₁ : uncleBlock 1 [] ∈ uncleBlocks := by decide
  exact (issuance uncleTree (fakeEngine .fake) (by decide) (reader uncleBlocks) (uncleBlock 3 [])
    (reads_reader (by decide) h₃) (fun b hb => uncleBlocks_pass b (hb.mem h₃))
    (.cons ⟨h₃, by decide, h₂, by decide⟩ (.cons ⟨h₂, by decide, h₁, by decide⟩
      (.cons ⟨h₁, by decide, uncleTree.genesis_mem, by decide⟩ .nil)))).2

end GoEthereum.Ethash
