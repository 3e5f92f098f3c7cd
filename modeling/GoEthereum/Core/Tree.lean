/-
  Trees of blocks, and what the database holds of them.

  All blocks that are written come from a tree: a block names its parent by its hash, and
  its number is one above.  The database holds blocks together with their ancestors
  (`ChainOk`), and a reorganisation finds the common block of two branches (`split_spec`).
-/
import GoEthereum.Lib.HashTree
import GoEthereum.Lib.Outcome
import GoEthereum.Core.BlockChain

namespace GoEthereum.Core

open AssocMap

/-- A tree of blocks; the hash of a block determines it.  The first block is made without a
    body (`Genesis.ToBlock`). -/
structure BlockTree where
  genesis : Block
  mem : Block → Prop
  genesis_mem : mem genesis
  number_genesis : genesis.number = 0
  body_genesis : genesis.body = {}
  hash_inj : ∀ {a b}, mem a → mem b → a.hash = b.hash → a = b
  linked : ∀ {b}, mem b → b ≠ genesis →
    ∃ p, mem p ∧ p.hash = b.parentHash ∧ b.number = p.number + 1
  hash_ne_zero : ∀ {b}, mem b → b.hash ≠ 0
  number_lt : ∀ {b}, mem b → b.number + 1 < 2 ^ 64

namespace BlockTree

/-- The tree as nodes with keys. -/
def nodes (T : BlockTree) : HashTree Block Word where
  key := Block.hash
  parentKey := Block.parentHash
  height := Block.number
  mem := T.mem
  root := T.genesis
  root_mem := T.genesis_mem
  root_height := T.number_genesis
  key_inj := T.hash_inj
  linked := T.linked

variable {T : BlockTree} {a b p : Block}

theorem toNat_numberU64 (hb : T.mem b) : b.numberU64.toNat = b.number :=
  UInt64.toNat_ofNat_of_lt' (Nat.lt_of_succ_lt (T.number_lt hb))

theorem numberU64_congr (h : a.number = b.number) : a.numberU64 = b.numberU64 :=
  congrArg UInt64.ofNat h

theorem numberU64_inj (ha : T.mem a) (hb : T.mem b) (h : a.numberU64 = b.numberU64) :
    a.number = b.number := by
  rw [← toNat_numberU64 ha, ← toNat_numberU64 hb, h]

theorem numberU64_lt (ha : T.mem a) (hb : T.mem b) :
    a.numberU64 < b.numberU64 ↔ a.number < b.number := by
  rw [UInt64.lt_iff_toNat_lt, toNat_numberU64 ha, toNat_numberU64 hb]

theorem numberU64_parent (h : T.nodes.Parent b p) : b.numberU64 - 1 = p.numberU64 := by
  have hb := toNat_numberU64 (T := T) h.child_mem
  have hp := toNat_numberU64 (T := T) h.mem
  have hheight : b.number = p.number + 1 := h.height_eq
  have hle : (1 : UInt64) ≤ b.numberU64 := by
    rw [UInt64.le_iff_toNat_le, hb]
    change 1 ≤ b.number
    omega
  apply UInt64.toNat_inj.1
  rw [UInt64.toNat_sub_of_le _ _ hle, hb, hp]
  change b.number - 1 = p.number
  omega

theorem eq_genesis (hb : T.mem b) (h : b.number = 0) : b = T.genesis := by
  by_contra hne
  obtain ⟨p, -, -, hnumber⟩ := T.linked hb hne
  omega

theorem eq_genesis_of_anc (h : T.nodes.Anc T.genesis a) : a = T.genesis := by
  have hle : a.number ≤ T.genesis.number := h.height_le
  rw [T.number_genesis] at hle
  exact eq_genesis (h.mem T.genesis_mem) (by omega)

/-- The list of blocks is a tree. -/
def IsTree (genesis : Block) (blocks : List Block) : Prop :=
  genesis ∈ blocks ∧ genesis.number = 0 ∧ genesis.body = {} ∧
    (∀ a ∈ blocks, ∀ b ∈ blocks, a.hash = b.hash → a = b) ∧
    (∀ b ∈ blocks, b ≠ genesis → ∃ p ∈ blocks, p.hash = b.parentHash ∧ b.number = p.number + 1) ∧
    ∀ b ∈ blocks, b.hash ≠ 0 ∧ b.number + 1 < 2 ^ 64

instance (genesis : Block) (blocks : List Block) : Decidable (IsTree genesis blocks) := by
  unfold IsTree
  infer_instance

/-- The tree of a list of blocks. -/
def ofBlocks (genesis : Block) (blocks : List Block) (h : IsTree genesis blocks) : BlockTree where
  genesis
  mem b := b ∈ blocks
  genesis_mem := h.1
  number_genesis := h.2.1
  body_genesis := h.2.2.1
  hash_inj ha hb := h.2.2.2.1 _ ha _ hb
  linked := h.2.2.2.2.1 _
  hash_ne_zero hb := (h.2.2.2.2.2 _ hb).1
  number_lt hb := (h.2.2.2.2.2 _ hb).2

end BlockTree

open BlockTree

/-! ## What is stored -/

/-- The block is in the database, with its total difficulty. -/
structure Stored (db : ChainDb) (b : Block) : Prop where
  header : db.readHeader b.hash b.numberU64 = some b.header
  body : db.readBody b.hash b.numberU64 = some b.body
  td : (db.readTd b.hash b.numberU64).isSome = true

theorem Stored.readBlock {db : ChainDb} {b : Block} (h : Stored db b) :
    db.readBlock b.hash b.numberU64 = some b := by
  rw [ChainDb.readBlock, h.header, h.body]
  rfl

/-- The database holds blocks of the tree with their ancestors and the sums of their
    difficulties. -/
structure DbOk (T : BlockTree) (db : ChainDb) : Prop where
  genesis : Stored db T.genesis
  stored : ∀ {hash number td}, db.readTd hash number = some td →
    ∃ b, T.mem b ∧ Stored db b ∧ b.hash = hash ∧ b.numberU64 = number
  parents : ∀ {b p}, Stored db b → T.nodes.Parent b p → Stored db p
  td_eq : ∀ {b p td ptd}, Stored db b → T.nodes.Parent b p →
    db.readTd b.hash b.numberU64 = some td → db.readTd p.hash p.numberU64 = some ptd →
    td = b.difficulty + ptd

/-- The databases hold the same blocks. -/
structure SameBlocks (db db' : ChainDb) : Prop where
  headers : db'.headers = db.headers
  bodies : db'.bodies = db.bodies
  td : db'.td = db.td

namespace SameBlocks

variable {db db' db'' : ChainDb} {b : Block}

theorem refl (db : ChainDb) : SameBlocks db db := ⟨rfl, rfl, rfl⟩

theorem trans (h : SameBlocks db db') (h' : SameBlocks db' db'') : SameBlocks db db'' :=
  ⟨h'.headers.trans h.headers, h'.bodies.trans h.bodies, h'.td.trans h.td⟩

theorem stored (h : SameBlocks db db') : Stored db' b ↔ Stored db b := by
  constructor <;> intro ⟨hheader, hbody, htd⟩ <;>
    simp only [ChainDb.readHeader, ChainDb.readBody, ChainDb.readTd, h.headers, h.bodies, h.td]
      at hheader hbody htd <;>
    constructor <;>
    simpa only [ChainDb.readHeader, ChainDb.readBody, ChainDb.readTd, h.headers, h.bodies, h.td]

theorem readTd (h : SameBlocks db db') (hash : Word) (number : UInt64) :
    db'.readTd hash number = db.readTd hash number := by
  rw [ChainDb.readTd, ChainDb.readTd, h.td]

theorem dbOk {T : BlockTree} (h : SameBlocks db db') (hok : DbOk T db) : DbOk T db' where
  genesis := h.stored.2 hok.genesis
  stored htd := by
    rw [h.readTd] at htd
    obtain ⟨b, hb, hstored, hkeys⟩ := hok.stored htd
    exact ⟨b, hb, h.stored.2 hstored, hkeys⟩
  parents hb hp := h.stored.2 (hok.parents (h.stored.1 hb) hp)
  td_eq hb hp htd hptd := by
    rw [h.readTd] at htd hptd
    exact hok.td_eq (h.stored.1 hb) hp htd hptd

end SameBlocks

section write

variable {T : BlockTree} {db : ChainDb} {b p a : Block} {ptd : ℤ}

/-- A block of the tree with its total difficulty. -/
def ChainDb.put (db : ChainDb) (b : Block) (td : ℤ) : ChainDb :=
  (db.writeTd b.hash b.numberU64 td).writeBlock b

theorem key_iff (ha : T.mem a) (hb : T.mem b) :
    (a.numberU64, a.hash) = (b.numberU64, b.hash) ↔ a = b := by
  constructor
  · intro h
    exact T.hash_inj ha hb (Prod.ext_iff.1 h).2
  · rintro rfl
    rfl

theorem stored_put_self (td : ℤ) : Stored (db.put b td) b := by
  refine ⟨?_, ?_, ?_⟩
  · exact get_set_self _ _ _
  · exact get_set_self _ _ _
  · rw [Option.isSome_iff_exists]
    exact ⟨td, get_set_self _ _ _⟩

theorem readTd_put_self (td : ℤ) : (db.put b td).readTd b.hash b.numberU64 = some td :=
  get_set_self _ _ _

theorem readTd_put_of_ne (ha : T.mem a) (hb : T.mem b) (hne : a ≠ b) (td : ℤ) :
    (db.put b td).readTd a.hash a.numberU64 = db.readTd a.hash a.numberU64 := by
  refine (get_set _ _ _ _).trans (if_neg fun h => hne ?_)
  exact (key_iff ha hb).1 h

theorem stored_put (ha : T.mem a) (hb : T.mem b) (td : ℤ) :
    Stored (db.put b td) a ↔ a = b ∨ Stored db a := by
  by_cases hab : a = b
  · subst hab
    exact ⟨fun _ => .inl rfl, fun _ => stored_put_self td⟩
  · have hkey : (a.numberU64, a.hash) ≠ (b.numberU64, b.hash) := fun h =>
      hab ((key_iff ha hb).1 h)
    have hheader : (db.put b td).readHeader a.hash a.numberU64 =
        db.readHeader a.hash a.numberU64 := (get_set _ _ _ _).trans (if_neg hkey)
    have hbody : (db.put b td).readBody a.hash a.numberU64 =
        db.readBody a.hash a.numberU64 := (get_set _ _ _ _).trans (if_neg hkey)
    have htd : (db.put b td).readTd a.hash a.numberU64 = db.readTd a.hash a.numberU64 :=
      readTd_put_of_ne ha hb hab td
    constructor
    · intro ⟨h₁, h₂, h₃⟩
      exact .inr ⟨hheader ▸ h₁, hbody ▸ h₂, htd ▸ h₃⟩
    · rintro (h | ⟨h₁, h₂, h₃⟩)
      · exact absurd h hab
      · exact ⟨hheader ▸ h₁, hbody ▸ h₂, htd ▸ h₃⟩

theorem DbOk.readTd_put (h : DbOk T db) (hp : T.nodes.Parent b p)
    (hptd : db.readTd p.hash p.numberU64 = some ptd) (ha : T.mem a) (hstored : Stored db a) :
    (db.put b (b.difficulty + ptd)).readTd a.hash a.numberU64 = db.readTd a.hash a.numberU64 := by
  by_cases hab : a = b
  · subst hab
    obtain ⟨td, htd⟩ := Option.isSome_iff_exists.1 hstored.td
    rw [readTd_put_self, htd, h.td_eq hstored hp htd hptd]
  · exact readTd_put_of_ne ha hp.child_mem hab _

theorem DbOk.put (h : DbOk T db) (hp : T.nodes.Parent b p)
    (hptd : db.readTd p.hash p.numberU64 = some ptd) : DbOk T (db.put b (b.difficulty + ptd)) := by
  have hb : T.mem b := hp.child_mem
  have hpstored : Stored db p := by
    obtain ⟨q, hq, hqs, hhash, -⟩ := h.stored hptd
    rwa [← T.hash_inj hq hp.mem hhash]
  refine ⟨(stored_put T.genesis_mem hb _).2 (.inr h.genesis), ?_, ?_, ?_⟩
  · intro hash number td htd
    by_cases hkey : (number, hash) = (b.numberU64, b.hash)
    · exact ⟨b, hb, stored_put_self _, (Prod.ext_iff.1 hkey).2.symm, (Prod.ext_iff.1 hkey).1.symm⟩
    · have htd : db.readTd hash number = some td :=
        ((get_set _ _ _ _).trans (if_neg hkey)).symm.trans htd
      obtain ⟨a, ha, hstored, hkeys⟩ := h.stored htd
      exact ⟨a, ha, (stored_put ha hb _).2 (.inr hstored), hkeys⟩
  · intro a q ha hq
    rcases (stored_put hq.child_mem hb _).1 ha with rfl | ha
    · rw [hq.unique hp]
      exact (stored_put hp.mem hb _).2 (.inr hpstored)
    · exact (stored_put hq.mem hb _).2 (.inr (h.parents ha hq))
  · intro a q td qtd ha hq htd hqtd
    rcases (stored_put hq.child_mem hb _).1 ha with rfl | ha
    · rw [hq.unique hp, h.readTd_put hp hptd hp.mem hpstored, hptd] at hqtd
      rw [readTd_put_self] at htd
      cases htd
      cases hqtd
      rfl
    · rw [h.readTd_put hp hptd hq.mem (h.parents ha hq)] at hqtd
      rw [h.readTd_put hp hptd hq.child_mem ha] at htd
      exact h.td_eq ha hq htd hqtd

end write

/-! ## The common block of two branches -/

section split

variable {T : BlockTree} {bc : BlockChain} {a b c p : Block} {l : List Block}

theorem getTd_parent (hp : T.nodes.Parent b p) :
    bc.getTd b.parentHash (b.numberU64 - 1) = bc.getTd p.hash p.numberU64 := by
  have hhash : p.hash = b.parentHash := hp.key_eq
  rw [numberU64_parent hp, hhash]

theorem DbOk.getBlock_parent (h : DbOk T bc.db) (hb : Stored bc.db b) (hp : T.nodes.Parent b p) :
    bc.getBlock b.parentHash (b.numberU64 - 1) = some p := by
  have hhash : p.hash = b.parentHash := hp.key_eq
  rw [numberU64_parent hp, ← hhash]
  exact (h.parents hb hp).readBlock

/-- The way down to a number. -/
theorem reduce_spec (h : DbOk T bc.db) (ha : T.mem a) (fuel : ℕ) (hb : T.mem b)
    (hstored : Stored bc.db b) (hle : a.number ≤ b.number) (hfuel : b.number ≤ fuel + a.number)
    (hpath : T.nodes.Path c l b) : ∃ d l', bc.reduce a.numberU64 fuel (some b) l = .ok (some d, l') ∧
      T.nodes.Path c l' d ∧ T.mem d ∧ Stored bc.db d ∧ d.number = a.number := by
  induction fuel generalizing b l with
  | zero =>
    have heq : b.number = a.number := by omega
    rw [BlockChain.reduce, if_pos (numberU64_congr heq)]
    exact ⟨b, l, rfl, hpath, hb, hstored, heq⟩
  | succ fuel ih =>
    rw [BlockChain.reduce]
    split_ifs with heq
    · exact ⟨b, l, rfl, hpath, hb, hstored, numberU64_inj hb ha heq⟩
    · have hne : b.number ≠ a.number := fun hn => heq (numberU64_congr hn)
      have hroot : b ≠ T.genesis := by
        rintro rfl
        have := T.number_genesis
        omega
      obtain ⟨p, hp⟩ := HashTree.exists_parent (T := T.nodes) hb hroot
      have hheight : b.number = p.number + 1 := hp.height_eq
      rw [h.getBlock_parent hstored hp]
      exact ih hp.mem (h.parents hstored hp) (by omega) (by omega) (hpath.append hp)

/-- The way down on both sides. -/
theorem findCommon_spec (h : DbOk T bc.db) {old new : Block} {lo ln : List Block} {fuel : ℕ}
    (hold : T.mem old) (hnew : T.mem new) (hso : Stored bc.db old) (hsn : Stored bc.db new)
    (hnumber : old.number = new.number) (hfuel : old.number ≤ fuel)
    (hpo : T.nodes.Path a lo old) (hpn : T.nodes.Path b ln new) :
    ∃ s, bc.findCommon fuel old new lo ln = .ok (.ok s) ∧
      T.nodes.Path a s.oldChain s.commonBlock ∧ T.nodes.Path b s.newChain s.commonBlock := by
  induction fuel generalizing old new lo ln with
  | zero =>
    have heq : old = new :=
      (eq_genesis hold (by omega)).trans (eq_genesis hnew (by omega)).symm
    rw [BlockChain.findCommon, if_pos (congrArg _ heq)]
    exact ⟨_, rfl, hpo, heq ▸ hpn⟩
  | succ fuel ih =>
    rw [BlockChain.findCommon]
    split_ifs with heq
    · exact ⟨_, rfl, hpo, T.hash_inj hold hnew heq ▸ hpn⟩
    · have hroot : ∀ {x y : Block}, T.mem x → T.mem y → x.number = y.number →
          x.hash ≠ y.hash → x ≠ T.genesis := by
        rintro x y hx hy hxy hne rfl
        have hy0 := eq_genesis hy (hxy.symm.trans T.number_genesis)
        exact hne (congrArg _ hy0.symm)
      obtain ⟨p, hp⟩ := HashTree.exists_parent (T := T.nodes) hold (hroot hold hnew hnumber heq)
      obtain ⟨q, hq⟩ := HashTree.exists_parent (T := T.nodes) hnew
        (hroot hnew hold hnumber.symm (Ne.symm heq))
      have hpn' : old.number = p.number + 1 := hp.height_eq
      have hqn : new.number = q.number + 1 := hq.height_eq
      rw [h.getBlock_parent hso hp, h.getBlock_parent hsn hq]
      exact ih hp.mem hq.mem (h.parents hso hp) (h.parents hsn hq) (by omega) (by omega)
        (hpo.append hp) (hpn.append hq)

theorem split_spec (h : DbOk T bc.db) {old new : Block} (hold : T.mem old) (hnew : T.mem new)
    (hso : Stored bc.db old) (hsn : Stored bc.db new) : ∃ s, bc.split old new = .ok (.ok s) ∧
      T.nodes.Path old s.oldChain s.commonBlock ∧ T.nodes.Path new s.newChain s.commonBlock := by
  rw [BlockChain.split]
  by_cases hlt : new.number < old.number
  · rw [if_pos ((numberU64_lt hnew hold).2 hlt)]
    obtain ⟨d, l, hd, hpath, hdm, hds, hdn⟩ := reduce_spec h hnew (old.number + new.number) hold
      hso hlt.le (by omega) .nil
    simp only [hd, Outcome.ok_bind]
    exact findCommon_spec h hdm hnew hds hsn hdn (by omega) hpath .nil
  · rw [if_neg fun hgt => hlt ((numberU64_lt hnew hold).1 hgt)]
    obtain ⟨d, l, hd, hpath, hdm, hds, hdn⟩ := reduce_spec h hold (old.number + new.number) hnew
      hsn (not_lt.1 hlt) (by omega) .nil
    simp only [hd, Outcome.ok_bind]
    exact findCommon_spec h hold hdm hso hds hdn.symm (by omega) .nil hpath

end split

end GoEthereum.Core
