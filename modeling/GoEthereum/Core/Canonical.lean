/-
  The canonical index (`canonical_index`).

  Every block that is written keeps the index of the ancestors of the head.  Nothing above
  the head is in the index as long as the head never goes down: a branch that is shorter
  than the old one leaves the numbers above it.
-/
import GoEthereum.Core.Tree

namespace GoEthereum.Core

open AssocMap BlockTree Outcome BlockChain

variable {T : BlockTree} {cfg : ChainConfig} {answers : Answers} {bc bc' : BlockChain}
  {a b p : Block} {l : List Block}

/-! ## What is written -/

namespace BlockChain

theorem insert_spec (bc : BlockChain) (b : Block) : (bc.insert b).currentBlock = b ∧
    (bc.insert b).db.canonicalHash = bc.db.canonicalHash.set b.numberU64 b.hash ∧
    (bc.insert b).db.txLookup = bc.db.txLookup ∧ SameBlocks bc.db (bc.insert b).db := by
  rw [insert]
  simp only
  split_ifs <;> exact ⟨rfl, rfl, rfl, rfl, rfl, rfl⟩

theorem adopt_spec (bc : BlockChain) (b : Block) : (bc.adopt b).currentBlock = b ∧
    (bc.adopt b).db.canonicalHash = bc.db.canonicalHash.set b.numberU64 b.hash ∧
    SameBlocks bc.db (bc.adopt b).db := by
  obtain ⟨hhead, hindex, -, hsame⟩ := insert_spec bc b
  exact ⟨hhead, hindex, hsame.trans ⟨rfl, rfl, rfl⟩⟩

theorem putHead_spec (bc : BlockChain) (b : Block) : (bc.putHead b).currentBlock = b ∧
    (bc.putHead b).db.canonicalHash = bc.db.canonicalHash.set b.numberU64 b.hash ∧
    SameBlocks bc.db (bc.putHead b).db := by
  obtain ⟨hhead, hindex, -, hsame⟩ := insert_spec { bc with db := bc.db.writeTxLookupEntries b } b
  have hlookup : SameBlocks bc.db (bc.db.writeTxLookupEntries b) := ⟨rfl, rfl, rfl⟩
  exact ⟨hhead, hindex, hlookup.trans hsame⟩

/-- A branch becomes canonical. -/
theorem adopts_spec (hpath : T.nodes.Path b l a) (bc : BlockChain) :
    (l = [] ∨ (l.foldr (fun block bc => bc.adopt block) bc).currentBlock = b) ∧
    (∀ c ∈ l, (l.foldr (fun block bc => bc.adopt block) bc).db.canonicalHash.get c.numberU64 =
      some c.hash) ∧
    (∀ n, (∀ c ∈ l, c.numberU64 ≠ n) →
      (l.foldr (fun block bc => bc.adopt block) bc).db.canonicalHash.get n =
        bc.db.canonicalHash.get n) ∧
    SameBlocks bc.db (l.foldr (fun block bc => bc.adopt block) bc).db := by
  induction hpath with
  | nil => exact ⟨.inl rfl, nofun, fun _ _ => rfl, .refl _⟩
  | @cons b p c l hb hpath ih =>
    obtain ⟨-, hin, hout, hsame⟩ := ih
    obtain ⟨hhead, hindex, hsame'⟩ := adopt_spec (l.foldr (fun block bc => bc.adopt block) bc) b
    rw [List.foldr_cons]
    refine ⟨.inr hhead, fun d hd => ?_, fun n hn => ?_, hsame.trans hsame'⟩
    · rw [hindex, get_set]
      split_ifs with heq
      · have hdm : T.mem d := (HashTree.Path.cons hb hpath).mem_of_mem hd
        rcases List.mem_cons.1 hd with rfl | hd
        · rfl
        · -- the numbers on a branch are different
          have hle : d.number ≤ p.number := hpath.height_le hd
          have hheight : b.number = p.number + 1 := hb.height_eq
          have := numberU64_inj hdm hb.child_mem heq
          omega
      · rcases List.mem_cons.1 hd with rfl | hd
        · exact absurd rfl heq
        · exact hin d hd
    · rw [hindex, get_set, if_neg (Ne.symm (hn b (.head _)))]
      exact hout n fun d hd => hn d (.tail _ hd)

/-- A reorganisation changes the index as its new branch says. -/
theorem switchTo_spec (bc : BlockChain) {s : Split}
    (hpath : T.nodes.Path b s.newChain s.commonBlock) :
    (s.newChain = [] ∨ (bc.switchTo s).currentBlock = b) ∧
    (s.newChain = [] → (bc.switchTo s).currentBlock = bc.currentBlock) ∧
    (∀ c ∈ s.newChain, (bc.switchTo s).db.canonicalHash.get c.numberU64 = some c.hash) ∧
    (∀ n, (∀ c ∈ s.newChain, c.numberU64 ≠ n) →
      (bc.switchTo s).db.canonicalHash.get n = bc.db.canonicalHash.get n) ∧
    SameBlocks bc.db (bc.switchTo s).db := by
  have hdelete : ∀ (txs : List Transaction) (db : ChainDb),
      (txs.foldl (fun db tx => db.deleteTxLookupEntry tx.hash) db).canonicalHash =
        db.canonicalHash ∧
      SameBlocks db (txs.foldl (fun db tx => db.deleteTxLookupEntry tx.hash) db) := by
    intro txs
    induction txs with
    | nil => exact fun db => ⟨rfl, .refl db⟩
    | cons tx txs ih =>
      intro db
      obtain ⟨hindex, hsame⟩ := ih (db.deleteTxLookupEntry tx.hash)
      have hone : SameBlocks db (db.deleteTxLookupEntry tx.hash) := ⟨rfl, rfl, rfl⟩
      exact ⟨hindex, hone.trans hsame⟩
  obtain ⟨hhead, hin, hout, hsame⟩ := adopts_spec hpath bc
  rw [switchTo]
  simp only
  refine ⟨hhead, fun hnil => by rw [hnil]; rfl, ?_⟩
  rw [(hdelete _ _).1]
  exact ⟨hin, hout, hsame.trans (hdelete _ _).2⟩

end BlockChain

/-! ## What holds in every state -/

/-- The database is closed, and the index follows the head. -/
structure ChainOk (T : BlockTree) (bc : BlockChain) : Prop where
  db : DbOk T bc.db
  head_mem : T.mem bc.currentBlock
  head : Stored bc.db bc.currentBlock
  index : T.nodes.Follows (fun a => bc.db.canonicalHash.get a.numberU64) bc.currentBlock

/-- The results of `writeBlockWithState`. -/
inductive Written (T : BlockTree) (answers : Answers) (bc : BlockChain) (b : Block) :
    BlockChain → Prop
  /-- The parent is not known. -/
  | refused : bc.getTd b.parentHash (b.numberU64 - 1) = none → Written T answers bc b bc
  /-- The block is stored. -/
  | kept {p : Block} {ptd : ℤ} : T.nodes.Parent b p → bc.getTd p.hash p.numberU64 = some ptd →
      Written T answers bc b (bc.writeBlockWithoutState b (b.difficulty + ptd))
  /-- The block is put on the head. -/
  | extended {ptd : ℤ} : T.nodes.Parent b bc.currentBlock →
      bc.getTd bc.currentBlock.hash bc.currentBlock.numberU64 = some ptd →
      ptd ≤ b.difficulty + ptd →
      Written T answers bc b ((bc.writeBlockWithoutState b (b.difficulty + ptd)).putHead b)
  /-- The branch of the block takes the place of that of the head. -/
  | switched {p : Block} {ptd localTd : ℤ} {s : Split} : T.nodes.Parent b p →
      bc.getTd p.hash p.numberU64 = some ptd →
      bc.getTd bc.currentBlock.hash bc.currentBlock.numberU64 = some localTd →
      localTd ≤ b.difficulty + ptd →
      T.nodes.Path bc.currentBlock s.oldChain s.commonBlock →
      T.nodes.Path b s.newChain s.commonBlock →
      Written T answers bc b
        (let bc := (bc.writeBlockWithoutState b (b.difficulty + ptd)).switchTo s
        if answers.written then bc.putHead b else bc)

theorem prefers_td {coin : Bool} {externTd localTd : ℤ}
    (h : bc.prefers cfg coin b externTd localTd = true) : localTd ≤ externTd := by
  rw [prefers] at h
  split_ifs at h with h₁ h₂
  · exact h₁.le
  · exact h₂.ge
  · exact h₂.ge

theorem chooseHeader_meets (bc : BlockChain) (cfg : ChainConfig) (b : Block) :
    Meets (bc.chooseHeader cfg b) (fun _ => True) fun fault => fault = .nilPointer := by
  rw [chooseHeader]
  split_ifs
  · trivial
  · cases bc.getHeaderByNumber (b.numberU64 - triesInMemory)
    · rfl
    · trivial
  · trivial

theorem reorg_spec (bc : BlockChain) (h : DbOk T bc.db) (hhead : T.mem bc.currentBlock)
    (hstored : Stored bc.db bc.currentBlock) (hb : T.mem b) (hbs : Stored bc.db b) :
    ∃ s, bc.reorg bc.currentBlock b = .ok (none, bc.switchTo s) ∧
      T.nodes.Path bc.currentBlock s.oldChain s.commonBlock ∧
      T.nodes.Path b s.newChain s.commonBlock := by
  obtain ⟨s, hs, hold, hnew⟩ := split_spec h hhead hb hstored hbs
  exact ⟨s, by rw [reorg, hs]; rfl, hold, hnew⟩

/-- The total difficulty of the head. -/
def BlockChain.headTd (bc : BlockChain) : Option ℤ :=
  bc.getTd bc.currentBlock.hash bc.currentBlock.numberU64

/-- A block below the head does not have its total difficulty. -/
def Rises (bc : BlockChain) (b : Block) : Prop :=
  ∀ ptd localTd, bc.getTd b.parentHash (b.numberU64 - 1) = some ptd → bc.headTd = some localTd →
    b.number < bc.currentBlock.number → b.difficulty + ptd < localTd

theorem prefers_of_lower {coin : Bool} {externTd localTd : ℤ} (hle : localTd ≤ externTd)
    (hlt : b.numberU64 < bc.currentBlock.numberU64) :
    bc.prefers cfg coin b externTd localTd = true := by
  rw [prefers]
  split_ifs with h₁ h₂
  · rfl
  · rfl
  · exact absurd (lt_of_le_of_ne hle (Ne.symm h₂)) h₁

/-- What `writeBlockWithState` does; only the header of an old state can be missing.  Without an
    error, a block that does not rise becomes the head. -/
theorem writeBlockWithState_meets {E : Fault → Prop} (h : ChainOk T bc) (hb : T.mem b)
    (hne : b ≠ T.genesis) (hchoose : ∀ td, Meets ((bc.writeBlockWithoutState b td).chooseHeader cfg b)
      (fun _ => True) E) :
    Meets (bc.writeBlockWithState cfg answers b)
      (fun r => Written T answers bc b r.2.2 ∧ (r.2.1 = none → answers.committed = true ∧
        (bc.getTd b.parentHash (b.numberU64 - 1)).isSome = true ∧
        (¬Rises bc b → r.2.2.currentBlock = b))) E := by
  obtain ⟨p, hp⟩ := HashTree.exists_parent (T := T.nodes) hb hne
  obtain ⟨localTd, hlocal⟩ := Option.isSome_iff_exists.1 h.head.td
  have hlocal : bc.getTd bc.currentBlock.hash bc.currentBlock.numberU64 = some localTd := hlocal
  rw [writeBlockWithState, getTd_parent hp]
  rcases hptd : bc.getTd p.hash p.numberU64 with _ | ptd
  · exact ⟨.refused ((getTd_parent hp).trans hptd), nofun⟩
  have hkept : Written T answers bc b _ := .kept hp hptd
  have hok : DbOk T (bc.db.put b (b.difficulty + ptd)) := h.db.put hp hptd
  simp only [hlocal]
  refine Meets.ite (fun _ => ⟨hkept, nofun⟩) fun hcommitted => ?_
  have hcommitted : answers.committed = true := by simpa using hcommitted
  refine (hchoose _).bind fun _ _ => ?_
  rcases hprefers : (bc.writeBlockWithoutState b (b.difficulty + ptd)).prefers cfg answers.coin b
    (b.difficulty + ptd) localTd with _ | _
  · have hrises : Rises bc b := by
      intro ptd' localTd' hptd' hlocal' hlt
      rw [getTd_parent hp, hptd] at hptd'
      rw [headTd, hlocal] at hlocal'
      cases hptd'
      cases hlocal'
      by_contra hle
      have hlower : b.numberU64 < bc.currentBlock.numberU64 := (numberU64_lt hb h.head_mem).2 hlt
      have htrue : (bc.writeBlockWithoutState b (b.difficulty + ptd)).prefers cfg answers.coin b
          (b.difficulty + ptd) localTd = true := prefers_of_lower (not_lt.1 hle) hlower
      rw [hprefers] at htrue
      cases htrue
    rw [finishWrite, if_neg Bool.false_ne_true]
    cases answers.written <;> exact ⟨hkept, fun _ => ⟨hcommitted, rfl, fun hnot => absurd hrises hnot⟩⟩
  have htd := prefers_td hprefers
  have hhead : ∀ td, (bc.writeBlockWithoutState b td).currentBlock = bc.currentBlock := fun _ => rfl
  rw [finishWrite, if_pos rfl, reorgFor, hhead]
  by_cases hparent : b.parentHash = bc.currentBlock.hash
  · have hpc : p = bc.currentBlock := T.hash_inj hp.mem h.head_mem (hp.key_eq.trans hparent)
    subst hpc
    rw [hlocal] at hptd
    cases hptd
    rw [if_neg (not_not.2 hparent), ok_bind]
    rcases hw : answers.written with _ | _
    · exact ⟨hkept, nofun⟩
    · exact ⟨.extended hp hlocal htd, fun _ => ⟨hcommitted, rfl, fun _ => (putHead_spec _ b).1⟩⟩
  · obtain ⟨s, hs, hold, hnew⟩ := reorg_spec (bc.writeBlockWithoutState b _) hok h.head_mem
      ((stored_put h.head_mem hb _).2 (.inr h.head)) hb (stored_put_self _)
    have hswitched : Written T answers bc b _ := .switched hp hptd hlocal htd hold hnew
    rw [hhead] at hs
    rw [if_pos hparent, hs, ok_bind]
    rcases hw : answers.written with _ | _
    · rw [hw] at hswitched
      exact ⟨hswitched, nofun⟩
    · rw [hw] at hswitched
      exact ⟨hswitched, fun _ => ⟨hcommitted, rfl, fun _ => (putHead_spec _ b).1⟩⟩

theorem writeBlockWithState_spec (h : ChainOk T bc) (hb : T.mem b) (hne : b ≠ T.genesis) :
    Meets (bc.writeBlockWithState cfg answers b)
      (fun r => Written T answers bc b r.2.2 ∧
        (r.2.1 = none → ¬Rises bc b → r.2.2.currentBlock = b))
      fun fault => fault = .nilPointer :=
  (writeBlockWithState_meets h hb hne fun _ => chooseHeader_meets _ cfg b).mono
    (fun _ hr => ⟨hr.1, fun herr => (hr.2 herr).2.2⟩) fun _ herr => herr

/-- The database holds what it held before. -/
structure Grows (T : BlockTree) (db db' : ChainDb) : Prop where
  ok : DbOk T db'
  stored : ∀ {a}, T.mem a → Stored db a → Stored db' a
  readTd : ∀ {a}, T.mem a → Stored db a →
    db'.readTd a.hash a.numberU64 = db.readTd a.hash a.numberU64

theorem Grows.refl {db : ChainDb} (h : DbOk T db) : Grows T db db :=
  ⟨h, fun _ ha => ha, fun _ _ => rfl⟩

theorem Grows.same {db db' db'' : ChainDb} (h : Grows T db db') (hs : SameBlocks db' db'') :
    Grows T db db'' where
  ok := hs.dbOk h.ok
  stored ha hstored := hs.stored.2 (h.stored ha hstored)
  readTd ha hstored := (hs.readTd _ _).trans (h.readTd ha hstored)

theorem Grows.put {db : ChainDb} {ptd : ℤ} (h : DbOk T db) (hp : T.nodes.Parent b p)
    (hptd : db.readTd p.hash p.numberU64 = some ptd) :
    Grows T db (db.put b (b.difficulty + ptd)) where
  ok := h.put hp hptd
  stored ha hstored := (stored_put ha hp.child_mem _).2 (.inr hstored)
  readTd ha hstored := h.readTd_put hp hptd ha hstored

/-- The head is moved to `b`, and the index with it. -/
structure Moved (T : BlockTree) (bc bc' : BlockChain) (b : Block) : Prop where
  head : bc'.currentBlock = b
  mem : T.mem b
  stored : Stored bc'.db b
  td : ∃ ptd localTd, bc.getTd b.parentHash (b.numberU64 - 1) = some ptd ∧
    bc.headTd = some localTd ∧ localTd ≤ b.difficulty + ptd ∧
    bc'.getTd b.hash b.numberU64 = some (b.difficulty + ptd)
  branch : ∃ c l, T.nodes.Anc bc.currentBlock c ∧ T.nodes.Path b l c ∧
    (∀ a ∈ l, bc'.db.canonicalHash.get a.numberU64 = some a.hash) ∧
    ∀ n, (∀ a ∈ l, a.numberU64 ≠ n) → bc'.db.canonicalHash.get n = bc.db.canonicalHash.get n

/-- The head stays, and the index with it. -/
structure Rested (bc bc' : BlockChain) : Prop where
  head : bc'.currentBlock = bc.currentBlock
  index : ∀ n, bc'.db.canonicalHash.get n = bc.db.canonicalHash.get n

theorem readTd_of_same {db db' : ChainDb} {td : ℤ} (hs : SameBlocks (db.put b td) db') :
    db'.readTd b.hash b.numberU64 = some td := (hs.readTd _ _).trans (readTd_put_self td)

theorem Written.grows (h : ChainOk T bc) (hw : Written T answers bc b bc') :
    Grows T bc.db bc'.db := by
  have hput : ∀ {p : Block} {ptd : ℤ}, T.nodes.Parent b p →
      bc.getTd p.hash p.numberU64 = some ptd →
      Grows T bc.db (bc.writeBlockWithoutState b (b.difficulty + ptd)).db :=
    fun hp hptd => .put h.db hp hptd
  cases hw with
  | refused => exact .refl h.db
  | kept hp hptd => exact hput hp hptd
  | extended hp hptd _ => exact (hput hp hptd).same (putHead_spec _ b).2.2
  | switched hp hptd _ _ _ hnew =>
    have hgrows := (hput hp hptd).same (switchTo_spec _ hnew).2.2.2.2
    simp only
    split_ifs
    · exact hgrows.same (putHead_spec _ b).2.2
    · exact hgrows

theorem Written.cases (h : ChainOk T bc) (hw : Written T answers bc b bc') :
    Rested bc bc' ∨ Moved T bc bc' b := by
  cases hw with
  | refused | kept _ _ => exact .inl ⟨rfl, fun _ => rfl⟩
  | @extended ptd hp hptd htd =>
    obtain ⟨hhead, hindex, hsame⟩ := putHead_spec (bc.writeBlockWithoutState b (b.difficulty + ptd)) b
    refine .inr ⟨hhead, hp.child_mem, hsame.stored.2 (stored_put_self _),
      ⟨ptd, ptd, (getTd_parent hp).trans hptd, hptd, htd, readTd_of_same hsame⟩,
      bc.currentBlock, [b], .refl _, .cons hp .nil, fun a ha => ?_, fun n hn => ?_⟩
    · rw [List.mem_singleton.1 ha, hindex]
      exact get_set_self _ _ _
    · rw [hindex, get_set, if_neg (hn b (List.mem_singleton_self b)).symm]
      rfl
  | @switched p ptd localTd s hp hptd hlocal htd hold hnew =>
    obtain ⟨hhead, hrest, hin, hout, hsame⟩ :=
      switchTo_spec (bc.writeBlockWithoutState b (b.difficulty + ptd)) hnew
    have hanc : T.nodes.Anc bc.currentBlock s.commonBlock := hold.anc
    have hptd := (getTd_parent hp).trans hptd
    simp only
    split_ifs
    · obtain ⟨hhead', hindex, hsame'⟩ := putHead_spec
        ((bc.writeBlockWithoutState b (b.difficulty + ptd)).switchTo s) b
      have hsame := hsame.trans hsame'
      refine .inr ⟨hhead', hp.child_mem, hsame.stored.2 (stored_put_self _),
        ⟨ptd, localTd, hptd, hlocal, htd, readTd_of_same hsame⟩, s.commonBlock, s.newChain, hanc, hnew,
        fun a ha => ?_, fun n hn => ?_⟩
      · rw [hindex, get_set]
        split_ifs with heq
        · have ham := hnew.mem_of_mem ha
          have hnumber := numberU64_inj ham hp.child_mem heq
          rw [(hnew.anc_iff.2 (.inl ha)).eq_of_height_eq (.refl b) hnumber]
        · exact hin a ha
      · rw [hindex, get_set]
        split_ifs with heq
        · -- the block itself is the common one, and it is in the index already
          have hb : b ∉ s.newChain := fun hb => hn b hb heq.symm
          have hbc : b = s.commonBlock := by
            rcases hnew.anc_iff.1 (.refl b) with hb' | hb'
            · exact absurd hb' hb
            · exact (hb'.eq_of_height_le hnew.anc.height_le)
          rw [heq]
          exact (h.index b (hbc ▸ hanc)).symm
        · exact hout n hn
    · rcases hhead with hnil | hhead
      · refine .inl ⟨hrest hnil, fun n => ?_⟩
        rw [hout n fun c hc => by rw [hnil] at hc; cases hc]
        rfl
      · exact .inr ⟨hhead, hp.child_mem, hsame.stored.2 (stored_put_self _),
          ⟨ptd, localTd, hptd, hlocal, htd, readTd_of_same hsame⟩, s.commonBlock, s.newChain, hanc, hnew,
          hin, hout⟩

theorem ChainOk.written (h : ChainOk T bc) (hw : Written T answers bc b bc') : ChainOk T bc' := by
  have hgrows := hw.grows h
  rcases hw.cases h with hrested | hmoved
  · refine ⟨hgrows.ok, ?_, ?_, ?_⟩
    · rw [hrested.head]
      exact h.head_mem
    · rw [hrested.head]
      exact hgrows.stored h.head_mem h.head
    · intro a ha
      rw [hrested.head] at ha
      exact (hrested.index _).trans (h.index a ha)
  · obtain ⟨c, l, hanc, hpath, hin, hout⟩ := hmoved.branch
    refine ⟨hgrows.ok, ?_, ?_, ?_⟩
    · rw [hmoved.head]
      exact hmoved.mem
    · rw [hmoved.head]
      exact hmoved.stored
    · rw [hmoved.head]
      refine h.index.switch hanc hpath hin fun a ha => hout _ fun d hd heq => ?_
      have hlt : c.number < d.number := hpath.height_lt hd
      have hle : a.number ≤ c.number := ha.height_le
      have := numberU64_inj (hpath.mem_of_mem hd) (ha.mem (hanc.mem h.head_mem)) heq
      omega

/-! ## Runs -/

/-- A chain after the blocks of a tree were written, each under the condition `P`. -/
inductive Reached (T : BlockTree) (cfg : ChainConfig) (P : BlockChain → Block → Answers → Prop) :
    BlockChain → Prop
  | genesis : Reached T cfg P (ofGenesis T.genesis)
  | write {bc bc' : BlockChain} {b : Block} {status : WriteStatus} {err : Option ChainError}
      (answers : Answers) : Reached T cfg P bc → T.mem b → b ≠ T.genesis →
      P bc b answers →
      bc.writeBlockWithState cfg answers b = .ok (status, err, bc') → Reached T cfg P bc'

theorem stored_genesis {td : ℤ} (hb : T.mem b) (h : Stored (({} : ChainDb).put T.genesis td) b) :
    b = T.genesis := by
  rcases (stored_put hb T.genesis_mem td).1 h with hb | hb
  · exact hb
  · cases hb.header

theorem dbOk_genesis (T : BlockTree) (td : ℤ) : DbOk T (({} : ChainDb).put T.genesis td) where
  genesis := stored_put_self td
  stored {hash number td'} htd := by
    by_cases hkey : (number, hash) = (T.genesis.numberU64, T.genesis.hash)
    · exact ⟨T.genesis, T.genesis_mem, stored_put_self td, (Prod.ext_iff.1 hkey).2.symm,
        (Prod.ext_iff.1 hkey).1.symm⟩
    · have hnone : (none : Option ℤ) = some td' :=
        ((get_set _ _ _ _).trans (if_neg hkey)).symm.trans htd
      cases hnone
  parents hb hp := absurd (stored_genesis hp.child_mem hb) hp.ne_root
  td_eq hb hp _ _ := absurd (stored_genesis hp.child_mem hb) hp.ne_root

theorem chainOk_genesis (T : BlockTree) : ChainOk T (ofGenesis T.genesis) := by
  have hsame : SameBlocks (({} : ChainDb).put T.genesis T.genesis.difficulty)
      (ofGenesis T.genesis).db := ⟨rfl, rfl, rfl⟩
  have hok := hsame.dbOk (dbOk_genesis T T.genesis.difficulty)
  refine ⟨hok, T.genesis_mem, hok.genesis, fun a ha => ?_⟩
  rw [eq_genesis_of_anc ha]
  exact get_set_self _ _ _

theorem Reached.chainOk {P : BlockChain → Block → Answers → Prop}
    (h : Reached T cfg P bc) : ChainOk T bc := by
  induction h with
  | genesis => exact chainOk_genesis T
  | write _ _ hb hne _ hw ih => exact ih.written ((writeBlockWithState_spec ih hb hne).result hw).1

theorem ChainOk.ancestors (h : ChainOk T bc) : ∀ n ≤ bc.currentBlock.number, ∃ a,
    T.nodes.Anc bc.currentBlock a ∧ a.number = n ∧ bc.db.readCanonicalHash (.ofNat n) = a.hash := by
  intro n hn
  obtain ⟨a, ha, rfl⟩ := HashTree.Anc.exists_height (T := T.nodes) h.head_mem hn
  refine ⟨a, ha, rfl, ?_⟩
  have hindex : bc.db.canonicalHash.get (.ofNat a.number) = some a.hash := h.index a ha
  change (bc.db.canonicalHash.get (.ofNat a.number)).getD 0 = a.hash
  rw [hindex]
  rfl

theorem ChainOk.headTd_le (h : ChainOk T bc) (hw : Written T answers bc b bc') :
    ∃ td td', bc.headTd = some td ∧ bc'.headTd = some td' ∧ td ≤ td' := by
  obtain ⟨td, htd⟩ := Option.isSome_iff_exists.1 h.head.td
  rcases hw.cases h with hrested | hmoved
  · refine ⟨td, td, htd, ?_, le_rfl⟩
    rw [headTd, hrested.head]
    exact ((hw.grows h).readTd h.head_mem h.head).trans htd
  · obtain ⟨ptd, localTd, -, hlocal, hle, htd'⟩ := hmoved.td
    refine ⟨localTd, b.difficulty + ptd, hlocal, ?_, hle⟩
    rw [headTd, hmoved.head]
    exact htd'

/-- The index has nothing above the head. -/
def Capped (bc : BlockChain) : Prop :=
  ∀ n, bc.currentBlock.numberU64 < n → bc.db.canonicalHash.get n = none

theorem Moved.capped (hmoved : Moved T bc bc' b) (h : ChainOk T bc) (hcapped : Capped bc)
    (hle : bc.currentBlock.number ≤ b.number) : Capped bc' := by
  intro n hn
  obtain ⟨c, l, hanc, hpath, -, hout⟩ := hmoved.branch
  rw [hmoved.head, UInt64.lt_iff_toNat_lt, toNat_numberU64 hmoved.mem] at hn
  have hlt : ∀ a, T.mem a → a.number ≤ b.number → a.numberU64 < n := by
    intro a ha hab
    rw [UInt64.lt_iff_toNat_lt, toNat_numberU64 ha]
    omega
  rw [hout n fun a ha heq => ?_]
  · exact hcapped n (hlt _ h.head_mem hle)
  · have := hlt a (hpath.mem_of_mem ha) (hpath.height_le ha)
    rw [heq] at this
    exact UInt64.lt_irrefl n this

theorem Moved.stale (hmoved : Moved T bc bc' b) (h : ChainOk T bc)
    (hlt : b.number < bc.currentBlock.number) :
    bc'.db.readCanonicalHash bc.currentBlock.numberU64 = bc.currentBlock.hash := by
  obtain ⟨c, l, hanc, hpath, -, hout⟩ := hmoved.branch
  rw [ChainDb.readCanonicalHash, hout _ fun a ha heq => ?_]
  · have hindex : bc.db.canonicalHash.get bc.currentBlock.numberU64 = some bc.currentBlock.hash :=
      h.index _ (.refl _)
    rw [hindex]
    rfl
  · have := numberU64_inj (hpath.mem_of_mem ha) h.head_mem heq
    have hle : a.number ≤ b.number := hpath.height_le ha
    omega

theorem Written.capped (h : ChainOk T bc) (hw : Written T answers bc b bc') (hcapped : Capped bc)
    (hrises : Rises bc b) : Capped bc' := by
  rcases hw.cases h with hrested | hmoved
  · intro n hn
    rw [hrested.head] at hn
    exact (hrested.index n).trans (hcapped n hn)
  · refine hmoved.capped h hcapped (not_lt.1 fun hlt => ?_)
    obtain ⟨ptd, localTd, hptd, hlocal, hle, -⟩ := hmoved.td
    exact absurd (hrises ptd localTd hptd hlocal hlt) (not_lt.2 hle)

theorem Reached.capped (h : Reached T cfg (fun bc b _ => Rises bc b) bc) : Capped bc := by
  induction h with
  | genesis =>
    intro n hn
    have hne : n ≠ T.genesis.numberU64 := fun heq => UInt64.lt_irrefl n (heq ▸ hn)
    exact (get_set _ _ _ _).trans (if_neg hne)
  | write _ h hb hne hrises hw ih =>
    exact ((writeBlockWithState_spec h.chainOk hb hne).result hw).1.capped h.chainOk ih hrises

theorem Capped.readCanonicalHash (h : Capped bc) {n : UInt64}
    (hn : bc.currentBlock.numberU64 < n) : bc.db.readCanonicalHash n = 0 := by
  rw [ChainDb.readCanonicalHash, h n hn]
  rfl

/-- **The canonical index.**  However the blocks of a tree are written, the index names the
    ancestors of the head, and the total difficulty of the head does not decrease.  The index
    has nothing above the head as long as only blocks that rise are written; the first other
    one that is written without an error leaves a number above the head. -/
theorem canonical_index (T : BlockTree) (cfg : ChainConfig) :
    (∀ bc, Reached T cfg (fun _ _ _ => True) bc →
      (∀ n ≤ bc.currentBlock.number, ∃ a, T.nodes.Anc bc.currentBlock a ∧ a.number = n ∧
        bc.db.readCanonicalHash (.ofNat n) = a.hash) ∧
      ∀ answers b status err bc', T.mem b → b ≠ T.genesis →
        bc.writeBlockWithState cfg answers b = .ok (status, err, bc') →
        ∃ td td', bc.headTd = some td ∧ bc'.headTd = some td' ∧ td ≤ td') ∧
    ∀ bc, Reached T cfg (fun bc b _ => Rises bc b) bc →
      (∀ n, bc.currentBlock.numberU64 < n → bc.db.readCanonicalHash n = 0) ∧
      ∀ answers b status bc', T.mem b → b ≠ T.genesis →
        bc.writeBlockWithState cfg answers b = .ok (status, none, bc') →
        ((∀ n, bc'.currentBlock.numberU64 < n → bc'.db.readCanonicalHash n = 0) ↔ Rises bc b) := by
  constructor
  · intro bc h
    have hok := h.chainOk
    refine ⟨hok.ancestors, fun answers b status err bc' hb hne hw => ?_⟩
    exact hok.headTd_le ((writeBlockWithState_spec hok hb hne).result hw).1
  · intro bc h
    have hok := h.chainOk
    refine ⟨fun n hn => h.capped.readCanonicalHash hn, fun answers b status bc' hb hne hw => ?_⟩
    obtain ⟨hwritten, hhead⟩ := (writeBlockWithState_spec hok hb hne).result hw
    constructor
    · intro habove
      by_contra hrises
      have hb' := hhead rfl hrises
      have hlt : b.number < bc.currentBlock.number := by
        by_contra hle
        exact hrises fun _ _ _ _ hlt => absurd hlt hle
      rcases hwritten.cases hok with hrested | hmoved
      · rw [← hb', hrested.head] at hlt
        exact lt_irrefl _ hlt
      · refine T.hash_ne_zero hok.head_mem ((hmoved.stale hok hlt).symm.trans (habove _ ?_))
        rw [hb']
        exact (numberU64_lt hb hok.head_mem).2 hlt
    · intro hrises n hn
      exact (hwritten.capped hok h.capped hrises).readCanonicalHash hn

/-! ### A short and heavy branch -/

/-- A block without transactions. -/
def bareBlock (hash parentHash : Word) (number : ℕ) (difficulty : ℤ) : Block :=
  ⟨{ hash, parentHash, number, difficulty }, {}⟩

/-- Two blocks in a row, and a heavier one beside the first. -/
def forkBlocks : List Block :=
  [bareBlock 1 0 0 1, bareBlock 2 1 1 1, bareBlock 3 2 2 1, bareBlock 4 1 1 5]

/-- The tree of these blocks. -/
def forkTree : BlockTree := .ofBlocks (bareBlock 1 0 0 1) forkBlocks (by decide)

theorem mem_forkTree {b : Block} (hb : b ∈ forkBlocks) : forkTree.mem b := hb

/-- The heavier block takes the place of the first one of the other branch. -/
theorem canonical_index_fork : ∃ bc, Reached forkTree {} (fun bc b _ => Rises bc b) bc ∧
    bc.currentBlock = bareBlock 4 1 1 5 ∧ bc.db.readCanonicalHash 1 = 4 ∧
    ∀ n, bc.currentBlock.numberU64 < n → bc.db.readCanonicalHash n = 0 := by
  have hfirst : Reached forkTree {} (fun bc b _ => Rises bc b) _ :=
    .write {} .genesis (mem_forkTree (b := bareBlock 2 1 1 1) (by decide)) (by decide)
      (fun _ _ _ _ hlt => absurd hlt (by decide)) rfl
  have h : Reached forkTree {} (fun bc b _ => Rises bc b) _ :=
    .write {} hfirst (mem_forkTree (b := bareBlock 4 1 1 5) (by decide)) (by decide)
      (fun _ _ _ _ hlt => absurd hlt (by decide)) rfl
  exact ⟨_, h, rfl, rfl, ((canonical_index forkTree {}).2 _ h).1⟩

/-- Both branches are written, the longer one first. -/
theorem exists_fork {P : BlockChain → Block → Answers → Prop} (hP : ∀ bc b, P bc b {}) :
    ∃ bc, Reached forkTree {} P bc ∧ bc.currentBlock = bareBlock 4 1 1 5 ∧
      Stored bc.db (bareBlock 3 2 2 1) ∧ bc.db.readCanonicalHash 2 = 3 := by
  have h₁ : Reached forkTree {} P _ :=
    .write {} .genesis (mem_forkTree (b := bareBlock 2 1 1 1) (by decide)) (by decide) (hP _ _) rfl
  have h₂ : Reached forkTree {} P _ :=
    .write {} h₁ (mem_forkTree (b := bareBlock 3 2 2 1) (by decide)) (by decide) (hP _ _) rfl
  have h₃ : Reached forkTree {} P _ :=
    .write {} h₂ (mem_forkTree (b := bareBlock 4 1 1 5) (by decide)) (by decide) (hP _ _) rfl
  exact ⟨_, h₃, rfl, ⟨rfl, rfl, rfl⟩, rfl⟩

/-- The heavier block becomes the head, and the second block of the other branch stays in the
    index above it. -/
theorem canonical_index_stale : ∃ bc, Reached forkTree {} (fun _ _ _ => True) bc ∧
    bc.currentBlock = bareBlock 4 1 1 5 ∧ bc.db.readCanonicalHash 2 = 3 := by
  obtain ⟨bc, h, hhead, -, hindex⟩ := exists_fork (P := fun _ _ _ => True) fun _ _ => trivial
  exact ⟨bc, h, hhead, hindex⟩

end GoEthereum.Core
