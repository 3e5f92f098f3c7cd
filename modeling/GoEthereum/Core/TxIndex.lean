/-
  The transaction lookup entries (`txLookup_index`).

  If no branch has a transaction twice, the entries name exactly the transactions of the
  canonical chain: a reorganisation writes those of the new branch and deletes those that
  are only on the old one.
-/
import GoEthereum.Core.Canonical

namespace GoEthereum.Core

open AssocMap BlockTree Outcome BlockChain

variable {T : BlockTree} {cfg : ChainConfig} {answers : Answers} {bc bc' : BlockChain}
  {a b c : Block} {l : List Block} {hash : Word} {i j : ℕ}

/-! ## Entries -/

namespace Block

/-- The block has a transaction with this hash at a position. -/
def HasTx (b : Block) (i : ℕ) (hash : Word) : Prop :=
  (b.transactions[i]?).map Transaction.hash = some hash

/-- The entry of a transaction of the block. -/
def entry (b : Block) (i : ℕ) : TxLookupEntry := ⟨b.hash, b.numberU64, .ofNat i⟩

theorem exists_hasTx : (∃ i, b.HasTx i hash) ↔ hash ∈ b.transactions.map Transaction.hash := by
  simp only [HasTx, List.mem_iff_getElem?, List.getElem?_map]

end Block

/-- A transaction that is on both sides, at a position on each. -/
def Unrepeated (l : List Block) : Prop :=
  ∀ a ∈ l, ∀ c ∈ l, ∀ hash i j, a.HasTx i hash → c.HasTx j hash → a = c ∧ i = j

/-- No branch has a transaction twice. -/
def NoRepeats (T : BlockTree) : Prop :=
  ∀ b a c hash i j, T.mem b → T.nodes.Anc b a → T.nodes.Anc b c → a.HasTx i hash → c.HasTx j hash →
    a = c ∧ i = j

theorem get_foldl_entries (b : Block) (l : List (Transaction × ℕ))
    (m : AssocMap Word TxLookupEntry) :
    (∀ p ∈ l, (∀ q ∈ l, q.1.hash = p.1.hash → q = p) →
      (l.foldl (fun m p => m.set p.1.hash (b.entry p.2)) m).get p.1.hash = some (b.entry p.2)) ∧
    ∀ hash, (∀ p ∈ l, p.1.hash ≠ hash) →
      (l.foldl (fun m p => m.set p.1.hash (b.entry p.2)) m).get hash = m.get hash := by
  induction l generalizing m with
  | nil => exact ⟨nofun, fun _ _ => rfl⟩
  | cons p l ih =>
    obtain ⟨hin, hout⟩ := ih (m.set p.1.hash (b.entry p.2))
    rw [List.foldl_cons]
    refine ⟨fun p' hp' huniq => ?_, fun hash hne => ?_⟩
    · by_cases hmem : p' ∈ l
      · exact hin p' hmem fun q hq => huniq q (.tail _ hq)
      · have heq : p' = p := (List.mem_cons.1 hp').resolve_right hmem
        subst heq
        rw [hout p'.1.hash fun q hq hhash => hmem (huniq q (.tail _ hq) hhash ▸ hq)]
        exact get_set_self _ _ _
    · rw [hout hash fun q hq => hne q (.tail _ hq), get_set, if_neg (Ne.symm (hne p (.head _)))]

theorem get_writeTxLookupEntries (db : ChainDb) (hb : Unrepeated [b]) (i : ℕ) (hash : Word) :
    (b.HasTx i hash → (db.writeTxLookupEntries b).txLookup.get hash = some (b.entry i)) ∧
    ((∀ i, ¬b.HasTx i hash) →
      (db.writeTxLookupEntries b).txLookup.get hash = db.txLookup.get hash) := by
  obtain ⟨hin, hout⟩ := get_foldl_entries b b.transactions.zipIdx db.txLookup
  have hat : ∀ p ∈ b.transactions.zipIdx, b.HasTx p.2 p.1.hash := by
    intro p hp
    rw [Block.HasTx, List.mem_zipIdx_iff_getElem?.1 hp]
    rfl
  constructor
  · intro hi
    obtain ⟨tx, htx, rfl⟩ := Option.map_eq_some_iff.1 hi
    refine hin (tx, i) (List.mem_zipIdx_iff_getElem?.2 htx) fun q hq hhash => ?_
    have hqi : q.2 = i := (hb b (.head _) b (.head _) _ _ _ (hat q hq) (hhash ▸ hi)).2
    have hq' := List.mem_zipIdx_iff_getElem?.1 hq
    rw [hqi, htx] at hq'
    exact Prod.ext (Option.some.inj hq').symm hqi
  · exact fun hnone => hout hash fun p hp hhash => hnone p.2 (hhash ▸ hat p hp)

/-- The entries after a branch became canonical. -/
theorem get_adopts (hl : Unrepeated l) (bc : BlockChain) (i : ℕ) (hash : Word) :
    (∀ a ∈ l, a.HasTx i hash →
      (l.foldr (fun block bc => bc.adopt block) bc).db.txLookup.get hash = some (a.entry i)) ∧
    ((∀ a ∈ l, ∀ i, ¬a.HasTx i hash) →
      (l.foldr (fun block bc => bc.adopt block) bc).db.txLookup.get hash =
        bc.db.txLookup.get hash) := by
  induction l with
  | nil => exact ⟨nofun, fun _ => rfl⟩
  | cons b l ih =>
    obtain ⟨hin, hout⟩ := ih fun a ha c hc => hl a (.tail _ ha) c (.tail _ hc)
    have hb : Unrepeated [b] := by
      intro a ha c hc
      rw [List.mem_singleton.1 ha, List.mem_singleton.1 hc]
      exact hl b (.head _) b (.head _)
    have hlookup : ∀ bc : BlockChain, (bc.adopt b).db.txLookup =
        (bc.db.writeTxLookupEntries b).txLookup := by
      intro bc
      change (((bc.insert b).db.writeTxLookupEntries b).txLookup = _)
      rw [ChainDb.writeTxLookupEntries, (insert_spec bc b).2.2.1]
      rfl
    rw [List.foldr_cons, hlookup]
    obtain ⟨hbin, hbout⟩ := get_writeTxLookupEntries
      (l.foldr (fun block bc => bc.adopt block) bc).db hb i hash
    refine ⟨fun a ha hi => ?_, fun hnone => ?_⟩
    · by_cases hbi : ∃ j, b.HasTx j hash
      · obtain ⟨j, hj⟩ := hbi
        obtain ⟨rfl, rfl⟩ := hl a ha b (.head _) _ _ _ hi hj
        exact hbin hi
      · rcases List.mem_cons.1 ha with rfl | ha
        · exact absurd ⟨i, hi⟩ hbi
        · exact (hbout fun j hj => hbi ⟨j, hj⟩).trans (hin a ha hi)
    · exact (hbout (hnone b (.head _))).trans (hout fun a ha => hnone a (.tail _ ha))

theorem get_foldl_delete (txs : List Transaction) (db : ChainDb) (hash : Word) :
    (txs.foldl (fun db tx => db.deleteTxLookupEntry tx.hash) db).txLookup.get hash =
      if hash ∈ txs.map Transaction.hash then none else db.txLookup.get hash := by
  induction txs generalizing db with
  | nil => rfl
  | cons tx txs ih =>
    rw [List.foldl_cons, ih, List.map_cons]
    by_cases htxs : hash ∈ txs.map Transaction.hash
    · rw [if_pos htxs, if_pos (.tail _ htxs)]
    · rw [if_neg htxs, ChainDb.deleteTxLookupEntry, get_erase]
      simp only [List.mem_cons, htxs, or_false]

theorem mem_txDifference {txs txs' : List Transaction} :
    hash ∈ (txDifference txs txs').map Transaction.hash ↔
      hash ∈ txs.map Transaction.hash ∧ hash ∉ txs'.map Transaction.hash := by
  simp only [txDifference, List.mem_map, List.mem_filter, decide_eq_true_eq]
  constructor
  · rintro ⟨tx, ⟨htx, hnot⟩, rfl⟩
    exact ⟨⟨tx, htx, rfl⟩, hnot⟩
  · rintro ⟨⟨tx, htx, rfl⟩, hnot⟩
    exact ⟨tx, ⟨htx, hnot⟩, rfl⟩

theorem mem_flatMap_hashes : hash ∈ (l.flatMap Block.transactions).map Transaction.hash ↔
    ∃ a ∈ l, ∃ i, a.HasTx i hash := by
  simp only [Block.exists_hasTx, List.mem_map, List.mem_flatMap]
  constructor
  · rintro ⟨tx, ⟨a, ha, htx⟩, rfl⟩
    exact ⟨a, ha, tx, htx, rfl⟩
  · rintro ⟨a, ha, tx, htx, rfl⟩
    exact ⟨tx, ⟨a, ha, htx⟩, rfl⟩

/-- The entries after a reorganisation. -/
theorem get_switchTo (bc : BlockChain) (s : Split) (hl : Unrepeated s.newChain) (hash : Word) :
    (∀ a ∈ s.newChain, ∀ i, a.HasTx i hash →
      (bc.switchTo s).db.txLookup.get hash = some (a.entry i)) ∧
    ((∀ a ∈ s.newChain, ∀ i, ¬a.HasTx i hash) →
      ((∃ a ∈ s.oldChain, ∃ i, a.HasTx i hash) → (bc.switchTo s).db.txLookup.get hash = none) ∧
      ((∀ a ∈ s.oldChain, ∀ i, ¬a.HasTx i hash) →
        (bc.switchTo s).db.txLookup.get hash = bc.db.txLookup.get hash)) := by
  have hadopts := get_adopts hl bc
  have hdiff : hash ∈ (txDifference (s.oldChain.flatMap Block.transactions)
      (s.newChain.reverse.flatMap Block.transactions)).map Transaction.hash ↔
      (∃ a ∈ s.oldChain, ∃ i, a.HasTx i hash) ∧ ¬∃ a ∈ s.newChain, ∃ i, a.HasTx i hash := by
    rw [mem_txDifference, mem_flatMap_hashes, mem_flatMap_hashes]
    simp only [List.mem_reverse]
  rw [switchTo]
  simp only [get_foldl_delete]
  refine ⟨fun a ha i hi => ?_, fun hnew => ⟨fun hold => ?_, fun hold => ?_⟩⟩
  · rw [if_neg fun h => (hdiff.1 h).2 ⟨a, ha, i, hi⟩]
    exact (hadopts i hash).1 a ha hi
  · have hnone : ¬∃ a ∈ s.newChain, ∃ i, a.HasTx i hash := by
      rintro ⟨a, ha, i, hi⟩
      exact hnew a ha i hi
    rw [if_pos (hdiff.2 ⟨hold, hnone⟩)]
  · rw [if_neg]
    · exact (hadopts 0 hash).2 hnew
    · intro h
      obtain ⟨a, ha, i, hi⟩ := (hdiff.1 h).1
      exact hold a ha i hi

/-! ## The canonical chain -/

/-- The transaction is on the branch of `b`, with this entry. -/
def OnBranch (T : BlockTree) (b : Block) (hash : Word) (entry : TxLookupEntry) : Prop :=
  ∃ a i, T.nodes.Anc b a ∧ a.HasTx i hash ∧ entry = a.entry i

/-- The entries are those of the canonical chain. -/
def Lookups (T : BlockTree) (bc : BlockChain) : Prop :=
  ∀ hash entry, bc.db.txLookup.get hash = some entry ↔ OnBranch T bc.currentBlock hash entry

theorem NoRepeats.path (h : NoRepeats T) (hb : T.mem b) (hpath : T.nodes.Path b l c) :
    Unrepeated l := fun _ ha _ hc hash i j hi hj =>
  h b _ _ hash i j hb (hpath.anc_iff.2 (.inl ha)) (hpath.anc_iff.2 (.inl hc)) hi hj

/-- The entries of the old branch give way to those of the new one. -/
theorem Lookups.switch {lo ln : List Block} (hno : NoRepeats T) (h : Lookups T bc)
    (hhead : T.mem bc.currentBlock) (hb : T.mem b) (hold : T.nodes.Path bc.currentBlock lo c)
    (hnew : T.nodes.Path b ln c) (hbc' : bc'.currentBlock = b)
    (hin : ∀ hash, ∀ a ∈ ln, ∀ i, a.HasTx i hash →
      bc'.db.txLookup.get hash = some (a.entry i))
    (hgone : ∀ hash, (∀ a ∈ ln, ∀ i, ¬a.HasTx i hash) → (∃ a ∈ lo, ∃ i, a.HasTx i hash) →
      bc'.db.txLookup.get hash = none)
    (hout : ∀ hash, (∀ a ∈ ln, ∀ i, ¬a.HasTx i hash) → (∀ a ∈ lo, ∀ i, ¬a.HasTx i hash) →
      bc'.db.txLookup.get hash = bc.db.txLookup.get hash) : Lookups T bc' := by
  intro hash entry
  rw [hbc']
  constructor
  · intro hget
    by_cases hn : ∃ a ∈ ln, ∃ i, a.HasTx i hash
    · obtain ⟨a, ha, i, hi⟩ := hn
      rw [hin hash a ha i hi] at hget
      exact ⟨a, i, hnew.anc_iff.2 (.inl ha), hi, (Option.some.inj hget).symm⟩
    · have hn : ∀ a ∈ ln, ∀ i, ¬a.HasTx i hash := fun a ha i hi => hn ⟨a, ha, i, hi⟩
      by_cases ho : ∃ a ∈ lo, ∃ i, a.HasTx i hash
      · rw [hgone hash hn ho] at hget
        cases hget
      · rw [hout hash hn fun a ha i hi => ho ⟨a, ha, i, hi⟩] at hget
        obtain ⟨a, i, ha, hi, rfl⟩ := (h hash entry).1 hget
        rcases hold.anc_iff.1 ha with ha | ha
        · exact absurd ⟨a, ha, i, hi⟩ ho
        · exact ⟨a, i, hnew.anc.trans ha, hi, rfl⟩
  · rintro ⟨a, i, ha, hi, rfl⟩
    rcases hnew.anc_iff.1 ha with hmem | hac
    · exact hin hash a hmem i hi
    · -- a transaction below the common block is on neither branch above it
      have habove : ∀ {x : Block} {l : List Block}, T.mem x → T.nodes.Path x l c →
          ∀ d ∈ l, ∀ j, ¬d.HasTx j hash := by
        intro x l hx hpath d hd j hj
        have heq := (hno x d a hash j i hx (hpath.anc_iff.2 (.inl hd)) (hpath.anc.trans hac) hj hi).1
        have hlt : c.number < d.number := hpath.height_lt hd
        have hle : a.number ≤ c.number := hac.height_le
        rw [heq] at hlt
        omega
      rw [hout hash (habove hb hnew) (habove hhead hold)]
      exact (h hash _).2 ⟨a, i, hold.anc.trans hac, hi, rfl⟩

theorem txLookup_putHead (bc : BlockChain) (b : Block) :
    (bc.putHead b).db.txLookup = (bc.db.writeTxLookupEntries b).txLookup :=
  (insert_spec { bc with db := bc.db.writeTxLookupEntries b } b).2.2.1

theorem Lookups.written (hno : NoRepeats T) (hok : ChainOk T bc) (h : Lookups T bc)
    (hanswers : answers.written = true) (hw : Written T answers bc b bc') : Lookups T bc' := by
  cases hw with
  | refused => exact h
  | kept _ _ => exact h
  | @extended ptd hp _ _ =>
    have hb : T.mem b := hp.child_mem
    have hpath : T.nodes.Path b [b] bc.currentBlock := .cons hp .nil
    have hget := get_writeTxLookupEntries
      (bc.writeBlockWithoutState b (b.difficulty + ptd)).db (hno.path hb hpath)
    refine h.switch hno hok.head_mem hb .nil hpath (putHead_spec _ b).1 ?_ ?_ ?_
    · intro hash a ha i hi
      rw [List.mem_singleton.1 ha] at hi ⊢
      rw [txLookup_putHead]
      exact (hget i hash).1 hi
    · exact fun hash _ ⟨a, ha, _⟩ => nomatch ha
    · intro hash hn _
      rw [txLookup_putHead]
      exact (hget 0 hash).2 (hn b (.head _))
  | @switched p ptd localTd s hp _ _ _ hold hnew =>
    have hb : T.mem b := hp.child_mem
    have hswitch := get_switchTo (bc.writeBlockWithoutState b (b.difficulty + ptd)) s
      (hno.path hb hnew)
    have hget := get_writeTxLookupEntries
      ((bc.writeBlockWithoutState b (b.difficulty + ptd)).switchTo s).db
      (b := b) fun a ha c hc hash i j => by
        rw [List.mem_singleton.1 ha, List.mem_singleton.1 hc]
        exact hno b b b hash i j hb (.refl b) (.refl b)
    simp only [hanswers, if_true]
    -- the block itself is on its branch, or it is the common block
    have hself : b ∈ s.newChain ∨ T.nodes.Anc s.commonBlock b := hnew.anc_iff.1 (.refl b)
    refine h.switch hno hok.head_mem hb hold hnew (putHead_spec _ b).1 ?_ ?_ ?_
    · intro hash a ha i hi
      rw [txLookup_putHead]
      by_cases hbi : ∃ j, b.HasTx j hash
      · obtain ⟨j, hj⟩ := hbi
        obtain ⟨rfl, rfl⟩ := hno b a b hash i j hb (hnew.anc_iff.2 (.inl ha)) (.refl b) hi hj
        exact (hget i hash).1 hi
      · rw [(hget 0 hash).2 fun j hj => hbi ⟨j, hj⟩]
        exact (hswitch hash).1 a ha i hi
    · intro hash hn ⟨a, ha, i, hi⟩
      have hbn : ∀ j, ¬b.HasTx j hash := by
        intro j hj
        rcases hself with hmem | hanc
        · exact hn b hmem j hj
        · have heq := (hno bc.currentBlock a b hash i j hok.head_mem (hold.anc_iff.2 (.inl ha))
            (hold.anc.trans hanc) hi hj).1
          have hlt : s.commonBlock.number < a.number := hold.height_lt ha
          have hle : b.number ≤ s.commonBlock.number := hanc.height_le
          rw [heq] at hlt
          omega
      rw [txLookup_putHead, (hget 0 hash).2 hbn]
      exact ((hswitch hash).2 hn).1 ⟨a, ha, i, hi⟩
    · intro hash hn ho
      rw [txLookup_putHead]
      by_cases hbi : ∃ j, b.HasTx j hash
      · obtain ⟨j, hj⟩ := hbi
        rw [(hget j hash).1 hj]
        rcases hself with hmem | hanc
        · exact absurd hj (hn b hmem j)
        · exact ((h hash _).2 ⟨b, j, hold.anc.trans hanc, hj, rfl⟩).symm
      · rw [(hget 0 hash).2 fun j hj => hbi ⟨j, hj⟩]
        exact ((hswitch hash).2 hn).2 ho

theorem lookups_genesis (T : BlockTree) : Lookups T (ofGenesis T.genesis) := by
  intro hash entry
  refine ⟨nofun, fun ⟨a, i, ha, hi, _⟩ => ?_⟩
  have hle : a.number ≤ T.genesis.number := ha.height_le
  have hzero : a.number = 0 := by
    rw [T.number_genesis] at hle
    omega
  rw [eq_genesis (ha.mem T.genesis_mem) hzero, Block.HasTx, Block.transactions, T.body_genesis]
    at hi
  cases hi

/-- **Lookup entries.**  If no branch has a transaction twice and all batches are written, there
    is an entry for a transaction exactly if it is on the canonical chain, and it names the
    block, its number and the position. -/
theorem txLookup_index (T : BlockTree) (cfg : ChainConfig) (hno : NoRepeats T)
    (bc : BlockChain)
    (h : Reached T cfg (fun _ _ answers => answers.written = true) bc) (hash : Word)
    (entry : TxLookupEntry) :
    bc.db.txLookup.get hash = some entry ↔ ∃ a i, T.nodes.Anc bc.currentBlock a ∧
      (a.transactions[i]?).map Transaction.hash = some hash ∧
      entry = ⟨a.hash, a.numberU64, .ofNat i⟩ := by
  have hlookups : Lookups T bc := by
    induction h with
    | genesis => exact lookups_genesis T
    | write _ h hb hne hwritten hw ih =>
      exact ih.written hno h.chainOk hwritten
        ((writeBlockWithState_spec h.chainOk hb hne).result hw).1
  exact hlookups hash entry

/-! ### A transaction on both sides -/

/-- A block at number 1 with transactions. -/
def txBlock (hash : Word) (difficulty : ℤ) (txs : List Word) : Block :=
  ⟨{ hash, parentHash := 1, number := 1, difficulty },
    { transactions := txs.map fun hash => ⟨hash, 0, 0, 0, none, 0, []⟩ }⟩

/-- Two branches that share a transaction. -/
def sharedBlocks : List Block := [bareBlock 1 0 0 1, txBlock 2 1 [7, 8], txBlock 3 2 [8, 9]]

/-- The tree of these blocks. -/
def sharedTree : BlockTree := .ofBlocks (bareBlock 1 0 0 1) sharedBlocks (by decide)

theorem sharedTree_noRepeats : NoRepeats sharedTree := by
  have hone : ∀ a ∈ sharedBlocks, a.transactions ≠ [] → a.number = 1 := by decide
  have hnodup : ∀ a ∈ sharedBlocks, (a.transactions.map Transaction.hash).Nodup := by decide
  have hnumber : ∀ {a : Block} {i : ℕ} {hash : Word}, a ∈ sharedBlocks → a.HasTx i hash →
      a.number = 1 := by
    intro a i hash ha hi
    refine hone a ha fun hnil => ?_
    rw [Block.HasTx, hnil] at hi
    cases hi
  intro b a c hash i j hb ha hc hi hj
  have ham : a ∈ sharedBlocks := ha.mem hb
  have hcm : c ∈ sharedBlocks := hc.mem hb
  have heq : a = c := ha.eq_of_height_eq hc ((hnumber ham hi).trans (hnumber hcm hj).symm)
  subst heq
  refine ⟨rfl, ?_⟩
  rw [Block.HasTx, ← List.getElem?_map] at hi hj
  obtain ⟨hlt, -⟩ := List.getElem?_eq_some_iff.1 hi
  exact (List.getElem?_inj hlt (hnodup a ham)).1 (hi.trans hj.symm)

/-- After both blocks are written, the shared transaction is found in the second one. -/
theorem txLookup_index_shared : ∃ bc : BlockChain,
    (bc.db.txLookup.get 8 = some ⟨3, 1, 0⟩ ↔ ∃ a i, sharedTree.nodes.Anc bc.currentBlock a ∧
      (a.transactions[i]?).map Transaction.hash = some 8 ∧
      (⟨3, 1, 0⟩ : TxLookupEntry) = ⟨a.hash, a.numberU64, .ofNat i⟩) ∧
    bc.db.txLookup.get 8 = some ⟨3, 1, 0⟩ ∧ bc.db.txLookup.get 7 = none := by
  have hmem : ∀ b ∈ sharedBlocks, sharedTree.mem b := fun b hb => hb
  have h₁ : Reached sharedTree {} (fun _ _ answers => answers.written = true) _ :=
    .write {} .genesis (hmem (txBlock 2 1 [7, 8]) (by decide)) (by decide) rfl rfl
  have h₂ : Reached sharedTree {} (fun _ _ answers => answers.written = true) _ :=
    .write {} h₁ (hmem (txBlock 3 2 [8, 9]) (by decide)) (by decide) rfl rfl
  exact ⟨_, txLookup_index sharedTree {} sharedTree_noRepeats _ h₂ 8 ⟨3, 1, 0⟩, rfl, rfl⟩

end GoEthereum.Core
