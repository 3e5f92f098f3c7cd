/-
  The choice of the head.

  Of all blocks that were written, the head has the heaviest branch, and a lowest one among
  those of its weight (`heaviest_head`).
-/
import GoEthereum.Core.Canonical

namespace GoEthereum.Core

open BlockChain BlockTree Outcome

variable {T : BlockTree} {cfg : ChainConfig} {bc bc' : BlockChain} {answers : Answers}
  {status : WriteStatus} {err : Option ChainError} {b : Block} {td ptd localTd : ℤ}

/-- Another block comes first: its branch is heavier, or as heavy and not longer. -/
def NotAbove (td : ℤ) (number : ℕ) (td' : ℤ) (number' : ℕ) : Prop :=
  td < td' ∨ td = td' ∧ number' ≤ number

theorem prefers_spec (hb : T.mem b) (hhead : T.mem bc.currentBlock) {coin : Bool} {externTd : ℤ} :
    if bc.prefers cfg coin b externTd localTd
    then NotAbove localTd bc.currentBlock.number externTd b.number
    else NotAbove externTd b.number localTd bc.currentBlock.number := by
  have hlt := numberU64_lt hb hhead
  rcases lt_trichotomy localTd externTd with htd | rfl | htd
  · simp [prefers, NotAbove, htd]
  · simp only [prefers, NotAbove, lt_irrefl, false_or, true_and, if_false, if_true]
    by_cases hn : b.numberU64 < bc.currentBlock.numberU64
    · rw [if_pos hn, if_pos rfl]
      exact (hlt.1 hn).le
    · have hle := not_lt.1 (mt hlt.2 hn)
      rw [if_neg hn]
      split_ifs with heq _ hfalse
      exacts [(numberU64_inj hb hhead heq).le, hle, hfalse.elim, hle]
  · simp [prefers, NotAbove, htd, htd.not_gt, htd.ne]

/-- Without an error of the database, the block is stored and becomes the head if it is
    preferred. -/
theorem write_spec (h : ChainOk T bc) (hb : T.mem b) (hne : b ≠ T.genesis)
    (hanswers : answers.committed = true ∧ answers.written = true)
    (hptd : bc.getTd b.parentHash (b.numberU64 - 1) = some ptd) (hlocal : bc.headTd = some localTd)
    (hw : bc.writeBlockWithState cfg answers b = .ok (status, err, bc')) :
    SameBlocks (bc.db.put b (b.difficulty + ptd)) bc'.db ∧ bc'.currentBlock =
      if bc.prefers cfg answers.coin b (b.difficulty + ptd) localTd then b else bc.currentBlock := by
  obtain ⟨p, hp⟩ := HashTree.exists_parent (T := T.nodes) hb hne
  have hok := h.db.put hp ((getTd_parent hp).symm.trans hptd)
  set preferred := bc.prefers cfg answers.coin b (b.difficulty + ptd) localTd
  set bc₁ := bc.writeBlockWithoutState b (b.difficulty + ptd) with hbc₁
  obtain ⟨bc₂, hreorg, hsame⟩ : ∃ bc₂, bc₁.reorgFor b = .ok (none, bc₂) ∧
      SameBlocks bc₁.db bc₂.db := by
    rw [reorgFor]
    split_ifs
    · obtain ⟨s, hs, -, hnew⟩ := reorg_spec bc₁ hok h.head_mem
        ((stored_put h.head_mem hb _).2 (.inr h.head)) hb (stored_put_self _)
      exact ⟨_, hs, (switchTo_spec bc₁ hnew).2.2.2.2⟩
    · exact ⟨_, rfl, .refl _⟩
  have hhead : bc.getTd bc.currentBlock.hash bc.currentBlock.numberU64 = some localTd := hlocal
  rw [writeBlockWithState, hptd] at hw
  simp only [hhead, hanswers.1, Bool.not_true, Bool.false_eq_true, if_false, ← hbc₁] at hw
  rcases hchoose : bc₁.chooseHeader cfg b with _ | _
  · rw [hchoose] at hw
    cases hw
  have hprefers : bc₁.prefers cfg answers.coin b (b.difficulty + ptd) localTd = preferred := rfl
  rw [hchoose, ok_bind, finishWrite, hprefers, hanswers.2, hreorg] at hw
  by_cases hp : preferred = true
  · rw [if_pos hp] at hw ⊢
    cases hw
    exact ⟨hsame.trans (putHead_spec bc₂ b).2.2, (putHead_spec bc₂ b).1⟩
  · rw [if_neg hp] at hw ⊢
    have hbc : bc₁ = bc' := congrArg (·.2.2) (Except.ok.inj hw)
    rw [← hbc]
    exact ⟨.refl _, rfl⟩

/-- No block that was written comes before the head. -/
def Heaviest (T : BlockTree) (bc : BlockChain) : Prop :=
  ∀ a td headTd, T.mem a → bc.getTd a.hash a.numberU64 = some td → bc.headTd = some headTd →
    NotAbove td a.number headTd bc.currentBlock.number

theorem Heaviest.written (h : Heaviest T bc) (hok : ChainOk T bc) (hb : T.mem b)
    (hne : b ≠ T.genesis) (hanswers : answers.committed = true ∧ answers.written = true)
    (hw : bc.writeBlockWithState cfg answers b = .ok (status, err, bc')) : Heaviest T bc' := by
  obtain ⟨localTd, hlocal⟩ := Option.isSome_iff_exists.1 hok.head.td
  rcases hptd : bc.getTd b.parentHash (b.numberU64 - 1) with _ | ptd
  · rw [writeBlockWithState, hptd] at hw
    cases hw
    exact h
  obtain ⟨hsame, hcurrent⟩ := write_spec hok hb hne hanswers hptd hlocal hw
  have hspec := @prefers_spec T cfg bc b localTd hb hok.head_mem answers.coin (b.difficulty + ptd)
  obtain ⟨p, hp⟩ := HashTree.exists_parent (T := T.nodes) hb hne
  have hgrows := (Grows.put hok.db hp ((getTd_parent hp).symm.trans hptd)).same hsame
  have hself : bc'.getTd b.hash b.numberU64 = some (b.difficulty + ptd) := readTd_of_same hsame
  intro a td headTd ha htd hhead
  have hold : a = b ∨ NotAbove td a.number localTd bc.currentBlock.number := by
    by_cases hab : a = b
    · exact .inl hab
    · exact .inr (h a td localTd ha (((hsame.readTd _ _).trans
        (readTd_put_of_ne ha hb hab _)).symm.trans htd) hlocal)
  rw [BlockChain.headTd] at hhead
  split_ifs at hspec hcurrent with hprefers
  · rw [hcurrent, hself] at hhead
    cases hhead
    rw [hcurrent]
    rcases hold with rfl | hold
    · exact .inr ⟨Option.some.inj (htd.symm.trans hself), le_rfl⟩
    · unfold NotAbove at *
      omega
  · rw [hcurrent, BlockChain.getTd, hgrows.readTd hok.head_mem hok.head, hlocal] at hhead
    cases hhead
    rw [hcurrent]
    rcases hold with rfl | hold
    · rw [Option.some.inj (htd.symm.trans hself)]
      exact hspec
    · exact hold

theorem Reached.heaviest (h : Reached T cfg
    (fun _ _ answers => answers.committed = true ∧ answers.written = true) bc) : Heaviest T bc := by
  induction h with
  | genesis =>
    intro a td headTd ha htd hhead
    have hsame : SameBlocks (({} : ChainDb).put T.genesis T.genesis.difficulty)
      (ofGenesis T.genesis).db := ⟨rfl, rfl, rfl⟩
    obtain ⟨a', ha', hstored, hhash, -⟩ := (chainOk_genesis T).db.stored htd
    obtain rfl := T.hash_inj ha' ha hhash
    obtain rfl := stored_genesis ha (hsame.stored.1 hstored)
    exact .inr ⟨Option.some.inj (htd.symm.trans hhead), le_rfl⟩
  | write answers h hb hne hanswers hw ih => exact ih.written h.chainOk hb hne hanswers hw

/-- The sum of the difficulties of the blocks. -/
def weight (l : List Block) : ℤ := (l.map Block.difficulty).sum

/-- The total difficulty of a block is the weight of its branch, and its number the length. -/
theorem DbOk.readTd_path {db : ChainDb} (h : DbOk T db) {l : List Block}
    (hpath : T.nodes.Path b l T.genesis) (hb : Stored db b)
    (hg : db.readTd T.genesis.hash T.genesis.numberU64 = some td) :
    db.readTd b.hash b.numberU64 = some (weight l + td) ∧ b.number = l.length := by
  induction l generalizing b with
  | nil =>
    cases hpath
    rw [hg, weight, List.map_nil, List.sum_nil, zero_add]
    exact ⟨rfl, T.number_genesis⟩
  | cons _ l ih =>
    cases hpath with
    | cons hp hrest =>
      obtain ⟨htd, hnumber⟩ := ih hrest (h.parents hb hp)
      obtain ⟨td', htd'⟩ := Option.isSome_iff_exists.1 hb.td
      rw [htd', h.td_eq hb hp htd' htd, weight, weight, List.map_cons, List.sum_cons, add_assoc,
        List.length_cons, ← hnumber]
      exact ⟨rfl, hp.height_eq⟩

/-- **The head is a heaviest block.**  However the blocks of a tree are written, without errors
    of the database, the branch of the head is heavier than that of any other block that was
    written, or as heavy and not longer. -/
theorem heaviest_head (T : BlockTree) (cfg : ChainConfig) {bc : BlockChain}
    (h : Reached T cfg (fun _ _ answers => answers.committed = true ∧ answers.written = true) bc)
    {b : Block} (hb : T.mem b) (hstored : Stored bc.db b) {l main : List Block}
    (hl : T.nodes.Path b l T.genesis) (hmain : T.nodes.Path bc.currentBlock main T.genesis) :
    weight l < weight main ∨ weight l = weight main ∧ main.length ≤ l.length := by
  have hok := h.chainOk
  obtain ⟨td, hg⟩ := Option.isSome_iff_exists.1 hok.db.genesis.td
  obtain ⟨htd, hnumber⟩ := hok.db.readTd_path hl hstored hg
  obtain ⟨hhead, hlength⟩ := hok.db.readTd_path hmain hok.head hg
  have habove := h.heaviest b _ _ hb htd hhead
  rw [NotAbove, hnumber, hlength] at habove
  omega

/-- The shorter branch becomes that of the head. -/
theorem heaviest_head_fork : ∃ bc : BlockChain, bc.currentBlock = bareBlock 4 1 1 5 ∧
    Stored bc.db (bareBlock 3 2 2 1) ∧
    (weight [bareBlock 3 2 2 1, bareBlock 2 1 1 1] < weight [bareBlock 4 1 1 5] ∨
      weight [bareBlock 3 2 2 1, bareBlock 2 1 1 1] = weight [bareBlock 4 1 1 5] ∧ 1 ≤ 2) := by
  obtain ⟨bc, h, hhead, hstored, -⟩ := exists_fork
    (P := fun _ _ answers => answers.committed = true ∧ answers.written = true)
    fun _ _ => ⟨rfl, rfl⟩
  have hparent {b a : Block} (hb : b ∈ forkBlocks) (ha : a ∈ forkBlocks)
      (hne : b ≠ forkTree.genesis) (hhash : a.hash = b.parentHash) : forkTree.nodes.Parent b a :=
    ⟨mem_forkTree hb, hne, mem_forkTree ha, hhash⟩
  refine ⟨bc, hhead, hstored, heaviest_head forkTree {} h (mem_forkTree (by decide)) hstored ?_ ?_⟩
  · exact .cons (hparent (by decide) (by decide) (by decide) rfl)
      (.cons (hparent (by decide) forkTree.genesis_mem (by decide) rfl) .nil)
  · rw [hhead]
    exact .cons (hparent (by decide) forkTree.genesis_mem (by decide) rfl) .nil

end GoEthereum.Core
