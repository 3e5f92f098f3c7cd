/-
  The hash of a trie.

  The hash of a trie depends only on what it maps (`hash_eq_of_content`): the tree of a
  run is the only one in normal form with its content.  The hash also determines what
  the trie maps (`content_eq_of_hash`): a node is read back from its encoding, and the
  hash of a child stands for the encoding of the child.
-/
import GoEthereum.Trie.Run

namespace GoEthereum.Trie

open GoEthereum.Rlp Patricia

variable {keccak : Bytes → Hash} {S : Set Bytes} {t : PTree}

/-! ## One hash for a map -/

theorem treeOf_eq {ops ops' : List TrieOp} (h : content ops = content ops') :
    treeOf ops = treeOf ops' := by
  have hg := good_treeOf ops
  have hg' := good_treeOf ops'
  have hkeys : ∀ k : Bytes, (treeOf ops).lookup (keybytesToHex k) =
      (treeOf ops').lookup (keybytesToHex k) := by
    intro k
    have hmap := congrFun h k
    rw [← lookup_treeOf, ← lookup_treeOf] at hmap
    exact Option.map_injective Value.bytes_injective hmap
  have hsame : Tree.Same term (treeOf ops) (treeOf ops') := by
    intro key hk
    rcases hl : (treeOf ops).lookup key with _ | v
    · rcases hl' : (treeOf ops').lookup key with _ | v
      · rfl
      · obtain ⟨k, rfl⟩ := hg'.keys key v hk hl'
        rw [← hkeys, hl] at hl'
        cases hl'
    · obtain ⟨k, rfl⟩ := hg.keys key v hk hl
      rw [← hkeys, hl]
  have hne : ∀ {t : PTree}, t.Canon term → ¬ Tree.Same term t .nil := by
    intro t hc hs
    obtain ⟨key, v, hk, hl⟩ := hc.exists_key
    rw [hs key hk] at hl
    cases hl
  rcases hg.canon with h0 | hc
  · rcases hg'.canon with h0' | hc'
    · rw [h0, h0']
    · rw [h0] at hsame
      exact absurd hsame.symm (hne hc')
  · rcases hg'.canon with h0' | hc'
    · rw [h0'] at hsame
      exact absurd hsame (hne hc)
    · exact hc.unique hc' hsame

/-- **The hash depends only on what the trie maps**, not on the calls that led there. -/
theorem hash_eq_of_content (keccak : Bytes → Hash) (ops ops' : List TrieOp)
    (hK : KeccakOk keccak {b | b ∈ encodings keccak ops})
    (hK' : KeccakOk keccak {b | b ∈ encodings keccak ops'})
    (hfair : World.Fair keccak World.init ops) (hfair' : World.Fair keccak World.init ops')
    (h : content ops = content ops') :
    ∃ w w' root trie trie', World.init.run keccak ops = .ok w ∧
      World.init.run keccak ops' = .ok w' ∧ w.trie.hash keccak = some (root, trie) ∧
      w'.trie.hash keccak = some (root, trie') := by
  obtain ⟨w, hrun, hi, hcov⟩ := run_inv (fun _ h => h) hK hfair
  obtain ⟨w', hrun', hi', hcov'⟩ := run_inv (fun _ h => h) hK' hfair'
  obtain ⟨trie, hhash, -⟩ := hash_inv hi hcov
  obtain ⟨trie', hhash', -⟩ := hash_inv hi' hcov'
  rw [← treeOf_eq h] at hhash'
  exact ⟨w, w', _, trie, trie', hrun, hrun', hhash, hhash'⟩

/-- One word, stored at once. -/
def oneWordOps : List TrieOp := [.update wordDo wordVerb]

theorem oneWord_keccakOk : KeccakOk wordKeccak {b | b ∈ encodings wordKeccak oneWordOps} :=
  keccakOk_of_list (by decide +kernel) (by decide +kernel) (by decide +kernel)

theorem content_oneWordOps : content wordOps = content oneWordOps := by
  funext key
  simp only [content, wordOps, oneWordOps, List.foldl_cons, List.foldl_nil, TrieOp.setContent,
    Function.update_apply]
  split_ifs with h₁ h₂ <;> first | rfl | (rw [h₁] at h₂; cases h₂)

theorem hash_eq_of_content_words : ∃ w w' root trie trie',
    World.init.run wordKeccak wordOps = .ok w ∧ World.init.run wordKeccak oneWordOps = .ok w' ∧
      w.trie.hash wordKeccak = some (root, trie) ∧ w'.trie.hash wordKeccak = some (root, trie') :=
  hash_eq_of_content wordKeccak wordOps oneWordOps wordKeccak_ok oneWord_keccakOk
    (fair_of_forall (by simp [wordOps]) _) (fair_of_forall (by simp [oneWordOps]) _)
    content_oneWordOps

/-! ## One map for a hash -/

/-- A node of a tree: nothing, a value, or a tree in normal form. -/
def Proper (t : PTree) : Prop := t = .nil ∨ (∃ v, t = .value v) ∨ t.Canon term ∧ t.Fits

theorem Proper.short {k : Hex} (h : Proper (.short k t)) : Proper t := by
  rcases h with h | ⟨v, h⟩ | ⟨hc, hf⟩
  · cases h
  · cases h
  · cases hc with
    | leaf => exact .inr (.inl ⟨_, rfl⟩)
    | ext _ _ hfull => exact .inr (.inr ⟨hfull, hf.2⟩)

theorem Proper.full {cs : Fin 17 → PTree} (h : Proper (.full cs)) (i : Fin 17) :
    Proper (cs i) := by
  rcases h with h | ⟨v, h⟩ | ⟨hc, hf⟩
  · cases h
  · cases h
  · cases hc with
    | full hc hterm _ =>
      by_cases hi : i = term
      · rw [hi]
        exact hterm.imp_right .inl
      · by_cases h0 : cs i = .nil
        · exact .inl h0
        · exact .inr (.inr ⟨hc i hi h0, hf i⟩)

theorem Proper.canon_of_big (h : Proper t) (hb : big keccak t = true) : t.Canon term ∧ t.Fits := by
  rcases h with rfl | ⟨v, rfl⟩ | h
  · cases hb
  · cases hb
  · exact h

theorem load_ne_hash (gen : UInt16) (hash : Option Hash) (t : PTree) (x : Hash) :
    load keccak gen hash t ≠ .hash x := by cases t <;> simp [load]

theorem load_eq_of_loadRef {t' : PTree} (hinj : Set.InjOn keccak S) (hp : Proper t)
    (hp' : Proper t') (hcov : Covers keccak S t) (hcov' : Covers keccak S t')
    (h : loadRef keccak 0 t = loadRef keccak 0 t') :
    load keccak 0 none t = load keccak 0 none t' := by
  rcases hb : big keccak t with _ | _ <;> rcases hb' : big keccak t' with _ | _
  · rwa [loadRef_of_not_big hb, loadRef_of_not_big hb'] at h
  · rw [loadRef_of_not_big hb, loadRef_of_big hb'] at h
    exact absurd h (load_ne_hash _ _ _ _)
  · rw [loadRef_of_big hb, loadRef_of_not_big hb'] at h
    exact absurd h.symm (load_ne_hash _ _ _ _)
  · rw [loadRef_of_big hb, loadRef_of_big hb'] at h
    obtain ⟨hc, hf⟩ := hp.canon_of_big hb
    obtain ⟨hc', hf'⟩ := hp'.canon_of_big hb'
    have hblob := hinj (hcov.mem hc) (hcov'.mem hc') (Node.hash.inj h)
    have hdec : decodeNode none (blob keccak t) 0 = _ := decodeNode_blob hc hf none
    rw [hblob, decodeNode_blob hc' hf'] at hdec
    simpa using hdec.symm

theorem eq_of_load (hinj : Set.InjOn keccak S) {t' : PTree} (hp : Proper t) (hp' : Proper t')
    (hcov : Covers keccak S t) (hcov' : Covers keccak S t')
    (h : load keccak 0 none t = load keccak 0 none t') : t = t' := by
  induction t generalizing t' with
  | nil => cases t' <;> first | rfl | cases h
  | value v =>
    cases t' with
    | value v' => rw [Value.bytes_injective (Node.value.inj h)]
    | _ => cases h
  | short k t ih =>
    cases t' with
    | short k' t' =>
      rw [load_short, load_short] at h
      obtain ⟨rfl, hval, -⟩ := Node.short.inj h
      rw [ih hp.short hp'.short hcov.2 hcov'.2
        (load_eq_of_loadRef hinj hp.short hp'.short hcov.2 hcov'.2 hval)]
    | _ => cases h
  | full cs ih =>
    cases t' with
    | full cs' =>
      rw [load_full, load_full] at h
      have hcs := congrFun (Node.full.inj h).1
      congr 1
      funext i
      exact ih i (hp.full i) (hp'.full i) (hcov.2 i) (hcov'.2 i)
        (load_eq_of_loadRef hinj (hp.full i) (hp'.full i) (hcov.2 i) (hcov'.2 i) (hcs i))
    | _ => cases h

theorem eq_of_keccak_blob (hinj : Set.InjOn keccak S) {t' : PTree} (hc : t.Canon term) (hf : t.Fits)
    (hc' : t'.Canon term) (hf' : t'.Fits) (hcov : Covers keccak S t) (hcov' : Covers keccak S t')
    (h : keccak (blob keccak t) = keccak (blob keccak t')) : t = t' := by
  have hblob := hinj (hcov.mem hc) (hcov'.mem hc') h
  have hdec : decodeNode none (blob keccak t) 0 = _ := decodeNode_blob hc hf none
  rw [hblob, decodeNode_blob hc' hf'] at hdec
  exact eq_of_load hinj (.inr (.inr ⟨hc, hf⟩)) (.inr (.inr ⟨hc', hf'⟩)) hcov hcov'
    (by simpa using hdec.symm)

theorem eq_of_rootHash {t' : PTree} (hK : KeccakOk keccak S) (hg : Good t) (hg' : Good t')
    (hcov : Covers keccak S t) (hcov' : Covers keccak S t')
    (h : rootHash keccak t = rootHash keccak t') : t = t' := by
  rcases hg.canon with rfl | hc <;> rcases hg'.canon with rfl | hc'
  · rfl
  · exact absurd h.symm (rootHash_canon hK hc' (hg'.fits hc') (hcov'.mem hc')).2.2
  · exact absurd h (rootHash_canon hK hc (hg.fits hc) (hcov.mem hc)).2.2
  · rw [(rootHash_canon hK hc (hg.fits hc) (hcov.mem hc)).1,
      (rootHash_canon hK hc' (hg'.fits hc') (hcov'.mem hc')).1] at h
    exact eq_of_keccak_blob (hK.inj.mono Set.subset_union_right) hc (hg.fits hc) hc' (hg'.fits hc')
      hcov hcov' h

/-- **The hash determines what the trie maps.** -/
theorem content_eq_of_hash (keccak : Bytes → Hash) (ops ops' : List TrieOp)
    (hK : KeccakOk keccak {b | b ∈ encodings keccak ops ++ encodings keccak ops'})
    (hfair : World.Fair keccak World.init ops) (hfair' : World.Fair keccak World.init ops') :
    ∃ w w' root root' trie trie', World.init.run keccak ops = .ok w ∧
      World.init.run keccak ops' = .ok w' ∧ w.trie.hash keccak = some (root, trie) ∧
      w'.trie.hash keccak = some (root', trie') ∧ (root = root' → content ops = content ops') := by
  obtain ⟨w, hrun, hi, hcov⟩ := run_inv (fun _ h => List.mem_append_left _ h) hK hfair
  obtain ⟨w', hrun', hi', hcov'⟩ := run_inv (fun _ h => List.mem_append_right _ h) hK hfair'
  obtain ⟨trie, hhash, -⟩ := hash_inv hi hcov
  obtain ⟨trie', hhash', -⟩ := hash_inv hi' hcov'
  refine ⟨w, w', _, _, trie, trie', hrun, hrun', hhash, hhash', fun h => ?_⟩
  have htree := eq_of_rootHash hK hi.good hi'.good hcov hcov' h
  funext key
  rw [← lookup_treeOf, ← lookup_treeOf, htree]

theorem content_eq_of_hash_words : ∃ w w' root root' trie trie',
    World.init.run wordKeccak wordOps = .ok w ∧ World.init.run wordKeccak oneWordOps = .ok w' ∧
      w.trie.hash wordKeccak = some (root, trie) ∧ w'.trie.hash wordKeccak = some (root', trie') ∧
      (root = root' → content wordOps = content oneWordOps) :=
  content_eq_of_hash wordKeccak wordOps oneWordOps
    (keccakOk_of_list (by decide +kernel) (by decide +kernel) (by decide +kernel))
    (fair_of_forall (by simp [wordOps]) _) (fair_of_forall (by simp [oneWordOps]) _)

end GoEthereum.Trie
