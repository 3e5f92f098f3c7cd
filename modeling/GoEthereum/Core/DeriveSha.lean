/-
  The hash of a list, as a header has it for its transactions and receipts.

  `DeriveSha` stores each element in a trie, under the encoding of its index.  The hash
  determines the list (`deriveSha_eq_iff`).
-/
import GoEthereum.Trie.Root

namespace GoEthereum.Core

open GoEthereum.Rlp GoEthereum.Trie BigEndian

/-- `writeUint`: the encoding of a `uint64`. -/
def writeUint (i : ℕ) : Bytes :=
  if i = 0 then [0x80]
  else if i < 128 then [.ofNat i]
  else (0x80 + .ofNat (putint i).length) :: putint i

theorem length_writeUint (i : ℕ) : (writeUint i).length < 2 ^ 60 := by
  unfold writeUint putint
  split_ifs <;> simp

/-- The number that was encoded. -/
def readUint : Bytes → ℕ
  | [b] => if b = 0x80 then 0 else b.toNat
  | b => ofBE b.tail

theorem readUint_writeUint {i : ℕ} (h : i < 2 ^ 64) : readUint (writeUint i) = i := by
  rw [writeUint]
  split_ifs with h₀ h₁
  · rw [h₀]
    rfl
  · have hi : (UInt8.ofNat i).toNat = i := UInt8.toNat_ofNat_of_lt' (by change i < 256; omega)
    rw [readUint, if_neg fun he => ?_, hi]
    rw [he] at hi
    change 128 = i at hi
    omega
  · have hpos := byteLen_pos i
    rw [← length_putint h] at hpos
    rcases hp : putint i with _ | ⟨b, bs⟩
    · rw [hp] at hpos
      cases hpos
    · rw [readUint, List.tail_cons, ← hp, putint_eq h, ofBE_toBE_byteLen]
      simp

/-- The calls of the loop of `DeriveSha`. -/
def deriveOps (list : List Slice) : List TrieOp :=
  list.zipIdx.map fun (v, i) => .update ⟨writeUint i, length_writeUint i⟩ v

/-- `DeriveSha`, for the encodings of the elements; nothing is looked up in a database. -/
def deriveSha (keccak : Bytes → Hash) (list : List Slice) : Result Hash := do
  let w ← World.init.run keccak (deriveOps list)
  match w.trie.hash keccak with
  | none => .panic
  | some (root, _) => .ok root

/-- The trie has the elements under their indices. -/
theorem content_deriveOps {list : List Slice} (hne : ∀ v ∈ list, v.1 ≠ [])
    (hlen : list.length < 2 ^ 64) {i : ℕ} (hi : i < 2 ^ 64) :
    content (deriveOps list) (writeUint i) = list[i]?.map Subtype.val := by
  induction list using List.reverseRecOn with
  | nil => rfl
  | append_singleton list v ih =>
    rw [List.length_append, List.length_singleton] at hlen
    have hkey : writeUint i = writeUint list.length ↔ i = list.length := by
      refine ⟨fun h => ?_, congrArg writeUint⟩
      rw [← readUint_writeUint hi, h, readUint_writeUint (by omega)]
    rw [deriveOps, List.zipIdx_append, List.map_append, List.zipIdx_singleton, List.map_singleton,
      content_concat, TrieOp.setContent, Function.update_apply, if_neg (hne v (by simp))]
    simp only [zero_add, hkey]
    split_ifs with h
    · rw [h, List.getElem?_concat_length]
      rfl
    · refine (ih (fun v hv => hne v (by simp [hv])) (by omega)).trans ?_
      rcases Nat.lt_or_gt_of_ne h with hlt | hgt
      · rw [List.getElem?_append_left hlt]
      · rw [List.getElem?_eq_none hgt.le, List.getElem?_eq_none (by simpa using hgt)]

theorem deriveSha_run {keccak : Bytes → Hash} {S : Set Bytes} {list : List Slice}
    (hS : ∀ b ∈ encodings keccak (deriveOps list), b ∈ S) (hK : KeccakOk keccak S) :
    deriveSha keccak list = .ok (rootHash keccak (treeOf (deriveOps list))) ∧
      Covers keccak S (treeOf (deriveOps list)) := by
  have hfair : World.Fair keccak World.init (deriveOps list) := by
    refine fair_of_forall (fun op hop db he => ?_) _
    obtain ⟨_, _, rfl⟩ := List.mem_map.1 hop
    cases he
  obtain ⟨w, hrun, hi, hcov⟩ := run_inv hS hK hfair
  obtain ⟨trie, hhash, -⟩ := hash_inv hi hcov
  exact ⟨by rw [deriveSha, hrun, Result.ok_bind, hhash], hcov⟩

/-- **The hash of a list determines the list**, if no hash of a node collides and no element is
    empty. -/
theorem deriveSha_eq_iff (keccak : Bytes → Hash) (list list' : List Slice)
    (hK : KeccakOk keccak
      {b | b ∈ encodings keccak (deriveOps list) ++ encodings keccak (deriveOps list')})
    (hne : ∀ v ∈ list ++ list', v.1 ≠ []) (hlen : list.length < 2 ^ 64)
    (hlen' : list'.length < 2 ^ 64) :
    ∃ root root', deriveSha keccak list = .ok root ∧ deriveSha keccak list' = .ok root' ∧
      (root = root' ↔ list = list') := by
  obtain ⟨hsha, hcov⟩ := deriveSha_run (fun _ h => List.mem_append_left _ h) hK
  obtain ⟨hsha', hcov'⟩ := deriveSha_run (fun _ h => List.mem_append_right _ h) hK
  refine ⟨_, _, hsha, hsha', fun h => ?_, fun h => by rw [h]⟩
  have htree := eq_of_rootHash hK (good_treeOf _) (good_treeOf _) hcov hcov' h
  refine List.ext_getElem? fun i => ?_
  rcases Nat.lt_or_ge i (2 ^ 64) with hi | hi
  · refine Option.map_injective Subtype.val_injective ?_
    rw [← content_deriveOps (fun v hv => hne v (by simp [hv])) hlen hi, ← lookup_treeOf, htree,
      lookup_treeOf, content_deriveOps (fun v hv => hne v (by simp [hv])) hlen' hi]
  · rw [List.getElem?_eq_none (by omega), List.getElem?_eq_none (by omega)]

/-- Keccak-256 of the nodes for the lists with one word and with the word twice. -/
def verbHashes : List (Bytes × Hash) := [
  ([0x80], emptyRoot),
  (toBE 9 0xC88220808476657262,
    Trie.hashOf 0x325AD20B16CA9FB717D1254A72A1B994542DF227B6AE54A1A26CD923B5B11C3D),
  (toBE 30 0xDDC631847665726280808080808080C63084766572628080808080808080,
    Trie.hashOf 0xA0D05AE56B362C0C186C924D0A38C7D70DE84AC31307FB431ABCFAB288AAC1B6),
  (toBE 7 0xC6318476657262,
    Trie.hashOf 0xB0DDC9DBDDD55189ECBCEE4448669C6B798C629B66B5A8EB8AA9417B134ED17D),
  (toBE 7 0xC6308476657262,
    Trie.hashOf 0x4D6BDD0CA0C94C3C1EE2EA40254864322759685B5EE4FC349C23538662B1C2F4)]

def verbKeccak (b : Bytes) : Hash := (verbHashes.lookup b).getD .zero

theorem deriveSha_eq_iff_verbs : ∃ root root', deriveSha verbKeccak [wordVerb, wordVerb] = .ok root ∧
    deriveSha verbKeccak [wordVerb] = .ok root' ∧
    (root = root' ↔ [wordVerb, wordVerb] = [wordVerb]) :=
  deriveSha_eq_iff verbKeccak [wordVerb, wordVerb] [wordVerb]
    (keccakOk_of_list (by decide +kernel) (by decide +kernel) (by decide +kernel))
    (by decide) (by decide) (by decide)

end GoEthereum.Core
