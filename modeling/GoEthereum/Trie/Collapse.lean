/-
  The stored form of a trie.

  What a trie maps is a Patricia tree over the nibbles, `PTree`.  Its stored form is a
  function of the tree: `collapse` is the node that is encoded, in which each child is
  replaced by its hash unless it is shorter than a hash, and `blob` is the encoding.
  Reading it back gives `load`, the node in memory whose hashed children are not
  loaded, both from the database in memory (`expandNode_collapse`) and from bytes
  (`decodeNode_blob`).
-/
import GoEthereum.Trie.Trie

namespace GoEthereum.Trie

open GoEthereum.Rlp Patricia

/-! ## Keys, values and trees -/

/-- Byte slices that are short enough for the buffers that are made from them. -/
abbrev Slice := {b : Bytes // b.length < 2 ^ 60}

/-- The values in a trie are not empty. -/
abbrev Value := {b : Slice // b.1 ≠ []}

/-- The bytes of a value. -/
def Value.bytes (v : Value) : Bytes := v.1.1

theorem Value.bytes_injective : Function.Injective Value.bytes :=
  Subtype.val_injective.comp Subtype.val_injective

/-- What a trie maps. -/
abbrev PTree := Patricia.Tree (Fin 17) Value

namespace PTree

/-- The paths are not longer than the nibbles of a key. -/
def Fits : PTree → Prop
  | .short k t => k.length ≤ 2 ^ 61 + 1 ∧ Fits t
  | .full cs => ∀ i, Fits (cs i)
  | _ => True

theorem fits_of_lookup {t : PTree} (hc : t.Canon term)
    (h : ∀ key v, Term term key → t.lookup key = some v → key.length ≤ 2 ^ 61 + 1) : Fits t := by
  induction hc with
  | @leaf k v hk => exact ⟨h k v hk (by rw [Tree.lookup_leaf, if_pos rfl]), trivial⟩
  | @ext k cs hk hmem hfull ih =>
    refine ⟨?_, ih fun key v hkey hl => ?_⟩
    · obtain ⟨key, v, hkey, hl⟩ := hfull.exists_key
      have := h (k ++ key) v ((term_append hmem).2 hkey) (by rwa [Tree.lookup_short_append])
      rw [List.length_append] at this
      omega
    · have := h (k ++ key) v ((term_append hmem).2 hkey) (by rwa [Tree.lookup_short_append])
      rw [List.length_append] at this
      omega
  | @full cs hc hterm _ ih =>
    intro i
    by_cases hi : i = term
    · subst hi
      rcases hterm with h0 | ⟨v, hv⟩
      · rw [h0]; trivial
      · rw [hv]; trivial
    by_cases h0 : cs i = .nil
    · rw [h0]; trivial
    · refine ih i hi h0 fun key v hkey hl => ?_
      have := h (i :: key) v ((term_cons hi).2 hkey) hl
      rw [List.length_cons] at this
      omega

end PTree

/-! ## The stored form -/

section
variable (keccak : Bytes → Hash)

/-- A child in its parent: a node that is not shorter than a hash is replaced by it. -/
def RawNode.ref (n : RawNode) : RawNode :=
  match n with
  | .short _ _ | .full _ => if (enc n.item).length < 32 then n else .hash (keccak (enc n.item))
  | n => n

/-- The collapsed form of a tree. -/
def collapse : PTree → RawNode
  | .nil => .nil
  | .value v => .value v.bytes
  | .short k t => .short (hexToCompact k) ((collapse t).ref keccak)
  | .full cs => .full fun i => (collapse (cs i)).ref keccak

/-- The encoding of a tree. -/
def blob (t : PTree) : Bytes := enc (collapse keccak t).item

/-- The tree is replaced by its hash in its parent. -/
def big (t : PTree) : Bool :=
  match t with
  | .short _ _ | .full _ => decide (32 ≤ (blob keccak t).length)
  | _ => false

/-- The node that is read back from the stored form; big children are not loaded. -/
def load (gen : UInt16) : Option Hash → PTree → Node Hex
  | _, .nil => .nil
  | _, .value v => .value v.bytes
  | hash, .short k t => .short k
      (if big keccak t then .hash (keccak (blob keccak t)) else load gen none t) { hash, gen }
  | hash, .full cs => .full (fun i =>
      if big keccak (cs i) then .hash (keccak (blob keccak (cs i))) else load gen none (cs i))
      { hash, gen }

/-- A child as it is read back. -/
def loadRef (gen : UInt16) (t : PTree) : Node Hex :=
  if big keccak t then .hash (keccak (blob keccak t)) else load keccak gen none t

/-- The hash of a trie. -/
def rootHash (t : PTree) : Hash := if t.isNil then emptyRoot else keccak (blob keccak t)

end

variable {keccak : Bytes → Hash} {t : PTree} {k : Hex} {cs : Fin 17 → PTree} {gen : UInt16}
  {node : Option Hash → Bytes → UInt16 → Option (Except DecodeError (Node Hex))}

theorem ref_collapse (t : PTree) : (collapse keccak t).ref keccak =
    if big keccak t then .hash (keccak (blob keccak t)) else collapse keccak t := by
  have h : ∀ (n : ℕ) (a b : RawNode),
      (if n < 32 then a else b) = if decide (32 ≤ n) = true then b else a := by
    intro n a b
    by_cases hn : n < 32
    · simp [hn]
    · simp [hn, not_lt.1 hn]
  cases t with
  | nil | value _ => rfl
  | short _ _ | full _ => exact h _ _ _

theorem load_short (hash : Option Hash) : load keccak gen hash (.short k t) =
    .short k (loadRef keccak gen t) { hash, gen } := rfl

theorem load_full (hash : Option Hash) : load keccak gen hash (.full cs) =
    .full (fun i => loadRef keccak gen (cs i)) { hash, gen } := rfl

theorem loadRef_of_big (h : big keccak t = true) :
    loadRef keccak gen t = .hash (keccak (blob keccak t)) := by rw [loadRef, if_pos h]

theorem loadRef_of_not_big (h : big keccak t = false) :
    loadRef keccak gen t = load keccak gen none t := by rw [loadRef, h]; rfl

theorem load_ne_nil (hash : Option Hash) (h : t ≠ .nil) : (load keccak gen hash t).isNil = false := by
  cases t <;> first | exact absurd rfl h | rfl

theorem isNil_ref_collapse (t : PTree) :
    ((collapse keccak t).ref keccak).isNil = t.isNil := by
  rw [ref_collapse]
  split_ifs with h
  · cases t <;> first | rfl | cases h
  · cases t <;> rfl

/-! ## Reading from memory -/

theorem expandNode_collapse (hc : t.Canon term) (hash : Option Hash) :
    expandNode hash (collapse keccak t) gen = some (load keccak gen hash t) := by
  -- a child is a hash, or is expanded as an embedded node
  have href : ∀ t : PTree, expandNode none (collapse keccak t) gen = some (load keccak gen none t) →
      expandNode none ((collapse keccak t).ref keccak) gen = some (loadRef keccak gen t) := by
    intro t ht
    rw [ref_collapse]
    by_cases h : big keccak t = true
    · rw [if_pos h, loadRef_of_big h]; rfl
    · rw [if_neg h, loadRef_of_not_big (by simpa using h), ht]
  induction hc generalizing hash with
  | leaf hk =>
    rw [collapse, expandNode, compactToHex_hexToCompact_term hk]
    rfl
  | ext _ hmem _ ih =>
    rw [collapse, expandNode, compactToHex_hexToCompact hmem, href _ (ih none)]
    rfl
  | @full cs _ hterm _ ih =>
    have hall : (allSome fun i => if ((collapse keccak (cs i)).ref keccak).isNil then some .nil
        else expandNode none ((collapse keccak (cs i)).ref keccak) gen) =
        some fun i => loadRef keccak gen (cs i) := by
      rw [allSome_eq_some]
      intro i
      rw [isNil_ref_collapse]
      by_cases h0 : cs i = .nil
      · rw [h0]; rfl
      rw [if_neg (by rwa [Tree.isNil_iff])]
      by_cases hi : i = term
      · subst hi
        obtain ⟨v, hv⟩ := hterm.resolve_left h0
        rw [hv]; rfl
      · exact href _ (ih i hi h0 none)
    rw [collapse, expandNode, hall]
    rfl

/-! ## The length of the stored form -/

/-- What is encoded for a child. -/
def childItem (keccak : Bytes → Hash) (t : PTree) : Item :=
  if t.isNil then .str [] else ((collapse keccak t).ref keccak).item

theorem childItem_value (v : Value) : childItem keccak (.value v) = .str v.bytes := rfl

theorem childItem_of_big (h : big keccak t = true) :
    childItem keccak t = .str (keccak (blob keccak t)) := by
  have h0 : t.isNil = false := by cases t <;> first | rfl | cases h
  rw [childItem, h0, ref_collapse, if_pos h]
  rfl

theorem childItem_of_not_big (h : big keccak t = false) (h0 : t ≠ .nil) :
    childItem keccak t = (collapse keccak t).item := by
  have h0' : t.isNil = false := Tree.isNil_eq_false.2 h0
  rw [childItem, h0', ref_collapse, h]
  rfl

theorem blob_short (h0 : t ≠ .nil) : blob keccak (.short k t) =
    enc (.list [.str (hexToCompact k), childItem keccak t]) := by
  have h0' : t.isNil = false := Tree.isNil_eq_false.2 h0
  rw [childItem, h0']
  rfl

theorem blob_full : blob keccak (.full cs) =
    enc (.list (List.ofFn fun i => childItem keccak (cs i))) := by
  simp only [blob, collapse, RawNode.item, isNil_ref_collapse, childItem]

theorem length_lt_of_not_big (hc : t.Canon term) (h : big keccak t = false) :
    (blob keccak t).length < 32 := by
  cases hc <;> simpa [big] using h

theorem length_childItem (ht : t = .nil ∨ t.Canon term) :
    (enc (childItem keccak t)).length ≤ 33 := by
  rcases ht with rfl | hc
  · exact (by decide : (enc (.str [])).length ≤ 33)
  · rcases hb : big keccak t with _ | _
    · rw [childItem_of_not_big hb hc.ne_nil]
      exact (length_lt_of_not_big hc hb).le.trans (by norm_num)
    · have h32 := (keccak (blob keccak t)).2
      rw [childItem_of_big hb, enc]
      refine (length_encString_le (by rw [h32]; norm_num)).trans ?_
      rw [h32]
      decide

theorem length_enc_value (v : Value) : (enc (.str v.bytes)).length ≤ 2 ^ 60 + 9 := by
  have hv := v.1.2
  have hlt : v.bytes.length < 2 ^ 64 := hv.trans (by norm_num)
  have := length_encString_le hlt
  have := headsize_le hlt
  rw [enc]
  have : v.bytes.length < 2 ^ 60 := hv
  omega

theorem ofFn_children {β : Type} (f : Fin 17 → β) :
    List.ofFn f = (List.ofFn fun i : Fin 16 => f i.castSucc) ++ [f term] := by
  rw [List.ofFn_succ', List.concat_eq_append]
  rfl

theorem length_encs_full (hc : (Tree.full cs).Canon term) :
    (encs (List.ofFn fun i => childItem keccak (cs i))).length ≤ 2 ^ 61 := by
  cases hc with
  | full hc hterm _ =>
    have hlast : (enc (childItem keccak (cs term))).length ≤ 2 ^ 60 + 9 := by
      rcases hterm with h0 | ⟨v, hv⟩
      · exact (length_childItem (.inl h0)).trans (by norm_num)
      · rw [hv]
        exact length_enc_value v
    have hchildren : ∀ x ∈ List.ofFn fun i : Fin 16 => childItem keccak (cs i.castSucc),
        (enc x).length ≤ 33 := by
      intro x hx
      obtain ⟨i, rfl⟩ := List.mem_ofFn.1 hx
      have hi : i.castSucc ≠ term := (Fin.castSucc_lt_last i).ne
      exact length_childItem ((em _).imp_right (hc _ hi))
    have := length_encs_le hchildren
    rw [ofFn_children, encs_append, encs_singleton, List.length_append]
    rw [List.length_ofFn] at this
    omega

theorem length_encs_short (hc : (Tree.short k t).Canon term) (hf : PTree.Fits (.short k t)) :
    (encs [.str (hexToCompact k), childItem keccak t]).length ≤ 2 ^ 62 := by
  have hk := length_hexToCompact k
  have hlen : (hexToCompact k).length < 2 ^ 64 := by have := hf.1; omega
  have hkey := length_encString_le hlen
  have hhead := headsize_le hlen
  have hchild : (enc (childItem keccak t)).length ≤ 2 ^ 60 + 9 := by
    rcases Tree.canon_short.1 hc with ⟨-, v, rfl⟩ | ⟨-, -, hfull, -⟩
    · exact length_enc_value v
    · exact (length_childItem (.inr hfull)).trans (by norm_num)
  have := hf.1
  rw [encs, encs_singleton, List.length_append, enc]
  omega

theorem length_blob (hc : t.Canon term) (hf : t.Fits) : (blob keccak t).length ≤ maxInt := by
  obtain ⟨xs, hblob, hxs⟩ : ∃ xs, blob keccak t = encList (encs xs) ∧ (encs xs).length ≤ 2 ^ 62 := by
    cases t with
    | nil | value _ => cases hc
    | short k t =>
      have h0 : t ≠ .nil := by
        rcases Tree.canon_short.1 hc with ⟨-, v, rfl⟩ | ⟨-, -, hfull, -⟩
        · simp
        · exact hfull.ne_nil
      exact ⟨_, by rw [blob_short h0, enc], length_encs_short hc hf⟩
    | full cs =>
      exact ⟨_, by rw [blob_full, enc], (length_encs_full hc).trans (by norm_num)⟩
  have hlt : (encs xs).length < 2 ^ 64 := hxs.trans_lt (by norm_num)
  have := headsize_le hlt
  rw [hblob, length_encList hlt, maxInt]
  omega

theorem encodeToBytes_collapse (hc : t.Canon term) (hf : t.Fits) :
    encodeToBytes (collapse keccak t).item = some (blob keccak t) :=
  encodeToBytes_of_length (length_blob hc hf)

/-! ## Reading from bytes -/

/-- A child is read back, an embedded one by `node`. -/
theorem decodeRef_childItem (ht : t = .nil ∨ t.Canon term) {rest : Bytes}
    (hnode : t.Canon term → big keccak t = false →
      node none (blob keccak t ++ rest) gen = some (.ok (load keccak gen none t))) :
    decodeRef node (enc (childItem keccak t) ++ rest) gen =
      some (.ok (loadRef keccak gen t, rest)) := by
  have hlen : (enc (childItem keccak t)).length ≤ 33 := length_childItem ht
  have hsplit := split_enc (childItem keccak t) rest (by omega)
  rw [decodeRef, hsplit]
  rcases ht with rfl | hc
  · rfl
  rcases hb : big keccak t with _ | _
  · have hlt := length_lt_of_not_big hc hb
    have hitem := childItem_of_not_big hb hc.ne_nil
    have henc : enc (childItem keccak t) = blob keccak t := by rw [hitem, blob]
    have hkind : (childItem keccak t).kind = .list := by
      rw [hitem]
      cases hc <;> rfl
    have hsize : ¬ (blob keccak t ++ rest).length - rest.length > 32 := by
      rw [List.length_append]
      omega
    simp only [hkind, henc, hsize, if_true, if_false, hnode hc hb, loadRef_of_not_big hb]
    rfl
  · have h32 := (keccak (blob keccak t)).2
    have hkind : (childItem keccak t).kind = .string := by
      rw [childItem_of_big hb]
      generalize (keccak (blob keccak t)).1 = b at h32
      rcases b with _ | ⟨x, _ | ⟨y, b⟩⟩
      · cases h32
      · cases h32
      · rfl
    have hcontent : (childItem keccak t).content = keccak (blob keccak t) := by
      rw [childItem_of_big hb]
      rfl
    simp [hkind, hcontent, h32, loadRef_of_big hb]

/-- The children of a full node are read back one after the other. -/
theorem decodeChildren_childItems {n : ℕ} (rest : Bytes) :
    ∀ (ts : List PTree) (i : ℕ), (∀ t ∈ ts, t = .nil ∨ t.Canon term) →
      (encs (ts.map (childItem keccak)) ++ rest).length ≤ n →
      (∀ t ∈ ts, t.Canon term → ∀ r, (blob keccak t ++ r).length ≤ n →
        node none (blob keccak t ++ r) gen = some (.ok (load keccak gen none t))) →
      decodeChildren node gen ts.length i (encs (ts.map (childItem keccak)) ++ rest) =
        some (.ok (ts.map (loadRef keccak gen), rest))
  | [], _, _, _, _ => by simp [decodeChildren, encs]
  | t :: ts, i, hts, hn, hnode => by
    rw [List.map_cons, encs, List.append_assoc] at hn ⊢
    have hchild := decodeRef_childItem (hts t List.mem_cons_self) fun hc hb => by
      refine hnode t List.mem_cons_self hc (encs (ts.map (childItem keccak)) ++ rest) ?_
      rwa [childItem_of_not_big hb hc.ne_nil] at hn
    have hrest := decodeChildren_childItems rest ts (i + 1)
      (fun t ht => hts t (List.mem_cons_of_mem _ ht)) (by rw [List.length_append] at hn; omega)
      fun t ht => hnode t (List.mem_cons_of_mem _ ht)
    rw [List.length_cons, decodeChildren, hchild]
    simp only [hrest, List.map_cons]

/-- `decodeNode` reads the elements of an encoded list. -/
theorem decodeNodeFuel_list {xs : List Item} (hlt : (enc (.list xs)).length < 2 ^ 64)
    (fuel : ℕ) (hash : Option Hash) (rest : Bytes) :
    decodeNodeFuel (fuel + 1) hash (enc (.list xs) ++ rest) gen =
      match xs.length with
      | 2 => (decodeShort (decodeNodeFuel fuel) hash (encs xs) gen).map (wrapResult · "short")
      | 17 => (decodeFull (decodeNodeFuel fuel) hash (encs xs) gen).map (wrapResult · "full")
      | c => some (.error (.plain (.count c))) := by
  rw [enc] at hlt ⊢
  have hpos := length_lt_encList (encs xs)
  have hxs : (encs xs).length < 2 ^ 64 := by omega
  rw [decodeNodeFuel, if_neg (by rw [List.length_append]; omega), splitList_encList hlt]
  simp only [countValues_encs hxs]
  rfl

/-- The elements of a leaf. -/
theorem decodeShort_leaf (hk : Term term k) (v : Value)
    (hlt : (encs [.str (hexToCompact k), .str v.bytes]).length < 2 ^ 64) (hash : Option Hash)
    (node : Option Hash → Bytes → UInt16 → Option (Except DecodeError (Node Hex))) :
    decodeShort node hash (encs [.str (hexToCompact k), .str v.bytes]) gen =
      some (.ok (.short k (.value v.bytes) { hash, gen })) := by
  have hterm : hasTerm k = true := by
    obtain ⟨k, rfl, -⟩ := hk
    exact hasTerm_concat k
  rw [encs, encs_singleton, List.length_append, enc, enc] at hlt
  rw [encs, encs_singleton, enc, enc, decodeShort, splitString_encString (by omega)]
  simp only [compactToHex_hexToCompact_term hk, hterm, if_true,
    splitString_encString_nil (show (encString v.bytes).length < 2 ^ 64 by omega)]

/-- The elements of an extension. -/
theorem decodeShort_ext (hk : term ∉ k) (hc : t.Canon term)
    (hlt : (encs [.str (hexToCompact k), childItem keccak t]).length < 2 ^ 64) (hash : Option Hash)
    (hnode : (blob keccak t).length ≤ (encs [.str (hexToCompact k), childItem keccak t]).length →
      node none (blob keccak t) gen = some (.ok (load keccak gen none t))) :
    decodeShort node hash (encs [.str (hexToCompact k), childItem keccak t]) gen =
      some (.ok (load keccak gen hash (.short k t))) := by
  rw [encs, encs_singleton, List.length_append, enc] at hlt hnode
  rw [encs, encs_singleton, enc, decodeShort, splitString_encString (by omega)]
  have hchild : decodeRef node (enc (childItem keccak t) ++ []) gen =
      some (.ok (loadRef keccak gen t, [])) :=
    decodeRef_childItem (.inr hc) fun hc hb => by
      rw [List.append_nil]
      refine hnode ?_
      rw [childItem_of_not_big hb hc.ne_nil]
      exact Nat.le_add_left _ _
  rw [List.append_nil] at hchild
  simp only [compactToHex_hexToCompact hk, hasTerm_of_notMem hk, hchild]
  rfl

/-- The elements of a full node. -/
theorem decodeFull_children (hc : (Tree.full cs).Canon term)
    (hlt : (encs (List.ofFn fun i => childItem keccak (cs i))).length < 2 ^ 64) (hash : Option Hash)
    (hnode : ∀ i, (cs i).Canon term → ∀ r, (blob keccak (cs i) ++ r).length ≤
        (encs (List.ofFn fun i => childItem keccak (cs i))).length →
      node none (blob keccak (cs i) ++ r) gen = some (.ok (load keccak gen none (cs i)))) :
    decodeFull node hash (encs (List.ofFn fun i => childItem keccak (cs i))) gen =
      some (.ok (load keccak gen hash (.full cs))) := by
  cases hc with
  | full hc hterm _ =>
  set ts : List PTree := List.ofFn fun i : Fin 16 => cs i.castSucc with hts
  have hitems : List.ofFn (fun i => childItem keccak (cs i)) =
      ts.map (childItem keccak) ++ [childItem keccak (cs term)] := by
    rw [ofFn_children, hts, List.map_ofFn]
    rfl
  have hcanon : ∀ t ∈ ts, t = .nil ∨ t.Canon term := by
    intro t ht
    obtain ⟨i, rfl⟩ := List.mem_ofFn.1 ht
    exact (em _).imp_right (hc _ (Fin.castSucc_lt_last i).ne)
  rw [hitems, encs_append, encs_singleton] at hlt hnode ⊢
  have hchildren := decodeChildren_childItems (enc (childItem keccak (cs term))) ts 0 hcanon (le_refl _)
    fun t ht hc r hr => by
      obtain ⟨i, rfl⟩ := List.mem_ofFn.1 ht
      exact hnode _ hc r hr
  have hvalue : ∃ val, splitString (enc (childItem keccak (cs term))) = some (.ok (val, [])) ∧
      (if val.length > 0 then .value val else .nil) = loadRef keccak gen (cs term) := by
    rw [List.length_append] at hlt
    rcases hterm with h0 | ⟨v, hv⟩
    · rw [h0]
      exact ⟨[], rfl, rfl⟩
    · rw [hv, childItem_value, enc] at hlt ⊢
      exact ⟨v.bytes, splitString_encString_nil (by omega), if_pos (List.length_pos_of_ne_nil v.2)⟩
  obtain ⟨val, hsplit, hval⟩ := hvalue
  rw [hts, List.length_ofFn] at hchildren
  rw [decodeFull, hchildren]
  simp only [hsplit, hval, load_full]
  congr 4
  funext i
  have hlist : (List.ofFn fun i : Fin 16 => cs i.castSucc).map (loadRef keccak gen) ++
      [loadRef keccak gen (cs term)] = List.ofFn fun i => loadRef keccak gen (cs i) := by
    rw [ofFn_children fun i => loadRef keccak gen (cs i), List.map_ofFn]
    rfl
  rw [hlist, List.getD_eq_getElem?_getD, List.getElem?_ofFn, dif_pos i.isLt]
  rfl

theorem decodeNodeFuel_blob (hc : t.Canon term) (hf : t.Fits) (hash : Option Hash) (rest : Bytes)
    {fuel : ℕ} (hfuel : (blob keccak t ++ rest).length < fuel) :
    decodeNodeFuel fuel hash (blob keccak t ++ rest) gen = some (.ok (load keccak gen hash t)) := by
  obtain ⟨fuel, rfl⟩ : ∃ n, fuel = n + 1 := ⟨fuel - 1, by omega⟩
  have hmax : (blob keccak t).length < 2 ^ 64 :=
    (length_blob hc hf).trans_lt (by norm_num [maxInt])
  induction hc generalizing hash rest fuel with
  | @leaf k v hk =>
    have hlen : (encs [.str (hexToCompact k), childItem keccak (.value v)]).length ≤ 2 ^ 62 :=
      length_encs_short (.leaf hk) hf
    rw [blob_short (by simp)] at hmax ⊢
    rw [decodeNodeFuel_list hmax]
    simp only [List.length_cons, List.length_nil, Nat.zero_add, Nat.reduceAdd]
    rw [childItem_value, decodeShort_leaf hk v (hlen.trans_lt (by norm_num))]
    rfl
  | @ext k cs hne hmem hfull ih =>
    have hlen : (encs [.str (hexToCompact k), childItem keccak (.full cs)]).length ≤ 2 ^ 62 :=
      length_encs_short (.ext hne hmem hfull) hf
    rw [blob_short (by simp)] at hmax hfuel ⊢
    have hlt := length_lt_encList (encs [.str (hexToCompact k), childItem keccak (.full cs)])
    rw [List.length_append, enc] at hfuel
    rw [decodeNodeFuel_list hmax]
    simp only [List.length_cons, List.length_nil, Nat.zero_add, Nat.reduceAdd]
    rw [decodeShort_ext hmem hfull (hlen.trans_lt (by norm_num)) hash fun hle => ?_]
    · rfl
    · obtain ⟨fuel, rfl⟩ : ∃ n, fuel = n + 1 := ⟨fuel - 1, by omega⟩
      have := ih hf.2 none [] fuel (by rw [List.append_nil]; omega) (by omega)
      rwa [List.append_nil] at this
  | @full cs hc hterm h2 ih =>
    have hcanon : (Tree.full cs).Canon term := .full hc hterm h2
    have hlen : (encs (List.ofFn fun i => childItem keccak (cs i))).length ≤ 2 ^ 61 :=
      length_encs_full hcanon
    rw [blob_full] at hmax hfuel ⊢
    have hlt := length_lt_encList (encs (List.ofFn fun i => childItem keccak (cs i)))
    rw [List.length_append, enc] at hfuel
    rw [decodeNodeFuel_list hmax]
    simp only [List.length_ofFn]
    rw [decodeFull_children hcanon (hlen.trans_lt (by norm_num)) hash fun i hi r hr => ?_]
    · rfl
    · have hne : i ≠ term := by
        rintro rfl
        rcases hterm with h0 | ⟨v, hv⟩
        · exact hi.ne_nil h0
        · rw [hv] at hi
          cases hi
      obtain ⟨fuel, rfl⟩ : ∃ n, fuel = n + 1 := ⟨fuel - 1, by
        have := List.length_pos_of_ne_nil (enc_ne_nil (collapse keccak (cs i)).item)
        rw [List.length_append, blob] at hr
        omega⟩
      exact ih i hne hi.ne_nil (hf i) none r fuel (by omega) (by rw [List.length_append] at hr; omega)

/-- **What is stored is read back.** -/
theorem decodeNode_blob (hc : t.Canon term) (hf : t.Fits) (hash : Option Hash) :
    decodeNode hash (blob keccak t) gen = some (.ok (load keccak gen hash t)) := by
  have h : decodeNodeFuel ((blob keccak t).length + 1) hash (blob keccak t ++ []) gen =
      some (.ok (load keccak gen hash t)) :=
    decodeNodeFuel_blob hc hf hash [] (by rw [List.append_nil]; omega)
  rwa [List.append_nil] at h

theorem mustDecodeNode_blob (hc : t.Canon term) (hf : t.Fits) (hash : Option Hash) :
    mustDecodeNode hash (blob keccak t) gen = some (load keccak gen hash t) := by
  rw [mustDecodeNode, decodeNode_blob hc hf]

end GoEthereum.Trie
