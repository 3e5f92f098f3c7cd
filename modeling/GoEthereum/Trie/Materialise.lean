/-
  The ways in which a stored node comes back into memory (`trie/database.go`).

  `hashChildren` gives the collapsed form of a node.  The database keeps it without its
  flags (`simplifyNode`) and expands it when it is asked for (`expandNode`), or it has
  the encoding, on disk or in the cache of clean nodes, and decodes it
  (`mustDecodeNode`).  All give the same node: the one that was hashed, with the
  children that are stored on their own replaced by their hashes.

  The hasher may have any limits, callback and database.
-/
import GoEthereum.Trie.Hashing

namespace GoEthereum.Trie

open GoEthereum.Rlp Patricia

/-! ## The cache of clean nodes -/

/-- `node` with the cache of clean nodes, if there is one; a node that is read from disk
    is put into it. -/
def Database.nodeCached (db : Database) (cleans : Option (Hash → Option Bytes)) (hash : Hash)
    (cachegen : UInt16) : Option (Node Hex) × Option (Hash → Option Bytes) :=
  match cleans.bind (· hash) with
  | some enc => (mustDecodeNode (some hash) enc cachegen, cleans)
  | none =>
    match db.dirties.get hash with
    | some dirty => (dirty.obj hash cachegen, cleans)
    | none =>
      match db.disk.get hash with
      | none => (some .nil, cleans)
      | some enc => (mustDecodeNode (some hash) enc cachegen,
          cleans.map (Function.update · hash (some enc)))

/-- Where `node` finds the entry of a hash: its encoding in the clean cache, the collapsed
    node or the encoding in memory, or its encoding on disk. -/
inductive Database.Serves (db : Database) (cleans : Option (Hash → Option Bytes)) (hash : Hash)
    (n : RawNode) (enc : Bytes) : Prop
  | clean : cleans.bind (· hash) = some enc → Serves db cleans hash n enc
  | dirty (e : CachedNode) : cleans.bind (· hash) = none → db.dirties.get hash = some e →
      (e.node = .node n ∨ e.node = .blob enc) → Serves db cleans hash n enc
  | disk : cleans.bind (· hash) = none → db.dirties.get hash = none → db.disk.get hash = some enc →
      Serves db cleans hash n enc

theorem Database.Serves.nodeCached {db : Database} {cleans : Option (Hash → Option Bytes)}
    {hash : Hash} {n : RawNode} {enc : Bytes} (h : db.Serves cleans hash n enc) {gen : UInt16}
    {m : Node Hex} (hexpand : expandNode (some hash) n gen = some m)
    (hdecode : mustDecodeNode (some hash) enc gen = some m) :
    (db.nodeCached cleans hash gen).1 = some m := by
  rw [Database.nodeCached]
  cases h with
  | clean hc => rw [hc, ← hdecode]
  | dirty e hc he hnode =>
    simp only [hc, he]
    rcases hnode with hnode | hnode
    · rw [CachedNode.obj, hnode, ← hexpand]
    · rw [CachedNode.obj, hnode, ← hdecode]
  | disk hc hd he =>
    simp only [hc, hd, he]
    exact hdecode

/-! ## Nodes of a trie in normal form -/

section
variable (keccak : Bytes → Hash)

/-- A short or full node of a trie in normal form. -/
def Canonical (root : Bool) (n : Node Hex) : Prop :=
  ∃ t : PTree, t.Canon term ∧ t.Fits ∧ Denotes keccak root n t ∧ n.hashOf = none

/-- The collapsed form of a node in memory. -/
def Node.collapse : Node Hex → RawNode
  | .nil => .nil
  | .value v => .value v
  | .hash h => .hash h
  | .short k val _ => .short (hexToCompact k) (val.collapse.ref keccak)
  | .full children _ => .full fun i => (children i).collapse.ref keccak

/-- The encoding of a node in memory. -/
def Node.encoding (n : Node Hex) : Bytes := enc (n.collapse keccak).item

/-- A loaded node that is stored on its own. -/
def Node.isBig (n : Node Hex) : Bool :=
  match n with
  | .short _ _ _ | .full _ _ => decide (32 ≤ (n.encoding keccak).length)
  | _ => false

/-- The node with every child whose encoding has at least 32 bytes replaced by its hash,
    and with the flags of a node that has been read. -/
def Node.unload (gen : UInt16) : Option Hash → Node Hex → Node Hex
  | h, .short k val _ => .short k
      (if val.isBig keccak then .hash (keccak (val.encoding keccak)) else val.unload gen none)
      { hash := h, gen }
  | h, .full children _ => .full (fun i =>
      if (children i).isBig keccak then .hash (keccak ((children i).encoding keccak))
      else (children i).unload gen none) { hash := h, gen }
  | _, n => n

end

variable {keccak : Bytes → Hash} {S : Set Bytes} {db : Database} {root : Bool} {n : Node Hex}
  {t : PTree} {gen : UInt16}

theorem Denotes.ref_collapse_hash (hroot : Hashes keccak false t) :
    (collapse keccak t).ref keccak = .hash (keccak (blob keccak t)) := by
  rw [ref_collapse, if_pos (hroot.resolve_left Bool.false_ne_true)]

theorem Denotes.collapse_eq (h : Denotes keccak root n t) :
    (n.hashOf = none → n.collapse keccak = collapse keccak t) ∧
    (root = false → (n.collapse keccak).ref keccak = (collapse keccak t).ref keccak) := by
  induction h with
  | nil | value v => exact ⟨fun _ => rfl, fun _ => rfl⟩
  | hash hc hroot =>
    refine ⟨(fun h => by cases h), ?_⟩
    rintro rfl
    rw [ref_collapse_hash hroot]
    rfl
  | @short root k val flags t _ _ ih =>
    have heq : (Node.short k val flags).collapse keccak = collapse keccak (.short k t) := by
      rw [Node.collapse, ih.2 rfl]
      rfl
    exact ⟨fun _ => heq, fun _ => by rw [heq]⟩
  | @full root children flags cs _ _ ih =>
    have heq : (Node.full children flags).collapse keccak = collapse keccak (.full cs) := by
      rw [Node.collapse]
      congr 1
      funext i
      exact (ih i).2 rfl
    exact ⟨fun _ => heq, fun _ => by rw [heq]⟩

theorem Denotes.isBig_eq (h : Denotes keccak root n t) (hn : n.hashOf = none) :
    n.isBig keccak = big keccak t := by
  have henc : n.encoding keccak = blob keccak t := by
    rw [Node.encoding, h.collapse_eq.1 hn]
    rfl
  cases h with
  | nil | value _ => rfl
  | hash => cases hn
  | short _ _ | full _ _ => rw [Node.isBig, henc, big]

theorem Denotes.unload_eq (h : Denotes keccak root n t) (hn : n.hashOf = none) (hash : Option Hash) :
    n.unload keccak gen hash = load keccak gen hash t := by
  -- a child is a hash, loaded or not, or is embedded
  have hchild : ∀ {n : Node Hex} {t : PTree}, Denotes keccak false n t →
      (n.hashOf = none → n.unload keccak gen none = load keccak gen none t) →
      (if n.isBig keccak then .hash (keccak (n.encoding keccak)) else n.unload keccak gen none) =
        loadRef keccak gen t := by
    intro n t hd ih
    rcases hh : n.hashOf with _ | x
    · have henc : n.encoding keccak = blob keccak t := by
        rw [Node.encoding, hd.collapse_eq.1 hh]
        rfl
      rw [hd.isBig_eq hh, henc, ih hh, loadRef]
    · cases hd with
      | nil | value | short | full => cases hh
      | hash hc hroot =>
        rw [loadRef_of_big (hroot.resolve_left Bool.false_ne_true)]
        rfl
  induction h generalizing hash with
  | nil => rfl
  | value v => rfl
  | hash => cases hn
  | short hval _ ih => rw [Node.unload, load_short, hchild hval fun hn => ih hn none]
  | full hcs _ ih =>
    rw [Node.unload, load_full]
    congr 1
    funext i
    exact hchild (hcs i) fun hn => ih i hn none

/-! ## The node that is read -/

section
variable {h : Hasher} {db' : Option Database} {c : Node Bytes} {m : Node Hex} {flags : NodeFlag}

/-- **All ways to read a stored node agree.**  For the collapsed form of a node of a trie in
    normal form, expanding the simplified node and decoding the encoding give the node in
    memory with its big children replaced by their hashes, and so does the database, from
    wherever it serves the node. -/
theorem materialise_agree {odb : Option Database} (hn : Canonical h.keccak root n)
    (hch : h.hashChildren n odb = some (c, m, db')) (hash : Option Hash) (gen : UInt16) :
    ∃ r b, simplifyNode c = some r ∧ encodeToBytes c.item = some b ∧
      expandNode hash r gen = some (n.unload h.keccak gen hash) ∧
      mustDecodeNode hash b gen = some (n.unload h.keccak gen hash) ∧
      ∀ x, hash = some x → ∀ (db : Database) (cleans : Option (Hash → Option Bytes)),
        db.Serves cleans x r b →
        (db.nodeCached cleans x gen).1 = some (n.unload h.keccak gen hash) := by
  obtain ⟨t, hc, hf, hden, hnone⟩ := hn
  have hraw := (hden.collapses hc).2 hnone hch
  have hexpand : expandNode hash (collapse h.keccak t) gen = some _ := expandNode_collapse hc hash
  have hdecode : mustDecodeNode hash (blob h.keccak t) gen = some _ :=
    mustDecodeNode_blob hc hf hash
  rw [← hden.unload_eq hnone] at hexpand hdecode
  refine ⟨collapse h.keccak t, blob h.keccak t, ?_, ?_, hexpand, hdecode, ?_⟩
  · rw [← hraw]
    exact simplifyNode_raw (hraw ▸ solid_collapse hc)
  · rw [← Node.item_raw, hraw]
    exact encodeToBytes_collapse hc hf
  · rintro x rfl db cleans hserves
    exact hserves.nodeCached hexpand hdecode

end

/-- A branch with two leaves. -/
def branch (v w : Value) : PTree := .full fun i =>
  if i = 1 then .short [term] (.value v) else if i = 2 then .short [term] (.value w) else .nil

/-- The branch in memory. -/
def branchNode (v w : Value) : Node Hex := .full (fun i =>
  if i = 1 then .short [term] (.value v.bytes) {}
  else if i = 2 then .short [term] (.value w.bytes) {} else .nil) {}

theorem canonical_branchNode (v w : Value) : Canonical keccak root (branchNode v w) := by
  refine ⟨branch v w, .full (fun i hi h0 => ?_) (.inl rfl) ⟨1, 2, by decide, fun h => (by cases h),
    fun h => (by cases h)⟩, fun i => ?_, .full (fun i => ?_) (fun _ h => (by cases h)), rfl⟩
  · split_ifs at h0 ⊢
    · exact .leaf ⟨[], by simp⟩
    · exact .leaf ⟨[], by simp⟩
    · exact absurd rfl h0
  · dsimp only
    split_ifs
    · exact ⟨by simp, trivial⟩
    · exact ⟨by simp, trivial⟩
    · trivial
  · split_ifs
    · exact .short (.value v) (fun _ h => (by cases h))
    · exact .short (.value w) (fun _ h => (by cases h))
    · exact .nil

/-- A hasher without a limit and a callback, where every hash is zero. -/
def zeroHasher : Hasher := ⟨fun _ => .zero, 0, 0, none⟩

/-- A branch with a leaf that is embedded and one that is not. -/
theorem materialise_agree_branch : ∃ (v w : Value) (c : Node Bytes) (m : Node Hex),
    zeroHasher.hashChildren (branchNode v w) none = some (c, m, none) ∧
    ∃ r b, simplifyNode c = some r ∧ encodeToBytes c.item = some b ∧
      expandNode none r 7 = mustDecodeNode none b 7 := by
  obtain ⟨v, w, c, m, hch⟩ : ∃ (v w : Value) (c : Node Bytes) (m : Node Hex),
      zeroHasher.hashChildren (branchNode v w) none = some (c, m, none) :=
    ⟨⟨⟨[1], by decide⟩, by decide⟩, ⟨⟨List.replicate 40 2, by simp⟩, by simp⟩, _, _, rfl⟩
  have hn : Canonical zeroHasher.keccak true (branchNode v w) := canonical_branchNode v w
  obtain ⟨r, b, hr, hb, hexpand, hdecode, -⟩ := materialise_agree hn hch none 7
  exact ⟨v, w, c, m, hch, r, b, hr, hb, hexpand.trans hdecode.symm⟩

end GoEthereum.Trie
