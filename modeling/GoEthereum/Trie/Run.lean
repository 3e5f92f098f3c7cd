/-
  Runs of a trie over its database.

  A run updates, deletes and looks up keys, hashes and commits the trie, opens it again
  from its root, and lets the database move nodes to disk.  Whatever is loaded, cached
  and unloaded on the way, the trie stands for the tree of its last updates
  (`Inv.step`, `run_inv`), so it is a finite map (`tryGet_run`).

  The hash function is assumed not to collide on the encodings of the nodes of the run.
-/
import GoEthereum.Trie.Hashing

namespace GoEthereum.Trie

open GoEthereum.Rlp Patricia AssocMap

/-! ## Runs -/

/-- A call of the trie, or of the database behind it: `reopen` commits the trie and
    opens it again, `flush` is the database after nodes were moved to disk. -/
inductive TrieOp where
  | update (key value : Slice)
  | delete (key : Slice)
  | get (key : Slice)
  | hash
  | commit
  | reopen
  | setCacheLimit (l : UInt16)
  | flush (db : Database)

/-- A trie and its database. -/
structure World where
  db : Database
  trie : MerkleTrie

namespace World

/-- An empty trie over a new database. -/
def init : World := ⟨.new [], {}⟩

section
variable (keccak : Bytes → Hash)

/-- One call. -/
def step (w : World) : TrieOp → Result World
  | .update key value => do
    let trie ← w.trie.tryUpdate w.db key value
    .ok { w with trie }
  | .delete key => do
    let trie ← w.trie.tryDelete w.db key
    .ok { w with trie }
  | .get key => do
    let (_, trie) ← w.trie.tryGet w.db key
    .ok { w with trie }
  | .hash =>
    match w.trie.hash keccak with
    | none => .panic
    | some (_, trie) => .ok { w with trie }
  | .commit =>
    match w.trie.commit keccak w.db none with
    | none => .panic
    | some (_, trie, db) => .ok { db, trie }
  | .reopen =>
    match w.trie.commit keccak w.db none with
    | none => .panic
    | some (root, _, db) => do
      let trie ← MerkleTrie.new root db
      .ok { db, trie }
  | .setCacheLimit l => .ok { w with trie := w.trie.setCacheLimit l }
  | .flush db => .ok { w with db }

/-- The calls of a run, one after the other. -/
def run (w : World) (ops : List TrieOp) : Result World := ops.foldlM (step keccak) w

/-- The database keeps every node: its entries are old ones, in memory or on disk. -/
structure Keeps (db db' : Database) : Prop where
  newest : db'.oldest ≠ .zero → ∃ e, db'.dirties.get db'.newest = some e
  dirties : ∀ h e, db'.dirties.get h = some e → ∃ e', db.dirties.get h = some e' ∧ e.node = e'.node
  disk : ∀ (h : Hash) b, db'.disk.get h = some b → db.disk.get h = some b ∨
    h ≠ .zero ∧ ∃ e, db.dirties.get h = some e ∧ e.rlp = some b
  present : ∀ h, db.Present h → db'.Present h

/-- Whenever the database moves nodes in the run, it keeps them. -/
def Fair (w : World) : List TrieOp → Prop
  | [] => True
  | op :: ops => (∀ db, op = .flush db → Keeps w.db db) ∧
      ∀ w', step keccak w op = .ok w' → Fair w' ops

end

end World

/-! ## What a run maps -/

/-- The map after a call. -/
def TrieOp.setContent (m : Bytes → Option Bytes) : TrieOp → Bytes → Option Bytes
  | .update key value => Function.update m key.1 (if value.1 = [] then none else some value.1)
  | .delete key => Function.update m key.1 none
  | _ => m

/-- The map after a run: the value of the last update of a key that is not empty, if no
    deletion and no update to an empty value follows it. -/
def content (ops : List TrieOp) : Bytes → Option Bytes := ops.foldl TrieOp.setContent fun _ => none

/-- The tree after a call. -/
def TrieOp.apply (t : PTree) : TrieOp → PTree
  | .update key value =>
    if h : value.1 ≠ [] then t.insert (keybytesToHex key) ⟨value, h⟩
    else t.delete (keybytesToHex key)
  | .delete key => t.delete (keybytesToHex key)
  | _ => t

/-- The tree after a run. -/
def treeOf (ops : List TrieOp) : PTree := ops.foldl TrieOp.apply .nil

/-- The paths and branches of a tree. -/
def nodesOf : PTree → List PTree
  | .short k t => .short k t :: nodesOf t
  | .full cs => .full cs :: (List.finRange 17).flatMap fun i => nodesOf (cs i)
  | _ => []

/-- The encodings of the nodes that the trie has in a run. -/
def encodings (keccak : Bytes → Hash) (ops : List TrieOp) : List Bytes :=
  ops.inits.flatMap fun ops => (nodesOf (treeOf ops)).map (blob keccak)

variable {keccak : Bytes → Hash} {S : Set Bytes} {t : PTree} {w w' : World}

/-! ## The tree of a run -/

/-- A tree in normal form whose keys are the nibbles of slices. -/
structure Good (t : PTree) : Prop where
  canon : t = .nil ∨ t.Canon term
  keys : ∀ key v, Term term key → t.lookup key = some v → ∃ k : Slice, key = keybytesToHex k

theorem good_nil : Good .nil := ⟨.inl rfl, fun _ _ _ h => by cases h⟩

theorem Good.below (h : Good t) (key : Slice) : Tree.Below term (keybytesToHex key) t :=
  .inr ⟨term_keybytesToHex _, h.canon⟩

theorem Good.fits (h : Good t) (hc : t.Canon term) : t.Fits := by
  refine PTree.fits_of_lookup hc fun key v hk hl => ?_
  obtain ⟨k, rfl⟩ := h.keys key v hk hl
  have := k.2
  rw [length_keybytesToHex]
  omega

theorem Good.insert (h : Good t) (key : Slice) (v : Value) :
    Good (t.insert (keybytesToHex key) v) := by
  obtain ⟨hb, hne⟩ := Tree.canon_insert (v := v) (h.below key)
  refine ⟨.inr ?_, fun key' v' hk hl => ?_⟩
  · exact (hb.inner hne fun v hv => by
      rcases hb with ⟨h0, -⟩ | ⟨-, h0 | hc⟩
      · exact (term_keybytesToHex key.1).ne_nil h0
      · exact hne h0
      · rw [hv] at hc
        cases hc).2
  · rw [Tree.lookup_insert (h.below key) key' (.inr hk)] at hl
    split_ifs at hl with he
    · exact ⟨key, he⟩
    · exact h.keys key' v' hk hl

theorem Good.delete (h : Good t) (key : Slice) : Good (t.delete (keybytesToHex key)) := by
  refine ⟨?_, fun key' v' hk hl => ?_⟩
  · rcases Tree.canon_delete (h.below key) with ⟨h0, -⟩ | ⟨-, hc⟩
    · exact absurd h0 (term_keybytesToHex key.1).ne_nil
    · exact hc
  · rw [Tree.lookup_delete (h.below key) key' (.inr hk)] at hl
    split_ifs at hl
    exact h.keys key' v' hk hl

theorem Good.apply (h : Good t) (op : TrieOp) : Good (op.apply t) := by
  cases op with
  | update key value =>
    rw [TrieOp.apply]
    split_ifs
    · exact h.insert key _
    · exact h.delete key
  | delete key => exact h.delete key
  | _ => exact h

theorem treeOf_concat (ops : List TrieOp) (op : TrieOp) :
    treeOf (ops ++ [op]) = op.apply (treeOf ops) := by
  rw [treeOf, treeOf, List.foldl_append]
  rfl

theorem good_treeOf (ops : List TrieOp) : Good (treeOf ops) := by
  induction ops using List.reverseRecOn with
  | nil => exact good_nil
  | append_singleton ops op ih =>
    rw [treeOf_concat]
    exact ih.apply op

theorem content_concat (ops : List TrieOp) (op : TrieOp) :
    content (ops ++ [op]) = op.setContent (content ops) := by
  rw [content, content, List.foldl_append]
  rfl

theorem lookup_delete_keybytes (h : Good t) (k : Slice) (key : Bytes) :
    ((t.delete (keybytesToHex k)).lookup (keybytesToHex key)).map Value.bytes =
      Function.update (fun key => (t.lookup (keybytesToHex key)).map Value.bytes) k.1 none key := by
  rw [Tree.lookup_delete (h.below k) _ (.inr (term_keybytesToHex _)), Function.update_apply]
  simp only [keybytesToHex_injective.eq_iff]
  split_ifs <;> rfl

theorem lookup_insert_keybytes (h : Good t) (k : Slice) (v : Value) (key : Bytes) :
    ((t.insert (keybytesToHex k) v).lookup (keybytesToHex key)).map Value.bytes =
      Function.update (fun key => (t.lookup (keybytesToHex key)).map Value.bytes) k.1
        (some v.bytes) key := by
  rw [Tree.lookup_insert (h.below k) _ (.inr (term_keybytesToHex _)), Function.update_apply]
  simp only [keybytesToHex_injective.eq_iff]
  split_ifs <;> rfl

theorem lookup_treeOf (ops : List TrieOp) (key : Bytes) :
    ((treeOf ops).lookup (keybytesToHex key)).map Value.bytes = content ops key := by
  induction ops using List.reverseRecOn generalizing key with
  | nil => rfl
  | append_singleton ops op ih =>
    have hgood := good_treeOf ops
    rw [treeOf_concat, content_concat, ← funext ih]
    cases op with
    | update k value =>
      rw [TrieOp.apply, TrieOp.setContent]
      by_cases h : value.1 = []
      · rw [dif_neg (not_not.2 h), if_pos h]
        exact lookup_delete_keybytes hgood k key
      · rw [dif_pos h, if_neg h]
        exact lookup_insert_keybytes hgood k _ key
    | delete k => exact lookup_delete_keybytes hgood k key
    | _ => rfl

/-! ## The invariant -/

theorem covers_of_nodesOf : ∀ {t : PTree}, (∀ u ∈ nodesOf t, blob keccak u ∈ S) → Covers keccak S t
  | .nil, _ => trivial
  | .value _, _ => trivial
  | .short _ _, h => ⟨h _ (.head _), covers_of_nodesOf fun u hu => h u (.tail _ hu)⟩
  | .full _, h => ⟨h _ (.head _), fun i => covers_of_nodesOf fun u hu =>
      h u (.tail _ (List.mem_flatMap.2 ⟨i, List.mem_finRange i, hu⟩))⟩

theorem covers_treeOf {ops ops' : List TrieOp} (hS : ∀ b ∈ encodings keccak ops, b ∈ S)
    (h : ops' <+: ops) : Covers keccak S (treeOf ops') :=
  covers_of_nodesOf fun u hu => hS _ (List.mem_flatMap.2
    ⟨ops', (List.mem_inits _ _).2 h, List.mem_map.2 ⟨u, hu, rfl⟩⟩)

/-- The trie of the world represents the tree. -/
structure Inv (keccak : Bytes → Hash) (S : Set Bytes) (w : World) (t : PTree) : Prop where
  db : DbOk keccak S w.db
  rep : Rep keccak S w.db true w.trie.root t
  good : Good t

theorem dbOk_new : DbOk keccak S (.new []) where
  newest h := absurd rfl h
  dirties h e he hz := by
    have hget : (Database.new []).dirties.get h = none := by
      rw [Database.new, get_set, if_neg hz]
      rfl
    rw [hget] at he
    cases he
  disk h b hb := by cases hb

theorem inv_init : Inv keccak S World.init .nil := ⟨dbOk_new, .nil, good_nil⟩

theorem lt_fuel (key : Slice) (n : Node Hex) :
    2 * (keybytesToHex key).length + loads n < MerkleTrie.fuel (keybytesToHex key) := by
  have := loads_le n
  rw [MerkleTrie.fuel]
  omega

theorem tryGet_inv (hK : KeccakOk keccak S) (hi : Inv keccak S w t) (key : Slice) :
    ∃ trie, w.trie.tryGet w.db key = .ok ((t.lookup (keybytesToHex key)).map Value.bytes, trie) ∧
      Inv keccak S { w with trie } t := by
  have hb : Tree.Below term ((keybytesToHex key).drop 0) t := hi.good.below key
  obtain ⟨n, d, hget, hrep, -⟩ := tryGet_rep hK hi.db hi.rep hb (lt_fuel key _) w.trie.cachegen
  refine ⟨if d then { w.trie with root := n } else w.trie, ?_, hi.db, ?_, hi.good⟩
  · rw [MerkleTrie.tryGet, hget]
    rfl
  · cases d with
    | false => exact hi.rep
    | true => exact hrep

theorem delete_inv (hK : KeccakOk keccak S) (hi : Inv keccak S w t) (key : Slice) :
    ∃ d n, Trie.delete w.db w.trie.cachegen (MerkleTrie.fuel (keybytesToHex key)) w.trie.root []
        (keybytesToHex key) = .ok (d, n) ∧
      Inv keccak S { w with trie := { w.trie with root := n } } (t.delete (keybytesToHex key)) := by
  obtain ⟨d, n, hdel, hrep, -⟩ := delete_rep hK hi.db hi.rep (hi.good.below key)
    (lt_fuel key _) w.trie.cachegen []
  exact ⟨d, n, hdel, hi.db, hrep, hi.good.delete key⟩

theorem insert_inv (hK : KeccakOk keccak S) (hi : Inv keccak S w t) (key : Slice) (v : Value) :
    ∃ d n, Trie.insert w.db w.trie.cachegen (MerkleTrie.fuel (keybytesToHex key)) w.trie.root []
        (keybytesToHex key) (.value v.bytes) = .ok (d, n) ∧
      Inv keccak S { w with trie := { w.trie with root := n } }
        (t.insert (keybytesToHex key) v) := by
  obtain ⟨d, n, hins, hrep, -⟩ := insert_rep (v := v) hK hi.db hi.rep (hi.good.below key)
    (lt_fuel key _) w.trie.cachegen []
  exact ⟨d, n, hins, hi.db, hrep, hi.good.insert key v⟩

/-! ## Hashing and opening the trie -/

theorem Canon.isNil_eq_false {t : PTree} (hc : t.Canon term) : t.isNil = false := by
  cases hc <;> rfl

/-- `hashRoot` gives the root hash of the tree, in memory and into the database. -/
theorem hashRoot_inv (hi : Inv keccak S w t) (hcov : Covers keccak S t) (stored : Bool) :
    ∃ n db, w.trie.hashRoot keccak (withDb stored w.db) none =
        some (.hash (rootHash keccak t), n, withDb stored db) ∧ DbOk keccak S db ∧
      Stores stored w.db db ∧ Rep keccak S db true n t ∧
      (stored = true → t.Canon term → Committed keccak S db t) := by
  rw [MerkleTrie.hashRoot, hi.rep.isNil_eq, rootHash]
  rcases hi.good.canon with rfl | hc
  · exact ⟨.nil, w.db, rfl, hi.db, .refl _, .nil, fun _ h => by cases h⟩
  · obtain ⟨c, n, db, hhash, has⟩ := hash_rep w.trie.cachegen w.trie.cachelimit hi.db hc
      (hi.good.fits hc) hcov hi.rep stored
    rw [Canon.isNil_eq_false hc, hhash, has.hash (.inl rfl)]
    exact ⟨n, db, rfl, has.ok, has.stores, has.rep, fun hs _ =>
      ⟨hcov.mem hc, has.present hs (.inl rfl), has.kept hs⟩⟩

theorem hash_inv (hi : Inv keccak S w t) (hcov : Covers keccak S t) :
    ∃ trie, w.trie.hash keccak = some (rootHash keccak t, trie) ∧
      Inv keccak S { w with trie } t := by
  obtain ⟨n, db, hroot, hdb, hstores, hrep, -⟩ := hashRoot_inv hi hcov false
  cases hstores.same rfl
  have hroot : w.trie.hashRoot keccak none none = _ := hroot
  refine ⟨{ w.trie with root := n }, by rw [MerkleTrie.hash, hroot], hdb, hrep, hi.good⟩

theorem commit_inv (hi : Inv keccak S w t) (hcov : Covers keccak S t) :
    ∃ trie db, w.trie.commit keccak w.db none = some (rootHash keccak t, trie, db) ∧
      Inv keccak S { db, trie } t ∧ (t.Canon term → Committed keccak S db t) := by
  obtain ⟨n, db, hroot, hdb, hstores, hrep, hcommit⟩ := hashRoot_inv hi hcov true
  have hroot : w.trie.hashRoot keccak (some w.db) none = some (_, n, some db) := hroot
  exact ⟨{ w.trie with root := n, cachegen := w.trie.cachegen + 1 }, db,
    by rw [MerkleTrie.commit, hroot], ⟨hdb, hrep, hi.good⟩, hcommit rfl⟩

theorem blob_ne_empty (hc : t.Canon term) (hf : t.Fits) : blob keccak t ≠ [0x80] := by
  intro h
  have hdec : decodeNode none (blob keccak t) 0 = some (.ok (load keccak 0 none t)) :=
    decodeNode_blob hc hf none
  rw [h] at hdec
  cases hdec

theorem rootHash_canon (hK : KeccakOk keccak S) (hc : t.Canon term) (hf : t.Fits)
    (hmem : blob keccak t ∈ S) :
    rootHash keccak t = keccak (blob keccak t) ∧ rootHash keccak t ≠ .zero ∧
      rootHash keccak t ≠ emptyRoot := by
  have heq : rootHash keccak t = keccak (blob keccak t) := by
    rw [rootHash, Canon.isNil_eq_false hc]
    rfl
  have hne : blob keccak t ≠ [0x80] := blob_ne_empty hc hf
  rw [heq]
  refine ⟨rfl, hK.zero _ hmem, fun h => hne ?_⟩
  rw [← hK.empty] at h
  exact hK.inj (.inr hmem) (.inl rfl) h

theorem new_inv {db : Database} (hK : KeccakOk keccak S) (hdb : DbOk keccak S db) (hgood : Good t)
    (hcommit : t.Canon term → Committed keccak S db t) :
    ∃ trie, MerkleTrie.new (rootHash keccak t) db = .ok trie ∧ Inv keccak S { db, trie } t := by
  rw [MerkleTrie.new]
  rcases hgood.canon with rfl | hc
  · exact ⟨{}, if_neg fun h => h.2 rfl, hdb, .nil, hgood⟩
  · have hs := hcommit hc
    obtain ⟨heq, hzero, hempty⟩ := rootHash_canon hK hc (hgood.fits hc) hs.mem
    have hroot : true = true ∨ big keccak t = true := .inl rfl
    obtain ⟨n, hn, hrep, -⟩ := resolveHash_rep hK hdb hc (hgood.fits hc) hroot hs 0 []
    rw [if_pos ⟨hzero, hempty⟩, heq, hn]
    exact ⟨{ root := n }, rfl, hdb, hrep, hgood⟩

theorem Inv.flush {db : Database} (hi : Inv keccak S w t) (h : World.Keeps w.db db) :
    Inv keccak S { w with db } t where
  db := {
    newest := h.newest
    dirties := fun x e he hx => by
      obtain ⟨e', he', hnode⟩ := h.dirties x e he
      obtain ⟨b, hb, hk, hrlp, hobj⟩ := hi.db.dirties x e' he' hx
      refine ⟨b, hb, hk, ?_, fun gen => ?_⟩
      · rw [CachedNode.rlp, hnode]
        exact hrlp
      · rw [CachedNode.obj, hnode]
        exact hobj gen
    disk := fun x b hb => by
      rcases h.disk x b hb with hb | ⟨hx, e, he, hrlp⟩
      · exact hi.db.disk x b hb
      · obtain ⟨b', hb', hk, hrlp', -⟩ := hi.db.dirties x e he hx
        rw [hrlp] at hrlp'
        cases hrlp'
        exact ⟨hb', hk⟩ }
  rep := hi.rep.mono h.present
  good := hi.good

/-! ## Runs -/

/-- **One call** does to the trie what it does to its tree. -/
theorem Inv.step (hK : KeccakOk keccak S) (hi : Inv keccak S w t) (hcov : Covers keccak S t)
    {op : TrieOp} (hfair : ∀ db, op = .flush db → World.Keeps w.db db) :
    ∃ w', w.step keccak op = .ok w' ∧ Inv keccak S w' (op.apply t) := by
  cases op with
  | update key value =>
    rw [World.step, MerkleTrie.tryUpdate, TrieOp.apply]
    by_cases hv : value.1 = []
    · obtain ⟨d, n, hdel, hinv⟩ := delete_inv hK hi key
      rw [dif_neg (not_not.2 hv), if_neg (by simpa using hv), hdel]
      exact ⟨_, rfl, hinv⟩
    · obtain ⟨d, n, hins, hinv⟩ := insert_inv hK hi key ⟨value, hv⟩
      have hins : Trie.insert w.db _ _ _ [] _ (.value value.1) = _ := hins
      rw [dif_pos hv, if_pos (by simpa using hv), hins]
      exact ⟨_, rfl, hinv⟩
  | delete key =>
    obtain ⟨d, n, hdel, hinv⟩ := delete_inv hK hi key
    rw [World.step, MerkleTrie.tryDelete, hdel]
    exact ⟨_, rfl, hinv⟩
  | get key =>
    obtain ⟨trie, hget, hinv⟩ := tryGet_inv hK hi key
    rw [World.step, hget]
    exact ⟨_, rfl, hinv⟩
  | hash =>
    obtain ⟨trie, hhash, hinv⟩ := hash_inv hi hcov
    rw [World.step, hhash]
    exact ⟨_, rfl, hinv⟩
  | commit =>
    obtain ⟨trie, db, hcommit, hinv, -⟩ := commit_inv hi hcov
    rw [World.step, hcommit]
    exact ⟨_, rfl, hinv⟩
  | reopen =>
    obtain ⟨trie, db, hcommit, hinv, hcommitted⟩ := commit_inv hi hcov
    obtain ⟨trie', hnew, hinv'⟩ := new_inv hK hinv.db hinv.good hcommitted
    rw [World.step, hcommit]
    simp only [hnew]
    exact ⟨_, rfl, hinv'⟩
  | setCacheLimit l => exact ⟨_, rfl, hi.db, hi.rep, hi.good⟩
  | flush db => exact ⟨_, rfl, hi.flush (hfair db rfl)⟩

theorem Inv.run (hK : KeccakOk keccak S) : ∀ (ops : List TrieOp) {w : World} {t : PTree},
    Inv keccak S w t → (∀ ops', ops' <+: ops → Covers keccak S (ops'.foldl TrieOp.apply t)) →
    World.Fair keccak w ops →
    ∃ w', w.run keccak ops = .ok w' ∧ Inv keccak S w' (ops.foldl TrieOp.apply t)
  | [], w, _, hi, _, _ => ⟨w, rfl, hi⟩
  | op :: ops, w, t, hi, hcov, hfair => by
    obtain ⟨w₁, hstep, hi₁⟩ := hi.step hK (hcov [] (List.nil_prefix)) hfair.1
    obtain ⟨w₂, hrun, hi₂⟩ := Inv.run hK ops hi₁
      (fun ops' h => hcov (op :: ops') (List.cons_prefix_cons.2 ⟨rfl, h⟩)) (hfair.2 w₁ hstep)
    refine ⟨w₂, ?_, hi₂⟩
    rw [World.run, List.foldlM_cons, hstep]
    exact hrun

theorem run_inv {ops : List TrieOp} (hS : ∀ b ∈ encodings keccak ops, b ∈ S)
    (hK : KeccakOk keccak S) (hfair : World.Fair keccak World.init ops) :
    ∃ w, World.init.run keccak ops = .ok w ∧ Inv keccak S w (treeOf ops) ∧
      Covers keccak S (treeOf ops) := by
  obtain ⟨w, hrun, hi⟩ := Inv.run hK ops inv_init (fun _ h => covers_treeOf hS h) hfair
  exact ⟨w, hrun, hi, covers_treeOf hS List.prefix_rfl⟩

/-- **A trie is a finite map.**  After a run, a key has the value of its last update that
    was not undone, whatever was cached, unloaded and loaded in between. -/
theorem tryGet_run (keccak : Bytes → Hash) (ops : List TrieOp) (key : Slice)
    (hK : KeccakOk keccak {b | b ∈ encodings keccak ops})
    (hfair : World.Fair keccak World.init ops) :
    ∃ w trie, World.init.run keccak ops = .ok w ∧
      w.trie.tryGet w.db key = .ok (content ops key, trie) := by
  obtain ⟨w, hrun, hi, -⟩ := run_inv (fun _ h => h) hK hfair
  obtain ⟨trie, hget, -⟩ := tryGet_inv hK hi key
  rw [lookup_treeOf] at hget
  exact ⟨w, trie, hrun, hget⟩

/-! ## A run -/

/-- The words `do` and `dog` as keys, `verb` and `puppy` as values. -/
def wordDo : Slice := ⟨[0x64, 0x6F], by decide⟩
def wordDog : Slice := ⟨[0x64, 0x6F, 0x67], by decide⟩
def wordVerb : Slice := ⟨[0x76, 0x65, 0x72, 0x62], by decide⟩
def wordPuppy : Slice := ⟨[0x70, 0x75, 0x70, 0x70, 0x79], by decide⟩

/-- A hash as a number. -/
def hashOf (n : ℕ) : Hash := ⟨BigEndian.toBE 32 n, BigEndian.length_toBE 32 n⟩

/-- Keccak-256 of the nodes of a trie with these words. -/
def wordHashes : List (Bytes × Hash) := [
  ([0x80], emptyRoot),
  (BigEndian.toBE 34 0xE18300646FDC808080808080C7378570757070798080808080808080808476657262,
    hashOf 0x779DB3986DD4F38416BFDE49750EF7B13C6ECB3E2221620BCAD9267E94604D36),
  (BigEndian.toBE 29 0xDC808080808080C7378570757070798080808080808080808476657262,
    hashOf 0xE57D0A0CEE89E5EFB3CCBF7E6AD6EADBE79C5949493A7245FD3F3DBC9933EBE3),
  (BigEndian.toBE 8 0xC737857075707079,
    hashOf 0x1F32BE6636A0CFD86E0BAEDE89B31518C5FEAF66A2F8B90FE858ECBD601AD30E),
  (BigEndian.toBE 10 0xC98320646F8476657262,
    hashOf 0x014F07ED95E2E028804D915E0DBD4ED451E394E1ACFD29E463C11A060B2DDEF7)]

def wordKeccak (b : Bytes) : Hash := (wordHashes.lookup b).getD .zero

/-- Both words are stored and looked up, the trie is opened again, and one is deleted. -/
def wordOps : List TrieOp :=
  [.update wordDo wordVerb, .update wordDog wordPuppy, .hash, .reopen, .get wordDo, .delete wordDog,
    .commit]

theorem keccakOk_of_list {l : List Bytes}
    (hinj : ∀ b ∈ [0x80] :: l, ∀ b' ∈ [0x80] :: l, keccak b = keccak b' → b = b')
    (hzero : ∀ b ∈ l, keccak b ≠ .zero) (hempty : keccak [0x80] = emptyRoot) :
    KeccakOk keccak {b | b ∈ l} := by
  have hmem : ∀ b ∈ {[0x80]} ∪ {b | b ∈ l}, b ∈ [0x80] :: l := by
    rintro b (rfl | hb)
    · exact .head _
    · exact .tail _ hb
  exact ⟨fun b hb b' hb' h => hinj b (hmem b hb) b' (hmem b' hb') h, hzero, hempty⟩

theorem fair_of_forall : ∀ {ops : List TrieOp}, (∀ op ∈ ops, ∀ db, op ≠ .flush db) →
    ∀ w, World.Fair keccak w ops
  | [], _, _ => trivial
  | op :: _, h, _ => ⟨fun db he => absurd he (h op (.head _) db),
      fun w' _ => fair_of_forall (fun op hop => h op (.tail _ hop)) w'⟩

theorem wordKeccak_ok : KeccakOk wordKeccak {b | b ∈ encodings wordKeccak wordOps} :=
  keccakOk_of_list (by decide +kernel) (by decide +kernel) (by decide +kernel)

theorem tryGet_run_words : ∃ w trie, World.init.run wordKeccak wordOps = .ok w ∧
    w.trie.tryGet w.db wordDo = .ok (some wordVerb.1, trie) :=
  tryGet_run wordKeccak wordOps wordDo wordKeccak_ok (fair_of_forall (by simp [wordOps]) _)

end GoEthereum.Trie
