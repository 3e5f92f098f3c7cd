/-
  Merkle proofs (trie/proof.go).

  `prove` puts the nodes on the path of a key into the proof, `verifyProof` follows the
  key through a proof from the root.  A proof whose entries lie under their hashes says
  nothing false about a trie with that root (`verifyProof_sound`), and the proof of a
  trie is accepted exactly if the trie is not empty (`verifyProof_prove`).
-/
import GoEthereum.Trie.Root

namespace GoEthereum.Trie

open GoEthereum.Rlp Patricia

/-! ## The program -/

/-- The database of a proof. -/
abbrev ProofDb := Hash → Option Bytes

/-- The errors of `VerifyProof`. -/
inductive ProofError where
  | missing (i : ℕ) (hash : Hash)
  | bad (i : ℕ) (err : DecodeError)

/-- `get` follows the key through the loaded nodes; a full node at the end of the key is
    a panic. -/
def get : Node Hex → Hex → Option (Hex × Node Hex)
  | .short nkey val _, key =>
    if key.length < nkey.length ∨ nkey ≠ key.take nkey.length then some ([], .nil)
    else get val (key.drop nkey.length)
  | .full children _, c :: key => get (children c) key
  | .full _ _, [] => none
  | .hash h, key => some (key, .hash h)
  | .nil, key => some (key, .nil)
  | .value v, _ => some ([], .value v)

/-- The loop of `VerifyProof`: the value, the number of nodes and the error. -/
def verifyFrom (proofDb : ProofDb) : ℕ → ℕ → Hash → Hex →
    Option (Option Bytes × ℕ × Option ProofError)
  | 0, _, _, _ => none
  | fuel + 1, i, wantHash, key =>
    match proofDb wantHash with
    | none => some (none, i, some (.missing i wantHash))
    | some buf =>
      match decodeNode (some wantHash) buf 0 with
      | none => none
      | some (.error err) => some (none, i, some (.bad i err))
      | some (.ok n) =>
        match get n key with
        | none => none
        | some (_, .nil) => some (none, i, none)
        | some (keyrest, .hash h) => verifyFrom proofDb fuel (i + 1) h keyrest
        | some (_, .value v) => some (some v, i + 1, none)
        -- `get` stops at no other node
        | some (keyrest, _) => verifyFrom proofDb fuel (i + 1) wantHash keyrest

def verifyProof (fuel : ℕ) (rootHash : Hash) (key : Bytes) (proofDb : ProofDb) :
    Option (Option Bytes × ℕ × Option ProofError) :=
  verifyFrom proofDb fuel 0 rootHash (keybytesToHex key)

/-- The first loop of `Prove` collects the nodes on the path of the key. -/
def collectNodes (db : Database) (cachegen : UInt16) : ℕ → Node Hex → Hex → Result (List (Node Hex))
  | 0, _, _ => .panic
  | fuel + 1, tn, key =>
    match key with
    | [] => .ok []
    | c :: rest =>
      match tn with
      | .nil => .ok []
      | .short nkey val flags => do
        let nodes ←
          if key.length < nkey.length ∨ nkey ≠ key.take nkey.length then
            collectNodes db cachegen fuel .nil key
          else collectNodes db cachegen fuel val (key.drop nkey.length)
        .ok (.short nkey val flags :: nodes)
      | .full children flags => do
        let nodes ← collectNodes db cachegen fuel (children c) rest
        .ok (.full children flags :: nodes)
      | .hash h => do
        let tn ← resolveHash db cachegen h []
        collectNodes db cachegen fuel tn key
      | .value _ => .panic

section
variable (keccak : Bytes → Hash)

/-- The body of the second loop of `Prove`. -/
def proveNode (i : ℕ) (n : Node Hex) (fromLevel : ℕ) (proofDb : ProofDb) : Option (ℕ × ProofDb) :=
  match Hasher.hashChildren ⟨keccak, 0, 0, none⟩ n none with
  | none => none
  | some (n, _, _) =>
    match Hasher.store ⟨keccak, 0, 0, none⟩ n none false with
    | none => none
    | some (hn, _) =>
      if hn.hashOf.isSome ∨ i = 0 then
        if 0 < fromLevel then some (fromLevel - 1, proofDb)
        else
          let enc := enc n.item
          some (fromLevel, Function.update proofDb (hn.hashOf.getD (keccak enc)) (some enc))
      else some (fromLevel, proofDb)

/-- The second loop of `Prove` puts the nodes that have a hash into the proof. -/
def proveNodes : ℕ → List (Node Hex) → ℕ → ProofDb → Option ProofDb
  | _, [], _, proofDb => some proofDb
  | i, n :: nodes, fromLevel, proofDb =>
    match proveNode keccak i n fromLevel proofDb with
    | none => none
    | some (fromLevel, proofDb) => proveNodes (i + 1) nodes fromLevel proofDb

def MerkleTrie.prove (t : MerkleTrie) (db : Database) (key : Bytes) (fromLevel : ℕ)
    (proofDb : ProofDb) : Result ProofDb := do
  let key := keybytesToHex key
  let nodes ← collectNodes db t.cachegen (fuel key) t.root key
  match proveNodes keccak 0 nodes fromLevel proofDb with
  | none => .panic
  | some proofDb => .ok proofDb

end

variable {keccak : Bytes → Hash} {S : Set Bytes} {t : PTree} {k key : Hex} {proofDb : ProofDb}

/-! ## Following a key -/

/-- The nodes on the path of a key. -/
def pathNodes : PTree → Hex → List PTree
  | .short k t, key => .short k t :: if k <+: key then pathNodes t (key.drop k.length) else []
  | .full cs, c :: key => .full cs :: pathNodes (cs c) key
  | _, _ => []

/-- Where `get` stops: the value of the key is known, or it is the value of the rest of
    the key in the tree behind a hash further down the path. -/
inductive Stops (keccak : Bytes → Hash) (S : Set Bytes) (t : PTree) (key : Hex)
    (path : List PTree) : Hex → Node Hex → Prop
  | nil {rest : Hex} : t.lookup key = none → Stops keccak S t key path rest .nil
  | value {rest : Hex} {v : Value} : t.lookup key = some v →
      Stops keccak S t key path rest (.value v.bytes)
  | hash {rest : Hex} {u : PTree} : u.Canon term → u.Fits → Covers keccak S u →
      big keccak u = true → Term term rest → u.lookup rest = t.lookup key →
      pathNodes u rest <:+ path → Stops keccak S t key path rest (.hash (keccak (blob keccak u)))

theorem pathNodes_ne_nil (hc : t.Canon term) (hk : Term term key) :
    ∃ path, pathNodes t key = t :: path := by
  cases t with
  | short k t => exact ⟨_, rfl⟩
  | full cs =>
    obtain ⟨c, r, rfl⟩ := List.exists_cons_of_ne_nil hk.ne_nil
    exact ⟨_, rfl⟩
  | _ => cases hc

theorem Stops.lift {u : PTree} {key' rest : Hex} {path path' : List PTree} {n : Node Hex}
    (h : Stops keccak S t key path rest n) (hl : t.lookup key = u.lookup key')
    (hp : path <:+ path') : Stops keccak S u key' path' rest n := by
  cases h with
  | nil h => exact .nil (hl ▸ h)
  | value h => exact .value (hl ▸ h)
  | hash hc hf hcov hb hk h hs => exact .hash hc hf hcov hb hk (h.trans hl) (hs.trans hp)

theorem path_test : key.length < k.length ∨ k ≠ key.take k.length ↔ ¬ k <+: key := short_test 0

/-- A path node is followed into its child. -/
theorem get_load_short (hash : Option Hash) (hc : (Tree.short k t : PTree).Canon term)
    (hk : Term term key)
    (ih : ∀ r, Tree.Below term r t → ∃ rest n, get (loadRef keccak 0 t) r = some (rest, n) ∧
      Stops keccak S t r (pathNodes t r) rest n) :
    ∃ rest n, get (load keccak 0 hash (.short k t)) key = some (rest, n) ∧
      Stops keccak S (.short k t) key (pathNodes (.short k t) key).tail rest n := by
  rw [load_short, get, pathNodes]
  by_cases hpre : k <+: key
  · obtain ⟨r, rfl⟩ := hpre
    obtain ⟨rest, n, hget, hstops⟩ := ih r (hc.rest hk)
    rw [if_neg (fun h => path_test.1 h ⟨r, rfl⟩), List.drop_left]
    refine ⟨rest, n, hget, hstops.lift (Tree.lookup_short_append k r t).symm ?_⟩
    rw [if_pos (List.prefix_append k r)]
    exact List.suffix_rfl
  · rw [if_pos (path_test.2 hpre)]
    exact ⟨[], .nil, rfl, .nil (Tree.lookup_short_of_not hpre)⟩

/-- A branch is followed into the child of the next letter. -/
theorem get_load_full {cs : Fin 17 → PTree} (hash : Option Hash)
    (hc : (Tree.full cs : PTree).Canon term) (hk : Term term key)
    (ih : ∀ i r, Tree.Below term r (cs i) → ∃ rest n, get (loadRef keccak 0 (cs i)) r =
      some (rest, n) ∧ Stops keccak S (cs i) r (pathNodes (cs i) r) rest n) :
    ∃ rest n, get (load keccak 0 hash (.full cs)) key = some (rest, n) ∧
      Stops keccak S (.full cs) key (pathNodes (.full cs) key).tail rest n := by
  obtain ⟨c, r, rfl⟩ := List.exists_cons_of_ne_nil hk.ne_nil
  obtain ⟨rest, n, hget, hstops⟩ := ih c r (hc.child hk)
  rw [load_full, get, pathNodes]
  exact ⟨rest, n, hget, hstops.lift rfl List.suffix_rfl⟩

theorem get_loadRef (hb : Tree.Below term key t) (hf : t.Fits) (hcov : Covers keccak S t) :
    ∃ rest n, get (loadRef keccak 0 t) key = some (rest, n) ∧
      Stops keccak S t key (pathNodes t key) rest n := by
  -- behind a hash the key is not followed
  have hstep : ∀ {t : PTree} {key : Hex}, t.Canon term → t.Fits → Covers keccak S t →
      Term term key → (∃ rest n, get (load keccak 0 none t) key = some (rest, n) ∧
        Stops keccak S t key (pathNodes t key).tail rest n) →
      ∃ rest n, get (loadRef keccak 0 t) key = some (rest, n) ∧
        Stops keccak S t key (pathNodes t key) rest n := by
    intro t key hc hf hcov hk hload
    rcases hbig : big keccak t with _ | _
    · obtain ⟨rest, n, hget, hstops⟩ := hload
      rw [loadRef_of_not_big hbig]
      exact ⟨rest, n, hget, hstops.lift rfl (List.tail_suffix _)⟩
    · rw [loadRef_of_big hbig]
      exact ⟨key, _, rfl, .hash hc hf hcov hbig hk rfl List.suffix_rfl⟩
  induction t generalizing key with
  | nil => exact ⟨key, .nil, rfl, .nil rfl⟩
  | value v =>
    rw [value_below hb]
    exact ⟨[], _, rfl, .value rfl⟩
  | short k t ih =>
    obtain ⟨hk, hc⟩ := hb.inner (by simp) (by simp)
    exact hstep hc hf hcov hk (get_load_short none hc hk fun r hr => ih hr hf.2 hcov.2)
  | full cs ih =>
    obtain ⟨hk, hc⟩ := hb.inner (by simp) (by simp)
    exact hstep hc hf hcov hk (get_load_full none hc hk fun i r hr => ih i hr (hf i) (hcov.2 i))

theorem get_load (hash : Option Hash) (hc : t.Canon term) (hf : t.Fits) (hcov : Covers keccak S t)
    (hk : Term term key) : ∃ rest n, get (load keccak 0 hash t) key = some (rest, n) ∧
      Stops keccak S t key (pathNodes t key).tail rest n := by
  cases t with
  | short k t => exact get_load_short hash hc hk fun r hr => get_loadRef hr hf.2 hcov.2
  | full cs => exact get_load_full hash hc hk fun i r hr => get_loadRef hr (hf i) (hcov.2 i)
  | _ => cases hc

/-! ## Soundness -/

/-- Every entry of the proof lies under its hash. -/
def Addressed (keccak : Bytes → Hash) (proofDb : ProofDb) : Prop :=
  ∀ h b, proofDb h = some b → keccak b = h

theorem verifyFrom_sound (hinj : Set.InjOn keccak (S ∪ {b | ∃ h, proofDb h = some b}))
    (haddr : Addressed keccak proofDb) {fuel : ℕ} (hc : t.Canon term) (hf : t.Fits)
    (hcov : Covers keccak S t) (hk : Term term key) (i : ℕ) {value : Option Bytes} {nodes : ℕ}
    (h : verifyFrom proofDb fuel i (keccak (blob keccak t)) key = some (value, nodes, none)) :
    value = (t.lookup key).map Value.bytes := by
  induction fuel generalizing t key i with
  | zero => cases h
  | succ fuel ih =>
    rw [verifyFrom] at h
    rcases hdb : proofDb (keccak (blob keccak t)) with _ | buf
    · rw [hdb] at h
      cases h
    -- the entry is the encoding of the node
    obtain rfl : buf = blob keccak t :=
      hinj (.inr ⟨_, hdb⟩) (.inl (hcov.mem hc)) (haddr _ _ hdb)
    obtain ⟨rest, n, hget, hstops⟩ := get_load (some (keccak (blob keccak t))) hc hf hcov hk
    simp only [hdb, decodeNode_blob hc hf, hget] at h
    cases hstops with
    | nil hl | value hl =>
      cases h
      rw [hl]
      rfl
    | hash hc' hf' hcov' _ hk' hl _ => rw [← hl, ih hc' hf' hcov' hk' (i + 1) h]

/-! ## Completeness -/

/-- The proof has a node. -/
def Proves (keccak : Bytes → Hash) (proofDb : ProofDb) (t : PTree) : Prop :=
  proofDb (keccak (blob keccak t)) = some (blob keccak t)

theorem verifyFrom_complete {fuel : ℕ} (hc : t.Canon term) (hf : t.Fits)
    (hcov : Covers keccak S t) (hk : Term term key) (hfuel : (pathNodes t key).length < fuel + 1)
    (hroot : Proves keccak proofDb t)
    (hpath : ∀ u ∈ pathNodes t key, big keccak u = true → Proves keccak proofDb u) (i : ℕ) :
    ∃ nodes, verifyFrom proofDb fuel i (keccak (blob keccak t)) key =
      some ((t.lookup key).map Value.bytes, nodes, none) := by
  obtain ⟨path, hpn⟩ := pathNodes_ne_nil hc hk
  induction fuel generalizing t key i path with
  | zero =>
    rw [hpn, List.length_cons] at hfuel
    omega
  | succ fuel ih =>
    obtain ⟨rest, n, hget, hstops⟩ := get_load (some (keccak (blob keccak t))) hc hf hcov hk
    have hroot : proofDb (keccak (blob keccak t)) = _ := hroot
    rw [verifyFrom]
    simp only [hroot, decodeNode_blob hc hf, hget]
    cases hstops with
    | nil hl | value hl =>
      rw [hl]
      exact ⟨_, rfl⟩
    | @hash u hc' hf' hcov' hb hk' hl hs =>
      obtain ⟨path', hpn'⟩ := pathNodes_ne_nil hc' hk'
      have hsub : ∀ x ∈ pathNodes u rest, x ∈ pathNodes t key := fun x hx =>
        List.mem_of_mem_tail (hs.subset hx)
      have hlen : (pathNodes u rest).length ≤ path.length := by
        have := hs.length_le
        rwa [hpn] at this
      rw [hpn, List.length_cons] at hfuel
      obtain ⟨nodes, hv⟩ := ih hc' hf' hcov' hk' (by omega)
        (hpath u (hsub u (by rw [hpn']; exact .head _)) hb) (fun x hx => hpath x (hsub x hx))
        (i + 1) path' hpn'
      exact ⟨nodes, by rw [← hl]; exact hv⟩

/-- Nodes that represent trees, the first one perhaps the root. -/
inductive RepAll (keccak : Bytes → Hash) (S : Set Bytes) (db : Database) :
    Bool → List (Node Hex) → List PTree → Prop
  | nil {root : Bool} : RepAll keccak S db root [] []
  | cons {root : Bool} {n : Node Hex} {t : PTree} {ns : List (Node Hex)} {ts : List PTree} :
      Rep keccak S db root n t → n.hashOf = none → t.Canon term → t.Fits → Covers keccak S t →
      RepAll keccak S db false ns ts → RepAll keccak S db root (n :: ns) (t :: ts)

variable {db : Database} {root : Bool} {n : Node Hex}

theorem collectNodes_rep (hK : KeccakOk keccak S) (hdb : DbOk keccak S db) {fuel : ℕ}
    (hn : Rep keccak S db root n t) (hb : Tree.Below term key t) (hf : t.Fits)
    (hcov : Covers keccak S t) (hfuel : 2 * key.length + loads n < fuel) (gen : UInt16) :
    ∃ ns, collectNodes db gen fuel n key = .ok ns ∧ RepAll keccak S db root ns (pathNodes t key) := by
  induction fuel generalizing root n t key with
  | zero => omega
  | succ fuel ih =>
    rcases key with _ | ⟨c, rest⟩
    · -- at the end of the key there is nothing or a value
      rcases hb with ⟨-, rfl | ⟨v, rfl⟩⟩ | ⟨hk, -⟩
      · exact ⟨[], rfl, .nil⟩
      · exact ⟨[], rfl, .nil⟩
      · exact absurd rfl hk.ne_nil
    cases hn with
    | nil => exact ⟨[], rfl, .nil⟩
    | value v => cases value_below hb
    | hash hc _ hroot hs =>
      obtain ⟨rn, hrn, hrep, hnone⟩ := resolveHash_rep hK hdb hc hf hroot hs gen []
      rw [loads_hash] at hfuel
      obtain ⟨ns, hns, hall⟩ := ih hrep hb hf hcov (by rw [loads_of_none hnone]; omega)
      refine ⟨ns, ?_, hall⟩
      rw [collectNodes]
      simp only [hrn, Result.ok_bind, hns]
    | @short _ k val flags t hval hflag =>
      obtain ⟨hterm, hc⟩ := hb.inner (by simp) (by simp)
      rw [collectNodes, pathNodes]
      by_cases hpre : k <+: c :: rest
      · obtain ⟨r, hr⟩ := hpre
        have hk0 : 0 < k.length := List.length_pos_of_ne_nil hc.path_ne_nil
        have hle := loads_le val
        rw [← hr, List.length_append] at hfuel
        obtain ⟨ns, hns, hall⟩ := ih hval (hc.rest (hr ▸ hterm)) hf.2 hcov.2 (by omega)
        rw [if_neg (fun h => path_test.1 h ⟨r, hr⟩), if_pos ⟨r, hr⟩, ← hr, List.drop_left, hns]
        exact ⟨_, rfl, .cons (.short hval hflag) rfl hc hf hcov hall⟩
      · rw [List.length_cons] at hfuel
        obtain ⟨fuel, rfl⟩ : ∃ m, fuel = m + 1 := ⟨fuel - 1, by omega⟩
        rw [if_pos (path_test.2 hpre), if_neg hpre]
        exact ⟨_, rfl, .cons (.short hval hflag) rfl hc hf hcov .nil⟩
    | @full _ children flags cs hcs hflag =>
      obtain ⟨hterm, hc⟩ := hb.inner (by simp) (by simp)
      have hle := loads_le (children c)
      rw [List.length_cons] at hfuel
      obtain ⟨ns, hns, hall⟩ := ih (hcs c) (hc.child hterm) (hf c) (hcov.2 c) (by omega)
      rw [collectNodes, pathNodes]
      simp only [hns, Result.ok_bind]
      exact ⟨_, rfl, .cons (.full hcs hflag) rfl hc hf hcov hall⟩

theorem hashChildren_rep (hdb : DbOk keccak S db) (hc : t.Canon term) (hf : t.Fits)
    (hcov : Covers keccak S t) (hn : Rep keccak S db root n t) (hnone : n.hashOf = none) :
    ∃ c n', Hasher.hashChildren ⟨keccak, 0, 0, none⟩ n none = some (c, n', none) ∧
      c.raw = collapse keccak t ∧ c.cache.1 = n.cache.1 := by
  have hchild : ∀ {n : Node Hex} {t : PTree}, t.Fits → Covers keccak S t → t.Canon term →
      HashesChild keccak S false (fun db => Hasher.hash ⟨keccak, 0, 0, none⟩ n db false) n t :=
    fun hf hcov hc _ hdb hn => hash_rep 0 0 hdb hc hf hcov hn false
  have hraw := (hn.denotes.collapses (h := ⟨keccak, 0, 0, none⟩) hc).2 hnone
  cases hn with
  | nil => cases hc
  | value => cases hc
  | hash => cases hnone
  | short hval hflag =>
    obtain ⟨c, m, db', hch, -⟩ := hashShort_rep hdb hc hval hcov.2 (hchild hf.2 hcov.2) _
    exact ⟨_, _, hch, hraw hch, rfl⟩
  | full hcs hflag =>
    obtain ⟨collapsed, cached, db', hch, -⟩ := hashFull_rep hc hcs hcov.2
      (fun i => hchild (hf i) (hcov.2 i)) hdb _
    exact ⟨_, _, hch, hraw hch, rfl⟩

/-- The proof of a node: the entries stay, and the node is there if it has a hash. -/
theorem proveNode_rep (hK : KeccakOk keccak S) (hdb : DbOk keccak S db) (hc : t.Canon term)
    (hf : t.Fits) (hcov : Covers keccak S t) (hn : Rep keccak S db root n t)
    (hnone : n.hashOf = none) (i : ℕ)
    (haddr : ∀ h b, proofDb h = some b → b ∈ S ∧ keccak b = h) :
    ∃ proofDb', proveNode keccak i n 0 proofDb = some (0, proofDb') ∧
      (∀ h b, proofDb' h = some b → b ∈ S ∧ keccak b = h) ∧
      (∀ h b, proofDb h = some b → proofDb' h = some b) ∧
      (big keccak t = true ∨ i = 0 → Proves keccak proofDb' t) := by
  obtain ⟨c, n', hch, hraw, hcache⟩ := hashChildren_rep hdb hc hf hcov hn hnone
  have henc : enc c.item = blob keccak t := by rw [← Node.item_raw, hraw, blob]
  have hcached : ∀ x, c.cache.1 = some x → x = keccak (blob keccak t) := by
    intro x hx
    rw [hcache] at hx
    cases hn with
    | short _ hflag | full _ hflag => exact (hflag.hash x hx).1
    | nil => cases hc
    | value => cases hc
    | hash => cases hnone
  obtain ⟨hn', hstore, hbig⟩ : ∃ hn', Hasher.store ⟨keccak, 0, 0, none⟩ c none false =
      some (hn', none) ∧ hn'.hashOf = if big keccak t then some (keccak (blob keccak t)) else none := by
    obtain ⟨hyes, hno⟩ := store_eq (h := ⟨keccak, 0, 0, none⟩) false hc hraw hcached none
    rcases hb : big keccak t with _ | _
    · refine ⟨c, hno (by simp [Hashes, hb]), ?_⟩
      cases c <;> first | rfl | (cases hc <;> cases hraw)
    · exact ⟨_, hyes (.inr hb), rfl⟩
  rw [proveNode]
  simp only [hch, hstore, henc]
  have hget : hn'.hashOf.getD (keccak (blob keccak t)) = keccak (blob keccak t) := by
    rw [hbig]
    split_ifs <;> rfl
  have hsome : hn'.hashOf.isSome = true ↔ big keccak t = true := by
    rw [hbig]
    split_ifs with h <;> simp [h]
  simp only [hsome, hget, lt_irrefl, if_false]
  split_ifs with h
  · refine ⟨_, rfl, fun x b hb => ?_, fun x b hb => ?_, fun _ => Function.update_self _ _ _⟩
    · rw [Function.update_apply] at hb
      split_ifs at hb with hx
      · cases hb
        exact ⟨hcov.mem hc, hx.symm⟩
      · exact haddr x b hb
    · rw [Function.update_apply]
      split_ifs with hx
      · -- the entry under the hash is the same
        obtain ⟨hS, hkb⟩ := haddr x b hb
        rw [hK.inj (.inr hS) (.inr (hcov.mem hc)) (hkb.trans hx)]
      · exact hb
  · exact ⟨proofDb, rfl, haddr, fun _ _ hb => hb, fun h' => absurd h' h⟩

/-- The second loop proves the nodes that have a hash, and the root. -/
theorem proveNodes_rep (hK : KeccakOk keccak S) (hdb : DbOk keccak S db) {ns : List (Node Hex)}
    {ts : List PTree} (hall : RepAll keccak S db root ns ts) (i : ℕ)
    (haddr : ∀ h b, proofDb h = some b → b ∈ S ∧ keccak b = h) :
    ∃ proofDb', proveNodes keccak i ns 0 proofDb = some proofDb' ∧
      (∀ h b, proofDb h = some b → proofDb' h = some b) ∧
      (∀ u ∈ ts, big keccak u = true → Proves keccak proofDb' u) ∧
      (i = 0 → ∀ u ∈ ts.head?, Proves keccak proofDb' u) := by
  induction hall generalizing i proofDb with
  | nil => exact ⟨proofDb, rfl, fun _ _ h => h, by simp, by simp⟩
  | cons hn hnone hc hf hcov _ ih =>
    obtain ⟨p₁, h₁, haddr₁, hkeep₁, hprove₁⟩ := proveNode_rep hK hdb hc hf hcov hn hnone i haddr
    obtain ⟨p₂, h₂, hkeep₂, hprove₂, -⟩ := ih (i + 1) haddr₁
    refine ⟨p₂, by rw [proveNodes, h₁]; exact h₂, fun h b hb => hkeep₂ h b (hkeep₁ h b hb),
      fun u hu hb => ?_, fun h0 u hu => ?_⟩
    · rcases List.mem_cons.1 hu with rfl | hu
      · exact hkeep₂ _ _ (hprove₁ (.inl hb))
      · exact hprove₂ u hu hb
    · cases hu
      exact hkeep₂ _ _ (hprove₁ (.inr h0))

/-! ## Proofs of a run -/

theorem content_ne_of_canon {ops : List TrieOp} (hc : (treeOf ops).Canon term) :
    content ops ≠ fun _ => none := by
  obtain ⟨key, v, hk, hl⟩ := hc.exists_key
  obtain ⟨k, rfl⟩ := (good_treeOf ops).keys key v hk hl
  intro h
  have hcontent := lookup_treeOf ops k
  rw [hl, h] at hcontent
  cases hcontent

theorem verifyFrom_emptyRoot (hempty : keccak [0x80] = emptyRoot)
    (hinj : ∀ h b, proofDb h = some b → keccak b = keccak [0x80] → b = [0x80])
    (haddr : Addressed keccak proofDb) (fuel i : ℕ) (key : Hex) (value : Option Bytes)
    (nodes : ℕ) : verifyFrom proofDb fuel i emptyRoot key ≠ some (value, nodes, none) := by
  intro h
  cases fuel with
  | zero => cases h
  | succ fuel =>
    rw [verifyFrom] at h
    rcases hdb : proofDb emptyRoot with _ | buf
    · rw [hdb] at h
      cases h
    · cases hinj _ _ hdb ((haddr _ _ hdb).trans hempty.symm)
      rw [hdb] at h
      cases h

/-- **Soundness.**  If every entry of a proof lies under its hash, then what the proof says
    about a trie with the given root is true. -/
theorem verifyProof_sound (keccak : Bytes → Hash) (ops : List TrieOp) (key : Slice)
    (proofDb : ProofDb) (hK : KeccakOk keccak {b | b ∈ encodings keccak ops})
    (hinj : Set.InjOn keccak
      ({b | b ∈ [0x80] :: encodings keccak ops} ∪ {b | ∃ h, proofDb h = some b}))
    (haddr : Addressed keccak proofDb) (hfair : World.Fair keccak World.init ops) :
    ∃ w root trie trie', World.init.run keccak ops = .ok w ∧
      w.trie.hash keccak = some (root, trie) ∧
      w.trie.tryGet w.db key = .ok (content ops key, trie') ∧
      ∀ fuel value nodes, verifyProof fuel root key proofDb = some (value, nodes, none) →
        value = content ops key := by
  obtain ⟨w, hrun, hi, hcov⟩ := run_inv (fun _ h => h) hK hfair
  obtain ⟨trie, hhash, -⟩ := hash_inv hi hcov
  obtain ⟨trie', hget, -⟩ := tryGet_inv hK hi key
  rw [lookup_treeOf] at hget
  refine ⟨w, _, trie, trie', hrun, hhash, hget, fun fuel value nodes h => ?_⟩
  rw [← lookup_treeOf]
  rw [verifyProof] at h
  rcases hi.good.canon with h0 | hc
  · rw [h0] at h
    refine absurd h (verifyFrom_emptyRoot hK.empty (fun x b hb he => ?_) haddr _ _ _ _ _)
    exact hinj (.inr ⟨x, hb⟩) (.inl (.head _)) he
  · rw [(rootHash_canon hK hc (hi.good.fits hc) (hcov.mem hc)).1] at h
    refine verifyFrom_sound (hinj.mono ?_) haddr hc (hi.good.fits hc) hcov (term_keybytesToHex _) 0 h
    exact Set.union_subset_union_left _ fun b hb => List.mem_cons_of_mem _ hb

/-- A proof with the nodes of the words. -/
def wordProofDb : ProofDb := fun h => (wordHashes.find? fun p => p.2 = h).map Prod.fst

theorem mem_wordHashes {h : Hash} {b : Bytes} (hb : wordProofDb h = some b) :
    (b, h) ∈ wordHashes := by
  obtain ⟨⟨b', h'⟩, hfind, rfl⟩ := Option.map_eq_some_iff.1 hb
  obtain rfl : h' = h := by simpa using List.find?_some hfind
  exact List.mem_of_find?_eq_some hfind

theorem wordKeccak_of_mem : ∀ p ∈ wordHashes, wordKeccak p.1 = p.2 := by decide +kernel

theorem wordKeccak_injOn : Set.InjOn wordKeccak ({b | b ∈ [0x80] :: encodings wordKeccak wordOps} ∪
    {b | ∃ h, wordProofDb h = some b}) := by
  have hmem : ∀ b ∈ [0x80] :: encodings wordKeccak wordOps, b ∈ wordHashes.map Prod.fst := by
    decide +kernel
  have hinj : ∀ b ∈ wordHashes.map Prod.fst, ∀ b' ∈ wordHashes.map Prod.fst,
      wordKeccak b = wordKeccak b' → b = b' := by decide +kernel
  have hin : ∀ b ∈ {b | b ∈ [0x80] :: encodings wordKeccak wordOps} ∪
      {b | ∃ h, wordProofDb h = some b}, b ∈ wordHashes.map Prod.fst := by
    rintro b (hb | ⟨h, hb⟩)
    · exact hmem b hb
    · exact List.mem_map_of_mem (mem_wordHashes hb)
  exact fun b hb b' hb' h => hinj b (hin b hb) b' (hin b' hb') h

theorem verifyProof_sound_words : ∃ w root trie trie', World.init.run wordKeccak wordOps = .ok w ∧
    w.trie.hash wordKeccak = some (root, trie) ∧
    w.trie.tryGet w.db wordDo = .ok (some wordVerb.1, trie') ∧
    ∀ fuel value nodes, verifyProof fuel root wordDo wordProofDb = some (value, nodes, none) →
      value = some wordVerb.1 :=
  verifyProof_sound wordKeccak wordOps wordDo wordProofDb wordKeccak_ok wordKeccak_injOn
    (fun _ _ hb => wordKeccak_of_mem _ (mem_wordHashes hb)) (fair_of_forall (by simp [wordOps]) _)

/-- **Completeness.**  The proof of a key is accepted, and says what the trie maps the key
    to, exactly if the trie is not empty: the proof from an empty trie has no node. -/
theorem verifyProof_prove (keccak : Bytes → Hash) (ops : List TrieOp) (key : Slice)
    (hK : KeccakOk keccak {b | b ∈ encodings keccak ops})
    (hfair : World.Fair keccak World.init ops) :
    ∃ w root trie trie' proofDb, World.init.run keccak ops = .ok w ∧
      w.trie.hash keccak = some (root, trie) ∧
      w.trie.tryGet w.db key = .ok (content ops key, trie') ∧
      w.trie.prove keccak w.db key 0 (fun _ => none) = .ok proofDb ∧
      ∃ enough, ∀ fuel ≥ enough,
        (∃ nodes, verifyProof fuel root key proofDb = some (content ops key, nodes, none)) ↔
          content ops ≠ fun _ => none := by
  obtain ⟨w, hrun, hi, hcov⟩ := run_inv (fun _ h => h) hK hfair
  obtain ⟨trie, hhash, -⟩ := hash_inv hi hcov
  obtain ⟨trie', hget, -⟩ := tryGet_inv hK hi key
  rw [lookup_treeOf] at hget
  have hterm := term_keybytesToHex key.1
  rcases hi.good.canon with h0 | hc
  · -- nothing is put into the proof
    have hnil : Rep keccak _ w.db true w.trie.root .nil := h0 ▸ hi.rep
    obtain ⟨ns, hns, hall⟩ := collectNodes_rep hK hi.db hnil (.inr ⟨hterm, .inl rfl⟩) trivial
      trivial (lt_fuel key _) w.trie.cachegen
    cases hall
    have hcontent : content ops = fun _ => none := by
      funext k
      rw [← lookup_treeOf, h0]
      rfl
    refine ⟨w, _, trie, trie', fun _ => none, hrun, hhash, hget, ?_, 1, fun fuel hfuel => ?_⟩
    · rw [MerkleTrie.prove, hns]
      rfl
    · obtain ⟨fuel, rfl⟩ : ∃ m, fuel = m + 1 := ⟨fuel - 1, by omega⟩
      refine iff_of_false (fun ⟨nodes, h⟩ => ?_) (not_not.2 hcontent)
      simp [verifyProof, verifyFrom] at h
  · have hf := hi.good.fits hc
    obtain ⟨ns, hns, hall⟩ := collectNodes_rep hK hi.db hi.rep (hi.good.below key) hf hcov
      (lt_fuel key _) w.trie.cachegen
    have haddr : ∀ h b, (fun _ => none : ProofDb) h = some b →
        b ∈ {b | b ∈ encodings keccak ops} ∧ keccak b = h := fun _ _ h => by cases h
    obtain ⟨proofDb, hprove, -, hpath, hhead⟩ := proveNodes_rep hK hi.db hall 0 haddr
    obtain ⟨path, hpn⟩ := pathNodes_ne_nil hc hterm
    refine ⟨w, _, trie, trie', proofDb, hrun, hhash, hget, ?_,
      (pathNodes (treeOf ops) (keybytesToHex key)).length, fun fuel hfuel =>
        iff_of_true ?_ (content_ne_of_canon hc)⟩
    · rw [MerkleTrie.prove, hns, Result.ok_bind, hprove]
    · rw [verifyProof, (rootHash_canon hK hc hf (hcov.mem hc)).1, ← lookup_treeOf]
      exact verifyFrom_complete hc hf hcov hterm (by omega)
        (hhead rfl _ (by rw [hpn]; rfl)) hpath 0

theorem verifyProof_prove_words : ∃ w root trie trie' proofDb,
    World.init.run wordKeccak wordOps = .ok w ∧ w.trie.hash wordKeccak = some (root, trie) ∧
    w.trie.tryGet w.db wordDo = .ok (some wordVerb.1, trie') ∧
    w.trie.prove wordKeccak w.db wordDo 0 (fun _ => none) = .ok proofDb ∧
    ∃ enough, ∀ fuel ≥ enough,
      (∃ nodes, verifyProof fuel root wordDo proofDb = some (some wordVerb.1, nodes, none)) ↔
        content wordOps ≠ fun _ => none :=
  verifyProof_prove wordKeccak wordOps wordDo wordKeccak_ok (fair_of_forall (by simp [wordOps]) _)

/-- The proof from an empty trie is not accepted. -/
theorem verifyProof_prove_empty : ∃ proofDb,
    World.init.trie.hash wordKeccak = some (emptyRoot, World.init.trie) ∧
    World.init.trie.tryGet World.init.db wordDo = .ok (none, World.init.trie) ∧
    World.init.trie.prove wordKeccak World.init.db wordDo 0 (fun _ => none) = .ok proofDb ∧
    ∀ fuel, verifyProof (fuel + 1) emptyRoot wordDo proofDb =
      some (none, 0, some (.missing 0 emptyRoot)) :=
  ⟨fun _ => none, rfl, rfl, rfl, fun _ => rfl⟩

/-! ## Two proofs -/

/-- More entries do not change a proof that is accepted. -/
theorem verifyFrom_mono {proofDb proofDb' : ProofDb}
    (hsub : ∀ h b, proofDb h = some b → proofDb' h = some b) {value : Option Bytes} {nodes : ℕ} :
    ∀ {fuel fuel' i : ℕ} {root : Hash} {key : Hex}, fuel ≤ fuel' →
      verifyFrom proofDb fuel i root key = some (value, nodes, none) →
      verifyFrom proofDb' fuel' i root key = some (value, nodes, none)
  | fuel + 1, fuel' + 1, i, root, key, hle, h => by
    rw [verifyFrom] at h ⊢
    rcases hb : proofDb root with _ | buf
    · simp [hb] at h
    rw [hb] at h
    rw [hsub root buf hb]
    simp only at h ⊢
    split at h <;> try cases h
    split at h <;> try cases h
    · rfl
    · rw [verifyFrom_mono hsub (Nat.le_of_succ_le_succ hle) h]
    · rfl
    · rw [verifyFrom_mono hsub (Nat.le_of_succ_le_succ hle) h]

/-- **A root proves one value for a key.**  If no hashes of their entries collide, two proofs that
    are accepted for one root say the same, whether there is a trie with this root or not. -/
theorem verifyProof_unique (keccak : Bytes → Hash) {proofDb proofDb' : ProofDb}
    (hinj : Set.InjOn keccak ({b | ∃ h, proofDb h = some b} ∪ {b | ∃ h, proofDb' h = some b}))
    (haddr : Addressed keccak proofDb) (haddr' : Addressed keccak proofDb')
    {fuel fuel' nodes nodes' : ℕ} {root : Hash} {key : Bytes} {value value' : Option Bytes}
    (h : verifyProof fuel root key proofDb = some (value, nodes, none))
    (h' : verifyProof fuel' root key proofDb' = some (value', nodes', none)) :
    value = value' ∧ nodes = nodes' := by
  have hsub : ∀ x b, proofDb' x = some b → (proofDb x <|> proofDb' x) = some b := by
    intro x b hb'
    rcases hb : proofDb x with _ | c
    · exact hb'
    · exact congrArg some (hinj (.inl ⟨x, hb⟩) (.inr ⟨x, hb'⟩)
        ((haddr x c hb).trans (haddr' x b hb').symm))
  have hunion : verifyFrom (fun x => proofDb x <|> proofDb' x) _ 0 root (keybytesToHex key) = _ :=
    verifyFrom_mono (fun x b hb => by rw [hb]; rfl) (le_max_left fuel fuel') h
  have hunion' := verifyFrom_mono hsub (le_max_right fuel fuel') h'
  rw [hunion] at hunion'
  simpa using hunion'

theorem verifyProof_unique_words : ∃ root value nodes value' nodes',
    verifyProof 1 root wordDo (fun h => if h = root then wordProofDb h else none) =
      some (value, nodes, none) ∧
    verifyProof 1 root wordDo wordProofDb = some (value', nodes', none) ∧ value = value' ∧
      nodes = nodes' := by
  set root := wordKeccak [0xC9, 0x83, 0x20, 0x64, 0x6F, 0x84, 0x76, 0x65, 0x72, 0x62]
  have hsub : ∀ h b, (if h = root then wordProofDb h else none) = some b →
      wordProofDb h = some b := by grind
  have haddr : Addressed wordKeccak wordProofDb :=
    fun _ _ hb => wordKeccak_of_mem _ (mem_wordHashes hb)
  have hshort : (verifyProof 1 root wordDo fun h => if h = root then wordProofDb h else none).map
      (fun r => r.2.2.isNone) = some true := by decide +kernel
  obtain ⟨⟨value, nodes, err⟩, hproof, herr⟩ := Option.map_eq_some_iff.1 hshort
  obtain rfl := Option.isNone_iff_eq_none.1 herr
  have hproof' := verifyFrom_mono hsub le_rfl hproof
  exact ⟨root, _, _, _, _, hproof, hproof', verifyProof_unique wordKeccak (wordKeccak_injOn.mono
    (Set.union_subset (fun b ⟨h, hb⟩ => .inr ⟨h, hsub h b hb⟩) Set.subset_union_right))
    (fun h b hb => haddr h b (hsub h b hb)) haddr hproof hproof'⟩

end GoEthereum.Trie
