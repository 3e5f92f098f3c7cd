/-
  What hashing a trie does.

  `hash` returns the hash of the tree a node represents, or its collapsed form if the
  tree is embedded, and the node it returns represents the same tree (`hash_rep`).
  With a database the tree and everything below it is stored, and nothing that was
  stored before is lost.
-/
import GoEthereum.Trie.FlushList
import GoEthereum.Trie.Refine

namespace GoEthereum.Trie

open GoEthereum.Rlp Patricia AssocMap

/-! ## Collapsed nodes -/

/-- A collapsed node without its flags. -/
def Node.raw : Node Bytes → RawNode
  | .nil => .nil
  | .value v => .value v
  | .hash h => .hash h
  | .short key val _ => .short key val.raw
  | .full children _ => .full fun i => (children i).raw

theorem Node.isNil_raw (n : Node Bytes) : n.raw.isNil = n.isNil := by cases n <;> rfl

theorem Node.item_raw (n : Node Bytes) : n.raw.item = n.item := by
  induction n with
  | nil | value _ | hash _ => rfl
  | short key val _ ih => rw [raw, RawNode.item, item, ih]
  | full children _ ih => simp only [raw, RawNode.item, item, isNil_raw, ih]

/-- There is no `nil` in the node but for missing children. -/
def RawNode.Solid : RawNode → Prop
  | .nil => False
  | .value _ | .hash _ => True
  | .short _ val => val.Solid
  | .full children => ∀ i, children i = .nil ∨ (children i).Solid

theorem simplifyNode_raw {n : Node Bytes} (h : n.raw.Solid) : simplifyNode n = some n.raw := by
  induction n with
  | nil => cases h
  | value _ | hash _ => rfl
  | short key val _ ih =>
    rw [simplifyNode, ih h]
    rfl
  | full children _ ih =>
    have hall : (allSome fun i => if (children i).isNil then some .nil else simplifyNode (children i)) =
        some fun i => (children i).raw := by
      rw [allSome_eq_some]
      intro i
      have hi : (children i).raw = .nil ∨ (children i).raw.Solid := h i
      rcases hi with h0 | hs
      · have hn : (children i).isNil = true := by rw [← Node.isNil_raw, h0]; rfl
        rw [if_pos hn]
        exact congrArg some h0.symm
      · have hn : (children i).isNil = false := by
          rw [← Node.isNil_raw]
          cases hr : (children i).raw <;> first | rfl | (rw [hr] at hs; cases hs)
        rw [hn]
        exact ih i hs
    rw [simplifyNode, hall]
    rfl

variable {keccak : Bytes → Hash} {S : Set Bytes} {db db' : Database} {root stored : Bool}
  {n : Node Hex} {t : PTree} {k : Hex} {gen limit : UInt16}

theorem solid_ref_collapse (h : (collapse keccak t).Solid) :
    ((collapse keccak t).ref keccak).Solid := by
  rw [ref_collapse]
  split_ifs
  · trivial
  · exact h

theorem solid_collapse (hc : t.Canon term) : (collapse keccak t).Solid := by
  induction hc with
  | leaf _ => trivial
  | ext _ _ _ ih => exact solid_ref_collapse ih
  | @full cs _ hterm _ ih =>
    intro i
    change (collapse keccak (cs i)).ref keccak = .nil ∨ ((collapse keccak (cs i)).ref keccak).Solid
    by_cases h0 : cs i = .nil
    · rw [h0]
      exact .inl rfl
    by_cases hi : i = term
    · subst hi
      obtain ⟨v, hv⟩ := hterm.resolve_left h0
      rw [hv]
      exact .inr trivial
    · exact .inr (solid_ref_collapse (ih i hi h0))

/-! ## The collapsed form -/

/-- The tree is replaced by its hash. -/
def Hashes (keccak : Bytes → Hash) (root : Bool) (t : PTree) : Prop :=
  root = true ∨ big keccak t = true

/-- A node in memory is one for a tree: hashed children need not be loaded, and a cached
    hash is the hash of the tree. -/
inductive Denotes (keccak : Bytes → Hash) : Bool → Node Hex → PTree → Prop
  | nil {root : Bool} : Denotes keccak root .nil .nil
  | value {root : Bool} (v : Value) : Denotes keccak root (.value v.bytes) (.value v)
  | hash {root : Bool} {t : PTree} : t.Canon term → Hashes keccak root t →
      Denotes keccak root (.hash (keccak (blob keccak t))) t
  | short {root : Bool} {k : Hex} {val : Node Hex} {flags : NodeFlag} {t : PTree} :
      Denotes keccak false val t → (∀ h, flags.hash = some h →
        h = keccak (blob keccak (.short k t)) ∧ Hashes keccak root (.short k t)) →
      Denotes keccak root (.short k val flags) (.short k t)
  | full {root : Bool} {children : Fin 17 → Node Hex} {flags : NodeFlag} {cs : Fin 17 → PTree} :
      (∀ i, Denotes keccak false (children i) (cs i)) → (∀ h, flags.hash = some h →
        h = keccak (blob keccak (.full cs)) ∧ Hashes keccak root (.full cs)) →
      Denotes keccak root (.full children flags) (.full cs)

theorem Denotes.isNil_eq (h : Denotes keccak root n t) : n.isNil = t.isNil := by
  cases h with
  | nil => rfl
  | value => rfl
  | hash hc => cases hc <;> rfl
  | short => rfl
  | full => rfl

theorem Rep.denotes (h : Rep keccak S db root n t) : Denotes keccak root n t := by
  induction h with
  | nil => exact .nil
  | value v => exact .value v
  | hash hc _ hroot _ => exact .hash hc hroot
  | short _ hflag ih => exact .short ih fun x hx => (hflag.hash x hx).imp_right And.left
  | full _ hflag ih => exact .full ih fun x hx => (hflag.hash x hx).imp_right And.left

/-- What `hash` gives for a node: the hash of the tree or its collapsed form. -/
structure HashesTo (keccak : Bytes → Hash) (root : Bool) (t : PTree) (c : Node Bytes) : Prop where
  hash : Hashes keccak root t → c = .hash (keccak (blob keccak t))
  raw : ¬ Hashes keccak root t → c.raw = collapse keccak t

theorem HashesTo.raw_ref {c : Node Bytes} (h : HashesTo keccak false t c) :
    c.raw = (collapse keccak t).ref keccak := by
  rw [ref_collapse]
  split_ifs with hb
  · rw [h.hash (.inr hb)]
    rfl
  · exact h.raw (by simpa [Hashes] using hb)

section
variable {h : Hasher} {db' : Option Database} {c : Node Bytes} {m : Node Hex} {flags : NodeFlag}

/-- What `store` does with a collapsed node. -/
theorem store_eq (root : Bool) (hc : t.Canon term) (hraw : c.raw = collapse h.keccak t)
    (hcache : ∀ x, c.cache.1 = some x → x = h.keccak (blob h.keccak t)) (odb : Option Database) :
    (Hashes h.keccak root t → h.store c odb root = match odb with
      | none => some (.hash (h.keccak (blob h.keccak t)), none)
      | some db => (db.insert (h.keccak (blob h.keccak t)) (blob h.keccak t) c).bind fun db =>
        (h.leaves c (h.keccak (blob h.keccak t)) db).map fun db =>
          (.hash (h.keccak (blob h.keccak t)), some db)) ∧
    (¬ Hashes h.keccak root t → h.store c odb root = some (c, odb)) := by
  have henc : enc c.item = blob h.keccak t := by rw [← Node.item_raw, hraw, blob]
  have hnode : (c.isNil || c.hashOf.isSome) = false := by
    cases c <;> first | rfl | (cases hc <;> cases hraw)
  have hbig : (decide ((blob h.keccak t).length < 32) && !root) = true ↔
      ¬ Hashes h.keccak root t := by
    have : big h.keccak t = true ↔ ¬ (blob h.keccak t).length < 32 := by
      cases hc <;> simp [big]
    rw [Hashes, this, Bool.and_eq_true, decide_eq_true_eq, Bool.not_eq_true']
    cases root <;> simp
  have hhash : c.cache.1.getD (h.keccak (blob h.keccak t)) = h.keccak (blob h.keccak t) := by
    rcases hx : c.cache.1 with _ | x
    · rfl
    · exact hcache x hx
  rw [Hasher.store, hnode, henc]
  simp only [Bool.false_eq_true, if_false, hhash]
  refine ⟨fun hs => ?_, fun hs => if_pos (hbig.2 hs)⟩
  rw [if_neg (by rw [hbig]; exact not_not.2 hs)]
  rcases odb with _ | db
  · rfl
  · dsimp only
    cases db.insert (h.keccak (blob h.keccak t)) (blob h.keccak t) c <;> rfl

theorem store_hashesTo {odb : Option Database} (hc : t.Canon term)
    (hraw : c.raw = collapse h.keccak t)
    (hcache : ∀ x, c.cache.1 = some x → x = h.keccak (blob h.keccak t)) {c' : Node Bytes}
    (hstore : h.store c odb root = some (c', db')) : HashesTo h.keccak root t c' := by
  obtain ⟨hyes, hno⟩ := store_eq root hc hraw hcache odb
  by_cases hs : Hashes h.keccak root t
  · refine ⟨fun _ => ?_, fun h => absurd hs h⟩
    rw [hyes hs] at hstore
    rcases odb with _ | db
    · exact (congrArg Prod.fst (Option.some.inj hstore)).symm
    · obtain ⟨db₁, -, hleaves⟩ := Option.bind_eq_some_iff.1 hstore
      obtain ⟨db₂, -, heq⟩ := Option.map_eq_some_iff.1 hleaves
      exact (congrArg Prod.fst heq).symm
  · rw [hno hs] at hstore
    cases hstore
    exact ⟨fun h => absurd h hs, fun _ => hraw⟩

/-- `hash` of a node whose children are hashed to its collapsed form. -/
theorem hashWith_hashesTo {odb : Option Database}
    {hashChildren : Option Database → Option Hasher.Hashed}
    (hc : t.Canon term) (hcache : n.cache = (flags.hash, flags.dirty))
    (hflag : ∀ x, flags.hash = some x → x = h.keccak (blob h.keccak t) ∧ Hashes h.keccak root t)
    (hch : ∀ {db' c m}, hashChildren odb = some (c, m, db') →
      c.raw = collapse h.keccak t ∧ c.cache.1 = flags.hash)
    (hh : h.hashWith n hashChildren odb root = some (c, m, db')) :
    HashesTo h.keccak root t c := by
  rw [Hasher.hashWith] at hh
  rcases hca : h.cached n odb with _ | ⟨c₁, m₁⟩
  · rw [hca] at hh
    dsimp only at hh
    rcases hcc : hashChildren odb with _ | ⟨c₁, m₁, db₁⟩
    · rw [hcc] at hh
      cases hh
    rw [hcc] at hh
    obtain ⟨⟨c₂, db₂⟩, hstore, heq⟩ := Option.map_eq_some_iff.1 hh
    obtain ⟨rfl, -⟩ : c₂ = c ∧ _ := by simpa using heq
    obtain ⟨hraw, hc₁⟩ := hch hcc
    exact store_hashesTo hc hraw (fun x hx => (hflag x (hc₁ ▸ hx)).1) hstore
  · rw [hca] at hh
    obtain ⟨rfl, -⟩ : c₁ = c ∧ _ := by simpa using hh
    rw [Hasher.cached, hcache] at hca
    rcases hx : flags.hash with _ | x
    · rw [hx] at hca
      cases hca
    · obtain ⟨rfl, hyes⟩ := hflag x hx
      refine ⟨fun _ => ?_, fun hno => absurd hyes hno⟩
      rw [hx] at hca
      dsimp only at hca
      split_ifs at hca <;> cases hca <;> rfl

section
variable {children : Fin 17 → Node Hex} {cs : Fin 17 → PTree}
  {hashNode : Fin 17 → Option Database → Option Hasher.Hashed}
  (hcs : ∀ i, Denotes keccak false (children i) (cs i))
  (hnode : ∀ i, i ≠ term → cs i ≠ .nil → ∀ {odb db' c m}, hashNode i odb = some (c, m, db') →
    c.raw = (collapse keccak (cs i)).ref keccak)
include hcs hnode

/-- A round of the loop over the children of a full node. -/
theorem hashChild_raw {st st' : Hasher.Children} {i : Fin 16}
    (hst : Hasher.hashChild children hashNode st i = some st')
    {P : Fin 17 → Prop} (hP : ∀ j, P j → (st.1 j).raw = (collapse keccak (cs j)).ref keccak)
    (hnil : ∀ j, cs j = .nil → P j) :
    ∀ j, P j ∨ j = i.castSucc → (st'.1 j).raw = (collapse keccak (cs j)).ref keccak := by
  have hi : i.castSucc ≠ term := (Fin.castSucc_lt_last i).ne
  rw [Hasher.hashChild, (hcs i.castSucc).isNil_eq] at hst
  by_cases h0 : cs i.castSucc = .nil
  · rw [if_pos (Tree.isNil_iff.2 h0)] at hst
    cases hst
    rintro j (hj | rfl)
    · exact hP j hj
    · exact hP _ (hnil _ h0)
  · rw [if_neg (by rwa [Tree.isNil_iff])] at hst
    obtain ⟨⟨c, m, db⟩, hhash, rfl⟩ := Option.map_eq_some_iff.1 hst
    intro j hj
    show (Function.update st.1 i.castSucc c j).raw = _
    by_cases hji : j = i.castSucc
    · rw [hji, Function.update_self]
      exact hnode _ hi h0 hhash
    · rw [Function.update_of_ne hji]
      exact hP j (hj.resolve_right hji)

theorem hashChildren_loop_raw : ∀ (l : List (Fin 16)) {st st' : Hasher.Children} {P : Fin 17 → Prop},
      l.foldlM (Hasher.hashChild children hashNode) st = some st' →
      (∀ j, P j → (st.1 j).raw = (collapse keccak (cs j)).ref keccak) →
      (∀ j, cs j = .nil → P j) →
      ∀ j, P j ∨ j ∈ l.map Fin.castSucc → (st'.1 j).raw = (collapse keccak (cs j)).ref keccak
  | [], _, _, _, hst, hP, _ => by
    cases hst
    intro j hj
    exact hP j (hj.resolve_right List.not_mem_nil)
  | i :: l, st, st', P, hst, hP, hnil => by
    rw [List.foldlM_cons] at hst
    rcases hi : Hasher.hashChild children hashNode st i with _ | st₁
    · rw [hi] at hst
      cases hst
    rw [hi] at hst
    intro j hj
    refine hashChildren_loop_raw l (P := fun j => P j ∨ j = i.castSucc) hst
      (hashChild_raw hcs hnode hi hP hnil) (fun j hj => .inl (hnil j hj)) j ?_
    rw [List.map_cons, List.mem_cons] at hj
    tauto

/-- The children of a full node are collapsed. -/
theorem hashFull_raw (hc : (Tree.full cs).Canon term) {odb : Option Database}
    (hfull : Hasher.hashFull children flags hashNode odb = some (c, m, db')) :
    c.raw = collapse keccak (.full cs) ∧ c.cache.1 = flags.hash := by
  rw [Hasher.hashFull] at hfull
  obtain ⟨⟨collapsed, cached, db₁⟩, hloop, heq⟩ := Option.map_eq_some_iff.1 hfull
  obtain ⟨rfl, -⟩ : Node.full collapsed flags = c ∧ _ := by simpa using heq
  refine ⟨?_, rfl⟩
  have hinit : ∀ j, (cs j = .nil ∨ j = term) →
      ((children j).map rawNibbles).raw = (collapse keccak (cs j)).ref keccak := by
    intro j hj
    have hplain : cs j = .nil ∨ ∃ v, cs j = .value v := by
      rcases hj with hj | rfl
      · exact .inl hj
      · cases hc with
        | full _ hterm _ => exact hterm
    have hrep := hcs j
    generalize children j = n at hrep ⊢
    rcases hplain with h | ⟨v, h⟩
    · rw [h] at hrep ⊢
      cases hrep with
      | nil => rfl
      | hash hc => cases hc
    · rw [h] at hrep ⊢
      cases hrep with
      | value => rfl
      | hash hc => cases hc
  rw [Node.raw, collapse]
  congr 1
  funext j
  refine hashChildren_loop_raw hcs hnode _ hloop hinit (fun j hj => .inl hj) j ?_
  induction j using Fin.lastCases with
  | last => exact .inl (.inr rfl)
  | cast i => exact .inr (List.mem_map_of_mem (List.mem_finRange i))

end

/-- The child of a short node is collapsed. -/
theorem hashShort_raw {k : Hex} {val : Node Hex} {hashVal : Option Database → Option Hasher.Hashed}
    {odb : Option Database} (hc : (Tree.short k t).Canon term) (hval : Denotes keccak false val t)
    (hnode : t.Canon term → ∀ {odb db' c m}, hashVal odb = some (c, m, db') →
      c.raw = (collapse keccak t).ref keccak)
    (hshort : Hasher.hashShort k val flags hashVal odb = some (c, m, db')) :
    c.raw = collapse keccak (.short k t) ∧ c.cache.1 = flags.hash := by
  rw [Hasher.hashShort] at hshort
  cases hc with
  | leaf hk =>
    cases hval with
    | hash hc => cases hc
    | value v =>
      cases hshort
      exact ⟨rfl, rfl⟩
  | ext hk hmem hfull =>
    have hvalue : val.isValue = false := by cases hval <;> rfl
    rw [hvalue] at hshort
    obtain ⟨⟨c₁, m₁, db₁⟩, hhash, heq⟩ := Option.map_eq_some_iff.1 hshort
    obtain ⟨rfl, -⟩ : Node.short (hexToCompact k) c₁ flags = c ∧ _ := by simpa using heq
    refine ⟨?_, rfl⟩
    rw [Node.raw, hnode hfull hhash, collapse]

/-- **Hashing collapses.**  Whatever it is hashed with, a node of a trie in normal form is
    replaced by its hash or its collapsed form. -/
theorem Denotes.collapses (hn : Denotes h.keccak root n t) (hc : t.Canon term) :
    (∀ ⦃odb db' c m⦄, h.hash n odb root = some (c, m, db') → HashesTo h.keccak root t c) ∧
    (n.hashOf = none → ∀ ⦃odb db' c m⦄, h.hashChildren n odb = some (c, m, db') →
      c.raw = collapse h.keccak t) := by
  induction hn with
  | nil => cases hc
  | value => cases hc
  | @hash root t _ hroot =>
    refine ⟨fun odb db' c m hh => ?_, nofun⟩
    obtain ⟨rfl, -⟩ : Node.hash (h.keccak (blob h.keccak t)) = c ∧ _ := by
      simpa [Hasher.hash, Hasher.hashWith, Hasher.cached, Node.cache, Hasher.store, Node.isNil,
        Node.hashOf] using hh
    exact ⟨fun _ => rfl, fun hno => absurd hroot hno⟩
  | @short root k val flags t hval hflag ih =>
    have hch : ∀ {odb db' c m}, h.hashChildren (.short k val flags) odb = some (c, m, db') →
        c.raw = collapse h.keccak (.short k t) ∧ c.cache.1 = flags.hash :=
      hashShort_raw hc hval fun hc _ _ _ _ hh => ((ih hc).1 hh).raw_ref
    exact ⟨fun _ _ _ _ => hashWith_hashesTo hc rfl hflag hch, fun _ _ _ _ _ h => (hch h).1⟩
  | @full root children flags cs hcs hflag ih =>
    have hch : ∀ {odb db' c m}, h.hashChildren (.full children flags) odb = some (c, m, db') →
        c.raw = collapse h.keccak (.full cs) ∧ c.cache.1 = flags.hash := by
      refine hashFull_raw hcs (fun i hi h0 _ _ _ _ hh => ?_) hc
      cases hc with
      | full hc _ _ => exact ((ih i (hc i hi h0)).1 hh).raw_ref
    exact ⟨fun _ _ _ _ => hashWith_hashesTo hc rfl hflag hch, fun _ _ _ _ _ h => (hch h).1⟩

end

/-! ## Storing a node -/

/-- The encodings of a tree and of what is below it are in `S`. -/
def Covers (keccak : Bytes → Hash) (S : Set Bytes) : PTree → Prop
  | .short k t => blob keccak (.short k t) ∈ S ∧ Covers keccak S t
  | .full cs => blob keccak (.full cs) ∈ S ∧ ∀ i, Covers keccak S (cs i)
  | _ => True

theorem Covers.mem (h : Covers keccak S t) (hc : t.Canon term) : blob keccak t ∈ S := by
  cases hc <;> exact h.1

/-- **A node is stored under its hash.** -/
theorem DbOk.insert (hdb : DbOk keccak S db) (hc : t.Canon term)
    (hf : t.Fits) (hmem : blob keccak t ∈ S) {c : Node Bytes} (hraw : c.raw = collapse keccak t) :
    ∃ db', db.insert (keccak (blob keccak t)) (blob keccak t) c = some db' ∧ DbOk keccak S db' ∧
      Grows db db' ∧ db'.Present (keccak (blob keccak t)) := by
  rw [Database.insert]
  split_ifs with hh
  · exact ⟨db, rfl, hdb, .refl db, .inl hh⟩
  rw [simplifyNode_raw (hraw ▸ solid_collapse hc), hraw]
  obtain ⟨db', hins, hdisk, -, -, hnew, hself, hothers⟩ := Database.insertStored_spec (blob keccak t)
    (.node (collapse keccak t)) (by simpa using hh) hdb.newest
  have hget : ∀ x, (db'.dirties.get x).map CachedNode.node = if x = keccak (blob keccak t) then
      some (.node (collapse keccak t)) else (db.dirties.get x).map CachedNode.node := by
    intro x
    split_ifs with hx
    · rw [hx, hself]
      rfl
    · rw [hothers x hx, Option.map_map]
      rfl
  have hget_of : ∀ x e, db'.dirties.get x = some e →
      (x = keccak (blob keccak t) ∧ e.node = .node (collapse keccak t)) ∨
        ∃ e', db.dirties.get x = some e' ∧ e.node = e'.node := by
    intro x e he
    have hx := hget x
    rw [he] at hx
    split_ifs at hx with h
    · exact .inl ⟨h, Option.some.inj hx⟩
    · obtain ⟨e', he', hn⟩ := Option.map_eq_some_iff.1 hx.symm
      exact .inr ⟨e', he', hn.symm⟩
  have hgrows : ∀ x, db.dirties.has x = true ∨ x = keccak (blob keccak t) →
      db'.dirties.has x = true := by
    intro x hx
    rw [has_eq_true, ← Option.isSome_iff_exists, ← Option.isSome_map (f := CachedNode.node), hget x]
    split_ifs with h
    · rfl
    · rw [Option.isSome_map, Option.isSome_iff_exists, ← has_eq_true]
      exact hx.resolve_right h
  refine ⟨db', hins, ⟨fun _ => ?_, fun x e he hx => ?_, ?_⟩, ?_, .inl (hgrows _ (.inr rfl))⟩
  · rw [hnew, ← has_eq_true]
    exact hgrows _ (.inr rfl)
  · rcases hget_of x e he with ⟨rfl, hn⟩ | ⟨e', he', hn⟩
    · refine ⟨blob keccak t, hmem, rfl, ?_, fun gen => ?_⟩
      · have hnil : collapse keccak t ≠ .nil := by
          rw [← hraw]
          intro h0
          have hsolid : (collapse keccak t).Solid := solid_collapse hc
          rw [← hraw, h0] at hsolid
          exact hsolid
        rw [CachedNode.rlp, hn]
        cases hcol : collapse keccak t <;> simp_all [blob]
      · rw [CachedNode.obj, hn, mustDecodeNode_blob hc hf]
        exact expandNode_collapse hc _
    · obtain ⟨b, hb, hk, hrlp, hobj⟩ := hdb.dirties x e' he' hx
      refine ⟨b, hb, hk, ?_, fun gen => ?_⟩
      · rw [← hrlp, CachedNode.rlp, CachedNode.rlp, hn]
      · rw [← hobj gen, CachedNode.obj, CachedNode.obj, hn]
  · rw [hdisk]
    exact hdb.disk
  · rintro x (hx | hx)
    · exact .inl (hgrows x (.inl hx))
    · exact .inr (hdisk ▸ hx)

/-! ## Hashing -/

/-- The database a node is stored in, if it is stored. -/
def withDb (stored : Bool) (db : Database) : Option Database := if stored then some db else none

/-- What storing nodes does to the database: it grows, if nodes are stored in it. -/
structure Stores (stored : Bool) (db db' : Database) : Prop where
  grows : Grows db db'
  same : stored = false → db' = db

theorem Stores.refl (db : Database) : Stores stored db db := ⟨.refl db, fun _ => rfl⟩

theorem Stores.trans {db'' : Database} (h : Stores stored db db') (h' : Stores stored db' db'') :
    Stores stored db db'' :=
  ⟨h.grows.trans h'.grows, fun hs => (h'.same hs).trans (h.same hs)⟩

/-- What `hash` returns for a node that represents `t`: the hash or the collapsed form,
    and a node that represents `t` in the database after it. -/
structure HashedAs (keccak : Bytes → Hash) (S : Set Bytes) (stored root : Bool) (db db' : Database)
    (c : Node Bytes) (n : Node Hex) (t : PTree) : Prop extends HashesTo keccak root t c where
  ok : DbOk keccak S db'
  stores : Stores stored db db'
  rep : Rep keccak S db' root n t
  kept : stored = true → Kept keccak S db' t
  present : stored = true → Hashes keccak root t → db'.Present (keccak (blob keccak t))

/-- A cached hash is the hash of the tree, and a node is unloaded only if it is stored. -/
theorem cached_rep (h : Hasher) {flags : NodeFlag} (hdb : DbOk keccak S db) (hc : t.Canon term)
    (hf : t.Fits) (hn : Rep keccak S db root n t) (hcache : n.cache = (flags.hash, flags.dirty))
    (hunload : n.canUnload h.cachegen h.cachelimit = flags.canUnload h.cachegen h.cachelimit)
    (hflag : FlagOk keccak S db root flags t) {c : Node Bytes} {m : Node Hex}
    (hcached : h.cached n (withDb stored db) = some (c, m)) :
    HashedAs keccak S stored root db db c m t := by
  rw [Hasher.cached, hcache] at hcached
  rcases hh : flags.hash with _ | x
  · rw [hh] at hcached
    cases hcached
  obtain ⟨rfl, hroot, hcommit⟩ := hflag.hash x hh
  have hres : ∀ m, Rep keccak S db root m t → (stored = true → flags.dirty = false) →
      HashedAs keccak S stored root db db (.hash (keccak (blob keccak t))) m t := fun m hm hd =>
    { toHashesTo := ⟨fun _ => rfl, fun h => absurd hroot h⟩
      ok := hdb
      stores := .refl db
      rep := hm
      kept := fun hs => (hcommit (hd hs)).kept
      present := fun hs _ => (hcommit (hd hs)).present }
  rw [hh] at hcached
  cases stored with
  | false =>
    cases hcached
    exact hres n hn (by simp)
  | true =>
    simp only [withDb, if_true, Option.isNone_some, Bool.false_eq_true, if_false, hunload] at hcached
    split_ifs at hcached with hu hd
    · cases hcached
      have hd : flags.dirty = false := by
        rw [NodeFlag.canUnload, Bool.and_eq_true, Bool.not_eq_true'] at hu
        exact hu.1
      exact hres _ (.hash hc hf hroot (hcommit hd)) fun _ => hd
    · cases hcached
      exact hres n hn fun _ => by simpa using hd

/-- Storing a collapsed node. -/
theorem store_rep (gen limit : UInt16) (hdb : DbOk keccak S db) (hc : t.Canon term) (hf : t.Fits)
    (hmem : blob keccak t ∈ S) {c : Node Bytes} (hraw : c.raw = collapse keccak t)
    (hcache : ∀ x, c.cache.1 = some x → x = keccak (blob keccak t)) (stored root : Bool) :
    ∃ c' db', Hasher.store ⟨keccak, gen, limit, none⟩ c (withDb stored db) root =
        some (c', withDb stored db') ∧ DbOk keccak S db' ∧ Stores stored db db' ∧
      (stored = true → Hashes keccak root t → db'.Present (keccak (blob keccak t))) := by
  obtain ⟨hyes, hno⟩ := store_eq (h := ⟨keccak, gen, limit, none⟩) root hc hraw hcache
    (withDb stored db)
  by_cases hs : Hashes keccak root t
  · cases stored with
    | false => exact ⟨_, db, hyes hs, hdb, .refl db, nofun⟩
    | true =>
      obtain ⟨db', hins, hdb', hgrows, hpresent⟩ := hdb.insert hc hf hmem hraw
      refine ⟨.hash (keccak (blob keccak t)), db', (hyes hs).trans ?_, hdb', ⟨hgrows, nofun⟩,
        fun _ _ => hpresent⟩
      simp only [withDb, if_true, hins, Option.bind_some]
      rfl
  · exact ⟨c, db, hno hs, hdb, .refl db, fun _ h => absurd h hs⟩

/-- The flag after hashing. -/
theorem FlagOk.hashed {flags : NodeFlag} {c : Node Bytes} (hflag : FlagOk keccak S db root flags t)
    (hc : t.Canon term) (hmem : blob keccak t ∈ S) (hg : Grows db db')
    (hto : HashesTo keccak root t c) (hkept : stored = true → Kept keccak S db' t)
    (hpresent : stored = true → Hashes keccak root t → db'.Present (keccak (blob keccak t))) :
    FlagOk keccak S db' root { flags with hash := c.hashOf, dirty := flags.dirty && !stored } t := by
  by_cases hs : Hashes keccak root t
  · obtain rfl := hto.hash hs
    refine ⟨fun x hx => ⟨(Option.some.inj hx).symm, hs, fun hd => ?_⟩, fun h => by cases h⟩
    cases stored with
    | true => exact ⟨hmem, hpresent rfl hs, hkept rfl⟩
    | false =>
      -- the node was stored before
      have hd : flags.dirty = false := by simpa using hd
      rcases hh : flags.hash with _ | y
      · obtain ⟨h₁, h₂⟩ := hflag.embedded hh hd
        rw [Hashes, h₁, h₂] at hs
        simp at hs
      · exact ((hflag.hash y hh).2.2 hd).mono hg
  · have hnone : c.hashOf = none := by
      have hraw := hto.raw hs
      cases c <;> first | rfl | (cases hc <;> cases hraw)
    refine ⟨fun x hx => ?_, fun _ _ => by simpa [Hashes] using hs⟩
    change c.hashOf = some x at hx
    rw [hnone] at hx
    cases hx

/-- The node is hashed once its children are: `cn` is the node with the collapsed
    children, `m` the one with the cached hashes. -/
theorem hashWith_rep (gen limit : UInt16) {flags : NodeFlag} {db₁ : Database} {cn : Node Bytes}
    {m : Node Hex} {hashChildren : Option Database → Option Hasher.Hashed}
    (hdb : DbOk keccak S db) (hc : t.Canon term) (hf : t.Fits) (hmem : blob keccak t ∈ S)
    (hn : Rep keccak S db root n t) (hcache : n.cache = (flags.hash, flags.dirty))
    (hunload : n.canUnload gen limit = flags.canUnload gen limit)
    (hflag : FlagOk keccak S db root flags t)
    (hch : hashChildren (withDb stored db) = some (cn, m, withDb stored db₁))
    (hdb₁ : DbOk keccak S db₁) (hstores : Stores stored db db₁) (hraw : cn.raw = collapse keccak t)
    (hcn : cn.cache.1 = flags.hash) (hkept : stored = true → Kept keccak S db₁ t)
    (hm : ∀ db' x, Grows db₁ db' →
      FlagOk keccak S db' root { flags with hash := x, dirty := flags.dirty && !stored } t →
      Rep keccak S db' root (Hasher.setHash m x stored) t) :
    ∃ c n' db', Hasher.hashWith ⟨keccak, gen, limit, none⟩ n hashChildren (withDb stored db) root =
        some (c, n', withDb stored db') ∧ HashedAs keccak S stored root db db' c n' t := by
  rw [Hasher.hashWith]
  rcases hcached : Hasher.cached ⟨keccak, gen, limit, none⟩ n (withDb stored db) with _ | ⟨c, m'⟩
  · have hcache' : ∀ x, cn.cache.1 = some x → x = keccak (blob keccak t) := fun x hx =>
      (hflag.hash x (hcn ▸ hx)).1
    obtain ⟨c, db', hstore, hdb', hs', hpresent⟩ :=
      store_rep gen limit hdb₁ hc hf hmem hraw hcache' stored root
    have hto : HashesTo keccak root t c :=
      store_hashesTo (h := ⟨keccak, gen, limit, none⟩) hc hraw hcache' hstore
    have hsome : (withDb stored db').isSome = stored := by cases stored <;> rfl
    simp only [hch, hstore, Option.map_some, hsome]
    refine ⟨c, _, db', rfl, ?_⟩
    have hkept' : stored = true → Kept keccak S db' t := fun h => (hkept h).mono hs'.grows
    exact {
      toHashesTo := hto
      ok := hdb'
      stores := hstores.trans hs'
      rep := hm db' _ hs'.grows
        (hflag.hashed hc hmem (hstores.trans hs').grows hto hkept' hpresent)
      kept := hkept'
      present := hpresent }
  · exact ⟨c, m', db, rfl, cached_rep _ hdb hc hf hn hcache hunload hflag hcached⟩

/-- The children of a full node, of which those in `done` are hashed. -/
structure ChildrenInv (keccak : Bytes → Hash) (S : Set Bytes) (stored : Bool) (db db' : Database)
    (cs : Fin 17 → PTree) (done : List (Fin 16)) (cached : Fin 17 → Node Hex) : Prop where
  ok : DbOk keccak S db'
  stores : Stores stored db db'
  rep : ∀ i, Rep keccak S db' false (cached i) (cs i)
  kept : stored = true → ∀ i, cs i = .nil ∨ i = term ∨ i ∈ done.map Fin.castSucc →
    Kept keccak S db' (cs i) ∧ (big keccak (cs i) = true →
      blob keccak (cs i) ∈ S ∧ db'.Present (keccak (blob keccak (cs i))))

/-- What `hash` does to a child, in every database that has grown. -/
def HashesChild (keccak : Bytes → Hash) (S : Set Bytes) (stored : Bool)
    (hashNode : Option Database → Option Hasher.Hashed) (n : Node Hex) (t : PTree) : Prop :=
  ∀ db, DbOk keccak S db → Rep keccak S db false n t → ∃ c n' db',
    hashNode (withDb stored db) = some (c, n', withDb stored db') ∧
      HashedAs keccak S stored false db db' c n' t

section
variable {children : Fin 17 → Node Hex} {cs : Fin 17 → PTree}
  {hashNode : Fin 17 → Option Database → Option Hasher.Hashed} (hc : (Tree.full cs).Canon term)
  (hcs : ∀ i, Rep keccak S db false (children i) (cs i)) (hcov : ∀ i, Covers keccak S (cs i))
  (hnode : ∀ i, (cs i).Canon term → HashesChild keccak S stored (hashNode i) (children i) (cs i))
include hc hcs hcov hnode

/-- One round of the loop. -/
theorem hashChild_rep {done : List (Fin 16)} (collapsed : Fin 17 → Node Bytes)
    {cached : Fin 17 → Node Hex}
    (hinv : ChildrenInv keccak S stored db db' cs done cached) (i : Fin 16) :
    ∃ collapsed' cached' db'', Hasher.hashChild children hashNode
        (collapsed, cached, withDb stored db') i = some (collapsed', cached', withDb stored db'') ∧
      ChildrenInv keccak S stored db db'' cs (i :: done) cached' := by
  rw [Hasher.hashChild, (hcs i.castSucc).isNil_eq]
  by_cases h0 : cs i.castSucc = .nil
  · rw [if_pos (Tree.isNil_iff.2 h0)]
    have hdone : ∀ j, cs j = .nil ∨ j = term ∨ j ∈ (i :: done).map Fin.castSucc →
        cs j = .nil ∨ j = term ∨ j ∈ done.map Fin.castSucc := by
      intro j hj
      rw [List.map_cons, List.mem_cons] at hj
      rcases hj with hj | hj | rfl | hj
      · exact .inl hj
      · exact .inr (.inl hj)
      · exact .inl h0
      · exact .inr (.inr hj)
    exact ⟨_, _, db', rfl, hinv.ok, hinv.stores, hinv.rep, fun hs j hj => hinv.kept hs j (hdone j hj)⟩
  · have hcanon : (cs i.castSucc).Canon term := by
      cases hc with
      | full hcanon _ _ => exact hcanon _ (Fin.castSucc_lt_last i).ne h0
    obtain ⟨c, n', db'', hhash, has⟩ := hnode _ hcanon db' hinv.ok
      ((hcs _).mono hinv.stores.grows)
    rw [if_neg (by rwa [Tree.isNil_iff]), hhash]
    refine ⟨_, _, db'', rfl, has.ok, hinv.stores.trans has.stores, fun j => ?_, fun hs j hj => ?_⟩
    · rw [Function.update_apply]
      split_ifs with hj
      · rw [hj]
        exact has.rep
      · exact (hinv.rep j).mono has.stores.grows
    · by_cases hji : j = i.castSucc
      · rw [hji]
        exact ⟨has.kept hs, fun hb => ⟨(hcov _).mem hcanon, has.present hs (.inr hb)⟩⟩
      · obtain ⟨h₁, h₂⟩ := hinv.kept hs j (hj.imp_right fun hj => hj.imp_right fun hj => by
          rw [List.map_cons, List.mem_cons] at hj
          exact hj.resolve_left hji)
        exact ⟨h₁.mono has.stores.grows, fun hb => (h₂ hb).imp_right (has.stores.grows _)⟩

/-- The loop over the children. -/
theorem hashChildren_loop : ∀ (l done : List (Fin 16)) {db' : Database}
    (collapsed : Fin 17 → Node Bytes)
      {cached : Fin 17 → Node Hex}, ChildrenInv keccak S stored db db' cs done cached →
      ∃ collapsed' cached' db'', l.foldlM (Hasher.hashChild children hashNode)
          (collapsed, cached, withDb stored db') = some (collapsed', cached', withDb stored db'') ∧
        ChildrenInv keccak S stored db db'' cs (l.reverse ++ done) cached'
  | [], _, _, _, _, hinv => ⟨_, _, _, rfl, hinv⟩
  | i :: l, done, _, c, _, hinv => by
    obtain ⟨c₁, n₁, db₁, h₁, hinv₁⟩ := hashChild_rep hc hcs hcov hnode c hinv i
    obtain ⟨c₂, n₂, db₂, h₂, hinv₂⟩ := hashChildren_loop l (i :: done) c₁ hinv₁
    refine ⟨c₂, n₂, db₂, by rw [List.foldlM_cons, h₁]; exact h₂, ?_⟩
    simpa using hinv₂

/-- The children of a full node are hashed. -/
theorem hashFull_rep (hdb : DbOk keccak S db) (flags : NodeFlag) :
    ∃ collapsed cached db', Hasher.hashFull children flags hashNode (withDb stored db) =
        some (.full collapsed flags, .full cached flags, withDb stored db') ∧ DbOk keccak S db' ∧
      Stores stored db db' ∧ (∀ i, Rep keccak S db' false (cached i) (cs i)) ∧
      (stored = true → Kept keccak S db' (.full cs)) := by
  have hinit : ChildrenInv keccak S stored db db cs [] children := by
    have hvalue : ∀ i, cs i = .nil ∨ i = term ∨ i ∈ ([] : List (Fin 16)).map Fin.castSucc →
        cs i = .nil ∨ ∃ v, cs i = .value v := by
      rintro i (h0 | rfl | h)
      · exact .inl h0
      · cases hc with
        | full _ hterm _ => exact hterm
      · cases h
    refine ⟨hdb, .refl db, hcs, fun _ i hi => ?_⟩
    rcases hvalue i hi with h | ⟨v, h⟩
    · rw [h]
      exact ⟨trivial, fun hb => by cases hb⟩
    · rw [h]
      exact ⟨trivial, fun hb => by cases hb⟩
  obtain ⟨collapsed, cached, db', hloop, hinv⟩ :=
    hashChildren_loop hc hcs hcov hnode (List.finRange 16) []
      (fun i => (children i).map rawNibbles) hinit
  have hall : ∀ i, cs i = .nil ∨ i = term ∨
      i ∈ ((List.finRange 16).reverse ++ []).map Fin.castSucc := by
    intro i
    induction i using Fin.lastCases with
    | last => exact .inr (.inl rfl)
    | cast i => exact .inr (.inr (List.mem_map_of_mem (by simp)))
  exact ⟨collapsed, cached, db', by rw [Hasher.hashFull, hloop]; rfl, hinv.ok, hinv.stores,
    hinv.rep, fun hs i => hinv.kept hs i (hall i)⟩

end

/-- The child of a short node is hashed. -/
theorem hashShort_rep {k : Hex} {val : Node Hex} {hashVal : Option Database → Option Hasher.Hashed}
    (hdb : DbOk keccak S db) (hc : (Tree.short k t).Canon term) (hval : Rep keccak S db false val t)
    (hcov : Covers keccak S t) (hnode : t.Canon term → HashesChild keccak S stored hashVal val t)
    (flags : NodeFlag) :
    ∃ c m db', Hasher.hashShort k val flags hashVal (withDb stored db) =
        some (.short (hexToCompact k) c flags, .short k m flags, withDb stored db') ∧
      DbOk keccak S db' ∧ Stores stored db db' ∧ Rep keccak S db' false m t ∧
      (stored = true → Kept keccak S db' (.short k t)) := by
  cases hc with
  | leaf hk =>
    cases hval with
    | hash hc => cases hc
    | value v =>
      exact ⟨_, _, db, rfl, hdb, .refl db, .value _, fun _ => ⟨trivial, fun hb => by cases hb⟩⟩
  | ext hk hmem hfull =>
    obtain ⟨c, m, db', hhash, has⟩ := hnode hfull db hdb hval
    have hvalue : val.isValue = false := by cases hval <;> rfl
    refine ⟨c, m, db', by rw [Hasher.hashShort, hvalue, hhash]; rfl, has.ok, has.stores, has.rep,
      fun hs => ⟨has.kept hs, fun hb => ⟨hcov.mem hfull, has.present hs (.inr hb)⟩⟩⟩

/-- A hash node stays what it is. -/
theorem hash_hashNode (gen limit : UInt16) (hdb : DbOk keccak S db) (hc : t.Canon term)
    (hf : t.Fits) (hroot : Hashes keccak root t) (hs : Committed keccak S db t) (stored : Bool) :
    ∃ c n' db', Hasher.hash ⟨keccak, gen, limit, none⟩ (.hash (keccak (blob keccak t)))
        (withDb stored db) root = some (c, n', withDb stored db') ∧
      HashedAs keccak S stored root db db' c n' t :=
  ⟨_, _, db, rfl, ⟨fun _ => rfl, fun h => absurd hroot h⟩, hdb, .refl db, .hash hc hf hroot hs,
    fun _ => hs.kept, fun _ _ => hs.present⟩

/-- **Hashing.**  A node that represents a tree in normal form is replaced by the hash of
    the tree or its collapsed form, and still represents it. -/
theorem hash_rep (gen limit : UInt16) (hdb : DbOk keccak S db) (hc : t.Canon term) (hf : t.Fits)
    (hcov : Covers keccak S t) (hn : Rep keccak S db root n t) (stored : Bool) :
    ∃ c n' db', Hasher.hash ⟨keccak, gen, limit, none⟩ n (withDb stored db) root =
        some (c, n', withDb stored db') ∧ HashedAs keccak S stored root db db' c n' t := by
  induction t generalizing n root db with
  | nil => cases hc
  | value => cases hc
  | short k t ih =>
    cases hn with
    | hash _ _ hroot hs => exact hash_hashNode gen limit hdb hc hf hroot hs stored
    | @short _ _ val flags _ hval hflag =>
      have hnode : t.Canon term → HashesChild keccak S stored
          (fun db => Hasher.hash ⟨keccak, gen, limit, none⟩ val db false) val t :=
        fun hc db hdb hrep => ih hdb hc hf.2 hcov.2 hrep
      obtain ⟨c, m, db₁, hch, hdb₁, hstores, hrep, hkept⟩ :=
        hashShort_rep hdb hc hval hcov.2 hnode flags
      have hn : Rep keccak S db root (.short k val flags) (.short k t) := .short hval hflag
      have hraw := (hn.denotes.collapses (h := ⟨keccak, gen, limit, none⟩) hc).2 rfl
      exact hashWith_rep gen limit hdb hc hf hcov.1 hn rfl rfl hflag hch hdb₁ hstores
        (hraw hch) rfl hkept fun db' x hg hx => .short (hrep.mono hg) hx
  | full cs ih =>
    cases hn with
    | hash _ _ hroot hs => exact hash_hashNode gen limit hdb hc hf hroot hs stored
    | @full _ children flags _ hcs hflag =>
      have hnode : ∀ i, (cs i).Canon term → HashesChild keccak S stored
          (fun db => Hasher.hash ⟨keccak, gen, limit, none⟩ (children i) db false) (children i)
          (cs i) := fun i hc db hdb hrep => ih i hdb hc (hf i) (hcov.2 i) hrep
      obtain ⟨collapsed, cached, db₁, hch, hdb₁, hstores, hrep, hkept⟩ :=
        hashFull_rep hc hcs hcov.2 hnode hdb flags
      have hn : Rep keccak S db root (.full children flags) (.full cs) := .full hcs hflag
      have hraw := (hn.denotes.collapses (h := ⟨keccak, gen, limit, none⟩) hc).2 rfl
      exact hashWith_rep gen limit hdb hc hf hcov.1 hn rfl rfl hflag hch hdb₁ hstores
        (hraw hch) rfl hkept fun db' x hg hx => .full (fun i => (hrep i).mono hg) hx

end GoEthereum.Trie
