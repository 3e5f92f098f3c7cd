/-
  The trie in memory and the tree it stands for.

  A node in memory, with what its hash nodes stand for in the database, represents a
  tree (`Rep`).  The cached hash of a node is the hash of its tree, and a node that is
  not dirty is stored (`FlagOk`).  `tryGet`, `insert` and `delete` find, set and remove
  a key of the tree, whatever is loaded and whatever is not.

  A hash stands for one stored node as long as the hash function does not collide on
  what is hashed.  `S` is a set of encodings without a collision (`KeccakOk`), and the
  database has only nodes with encodings in `S`, each under its hash (`DbOk`).
-/
import GoEthereum.Trie.Collapse

namespace GoEthereum.Trie

open GoEthereum.Rlp Patricia AssocMap

/-! ## The hash function and the database -/

/-- No two of the encodings, and of the encoding of the empty trie, have one hash, and
    no hash is zero. -/
structure KeccakOk (keccak : Bytes → Hash) (S : Set Bytes) : Prop where
  inj : Set.InjOn keccak ({[0x80]} ∪ S)
  zero : ∀ b ∈ S, keccak b ≠ .zero
  empty : keccak [0x80] = emptyRoot

/-- There is something under the hash. -/
def Database.Present (db : Database) (h : Hash) : Prop :=
  db.dirties.has h = true ∨ ∃ b, db.disk.get h = some b

section
variable (keccak : Bytes → Hash) (S : Set Bytes)

/-- Every entry of the database is a node with an encoding in `S`, under its hash. -/
structure DbOk (db : Database) : Prop where
  newest : db.oldest ≠ .zero → ∃ e, db.dirties.get db.newest = some e
  dirties : ∀ h e, db.dirties.get h = some e → h ≠ .zero → ∃ b ∈ S, h = keccak b ∧
    e.rlp = some b ∧ ∀ gen, e.obj h gen = mustDecodeNode (some h) b gen
  disk : ∀ (h : Hash) b, db.disk.get h = some b → b ∈ S ∧ h = keccak b

variable (db : Database)

/-- The big trees below a tree are in the database. -/
def Kept : PTree → Prop
  | .short _ t => Kept t ∧
      (big keccak t = true → blob keccak t ∈ S ∧ db.Present (keccak (blob keccak t)))
  | .full cs => ∀ i, Kept (cs i) ∧
      (big keccak (cs i) = true → blob keccak (cs i) ∈ S ∧ db.Present (keccak (blob keccak (cs i))))
  | _ => True

/-- A tree and what is below it is in the database. -/
structure Committed (t : PTree) : Prop where
  mem : blob keccak t ∈ S
  present : db.Present (keccak (blob keccak t))
  kept : Kept keccak S db t

/-- What the flags of a node say about its tree.  The root has a hash even if it is
    short; a node that is not dirty and has no hash is embedded in its parent. -/
structure FlagOk (root : Bool) (flags : NodeFlag) (t : PTree) : Prop where
  hash : ∀ h, flags.hash = some h → h = keccak (blob keccak t) ∧
    (root = true ∨ big keccak t = true) ∧ (flags.dirty = false → Committed keccak S db t)
  embedded : flags.hash = none → flags.dirty = false → root = false ∧ big keccak t = false

/-- A node in memory represents a tree. -/
inductive Rep : Bool → Node Hex → PTree → Prop
  | nil {root : Bool} : Rep root .nil .nil
  | value {root : Bool} (v : Value) : Rep root (.value v.bytes) (.value v)
  | hash {root : Bool} {t : PTree} : t.Canon term → t.Fits → (root = true ∨ big keccak t = true) →
      Committed keccak S db t → Rep root (.hash (keccak (blob keccak t))) t
  | short {root : Bool} {k : Hex} {val : Node Hex} {flags : NodeFlag} {t : PTree} :
      Rep false val t → FlagOk keccak S db root flags (.short k t) →
      Rep root (.short k val flags) (.short k t)
  | full {root : Bool} {children : Fin 17 → Node Hex} {flags : NodeFlag} {cs : Fin 17 → PTree} :
      (∀ i, Rep false (children i) (cs i)) → FlagOk keccak S db root flags (.full cs) →
      Rep root (.full children flags) (.full cs)

end

variable {keccak : Bytes → Hash} {S : Set Bytes} {db db' : Database} {root : Bool} {n : Node Hex}
  {t : PTree} {k key : Hex} {gen : UInt16} {fuel : ℕ} {flags : NodeFlag}

theorem DbOk.node (hdb : DbOk keccak S db) (hK : KeccakOk keccak S) {b : Bytes} (hb : b ∈ S)
    (hp : db.Present (keccak b)) :
    db.node (keccak b) gen = mustDecodeNode (some (keccak b)) b gen := by
  have hinj : ∀ b' ∈ S, keccak b = keccak b' → b' = b := fun b' hb' h =>
    hK.inj (.inr hb') (.inr hb) h.symm
  rw [Database.node]
  rcases hd : db.dirties.get (keccak b) with _ | e
  · rcases hp with hp | ⟨b', hb'⟩
    · rw [(has_eq_false _ _).2 hd] at hp
      cases hp
    · obtain ⟨hS, hk⟩ := hdb.disk _ _ hb'
      simp only [hb', hinj b' hS hk]
  · obtain ⟨b', hS, hk, -, hobj⟩ := hdb.dirties _ _ hd (hK.zero b hb)
    simp only [hobj gen, hinj b' hS hk]

/-! ## A growing database -/

/-- Nothing is lost from the database. -/
def Grows (db db' : Database) : Prop := ∀ h, db.Present h → db'.Present h

theorem Grows.refl (db : Database) : Grows db db := fun _ h => h

theorem Grows.trans {db'' : Database} (h : Grows db db') (h' : Grows db' db'') : Grows db db'' :=
  fun x hx => h' x (h x hx)

theorem Kept.mono (hg : Grows db db') : ∀ {t : PTree}, Kept keccak S db t → Kept keccak S db' t
  | .nil, _ => trivial
  | .value _, _ => trivial
  | .short _ _, h => ⟨h.1.mono hg, fun hb => (h.2 hb).imp_right (hg _)⟩
  | .full _, h => fun i => ⟨(h i).1.mono hg, fun hb => ((h i).2 hb).imp_right (hg _)⟩

theorem Committed.mono (hg : Grows db db') (h : Committed keccak S db t) :
    Committed keccak S db' t :=
  ⟨h.mem, hg _ h.present, h.kept.mono hg⟩

theorem FlagOk.mono (hg : Grows db db') (h : FlagOk keccak S db root flags t) :
    FlagOk keccak S db' root flags t where
  hash x hx := (h.hash x hx).imp_right fun h => h.imp_right fun h hd => (h hd).mono hg
  embedded := h.embedded

theorem Rep.mono (hg : Grows db db') (h : Rep keccak S db root n t) :
    Rep keccak S db' root n t := by
  induction h with
  | nil => exact .nil
  | value v => exact .value v
  | hash hc hf hb hs => exact .hash hc hf hb (hs.mono hg)
  | short _ hflag ih => exact .short ih (hflag.mono hg)
  | full _ hflag ih => exact .full ih (hflag.mono hg)

/-! ## Loading nodes -/

theorem flagOk_newFlag (gen : UInt16) : FlagOk keccak S db root (newFlag gen) t where
  hash _ hx := by cases hx
  embedded _ hd := by cases hd

theorem flagOk_embedded (hb : big keccak t = false) (gen : UInt16) :
    FlagOk keccak S db false { gen } t where
  hash _ hx := by cases hx
  embedded _ _ := ⟨rfl, hb⟩

theorem FlagOk.setGen (h : FlagOk keccak S db root flags t) (gen : UInt16) :
    FlagOk keccak S db root { flags with gen } t := ⟨h.hash, h.embedded⟩

theorem Rep.isNil_eq (h : Rep keccak S db root n t) : n.isNil = t.isNil := by
  cases h with
  | hash hc => cases hc <;> rfl
  | _ => rfl

theorem rep_load (hc : t.Canon term) (hf : t.Fits) (hk : Kept keccak S db t) {hash : Option Hash}
    (hflag : FlagOk keccak S db root { hash, gen } t) :
    Rep keccak S db root (load keccak gen hash t) t := by
  -- a child is embedded, or stands for a tree that is kept
  have href : ∀ t : PTree, t.Canon term → t.Fits → (Kept keccak S db t ∧ (big keccak t = true →
      blob keccak t ∈ S ∧ db.Present (keccak (blob keccak t)))) →
      (big keccak t = false → Rep keccak S db false (load keccak gen none t) t) →
      Rep keccak S db false (loadRef keccak gen t) t := by
    intro t hc hf hk ht
    rcases hb : big keccak t with _ | _
    · rw [loadRef_of_not_big hb]
      exact ht hb
    · rw [loadRef_of_big hb]
      exact .hash hc hf (.inr hb) ⟨(hk.2 hb).1, (hk.2 hb).2, hk.1⟩
  induction hc generalizing root hash with
  | leaf _ => exact .short (.value _) hflag
  | ext _ _ hfull ih =>
    exact .short (href _ hfull hf.2 hk fun hb => ih hf.2 hk.1 (flagOk_embedded hb gen)) hflag
  | @full cs hc hterm _ ih =>
    refine .full (fun i => ?_) hflag
    by_cases h0 : cs i = .nil
    · rw [h0]; exact .nil
    by_cases hi : i = term
    · subst hi
      obtain ⟨v, hv⟩ := hterm.resolve_left h0
      rw [hv]
      exact .value v
    · exact href _ (hc i hi h0) (hf i) (hk i) fun hb =>
        ih i hi h0 (hf i) (hk i).1 (flagOk_embedded hb gen)

theorem Committed.flagOk (hs : Committed keccak S db t) (hroot : root = true ∨ big keccak t = true) :
    FlagOk keccak S db root { hash := some (keccak (blob keccak t)), gen } t where
  hash := by
    rintro h ⟨⟩
    exact ⟨rfl, hroot, fun _ => hs⟩
  embedded h := by cases h

theorem resolveHash_rep (hK : KeccakOk keccak S) (hdb : DbOk keccak S db) (hc : t.Canon term)
    (hf : t.Fits) (hroot : root = true ∨ big keccak t = true) (hs : Committed keccak S db t)
    (gen : UInt16) (path : Hex) :
    ∃ n, resolveHash db gen (keccak (blob keccak t)) path = .ok n ∧ Rep keccak S db root n t ∧
      n.hashOf = none := by
  refine ⟨load keccak gen (some (keccak (blob keccak t))) t, ?_,
    rep_load hc hf hs.kept (hs.flagOk hroot), by cases t <;> rfl⟩
  rw [resolveHash, hdb.node hK hs.mem hs.present, mustDecodeNode_blob hc hf]
  simp only [load_ne_nil _ hc.ne_nil]
  rfl

/-- One more call for a hash node. -/
def loads (n : Node Hex) : ℕ := if n.hashOf.isSome then 1 else 0

theorem loads_le (n : Node Hex) : loads n ≤ 1 := by unfold loads; split_ifs <;> omega

theorem loads_hash (h : Hash) : loads (.hash h) = 1 := rfl

theorem loads_of_none (h : n.hashOf = none) : loads n = 0 := by rw [loads, h]; rfl

/-! ## Get -/

theorem short_test {nkey key : Hex} (pos : ℕ) :
    (key.length - pos < nkey.length ∨ nkey ≠ (key.drop pos).take nkey.length) ↔
      ¬ nkey <+: key.drop pos := by
  rw [List.prefix_iff_eq_take]
  constructor
  · rintro (hlt | hne) heq
    · have := congrArg List.length heq
      rw [List.length_take, List.length_drop] at this
      omega
    · exact hne heq
  · exact .inr

theorem value_below {v : Value} {key : Hex} (hb : Tree.Below term key (.value v : PTree)) :
    key = [] := by
  rcases hb with ⟨h, -⟩ | ⟨-, h | h⟩
  · exact h
  · cases h
  · cases h

/-- **`tryGet` finds the value of a key.** -/
theorem tryGet_rep (hK : KeccakOk keccak S) (hdb : DbOk keccak S db) {pos : ℕ}
    (hn : Rep keccak S db root n t) (hb : Tree.Below term (key.drop pos) t)
    (hfuel : 2 * (key.drop pos).length + loads n < fuel) (gen : UInt16) :
    ∃ n' d, tryGet db gen fuel n key pos = .ok ((t.lookup (key.drop pos)).map Value.bytes, n', d) ∧
      Rep keccak S db root n' t ∧ (d = false → n' = n) := by
  induction fuel generalizing root n t pos with
  | zero => omega
  | succ fuel ih =>
    cases hn with
    | nil => exact ⟨.nil, false, rfl, .nil, fun _ => rfl⟩
    | value v =>
      rw [value_below hb]
      exact ⟨.value v.bytes, false, rfl, .value v, fun _ => rfl⟩
    | hash hc hf hroot hs =>
      obtain ⟨rn, hrn, hrep, hnone⟩ := resolveHash_rep hK hdb hc hf hroot hs gen (key.take pos)
      rw [loads_hash] at hfuel
      obtain ⟨n', d, hget, hn', -⟩ := ih hrep hb (by rw [loads_of_none hnone]; omega)
      rw [tryGet, hrn, Result.ok_bind, hget]
      exact ⟨n', true, rfl, hn', by simp⟩
    | @short _ k val flags t hval hflag =>
      obtain ⟨hterm, hc⟩ := hb.inner (by simp) (by simp)
      rw [tryGet]
      by_cases hpre : k <+: key.drop pos
      · obtain ⟨r, hr⟩ := hpre
        have hdrop : key.drop (pos + k.length) = r := by
          rw [← List.drop_drop, ← hr, List.drop_left]
        have hk0 : 0 < k.length := List.length_pos_of_ne_nil hc.path_ne_nil
        have hle := loads_le val
        rw [← hr, List.length_append] at hfuel
        obtain ⟨n', d, hget, hn', hd⟩ := ih hval (hdrop ▸ hc.rest (hr ▸ hterm))
          (by rw [hdrop]; omega)
        rw [if_neg (by rw [short_test]; exact not_not.2 ⟨r, hr⟩), hget, hdrop, ← hr,
          Tree.lookup_short_append]
        cases d with
        | false => exact ⟨_, false, rfl, .short hval hflag, fun _ => rfl⟩
        | true => exact ⟨_, true, rfl, .short hn' (hflag.setGen gen), by simp⟩
      · rw [if_pos ((short_test pos).2 hpre), Tree.lookup_short_of_not hpre]
        exact ⟨_, false, rfl, .short hval hflag, fun _ => rfl⟩
    | @full _ children flags cs hcs hflag =>
      obtain ⟨hterm, hc⟩ := hb.inner (by simp) (by simp)
      obtain ⟨c, r, hr⟩ := List.exists_cons_of_ne_nil hterm.ne_nil
      have hdrop : key.drop (pos + 1) = r := by rw [← List.drop_drop, hr]; rfl
      have hget : key[pos]? = some c := by
        rw [← Nat.add_zero pos, ← List.getElem?_drop, hr]
        rfl
      have hle := loads_le (children c)
      rw [hr, List.length_cons] at hfuel
      obtain ⟨n', d, hrec, hn', hd⟩ := ih (hcs c) (hdrop ▸ hc.child (hr ▸ hterm))
        (by rw [hdrop]; omega)
      rw [tryGet]
      simp only [hget, hrec, Result.ok_bind, hdrop, hr, Tree.lookup]
      cases d with
      | false => exact ⟨_, false, rfl, .full hcs hflag, fun _ => rfl⟩
      | true =>
        refine ⟨_, true, rfl, .full (fun i => ?_) (hflag.setGen gen), by simp⟩
        rw [Function.update_apply]
        split_ifs with hi
        · rwa [hi]
        · exact hcs i

/-! ## Insert -/

theorem Rep.update {children : Fin 17 → Node Hex} {cs : Fin 17 → PTree} {c : Fin 17} {m : Node Hex}
    {u : PTree} (hcs : ∀ i, Rep keccak S db false (children i) (cs i))
    (hm : Rep keccak S db false m u) (i : Fin 17) :
    Rep keccak S db false (Function.update children c m i) (Function.update cs c u i) := by
  rw [Function.update_apply, Function.update_apply]
  split_ifs
  · exact hm
  · exact hcs i

theorem insert_nil (hn : Rep keccak S db false n t) (path k : Hex) (gen : UInt16) (fuel : ℕ) :
    ∃ m, insert db gen (fuel + 1) .nil path k n = .ok (true, m) ∧
      Rep keccak S db false m (Tree.path k t) := by
  rw [insert]
  cases k with
  | nil => exact ⟨n, rfl, hn⟩
  | cons a k => exact ⟨_, rfl, .short hn (flagOk_newFlag gen)⟩

/-- The branch where a key parts from a path. -/
theorem insert_parted {val : Node Hex} {c k' key' : Hex} {a b : Fin 17} {v : Value} (hab : a ≠ b)
    (hval : Rep keccak S db false val t) (root : Bool) (path : Hex) (flags : NodeFlag)
    (gen : UInt16) (fuel : ℕ) :
    ∃ m, insert db gen (fuel + 2) (.short (c ++ a :: k') val flags) path (c ++ b :: key')
        (.value v.bytes) = .ok (true, m) ∧
      Rep keccak S db root m
        (Tree.path c (Tree.branch a (Tree.path k' t) b (Tree.path key' (.value v)))) := by
  have hlen : prefixLen (c ++ b :: key') (c ++ a :: k') = c.length := commonLen_parted hab c k' key'
  have hdrop : ∀ (x : Fin 17) (r : Hex), (c ++ x :: r).drop (c.length + 1) = r := fun x r => by
    rw [← List.drop_drop, List.drop_left]
    rfl
  obtain ⟨na, hna, hra⟩ := insert_nil hval (path ++ (c ++ a :: k').take (c.length + 1)) k'
    gen fuel
  obtain ⟨nb, hnb, hrb⟩ := insert_nil (.value v : Rep keccak S db false _ _)
    (path ++ (c ++ b :: key').take (c.length + 1)) key' gen fuel
  rw [insert, if_neg (by simp)]
  simp only [hlen, List.length_append, List.length_cons, Nat.left_eq_add, hdrop, hna, hnb,
    Result.ok_bind, List.getElem?_append_right (le_refl _), Nat.sub_self, List.getElem?_cons_zero,
    List.take_left, Nat.add_eq_zero_iff, Nat.one_ne_zero, and_false, if_false]
  have hbranch : ∀ root, Rep keccak S db root
      (.full (Function.update (Function.update (fun _ => .nil) a na) b nb) (newFlag gen))
      (Tree.branch a (Tree.path k' t) b (Tree.path key' (.value v))) := fun root =>
    .full (Rep.update (Rep.update (fun _ => .nil) hra) hrb) (flagOk_newFlag gen)
  cases c with
  | nil => exact ⟨_, rfl, hbranch root⟩
  | cons x c => exact ⟨_, rfl, .short (hbranch false) (flagOk_newFlag gen)⟩

/-- **`insert` sets the value of a key.** -/
theorem insert_rep (hK : KeccakOk keccak S) (hdb : DbOk keccak S db) {v : Value}
    (hn : Rep keccak S db root n t) (hb : Tree.Below term key t)
    (hfuel : 2 * key.length + loads n < fuel) (gen : UInt16) (path : Hex) :
    ∃ d n', insert db gen fuel n path key (.value v.bytes) = .ok (d, n') ∧
      Rep keccak S db root n' (t.insert key v) ∧ (d = false → t.insert key v = t) := by
  induction fuel generalizing root n t path key with
  | zero => omega
  | succ fuel ih =>
    cases hn with
    | nil =>
      rw [insert]
      cases key with
      | nil => exact ⟨true, _, rfl, .value v, by simp⟩
      | cons a key => exact ⟨true, _, rfl, .short (.value v) (flagOk_newFlag gen), by simp⟩
    | value w =>
      obtain rfl := value_below hb
      refine ⟨w.bytes != v.bytes, _, rfl, .value v, fun h => ?_⟩
      have : w.bytes = v.bytes := by simpa using h
      rw [Tree.insert, if_pos rfl, Subtype.ext (Subtype.ext this.symm)]
    | hash hc hf hroot hs =>
      obtain ⟨rn, hrn, hrep, hnone⟩ := resolveHash_rep hK hdb hc hf hroot hs gen path
      obtain ⟨hterm, -⟩ := hb.inner hc.ne_nil (by rintro v rfl; cases hc)
      have hkey : key.length ≠ 0 := by simpa using hterm.ne_nil
      rw [loads_hash] at hfuel
      obtain ⟨d, n', hins, hn', hd⟩ := ih hrep hb (by rw [loads_of_none hnone]; omega) path
      rw [insert, if_neg hkey]
      simp only [hrn, Result.ok_bind, hins]
      cases d with
      | false => exact ⟨false, rn, rfl, (hd rfl).symm ▸ hrep, hd⟩
      | true => exact ⟨true, n', rfl, hn', hd⟩
    | @short _ k val flags t hval hflag =>
      obtain ⟨hterm, hc⟩ := hb.inner (by simp) (by simp)
      have hkey : key.length ≠ 0 := by simpa using hterm.ne_nil
      by_cases hpre : k <+: key
      · obtain ⟨r, rfl⟩ := hpre
        have hk0 : 0 < k.length := List.length_pos_of_ne_nil hc.path_ne_nil
        have hle := loads_le val
        rw [List.length_append] at hfuel
        obtain ⟨d, n', hins, hn', hd⟩ := ih hval (hc.rest hterm) (by omega) (path ++ k)
        have hlen : prefixLen (k ++ r) k = k.length := commonLen_append k r
        rw [insert, if_neg hkey, Tree.insert_short_append]
        simp only [hlen, if_true, List.take_left, List.drop_left, hins, Result.ok_bind]
        cases d with
        | false =>
          rw [hd rfl]
          exact ⟨false, _, rfl, .short hval hflag, fun _ => rfl⟩
        | true => exact ⟨true, _, rfl, .short hn' (flagOk_newFlag gen), by simp⟩
      · rcases hc.cases_key hterm with ⟨c, a, k', b, key', rfl, rfl, hab⟩ | ⟨rfl, -⟩ | ⟨r, _, rfl, -⟩
        · obtain ⟨fuel, rfl⟩ : ∃ m, fuel = m + 1 := ⟨fuel - 1, by
            rw [List.length_append, List.length_cons] at hfuel
            omega⟩
          obtain ⟨m, hins, hm⟩ := insert_parted (v := v) hab hval root path flags gen fuel
          rw [Tree.insert_short_parted hab]
          exact ⟨true, m, hins, hm, by simp⟩
        · exact absurd List.prefix_rfl hpre
        · exact absurd (List.prefix_append k r) hpre
    | @full _ children flags cs hcs hflag =>
      obtain ⟨hterm, hc⟩ := hb.inner (by simp) (by simp)
      obtain ⟨c, r, rfl⟩ := List.exists_cons_of_ne_nil hterm.ne_nil
      have hle := loads_le (children c)
      rw [List.length_cons] at hfuel
      obtain ⟨d, n', hins, hn', hd⟩ := ih (hcs c) (hc.child hterm) (by omega) (path ++ [c])
      rw [insert, if_neg (by simp), Tree.insert]
      simp only [hins, Result.ok_bind]
      cases d with
      | false =>
        rw [hd rfl, Function.update_eq_self]
        exact ⟨false, _, rfl, .full hcs hflag, fun _ => rfl⟩
      | true => exact ⟨true, _, rfl, .full (Rep.update hcs hn') (flagOk_newFlag gen), by simp⟩

/-! ## Delete -/

theorem onlyChild_rep {children : Fin 17 → Node Hex} {cs : Fin 17 → PTree}
    (hcs : ∀ i, Rep keccak S db false (children i) (cs i)) :
    (∃ pos, onlyChild children = some pos ∧ Tree.shrink cs = Tree.join [pos] (cs pos) ∧
      cs pos ≠ .nil) ∨ (onlyChild children = none ∧ Tree.shrink cs = .full cs) := by
  have hperm : ((List.finRange 17).filter fun i => !(children i).isNil).Perm (Tree.letters cs) := by
    refine (List.perm_ext_iff_of_nodup ((List.nodup_finRange 17).filter _)
      (Tree.nodup_letters cs)).2 fun i => ?_
    simp only [List.mem_filter, List.mem_finRange, true_and, (hcs i).isNil_eq, Tree.mem_letters,
      Bool.not_eq_true', Tree.isNil_eq_false]
  unfold onlyChild Tree.shrink
  rcases hl : (List.finRange 17).filter fun i => !(children i).isNil with _ | ⟨pos, _ | ⟨y, l⟩⟩
  · rw [hl] at hperm
    rw [List.nil_perm.1 hperm]
    exact .inr ⟨rfl, rfl⟩
  · rw [hl] at hperm
    have hpos : cs pos ≠ .nil := Tree.mem_letters.1 (hperm.subset (List.mem_singleton_self pos))
    rw [← List.singleton_perm.1 hperm]
    exact .inl ⟨pos, rfl, rfl, hpos⟩
  · rw [hl] at hperm
    have hlen := hperm.length_eq
    rcases hl' : Tree.letters cs with _ | ⟨x, _ | ⟨z, l'⟩⟩
    · rw [hl'] at hlen; simp at hlen
    · rw [hl'] at hlen; simp at hlen
    · exact .inr ⟨rfl, rfl⟩

theorem resolve_rep (hK : KeccakOk keccak S) (hdb : DbOk keccak S db)
    (hn : Rep keccak S db root n t) (gen : UInt16) (path : Hex) :
    ∃ m, resolve db gen n path = .ok m ∧ Rep keccak S db root m t ∧ m.hashOf = none := by
  cases hn with
  | hash hc hf hroot hs => exact resolveHash_rep hK hdb hc hf hroot hs gen path
  | nil => exact ⟨_, rfl, .nil, rfl⟩
  | value v => exact ⟨_, rfl, .value v, rfl⟩
  | short hval hflag => exact ⟨_, rfl, .short hval hflag, rfl⟩
  | full hcs hflag => exact ⟨_, rfl, .full hcs hflag, rfl⟩

theorem Rep.join {m : Node Hex} (hm : Rep keccak S db false m t) (hnone : m.hashOf = none)
    (hn : Rep keccak S db false n t) (k : Hex) (gen : UInt16) (root : Bool) :
    Rep keccak S db root
      (match m with
      | .short ckey cval _ => .short (k ++ ckey) cval (newFlag gen)
      | _ => .short k n (newFlag gen)) (Tree.join k t) := by
  cases hm with
  | hash => cases hnone
  | nil | value _ | full _ _ => exact .short hn (flagOk_newFlag gen)
  | short hval _ => exact .short hval (flagOk_newFlag gen)

/-- **`delete` removes a key.** -/
theorem delete_rep (hK : KeccakOk keccak S) (hdb : DbOk keccak S db)
    (hn : Rep keccak S db root n t) (hb : Tree.Below term key t)
    (hfuel : 2 * key.length + loads n < fuel) (gen : UInt16) (path : Hex) :
    ∃ d n', delete db gen fuel n path key = .ok (d, n') ∧
      Rep keccak S db root n' (t.delete key) ∧ (d = false → t.delete key = t) ∧
      (d = true → n'.hashOf = none) := by
  induction fuel generalizing root n t path key with
  | zero => omega
  | succ fuel ih =>
    cases hn with
    | nil => exact ⟨false, .nil, rfl, .nil, fun _ => rfl, by simp⟩
    | value w => exact ⟨true, .nil, rfl, .nil, by simp, fun _ => rfl⟩
    | hash hc hf hroot hs =>
      obtain ⟨rn, hrn, hrep, hnone⟩ := resolveHash_rep hK hdb hc hf hroot hs gen path
      rw [loads_hash] at hfuel
      obtain ⟨d, n', hdel, hn', hd, hh⟩ := ih hrep hb (by rw [loads_of_none hnone]; omega) path
      rw [delete]
      simp only [hrn, Result.ok_bind, hdel]
      cases d with
      | false => exact ⟨false, rn, rfl, (hd rfl).symm ▸ hrep, hd, by simp⟩
      | true => exact ⟨true, n', rfl, hn', hd, hh⟩
    | @short _ k val flags t hval hflag =>
      obtain ⟨hterm, hc⟩ := hb.inner (by simp) (by simp)
      rw [delete]
      rcases hc.cases_key hterm with ⟨c, a, k', b, key', rfl, rfl, hab⟩ | ⟨rfl, v, rfl⟩ |
        ⟨r, cs, rfl, rfl, hk, hmem, hr, hfull⟩
      · have hlen : prefixLen (c ++ b :: key') (c ++ a :: k') = c.length :=
          commonLen_parted hab c k' key'
        simp only [hlen, List.length_append, List.length_cons]
        rw [if_pos (by omega), Tree.delete_short_parted hab]
        exact ⟨false, _, rfl, .short hval hflag, fun _ => rfl, by simp⟩
      · have hlen : prefixLen k k = k.length := by
          have := commonLen_append k []
          rwa [List.append_nil] at this
        simp only [hlen, lt_irrefl, if_false, if_true, Tree.delete_short_self]
        exact ⟨true, _, rfl, .nil, by simp, fun _ => rfl⟩
      · have hlen : prefixLen (k ++ r) k = k.length := commonLen_append k r
        have hk0 : 0 < k.length := List.length_pos_of_ne_nil hk
        have hr0 : 0 < r.length := List.length_pos_of_ne_nil hr.ne_nil
        have hle := loads_le val
        rw [List.length_append] at hfuel
        obtain ⟨d, n', hdel, hn', hd, hh⟩ := ih hval (.inr ⟨hr, .inr hfull⟩) (by omega) (path ++ k)
        simp only [hlen, lt_irrefl, if_false, List.length_append, Nat.left_eq_add, hr0.ne',
          List.take_left, List.drop_left, hdel, Result.ok_bind, Tree.delete_short_append hr.ne_nil]
        cases d with
        | false =>
          rw [hd rfl]
          exact ⟨false, _, rfl, .short hval hflag, fun _ => rfl, by simp⟩
        | true =>
          have hjoin := hn'.join (hh rfl) hn' k gen root
          cases n' <;> exact ⟨true, _, rfl, hjoin, by simp, fun _ => rfl⟩
    | @full _ children flags cs hcs hflag =>
      obtain ⟨hterm, hc⟩ := hb.inner (by simp) (by simp)
      obtain ⟨c, r, rfl⟩ := List.exists_cons_of_ne_nil hterm.ne_nil
      have hle := loads_le (children c)
      rw [List.length_cons] at hfuel
      obtain ⟨d, n', hdel, hn', hd, hh⟩ := ih (hcs c) (hc.child hterm) (by omega) (path ++ [c])
      rw [delete, Tree.delete]
      simp only [hdel, Result.ok_bind]
      cases d with
      | false =>
        rw [hd rfl, Function.update_eq_self, hc.shrink_eq]
        exact ⟨false, _, rfl, .full hcs hflag, fun _ => rfl, by simp⟩
      | true =>
        have hcs' := Rep.update (c := c) hcs hn'
        simp only [Bool.not_true, Bool.false_eq_true, if_false]
        rcases onlyChild_rep hcs' with ⟨pos, hpos, hshrink, hne⟩ | ⟨hpos, hshrink⟩
        · rw [hshrink]
          simp only [hpos]
          by_cases h16 : pos = term
          · -- the value of the branch is left
            obtain ⟨v, hv⟩ := hc.value_of_delete hterm (h16 ▸ hne)
            rw [if_neg (not_not.2 h16)]
            have hrep := hcs' pos
            rw [h16, hv] at hrep ⊢
            exact ⟨true, _, rfl, .short hrep (flagOk_newFlag gen), by simp, fun _ => rfl⟩
          · obtain ⟨m, hm, hrm, hnone⟩ := resolve_rep hK hdb (hcs' pos) gen path
            have hjoin := hrm.join hnone (hcs' pos) [pos] gen root
            rw [if_pos h16, hm]
            cases m <;> exact ⟨true, _, rfl, hjoin, by simp, fun _ => rfl⟩
        · rw [hshrink]
          simp only [hpos]
          exact ⟨true, _, rfl, .full hcs' (flagOk_newFlag gen), by simp, fun _ => rfl⟩

end GoEthereum.Trie
