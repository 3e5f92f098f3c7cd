/-
  Taking nodes out of memory (`trie/database.go`).

  `dereference` and `uncache` take a node out of the list, go on with its children and then
  delete it; `gone` are the nodes on the way down, which are no longer in the list.  `Cap`
  deletes the first nodes of the list.

  What holds beside the list is left open: `J owed` is kept, where `owed` counts the
  references from the nodes on the way down that are still to be taken down, and `P` and
  `Done` say what holds of the batches and which nodes are in them.
-/
import GoEthereum.Trie.FlushList

namespace GoEthereum.Trie.Database

open GoEthereum.Rlp LinkedList AssocMap Relation

variable {db db' db'' : Database} {l l' l'' gone : List Hash} {h hash child parent : Hash}
  {node : CachedNode} {iter : ℕ → List Hash → List Hash} {G : Hash → Hash → Prop}
  {J : (Hash → ℕ) → List Hash → Database → Prop} {K : List Hash → Database → Prop}
  {owed time : Hash → ℕ}

/-! ## What is kept -/

/-- Nodes are taken out of the list, and their sizes out of the count. -/
structure Shrinks (l l' : List Hash) (db db' : Database) : Prop where
  sub : l'.Sublist l
  same : Agree content l' db db'
  count : db'.dirtiesSize - db'.weight l' = db.dirtiesSize - db.weight l

theorem Shrinks.of_same (hs : Agree content l db db') (hc : db'.dirtiesSize = db.dirtiesSize) :
    Shrinks l l db db' :=
  ⟨.refl l, hs, by rw [hc, hs.weight]⟩

theorem Shrinks.trans (h₁ : Shrinks l l' db db') (h₂ : Shrinks l' l'' db' db'') :
    Shrinks l l'' db db'' :=
  ⟨h₂.sub.trans h₁.sub, h₁.same.trans h₂.same h₂.sub.subset, h₂.count.trans h₁.count⟩

theorem Listed.shrink (hi : Listed time l db) (hlinked : Linked [] l' db')
    (hs : Shrinks l l' db db') : Listed time l' db' :=
  hi.congr hlinked hs.sub hs.same

/-- `J` does not depend on the places in the list. -/
def Blind (J : (Hash → ℕ) → List Hash → Database → Prop) : Prop :=
  ∀ ⦃owed l db db'⦄, J owed l db → Agree body l db db' → db'.disk = db.disk → J owed l db'

/-- `J` is kept while references are taken down. -/
structure Owes (J : (Hash → ℕ) → List Hash → Database → Prop) : Prop where
  blind : Blind J
  out : ∀ {owed l db c}, J (fun h => owed h + [c].count h) l db → c ∉ l → J owed l db
  pay : ∀ {owed l} {db : Database} {c node}, J (fun h => owed h + [c].count h) l db →
    db.dirties.get c = some node → J owed l { db with dirties := db.dirties.set c (dropParent node) }
  unlink : ∀ {owed l} {db : Database} {h node}, J owed l db → h ∈ l →
    db.dirties.get h = some node → node.parents = 0 →
    J (fun x => owed x + node.refs.count x) (l.erase h) db

theorem owes_true : Owes fun _ _ _ => True :=
  ⟨fun _ _ _ _ _ _ _ => trivial, fun _ _ => trivial, fun _ _ => trivial, fun _ _ _ _ => trivial⟩

/-- Below the node there are neither cycles nor the meta-root nor a node on the way down
    to it. -/
def Free (G : Hash → Hash → Prop) (gone : List Hash) (h : Hash) : Prop :=
  ∀ x, ReflTransGen G h x → x ≠ .zero ∧ x ∉ gone ∧ ¬ TransGen G x x

theorem Free.step (hf : Free G gone h) {c : Hash} (hc : G h c) : Free G (h :: gone) c := by
  intro x hx
  obtain ⟨h₁, h₂, h₃⟩ := hf x (.head hc hx)
  refine ⟨h₁, ?_, h₃⟩
  rintro (_ | ⟨_, hm⟩)
  · exact h₃ (.head' hc hx)
  · exact h₂ hm

theorem Free.mem (hf : Free G gone h) (hi : Linked gone l db)
    (hn : db.dirties.get h = some node) : h ∈ l := by
  obtain ⟨h₁, h₂, -⟩ := hf h .refl
  rcases (hi.mem h).1 ((has_eq_true _ _).2 ⟨node, hn⟩) with h | h | h
  · exact absurd h h₁
  · exact h
  · exact absurd h h₂

/-- The references of the nodes of the list are among `G`. -/
def Within (G : Hash → Hash → Prop) (db : Database) (l : List Hash) : Prop :=
  ∀ p ∈ l, ∀ c ∈ db.refsOf p, G p c

theorem Within.mono (hw : Within G db l) (hs : Agree content l' db db') (hl : l' ⊆ l) :
    Within G db' l' :=
  fun p hp c hc => hw p (hl hp) c (hs.refs hp ▸ hc)

/-- An operation that takes down the references to `cs` keeps the list and `J`, with enough
    fuel for the nodes in the list.  The references `G` are those at the start. -/
def Keeps (J : (Hash → ℕ) → List Hash → Database → Prop) (G : Hash → Hash → Prop)
    (gone : List Hash) (fuel : ℕ) (cs : List Hash) (op : Database → Option Database) : Prop :=
  ∀ ⦃db : Database⦄ ⦃l : List Hash⦄ ⦃owed : Hash → ℕ⦄, Linked gone l db → Within G db l →
    l.length < fuel → J (fun h => owed h + cs.count h) l db → ∃ db' l', op db = some db' ∧
      Linked gone l' db' ∧ Shrinks l l' db db' ∧ db'.disk = db.disk ∧ J owed l' db'

theorem keeps_foldlM {fuel : ℕ} {op : Hash → Database → Option Database} :
    ∀ {cs : List Hash}, (∀ c ∈ cs, Keeps J G gone fuel [c] (op c)) →
      Keeps J G gone fuel cs fun db => cs.foldlM (fun db c => op c db) db
  | [], _, db, l, _, hi, _, _, hJ => ⟨db, l, rfl, hi, .of_same (.refl _ l db) rfl, rfl, hJ⟩
  | c :: cs, h, db, l, owed, hi, hw, hfuel, hJ => by
    have hsplit : (fun h => owed h + (c :: cs).count h) =
        fun h => (owed h + cs.count h) + [c].count h := by
      funext h
      simp only [List.count_cons, List.count_nil]
      omega
    rw [hsplit] at hJ
    obtain ⟨db₁, l₁, h₁, hi₁, hs₁, hd₁, hJ₁⟩ := h c (by simp) hi hw hfuel hJ
    have hrest : Keeps J G gone fuel cs fun db => cs.foldlM (fun db c => op c db) db :=
      keeps_foldlM fun x hx => h x (by simp [hx])
    obtain ⟨db₂, l₂, h₂, hi₂, hs₂, hd₂, hJ₂⟩ := hrest hi₁ (hw.mono hs₁.same hs₁.sub.subset)
      (hs₁.sub.length_le.trans_lt hfuel) hJ₁
    refine ⟨db₂, l₂, ?_, hi₂, hs₁.trans hs₂, hd₂.trans hd₁, hJ₂⟩
    dsimp only
    rw [List.foldlM_cons, h₁]
    exact h₂

/-! ## Recursive operations -/

theorem perm_childs (hiter : ∀ n l, (iter n l).Perm l) (node : CachedNode) (n : ℕ) :
    (node.childs (iter n)).Perm node.refs :=
  (hiter n _).append_right _

/-- A node is taken out of the list, its children are treated, and it is deleted. -/
theorem Linked.remove {fuel : ℕ} (hi : Linked gone l db) (hw : Within G db l)
    (hfuel : l.length < fuel + 1) (hf : Free G gone h) (hn : db.dirties.get h = some node)
    (hiter : ∀ n l, (iter n l).Perm l) (hJ : Blind J) (owed : Hash → ℕ)
    (howed : J (fun x => owed x + node.refs.count x) (l.erase h) db)
    {op : Hash → Database → Option Database}
    (hop : ∀ c, G h c → Keeps J G (h :: gone) fuel [c] (op c)) :
    ∃ db₁ db₂ l', db.unlink h node = some db₁ ∧
      (node.childs (iter db₁.iters)).foldlM (fun db c => op c db)
        { db₁ with iters := db₁.iters + 1 } = some db₂ ∧
      Linked gone l' (db₂.drop h node) ∧ Shrinks l l' db (db₂.drop h node) ∧
      db₂.disk = db.disk ∧ J owed l' (db₂.drop h node) := by
  have hl := hf.mem hi hn
  obtain ⟨db₁, hu, hd₁, hb₁, hi₁⟩ := hi.unlink hl hn
  -- the iteration over the children is counted
  let db₁' : Database := { db₁ with iters := db₁.iters + 1 }
  have hi₁' : Linked (h :: gone) (l.erase h) db₁' :=
    hi₁.congr (fun _ _ => rfl) (fun _ => rfl) rfl rfl
  have hb₁ : SameBodies db db₁' := hb₁
  have hs₁ := hb₁.agree (l.erase h)
  have hrefs : db.refsOf h = node.refs := by rw [refsOf, hn]; rfl
  have hperm := perm_childs hiter node db₁.iters
  have hcount : (fun x => owed x + node.refs.count x) =
      fun x => owed x + (node.childs (iter db₁.iters)).count x := by
    funext x
    rw [hperm.count_eq]
  rw [hcount] at howed
  have hlen : (l.erase h).length < fuel := by
    rw [List.length_erase_of_mem hl]
    have := List.length_pos_of_mem hl
    omega
  obtain ⟨db₂, l₂, hfold, hi₂, hs₂, hd₂, hJ₂⟩ := keeps_foldlM
    (fun c hc => hop c (hw h hl c (hrefs ▸ hperm.subset hc))) hi₁'
    (hw.mono hs₁.of_body List.erase_subset) hlen (hJ howed hs₁ hd₁)
  have hs₃ : Agree body l₂ db₂ (db₂.drop h node) :=
    agree_of_get (fun x hx => hi₂.get_drop node hx)
      (by rw [Database.drop, get_erase, if_neg (hi₂.gone h (by simp)).1.symm])
  refine ⟨db₁, db₂, l₂, hu, hfold, hi₂.drop (hf h .refl).2.1 node, ⟨hs₂.sub.trans List.erase_sublist,
    (hs₁.of_body.trans hs₂.same hs₂.sub.subset).trans hs₃.of_body (List.Subset.refl _), ?_⟩,
    hd₂.trans hd₁, hJ hJ₂ hs₃ rfl⟩
  have hsize : db₁'.dirtiesSize = db.dirtiesSize := (dirtiesSize_unlink hu :)
  have hbytes : db.bytesOf h = node.size.toNat := by rw [bytesOf, hn]; rfl
  have hbalance := hs₂.count
  rw [hsize, hs₁.of_body.weight] at hbalance
  rw [hs₃.of_body.weight, weight_erase db hl, hbytes]
  simp only [Database.drop]
  push_cast
  linarith

theorem rlp_dropChild (n : CachedNode) (child : Hash) : (dropChild n child).rlp = n.rlp := by
  unfold dropChild
  split
  · rfl
  · split_ifs <;> rfl

theorem dereference_keeps (hiter : ∀ n l, (iter n l).Perm l) (hJ : Owes J) : ∀ (fuel : ℕ)
    {gone : List Hash} {child parent : Hash}, (parent = .zero ∨ parent ∈ gone) →
    Free G gone child → Keeps J G gone fuel [child] (dereference iter fuel child parent)
  | 0, _, _, _, _, _, _, _, _, _, _, h, _ => by omega
  | fuel + 1, gone, child, parent, hparent, hf, db, l, owed, hi, hw, hfuel, howed => by
    have hpl : parent ∉ l := by
      rcases hparent with rfl | hp
      · exact hi.chain.notMem
      · exact (hi.gone parent hp).2
    obtain ⟨p, hp⟩ := hi.get_of_mem (hparent.imp id .inr)
    let db₁ : Database := { db with dirties := db.dirties.set parent (dropChild p child) }
    have hmod : db.modify parent (dropChild · child) = some db₁ := by rw [modify, hp]; rfl
    have hi₁ : Linked gone l db₁ := hi.set _ hp (fun hl => absurd hl hpl) rfl rfl rfl
    have hs₁ : Agree body l db db₁ :=
      agree_of_set hp rfl (fun hl => absurd hl hpl) (rlp_dropChild p child)
    have howed₁ := hJ.blind howed hs₁ rfl
    have hs₁ : Shrinks l l db db₁ := .of_same hs₁.of_body rfl
    rw [dereference, hmod]
    rcases hn : db₁.dirties.get child with _ | node
    · refine ⟨db₁, l, by simp only [hn], hi₁, hs₁, rfl, hJ.out howed₁ fun hl => ?_⟩
      obtain ⟨e, he⟩ := hi₁.get_of_mem (.inr (.inl hl))
      cases hn.symm.trans he
    simp only [hn]
    let db₂ : Database := { db₁ with dirties := db₁.dirties.set child (dropParent node) }
    have hi₂ : Linked gone l db₂ :=
      hi₁.set _ hn (fun _ => by rw [dropParent]; split_ifs <;> rfl) rfl rfl rfl
    have hs₂ : Agree content l db₁ db₂ := by
      refine agree_of_set hn rfl (fun _ => ?_) ?_ <;> rw [dropParent] <;> split_ifs <;> rfl
    have hs₁₂ := hs₁.trans (.of_same hs₂ rfl)
    have howed₂ : J owed l db₂ := hJ.pay howed₁ hn
    by_cases hz : (dropParent node).parents = 0
    · -- nobody references it any more
      have hn₂ : db₂.dirties.get child = some (dropParent node) := get_set_self ..
      obtain ⟨db₃, db₄, l₄, hu, hfold, hi₄, hs₄, hd₄, hJ₄⟩ := hi₂.remove
        (hw.mono hs₁₂.same (List.Subset.refl l)) hfuel hf hn₂ hiter hJ.blind owed
        (hJ.unlink howed₂ (hf.mem hi₂ hn₂) hn₂ hz) fun c hc =>
          dereference_keeps hiter hJ fuel (.inr (List.mem_cons_self ..)) (hf.step hc)
      refine ⟨db₄.drop child (dropParent node), l₄, ?_, hi₄, hs₁₂.trans hs₄, hd₄, hJ₄⟩
      rw [if_pos hz, show db₂.unlink child (dropParent node) = some db₃ from hu]
      simp only [hfold, Option.map_some]
    · exact ⟨db₂, l, by rw [if_neg hz], hi₂, hs₁₂, rfl, howed₂⟩

/-- `uncache` deletes nodes of a set `S` that is closed under references. -/
theorem uncache_keeps (hiter : ∀ n l, (iter n l).Perm l) (hK : Blind fun _ => K) {S : Hash → Prop}
    (hS : ∀ {p c}, S p → G p c → S c)
    (herase : ∀ {l db h}, K l db → h ∈ l → S h → K (l.erase h) db) : ∀ (fuel : ℕ)
    {gone : List Hash} {hash : Hash}, S hash → Free G gone hash →
    Keeps (fun _ => K) G gone fuel [hash] (uncache iter fuel hash)
  | 0, _, _, _, _, _, _, _, _, _, h, _ => by omega
  | fuel + 1, gone, hash, hs, hf, db, l, owed, hi, hw, hfuel, hk => by
    rcases hn : db.dirties.get hash with _ | node
    · exact ⟨db, l, by simp only [uncache, hn], hi, .of_same (.refl _ l db) rfl, rfl, hk⟩
    obtain ⟨db₁, db₂, l₂, hu, hfold, hi₂, hs₂, hd₂, hk₂⟩ := hi.remove hw hfuel hf hn hiter hK
      owed (herase hk (hf.mem hi hn) hs)
      fun c hc => uncache_keeps hiter hK hS herase fuel (hS hs hc) (hf.step hc)
    exact ⟨db₂.drop hash node, l₂, by simp only [uncache, hn, hu, hfold, Option.map_some], hi₂, hs₂,
      hd₂, hk₂⟩

/-! ## References -/

/-- The references between the nodes in memory. -/
def Refs (db : Database) (p c : Hash) : Prop := c ∈ db.refsOf p

theorem Refs.get {p c : Hash} (hr : db.Refs p c) : ∃ e, db.dirties.get p = some e := by
  refine Option.ne_none_iff_exists'.1 fun hnone => ?_
  rw [Refs, refsOf, hnone] at hr
  exact List.not_mem_nil hr

/-- No node below the given one is on a cycle of references. -/
def Acyclic (db : Database) (h : Hash) : Prop :=
  ∀ x, ReflTransGen db.Refs h x → ¬ TransGen db.Refs x x

theorem Listed.mem_of_refs (hi : Listed time l db) {p c : Hash} (hr : db.Refs p c)
    (hp : p ≠ .zero) : p ∈ l := by
  simpa [hp] using (hi.mem p).1 ((has_eq_true _ _).2 hr.get)

theorem Listed.ne_zero (hi : Listed time l db) {x : Hash} (hz : h ≠ .zero)
    (hx : ReflTransGen db.Refs h x) : x ≠ .zero := by
  induction hx with
  | refl => exact hz
  | tail _ hr ih =>
    rintro rfl
    exact hi.refs _ (hi.mem_of_refs hr ih) hr

theorem Listed.free (hi : Listed time l db) (hz : h ≠ .zero) (ha : db.Acyclic h) :
    Free db.Refs [] h :=
  fun x hx => ⟨hi.ne_zero hz hx, List.not_mem_nil, ha x hx⟩

theorem Linked.length_lt_size (hi : Linked [] l db) : l.length < db.dirties.size := by
  have hnd : (Hash.zero :: l).Nodup := List.nodup_cons.2 ⟨hi.chain.notMem, hi.chain.nodup⟩
  have hsub : Hash.zero :: l ⊆ db.dirties.keys := fun h hh =>
    (mem_keys _ _).2 (hi.get_of_mem ((List.mem_cons.1 hh).imp id .inl))
  have := (hnd.subperm hsub).length_le
  rw [length_keys, List.length_cons] at this
  omega

theorem Listed.dereferenceRoot (hi : Listed time l db) (hiter : ∀ n l, (iter n l).Perm l)
    (hJ : Owes J) (owed : Hash → ℕ) {root : Hash} (ha : root ≠ .zero → db.Acyclic root)
    (howed : J (fun h => owed h + [root].count h) l db) :
    ∃ db' l', db.dereferenceRoot iter root = some db' ∧ Listed time l' db' ∧
      Shrinks l l' db db' ∧ db'.disk = db.disk ∧ J owed l' db' := by
  by_cases hz : root = .zero
  · exact ⟨db, l, by rw [Database.dereferenceRoot, if_pos hz], hi, .of_same (.refl _ l db) rfl, rfl,
      hJ.out howed (hz ▸ hi.chain.notMem)⟩
  have hsize := hi.length_lt_size
  obtain ⟨db', l', hd, hlinked, hs, hrest⟩ := dereference_keeps hiter hJ (db.dirties.size + 1)
    (.inl rfl) (hi.free hz (ha hz)) hi.toLinked (fun p _ c hc => hc) (by omega) howed
  exact ⟨db', l', by rw [Database.dereferenceRoot, if_neg hz]; exact hd, hi.shrink hlinked hs, hs,
    hrest⟩

/-! ## Commit -/

/-- The disk once everything in the batches is written. -/
def after (db : Database) (b : Batch) : Disk := db.disk.write b.all

/-- A node can be put into the batches once the nodes of the list that it references are in
    them. -/
structure Writes (db : Database) (l : List Hash) (P : Batch → Prop) (Done : Batch → Hash → Prop) :
    Prop where
  start : ∀ iter, P (putPreimages iter db {})
  mono : ∀ {b x} (p : Put), Done b x → Done (b.add p) x
  add : ∀ {h : Hash} {node blob b}, h ∈ l → db.dirties.get h = some node → node.rlp = some blob →
    P b → (∀ c ∈ node.refs, c ∈ l → Done b c) →
    P (b.add ⟨h, blob, node.refs⟩) ∧ Done (b.add ⟨h, blob, node.refs⟩) h

variable {P : Batch → Prop} {Done : Batch → Hash → Prop}

/-- `commit` returns, since on its way down it meets no node twice, and it puts a node into
    the batches after everything below it. -/
theorem commitNode_writes (hiter : ∀ n l, (iter n l).Perm l) (hi : Listed time l db)
    (hw : Writes db l P Done) : ∀ (fuel : ℕ) {path : List Hash} {hash : Hash} (b : Batch) (n : ℕ),
      path.Nodup → path ⊆ l → Free db.Refs path hash → l.length < fuel + path.length → P b →
      ∃ b' n', commitNode iter db fuel hash (b, n) = some (b', n') ∧ P b' ∧
        (∀ x, Done b x → Done b' x) ∧ ∀ x ∈ l, ReflTransGen db.Refs hash x → Done b' x
  | 0, path, hash, b, n, hnd, hsub, hf, hfuel, hP => by
    have := (hnd.subperm hsub).length_le
    omega
  | fuel + 1, path, hash, b, n, hnd, hsub, hf, hfuel, hP => by
    rcases hn : db.dirties.get hash with _ | node
    · refine ⟨b, n, by simp only [commitNode, hn], hP, fun _ => id, fun x hx hr => ?_⟩
      obtain ⟨e, he⟩ : ∃ e, db.dirties.get hash = some e := by
        rcases hr.cases_head with rfl | ⟨c, hc, -⟩
        · exact hi.get_of_mem (.inr (.inl hx))
        · exact hc.get
      cases hn.symm.trans he
    have hl : hash ∈ l := by
      have := (hi.mem hash).1 ((has_eq_true _ _).2 ⟨node, hn⟩)
      simpa [(hf hash .refl).1] using this
    have hrefs : db.refsOf hash = node.refs := by rw [refsOf, hn]; rfl
    have hloop : ∀ (cs : List Hash) (b : Batch) (n : ℕ), (∀ c ∈ cs, c ∈ node.refs) → P b →
        ∃ b' n', cs.foldlM (fun st c => commitNode iter db fuel c st) (b, n) = some (b', n') ∧
          P b' ∧ (∀ x, Done b x → Done b' x) ∧
          ∀ c ∈ cs, ∀ x ∈ l, ReflTransGen db.Refs c x → Done b' x := by
      intro cs
      induction cs with
      | nil => exact fun b n _ hP => ⟨b, n, rfl, hP, fun _ => id, by simp⟩
      | cons c cs ih =>
        intro b n hcs hP
        obtain ⟨b₁, n₁, h₁, hP₁, hmono₁, hdone₁⟩ := commitNode_writes hiter hi hw fuel b n
          (List.nodup_cons.2 ⟨(hf hash .refl).2.1, hnd⟩) (List.cons_subset.2 ⟨hl, hsub⟩)
          (hf.step (show c ∈ _ from hrefs ▸ hcs c (by simp))) (by rw [List.length_cons]; omega) hP
        obtain ⟨b₂, n₂, h₂, hP₂, hmono₂, hdone₂⟩ := ih b₁ n₁ (fun x hx => hcs x (by simp [hx])) hP₁
        refine ⟨b₂, n₂, by rw [List.foldlM_cons, h₁]; exact h₂, hP₂,
          fun x hx => hmono₂ x (hmono₁ x hx), List.forall_mem_cons.2 ⟨fun x hx hr => ?_, hdone₂⟩⟩
        exact hmono₂ x (hdone₁ x hx hr)
    have hperm := perm_childs hiter node n
    obtain ⟨b₁, n₁, h₁, hP₁, hmono₁, hdone₁⟩ := hloop (node.childs (iter n)) b (n + 1)
      (fun c hc => hperm.subset hc) hP
    obtain ⟨blob, hblob⟩ := hi.rlp hash hl
    rw [rlpOf, hn, Option.elim] at hblob
    obtain ⟨hP₂, hdone₂⟩ := hw.add hl hn hblob hP₁ fun c hc hcl =>
      hdone₁ c (hperm.symm.subset hc) c hcl .refl
    refine ⟨b₁.add ⟨hash, blob, node.refs⟩, n₁,
      by simp only [commitNode, hn, h₁, hblob, Option.map_some], hP₂,
      fun x hx => hw.mono _ (hmono₁ x hx), fun x hx hr => ?_⟩
    rcases hr.cases_head with rfl | ⟨c, hc, hcx⟩
    · exact hdone₂
    · exact hw.mono _ (hdone₁ c (hperm.symm.subset (hrefs ▸ hc)) x hx hcx)

theorem Listed.commit (hi : Listed time l db) (hiter : ∀ n l, (iter n l).Perm l)
    (hz : hash ≠ .zero) (ha : db.Acyclic hash) (hw : Writes db l P Done) (hK : Blind fun _ => K)
    (hstart : ∀ {b db₁}, P b → (∀ x ∈ l, ReflTransGen db.Refs hash x → Done b x) →
      db₁.dirties = db.dirties → db₁.disk = db.after b → K l db₁)
    (herase : ∀ {l db' h}, K l db' → h ∈ l → ReflTransGen db.Refs hash h → K (l.erase h) db') :
    ∃ b n db' l', commitFlush iter db hash = some (b.write.written, n) ∧ P b ∧
      db.commit iter hash = some db' ∧ Listed time l' db' ∧ Shrinks l l' db db' ∧
      db'.disk = db.after b ∧ K l' db' := by
  have hsize := hi.length_lt_size
  have hf := hi.free hz ha
  obtain ⟨b, n, hcommit, hP, -, hdone⟩ := commitNode_writes hiter hi hw (db.dirties.size + 1)
    (putPreimages iter db {}) (db.iters + 1) List.nodup_nil (List.nil_subset l) hf
    (by simp; omega) (hw.start iter)
  have hflush : commitFlush iter db hash = some (b.write.written, n) := by
    rw [commitFlush, hcommit]; rfl
  let db₁ : Database :=
    { db with disk := db.disk.write b.write.written.flatten, iters := n, preimages := .empty,
              preimagesSize := 0 }
  have hdisk : db₁.disk = db.after b := by simp only [db₁, b.flatten_written, after]
  have hi₁ : Linked [] l db₁ := hi.toLinked.congr (fun _ _ => rfl) (fun _ => rfl) rfl rfl
  have hkeeps := uncache_keeps hiter hK (S := ReflTransGen db.Refs hash)
    (fun hp hc => hp.tail hc) herase (db.dirties.size + 1) .refl hf
  obtain ⟨db', l', hu, hlinked, hs, hd, hk⟩ := @hkeeps db₁ l (fun _ => 0) hi₁
    (fun p _ c hc => hc) (by omega) (hstart hP hdone rfl hdisk)
  have hs : Shrinks l l' db db' := ⟨hs.sub, ⟨hs.same.nodes, hs.same.root⟩, hs.count⟩
  exact ⟨b, n, db', l', hflush, hP, by rw [Database.commit, hflush]; exact hu,
    hi.shrink hlinked hs, hs, hd.trans hdisk, hk⟩

theorem Listed.commitFlush_zero (hi : Listed time l db) : commitFlush iter db .zero = none := by
  obtain ⟨e, he⟩ := hi.get_of_mem (h := .zero) (.inl rfl)
  have hrlp := hi.root
  rw [rlpOf, he, Option.elim] at hrlp
  rw [commitFlush, commitNode, he]
  simp only [hrlp, Option.map_none]
  split <;> rfl

/-! ## Cap -/

/-- `P xs b` holds of the batches `b` that have the nodes `xs` from the front of the list, if
    it holds at the start. -/
def Extends (l : List Hash) (db : Database) (P : List Hash → Batch → Prop) : Prop :=
  ∀ {xs ys : List Hash} {y : Hash} {node blob b}, l = xs ++ y :: ys →
    db.dirties.get y = some node → node.rlp = some blob → P xs b →
    P (xs ++ [y]) (b.add ⟨y, blob, node.refs⟩)

/-- The loop of `Cap` goes along the list. -/
theorem Listed.capLoop (hi : Listed time l db) (limit : ℤ) {P : List Hash → Batch → Prop}
    (hadd : Extends l db P) :
    ∀ (ys xs : List Hash) (fuel : ℕ) (size : ℤ) (b : Batch), l = xs ++ ys → ys.length < fuel →
      P xs b → ∃ zs ws b', capLoop db limit fuel size (ys.headD .zero) b
        = some (ws.headD .zero, b') ∧ ys = zs ++ ws ∧ P (xs ++ zs) b'
  | [], xs, fuel + 1, size, b, hl, _, hP =>
    ⟨[], [], b, by simp [Database.capLoop], rfl, by simpa using hP⟩
  | y :: ys, xs, fuel + 1, size, b, hl, hfuel, hP => by
    have hy : y ∈ l := by simp [hl]
    have hyz : y ≠ .zero := fun h => hi.chain.notMem (h ▸ hy)
    by_cases hsize : size > limit
    · obtain ⟨node, hn⟩ := hi.get_of_mem (h := y) (.inr (.inl hy))
      obtain ⟨blob, hblob⟩ := hi.rlp y hy
      rw [rlpOf, hn, Option.elim] at hblob
      have hnext : node.flushNext = ys.headD .zero := by
        rw [← next_of_get hn]
        have := hi.chain
        rw [hl] at this
        exact this.next_append
      obtain ⟨zs, ws, b', hcap, hys, hP''⟩ := hi.capLoop limit hadd ys (xs ++ [y]) fuel
        (size - (3 * 32 + node.size.toNat : ℕ)) _ (by simp [hl]) (by simpa using hfuel)
        (hadd hl hn hblob hP)
      refine ⟨y :: zs, ws, b', ?_, by simp [hys], by simpa using hP''⟩
      rw [Database.capLoop, List.headD_cons, if_pos ⟨hsize, hyz⟩, hn]
      simp only [hblob, hnext]
      exact hcap
    · exact ⟨[], y :: ys, b, by simp [Database.capLoop, hsize], rfl, by simpa using hP⟩

theorem Linked.drop_first {z : Hash} (hi : Linked [] (z :: l) db)
    (hn : db.dirties.get z = some node) (hd : db'.dirties = db.dirties.erase z)
    (hold : db'.oldest = node.flushNext) (hnew : db'.newest = db.newest) :
    Linked [] l db' ∧ ∀ h, h ∈ l ∨ h = .zero → db'.dirties.get h = db.dirties.get h := by
  have hzl : z ∉ l := (List.nodup_cons.1 hi.chain.nodup).1
  have hget : ∀ h, h ∈ l ∨ h = .zero → db'.dirties.get h = db.dirties.get h := fun h hh => by
    rw [hd, get_erase, if_neg]
    rintro rfl
    rcases hh with hh | rfl
    · exact hzl hh
    · exact hi.chain.notMem (by simp)
  refine ⟨⟨?_, fun h => ?_, by simp⟩, hget⟩
  · have := hi.chain.tail
    rw [next_of_get hn, ← hold, ← hnew] at this
    exact this.congr (fun a ha => by rw [next, hget a (.inl ha)]; rfl)
      fun a ha => by rw [prev, hget a (.inl (List.mem_of_mem_tail ha))]; rfl
  · have h₁ := hi.mem h
    rw [List.mem_cons] at h₁
    rw [has, hd, get_erase]
    split_ifs with hc
    · subst hc
      have hne : h ≠ .zero := fun h0 => hi.chain.notMem (by simp [h0])
      simp [hzl, hne]
    · rw [← has, h₁]
      simp [hc]

/-- The loop of `Cap` that deletes the written nodes. -/
theorem Linked.capClean {ws : List Hash} : ∀ (zs : List Hash) (fuel : ℕ) {db : Database},
    Linked [] (zs ++ ws) db → zs.length < fuel →
    ∃ db', capClean (ws.headD .zero) fuel db = some db' ∧ Linked [] ws db' ∧
      db'.disk = db.disk ∧ db'.dirtiesSize = db.dirtiesSize - db.weight zs ∧
      ∀ h, h ∈ ws ∨ h = .zero → db'.dirties.get h = db.dirties.get h
  | [], fuel + 1, db, hi, _ => by
    have hold : db.oldest = ws.headD .zero := hi.chain.head
    exact ⟨db, by rw [Database.capClean, if_neg (not_not.2 hold)], hi, rfl,
      by simp [weight], fun _ _ => rfl⟩
  | z :: zs, fuel + 1, db, hi, hfuel => by
    obtain ⟨node, hn⟩ := hi.get_of_mem (h := z) (by simp)
    have hold : db.oldest = z := hi.chain.head
    have hnd := List.nodup_cons.1 hi.chain.nodup
    have hne : db.oldest ≠ ws.headD .zero := by
      rw [hold]
      cases ws with
      | nil => exact fun h0 => hi.chain.notMem (by rw [show Hash.zero = z from h0.symm]; simp)
      | cons w ws => rintro rfl; simp at hnd
    let db₁ : Database := { db.drop z node with oldest := node.flushNext }
    obtain ⟨hi₁, hget₁⟩ : Linked [] (zs ++ ws) db₁ ∧ _ := hi.drop_first hn rfl rfl rfl
    obtain ⟨db', hc, hi', hd, hsize, hget⟩ := Linked.capClean zs fuel hi₁ (by simpa using hfuel)
    refine ⟨db', ?_, hi', hd, ?_, fun h hh => (hget h hh).trans (hget₁ h ?_)⟩
    · rw [Database.capClean, if_pos hne, hold, hn]
      exact hc
    · have hs : Agree content zs db db₁ :=
        agree_of_get (fun h hh => hget₁ h (.inl (by simp [hh]))) (hget₁ .zero (.inr rfl))
      rw [hsize, hs.weight, weight_cons, bytesOf, hn]
      simp only [db₁, Database.drop, Option.elim]
      push_cast
      ring
    · exact hh.imp (fun h => by simp [h]) id

theorem Linked.capFinish {zs ws : List Hash} (hi : Linked [] (zs ++ ws) db) :
    ∃ db', db.capFinish (ws.headD .zero) = some db' ∧ Linked [] ws db' ∧ db'.disk = db.disk ∧
      db'.dirtiesSize = db.dirtiesSize - db.weight zs ∧ Agree body ws db db' := by
  -- the preimages are forgotten
  let db₁ : Database := if db.capPreimages then { db with preimages := .empty, preimagesSize := 0 }
    else db
  have hdirt : db₁.dirties = db.dirties := by simp only [db₁]; split_ifs <;> rfl
  have hdisk : db₁.disk = db.disk := by simp only [db₁]; split_ifs <;> rfl
  have hcount : db₁.dirtiesSize = db.dirtiesSize := by simp only [db₁]; split_ifs <;> rfl
  have hi₁ : Linked [] (zs ++ ws) db₁ := by simp only [db₁]; split_ifs <;> exact ⟨hi.1, hi.2, hi.3⟩
  have hsize := hi₁.length_lt_size
  obtain ⟨db₂, hclean, hi₂, hd₂, hs₂, hget₂⟩ := Linked.capClean zs (db₁.dirties.size + 1) hi₁
    (by rw [List.length_append] at hsize; omega)
  have hw : db₁.weight zs = db.weight zs :=
    (agree_of_get (fun _ _ => by rw [hdirt]) (by rw [hdirt]) : Agree content zs db db₁).weight
  rw [hcount, hw] at hs₂
  have hfin : db.capFinish (ws.headD .zero) = if db₂.oldest ≠ .zero then
      db₂.modify db₂.oldest fun e => { e with flushPrev := .zero } else some db₂ := by
    unfold Database.capFinish
    simp only [db₁] at hclean
    simp only [hclean]
  rw [hdirt] at hget₂
  have hbody : Agree body ws db db₂ :=
    agree_of_get (fun h hh => hget₂ h (.inl hh)) (hget₂ .zero (.inr rfl))
  by_cases hz : db₂.oldest = .zero
  · exact ⟨db₂, by rw [hfin, if_neg (not_not.2 hz)], hi₂, hd₂.trans hdisk, hs₂, hbody⟩
  · -- the first node that stays has nothing before it
    cases ws with
    | nil => exact absurd (hi₂.chain.first_eq_null.2 rfl) hz
    | cons w ws =>
      obtain rfl : db₂.oldest = w := hi₂.chain.head
      obtain ⟨e, he⟩ := hi₂.get_of_mem (h := db₂.oldest) (by simp)
      let db₃ : Database :=
        { db₂ with dirties := db₂.dirties.set db₂.oldest { e with flushPrev := .zero } }
      have hd₃ : db₃.dirties = db₂.dirties.set db₂.oldest { e with flushPrev := .zero } := rfl
      have hb : SameBodies db₂ db₃ := sameBodies_of_set hd₃ he rfl
      refine ⟨db₃, ?_, ⟨chain_set_first hi₂.chain he hd₃, fun h => ?_, by simp⟩, hd₂.trans hdisk,
        hs₂, hbody.trans (hb.agree _) (List.Subset.refl _)⟩
      · rw [hfin, if_pos hz, modify, he]
        rfl
      · rw [has_of_map (hb h)]
        exact hi₂.mem h

theorem Listed.cap (hi : Listed time l db) (iter : ℕ → List Hash → List Hash) (limit : ℤ)
    {P : List Hash → Batch → Prop}
    (hstart : P [] (if db.capPreimages then putPreimages iter db {} else {}))
    (hadd : Extends l db P) :
    ∃ zs ws b db', l = zs ++ ws ∧ P zs b ∧
      capFlush iter db limit = some (ws.headD .zero, b.write.written) ∧
      db.cap iter limit = some db' ∧ Listed time ws db' ∧ Shrinks l ws db db' ∧
      db'.disk = db.after b ∧ Agree body ws db db' := by
  have hsize := hi.length_lt_size
  obtain ⟨zs, ws, b, hloop, hl, hP⟩ := hi.capLoop limit hadd l [] (db.dirties.size + 1) db.totalSize
    _ rfl (by omega) hstart
  rw [← hi.chain.head] at hloop
  have hflush : capFlush iter db limit = some (ws.headD .zero, b.write.written) := by
    rw [capFlush]
    simp only [hloop, Option.map_some]
  let db₁ : Database :=
    { db with disk := db.disk.write b.write.written.flatten, iters := db.iters + 1 }
  have hi₁ : Linked [] (zs ++ ws) db₁ :=
    hl ▸ hi.toLinked.congr (fun _ _ => rfl) (fun _ => rfl) rfl rfl
  obtain ⟨db₂, hfin, hlinked, hdisk, hcount, hbody⟩ := hi₁.capFinish
  have hbody : Agree body ws db db₂ := ⟨hbody.nodes, hbody.root⟩
  have hs : Shrinks l ws db db₂ := by
    refine ⟨hl ▸ List.sublist_append_right zs ws, hbody.of_body, ?_⟩
    have hcount : db₂.dirtiesSize = db.dirtiesSize - db.weight zs := hcount
    rw [hcount, hbody.of_body.weight, hl, weight_append]
    ring
  exact ⟨zs, ws, b, db₂, hl, hP, hflush, by rw [Database.cap, hflush]; exact hfin,
    hi.shrink hlinked hs, hs, hdisk.trans (by simp only [db₁, b.flatten_written, after]), hbody⟩

end GoEthereum.Trie.Database
