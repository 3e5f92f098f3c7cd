/-
  The flush list of the node database.

  The nodes in memory are linked in the order of their insertion (`Linked`).  While nodes
  are deleted some are out of the list already but still in memory (`gone`).  `Agree s`
  says that the nodes of the list are what they were as far as `s` shows them: up to their
  places in the list (`body`), or up to their counters too (`content`).
-/
import GoEthereum.Lib.LinkedList
import GoEthereum.Trie.Database

namespace GoEthereum.Trie

open GoEthereum.Rlp LinkedList AssocMap

/-! ## The disk -/

namespace Disk

/-- There is something under the hash. -/
def Has (d : Disk) (h : Hash) : Prop := ∃ p ∈ d, p.key = h

/-- Every write comes after those of the nodes it references. -/
def Ordered : Disk → Prop
  | [] => True
  | p :: d => (∀ c ∈ p.refs, Has d c) ∧ Ordered d

/-- Every node on disk has all the nodes it references on disk. -/
def Closed (d : Disk) : Prop := ∀ p ∈ d, ∀ c ∈ p.refs, d.Has c

variable {d : Disk} {h : Hash} {p : Put} {ps : List Put}

theorem Has.write (hd : d.Has h) (ps : List Put) : (d.write ps).Has h := by
  obtain ⟨p, hp, hk⟩ := hd
  exact ⟨p, List.mem_append.2 (.inr hp), hk⟩

theorem has_write_of_mem (hp : p ∈ ps) (hk : p.key = h) : (d.write ps).Has h :=
  ⟨p, List.mem_append.2 (.inl (List.mem_reverse.2 hp)), hk⟩

theorem write_append (d : Disk) (ps qs : List Put) :
    d.write (ps ++ qs) = (d.write ps).write qs := by
  simp [write]

theorem Ordered.closed (hd : d.Ordered) : d.Closed := by
  induction d with
  | nil => intro p hp; cases hp
  | cons q d ih =>
    obtain ⟨hq, hd⟩ := hd
    intro p hp c hc
    have hc' : Has d c := by
      rcases List.mem_cons.1 hp with rfl | hp
      · exact hq c hc
      · exact ih hd p hp c hc
    exact hc'.write [q]

/-- The number of the first write under the hash, and zero if there is none. -/
def age : Disk → Hash → ℕ
  | [], _ => 0
  | p :: d, h => if age d h = 0 ∧ p.key = h then d.length + 1 else age d h

theorem age_le (d : Disk) (h : Hash) : d.age h ≤ d.length := by
  induction d with
  | nil => exact le_rfl
  | cons p d ih =>
    rw [age, List.length_cons]
    split_ifs <;> omega

theorem age_pos (d : Disk) (h : Hash) : 0 < d.age h ↔ d.Has h := by
  induction d with
  | nil => simp [age, Has]
  | cons p d ih =>
    rw [age, Has, List.exists_mem_cons_iff, ← Has, ← ih]
    split_ifs with hp
    · exact iff_of_true (Nat.succ_pos _) (.inl hp.2)
    · refine ⟨.inr, fun h => h.elim (fun hk => ?_) id⟩
      exact Nat.pos_of_ne_zero fun h0 => hp ⟨h0, hk⟩

/-- In the order of the writes, a node comes after its children. -/
theorem Ordered.age_lt (hd : d.Ordered) {children : List Hash}
    (hrefs : ∀ p ∈ d, p.key = h → children ⊆ p.refs) (hh : d.Has h) :
    ∀ c ∈ children, 0 < d.age c ∧ d.age c < d.age h := by
  intro c hc
  induction d with
  | nil => exact absurd ((age_pos [] h).2 hh) (lt_irrefl 0)
  | cons p d ih =>
    have hpos := (age_pos _ h).2 hh
    rw [age] at hpos
    rw [age, age]
    by_cases h0 : age d h = 0
    · -- this is the first write
      have hk : p.key = h := by
        by_contra hk
        rw [if_neg fun h => hk h.2, h0] at hpos
        exact lt_irrefl 0 hpos
      have hold := (age_pos d c).2 (hd.1 c (hrefs p List.mem_cons_self hk hc))
      have hle := age_le d c
      rw [if_neg fun h => hold.ne' h.1, if_pos ⟨h0, hk⟩]
      omega
    · obtain ⟨h₁, h₂⟩ := ih hd.2 (fun q hq => hrefs q (List.mem_cons_of_mem _ hq))
        ((age_pos d h).1 (Nat.pos_of_ne_zero h0))
      rw [if_neg fun h => h₁.ne' h.1, if_neg fun h => h0 h.1]
      exact ⟨h₁, h₂⟩

theorem Ordered.put (hd : d.Ordered) (hp : ∀ c ∈ p.refs, d.Has c) : (d.write [p]).Ordered :=
  ⟨hp, hd⟩

theorem Ordered.of_append : ∀ {ps : List Put}, Ordered (ps ++ d) → d.Ordered
  | [], h => h
  | _ :: _, h => Ordered.of_append h.2

theorem Ordered.take (hd : (d.write ps).Ordered) {qs : List Put} (hq : qs <+: ps) :
    (d.write qs).Ordered := by
  obtain ⟨rs, rfl⟩ := hq
  rw [write_append] at hd
  exact hd.of_append

end Disk

namespace Batch

/-- Everything put into the batch and those before it, in order. -/
def all (b : Batch) : List Put := b.written.flatten ++ b.puts

theorem all_put (b : Batch) (p : Put) : (b.put p).all = b.all ++ [p] := by simp [all, put]

theorem all_write (b : Batch) : b.write.all = b.all := by simp [all, write]

theorem flatten_written (b : Batch) : b.write.written.flatten = b.all := by simp [all, write]

theorem all_add (b : Batch) (p : Put) : (b.add p).all = b.all ++ [p] := by
  unfold add
  dsimp only
  split_ifs
  · rw [all_write, all_put]
  · rw [all_put]

end Batch

namespace Database

/-! ## What is read of a node -/

/-- `flushNext` -/
def next (db : Database) (h : Hash) : Hash := (db.dirties.get h).elim .zero (·.flushNext)

/-- `flushPrev` -/
def prev (db : Database) (h : Hash) : Hash := (db.dirties.get h).elim .zero (·.flushPrev)

/-- The hashes a node references. -/
def refsOf (db : Database) (h : Hash) : List Hash := (db.dirties.get h).elim [] (·.refs)

/-- `parents` -/
def parentsOf (db : Database) (h : Hash) : ℕ := (db.dirties.get h).elim 0 (·.parents.toNat)

/-- The encoding of a node in memory. -/
def rlpOf (db : Database) (h : Hash) : Option Bytes := (db.dirties.get h).elim none (·.rlp)

/-- `size` -/
def bytesOf (db : Database) (h : Hash) : ℕ := (db.dirties.get h).elim 0 (·.size.toNat)

/-- The sizes of the nodes of a list, with their hashes. -/
def weight (db : Database) (l : List Hash) : ℤ := (l.map fun h => (32 + db.bytesOf h : ℤ)).sum

/-- The number of references to a node from the nodes of a list. -/
def refCount (db : Database) (l : List Hash) (h : Hash) : ℕ := (l.flatMap db.refsOf).count h

variable {db db' : Database} {l l' : List Hash} {h : Hash}

theorem refCount_append (db : Database) (l l' : List Hash) (h : Hash) :
    db.refCount (l ++ l') h = db.refCount l h + db.refCount l' h := by
  simp [refCount]

theorem refCount_singleton (db : Database) (p h : Hash) :
    db.refCount [p] h = (db.refsOf p).count h := by simp [refCount]

theorem refCount_erase (db : Database) {p : Hash} (hp : p ∈ l) (h : Hash) :
    db.refCount l h = (db.refsOf p).count h + db.refCount (l.erase p) h := by
  rw [refCount, ((List.perm_cons_erase hp).flatMap_right _).count_eq, List.flatMap_cons,
    List.count_append, refCount]

theorem refCount_congr (hr : ∀ p ∈ l, db'.refsOf p = db.refsOf p) (h : Hash) :
    db'.refCount l h = db.refCount l h := by
  rw [refCount, List.flatMap_congr hr, refCount]

@[simp]
theorem weight_cons (db : Database) (h : Hash) (l : List Hash) :
    db.weight (h :: l) = 32 + db.bytesOf h + db.weight l := by simp [weight]

theorem weight_append (db : Database) (l l' : List Hash) :
    db.weight (l ++ l') = db.weight l + db.weight l' := by simp [weight]

theorem weight_erase (db : Database) (hh : h ∈ l) :
    db.weight l = 32 + db.bytesOf h + db.weight (l.erase h) := by
  rw [← weight_cons]
  exact ((List.perm_cons_erase hh).map _).sum_eq

theorem refCount_pos {p : Hash} (hp : p ∈ l) (hc : h ∈ db.refsOf p) : 0 < db.refCount l h :=
  List.count_pos_iff.2 (List.mem_flatMap.2 ⟨p, hp, hc⟩)

theorem refCount_eq_zero (hr : ∀ p ∈ l, h ∉ db.refsOf p) : db.refCount l h = 0 :=
  List.count_eq_zero.2 fun hc => by
    obtain ⟨p, hp, hc⟩ := List.mem_flatMap.1 hc
    exact hr p hp hc

/-! ## The list -/

/-- The flush list is `l`, and it has all nodes in memory but the meta-root and those in
    `gone`, which are about to be deleted. -/
structure Linked (gone l : List Hash) (db : Database) : Prop where
  chain : Chain .zero db.next db.prev db.oldest db.newest l
  mem : ∀ h, db.dirties.has h = true ↔ h = .zero ∨ h ∈ l ∨ h ∈ gone
  gone : ∀ h ∈ gone, h ≠ .zero ∧ h ∉ l

theorem linked_new (disk : Disk) : Linked [] [] (.new disk) where
  chain := .empty
  mem h := by
    rw [has_eq_true]
    simp only [Database.new, get_set, List.not_mem_nil, or_false]
    constructor
    · rintro ⟨b, hb⟩
      by_contra hne
      simp [hne] at hb
    · rintro rfl
      exact ⟨{}, by simp⟩
  gone := by simp

theorem Linked.get_of_mem {gone : List Hash} (hi : Linked gone l db)
    (hh : h = .zero ∨ h ∈ l ∨ h ∈ gone) : ∃ e, db.dirties.get h = some e :=
  (has_eq_true _ _).1 ((hi.mem h).2 hh)

/-! ## Entries that stay what they are -/

/-- An entry without its place in the list. -/
def body (e : CachedNode) : CachedNode := { e with flushPrev := .zero, flushNext := .zero }

/-- What is read of an entry beside its counter and its place in the list. -/
def content (e : CachedNode) : List Hash × Option Bytes × UInt16 := (e.refs, e.rlp, e.size)

/-- The place of an entry in the list. -/
def links (e : CachedNode) : Hash × Hash := (e.flushNext, e.flushPrev)

/-- The nodes of the list are the same as far as `s` shows them, and so is the encoding of
    the meta-root, which has none. -/
structure Agree {γ : Type} (s : CachedNode → γ) (l : List Hash) (db db' : Database) : Prop where
  nodes : ∀ h ∈ l, (db'.dirties.get h).map s = (db.dirties.get h).map s
  root : db'.rlpOf .zero = db.rlpOf .zero

section
variable {γ : Type} {s : CachedNode → γ} {db'' : Database}

theorem Agree.refl (s : CachedNode → γ) (l : List Hash) (db : Database) : Agree s l db db :=
  ⟨fun _ _ => rfl, rfl⟩

theorem Agree.trans (h₁ : Agree s l db db') (h₂ : Agree s l' db' db'') (hl : l' ⊆ l) :
    Agree s l' db db'' :=
  ⟨fun h hh => (h₂.nodes h hh).trans (h₁.nodes h (hl hh)), h₂.root.trans h₁.root⟩

theorem agree_of_get (hl : ∀ h ∈ l, db'.dirties.get h = db.dirties.get h)
    (hz : db'.dirties.get .zero = db.dirties.get .zero) : Agree s l db db' :=
  ⟨fun h hh => by rw [hl h hh], by rw [rlpOf, hz]; rfl⟩

theorem agree_of_set {e e' : CachedNode} (he : db.dirties.get h = some e)
    (hd : db'.dirties = db.dirties.set h e') (hs : h ∈ l → s e' = s e) (hr : e'.rlp = e.rlp) :
    Agree s l db db' where
  nodes x hx := by
    rw [hd]
    exact map_get_set _ he fun hxh => hs (hxh ▸ hx)
  root := by
    rw [rlpOf, hd]
    exact elim_of_map (map_get_set _ he fun _ => hr) id none

theorem Agree.of_body (hs : Agree body l db db') : Agree content l db db' :=
  ⟨fun h hh => by
    have := congrArg (Option.map content) (hs.nodes h hh)
    rwa [Option.map_map, Option.map_map] at this, hs.root⟩

variable {x : Hash} (hs : Agree content l db db') (hx : x ∈ l)
include hs hx

theorem Agree.refs : db'.refsOf x = db.refsOf x := elim_of_map (hs.nodes x hx) (·.1) []

theorem Agree.rlp : db'.rlpOf x = db.rlpOf x := elim_of_map (hs.nodes x hx) (·.2.1) none

theorem Agree.bytes : db'.bytesOf x = db.bytesOf x := elim_of_map (hs.nodes x hx) (·.2.2.toNat) 0

end

theorem Agree.parents (hs : Agree body l db db') (hh : h ∈ l) : db'.parentsOf h = db.parentsOf h :=
  elim_of_map (hs.nodes h hh) (·.parents.toNat) 0

theorem Agree.weight (hs : Agree content l db db') : db'.weight l = db.weight l := by
  unfold Database.weight
  congr 1
  exact List.map_congr_left fun h hh => by rw [hs.bytes hh]

theorem Agree.refCount (hs : Agree content l db db') (h : Hash) :
    db'.refCount l h = db.refCount l h :=
  refCount_congr (fun _ hp => hs.refs hp) h

variable {gone : List Hash}

theorem Linked.congr (hi : Linked gone l db)
    (hl : ∀ h ∈ l, (db'.dirties.get h).map links = (db.dirties.get h).map links)
    (hm : ∀ h, db'.dirties.has h = db.dirties.has h) (ho : db'.oldest = db.oldest)
    (hn : db'.newest = db.newest) : Linked gone l db' where
  chain := by
    rw [ho, hn]
    exact hi.chain.congr (fun a ha => elim_of_map (hl a ha) Prod.fst .zero)
      fun a ha => elim_of_map (hl a (List.mem_of_mem_tail ha)) Prod.snd .zero
  mem h := by
    rw [hm h]
    exact hi.mem h
  gone := hi.gone

theorem Linked.set (hi : Linked gone l db) {e : CachedNode} (e' : CachedNode)
    (he : db.dirties.get h = some e) (hl : h ∈ l → links e' = links e)
    (hd : db'.dirties = db.dirties.set h e')
    (ho : db'.oldest = db.oldest) (hn : db'.newest = db.newest) : Linked gone l db' := by
  refine hi.congr (fun x hx => ?_) (fun x => ?_) ho hn
  · rw [hd]
    exact map_get_set _ he fun hxh => hl (hxh ▸ hx)
  · rw [hd]
    exact has_set he x

theorem Linked.notMem {hash : Hash} (hi : Linked gone l db) (hh : db.dirties.has hash = false) :
    hash ≠ .zero ∧ hash ∉ l := by
  have hmem := mt (hi.mem hash).2 (by simp [hh])
  tauto

/-! ## Taking a node out of the list -/

section
variable {xs ys : List Hash} {child k : Hash} {node : CachedNode} {e : CachedNode}

/-- Both databases have the same entries, up to their places in the list. -/
def SameBodies (db db' : Database) : Prop :=
  ∀ h, (db'.dirties.get h).map body = (db.dirties.get h).map body

theorem SameBodies.agree (hb : SameBodies db db') (l : List Hash) : Agree body l db db' :=
  ⟨fun h _ => hb h, elim_of_map (hb .zero) (·.rlp) none⟩

theorem sameBodies_of_set {e e' : CachedNode} (hd : db'.dirties = db.dirties.set k e')
    (h : db.dirties.get k = some e) (he : body e' = body e) : SameBodies db db' := by
  intro x
  rw [hd]
  exact map_get_set _ h fun _ => he

theorem next_of_set (hd : db'.dirties = db.dirties.set k e) (x : Hash) :
    db'.next x = if x = k then e.flushNext else db.next x := by
  rw [next, hd, get_set]; split_ifs <;> rfl

theorem prev_of_set (hd : db'.dirties = db.dirties.set k e) (x : Hash) :
    db'.prev x = if x = k then e.flushPrev else db.prev x := by
  rw [prev, hd, get_set]; split_ifs <;> rfl

theorem next_of_get (h : db.dirties.get k = some e) :
    db.next k = e.flushNext := by rw [next, h]; rfl

theorem prev_of_get (h : db.dirties.get k = some e) :
    db.prev k = e.flushPrev := by rw [prev, h]; rfl

theorem next_set_same {e e' : CachedNode} (hd : db'.dirties = db.dirties.set k e')
    (h : db.dirties.get k = some e) (he : e'.flushNext = e.flushNext) (x : Hash) :
    db'.next x = db.next x := by
  rw [next_of_set hd]
  split_ifs with hx
  · rw [hx, next_of_get h, he]
  · rfl

theorem prev_set_same {e e' : CachedNode} (hd : db'.dirties = db.dirties.set k e')
    (h : db.dirties.get k = some e) (he : e'.flushPrev = e.flushPrev) (x : Hash) :
    db'.prev x = db.prev x := by
  rw [prev_of_set hd]
  split_ifs with hx
  · rw [hx, prev_of_get h, he]
  · rfl

/-- The back pointer of the first node is not read. -/
theorem chain_set_first {first last : Hash} (hc : Chain .zero db.next db.prev first last ys)
    (he : db.dirties.get (ys.headD .zero) = some e)
    (hd : db'.dirties = db.dirties.set (ys.headD .zero) { e with flushPrev := .zero }) :
    Chain .zero db'.next db'.prev first last ys := by
  refine hc.congr (fun a _ => next_set_same hd he rfl a) fun a ha =>
    (prev_of_set hd a).trans (if_neg ?_)
  cases ys with
  | nil => cases ha
  | cons y ys => rintro rfl; exact (List.nodup_cons.1 hc.nodup).1 ha

/-- What `unlink` does to the list. -/
def Unlinks (db : Database) (child : Hash) (node : CachedNode) (l : List Hash) : Prop :=
  ∃ db', db.unlink child node = some db' ∧
    Chain .zero db'.next db'.prev db'.oldest db'.newest l ∧ SameBodies db db' ∧
    db'.disk = db.disk

theorem unlink_first (hc : Chain .zero db.next db.prev db.oldest db.newest (child :: ys))
    (hn : db.dirties.get child = some node)
    (he : db.dirties.get (ys.headD .zero) = some e) : Unlinks db child node ys := by
  have hnext : node.flushNext = ys.headD .zero := by rw [← hc.next_cons, next_of_get hn]
  let db' : Database := { db with
    oldest := ys.headD .zero
    dirties := db.dirties.set (ys.headD .zero) { e with flushPrev := .zero } }
  have hd : db'.dirties = db.dirties.set (ys.headD .zero) { e with flushPrev := .zero } := rfl
  refine ⟨db', ?_, ?_, sameBodies_of_set hd he rfl, rfl⟩
  · rw [unlink, if_pos (show child = db.oldest from hc.head.symm), modify, hnext, he]
    rfl
  · have htail := hc.tail
    rw [hc.next_cons] at htail
    exact chain_set_first htail he hd

theorem unlink_inner {z : Hash}
    (hc : Chain .zero db.next db.prev db.oldest db.newest (xs ++ z :: child :: ys))
    (hn : db.dirties.get child = some node)
    (hget : ∀ h ∈ z :: ys, ∃ e, db.dirties.get h = some e) : Unlinks db child node (xs ++ z :: ys) := by
  have hprev : node.flushPrev = z := by
    rw [← prev_of_get hn]
    exact (List.isChain_cons_cons.1 (List.isChain_split.1 hc.link).2).1.2
  have hassoc : xs ++ z :: child :: ys = xs ++ [z] ++ child :: ys := by simp
  have hnext : node.flushNext = ys.headD .zero := by
    rw [← next_of_get hn]
    exact (hassoc ▸ hc).next_append
  have hfirst : child ≠ db.oldest := (hassoc ▸ hc).ne_first (by simp)
  obtain ⟨e, he⟩ := hget z (by simp)
  cases ys with
  | nil =>
    refine ⟨{ db with newest := z, dirties := db.dirties.set z { e with flushNext := .zero } }, ?_,
      hc.remove (next_of_set (e := { e with flushNext := .zero }) rfl) (prev_set_same rfl he rfl)
        (by simp), sameBodies_of_set rfl he rfl, rfl⟩
    rw [unlink, if_neg hfirst, if_pos (hc.back child (by simp)).symm, modify, hprev, he]
    rfl
  | cons y ys =>
    obtain ⟨e', he'⟩ := hget y (by simp)
    have hzy : y ≠ z := by
      rintro rfl
      simpa using (List.nodup_append.1 hc.nodup).2.1
    have he₁ : (db.dirties.set z { e with flushNext := y }).get y = some e' := by
      rw [get_set, if_neg hzy, he']
    let db₁ : Database := { db with dirties := db.dirties.set z { e with flushNext := y } }
    let db₂ : Database := { db₁ with dirties := db₁.dirties.set y { e' with flushPrev := z } }
    have hd₁ : db₁.dirties = db.dirties.set z { e with flushNext := y } := rfl
    have hd₂ : db₂.dirties = db₁.dirties.set y { e' with flushPrev := z } := rfl
    refine ⟨db₂, ?_, hc.remove (fun b => ?_) (fun b => ?_) fun b hb => ?_, fun h => ?_, rfl⟩
    · simp only [unlink, if_neg hfirst, if_neg ((hassoc ▸ hc).ne_last (by simp)), modify, hprev,
        hnext, List.headD_cons, he, he₁, Option.map_some]
      rfl
    · rw [next_set_same hd₂ he₁ rfl]
      exact next_of_set hd₁ b
    · rw [prev_of_set hd₂, prev_set_same hd₁ he rfl]
      simp [eq_comm]
    · exact hc.back b (by simpa [List.getLast?_append] using hb)
    · have h₁ : body { e with flushNext := y } = body e := rfl
      have h₂ : body { e' with flushPrev := z } = body e' := rfl
      exact (sameBodies_of_set hd₂ he₁ h₂ h).trans (sameBodies_of_set hd₁ he h₁ h)

theorem dirtiesSize_modify {k : Hash} {f : CachedNode → CachedNode} (h : db.modify k f = some db') :
    db'.dirtiesSize = db.dirtiesSize := by
  obtain ⟨e, -, rfl⟩ := Option.map_eq_some_iff.1 h
  rfl

theorem dirtiesSize_unlink (h : db.unlink child node = some db') :
    db'.dirtiesSize = db.dirtiesSize := by
  rw [Database.unlink] at h
  split_ifs at h
  · exact (dirtiesSize_modify h :)
  · exact (dirtiesSize_modify h :)
  · split at h
    · cases h
    · next h₁ => exact (dirtiesSize_modify h).trans (dirtiesSize_modify h₁)

theorem Linked.unlinks (hi : Linked gone l db) (hc : child ∈ l)
    (hn : db.dirties.get child = some node) : Unlinks db child node (l.erase child) := by
  obtain ⟨xs, ys, rfl⟩ := List.append_of_mem hc
  have hget : ∀ {h}, h = .zero ∨ h ∈ xs ++ child :: ys → ∃ e, db.dirties.get h = some e :=
    fun hh => hi.get_of_mem (hh.imp id .inl)
  have hchain := hi.chain
  have hxs : child ∉ xs := fun hx =>
    (List.nodup_append.1 hchain.nodup).2.2 child hx child (by simp) rfl
  rw [List.erase_append_right _ hxs, List.erase_cons_head]
  rcases List.eq_nil_or_concat xs with rfl | ⟨xs, z, rfl⟩
  · obtain ⟨e, he⟩ := hget (h := ys.headD .zero) (by cases ys <;> simp)
    exact unlink_first hchain hn he
  · simp only [List.concat_eq_append, List.append_assoc, List.singleton_append] at hchain hget ⊢
    exact unlink_inner hchain hn fun h hh => hget (.inr (by simp at hh ⊢; tauto))

theorem Linked.unlink (hi : Linked gone l db) (hc : child ∈ l)
    (hn : db.dirties.get child = some node) :
    ∃ db', db.unlink child node = some db' ∧ db'.disk = db.disk ∧ SameBodies db db' ∧
      Linked (child :: gone) (l.erase child) db' := by
  obtain ⟨db', hu, hchain, hb, hd⟩ := hi.unlinks hc hn
  refine ⟨db', hu, hd, hb, hchain, fun h => ?_, fun h hh => ?_⟩
  · rw [has_of_map (hb h), hi.mem h, List.mem_cons]
    by_cases hh : h = child
    · subst hh; tauto
    · rw [List.mem_erase_of_ne hh]; tauto
  · rcases List.mem_cons.1 hh with rfl | hh
    · exact ⟨fun h0 => hi.chain.notMem (h0 ▸ hc), List.Nodup.not_mem_erase hi.chain.nodup⟩
    · exact ⟨(hi.gone h hh).1, fun hm => (hi.gone h hh).2 (List.mem_of_mem_erase hm)⟩

theorem Linked.get_drop (hi : Linked (child :: gone) l db) (node : CachedNode) (hh : h ∈ l) :
    (db.drop child node).dirties.get h = db.dirties.get h := by
  rw [Database.drop, get_erase, if_neg]
  rintro rfl
  exact (hi.gone h (by simp)).2 hh

theorem Linked.drop (hi : Linked (child :: gone) l db) (hg : child ∉ gone) (node : CachedNode) :
    Linked gone l (db.drop child node) where
  chain := hi.chain.congr (fun a ha => by rw [next, hi.get_drop node ha]; rfl)
    fun a ha => by rw [prev, hi.get_drop node (List.mem_of_mem_tail ha)]; rfl
  mem h := by
    have hne := hi.gone child (by simp)
    have h₁ := hi.mem h
    rw [List.mem_cons] at h₁
    rw [has, Database.drop, get_erase]
    split_ifs with hc
    · subst hc
      simp only [Option.isSome_none, Bool.false_eq_true, false_iff]
      tauto
    · rw [show (db.dirties.get h).isSome = db.dirties.has h from rfl, h₁]
      tauto
  gone h hh := hi.gone h (by simp [hh])

/-! ## Inserting -/

theorem get_foldl_addParent : ∀ (cs : List Hash) (d : AssocMap Hash CachedNode) (x : Hash),
    (cs.foldl addParent d).get x
      = (d.get x).map fun e => { e with parents := e.parents + .ofNat (cs.count x) }
  | [], d, x => by
    rw [List.foldl_nil, List.count_nil]
    cases d.get x <;> simp
  | c :: cs, d, x => by
    rw [List.foldl_cons, get_foldl_addParent cs, addParent]
    rcases hc : d.get c with _ | e
    · dsimp only
      by_cases hx : x = c
      · rw [hx, hc]; rfl
      · rw [List.count_cons_of_ne (Ne.symm hx)]
    · dsimp only
      rw [get_set]
      split_ifs with hx
      · subst hx
        rw [hc, Option.map_some, Option.map_some, List.count_cons_self, UInt32.ofNat_add,
          UInt32.add_comm (UInt32.ofNat _), ← UInt32.add_assoc]
        rfl
      · rw [List.count_cons_of_ne (Ne.symm hx)]

/-- The entry of a new node. -/
def newEntry (db : Database) (blob : Bytes) (node : Stored) : CachedNode :=
  { node := node, size := .ofNat blob.length, flushPrev := db.newest }

/-- `insert` puts the entry in, the counters of the nodes it references go up, and the newest
    node gets it as the next one. -/
theorem insertStored_spec {hash : Hash} (blob : Bytes) (stored : Stored)
    (hh : db.dirties.has hash = false)
    (hnewest : db.oldest ≠ .zero → ∃ e, db.dirties.get db.newest = some e) :
    ∃ db', db.insertStored hash blob stored = some db' ∧ db'.disk = db.disk ∧
      db'.dirtiesSize = db.dirtiesSize + ((32 + UInt16.ofNat blob.length).toNat : ℤ) ∧
      db'.oldest = (if db.oldest = .zero then hash else db.oldest) ∧ db'.newest = hash ∧
      db'.dirties.get hash = some (newEntry db blob stored) ∧
      ∀ x, x ≠ hash → db'.dirties.get x = (db.dirties.get x).map fun e =>
        { e with
          parents := e.parents + .ofNat (stored.children.count x)
          flushNext := if db.oldest ≠ .zero ∧ x = db.newest then hash else e.flushNext } := by
  set d := (stored.children.foldl addParent db.dirties).set hash (newEntry db blob stored) with hd
  have hget : ∀ x, x ≠ hash → d.get x = (db.dirties.get x).map fun e =>
      { e with parents := e.parents + .ofNat (stored.children.count x) } := fun x hx => by
    rw [hd, get_set, if_neg hx, get_foldl_addParent]
  have hunfold : db.insertStored hash blob stored =
      if db.oldest = .zero then
        some { db with
          dirties := d
          dirtiesSize := db.dirtiesSize + ((32 + UInt16.ofNat blob.length).toNat : ℤ)
          oldest := hash, newest := hash }
      else
        ({ db with
            dirties := d
            dirtiesSize := db.dirtiesSize + ((32 + UInt16.ofNat blob.length).toNat : ℤ) } :
          Database).modify db.newest (fun e => { e with flushNext := hash }) |>.map
            fun db => { db with newest := hash } := by
    rw [insertStored, hh]
    rfl
  rw [hunfold]
  by_cases ho : db.oldest = .zero
  · rw [if_pos ho]
    refine ⟨_, rfl, rfl, rfl, (if_pos ho).symm, rfl, get_set_self .., fun x hx => ?_⟩
    rw [hget x hx]
    simp only [ho, ne_eq, not_true_eq_false, false_and, if_false]
  · obtain ⟨e, he⟩ := hnewest ho
    have hne : db.newest ≠ hash := by
      rintro rfl
      rw [(has_eq_false _ _).1 hh] at he
      cases he
    rw [if_neg ho, modify, hget _ hne, he]
    refine ⟨_, rfl, rfl, rfl, (if_neg ho).symm, rfl, ?_, fun x hx => ?_⟩
    · exact (get_set ..).trans ((if_neg hne.symm).trans (get_set_self ..))
    · refine (get_set ..).trans ?_
      by_cases hxn : x = db.newest
      · rw [if_pos hxn, hxn, he]
        simp only [Option.map_some, ho, ne_eq, not_false_eq_true, true_and, if_true]
      · rw [if_neg hxn, hget x hx]
        simp only [hxn, and_false, if_false]

/-- What `insert` does, but for the list. -/
structure Inserted (hash : Hash) (blob : Bytes) (stored : Stored) (l : List Hash)
    (db db' : Database) : Prop where
  insert : db.insertStored hash blob stored = some db'
  disk : db'.disk = db.disk
  size : db'.dirtiesSize = db.dirtiesSize + ((32 + UInt16.ofNat blob.length).toNat : ℤ)
  entry : db'.dirties.get hash = some (newEntry db blob stored)
  agree : Agree content l db db'
  parents : ∀ x ∈ l, ∀ e, db.dirties.get x = some e →
    db'.parentsOf x = (e.parents + .ofNat (stored.children.count x)).toNat

/-- `insert` puts a node at the end of the list. -/
theorem Linked.insertStored {hash : Hash} (hi : Linked [] l db) (blob : Bytes) (stored : Stored)
    (hh : db.dirties.has hash = false) :
    ∃ db', Inserted hash blob stored l db db' ∧ Linked [] (l ++ [hash]) db' := by
  obtain ⟨hnz, hl⟩ := hi.notMem hh
  have hne : ∀ {x}, x ∈ l → x ≠ hash := fun hx he => hl (he ▸ hx)
  obtain ⟨db', hins, hdisk, hsize, hold, hnew, hself, hget⟩ := insertStored_spec blob stored hh
    fun ho => by
      rcases List.eq_nil_or_concat l with rfl | ⟨xs, z, rfl⟩
      · exact absurd (hi.chain.first_eq_null.2 rfl) ho
      · rw [hi.chain.back z (by simp)]
        exact hi.get_of_mem (by simp)
  have hmap : ∀ x, x ≠ hash → (db'.dirties.get x).map content = (db.dirties.get x).map content :=
    fun x hx => by rw [hget x hx, Option.map_map]; rfl
  refine ⟨db', ⟨hins, hdisk, hsize, hself, ⟨fun x hx => hmap x (hne hx),
    elim_of_map (hmap _ hnz.symm) (·.2.1) none⟩, fun x hx e he => ?_⟩, ?_, fun x => ?_, by simp⟩
  · rw [parentsOf, hget x (hne hx), he]
    rfl
  · rw [hold, hnew]
    have hnext : ∀ x, x ≠ hash → ¬ (db.oldest ≠ .zero ∧ x = db.newest) → db'.next x = db.next x := by
      intro x hx hlast
      rw [next, hget x hx, next]
      cases db.dirties.get x with
      | none => rfl
      | some e => exact if_neg hlast
    rcases List.eq_nil_or_concat l with rfl | ⟨xs, z, rfl⟩
    · rw [if_pos (hi.chain.first_eq_null.2 rfl)]
      exact .singleton hnz (by rw [next, hself]; rfl)
    · rw [List.concat_eq_append] at hi hl hne ⊢
      have ho : db.oldest ≠ .zero := fun h => by simpa using hi.chain.first_eq_null.1 h
      have hz : db.newest = z := hi.chain.back z (by simp)
      have hnd := List.nodup_append.1 hi.chain.nodup
      obtain ⟨e, he⟩ := hi.get_of_mem (h := z) (by simp)
      rw [if_neg ho]
      refine hi.chain.push hl hnz (fun x hx => hnext x (hne (by simp [hx])) ?_) ?_ ?_
        (fun x hx => ?_) ?_
      · rintro ⟨-, rfl⟩
        exact hnd.2.2 _ hx z (by simp) hz
      · rw [next, hget z (hne (by simp)), he]
        exact if_pos ⟨ho, hz.symm⟩
      · rw [next, hself]; rfl
      · rw [prev, hget x (hne (List.mem_of_mem_tail hx)), prev]
        cases db.dirties.get x <;> rfl
      · rw [prev, hself]; exact hz
  · rw [List.mem_append, List.mem_singleton]
    by_cases hx : x = hash
    · subst hx
      simp [has, hself]
    · rw [has_of_map (hmap x hx), hi.mem x]
      simp [hx]

end

/-! ## The nodes of the list -/

/-- The flush list has the nodes in memory in the order of `time`; they have encodings and
    do not reference the meta-root. -/
structure Listed (time : Hash → ℕ) (l : List Hash) (db : Database) : Prop extends
    Linked [] l db where
  sorted : l.Pairwise fun a b => time a < time b
  refs : ∀ p ∈ l, Hash.zero ∉ db.refsOf p
  rlp : ∀ h ∈ l, ∃ b, db.rlpOf h = some b
  root : db.rlpOf .zero = none

section
variable {time time' : Hash → ℕ} {hash child parent : Hash}

theorem Listed.congr (hi : Listed time l db) (hlinked : Linked [] l' db') (hsub : l'.Sublist l)
    (hs : Agree content l' db db') : Listed time l' db' where
  toLinked := hlinked
  sorted := hi.sorted.sublist hsub
  refs p hp := by rw [hs.refs hp]; exact hi.refs p (hsub.subset hp)
  rlp h hh := by rw [hs.rlp hh]; exact hi.rlp h (hsub.subset hh)
  root := hs.root.trans hi.root

theorem Listed.insertStored (hi : Listed time l db) {stored : Stored} {blob b : Bytes}
    (hh : db.dirties.has hash = false) (hrlp : (newEntry db blob stored).rlp = some b)
    (hrefs : Hash.zero ∉ stored.children) (htime : ∀ x ∈ l, time' x = time x)
    (hlast : ∀ x ∈ l, time x < time' hash) :
    ∃ db', Inserted hash blob stored l db db' ∧ Listed time' (l ++ [hash]) db' := by
  obtain ⟨db', hins, hlinked⟩ := hi.toLinked.insertStored blob stored hh
  have hs := hins.agree
  refine ⟨db', hins, hlinked, ?_, fun p hp => ?_, fun x hx => ?_, hs.root.trans hi.root⟩
  · rw [List.pairwise_append]
    refine ⟨hi.sorted.imp_of_mem fun ha hb hab => by rwa [htime _ ha, htime _ hb],
      List.pairwise_singleton _ _, fun a ha c hc => ?_⟩
    rw [List.mem_singleton.1 hc, htime a ha]
    exact hlast a ha
  · rcases List.mem_append.1 hp with hp | hp
    · rw [hs.refs hp]
      exact hi.refs p hp
    · rw [List.mem_singleton.1 hp, refsOf, hins.entry]
      exact hrefs
  · rcases List.mem_append.1 hx with hx | hx
    · rw [hs.rlp hx]
      exact hi.rlp x hx
    · rw [List.mem_singleton.1 hx, rlpOf, hins.entry]
      exact ⟨b, hrlp⟩

/-- `Reference` does nothing, or the counter of the child goes up and the parent has it as an
    external child. -/
theorem Listed.reference (hi : Listed time l db)
    (hok : db.dirties.has child = true → child ≠ .zero ∧ db.dirties.has parent = true) :
    ∃ db', db.reference child parent = some db' ∧ Listed time l db' ∧
      db'.dirtiesSize = db.dirtiesSize ∧ db'.disk = db.disk ∧ (∀ x, db'.bytesOf x = db.bytesOf x) ∧
      (db' = db ∧ (db.dirties.get child = none ∨ parent ≠ .zero) ∨
        child ∈ l ∧ (∀ x ∈ l, ∀ e, db.dirties.get x = some e →
          db'.parentsOf x = (e.parents + .ofNat ([child].count x)).toNat) ∧
        ∀ x ∈ l, db'.refsOf x = if x = parent then child :: db.refsOf x else db.refsOf x) := by
  rcases hc : db.dirties.get child with _ | c
  · exact ⟨db, by rw [Database.reference, hc], hi, rfl, rfl, fun _ => rfl, .inl ⟨rfl, .inl rfl⟩⟩
  obtain ⟨hcz, hp⟩ := hok ((has_eq_true _ _).2 ⟨c, hc⟩)
  obtain ⟨p, hp⟩ := (has_eq_true _ _).1 hp
  rw [Database.reference, hc, hp]
  dsimp only
  split_ifs with hskip
  · exact ⟨db, rfl, hi, rfl, rfl, fun _ => rfl, .inl ⟨rfl, .inr hskip.2⟩⟩
  let c' : CachedNode := { c with parents := c.parents + 1 }
  let db₁ : Database := { db with dirties := db.dirties.set child c' }
  have hget₁ : ∀ x, (db₁.dirties.get x).map (fun e => { e with parents := 0 }) =
      (db.dirties.get x).map fun e => { e with parents := 0 } :=
    fun x => map_get_set c' hc fun _ => rfl
  obtain ⟨q, hq, hqp⟩ := Option.map_eq_some_iff.1 ((hget₁ parent).trans (congrArg _ hp))
  let q' : CachedNode :=
    { q with children := q.children.set child ((q.children.get child).getD 0 + 1) }
  let db₂ : Database := { db₁ with dirties := db₁.dirties.set parent q' }
  have hrlp : ∀ x, db₂.rlpOf x = db.rlpOf x := fun x =>
    (elim_of_map (map_get_set (g := CachedNode.rlp) q' hq fun _ => rfl) id none).trans
      (elim_of_map (hget₁ x) (·.rlp) none)
  have hbytes : ∀ x, db₂.bytesOf x = db.bytesOf x := fun x =>
    (elim_of_map (map_get_set (g := CachedNode.size) q' hq fun _ => rfl) (·.toNat) 0).trans
      (elim_of_map (hget₁ x) (·.size.toNat) 0)
  have hrefs : ∀ x ∈ l, db₂.refsOf x = if x = parent then child :: db.refsOf x else db.refsOf x := by
    intro x hx
    rw [← show db₁.refsOf x = db.refsOf x from elim_of_map (hget₁ x) (·.refs) [], refsOf,
      show db₂.dirties.get x = _ from get_set ..]
    split_ifs with hxp
    · subst hxp
      have hnone : q.children.get child = none := by
        rw [show q.children = p.children from congrArg (·.children) hqp, ← has_eq_false,
          ← Bool.not_eq_true]
        exact fun h => hskip ⟨h, fun h0 => hi.chain.notMem (h0 ▸ hx)⟩
      rw [refsOf, hq]
      simp only [Option.elim, CachedNode.refs, CachedNode.childs, id_eq, q',
        keys_set_of_get_none _ _ _ hnone, List.cons_append]
    · rfl
  have hlinked : Linked [] l db₂ := by
    have hi₁ : Linked [] l db₁ := hi.toLinked.set c' hc (fun _ => rfl) rfl rfl rfl
    exact hi₁.set q' hq (fun _ => rfl) rfl rfl rfl
  have hcl : child ∈ l := by simpa [hcz] using (hi.mem child).1 ((has_eq_true _ _).2 ⟨c, hc⟩)
  refine ⟨db₂, ?_, ⟨hlinked, hi.sorted, fun x hx => ?_, fun x hx => hrlp x ▸ hi.rlp x hx,
    (hrlp .zero).trans hi.root⟩, rfl, rfl, hbytes, .inr ⟨hcl, fun x hx e he => ?_, hrefs⟩⟩
  · change db₁.modify parent _ = some db₂
    rw [modify, hq]
    rfl
  · rw [hrefs x hx]
    split_ifs
    · exact List.not_mem_cons_of_ne_of_not_mem hcz.symm (hi.refs x hx)
    · exact hi.refs x hx
  · have hpar : db₂.parentsOf x = db₁.parentsOf x :=
      elim_of_map (map_get_set (g := CachedNode.parents) q' hq fun _ => rfl) (·.toNat) 0
    rw [hpar, parentsOf, show db₁.dirties.get x = _ from get_set ..]
    split_ifs with hxc
    · subst hxc
      cases hc.symm.trans he
      rw [List.count_singleton_self]
      rfl
    · rw [he, List.count_eq_zero.2 (by simpa using hxc)]
      simp

end

end Database

end GoEthereum.Trie
