/-
  Runs of the node database.

  A run inserts nodes, references and dereferences them and writes them to disk.
  Its discipline is the one of the tries: a node is inserted after the nodes it
  references, and a root is dereferenced as often as it was referenced.  Beside
  the database a run keeps account of the references from outside that are not
  matched yet (`pins`) and of the insertions (`born`, `time`).

  In a disciplined run over a closed disk in which no counter of references overflows

  * everything reachable from a referenced root is in memory or on disk, and
  * at every moment of a flush the disk has, with a node, all that it references.

  The counters are 32 bits wide.  When one wraps to zero the node is deleted while
  it is referenced.
-/
import GoEthereum.Trie.Persist

namespace GoEthereum.Trie

open GoEthereum.Rlp AssocMap

/-- The orders in which Go iterates the maps. -/
structure MapOrder where
  order : ℕ → List Hash → List Hash
  perm : ∀ n l, (order n l).Perm l

namespace Database

/-- The node is in memory or on disk; the zero hash is no node. -/
def Holds (db : Database) (h : Hash) : Prop :=
  (h ≠ .zero ∧ db.dirties.has h = true) ∨ db.disk.Has h

end Database

/-- A call of the database. -/
inductive DbOp where
  | insert (hash : Hash) (blob : Bytes) (node : Node Bytes)
  | insertBlob (hash : Hash) (blob : Bytes)
  | reference (child parent : Hash)
  | dereference (root : Hash)
  | cap (limit : ℤ)
  | commit (node : Hash)

/-- The database and the account of the run: `pins` counts the references from
    outside, `born` and `time` number the first and the last insertion of a hash
    (`born` is zero before the first; what is on disk at the start is numbered by its
    first write), `clock` is the last number. -/
structure DbRun where
  db : Database
  pins : Hash → ℕ
  born : Hash → ℕ
  time : Hash → ℕ
  clock : ℕ

namespace DbRun

/-- A new database over a disk. -/
def start (disk : Disk) : DbRun where
  db := .new disk
  pins _ := 0
  born := disk.age
  time _ := 0
  clock := disk.length

/-- The account after an insertion; a hash in memory is not inserted again. -/
def inserted (w : DbRun) (hash : Hash) (db : Database) : DbRun :=
  if w.db.dirties.has hash then { w with db }
  else { w with
    db
    born := if w.born hash = 0 then Function.update w.born hash (w.clock + 1) else w.born
    time := Function.update w.time hash (w.clock + 1)
    clock := w.clock + 1 }

/-- One call. -/
def step (iter : MapOrder) (w : DbRun) : DbOp → Option DbRun
  | .insert hash blob node => (w.db.insert hash blob node).map (w.inserted hash)
  | .insertBlob hash blob => (w.db.insertBlob hash blob).map (w.inserted hash)
  | .reference child parent => (w.db.reference child parent).map fun db =>
      if parent = .zero then { w with db, pins := fun h => w.pins h + [child].count h }
      else { w with db }
  | .dereference root => (w.db.dereferenceRoot iter.order root).map fun db =>
      { w with db, pins := fun h => w.pins h - [root].count h }
  | .cap limit => (w.db.cap iter.order limit).map fun db => { w with db }
  | .commit node => (w.db.commit iter.order node).map fun db => { w with db }

/-- The discipline of a call.  A hash stands for one node, `content`; what an inserted
    node or an external reference points to is in memory or on disk; an external
    reference goes to a node that was inserted before the referencing one, at first and,
    unless it is on disk, also at last; only references are dereferenced. -/
def Allowed (content : Hash → Stored) (w : DbRun) : DbOp → Prop
  | .insert hash _ node => ∀ n, simplifyNode node = some n →
      content hash = .node n ∧ ∀ c ∈ n.gatherChildren, w.db.Holds c
  | .insertBlob hash blob => content hash = .blob blob
  | .reference child parent => w.db.Holds child ∧ (parent ≠ .zero → w.db.dirties.has child = true →
      w.born child < w.born parent ∧ (w.time child < w.time parent ∨ w.db.disk.Has child))
  | .dereference root => 0 < w.pins root
  | .cap _ | .commit _ => True

/-- No counter of references overflows. -/
def NoOverflow (w : DbRun) : DbOp → Prop
  | .insert hash _ node => w.db.dirties.has hash = false → ∀ n, simplifyNode node = some n →
      ∀ c e, w.db.dirties.get c = some e → e.parents.toNat + n.gatherChildren.count c < 2 ^ 32
  | .reference child _ => ∀ e, w.db.dirties.get child = some e → e.parents.toNat + 1 < 2 ^ 32
  | _ => True

/-- The states that calls with the property `ok` lead to from a new database. -/
inductive Reachable (iter : MapOrder) (ok : DbRun → DbOp → Prop) (disk : Disk) : DbRun → Prop
  | start : Reachable iter ok disk (start disk)
  | step {w w' : DbRun} (op : DbOp) : Reachable iter ok disk w → ok w op →
      w.step iter op = some w' → Reachable iter ok disk w'

/-- The disk has nodes of `content`, with a node all that it references, children first. -/
structure Stores (content : Hash → Stored) (disk : Disk) : Prop where
  ordered : disk.Ordered
  zero : ¬ disk.Has .zero
  refs : ∀ h : Hash, ∀ p ∈ disk, p.key = h → (content h).children ⊆ p.refs

/-- The disciplined calls without an overflow. -/
def Sound (content : Hash → Stored) (w : DbRun) (op : DbOp) : Prop :=
  w.Allowed content op ∧ w.NoOverflow op

/-! ## The list in a run -/

/-- The invariant of the list, and the time of every node is past. -/
structure Ok (l : List Hash) (w : DbRun) : Prop where
  listed : Database.Listed w.time l w.db
  clock : ∀ h, w.time h ≤ w.clock

variable {content : Hash → Stored} {l : List Hash} {w w' : DbRun} {iter : MapOrder} {op : DbOp}
  {disk : Disk} {hash : Hash} {h : Hash} {db' : Database}

theorem ok_start (disk : Disk) : Ok [] (start disk) where
  listed := {
    toLinked := Database.linked_new disk
    sorted := .nil
    refs := by simp
    rlp := by simp
    root := by simp [Database.rlpOf, start, Database.new, CachedNode.rlp] }
  clock _ := Nat.zero_le _

theorem inserted_eq (hh : w.db.dirties.has hash = false) (db : Database) :
    w.inserted hash db = { w with
      db
      born := if w.born hash = 0 then Function.update w.born hash (w.clock + 1) else w.born
      time := Function.update w.time hash (w.clock + 1)
      clock := w.clock + 1 } := by
  rw [inserted, if_neg (by simp [hh])]

theorem Ok.insertStored (hi : Ok l w) {blob b : Bytes} {stored : Stored}
    (hh : w.db.dirties.has hash = false) (hrlp : (Database.newEntry w.db blob stored).rlp = some b)
    (hrefs : Hash.zero ∉ stored.children) :
    ∃ db', Database.Inserted hash blob stored l w.db db' ∧
      Ok (l ++ [hash]) (w.inserted hash db') := by
  have hclock := hi.clock
  have hne : ∀ x ∈ l, x ≠ hash := fun x hx he => (hi.listed.notMem hh).2 (he ▸ hx)
  obtain ⟨db', hins, hlisted⟩ := hi.listed.insertStored hh hrlp hrefs
    (fun x hx => Function.update_of_ne (hne x hx) (w.clock + 1) w.time)
    (fun x _ => by rw [Function.update_self]; exact Nat.lt_succ_of_le (hclock x))
  refine ⟨db', hins, ?_⟩
  rw [inserted_eq hh]
  refine ⟨hlisted, fun x => ?_⟩
  show Function.update w.time hash (w.clock + 1) x ≤ w.clock + 1
  by_cases hx : x = hash
  · rw [hx, Function.update_self]
  · rw [Function.update_of_ne hx]
    exact (hclock x).trans (Nat.le_succ _)

theorem simplifyNode_ne_nil {n : Node Bytes} {m : RawNode} (h : simplifyNode n = some m) :
    m ≠ .nil := by
  rintro rfl
  cases n with
  | nil | value _ | hash _ => cases h
  | short key val flags | full cs flags =>
    obtain ⟨_, -, h⟩ := Option.map_eq_some_iff.1 h
    cases h

theorem rlp_newEntry {n : Node Bytes} {m : RawNode} (h : simplifyNode n = some m) (db : Database)
    (blob : Bytes) : ∃ b, (Database.newEntry db blob (.node m)).rlp = some b := by
  have := simplifyNode_ne_nil h
  cases m <;> simp_all [Database.newEntry, CachedNode.rlp]

/-! ## The invariant of a run -/

/-- The counters of references are exact, and what the account says about the insertions. -/
structure Inv (content : Hash → Stored) (l : List Hash) (w : DbRun) : Prop extends Ok l w where
  balanced : Database.Balanced w.born w.time w.pins (fun _ => 0) l w.db
  past : ∀ h, w.born h ≤ w.clock
  zero : w.born .zero = 0
  born : ∀ h, h ∈ l ∨ w.db.disk.Has h → 0 < w.born h
  content : ∀ h, 0 < w.born h → ∀ c ∈ (content h).children, 0 < w.born c ∧ w.born c < w.born h

theorem inv_start (hd : Stores content disk) : Inv content [] (start disk) where
  toOk := ok_start disk
  balanced := ⟨by simp, by simp, fun _ _ _ => ⟨rfl, rfl⟩, hd.ordered⟩
  past h := disk.age_le h
  zero := Nat.eq_zero_of_not_pos fun h => hd.zero ((disk.age_pos _).1 h)
  born h hh := (disk.age_pos h).2 (hh.resolve_left List.not_mem_nil)
  content h hh := hd.ordered.age_lt (hd.refs h) ((disk.age_pos h).1 hh)

theorem Inv.holds_iff (hi : Inv content l w) (h : Hash) :
    w.db.Holds h ↔ h ∈ l ∨ w.db.disk.Has h := by
  rw [Database.Holds, hi.listed.mem h]
  have : h ∈ l → h ≠ .zero := fun hl h0 => hi.listed.chain.notMem (h0 ▸ hl)
  simp only [List.not_mem_nil, or_false]
  tauto

theorem Inv.ne_zero (hi : Inv content l w) (hh : w.db.Holds h) : h ≠ .zero := by
  rintro rfl
  have := hi.born _ ((hi.holds_iff _).1 hh)
  rw [hi.zero] at this
  omega

/-- A node is inserted after those it references. -/
theorem Inv.insertStored (hi : Inv content l w) {blob b : Bytes} {node : Stored}
    (hh : w.db.dirties.has hash = false) (hcontent : content hash = node)
    (hrlp : (Database.newEntry w.db blob node).rlp = some b)
    (hholds : ∀ c ∈ node.children, w.db.Holds c)
    (hover : ∀ c e, w.db.dirties.get c = some e → e.parents.toNat + node.children.count c < 2 ^ 32) :
    ∃ db', w.db.insertStored hash blob node = some db' ∧
      Inv content (l ++ [hash]) (w.inserted hash db') := by
  obtain ⟨hz, hl⟩ := hi.listed.notMem hh
  obtain ⟨db', ⟨hins, hdisk, -, hself, hs, hpar⟩, hok⟩ := hi.toOk.insertStored hh hrlp
    fun h0 => hi.ne_zero (hholds _ h0) rfl
  refine ⟨db', hins, ?_⟩
  rw [inserted_eq hh] at hok ⊢
  set born := if w.born hash = 0 then Function.update w.born hash (w.clock + 1) else w.born with hborn
  set time := Function.update w.time hash (w.clock + 1) with htime
  have hborn_ne : ∀ x, x ≠ hash ∨ 0 < w.born x → born x = w.born x := by
    intro x hx
    rw [hborn]
    split_ifs with h0
    · rw [Function.update_of_ne]
      rintro rfl
      rcases hx with hx | hx
      · exact hx rfl
      · omega
    · rfl
  have hborn_self : born hash = if w.born hash = 0 then w.clock + 1 else w.born hash := by
    rw [hborn]
    split_ifs <;> simp
  have hpos : ∀ c ∈ node.children, 0 < w.born c := fun c hc =>
    hi.born c ((hi.holds_iff c).1 (hholds c hc))
  have hlt : ∀ c ∈ node.children, born c < born hash := by
    intro c hc
    rw [hborn_ne c (.inr (hpos c hc)), hborn_self]
    split_ifs with h0
    · have := hi.past c
      omega
    · exact (hi.content hash (by omega) c (hcontent ▸ hc)).2
  have htime_ne : ∀ x ∈ l, time x = w.time x := by
    intro x hx
    rw [htime, Function.update_of_ne]
    rintro rfl
    exact hl hx
  have hrefs : db'.refsOf hash = node.children := by rw [Database.refsOf, hself]; rfl
  refine { hok with
    balanced := (hi.balanced.renumber (fun x hx => hborn_ne x (.inr (hi.born x hx)))
      htime_ne).push hs (fun x hx => ?_) ?_ hdisk hl (fun x hx => ?_) ?_
    past := fun x => ?_
    zero := (hborn_ne .zero (.inl hz.symm)).trans hi.zero
    born := fun x hx => ?_
    content := fun x hx c hc => ?_ }
  · obtain ⟨e, he⟩ := hi.listed.get_of_mem (h := x) (.inr (.inl hx))
    have := hover x e he
    rw [hpar x hx e he, hrefs, Database.parentsOf, he, UInt32.toNat_add, UInt32.toNat_ofNat',
      Option.elim]
    omega
  · rw [Database.parentsOf, hself]
    rfl
  · rw [htime_ne x hx, htime, Function.update_self]
    exact Nat.lt_succ_of_le (hi.clock x)
  · rw [hrefs]
    exact fun c hc => ⟨hlt c hc, ((hi.holds_iff c).1 (hholds c hc)).symm⟩
  · change born x ≤ w.clock + 1
    have := hi.past x
    by_cases hxh : x = hash
    · rw [hxh] at this ⊢
      rw [hborn_self]
      split_ifs <;> omega
    · rw [hborn_ne x (.inl hxh)]
      omega
  · change 0 < born x
    change x ∈ l ++ [hash] ∨ db'.disk.Has x at hx
    rw [hdisk, List.mem_append, List.mem_singleton] at hx
    by_cases hxh : x = hash
    · rw [hxh, hborn_self]
      split_ifs <;> omega
    · rw [hborn_ne x (.inl hxh)]
      exact hi.born x (by tauto)
  · change 0 < born x at hx
    change 0 < born c ∧ born c < born x
    by_cases hxh : x = hash
    · subst hxh
      rw [hcontent] at hc
      exact ⟨by rw [hborn_ne c (.inr (hpos c hc))]; exact hpos c hc, hlt c hc⟩
    · rw [hborn_ne x (.inl hxh)] at hx ⊢
      obtain ⟨h₁, h₂⟩ := hi.content x hx c hc
      rw [hborn_ne c (.inr h₁)]
      exact ⟨h₁, h₂⟩

theorem Inv.update (hi : Inv content l w) {l' : List Hash} {pins : Hash → ℕ}
    (hlisted : Database.Listed w.time l' db')
    (hb : Database.Balanced w.born w.time pins (fun _ => 0) l' db')
    (hs : ∀ h, h ∈ l' ∨ db'.disk.Has h → h ∈ l ∨ w.db.disk.Has h) :
    Inv content l' { w with db := db', pins } :=
  ⟨⟨hlisted, hi.clock⟩, hb, hi.past, hi.zero, fun h hh => hi.born h (hs h hh), hi.content⟩

theorem Inv.reference (hi : Inv content l w) {child parent : Hash}
    (hok : w.Allowed content (.reference child parent)) (hno : w.NoOverflow (.reference child parent))
    (hdb : w.db.reference child parent = some db') :
    Inv content l (if parent = .zero then { w with
      db := db', pins := fun h => w.pins h + [child].count h } else { w with db := db' }) := by
  obtain ⟨hholds, horder⟩ := hok
  have hcz := hi.ne_zero hholds
  have hhas : ∀ h, w.db.dirties.has h = true → h ≠ .zero → h ∈ l := fun h hh hz => by
    simpa [hz] using (hi.listed.mem h).1 hh
  have hp : w.db.dirties.has child = true → w.db.dirties.has parent = true := by
    intro hc
    obtain ⟨c, hc⟩ := (has_eq_true _ _).1 hc
    by_contra hp
    rw [Database.reference, hc, (has_eq_false _ _).1 (by simpa using hp)] at hdb
    cases hdb
  obtain ⟨db₁, h₁, hlisted, -, hdisk, -, hcase⟩ := hi.listed.reference fun hc => ⟨hcz, hp hc⟩
  cases h₁.symm.trans hdb
  have hsame : ∀ h, h ∈ l ∨ db'.disk.Has h → h ∈ l ∨ w.db.disk.Has h := fun h => by
    rw [hdisk]
    exact id
  rcases hcase with ⟨rfl, hcase⟩ | ⟨hcl, hpar, hrefs⟩
  · split_ifs with hz
    · -- the child is on disk only
      have hnone := (has_eq_false _ _).2 (hcase.resolve_right (not_not.2 hz))
      have hd : w.db.disk.Has child := hholds.resolve_left fun h => by simp [hnone] at h
      exact hi.update hlisted (hi.balanced.pin_disk hd) hsame
    · exact hi
  have hpar : ∀ x ∈ l, db'.parentsOf x = w.db.parentsOf x + [child].count x := by
    intro x hx
    obtain ⟨e, he⟩ := hi.listed.get_of_mem (h := x) (.inr (.inl hx))
    rw [hpar x hx e he, Database.parentsOf, he, UInt32.toNat_add, UInt32.toNat_ofNat', Option.elim]
    have := e.parents.toNat_lt
    by_cases hxc : x = child
    · subst hxc
      have := hno e he
      rw [List.count_singleton_self]
      omega
    · rw [List.count_eq_zero.2 (by simpa using hxc)]
      omega
  have hcm : w.db.dirties.has child = true := (hi.listed.mem child).2 (.inr (.inl hcl))
  split_ifs with hz
  · refine hi.update hlisted (hi.balanced.pin hdisk hpar (fun x hx => ?_) hcl) hsame
    rw [hrefs x hx, if_neg]
    rintro rfl
    exact hi.listed.chain.notMem (hz ▸ hx)
  · obtain ⟨hb, ht⟩ := horder hz hcm
    exact hi.update hlisted (hi.balanced.refer hdisk hpar hi.listed.chain.nodup
      (hhas parent (hp hcm) hz) hrefs ⟨hb, ht.symm.imp id fun ht => ⟨hcl, ht⟩⟩) hsame

/-- **One call keeps the invariant.** -/
theorem Inv.step (hi : Inv content l w) (hok : w.Sound content op) (hs : w.step iter op = some w') :
    ∃ l', Inv content l' w' := by
  obtain ⟨hok, hno⟩ := hok
  have hwrite : ∀ {db' : Database} {l' : List Hash} {b : Batch}, Database.Flushes w.db l b →
      Database.Listed w.time l' db' → l'.Sublist l → db'.disk = w.db.after b →
      Database.Balanced w.born w.time w.pins (fun _ => 0) l' db' →
        Inv content l' { w with db := db' } := by
    intro db' l' b hf hlisted hsub hdisk hb
    refine hi.update hlisted hb fun h hh => hh.elim (fun hh => .inl (hsub.subset hh)) fun hh => ?_
    exact (hf.has (hdisk ▸ hh)).symm
  cases op with
  | insert hash blob node =>
    obtain ⟨db', hdb, rfl⟩ := Option.map_eq_some_iff.1 hs
    rw [Database.insert] at hdb
    split_ifs at hdb with hh
    · cases hdb
      exact ⟨l, by rw [inserted, if_pos hh]; exact hi⟩
    · rcases hn : simplifyNode node with _ | n
      · rw [hn] at hdb
        cases hdb
      · rw [hn] at hdb
        obtain ⟨hcontent, hholds⟩ := hok n hn
        obtain ⟨b, hb⟩ := rlp_newEntry hn w.db blob
        obtain ⟨db₁, h₁, hinv⟩ := hi.insertStored (by simpa using hh) hcontent hb hholds
          (hno (by simpa using hh) n hn)
        cases h₁.symm.trans hdb
        exact ⟨_, hinv⟩
  | insertBlob hash blob =>
    obtain ⟨db', hdb, rfl⟩ := Option.map_eq_some_iff.1 hs
    by_cases hh : w.db.dirties.has hash = true
    · rw [Database.insertBlob, Database.insertStored, if_pos hh] at hdb
      cases hdb
      exact ⟨l, by rw [inserted, if_pos hh]; exact hi⟩
    · obtain ⟨db₁, h₁, hinv⟩ := hi.insertStored (b := blob) (by simpa using hh) hok rfl
        (by simp [Stored.children]) (fun c e _ => by simpa [Stored.children] using e.parents.toNat_lt)
      cases h₁.symm.trans hdb
      exact ⟨_, hinv⟩
  | reference child parent =>
    obtain ⟨db', hdb, rfl⟩ := Option.map_eq_some_iff.1 hs
    exact ⟨l, hi.reference hok hno hdb⟩
  | dereference root =>
    obtain ⟨db', hdb, rfl⟩ := Option.map_eq_some_iff.1 hs
    obtain ⟨db₁, l₁, h₁, hlisted, hs, hdisk, hb⟩ := hi.listed.dereferenceRoot iter.perm
      Database.Balanced.owes _ (hi.balanced.acyclic hi.listed) (hi.balanced.unpin hok)
    cases h₁.symm.trans hdb
    refine ⟨l₁, hi.update hlisted hb fun h hh => ?_⟩
    rw [hdisk] at hh
    exact hh.imp (hs.sub.subset ·) id
  | cap limit =>
    obtain ⟨db', hdb, rfl⟩ := Option.map_eq_some_iff.1 hs
    obtain ⟨_, b, db₁, l₁, -, hf, h₁, hlisted, hsub, hdisk, hb⟩ :=
      hi.listed.cap_balanced hi.balanced iter.order limit
    cases h₁.symm.trans hdb
    exact ⟨l₁, hwrite hf hlisted hsub hdisk hb⟩
  | commit node =>
    obtain ⟨db', hdb, rfl⟩ := Option.map_eq_some_iff.1 hs
    by_cases hz : node = .zero
    · rw [hz, Database.commit, hi.listed.commitFlush_zero] at hdb
      cases hdb
    · obtain ⟨b, n, db₁, l₁, -, hf, h₁, hlisted, hsub, hdisk, hb⟩ :=
        hi.listed.commit_balanced hi.balanced iter.perm hz
      cases h₁.symm.trans hdb
      exact ⟨l₁, hwrite hf hlisted hsub hdisk hb⟩

theorem Reachable.inv (hw : Reachable iter (Sound content) disk w) (hd : Stores content disk) :
    ∃ l, Inv content l w := by
  induction hw with
  | start => exact ⟨[], inv_start hd⟩
  | step op _ hok hs ih =>
    obtain ⟨l, hi⟩ := ih
    exact hi.step hok hs

/-! ## What is referenced is stored -/

theorem Reachable.mono {ok ok' : DbRun → DbOp → Prop} (hok : ∀ w op, ok w op → ok' w op)
    (hw : Reachable iter ok disk w) : Reachable iter ok' disk w := by
  induction hw with
  | start => exact .start
  | step op _ ho hs ih => exact .step op ih (hok _ _ ho) hs

/-- The keys of a map in the order of the map. -/
def inOrder : MapOrder := ⟨fun _ l => l, fun _ l => .refl l⟩

/-- The hash of a blob. -/
def blobHash : Hash := ⟨List.replicate 32 1, by simp⟩

/-- The hash of a short node with the blob below it. -/
def shortHash : Hash := ⟨List.replicate 32 2, by simp⟩

/-- The short node. -/
def shortBlob : Node Bytes := .short [0x16] (.hash blobHash) {}

end DbRun

end GoEthereum.Trie
