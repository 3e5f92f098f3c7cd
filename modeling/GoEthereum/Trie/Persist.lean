/-
  The counters of references, and the order in which nodes are written (`trie/database.go`).

  A node comes after the nodes it references, unless those are on disk, and the counter of a
  node that is not on disk is the number of references to it (`Balanced`).  `insert`,
  `reference` and `dereference` keep this as long as no counter overflows.  `Cap` writes the
  oldest nodes of the flush list and `Commit` writes the nodes of a trie; both write a node
  after the nodes it references.
-/
import GoEthereum.Trie.Collect

namespace GoEthereum.Trie.Database

open GoEthereum.Rlp AssocMap Relation

variable {db db' : Database} {l l' : List Hash} {h hash child parent : Hash} {node : CachedNode}
  {height time pins owed owed' : Hash → ℕ} {iter : ℕ → List Hash → List Hash} {b b' : Batch}

/-! ## The batches -/

/-- The batches are fine so far: the writes are in order, and they are nodes of the
    list or preimages, which have longer keys. -/
structure Flushes (db : Database) (l : List Hash) (b : Batch) : Prop where
  ordered : (db.after b).Ordered
  keys : ∀ p ∈ b.all, (∃ h ∈ l, p.key = h) ∨ p.key.length ≠ 32

theorem has_add (hh : (db.after b).Has h) (p : Put) : (db.after (b.add p)).Has h := by
  rw [after, b.all_add, Disk.write_append]
  exact hh.write [p]

theorem Flushes.add (hf : Flushes db l b) (hh : h ∈ l) (blob : Bytes) {refs : List Hash}
    (hr : ∀ c ∈ refs, (db.after b).Has c) :
    Flushes db l (b.add ⟨h, blob, refs⟩) ∧ (db.after (b.add ⟨h, blob, refs⟩)).Has h := by
  refine ⟨⟨?_, fun p hp => ?_⟩, ?_⟩
  · rw [after, b.all_add, Disk.write_append]
    exact hf.ordered.put hr
  · rw [b.all_add] at hp
    rcases List.mem_append.1 hp with hp | hp
    · exact hf.keys p hp
    · rw [List.mem_singleton.1 hp]
      exact .inl ⟨h, hh, rfl⟩
  · rw [after, b.all_add]
    exact Disk.has_write_of_mem (p := ⟨h, blob, refs⟩) (by simp) rfl

theorem length_secureKey (h : Hash) : (secureKey h).length ≠ 32 := by
  rw [secureKey, List.length_append, h.2]
  decide

theorem Flushes.putPreimages (hf : Flushes db l b) : Flushes db l (putPreimages iter db b) := by
  unfold Database.putPreimages
  induction iter db.iters db.preimages.keys generalizing b with
  | nil => exact hf
  | cons k ks ih =>
    rw [List.foldl_cons]
    set p : Put := ⟨secureKey k, (db.preimages.get k).getD [], []⟩ with hp
    refine ih ?_
    have hput : Flushes db l (b.put p) := by
      refine ⟨?_, fun q hq => ?_⟩
      · rw [after, b.all_put, Disk.write_append]
        exact hf.ordered.put (by simp [hp])
      · rw [b.all_put] at hq
        rcases List.mem_append.1 hq with hq | hq
        · exact hf.keys q hq
        · rw [List.mem_singleton.1 hq]
          exact .inr (length_secureKey k)
    dsimp only
    split_ifs
    · exact ⟨by rw [after, Batch.all_write]; exact hput.ordered,
        by rw [Batch.all_write]; exact hput.keys⟩
    · exact hput

theorem Flushes.has (hf : Flushes db l b) (hh : (db.after b).Has h) : db.disk.Has h ∨ h ∈ l := by
  obtain ⟨p, hp, hk⟩ := hh
  rcases List.mem_append.1 hp with hp | hp
  · rcases hf.keys p (List.mem_reverse.1 hp) with ⟨x, hx, hkx⟩ | hlen
    · exact .inr (Subtype.ext (hk.symm.trans hkx) ▸ hx)
    · exact absurd (by rw [hk]; exact h.2) hlen
  · exact .inl ⟨p, hp, hk⟩

theorem Flushes.take (hf : Flushes db l b) (k : ℕ) :
    (db.disk.write (b.write.written.take k).flatten).Ordered := by
  refine hf.ordered.take ?_
  rw [← b.flatten_written]
  exact ⟨(b.write.written.drop k).flatten, by rw [← List.flatten_append, List.take_append_drop]⟩

/-! ## The counters -/

/-- `height` and `time` number the hashes by their first and their last insertion, `pins`
    counts the references from outside, and `owed` those that are still to be taken down. -/
structure Balanced (height time pins owed : Hash → ℕ) (l : List Hash) (db : Database) : Prop where
  refs : ∀ p ∈ l, ∀ c ∈ db.refsOf p,
    height c < height p ∧ (db.disk.Has c ∨ c ∈ l ∧ time c < time p)
  count : ∀ h ∈ l, ¬ db.disk.Has h → db.parentsOf h = db.refCount l h + pins h + owed h
  free : ∀ h ∉ l, ¬ db.disk.Has h → pins h = 0 ∧ owed h = 0
  disk : db.disk.Ordered

namespace Balanced

theorem flushes (hb : Balanced height time pins owed l db) : Flushes db l {} :=
  ⟨hb.disk, by simp [Batch.all]⟩

/-- The disk grows, and the nodes stay what they are. -/
theorem congr (hb : Balanced height time pins owed l db) (hs : Agree body l db db')
    (hd : ∀ h, db.disk.Has h → db'.disk.Has h) (ho : db'.disk.Ordered) :
    Balanced height time pins owed l db' where
  refs p hp c hc := (hb.refs p hp c (hs.of_body.refs hp ▸ hc)).imp_right fun h => h.imp (hd c) id
  count h hh hx := by
    rw [hs.parents hh, hs.of_body.refCount]
    exact hb.count h hh (mt (hd h) hx)
  free h hh hx := hb.free h hh (mt (hd h) hx)
  disk := ho

theorem owed_congr (hb : Balanced height time pins owed l db)
    (ho : ∀ h, ¬ db.disk.Has h → owed' h = owed h) : Balanced height time pins owed' l db :=
  { hb with
    count := fun h hh hx => by rw [ho h hx]; exact hb.count h hh hx
    free := fun h hh hx => by rw [ho h hx]; exact hb.free h hh hx }

theorem renumber {height' time' : Hash → ℕ} (hb : Balanced height time pins owed l db)
    (hh : ∀ h, h ∈ l ∨ db.disk.Has h → height' h = height h) (ht : ∀ h ∈ l, time' h = time h) :
    Balanced height' time' pins owed l db :=
  { hb with
    refs := fun p hp c hc => by
      obtain ⟨h₁, h₂⟩ := hb.refs p hp c hc
      refine ⟨?_, h₂.imp id fun h => ⟨h.1, by rw [ht c h.1, ht p hp]; exact h.2⟩⟩
      rw [hh p (.inl hp), hh c (h₂.elim .inr fun h => .inl h.1)]
      exact h₁ }

/-- A node goes out of the list: nothing that needs it is left, or it is on disk.  Its
    references are still to be taken down. -/
theorem unlink (hb : Balanced height time pins owed l db) (hc : child ∈ l)
    (hz : db.disk.Has child ∨ db.parentsOf child = 0) :
    Balanced height time pins (fun h => owed h + (db.refsOf child).count h) (l.erase child) db := by
  have hcount := db.refCount_erase hc
  -- off the disk, nobody references the node
  have hfree : ¬ db.disk.Has child → db.refCount l child = 0 ∧ pins child = 0 ∧ owed child = 0 := by
    intro hx
    have h₁ := hb.count child hc hx
    rw [hz.resolve_left hx] at h₁
    omega
  refine ⟨fun p hp c hcp => ?_, fun h hh hx => ?_, fun h hh hx => ?_, hb.disk⟩
  · have hpl := List.mem_of_mem_erase hp
    obtain ⟨h₁, h₂⟩ := hb.refs p hpl c hcp
    refine ⟨h₁, or_iff_not_imp_left.2 fun hx => ?_⟩
    obtain ⟨h₃, h₄⟩ := h₂.resolve_left hx
    refine ⟨(List.mem_erase_of_ne ?_).2 h₃, h₄⟩
    rintro rfl
    have := refCount_pos hpl hcp
    have := (hfree hx).1
    omega
  · have h₁ := hb.count h (List.mem_of_mem_erase hh) hx
    rw [hcount] at h₁
    omega
  · by_cases hhc : h = child
    · subst hhc
      have h₁ := hfree hx
      rw [hcount] at h₁
      exact ⟨h₁.2.1, by omega⟩
    · have hl : h ∉ l := fun hl => hh ((List.mem_erase_of_ne hhc).2 hl)
      have h₁ := hb.free h hl hx
      have h₂ : (db.refsOf child).count h = 0 := List.count_eq_zero.2 fun hr =>
        (hb.refs child hc h hr).2.elim hx fun h₃ => hl h₃.1
      exact ⟨h₁.1, by omega⟩

/-- A node that is on disk with all it references goes out of the list. -/
theorem uncache (hb : Balanced height time pins owed l db) (hc : child ∈ l)
    (hd : db.disk.Has child) (hr : ∀ c ∈ db.refsOf child, db.disk.Has c) :
    Balanced height time pins owed (l.erase child) db := by
  refine (hb.unlink hc (.inl hd)).owed_congr fun h hx => ?_
  rw [List.count_eq_zero.2 fun hc => hx (hr h hc), Nat.add_zero]

theorem uncache_all {zs ws : List Hash} (hb : Balanced height time pins owed (zs ++ ws) db)
    (hzs : ∀ z ∈ zs, db.disk.Has z ∧ ∀ c ∈ db.refsOf z, db.disk.Has c) :
    Balanced height time pins owed ws db := by
  induction zs with
  | nil => exact hb
  | cons z zs ih =>
    obtain ⟨⟨hd, hr⟩, hzs⟩ := List.forall_mem_cons.1 hzs
    have hb₁ := hb.uncache (by simp) hd hr
    rw [List.cons_append, List.erase_cons_head] at hb₁
    exact ih hb₁ hzs

theorem pay (hb : Balanced height time pins (fun h => owed h + [child].count h) l db)
    (hn : db.dirties.get child = some node) :
    Balanced height time pins owed l
      { db with dirties := db.dirties.set child (dropParent node) } := by
  set db₁ : Database := { db with dirties := db.dirties.set child (dropParent node) }
  have hs : Agree content l db db₁ := by
    refine agree_of_set hn rfl (fun _ => ?_) ?_ <;> rw [dropParent] <;> split_ifs <;> rfl
  refine ⟨fun p hp c hc => hb.refs p hp c (hs.refs hp ▸ hc), fun h hh hx => ?_, fun h hh hx => ?_,
    hb.disk⟩
  · have hcount := hb.count h hh hx
    rw [hs.refCount, parentsOf, show db₁.dirties.get h = _ from get_set ..]
    split_ifs with hc
    · subst hc
      have h1 : (1 : UInt32).toNat = 1 := rfl
      rw [parentsOf, hn, List.count_singleton_self] at hcount
      simp only [Option.elim] at hcount ⊢
      have hle : (1 : UInt32) ≤ node.parents := by
        rw [UInt32.le_iff_toNat_le]
        omega
      have hpos : node.parents > 0 := by
        rw [gt_iff_lt, UInt32.lt_iff_toNat_lt, show (0 : UInt32).toNat = 0 from rfl]
        omega
      rw [dropParent, if_pos hpos, UInt32.toNat_sub_of_le _ _ hle]
      omega
    · rw [List.count_eq_zero.2 (by simpa using hc)] at hcount
      exact hcount
  · have := hb.free h hh hx
    exact ⟨this.1, by omega⟩

theorem owes : Owes (Balanced height time pins) where
  blind _ _ _ _ hb hs hd := hb.congr hs (fun h => by rw [hd]; exact id) (hd ▸ hb.disk)
  out {owed l db c} hb hc := { hb with
    count := fun h hh hx => by
      have := hb.count h hh hx
      rwa [List.count_eq_zero.2 (by rintro (_ | ⟨_, ⟨⟩⟩); exact hc hh)] at this
    free := fun h hh hx => by
      have := hb.free h hh hx
      exact ⟨this.1, by omega⟩ }
  pay := pay
  unlink {owed l db h node} hb hh hn hz := by
    have hrefs : db.refsOf h = node.refs := by rw [refsOf, hn]; rfl
    have := hb.unlink hh (.inr (by rw [parentsOf, hn, Option.elim, hz]; rfl))
    rwa [hrefs] at this

theorem acyclic (hb : Balanced height time pins owed l db) (hi : Listed time l db)
    (hz : h ≠ .zero) : db.Acyclic h := by
  have hlt : ∀ {x y}, x ≠ .zero → TransGen db.Refs x y → height y < height x := by
    intro x y hx hxy
    induction hxy with
    | single hr => exact (hb.refs _ (hi.mem_of_refs hr hx) _ hr).1
    | tail hxy hr ih =>
      have hne := hi.ne_zero hx hxy.to_reflTransGen
      exact (hb.refs _ (hi.mem_of_refs hr hne) _ hr).1.trans ih
  exact fun x hx hxx => lt_irrefl _ (hlt (hi.ne_zero hz hx) hxx)

/-- A new node comes to the end of the list. -/
theorem push (hb : Balanced height time pins (fun _ => 0) l db) (hs : Agree content l db db')
    (hpar : ∀ x ∈ l, db'.parentsOf x = db.parentsOf x + (db'.refsOf h).count x)
    (hzero : db'.parentsOf h = 0) (hdisk : db'.disk = db.disk) (hl : h ∉ l)
    (htime : ∀ x ∈ l, time x < time h)
    (hrefs : ∀ c ∈ db'.refsOf h, height c < height h ∧ (db.disk.Has c ∨ c ∈ l)) :
    Balanced height time pins (fun _ => 0) (l ++ [h]) db' := by
  refine ⟨fun p hp c hc => ?_, fun x hx hd => ?_, fun x hx hd => ?_, hdisk ▸ hb.disk⟩
  · rw [hdisk]
    rcases List.mem_append.1 hp with hp | hp
    · rw [hs.refs hp] at hc
      exact (hb.refs p hp c hc).imp_right fun h => h.imp id fun h => ⟨by simp [h.1], h.2⟩
    · obtain rfl := List.mem_singleton.1 hp
      exact (hrefs c hc).imp_right fun h => h.imp id fun h => ⟨by simp [h], htime c h⟩
  · rw [hdisk] at hd
    rw [refCount_append, refCount_singleton, hs.refCount]
    rcases List.mem_append.1 hx with hx | hx
    · have := hb.count x hx hd
      rw [hpar x hx]
      omega
    · obtain rfl := List.mem_singleton.1 hx
      have h₁ : (db'.refsOf x).count x = 0 :=
        List.count_eq_zero.2 fun hc => lt_irrefl _ (hrefs x hc).1
      have h₂ : db.refCount l x = 0 := refCount_eq_zero fun p hp hc =>
        (hb.refs p hp x hc).2.elim hd fun h₃ => hl h₃.1
      have := (hb.free x hl hd).1
      omega
  · exact hb.free x (fun hm => hx (by simp [hm])) (hdisk ▸ hd)

section
variable (hb : Balanced height time pins owed l db) (hdisk : db'.disk = db.disk)
  (hpar : ∀ x ∈ l, db'.parentsOf x = db.parentsOf x + [child].count x)
include hb hdisk hpar

/-- A node is referenced from outside. -/
theorem pin (hrefs : ∀ x ∈ l, db'.refsOf x = db.refsOf x) (hc : child ∈ l) :
    Balanced height time (fun h => pins h + [child].count h) owed l db' := by
  refine ⟨fun p hp c hcp => ?_, fun h hh hx => ?_, fun h hh hx => ?_, hdisk ▸ hb.disk⟩
  · rw [hdisk]
    exact hb.refs p hp c (hrefs p hp ▸ hcp)
  · have := hb.count h hh (hdisk ▸ hx)
    rw [hpar h hh, refCount_congr hrefs]
    omega
  · have := hb.free h hh (hdisk ▸ hx)
    rw [List.count_eq_zero.2 (by rintro (_ | ⟨_, ⟨⟩⟩); exact hh hc)]
    exact this

/-- A node is referenced by another one. -/
theorem refer (hnd : l.Nodup) (hp : parent ∈ l)
    (hrefs : ∀ x ∈ l, db'.refsOf x = if x = parent then child :: db.refsOf x else db.refsOf x)
    (hc : height child < height parent ∧
      (db.disk.Has child ∨ child ∈ l ∧ time child < time parent)) :
    Balanced height time pins owed l db' := by
  refine ⟨fun q hq c hcq => ?_, fun h hh hx => ?_, fun h hh hx => hb.free h hh (hdisk ▸ hx),
    hdisk ▸ hb.disk⟩
  · rw [hdisk]
    rw [hrefs q hq] at hcq
    split_ifs at hcq with hqp
    · subst hqp
      rcases List.mem_cons.1 hcq with rfl | hcq
      · exact hc
      · exact hb.refs q hq c hcq
    · exact hb.refs q hq c hcq
  · have h₁ := hb.count h hh (hdisk ▸ hx)
    have h₂ : db'.refCount (l.erase parent) h = db.refCount (l.erase parent) h :=
      refCount_congr (fun q hq => by
        rw [hrefs q (List.mem_of_mem_erase hq),
          if_neg fun he => List.Nodup.not_mem_erase hnd (he ▸ hq)]) h
    rw [db.refCount_erase hp] at h₁
    rw [hpar h hh, refCount_erase _ hp, h₂, hrefs parent hp, if_pos rfl]
    simp only [List.count_cons, List.count_nil]
    omega

end

theorem pin_disk (hb : Balanced height time pins owed l db) (hc : db.disk.Has child) :
    Balanced height time (fun h => pins h + [child].count h) owed l db := by
  have hne : ∀ {h}, ¬ db.disk.Has h → [child].count h = 0 := fun hx =>
    List.count_eq_zero.2 (by rintro (_ | ⟨_, ⟨⟩⟩); exact hx hc)
  exact { hb with
    count := fun h hh hx => by rw [hne hx]; exact hb.count h hh hx
    free := fun h hh hx => by rw [hne hx]; exact hb.free h hh hx }

/-- A reference from outside is to be taken down. -/
theorem unpin (hb : Balanced height time pins (fun _ => 0) l db) (hp : 0 < pins child) :
    Balanced height time (fun h => pins h - [child].count h) (fun h => 0 + [child].count h) l db := by
  have hle : ∀ h, [child].count h ≤ pins h := by
    intro h
    by_cases hc : child = h
    · subst hc
      rw [List.count_singleton_self]
      exact hp
    · rw [List.count_eq_zero.2 (by simpa using Ne.symm hc)]
      exact Nat.zero_le _
  exact { hb with
    count := fun h hh hx => by have := hb.count h hh hx; have := hle h; omega
    free := fun h hh hx => by have := hb.free h hh hx; have := hle h; omega }

end Balanced

/-! ## Writing -/

theorem Listed.mem_of_time (hi : Listed time l db) {xs ys : List Hash} {p c : Hash}
    (hl : l = xs ++ p :: ys) (hc : c ∈ l) (ht : time c < time p) : c ∈ xs := by
  have hs := hi.sorted
  rw [hl] at hc hs
  rcases List.mem_append.1 hc with hc | hc
  · exact hc
  · rcases List.mem_cons.1 hc with rfl | hc
    · exact absurd ht (lt_irrefl _)
    · have := (List.pairwise_cons.1 (List.pairwise_append.1 hs).2.1).1 c hc
      omega

/-- The batches are fine, and the nodes `xs` are in them with all that they reference. -/
def Written (db : Database) (l xs : List Hash) (b : Batch) : Prop :=
  Flushes db l b ∧ ∀ h ∈ xs, (db.after b).Has h ∧ ∀ c ∈ db.refsOf h, (db.after b).Has c

/-- **`Cap` keeps the counters.**  The batches it writes are in order, and the nodes
    that are no longer in memory are on disk. -/
theorem Listed.cap_balanced (hi : Listed time l db) (hb : Balanced height time pins owed l db)
    (iter : ℕ → List Hash → List Hash) (limit : ℤ) :
    ∃ oldest b db' l', capFlush iter db limit = some (oldest, b.write.written) ∧ Flushes db l b ∧
      db.cap iter limit = some db' ∧ Listed time l' db' ∧ l'.Sublist l ∧ db'.disk = db.after b ∧
      Balanced height time pins owed l' db' := by
  have hstart : Written db l [] (if db.capPreimages then putPreimages iter db {} else {}) := by
    refine ⟨?_, by simp⟩
    split_ifs
    · exact hb.flushes.putPreimages
    · exact hb.flushes
  have hadd : Extends l db (Written db l) := by
    intro xs ys y node blob b hl hn _ hP
    have hy : y ∈ l := by simp [hl]
    have hrefs : db.refsOf y = node.refs := by rw [refsOf, hn]; rfl
    have hhas : ∀ c ∈ node.refs, (db.after b).Has c := by
      intro c hc
      rcases (hb.refs y hy c (hrefs ▸ hc)).2 with h | ⟨h₁, h₂⟩
      · exact h.write b.all
      · exact (hP.2 c (hi.mem_of_time hl h₁ h₂)).1
    obtain ⟨hf, hself⟩ := hP.1.add hy blob hhas
    refine ⟨hf, fun h hh => ?_⟩
    rcases List.mem_append.1 hh with hh | hh
    · exact (hP.2 h hh).imp (has_add · _) fun h c hc => has_add (h c hc) _
    · rw [List.mem_singleton.1 hh, hrefs]
      exact ⟨hself, fun c hc => has_add (hhas c hc) _⟩
  obtain ⟨zs, ws, b, db', hl, ⟨hf, hzs⟩, hflush, hcap, hi', hs, hdisk, hbody⟩ :=
    hi.cap iter limit hstart hadd
  have hb₁ : Balanced height time pins owed l { db with disk := db.after b } :=
    hb.congr ⟨fun _ _ => rfl, rfl⟩ (fun h hh => hh.write b.all) hf.ordered
  rw [hl] at hb₁
  refine ⟨_, b, db', ws, hflush, hf, hcap, hi', hs.sub, hdisk,
    (hb₁.uncache_all hzs).congr ⟨hbody.nodes, hbody.root⟩ (fun h hh => ?_) (hdisk ▸ hf.ordered)⟩
  rw [hdisk]
  exact hh

/-- **`Commit` keeps the counters**, and it writes the children first. -/
theorem Listed.commit_balanced (hi : Listed time l db) (hb : Balanced height time pins owed l db)
    (hiter : ∀ n l, (iter n l).Perm l) (hz : hash ≠ .zero) :
    ∃ b n db' l', commitFlush iter db hash = some (b.write.written, n) ∧ Flushes db l b ∧
      db.commit iter hash = some db' ∧ Listed time l' db' ∧ l'.Sublist l ∧ db'.disk = db.after b ∧
      Balanced height time pins owed l' db' := by
  have hhas : ∀ {b} {h c : Hash}, h ∈ l → c ∈ db.refsOf h → (c ∈ l → (db.after b).Has c) →
      (db.after b).Has c := fun {b h c} hh hc hdone =>
    (hb.refs h hh c hc).2.elim (fun h => h.write b.all) fun h => hdone h.1
  have hw : Writes db l (Flushes db l) fun b x => (db.after b).Has x := by
    refine ⟨fun iter => hb.flushes.putPreimages, fun p hx => has_add hx p, ?_⟩
    intro h node blob b hh hn _ hf hdone
    refine hf.add hh blob fun c hc => hhas hh ?_ (hdone c hc)
    rw [refsOf, hn]
    exact hc
  -- what is below the node is on disk, with all it references
  let K (l : List Hash) (db' : Database) : Prop := Balanced height time pins owed l db' ∧
    ∀ p ∈ l, ReflTransGen db.Refs hash p → db'.disk.Has p ∧ ∀ c ∈ db'.refsOf p, db'.disk.Has c
  have hK : Blind fun _ => K := by
    refine fun _ l db db' hk hs hd => ⟨Balanced.owes.blind hk.1 hs hd, fun p hp hr => ?_⟩
    rw [hs.of_body.refs hp, hd]
    exact hk.2 p hp hr
  have hstart : ∀ {b db₁}, Flushes db l b →
      (∀ x ∈ l, ReflTransGen db.Refs hash x → (db.after b).Has x) → db₁.dirties = db.dirties →
      db₁.disk = db.after b → K l db₁ := by
    intro b db₁ hf hdone hdirt hdisk
    have hs : Agree body l db db₁ := agree_of_get (fun _ _ => by rw [hdirt]) (by rw [hdirt])
    refine ⟨hb.congr hs (fun h hh => ?_) (hdisk ▸ hf.ordered), fun p hp hr => ?_⟩
    · rw [hdisk]
      exact hh.write b.all
    · rw [hdisk, hs.of_body.refs hp]
      exact ⟨hdone p hp hr, fun c hc => hhas hp hc fun hcl => hdone c hcl (hr.tail hc)⟩
  obtain ⟨b, n, db', l', hflush, hf, hcommit, hi', hs, hdisk, hb', -⟩ := hi.commit hiter hz
    (hb.acyclic hi hz) hw hK hstart fun hk hh hr => ⟨hk.1.uncache hh (hk.2 _ hh hr).1
      (hk.2 _ hh hr).2, fun p hp => hk.2 p (List.mem_of_mem_erase hp)⟩
  exact ⟨b, n, db', l', hflush, hf, hcommit, hi', hs.sub, hdisk, hb'⟩

end GoEthereum.Trie.Database
