/-
  The flush list of the node database, in every run (`trie/database.go`).

  The flush list has the nodes in memory, in the order of their insertion, and no
  operation looks up a node that is not in memory.  Unlike the safety of garbage
  collection this does not depend on the counters of references: a node may be deleted
  too early, but it is taken out of the list first.

  It does depend on how the database is called.  `Reference` needs the parent in memory,
  no node may reference the zero hash, under which the meta-root is kept, and below a
  node that is dereferenced or committed the references must have no cycle, since a node
  on a cycle would be taken out of the list twice.
-/
import GoEthereum.Trie.Gc

namespace GoEthereum.Trie

open GoEthereum.Rlp LinkedList AssocMap Relation

namespace Database

variable {db db' : Database} {l l' : List Hash}

/-- The count is the sum of the sizes, which are the given lengths. -/
structure Counted (len : Hash → ℕ) (l : List Hash) (db : Database) : Prop where
  count : db.dirtiesSize = db.weight l
  bytes : ∀ h ∈ l, db.bytesOf h = len h

theorem Counted.shrink {len : Hash → ℕ} (h : Counted len l db) (hs : Shrinks l l' db db') :
    Counted len l' db' := by
  have hcount := hs.count
  rw [h.count] at hcount
  exact ⟨by linarith, fun x hx => (hs.same.bytes hx).trans (h.bytes x (hs.sub.subset hx))⟩

/-- Following `flushNext` from the oldest node. -/
def flushOrder (db : Database) : List Hash :=
  Chain.walk .zero db.next db.dirties.size db.oldest

theorem Linked.flushOrder_eq (hi : Linked [] l db) : db.flushOrder = l :=
  Chain.walk_eq hi.chain hi.length_lt_size.le

end Database

/-! ## Runs -/

namespace DbRun

open Database

variable {iter : MapOrder} {disk : Disk} {w w' : DbRun} {op : DbOp} {l : List Hash}

/-- How the database is to be called: no stored node references the zero hash, `Reference`
    is called with a parent that is in memory, and what is dereferenced or committed has
    no cycle of references below it. -/
def Proper (w : DbRun) : DbOp → Prop
  | .insert _ _ node => ∀ n, simplifyNode node = some n → Hash.zero ∉ n.gatherChildren
  | .insertBlob _ _ => True
  | .reference child parent => w.db.dirties.has child = true →
      child ≠ .zero ∧ w.db.dirties.has parent = true
  | .dereference root => root ≠ .zero → w.db.Acyclic root
  | .cap _ => True
  | .commit node => node ≠ .zero → w.db.Acyclic node

/-- The lengths of the blobs in memory after a call. -/
def lengths (w : DbRun) (len : Hash → ℕ) : DbOp → Hash → ℕ
  | .insert hash blob _ | .insertBlob hash blob =>
    if w.db.dirties.has hash then len else Function.update len hash blob.length
  | _ => len

/-- A new node has a size that fits in 16 bits together with the length of its hash. -/
def Small (w : DbRun) : DbOp → Prop
  | .insert hash blob _ | .insertBlob hash blob =>
    w.db.dirties.has hash = false → 32 + blob.length < 2 ^ 16
  | _ => True

/-- The calls that panic although nothing is missing: `Commit` of the meta-root, which has
    no encoding, and `insert` of a node with `nil` in it. -/
def Refused : DbOp → Prop
  | .insert _ _ node => simplifyNode node = none
  | .commit node => node = .zero
  | _ => False

theorem Ok.insert_counted (hi : Ok l w) {hash : Hash} {blob b : Bytes} {stored : Stored}
    (hh : w.db.dirties.has hash = false) (hrlp : (newEntry w.db blob stored).rlp = some b)
    (hrefs : Hash.zero ∉ stored.children) :
    ∃ db', w.db.insertStored hash blob stored = some db' ∧ Ok (l ++ [hash]) (w.inserted hash db') ∧
      ∀ len, 32 + blob.length < 2 ^ 16 → Counted len l w.db →
        Counted (Function.update len hash blob.length) (l ++ [hash]) (w.inserted hash db').db := by
  obtain ⟨db', ⟨hins, -, hsize, hself, hs, -⟩, hok⟩ := hi.insertStored hh hrlp hrefs
  refine ⟨db', hins, hok, fun len hsmall hc => ?_⟩
  have hlen : (UInt16.ofNat blob.length).toNat = blob.length := by
    rw [UInt16.toNat_ofNat']
    exact Nat.mod_eq_of_lt (by omega)
  have hsum : (32 + UInt16.ofNat blob.length).toNat = 32 + blob.length := by
    rw [UInt16.toNat_add, hlen]
    exact Nat.mod_eq_of_lt hsmall
  have hbytes : db'.bytesOf hash = blob.length := by
    rw [bytesOf, hself]
    exact hlen
  rw [inserted_eq hh]
  constructor
  · rw [hsize, hc.count, weight_append, hs.weight, hsum]
    simp [weight, hbytes]
  · intro x hx
    rcases List.mem_append.1 hx with hxl | hx
    · rw [hs.bytes hxl, hc.bytes x hxl, Function.update_of_ne]
      rintro rfl
      exact (hi.listed.notMem hh).2 hxl
    · rw [List.mem_singleton.1 hx, hbytes, Function.update_self]

/-- **One call keeps the flush list** and the count, and it fails only where it is refused. -/
theorem Ok.step (iter : MapOrder) (hi : Ok l w) (hp : w.Proper op) (hr : ¬ Refused op) :
    ∃ w' l', w.step iter op = some w' ∧ Ok l' w' ∧
      ∀ len, w.Small op → Counted len l w.db → Counted (w.lengths len op) l' w'.db := by
  cases op with
  | insert hash blob node =>
    by_cases hh : w.db.dirties.has hash = true
    · refine ⟨w, l, ?_, hi, fun len _ hc => by rwa [lengths, if_pos hh]⟩
      rw [DbRun.step, Database.insert, if_pos hh, Option.map_some, inserted, if_pos hh]
    · rcases hn : simplifyNode node with _ | n
      · exact absurd hn hr
      obtain ⟨b, hb⟩ := rlp_newEntry hn w.db blob
      have hh : w.db.dirties.has hash = false := by simpa using hh
      obtain ⟨db', hins, hok, hc⟩ := hi.insert_counted hh hb (hp n hn)
      refine ⟨_, _, ?_, hok, fun len hs hcount => ?_⟩
      swap
      · rw [lengths, if_neg (by simp [hh])]
        exact hc len (hs hh) hcount
      rw [DbRun.step, Database.insert, if_neg (by simp [hh]), hn]
      dsimp only
      rw [hins, Option.map_some]
  | insertBlob hash blob =>
    by_cases hh : w.db.dirties.has hash = true
    · refine ⟨w, l, ?_, hi, fun len _ hc => by rwa [lengths, if_pos hh]⟩
      rw [DbRun.step, Database.insertBlob, Database.insertStored, if_pos hh, Option.map_some,
        inserted, if_pos hh]
    · have hh : w.db.dirties.has hash = false := by simpa using hh
      obtain ⟨db', hins, hok, hc⟩ := hi.insert_counted hh
        (show (newEntry w.db blob (.blob blob)).rlp = some blob from rfl)
        (by simp [Stored.children])
      refine ⟨_, _, by rw [DbRun.step, Database.insertBlob, hins, Option.map_some], hok,
        fun len hs hcount => ?_⟩
      rw [lengths, if_neg (by simp [hh])]
      exact hc len (hs hh) hcount
  | reference child parent =>
    obtain ⟨db', href, hlisted, hcount, -, hbytes, -⟩ := hi.listed.reference hp
    have hc : ∀ len, Counted len l w.db → Counted len l db' := fun len hc =>
      ⟨by simp only [hcount, hc.count, weight, hbytes], fun x hx => (hbytes x).trans (hc.bytes x hx)⟩
    rw [DbRun.step, href, Option.map_some]
    by_cases hz : parent = .zero
    · rw [if_pos hz]
      exact ⟨_, l, rfl, ⟨hlisted, hi.clock⟩, fun len _ => hc len⟩
    · rw [if_neg hz]
      exact ⟨_, l, rfl, ⟨hlisted, hi.clock⟩, fun len _ => hc len⟩
  | dereference root =>
    obtain ⟨db', l', hd, hlisted, hs, -⟩ := hi.listed.dereferenceRoot iter.perm owes_true
      (fun _ => 0) hp trivial
    rw [DbRun.step, hd, Option.map_some]
    exact ⟨_, l', rfl, ⟨hlisted, hi.clock⟩, fun len _ hcount => hcount.shrink hs⟩
  | cap limit =>
    obtain ⟨_, l', _, db', -, -, -, hc, hlisted, hs, -⟩ := hi.listed.cap iter.order limit
      (P := fun _ _ => True) trivial fun _ _ _ _ => trivial
    rw [DbRun.step, hc, Option.map_some]
    exact ⟨_, l', rfl, ⟨hlisted, hi.clock⟩, fun len _ hcount => hcount.shrink hs⟩
  | commit node =>
    have hz : node ≠ .zero := hr
    have hw : Writes w.db l (fun _ => True) fun _ _ => True :=
      ⟨fun _ => trivial, fun _ _ => trivial, fun _ _ _ _ _ => ⟨trivial, trivial⟩⟩
    obtain ⟨_, _, db', l', -, -, hc, hlisted, hs, -⟩ := hi.listed.commit iter.perm hz (hp hz) hw
      (K := fun _ _ => True) (fun _ _ _ _ _ _ _ => trivial) (fun _ _ _ _ => trivial)
      fun _ _ _ => trivial
    rw [DbRun.step, hc, Option.map_some]
    exact ⟨_, l', rfl, ⟨hlisted, hi.clock⟩, fun len _ hcount => hcount.shrink hs⟩

theorem Ok.step_refused (hi : Ok l w) (hr : Refused op) (hs : w.step iter op = some w') :
    w' = w ∧ ∀ len, w.lengths len op = len := by
  cases op with
  | insert hash blob node =>
    obtain ⟨db', hdb, rfl⟩ := Option.map_eq_some_iff.1 hs
    rw [Database.insert] at hdb
    split_ifs at hdb with hh
    · cases hdb
      exact ⟨by rw [inserted, if_pos hh], fun len => by rw [lengths, if_pos hh]⟩
    · rw [show simplifyNode node = none from hr] at hdb
      cases hdb
  | commit node =>
    obtain ⟨db', hdb, rfl⟩ := Option.map_eq_some_iff.1 hs
    rw [show node = .zero from hr, Database.commit, hi.listed.commitFlush_zero] at hdb
    cases hdb
  | insertBlob | reference | dereference | cap => exact hr.elim

theorem Reachable.ok (hw : Reachable iter Proper disk w) : ∃ l, Ok l w := by
  induction hw with
  | start => exact ⟨[], ok_start disk⟩
  | step op _ hp hs ih =>
    obtain ⟨l, hi⟩ := ih
    by_cases hr : Refused op
    · exact ⟨l, (hi.step_refused hr hs).1 ▸ hi⟩
    · obtain ⟨w₁, l₁, h₁, hok, -⟩ := hi.step iter hp hr
      cases hs.symm.trans h₁
      exact ⟨l₁, hok⟩

/-- **The flush list is intact** in every run of proper calls over any disk.  Following it
    enumerates the nodes in memory, each once, in the order of their insertion, from the
    oldest to the newest; its back pointers agree; and no proper call fails on a missing
    entry. -/
theorem flush_list_integrity (hw : Reachable iter Proper disk w) :
    w.db.flushOrder.Nodup ∧
    (∀ h, h ∈ w.db.flushOrder ↔ h ≠ .zero ∧ w.db.dirties.has h = true) ∧
    w.db.flushOrder.Pairwise (fun a b => w.time a < w.time b) ∧
    w.db.flushOrder.IsChain (fun a b => w.db.next a = b ∧ w.db.prev b = a) ∧
    (∀ h ∈ w.db.flushOrder.getLast?, w.db.newest = h ∧ w.db.next h = .zero) ∧
    ∀ op, w.Proper op → w.step iter op = none → Refused op := by
  obtain ⟨l, hi⟩ := hw.ok
  have hc := hi.listed.chain
  rw [hi.listed.flushOrder_eq]
  refine ⟨hc.nodup, fun h => ?_, hi.listed.sorted, hc.link,
    fun h hh => ⟨hc.back h hh, hc.stop h hh⟩, fun op hp hs => ?_⟩
  · rw [hi.listed.mem h]
    constructor
    · intro hh
      exact ⟨fun hz => hc.notMem (hz ▸ hh), .inr (.inl hh)⟩
    · rintro ⟨hz, hh⟩
      simpa [hz] using hh
  · by_contra hr
    obtain ⟨w', l', hw', -⟩ := hi.step iter hp hr
    cases hs.symm.trans hw'

/-- A blob and a short node that references it. -/
theorem flush_list_integrity_twoNodes : ∃ w, Reachable inOrder Proper [] w ∧
    w.db.flushOrder = [blobHash, shortHash] ∧ w.time blobHash < w.time shortHash ∧
    w.db.newest = shortHash ∧ w.db.prev shortHash = blobHash := by
  obtain ⟨w, hw, hl⟩ : ∃ w, Reachable inOrder Proper [] w ∧
      w.db.flushOrder = [blobHash, shortHash] := by
    have h₁ : Reachable inOrder Proper [] _ := .step (.insertBlob blobHash [1]) .start trivial rfl
    exact ⟨_, .step (.insert shortHash [] shortBlob) h₁ (fun n hn => by cases hn; decide) rfl,
      by decide +kernel⟩
  obtain ⟨-, -, htime, hlink, hlast, -⟩ := flush_list_integrity hw
  rw [hl] at htime hlink hlast
  refine ⟨w, hw, hl, by simpa using htime, (hlast shortHash rfl).1, ?_⟩
  rw [List.isChain_cons_cons] at hlink
  exact hlink.1.2

/-- `Reference` looks up the parent without a check: with the child in memory and the
    parent not, it fails. -/
theorem reference_of_missing_parent : ∃ w, Reachable inOrder (fun _ _ => True) [] w ∧
    w.db.dirties.has blobHash = true ∧ w.db.dirties.has shortHash = false ∧
    w.step inOrder (.reference blobHash shortHash) = none :=
  ⟨_, .step (.insertBlob blobHash [1]) .start trivial rfl, by decide, by decide, rfl⟩

theorem acyclic_of_refs {db : Database} {h : Hash}
    (hrefs : ∀ p c, db.Refs p c → p = h ∧ c ≠ h) (x : Hash) : db.Acyclic x := by
  rintro y - hyy
  obtain ⟨z, hyz, hzy⟩ := TransGen.head'_iff.1 hyy
  rcases hzy.cases_head with rfl | ⟨u, hzu, -⟩
  · exact (hrefs _ _ hyz).2 (hrefs _ _ hyz).1
  · exact (hrefs _ _ hyz).2 (hrefs _ _ hzu).1

/-- A node that references the zero hash. -/
def zeroChild : DbOp := .insert shortHash [] (.short [0x16] (.hash .zero) {})

/-- Its deletion deletes the meta-root, and `Dereference` fails then. -/
theorem metaRoot_deleted : ∃ w, Reachable inOrder (fun w op => w.Proper op ∨ op = zeroChild) [] w ∧
    w.Proper (.dereference blobHash) ∧ w.step inOrder (.dereference blobHash) = none := by
  have h₁ : Reachable inOrder (fun w op => w.Proper op ∨ op = zeroChild) [] _ :=
    .step zeroChild .start (.inr rfl) rfl
  refine ⟨_, .step (.dereference shortHash) h₁ (.inl fun _ => ?_) rfl, fun _ => ?_, rfl⟩
  · refine acyclic_of_refs (h := shortHash) (fun p c hc => ?_) _
    have hp : p ∈ [shortHash, .zero] := (mem_keys _ _).2 (Refs.get hc)
    rcases List.mem_pair.1 hp with rfl | rfl
    · exact ⟨rfl, by rw [List.mem_singleton.1 hc]; decide⟩
    · exact absurd hc List.not_mem_nil
  · exact acyclic_of_refs (h := shortHash) (fun p c hc => absurd hc List.not_mem_nil) _

/-- The hashes of two more blobs. -/
def firstHash : Hash := ⟨List.replicate 32 3, by simp⟩

def lastHash : Hash := ⟨List.replicate 32 4, by simp⟩

/-- Two nodes on a cycle are taken out of the list twice, and a back pointer goes to one of
    them afterwards; `Commit` does not return. -/
theorem cycle_unlinked_twice : ∃ w w', Reachable inOrder Proper [] w ∧
    w.step inOrder (.dereference shortHash) = some w' ∧
    w'.db.flushOrder = [firstHash, lastHash] ∧ w'.db.prev lastHash = blobHash ∧
    w.step inOrder (.commit shortHash) = none := by
  have h₁ : Reachable inOrder Proper [] _ := .step (.insertBlob firstHash [1]) .start trivial rfl
  have h₂ : Reachable inOrder Proper [] _ := .step (.insertBlob blobHash [1]) h₁ trivial rfl
  have h₃ : Reachable inOrder Proper [] _ := .step (.insertBlob shortHash [1]) h₂ trivial rfl
  have h₄ : Reachable inOrder Proper [] _ := .step (.insertBlob lastHash [1]) h₃ trivial rfl
  have h₅ : Reachable inOrder Proper [] _ :=
    .step (.reference blobHash shortHash) h₄ (fun _ => by decide +kernel) rfl
  exact ⟨_, _, .step (.reference shortHash blobHash) h₅ (fun _ => by decide +kernel) rfl, rfl,
    by decide +kernel, by decide +kernel, rfl⟩

/-! ## The size -/

/-- The states of runs, with the lengths of the blobs in memory. -/
inductive Sized (iter : MapOrder) (ok : DbRun → DbOp → Prop) (disk : Disk) : DbRun → (Hash → ℕ) → Prop
  | start : Sized iter ok disk (start disk) fun _ => 0
  | step {w w' : DbRun} {len : Hash → ℕ} (op : DbOp) : Sized iter ok disk w len → ok w op →
      w.step iter op = some w' → Sized iter ok disk w' (w.lengths len op)

variable {len : Hash → ℕ}

theorem Sized.counted (hw : Sized iter (fun w op => w.Proper op ∧ w.Small op) disk w len) :
    ∃ l, Ok l w ∧ Counted len l w.db := by
  induction hw with
  | start => exact ⟨[], ok_start disk, rfl, by simp⟩
  | step op _ hp hs ih =>
    obtain ⟨l, hi, hc⟩ := ih
    by_cases hr : Refused op
    · obtain ⟨rfl, hlen⟩ := hi.step_refused hr hs
      exact ⟨l, hi, by rwa [hlen]⟩
    · obtain ⟨w₁, l₁, h₁, hok, hcount⟩ := hi.step iter hp.1 hr
      cases hs.symm.trans h₁
      exact ⟨l₁, hok, hcount _ hp.2 hc⟩

theorem perm_keys (hi : Linked [] l w.db) : w.db.dirties.keys.Perm (.zero :: l) := by
  refine (List.perm_ext_iff_of_nodup (nodup_keys _)
    (List.nodup_cons.2 ⟨hi.chain.notMem, hi.chain.nodup⟩)).2 fun h => ?_
  rw [mem_keys, ← has_eq_true, hi.mem h]
  simp

/-- **The count is the true size** in every run of proper calls that insert blobs of at most
    65503 bytes: the sum of the lengths of the blobs and hashes in memory.  It is zero when there
    are none, and `Cap` compares with its limit what the nodes take with their list. -/
theorem size_exact (hw : Sized iter (fun w op => w.Proper op ∧ w.Small op) disk w len) :
    w.db.dirtiesSize =
      ((w.db.dirties.keys.filter (· ≠ Hash.zero)).map fun h => (32 + len h : ℤ)).sum ∧
    ((∀ h, w.db.dirties.has h = true → h = .zero) → w.db.dirtiesSize = 0) ∧
    w.db.totalSize =
      ((w.db.dirties.keys.filter (· ≠ Hash.zero)).map fun h => (3 * 32 + len h : ℤ)).sum := by
  obtain ⟨l, hi, hc⟩ := hw.counted
  have hkeys := perm_keys hi.listed.toLinked
  have hl : (w.db.dirties.keys.filter (· ≠ Hash.zero)).Perm l := by
    have hself : l.filter (· ≠ Hash.zero) = l := by
      rw [List.filter_eq_self]
      intro h hh
      exact decide_eq_true fun hz => hi.listed.chain.notMem (hz ▸ hh)
    have hfilter := hkeys.filter (· ≠ Hash.zero)
    rwa [List.filter_cons_of_neg (by simp), hself] at hfilter
  have hcount : w.db.dirtiesSize = (l.map fun h => (32 + len h : ℤ)).sum := by
    rw [hc.count, Database.weight, List.map_congr_left fun h hh => by rw [hc.bytes h hh]]
  refine ⟨by rw [hcount, (hl.map _).sum_eq], fun h => ?_, ?_⟩
  · have hnil : l = [] := List.eq_nil_iff_forall_not_mem.2 fun x hx => by
      have hzero := h x ((hi.listed.mem x).2 (.inr (.inl hx)))
      exact hi.listed.chain.notMem (hzero ▸ hx)
    rw [hcount, hnil]
    rfl
  · have hsize : w.db.dirties.size = l.length + 1 := by rw [← length_keys, hkeys.length_eq]; rfl
    rw [Database.totalSize, hcount, hsize, (hl.map _).sum_eq]
    clear hsize hcount hl hkeys hc hi
    induction l with
    | nil => rfl
    | cons x l ih =>
      simp only [List.map_cons, List.sum_cons, List.length_cons] at ih ⊢
      push_cast at ih ⊢
      linarith

-- a third node is inserted and deleted again
theorem size_exact_twoNodes : ∃ w len,
    Sized inOrder (fun w op => w.Proper op ∧ w.Small op) [] w len ∧
    w.db.dirties.has blobHash = true ∧ w.db.dirties.has shortHash = true ∧
    w.db.dirtiesSize = 33 + 35 := by
  have h₁ : Sized inOrder (fun w op => w.Proper op ∧ w.Small op) [] _ _ :=
    .step (.insertBlob blobHash [1]) .start ⟨trivial, fun _ => by decide⟩ rfl
  have h₂ : Sized inOrder (fun w op => w.Proper op ∧ w.Small op) [] _ _ :=
    .step (.insert shortHash [1, 2, 3] shortBlob) h₁
      ⟨fun n hn => by cases hn; decide, fun _ => by decide⟩ rfl
  have h₃ : Sized inOrder (fun w op => w.Proper op ∧ w.Small op) [] _ _ :=
    .step (.insertBlob lastHash [1, 2]) h₂ ⟨trivial, fun _ => by decide⟩ rfl
  have hw : Sized inOrder (fun w op => w.Proper op ∧ w.Small op) [] _ _ :=
    .step (.dereference lastHash) h₃ ⟨fun _ => acyclic_of_refs (h := shortHash)
      (fun p c hc => by
        have hp : p ∈ [shortHash, lastHash, blobHash, .zero] := (mem_keys _ _).2 (Refs.get hc)
        simp only [List.mem_cons, List.not_mem_nil, or_false] at hp
        rcases hp with rfl | rfl | rfl | rfl
        · exact ⟨rfl, by rw [List.mem_singleton.1 hc]; decide⟩
        · exact absurd hc List.not_mem_nil
        · exact absurd hc List.not_mem_nil
        · exact absurd hc List.not_mem_nil) _, trivial⟩ rfl
  exact ⟨_, _, hw, by decide +kernel, by decide +kernel, (size_exact hw).1.trans (by decide +kernel)⟩

theorem insertBlob_start (blob : Bytes) : ∃ w,
    (start []).step inOrder (.insertBlob blobHash blob) = some w ∧
    w.db.dirtiesSize = ((32 + UInt16.ofNat blob.length).toNat : ℤ) ∧
    w.db.dirties.has blobHash = true ∧ (start []).lengths (fun _ => 0)
      (.insertBlob blobHash blob) blobHash = blob.length := by
  refine ⟨_, rfl, zero_add _, rfl, ?_⟩
  have hh : (start []).db.dirties.has blobHash = false := by decide
  simp only [lengths, hh, Bool.false_eq_true, if_false, Function.update_self]

/-- A blob of 65504 bytes is counted as nothing when it is inserted. -/
theorem size_lost : ∃ w len, Sized inOrder (fun w op => w.Proper op) [] w len ∧
    w.db.dirtiesSize = 0 ∧ w.db.dirties.has blobHash = true ∧ len blobHash = 65504 := by
  have hlen : (List.replicate 65504 (0 : UInt8)).length = 65504 := List.length_replicate
  obtain ⟨w, hw, hsize, hhas, hl⟩ := insertBlob_start (List.replicate 65504 0)
  refine ⟨w, _, .step (.insertBlob _ _) .start trivial hw, ?_, hhas, hl.trans hlen⟩
  rw [hsize, hlen]
  decide

end DbRun

end GoEthereum.Trie
