/-
  Flushes to a disk that fails (`trie/database.go`).

  `Cap` and `Commit` hold the lock of the database for reading until everything is written,
  and each return of an error has to release it.  Memory is as it was at all of them.  One
  keeps the lock: the `Write` between the preimages in `Commit` (`failed_flush`).
-/
import GoEthereum.Lib.Outcome
import GoEthereum.Trie.Database

namespace GoEthereum.Trie

open GoEthereum.Rlp Outcome

/-! ## The lock -/

/-- `sync.RWMutex`: the number of readers, and whether there is a writer. -/
structure RWMutex where
  readers : ℕ := 0
  writer : Bool := false

namespace RWMutex

variable {m m' : RWMutex}

/-- `RLock`, if it does not have to wait. -/
def rLock (m : RWMutex) : Option RWMutex :=
  if m.writer then none else some { m with readers := m.readers + 1 }

/-- `RUnlock`; without a reader it is a fatal error. -/
def rUnlock (m : RWMutex) : Option RWMutex :=
  if m.readers = 0 then none else some { m with readers := m.readers - 1 }

/-- `Lock`, if it does not have to wait. -/
def lock (m : RWMutex) : Option RWMutex :=
  if m.readers = 0 ∧ m.writer = false then some { m with writer := true } else none

/-- `Unlock`; without a writer it is a fatal error. -/
def unlock (m : RWMutex) : Option RWMutex :=
  if m.writer then some { m with writer := false } else none

theorem rUnlock_rLock (h : m.rLock = some m') : m'.rUnlock = some m := by
  unfold rLock at h
  split_ifs at h
  cases h
  rfl

theorem lock_rLock (h : m.rLock = some m') : m'.lock = none := by
  unfold rLock at h
  split_ifs at h
  cases h
  simp [lock]

end RWMutex

/-! ## The calls -/

/-- A call on the batch. -/
inductive BatchCall where
  | put
  | write
  deriving DecidableEq

/-- A batch, the number of calls on it and the number of iterations over maps. -/
structure Session where
  batch : Batch := {}
  calls : ℕ := 0
  iters : ℕ

/-- A call that failed, and the batch before it. -/
structure Failure where
  call : BatchCall
  session : Session

/-- A computation ends early: it panics or waits for ever, or it returns an error. -/
inductive Halt (ρ : Type) where
  | crash
  | returns (r : ρ)

def orCrash {α ρ : Type} : Option α → Except (Halt ρ) α
  | none => .error .crash
  | some a => .ok a

section

variable (fails : ℕ → Bool)

namespace Session

/-- `Put`; the disk says which calls fail. -/
def put (s : Session) (p : Put) : Except (Halt Failure) Session :=
  if fails s.calls then .error (.returns ⟨.put, s⟩)
  else .ok { s with batch := s.batch.put p, calls := s.calls + 1 }

/-- `Write` and `Reset` -/
def write (s : Session) : Except (Halt Failure) Session :=
  if fails s.calls then .error (.returns ⟨.write, s⟩)
  else .ok { s with batch := s.batch.write, calls := s.calls + 1 }

/-- `commit`, at most `fuel` calls deep. -/
def commit (iter : ℕ → List Hash → List Hash) (db : Database) :
    ℕ → Hash → Session → Except (Halt Failure) Session
  | 0, _, _ => .error .crash
  | fuel + 1, hash, s =>
    match db.dirties.get hash with
    | none => .ok s
    | some node => do
      let s ← (node.childs (iter s.iters)).foldlM (fun s c => commit iter db fuel c s)
        { s with iters := s.iters + 1 }
      let blob ← orCrash node.rlp
      let s ← s.put fails ⟨hash, blob, node.refs⟩
      if s.batch.size ≥ idealBatchSize then s.write fails else return s

end Session

/-! ## Cap and Commit -/

/-- A database and its lock. -/
structure Guarded where
  db : Database
  lock : RWMutex

/-- The return of an error: the call that failed and the database then. -/
structure Return where
  call : BatchCall
  state : Guarded

namespace Guarded

/-- The batches written so far are on disk. -/
def flushed (db : Database) (s : Session) : Database :=
  { db with disk := db.disk.write s.batch.written.flatten, iters := s.iters }

/-- An error is returned and the lock released. -/
def orUnlock {α : Type} (st : Guarded) : Except (Halt Failure) α → Except (Halt Return) α
  | .ok a => .ok a
  | .error .crash => .error .crash
  | .error (.returns f) => do
    let lock ← orCrash st.lock.rUnlock
    .error (.returns ⟨f.call, flushed st.db f.session, lock⟩)

/-- An error is returned. -/
def orReturn {α : Type} (st : Guarded) : Except (Halt Failure) α → Except (Halt Return) α
  | .ok a => .ok a
  | .error .crash => .error .crash
  | .error (.returns f) => .error (.returns ⟨f.call, flushed st.db f.session, st.lock⟩)

def preimagePut (db : Database) (h : Hash) : Put :=
  ⟨Database.secureKey h, (db.preimages.get h).getD [], []⟩

/-- The loop over the preimages; the two functions differ in what they do when `Write` fails. -/
def putPreimages (onWrite : Except (Halt Failure) Session → Except (Halt Return) Session)
    (st : Guarded) : List Hash → Session → Except (Halt Return) Session
  | [], s => .ok s
  | h :: l, s => do
    let s ← st.orUnlock (s.put fails (preimagePut st.db h))
    let s ← (if s.batch.size > idealBatchSize then onWrite (s.write fails) else pure s)
    putPreimages onWrite st l s

/-- The loop of `Cap` that writes the oldest nodes. -/
def capLoop (st : Guarded) (limit : ℤ) :
    ℕ → ℤ → Hash → Session → Except (Halt Return) (Hash × Session)
  | 0, _, _, _ => .error .crash
  | fuel + 1, size, oldest, s =>
    if size > limit ∧ oldest ≠ .zero then do
      let node ← orCrash (st.db.dirties.get oldest)
      let blob ← orCrash node.rlp
      let s ← st.orUnlock (s.put fails ⟨oldest, blob, node.refs⟩)
      let s ← (if s.batch.size ≥ idealBatchSize then st.orUnlock (s.write fails) else pure s)
      capLoop st limit fuel (size - (3 * 32 + node.size.toNat : ℕ)) node.flushNext s
    else .ok (oldest, s)

def cap (iter : ℕ → List Hash → List Hash) (st : Guarded) (limit : ℤ) :
    Except (Halt Return) Guarded := do
  let db := st.db
  let lock ← orCrash st.lock.rLock
  let st := { st with lock }
  let s : Session := { iters := db.iters + 1 }
  let s ← (if db.capPreimages then
    st.putPreimages fails st.orUnlock (iter db.iters db.preimages.keys) s else pure s)
  let (oldest, s) ← st.capLoop fails limit (db.dirties.size + 1) db.totalSize db.oldest s
  let s ← st.orUnlock (s.write fails)
  let lock ← orCrash lock.rUnlock
  let lock ← orCrash lock.lock
  let db ← orCrash ((flushed db s).capFinish oldest)
  let lock ← orCrash lock.unlock
  return ⟨db, lock⟩

/-- `Commit`; when `Write` fails between the preimages, the lock is kept. -/
def commit (iter : ℕ → List Hash → List Hash) (st : Guarded) (node : Hash) :
    Except (Halt Return) Guarded := do
  let db := st.db
  let lock ← orCrash st.lock.rLock
  let st := { st with lock }
  let s ← st.putPreimages fails st.orReturn (iter db.iters db.preimages.keys)
    { iters := db.iters + 1 }
  let s ← st.orUnlock (s.commit fails iter db (db.dirties.size + 1) node)
  let s ← st.orUnlock (s.write fails)
  let lock ← orCrash lock.rUnlock
  let lock ← orCrash lock.lock
  let db ← orCrash (Database.uncache iter (db.dirties.size + 1) node
    { flushed db s with preimages := .empty, preimagesSize := 0 })
  let lock ← orCrash lock.unlock
  return ⟨db, lock⟩

end Guarded

/-- The two functions that write. -/
inductive FlushOp where
  | cap (limit : ℤ)
  | commit (node : Hash)

def Guarded.flush (iter : ℕ → List Hash → List Hash) (st : Guarded) :
    FlushOp → Except (Halt Return) Guarded
  | .cap limit => st.cap fails iter limit
  | .commit node => st.commit fails iter node

end

/-! ## With an error -/

variable {fails : ℕ → Bool} {iter : ℕ → List Hash → List Hash} {db db' : Database}
  {s s' : Session} {n : ℕ} {st : Guarded} {m : RWMutex}

/-- Memory is the same: the nodes, the flush list, the preimages and the sizes. -/
structure Unchanged (db db' : Database) : Prop where
  dirties : db'.dirties = db.dirties
  oldest : db'.oldest = db.oldest
  newest : db'.newest = db.newest
  preimages : db'.preimages = db.preimages
  dirtiesSize : db'.dirtiesSize = db.dirtiesSize
  preimagesSize : db'.preimagesSize = db.preimagesSize

theorem unchanged_flushed (db : Database) (s : Session) : Unchanged db (Guarded.flushed db s) :=
  ⟨rfl, rfl, rfl, rfl, rfl, rfl⟩

/-- An error is returned with memory as it was and the lock as `lock`. -/
def Leaves (db : Database) (lock : BatchCall → RWMutex) : Halt Return → Prop
  | .crash => True
  | .returns r => Unchanged db r.state.db ∧ r.state.lock = lock r.call

section

variable {α : Type} {lock : RWMutex}

theorem orCrash_leaves (x : Option α) {f : BatchCall → RWMutex} :
    Meets (orCrash x) (fun _ => True) (Leaves db f) := by
  cases x <;> trivial

theorem orUnlock_leaves (hm : m.rLock = some lock) (x : Except (Halt Failure) α) :
    Meets (Guarded.orUnlock ⟨db, lock⟩ x) (fun _ => True) (Leaves db fun _ => m) := by
  match x with
  | .ok _ | .error .crash => trivial
  | .error (.returns f) =>
    rw [Guarded.orUnlock, RWMutex.rUnlock_rLock hm]
    exact ⟨unchanged_flushed _ _, rfl⟩

theorem writeIf_leaves {w : Except (Halt Return) Session} {f : BatchCall → RWMutex} (c : Prop)
    [Decidable c] (hw : Meets w (fun _ => True) (Leaves db f)) :
    Meets (if c then w else pure s) (fun _ => True) (Leaves db f) :=
  .ite (fun _ => hw) fun _ => trivial

theorem capLoop_leaves (hm : m.rLock = some lock) (limit : ℤ) (fuel : ℕ) (size : ℤ) (oldest : Hash)
    (s : Session) : Meets (Guarded.capLoop fails ⟨db, lock⟩ limit fuel size oldest s)
      (fun _ => True) (Leaves db fun _ => m) := by
  induction fuel generalizing size oldest s with
  | zero => trivial
  | succ fuel ih =>
    rw [Guarded.capLoop]
    refine .ite (fun _ => ?_) fun _ => trivial
    refine (orCrash_leaves _).bind fun node _ => (orCrash_leaves _).bind fun blob _ => ?_
    refine (orUnlock_leaves hm _).bind fun s _ => ?_
    exact (writeIf_leaves _ (orUnlock_leaves hm _)).bind fun s _ => ih _ _ _

end

/-! ## The preimages -/

/-- The calls of the loop over the preimages, given what is in the batch and the lengths. -/
def preimageCalls : ℕ → List ℕ → List BatchCall
  | _, [] => []
  | size, n :: l =>
    .put :: if size + n > idealBatchSize then .write :: preimageCalls 0 l
      else preimageCalls (size + n) l

/-- The first of the calls that fails. -/
def FirstFails (fails : ℕ → Bool) (cs : List BatchCall) (c : BatchCall) : Prop :=
  ∃ i, cs[i]? = some c ∧ fails i = true ∧ ∀ j < i, fails j = false

theorem firstFails_cons {c c' : BatchCall} {cs : List BatchCall} : FirstFails fails (c :: cs) c' ↔
    (fails 0 = true ∧ c = c') ∨ (fails 0 = false ∧ FirstFails (fun i => fails (i + 1)) cs c') := by
  constructor
  · rintro ⟨_ | i, hi, hfail, hbefore⟩
    · exact .inl ⟨hfail, by simpa using hi⟩
    · exact .inr ⟨hbefore 0 i.succ_pos, i, hi, hfail, fun j hj => hbefore _ (Nat.succ_lt_succ hj)⟩
  · rintro (⟨hfail, rfl⟩ | ⟨h0, i, hi, hfail, hbefore⟩)
    · exact ⟨0, rfl, hfail, fun _ h => absurd h (Nat.not_lt_zero _)⟩
    · refine ⟨i + 1, hi, hfail, ?_⟩
      rintro (_ | j) hj
      · exact h0
      · exact hbefore j (Nat.lt_of_succ_lt_succ hj)

theorem FirstFails.unique {c c' : BatchCall} {cs : List BatchCall} (h : FirstFails fails cs c)
    (h' : FirstFails fails cs c') : c = c' := by
  obtain ⟨i, hi, hfail, hbefore⟩ := h
  obtain ⟨j, hj, hfail', hbefore'⟩ := h'
  rcases lt_trichotomy i j with hij | rfl | hij
  · simp [hbefore' i hij] at hfail
  · exact Option.some.inj (hi.symm.trans hj)
  · simp [hbefore j hij] at hfail'

/-- Of the calls `cs`, from number `k` on, none fails if there is a result; and if there is an
    error, it is at the first that fails, with memory as it was and the lock as `lock`. -/
def StopsAt (fails : ℕ → Bool) (db : Database) (lock : BatchCall → RWMutex) (k : ℕ) (cs : List BatchCall)
    (x : Except (Halt Return) Session) : Prop :=
  Meets x (fun _ => ∀ c, ¬FirstFails (fun i => fails (k + i)) cs c)
    (fun e => Leaves db lock e ∧
      ∀ r, e = .returns r → FirstFails (fun i => fails (k + i)) cs r.call)

section

variable {lock : BatchCall → RWMutex} {k : ℕ} {cs : List BatchCall} {c : BatchCall}

theorem stops_of_fails (hfail : fails k = true) :
    StopsAt fails db lock k (c :: cs) (.error (.returns ⟨c, Guarded.flushed db s, lock c⟩)) := by
  refine ⟨⟨unchanged_flushed _ _, rfl⟩, ?_⟩
  rintro r ⟨⟩
  exact firstFails_cons.2 (.inl ⟨hfail, rfl⟩)

theorem StopsAt.cons {x : Except (Halt Return) Session} (hk : fails k = false)
    (hx : StopsAt fails db lock (k + 1) cs x) : StopsAt fails db lock k (c :: cs) x := by
  have hshift : (fun i => fails (k + 1 + i)) = fun i => fails (k + (i + 1)) :=
    funext fun i => by rw [Nat.add_assoc, Nat.add_comm 1]
  rw [StopsAt, hshift] at hx
  refine hx.mono (fun _ hno c hc => ?_) fun e he => ⟨he.1, fun r hr => ?_⟩
  · rcases firstFails_cons.1 hc with ⟨hfail, -⟩ | ⟨-, hrest⟩
    · exact absurd hfail (by simp [hk])
    · exact hno _ hrest
  · exact firstFails_cons.2 (.inr ⟨hk, he.2 r hr⟩)

end

/-- The lengths of the preimages. -/
def preimageLengths (db : Database) (l : List Hash) : List ℕ :=
  l.map fun h => ((db.preimages.get h).getD []).length

/-- The loop over the preimages ends with an error at the first of its calls that fails; the
    lock is released if this is `Put`, and as `onWrite` leaves it if this is `Write`. -/
theorem putPreimages_stops (fails : ℕ → Bool) {lock kept : RWMutex} (hm : m.rLock = some lock)
    (onWrite : Except (Halt Failure) Session → Except (Halt Return) Session)
    (hok : ∀ s, onWrite (.ok s) = .ok s)
    (herr : ∀ s, onWrite (.error (.returns ⟨.write, s⟩)) =
      .error (.returns ⟨.write, Guarded.flushed db s, kept⟩)) (l : List Hash) (s : Session) :
    StopsAt fails db (fun | .put => m | .write => kept) s.calls
      (preimageCalls s.batch.size (preimageLengths db l))
      (Guarded.putPreimages fails onWrite ⟨db, lock⟩ l s) := by
  induction l generalizing s with
  | nil =>
    rintro c ⟨i, hi, -⟩
    simp [preimageLengths, preimageCalls] at hi
  | cons h l ih =>
    rw [Guarded.putPreimages, Session.put, preimageLengths, List.map_cons, preimageCalls]
    cases hput : fails s.calls with
    | true =>
      rw [if_pos rfl, Guarded.orUnlock, RWMutex.rUnlock_rLock hm]
      exact stops_of_fails hput
    | false =>
      refine .cons hput ?_
      rw [if_neg Bool.false_ne_true, Guarded.orUnlock, ok_bind]
      have hsize : s.batch.size + ((db.preimages.get h).getD []).length =
        (s.batch.put (Guarded.preimagePut db h)).size := rfl
      rw [hsize]
      split_ifs with hbig
      · rw [Session.write]
        cases hwrite : fails (s.calls + 1) with
        | true =>
          rw [if_pos rfl, herr]
          exact stops_of_fails hwrite
        | false =>
          rw [if_neg Bool.false_ne_true, hok]
          exact .cons hwrite (ih _)
      · exact ih _

/-! ## Failed flushes -/

/-- The call keeps the lock: it is `Commit`, and the first call that fails is the `Write` between
    two preimages. -/
def KeepsLock (iter : ℕ → List Hash → List Hash) (fails : ℕ → Bool) (db : Database) : FlushOp → Prop
  | .cap _ => False
  | .commit _ =>
    FirstFails fails (preimageCalls 0 (preimageLengths db (iter db.iters db.preimages.keys))) .write

/-- Memory is as it was; the lock is held if `keeps`, and it is as it was otherwise. -/
def Fails (st : Guarded) (keeps : Prop) : Halt Return → Prop
  | .crash => True
  | .returns r => Unchanged st.db r.state.db ∧
    (keeps ∧ st.lock.rLock = some r.state.lock ∨ ¬keeps ∧ r.state.lock = st.lock)

theorem fails_of_leaves {keeps : Prop} (hk : ¬keeps) {e : Halt Return}
    (he : Leaves st.db (fun _ => st.lock) e) : Fails st keeps e := by
  cases e with
  | crash => trivial
  | returns r => exact ⟨he.1, .inr ⟨hk, he.2⟩⟩

theorem finish_leaves {lock : RWMutex} {x : Option Database} {f : BatchCall → RWMutex} : Meets (do
      let lock ← orCrash lock.rUnlock
      let lock ← orCrash lock.lock
      let db ← orCrash x
      let lock ← orCrash lock.unlock
      return (⟨db, lock⟩ : Guarded)) (fun _ => True) (Leaves db f) := by
  refine (orCrash_leaves _).bind fun _ _ => (orCrash_leaves _).bind fun _ _ => ?_
  exact (orCrash_leaves _).bind fun _ _ => (orCrash_leaves _).bind fun _ _ => trivial

theorem cap_leaves (limit : ℤ) :
    Meets (st.cap fails iter limit) (fun _ => True) (Leaves st.db fun _ => st.lock) := by
  rw [Guarded.cap]
  cases hm : st.lock.rLock with
  | none => trivial
  | some lock =>
    have hpre := putPreimages_stops fails hm (Guarded.orUnlock ⟨st.db, lock⟩)
      (fun _ => rfl) (fun _ => by rw [Guarded.orUnlock, RWMutex.rUnlock_rLock hm]; rfl)
    have hpre' : ∀ l s, Meets (Guarded.putPreimages fails _ ⟨st.db, lock⟩ l s) (fun _ => True)
        (Leaves st.db fun _ => st.lock) := fun l s =>
      (hpre l s).mono (fun _ _ => trivial) fun e he => by
        cases e with
        | crash => trivial
        | returns r => exact ⟨he.1.1, he.1.2.trans (by cases r.call <;> rfl)⟩
    refine (writeIf_leaves _ (hpre' _ _)).bind fun s _ => ?_
    refine (capLoop_leaves hm _ _ _ _ _).bind fun r _ => ?_
    exact (orUnlock_leaves hm _).bind fun s _ => finish_leaves

theorem flush_fails (st : Guarded) (fails : ℕ → Bool) (iter : ℕ → List Hash → List Hash)
    (op : FlushOp) : Meets (st.flush fails iter op) (fun _ => True)
    (Fails st (KeepsLock iter fails st.db op)) := by
  cases op with
  | cap limit => exact (cap_leaves limit).mono (fun _ h => h) fun _ he => fails_of_leaves id he
  | commit node =>
    change Meets (st.commit fails iter node) _ _
    rw [Guarded.commit]
    cases hm : st.lock.rLock with
    | none => trivial
    | some lock =>
      have hpre := putPreimages_stops fails hm (Guarded.orReturn ⟨st.db, lock⟩)
        (fun _ => rfl) (fun _ => rfl) (iter st.db.iters st.db.preimages.keys)
        { iters := st.db.iters + 1 }
      simp only [StopsAt, Nat.zero_add] at hpre
      refine (hpre.mono (fun _ h => h) fun e he => ?_).bind fun s hno => ?_
      · cases e with
        | crash => trivial
        | returns r =>
          obtain ⟨⟨hmem, hlock⟩, hfirst⟩ := he
          refine ⟨hmem, ?_⟩
          have hcall := hfirst r rfl
          cases hc : r.call with
          | put =>
            rw [hc] at hlock hcall
            exact .inr ⟨fun hk => (nomatch hk.unique hcall), hlock⟩
          | write =>
            rw [hc] at hlock hcall
            exact .inl ⟨hcall, by rw [hlock, hm]⟩
      · refine Meets.mono ?_ (fun _ h => h) fun e he => fails_of_leaves (hno _) he
        refine (orUnlock_leaves hm _).bind fun s _ => ?_
        exact (orUnlock_leaves hm _).bind fun s _ => finish_leaves

/-- **A failed flush is harmless but for one return.**  When `Cap` or `Commit` returns an error,
    memory is as it was; and a writer can take the lock then if it could before, unless the first
    call that fails is the `Write` between the preimages in `Commit`. -/
theorem failed_flush {op : FlushOp} {r : Return}
    (h : st.flush fails iter op = .error (.returns r)) :
    Unchanged st.db r.state.db ∧
    (r.state.lock.lock.isSome ↔ st.lock.lock.isSome ∧ ¬KeepsLock iter fails st.db op) := by
  have hf := flush_fails st fails iter op
  rw [h] at hf
  obtain ⟨hmem, ⟨hk, hlock⟩ | ⟨hk, hlock⟩⟩ := hf
  · refine ⟨hmem, ?_⟩
    rw [RWMutex.lock_rLock hlock]
    simp [hk]
  · refine ⟨hmem, ?_⟩
    rw [hlock]
    simp [hk]

/-- A database with one preimage, not locked. -/
def onePreimage (preimage : Bytes) : Guarded :=
  ⟨(Database.new []).insertPreimage .zero preimage, {}⟩

/-- The last `Write` of `Cap` fails. -/
theorem failed_flush_cap : ∃ r, (onePreimage []).flush (fun _ => true) (fun _ l => l) (.cap 0) =
    .error (.returns r) ∧ Unchanged (onePreimage []).db r.state.db ∧ r.state.lock.lock.isSome := by
  have hfail : (onePreimage []).flush (fun _ => true) (fun _ l => l) (.cap 0) =
    .error (.returns _) := rfl
  obtain ⟨hmem, hlock⟩ := failed_flush hfail
  exact ⟨_, hfail, hmem, hlock.2 ⟨rfl, id⟩⟩

theorem commit_big {preimage : Bytes} (hbig : preimage.length > idealBatchSize) :
    ∃ r, (onePreimage preimage).flush (fun n => n == 1) (fun _ l => l) (.commit .zero) =
      .error (.returns r) ∧ r.state.lock.lock = none := by
  let st : Guarded := ⟨(onePreimage preimage).db, ⟨1, false⟩⟩
  obtain ⟨r, hloop, hlock⟩ : ∃ r, st.putPreimages (fun n => n == 1) st.orReturn [.zero]
      { iters := 1 } = .error (.returns r) ∧ r.state.lock.lock = none := by
    rw [Guarded.putPreimages, Session.put, if_neg (by decide), Guarded.orUnlock, ok_bind]
    split_ifs with hsize
    · exact ⟨_, rfl, rfl⟩
    · exact absurd (hbig.trans_eq (Nat.zero_add _).symm) hsize
  have hbind : ∀ f : Session → Except (Halt Return) Guarded,
    (st.putPreimages (fun n => n == 1) st.orReturn [.zero] { iters := 1 } >>= f) =
      .error (.returns r) := fun f => by rw [hloop]; rfl
  exact ⟨r, hbind _, hlock⟩

/-- One preimage of 102401 bytes, and its `Write` fails: the lock stays, and nobody can write. -/
theorem commit_keeps_lock : ∃ r, (onePreimage (List.replicate 102401 0)).flush (fun n => n == 1)
    (fun _ l => l) (.commit .zero) = .error (.returns r) ∧ r.state.lock.lock = none :=
  commit_big (by rw [List.length_replicate]; decide)

end GoEthereum.Trie
