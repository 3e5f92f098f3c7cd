/-
  The calls of a state database.

  Getters return what is seen of a state (`StateDB.observe_eq`).  A setter loads an
  object, creates it if it is not there, and changes it together with an entry of the
  journal: these are the steps of `Step`, and every call in a transaction other than
  `Snapshot` and `RevertToSnapshot` is a sequence of them (`Op.cases`).
-/
import GoEthereum.State.View

namespace GoEthereum.State

open GoEthereum.Rlp AssocMap UndoLog

/-! ## Calls -/

/-- The getters. -/
inductive Read where
  | exist | empty | getBalance | getNonce | getCodeHash | getCodeSize | hasSuicided | getCode
  | getState (key : Word)
  | getCommittedState (key : Word)

/-- The state after a getter. -/
def Read.apply (s : StateDB) (addr : Address) : Read → StateDB
  | .exist => (s.exist addr).2
  | .empty => (s.empty addr).2
  | .getBalance => (s.getBalance addr).2
  | .getNonce => (s.getNonce addr).2
  | .getCodeHash => (s.getCodeHash addr).2
  | .getCodeSize => (s.getCodeSize addr).2
  | .hasSuicided => (s.hasSuicided addr).2
  | .getCode => (s.getCode addr).2
  | .getState key => (s.getState addr key).2
  | .getCommittedState key => (s.getCommittedState addr key).2

/-- The calls in a transaction. -/
inductive Op where
  | addBalance (addr : Address) (amount : ℤ)
  | subBalance (addr : Address) (amount : ℤ)
  | setBalance (addr : Address) (amount : ℤ)
  | setNonce (addr : Address) (nonce : UInt64)
  | setCode (addr : Address) (code : Option Bytes)
  | setState (addr : Address) (key value : Word)
  | createAccount (addr : Address)
  | suicide (addr : Address)
  | addRefund (gas : UInt64)
  | subRefund (gas : UInt64)
  | addLog (log : Log)
  | addPreimage (hash : Word) (preimage : Bytes)
  | read (addr : Address) (r : Read)
  | snapshot
  | revertToSnapshot (revid : ℕ)

/-- A call; `none` is a panic. -/
def Op.apply (H : Hashing) (s : StateDB) : Op → Option StateDB
  | .addBalance addr amount => some (s.addBalance addr amount)
  | .subBalance addr amount => some (s.subBalance addr amount)
  | .setBalance addr amount => some (s.setBalance addr amount)
  | .setNonce addr nonce => some (s.setNonce addr nonce)
  | .setCode addr code => some (s.setCode addr H code)
  | .setState addr key value => some (s.setState addr key value)
  | .createAccount addr => some (s.createAccount addr)
  | .suicide addr => some (s.suicide addr).2
  | .addRefund gas => some (s.addRefund gas)
  | .subRefund gas => s.subRefund gas
  | .addLog log => some (s.addLog log)
  | .addPreimage hash preimage => some (s.addPreimage hash preimage)
  | .read addr r => some (r.apply s addr)
  | .snapshot => some s.snapshot.2
  | .revertToSnapshot revid => s.revertToSnapshot revid

/-- The calls between transactions. -/
inductive Call where
  | inner (op : Op)
  | prepare (thash bhash : Word) (txIndex : ℕ)
  | finalise (deleteEmptyObjects : Bool)
  | commit (deleteEmptyObjects : Bool)
  | copy
  | reset (root : Word)

/-- A call. -/
def Call.apply (H : Hashing) (s : StateDB) : Call → Option StateDB
  | .inner op => op.apply H s
  | .prepare thash bhash txIndex => some (s.prepare thash bhash txIndex)
  | .finalise d => s.finalise H d
  | .commit d => (s.commit H d).map Prod.snd
  | .copy => s.copy
  | .reset root => some (s.reset root)

/-- The states that calls lead to. -/
inductive Reachable (H : Hashing) : StateDB → Prop
  | new {root : Word} {db : Database} {s : StateDB} : StateDB.new root db = some s → Reachable H s
  | call {s s' : StateDB} (c : Call) : Reachable H s → c.apply H s = some s' → Reachable H s'

/-! ## What the getters return -/

/-- What is observed of a state. -/
structure Observed where
  exist : Address → Bool
  empty : Address → Bool
  balance : Address → ℤ
  nonce : Address → UInt64
  codeHash : Address → Word
  codeSize : Address → ℕ
  code : Address → Bytes
  hasSuicided : Address → Bool
  state : Address → Storage
  committedState : Address → Storage
  refund : UInt64
  logs : Word → List Log
  logSize : ℕ
  preimages : Word → Option Bytes

/-- The results of the getters. -/
def StateDB.observe (s : StateDB) : Observed where
  exist a := (s.exist a).1
  empty a := (s.empty a).1
  balance a := (s.getBalance a).1
  nonce a := (s.getNonce a).1
  codeHash a := (s.getCodeHash a).1
  codeSize a := (s.getCodeSize a).1
  code a := (s.getCode a).1.getD []
  hasSuicided a := (s.hasSuicided a).1
  state a key := (s.getState a key).1
  committedState a key := (s.getCommittedState a key).1
  refund := s.refund
  logs := s.getLogs
  logSize := s.logSize
  preimages := s.preimages.get

namespace StateDB

variable {s s' : StateDB} {addr : Address} {obj : StateObject}

theorem getter_fst {α : Type} (s : StateDB) (addr : Address) (missing : α) {read : StateObject → α}
    {g : AccountView → α} (hg : ∀ obj, read obj = g (obj.view s.db)) :
    (s.getter addr missing read).1 = (s.account addr).elim missing g := by
  rw [getter]
  rcases getStateObject_spec s addr with ⟨hget, hacc⟩ | ⟨obj, s', hget, -, -, hobj, hdel⟩
  · rw [hget, hacc]
    rfl
  · rw [hget, account, hobj, Option.bind_some, seen_of_not_deleted hdel]
    exact hg obj

theorem loader_fst {α β : Type} (s : StateDB) (addr : Address) (missing : α) (out : α → β)
    {read : StateObject → α × StateObject} {g : AccountView → β}
    (hg : ∀ obj, out (read obj).1 = g (obj.view s.db)) :
    out (s.loader addr missing read).1 = (s.account addr).elim (out missing) g := by
  rw [← getter_fst s addr (out missing) hg, loader, getter]
  rcases s.getStateObject addr with ⟨_ | obj, s'⟩ <;> rfl

theorem loadCode_getD (obj : StateObject) (db : Database) :
    (obj.loadCode db).1.getD [] = (obj.view db).code := by
  rw [StateObject.loadCode, StateObject.view]
  rcases obj.code with _ | code
  · simp only [StateObject.codeOf]
    split_ifs <;> rfl
  · rfl

theorem observe_eq (s : StateDB) : s.observe = {
    exist := fun a => (s.view.accounts a).isSome
    empty := fun a => (s.view.accounts a).elim true AccountView.empty
    balance := fun a => (s.view.accounts a).elim 0 AccountView.balance
    nonce := fun a => (s.view.accounts a).elim 0 AccountView.nonce
    codeHash := fun a => (s.view.accounts a).elim 0 AccountView.codeHash
    codeSize := fun a => (s.view.accounts a).elim 0 AccountView.codeSize
    code := fun a => (s.view.accounts a).elim [] AccountView.code
    hasSuicided := fun a => (s.view.accounts a).elim false AccountView.suicided
    state := fun a key => (s.view.accounts a).elim 0 fun v => v.storage key
    committedState := fun a key => (s.view.accounts a).elim 0 fun v => v.committed key
    refund := s.view.refund
    logs := s.view.logs
    logSize := s.view.logSize
    preimages := s.view.preimages } := by
  have hexist : ∀ a, (s.exist a).1 = (s.account a).isSome := fun a => by
    rw [exist, getter_fst s a false (g := fun _ => true) fun _ => rfl]
    cases s.account a <;> rfl
  rw [observe, Observed.mk.injEq]
  refine ⟨funext hexist, funext fun a => ?_, funext fun a => ?_, funext fun a => ?_,
    funext fun a => ?_, funext fun a => ?_, funext fun a => ?_, funext fun a => ?_,
    funext fun a => funext fun key => ?_, funext fun a => funext fun key => ?_, rfl, rfl, rfl, rfl⟩
  · exact getter_fst s a _ fun _ => rfl
  · exact getter_fst s a _ fun _ => rfl
  · exact getter_fst s a _ fun _ => rfl
  · exact getter_fst s a _ fun _ => rfl
  · exact getter_fst s a _ fun _ => rfl
  · exact loader_fst s a none (fun code => code.getD []) fun obj => loadCode_getD obj s.db
  · exact getter_fst s a _ fun _ => rfl
  · refine loader_fst s a 0 id fun obj => ?_
    obtain ⟨o', hget, -⟩ := StateObject.getState_spec obj s.db key
    rw [hget]
    rfl
  · refine loader_fst s a 0 id fun obj => ?_
    obtain ⟨o', hget, -⟩ := StateObject.getCommittedState_spec obj s.db key
    rw [hget]
    rfl

theorem observe_eq_of_view (h : s.view = s'.view) : s.observe = s'.observe := by
  rw [observe_eq, observe_eq, h]

end StateDB

/-! ## Steps -/

/-- A change of an object, with its entry in the journal. -/
inductive ObjectChange (db : Database) (addr : Address) (obj : StateObject) :
    JournalEntry → StateObject → Prop
  | balance (amount : ℤ) :
      ObjectChange db addr obj (.balance addr obj.data.balance) (obj.setBalance amount)
  | nonce (nonce : UInt64) : ObjectChange db addr obj (.nonce addr obj.data.nonce) (obj.setNonce nonce)
  | suicide : ObjectChange db addr obj (.suicide addr obj.suicided obj.data.balance)
      { obj.setBalance 0 with suicided := true }
  | code {prevcode : Option Bytes} (codeHash : Word) (code : Option Bytes) :
      StateObject.codeOf db prevcode obj.data.codeHash = (obj.view db).code →
      StateObject.codeSizeOf db prevcode obj.data.codeHash = (obj.view db).codeSize →
      ObjectChange db addr obj (.code addr prevcode obj.data.codeHash) (obj.setCode codeHash code)
  | storage (key value : Word) :
      obj.dirtyStorage.has key = true ∨ obj.originStorage.has key = true →
      ObjectChange db addr obj (.storage addr key (obj.slots db key)) (obj.setState key value)

/-- One step of a call. -/
inductive Step : StateDB → StateDB → Prop
  | load {s : StateDB} {addr : Address} {obj obj' : StateObject} : s.objectAt addr = some obj →
      obj.deleted = false → obj.Loaded s.db obj' → Step s (s.setStateObject addr obj')
  | create {s : StateDB} {addr : Address} : s.account addr = none →
      Step s ((s.append (.createObject addr)).setStateObject addr ((newObject {}).setNonce 0))
  | reset {s : StateDB} {addr : Address} {obj : StateObject} : s.stateObjects.get addr = some obj →
      obj.deleted = false → Step s ((s.append (.resetObject addr obj)).setStateObject addr
        (((newObject {}).setNonce 0).setBalance obj.data.balance))
  | change {s : StateDB} {addr : Address} {obj obj' : StateObject} {e : JournalEntry} :
      s.stateObjects.get addr = some obj → obj.deleted = false →
      ObjectChange s.db addr obj e obj' → Step s ((s.append e).setStateObject addr obj')
  | touch {s : StateDB} {addr : Address} {obj : StateObject} : s.stateObjects.get addr = some obj →
      obj.deleted = false → Step s (s.touch addr)
  | refund {s : StateDB} (refund : UInt64) : Step s { s.append (.refund s.refund) with refund }
  | addLog {s : StateDB} (log : Log) : Step s (s.addLog log)
  | addPreimage {s : StateDB} {hash : Word} (preimage : Bytes) : s.preimages.get hash = none →
      Step s { s.append (.addPreimage hash) with preimages := s.preimages.set hash preimage }

/-- Some steps. -/
abbrev Steps : StateDB → StateDB → Prop := Relation.ReflTransGen Step

namespace StateDB

theorem getStateObject_steps (s : StateDB) (addr : Address) :
    (s.getStateObject addr = (none, s) ∧ s.account addr = none) ∨
    ∃ obj s', s.getStateObject addr = (some obj, s') ∧ Steps s s' ∧ s'.db = s.db ∧
      s'.stateObjects.get addr = some obj ∧ obj.deleted = false := by
  rcases getStateObject_spec s addr with h | ⟨obj, s', hget, rfl | rfl, hobj, hat, hdel⟩
  · exact .inl h
  · exact .inr ⟨obj, s', hget, .refl, rfl, hobj, hdel⟩
  · exact .inr ⟨obj, _, hget, .single (.load hat hdel (.refl _)), rfl, hobj, hdel⟩

theorem getOrNewStateObject_steps (s : StateDB) (addr : Address) :
    ∃ obj s', s.getOrNewStateObject addr = (obj, s') ∧ Steps s s' ∧ s'.db = s.db ∧
      s'.stateObjects.get addr = some obj ∧ obj.deleted = false := by
  rw [getOrNewStateObject]
  rcases getStateObject_steps s addr with ⟨hget, hacc⟩ | ⟨obj, s', hget, hsteps, hdb, hobj, hdel⟩
  · rw [hget]
    simp only [createObject, hget]
    exact ⟨_, _, rfl, .single (.create hacc), rfl, get_set_self _ _ _, rfl⟩
  · rw [hget]
    exact ⟨obj, s', rfl, hsteps, hdb, hobj, hdel⟩

variable {s s' : StateDB} {addr : Address} {obj : StateObject}

theorem objectSetBalance_step (hobj : s.stateObjects.get addr = some obj)
    (hdel : obj.deleted = false) (amount : ℤ) : Step s (s.objectSetBalance addr obj amount) :=
  .change hobj hdel (.balance amount)

theorem load_change {obj' obj'' : StateObject} {e : JournalEntry}
    (hobj : s.stateObjects.get addr = some obj) (hdel : obj.deleted = false)
    (hload : obj.Loaded s.db obj') (hch : ObjectChange s.db addr obj' e obj'') :
    Steps s ((s.append e).setStateObject addr obj'') := by
  have heq : (s.append e).setStateObject addr obj'' =
      ((s.setStateObject addr obj').append e).setStateObject addr obj'' := by
    rw [append, setStateObject, setStateObject, append, setStateObject, set_set]
  rw [heq]
  exact (Relation.ReflTransGen.single (.load (objectAt_of_get hobj) hdel hload)).tail
    (.change (get_set_self _ _ _) (hload.deleted.trans hdel) hch)

theorem getter_steps {α : Type} (s : StateDB) (addr : Address) (missing : α)
    (read : StateObject → α) : Steps s (s.getter addr missing read).2 := by
  rw [getter]
  rcases getStateObject_steps s addr with ⟨hget, -⟩ | ⟨obj, s', hget, hsteps, -⟩
  · rw [hget]
  · rw [hget]
    exact hsteps

theorem loader_steps {α : Type} (s : StateDB) (addr : Address) (missing : α)
    {read : StateObject → α × StateObject} (h : ∀ obj : StateObject, obj.Loaded s.db (read obj).2) :
    Steps s (s.loader addr missing read).2 := by
  rw [loader]
  rcases getStateObject_steps s addr with ⟨hget, -⟩ | ⟨obj, s', hget, hsteps, hdb, hobj, hdel⟩
  · rw [hget]
  · rw [hget]
    exact hsteps.tail (.load (objectAt_of_get hobj) hdel (hdb ▸ h obj))

section
variable (s : StateDB) (addr : Address)

theorem addBalance_steps (amount : ℤ) : Steps s (s.addBalance addr amount) := by
  obtain ⟨obj, s', hget, hsteps, -, hobj, hdel⟩ := getOrNewStateObject_steps s addr
  rw [addBalance, hget]
  simp only
  split_ifs
  · exact hsteps.tail (.touch hobj hdel)
  · exact hsteps
  · exact hsteps.tail (objectSetBalance_step hobj hdel _)

theorem subBalance_steps (amount : ℤ) : Steps s (s.subBalance addr amount) := by
  obtain ⟨obj, s', hget, hsteps, -, hobj, hdel⟩ := getOrNewStateObject_steps s addr
  rw [subBalance, hget]
  simp only
  split_ifs
  · exact hsteps
  · exact hsteps.tail (objectSetBalance_step hobj hdel _)

theorem setBalance_steps (amount : ℤ) : Steps s (s.setBalance addr amount) := by
  obtain ⟨obj, s', hget, hsteps, -, hobj, hdel⟩ := getOrNewStateObject_steps s addr
  rw [setBalance, hget]
  exact hsteps.tail (objectSetBalance_step hobj hdel _)

theorem setNonce_steps (nonce : UInt64) : Steps s (s.setNonce addr nonce) := by
  obtain ⟨obj, s', hget, hsteps, -, hobj, hdel⟩ := getOrNewStateObject_steps s addr
  rw [setNonce, hget]
  exact hsteps.tail (.change hobj hdel (.nonce nonce))

theorem setCode_steps (H : Hashing) (code : Option Bytes) : Steps s (s.setCode addr H code) := by
  obtain ⟨obj, s', hget, hsteps, -, hobj, hdel⟩ := getOrNewStateObject_steps s addr
  obtain ⟨prevcode, obj', hload, hloaded, hcode, hsize⟩ := StateObject.loadCode_spec obj s'.db
  rw [setCode, hget]
  simp only [hload]
  rw [← hloaded.data, ← hloaded.view_eq] at hcode hsize
  exact hsteps.trans (load_change hobj hdel hloaded (.code _ _ hcode hsize))

theorem setState_steps (key value : Word) : Steps s (s.setState addr key value) := by
  obtain ⟨obj, s', hget, hsteps, -, hobj, hdel⟩ := getOrNewStateObject_steps s addr
  obtain ⟨obj', hstate, hloaded, hhas⟩ := StateObject.getState_spec obj s'.db key
  rw [setState, hget]
  simp only [hstate]
  split_ifs
  · exact hsteps.tail (.load (objectAt_of_get hobj) hdel hloaded)
  · rw [← hloaded.slots_eq]
    rw [← hloaded.dirty] at hhas
    exact hsteps.trans (load_change hobj hdel hloaded (.storage key value hhas))

theorem createAccount_steps : Steps s (s.createAccount addr) := by
  rw [createAccount, createObject]
  rcases getStateObject_steps s addr with ⟨hget, hacc⟩ | ⟨obj, s', hget, hsteps, -, hobj, hdel⟩
  · rw [hget]
    exact .single (.create hacc)
  · rw [hget]
    simp only [setStateObject_setStateObject]
    exact hsteps.tail (.reset hobj hdel)

theorem suicide_steps : Steps s (s.suicide addr).2 := by
  rw [suicide]
  rcases getStateObject_steps s addr with ⟨hget, -⟩ | ⟨obj, s', hget, hsteps, -, hobj, hdel⟩
  · rw [hget]
  · rw [hget]
    exact hsteps.tail (.change hobj hdel .suicide)

end

theorem subRefund_steps {gas : UInt64} (h : s.subRefund gas = some s') : Steps s s' := by
  rw [subRefund] at h
  split_ifs at h
  cases h
  exact .single (.refund _)

theorem addPreimage_steps (s : StateDB) (hash : Word) (preimage : Bytes) :
    Steps s (s.addPreimage hash preimage) := by
  rw [addPreimage]
  split_ifs with hhas
  · exact .refl
  · exact .single (.addPreimage preimage ((has_eq_false _ _).1 (by simpa using hhas)))

end StateDB

theorem Read.steps (s : StateDB) (addr : Address) (r : Read) : Steps s (r.apply s addr) := by
  cases r with
  | getCode =>
    refine StateDB.loader_steps s addr none fun obj => ?_
    obtain ⟨code, obj', hload, hloaded, -⟩ := StateObject.loadCode_spec obj s.db
    rw [hload]
    exact hloaded
  | getState key =>
    refine StateDB.loader_steps s addr 0 fun obj => ?_
    obtain ⟨obj', hget, hloaded, -⟩ := StateObject.getState_spec obj s.db key
    rw [hget]
    exact hloaded
  | getCommittedState key =>
    refine StateDB.loader_steps s addr 0 fun obj => ?_
    obtain ⟨obj', hget, hloaded, -⟩ := StateObject.getCommittedState_spec obj s.db key
    rw [hget]
    exact hloaded
  | _ => exact StateDB.getter_steps s addr _ _

theorem Op.cases {H : Hashing} {s s' : StateDB} {op : Op} (h : op.apply H s = some s') :
    s' = s.snapshot.2 ∨
      (∃ id, op = .revertToSnapshot id ∧ s.revertToSnapshot id = some s') ∨ Steps s s' := by
  cases op with
  | snapshot => exact .inl (Option.some.inj h).symm
  | revertToSnapshot id => exact .inr (.inl ⟨id, rfl, h⟩)
  | subRefund gas => exact .inr (.inr (StateDB.subRefund_steps h))
  | addBalance addr amount => cases h; exact .inr (.inr (s.addBalance_steps addr amount))
  | subBalance addr amount => cases h; exact .inr (.inr (s.subBalance_steps addr amount))
  | setBalance addr amount => cases h; exact .inr (.inr (s.setBalance_steps addr amount))
  | setNonce addr nonce => cases h; exact .inr (.inr (s.setNonce_steps addr nonce))
  | setCode addr code => cases h; exact .inr (.inr (s.setCode_steps addr H code))
  | setState addr key value => cases h; exact .inr (.inr (s.setState_steps addr key value))
  | createAccount addr => cases h; exact .inr (.inr (s.createAccount_steps addr))
  | suicide addr => cases h; exact .inr (.inr (s.suicide_steps addr))
  | addRefund gas => cases h; exact .inr (.inr (.single (.refund _)))
  | addLog log => cases h; exact .inr (.inr (.single (.addLog log)))
  | addPreimage hash preimage => cases h; exact .inr (.inr (s.addPreimage_steps hash preimage))
  | read addr r => cases h; exact .inr (.inr (r.steps s addr))

end GoEthereum.State
