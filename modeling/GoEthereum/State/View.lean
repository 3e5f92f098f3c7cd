/-
  What can be seen of a state.

  The getters see an account as an `AccountView`.  `StateDB.view` forgets which objects,
  slots and codes are loaded.  Getters do not change the view, setters change it at one
  account, and undoing an entry of the journal is a function of the view
  (`revertEntry_view`).
-/
import GoEthereum.State.StateDB
import GoEthereum.Lib.UndoLog

namespace GoEthereum.State

open GoEthereum.Rlp AssocMap UndoLog

/-! ## Accounts -/

/-- What the getters see of an account. -/
@[ext]
structure AccountView where
  nonce : UInt64
  balance : ℤ
  codeHash : Word
  code : Bytes
  codeSize : ℕ
  suicided : Bool
  storage : Storage
  committed : Storage

/-- The account is empty. -/
def AccountView.empty (v : AccountView) : Bool :=
  v.nonce == 0 && v.balance == 0 && v.codeHash == emptyCodeHash

namespace StateObject

section
variable (o : StateObject) (db : Database)

/-- The code that is loaded for an object. -/
def codeOf (code : Option Bytes) (codeHash : Word) : Bytes :=
  match code with
  | some code => code
  | none => if codeHash = emptyCodeHash then [] else (db.code codeHash).getD []

/-- The size of the code of an object. -/
def codeSizeOf (code : Option Bytes) (codeHash : Word) : ℕ :=
  match code with
  | some code => code.length
  | none => ((db.code codeHash).getD []).length

/-- The slots in the trie of the object. -/
def content : Storage := o.trie.getD (db.openStorage o.data.root)

/-- The slots before the transaction. -/
def committed : Storage := fun key => (o.originStorage.get key).getD (o.content db key)

/-- The slots. -/
def slots : Storage := fun key => (o.dirtyStorage.get key).getD (o.committed db key)

/-- What can be seen of an object. -/
def view : AccountView where
  nonce := o.data.nonce
  balance := o.data.balance
  codeHash := o.data.codeHash
  code := codeOf db o.code o.data.codeHash
  codeSize := codeSizeOf db o.code o.data.codeHash
  suicided := o.suicided
  storage := o.slots db
  committed := o.committed db

end

variable {o o' : StateObject} {db : Database}

theorem getTrie_eq (o : StateObject) (db : Database) :
    o.getTrie db = (o.content db, { o with trie := some (o.content db) }) := by
  rw [getTrie, content]
  rcases ht : o.trie with _ | tr
  · rfl
  · obtain ⟨⟩ := o
    cases ht
    rfl

/-- The object `o'` is `o` with more slots or its code loaded. -/
structure Loaded (db : Database) (o o' : StateObject) : Prop where
  data : o'.data = o.data
  content : o'.content db = o.content db
  origin : ∀ key, o'.originStorage.get key = o.originStorage.get key ∨
    o'.originStorage.get key = some (o.committed db key)
  dirty : o'.dirtyStorage = o.dirtyStorage
  code : o'.code = o.code ∨
    o.code = none ∧ o.data.codeHash ≠ emptyCodeHash ∧ o'.code = db.code o.data.codeHash
  suicided : o'.suicided = o.suicided
  deleted : o'.deleted = o.deleted

theorem Loaded.refl (o : StateObject) : Loaded db o o where
  data := rfl
  content := rfl
  origin _ := .inl rfl
  dirty := rfl
  code := .inl rfl
  suicided := rfl
  deleted := rfl

theorem Loaded.committed_eq (h : Loaded db o o') : o'.committed db = o.committed db := by
  funext key
  rw [committed]
  rcases h.origin key with hk | hk
  · rw [hk, h.content]
    rfl
  · rw [hk]
    rfl

theorem Loaded.slots_eq (h : Loaded db o o') : o'.slots db = o.slots db := by
  funext key
  rw [slots, h.dirty, h.committed_eq, slots]

theorem codeOf_load {codeHash : Word} (h : codeHash ≠ emptyCodeHash) :
    codeOf db (db.code codeHash) codeHash = codeOf db none codeHash ∧
      codeSizeOf db (db.code codeHash) codeHash = codeSizeOf db none codeHash := by
  rcases hc : db.code codeHash with _ | code
  · exact ⟨rfl, rfl⟩
  · simp only [codeOf, codeSizeOf, if_neg h, hc, Option.getD_some, and_self]

theorem Loaded.view_eq (h : Loaded db o o') : o'.view db = o.view db := by
  have hcode : codeOf db o'.code o.data.codeHash = codeOf db o.code o.data.codeHash ∧
      codeSizeOf db o'.code o.data.codeHash = codeSizeOf db o.code o.data.codeHash := by
    rcases h.code with hc | ⟨hnone, hne, hc⟩
    · rw [hc]
      exact ⟨rfl, rfl⟩
    · rw [hc, hnone]
      exact codeOf_load hne
  rw [view, view, h.data, h.slots_eq, h.committed_eq, h.suicided, hcode.1, hcode.2]

theorem getCommittedState_spec (o : StateObject) (db : Database) (key : Word) :
    ∃ o', o.getCommittedState db key = (o.committed db key, o') ∧ Loaded db o o' ∧
      o'.originStorage.has key = true := by
  rw [getCommittedState]
  rcases hk : o.originStorage.get key with _ | value
  · have hvalue : o.content db key = o.committed db key := by
      rw [committed, hk]
      rfl
    refine ⟨{ o with
      trie := some (o.content db)
      originStorage := o.originStorage.set key (o.committed db key) }, ?_, ?_, ?_⟩
    · rw [getTrie_eq]
      simp only [hvalue]
    · refine ⟨rfl, rfl, fun k => ?_, rfl, .inl rfl, rfl, rfl⟩
      rw [get_set]
      split_ifs with h
      · exact .inr (by rw [h])
      · exact .inl rfl
    · rw [has_eq_true]
      exact ⟨_, get_set_self _ _ _⟩
  · refine ⟨o, ?_, .refl o, (has_eq_true _ _).2 ⟨value, hk⟩⟩
    rw [committed, hk]
    rfl

theorem getState_spec (o : StateObject) (db : Database) (key : Word) :
    ∃ o', o.getState db key = (o.slots db key, o') ∧ Loaded db o o' ∧
      (o.dirtyStorage.has key = true ∨ o'.originStorage.has key = true) := by
  rw [getState, slots]
  rcases hk : o.dirtyStorage.get key with _ | value
  · obtain ⟨o', hget, hload, hhas⟩ := getCommittedState_spec o db key
    exact ⟨o', hget, hload, .inr hhas⟩
  · exact ⟨o, rfl, .refl o, .inl ((has_eq_true _ _).2 ⟨value, hk⟩)⟩

theorem view_setState (key value : Word) : (o.setState key value).view db =
    { o.view db with storage := Function.update (o.view db).storage key value } := by
  have hslots : (o.setState key value).slots db = Function.update (o.slots db) key value := by
    funext k
    rw [slots, setState, get_set, Function.update_apply]
    split_ifs <;> rfl
  rw [view, hslots]
  rfl

theorem loadCode_spec (o : StateObject) (db : Database) :
    ∃ code o', o.loadCode db = (code, o') ∧ Loaded db o o' ∧
      codeOf db code o.data.codeHash = (o.view db).code ∧
      codeSizeOf db code o.data.codeHash = (o.view db).codeSize := by
  rw [loadCode, view]
  rcases hc : o.code with _ | code
  · simp only
    split_ifs with h
    · exact ⟨none, o, rfl, .refl o, rfl, rfl⟩
    · exact ⟨_, _, rfl, ⟨rfl, rfl, fun _ => .inl rfl, rfl, .inr ⟨hc, h, rfl⟩, rfl, rfl⟩,
        (codeOf_load h).1, (codeOf_load h).2⟩
  · exact ⟨some code, o, rfl, .refl o, rfl, rfl⟩

end StateObject

/-! ## States -/

/-- What can be seen of a state: the accounts, and what the accounts that are not loaded
    are read from. -/
structure View where
  accounts : Address → Option AccountView
  trie : Accounts
  db : Database
  refund : UInt64
  logs : Word → List Log
  logSize : ℕ
  preimages : Word → Option Bytes

namespace View

/-- The view with another account. -/
def set (v : View) (addr : Address) (x : Option AccountView) : View :=
  { v with accounts := Function.update v.accounts addr x }

/-- The view with an account changed, if it is there. -/
def modify (v : View) (addr : Address) (f : AccountView → AccountView) : Option View :=
  (v.accounts addr).map fun x => v.set addr (some (f x))

variable {v : View} {addr : Address}

theorem accounts_set (a : Address) (x : Option AccountView) :
    (v.set addr x).accounts a = if a = addr then x else v.accounts a := Function.update_apply ..

@[simp]
theorem accounts_set_self (x : Option AccountView) : (v.set addr x).accounts addr = x :=
  Function.update_self ..

@[simp]
theorem set_set (x y : Option AccountView) : (v.set addr x).set addr y = v.set addr y := by
  rw [set, set, set, Function.update_idem]

theorem set_eq_self {x : Option AccountView} (h : v.accounts addr = x) : v.set addr x = v := by
  rw [set, ← h, Function.update_eq_self]

theorem modify_set {x y : AccountView} {f : AccountView → AccountView}
    (h : v.accounts addr = some x) (hf : f y = x) : (v.set addr (some y)).modify addr f = some v := by
  rw [modify, accounts_set_self, Option.map_some, set_set, hf, set_eq_self h]

end View

/-- What is seen of an account that is not loaded. -/
def storedView (db : Database) (data : Account) : AccountView := (newObject data).view db

/-- Undoing an entry, as it is seen. -/
def undoView : JournalEntry → View → Option View
  | .createObject a, v => some (v.set a ((v.trie a).map (storedView v.db)))
  | .resetObject a prev, v => some (v.set a (if prev.deleted then none else some (prev.view v.db)))
  | .suicide a prev prevbalance, v => some (v.set a ((v.accounts a).map fun x =>
      { x with suicided := prev, balance := prevbalance }))
  | .balance a prev, v => v.modify a fun x => { x with balance := prev }
  | .nonce a prev, v => v.modify a fun x => { x with nonce := prev }
  | .storage a key prevalue, v => v.modify a fun x =>
      { x with storage := Function.update x.storage key prevalue }
  | .code a prevcode prevhash, v => v.modify a fun x =>
      { x with
        codeHash := prevhash
        code := StateObject.codeOf v.db prevcode prevhash
        codeSize := StateObject.codeSizeOf v.db prevcode prevhash }
  | .refund prev, v => some { v with refund := prev }
  | .addLog h, v =>
    if v.logs h = [] then none
    else some { v with
      logs := Function.update v.logs h (v.logs h).dropLast, logSize := v.logSize - 1 }
  | .addPreimage h, v => some { v with preimages := Function.update v.preimages h none }
  | .touch _, v => some v

namespace StateDB

/-- The object of an account, also if it is not loaded. -/
def objectAt (s : StateDB) (addr : Address) : Option StateObject :=
  match s.stateObjects.get addr with
  | some obj => some obj
  | none => (s.trie addr).map newObject

/-- What is seen of an object. -/
def seen (db : Database) (obj : StateObject) : Option AccountView :=
  if obj.deleted then none else some (obj.view db)

/-- What is seen of an account. -/
def account (s : StateDB) (addr : Address) : Option AccountView := (s.objectAt addr).bind (seen s.db)

/-- What is seen of a state. -/
def view (s : StateDB) : View where
  accounts := s.account
  trie := s.trie
  db := s.db
  refund := s.refund
  logs := s.getLogs
  logSize := s.logSize
  preimages := s.preimages.get

variable {s s' : StateDB} {addr : Address} {obj : StateObject}

theorem view_append (s : StateDB) (e : JournalEntry) : (s.append e).view = s.view := rfl

theorem objectAt_setStateObject (s : StateDB) (addr a : Address) (obj : StateObject) :
    (s.setStateObject addr obj).objectAt a = if a = addr then some obj else s.objectAt a := by
  rw [objectAt, setStateObject, get_set]
  split_ifs <;> rfl

theorem view_setStateObject (s : StateDB) (addr : Address) (obj : StateObject) :
    (s.setStateObject addr obj).view = s.view.set addr (seen s.db obj) := by
  have hacc : (s.setStateObject addr obj).account =
      Function.update s.account addr (seen s.db obj) := by
    funext a
    rw [account, objectAt_setStateObject, Function.update_apply]
    split_ifs <;> rfl
  rw [view, hacc]
  rfl

@[simp]
theorem setStateObject_setStateObject (s : StateDB) (addr : Address) (obj obj' : StateObject) :
    (s.setStateObject addr obj).setStateObject addr obj' = s.setStateObject addr obj' := by
  rw [setStateObject, setStateObject, setStateObject, set_set]

theorem seen_of_not_deleted {db : Database} (h : obj.deleted = false) :
    seen db obj = some (obj.view db) := by
  rw [seen, h]
  rfl

theorem account_of_objectAt (h : s.objectAt addr = some obj) (hd : obj.deleted = false) :
    s.account addr = some (obj.view s.db) := by
  rw [account, h, Option.bind_some, seen_of_not_deleted hd]

theorem objectAt_of_get (h : s.stateObjects.get addr = some obj) : s.objectAt addr = some obj := by
  rw [objectAt, h]

/-- Loading does not change what is seen. -/
theorem view_load (h : s.objectAt addr = some obj) (hd : obj.deleted = false) {obj' : StateObject}
    (hl : StateObject.Loaded s.db obj obj') : (s.setStateObject addr obj').view = s.view := by
  rw [view_setStateObject, seen_of_not_deleted (hl.deleted.trans hd), hl.view_eq]
  exact View.set_eq_self (account_of_objectAt h hd)

theorem getStateObject_spec (s : StateDB) (addr : Address) :
    (s.getStateObject addr = (none, s) ∧ s.account addr = none) ∨
    ∃ obj s', s.getStateObject addr = (some obj, s') ∧ (s' = s ∨ s' = s.setStateObject addr obj) ∧
      s'.stateObjects.get addr = some obj ∧ s.objectAt addr = some obj ∧ obj.deleted = false := by
  rw [getStateObject, account, objectAt]
  rcases hl : s.stateObjects.get addr with _ | obj
  · rcases ht : s.trie addr with _ | data
    · exact .inl ⟨rfl, rfl⟩
    · exact .inr ⟨newObject data, _, rfl, .inr rfl, get_set_self _ _ _, rfl, rfl⟩
  · rcases hd : obj.deleted with _ | _
    · refine .inr ⟨obj, s, ?_, .inl rfl, hl, rfl, hd⟩
      simp only [hd]
      rfl
    · left
      simp only [hd, if_true, Option.bind_some, seen]
      exact ⟨trivial, trivial⟩

/-! ### Undoing entries -/

theorem revertObject_cases (s : StateDB) (addr : Address) (undo : StateObject → StateObject) :
    (s.revertObject addr undo = none ∧ s.account addr = none) ∨
    ∃ obj, s.revertObject addr undo = some (s.setStateObject addr (undo obj)) ∧
      s.objectAt addr = some obj ∧ obj.deleted = false := by
  rw [revertObject]
  rcases getStateObject_spec s addr with ⟨hget, hacc⟩ | ⟨obj, s', hget, hs', -, hat, hdel⟩
  · rw [hget]
    exact .inl ⟨rfl, hacc⟩
  · rw [hget]
    refine .inr ⟨obj, ?_, hat, hdel⟩
    rcases hs' with rfl | rfl
    · rfl
    · exact congrArg some (setStateObject_setStateObject _ _ _ _)

theorem revertObject_view (s : StateDB) (addr : Address) {undo : StateObject → StateObject}
    {f : AccountView → AccountView} (hd : ∀ obj, (undo obj).deleted = obj.deleted)
    (hf : ∀ obj, (undo obj).view s.db = f (obj.view s.db)) :
    (s.revertObject addr undo).map view = s.view.modify addr f := by
  change _ = (s.account addr).map _
  rcases revertObject_cases s addr undo with ⟨hr, hacc⟩ | ⟨obj, hr, hat, hdel⟩
  · rw [hr, hacc]
    rfl
  · rw [hr, account_of_objectAt hat hdel, Option.map_some, view_setStateObject,
      seen_of_not_deleted ((hd obj).trans hdel), hf]
    rfl

/-- A suicide is undone in the object, if it is there. -/
theorem revertSuicide_eq (s : StateDB) (addr : Address) (prev : Bool) (prevbalance : ℤ) :
    s.revertEntry (.suicide addr prev prevbalance) = some ((s.revertObject addr fun obj =>
      { obj.setBalance prevbalance with suicided := prev }).getD s) := by
  rw [revertEntry, revertObject]
  rcases getStateObject_spec s addr with ⟨hget, -⟩ | ⟨obj, s', hget, -⟩
  · rw [hget]
    rfl
  · rw [hget]
    rfl

theorem getLogs_revert (s : StateDB) (h : Word) :
    (fun x => ((if (s.getLogs h).length = 1 then s.logs.erase h
      else s.logs.set h (s.getLogs h).dropLast).get x).getD []) =
        Function.update s.getLogs h (s.getLogs h).dropLast := by
  funext x
  rw [Function.update_apply]
  split_ifs with hlen hx hx
  · have hone : (s.getLogs h).dropLast = [] := List.eq_nil_of_length_eq_zero (by simp [hlen])
    rw [get_erase, if_pos hx, hone]
    rfl
  · rw [get_erase, if_neg hx]
    rfl
  · rw [get_set, if_pos hx]
    rfl
  · rw [get_set, if_neg hx]
    rfl

theorem revertEntry_view (s : StateDB) (e : JournalEntry) :
    (s.revertEntry e).map view = undoView e s.view := by
  cases e with
  | createObject a =>
    have hacc : ({ s with
        stateObjects := s.stateObjects.erase a
        stateObjectsDirty := s.stateObjectsDirty.erase a } : StateDB).account =
          Function.update s.account a ((s.trie a).map (storedView s.db)) := by
      funext b
      rw [account, objectAt, get_erase, Function.update_apply]
      split_ifs with hb
      · rw [hb]
        cases s.trie a <;> rfl
      · rfl
    rw [revertEntry, undoView, Option.map_some, view, hacc]
    rfl
  | resetObject a prev =>
    rw [revertEntry, undoView, Option.map_some, view_setStateObject]
    rfl
  | suicide a prev prevbalance =>
    rw [revertSuicide_eq, undoView, Option.map_some]
    change _ = some (s.view.set a ((s.account a).map _))
    rcases revertObject_cases s a _ with ⟨hr, hacc⟩ | ⟨obj, hr, hat, hdel⟩
    · rw [hr, hacc, Option.map_none, View.set_eq_self hacc]
      rfl
    · have hseen : seen s.db { obj.setBalance prevbalance with suicided := prev } = some _ :=
        seen_of_not_deleted hdel
      rw [hr, account_of_objectAt hat hdel, Option.getD_some, view_setStateObject, hseen]
      rfl
  | balance a prev | nonce a prev | code a prevcode prevhash =>
    exact revertObject_view s a (fun _ => rfl) fun _ => rfl
  | storage a key prevalue =>
    exact revertObject_view s a (fun _ => rfl) fun obj => StateObject.view_setState key prevalue
  | refund prev => rfl
  | addLog h =>
    rw [revertEntry, undoView]
    change _ = if s.getLogs h = [] then none else _
    rcases em (s.getLogs h = []) with hnil | hnil
    · rw [if_pos hnil, if_pos hnil]
      rfl
    · rw [if_neg hnil, if_neg hnil, Option.map_some]
      congr 1
      rw [view, View.mk.injEq]
      exact ⟨rfl, rfl, rfl, rfl, getLogs_revert s h, rfl, rfl⟩
  | addPreimage h =>
    rw [revertEntry, undoView, Option.map_some]
    congr 1
    rw [view, View.mk.injEq]
    refine ⟨rfl, rfl, rfl, rfl, rfl, rfl, ?_⟩
    funext x
    rw [get_erase, Function.update_apply]
    rfl
  | touch a => rfl

end StateDB

end GoEthereum.State
