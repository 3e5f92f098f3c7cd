/-
  What holds in a block.

  The cached slots of an object are those of its trie (`StateObject.Ok`), so `updateTrie`
  writes the slots that are seen.  In a block, between `New` and `Commit`, all objects
  keep this, accounts that are marked as dirty are seen or nowhere, and an entry of the
  journal brings back what was there (`BlockInv`): steps keep this (`BlockInv.step`), and
  so does undoing entries (`BlockInv.revertEntry`).
-/
import GoEthereum.State.Revert
import GoEthereum.Lib.LocalFold

namespace GoEthereum.State

open GoEthereum.Rlp AssocMap UndoLog StateDB LocalFold

/-! ## Writing an object -/

namespace StateObject

/-- The cached slots are those of the trie, and every dirty slot is cached. -/
structure Ok (db : Database) (o : StateObject) : Prop where
  origin : ∀ key value, o.originStorage.get key = some value → value = o.content db key
  dirty : ∀ key, o.dirtyStorage.has key = true → o.originStorage.has key = true

variable {o o' : StateObject} {db : Database}

theorem ok_newObject (data : Account) : Ok db (newObject data) where
  origin key value h := by cases h
  dirty key h := by cases h

theorem Ok.committed_eq (h : Ok db o) : o.committed db = o.content db := by
  funext key
  rw [committed]
  rcases hk : o.originStorage.get key with _ | value
  · rfl
  · exact h.origin key value hk

theorem Ok.loaded (h : Ok db o) (hl : o.Loaded db o') : Ok db o' where
  origin key value hk := by
    rw [hl.content]
    rcases hl.origin key with ho | ho
    · exact h.origin key value (ho ▸ hk)
    · rw [hk, h.committed_eq] at ho
      exact Option.some.inj ho
  dirty key hk := by
    rw [hl.dirty] at hk
    rcases hl.origin key with ho | ho
    · rw [has, ho]
      exact h.dirty key hk
    · rw [has, ho]
      rfl

theorem Ok.change {e : JournalEntry} {addr : Address} (h : Ok db o)
    (hch : ObjectChange db addr o e o') : Ok db o' := by
  cases hch with
  | balance | nonce | suicide | code => exact ⟨h.origin, h.dirty⟩
  | storage key value hhas =>
    refine ⟨h.origin, fun k hk => ?_⟩
    rw [has, setState, get_set] at hk
    split_ifs at hk with hkey
    · rw [hkey]
      exact hhas.elim (h.dirty key) id
    · exact h.dirty k hk

/-- What a round of `updateTrie` changes: the dirty, the cached and the stored slot. -/
def slotPart (db : Database) (o : StateObject) (key : Word) : Option Word × Option Word × Word :=
  (o.dirtyStorage.get key, o.originStorage.get key, o.content db key)

/-- A round of `updateTrie` for its slot. -/
def updatePart : Option Word × Option Word × Word → Option Word × Option Word × Word
  | (none, x, y) => (none, x, y)
  | (some value, x, y) => if value = x.getD 0 then (none, x, y) else (none, some value, value)

theorem slotPart_updateSlot (db : Database) {o : StateObject} (ht : o.trie.isSome = true)
    (key k : Word) : slotPart db (updateSlot o key) k =
      if k = key then updatePart (slotPart db o key) else slotPart db o k := by
  obtain ⟨tr, htr⟩ := Option.isSome_iff_exists.1 ht
  rw [updateSlot]
  rcases hk : o.dirtyStorage.get key with _ | value
  · simp only [slotPart, hk, updatePart]
    split_ifs with h
    · rw [h, hk]
    · rfl
  · simp only [slotPart, hk, updatePart]
    by_cases h : value = (o.originStorage.get key).getD 0
    · rw [if_pos h, if_pos h]
      simp only [get_erase]
      split_ifs with hkey
      · rw [hkey]
        rfl
      · rfl
    · rw [if_neg h, if_neg h]
      simp only [content, htr, Option.map_some, Option.getD_some, get_erase, get_set,
        Function.update_apply]
      split_ifs <;> rfl

theorem updateSlot_frame (o : StateObject) (key : Word) :
    (updateSlot o key).data = o.data ∧ (updateSlot o key).trie.isSome = o.trie.isSome ∧
      (updateSlot o key).suicided = o.suicided ∧ (updateSlot o key).deleted = o.deleted := by
  rw [updateSlot]
  rcases o.dirtyStorage.get key with _ | value
  · exact ⟨rfl, rfl, rfl, rfl⟩
  · simp only
    split_ifs
    · exact ⟨rfl, rfl, rfl, rfl⟩
    · exact ⟨rfl, Option.isSome_map, rfl, rfl⟩

theorem updateTrie_frame (o : StateObject) (db : Database) :
    (o.updateTrie db).data = o.data ∧ (o.updateTrie db).trie.isSome = true ∧
      (o.updateTrie db).suicided = o.suicided ∧ (o.updateTrie db).deleted = o.deleted := by
  have hfold : ∀ (l : List Word) (o : StateObject), (l.foldl updateSlot o).data = o.data ∧
      (l.foldl updateSlot o).trie.isSome = o.trie.isSome ∧
      (l.foldl updateSlot o).suicided = o.suicided ∧
      (l.foldl updateSlot o).deleted = o.deleted := by
    intro l
    induction l with
    | nil => exact fun o => ⟨rfl, rfl, rfl, rfl⟩
    | cons key l ih =>
      intro o
      obtain ⟨h₁, h₂, h₃, h₄⟩ := ih (updateSlot o key)
      obtain ⟨g₁, g₂, g₃, g₄⟩ := updateSlot_frame o key
      exact ⟨h₁.trans g₁, h₂.trans g₂, h₃.trans g₃, h₄.trans g₄⟩
  rw [updateTrie, getTrie_eq]
  exact hfold _ _

theorem slotPart_updateTrie (o : StateObject) (db : Database) (key : Word) :
    slotPart db (o.updateTrie db) key = updatePart (slotPart db o key) := by
  rw [updateTrie, getTrie_eq]
  simp only
  have hfold := (foldl_local (P := fun o : StateObject => o.trie.isSome = true) (slotPart db)
    (f := updateSlot) (g := fun _ => updatePart) (fun o k ht => (updateSlot_frame o k).2.1.trans ht)
    (fun o k k' ht => slotPart_updateSlot db ht k k') (nodup_keys o.dirtyStorage)
    (s := { o with trie := some (o.content db) }) rfl).2 key
  rw [hfold]
  split_ifs with hmem
  · rfl
  · rw [mem_keys, not_exists] at hmem
    have hnone : o.dirtyStorage.get key = none := Option.eq_none_iff_forall_ne_some.2 hmem
    rw [slotPart, slotPart, hnone]
    rfl

theorem updateTrie_spec (h : Ok db o) : Ok db (o.updateTrie db) ∧
    (o.updateTrie db).content db = o.slots db ∧ (o.updateTrie db).slots db = o.slots db := by
  have hkey : ∀ key, (o.updateTrie db).dirtyStorage.get key = none ∧
      (o.updateTrie db).content db key = o.slots db key ∧
      ∀ value, (o.updateTrie db).originStorage.get key = some value → value = o.slots db key := by
    intro key
    have hpart := slotPart_updateTrie o db key
    simp only [slotPart, Prod.ext_iff] at hpart
    obtain ⟨h₁, h₂, h₃⟩ := hpart
    rw [h₁, h₂, h₃, slots]
    rcases hd : o.dirtyStorage.get key with _ | value
    · refine ⟨rfl, (congrFun h.committed_eq key).symm, fun value ho => ?_⟩
      rw [h.committed_eq]
      exact h.origin key value ho
    · obtain ⟨x, hx⟩ := (has_eq_true _ _).1 (h.dirty key ((has_eq_true _ _).2 ⟨value, hd⟩))
      rw [updatePart, hx, ← h.origin key x hx]
      split_ifs with hv
      · exact ⟨rfl, hv.symm, fun y hy => (Option.some.inj hy).symm.trans hv.symm⟩
      · exact ⟨rfl, rfl, fun y hy => (Option.some.inj hy).symm⟩
  have hcontent : (o.updateTrie db).content db = o.slots db := funext fun key => (hkey key).2.1
  have hok : Ok db (o.updateTrie db) := {
    origin := fun key value hv => by rw [hcontent]; exact (hkey key).2.2 value hv
    dirty := fun key hv => by
      rw [has, (hkey key).1] at hv
      cases hv }
  refine ⟨hok, hcontent, funext fun key => ?_⟩
  rw [slots, (hkey key).1, hok.committed_eq, hcontent]
  rfl

theorem updateRoot_spec (H : Hashing) (h : Ok db o) : Ok db (o.updateRoot db H) ∧
    (o.updateRoot db H).slots db = o.slots db ∧
    (o.updateRoot db H).data = { o.data with root := H.storageRoot (o.slots db) } ∧
    (o.updateRoot db H).suicided = o.suicided ∧ (o.updateRoot db H).deleted = o.deleted := by
  obtain ⟨hok, hcontent, hslots⟩ := updateTrie_spec h
  obtain ⟨hdata, htrie, hsuicided, hdeleted⟩ := updateTrie_frame o db
  obtain ⟨tr, htr⟩ := Option.isSome_iff_exists.1 htrie
  have hroot : (o.updateRoot db H).data = { o.data with root := H.storageRoot (o.slots db) } := by
    simp only [updateRoot, getTrie_eq, hcontent, hdata]
  -- the trie is open, so another root does not change what is in it
  have hopen : (o.updateRoot db H).content db = (o.updateTrie db).content db := by
    simp only [content, updateRoot, htr, Option.getD_some]
  have hsame : (o.updateRoot db H).slots db = (o.updateTrie db).slots db := by
    funext key
    simp only [slots, committed, hopen]
    rfl
  refine ⟨⟨fun key value hv => ?_, hok.dirty⟩, hsame.trans hslots, hroot, hsuicided, hdeleted⟩
  rw [hopen]
  exact hok.origin key value hv

end StateObject

/-! ## The invariant of a block -/

/-- The slots of an account that are cached. -/
def StateDB.cachedKeys (s : StateDB) (a : Address) (key : Word) : Bool :=
  match s.stateObjects.get a with
  | none => false
  | some obj => !obj.deleted && obj.originStorage.has key

namespace JournalEntry

/-- The entry brings back a slot that is cached. -/
def Needs (a : Address) (known : Word → Bool) : JournalEntry → Prop
  | .storage b key _ => b = a → known key = true
  | _ => True

/-- The slots that are cached after the entry was undone. -/
def restored (a : Address) (known : Word → Bool) : JournalEntry → Word → Bool
  | .createObject b => if b = a then fun _ => false else known
  | .resetObject b prev => if b = a then prev.originStorage.has else known
  | _ => known

end JournalEntry

/-- Every slot is cached in the object it is brought back in. -/
def Cached (a : Address) : (Word → Bool) → List JournalEntry → Prop
  | _, [] => True
  | known, e :: es => e.Needs a known ∧ Cached a (e.restored a known) es

theorem Cached.mono {a : Address} {es : List JournalEntry} {known known' : Word → Bool}
    (hk : ∀ key, known key = true → known' key = true) (h : Cached a known es) :
    Cached a known' es := by
  induction es generalizing known known' with
  | nil => trivial
  | cons e es ih =>
    obtain ⟨hneeds, hrest⟩ := h
    cases e with
    | storage b key prevalue => exact ⟨fun hb => hk key (hneeds hb), ih hk hrest⟩
    | createObject b | resetObject b prev =>
      refine ⟨trivial, ih (fun key => ?_) hrest⟩
      simp only [JournalEntry.restored]
      split_ifs
      · exact id
      · exact hk key
    | _ => exact ⟨trivial, ih hk hrest⟩

/-- What an entry brings back is in order. -/
def EntryOk (s : StateDB) : JournalEntry → Prop
  | .createObject a => s.trie a = none
  | .resetObject _ prev => prev.deleted = false ∧ prev.Ok s.db
  | _ => True

theorem EntryOk.congr {s s' : StateDB} {e : JournalEntry} (h : EntryOk s e)
    (htrie : s'.trie = s.trie) (hdb : s'.db = s.db) : EntryOk s' e := by
  cases e with
  | createObject a => exact (congrFun htrie a).trans h
  | resetObject a prev => exact ⟨h.1, hdb ▸ h.2⟩
  | _ => trivial

/-- What holds in a block; `es` are the entries of the journal that are not undone. -/
structure BlockInv (s : StateDB) (es : List JournalEntry) : Prop where
  hidden : ∀ a obj, s.stateObjects.get a = some obj → obj.deleted = true → s.trie a = none
  ok : ∀ a obj, s.stateObjects.get a = some obj → obj.Ok s.db
  dirty : ∀ a, s.journal.dirties.has a = true →
    (∃ obj, s.stateObjects.get a = some obj ∧ obj.deleted = false) ∨
      s.stateObjects.get a = none ∧ s.trie a = none
  entries : ∀ e ∈ es, EntryOk s e
  cached : ∀ a, Cached a (s.cachedKeys a) es

variable {s s' : StateDB} {addr : Address} {obj : StateObject} {es : List JournalEntry}
  {e : JournalEntry}

theorem BlockInv.ok_objectAt (h : BlockInv s es) (hobj : s.objectAt addr = some obj) :
    obj.Ok s.db := by
  rw [objectAt] at hobj
  rcases hl : s.stateObjects.get addr with _ | o
  · rw [hl] at hobj
    obtain ⟨data, -, rfl⟩ := Option.map_eq_some_iff.1 hobj
    exact StateObject.ok_newObject data
  · rw [hl] at hobj
    cases hobj
    exact h.ok addr obj hl

theorem cachedKeys_objectAt (hobj : s.objectAt addr = some obj) {key : Word}
    (h : s.cachedKeys addr key = true) : obj.originStorage.has key = true := by
  rw [cachedKeys] at h
  rw [objectAt] at hobj
  rcases hl : s.stateObjects.get addr with _ | o
  · rw [hl] at h
    cases h
  · rw [hl] at h hobj
    cases hobj
    exact (Bool.and_eq_true_iff.1 h).2

/-- Another object for an account. -/
theorem BlockInv.setObject {es' : List JournalEntry} (h : BlockInv s es) (htrie : s'.trie = s.trie)
    (hdb : s'.db = s.db)
    (hlive : ∀ b, s'.stateObjects.get b = if b = addr then some obj else s.stateObjects.get b)
    (hdel : obj.deleted = false) (hok : obj.Ok s.db)
    (hdirty : ∀ b ≠ addr, s'.journal.dirties.has b = true → s.journal.dirties.has b = true)
    (hes : ∀ e ∈ es', e ∈ es ∨ EntryOk s e)
    (hself : Cached addr obj.originStorage.has es')
    (hother : ∀ b ≠ addr, Cached b (s.cachedKeys b) es') : BlockInv s' es' where
  hidden a o ho hd := by
    rw [hlive] at ho
    rw [htrie]
    split_ifs at ho with ha
    · cases ho
      rw [hdel] at hd
      cases hd
    · exact h.hidden a o ho hd
  ok a o ho := by
    rw [hlive] at ho
    rw [hdb]
    split_ifs at ho with ha
    · cases ho
      exact hok
    · exact h.ok a o ho
  dirty a hd := by
    rw [hlive, htrie]
    split_ifs with ha
    · exact .inl ⟨obj, rfl, hdel⟩
    · exact h.dirty a (hdirty a ha hd)
  entries e he := ((hes e he).elim (h.entries e) id).congr htrie hdb
  cached a := by
    by_cases ha : a = addr
    · subst ha
      refine hself.mono fun key hk => ?_
      rw [cachedKeys, hlive, if_pos rfl]
      simp [hdel, hk]
    · have hkeys : s'.cachedKeys a = s.cachedKeys a := by
        funext key
        rw [cachedKeys, cachedKeys, hlive, if_neg ha]
      rw [hkeys]
      exact hother a ha

theorem BlockInv.setStateObject (h : BlockInv s es) (hdel : obj.deleted = false)
    (hok : obj.Ok s.db)
    (hkeys : ∀ key, s.cachedKeys addr key = true → obj.originStorage.has key = true) :
    BlockInv (s.setStateObject addr obj) es :=
  h.setObject rfl rfl (fun _ => get_set _ _ _ _) hdel hok (fun _ _ hb => hb) (fun _ he => .inl he)
    ((h.cached addr).mono hkeys) fun b _ => h.cached b

theorem has_append {b : Address} (h : (s.append e).journal.dirties.has b = true) :
    s.journal.dirties.has b = true ∨ e.dirtied = some b := by
  rw [append, Journal.append] at h
  rcases he : e.dirtied with _ | a
  · rw [he] at h
    exact .inl h
  · rw [he] at h
    simp only [Journal.dirty, has, get_set] at h
    split_ifs at h with hb
    · exact .inr (by rw [hb])
    · exact .inl h

/-- An object is replaced together with an entry about it. -/
theorem BlockInv.append (h : BlockInv s es) (hdel : obj.deleted = false) (hok : obj.Ok s.db)
    (he : EntryOk s e) (hdirtied : ∀ b, e.dirtied = some b → b = addr)
    (hself : Cached addr obj.originStorage.has (e :: es))
    (hother : ∀ b ≠ addr, ∀ known, e.Needs b known ∧ e.restored b known = known) :
    BlockInv ((s.append e).setStateObject addr obj) (e :: es) := by
  refine h.setObject rfl rfl (fun b => get_set _ _ _ _) hdel hok (fun b hb hd => ?_) (fun x hx => ?_)
    hself fun b hb => ?_
  · exact (has_append hd).elim id fun hd => absurd (hdirtied b hd) hb
  · rcases List.mem_cons.1 hx with rfl | hx
    · exact .inr he
    · exact .inl hx
  · obtain ⟨hneeds, hrestored⟩ := hother b hb (s.cachedKeys b)
    exact ⟨hneeds, by rw [hrestored]; exact h.cached b⟩

theorem BlockInv.of_eq (h : BlockInv s es) (htrie : s'.trie = s.trie) (hdb : s'.db = s.db)
    (hlive : s'.stateObjects = s.stateObjects)
    (hdirty : ∀ b, s'.journal.dirties.has b = true → s.journal.dirties.has b = true ∨
      ∃ obj, s.stateObjects.get b = some obj ∧ obj.deleted = false) : BlockInv s' es where
  hidden := by rw [hlive, htrie]; exact h.hidden
  ok := by rw [hlive, hdb]; exact h.ok
  dirty a hd := by
    rw [hlive, htrie]
    exact (hdirty a hd).elim (h.dirty a) .inl
  entries e he := (h.entries e he).congr htrie hdb
  cached a := by
    have hkeys : s'.cachedKeys a = s.cachedKeys a := by
      funext key
      rw [cachedKeys, cachedKeys, hlive]
    rw [hkeys]
    exact h.cached a

/-- An entry that does not concern an object. -/
theorem BlockInv.cons (h : BlockInv s es)
    (hnew : ∀ a known, e.Needs a known ∧ e.restored a known = known) (hok : EntryOk s e) :
    BlockInv s (e :: es) where
  hidden := h.hidden
  ok := h.ok
  dirty := h.dirty
  entries := List.forall_mem_cons.2 ⟨hok, h.entries⟩
  cached a := ⟨(hnew a _).1, by rw [(hnew a _).2]; exact h.cached a⟩

theorem cachedKeys_of_get (hobj : s.stateObjects.get addr = some obj) (hdel : obj.deleted = false) :
    s.cachedKeys addr = obj.originStorage.has := by
  funext key
  rw [cachedKeys, hobj]
  simp [hdel]

theorem cachedKeys_of_account (h : s.account addr = none) : s.cachedKeys addr = fun _ => false := by
  funext key
  rw [cachedKeys]
  rcases hl : s.stateObjects.get addr with _ | o
  · rfl
  · rw [account, objectAt, hl, Option.bind_some, seen] at h
    split_ifs at h with hdel
    simp [hdel]

theorem StateObject.Loaded.has_origin {db : Database} {o o' : StateObject} (h : o.Loaded db o')
    {key : Word} (hk : o.originStorage.has key = true) : o'.originStorage.has key = true := by
  rcases h.origin key with ho | ho
  · rw [has, ho]
    exact hk
  · rw [has, ho]
    rfl

theorem ObjectChange.entryOk {db : Database} {o o' : StateObject} (h : ObjectChange db addr o e o')
    (s : StateDB) : EntryOk s e ∧ e.dirtied = some addr ∧
      (∀ b known, e.restored b known = known) ∧ (∀ b ≠ addr, ∀ known, e.Needs b known) ∧
      o'.originStorage = o.originStorage := by
  cases h with
  | storage key value _ =>
    exact ⟨trivial, rfl, fun _ _ => rfl, fun b hb _ h => absurd h.symm hb, rfl⟩
  | _ => exact ⟨trivial, rfl, fun _ _ => rfl, fun _ _ _ => trivial, rfl⟩

theorem ObjectChange.needs {db : Database} {o o' : StateObject} (h : ObjectChange db addr o e o')
    (hok : o.Ok db) : e.Needs addr o.originStorage.has := by
  cases h with
  | storage key value hhas => exact fun _ => hhas.elim (hok.dirty key) id
  | _ => trivial

theorem BlockInv.step (h : BlockInv s s.journal.entries) (hstep : Step s s') :
    BlockInv s' s'.journal.entries := by
  have hhidden : Hidden s.view := (hidden_iff s).2 h.hidden
  cases hstep with
  | @load addr obj obj' hat hdel hload =>
    exact h.setStateObject (hload.deleted.trans hdel) ((h.ok_objectAt hat).loaded hload)
      fun key hk => hload.has_origin (cachedKeys_objectAt hat hk)
  | @create addr hacc =>
    change BlockInv _ (s.append _).journal.entries
    rw [entries_append]
    refine h.append rfl (StateObject.ok_newObject _) (hhidden addr hacc) (fun b hb => ?_)
      ⟨trivial, ?_⟩ fun b hb known => ⟨trivial, if_neg hb.symm⟩
    · exact (Option.some.inj hb).symm
    · rw [JournalEntry.restored, if_pos rfl, ← cachedKeys_of_account hacc]
      exact h.cached addr
  | @reset addr obj hobj hdel =>
    change BlockInv _ (s.append _).journal.entries
    rw [entries_append]
    refine h.append rfl (StateObject.ok_newObject _) ⟨hdel, h.ok addr obj hobj⟩ (fun b hb => ?_)
      ⟨trivial, ?_⟩ fun b hb known => ⟨trivial, if_neg hb.symm⟩
    · cases hb
    · rw [JournalEntry.restored, if_pos rfl, ← cachedKeys_of_get hobj hdel]
      exact h.cached addr
  | @change addr obj obj' e hobj hdel hch =>
    obtain ⟨he, hdirtied, hrestored, hneeds, horigin⟩ := hch.entryOk s
    have hok := h.ok addr obj hobj
    change BlockInv _ (s.append _).journal.entries
    rw [entries_append]
    refine h.append (hch.deleted_eq.trans hdel) (hok.change hch) he (fun b hb => ?_) ⟨?_, ?_⟩
      fun b hb known => ⟨hneeds b hb known, hrestored b known⟩
    · rw [hdirtied] at hb
      exact (Option.some.inj hb).symm
    · rw [horigin]
      exact hch.needs hok
    · rw [hrestored, horigin, ← cachedKeys_of_get hobj hdel]
      exact h.cached addr
  | @touch addr obj hobj hdel =>
    have hdirty : ∀ b, (s.touch addr).journal.dirties.has b = true →
        s.journal.dirties.has b = true ∨ b = addr := by
      intro b hb
      rw [StateDB.touch] at hb
      split_ifs at hb
      · simp only [Journal.dirty, has, get_set] at hb
        split_ifs at hb with hba
        · exact .inr hba
        · exact (has_append hb).imp id fun h => (Option.some.inj h).symm
      · exact (has_append hb).imp id fun h => (Option.some.inj h).symm
    have hframe : (s.touch addr).trie = s.trie ∧ (s.touch addr).db = s.db ∧
        (s.touch addr).stateObjects = s.stateObjects ∧
        (s.touch addr).journal.entries = .touch addr :: s.journal.entries := by
      rw [StateDB.touch]
      split_ifs <;> exact ⟨rfl, rfl, rfl, rfl⟩
    rw [hframe.2.2.2]
    refine (h.of_eq hframe.1 hframe.2.1 hframe.2.2.1 fun b hb => ?_).cons
      (fun _ _ => ⟨trivial, rfl⟩) trivial
    rcases hdirty b hb with hb | rfl
    · exact .inl hb
    · exact .inr ⟨obj, hobj, hdel⟩
  | refund | addLog | addPreimage =>
    exact .cons (h.of_eq rfl rfl rfl fun _ => .inl) (fun _ _ => ⟨trivial, rfl⟩) trivial

/-! ### Undoing entries -/

/-- The accounts are marked at least as often as entries change them. -/
def Journal.Counted (j : Journal) (es : List JournalEntry) : Prop :=
  ∀ a, (es.countP (fun e => e.dirtied = some a) : ℤ) ≤ (j.dirties.get a).getD 0

namespace Journal.Counted

variable {j : Journal}

theorem dirty (h : j.Counted es) (a : Address) : (j.dirty a).Counted es := by
  intro b
  have hb := h b
  simp only [Journal.dirty, get_set]
  split_ifs with hba
  · rw [hba] at hb ⊢
    rw [Option.getD_some]
    omega
  · exact hb

theorem append (h : j.Counted es) (e : JournalEntry) : (j.append e).Counted (e :: es) := by
  intro b
  have hb := h b
  rw [Journal.append]
  rcases he : e.dirtied with _ | a
  · simp only [List.countP_cons, he]
    simpa using hb
  · simp only [List.countP_cons, he, Journal.dirty, get_set, Option.some.injEq, decide_eq_true_eq]
    by_cases hba : b = a
    · subst hba
      simp
      omega
    · rw [if_neg hba, if_neg (Ne.symm hba)]
      exact hb

theorem undirty (h : j.Counted (e :: es)) : (j.undirty e).Counted es ∧
    ∀ b, (j.undirty e).dirties.has b = true → j.dirties.has b = true := by
  rw [Journal.undirty]
  rcases he : e.dirtied with _ | a
  · refine ⟨fun b => ?_, fun b hb => hb⟩
    have hb := h b
    simpa [List.countP_cons, he] using hb
  · have ha := h a
    rw [List.countP_cons, he] at ha
    simp only [decide_true, if_true] at ha
    have hmark : j.dirties.has a = true := by
      rw [has_eq_true]
      rcases hn : j.dirties.get a with _ | n
      · rw [hn, Option.getD_none] at ha
        omega
      · exact ⟨n, rfl⟩
    refine ⟨fun b => ?_, fun b hb => ?_⟩
    · have hb := h b
      rw [List.countP_cons, he] at hb
      by_cases hba : b = a
      · subst hba
        simp only
        split_ifs with hn
        · rw [get_erase, if_pos rfl, Option.getD_none]
          push_cast at ha
          omega
        · rw [get_set, if_pos rfl, Option.getD_some]
          push_cast at ha
          omega
      · simp only [Option.some.injEq, decide_eq_true_eq, if_neg (Ne.symm hba)] at hb ⊢
        split_ifs
        · rw [get_erase, if_neg hba]
          exact hb
        · rw [get_set, if_neg hba]
          exact hb
    · by_cases hba : b = a
      · rw [hba]
        exact hmark
      · simp only at hb
        split_ifs at hb
        · rwa [has, get_erase, if_neg hba] at hb
        · rwa [has, get_set, if_neg hba] at hb

/-- An account that is not marked is changed by no entry. -/
theorem not_dirtied (h : j.Counted es) {a : Address} (ha : j.dirties.has a = false) :
    ∀ e ∈ es, e.dirtied ≠ some a := by
  intro e he hea
  have hpos : 0 < es.countP fun e => e.dirtied = some a :=
    List.countP_pos_iff.2 ⟨e, he, by simpa using hea⟩
  have hle := h a
  rw [(has_eq_false _ _).1 ha, Option.getD_none] at hle
  omega

end Journal.Counted

theorem counted_step (h : s.journal.Counted s.journal.entries) (hstep : Step s s') :
    s'.journal.Counted s'.journal.entries := by
  have happend : ∀ e, (s.journal.append e).Counted (s.journal.append e).entries := by
    intro e
    have he : (s.journal.append e).entries = e :: s.journal.entries := entries_append s e
    rw [he]
    exact h.append e
  cases hstep with
  | load => exact h
  | @touch addr =>
    rw [StateDB.touch]
    split_ifs
    · exact (happend _).dirty addr
    · exact happend _
  | _ => exact happend _

theorem BlockInv.tail (h : BlockInv s (e :: es))
    (he : ∀ a known, e.restored a known = known) : BlockInv s es :=
  ⟨h.hidden, h.ok, h.dirty, fun x hx => h.entries x (.tail _ hx), fun a => by
    have hc := (h.cached a).2
    rwa [he] at hc⟩

theorem BlockInv.revertCreate (h : BlockInv s (.createObject addr :: es)) : BlockInv { s with
    stateObjects := s.stateObjects.erase addr
    stateObjectsDirty := s.stateObjectsDirty.erase addr } es := by
  have hnone : s.trie addr = none := h.entries _ (.head _)
  refine ⟨fun a obj ha => h.hidden a obj (get_erase_some ha).2,
    fun a obj ha => h.ok a obj (get_erase_some ha).2, fun a ha => ?_,
    fun e he => h.entries e (.tail _ he), fun a => ?_⟩
  · change (∃ obj, (s.stateObjects.erase addr).get a = some obj ∧ obj.deleted = false) ∨
      (s.stateObjects.erase addr).get a = none ∧ s.trie a = none
    rw [get_erase]
    split_ifs with haddr
    · exact .inr ⟨rfl, haddr ▸ hnone⟩
    · exact h.dirty a ha
  · refine (h.cached a).2.mono fun key hk => ?_
    simp only [JournalEntry.restored, cachedKeys, get_erase] at hk ⊢
    by_cases haddr : a = addr
    · rw [if_pos haddr.symm] at hk
      cases hk
    · rw [if_neg (Ne.symm haddr)] at hk
      rw [if_neg haddr]
      exact hk

theorem BlockInv.revertEntry (h : BlockInv s (e :: es))
    (hs' : s.revertEntry e = some s') : BlockInv s' es := by
  have hobject : ∀ {addr : Address} {undo : StateObject → StateObject},
      s.revertObject addr undo = some s' → (∀ a known, e.restored a known = known) →
      (∀ obj, (undo obj).deleted = obj.deleted) →
      (∀ obj, (undo obj).originStorage = obj.originStorage) →
      (∀ obj, s.objectAt addr = some obj → obj.Ok s.db → (undo obj).Ok s.db) →
      BlockInv s' es := by
    intro addr undo hs' he hdel horigin hok
    rcases revertObject_cases s addr undo with ⟨hr, -⟩ | ⟨obj, hr, hat, hd⟩
    all_goals
      rw [hr] at hs'
      cases hs'
    refine (h.tail he).setStateObject ((hdel obj).trans hd) (hok obj hat (h.ok_objectAt hat))
      fun key hk => ?_
    rw [horigin]
    exact cachedKeys_objectAt hat hk
  cases e with
  | createObject a =>
    cases hs'
    exact h.revertCreate
  | resetObject a prev =>
    cases hs'
    obtain ⟨hdel, hok⟩ := h.entries _ (.head _)
    refine h.setObject rfl rfl (fun _ => get_set _ _ _ _) hdel hok (fun _ _ hb => hb)
      (fun e he => .inl (.tail _ he)) ?_ fun b hb => ?_
    · have hc := (h.cached a).2
      rwa [JournalEntry.restored, if_pos rfl] at hc
    · have hc := (h.cached b).2
      rwa [JournalEntry.restored, if_neg hb.symm] at hc
  | suicide a prev prevbalance =>
    rw [revertSuicide_eq] at hs'
    rcases hr : s.revertObject a _ with _ | s₁
    · rw [hr] at hs'
      cases hs'
      exact h.tail fun _ _ => rfl
    · rw [hr] at hs'
      exact hobject (hr.trans hs') (fun _ _ => rfl) (fun _ => rfl) (fun _ => rfl) fun _ _ hok =>
        ⟨hok.origin, hok.dirty⟩
  | storage a key prevalue =>
    refine hobject hs' (fun _ _ => rfl) (fun _ => rfl) (fun _ => rfl) fun obj hat hok =>
      ⟨hok.origin, fun k hk => ?_⟩
    rw [has, StateObject.setState, get_set] at hk
    split_ifs at hk with hkey
    · rw [hkey]
      exact cachedKeys_objectAt hat ((h.cached a).1 rfl)
    · exact hok.dirty k hk
  | addLog x =>
    rw [StateDB.revertEntry] at hs'
    split_ifs at hs' <;> cases hs' <;>
      exact (h.tail fun _ _ => rfl).of_eq rfl rfl rfl fun _ => .inl
  | refund | addPreimage | touch =>
    cases hs'
    exact (h.tail fun _ _ => rfl).of_eq rfl rfl rfl fun _ => .inl
  | balance | nonce | code =>
    exact hobject hs' (fun _ _ => rfl) (fun _ => rfl) (fun _ => rfl) fun _ _ hok =>
      ⟨hok.origin, hok.dirty⟩

/-- Both invariants of a journal. -/
def Journaled (s : StateDB) (es : List JournalEntry) : Prop := BlockInv s es ∧ s.journal.Counted es

theorem Journaled.steps (h : Journaled s s.journal.entries) (hsteps : Steps s s') :
    Journaled s' s'.journal.entries := by
  induction hsteps with
  | refl => exact h
  | tail _ hstep ih => exact ⟨ih.1.step hstep, counted_step ih.2 hstep⟩

theorem Journaled.revertEntry (h : Journaled s (e :: es)) (hs' : s.revertEntry e = some s') :
    Journaled { s' with journal := s'.journal.undirty e } es := by
  obtain ⟨hj, -⟩ := revertEntry_frame hs'
  obtain ⟨hcount, hmarks⟩ := (hj ▸ h.2 : s'.journal.Counted (e :: es)).undirty
  exact ⟨(h.1.revertEntry hs').of_eq rfl rfl rfl fun b hb => .inl (hmarks b hb), hcount⟩

theorem Journaled.cut (h : Journaled s es) (entries : List JournalEntry)
    (validRevisions : List Revision) :
    Journaled { s with journal := { s.journal with entries }, validRevisions } es :=
  ⟨h.1.of_eq rfl rfl rfl fun _ => .inl, h.2⟩

theorem Journaled.revertToSnapshot (h : Journaled s s.journal.entries) {revid : ℕ}
    (hs' : s.revertToSnapshot revid = some s') : Journaled s' s'.journal.entries :=
  revertToSnapshot_rule (P := Journaled) revertEntry (fun entries revs h => h.cut entries revs) h hs'

end GoEthereum.State
