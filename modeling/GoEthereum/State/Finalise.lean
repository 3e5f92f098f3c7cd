/-
  The root of the state.

  `IntermediateRoot` writes the accounts that the journal has marked as dirty into the
  trie.  `CreateAccount` for an account that exists replaces it without marking it as
  dirty.  As long as such an account is marked by another change before the next
  `Finalise`, the accounts that are not marked are in the trie as they are seen
  (`Calm.fromClean`), and the root stands for the accounts that the getters report
  (`intermediateRoot_reflects`).
-/
import GoEthereum.State.Block

namespace GoEthereum.State

open GoEthereum.Rlp AssocMap UndoLog StateDB LocalFold

variable {s s' : StateDB} {addr : Address} {obj : StateObject} {es : List JournalEntry}
  {H : Hashing} {d : Bool} {t : Option Account} {x : Option StateObject × Option Account}

/-! ## Finalise -/

/-- The states in a block. -/
inductive InBlock (H : Hashing) : StateDB → Prop
  | new {root : Word} {db : Database} {s : StateDB} : StateDB.new root db = some s → InBlock H s
  | call {s s' : StateDB} (op : Op) : InBlock H s → op.apply H s = some s' → InBlock H s'
  | finalise {s s' : StateDB} (d : Bool) : InBlock H s → s.finalise H d = some s' → InBlock H s'

/-- What `Finalise` changes of an account. -/
def slotOf (s : StateDB) (a : Address) : Option StateObject × Option Account :=
  (s.stateObjects.get a, s.trie a)

/-- The object is taken out of the trie. -/
def StateObject.gone (d : Bool) (o : StateObject) : Bool := o.suicided || (d && o.empty)

/-- A round of `Finalise` for its account. -/
def finaliseSlot (H : Hashing) (db : Database) (d : Bool) :
    Option StateObject × Option Account → Option (Option StateObject × Option Account)
  | (none, t) => some (none, t)
  | (some o, _) =>
    if o.gone d then some (some { o with deleted := true }, none)
    else if o.data.balance < 0 then none
    else some (some (o.updateRoot db H), some (o.updateRoot db H).data)

theorem updateRoot_balance (o : StateObject) (db : Database) (H : Hashing) :
    (o.updateRoot db H).data.balance = o.data.balance := by
  change (o.updateTrie db).data.balance = _
  rw [(StateObject.updateTrie_frame o db).1]

theorem slotOf_write (s : StateDB) (a k : Address) (o : StateObject) (x : Option Account)
    (hs' : s'.stateObjects = s.stateObjects.set a o) (ht : s'.trie = Function.update s.trie a x) :
    slotOf s' k = if k = a then (some o, x) else slotOf s k := by
  rw [slotOf, hs', ht, get_set, Function.update_apply]
  split_ifs <;> rfl

theorem finaliseAccount_local (H : Hashing) (d : Bool) (db : Database) :
    Local (fun s => s.db = db) slotOf (finaliseAccount H d) (fun _ => finaliseSlot H db d) := by
  rintro s a rfl
  rw [finaliseAccount, slotOf]
  rcases hl : s.stateObjects.get a with _ | o
  · refine .inr ⟨s, _, rfl, rfl, rfl, fun k => ?_⟩
    split_ifs with hk
    · rw [hk, slotOf, hl]
    · rfl
  · simp only [finaliseSlot]
    by_cases hgone : o.gone d = true
    · have hcond : (o.suicided || (d && o.empty)) = true := hgone
      rw [if_pos hcond, if_pos hgone]
      exact .inr ⟨_, _, rfl, rfl, rfl, fun k => slotOf_write s a k _ _ rfl rfl⟩
    · have hcond : ¬(o.suicided || (d && o.empty)) = true := hgone
      rw [if_neg hcond, if_neg hgone, updateStateObject, updateRoot_balance]
      by_cases hneg : o.data.balance < 0
      · rw [if_pos hneg, if_pos hneg]
        exact .inl ⟨rfl, rfl⟩
      · rw [if_neg hneg, if_neg hneg]
        exact .inr ⟨_, _, rfl, rfl, rfl, fun k => slotOf_write s a k _ _ rfl rfl⟩

/-- What `Finalise` does to the accounts. -/
theorem finalise_spec (h : s.finalise H d = some s') :
    s'.db = s.db ∧ s'.journal = {} ∧
      (∀ a ∈ s.journal.dirties.keys, finaliseSlot H s.db d (slotOf s a) = some (slotOf s' a)) ∧
      ∀ a ∉ s.journal.dirties.keys, slotOf s' a = slotOf s a := by
  rw [finalise] at h
  obtain ⟨s₁, h₁, rfl⟩ := Option.map_eq_some_iff.1 h
  rcases foldlM_local (finaliseAccount_local H d s.db) (nodup_keys s.journal.dirties) (s := s) rfl
    with ⟨hnone, -⟩ | ⟨s₂, hsome, hdb, hin, hout⟩
  · rw [hnone] at h₁
    cases h₁
  · rw [hsome] at h₁
    cases h₁
    exact ⟨hdb, rfl, hin, hout⟩

theorem slotOf_eq {x : Option StateObject} (h : slotOf s addr = (x, t)) :
    s.stateObjects.get addr = x ∧ s.trie addr = t := Prod.ext_iff.1 h

theorem account_congr (hslot : slotOf s' addr = slotOf s addr) (hdb : s'.db = s.db) :
    s'.account addr = s.account addr := by
  obtain ⟨hlive, htrie⟩ := slotOf_eq hslot
  rw [account, account, objectAt, objectAt, hlive, htrie, hdb]

/-- The account that is written for what is seen of it, if it is not taken out. -/
def AccountView.stored (H : Hashing) (d : Bool) (v : AccountView) : Option Account :=
  if v.suicided || (d && v.empty) then none
  else some ⟨v.nonce, v.balance, H.storageRoot v.storage, v.codeHash⟩

theorem finaliseSlot_some {db : Database} (hok : obj.Ok db) (hdel : obj.deleted = false)
    (h : finaliseSlot H db d (some obj, t) = some x) : ∃ o, x = (some o, (obj.view db).stored H d) ∧
      o.Ok db ∧ (o.deleted = true → x.2 = none) := by
  rw [finaliseSlot] at h
  by_cases hgone : obj.gone d = true
  · have hstored : (obj.view db).stored H d = none := if_pos hgone
    rw [if_pos hgone] at h
    cases h
    exact ⟨{ obj with deleted := true }, by rw [hstored], ⟨hok.origin, hok.dirty⟩, fun _ => rfl⟩
  · obtain ⟨hok', -, hdata, -, hdel'⟩ := StateObject.updateRoot_spec H hok
    have hstored : (obj.view db).stored H d = some (obj.updateRoot db H).data := by
      rw [hdata]
      exact if_neg hgone
    rw [if_neg hgone] at h
    split_ifs at h
    cases h
    refine ⟨_, by rw [hstored], hok', fun hd => ?_⟩
    rw [hdel', hdel] at hd
    cases hd

theorem mem_dirties : addr ∈ s.journal.dirties.keys ↔ s.journal.dirties.has addr = true := by
  rw [mem_keys, has_eq_true]

theorem BlockInv.finaliseSlot (h : BlockInv s es) (haddr : s.journal.dirties.has addr = true)
    (hx : finaliseSlot H s.db d (slotOf s addr) = some x) :
    x.2 = (s.account addr).bind (AccountView.stored H d) ∧
      ∀ o, x.1 = some o → o.Ok s.db ∧ (o.deleted = true → x.2 = none) := by
  rw [slotOf] at hx
  rcases h.dirty addr haddr with ⟨obj, hobj, hdel⟩ | ⟨hnone, htrie⟩
  · rw [hobj] at hx
    obtain ⟨o, rfl, hok, hgone⟩ := finaliseSlot_some (h.ok addr obj hobj) hdel hx
    rw [account_of_objectAt (objectAt_of_get hobj) hdel]
    refine ⟨rfl, fun o' ho' => ?_⟩
    cases ho'
    exact ⟨hok, hgone⟩
  · rw [hnone, htrie] at hx
    cases hx
    rw [account, objectAt, hnone, htrie]
    exact ⟨rfl, fun o ho => by cases ho⟩

theorem journaled_of_empty (hj : s.journal = {})
    (hidden : ∀ a obj, s.stateObjects.get a = some obj → obj.deleted = true → s.trie a = none)
    (ok : ∀ a obj, s.stateObjects.get a = some obj → obj.Ok s.db) :
    Journaled s s.journal.entries := by
  rw [hj]
  refine ⟨⟨hidden, ok, fun a ha => ?_, nofun, fun _ => trivial⟩, fun a => ?_⟩
  · rw [hj] at ha
    cases ha
  · rw [hj]
    exact le_refl _

theorem Journaled.finalise (h : Journaled s es)
    (hs' : s.finalise H d = some s') : Journaled s' s'.journal.entries := by
  obtain ⟨hdb, hj, hin, hout⟩ := finalise_spec hs'
  have hobj : ∀ a o, s'.stateObjects.get a = some o →
      o.Ok s.db ∧ (o.deleted = true → s'.trie a = none) := by
    intro a o ho
    by_cases ha : a ∈ s.journal.dirties.keys
    · exact (h.1.finaliseSlot (mem_dirties.1 ha) (hin a ha)).2 o ho
    · obtain ⟨hl, ht⟩ := slotOf_eq (hout a ha)
      rw [ht]
      exact ⟨h.1.ok a o (hl ▸ ho), h.1.hidden a o (hl ▸ ho)⟩
  exact journaled_of_empty hj (fun a o ho => (hobj a o ho).2) fun a o ho => hdb ▸ (hobj a o ho).1

theorem InBlock.journaled (h : InBlock H s) : Journaled s s.journal.entries := by
  induction h with
  | new h =>
    obtain ⟨trie, -, rfl⟩ := Option.map_eq_some_iff.1 h
    exact journaled_of_empty rfl nofun nofun
  | @call s s' op _ h ih =>
    rcases Op.cases h with rfl | ⟨id, -, hrev⟩ | hsteps
    · exact ⟨ih.1.of_eq rfl rfl rfl fun _ => .inl, ih.2⟩
    · exact ih.revertToSnapshot hrev
    · exact ih.steps hsteps
  | finalise d _ h ih => exact ih.finalise h

/-! ## The root -/

/-- The accounts that are written from the results of the getters. -/
def Observed.accounts (o : Observed) (H : Hashing) (d : Bool) : Accounts := fun a =>
  if o.exist a && !(o.hasSuicided a || (d && o.empty a)) then
    some ⟨o.nonce a, o.balance a, H.storageRoot (o.state a), o.codeHash a⟩
  else none

theorem accounts_observe (s : StateDB) (H : Hashing) (d : Bool) (a : Address) :
    s.observe.accounts H d a = (s.account a).bind (AccountView.stored H d) := by
  have hview : s.view.accounts a = s.account a := rfl
  rw [observe_eq]
  simp only [Observed.accounts, hview]
  rcases s.account a with _ | v
  · rfl
  · simp only [Option.isSome_some, Option.elim_some, Option.bind_some, AccountView.stored,
      Bool.true_and, Bool.not_eq_true', ← Bool.not_eq_true, ite_not]

/-! ### What is not marked -/

/-- The accounts that were replaced since the journal was cleared are marked as dirty. -/
def ResetsMarked (s : StateDB) : Prop :=
  ∀ a prev, .resetObject a prev ∈ s.journal.entries → s.journal.dirties.has a = true

/-- The roots in the trie are those of the storage tries in the database. -/
def Rooted (H : Hashing) (s : StateDB) : Prop :=
  ∀ a data, s.trie a = some data → H.storageRoot (s.db.openStorage data.root) = data.root

/-- The states in a block in which `Finalise` is called only when replaced accounts are marked.
    Where empty accounts are deleted, `d`, there are none at the beginning and every call of
    `Finalise` deletes them. -/
inductive Calm (H : Hashing) (d : Bool) : StateDB → Prop
  | new {root : Word} {db : Database} {s : StateDB} : StateDB.new root db = some s → Rooted H s →
      (d = true → ∀ a data, s.trie a = some data → (newObject data).empty = false) → Calm H d s
  | call {s s' : StateDB} (op : Op) : Calm H d s → op.apply H s = some s' → Calm H d s'
  | finalise {s s' : StateDB} (d' : Bool) : Calm H d s → ResetsMarked s → (d = true → d' = true) →
      s.finalise H d' = some s' → Calm H d s'

theorem Calm.inBlock (h : Calm H d s) : InBlock H s := by
  induction h with
  | new h _ _ => exact .new h
  | call op _ h ih => exact .call op ih h
  | finalise d' _ _ _ h ih => exact .finalise d' ih h

/-- The accounts are in the trie as they are seen. -/
def Clean (H : Hashing) (d : Bool) (v : View) : Prop :=
  ∀ a, v.trie a = (v.accounts a).bind (AccountView.stored H d)

/-- When the journal was cleared, the accounts were in the trie as they were seen. -/
def FromClean (H : Hashing) (d : Bool) (s : StateDB) : Prop :=
  ∃ v₀, Clean H d v₀ ∧ Extends undoSeen Reveals (v₀, []) s.logged

section FromClean

variable {H : Hashing} {d : Bool}

theorem FromClean.steps (h : FromClean H d s) (hsteps : Steps s s') : FromClean H d s' := by
  induction hsteps with
  | refl => exact h
  | tail _ hstep ih =>
    obtain ⟨v₀, hclean, hext⟩ := ih
    exact ⟨v₀, hclean, hext.trans Reveals.mono hstep.extends⟩

theorem FromClean.revert (h : FromClean H d s) {revid : ℕ}
    (hs' : s.revertToSnapshot revid = some s') : FromClean H d s' := by
  obtain ⟨v₀, hclean, hext⟩ := h
  obtain ⟨pre, r, post, -, hrevs, hpre, hr, -⟩ := revertToSnapshot_inv hs'
  obtain ⟨v, hv, hcut⟩ := hext.cut (Nat.zero_le r.journalIndex)
  obtain ⟨s₁, hs₁, hview, hentries, -⟩ :=
    revertToSnapshot_spec hrevs hpre hr (undoAll_of_undoSeen hv)
  rw [hs'] at hs₁
  cases hs₁
  refine ⟨v₀, hclean, ?_⟩
  rw [logged, hview, hentries]
  exact hcut

/-- If the accounts are in the trie as they are seen, then none is hidden. -/
theorem Clean.hidden {v : View} (h : Clean H d v) : Hidden v := by
  intro a ha
  rw [h a, ha]
  rfl

/-- Undoing an entry leaves the accounts that it does not change. -/
theorem undoView_other {e : JournalEntry} {v v' : View} (h : undoView e v = some v') {a : Address}
    (hdirty : e.dirtied ≠ some a) (hreset : ∀ prev, e ≠ .resetObject a prev) :
    v'.trie = v.trie ∧ v'.accounts a = v.accounts a := by
  have hset : ∀ b x, b ≠ a → v' = v.set b x → v'.trie = v.trie ∧ v'.accounts a = v.accounts a := by
    rintro b x hb rfl
    exact ⟨rfl, by rw [View.accounts_set, if_neg hb.symm]⟩
  have hmodify : ∀ {b f}, some b ≠ some a → v.modify b f = some v' →
      v'.trie = v.trie ∧ v'.accounts a = v.accounts a := by
    intro b f hb h
    obtain ⟨x, -, rfl⟩ := Option.map_eq_some_iff.1 h
    exact hset b _ (fun h => hb (by rw [h])) rfl
  cases e with
  | createObject b | suicide b =>
    exact hset b _ (fun h => hdirty (by rw [h]; rfl)) (Option.some.inj h).symm
  | resetObject b prev =>
    exact hset b _ (fun h => hreset prev (by rw [h])) (Option.some.inj h).symm
  | balance | nonce | storage | code => exact hmodify hdirty h
  | addLog x =>
    rw [undoView] at h
    split_ifs at h
    cases h
    exact ⟨rfl, rfl⟩
  | refund | addPreimage | touch =>
    cases h
    exact ⟨rfl, rfl⟩

theorem undoAll_other {v v' : View} {a : Address} (h : undoAll undoView es v = some v')
    (hdirty : ∀ e ∈ es, e.dirtied ≠ some a) (hreset : ∀ prev, .resetObject a prev ∉ es) :
    v'.trie = v.trie ∧ v'.accounts a = v.accounts a := by
  induction es generalizing v with
  | nil =>
    cases h
    exact ⟨rfl, rfl⟩
  | cons e es ih =>
    rw [undoAll] at h
    obtain ⟨v₁, h₁, h₂⟩ := Option.bind_eq_some_iff.1 h
    obtain ⟨ht, hacc⟩ := undoView_other h₁ (hdirty e (.head _)) fun prev he =>
      hreset prev (he ▸ .head _)
    obtain ⟨ht', hacc'⟩ := ih h₂ (fun x hx => hdirty x (.tail _ hx)) fun prev hx =>
      hreset prev (.tail _ hx)
    exact ⟨ht'.trans ht, hacc'.trans hacc⟩

/-- The accounts that are not marked are in the trie as they are seen. -/
theorem FromClean.account (h : FromClean H d s) (hcount : s.journal.Counted s.journal.entries)
    (hreset : ResetsMarked s) {a : Address} (ha : s.journal.dirties.has a = false) :
    s.trie a = (s.account a).bind (AccountView.stored H d) := by
  obtain ⟨v₀, hclean, es, v, hes, hundo, hreveals⟩ := h
  obtain rfl : v = v₀ := hreveals.eq_of_hidden hclean.hidden
  have hes : s.journal.entries = es := hes.trans (List.append_nil es)
  subst hes
  have hnot : ∀ prev, .resetObject a prev ∉ s.journal.entries := fun prev hmem => by
    rw [hreset a prev hmem] at ha
    cases ha
  obtain ⟨ht, hacc⟩ := undoAll_other (undoAll_of_undoSeen hundo) (hcount.not_dirtied ha) hnot
  have heq := hclean a
  rw [ht, hacc] at heq
  exact heq

/-- What is seen of an object after `Finalise` is what was written for it. -/
theorem finaliseSlot_clean {db : Database} {d' : Bool} {t : Option Account}
    {x : Option StateObject × Option Account} (hd : d = true → d' = true) (hok : obj.Ok db)
    (hdel : obj.deleted = false) (h : finaliseSlot H db d' (some obj, t) = some x) :
    ∃ o, x = (some o, (seen db o).bind (AccountView.stored H d)) := by
  rw [finaliseSlot] at h
  by_cases hgone : obj.gone d' = true
  · rw [if_pos hgone] at h
    cases h
    exact ⟨{ obj with deleted := true }, rfl⟩
  · obtain ⟨-, hslots, hdata, hsui, hdel'⟩ := StateObject.updateRoot_spec H hok
    have hstays : ((obj.updateRoot db H).view db).stored H d
        = some (obj.updateRoot db H).data := by
      have hgone' : ¬ (obj.suicided || (d && obj.empty)) = true := by
        rw [StateObject.gone] at hgone
        cases d <;> simp_all
      rw [AccountView.stored, if_neg]
      · simp only [StateObject.view, hslots, hdata]
      · simp only [StateObject.view, hsui, hdata]
        exact hgone'
    rw [if_neg hgone] at h
    split_ifs at h
    cases h
    exact ⟨obj.updateRoot db H, by
      rw [seen_of_not_deleted (hdel'.trans hdel), Option.bind_some, hstays]⟩

theorem FromClean.finalise {d' : Bool} (h : FromClean H d s) (hj : Journaled s s.journal.entries)
    (hreset : ResetsMarked s) (hd : d = true → d' = true) (hs' : s.finalise H d' = some s') :
    FromClean H d s' := by
  obtain ⟨hdb, hempty, hin, hout⟩ := finalise_spec hs'
  refine ⟨s'.view, fun a => ?_, ⟨[], s'.view, by rw [logged, hempty]; rfl, rfl, .refl _⟩⟩
  change s'.trie a = (s'.account a).bind _
  by_cases ha : a ∈ s.journal.dirties.keys
  · have hslot := hin a ha
    rw [slotOf] at hslot
    rw [StateDB.account, objectAt, hdb]
    rcases hj.1.dirty a (mem_dirties.1 ha) with ⟨obj, hobj, hdel⟩ | ⟨hnone, htrie⟩
    · rw [hobj] at hslot
      obtain ⟨o, ho⟩ := finaliseSlot_clean hd (hj.1.ok a obj hobj) hdel hslot
      obtain ⟨hl, ht⟩ := slotOf_eq ho
      rw [hl, ht]
      rfl
    · rw [hnone, htrie] at hslot
      obtain ⟨hl, ht⟩ := slotOf_eq (Option.some.inj hslot).symm
      rw [hl, ht]
      rfl
  · rw [(slotOf_eq (hout a ha)).2, account_congr (hout a ha) hdb]
    exact h.account hj.2 hreset (Bool.eq_false_iff.2 fun hmark => ha (mem_dirties.2 hmark))

theorem Calm.fromClean (h : Calm H d s) : FromClean H d s := by
  induction h with
  | new h hroot hempty =>
    obtain ⟨trie, -, rfl⟩ := Option.map_eq_some_iff.1 h
    refine ⟨_, fun a => ?_, .refl _⟩
    change trie a = (((trie a).map newObject).bind _).bind _
    rcases hdata : trie a with _ | data
    · rfl
    · have heq := hroot a data hdata
      have hstays : ¬ (d && (newObject data).empty) = true := by
        cases d
        · simp
        · simp [hempty rfl a data hdata]
      change some data = if (d && (newObject data).empty) = true then none
        else some { data with root := H.storageRoot _ }
      rw [if_neg hstays]
      exact congrArg (fun root => some { data with root }) heq.symm
  | @call s s' op _ h ih =>
    rcases Op.cases h with rfl | ⟨id, -, hrev⟩ | hsteps
    · exact ih
    · exact ih.revert hrev
    · exact ih.steps hsteps
  | finalise d' hs hreset hd h ih => exact ih.finalise hs.inBlock.journaled hreset hd h

end FromClean

/-- **The root.**  `IntermediateRoot` returns the root of the accounts that the getters report,
    if the accounts that were replaced are marked as dirty whenever it or `Finalise` is called. -/
theorem intermediateRoot_reflects (H : Hashing) {s s' : StateDB} {d : Bool} {root : Word}
    (hs : Calm H d s) (hreset : ResetsMarked s) (h : s.intermediateRoot H d = some (root, s')) :
    s'.trie = s.observe.accounts H d ∧ root = H.stateRoot (s.observe.accounts H d) := by
  obtain ⟨s₁, hs₁, heq⟩ := Option.map_eq_some_iff.1 h
  cases heq
  obtain ⟨-, -, hin, hout⟩ := finalise_spec hs₁
  have hjournaled := hs.inBlock.journaled
  have htrie : s'.trie = s.observe.accounts H d := by
    funext a
    rw [accounts_observe]
    by_cases ha : a ∈ s.journal.dirties.keys
    · exact (hjournaled.1.finaliseSlot (mem_dirties.1 ha) (hin a ha)).1
    · rw [← hs.fromClean.account hjournaled.2 hreset
        (Bool.eq_false_iff.2 fun h => ha (mem_dirties.2 h))]
      exact congrArg Prod.snd (hout a ha)
  exact ⟨htrie, congrArg H.stateRoot htrie⟩

/-- The account is written, replaced, and then marked by a new nonce. -/
theorem intermediateRoot_reflects_replaced : ∃ s₁ root s',
    (emptyState.setNonce 1 1).finalise emptyHashing true = some s₁ ∧
      ((s₁.createAccount 1).setNonce 1 2).intermediateRoot emptyHashing true = some (root, s') ∧
      s'.trie = ((s₁.createAccount 1).setNonce 1 2).observe.accounts emptyHashing true ∧
      (s'.trie 1).map Account.nonce = some 2 := by
  have h₀ : Calm emptyHashing true emptyState :=
    .new (show StateDB.new 0 emptyDb = some emptyState from rfl) nofun fun _ => nofun
  have h₁ : Calm emptyHashing true _ := .call (.setNonce 1 1) h₀ rfl
  have hmarked : ResetsMarked (emptyState.setNonce 1 1) := by
    intro a prev hmem
    have hmem : JournalEntry.resetObject a prev ∈ [.nonce 1 0, .createObject 1] := hmem
    rcases hmem with _ | ⟨_, _ | ⟨_, hmem⟩⟩
    cases hmem
  have h₂ : Calm emptyHashing true _ := .finalise true h₁ hmarked (fun _ => rfl) rfl
  have h₃ : Calm emptyHashing true _ := .call (.createAccount 1) h₂ rfl
  have h₄ : Calm emptyHashing true _ := .call (.setNonce 1 2) h₃ rfl
  refine ⟨_, _, _, rfl, rfl, (intermediateRoot_reflects emptyHashing h₄ ?_ rfl).1, rfl⟩
  intro a prev hmem
  have hmem : JournalEntry.resetObject a prev ∈ [.nonce 1 0, .resetObject 1 _] := hmem
  rcases hmem with _ | ⟨_, _ | ⟨_, hmem⟩⟩
  · rfl
  · cases hmem

/-- The account is written, and then replaced without being marked as dirty. -/
theorem intermediateRoot_stale : ∃ s root s', InBlock emptyHashing s ∧
    s.intermediateRoot emptyHashing false = some (root, s') ∧
    root = emptyHashing.stateRoot s'.trie ∧ (s'.trie 1).map Account.nonce = some 1 ∧
    (s.getNonce 1).1 = 0 ∧ s'.trie ≠ s.observe.accounts emptyHashing false := by
  have h₀ : InBlock emptyHashing emptyState :=
    .new (show StateDB.new 0 emptyDb = some emptyState from rfl)
  have h₁ : InBlock emptyHashing _ := .call (.setNonce 1 1) h₀ rfl
  have h₂ : InBlock emptyHashing _ := .finalise false h₁ rfl
  have h₃ : InBlock emptyHashing _ := .call (.createAccount 1) h₂ rfl
  refine ⟨_, _, _, h₃, rfl, rfl, rfl, rfl, fun h => ?_⟩
  have hnonce := congrArg (fun t : Accounts => (t 1).map Account.nonce) h
  cases hnonce

end GoEthereum.State
