/-
  The values of storage slots before a transaction.

  Undoing the entries of the journal leads a slot back to the value it had when the journal
  was cleared (`Traces`).  Only the creation of an object changes the committed value on the
  way, so `GetCommittedState` returns that value as long as the object is not replaced
  (`committedState_original`), whatever is loaded, written or reverted in between.
-/
import GoEthereum.State.Finalise

namespace GoEthereum.State

open GoEthereum.Rlp AssocMap UndoLog StateDB

/-! ## Slots and the entries of the journal -/

namespace View

/-- The account, or a new one if there is none. -/
def orNew (v : View) (a : Address) : AccountView := (v.accounts a).getD (storedView v.db {})

variable {v : View} {a : Address}

theorem orNew_of_some {x : AccountView} (h : v.accounts a = some x) : v.orNew a = x := by
  rw [orNew, h]
  rfl

theorem orNew_of_none (h : v.accounts a = none) : v.orNew a = storedView v.db {} := by
  rw [orNew, h]
  rfl

end View

theorem loader_orNew {s : StateDB} {a : Address} {read : StateObject → Word × StateObject}
    {g : AccountView → Word} (hg : ∀ obj, (read obj).1 = g (obj.view s.db))
    (hnew : g (storedView s.db {}) = 0) : (s.loader a 0 read).1 = g (s.view.orNew a) := by
  have hread := loader_fst s a 0 id hg
  refine hread.trans ?_
  rw [View.orNew]
  change (s.view.accounts a).elim _ _ = _
  cases s.view.accounts a with
  | none => exact hnew.symm
  | some x => rfl

/-- The value of a slot and its committed value. -/
def View.slot (v : View) (a : Address) (key : Word) : Word × Word :=
  ((v.orNew a).storage key, (v.orNew a).committed key)

namespace JournalEntry

/-- The entry is about a new object for the account. -/
def makes (a : Address) : JournalEntry → Bool
  | .createObject b | .resetObject b _ => b = a
  | _ => false

/-- The entry is about an object that takes the place of another one. -/
def replaces (a : Address) : JournalEntry → Bool
  | .resetObject b _ => b = a
  | _ => false

/-- The slot before the change that is entered. -/
def before (db : Database) (a : Address) (key : Word) (p : Word × Word) : JournalEntry → Word × Word
  | .storage b k prevalue => if b = a ∧ k = key then (prevalue, p.2) else p
  | .createObject b => if b = a then (0, 0) else p
  | .resetObject b prev => if b = a then (prev.slots db key, prev.committed db key) else p
  | _ => p

end JournalEntry

/-- The entries lead back to a slot with the value `w`; a new object has empty slots. -/
def Traces (db : Database) (a : Address) (key w : Word) : Word × Word → List JournalEntry → Prop
  | p, [] => p = (w, w)
  | p, e :: es => (e.makes a = true → p = (0, 0)) ∧ Traces db a key w (e.before db a key p) es

variable {s s' : StateDB} {a : Address} {key : Word} {w : Address → Word → Word}
  {es : List JournalEntry} {H : Hashing} {e : JournalEntry}

theorem Traces.committed {db : Database} {x : Word} {p : Word × Word} (h : Traces db a key x p es) :
    p.2 = if es.any (JournalEntry.replaces a) then 0 else x := by
  induction es generalizing p with
  | nil => rw [(h : p = (x, x))]; rfl
  | cons e es ih =>
    obtain ⟨hnew, hrest⟩ := h
    have hrest := ih hrest
    cases e with
    | resetObject b prev =>
      by_cases hb : b = a
      · simp [hnew (by simpa [JournalEntry.makes] using hb), JournalEntry.replaces, hb]
      · simpa [JournalEntry.before, JournalEntry.replaces, hb] using hrest
    | createObject b =>
      by_cases hb : b = a
      · rw [JournalEntry.before, if_pos hb] at hrest
        rw [hnew (by simpa [JournalEntry.makes] using hb)]
        simpa [JournalEntry.replaces] using hrest
      · simpa [JournalEntry.before, JournalEntry.replaces, hb] using hrest
    | storage b k prevalue =>
      have hsame : (JournalEntry.before db a key p (.storage b k prevalue)).2 = p.2 := by
        rw [JournalEntry.before]
        split_ifs <;> rfl
      rw [hsame] at hrest
      simpa [JournalEntry.replaces] using hrest
    | _ => simpa [JournalEntry.before, JournalEntry.replaces] using hrest

theorem Traces.clean {db : Database} {x : Word} {p : Word × Word} (h : Traces db a key x p es)
    (hes : ∀ e ∈ es, e.dirtied ≠ some a) : p.1 = p.2 := by
  induction es generalizing p with
  | nil => rw [(h : p = (x, x))]
  | cons e es ih =>
    obtain ⟨hnew, hrest⟩ := h
    have he := hes e List.mem_cons_self
    have hrest := ih hrest fun e he => hes e (List.mem_cons_of_mem _ he)
    cases e with
    | resetObject b prev =>
      by_cases hb : b = a
      · rw [hnew (by simpa [JournalEntry.makes] using hb)]
      · simpa [JournalEntry.before, hb] using hrest
    | createObject b | storage b k prevalue =>
      have hb : b ≠ a := fun hb => he (congrArg some hb)
      simpa [JournalEntry.before, hb] using hrest
    | _ => exact hrest

/-! ## Undoing entries -/

namespace View

variable {v v' : View} {b : Address} {x : Option AccountView}

theorem slot_set : (v.set b x).slot a key =
    if a = b then
        (((x.getD (storedView v.db {})).storage key), (x.getD (storedView v.db {})).committed key)
    else v.slot a key := by
  rw [slot, orNew, accounts_set]
  split_ifs <;> rfl

theorem slot_none (h : v.accounts a = none) : v.slot a key = (0, 0) := by
  rw [slot, orNew_of_none h]
  rfl

theorem slot_modify {f : AccountView → AccountView} (h : v.modify b f = some v') :
    v'.slot a key = if a = b then ((f (v.orNew a)).storage key, (f (v.orNew a)).committed key)
      else v.slot a key := by
  obtain ⟨x, hx, rfl⟩ := Option.map_eq_some_iff.1 h
  rw [slot_set]
  split_ifs with hab
  · rw [hab, orNew_of_some hx]
    rfl
  · rfl

theorem slot_modify_same {f : AccountView → AccountView} (h : v.modify b f = some v')
    (hf : ∀ x, (f x).storage = x.storage ∧ (f x).committed = x.committed) :
    v'.slot a key = v.slot a key := by
  rw [slot_modify h]
  split_ifs
  · rw [(hf _).1, (hf _).2]
    rfl
  · rfl

end View

theorem undoView_db {v v' : View} (h : undoView e v = some v') :
    v'.db = v.db := by
  have hmodify : ∀ {b f}, v.modify b f = some v' → v'.db = v.db := by
    intro b f h
    obtain ⟨x, -, rfl⟩ := Option.map_eq_some_iff.1 h
    rfl
  cases e with
  | balance | nonce | storage | code => exact hmodify h
  | addLog hash =>
    rw [undoView] at h
    split_ifs at h
    cases h
    rfl
  | _ =>
    cases h
    rfl

theorem slot_undoView {v : View} (he : EntryOk s e) (h : undoView e s.view = some v) :
    v.slot a key = e.before s.db a key (s.view.slot a key) := by
  cases e with
  | createObject b =>
    have hnone : s.view.trie b = none := he
    rw [undoView, hnone] at h
    cases h
    rw [View.slot_set, JournalEntry.before]
    simp only [eq_comm (a := a)]
    rfl
  | resetObject b prev =>
    rw [undoView, he.1] at h
    cases h
    rw [View.slot_set, JournalEntry.before]
    simp only [eq_comm (a := a)]
    rfl
  | suicide b prev prevbalance =>
    cases h
    change _ = s.view.slot a key
    rw [View.slot_set]
    split_ifs with hab
    · rw [hab, View.slot, View.orNew]
      cases s.view.accounts b <;> rfl
    · rfl
  | storage b k prevalue =>
    rw [View.slot_modify h, JournalEntry.before]
    by_cases hab : b = a
    · rw [if_pos hab.symm]
      by_cases hk : k = key
      · rw [if_pos ⟨hab, hk⟩, hk]
        simp [View.slot]
      · rw [if_neg fun h => hk h.2]
        simp [View.slot, Function.update_of_ne (Ne.symm hk)]
    · rw [if_neg (Ne.symm hab), if_neg fun h => hab h.1]
  | balance b prev | nonce b prev | code b prevcode prevhash =>
    exact View.slot_modify_same h fun x => ⟨rfl, rfl⟩
  | addLog hash =>
    rw [undoView] at h
    split_ifs at h
    cases h
    rfl
  | refund | addPreimage | touch =>
    cases h
    rfl

/-! ## Transactions -/

/-- The slots had the values `w` when the journal was cleared. -/
def Original (w : Address → Word → Word) (s : StateDB) (es : List JournalEntry) : Prop :=
  ∀ a key, Traces s.db a key (w a key) (s.view.slot a key) es

theorem Step.makes_empty (h : Step s s') (he : s'.journal.entries = e :: s.journal.entries)
    (hmakes : e.makes a = true) :
    s'.view.slot a key = (0, 0) := by
  cases h with
  | @create addr hacc | @reset addr obj hobj hdel =>
    obtain rfl := (List.cons.inj ((entries_append s _).symm.trans he)).1
    obtain rfl : addr = a := by simpa [JournalEntry.makes] using hmakes
    rw [view_append_setStateObject s _ rfl, View.slot_set, if_pos rfl]
    rfl
  | @change addr obj obj' e' hobj hdel hch =>
    obtain rfl := (List.cons.inj ((entries_append s _).symm.trans he)).1
    cases hch <;> cases hmakes
  | load => exact absurd he.symm (List.cons_ne_self _ _)
  | @touch addr =>
    have hentries : (s.touch addr).journal.entries = .touch addr :: s.journal.entries := by
      rw [StateDB.touch]
      split_ifs <;> exact entries_append s _
    obtain rfl := (List.cons.inj (hentries.symm.trans he)).1
    cases hmakes
  | refund | addLog | addPreimage =>
    obtain rfl := (List.cons.inj ((entries_append s _).symm.trans he)).1
    cases hmakes

theorem Original.step (h : Original w s s.journal.entries) (hs : BlockInv s s.journal.entries)
    (hstep : Step s s') : Original w s' s'.journal.entries := by
  intro a key
  rcases hstep.undo with ⟨hview, hj⟩ | ⟨e, v, hentries, hundo, hv⟩
  · have hdb : s'.db = s.db := congrArg View.db hview
    rw [hview, hj, hdb]
    exact h a key
  · obtain rfl : v = s.view := hv.eq_of_hidden ((hidden_iff s).2 hs.hidden)
    have hok : EntryOk s' e := (hs.step hstep).entries e (hentries ▸ List.mem_cons_self)
    have hslot : s.view.slot a key = e.before s'.db a key (s'.view.slot a key) :=
      slot_undoView hok (undoView_of_undoSeen hundo)
    have hdb : s'.db = s.db := (undoView_db (undoView_of_undoSeen hundo)).symm
    rw [hentries]
    refine ⟨hstep.makes_empty hentries, ?_⟩
    rw [← hslot, hdb]
    exact h a key

theorem Original.revertEntry (h : Original w s (e :: es)) (he : EntryOk s e)
    (hs' : s.revertEntry e = some s') : Original w s' es := by
  intro a key
  have hview := revertEntry_view s e
  rw [hs', Option.map_some] at hview
  rw [slot_undoView he hview.symm]
  have hdb : s'.db = s.db := undoView_db hview.symm
  rw [hdb]
  exact (h a key).2

/-- What is known of a state in a block. -/
structure InOrder (w : Address → Word → Word) (s : StateDB) (es : List JournalEntry) : Prop where
  journaled : Journaled s es
  original : Original w s es

theorem InOrder.steps (h : InOrder w s s.journal.entries) (hsteps : Steps s s') :
    InOrder w s' s'.journal.entries := by
  induction hsteps with
  | refl => exact h
  | tail _ hstep ih =>
    exact ⟨ih.journaled.steps (.single hstep), ih.original.step ih.journaled.1 hstep⟩

theorem InOrder.op {op : Op} (h : InOrder w s s.journal.entries)
    (hs' : op.apply H s = some s') : InOrder w s' s'.journal.entries := by
  rcases Op.cases hs' with rfl | ⟨id, -, hrev⟩ | hsteps
  · exact ⟨⟨h.journaled.1.of_eq rfl rfl rfl fun _ => .inl, h.journaled.2⟩, h.original⟩
  · refine revertToSnapshot_rule (P := InOrder w) (fun h hs₁ => ?_) (fun _ _ h => ?_) h hrev
    · have horiginal := h.original.revertEntry (h.journaled.1.entries _ List.mem_cons_self) hs₁
      exact ⟨h.journaled.revertEntry hs₁, horiginal⟩
    · exact ⟨h.journaled.cut _ _, h.original⟩
  · exact h.steps hsteps

/-! ## Between transactions -/

/-- Every slot is as it is committed. -/
def Settled (s : StateDB) : Prop := ∀ a key, (s.view.slot a key).1 = (s.view.slot a key).2

theorem StateObject.slots_updateRoot (o : StateObject) (db : Database) (H : Hashing) :
    (o.updateRoot db H).slots db = (o.updateRoot db H).committed db := by
  funext key
  have hpart := congrArg Prod.fst (slotPart_updateTrie o db key)
  have hclean : ∀ x, (updatePart x).1 = none := by
    rintro ⟨_ | value, x, y⟩
    · rfl
    · rw [updatePart]
      split_ifs <;> rfl
  have hnone : (o.updateRoot db H).dirtyStorage.get key = none := hpart.trans (hclean _)
  rw [slots, hnone]
  rfl

theorem View.slot_of_account {o : StateObject} (h : s.account a = some (o.view s.db)) :
    s.view.slot a key = (o.slots s.db key, o.committed s.db key) := by
  rw [View.slot, View.orNew_of_some h]
  rfl

theorem settled_of_none (h : s.account a = none) : (s.view.slot a key).1 = (s.view.slot a key).2 := by
  rw [View.slot_none h]

theorem InOrder.finalise {d : Bool} (h : InOrder w s s.journal.entries)
    (hs' : s.finalise H d = some s') : Settled s' ∧ s'.journal = {} := by
  obtain ⟨hdb, hj, hin, hout⟩ := finalise_spec hs'
  refine ⟨fun a key => ?_, hj⟩
  by_cases ha : a ∈ s.journal.dirties.keys
  · have hround := hin a ha
    rcases h.journaled.1.dirty a (mem_dirties.1 ha) with ⟨obj, hobj, hdel⟩ | ⟨hlive, htrie⟩
    · rw [slotOf, hobj, finaliseSlot] at hround
      split_ifs at hround
      · refine settled_of_none ?_
        rw [account, objectAt, (slotOf_eq (Option.some.inj hround).symm).1]
        rfl
      · have hdel' : (obj.updateRoot s.db H).deleted = false :=
          (StateObject.updateRoot_spec H (h.journaled.1.ok a obj hobj)).2.2.2.2.trans hdel
        have hat := objectAt_of_get (slotOf_eq (Option.some.inj hround).symm).1
        rw [View.slot_of_account (account_of_objectAt hat hdel'), hdb, StateObject.slots_updateRoot]
    · rw [slotOf, hlive, htrie, finaliseSlot] at hround
      obtain ⟨hlive', htrie'⟩ := slotOf_eq (Option.some.inj hround).symm
      refine settled_of_none ?_
      rw [account, objectAt, hlive', htrie']
      rfl
  · -- an account that is not marked has been changed by no entry that is left
    have hsame : s'.account a = s.account a := account_congr (hout a ha) hdb
    have hor : s'.view.orNew a = s.view.orNew a := by
      change (s'.account a).getD (storedView s'.db {}) = (s.account a).getD (storedView s.db {})
      rw [hsame, hdb]
    rw [View.slot, hor]
    exact (h.original a key).clean (h.journaled.2.not_dirtied
      (Bool.eq_false_iff.2 fun hmark => ha (mem_dirties.2 hmark)))

/-- The states before a transaction: after `New` and after `Finalise`. -/
inductive Boundary (H : Hashing) : StateDB → Prop
  | new {root : Word} {db : Database} {s : StateDB} : StateDB.new root db = some s → Boundary H s
  | finalise {s s' : StateDB} (d : Bool) : InBlock H s → s.finalise H d = some s' → Boundary H s'

/-- The states of a transaction that starts in `s₀`. -/
inductive InTx (H : Hashing) (s₀ : StateDB) : StateDB → Prop
  | start : InTx H s₀ s₀
  | call {s s' : StateDB} (op : Op) : InTx H s₀ s → op.apply H s = some s' → InTx H s₀ s'

theorem Settled.inOrder (h : Settled s) (hj : s.journal = {})
    (hs : Journaled s s.journal.entries) :
    InOrder (fun a key => (s.view.slot a key).1) s s.journal.entries := by
  refine ⟨hs, fun a key => ?_⟩
  rw [hj]
  exact Prod.ext rfl (h a key).symm

theorem settled_new {root : Word} {db : Database} (h : StateDB.new root db = some s) :
    Settled s ∧ s.journal = {} := by
  obtain ⟨trie, -, rfl⟩ := Option.map_eq_some_iff.1 h
  refine ⟨fun a key => ?_, rfl⟩
  have haccount : ({ db, trie } : StateDB).account a = (trie a).map (storedView db) := by
    change ((trie a).map newObject).bind (seen db) = _
    cases trie a <;> rfl
  rcases htrie : trie a with _ | data <;> rw [htrie] at haccount
  · exact settled_of_none haccount
  · rw [View.slot, View.orNew_of_some haccount]
    rfl

theorem InBlock.inOrder (h : InBlock H s) : ∃ w, InOrder w s s.journal.entries := by
  induction h with
  | new h =>
    obtain ⟨hsettled, hj⟩ := settled_new h
    exact ⟨_, hsettled.inOrder hj (InBlock.new h : InBlock H _).journaled⟩
  | call op hs h ih =>
    obtain ⟨w, ih⟩ := ih
    exact ⟨w, ih.op h⟩
  | finalise d hs h ih =>
    obtain ⟨w, ih⟩ := ih
    obtain ⟨hsettled, hj⟩ := ih.finalise h
    exact ⟨_, hsettled.inOrder hj (hs.finalise d h).journaled⟩

theorem Boundary.settled (h : Boundary H s) : Settled s := by
  cases h with
  | new h => exact (settled_new h).1
  | finalise d hs h =>
    obtain ⟨w, hw⟩ := hs.inOrder
    exact (hw.finalise h).1

theorem Boundary.inOrder (h : Boundary H s) :
    InOrder (fun a key => (s.view.slot a key).1) s s.journal.entries := by
  refine h.settled.inOrder ?_ ?_
  · cases h with
    | new h => exact (settled_new h).2
    | finalise d hs h =>
      obtain ⟨w, hw⟩ := hs.inOrder
      exact (hw.finalise h).2
  · cases h with
    | new h => exact (InBlock.new h : InBlock H _).journaled
    | finalise d hs h => exact (hs.finalise d h).journaled

/-- **Original values.**  In a transaction, `GetCommittedState` returns what `GetState`
    returned before it, or zero if the object of the account was replaced and this was not
    reverted. -/
theorem committedState_original {H : Hashing} {s₀ : StateDB} (h₀ : Boundary H s₀) (h : InTx H s₀ s)
    (a : Address) (key : Word) : (s.getCommittedState a key).1 =
      if s.journal.entries.any (JournalEntry.replaces a) then 0 else (s₀.getState a key).1 := by
  have hs : InOrder (fun a key => (s₀.view.slot a key).1) s s.journal.entries := by
    induction h with
    | start => exact h₀.inOrder
    | call op _ h ih => exact ih.op h
  have hcommitted : (s.getCommittedState a key).1 = (s.view.slot a key).2 :=
    @loader_orNew s a (·.getCommittedState s.db key) (·.committed key) (fun obj => by
      obtain ⟨o', hget, -⟩ := obj.getCommittedState_spec s.db key
      rw [hget]
      rfl) rfl
  have hstate : (s₀.getState a key).1 = (s₀.view.slot a key).1 :=
    @loader_orNew s₀ a (·.getState s₀.db key) (·.storage key) (fun obj => by
      obtain ⟨o', hget, -⟩ := obj.getState_spec s₀.db key
      rw [hget]
      rfl) rfl
  rw [hcommitted, hstate]
  exact (hs.original a key).committed

/-- A slot that was written in the block, and is written and reverted in the transaction. -/
theorem committedState_original_reverted : ∃ s₀ s, Boundary emptyHashing s₀ ∧
    InTx emptyHashing s₀ s ∧ (s₀.getState 1 0).1 = 5 ∧ (s.getCommittedState 1 0).1 = 5 := by
  have hwrite : InBlock emptyHashing (emptyState.setState 1 0 5) :=
    .call (.setState 1 0 5) (.new (show StateDB.new 0 emptyDb = some emptyState from rfl)) rfl
  obtain ⟨s₀, s₁, s₂, s₃, h₀, h₁, h₂, h₃, hstate, hkept⟩ : ∃ s₀ s₁ s₂ s₃,
      (emptyState.setState 1 0 5).finalise emptyHashing false = some s₀ ∧
      Op.snapshot.apply emptyHashing s₀ = some s₁ ∧
      (Op.setState 1 0 7).apply emptyHashing s₁ = some s₂ ∧
      (Op.revertToSnapshot 0).apply emptyHashing s₂ = some s₃ ∧
      (s₀.getState 1 0).1 = 5 ∧ s₃.journal.entries.any (JournalEntry.replaces 1) = false :=
    ⟨_, _, _, _, rfl, rfl, rfl, rfl, rfl, rfl⟩
  have hb : Boundary emptyHashing s₀ := .finalise false hwrite h₀
  have htx : InTx emptyHashing s₀ s₃ := .call _ (.call _ (.call _ .start h₁) h₂) h₃
  refine ⟨s₀, s₃, hb, htx, hstate, ?_⟩
  rw [committedState_original hb htx, hkept]
  exact hstate

end GoEthereum.State
