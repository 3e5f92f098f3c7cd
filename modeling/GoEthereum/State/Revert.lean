/-
  Snapshots.

  Every step of a call can be undone (`Step.undo`), so between a snapshot and the return
  to it the journal leads back to what was seen.  The one exception is an account that
  `Commit` has written although it is marked as deleted: creating the account and
  undoing this makes it visible (`revert_restores`).
-/
import GoEthereum.State.Step

namespace GoEthereum.State

open GoEthereum.Rlp AssocMap UndoLog StateDB

/-- No account in the trie is marked as deleted: what is not seen is not there. -/
def Hidden (v : View) : Prop := ∀ a, v.accounts a = none → v.trie a = none

/-- The view `v'` shows what `v` shows, and maybe accounts of the trie that `v` hides. -/
structure Reveals (v v' : View) : Prop where
  rest : v' = { v with accounts := v'.accounts }
  accounts : ∀ a, v'.accounts a = v.accounts a ∨
    v.accounts a = none ∧ v'.accounts a = (v.trie a).map (storedView v.db)

/-- The state as it is seen, and its journal. -/
def StateDB.logged (s : StateDB) : View × List JournalEntry := (s.view, s.journal.entries)

/-- Undoing an entry of the journal, if the account that it changes is seen. -/
def undoSeen : JournalEntry → View → Option View
  | .suicide a prev prevbalance, v => v.modify a fun x =>
      { x with suicided := prev, balance := prevbalance }
  | e, v => undoView e v

variable {s s' : StateDB} {addr : Address} {obj : StateObject}
  {s₀ : StateDB} {e : JournalEntry} {obj' : StateObject} {revid : ℕ}

/-! ## Steps are undone -/

theorem entries_append (s : StateDB) (e : JournalEntry) :
    (s.append e).journal.entries = e :: s.journal.entries := by
  rw [append, Journal.append]
  cases e.dirtied <;> rfl

theorem undoView_of_undoSeen {v v' : View} (h : undoSeen e v = some v') :
    undoView e v = some v' := by
  cases e with
  | suicide a prev prevbalance =>
    obtain ⟨x, hx, rfl⟩ := Option.map_eq_some_iff.1 h
    rw [undoView, hx]
    rfl
  | _ => exact h

theorem undoAll_of_undoSeen {es : List JournalEntry} {v v' : View}
    (h : undoAll undoSeen es v = some v') : undoAll undoView es v = some v' := by
  induction es generalizing v with
  | nil => exact h
  | cons e es ih =>
    obtain ⟨v₁, h₁, h₂⟩ := Option.bind_eq_some_iff.1 h
    rw [undoAll, undoView_of_undoSeen h₁]
    exact ih h₂

namespace Reveals

variable {v v' v'' : View}

theorem refl (v : View) : Reveals v v := ⟨rfl, fun _ => .inl rfl⟩

theorem trans (h : Reveals v v') (h' : Reveals v' v'') : Reveals v v'' where
  rest := by rw [h'.rest, h.rest]
  accounts a := by
    have htrie : v'.trie = v.trie := by rw [h.rest]
    have hdb : v'.db = v.db := by rw [h.rest]
    rcases h'.accounts a with ha | ⟨hnone, ha⟩
    · rw [ha]
      exact h.accounts a
    · rw [htrie, hdb] at ha
      rcases h.accounts a with hb | ⟨hb, -⟩
      · exact .inr ⟨hb ▸ hnone, ha⟩
      · exact .inr ⟨hb, ha⟩

instance : Std.Refl Reveals := ⟨refl⟩

instance : IsTrans View Reveals := ⟨fun _ _ _ => trans⟩

theorem set (h : Reveals v v') (x : Option AccountView) : Reveals (v.set addr x) (v'.set addr x) where
  rest := by rw [View.set, View.set, h.rest]
  accounts a := by
    rw [View.accounts_set, View.accounts_set]
    split_ifs
    · exact .inl rfl
    · exact h.accounts a

theorem set_stored (h : v.accounts addr = none) :
    Reveals v (v.set addr ((v.trie addr).map (storedView v.db))) where
  rest := rfl
  accounts a := by
    rw [View.accounts_set]
    split_ifs with ha
    · exact .inr ⟨ha ▸ h, by rw [ha]⟩
    · exact .inl rfl

theorem eq_of_hidden (h : Reveals v v') (hv : Hidden v) : v' = v := by
  have hacc : v'.accounts = v.accounts := by
    funext a
    rcases h.accounts a with ha | ⟨hnone, ha⟩
    · exact ha
    · rw [ha, hnone, hv a hnone]
      rfl
  rw [h.rest, hacc]

theorem modify (h : Reveals v v') {f : AccountView → AccountView} {w : View}
    (hw : v.modify addr f = some w) : ∃ w', v'.modify addr f = some w' ∧ Reveals w w' := by
  obtain ⟨x, hx, rfl⟩ := Option.map_eq_some_iff.1 hw
  rcases h.accounts addr with ha | ⟨hnone, -⟩
  · exact ⟨_, by rw [View.modify, ha, hx]; rfl, h.set _⟩
  · rw [hnone] at hx
    cases hx

theorem mono : Mono undoSeen Reveals := by
  intro e v w v' h hw
  have htrie : v'.trie = v.trie := by rw [h.rest]
  have hdb : v'.db = v.db := by rw [h.rest]
  have hlogs : v'.logs = v.logs ∧ v'.logSize = v.logSize := by rw [h.rest]; exact ⟨rfl, rfl⟩
  cases e with
  | createObject a =>
    cases hw
    refine ⟨_, rfl, ?_⟩
    rw [htrie, hdb]
    exact h.set _
  | resetObject a prev =>
    cases hw
    refine ⟨_, rfl, ?_⟩
    rw [hdb]
    exact h.set _
  | code a prevcode prevhash =>
    have hw : v.modify a _ = some w := hw
    rw [← hdb] at hw
    exact h.modify hw
  | suicide | balance | nonce | storage => exact h.modify hw
  | addLog x =>
    have hw : undoView (.addLog x) v = some w := hw
    change ∃ w', undoView (.addLog x) v' = some w' ∧ _
    rw [undoView] at hw ⊢
    rw [hlogs.1, hlogs.2]
    split_ifs at hw ⊢
    cases hw
    exact ⟨_, rfl, by rw [h.rest], h.accounts⟩
  | refund | addPreimage =>
    cases hw
    exact ⟨_, rfl, by rw [h.rest], h.accounts⟩
  | touch a =>
    cases hw
    exact ⟨v', rfl, h⟩

end Reveals

theorem ObjectChange.undo {db : Database} (h : ObjectChange db addr obj e obj') {v : View}
    (hdb : v.db = db) (hv : v.accounts addr = some (obj.view db)) :
    undoSeen e (v.set addr (some (obj'.view db))) = some v := by
  cases h with
  | balance amount | nonce nonce | suicide => exact View.modify_set hv rfl
  | code codeHash code hcode hsize =>
    refine View.modify_set hv (AccountView.ext rfl rfl rfl ?_ ?_ rfl rfl rfl)
    · change StateObject.codeOf v.db _ _ = _
      rw [hdb, hcode]
    · change StateObject.codeSizeOf v.db _ _ = _
      rw [hdb, hsize]
  | storage key value _ =>
    refine View.modify_set hv ?_
    rw [StateObject.view_setState]
    refine AccountView.ext rfl rfl rfl rfl rfl rfl ?_ rfl
    change Function.update (Function.update (obj.slots db) key value) key _ = _
    rw [Function.update_idem, Function.update_eq_self]
    rfl

theorem ObjectChange.deleted_eq {db : Database}
    (h : ObjectChange db addr obj e obj') : obj'.deleted = obj.deleted := by
  cases h <;> rfl

theorem view_append_setStateObject (s : StateDB) (e : JournalEntry)
    (h : obj'.deleted = false) : ((s.append e).setStateObject addr obj').view =
      s.view.set addr (some (obj'.view s.db)) := by
  rw [view_setStateObject, view_append, seen_of_not_deleted h]
  rfl

theorem getLogs_addLog (s : StateDB) (log : Log) : ∃ l,
    (s.addLog log).getLogs = Function.update s.getLogs s.thash (s.getLogs s.thash ++ [l]) := by
  refine ⟨{ log with
    txHash := s.thash, blockHash := s.bhash, txIndex := s.txIndex, index := s.logSize },
    funext fun h => ?_⟩
  rw [getLogs, addLog, get_set, Function.update_apply]
  split_ifs <;> rfl

theorem undo_addLog (s : StateDB) (log : Log) :
    undoSeen (.addLog s.thash) (s.addLog log).view = some s.view := by
  obtain ⟨l, hl⟩ := getLogs_addLog s log
  have hlogs : (s.addLog log).view.logs s.thash = s.getLogs s.thash ++ [l] := by
    change (s.addLog log).getLogs s.thash = _
    rw [hl, Function.update_self]
  change undoView (.addLog s.thash) _ = _
  rw [undoView, if_neg (by simp [hlogs]), hlogs, List.dropLast_concat]
  refine congrArg some (View.mk.injEq .. ▸ ⟨rfl, rfl, rfl, rfl, ?_, rfl, rfl⟩)
  change Function.update (s.addLog log).getLogs _ _ = s.getLogs
  rw [hl, Function.update_idem, Function.update_eq_self]

theorem undo_addPreimage {hash : Word} (preimage : Bytes) (h : s.preimages.get hash = none) :
    undoSeen (.addPreimage hash) { s.append (.addPreimage hash) with
      preimages := s.preimages.set hash preimage }.view = some s.view := by
  have hset : (s.preimages.set hash preimage).get =
      Function.update s.preimages.get hash (some preimage) := by
    funext x
    rw [get_set, Function.update_apply]
  change undoView (.addPreimage hash) _ = _
  rw [undoView]
  refine congrArg some (View.mk.injEq .. ▸ ⟨rfl, rfl, rfl, rfl, rfl, rfl, ?_⟩)
  change Function.update (s.preimages.set hash preimage).get hash none = s.preimages.get
  rw [hset, Function.update_idem, ← h, Function.update_eq_self]

/-- What a step does: either only something is loaded, or there is one entry more, which
    leads back. -/
theorem Step.undo (h : Step s s') :
    (s'.view = s.view ∧ s'.journal = s.journal) ∨
    ∃ e v, s'.journal.entries = e :: s.journal.entries ∧ undoSeen e s'.view = some v ∧
      Reveals s.view v := by
  have hback : ∀ {e}, s'.journal.entries = e :: s.journal.entries →
      undoSeen e s'.view = some s.view → ∃ e v, s'.journal.entries = e :: s.journal.entries ∧
        undoSeen e s'.view = some v ∧ Reveals s.view v :=
    fun {e} hentries hundo => ⟨e, s.view, hentries, hundo, .refl _⟩
  cases h with
  | load hat hdel hload => exact .inl ⟨view_load hat hdel hload, rfl⟩
  | @create addr hacc =>
    -- what stands in the trie is not what was seen if the account was hidden
    refine .inr ⟨.createObject addr, _, entries_append s _, rfl, ?_⟩
    rw [view_append_setStateObject s _ rfl, View.set_set]
    exact .set_stored hacc
  | @reset addr obj hobj hdel =>
    refine .inr (hback (entries_append s _) ?_)
    change undoView (.resetObject addr obj) _ = _
    rw [view_append_setStateObject s _ rfl, undoView, View.set_set, hdel,
      if_neg Bool.false_ne_true]
    exact congrArg some (View.set_eq_self (account_of_objectAt (objectAt_of_get hobj) hdel))
  | @change addr obj obj' e hobj hdel hch =>
    refine .inr (hback (entries_append s _) ?_)
    rw [view_append_setStateObject s _ (hch.deleted_eq.trans hdel)]
    exact hch.undo rfl (account_of_objectAt (objectAt_of_get hobj) hdel)
  | @touch addr obj _ _ =>
    refine .inr (hback (e := .touch addr) ?_ ?_)
    · rw [StateDB.touch]
      split_ifs <;> rfl
    · rw [StateDB.touch]
      split_ifs <;> rfl
  | refund r => exact .inr (hback (e := .refund s.refund) rfl rfl)
  | addLog log => exact .inr (hback rfl (undo_addLog s log))
  | @addPreimage hash preimage hnone => exact .inr (hback rfl (undo_addPreimage preimage hnone))

theorem Step.revisions (h : Step s s') :
    s'.validRevisions = s.validRevisions ∧ s'.nextRevisionId = s.nextRevisionId := by
  cases h with
  | touch =>
    rw [StateDB.touch]
    split_ifs <;> exact ⟨rfl, rfl⟩
  | _ => exact ⟨rfl, rfl⟩

theorem Steps.revisions (h : Steps s s') :
    s'.validRevisions = s.validRevisions ∧ s'.nextRevisionId = s.nextRevisionId := by
  induction h with
  | refl => exact ⟨rfl, rfl⟩
  | tail _ hstep ih => exact ⟨hstep.revisions.1.trans ih.1, hstep.revisions.2.trans ih.2⟩

/-! ## Going back -/

theorem revertEntry_frame (h : s.revertEntry e = some s') :
    s'.journal = s.journal ∧ s'.validRevisions = s.validRevisions ∧
      s'.nextRevisionId = s.nextRevisionId := by
  have hobject : ∀ {addr : Address} {undo : StateObject → StateObject},
      s.revertObject addr undo = some s' → s'.journal = s.journal ∧
        s'.validRevisions = s.validRevisions ∧ s'.nextRevisionId = s.nextRevisionId := by
    intro addr undo h
    rcases revertObject_cases s addr undo with ⟨hr, -⟩ | ⟨obj, hr, -⟩
    all_goals
      rw [hr] at h
      cases h
    exact ⟨rfl, rfl, rfl⟩
  cases e with
  | suicide a prev prevbalance =>
    rw [revertSuicide_eq] at h
    rcases hr : s.revertObject a _ with _ | s₁
    · rw [hr] at h
      cases h
      exact ⟨rfl, rfl, rfl⟩
    · rw [hr] at h
      exact hobject (hr.trans h)
  | balance | nonce | storage | code => exact hobject h
  | addLog x =>
    rw [revertEntry] at h
    split_ifs at h <;> cases h <;> exact ⟨rfl, rfl, rfl⟩
  | _ =>
    cases h
    exact ⟨rfl, rfl, rfl⟩

theorem entries_undirty (j : Journal) (e : JournalEntry) : (j.undirty e).entries = j.entries := by
  rw [Journal.undirty]
  cases e.dirtied <;> rfl

theorem revertEntries_frame {es : List JournalEntry} (h : revertEntries es s = some s') :
    s'.journal.entries = s.journal.entries ∧ s'.validRevisions = s.validRevisions ∧
      s'.nextRevisionId = s.nextRevisionId := by
  induction es generalizing s with
  | nil =>
    cases h
    exact ⟨rfl, rfl, rfl⟩
  | cons e es ih =>
    rw [revertEntries] at h
    rcases hs₁ : s.revertEntry e with _ | s₁
    · rw [hs₁] at h
      cases h
    · rw [hs₁] at h
      obtain ⟨h₁, h₂, h₃⟩ := ih h
      obtain ⟨hj, hr, hn⟩ := revertEntry_frame hs₁
      exact ⟨h₁.trans ((entries_undirty _ e).trans (by rw [hj])), h₂.trans hr, h₃.trans hn⟩

theorem revertToSnapshot_inv (h : s.revertToSnapshot revid = some s') :
    ∃ pre r post s₁, s.validRevisions = pre ++ r :: post ∧ (∀ x ∈ pre, x.id < revid) ∧
      r.id = revid ∧
      revertEntries (s.journal.entries.take (s.journal.entries.length - r.journalIndex)) s = some s₁ ∧
      s' = { s₁ with
        journal := { s₁.journal with
          entries := s₁.journal.entries.drop (s.journal.entries.length - r.journalIndex) }
        validRevisions := pre } := by
  rw [revertToSnapshot] at h
  rcases hr : s.validRevisions[s.validRevisions.findIdx fun r => decide (revid ≤ r.id)]? with _ | r
  · rw [hr] at h
    cases h
  · rw [hr] at h
    simp only at h
    split_ifs at h with hid
    obtain ⟨s₁, h₁, rfl⟩ := Option.map_eq_some_iff.1 h
    obtain ⟨s₂, h₂, rfl⟩ := Option.map_eq_some_iff.1 h₁
    obtain ⟨hlt, rfl⟩ := List.getElem?_eq_some_iff.1 hr
    refine ⟨_, _, _, s₂, (List.take_append_drop _ _).symm.trans
      (congrArg _ (List.drop_eq_getElem_cons hlt)), fun x hx => ?_, not_not.1 hid, h₂, ?_⟩
    · obtain ⟨i, hi, rfl⟩ := List.getElem_of_mem hx
      rw [List.length_take] at hi
      have := List.not_of_lt_findIdx (lt_min_iff.1 hi).1
      simpa using this
    · rw [(revertEntries_frame h₂).2.1]

/-- **The rule for returns.**  What a state and its journal share survives a return to a
    snapshot if it survives each entry that is undone. -/
theorem revertToSnapshot_rule {P : StateDB → List JournalEntry → Prop}
    (hentry : ∀ {s s' : StateDB} {e : JournalEntry} {es : List JournalEntry}, P s (e :: es) →
      s.revertEntry e = some s' → P { s' with journal := s'.journal.undirty e } es)
    (hcut : ∀ {s : StateDB} {es : List JournalEntry} (entries : List JournalEntry)
      (validRevisions : List Revision), P s es →
      P { s with journal := { s.journal with entries }, validRevisions } es)
    {revid : ℕ} (h : P s s.journal.entries) (hs' : s.revertToSnapshot revid = some s') :
    P s' s'.journal.entries := by
  have hloop : ∀ {es₀ es : List JournalEntry} {s s' : StateDB}, P s (es₀ ++ es) →
      revertEntries es₀ s = some s' → P s' es := by
    intro es₀ es
    induction es₀ with
    | nil =>
      intro s s' h hs'
      cases hs'
      exact h
    | cons e es₀ ih =>
      intro s s' h hs'
      rw [revertEntries] at hs'
      rcases hs₁ : s.revertEntry e with _ | s₁
      · rw [hs₁] at hs'
        cases hs'
      · rw [hs₁] at hs'
        exact ih (hentry h hs₁) hs'
  obtain ⟨pre, r, post, s₁, -, -, -, h₁, rfl⟩ := revertToSnapshot_inv hs'
  obtain ⟨hentries, -⟩ := revertEntries_frame h₁
  rw [← List.take_append_drop (s.journal.entries.length - r.journalIndex) s.journal.entries] at h
  have hrest := hloop h h₁
  rw [← hentries] at hrest ⊢
  exact hcut (s := s₁) _ _ hrest

theorem revertEntries_view (es : List JournalEntry) (s : StateDB) :
    (revertEntries es s).map view = undoAll undoView es s.view := by
  induction es generalizing s with
  | nil => rfl
  | cons e es ih =>
    rw [revertEntries, undoAll, ← revertEntry_view]
    rcases s.revertEntry e with _ | s₁
    · rfl
    · exact ih _

/-- Cutting the journal back. -/
theorem revertJournal_spec {n : ℕ} {v : View}
    (h : undoAll undoView (s.journal.entries.take (s.journal.entries.length - n)) s.view = some v) :
    ∃ s', s.revertJournal n = some s' ∧ s'.view = v ∧
      s'.journal.entries = s.journal.entries.drop (s.journal.entries.length - n) ∧
      s'.validRevisions = s.validRevisions ∧ s'.nextRevisionId = s.nextRevisionId := by
  rw [← revertEntries_view] at h
  obtain ⟨s', hs', rfl⟩ := Option.map_eq_some_iff.1 h
  obtain ⟨hentries, hrev, hnext⟩ := revertEntries_frame hs'
  refine ⟨{ s' with journal := { s'.journal with
    entries := s'.journal.entries.drop (s.journal.entries.length - n) } },
    by rw [revertJournal, hs']; rfl, rfl, ?_, hrev, hnext⟩
  rw [hentries]

/-! ## Between a snapshot and the return to it -/

/-- The state `s` was reached from `s₀` after a snapshot there, and nothing before the
    snapshot was undone. -/
structure Since (s₀ s : StateDB) : Prop where
  undo : Extends undoSeen Reveals s₀.logged s.logged
  revisions : ∃ rest, s.validRevisions = s₀.validRevisions ++
      ⟨s₀.nextRevisionId, s₀.journal.entries.length⟩ :: rest ∧
    ∀ r ∈ rest, s₀.nextRevisionId < r.id ∧ s₀.journal.entries.length ≤ r.journalIndex
  next : s₀.nextRevisionId < s.nextRevisionId

theorem since_snapshot (s₀ : StateDB) : Since s₀ s₀.snapshot.2 where
  undo := .refl _
  revisions := ⟨[], rfl, by simp⟩
  next := Nat.lt_succ_self _

theorem Step.extends (h : Step s s') : Extends undoSeen Reveals s.logged s'.logged := by
  rcases h.undo with ⟨hview, hj⟩ | ⟨e, v, hentries, hundo, hv⟩
  · have hlogged : s'.logged = s.logged := by rw [logged, logged, hview, hj]
    rw [hlogged]
    exact .refl _
  · rw [logged, logged, hentries]
    exact .single hundo hv

theorem Since.step (hs : Since s₀ s) (h : Step s s') : Since s₀ s' := by
  obtain ⟨hrev, hnext⟩ := h.revisions
  exact ⟨hs.undo.trans Reveals.mono h.extends, hrev ▸ hs.revisions, hnext ▸ hs.next⟩

theorem Since.steps (hs : Since s₀ s) (h : Steps s s') : Since s₀ s' := by
  induction h with
  | refl => exact hs
  | tail _ hstep ih => exact ih.step hstep

theorem Since.snapshot (hs : Since s₀ s) : Since s₀ s.snapshot.2 where
  undo := hs.undo
  revisions := by
    obtain ⟨rest, hrest, hall⟩ := hs.revisions
    refine ⟨rest ++ [⟨s.nextRevisionId, s.journal.entries.length⟩], ?_, fun r hr => ?_⟩
    · change s.validRevisions ++ [_] = _
      rw [hrest, List.append_assoc]
      rfl
    · rcases List.mem_append.1 hr with hr | hr
      · exact hall r hr
      · rw [List.mem_singleton.1 hr]
        exact ⟨hs.next, hs.undo.length_le⟩
  next := hs.next.trans (Nat.lt_succ_self _)

/-- What `RevertToSnapshot` does if the revision is found. -/
theorem revertToSnapshot_spec {pre post : List Revision} {r : Revision}
    (hrevs : s.validRevisions = pre ++ r :: post) (hpre : ∀ x ∈ pre, x.id < revid)
    (hid : r.id = revid) {v : View} (h : undoAll undoView
      (s.journal.entries.take (s.journal.entries.length - r.journalIndex)) s.view = some v) :
    ∃ s', s.revertToSnapshot revid = some s' ∧ s'.view = v ∧
      s'.journal.entries = s.journal.entries.drop (s.journal.entries.length - r.journalIndex) ∧
      s'.validRevisions = pre ∧ s'.nextRevisionId = s.nextRevisionId := by
  have hidx : s.validRevisions.findIdx (fun r => decide (revid ≤ r.id)) = pre.length := by
    rw [hrevs, List.findIdx_append, List.findIdx_eq_length_of_false (fun x hx => by
      simpa using hpre x hx), if_neg (lt_irrefl _), List.findIdx_cons]
    simp [hid]
  have hget : s.validRevisions[pre.length]? = some r := by simp [hrevs]
  obtain ⟨s', hs', hview, hentries, hrev, hnext⟩ := revertJournal_spec h
  refine ⟨{ s' with validRevisions := s'.validRevisions.take pre.length }, ?_, hview, hentries, ?_,
    hnext⟩
  · rw [revertToSnapshot, hidx, hget]
    simp only [hid, ne_eq, not_true_eq_false, if_false, hs']
    rfl
  · change s'.validRevisions.take pre.length = pre
    rw [hrev, hrevs, List.take_left]

theorem Since.revert (hbelow : ∀ r ∈ s₀.validRevisions, r.id < s₀.nextRevisionId) (hs : Since s₀ s)
    (hid : s₀.nextRevisionId < revid) (h : s.revertToSnapshot revid = some s') : Since s₀ s' := by
  obtain ⟨pre, r, post, -, hrevs, hpre, hr, -⟩ := revertToSnapshot_inv h
  obtain ⟨rest, hrest, hall⟩ := hs.revisions
  -- the revision is one of those after the snapshot
  obtain ⟨pre', rfl, rfl⟩ : ∃ pre', pre = s₀.validRevisions ++
      ⟨s₀.nextRevisionId, s₀.journal.entries.length⟩ :: pre' ∧ rest = pre' ++ r :: post := by
    rw [hrest] at hrevs
    rcases List.append_eq_append_iff.1 hrevs with ⟨l, rfl, hl⟩ | ⟨l, hl, hl'⟩
    · cases l with
      | nil =>
        cases hl
        exact absurd hr hid.ne
      | cons x l =>
        cases hl
        exact ⟨l, rfl, rfl⟩
    · cases l with
      | nil =>
        cases hl'
        exact absurd hr hid.ne
      | cons x l =>
        cases hl'
        have := hbelow r (hl ▸ List.mem_append_right _ (.head _))
        omega
  obtain ⟨hrid, hindex⟩ := hall r (List.mem_append_right _ (.head _))
  obtain ⟨v, hv, hext⟩ := hs.undo.cut hindex
  have hv : undoAll undoSeen (s.journal.entries.take (s.journal.entries.length - r.journalIndex))
    s.view = some v := hv
  obtain ⟨s₁, hs₁, hview, hentries, hrevs₁, hnext⟩ :=
    revertToSnapshot_spec hrevs hpre hr (undoAll_of_undoSeen hv)
  rw [h] at hs₁
  cases hs₁
  refine ⟨?_, ⟨pre', hrevs₁, fun x hx => hall x (List.mem_append_left _ hx)⟩, hnext ▸ hs.next⟩
  rw [logged, logged, hview, hentries]
  exact hext

/-- The return to the snapshot itself: what is seen now was seen then, or is an account
    that was hidden. -/
theorem Since.restore (hbelow : ∀ r ∈ s₀.validRevisions, r.id < s₀.nextRevisionId)
    (hs : Since s₀ s) : ∃ s', s.revertToSnapshot s₀.snapshot.1 = some s' ∧
      Reveals s₀.view s'.view ∧ s'.validRevisions = s₀.validRevisions ∧
      s'.nextRevisionId = s.nextRevisionId := by
  obtain ⟨rest, hrest, -⟩ := hs.revisions
  obtain ⟨v, hv, hreveals⟩ := hs.undo.restore
  obtain ⟨s', hs', hview, -, hrevs, hnext⟩ :=
    revertToSnapshot_spec hrest hbelow rfl (undoAll_of_undoSeen hv)
  exact ⟨s', hs', by rw [hview]; exact hreveals, hrevs, hnext⟩

/-- The calls of a transaction. -/
def runOps (H : Hashing) (s : StateDB) (ops : List Op) : Option StateDB :=
  ops.foldlM (fun s op => op.apply H s) s

/-- The calls do not go back behind a revision. -/
def After (revid : ℕ) (ops : List Op) : Prop := ∀ op ∈ ops, ∀ id, op = .revertToSnapshot id → revid < id

theorem Since.run {H : Hashing} (hbelow : ∀ r ∈ s₀.validRevisions, r.id < s₀.nextRevisionId)
    {ops : List Op} (hs : Since s₀ s) (hops : After s₀.nextRevisionId ops)
    (h : runOps H s ops = some s') :
    Since s₀ s' := by
  induction ops generalizing s with
  | nil =>
    cases h
    exact hs
  | cons op ops ih =>
    rw [runOps, List.foldlM_cons] at h
    obtain ⟨s₁, h₁, h₂⟩ := Option.bind_eq_some_iff.1 h
    refine ih ?_ (fun op hop => hops op (.tail _ hop)) h₂
    rcases Op.cases h₁ with rfl | ⟨id, rfl, hrev⟩ | hsteps
    · exact hs.snapshot
    · exact hs.revert hbelow (hops _ (.head _) id rfl) hrev
    · exact hs.steps hsteps

/-! ## Reachable states -/

theorem foldlM_preserves {α σ : Type} {P : σ → Prop} {f : σ → α → Option σ}
    (hf : ∀ {s s' a}, P s → f s a = some s' → P s') :
    ∀ (l : List α) {s s' : σ}, P s → l.foldlM f s = some s' → P s'
  | [], _, _, hs, h => by cases h; exact hs
  | a :: l, _, _, hs, h => by
    rw [List.foldlM_cons] at h
    obtain ⟨s₁, h₁, h₂⟩ := Option.bind_eq_some_iff.1 h
    exact foldlM_preserves hf l (hf hs h₁) h₂

theorem copyJournaled_revisions (s : StateDB) : ∀ (l : List Address) (t : StateDB),
    (l.foldl (copyJournaled s) t).validRevisions = t.validRevisions
  | [], _ => rfl
  | addr :: l, t => by
    rw [List.foldl_cons, copyJournaled_revisions s l, copyJournaled]
    cases s.stateObjects.get addr <;> rfl

theorem copy_revisions (h : s.copy = some s') : s'.validRevisions = [] := by
  rw [StateDB.copy] at h
  refine foldlM_preserves (P := fun t => t.validRevisions = []) ?_ _ ?_ h
  · intro t t' addr ht hc
    rw [copyDirty] at hc
    split_ifs at hc
    · cases hc
      exact ht
    · obtain ⟨obj, -, rfl⟩ := Option.map_eq_some_iff.1 hc
      exact ht
  · exact copyJournaled_revisions s _ _

theorem revertToSnapshot_revisions (h : s.revertToSnapshot revid = some s') :
    s'.validRevisions ⊆ s.validRevisions ∧ s'.nextRevisionId = s.nextRevisionId := by
  obtain ⟨pre, r, post, s₁, hrevs, -, -, h₁, rfl⟩ := revertToSnapshot_inv h
  exact ⟨hrevs ▸ List.subset_append_left _ _, (revertEntries_frame h₁).2.2⟩

theorem Reachable.revisions_below {H : Hashing} (h : Reachable H s) :
    ∀ r ∈ s.validRevisions, r.id < s.nextRevisionId := by
  have hnil : ∀ {s : StateDB}, s.validRevisions = [] →
      ∀ r ∈ s.validRevisions, r.id < s.nextRevisionId := fun h r hr => by simp [h] at hr
  induction h with
  | new h =>
    obtain ⟨trie, -, rfl⟩ := Option.map_eq_some_iff.1 h
    exact hnil rfl
  | @call s s' c _ h ih =>
    cases c with
    | inner op =>
      rcases Op.cases h with rfl | ⟨id, -, hrev⟩ | hsteps
      · intro r hr
        rcases List.mem_append.1 hr with hr | hr
        · exact (ih r hr).trans (Nat.lt_succ_self _)
        · rw [List.mem_singleton.1 hr]
          exact Nat.lt_succ_self _
      · obtain ⟨hsub, hnext⟩ := revertToSnapshot_revisions hrev
        exact fun r hr => hnext ▸ ih r (hsub hr)
      · obtain ⟨h₁, h₂⟩ := hsteps.revisions
        rw [h₁, h₂]
        exact ih
    | prepare => cases h; exact ih
    | finalise d =>
      obtain ⟨s₁, -, rfl⟩ := Option.map_eq_some_iff.1 h
      exact hnil rfl
    | commit d =>
      obtain ⟨p, hp, rfl⟩ := Option.map_eq_some_iff.1 h
      obtain ⟨s₁, -, rfl⟩ := Option.map_eq_some_iff.1 hp
      exact hnil rfl
    | copy => exact hnil (copy_revisions h)
    | reset root =>
      cases h
      rw [StateDB.reset]
      cases s.db.openTrie root with
      | none => exact ih
      | some trie => exact hnil rfl

/-- Whatever is called after a snapshot, `RevertToSnapshot` restores everything that is
    observed. -/
def Restores (H : Hashing) (s : StateDB) : Prop :=
  ∀ ops s', After s.nextRevisionId ops → runOps H s.snapshot.2 ops = some s' →
    ∃ s'', s'.revertToSnapshot s.snapshot.1 = some s'' ∧ s''.observe = s.observe

theorem hidden_iff (s : StateDB) : Hidden s.view ↔
    ∀ a obj, s.stateObjects.get a = some obj → obj.deleted = true → s.trie a = none := by
  constructor
  · intro h a obj hobj hdel
    refine h a ?_
    change (s.objectAt a).bind _ = none
    rw [objectAt, hobj, Option.bind_some, seen, hdel]
    rfl
  · intro h a hacc
    change (s.objectAt a).bind _ = none at hacc
    rw [objectAt] at hacc
    rcases hobj : s.stateObjects.get a with _ | obj
    · rw [hobj] at hacc
      rcases ht : s.trie a with _ | data
      · exact ht
      · simp only [ht] at hacc
        cases hacc
    · rw [hobj, Option.bind_some] at hacc
      rcases hdel : obj.deleted with _ | _
      · rw [seen_of_not_deleted hdel] at hacc
        cases hacc
      · exact h a obj hobj hdel

theorem exist_of_not_hidden (H : Hashing) (hs : Reachable H s) {data : Account}
    (hacc : s.account addr = none) (htrie : s.trie addr = some data) :
    ∃ s' s'', runOps H s.snapshot.2 [.createAccount addr] = some s' ∧
      s'.revertToSnapshot s.snapshot.1 = some s'' ∧ s''.observe ≠ s.observe := by
  have hcreate : s.snapshot.2.createAccount addr =
      (s.snapshot.2.append (.createObject addr)).setStateObject addr ((newObject {}).setNonce 0) := by
    rw [createAccount, createObject]
    rcases getStateObject_spec s.snapshot.2 addr with ⟨hget, -⟩ | ⟨obj, s', -, -, -, hat, hdel⟩
    · rw [hget]
    · have hat : s.objectAt addr = some obj := hat
      rw [account, hat, Option.bind_some, seen_of_not_deleted hdel] at hacc
      cases hacc
  have hentries : (s.snapshot.2.createAccount addr).journal.entries =
      .createObject addr :: s.journal.entries := by
    rw [hcreate]
    exact entries_append _ _
  have hundo : undoAll undoView ((s.snapshot.2.createAccount addr).journal.entries.take
      ((s.snapshot.2.createAccount addr).journal.entries.length - s.journal.entries.length))
        (s.snapshot.2.createAccount addr).view =
      some (s.view.set addr (some (storedView s.db data))) := by
    rw [hentries, List.length_cons, Nat.add_sub_cancel_left, List.take_succ_cons, List.take_zero,
      hcreate, view_append_setStateObject _ _ rfl, undoAll, undoView, View.set_set]
    change some (s.view.set addr ((s.trie addr).map _)) = _
    rw [htrie]
    rfl
  have hrevs : (s.snapshot.2.createAccount addr).validRevisions = s.validRevisions ++
      ⟨s.nextRevisionId, s.journal.entries.length⟩ :: [] := by rw [hcreate]; rfl
  obtain ⟨s'', hs'', hview, -⟩ := revertToSnapshot_spec hrevs hs.revisions_below rfl hundo
  refine ⟨_, s'', rfl, hs'', fun h => ?_⟩
  have hexist := congrFun (congrArg Observed.exist h) addr
  rw [observe_eq, observe_eq] at hexist
  simp only [hview, View.accounts_set_self] at hexist
  change true = (s.account addr).isSome at hexist
  rw [hacc] at hexist
  cases hexist

/-- **Snapshots.**  `RevertToSnapshot` restores everything that is observed, whatever is
    called in between, exactly if no object that is marked as deleted stands for an
    account that is in the trie. -/
theorem revert_restores (H : Hashing) {s : StateDB} (hs : Reachable H s) :
    Restores H s ↔
      ∀ a obj, s.stateObjects.get a = some obj → obj.deleted = true → s.trie a = none := by
  rw [← hidden_iff]
  constructor
  · intro h a hacc
    rcases htrie : s.trie a with _ | data
    · exact htrie
    · obtain ⟨s', s'', hrun, hrevert, hne⟩ := exist_of_not_hidden H hs hacc htrie
      obtain ⟨s₁, hs₁, heq⟩ := h _ s' (by simp [After]) hrun
      rw [hrevert] at hs₁
      cases hs₁
      exact absurd heq hne
  · intro hh ops s' hops hrun
    have hbelow := hs.revisions_below
    obtain ⟨s'', hs'', hreveals, -⟩ := ((since_snapshot s).run hbelow hops hrun).restore hbelow
    exact ⟨s'', hs'', observe_eq_of_view (hreveals.eq_of_hidden hh)⟩

/-! ### An account that comes back -/

/-- A database without tries and codes. -/
def emptyDb : Database := ⟨fun _ => none, fun _ => none, fun _ => none⟩

/-- A new state. -/
def emptyState : StateDB := { db := emptyDb, trie := fun _ => none }

/-- The hashes of no code and of empty tries. -/
def emptyHashing : Hashing := ⟨fun _ => emptyCodeHash, fun _ => emptyRoot, fun _ => emptyRoot⟩

theorem reachable_emptyState (H : Hashing) : Reachable H emptyState :=
  .new (show StateDB.new 0 emptyDb = some emptyState from rfl)

theorem revert_restores_touched : Restores emptyHashing (emptyState.addBalance 1 0) :=
  (revert_restores emptyHashing
    (.call (.inner (.addBalance 1 0)) (reachable_emptyState _) rfl)).2 fun a obj hobj hdel => by
      rfl

/-- The account is touched, deleted by `Finalise` and written again by `Commit`. -/
theorem revert_reveals : ∃ s s' s'', Reachable emptyHashing s ∧ (s.exist 1).1 = false ∧
    runOps emptyHashing s.snapshot.2 [.createAccount 1] = some s' ∧
    s'.revertToSnapshot s.snapshot.1 = some s'' ∧ (s''.exist 1).1 = true := by
  have h₁ : Reachable emptyHashing (emptyState.addBalance 1 0) :=
    .call (.inner (.addBalance 1 0)) (reachable_emptyState _) rfl
  have h₂ : Reachable emptyHashing _ := .call (.finalise true) h₁ rfl
  have h₃ : Reachable emptyHashing _ := .call (.commit false) h₂ rfl
  exact ⟨_, _, _, h₃, rfl, rfl, rfl, rfl⟩

end GoEthereum.State
