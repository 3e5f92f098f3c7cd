/-
  Transactions by price and nonce (core/types/transaction.go).

  The first transactions of the accounts are a heap by price, the others are in a map.
  `remaining` is what is still to come from an account; each step changes it for the account
  of the current transaction only (`Ok.step`), and so does a run (`Ok.after`).
-/
import GoEthereum.Core.Types
import GoEthereum.Lib.AssocMap
import GoEthereum.Lib.SwapHeap

namespace GoEthereum.Core.TxOrder

/-! ## Model -/

/-- `TxByPrice`: the heap has the largest price in front. -/
def byPrice (tx : Transaction) : ℤ := -tx.gasPrice

/-- `TransactionsByPriceAndNonce`, by accounts. -/
structure TransactionsByPriceAndNonce (A : Type) where
  txs : AssocMap A (List Transaction)
  heads : List Transaction

/-- The calls that change the set. -/
inductive Op where
  | shift
  | pop
deriving DecidableEq

section Model

variable {A : Type} [DecidableEq A] (heap : FixHeapFns) (sender : Transaction → A)

/-- A round of the loop in `NewTransactionsByPriceAndNonce`; an account without transactions is an
    index out of range. -/
def collect (t : TransactionsByPriceAndNonce A) (src : A) :
    Option (TransactionsByPriceAndNonce A) :=
  match t.txs.get src with
  | none => some t
  | some [] => none
  | some (tx :: rest) =>
    let acc := sender tx
    let txs := t.txs.set acc rest
    some ⟨if src ≠ acc then txs.erase src else txs, t.heads ++ [tx]⟩

/-- `NewTransactionsByPriceAndNonce`; `order` is the order in which the loop sees the accounts. -/
def newTransactionsByPriceAndNonce (order : List A) (txs : AssocMap A (List Transaction)) :
    Option (TransactionsByPriceAndNonce A) := do
  let t ← order.foldlM (collect sender) ⟨txs, []⟩
  some { t with heads := heap.init byPrice t.heads }

variable (t : TransactionsByPriceAndNonce A)

def TransactionsByPriceAndNonce.peek : Option Transaction := t.heads.head?

def TransactionsByPriceAndNonce.pop : Option (TransactionsByPriceAndNonce A) := do
  let (_, heads) ← heap.pop byPrice t.heads
  some { t with heads }

def TransactionsByPriceAndNonce.shift : Option (TransactionsByPriceAndNonce A) :=
  match t.heads with
  | [] => none
  | tx :: others =>
    let acc := sender tx
    match t.txs.get acc with
    | some (next :: rest) => some ⟨t.txs.set acc rest, heap.fix byPrice (next :: others)⟩
    | _ => t.pop heap

/-- A call. -/
def TransactionsByPriceAndNonce.step : Op → Option (TransactionsByPriceAndNonce A)
  | .shift => t.shift heap sender
  | .pop => t.pop heap

/-- Calls one after another: each with the transaction that `Peek` shows before it. -/
def TransactionsByPriceAndNonce.run :
    List Op → TransactionsByPriceAndNonce A →
      Option (List (Transaction × Op) × TransactionsByPriceAndNonce A)
  | [], t => some ([], t)
  | op :: ops, t => do
    let tx ← t.peek
    let t ← t.step heap sender op
    let (trace, t) ← run ops t
    some ((tx, op) :: trace, t)

/-- What is still to come from an account. -/
def TransactionsByPriceAndNonce.remaining (a : A) : List Transaction :=
  match t.heads.find? fun tx => sender tx = a with
  | none => []
  | some tx => tx :: (t.txs.get a).getD []

end Model

/-- A map from senders to lists of their transactions, in the order of their nonces. -/
structure Pending {A : Type} [DecidableEq A] (sender : Transaction → A) where
  txs : AssocMap A (List Transaction)
  nonempty : ∀ a l, txs.get a = some l → l ≠ []
  sender_eq : ∀ a l, txs.get a = some l → ∀ tx ∈ l, sender tx = a
  sorted : ∀ a l, txs.get a = some l → l.Pairwise fun x y => x.nonce ≤ y.nonce

/-- The transactions of an account. -/
def Pending.of {A : Type} [DecidableEq A] {sender : Transaction → A} (p : Pending sender) (a : A) :
    List Transaction := (p.txs.get a).getD []

theorem Pending.sender_of {A : Type} [DecidableEq A] {sender : Transaction → A}
    (p : Pending sender) {a : A} {tx : Transaction} (h : tx ∈ p.of a) : sender tx = a := by
  rw [Pending.of] at h
  cases hget : p.txs.get a with
  | none => simp [hget] at h
  | some l => exact p.sender_eq a l hget tx (by simpa [hget] using h)

theorem Pending.sorted_of {A : Type} [DecidableEq A] {sender : Transaction → A}
    (p : Pending sender) (a : A) : (p.of a).Pairwise fun x y => x.nonce ≤ y.nonce := by
  rw [Pending.of]
  cases hget : p.txs.get a with
  | none => exact .nil
  | some l => exact p.sorted a l hget

section Trace

variable {A : Type} [DecidableEq A] (sender : Transaction → A) (a : A)
  (trace : List (Transaction × Op))

/-- The transactions of an account among those that are shown. -/
def shown : List Transaction := (trace.map Prod.fst).filter fun tx => sender tx = a

/-- The account has been popped. -/
def Popped : Prop := ∃ e ∈ trace, e.2 = Op.pop ∧ sender e.1 = a

instance : Decidable (Popped sender a trace) := inferInstanceAs (Decidable (∃ e ∈ trace, _))

/-- What is left of the transactions `l` of an account. -/
def left (l : List Transaction) : List Transaction :=
  if Popped sender a trace then [] else l.drop (shown sender a trace).length

theorem shown_cons (e : Transaction × Op) : shown sender a (e :: trace) =
    if sender e.1 = a then e.1 :: shown sender a trace else shown sender a trace := by
  simp [shown, List.filter_cons]

omit [DecidableEq A] in
theorem popped_cons (e : Transaction × Op) : Popped sender a (e :: trace) ↔
    e.2 = Op.pop ∧ sender e.1 = a ∨ Popped sender a trace := by
  simp [Popped]

end Trace

namespace TransactionsByPriceAndNonce

variable {A : Type} [DecidableEq A] {heap : FixHeapFns} {sender : Transaction → A}
  {t : TransactionsByPriceAndNonce A} {tx : Transaction} {l heads : List Transaction} {a : A}

/-- The first transactions are a heap of different accounts, and the others are under their
    sender. -/
structure Ok (sender : Transaction → A) (t : TransactionsByPriceAndNonce A) : Prop where
  heap : IsHeap byPrice t.heads
  nodup : (t.heads.map sender).Nodup
  sender_eq : ∀ a l, t.txs.get a = some l → ∀ tx ∈ l, sender tx = a

/-! ## Steps -/

theorem find?_eq_some_iff (h : (heads.map sender).Nodup) :
    heads.find? (fun tx => sender tx = a) = some tx ↔ tx ∈ heads ∧ sender tx = a := by
  constructor
  · intro hfind
    exact ⟨List.mem_of_find?_eq_some hfind, by simpa using List.find?_some hfind⟩
  · rintro ⟨hmem, rfl⟩
    obtain ⟨x, hx⟩ : ∃ x, heads.find? (fun x => sender x = sender tx) = some x := by
      rw [← Option.isSome_iff_exists, List.find?_isSome]
      exact ⟨tx, hmem, by simp⟩
    rw [hx, List.inj_on_of_nodup_map h (List.mem_of_find?_eq_some hx) hmem
      (by simpa using List.find?_some hx)]

theorem remaining_perm {heads' : List Transaction} {txs : AssocMap A (List Transaction)}
    (hperm : heads'.Perm heads) (h : (heads.map sender).Nodup) :
    remaining sender ⟨txs, heads'⟩ a = remaining sender ⟨txs, heads⟩ a := by
  have hfind : heads'.find? (fun tx => sender tx = a) = heads.find? fun tx => sender tx = a := by
    refine Option.ext fun tx => ?_
    rw [find?_eq_some_iff h, find?_eq_some_iff ((hperm.map sender).nodup_iff.2 h), hperm.mem_iff]
  simp only [remaining, hfind]

theorem remaining_head (txs : AssocMap A (List Transaction)) :
    remaining sender ⟨txs, tx :: heads⟩ (sender tx) = tx :: (txs.get (sender tx)).getD [] := by
  simp [remaining]

theorem remaining_other (txs : AssocMap A (List Transaction)) (h : sender tx ≠ a) :
    remaining sender ⟨txs, tx :: heads⟩ a = remaining sender ⟨txs, heads⟩ a := by
  simp [remaining, h]

theorem remaining_eq_nil (txs : AssocMap A (List Transaction)) (h : a ∉ heads.map sender) :
    remaining sender ⟨txs, heads⟩ a = [] := by
  have hfind : heads.find? (fun tx => sender tx = a) = none := by
    rw [List.find?_eq_none]
    intro tx htx heq
    exact h (List.mem_map.2 ⟨tx, htx, by simpa using heq⟩)
  simp only [remaining, hfind]

/-- The number of transactions that are still to come. -/
def count (sender : Transaction → A) (t : TransactionsByPriceAndNonce A) : ℕ :=
  (t.heads.map fun tx => ((t.txs.get (sender tx)).getD []).length + 1).sum

theorem Ok.pop (heap : FixHeapFns) (h : Ok sender t) (hheads : t.heads = tx :: l) :
    ∃ t', t.pop heap = some t' ∧ Ok sender t' ∧
      (∀ a, t'.remaining sender a = if sender tx = a then [] else t.remaining sender a) ∧
      t'.count sender + ((t.txs.get (sender tx)).getD []).length + 1 = t.count sender := by
  obtain ⟨txs, heads⟩ := t
  obtain rfl : heads = tx :: l := hheads
  obtain ⟨rest, hpop, hheap, hperm⟩ := heap.pop_spec h.heap
  have hnodup : (l.map sender).Nodup ∧ sender tx ∉ l.map sender := by
    have := h.nodup
    rw [List.map_cons, List.nodup_cons] at this
    exact this.symm
  refine ⟨⟨txs, rest⟩, by simp [TransactionsByPriceAndNonce.pop, hpop],
    ⟨hheap, (hperm.map sender).nodup_iff.2 hnodup.1, h.sender_eq⟩, fun a => ?_, ?_⟩
  · rw [remaining_perm hperm hnodup.1]
    split_ifs with ha
    · exact remaining_eq_nil txs (ha ▸ hnodup.2)
    · exact (remaining_other txs ha).symm
  · simp only [count, List.map_cons, List.sum_cons]
    rw [(hperm.map _).sum_eq]
    omega

theorem Ok.shift (heap : FixHeapFns) (h : Ok sender t) (hheads : t.heads = tx :: l) :
    ∃ t', t.shift heap sender = some t' ∧ Ok sender t' ∧
      (∀ a, t'.remaining sender a = if sender tx = a then (t.remaining sender a).tail
        else t.remaining sender a) ∧
      t'.count sender + 1 = t.count sender := by
  have hhead : t.remaining sender (sender tx) = tx :: (t.txs.get (sender tx)).getD [] := by
    obtain ⟨txs, heads⟩ := t
    obtain rfl : heads = tx :: l := hheads
    exact remaining_head txs
  cases hrest : (t.txs.get (sender tx)).getD [] with
  | nil =>
    -- the account is exhausted
    obtain ⟨t', hpop, hok, hremaining, hcount⟩ := h.pop heap hheads
    refine ⟨t', ?_, hok, fun a => ?_, by simpa [hrest] using hcount⟩
    · rw [← hpop, TransactionsByPriceAndNonce.shift, hheads]
      cases hget : t.txs.get (sender tx) with
      | none => simp only [hget]
      | some rest =>
        rw [hget] at hrest
        obtain rfl : rest = [] := hrest
        simp only [hget]
    · rw [hremaining a]
      split_ifs with ha
      · rw [← ha, hhead, hrest]
        rfl
      · rfl
  | cons next rest =>
    obtain ⟨txs, heads⟩ := t
    obtain rfl : heads = tx :: l := hheads
    have hget : txs.get (sender tx) = some (next :: rest) := by
      cases hget : txs.get (sender tx) with
      | none => simp [hget] at hrest
      | some r => simpa [hget] using hrest
    have hnext : sender next = sender tx := h.sender_eq _ _ hget next (by simp)
    have hsenders : (next :: l).map sender = (tx :: l).map sender := by simp [hnext]
    have hnodup : ((next :: l).map sender).Nodup := hsenders ▸ h.nodup
    have hperm := (heap.fix_spec (y := next) h.heap).2
    have hfix : (⟨txs, tx :: l⟩ : TransactionsByPriceAndNonce A).shift heap sender =
        some ⟨txs.set (sender tx) rest, heap.fix byPrice (next :: l)⟩ := by
      simp only [TransactionsByPriceAndNonce.shift, hget]
    have hother : ∀ x ∈ l, sender x ≠ sender tx := by
      intro x hx heq
      have := h.nodup
      rw [List.map_cons, List.nodup_cons] at this
      exact this.1 (List.mem_map.2 ⟨x, hx, heq⟩)
    refine ⟨_, hfix, ⟨(heap.fix_spec h.heap).1, ?_, fun a r hr x hx => ?_⟩, fun a => ?_, ?_⟩
    · exact (hperm.map sender).nodup_iff.2 hnodup
    · rcases AssocMap.get_set_some hr with ⟨rfl, rfl⟩ | ⟨-, hr⟩
      · exact h.sender_eq _ _ hget x (List.mem_cons_of_mem _ hx)
      · exact h.sender_eq a r hr x hx
    · rw [remaining_perm hperm hnodup]
      split_ifs with ha
      · rw [← ha, ← hnext, remaining_head, hnext, AssocMap.get_set_self, hhead, hget]
        rfl
      · rw [remaining_other _ (hnext ▸ ha), remaining_other _ ha]
        simp only [remaining, AssocMap.get_set, if_neg (Ne.symm ha)]
    · simp only [count]
      rw [(hperm.map _).sum_eq, List.map_cons, List.map_cons, List.sum_cons, List.sum_cons, hnext,
        AssocMap.get_set_self, hget]
      have hsame :
          (l.map fun x => (((txs.set (sender tx) rest).get (sender x)).getD []).length + 1) =
            l.map fun x => ((txs.get (sender x)).getD []).length + 1 := by
        refine List.map_congr_left fun x hx => ?_
        rw [AssocMap.get_set, if_neg (hother x hx)]
      rw [hsame]
      simp only [Option.getD_some, List.length_cons]
      omega

theorem Ok.step (heap : FixHeapFns) (h : Ok sender t) (hpeek : t.peek = some tx) (op : Op) :
    ∃ t', t.step heap sender op = some t' ∧ Ok sender t' ∧
      ∀ a, t'.remaining sender a = if sender tx = a then
        match op with
        | .shift => (t.remaining sender a).tail
        | .pop => []
      else t.remaining sender a := by
  obtain ⟨l, hheads⟩ := List.head?_eq_some_iff.1 hpeek
  cases op with
  | shift =>
    obtain ⟨t', hstep, hok, hremaining, -⟩ := h.shift heap hheads
    exact ⟨t', hstep, hok, hremaining⟩
  | pop =>
    obtain ⟨t', hstep, hok, hremaining, -⟩ := h.pop heap hheads
    exact ⟨t', hstep, hok, hremaining⟩

theorem Ok.remaining_peek (h : Ok sender t) (hpeek : t.peek = some tx) :
    ∃ rest, t.remaining sender (sender tx) = tx :: rest := by
  obtain ⟨txs, heads⟩ := t
  obtain ⟨l, rfl⟩ := List.head?_eq_some_iff.1 hpeek
  exact ⟨_, remaining_head txs⟩

/-! ## Runs -/

/-- **A run shows a first part of the transactions of an account**, and what is left of them remains
    unless the account is popped. -/
theorem Ok.after (h : Ok sender t) {ops : List Op} {trace : List (Transaction × Op)}
    {t' : TransactionsByPriceAndNonce A} (hrun : run heap sender ops t = some (trace, t')) :
    Ok sender t' ∧ trace.map Prod.snd = ops ∧ ∀ a,
      shown sender a trace <+: t.remaining sender a ∧
      t'.remaining sender a = left sender a trace (t.remaining sender a) := by
  induction ops generalizing t trace with
  | nil =>
    cases hrun
    exact ⟨h, rfl, fun a => ⟨List.nil_prefix, by simp [left, Popped, shown]⟩⟩
  | cons op ops ih =>
    simp only [TransactionsByPriceAndNonce.run, Option.bind_eq_bind,
      Option.bind_eq_some_iff] at hrun
    obtain ⟨tx, hpeek, t₁, hstep, ⟨trace₁, t₂⟩, hrun, heq⟩ := hrun
    cases heq
    obtain ⟨t₁', hstep', hok, hremaining⟩ := h.step heap hpeek op
    obtain rfl := Option.some.inj (hstep.symm.trans hstep')
    obtain ⟨hok', hops, hleft⟩ := ih hok hrun
    refine ⟨hok', by simp [hops], fun a => ?_⟩
    obtain ⟨hshown, hleft⟩ := hleft a
    rw [hremaining a] at hshown hleft
    simp only [hleft, left, shown_cons, popped_cons]
    by_cases ha : sender tx = a
    · subst ha
      obtain ⟨rest, hrest⟩ := h.remaining_peek hpeek
      cases op with
      | shift =>
        simp only [if_true, hrest, List.tail_cons] at hshown ⊢
        exact ⟨List.cons_prefix_cons.2 ⟨rfl, hshown⟩, by simp⟩
      | pop =>
        -- the account has no more transactions to show
        simp only [if_true] at hshown ⊢
        rw [List.prefix_nil.1 hshown, hrest]
        simp
    · simp only [if_neg ha] at hshown ⊢
      exact ⟨hshown, by simp [ha]⟩

theorem Ok.exhausts (heap : FixHeapFns) (h : Ok sender t) : ∃ trace t',
    run heap sender (List.replicate (t.count sender) .shift) t = some (trace, t') ∧
      t'.peek = none := by
  generalize hcount : t.count sender = n
  induction n generalizing t with
  | zero =>
    refine ⟨[], t, rfl, ?_⟩
    cases hheads : t.heads with
    | nil => rw [peek, hheads]; rfl
    | cons tx l => simp [count, hheads] at hcount
  | succ n ih =>
    cases hheads : t.heads with
    | nil => simp [count, hheads] at hcount
    | cons tx l =>
      obtain ⟨t₁, hshift, hok, -, hcount₁⟩ := h.shift heap hheads
      obtain ⟨trace, t', hrun, hpeek⟩ := ih hok (by omega)
      refine ⟨(tx, .shift) :: trace, t', ?_, hpeek⟩
      simp [List.replicate_succ, TransactionsByPriceAndNonce.run, peek, hheads,
        TransactionsByPriceAndNonce.step, hshift, hrun]

/-! ## The first transactions -/

/-- The loop has seen the accounts `done`. -/
structure Collecting (p : Pending sender) (done : List A) (t : TransactionsByPriceAndNonce A) :
    Prop where
  senders : t.heads.map sender = done
  txs : ∀ a, t.txs.get a = if a ∈ done then some (p.of a).tail else p.txs.get a
  first : ∀ tx ∈ t.heads, (p.of (sender tx)).head? = some tx

theorem Collecting.collect {p : Pending sender} {done : List A} (h : Collecting p done t)
    (hnew : a ∉ done) (hhas : a ∈ p.txs.keys) :
    ∃ t', collect sender t a = some t' ∧ Collecting p (done ++ [a]) t' := by
  obtain ⟨l, hl⟩ := (AssocMap.mem_keys p.txs a).1 hhas
  obtain ⟨tx, rest, rfl⟩ := List.exists_cons_of_ne_nil (p.nonempty a l hl)
  have hsender : sender tx = a := p.sender_eq a _ hl tx (by simp)
  have hof : p.of a = tx :: rest := by rw [Pending.of, hl]; rfl
  have hget : t.txs.get a = some (tx :: rest) := by rw [h.txs a, if_neg hnew, hl]
  refine ⟨⟨t.txs.set a rest, t.heads ++ [tx]⟩, ?_, ?_, fun x => ?_, ?_⟩
  · simp [TxOrder.collect, hget, hsender]
  · simp [h.senders, hsender]
  · rw [AssocMap.get_set, h.txs x]
    by_cases hx : x = a
    · simp [hx, hof]
    · simp [hx]
  · intro x hx
    rcases List.mem_append.1 hx with hx | hx
    · exact h.first x hx
    · rw [List.mem_singleton.1 hx, hsender, hof]
      rfl

theorem Collecting.foldlM {p : Pending sender} {done order : List A} (h : Collecting p done t)
    (hnodup : (done ++ order).Nodup) (horder : ∀ a ∈ order, a ∈ p.txs.keys) :
    ∃ t', order.foldlM (TxOrder.collect sender) t = some t' ∧
      Collecting p (done ++ order) t' := by
  induction order generalizing t done with
  | nil => exact ⟨t, rfl, by rwa [List.append_nil]⟩
  | cons a order ih =>
    have hnew : a ∉ done := fun ha =>
      List.disjoint_of_nodup_append hnodup ha (List.mem_cons_self ..)
    obtain ⟨t₁, hstep, h₁⟩ := h.collect hnew (horder a (by simp))
    rw [List.append_cons] at hnodup ⊢
    obtain ⟨t', hrun, h'⟩ := ih h₁ hnodup fun x hx => horder x (by simp [hx])
    exact ⟨t', by rw [List.foldlM_cons, hstep]; exact hrun, h'⟩

theorem ok_start (heap : FixHeapFns) (p : Pending sender) {order : List A}
    (horder : order.Perm p.txs.keys) :
    ∃ t, newTransactionsByPriceAndNonce heap sender order p.txs = some t ∧ Ok sender t ∧
      ∀ a, t.remaining sender a = p.of a := by
  have hnodup : order.Nodup := horder.nodup_iff.2 (AssocMap.nodup_keys p.txs)
  have hempty : Collecting p [] ⟨p.txs, []⟩ := ⟨rfl, by simp, by simp⟩
  obtain ⟨t, hfold, hcollect⟩ := hempty.foldlM
    (by simpa using hnodup) fun a ha => horder.mem_iff.1 ha
  rw [List.nil_append] at hcollect
  have hperm := (heap.init_spec byPrice t.heads).2
  have hsenders : (t.heads.map sender).Nodup := hcollect.senders ▸ hnodup
  refine ⟨{ t with heads := heap.init byPrice t.heads }, ?_, ?_, fun a => ?_⟩
  · simp [newTransactionsByPriceAndNonce, hfold]
  · refine ⟨(heap.init_spec _ _).1, (hperm.map sender).nodup_iff.2 hsenders, fun a l hl x hx => ?_⟩
    rw [hcollect.txs a] at hl
    split_ifs at hl with ha
    · cases hl
      exact p.sender_of (List.mem_of_mem_tail hx)
    · exact p.sender_eq a l hl x hx
  · rw [remaining_perm hperm hsenders]
    by_cases ha : a ∈ order
    · obtain ⟨tx, htx, rfl⟩ := List.mem_map.1 (hcollect.senders.symm ▸ ha)
      have hfirst := hcollect.first tx htx
      rw [remaining, (find?_eq_some_iff hsenders).2 ⟨htx, rfl⟩]
      simp only [hcollect.txs, if_pos ha, Option.getD_some]
      exact List.cons_head?_tail hfirst
    · rw [remaining_eq_nil _ (hcollect.senders.symm ▸ ha), Pending.of]
      cases hget : p.txs.get a with
      | none => rfl
      | some l => exact absurd (horder.mem_iff.2 ((AssocMap.mem_keys p.txs a).2 ⟨l, hget⟩)) ha

theorem Ok.peek_max (h : Ok sender t) (hpeek : t.peek = some tx) {x : Transaction}
    {rest : List Transaction} (hx : t.remaining sender a = x :: rest) :
    x.gasPrice ≤ tx.gasPrice := by
  obtain ⟨l, hheads⟩ := List.head?_eq_some_iff.1 hpeek
  have hmem : x ∈ t.heads := by
    rw [remaining] at hx
    split at hx
    · cases hx
    · rename_i hfind
      cases hx
      exact List.mem_of_find?_eq_some hfind
  have hle := (hheads ▸ h.heap).head_le x (hheads ▸ hmem)
  simpa [byPrice] using hle

theorem peek_eq_none (h : t.peek = none) (a : A) : t.remaining sender a = [] := by
  rw [remaining, List.head?_eq_none_iff.1 h, List.find?_nil]

end TransactionsByPriceAndNonce

open TransactionsByPriceAndNonce

/-- **The order of a block.**  After any calls: what `Peek` shows is the first transaction that is
    left of its account, and has the largest price among the first ones; the transactions that
    were shown of an account are a first part of its list, in the order of the nonces; what is left
    of an account is the rest of its list, or nothing once it has been popped.  Calls of `Shift`
    alone go on until nothing is left, and then have shown every transaction once. -/
theorem block_order {A : Type} [DecidableEq A] (heap : FixHeapFns) {sender : Transaction → A}
    (p : Pending sender) {order : List A} (horder : order.Perm p.txs.keys) :
    ∃ t₀, newTransactionsByPriceAndNonce heap sender order p.txs = some t₀ ∧
      (∀ ops trace t, run heap sender ops t₀ = some (trace, t) →
        (∀ a, shown sender a trace <+: p.of a ∧
          (shown sender a trace).Pairwise fun x y => x.nonce ≤ y.nonce) ∧
        (∀ a, t.remaining sender a = left sender a trace (p.of a)) ∧
        (t.peek = none ↔ ∀ a, left sender a trace (p.of a) = []) ∧
        ∀ tx, t.peek = some tx → (∀ op, (t.step heap sender op).isSome) ∧
          (∃ rest, left sender (sender tx) trace (p.of (sender tx)) = tx :: rest) ∧
          ∀ a x rest, left sender a trace (p.of a) = x :: rest → x.gasPrice ≤ tx.gasPrice) ∧
      ∃ n trace t, run heap sender (List.replicate n .shift) t₀ = some (trace, t) ∧
        t.peek = none ∧ ∀ a, shown sender a trace = p.of a := by
  obtain ⟨t₀, hstart, hok, hremaining⟩ := ok_start heap p horder
  refine ⟨t₀, hstart, fun ops trace t hrun => ?_, ?_⟩
  · obtain ⟨hok', -, hafter⟩ := hok.after hrun
    have hleft : ∀ a, t.remaining sender a = left sender a trace (p.of a) := fun a => by
      rw [(hafter a).2, hremaining a]
    have hshown : ∀ a, shown sender a trace <+: p.of a := fun a => hremaining a ▸ (hafter a).1
    refine ⟨fun a => ⟨hshown a, (p.sorted_of a).sublist (hshown a).sublist⟩, hleft, ⟨?_, ?_⟩,
      fun tx hpeek => ⟨fun op => ?_, ?_, fun a x rest hx => ?_⟩⟩
    · intro hpeek a
      rw [← hleft, peek_eq_none hpeek]
    · intro hnil
      by_contra hpeek
      obtain ⟨tx, hpeek⟩ := Option.ne_none_iff_exists'.1 hpeek
      obtain ⟨rest, hrest⟩ := hok'.remaining_peek hpeek
      rw [hleft, hnil] at hrest
      cases hrest
    · obtain ⟨t', hstep, -⟩ := hok'.step heap hpeek op
      rw [hstep]
      rfl
    · rw [← hleft]
      exact hok'.remaining_peek hpeek
    · exact hok'.peek_max hpeek ((hleft a).trans hx)
  · obtain ⟨trace, t, hrun, hpeek⟩ := hok.exhausts heap
    obtain ⟨-, hops, hafter⟩ := hok.after hrun
    refine ⟨_, trace, t, hrun, hpeek, fun a => ?_⟩
    obtain ⟨hshown, hleft⟩ := hafter a
    have hpopped : ¬ Popped sender a trace := by
      rintro ⟨e, he, hpop, -⟩
      have := List.eq_of_mem_replicate (hops ▸ List.mem_map_of_mem he)
      rw [hpop] at this
      cases this
    rw [peek_eq_none hpeek, left, if_neg hpopped, eq_comm, List.drop_eq_nil_iff] at hleft
    rw [← hremaining a]
    exact hshown.eq_of_length_le hleft

def priced (hash : Word) (nonce : UInt64) (price : ℤ) : Transaction :=
  ⟨hash, nonce, price, 0, none, 0, []⟩

/-- The transactions with the first hashes are those of one account. -/
def ofFirst (tx : Transaction) : Bool := tx.hash < 2

/-- Two transactions of one account, and one of another with a price between theirs. -/
def two : Pending ofFirst where
  txs := (AssocMap.empty.set true [priced 0 0 1, priced 1 1 3]).set false [priced 2 5 2]
  nonempty a l h := by
    cases a <;> cases h <;> simp
  sender_eq a l h := by
    cases a <;> cases h <;> decide
  sorted a l h := by
    cases a <;> cases h <;> decide

/-- The transactions of both accounts are shown, and first the one with the larger price. -/
theorem block_order_two :
    ∃ t₀, newTransactionsByPriceAndNonce .slices ofFirst two.txs.keys two.txs = some t₀ ∧
      (∀ tx, t₀.peek = some tx → 2 ≤ tx.gasPrice) ∧
      ∃ n trace t, run .slices ofFirst (List.replicate n .shift) t₀ = some (trace, t) ∧
        t.peek = none ∧ shown ofFirst true trace = [priced 0 0 1, priced 1 1 3] ∧
        shown ofFirst false trace = [priced 2 5 2] := by
  obtain ⟨t₀, hstart, hruns, n, trace, t, hrun, hpeek, hshown⟩ := block_order .slices two (.refl _)
  refine ⟨t₀, hstart, fun tx htx => ?_, n, trace, t, hrun, hpeek, hshown true, hshown false⟩
  exact ((hruns [] [] t₀ rfl).2.2.2 tx htx).2.2 false (priced 2 5 2) [] rfl

end GoEthereum.Core.TxOrder
