/-
  The dependencies of the requests of `Sync`.

  `Inv P s owed` says that the counter of a request is the number of places in which it is a
  parent of a request, and `owed` has the parents that are still to be told about a commit
  or that are counted before the child is scheduled.  `Settled` says that a request with
  data waits for something; it fails for a request whose callback has failed.
-/
import GoEthereum.Lib.Outcome
import GoEthereum.Trie.Sync

namespace GoEthereum.Trie

open GoEthereum.Rlp AssocMap Outcome

/-- The hash of a hash node. -/
def Node.ref : Node Hex → Option Hash
  | .hash h => some h
  | _ => none

section
variable (content : Hash → Bytes) (h : Hash)

/-- The children of the node with a hash. -/
def parts : List (Node Hex) :=
  match decodeNode (some h) (content h) 0 with
  | some (.ok node) => node.parts
  | _ => []

/-- The hashes of the children. -/
def kids : List Hash := (parts content h).filterMap Node.ref

/-- The node with the hash can be decoded. -/
def Decodes : Prop := ∃ node, decodeNode (some h) (content h) 0 = some (.ok node)

end

variable {C : Type}

/-- What is downloaded: the entries by their hashes, and how an entry may be requested (raw,
    and with which callback). -/
structure Requests (C : Type) where
  content : Hash → Bytes
  fits : Hash → Bool → Option C → Prop

/-- Also the entries that have to be there before an entry is committed.  The entries `asked`
    are requested or in the batch, the entries `held` requested or known, and if the database
    is `closed`, it has all that an entry of it needs. -/
structure Plan (C : Type) extends Requests C where
  next : Hash → Set Hash
  asked : Set Hash := ∅
  held : Set Hash := ∅
  closed : Prop := False

/-- The entry is requested as a node. -/
def Plan.Node (P : Plan C) (h : Hash) : Prop := ∃ callback, P.fits h false callback

/-- The hash of an entry that is added. -/
def Add.hash : Add C → Hash
  | .subTrie root _ => root
  | .rawEntry hash => hash

/-- An empty trie or code, which is not requested. -/
def Add.Empty : Add C → Prop
  | .subTrie root _ => root = emptyRoot
  | .rawEntry hash => hash = emptyState

/-- The callbacks accept the leaves of the nodes, and tries are requested as they may be. -/
structure Plan.Orderly (P : Plan C) (calls : Callbacks C) : Prop where
  accepts : ∀ {h v c}, .value v ∈ parts P.content h → P.fits h false (some c) →
    (calls c v h).2 = true
  adds : ∀ {h v c}, .value v ∈ parts P.content h → P.fits h false (some c) →
    ∀ {root callback}, .subTrie root callback ∈ (calls c v h).1 → P.fits root false callback
  child : ∀ {h c callback}, P.fits h false callback → c ∈ kids P.content h →
    P.fits c false callback

/-- Also, no entry is raw and a node, and `next` has only what is requested for a node. -/
structure Plan.Sound (P : Plan C) (calls : Callbacks C) : Prop extends P.Orderly calls where
  one : ∀ {h callback callback'}, P.fits h true callback → ¬ P.fits h false callback'
  next : ∀ {h c callback}, Decodes P.content h → P.fits h false callback → c ∈ P.next h →
    c ∈ kids P.content h ∨ h ≠ .zero ∧ ∃ k v, callback = some k ∧
      .value v ∈ parts P.content h ∧ ∃ a ∈ (calls k v h).1, ¬ a.Empty ∧ a.hash = c

theorem Plan.Sound.keep {P : Plan C} {calls : Callbacks C} (hP : P.Sound calls)
    (asked held : Set Hash) : Plan.Sound { P with asked, held } calls :=
  ⟨⟨hP.accepts, hP.adds, hP.child⟩, hP.one, hP.next⟩

namespace Sync

variable {P : Plan C} {s s' s'' : Sync C} {owed owed' : List Hash} {h p : Hash}
  {r r' req : Request C} {calls : Callbacks C} {c : Hash} {hashes : List Hash}

/-! ## The invariant -/

/-- The places in which `p` is a parent of a request. -/
def slots (s : Sync C) (p : Hash) : ℕ := s.requests.total fun r => r.parents.count p

/-- The entry is in the batch or in the database. -/
def Known (s : Sync C) (h : Hash) : Prop := (s.batch.get h).isSome ∨ (s.database h).isSome

/-- The entry is added as it may be requested.  A raw entry that is requested or known is
    not requested again. -/
def Fits (P : Requests C) (s : Sync C) : Add C → Prop
  | .subTrie root callback => P.fits root false callback
  | .rawEntry hash => P.fits hash true none ∨ (s.requests.get hash).isSome ∨ s.Known hash

/-- There is a request with data. -/
def Processed (s : Sync C) (h : Hash) : Prop := ∃ r, s.requests.get h = some r ∧ r.data.isSome

/-- The request for `c` has the parent `h`. -/
def Waits (s : Sync C) (h c : Hash) : Prop := ∃ r, s.requests.get c = some r ∧ h ∈ r.parents

/-- An entry that can be requested. -/
def Wanted (P : Plan C) (s : Sync C) (h : Hash) (raw : Bool) (callback : Option C) : Prop :=
  s.batch.get h = none ∧ P.fits h raw callback ∧
    ((s.database h).isSome → raw = false ∧ ¬ Decodes P.content h)

/-- The bookkeeping, with the parents that are counted beyond the requests. -/
structure Inv (P : Plan C) (s : Sync C) (owed : List Hash) : Prop where
  asked : ∀ {h}, h ∈ P.asked → (s.requests.get h).isSome ∨ h ∈ s.order
  held : ∀ {h}, h ∈ P.held → (s.requests.get h).isSome ∨ s.Known h
  deps : ∀ {h r}, s.requests.get h = some r → r.deps = s.slots h + owed.count h
  parents : ∀ {h r}, s.requests.get h = some r → ∀ p ∈ r.parents, s.Processed p
  owed : ∀ p ∈ owed, s.Processed p
  wanted : ∀ {h r}, s.requests.get h = some r → Wanted P s h r.raw r.callback
  data : ∀ {h r d}, s.requests.get h = some r → r.data = some d →
    d = P.content h ∧ (r.raw = true ∨ Decodes P.content h)
  database : ∀ {h d}, s.database h = some d → d = P.content h
  batch : ∀ {h d}, s.batch.get h = some d → d = P.content h
  order : ∀ {h}, h ∈ s.order ↔ (s.batch.get h).isSome
  nodup : s.order.Nodup
  done : ∀ {h}, h ∈ s.order → P.Node h → ∀ c ∈ P.next h, c ≠ h ∧ s.Known c
  placed : s.order.Pairwise fun h c => P.Node h → c ∉ P.next h
  closed : P.closed → ∀ {h}, (s.database h).isSome → P.Node h → ∀ c ∈ P.next h, s.Known c

/-- A request with data waits for other requests, but for the one in `busy`. -/
def Settled (P : Plan C) (s : Sync C) (busy : Option Hash) : Prop :=
  ∀ h r, s.requests.get h = some r → r.data.isSome → some h ≠ busy →
    r.deps ≠ 0 ∧ ∀ c ∈ P.next h, s.Known c ∨ s.Waits h c

/-! ## Requests that change -/

theorem get_put (s : Sync C) (h q : Hash) (r : Request C) :
    (s.put h r).requests.get q = if q = h then some r else s.requests.get q := get_set ..

theorem isSome_put {q : Hash} (hq : (s.requests.get q).isSome) :
    ((s.put h r).requests.get q).isSome := by
  rw [get_put]
  split_ifs
  · rfl
  · exact hq

/-- A request is registered or changes. -/
theorem Inv.put (hi : Inv P s owed)
    (hother : ∀ q, q ≠ h → (s.put h r).slots q + owed'.count q = s.slots q + owed.count q)
    (hdeps : r.deps = (s.put h r).slots h + owed'.count h)
    (hproc : ∀ p, s.Processed p → (s.put h r).Processed p)
    (hpar : ∀ p ∈ r.parents, (s.put h r).Processed p) (howed : ∀ p ∈ owed', (s.put h r).Processed p)
    (hwant : Wanted P s h r.raw r.callback)
    (hdata : ∀ {d}, r.data = some d → d = P.content h ∧ (r.raw = true ∨ Decodes P.content h)) :
    Inv P (s.put h r) owed' where
  asked hq := (hi.asked hq).imp_left isSome_put
  held hq := (hi.held hq).imp_left isSome_put
  deps {q r₁} hq := by
    rcases get_set_some hq with ⟨rfl, rfl⟩ | ⟨hqh, hq⟩
    · exact hdeps
    · rw [hi.deps hq, ← Nat.cast_add, ← Nat.cast_add, hother q hqh]
  parents {q r₁} hq p hp := by
    rcases get_set_some hq with ⟨rfl, rfl⟩ | ⟨-, hq⟩
    · exact hpar p hp
    · exact hproc p (hi.parents hq p hp)
  owed := howed
  wanted {q r₁} hq := by
    rcases get_set_some hq with ⟨rfl, rfl⟩ | ⟨-, hq⟩
    · exact hwant
    · exact hi.wanted hq
  data {q r₁ d} hq hd := by
    rcases get_set_some hq with ⟨rfl, rfl⟩ | ⟨-, hq⟩
    · exact hdata hd
    · exact hi.data hq hd
  database := hi.database
  batch := hi.batch
  order := hi.order
  nodup := hi.nodup
  done := hi.done
  placed := hi.placed
  closed := hi.closed

theorem Processed.put (hp : s.Processed p)
    (hd : ∀ r, s.requests.get h = some r → r.data.isSome → r'.data.isSome) :
    (s.put h r').Processed p := by
  obtain ⟨r, hr, hdata⟩ := hp
  by_cases hph : p = h
  · subst hph
    exact ⟨r', get_set_self .., hd r hr hdata⟩
  · exact ⟨r, by rw [get_put, if_neg hph, hr], hdata⟩

theorem slots_put (hr : s.requests.get h = some r) (r' : Request C) (p : Hash) :
    (s.put h r').slots p + r.parents.count p = s.slots p + r'.parents.count p := by
  rw [slots, Sync.put, total_set, slots, total_erase _ hr]
  omega

/-- The data or the counter of a request changes. -/
theorem Inv.update (hi : Inv P s owed) (hr : s.requests.get h = some r)
    (hpar : r'.parents = r.parents) (hraw : r'.raw = r.raw) (hcall : r'.callback = r.callback)
    (hsome : r.data.isSome → r'.data.isSome) (hdeps : r'.deps = s.slots h + owed'.count h)
    (hother : ∀ q, q ≠ h → owed'.count q = owed.count q) (howed : h ∈ owed' → r'.data.isSome)
    (hdata : ∀ {d}, r'.data = some d → d = P.content h ∧ (r.raw = true ∨ Decodes P.content h)) :
    Inv P (s.put h r') owed' := by
  have hslots : ∀ q, (s.put h r').slots q = s.slots q := by
    intro q
    have := slots_put hr r' q
    rw [hpar] at this
    omega
  have hproc : ∀ p, s.Processed p → (s.put h r').Processed p := by
    intro p hp
    refine hp.put fun r₁ hr₁ => ?_
    cases hr.symm.trans hr₁
    exact hsome
  refine hi.put (fun q hq => ?_) ?_ hproc (fun p hp => ?_) (fun p hp => ?_) ?_ ?_
  · rw [hslots, hother q hq]
  · rw [hslots, hdeps]
  · rw [hpar] at hp
    exact hproc p (hi.parents hr p hp)
  · by_cases hph : p = h
    · subst hph
      exact ⟨r', get_set_self .., howed hp⟩
    · refine hproc p (hi.owed p (List.count_pos_iff.1 ?_))
      rw [← hother p hph]
      exact List.count_pos_iff.2 hp
  · rw [hraw, hcall]
    exact hi.wanted hr
  · rw [hraw]
    exact hdata

theorem Inv.slots_eq_zero (hi : Inv P s owed) (hp : ¬ s.Processed p) :
    s.slots p = 0 ∧ owed.count p = 0 :=
  ⟨total_eq_zero _ fun _ _ hq => List.count_eq_zero.2 fun h => hp (hi.parents hq p h),
    List.count_eq_zero.2 fun h => hp (hi.owed p h)⟩

theorem Waits.slots_pos (hw : s.Waits h c) : 0 < s.slots h := by
  obtain ⟨r, hr, hmem⟩ := hw
  exact (List.count_pos_iff.2 hmem).trans_le (le_total (fun r => r.parents.count h) hr)

theorem Inv.schedule (hi : Inv P s (req.parents ++ owed)) (hdata : req.data = none)
    (hdeps : req.deps = 0) (hw : s.requests.get h = none → Wanted P s h req.raw req.callback) :
    Inv P (s.schedule h req) owed := by
  unfold Sync.schedule
  have howed : ∀ p ∈ owed, s.Processed p := fun p hp => hi.owed p (List.mem_append_right _ hp)
  have hpar : ∀ p ∈ req.parents, s.Processed p := fun p hp => hi.owed p (List.mem_append_left _ hp)
  rcases hr : s.requests.get h with _ | old
  · have hslots : ∀ p, (s.put h req).slots p = s.slots p + req.parents.count p := by
      intro p
      rw [slots, Sync.put, total_set, total_erase_of_none _ hr, slots, Nat.add_comm]
    have hproc : ∀ p, s.Processed p → (s.put h req).Processed p :=
      fun p hp => hp.put fun r hr' => by cases hr.symm.trans hr'
    have hnone : ¬ s.Processed h := by
      rintro ⟨r, hr', -⟩
      cases hr.symm.trans hr'
    obtain ⟨hslot, hcount⟩ := hi.slots_eq_zero hnone
    rw [List.count_append] at hcount
    refine hi.put (fun q _ => ?_) ?_ hproc (fun p hp => hproc p (hpar p hp))
      (fun p hp => hproc p (howed p hp)) (hw hr) (by rw [hdata]; nofun)
    · rw [hslots, List.count_append]
      omega
    · rw [hslots, hdeps]
      omega
  · have hslots : ∀ p, (s.put h { old with parents := old.parents ++ req.parents }).slots p =
        s.slots p + req.parents.count p := by
      intro p
      have := slots_put hr { old with parents := old.parents ++ req.parents } p
      rw [List.count_append] at this
      omega
    have hproc : ∀ p, s.Processed p →
        (s.put h { old with parents := old.parents ++ req.parents }).Processed p := by
      refine fun p hp => hp.put fun r hr' => ?_
      cases hr.symm.trans hr'
      exact id
    refine hi.put (fun q _ => ?_) ?_ hproc (fun p hp => hproc p ?_)
      (fun p hp => hproc p (howed p hp)) (hi.wanted (r := old) hr) (hi.data (r := old) hr)
    · rw [hslots, List.count_append]
      omega
    · rw [hslots, hi.deps hr, List.count_append]
      push_cast
      omega
    · rcases List.mem_append.1 hp with hp | hp
      · exact hi.parents hr p hp
      · exact hpar p hp

/-! ## Steps that add requests -/

/-- Nothing is committed, and requests only get more parents. -/
structure Grows (s s' : Sync C) : Prop where
  batch : s'.batch = s.batch
  database : s'.database = s.database
  order : s'.order = s.order
  keeps : ∀ {h r}, s.requests.get h = some r → ∃ r', s'.requests.get h = some r' ∧
    r'.data = r.data ∧ r'.callback = r.callback ∧ r.parents ⊆ r'.parents ∧ r.deps ≤ r'.deps
  news : ∀ {h r'}, s'.requests.get h = some r' → r'.data.isSome → s.Processed h

theorem Grows.refl (s : Sync C) : Grows s s :=
  ⟨rfl, rfl, rfl, fun {_ r} h => ⟨r, h, rfl, rfl, fun _ => id, le_rfl⟩, fun h hd => ⟨_, h, hd⟩⟩

theorem Grows.trans (h₁ : Grows s s') (h₂ : Grows s' s'') : Grows s s'' where
  batch := h₂.batch.trans h₁.batch
  database := h₂.database.trans h₁.database
  order := h₂.order.trans h₁.order
  keeps {h r} hr := by
    obtain ⟨r', hr', hd, hc, hp, hdeps⟩ := h₁.keeps hr
    obtain ⟨r'', hr'', hd', hc', hp', hdeps'⟩ := h₂.keeps hr'
    exact ⟨r'', hr'', hd'.trans hd, hc'.trans hc, fun _ hx => hp' (hp hx), hdeps.trans hdeps'⟩
  news {h r''} hr hd := by
    obtain ⟨r', hr', hd'⟩ := h₂.news hr hd
    exact h₁.news hr' hd'

theorem Grows.known (hg : Grows s s') (h : Hash) : s'.Known h ↔ s.Known h := by
  rw [Known, Known, hg.batch, hg.database]

theorem Grows.processed (hg : Grows s s') (hp : s.Processed p) : s'.Processed p := by
  obtain ⟨r, hr, hd⟩ := hp
  obtain ⟨r', hr', hd', -⟩ := hg.keeps hr
  exact ⟨r', hr', hd' ▸ hd⟩

theorem Grows.waits (hg : Grows s s') (hw : s.Waits h c) : s'.Waits h c := by
  obtain ⟨r, hr, hmem⟩ := hw
  obtain ⟨r', hr', -, -, hp, -⟩ := hg.keeps hr
  exact ⟨r', hr', hp hmem⟩

theorem Settled.grows {busy : Option Hash} (hs : Settled P s busy)
    (hi : Inv P s owed) (hg : Grows s s') : Settled P s' busy := by
  intro h r' hr' hd hb
  obtain ⟨r, hr, hdata⟩ := hg.news hr' hd
  obtain ⟨r₁, hr₁, -, -, -, hdeps⟩ := hg.keeps hr
  cases hr'.symm.trans hr₁
  obtain ⟨hne, hkids⟩ := hs _ _ hr hdata hb
  refine ⟨?_, fun c hc => (hkids c hc).imp (hg.known c).2 hg.waits⟩
  have := hi.deps hr
  omega

theorem grows_put (hold : ∀ {r}, s.requests.get h = some r → r'.data = r.data ∧
      r'.callback = r.callback ∧ r.parents ⊆ r'.parents ∧ r.deps ≤ r'.deps)
    (hnew : s.requests.get h = none → r'.data = none) : Grows s (s.put h r') := by
  refine ⟨rfl, rfl, rfl, fun {q r₁} hq => ?_, fun {q r₁} hq hdata => ?_⟩
  · rw [get_put]
    split_ifs with hqh
    · exact ⟨r', rfl, hold (hqh ▸ hq)⟩
    · exact ⟨r₁, hq, rfl, rfl, fun _ => id, le_rfl⟩
  · rcases get_set_some hq with ⟨rfl, rfl⟩ | ⟨-, hq⟩
    · rcases hr : s.requests.get q with _ | r
      · rw [hnew hr] at hdata
        cases hdata
      · exact ⟨r, hr, (hold hr).1 ▸ hdata⟩
    · exact ⟨r₁, hq, hdata⟩

theorem grows_count (hr : s.requests.get h = some r) (n : ℕ) :
    Grows s (s.put h { r with deps := r.deps + n }) := by
  refine grows_put (fun {r₁} hr₁ => ?_) fun hnone => ?_
  · cases hr.symm.trans hr₁
    exact ⟨rfl, rfl, fun _ => id, by dsimp only; omega⟩
  · cases hr.symm.trans hnone

theorem grows_schedule (s : Sync C) (h : Hash) (hdata : req.data = none) :
    Grows s (s.schedule h req) := by
  unfold Sync.schedule
  rcases hr : s.requests.get h with _ | old
  · exact grows_put (fun hr₁ => by cases hr.symm.trans hr₁) fun _ => hdata
  · refine grows_put (fun {r₁} hr₁ => ?_) fun hnone => by cases hr.symm.trans hnone
    cases hr.symm.trans hr₁
    exact ⟨rfl, rfl, List.subset_append_left .., le_rfl⟩

theorem get_schedule (s : Sync C) (h : Hash) (req : Request C) :
    ∃ r, (s.schedule h req).requests.get h = some r ∧ req.parents ⊆ r.parents := by
  unfold Sync.schedule
  rcases s.requests.get h with _ | old
  · exact ⟨req, get_set_self .., fun _ => id⟩
  · exact ⟨_, get_set_self .., List.subset_append_right ..⟩

theorem Inv.count (hi : Inv P s owed) (hr : s.requests.get p = some r)
    (hd : r.data.isSome) (n : ℕ) :
    Inv P (s.put p { r with deps := r.deps + n }) (List.replicate n p ++ owed) := by
  refine hi.update hr rfl rfl rfl (fun _ => hd) ?_ (fun q hq => ?_) (fun _ => hd)
    (hi.data (r := r) hr)
  · rw [List.count_append, List.count_replicate_self, hi.deps hr]
    push_cast
    omega
  · rw [List.count_append, List.count_replicate, if_neg, Nat.zero_add]
    rw [beq_iff_eq]
    exact Ne.symm hq

/-- The entry is known, or it is requested and its parent waits for it. -/
def Secured (s : Sync C) (p c : Hash) : Prop :=
  s.Known c ∨ ∃ r, s.requests.get c = some r ∧ (p ≠ .zero → p ∈ r.parents)

theorem Secured.grows (hs : s.Secured p c) (hg : Grows s s') : s'.Secured p c := by
  rcases hs with hk | ⟨r, hr, hmem⟩
  · exact .inl ((hg.known c).2 hk)
  · obtain ⟨r', hr', -, -, hp, -⟩ := hg.keeps hr
    exact .inr ⟨r', hr', fun hne => hp (hmem hne)⟩

/-- The result of calls that add entries. -/
def Added (P : Plan C) (s : Sync C) (owed : List Hash) (p : Hash) (as : List (Add C))
    (s' : Sync C) : Prop :=
  Inv P s' owed ∧ Grows s s' ∧ ∀ a ∈ as, a.Empty ∨ s'.Secured p a.hash

theorem link_spec (hi : Inv P s owed) (hp : p = .zero ∨ s.Processed p)
    (hpar : req.parents = []) (hdata : req.data = none) (hdeps : req.deps = 0)
    (hw : s.requests.get h = none → Wanted P s h req.raw req.callback) :
    Meets (s.link h p req) (fun s' => Inv P s' owed ∧ Grows s s' ∧ s'.Secured p h)
      fun _ => False := by
  unfold link
  by_cases hz : p = .zero
  · rw [if_neg (not_not.2 hz)]
    obtain ⟨r, hr, -⟩ := get_schedule s h req
    refine ⟨Inv.schedule ?_ hdata hdeps hw, grows_schedule s h hdata, .inr ⟨r, hr, absurd hz⟩⟩
    rw [hpar]
    exact hi
  · obtain ⟨r, hr, hd⟩ := hp.resolve_left hz
    rw [if_pos hz, hr]
    obtain ⟨r₁, hr₁, hsub⟩ := get_schedule (s.put p { r with deps := r.deps + 1 }) h
      { req with parents := req.parents ++ [p] }
    refine ⟨Inv.schedule ?_ hdata hdeps fun hnone => hw ?_,
      (grows_count hr 1).trans (grows_schedule _ h hdata),
      .inr ⟨r₁, hr₁, fun _ => hsub (List.mem_append_right _ List.mem_cons_self)⟩⟩
    · rw [hpar]
      exact hi.count hr hd 1
    · rw [get_put] at hnone
      split_ifs at hnone
      exact hnone

theorem add_spec (hi : Inv P s owed) (hp : p = .zero ∨ s.Processed p) {a : Add C}
    (ha : s.Fits P.toRequests a) : Meets (s.add p a)
      (fun s' => Inv P s' owed ∧ Grows s s' ∧ (a.Empty ∨ s'.Secured p a.hash)) (· = .decode) := by
  have hkeep : a.Empty ∨ s.Known a.hash → Meets (.ok s)
      (fun s' => Inv P s' owed ∧ Grows s s' ∧ (a.Empty ∨ s'.Secured p a.hash))
      (· = Fault.decode) := fun h => ⟨hi, .refl s, h.imp_right .inl⟩
  have hunknown : ∀ {h : Hash}, ¬ s.batch.has h = true → s.batch.get h = none := by
    intro h hb
    rwa [Bool.not_eq_true, has_eq_false] at hb
  cases a with
  | subTrie root callback =>
    simp only [add, addSubTrie]
    refine .ite (fun h => hkeep (.inl h)) fun _ => .ite (fun hb => hkeep (.inr (.inl hb))) fun hb =>
      ?_
    rcases hdec : decodeNode (some root) ((s.database root).getD []) 0 with _ | e | node
    · exact rfl
    · refine Meets.mono (link_spec hi hp rfl rfl rfl ?_) (fun _ h => ⟨h.1, h.2.1, .inr h.2.2⟩)
        fun _ => False.elim
      refine fun _ => ⟨hunknown hb, ha, fun hdb => ⟨rfl, ?_⟩⟩
      rintro ⟨node, hnode⟩
      obtain ⟨d, hd⟩ := Option.isSome_iff_exists.1 hdb
      rw [hd, Option.getD_some, hi.database hd, hnode] at hdec
      cases hdec
    · refine hkeep (.inr (.inr ?_))
      by_contra hnone
      rw [Add.hash, Option.not_isSome_iff_eq_none] at hnone
      rw [hnone] at hdec
      cases hdec
  | rawEntry hash =>
    simp only [add, addRawEntry]
    refine .ite (fun h => hkeep (.inl h)) fun _ => .ite (fun hb => hkeep (.inr (.inl hb))) fun hb =>
      .ite (fun hdb => hkeep (.inr (.inr hdb))) fun hdb => ?_
    refine Meets.mono (link_spec hi hp rfl rfl rfl ?_) (fun _ h => ⟨h.1, h.2.1, .inr h.2.2⟩)
      fun _ => False.elim
    refine fun hnone => ⟨hunknown hb, ha.resolve_right ?_, fun h => absurd h hdb⟩
    rw [hnone]
    exact fun h => h.elim (fun h => by cases h) fun hk => hk.elim hb hdb

/-- The entries are added as they may be requested when it is their turn. -/
def FitAll (P : Requests C) (p : Hash) : List (Add C) → Sync C → Prop
  | [], _ => True
  | a :: as, s => s.Fits P a ∧ ∀ s', s.add p a = .ok s' → FitAll P p as s'

theorem addAll_spec {as : List (Add C)} (hi : Inv P s owed)
    (hp : p = .zero ∨ s.Processed p) (has : FitAll P.toRequests p as s) : Meets (addAll p as s)
      (Added P s owed p as) (· = .decode) := by
  induction as generalizing s with
  | nil => exact ⟨hi, .refl s, nofun⟩
  | cons a as ih =>
    refine (add_spec hi hp has.1).returns.bind fun s₁ ⟨⟨hi₁, hg₁, ha⟩, hs₁⟩ => ?_
    refine (ih hi₁ (hp.imp id hg₁.processed) (has.2 s₁ hs₁)).mono
      (fun s₂ ⟨hi₂, hg₂, has₂⟩ => ⟨hi₂, hg₁.trans hg₂, ?_⟩) fun _ => id
    exact List.forall_mem_cons.2 ⟨ha.imp_right fun h => h.grows hg₂, has₂⟩

/-- What the callback adds for a leaf. -/
def calledAdds (calls : Callbacks C) (h : Hash) (callback : Option C) (v : Bytes) : List (Add C) :=
  callback.elim [] fun c => (calls c v h).1

/-- What the callback adds for the leaves among the nodes fits. -/
def LeavesFit (P : Requests C) (calls : Callbacks C) (h : Hash) (callback : Option C) :
    List (Node Hex) → Sync C → Prop
  | [], _ => True
  | .value v :: nodes, s => FitAll P h (calledAdds calls h callback v) s ∧
    ∀ s', addAll h (calledAdds calls h callback v) s = .ok s' →
      LeavesFit P calls h callback nodes s'
  | _ :: nodes, s => LeavesFit P calls h callback nodes s

/-- What `children` returns and does: the entries that are not known are in the list, and
    what the callbacks add is secured. -/
structure Listed (calls : Callbacks C) (h : Hash) (callback : Option C) (s : Sync C)
    (nodes : List (Node Hex)) (hashes : List Hash) : Prop where
  refs : ∀ c ∈ nodes.filterMap Node.ref, s.Known c ∨ c ∈ hashes
  news : ∀ c ∈ hashes, c ∈ nodes.filterMap Node.ref ∧ ¬ s.Known c
  adds : ∀ k, callback = some k → ∀ v, .value v ∈ nodes → ∀ a ∈ (calls k v h).1,
    a.Empty ∨ s.Secured h a.hash

theorem children_spec {callback : Option C} {nodes : List (Node Hex)} (hP : P.Sound calls)
    (hi : Inv P s owed) (hp : s.Processed h) (hfits : P.fits h false callback)
    (hnodes : nodes ⊆ parts P.content h) (hfit : LeavesFit P.toRequests calls h callback nodes s) :
    Meets (children calls h callback nodes s)
      (fun p => Inv P p.2 owed ∧ Grows s p.2 ∧ ∃ hashes, p.1 = some hashes ∧
        Listed calls h callback p.2 nodes hashes) (· = .decode) := by
  induction nodes generalizing s with
  | nil => exact ⟨hi, .refl s, [], rfl, nofun, nofun, nofun⟩
  | cons node nodes ih =>
    obtain ⟨hnode, hrest⟩ := List.cons_subset.1 hnodes
    have hskip : ∀ {s₁ : Sync C}, Inv P s₁ owed → Grows s s₁ →
        LeavesFit P.toRequests calls h callback nodes s₁ → node.ref = none →
        (∀ k, callback = some k → ∀ v, .value v = node → ∀ a ∈ (calls k v h).1,
          a.Empty ∨ s₁.Secured h a.hash) → Meets (children calls h callback nodes s₁)
          (fun p => Inv P p.2 owed ∧ Grows s p.2 ∧ ∃ hashes, p.1 = some hashes ∧
            Listed calls h callback p.2 (node :: nodes) hashes) (· = .decode) := by
      intro s₁ hi₁ hg₁ hfit₁ href hadds
      refine (ih hi₁ (hg₁.processed hp) hrest hfit₁).mono ?_ fun _ => id
      rintro ⟨out, s₂⟩ ⟨hi₂, hg₂, hashes, hout, hlist⟩
      refine ⟨hi₂, hg₁.trans hg₂, hashes, hout, ?_, ?_, fun k hk v hv a ha => ?_⟩
      · rw [List.filterMap_cons_none href]
        exact hlist.refs
      · rw [List.filterMap_cons_none href]
        exact hlist.news
      · rcases List.mem_cons.1 hv with hv | hv
        · exact (hadds k hk v hv a ha).imp_right fun h => h.grows hg₂
        · exact hlist.adds k hk v hv a ha
    cases node with
    | nil | short | full => exact hskip hi (.refl s) hfit rfl fun _ _ _ => nofun
    | value v =>
      simp only [children]
      cases callback with
      | none => exact hskip hi (.refl s) (hfit.2 s rfl) rfl nofun
      | some c =>
        refine (addAll_spec hi (.inr hp) hfit.1).returns.bind
          fun s₁ ⟨⟨hi₁, hg₁, hadds⟩, hs₁⟩ => ?_
        rw [if_pos (hP.accepts hnode hfits)]
        refine hskip hi₁ hg₁ (hfit.2 s₁ hs₁) rfl ?_
        rintro k ⟨⟩ v ⟨⟩
        exact hadds
    | hash c =>
      have hvalue : ∀ {v}, .value v ∈ Node.hash c :: nodes → .value v ∈ nodes :=
        fun {v} => List.mem_of_ne_of_mem (show Node.value v ≠ .hash c by nofun)
      simp only [children]
      refine .ite (fun hc => ?_) fun hc => ?_
      · refine (ih hi hp hrest hfit).mono ?_ fun _ => id
        rintro ⟨out, s₁⟩ ⟨hi₁, hg₁, hashes, hout, hrefs, hnews, hadds⟩
        refine ⟨hi₁, hg₁, hashes, hout, List.forall_mem_cons.2 ⟨.inl ((hg₁.known _).2 hc), hrefs⟩,
          fun c' hc' => ?_, fun k hk v hv => hadds k hk v (hvalue hv)⟩
        exact ⟨List.mem_cons_of_mem _ (hnews c' hc').1, (hnews c' hc').2⟩
      · refine (ih hi hp hrest hfit).bind ?_
        rintro ⟨out, s₁⟩ ⟨hi₁, hg₁, hashes, rfl, hrefs, hnews, hadds⟩
        refine ⟨hi₁, hg₁, c :: hashes, rfl, List.forall_mem_cons.2 ⟨.inr List.mem_cons_self, ?_⟩,
          List.forall_mem_cons.2 ⟨⟨List.mem_cons_self, fun hk => hc ((hg₁.known _).1 hk)⟩, ?_⟩,
          fun k hk v hv => hadds k hk v (hvalue hv)⟩
        · exact fun c' hc' => (hrefs c' hc').imp id (List.mem_cons_of_mem _)
        · exact fun c' hc' => ⟨List.mem_cons_of_mem _ (hnews c' hc').1, (hnews c' hc').2⟩

theorem scheduleAll_spec (callback : Option C)
    (hi : Inv P s (List.replicate hashes.length h ++ owed))
    (hw : ∀ c ∈ hashes, P.fits c false callback ∧ ¬ s.Known c) :
    Inv P (scheduleAll h callback hashes s) owed ∧
      Grows s (scheduleAll h callback hashes s) ∧
      ∀ c ∈ hashes, (scheduleAll h callback hashes s).Waits h c := by
  induction hashes generalizing s with
  | nil => exact ⟨hi, .refl s, nofun⟩
  | cons c hashes ih =>
    obtain ⟨hfits, hknown⟩ := hw c List.mem_cons_self
    have hwant : Wanted P s c false callback := by
      refine ⟨Option.not_isSome_iff_eq_none.1 fun h => hknown (.inl h), hfits, ?_⟩
      exact fun h => absurd (.inr h) hknown
    have hg : Grows s (s.schedule c { parents := [h], callback }) := grows_schedule s c rfl
    have hi₁ : Inv P (s.schedule c { parents := [h], callback })
        (List.replicate hashes.length h ++ owed) := Inv.schedule hi rfl rfl fun _ => hwant
    obtain ⟨hi₂, hg₂, hwaits⟩ := ih hi₁ fun c' hc' => by
      obtain ⟨h₁, h₂⟩ := hw c' (List.mem_cons_of_mem _ hc')
      exact ⟨h₁, fun h => h₂ ((hg.known c').1 h)⟩
    refine ⟨hi₂, hg.trans hg₂, fun c' hc' => ?_⟩
    rcases List.mem_cons.1 hc' with rfl | hc'
    · obtain ⟨r, hr, hsub⟩ := get_schedule s c' { parents := [h], callback }
      exact hg₂.waits ⟨r, hr, hsub List.mem_cons_self⟩
    · exact hwaits c' hc'

/-! ## Commits -/

/-- A request that is to be committed. -/
structure Complete (P : Plan C) (s : Sync C) (h : Hash)
    (r : Request C) : Prop where
  get : s.requests.get h = some r
  deps : r.deps = 0
  data : r.data = some (P.content h)
  database : s.database h = none
  next : P.Node h → ∀ c ∈ P.next h, s.Known c

theorem get_store (s : Sync C) (h q : Hash) (d : Bytes) :
    (s.store h d).requests.get q = if q = h then none else s.requests.get q := get_erase ..

theorem Known.store (hk : s.Known c) (d : Bytes) : (s.store h d).Known c := by
  unfold Known at hk ⊢
  simp only [Sync.store, get_set]
  split_ifs
  · exact .inl rfl
  · exact hk

theorem Inv.store (hi : Inv P s owed) (hc : Complete P s h r) :
    Inv P (s.store h (P.content h)) (r.parents ++ owed) := by
  have hzero : s.slots h = 0 ∧ owed.count h = 0 := by
    have := hi.deps hc.get
    have := hc.deps
    omega
  have hunknown : ¬ s.Known h := by
    rintro (hb | hd)
    · rw [(hi.wanted hc.get).1] at hb
      cases hb
    · rw [hc.database] at hd
      cases hd
  have hproc : ∀ {p : Hash}, p ≠ h → s.Processed p → (s.store h (P.content h)).Processed p := by
    rintro p hne ⟨r, hr, hd⟩
    exact ⟨r, by rw [get_store, if_neg hne, hr], hd⟩
  have hparent : ∀ {q : Hash} {r : Request C}, s.requests.get q = some r →
      ∀ p ∈ r.parents, (s.store h (P.content h)).Processed p := by
    intro q r hq p hp
    refine hproc ?_ (hi.parents hq p hp)
    rintro rfl
    have := Waits.slots_pos (s := s) ⟨r, hq, hp⟩
    omega
  have hget : ∀ {q : Hash} {r₁ : Request C}, (s.store h (P.content h)).requests.get q = some r₁ →
      q ≠ h ∧ s.requests.get q = some r₁ := get_erase_some
  have hbatch : ∀ q, (s.store h (P.content h)).batch.get q =
      if q = h then some (P.content h) else s.batch.get q := fun q => get_set ..
  refine ⟨fun {q} hq => ?_, fun {q} hq => ?_, fun {q r₁} hq => ?_,
    fun {q r₁} hq => hparent (hget hq).2, fun p hp => ?_, fun {q r₁} hq => ?_,
    fun {q r₁ d} hq hd => hi.data (hget hq).2 hd, hi.database, fun {q d} hq => ?_, fun {q} => ?_,
    ?_, fun {q} hq hnode c hmem => ?_, ?_, fun hcl {q} hq hnode c hmem => ?_⟩
  · rw [get_store]
    split_ifs with hqh
    · exact .inr (List.mem_append_right _ (List.mem_singleton.2 hqh))
    · exact (hi.asked hq).imp id (List.mem_append_left _)
  · rw [get_store]
    split_ifs with hqh
    · refine .inr (.inl ?_)
      rw [hbatch, if_pos hqh]
      rfl
    · exact (hi.held hq).imp id fun hk => hk.store _
  · have hslots : s.slots q = r.parents.count q + (s.store h (P.content h)).slots q :=
      total_erase _ hc.get
    rw [hi.deps (hget hq).2, hslots, List.count_append]
    push_cast
    omega
  · rcases List.mem_append.1 hp with hp | hp
    · exact hparent hc.get p hp
    · refine hproc ?_ (hi.owed p hp)
      rintro rfl
      have := List.count_pos_iff.2 hp
      omega
  · obtain ⟨hne, hq⟩ := hget hq
    refine ⟨?_, (hi.wanted hq).2⟩
    rw [hbatch, if_neg hne]
    exact (hi.wanted hq).1
  · rw [hbatch] at hq
    split_ifs at hq with hqh
    · cases hq
      rw [hqh]
    · exact hi.batch hq
  · change q ∈ s.order ++ [h] ↔ _
    rw [List.mem_append, List.mem_singleton, hi.order, hbatch]
    split_ifs with hqh
    · simp [hqh]
    · simp [hqh]
  · refine List.Nodup.append hi.nodup (List.nodup_singleton h) (List.disjoint_singleton.2 ?_)
    exact fun hmem => hunknown (.inl (hi.order.1 hmem))
  · rcases List.mem_append.1 hq with hq | hq
    · exact (hi.done hq hnode c hmem).imp_right fun hk => hk.store _
    · obtain rfl := List.mem_singleton.1 hq
      have hk := hc.next hnode c hmem
      refine ⟨?_, hk.store _⟩
      rintro rfl
      exact hunknown hk
  · refine List.pairwise_append.2 ⟨hi.placed, List.pairwise_singleton .., ?_⟩
    intro q hq c hc' hnode hmem
    obtain rfl := List.mem_singleton.1 hc'
    exact hunknown (hi.done hq hnode c hmem).2
  · exact (hi.closed hcl hq hnode c hmem).store _

theorem Settled.store (hs : Settled P s (some h)) (d : Bytes) :
    Settled P (s.store h d) none := by
  intro q r hq hd _
  obtain ⟨hqh, hq⟩ := get_erase_some hq
  obtain ⟨hne, hkids⟩ := hs _ _ hq hd (by simpa using hqh)
  refine ⟨hne, fun c hc => (hkids c hc).elim (fun hk => .inl (hk.store d)) ?_⟩
  rintro ⟨r', hr', hmem⟩
  by_cases hch : c = h
  · refine .inl (.inl ?_)
    rw [hch, Sync.store, get_set_self]
    rfl
  · exact .inr ⟨r', by rw [get_store, if_neg hch, hr'], hmem⟩

theorem Waits.put (hw : s.Waits p c) (hr : s.requests.get h = some r)
    (hp : r'.parents = r.parents) : (s.put h r').Waits p c := by
  obtain ⟨r₁, hr₁, hmem⟩ := hw
  by_cases hch : c = h
  · subst hch
    cases hr.symm.trans hr₁
    exact ⟨r', get_set_self .., hp ▸ hmem⟩
  · exact ⟨r₁, by rw [get_put, if_neg hch, hr₁], hmem⟩

theorem Settled.put (hs : Settled P s none) (hr : s.requests.get h = some r)
    (hp : r'.parents = r.parents) : Settled P (s.put h r') (some h) := by
  intro q r₁ hq hdata hb
  rw [get_put, if_neg fun hqh => hb (congrArg some hqh)] at hq
  obtain ⟨hne, hkids⟩ := hs _ _ hq hdata nofun
  exact ⟨hne, fun c hc => (hkids c hc).imp id fun hw => hw.put hr hp⟩

theorem Settled.free (hs : Settled P s (some h)) (hr : s.requests.get h = some r)
    (hne : r.deps ≠ 0) (hkids : ∀ c ∈ P.next h, s.Known c ∨ s.Waits h c) :
    Settled P s none := by
  intro q r₁ hq hdata _
  by_cases hqh : q = h
  · subst hqh
    cases hr.symm.trans hq
    exact ⟨hne, hkids⟩
  · exact hs _ _ hq hdata fun h => hqh (Option.some.inj h)

theorem Inv.of_data (hi : Inv P s owed) (hr : s.requests.get h = some r)
    (hd : r.data.isSome) : r.data = some (P.content h) ∧ s.database h = none := by
  obtain ⟨d, hdata⟩ := Option.isSome_iff_exists.1 hd
  obtain ⟨hcontent, hok⟩ := hi.data hr hdata
  refine ⟨hcontent ▸ hdata, Option.not_isSome_iff_eq_none.1 fun hdb => ?_⟩
  obtain ⟨hraw, hdec⟩ := (hi.wanted hr).2.2 hdb
  rcases hok with h | h
  · cases h.symm.trans hraw
  · exact hdec h

/-- The state after a commit. -/
def Committed (P : Plan C) (n : ℕ) (owed : List Hash)
    (s : Sync C) : Prop :=
  Inv P s owed ∧ Settled P s none ∧ s.requests.size ≤ n

theorem size_put (hr : s.requests.get h = some r) :
    (s.put h r').requests.size = s.requests.size := by
  rw [size_eq_total, size_eq_total, Sync.put, total_set, total_erase _ hr]

theorem tell_spec (hi : Inv P s (p :: owed)) (hs : Settled P s none)
    (hr : s.requests.get p = some r) :
    Inv P (s.put p { r with deps := r.deps - 1 }) owed ∧
      Settled P (s.put p { r with deps := r.deps - 1 }) (some p) ∧
      (r.deps - 1 ≠ 0 → Settled P (s.put p { r with deps := r.deps - 1 }) none) ∧
      (r.deps - 1 = 0 → Complete P (s.put p { r with deps := r.deps - 1 }) p
        { r with deps := r.deps - 1 }) := by
  obtain ⟨r₀, hr₀, hd⟩ := hi.owed p List.mem_cons_self
  cases hr.symm.trans hr₀
  have hdeps : r.deps - 1 = s.slots p + owed.count p := by
    rw [hi.deps hr, List.count_cons_self]
    push_cast
    omega
  have hbusy : Settled P (s.put p { r with deps := r.deps - 1 }) (some p) := hs.put hr rfl
  have hkids : ∀ c ∈ P.next p, s.Known c ∨ s.Waits p c := (hs _ _ hr hd nofun).2
  refine ⟨?_, hbusy, fun hne => hbusy.free (get_set_self ..) hne fun c hc => ?_,
    fun hz => ?_⟩
  · refine hi.update hr rfl rfl rfl (fun _ => hd) hdeps (fun q hq => ?_) (fun _ => hd)
      (hi.data (r := r) hr)
    rw [List.count_cons_of_ne (Ne.symm hq)]
  · exact (hkids c hc).imp id fun hw => hw.put hr rfl
  · obtain ⟨hdata, hdb⟩ := hi.of_data hr hd
    refine ⟨get_set_self .., hz, hdata, hdb, fun _ c hc => ?_⟩
    rcases hkids c hc with hk | hw
    · exact hk
    · have := hw.slots_pos
      omega

theorem notify_spec {fuel n : ℕ} (hn : n ≤ fuel)
    (ih : ∀ {s : Sync C} {h r owed}, Inv P s owed → Settled P s (some h) →
      Complete P s h r → s.requests.size ≤ fuel →
      Meets (commit fuel h s) (Committed P s.requests.size owed) fun _ => False) :
    ∀ {ps : List Hash} {s : Sync C}, Committed P n (ps ++ owed) s →
      Meets (notify (commit fuel) ps s) (Committed P n owed) fun _ => False
  | [], _, h => h
  | p :: ps, s, ⟨hi, hs, hsize⟩ => by
    obtain ⟨r, hr, -⟩ := hi.owed p List.mem_cons_self
    obtain ⟨hi₁, hs₁, hwait, hcomplete⟩ := tell_spec hi hs hr
    have hsize₁ : (s.put p { r with deps := r.deps - 1 }).requests.size ≤ n :=
      (size_put hr).trans_le hsize
    simp only [notify, hr]
    refine .ite (fun hz => ?_) fun hz => ?_
    · refine (ih hi₁ hs₁ (hcomplete hz) (hsize₁.trans hn)).bind fun s₂ ⟨hi₂, hs₂, hsize₂⟩ => ?_
      exact notify_spec hn ih ⟨hi₂, hs₂, hsize₂.trans hsize₁⟩
    · exact notify_spec hn ih ⟨hi₁, hwait hz, hsize₁⟩

theorem commit_spec {fuel : ℕ} (hi : Inv P s owed) (hs : Settled P s (some h))
    (hc : Complete P s h r) (hfuel : s.requests.size ≤ fuel) :
    Meets (commit fuel h s) (Committed P s.requests.size owed) fun _ => False := by
  have hsize : ∀ {s : Sync C} {h r}, Complete P s h r →
      s.requests.size = 1 + (s.store h (P.content h)).requests.size := by
    intro s h r hc
    rw [size_eq_total, size_eq_total, total_erase _ hc.get]
    rfl
  induction fuel generalizing s h r owed with
  | zero =>
    have := hsize hc
    omega
  | succ fuel ih =>
    have := hsize hc
    simp only [commit, hc.get, hc.data, Option.getD_some]
    have hstore : Committed P (s.store h (P.content h)).requests.size
        (r.parents ++ owed) (s.store h (P.content h)) := ⟨hi.store hc, hs.store _, le_rfl⟩
    refine (notify_spec (by omega) ih hstore).mono (fun s' ⟨hi', hs', hle⟩ => ?_) fun _ => id
    exact ⟨hi', hs', by omega⟩

/-- The state between two calls. -/
def Quiet (P : Plan C) (s : Sync C) : Prop :=
  Inv P s [] ∧ Settled P s none

theorem commitRequest_spec (hi : Inv P s []) (hs : Settled P s (some h))
    (hc : Complete P s h r) :
    Meets (s.commitRequest h) (fun p => Quiet P p.2) fun _ => False := by
  obtain ⟨s', hs', hi', hset, -⟩ := (commit_spec hi hs hc le_rfl).exists_ok
  rw [commitRequest, hs']
  exact ⟨hi', hset⟩

/-! ## Calls -/

theorem finish_spec (hP : P.Sound calls) (hi : Inv P s []) (hs : Settled P s (some h))
    (hr : s.requests.get h = some r) (hd : r.data.isSome) (hdec : Decodes P.content h)
    (hfits : P.fits h false r.callback)
    (hlist : Listed calls h r.callback s (parts P.content h) hashes) :
    Meets (finish h (some hashes, s)) (fun p => Quiet P p.2) fun _ => False := by
  have hnext : ∀ c ∈ P.next h, s.Known c ∨ c ∈ hashes ∨ s.Waits h c := by
    intro c hc
    rcases hP.next hdec hfits hc with hc | ⟨hne, k, v, hk, hv, a, ha, hempty, rfl⟩
    · exact (hlist.refs c hc).imp_right .inl
    · refine ((hlist.adds k hk v hv a ha).resolve_left hempty).imp_right fun ⟨r₁, hr₁, hmem⟩ => ?_
      exact .inr ⟨r₁, hr₁, hmem hne⟩
  simp only [finish, hr]
  refine .ite (fun hz => ?_) fun hz => ?_
  · obtain ⟨hdata, hdb⟩ := hi.of_data hr hd
    refine (commitRequest_spec hi hs ⟨hr, hz.2, hdata, hdb, fun _ c hc => ?_⟩).bind fun p hp => hp
    rcases hnext c hc with hk | hmem | hw
    · exact hk
    · rw [List.length_eq_zero_iff.1 hz.1] at hmem
      cases hmem
    · have := hw.slots_pos
      have := hi.deps hr
      omega
  · have hcount := hi.count hr hd hashes.length
    obtain ⟨hi', hg, hwaits⟩ := scheduleAll_spec r.callback hcount
      fun c hc => ⟨hP.child hfits (hlist.news c hc).1, (hlist.news c hc).2⟩
    obtain ⟨r', hr', -, -, -, hdeps⟩ := hg.keeps
      (show _ = some { r with deps := r.deps + hashes.length } from get_set_self ..)
    have hg' := (grows_count hr hashes.length).trans hg
    refine ⟨hi', (hs.grows hi hg').free hr' ?_ fun c hc => ?_⟩
    · have := hi.deps hr
      dsimp only at hdeps
      omega
    · exact (hnext c hc).imp (hg'.known c).2 fun h => h.elim (hwaits c) hg'.waits

/-- What the callback adds for the leaves of a delivered node fits. -/
def ItemFits (P : Requests C) (calls : Callbacks C) (h : Hash) (s : Sync C) : Prop :=
  ∀ r, s.requests.get h = some r → r.data = none → r.raw = false →
    LeavesFit P calls h r.callback (parts P.content h)
      (s.put h { r with data := some (P.content h) })

theorem processItem_spec (hP : P.Sound calls) (hq : Quiet P s)
    (hfit : ItemFits P.toRequests calls h s) :
    Meets (s.processItem calls h (P.content h)) (fun p => Quiet P p.2) (· = .decode) := by
  obtain ⟨hi, hs⟩ := hq
  unfold processItem
  rcases hr : s.requests.get h with _ | r
  · exact ⟨hi, hs⟩
  · refine .ite (fun _ => ⟨hi, hs⟩) fun hd => ?_
    have hzero : ¬ s.Processed h := by
      rintro ⟨r₁, hr₁, hd₁⟩
      cases hr.symm.trans hr₁
      exact hd hd₁
    have hfits := (hi.wanted hr).2.1
    have hbusy : Settled P (s.put h { r with data := some (P.content h) }) (some h) :=
      hs.put hr rfl
    have hget : (s.put h { r with data := some (P.content h) }).requests.get h =
        some { r with data := some (P.content h) } := get_set_self ..
    have hi₁ : (r.raw = true ∨ Decodes P.content h) →
        Inv P (s.put h { r with data := some (P.content h) }) [] := by
      intro hok
      refine hi.update hr rfl rfl rfl (fun _ => rfl) (hi.deps (r := r) hr) (fun _ _ => rfl) nofun ?_
      rintro d ⟨⟩
      exact ⟨rfl, hok⟩
    refine .ite (fun hraw => ?_) fun hraw => ?_
    · refine Meets.bind ((commitRequest_spec (hi₁ (.inl hraw)) hbusy ⟨hget, ?_, rfl, ?_, ?_⟩).mono
        (fun _ => id) fun _ => False.elim) fun p hp => hp
      · have := hi.deps hr
        have := hi.slots_eq_zero hzero
        dsimp only
        omega
      · exact (hi₁ (.inl hraw)).of_data hget rfl |>.2
      · rintro ⟨callback, hnode⟩
        rw [hraw] at hfits
        exact absurd hnode (hP.one hfits)
    · rw [Bool.not_eq_true] at hraw
      rw [hraw] at hfits
      rcases hdec : decodeNode (some h) (P.content h) 0 with _ | e | node
      · exact rfl
      · exact ⟨hi, hs⟩
      · have hi₂ := hi₁ (.inr ⟨node, hdec⟩)
        have hparts : node.parts = parts P.content h := by rw [parts, hdec]
        refine (children_spec hP hi₂ ⟨_, hget, rfl⟩ hfits (fun _ hn => hparts ▸ hn) ?_).bind ?_
        · rw [hparts]
          exact hfit r hr (Option.not_isSome_iff_eq_none.1 hd) hraw
        rintro ⟨out, s₁⟩ ⟨hi₃, hg, hashes, rfl, hlist⟩
        obtain ⟨r₁, hr₁, hd₁, hcall, -⟩ := hg.keeps hget
        dsimp only at hd₁ hcall
        rw [hparts, ← hcall] at hlist
        exact (finish_spec hP hi₃ (hbusy.grows hi₂ hg) hr₁ (hd₁ ▸ rfl) ⟨node, hdec⟩ (hcall ▸ hfits)
          hlist).mono (fun _ => id) fun _ => False.elim

/-- The same for the items of a call of `Process`, one after the other. -/
def ItemsFit (P : Requests C) (calls : Callbacks C) : List Hash → Sync C → Prop
  | [], _ => True
  | h :: hashes, s => ItemFits P calls h s ∧
    ∀ b s', s.processItem calls h (P.content h) = .ok (.ok b, s') → ItemsFit P calls hashes s'

theorem process_spec (hP : P.Sound calls) (hq : Quiet P s)
    (hfit : ItemsFit P.toRequests calls hashes s) (committed : Bool) (i : ℕ) :
    Meets (process calls committed i (hashes.map fun h => (h, P.content h)) s)
      (fun p => Quiet P p.2) (· = .decode) := by
  induction hashes generalizing s committed i with
  | nil => exact hq
  | cons h hashes ih =>
    refine (processItem_spec hP hq hfit.1).returns.bind ?_
    rintro ⟨e | b, s₁⟩ ⟨hq₁, hs₁⟩
    · exact hq₁
    · exact ih hq₁ (hfit.2 b s₁ hs₁) ..

theorem Quiet.moved (hq : Quiet P s) (hreq : s'.requests = s.requests)
    (hbatch : s'.batch = s.batch ∧ s'.order = s.order ∨ s'.batch = .empty ∧ s'.order = [])
    (hknown : ∀ {h}, s.Known h → s'.Known h)
    (hdb : ∀ {h}, s'.database h = s.database h ∨
      (s.batch.get h).isSome ∧ s'.database h = s.batch.get h) : Quiet { P with asked := ∅ } s' := by
  obtain ⟨hi, hs⟩ := hq
  obtain ⟨database, batch, order, requests⟩ := s'
  dsimp only at hreq hbatch hdb
  subst hreq
  have hwanted : ∀ {h r}, s.requests.get h = some r →
      batch.get h = none ∧ database h = s.database h := by
    intro h r hr
    have hnone := (hi.wanted hr).1
    refine ⟨?_, hdb.resolve_right fun hb => ?_⟩
    · rcases hbatch with ⟨rfl, -⟩ | ⟨rfl, -⟩
      · exact hnone
      · rfl
    · rw [hnone] at hb
      cases hb.1
  refine ⟨⟨nofun, fun hh => (hi.held hh).imp_right hknown, hi.deps, hi.parents, hi.owed,
    fun {h r} hr => ?_, hi.data, fun {h d} hd => ?_, ?_, ?_, ?_, ?_, ?_,
    fun hcl {h} hh hnode c hc => ?_⟩, fun h r hr hd hb => ?_⟩
  · obtain ⟨hnone, hsame⟩ := hwanted hr
    refine ⟨hnone, (hi.wanted hr).2.1, fun h => (hi.wanted hr).2.2 ?_⟩
    rw [← hsame]
    exact h
  · rcases hdb with hsame | ⟨-, hsame⟩
    · exact hi.database (hsame ▸ hd)
    · exact hi.batch (hsame ▸ hd)
  · rcases hbatch with ⟨rfl, -⟩ | ⟨rfl, -⟩
    · exact hi.batch
    · nofun
  · rcases hbatch with ⟨rfl, rfl⟩ | ⟨rfl, rfl⟩
    · exact hi.order
    · exact ⟨nofun, nofun⟩
  · rcases hbatch with ⟨-, rfl⟩ | ⟨-, rfl⟩
    · exact hi.nodup
    · exact List.nodup_nil
  · rcases hbatch with ⟨-, rfl⟩ | ⟨-, rfl⟩
    · exact fun hh hraw c hc => (hi.done hh hraw c hc).imp_right hknown
    · nofun
  · rcases hbatch with ⟨-, rfl⟩ | ⟨-, rfl⟩
    · exact hi.placed
    · exact .nil
  · rcases hdb with hsame | ⟨hmem, -⟩
    · exact hknown (hi.closed hcl (hsame ▸ hh) hnode c hc)
    · exact hknown (hi.done (hi.order.2 hmem) hnode c hc).2
  · obtain ⟨hne, hkids⟩ := hs h r hr hd hb
    exact ⟨hne, fun c hc => (hkids c hc).imp_left hknown⟩

theorem Quiet.commitTo (hq : Quiet P s) (n : ℕ) :
    Quiet { P with asked := ∅ } (s.commitTo n) := by
  have hmoved : ∀ {h : Hash}, h ∈ s.order.take n → (s.batch.get h).isSome :=
    fun hh => hq.1.order.1 (List.mem_of_mem_take hh)
  have hdb : ∀ {h : Hash}, (s.commitTo n).database h =
      if h ∈ s.order.take n then s.batch.get h else s.database h := by
    intro h
    unfold Sync.commitTo
    by_cases hn : n < s.order.length
    · rw [if_pos hn]
    · rw [if_neg hn]
  refine hq.moved ?_ ?_ (fun {h} hk => ?_) fun {h} => ?_
  · unfold Sync.commitTo
    split_ifs <;> rfl
  · unfold Sync.commitTo
    split_ifs
    · exact .inl ⟨rfl, rfl⟩
    · exact .inr ⟨rfl, rfl⟩
  · by_cases hh : h ∈ s.order.take n
    · refine .inr ?_
      rw [hdb, if_pos hh]
      exact hmoved hh
    · rcases hk with hb | hd
      · -- the whole batch is written unless an entry fails
        have hlt : n < s.order.length := by
          by_contra hle
          rw [List.take_of_length_le (Nat.le_of_not_lt hle)] at hh
          exact hh (hq.1.order.2 hb)
        refine .inl ?_
        unfold Sync.commitTo
        rw [if_pos hlt]
        exact hb
      · refine .inr ?_
        rw [hdb, if_neg hh]
        exact hd
  · rw [hdb]
    split_ifs with hh
    · exact .inr ⟨hmoved hh, rfl⟩
    · exact .inl rfl

/-! ## Runs -/

/-- The states that are reached from a database with the entries `added`, by calls that fit
    the plan.  An entry is added from outside for itself or under a request with data. -/
inductive Reached (P : Requests C) (calls : Callbacks C) (database : Hash → Option Bytes) :
    List (Add C) → Sync C → Prop
  | newSync {root callback s} : (∀ {h d}, database h = some d → d = P.content h) →
    P.fits root false callback → newSync root database callback = .ok s →
    Reached P calls database [.subTrie root callback] s
  | add {added s p a s'} : Reached P calls database added s → p = .zero ∨ s.Processed p →
    s.Fits P a → s.add p a = .ok s' → Reached P calls database (a :: added) s'
  | process {added s out s'} {hashes : List Hash} : Reached P calls database added s →
    ItemsFit P calls hashes s →
    process calls false 0 (hashes.map fun h => (h, P.content h)) s = .ok (out, s') →
    Reached P calls database added s'
  | commit {added s} (n : ℕ) : Reached P calls database added s →
    Reached P calls database added (s.commitTo n)

/-- The entries that are added from outside. -/
def goals (added : List (Add C)) : Set Hash := {h | ∃ a ∈ added, ¬ a.Empty ∧ a.hash = h}

theorem Quiet.add {a : Add C} {added : List (Add C)}
    (hq : Quiet { P with asked := ∅, held := goals added } s) (hp : p = .zero ∨ s.Processed p)
    (ha : s.Fits P.toRequests a) (h : s.add p a = .ok s') :
    Quiet { P with asked := ∅, held := goals (a :: added) } s' := by
  obtain ⟨hi, hg, hsec⟩ := (add_spec hq.1 hp ha).result h
  refine ⟨{ hi with held := fun hh => ?_ }, hq.2.grows hq.1 hg⟩
  obtain ⟨b, hb, hne, rfl⟩ := hh
  rcases List.mem_cons.1 hb with rfl | hb
  · exact (hsec.resolve_left hne).symm.imp_left fun ⟨r, hr, _⟩ => hr ▸ rfl
  · exact hi.held ⟨b, hb, hne, rfl⟩

section
variable {calls : Callbacks C} {database : Hash → Option Bytes} {added : List (Add C)}

theorem Reached.quiet (hr : Reached P.toRequests calls database added s) (hP : P.Sound calls)
    (hclosed : P.closed → ∀ {h}, (database h).isSome → P.Node h → ∀ c ∈ P.next h,
      (database c).isSome) : Quiet { P with asked := ∅, held := goals added } s := by
  induction hr with
  | newSync hdb hfits h =>
    have hnew : Quiet { P with asked := ∅, held := goals (C := C) [] } { database } :=
      ⟨⟨nofun, fun ⟨_, ha, _⟩ => absurd ha List.not_mem_nil, nofun, nofun, nofun, nofun, nofun, hdb,
        nofun, ⟨nofun, nofun⟩, List.nodup_nil, nofun, .nil,
        fun hcl {h} hh hnode c hc => .inr (hclosed hcl hh hnode c hc)⟩, nofun⟩
    exact hnew.add (.inl rfl) (a := .subTrie _ _) hfits h
  | add _ hp ha h ih => exact ih.add hp ha h
  | process _ hfit h ih => exact (process_spec (hP.keep ..) ih hfit ..).result h
  | commit n _ ih => exact ih.commitTo n

/-- The tries that are added from outside fit. -/
theorem Reached.fits {P : Requests C} (hr : Reached P calls database added s) {root : Hash}
    {callback : Option C} (hmem : .subTrie root callback ∈ added) : P.fits root false callback := by
  induction hr with
  | newSync _ hfits _ =>
    cases List.mem_singleton.1 hmem
    exact hfits
  | add _ _ ha _ ih =>
    rcases List.mem_cons.1 hmem with rfl | hmem
    · exact ha
    · exact ih hmem
  | process _ _ _ ih | commit _ _ ih => exact ih hmem

end

end Sync

end GoEthereum.Trie
