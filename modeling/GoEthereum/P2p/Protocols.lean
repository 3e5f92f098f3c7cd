/-
  Numbers of sub-protocol messages (p2p/peer.go, `matchProtocols` and `getProto`).

  The capabilities of the remote side are sorted, and each one that matches a protocol takes
  the numbers behind those of the protocol before it; a higher version takes the place of a
  lower one.  What the loop has matched is a list of protocols in the order of their names,
  numbered one after another (`Layout`); the list depends on the common capabilities only.
-/
import GoEthereum.Lib.AssocMap
import GoEthereum.Lib.MinHeap
import Mathlib.Data.Prod.Lex

namespace GoEthereum.P2p

/-! ## Model -/

structure Cap (N : Type) where
  name : N
  version : ℕ
deriving DecidableEq

structure Protocol (N : Type) where
  name : N
  version : ℕ
  length : UInt64
deriving DecidableEq

structure ProtoRW (N : Type) where
  protocol : Protocol N
  offset : UInt64

def baseProtocolLength : UInt64 := 16

variable {N : Type}

/-- The capability of a protocol. -/
def Protocol.cap (p : Protocol N) : Cap N := ⟨p.name, p.version⟩

section Model

variable [LinearOrder N]

def capsByNameAndVersion (c : Cap N) : N ×ₗ ℕ := toLex (c.name, c.version)

/-- The variables of the loop in `matchProtocols`. -/
structure Matching (N : Type) where
  offset : UInt64
  result : AssocMap N (ProtoRW N)

/-- A round of the loop in `matchProtocols`. -/
def matchCap (protocols : List (Protocol N)) (m : Matching N) (c : Cap N) : Matching N :=
  match protocols.find? fun p => p.name = c.name ∧ p.version = c.version with
  | none => m
  | some p =>
    let offset := match m.result.get c.name with
      | some old => m.offset - old.protocol.length
      | none => m.offset
    ⟨offset + p.length, m.result.set c.name ⟨p, offset⟩⟩

def matchProtocols (protocols : List (Protocol N)) (caps : List (Cap N)) :
    AssocMap N (ProtoRW N) :=
  ((sortBy capsByNameAndVersion caps).foldl (matchCap protocols)
    ⟨baseProtocolLength, .empty⟩).result

end Model

/-- The message code is one of the protocol's. -/
def ProtoRW.holds (rw : ProtoRW N) (code : UInt64) : Bool :=
  code ≥ rw.offset && code < rw.offset + rw.protocol.length

/-- `getProto`, over the protocols in the order in which the loop sees them. -/
def getProto (running : List (ProtoRW N)) (code : UInt64) : Option (ProtoRW N) :=
  running.find? (·.holds code)

/-! ## Protocols one after another -/

/-- The number of message codes. -/
def span (l : List (Protocol N)) : ℕ := (l.map fun p => p.length.toNat).sum

/-- The protocols, numbered from `off` on. -/
def numbered (off : ℕ) : List (Protocol N) → List (ProtoRW N)
  | [] => []
  | p :: l => ⟨p, .ofNat off⟩ :: numbered (off + p.length.toNat) l

theorem numbered_append (off : ℕ) (l l' : List (Protocol N)) :
    numbered off (l ++ l') = numbered off l ++ numbered (off + span l) l' := by
  induction l generalizing off with
  | nil => rfl
  | cons p l ih => simp [numbered, ih, span, Nat.add_assoc]

theorem mem_of_mem_numbered {off : ℕ} {l : List (Protocol N)} {rw : ProtoRW N}
    (h : rw ∈ numbered off l) : rw.protocol ∈ l := by
  induction l generalizing off with
  | nil => cases h
  | cons p l ih =>
    rcases List.mem_cons.1 h with rfl | h
    · exact List.mem_cons_self ..
    · exact List.mem_cons_of_mem _ (ih h)

theorem exists_mem_numbered {off : ℕ} {l : List (Protocol N)} {p : Protocol N} (h : p ∈ l) :
    ∃ rw ∈ numbered off l, rw.protocol = p := by
  induction l generalizing off with
  | nil => cases h
  | cons q l ih =>
    rcases List.mem_cons.1 h with rfl | h
    · exact ⟨_, List.mem_cons_self .., rfl⟩
    · obtain ⟨rw, hrw, heq⟩ := ih h
      exact ⟨rw, List.mem_cons_of_mem _ hrw, heq⟩

theorem holds_iff {p : Protocol N} {off : ℕ} {code : UInt64}
    (h : off + p.length.toNat < 2 ^ 64) :
    (ProtoRW.mk p (.ofNat off)).holds code = true ↔
      off ≤ code.toNat ∧ code.toNat < off + p.length.toNat := by
  have hoff : (UInt64.ofNat off).toNat = off := Nat.mod_eq_of_lt (by omega)
  simp only [ProtoRW.holds, ge_iff_le, Bool.and_eq_true, decide_eq_true_eq,
    UInt64.le_iff_toNat_le, UInt64.lt_iff_toNat_lt, UInt64.toNat_add, hoff, Nat.mod_eq_of_lt h]

theorem numbered_holds {off : ℕ} {l : List (Protocol N)} (h : off + span l < 2 ^ 64)
    (code : UInt64) :
    ((∃ rw ∈ numbered off l, rw.holds code = true) ↔
      off ≤ code.toNat ∧ code.toNat < off + span l) ∧
    ∀ rw ∈ numbered off l, ∀ rw' ∈ numbered off l,
      rw.holds code = true → rw'.holds code = true → rw = rw' := by
  induction l generalizing off with
  | nil => simp [numbered, span]
  | cons p l ih =>
    have hspan : span (p :: l) = p.length.toNat + span l := rfl
    rw [hspan] at h ⊢
    obtain ⟨hrange, hunique⟩ := @ih (off + p.length.toNat) (by omega)
    have hp : (ProtoRW.mk p (.ofNat off)).holds code = true ↔ _ := holds_iff (by omega)
    have hrest : ∀ rw ∈ numbered (off + p.length.toNat) l, rw.holds code = true →
        off + p.length.toNat ≤ code.toNat := fun rw hrw hc => (hrange.1 ⟨rw, hrw, hc⟩).1
    constructor
    · simp only [numbered, List.exists_mem_cons_iff, hp, hrange]
      omega
    · simp only [numbered, List.mem_cons]
      rintro rw (rfl | hrw) rw' (rfl | hrw') hc hc'
      · rfl
      · have := hrest rw' hrw' hc'
        have := hp.1 hc
        omega
      · have := hrest rw hrw hc
        have := hp.1 hc'
        omega
      · exact hunique rw hrw rw' hrw' hc hc'

/-! ## What the loop has matched -/

variable [LinearOrder N]
  {protocols : List (Protocol N)} {p : Protocol N} {c : Cap N} {caps : List (Cap N)}

/-- The loop has matched the protocols `chosen`. -/
structure Layout (chosen : List (Protocol N)) (m : Matching N) : Prop where
  sorted : chosen.Pairwise fun p q => p.name < q.name
  offset : m.offset = .ofNat (baseProtocolLength.toNat + span chosen)
  get : ∀ n rw, m.result.get n = some rw ↔
    rw ∈ numbered baseProtocolLength.toNat chosen ∧ rw.protocol.name = n

/-- The protocols in front of `c`: a lower version of `c` is taken back. -/
theorem Layout.before {chosen : List (Protocol N)} {m : Matching N} (h : Layout chosen m)
    (hle : ∀ q ∈ chosen, q.name ≤ c.name) :
    ∃ before old, chosen = before ++ old ∧ (∀ q ∈ before, q.name < c.name) ∧
      (∀ q ∈ old, q.name = c.name) ∧
      (match m.result.get c.name with
        | some rw => m.offset - rw.protocol.length
        | none => m.offset) = .ofNat (baseProtocolLength.toNat + span before) := by
  cases hget : m.result.get c.name with
  | none =>
    refine ⟨chosen, [], (List.append_nil _).symm, fun q hq => ?_, by simp, h.offset⟩
    refine lt_of_le_of_ne (hle q hq) fun heq => ?_
    obtain ⟨rw, hrw, rfl⟩ : ∃ rw ∈ numbered baseProtocolLength.toNat chosen, rw.protocol = q :=
      exists_mem_numbered hq
    exact absurd ((h.get c.name rw).2 ⟨hrw, heq⟩) (by simp [hget])
  | some rw =>
    obtain ⟨hrw, hname⟩ := (h.get c.name rw).1 hget
    obtain ⟨before, after, rfl⟩ := List.append_of_mem (mem_of_mem_numbered hrw)
    obtain ⟨-, hafter, hbefore⟩ := List.pairwise_append.1 h.sorted
    obtain rfl : after = [] := by
      refine List.eq_nil_iff_forall_not_mem.2 fun q hq => ?_
      have hlt := (List.pairwise_cons.1 hafter).1 q hq
      rw [hname] at hlt
      exact absurd (hle q (by simp [hq])) (not_le.2 hlt)
    refine ⟨before, [rw.protocol], rfl, fun q hq => ?_, by simp [hname], ?_⟩
    · exact hname ▸ hbefore q hq _ (by simp)
    · rw [h.offset]
      have hspan : baseProtocolLength.toNat + span (before ++ [rw.protocol]) =
          baseProtocolLength.toNat + span before + rw.protocol.length.toNat := by
        simp [span, Nat.add_assoc]
      rw [hspan, UInt64.ofNat_add, UInt64.ofNat_toNat]
      exact UInt64.add_sub_cancel _ _

/-- The protocol of a capability. -/
def lookup (protocols : List (Protocol N)) (c : Cap N) : Option (Protocol N) :=
  protocols.find? fun p => p.name = c.name ∧ p.version = c.version

theorem cap_of_lookup (h : lookup protocols c = some p) : p.cap = c := by
  obtain ⟨hname, hversion⟩ : p.name = c.name ∧ p.version = c.version := by
    simpa using List.find?_some h
  cases c
  rw [Protocol.cap, hname, hversion]

/-- A round of the loop, on the list of protocols. -/
def choose (protocols chosen : List (Protocol N)) (c : Cap N) : List (Protocol N) :=
  match lookup protocols c with
  | none => chosen
  | some p => chosen.filter (·.name ≠ c.name) ++ [p]

/-- **A round keeps the layout.** -/
theorem Layout.matchCap {chosen : List (Protocol N)} {m : Matching N}
    (protocols : List (Protocol N)) (h : Layout chosen m) (hle : ∀ q ∈ chosen, q.name ≤ c.name) :
    Layout (choose protocols chosen c) (matchCap protocols m c) := by
  cases hp : lookup protocols c with
  | none =>
    have hsame : P2p.matchCap protocols m c = m := by
      rw [P2p.matchCap, ← lookup, hp]
    rwa [hsame, choose, hp]
  | some p =>
    obtain ⟨before, old, rfl, hbefore, hold, hoffset⟩ := h.before hle
    have hname : p.name = c.name := congrArg Cap.name (cap_of_lookup hp)
    have hfilter : (before ++ old).filter (·.name ≠ c.name) = before := by
      rw [List.filter_append, List.filter_eq_self.2 fun q hq => by simpa using (hbefore q hq).ne,
        List.filter_eq_nil_iff.2 fun q hq => by simpa using hold q hq, List.append_nil]
    have hmatch : P2p.matchCap protocols m c =
        ⟨.ofNat (baseProtocolLength.toNat + span before) + p.length, m.result.set c.name
          ⟨p, .ofNat (baseProtocolLength.toNat + span before)⟩⟩ := by
      rw [P2p.matchCap, ← lookup, hp]
      simp only [hoffset]
    simp only [choose, hp, hfilter, hmatch]
    refine ⟨?_, ?_, fun n rw => ?_⟩
    · refine List.pairwise_append.2 ⟨(List.pairwise_append.1 h.sorted).1, by simp, ?_⟩
      intro q hq q' hq'
      rw [List.mem_singleton.1 hq', hname]
      exact hbefore q hq
    · simp only [span, List.map_append, List.sum_append, List.map_singleton, List.sum_singleton,
        ← Nat.add_assoc, UInt64.ofNat_add, UInt64.ofNat_toNat]
    · rw [numbered_append, AssocMap.get_set]
      have hget := h.get n rw
      rw [numbered_append, List.mem_append] at hget
      simp only [numbered, List.mem_append, List.mem_singleton]
      split_ifs with hn
      · subst hn
        constructor
        · rintro ⟨⟩
          exact ⟨.inr rfl, hname⟩
        · rintro ⟨hrw | rfl, hn⟩
          · exact absurd hn (hbefore _ (mem_of_mem_numbered hrw)).ne
          · rfl
      · rw [hget]
        constructor
        · rintro ⟨hrw | hrw, rfl⟩
          · exact ⟨.inl hrw, rfl⟩
          · exact absurd (hold _ (mem_of_mem_numbered hrw)) hn
        · rintro ⟨hrw | rfl, rfl⟩
          · exact ⟨.inl hrw, rfl⟩
          · exact absurd hname hn

theorem Layout.foldl (protocols : List (Protocol N)) {chosen : List (Protocol N)}
    {m : Matching N} (h : Layout chosen m)
    (hcaps : caps.Pairwise fun c d => c.name ≤ d.name)
    (hle : ∀ q ∈ chosen, ∀ c ∈ caps, q.name ≤ c.name) :
    Layout (caps.foldl (choose protocols) chosen) (caps.foldl (P2p.matchCap protocols) m) := by
  induction caps generalizing chosen m with
  | nil => exact h
  | cons c caps ih =>
    obtain ⟨hc, hcaps⟩ := List.pairwise_cons.1 hcaps
    refine ih (h.matchCap protocols fun q hq => hle q hq c (by simp)) hcaps fun q hq d hd => ?_
    rw [choose] at hq
    split at hq
    · exact hle q hq d (by simp [hd])
    · rename_i p hp
      rcases List.mem_append.1 hq with hq | hq
      · exact hle q (List.mem_filter.1 hq).1 d (by simp [hd])
      · rw [List.mem_singleton.1 hq]
        exact (congrArg Cap.name (cap_of_lookup hp)).trans_le (hc d hd)

/-- The protocols that `matchProtocols` matches, in the order of their names. -/
def chosen (protocols : List (Protocol N)) (caps : List (Cap N)) : List (Protocol N) :=
  (sortBy capsByNameAndVersion caps).foldl (choose protocols) []

theorem name_le_of_key_le {c d : Cap N} (h : capsByNameAndVersion c ≤ capsByNameAndVersion d) :
    c.name ≤ d.name ∧ (c.name = d.name → c.version ≤ d.version) := by
  rcases Prod.Lex.toLex_le_toLex.1 h with h | ⟨h, hversion⟩
  · exact ⟨le_of_lt h, fun heq => absurd heq (ne_of_lt h)⟩
  · exact ⟨le_of_eq h, fun _ => hversion⟩

/-- **The result of `matchProtocols`.** -/
theorem layout_matchProtocols (protocols : List (Protocol N)) (caps : List (Cap N)) :
    (chosen protocols caps).Pairwise (fun p q => p.name < q.name) ∧
    ∀ n rw, (matchProtocols protocols caps).get n = some rw ↔
      rw ∈ numbered baseProtocolLength.toNat (chosen protocols caps) ∧ rw.protocol.name = n := by
  have hempty : Layout [] (⟨baseProtocolLength, .empty⟩ : Matching N) :=
    ⟨.nil, rfl, by simp [numbered]⟩
  have h := hempty.foldl protocols ((pairwise_sortBy capsByNameAndVersion caps).imp
    fun h => (name_le_of_key_le h).1) (by simp)
  exact ⟨h.sorted, h.get⟩

/-! ## The highest common version -/

/-- The protocol of the highest version among the capabilities of its name. -/
structure Best (protocols : List (Protocol N)) (caps : List (Cap N)) (p : Protocol N) : Prop where
  mem : p.cap ∈ caps
  lookup : lookup protocols p.cap = some p
  highest : ∀ c ∈ caps, c.name = p.name → (P2p.lookup protocols c).isSome → c.version ≤ p.version

theorem mem_foldl_choose
    (h : caps.Pairwise fun c d => capsByNameAndVersion c ≤ capsByNameAndVersion d)
    (p : Protocol N) : p ∈ caps.foldl (choose protocols) [] ↔ Best protocols caps p := by
  induction caps using List.reverseRecOn with
  | nil => exact iff_of_false (by simp) fun h => by simpa using h.mem
  | append_singleton caps c ih =>
    obtain ⟨hcaps, -, hlast⟩ := List.pairwise_append.1 h
    have hle : ∀ d ∈ caps ++ [c], d.name = c.name → d.version ≤ c.version := by
      intro d hd
      rcases List.mem_append.1 hd with hd | hd
      · exact (name_le_of_key_le (hlast d hd c (by simp))).2
      · rw [List.mem_singleton.1 hd]
        exact fun _ => le_rfl
    rw [List.foldl_append, List.foldl_cons, List.foldl_nil, choose]
    cases hq : P2p.lookup protocols c with
    | none =>
      simp only [ih hcaps]
      constructor
      · intro hb
        refine ⟨List.mem_append_left _ hb.mem, hb.lookup, fun d hd hname hsome => ?_⟩
        rcases List.mem_append.1 hd with hd | hd
        · exact hb.highest d hd hname hsome
        · rw [List.mem_singleton.1 hd, hq] at hsome
          cases hsome
      · intro hb
        refine ⟨?_, hb.lookup, fun d hd => hb.highest d (List.mem_append_left _ hd)⟩
        rcases List.mem_append.1 hb.mem with hmem | hmem
        · exact hmem
        · have hlookup := hb.lookup
          rw [List.mem_singleton.1 hmem, hq] at hlookup
          cases hlookup
    | some q =>
      have hcap := cap_of_lookup hq
      simp only [List.mem_append, List.mem_filter, List.mem_singleton, ih hcaps,
        decide_eq_true_eq]
      constructor
      · rintro (⟨hb, hne⟩ | rfl)
        · refine ⟨List.mem_append_left _ hb.mem, hb.lookup, fun d hd hname hsome => ?_⟩
          rcases List.mem_append.1 hd with hd | hd
          · exact hb.highest d hd hname hsome
          · rw [List.mem_singleton.1 hd] at hname
            exact absurd hname.symm hne
        · refine ⟨by simp [hcap], hcap ▸ hq, fun d hd hname _ => ?_⟩
          have := hle d hd (hname.trans (congrArg Cap.name hcap))
          exact this.trans_eq (congrArg Cap.version hcap).symm
      · intro hb
        by_cases hname : p.name = c.name
        · -- the last one of its name is the highest
          refine .inr ?_
          have hge := hb.highest c (by simp) hname.symm (by rw [hq]; rfl)
          have hpc : p.cap = c := by
            have := le_antisymm (hle p.cap hb.mem hname) hge
            cases c
            simp only [Protocol.cap] at this hname ⊢
            rw [this, hname]
          have hlookup := hb.lookup
          rw [hpc, hq] at hlookup
          exact (Option.some.inj hlookup).symm
        · refine .inl ⟨⟨?_, hb.lookup, fun d hd => hb.highest d (List.mem_append_left _ hd)⟩, hname⟩
          rcases List.mem_append.1 hb.mem with hmem | hmem
          · exact hmem
          · exact absurd (congrArg Cap.name (List.mem_singleton.1 hmem)) hname

theorem mem_chosen (protocols : List (Protocol N)) (caps : List (Cap N)) (p : Protocol N) :
    p ∈ chosen protocols caps ↔ Best protocols caps p := by
  rw [chosen, mem_foldl_choose (pairwise_sortBy _ _)]
  have hmem : ∀ c, c ∈ sortBy capsByNameAndVersion caps ↔ c ∈ caps := fun c =>
    (perm_sortBy capsByNameAndVersion caps).mem_iff
  constructor
  · rintro ⟨h₁, h₂, h₃⟩
    exact ⟨(hmem _).1 h₁, h₂, fun c hc => h₃ c ((hmem c).2 hc)⟩
  · rintro ⟨h₁, h₂, h₃⟩
    exact ⟨(hmem _).2 h₁, h₂, fun c hc => h₃ c ((hmem c).1 hc)⟩

theorem lookup_isSome :
    (lookup protocols c).isSome ↔ c ∈ protocols.map Protocol.cap := by
  rw [lookup, List.find?_isSome, List.mem_map]
  constructor
  · rintro ⟨p, hp, heq⟩
    refine ⟨p, hp, ?_⟩
    cases c
    simpa [Protocol.cap] using heq
  · rintro ⟨p, hp, rfl⟩
    exact ⟨p, hp, by simp [Protocol.cap]⟩

/-- The sides agree on the length of every protocol that both have. -/
def Agree (protocols protocols' : List (Protocol N)) : Prop :=
  ∀ p ∈ protocols, ∀ q ∈ protocols', p.cap = q.cap → p.length = q.length

theorem Best.other {protocols protocols' : List (Protocol N)} {caps caps' : List (Cap N)}
    (hagree : Agree protocols protocols') (hcaps : caps.Perm (protocols.map Protocol.cap))
    (hcaps' : caps'.Perm (protocols'.map Protocol.cap)) (h : Best protocols caps' p) :
    Best protocols' caps p := by
  have hp := List.mem_of_find?_eq_some h.lookup
  obtain ⟨q, hq⟩ := Option.isSome_iff_exists.1 (lookup_isSome.2 (hcaps'.mem_iff.1 h.mem))
  have hcap := cap_of_lookup hq
  have hqp : q = p := by
    have hlength := hagree p hp q (List.mem_of_find?_eq_some hq) hcap.symm
    obtain ⟨n, v, l⟩ := q
    obtain ⟨n', v', l'⟩ := p
    simp only [Protocol.cap, Cap.mk.injEq] at hcap hlength
    simp only [Protocol.mk.injEq]
    exact ⟨hcap.1, hcap.2, hlength.symm⟩
  refine ⟨hcaps.mem_iff.2 (List.mem_map_of_mem hp), hqp ▸ hq, fun c hc hname hsome => ?_⟩
  exact h.highest c (hcaps'.mem_iff.2 (lookup_isSome.1 hsome)) hname
    (lookup_isSome.2 (hcaps.mem_iff.1 hc))

theorem chosen_eq {protocols protocols' : List (Protocol N)} {caps caps' : List (Cap N)}
    (hagree : Agree protocols protocols') (hcaps : caps.Perm (protocols.map Protocol.cap))
    (hcaps' : caps'.Perm (protocols'.map Protocol.cap)) :
    chosen protocols caps' = chosen protocols' caps := by
  have hsorted := (layout_matchProtocols protocols caps').1
  have hsorted' := (layout_matchProtocols protocols' caps).1
  have hagree' : Agree protocols' protocols := fun p hp q hq h => (hagree q hq p hp h.symm).symm
  refine List.Perm.eq_of_pairwise (fun p q _ _ hpq hqp => absurd hpq hqp.not_gt)
    hsorted hsorted' ?_
  refine (List.perm_ext_iff_of_nodup ?_ ?_).2 fun p => ?_
  · exact hsorted.imp fun h heq => absurd (congrArg Protocol.name heq) h.ne
  · exact hsorted'.imp fun h heq => absurd (congrArg Protocol.name heq) h.ne
  · rw [mem_chosen, mem_chosen]
    exact ⟨Best.other hagree hcaps hcaps', Best.other hagree' hcaps' hcaps⟩

theorem matchProtocols_eq_none {n : N} (h : (matchProtocols protocols caps).get n = none)
    (hp : p ∈ chosen protocols caps) : p.name ≠ n := by
  rintro rfl
  obtain ⟨rw, hrw, rfl⟩ : ∃ rw ∈ numbered baseProtocolLength.toNat (chosen protocols caps),
      rw.protocol = p := exists_mem_numbered hp
  rw [((layout_matchProtocols protocols caps).2 _ rw).2 ⟨hrw, rfl⟩] at h
  cases h

theorem exists_best (hc : c ∈ caps) (hsome : (lookup protocols c).isSome) :
    ∃ p ∈ chosen protocols caps, p.name = c.name := by
  obtain ⟨d, hd, hmax⟩ := Finset.exists_max_image
    (caps.toFinset.filter fun d => d.name = c.name ∧ (lookup protocols d).isSome) Cap.version
    ⟨c, by simp [hc, hsome]⟩
  simp only [Finset.mem_filter, List.mem_toFinset] at hd hmax
  obtain ⟨hd, hname, hsome⟩ := hd
  obtain ⟨p, hp⟩ := Option.isSome_iff_exists.1 hsome
  have hcap := cap_of_lookup hp
  have hpname : p.name = d.name := congrArg Cap.name hcap
  refine ⟨p, (mem_chosen _ _ _).2 ⟨hcap ▸ hd, hcap ▸ hp, fun e he hen hes => ?_⟩,
    hpname.trans hname⟩
  exact (hmax e ⟨he, hen.trans (hpname.trans hname), hes⟩).trans_eq
    (congrArg Cap.version hcap).symm

omit [LinearOrder N] in
theorem getProto_eq_some {running : List (ProtoRW N)} {code : UInt64} {rw : ProtoRW N}
    (h : getProto running code = some rw) : rw ∈ running ∧ rw.holds code = true := by
  rw [getProto] at h
  exact ⟨List.mem_of_find?_eq_some h, by simpa using List.find?_some h⟩

/-- **Both ends number the messages alike.**  With lists of protocols that agree on the lengths, and
    capabilities in any order, the two ends have the same protocols with the same offsets: for each
    common name the highest common version.  For any capabilities, the protocols are numbered one
    after another from `baseProtocolLength` on; if the numbers do not wrap around, each code from
    there to the end is one protocol's, which `getProto` finds in any order. -/
theorem message_numbers :
    (∀ (A B : List (Protocol N)) (capsA capsB : List (Cap N)), Agree A B →
      capsA.Perm (A.map Protocol.cap) → capsB.Perm (B.map Protocol.cap) → ∀ n,
        (matchProtocols A capsB).get n = (matchProtocols B capsA).get n ∧
        (∀ rw, (matchProtocols A capsB).get n = some rw →
          rw.protocol.name = n ∧ rw.protocol ∈ A ∧ rw.protocol ∈ B ∧
          ∀ p ∈ A, p.name = n → p.cap ∈ B.map Protocol.cap →
            p.version ≤ rw.protocol.version) ∧
        ((matchProtocols A capsB).get n = none →
          ∀ p ∈ A, p.name = n → p.cap ∉ B.map Protocol.cap)) ∧
    ∀ (protocols : List (Protocol N)) (caps : List (Cap N)),
      (chosen protocols caps).Pairwise (fun p q => p.name < q.name) ∧
      (∀ n rw, (matchProtocols protocols caps).get n = some rw ↔
        rw ∈ numbered baseProtocolLength.toNat (chosen protocols caps) ∧ rw.protocol.name = n) ∧
      (baseProtocolLength.toNat + span (chosen protocols caps) < 2 ^ 64 →
        ∀ running : List (ProtoRW N),
          (∀ rw, rw ∈ running ↔ ∃ n, (matchProtocols protocols caps).get n = some rw) →
        ∀ code : UInt64,
          ((∃ rw ∈ running, rw.holds code = true) ↔ baseProtocolLength ≤ code ∧
            code.toNat < baseProtocolLength.toNat + span (chosen protocols caps)) ∧
          (∀ rw ∈ running, ∀ rw' ∈ running,
            rw.holds code = true → rw'.holds code = true → rw = rw') ∧
          ∀ rw, getProto running code = some rw ↔ rw ∈ running ∧ rw.holds code = true) := by
  refine ⟨fun A B capsA capsB hagree hcapsA hcapsB n =>
      ⟨?_, fun rw hrw => ?_, fun hnone p hp => ?_⟩,
    fun protocols caps => ⟨(layout_matchProtocols protocols caps).1,
      (layout_matchProtocols protocols caps).2, fun hspan running hrunning code => ?_⟩⟩
  · refine Option.ext fun rw => ?_
    rw [(layout_matchProtocols A capsB).2, (layout_matchProtocols B capsA).2,
      chosen_eq hagree hcapsA hcapsB]
  · obtain ⟨hmem, hname⟩ := ((layout_matchProtocols A capsB).2 n rw).1 hrw
    have hbest := (mem_chosen A capsB _).1 (mem_of_mem_numbered hmem)
    refine ⟨hname, List.mem_of_find?_eq_some hbest.lookup,
      List.mem_of_find?_eq_some (hbest.other hagree hcapsA hcapsB).lookup, fun p hp hn hcap => ?_⟩
    exact hbest.highest p.cap (hcapsB.mem_iff.2 hcap) (hn.trans hname.symm)
      (lookup_isSome.2 (List.mem_map_of_mem hp))
  · intro hn hcap
    obtain ⟨q, hq, hname⟩ := exists_best (hcapsB.mem_iff.2 hcap)
      (lookup_isSome.2 (List.mem_map_of_mem hp))
    exact matchProtocols_eq_none hnone hq (hname.trans hn)
  · obtain ⟨hrange, hunique⟩ := numbered_holds hspan code
    have hmem : ∀ rw, rw ∈ running ↔
        rw ∈ numbered baseProtocolLength.toNat (chosen protocols caps) := by
      intro rw
      simp only [hrunning, (layout_matchProtocols protocols caps).2]
      simp
    simp only [hmem]
    refine ⟨?_, hunique, fun rw => ⟨fun h => ?_, fun h => ?_⟩⟩
    · rw [hrange, UInt64.le_iff_toNat_le]
    · obtain ⟨hrw, hholds⟩ := getProto_eq_some h
      exact ⟨(hmem rw).1 hrw, hholds⟩
    · obtain ⟨rw', hrw'⟩ : ∃ rw', getProto running code = some rw' := by
        rw [← Option.isSome_iff_exists, getProto, List.find?_isSome]
        exact ⟨rw, (hmem rw).2 h.1, h.2⟩
      obtain ⟨hmem', hholds'⟩ := getProto_eq_some hrw'
      rw [hrw', hunique rw' ((hmem rw').1 hmem') rw h.1 hholds' h.2]

/-- Two versions of one protocol, and another one. -/
def ours : List (Protocol ℕ) := [⟨0, 1, 5⟩, ⟨0, 2, 6⟩, ⟨1, 1, 3⟩]

/-- The other one, and the higher version. -/
def theirs : List (Protocol ℕ) := [⟨1, 1, 3⟩, ⟨0, 2, 6⟩]

theorem message_numbers_two : (matchProtocols ours (theirs.map Protocol.cap)).get 1 =
    (matchProtocols theirs (ours.map Protocol.cap)).get 1 :=
  (message_numbers.1 ours theirs _ _ (by unfold Agree; decide) (.refl _) (.refl _) 1).1

/-- Three protocols with more than `2 ^ 64` codes. -/
def huge : List (Protocol ℕ) :=
  [⟨0, 1, 0x8000000000000000⟩, ⟨1, 1, 0x8000000000000000⟩, ⟨2, 1, 100⟩]

/-- The third one has codes of the first. -/
theorem message_numbers_wrap : ∃ rw rw',
    (matchProtocols huge (huge.map Protocol.cap)).get 0 = some rw ∧
    (matchProtocols huge (huge.map Protocol.cap)).get 2 = some rw' ∧
    rw.holds 20 = true ∧ rw'.holds 20 = true :=
  ⟨⟨⟨0, 1, 0x8000000000000000⟩, 16⟩, ⟨⟨2, 1, 100⟩, 16⟩, rfl, rfl, by decide, by decide⟩

end GoEthereum.P2p
