/-
  Add, Remove and Swap of pots (swarm/pot/pot.go) as operations of a set.

  Each of them goes down to the one sub-pot whose proximity order is that of the key, and so does
  at most one thing to the elements: the one with the key gives way to another or to none
  (`Becomes`).  `WF.step` is one level of the way back up.  `Swap` compares values with `==`,
  which panics for two byte slices.
-/
import GoEthereum.Lib.AssocMap
import GoEthereum.Swarm.Pot

namespace GoEthereum.Swarm.Pot

variable {V : Type} [BytesAddress V]

/-! ## Model -/

/-- Values as Go compares them: `==` panics for two values of one type that has no comparison. -/
class GoEq (V : Type) where
  panics : V → V → Bool

/-- Byte slices have no comparison. -/
instance : GoEq Key := ⟨fun _ _ => true⟩

/-- A pot with one element. -/
def leaf (val : V) (po : ℕ) : Pot V := ⟨some val, [], 1, po⟩

mutual

/-- `add` on a pot that is not `nil`. -/
def add : Pot V → V → Pot V × ℕ × Bool
  | ⟨none, bins, size, po⟩, val => (⟨some val, bins, size + 1, po⟩, 0, false)
  | ⟨some pin, bins, size, po⟩, val =>
    let (p, found) := pof (some pin) val po
    if found then (⟨some val, bins, size, po⟩, p, true)
    else
      let (bins, found) := addBins bins p val
      (⟨some pin, bins, if found then size else size + 1, po⟩, p, found)

/-- The loop of `add` over the sub-pots. -/
def addBins : List (Pot V) → ℕ → V → List (Pot V) × Bool
  | [], po, val => ([leaf val po], false)
  | n :: bins, po, val =>
    if n.po = po then
      let (p, _, found) := add n val
      (p :: bins, found)
    else if n.po > po then (leaf val po :: n :: bins, false)
    else
      let (bins, found) := addBins bins po val
      (n :: bins, found)

end

/-- The last sub-pot takes the place of the pin.  Without a sub-pot, the index panics. -/
def promote (bins : List (Pot V)) (size : ℤ) (po : ℕ) : Option (Pot V) :=
  bins.getLast?.map fun last => ⟨last.pin, bins.dropLast ++ last.bins, size, po⟩

mutual

/-- `remove` on a pot that is not `nil`; `none` is a panic. -/
def remove : Pot V → V → Option (Pot V × ℕ × Bool)
  | ⟨pin, bins, size, po⟩, val =>
    let (p, found) := pof pin val po
    if found then
      if size - 1 = 0 then some (⟨none, [], 0, 0⟩, p, true)
      else (promote bins (size - 1) po).map fun r => (r, po, true)
    else
      (removeBins bins p val).map fun (bins, p, found) =>
        (⟨pin, bins, if found then size - 1 else size, po⟩, p, found)

/-- The loop of `remove` over the sub-pots. -/
def removeBins : List (Pot V) → ℕ → V → Option (List (Pot V) × ℕ × Bool)
  | [], po, _ => some ([], po, false)
  | n :: bins, po, val =>
    if n.po = po then
      (remove n val).map fun (p, po, found) =>
        (if p.pin.isSome then p :: bins else bins, po, found)
    else if n.po > po then some (n :: bins, po, false)
    else (removeBins bins po val).map fun (bins, po, found) => (n :: bins, po, found)

end

/-- `Swap` of a key that is not there, before the sub-pots with a greater proximity order. -/
def swapNew (k : V) (f : Option V → Option V) (po : ℕ) (bins : List (Pot V)) :
    Option (List (Pot V) × ℤ × ℕ × Bool × Bool) :=
  match f none with
  | none => some (bins, 0, po, false, false)
  | some val =>
    if (pof (some val) k po).2 then some (leaf val po :: bins, 1, po, false, true) else none

/-- The result of `Swap` on a sub-pot takes its place, before the others. -/
def swapAt (n : Pot V) (bins : List (Pot V)) :
    Option (Pot V) × ℕ × Bool × Bool → Option (List (Pot V) × ℤ × ℕ × Bool × Bool)
  | (p, po, found, change) =>
    if change = false then some (n :: bins, 0, po, found, false)
    else
      p.map fun p =>
        if p.size = 0 then (bins, -1, po, found, true)
        else (p :: bins, p.size - n.size, po, found, true)

mutual

/-- `Swap` on a pot that is not `nil`; the outer `none` is a panic, the inner one is `nil`. -/
def swap [DecidableEq V] [GoEq V] (k : V) (f : Option V → Option V) :
    Pot V → Option (Option (Pot V) × ℕ × Bool × Bool)
  | ⟨none, _, _, po⟩ =>
    match f none with
    | none => some (none, 0, false, false)
    | some val => some (some (leaf val po), 0, false, true)
  | ⟨some pin, bins, size, po⟩ =>
    let (p, found) := pof (some k) pin po
    if found then
      match f (some pin) with
      | none =>
        if size - 1 = 0 then some (some ⟨none, [], 0, po⟩, p, true, true)
        else (promote bins (size - 1) po).map fun r => (some r, p, true, true)
      | some val =>
        if GoEq.panics val pin then none
        else if val = pin then some (some ⟨some pin, bins, size, po⟩, p, true, false)
        else some (some ⟨some val, bins, size, po⟩, p, true, true)
    else
      (swapBins k f p bins).map fun (bins, more, p, found, change) =>
        (some ⟨some pin, bins, size + more, po⟩, p, found, change)

/-- What `Swap` does to the sub-pots, with the difference of the sizes. -/
def swapBins [DecidableEq V] [GoEq V] (k : V) (f : Option V → Option V) (po : ℕ) :
    List (Pot V) → Option (List (Pot V) × ℤ × ℕ × Bool × Bool)
  | [] => swapNew k f po []
  | n :: bins =>
    if n.po = po then (swap k f n).bind (swapAt n bins)
    else if n.po > po then swapNew k f po (n :: bins)
    else
      (swapBins k f po bins).map fun (bins, rest) => (n :: bins, rest)

end

/-! ## One level -/

/-- The sub-pots before, at and after a proximity order. -/
structure Splits (p : ℕ) (bins pre : List (Pot V)) (o : Option (Pot V)) (post : List (Pot V)) :
    Prop where
  eq : bins = pre ++ o.toList ++ post
  pre_lt : ∀ n ∈ pre, n.po < p
  at_eq : ∀ n ∈ o, n.po = p
  lt_post : ∀ n ∈ post, p < n.po

omit [BytesAddress V] in
theorem exists_splits (p : ℕ) {bins : List (Pot V)}
    (h : bins.Pairwise fun n n' => n.po < n'.po) : ∃ pre o post, Splits p bins pre o post := by
  induction bins with
  | nil => exact ⟨[], none, [], rfl, by simp, by simp, by simp⟩
  | cons n bins ih =>
    obtain ⟨hn, hbins⟩ := List.pairwise_cons.mp h
    rcases Nat.lt_trichotomy n.po p with hlt | heq | hgt
    · obtain ⟨pre, o, post, hs⟩ := ih hbins
      refine ⟨n :: pre, o, post, by rw [hs.eq]; rfl, ?_, hs.at_eq, hs.lt_post⟩
      simpa [hlt] using hs.pre_lt
    · exact ⟨[], some n, bins, rfl, by simp, by simpa using heq, fun m hm => heq ▸ hn m hm⟩
    · refine ⟨[], none, n :: bins, rfl, by simp, by simp, ?_⟩
      simpa [hgt] using fun m hm => hgt.trans (hn m hm)

omit [BytesAddress V] in
/-- A loop that looks for the proximity order: it is there, or the end or a greater one comes
    first, or the loop goes on. -/
@[elab_as_elim]
theorem Splits.search {p : ℕ} {bins pre post : List (Pot V)} {o : Option (Pot V)}
    {P : List (Pot V) → List (Pot V) → Prop} (hs : Splits p bins pre o post)
    (found : ∀ n, o = some n → n.po = p → P [] (n :: post))
    (last : o = none → post = [] → P [] [])
    (greater : ∀ n rest, o = none → post = n :: rest → p < n.po → P [] (n :: rest))
    (next : ∀ n pre bins, n.po < p → P pre bins → P (n :: pre) (n :: bins)) : P pre bins := by
  obtain ⟨rfl, hpre, hat, hpost⟩ := hs
  induction pre with
  | nil =>
    cases o with
    | some n => exact found n rfl (hat n rfl)
    | none =>
      cases post with
      | nil => exact last rfl rfl
      | cons n post => exact greater n post rfl rfl (hpost n List.mem_cons_self)
  | cons n pre ih =>
    exact next n _ _ (hpre n List.mem_cons_self) (ih fun m hm => hpre m (List.mem_cons_of_mem n hm))

/-- What an operation does for a key: its element becomes `r`. -/
structure Becomes (t p : Pot V) (k : Key) (r : Option V) (found : Bool) : Prop where
  ok : p.Ok
  po : p.po = t.po ∨ ¬ p.pin.isSome = true ∧ p.po = 0
  mem : ∀ e, e ∈ p.elems ↔ (e ∈ t.elems ∧ address e ≠ k) ∨ r = some e
  found_iff : found = true ↔ ∃ e ∈ t.elems, address e = k
  length : p.elems.length + found.toNat = t.elems.length + r.isSome.toNat

theorem Ok.isSome_iff {t : Pot V} (h : t.Ok) : t.pin.isSome = true ↔ t.WF := by
  cases h with
  | empty po => exact ⟨by simp, fun h => by cases h⟩
  | wf h =>
    obtain ⟨v, hv, -⟩ := h.exists_pin
    simp [h, hv]

theorem Ok.elems_eq_nil {t : Pot V} (h : t.Ok) (hpin : ¬ t.pin.isSome = true) : t.elems = [] := by
  cases h with
  | empty po => simp
  | wf h => exact absurd ((Ok.wf h).isSome_iff.mpr h) hpin

theorem Becomes.isSome_pin {t p : Pot V} {k : Key} {val : V} {found : Bool}
    (h : Becomes t p k (some val) found) : p.pin.isSome = true := by
  by_contra hpin
  have hmem := (h.mem val).mpr (.inr rfl)
  simp [h.ok.elems_eq_nil hpin] at hmem

section

variable {v : V} {bins pre post : List (Pot V)} {size : ℤ} {po p : ℕ} {o q : Option (Pot V)}
  {k : Key} {r : Option V} {found : Bool}

section
variable (h : WF ⟨some v, bins, size, po⟩) (hk : (address v).prox k = p) (hp : p < maxkeylen)
include h hk hp

/-- The elements with the key are in the sub-pot at its proximity order. -/
theorem WF.mem_at {e : V} (hs : Splits p bins pre o post) (he : address e = k) :
    e ∈ elems ⟨some v, bins, size, po⟩ ↔ e ∈ elemsBins o.toList := by
  obtain ⟨rfl, hpre, hat, hpost⟩ := hs
  have hother : ∀ n ∈ pre ++ o.toList ++ post, n.po ≠ p → e ∉ n.elems := by
    rintro n hn hne hmem
    rw [← he, h.toBins.prox n hn e hmem] at hk
    exact hne hk
  simp only [elems_mk, elemsBins_append, List.mem_append, Option.toList_some, List.mem_singleton]
  constructor
  · rintro (rfl | (hmem | hmem) | hmem)
    · exact absurd he (Key.ne_of_prox hk hp)
    · obtain ⟨n, hn, hmem⟩ := mem_elemsBins.mp hmem
      exact absurd hmem (hother n (by simp [hn]) (hpre n hn).ne)
    · exact hmem
    · obtain ⟨n, hn, hmem⟩ := mem_elemsBins.mp hmem
      exact absurd hmem (hother n (by simp [hn]) (hpost n hn).ne')
  · exact fun hmem => .inr (.inl (.inr hmem))

/-- One level: the sub-pot at the proximity order of the key changes. -/
theorem WF.step (hs : Splits p bins pre o post) (hr : ∀ e ∈ r, address e = k)
    (hq : ∀ n ∈ q, n.WF ∧ n.po = p)
    (hmem : ∀ e, e ∈ elemsBins q.toList ↔
      (e ∈ elemsBins o.toList ∧ address e ≠ k) ∨ r = some e)
    (hfound : found = true ↔ ∃ e ∈ elemsBins o.toList, address e = k)
    (hlen : (elemsBins q.toList).length + found.toNat =
      (elemsBins o.toList).length + r.isSome.toNat) :
    Becomes ⟨some v, bins, size, po⟩
      ⟨some v, pre ++ q.toList ++ post, size + r.isSome.toNat - found.toNat, po⟩ k r found := by
  have hkey := fun e he => h.mem_at (e := e) hk hp hs he
  obtain ⟨rfl, hpre, hat, hpost⟩ := hs
  have hbins := h.toBins
  have hmid : Bins v q.toList := by
    refine ⟨⟨by cases q <;> simp, fun n hn => ?_, fun n hn e he => ?_⟩,
      fun n hn => (hq n (Option.mem_toList.mp hn)).1⟩
    · rw [(hq n (Option.mem_toList.mp hn)).2]
      exact hp
    · rw [(hq n (Option.mem_toList.mp hn)).2]
      rcases (hmem e).mp (mem_elemsBins.mpr ⟨n, hn, he⟩) with ⟨ho, -⟩ | hre
      · obtain ⟨n, hn, he⟩ := mem_elemsBins.mp ho
        rw [hbins.prox n (by simp [hn]) e he, hat n (Option.mem_toList.mp hn)]
      · rw [hr e hre, hk]
  have hnew : Bins v (pre ++ q.toList ++ post) := by
    refine ((hbins.sublist (by simp)).append hmid ?_).append
      (hbins.sublist (List.sublist_append_right _ _)) ?_
    · intro n hn n' hn'
      rw [(hq n' (Option.mem_toList.mp hn')).2]
      exact hpre n hn
    · intro n hn n' hn'
      rcases List.mem_append.mp hn with hn | hn
      · exact (hpre n hn).trans (hpost n' hn')
      · rw [(hq n (Option.mem_toList.mp hn)).2]
        exact hpost n' hn'
  have hwf : WF ⟨some v, pre ++ q.toList ++ post, size + r.isSome.toNat - found.toNat, po⟩ := by
    refine ⟨hnew.wf, hnew.toHangs, ?_⟩
    cases h with
    | mk _ _ hsize =>
      simp only [elemsBins_append, List.length_append] at hsize ⊢
      omega
  have hs' : Splits p (pre ++ q.toList ++ post) pre q post :=
    ⟨rfl, hpre, fun n hn => (hq n hn).2, hpost⟩
  refine ⟨.wf hwf, .inl rfl, fun e => ?_, ?_, ?_⟩
  · by_cases he : address e = k
    · rw [hwf.mem_at hk hp hs' he, hmem e]
      simp [he]
    · have hne : r ≠ some e := fun h => he (hr e h)
      simp [hmem e, he, hne]
  · rw [hfound]
    exact exists_congr fun e => and_congr_left fun he => (hkey e he).symm
  · simp only [elems_mk, elemsBins_append, List.length_append, Option.toList_some,
      List.length_singleton]
    omega

theorem WF.step_none (hs : Splits p bins pre none post) (hr : ∀ e ∈ r, address e = k) :
    Becomes ⟨some v, bins, size, po⟩ ⟨some v, pre ++ (r.map fun e => leaf e p).toList ++ post,
      size + r.isSome.toNat, po⟩ k r false := by
  have hstep : Becomes ⟨some v, bins, size, po⟩ ⟨some v, pre ++ (r.map fun e => leaf e p).toList ++
      post, size + r.isSome.toNat - false.toNat, po⟩ k r false :=
    h.step hk hp hs hr ?_ ?_ (by simp) ?_
  · simpa using hstep
  · intro n hn
    obtain ⟨e, -, rfl⟩ := Option.mem_map.mp hn
    exact ⟨⟨by simp, ⟨.nil, by simp, by simp⟩, by simp⟩, rfl⟩
  · intro e
    cases r <;> simp [leaf, eq_comm]
  · cases r <;> simp [leaf]

/-- The sub-pot with the proximity order of the key changes, and goes if it is empty. -/
theorem WF.step_some {n n' : Pot V} (hs : Splits p bins pre (some n) post)
    (hr : ∀ e ∈ r, address e = k) (hn : Becomes n n' k r found) :
    Becomes ⟨some v, bins, size, po⟩ ⟨some v, pre ++ (if n'.pin.isSome then [n'] else []) ++ post,
      size + r.isSome.toNat - found.toNat, po⟩ k r found := by
  have hq : (if n'.pin.isSome then [n'] else []) =
      (if n'.pin.isSome then some n' else none).toList := by
    split_ifs <;> rfl
  have helems : elemsBins (if n'.pin.isSome then [n'] else []) = n'.elems := by
    split_ifs with hpin
    · simp
    · simp [hn.ok.elems_eq_nil hpin]
  rw [hq] at helems ⊢
  refine h.step hk hp hs hr ?_ ?_ ?_ ?_
  · intro m hm
    split_ifs at hm with hpin
    · obtain rfl := Option.some.inj hm
      refine ⟨hn.ok.isSome_iff.mp hpin, Eq.trans ?_ (hs.at_eq n rfl)⟩
      exact hn.po.resolve_right fun hnot => hnot.1 hpin
    · cases hm
  · simpa [helems] using hn.mem
  · simpa using hn.found_iff
  · simpa [helems] using hn.length

theorem WF.po_le {n : Pot V} {w : V} (hs : Splits p bins pre (some n) post) (hw : n.pin = some w) :
    n.WF ∧ n.po ≤ (address w).prox k := by
  cases h with
  | mk hbins hangs hsize =>
    have hn : n ∈ bins := by simp [hs.eq]
    refine ⟨hbins n hn, ?_⟩
    obtain ⟨w', hw', hmem⟩ := (hbins n hn).exists_pin
    obtain rfl := Option.some.inj (hw.symm.trans hw')
    have hprox := hangs.prox n hn w hmem
    rw [hs.at_eq n rfl] at hprox ⊢
    exact (Key.lt_prox hp hprox hk).le

end

theorem WF.replace_pin {w : V} (h : WF ⟨some v, bins, size, po⟩) (hw : address w = address v) :
    Becomes ⟨some v, bins, size, po⟩ ⟨some w, bins, size, po⟩ (address v) (some w) true := by
  cases h with
  | mk hbins hangs hsize =>
    refine ⟨.wf ⟨hbins, hangs.congr hw, hsize⟩, .inl rfl, ?_, by simp, by simp⟩
    intro e
    have hne := fun he => (hangs.address_ne (e := e) he).symm
    simp only [elems_mk, Option.toList_some, List.singleton_append, List.mem_cons,
      Option.some.injEq]
    constructor
    · rintro (rfl | he)
      · exact .inr rfl
      · exact .inl ⟨.inr he, hne he⟩
    · rintro (⟨rfl | he, hne⟩ | rfl)
      · exact absurd rfl hne
      · exact .inr he
      · exact .inl rfl

theorem WF.bins_eq_nil (h : WF ⟨some v, bins, size, po⟩) (hsize : size - 1 = 0) : bins = [] := by
  cases h with
  | mk hbins hangs hlen =>
    cases bins with
    | nil => rfl
    | cons n bins =>
      have hpos := List.length_pos_iff.mpr (hbins n List.mem_cons_self).elems_ne_nil
      simp only [elemsBins_cons, List.length_append] at hlen
      omega

theorem WF.drop_pin {po' : ℕ} (h : WF ⟨some v, bins, size, po⟩) (hsize : size - 1 = 0)
    (hpo : po' = po ∨ po' = 0) :
    Becomes ⟨some v, bins, size, po⟩ ⟨none, [], 0, po'⟩ (address v) none true := by
  obtain rfl := h.bins_eq_nil hsize
  refine ⟨.empty po', by simpa using hpo, ?_, by simp, by simp⟩
  intro e
  simp only [elems_mk, Option.toList_none, elemsBins_nil, List.append_nil, Option.toList_some,
    List.mem_singleton]
  constructor
  · simp
  · rintro (⟨rfl, hne⟩ | he)
    · exact absurd rfl hne
    · simp at he

/-- The pin goes, and the last sub-pot takes its place: what hangs off the pin before it hangs off
its pin too. -/
theorem WF.promote_last (h : WF ⟨some v, bins, size, po⟩) (hsize : size - 1 ≠ 0) :
    ∃ r, promote bins (size - 1) po = some r ∧
      Becomes ⟨some v, bins, size, po⟩ r (address v) none true := by
  cases h with
  | mk hbins hangs hlen =>
    rcases List.eq_nil_or_concat bins with rfl | ⟨pre, last, rfl⟩
    · simp at hlen
      omega
    rw [List.concat_eq_append] at *
    refine ⟨⟨last.pin, pre ++ last.bins, size - 1, po⟩, by simp [promote], ?_⟩
    obtain ⟨hpre, -, hlt⟩ := List.pairwise_append.mp hangs.ordered
    have hlast := hbins last (by simp)
    obtain ⟨lpin, lbins, lsize, lpo⟩ := last
    cases hlast with
    | @mk w _ _ _ hlbins hlangs hlsize =>
      have hw : (address v).prox (address w) = lpo :=
        hangs.prox ⟨some w, lbins, lsize, lpo⟩ (by simp) w (by simp)
      have hbelow : ∀ n ∈ pre, n.po < lpo := fun n hn =>
        hlt n hn ⟨some w, lbins, lsize, lpo⟩ (by simp)
      have hmove : Hangs w pre := (hangs.sublist (List.sublist_append_left _ _)).move
        (by simpa [hw] using hbelow)
      have habove : ∀ n ∈ lbins, lpo < n.po :=
        hangs.po_lt_of_mem (n := ⟨some w, lbins, lsize, lpo⟩) (by simp) ⟨hlbins, hlangs, hlsize⟩
      refine ⟨.wf ⟨?_, hmove.append hlangs fun n hn n' hn' => (hbelow n hn).trans (habove n' hn'),
        ?_⟩, .inl rfl, ?_, by simp, ?_⟩
      · intro n hn
        rcases List.mem_append.mp (by simpa using hn) with hn | hn
        · exact hbins n (by simp [hn])
        · exact hlbins n hn
      · simp at hlen ⊢
        omega
      · intro e
        have hne := fun he => (hangs.address_ne (e := e) he).symm
        simp only [elemsBins_append, elemsBins_cons, elems_mk, elemsBins_nil, List.mem_append,
          Option.toList_some, List.mem_singleton, List.append_nil, reduceCtorEq, or_false] at hne ⊢
        constructor
        · intro he
          have hold : e ∈ elemsBins pre ∨ e = w ∨ e ∈ elemsBins lbins := by tauto
          exact ⟨.inr hold, hne hold⟩
        · rintro ⟨rfl | he, hne'⟩
          · exact absurd rfl hne'
          · tauto
      · simp
        omega

end

/-! ## The operations -/

section

variable {bins pre post : List (Pot V)} {o : Option (Pot V)} {n : Pot V} {p : ℕ}

theorem addBins_eq (hs : Splits p bins pre o post) (val : V) :
    addBins bins p val = o.elim (pre ++ leaf val p :: post, false) fun n =>
      (pre ++ (add n val).1 :: post, (add n val).2.2) := by
  refine hs.search ?_ ?_ ?_ ?_
  · rintro n rfl hn
    simp [addBins, hn]
  · rintro rfl rfl
    simp [addBins]
  · rintro n rest rfl rfl hn
    simp [addBins, hn, hn.ne']
  · intro n pre bins hn ih
    simp only [addBins, hn.ne, if_false, not_lt.mpr hn.le, ih]
    cases o <;> rfl

theorem removeBins_eq (hs : Splits p bins pre o post) (val : V) :
    removeBins bins p val = o.elim (some (pre ++ post, p, false)) fun n =>
      (remove n val).map fun r =>
        (pre ++ (if r.1.pin.isSome then [r.1] else []) ++ post, r.2.1, r.2.2) := by
  refine hs.search ?_ ?_ ?_ ?_
  · rintro n rfl hn
    simp only [List.nil_append, removeBins, hn, if_true, Option.elim_some]
    congr 1
    funext r
    split_ifs <;> rfl
  · rintro rfl rfl
    simp [removeBins]
  · rintro n rest rfl rfl hn
    simp [removeBins, hn, hn.ne']
  · intro n pre bins hn ih
    simp only [removeBins, hn.ne, if_false, not_lt.mpr hn.le, ih]
    cases o with
    | none => rfl
    | some n' => cases h : remove n' val <;> simp [h]

theorem swapBins_eq [DecidableEq V] [GoEq V] (hs : Splits p bins pre o post) (k : V)
    (f : Option V → Option V) :
    swapBins k f p bins = (o.elim (swapNew k f p post) fun n =>
      (swap k f n).bind (swapAt n post)).map fun r => (pre ++ r.1, r.2) := by
  refine hs.search ?_ ?_ ?_ ?_
  · rintro n rfl hn
    simp [swapBins, hn]
  · rintro rfl rfl
    simp [swapBins]
  · rintro n rest rfl rfl hn
    simp [swapBins, hn, hn.ne']
  · intro n pre bins hn ih
    simp only [swapBins, hn.ne, if_false, not_lt.mpr hn.le, ih, Option.map_map]
    rfl

end

theorem WF.add {t : Pot V} (h : t.WF) (val : V)
    (hpo : ∀ w, t.pin = some w → t.po ≤ (address w).prox (address val)) :
    Becomes t (t.add val).1 (address val) (some val) (t.add val).2.2 := by
  induction h with
  | @mk v bins size po hbins hangs hsize ih =>
    have hwf : WF ⟨some v, bins, size, po⟩ := ⟨hbins, hangs, hsize⟩
    have hpof : pof (some v) val po = _ := pof_eq (hpo v rfl)
    by_cases hkey : address v = address val
    · simp only [Pot.add, hpof, hkey, decide_true, if_true]
      exact hkey ▸ hwf.replace_pin hkey.symm
    · obtain ⟨pre, o, post, hs⟩ := exists_splits ((address v).prox (address val)) hangs.ordered
      have hp := Key.prox_lt hkey
      simp only [Pot.add, hpof, hkey, decide_false, Bool.false_eq_true, if_false, addBins_eq hs]
      cases o with
      | none => simpa using hwf.step_none rfl hp hs (r := some val) (by simp)
      | some n =>
        have hbecomes := ih n (by simp [hs.eq]) fun w hw => (hwf.po_le rfl hp hs hw).2
        have hstep := hwf.step_some rfl hp hs (by simp) hbecomes
        rw [if_pos hbecomes.isSome_pin] at hstep
        cases hfound : (n.add val).2.2 <;> simpa [hfound] using hstep

theorem WF.remove {t : Pot V} (h : t.WF) (val : V)
    (hpo : ∀ w, t.pin = some w → t.po ≤ (address w).prox (address val)) :
    ∃ r, t.remove val = some r ∧ Becomes t r.1 (address val) none r.2.2 := by
  induction h with
  | @mk v bins size po hbins hangs hsize ih =>
    have hwf : WF ⟨some v, bins, size, po⟩ := ⟨hbins, hangs, hsize⟩
    have hpof : pof (some v) val po = _ := pof_eq (hpo v rfl)
    by_cases hkey : address v = address val
    · simp only [Pot.remove, hpof, hkey, decide_true, if_true]
      by_cases hone : size - 1 = 0
      · rw [if_pos hone]
        exact ⟨_, rfl, hkey ▸ hwf.drop_pin hone (.inr rfl)⟩
      · obtain ⟨r, hr, hbecomes⟩ := hwf.promote_last hone
        rw [if_neg hone, hr]
        exact ⟨_, rfl, hkey ▸ hbecomes⟩
    · obtain ⟨pre, o, post, hs⟩ := exists_splits ((address v).prox (address val)) hangs.ordered
      have hp := Key.prox_lt hkey
      simp only [Pot.remove, hpof, hkey, decide_false, Bool.false_eq_true, if_false,
        removeBins_eq hs]
      cases o with
      | none =>
        refine ⟨_, rfl, ?_⟩
        simpa using hwf.step_none rfl hp hs (r := none) (by simp)
      | some n =>
        obtain ⟨r, hr, hbecomes⟩ := ih n (by simp [hs.eq]) fun w hw =>
          (hwf.po_le rfl hp hs hw).2
        rw [Option.elim_some, hr]
        refine ⟨_, rfl, ?_⟩
        have hstep := hwf.step_some rfl hp hs (by simp) hbecomes
        cases hfound : r.2.2 <;> simpa [hfound] using hstep

/-- The callback returns a value that `Swap` cannot compare with the element `o`. -/
def Incomparable [GoEq V] (f : Option V → Option V) (o : Option V) : Prop :=
  ∃ v ∈ o, ∃ w ∈ f o, GoEq.panics w v = true

/-- What `Swap` does if `o` is the element with the key. -/
def Swapped [DecidableEq V] [GoEq V] (t : Pot V) (k : V) (f : Option V → Option V)
    (o : Option V) : Prop :=
  Incomparable f o ∧ t.swap k f = none ∨
  ¬ Incomparable f o ∧ ∃ p po found change, t.swap k f = some (some p, po, found, change) ∧
    Becomes t p (address k) (f o) found ∧ change = decide (f o ≠ o) ∧ (change = false → p = t)

section
variable [DecidableEq V] [GoEq V] {k : V} {f : Option V → Option V}
  (hf : ∀ o, ∀ e ∈ f o, address e = address k)
include hf

theorem WF.swap_pin {v : V} {bins : List (Pot V)} {size : ℤ} {po : ℕ}
    (hwf : WF ⟨some v, bins, size, po⟩) (hpo : po ≤ (address k).prox (address v))
    (hkey : address k = address v) : Swapped ⟨some v, bins, size, po⟩ k f (some v) := by
  simp only [Swapped, Pot.swap, pof_eq hpo, hkey, decide_true, if_true]
  cases hval : f (some v) with
  | none =>
    refine .inr ⟨by simp [Incomparable, hval], ?_⟩
    by_cases hone : size - 1 = 0
    · rw [if_pos hone]
      exact ⟨_, _, _, _, rfl, hwf.drop_pin hone (.inl rfl), by simp, by simp⟩
    · obtain ⟨r, hr, hbecomes⟩ := hwf.promote_last hone
      rw [if_neg hone, hr]
      exact ⟨_, _, _, _, rfl, hbecomes, by simp, by simp⟩
  | some w =>
    have hw : address w = address v := (hf _ w hval).trans hkey
    have hreplace := hwf.replace_pin hw
    by_cases hpanics : GoEq.panics w v = true
    · exact .inl ⟨⟨v, rfl, w, hval, hpanics⟩, if_pos hpanics⟩
    refine .inr ⟨by simp [Incomparable, hval, hpanics], ?_⟩
    simp only [hpanics, Bool.false_eq_true, if_false]
    by_cases heq : w = v
    · subst heq
      simp only [if_true]
      exact ⟨_, _, _, _, rfl, hreplace, by simp, by simp⟩
    · simp only [heq, if_false]
      exact ⟨_, _, _, _, rfl, hreplace, by simp [heq], by simp⟩

/-- `Swap` on a pot that is not empty. -/
theorem WF.swap {t : Pot V} (h : t.WF) {o : Option V}
    (ho : ∀ e, o = some e ↔ e ∈ t.elems ∧ address e = address k)
    (hpo : ∀ w, t.pin = some w → t.po ≤ (address w).prox (address k)) : Swapped t k f o := by
  induction h with
  | @mk v bins size po hbins hangs hsize ih =>
    have hwf : WF ⟨some v, bins, size, po⟩ := ⟨hbins, hangs, hsize⟩
    have hle : po ≤ (address k).prox (address v) := Key.prox_comm (address k) _ ▸ hpo v rfl
    by_cases hkey : address k = address v
    · obtain rfl : o = some v := (ho v).mpr ⟨by simp, hkey.symm⟩
      exact hwf.swap_pin hf hle hkey
    · obtain ⟨pre, b, post, hs⟩ := exists_splits ((address k).prox (address v)) hangs.ordered
      have hp := Key.prox_lt hkey
      have hk := Key.prox_comm (address v) (address k)
      simp only [Swapped, Pot.swap, pof_eq hle, hkey, decide_false, Bool.false_eq_true, if_false,
        swapBins_eq hs]
      -- the element with the key is in the sub-pot
      have hin : ∀ e, o = some e ↔ e ∈ elemsBins b.toList ∧ address e = address k := by
        intro e
        rw [ho e]
        exact and_congr_left fun he => hwf.mem_at hk hp hs he
      cases b with
      | none =>
        obtain rfl : o = none := Option.eq_none_iff_forall_ne_some.mpr fun e he => by
          simpa using (hin e).mp he
        have hstep := hwf.step_none hk hp hs (hf none)
        refine .inr ⟨by simp [Incomparable], ?_⟩
        cases hval : f none with
        | none =>
          rw [hval] at hstep
          simp only [Option.elim_none, swapNew, hval]
          refine ⟨_, _, _, _, rfl, by simpa using hstep, by simp, by simp [hs.eq]⟩
        | some w =>
          rw [hval] at hstep
          have hw := hf none w hval
          have heq : (pof (some w) k ((address k).prox (address v))).2 = true := by
            rw [pof_eq (by rw [hw, Key.prox_self]; exact hp.le)]
            simp [hw]
          simp only [Option.elim_none, swapNew, hval, heq, if_true]
          exact ⟨_, _, _, _, rfl, by simpa using hstep, by simp, by simp⟩
      | some n =>
        obtain ⟨hinc, hswap⟩ | ⟨hinc, q, po', found, change, hswap, hbecomes, hchange, hsame⟩ :=
          ih n (by simp [hs.eq]) (by simpa using hin) fun w hw => (hwf.po_le hk hp hs hw).2
        · exact .inl ⟨hinc, by simp [hswap]⟩
        refine .inr ⟨hinc, ?_⟩
        have hstep := hwf.step_some hk hp hs (hf o) hbecomes
        have hlen := hbecomes.length
        have hn := (hbins n (by simp [hs.eq])).size_eq
        have hpos := List.length_pos_iff.mpr (hbins n (by simp [hs.eq])).elems_ne_nil
        have hq := hbecomes.ok.size_eq
        have hle := Bool.toNat_le found
        -- the size that the code computes is that of the step
        have hsize' : ∀ more : ℤ, more = (f o).isSome.toNat - found.toNat →
            size + more = size + (f o).isSome.toNat - found.toNat := by
          intro more hmore
          omega
        simp only [Option.elim_some, hswap, Option.bind_some, swapAt]
        cases change with
        | false =>
          obtain rfl := hsame rfl
          have hpin := hbecomes.ok.isSome_iff.mpr (hbins q (by simp [hs.eq]))
          refine ⟨_, _, _, _, rfl, ?_, hchange, by simp [hs.eq]⟩
          rw [if_pos hpin, ← hsize' 0 (by omega)] at hstep
          simpa using hstep
        | true =>
          by_cases hzero : q.size = 0
          · have hpin : ¬ q.pin.isSome = true := fun hpin => by
              have := List.length_pos_iff.mpr (hbecomes.ok.isSome_iff.mp hpin).elems_ne_nil
              omega
            simp only [Bool.true_eq_false, if_false, Option.map_some, hzero, if_true]
            refine ⟨_, _, _, _, rfl, ?_, hchange, by simp⟩
            rw [if_neg hpin, ← hsize' (-1) (by omega)] at hstep
            simpa using hstep
          · have hpin : q.pin.isSome = true := by
              by_contra hpin
              rw [hbecomes.ok.elems_eq_nil hpin] at hq
              exact hzero hq
            simp only [Bool.true_eq_false, if_false, Option.map_some, hzero]
            refine ⟨_, _, _, _, rfl, ?_, hchange, by simp⟩
            rw [if_pos hpin, ← hsize' (q.size - n.size) (by omega)] at hstep
            simpa using hstep

end

/-! ## Runs -/

/-- The operations; the callback of a `Swap` gives `nil` or a value with the key. -/
inductive Op (V : Type) [BytesAddress V]
  | add (v : V)
  | remove (v : V)
  | swap (k : V) (f : Option V → Option V) (hf : ∀ o, ∀ e ∈ f o, address e = address k)

section

variable [DecidableEq V] [GoEq V]

/-- An operation on a pot that may be `nil`: the new pot, whether the key was found and, for `Swap`,
whether the pot changed; `none` is a panic. -/
def Op.apply : Op V → Option (Pot V) → Option (Option (Pot V) × Bool × Option Bool)
  | _, none => none
  | .add v, some t => some (some (t.add v).1, (t.add v).2.2, none)
  | .remove v, some t => (t.remove v).map fun r => (some r.1, r.2.2, none)
  | .swap k f _, some t => (t.swap k f).map fun r => (r.1, r.2.2.1, some r.2.2.2)

/-- Operations one after another, each on the result of the one before, with what they report. -/
def run : List (Op V) → Option (Pot V) → Option (Option (Pot V) × List (Bool × Option Bool))
  | [], t => some (t, [])
  | op :: ops, t =>
    (op.apply t).bind fun r => (run ops r.1).map fun s => (s.1, r.2 :: s.2)

/-- What the operation is on a set, as a map from keys to values. -/
def Op.spec : Op V → AssocMap Key V → AssocMap Key V × Bool × Option Bool
  | .add v, m => (m.set (address v) v, m.has (address v), none)
  | .remove v, m => (m.erase (address v), m.has (address v), none)
  | .swap k f _, m =>
    let o := m.get (address k)
    ((f o).elim (m.erase (address k)) (m.set (address k)), o.isSome, some (decide (f o ≠ o)))

/-- The operations on a set. -/
def runSpec : List (Op V) → AssocMap Key V → AssocMap Key V × List (Bool × Option Bool)
  | [], m => (m, [])
  | op :: ops, m => ((runSpec ops (op.spec m).1).1, (op.spec m).2 :: (runSpec ops (op.spec m).1).2)

/-- A well-formed pot with the elements of a set. -/
structure Represents (t : Pot V) (m : AssocMap Key V) : Prop where
  ok : t.Ok
  po : t.po = 0
  get_iff : ∀ k e, m.get k = some e ↔ e ∈ t.elems ∧ address e = k
  size_eq : t.size = m.size

/-- From a pot with the elements of `m` on, the operations do not panic, report what they do on the
set, and end with a pot with its elements, which may be `nil` if there is none. -/
def Refines (ops : List (Op V)) (t : Pot V) (m : AssocMap Key V) : Prop :=
  ∃ p, run ops (some t) = some (p, (runSpec ops m).2) ∧
    (∀ q ∈ p, Represents q (runSpec ops m).1) ∧ (p = none → (runSpec ops m).1.size = 0)

/-- What the callback of a `Swap` returns can be compared with the element it is given. -/
def Op.Compares (m : AssocMap Key V) : Op V → Prop
  | .swap k f _ => ¬ Incomparable f (m.get (address k))
  | _ => True

/-- No `Remove` when the set is empty, nothing after a `Swap` of the empty set that adds nothing,
and no `Swap` with values that cannot be compared. -/
def Allowed : List (Op V) → AssocMap Key V → Prop
  | [], _ => True
  | op :: ops, m =>
    (m.size = 0 → match op with
      | .add _ => True
      | .remove _ => False
      | .swap _ f _ => f none = none → ops = []) ∧
    op.Compares m ∧ Allowed ops (op.spec m).1

variable {t p : Pot V} {m : AssocMap Key V} {k : Key} {r : Option V} {found : Bool}

omit [DecidableEq V] [GoEq V] in
theorem Represents.of_mem (hok : t.Ok) (hpo : t.po = 0)
    (hget : ∀ k e, m.get k = some e ↔ e ∈ t.elems ∧ address e = k) : Represents t m := by
  refine ⟨hok, hpo, hget, ?_⟩
  have hperm : m.keys.Perm (t.elems.map address) := by
    refine (List.perm_ext_iff_of_nodup m.nodup_keys hok.nodup).mpr fun k => ?_
    simp only [AssocMap.mem_keys, hget, List.mem_map]
  rw [hok.size_eq, ← AssocMap.length_keys, hperm.length_eq, List.length_map]

omit [DecidableEq V] [GoEq V] in
theorem Becomes.represents (h : Becomes t p k r found) (ht : Represents t m)
    (hr : ∀ e ∈ r, address e = k) :
    Represents p (r.elim (m.erase k) (m.set k)) ∧ found = m.has k := by
  refine ⟨.of_mem h.ok ?_ ?_, ?_⟩
  · rcases h.po with hpo | hpo
    · exact hpo.trans ht.po
    · exact hpo.2
  · intro k' e
    rw [h.mem]
    cases r with
    | none =>
      simp only [Option.elim_none, AssocMap.get_erase, reduceCtorEq, or_false]
      by_cases hk : k' = k
      · subst hk
        simp
      · rw [if_neg hk, ht.get_iff]
        refine ⟨fun he => ⟨⟨he.1, fun heq => hk (he.2.symm.trans heq)⟩, he.2⟩, fun he => ?_⟩
        exact ⟨he.1.1, he.2⟩
    | some w =>
      have hw := hr w rfl
      simp only [Option.elim_some, AssocMap.get_set, Option.some.injEq]
      by_cases hk : k' = k
      · subst hk
        rw [if_pos rfl, Option.some.injEq]
        constructor
        · rintro rfl
          exact ⟨.inr rfl, hw⟩
        · rintro ⟨⟨-, hne⟩ | rfl, heq⟩
          · exact absurd heq hne
          · rfl
      · rw [if_neg hk, ht.get_iff]
        constructor
        · rintro ⟨he, rfl⟩
          exact ⟨.inl ⟨he, hk⟩, rfl⟩
        · rintro ⟨⟨he, -⟩ | rfl, heq⟩
          · exact ⟨he, heq⟩
          · exact absurd (heq.symm.trans hw) hk
  · rw [Bool.eq_iff_iff, h.found_iff, AssocMap.has_eq_true]
    simp only [ht.get_iff]

omit [DecidableEq V] [GoEq V] in
theorem Represents.cases (h : Represents t m) :
    t = ⟨none, [], 0, 0⟩ ∧ m.size = 0 ∨ t.WF ∧ m.size ≠ 0 := by
  obtain ⟨hok, hpo, -, hsize⟩ := h
  cases hok with
  | empty po =>
    obtain rfl : po = 0 := hpo
    exact .inl ⟨rfl, by simpa using hsize.symm⟩
  | wf hwf =>
    have hpos := List.length_pos_iff.mpr hwf.elems_ne_nil
    rw [hwf.size_eq] at hsize
    exact .inr ⟨hwf, by omega⟩

omit [DecidableEq V] [GoEq V] in
theorem leaf_becomes (w : V) (k : Key) :
    Becomes ⟨none, [], 0, 0⟩ (leaf w 0) k (some w) false := by
  refine ⟨.wf ⟨by simp, ⟨.nil, by simp, by simp⟩, by simp⟩, .inl rfl, ?_, by simp, by simp [leaf]⟩
  simp [leaf, eq_comm]

theorem refines_cons {op : Op V} {ops : List (Op V)}
    (happly : op.apply (some t) = some (some p, (op.spec m).2)) :
    Refines (op :: ops) t m ↔ Refines ops p (op.spec m).1 := by
  simp only [Refines, run, happly, Option.bind_some, Option.map_eq_some_iff, runSpec]
  constructor
  · rintro ⟨q, ⟨s, hs, heq⟩, hrest⟩
    obtain ⟨rfl, hresults⟩ := Prod.mk.inj heq
    refine ⟨s.1, hs.trans ?_, hrest⟩
    rw [← (List.cons.inj hresults).2]
  · rintro ⟨q, hq, hrest⟩
    exact ⟨q, ⟨_, hq, rfl⟩, hrest⟩

theorem Represents.apply (h : Represents t m) (hwf : t.WF) (op : Op V) :
    ¬ op.Compares m ∧ op.apply (some t) = none ∨ op.Compares m ∧
    ∃ p, op.apply (some t) = some (some p, (op.spec m).2) ∧ Represents p (op.spec m).1 := by
  have hpo : ∀ k : Key, ∀ w, t.pin = some w → t.po ≤ (address w).prox k := fun k w _ => by
    rw [h.po]
    exact Nat.zero_le _
  cases op with
  | add v =>
    obtain ⟨hrep, hfound⟩ := (hwf.add v (hpo _)).represents h (by simp)
    exact .inr ⟨trivial, _, by rw [Op.apply, hfound]; rfl, hrep⟩
  | remove v =>
    obtain ⟨r, hr, hbecomes⟩ := hwf.remove v (hpo _)
    obtain ⟨hrep, hfound⟩ := hbecomes.represents h (by simp)
    exact .inr ⟨trivial, r.1, by rw [Op.apply, hr, Option.map_some, hfound]; rfl, hrep⟩
  | swap k f hf =>
    obtain ⟨hinc, hq⟩ | ⟨hinc, q, po, found, change, hq, hbecomes, hchange, -⟩ := hwf.swap hf
      (fun e => h.get_iff (address k) e) (hpo _)
    · exact .inl ⟨not_not.2 hinc, by rw [Op.apply, hq, Option.map_none]⟩
    · obtain ⟨hrep, hfound⟩ := hbecomes.represents h (hf _)
      exact .inr ⟨hinc, q, by rw [Op.apply, hq, Option.map_some, hchange, hfound]; rfl, hrep⟩

theorem refines_iff {ops : List (Op V)} (h : Represents t m) : Refines ops t m ↔ Allowed ops m := by
  induction ops generalizing t m with
  | nil => exact iff_of_true ⟨some t, rfl, by simpa [runSpec] using h, by simp⟩ trivial
  | cons op ops ih =>
    rcases h.cases with ⟨rfl, hsize⟩ | ⟨hwf, hsize⟩
    · have hget : ∀ k, m.get k = none := fun k =>
        Option.eq_none_iff_forall_ne_some.mpr fun e he => by simpa using (h.get_iff k e).mp he
      cases op with
      | add v =>
        obtain ⟨hrep, hfound⟩ := (leaf_becomes v (address v)).represents h (by simp)
        have happly : (Op.add v).apply (some ⟨none, [], 0, 0⟩) =
            some (some (leaf v 0), ((Op.add v).spec m).2) := by
          rw [Op.apply, Op.spec, ← hfound]
          rfl
        exact (refines_cons happly).trans ((ih hrep).trans (by simp [Allowed, Op.spec, Op.Compares]))
      | remove v =>
        refine iff_of_false ?_ ?_
        · rintro ⟨p, hp, -⟩
          simp [run, Op.apply, Pot.remove, pof, proximityOrder, toBytes, maxkeylen, promote] at hp
        · simp [Allowed, hsize]
      | swap k f hf =>
        cases hval : f none with
        | none =>
          have hrun : run (.swap k f hf :: ops) (some ⟨none, [], 0, 0⟩) =
              (run ops none).map fun s => (s.1, (false, some false) :: s.2) := by
            simp [run, Op.apply, Pot.swap, hval]
          cases ops with
          | nil =>
            refine iff_of_true ⟨none, ?_, by simp, fun _ => ?_⟩ ?_
            · rw [hrun]
              simp [run, runSpec, Op.spec, hget, hval]
            · simp only [runSpec, Op.spec, hget, hval, Option.elim_none]
              rw [← AssocMap.length_keys, List.length_eq_zero_iff] at hsize ⊢
              rw [AssocMap.keys_erase, hsize, List.erase_nil]
            · simp [Allowed, Op.Compares, Incomparable, hget]
          | cons op' ops =>
            refine iff_of_false ?_ ?_
            · rintro ⟨p, hp, -⟩
              rw [hrun] at hp
              simp [run, Op.apply] at hp
            · simp [Allowed, hsize, hval]
        | some w =>
          obtain ⟨hrep, -⟩ := (leaf_becomes w (address k)).represents h
            (by simpa using hf none w hval)
          have hspec : (Op.swap k f hf).spec m = (m.set (address k) w, false, some true) := by
            simp [Op.spec, hget, hval]
          have happly : (Op.swap k f hf).apply (some ⟨none, [], 0, 0⟩) =
              some (some (leaf w 0), ((Op.swap k f hf).spec m).2) := by
            simp [Op.apply, Pot.swap, hval, hspec]
          rw [refines_cons happly, hspec]
          exact (ih hrep).trans (by
            simp [Allowed, hval, hspec, Op.Compares, Incomparable, hget])
    · obtain ⟨hcompares, hnone⟩ | ⟨hcompares, p, hp, hrep⟩ := h.apply hwf op
      · refine iff_of_false ?_ fun hallowed => hcompares hallowed.2.1
        rintro ⟨p, hp, -⟩
        simp [run, hnone] at hp
      · rw [refines_cons hp, ih hrep]
        simp [Allowed, hsize, hcompares]

end

/-- The empty pot. -/
def emptyPot : Pot V := ⟨none, [], 0, 0⟩

theorem represents_empty : Represents (emptyPot : Pot V) .empty :=
  .of_mem (.empty 0) rfl (by simp [emptyPot])

/-- **Pots are sets** as long as the empty one is not asked to remove, or to swap nothing in, and no
`Swap` compares values without a comparison: from the empty pot on, the operations do not panic,
report what they do on a set, and lead to a well-formed pot with its elements. -/
theorem pot_is_set [DecidableEq V] [GoEq V] (ops : List (Op V)) :
    Refines ops emptyPot .empty ↔ Allowed ops .empty :=
  refines_iff represents_empty

/-- The pot has become empty, and a key is removed once more. -/
theorem remove_twice : ¬ Refines [.add ⟨.replicate 32 0, rfl⟩, .remove ⟨.replicate 32 0, rfl⟩,
    .remove (⟨.replicate 32 0, rfl⟩ : Key)] emptyPot .empty := by
  rintro ⟨p, hp, -⟩
  have hrun : run [.add ⟨.replicate 32 0, rfl⟩, .remove ⟨.replicate 32 0, rfl⟩,
      .remove (⟨.replicate 32 0, rfl⟩ : Key)] (some emptyPot) = none := rfl
  rw [hrun] at hp
  cases hp

end GoEthereum.Swarm.Pot
