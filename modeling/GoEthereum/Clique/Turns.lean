/-
  Turns (`always_in_turn`).

  As long as there are signers, one of them is in turn at every height (`hasTurns_iff`).  A
  signer leaves by the votes of more than half of the signers, so the last one leaves only by
  its own vote (`signers_eq_empty_iff`), and then no height has a signer in turn.
-/
import GoEthereum.Clique.Votes

namespace GoEthereum.Clique

open GoEthereum.Core AssocMap Outcome

/-! ## Turns of a snapshot -/

namespace Snapshot

variable (s : Snapshot)

/-- `inturn`, which panics without signers: the height is divided by their number. -/
def checkTurn (number : ℕ) (signer : Address) : Option Bool :=
  if s.sortedSigners.length = 0 then none else some (s.inturn number signer)

def calcDifficulty (signer : Address) : Option ℤ :=
  (s.checkTurn (s.number + 1) signer).map fun inturn => if inturn then diffInTurn else diffNoTurn

/-- At every height one signer is in turn. -/
structure HasTurns : Prop where
  total : ∀ number signer, s.checkTurn number signer ≠ none
  unique : ∀ number, ∃! signer, signer ∈ s.signers ∧ s.checkTurn number signer = some true
  difficulty : ∃ signer ∈ s.signers, s.calcDifficulty signer = some 2 ∧
    ∀ other ∈ s.signers, other ≠ signer → s.calcDifficulty other = some 1

variable {s}

theorem mem_sortedSigners {a : Address} : a ∈ s.sortedSigners ↔ a ∈ s.signers :=
  Finset.mem_sort _

theorem length_sortedSigners : s.sortedSigners.length = s.signers.card := Finset.length_sort _

theorem inturn_iff {number : ℕ} {a : Address} (ha : a ∈ s.signers) : s.inturn number a = true ↔
    s.sortedSigners[number % s.sortedSigners.length]? = some a := by
  rw [inturn, decide_eq_true_eq]
  constructor
  · intro h
    rw [h]
    exact List.getElem?_idxOf (mem_sortedSigners.2 ha)
  · intro h
    obtain ⟨hlt, heq⟩ := List.getElem?_eq_some_iff.1 h
    rw [← heq]
    exact ((Finset.sort_nodup s.signers (· ≤ ·)).idxOf_getElem _ hlt).symm

theorem hasTurns_iff : s.HasTurns ↔ s.signers.Nonempty := by
  constructor
  · intro h
    obtain ⟨a, ha, -⟩ := h.difficulty
    exact ⟨a, ha⟩
  · intro hne
    have hpos : 0 < s.sortedSigners.length := length_sortedSigners ▸ hne.card_pos
    have hcheck : ∀ number a, s.checkTurn number a = some (s.inturn number a) :=
      fun number a => if_neg hpos.ne'
    have hunique : ∀ number, ∃ a ∈ s.signers, s.inturn number a = true ∧
        ∀ b ∈ s.signers, s.inturn number b = true → b = a := by
      intro number
      have hlt := Nat.mod_lt number hpos
      have hget := List.getElem?_eq_getElem hlt
      have hmem := mem_sortedSigners.1 (List.mem_of_getElem? hget)
      refine ⟨_, hmem, (inturn_iff hmem).2 hget, fun b hb hturn => ?_⟩
      rw [inturn_iff hb, hget] at hturn
      exact (Option.some.inj hturn).symm
    refine ⟨fun number a => ?_, fun number => ?_, ?_⟩
    · rw [hcheck]
      exact Option.some_ne_none _
    · obtain ⟨a, ha, hturn, hother⟩ := hunique number
      refine ⟨a, ⟨ha, by rw [hcheck, hturn]⟩, ?_⟩
      rintro b ⟨hb, hturn'⟩
      rw [hcheck] at hturn'
      exact hother b hb (Option.some.inj hturn')
    · obtain ⟨a, ha, hturn, hother⟩ := hunique (s.number + 1)
      refine ⟨a, ha, ?_, fun b hb hne => ?_⟩
      · rw [calcDifficulty, hcheck, hturn]
        rfl
      · rw [calcDifficulty, hcheck, Bool.eq_false_iff.2 fun h => hne (hother b hb h)]
        rfl

end Snapshot

/-! ## The last signer -/

variable {config : Config} {g s s' : Snapshot} {hs : List Header} {h : Header} {hash : Word}
  {signers : List Address}

/-- The only signer signs a header that votes to remove this signer. -/
def DropsLast (config : Config) (s : Snapshot) (h : Header) : Prop :=
  s.signers = {h.coinbase} ∧ config.ecrecover h = .ok h.coinbase ∧ Board.voteOf h = .ok false

theorem mem_votes_counted {signer : Address} (hmem : h.coinbase ∈ s.signers) :
    { signer, block := h.number, address := h.coinbase, authorize := false } ∈
      (s.counted config h signer false).votes := by
  have hvalid : ((s.accept config h.number signer).discard signer h.coinbase).validVote h.coinbase
      false = true := by
    rw [Board.validVote, (discard_eq _ _ _).1, (accept_eq _ _ _ _).1]
    simp [hmem]
  rw [Board.counted, Board.record, Board.cast, hvalid]
  simp

theorem signers_eq_empty_iff (hr : Reached config (newSnapshot 0 hash signers) hs s)
    (hne : s.signers.Nonempty) (happly : s.apply config [h] = .ok s') :
    s'.signers = ∅ ↔ DropsLast config s h := by
  obtain ⟨signer, authorize, hap⟩ := applied_of_apply happly
  obtain ⟨hcounted, hvotes⟩ :=
    (votesOk_of_reached hr).boardCounted authorize hap.number hap.authorized
  have hsigners := (counted_eq s.toBoard config h signer authorize).1
  have hcounts := hcounted.counted.counts h.coinbase
  rw [hap.board]
  constructor
  · intro hempty
    have hchange : ∀ a ∈ s.signers, a = h.coinbase ∧ (s.counted config h signer
        authorize).signers.card / 2 < (((s.counted config h signer authorize).tally.get
          h.coinbase).getD ⟨false, 0⟩).votes := by
      intro a ha
      refine decideVote_change (n := h.number) ?_
      rw [hempty, hsigners]
      exact iff_of_false (Finset.notMem_empty a) (not_not.2 ha)
    have hlast : s.signers = {h.coinbase} :=
      Finset.eq_singleton_iff_nonempty_unique_mem.2 ⟨hne, fun a ha => (hchange a ha).1⟩
    obtain ⟨rfl, hpass⟩ := hchange signer hap.authorized
    refine ⟨hlast, hap.signer_eq, ?_⟩
    -- a vote about the last signer is there, and it is the new one
    have hsome : votesAbout (s.counted config h h.coinbase authorize).votes h.coinbase ≠ 0 := by
      intro hzero
      rw [hcounts, tallyOf, if_pos hzero] at hpass
      exact Nat.not_lt_zero _ hpass
    obtain ⟨v, hv, haddress⟩ : ∃ v ∈ (s.counted config h h.coinbase authorize).votes,
        v.address = h.coinbase := by
      by_contra hnone
      exact hsome (votesAbout_eq_zero.2 fun v hv haddress => hnone ⟨v, hv, haddress⟩)
    have hvoter := hcounted.signers v hv
    rw [hsigners, hlast, Finset.mem_singleton] at hvoter
    have hside := hcounted.counted.sides v hv
    rw [haddress, sideOf, hsigners] at hside
    rcases hvotes v hv with ⟨-, -, hold⟩ | rfl
    · exact absurd ⟨hvoter, haddress⟩ hold
    · rw [hap.vote]
      exact congrArg _ (hside.trans (decide_eq_false (not_not.2 hap.authorized)))
  · rintro ⟨hlast, hsigner, hvote⟩
    obtain rfl : signer = h.coinbase := Except.ok.inj (hap.signer_eq.symm.trans hsigner)
    obtain rfl : authorize = false := Except.ok.inj (hap.vote.symm.trans hvote)
    have hmem : h.coinbase ∈ (s.counted config h h.coinbase false).signers := by
      rw [hsigners]
      exact hap.authorized
    have hzero : votesAbout (s.counted config h h.coinbase false).votes h.coinbase ≠ 0 :=
      fun hzero => votesAbout_eq_zero.1 hzero _ (mem_votes_counted hap.authorized) rfl
    rw [tallyOf, if_neg hzero, sideOf, decide_eq_false (not_not.2 hmem)] at hcounts
    have hpass : (s.counted config h h.coinbase false).signers.card / 2 <
        votesAbout (s.counted config h h.coinbase false).votes h.coinbase := by
      rw [hsigners, hlast, Finset.card_singleton]
      exact Nat.pos_of_ne_zero hzero
    rw [Board.decideVote]
    simp only [hcounts, Option.getD_some]
    rw [if_pos hpass, if_neg Bool.false_ne_true, Board.deauthorize, forget_eq]
    simp only [hsigners, hlast, Finset.erase_singleton]

/-! ## Runs -/

theorem Reached.last (hr : Reached config g (hs ++ [h]) s') :
    ∃ s, Reached config g hs s ∧ s.apply config [h] = .ok s' := by
  refine Reached.steps (P := fun l s' => ∀ hs h, l = hs ++ [h] →
    ∃ s, Reached config g hs s ∧ s.apply config [h] = .ok s') ?_ ?_ hr hs h rfl
  · intro hs h heq
    exact absurd heq.symm (List.append_ne_nil_of_right_ne_nil _ (List.cons_ne_nil _ _))
  · intro l s h s' hr _ happly hs' h' heq
    obtain ⟨rfl, hh⟩ := List.append_inj' heq rfl
    cases hh
    exact ⟨s, hr, happly⟩

theorem Reached.unique (hr : Reached config g hs s) : ∀ s', Reached config g hs s' → s = s' := by
  refine Reached.steps (P := fun l s => ∀ s', Reached config g l s' → s = s') ?_ ?_ hr
  · intro s' hr'
    refine Reached.steps (P := fun l s' => l = [] → g = s') (fun _ => rfl) ?_ hr' rfl
    intro l s h s' _ _ _ heq
    exact absurd heq (List.append_ne_nil_of_right_ne_nil _ (List.cons_ne_nil _ _))
  · intro l s h s' _ ih happly s'' hr''
    obtain ⟨s₁, hr₁, happly₁⟩ := hr''.last
    obtain rfl := ih s₁ hr₁
    exact Except.ok.inj (happly.symm.trans happly₁)

/-- **Turns.**  In a run from a genesis snapshot with signers, every snapshot has one signer in turn
    at every height iff no header is the vote of the last signer about itself. -/
theorem always_in_turn (config : Config) (hash : Word) (signers : List Address) (hne : signers ≠ [])
    (hs : List Header) (s : Snapshot) (hr : Reached config (newSnapshot 0 hash signers) hs s) :
    (∀ j before, Reached config (newSnapshot 0 hash signers) (hs.take j) before →
      before.signers.Nonempty ∧ before.HasTurns) ↔
    ∀ j h before, hs[j]? = some h → Reached config (newSnapshot 0 hash signers) (hs.take j) before →
      ¬ DropsLast config before h := by
  constructor
  · intro hturns j h before hj hbefore hdrops
    obtain ⟨before', after, hbefore', happly⟩ := hr.split hj
    obtain rfl := hbefore.unique _ hbefore'
    have hafter : Reached config (newSnapshot 0 hash signers) (hs.take (j + 1)) after := by
      rw [List.take_add_one, hj]
      exact .apply hbefore happly
    have hempty := (signers_eq_empty_iff hbefore (hturns j _ hbefore).1 happly).2 hdrops
    exact (hturns _ _ hafter).1.ne_empty hempty
  · intro hkeeps j before hbefore
    suffices before.signers.Nonempty from ⟨this, Snapshot.hasTurns_iff.2 this⟩
    refine Reached.steps (P := fun l s => l <+: hs → s.signers.Nonempty) (fun _ => ?_) ?_ hbefore
      (List.take_prefix j hs)
    · obtain ⟨a, ha⟩ := List.exists_mem_of_ne_nil _ hne
      exact ⟨a, List.mem_toFinset.2 ha⟩
    · intro l s h s' hl ih happly hpre
      have hne := ih ((List.prefix_append l [h]).trans hpre)
      rw [Finset.nonempty_iff_ne_empty]
      intro hempty
      have hj : hs[l.length]? = some h := by
        obtain ⟨t, rfl⟩ := hpre
        simp
      have htake : hs.take l.length = l := by
        obtain ⟨t, rfl⟩ := hpre
        simp
      exact hkeeps _ h s hj (htake.symm ▸ hl) ((signers_eq_empty_iff hl hne happly).1 hempty)

theorem always_in_turn_four : ∃ s, Reached coinbaseConfig fourSigners [signedBy 1 1] s ∧
    s.HasTurns := by
  have hr : Reached coinbaseConfig fourSigners [signedBy 1 1] _ := .apply .start rfl
  refine ⟨_, hr, ((always_in_turn coinbaseConfig 0 [1, 2, 3, 4] (by decide) _ _ hr).2 ?_ 1 _ hr).2⟩
  intro j h before hj hbefore hdrops
  have hcard := congrArg Finset.card hdrops.1
  cases j with
  | zero =>
    rw [← Reached.start.unique _ hbefore, Finset.card_singleton] at hcard
    exact absurd hcard (by decide)
  | succ j => cases hj

/-- The only signer votes itself out, and then `inturn` panics. -/
theorem turns_lost : ∃ s, Reached coinbaseConfig (newSnapshot 0 0 [1]) [signedBy 1 1] s ∧
    s.signers = ∅ ∧ ∀ number signer, s.checkTurn number signer = none := by
  have hr : Reached coinbaseConfig (newSnapshot 0 0 [1]) [signedBy 1 1] _ := .apply .start rfl
  refine ⟨_, hr, rfl, fun number signer => if_pos ?_⟩
  rw [Snapshot.length_sortedSigners]
  rfl

end GoEthereum.Clique
