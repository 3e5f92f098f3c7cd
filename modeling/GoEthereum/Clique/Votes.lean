/-
  Votes and their tallies (`voting_ok`).

  The tallies count the votes of the list (`Counted`), whatever is removed from it: an earlier
  vote, the votes of a signer that leaves, or the votes about an account that has changed.
-/
import GoEthereum.Clique.Recents

namespace GoEthereum.Clique

open GoEthereum.Core AssocMap Outcome

variable {f f' : Address → Bool} {votes votes' : List Vote} {tally : AssocMap Address Tally}
  {v : Vote} {a : Address}

/-! ## Tallies -/

/-- The number of votes about an address. -/
def votesAbout (votes : List Vote) (a : Address) : ℕ := votes.countP fun v => v.address = a

/-- The tally of an address, if its votes are for the side `f`. -/
def tallyOf (f : Address → Bool) (votes : List Vote) (a : Address) : Option Tally :=
  if votesAbout votes a = 0 then none else some ⟨f a, votesAbout votes a⟩

/-- All votes are for the side `f`, and the tallies count them. -/
structure Counted (f : Address → Bool) (votes : List Vote) (tally : AssocMap Address Tally) : Prop where
  sides : ∀ v ∈ votes, v.authorize = f v.address
  counts : ∀ a, tally.get a = tallyOf f votes a

theorem votesAbout_eq_zero : votesAbout votes a = 0 ↔ ∀ v ∈ votes, v.address ≠ a := by
  simp [votesAbout, List.countP_eq_zero]

theorem votesAbout_cons (v : Vote) (votes : List Vote) (a : Address) :
    votesAbout (v :: votes) a = votesAbout votes a + if v.address = a then 1 else 0 := by
  simp [votesAbout, List.countP_cons]

theorem votesAbout_append (votes votes' : List Vote) (a : Address) :
    votesAbout (votes ++ votes') a = votesAbout votes a + votesAbout votes' a :=
  List.countP_append

namespace Counted

theorem empty (f : Address → Bool) : Counted f [] .empty := ⟨nofun, fun _ => get_empty _⟩

theorem remove (h : Counted f votes tally) (hv : v ∈ votes) (hsub : ∀ w ∈ votes', w ∈ votes)
    (hcount : ∀ a, votesAbout votes a = votesAbout votes' a + if v.address = a then 1 else 0) :
    Counted f votes' (uncast tally v.address v.authorize) := by
  refine ⟨fun w hw => h.sides w (hsub w hw), fun a => ?_⟩
  have hself := hcount v.address
  rw [if_pos rfl] at hself
  have hget : tally.get v.address = some ⟨f v.address, votesAbout votes' v.address + 1⟩ := by
    rw [h.counts, tallyOf, hself, if_neg (Nat.succ_ne_zero _)]
  rw [uncast, hget, h.sides v hv]
  simp only [ne_eq, not_true, if_false]
  by_cases ha : a = v.address
  · rw [ha, tallyOf]
    split_ifs with hmore hzero hzero
    · omega
    · rw [get_set_self]
      rfl
    · rw [get_erase, if_pos rfl]
    · omega
  · have hother := hcount a
    rw [if_neg (Ne.symm ha), Nat.add_zero] at hother
    have hkeep : tally.get a = tallyOf f votes' a := by rw [h.counts, tallyOf, tallyOf, hother]
    split_ifs
    · rw [get_set, if_neg ha, hkeep]
    · rw [get_erase, if_neg ha, hkeep]

theorem dropVotes (h : Counted f (votes' ++ votes) tally) (signer : Address) :
    (Clique.dropVotes signer votes tally).1 = votes.filter (fun v => v.signer ≠ signer) ∧
      Counted f (votes' ++ (Clique.dropVotes signer votes tally).1)
        (Clique.dropVotes signer votes tally).2 := by
  induction votes generalizing votes' tally with
  | nil => exact ⟨rfl, h⟩
  | cons v votes ih =>
    rw [Clique.dropVotes]
    split_ifs with hsigner
    · rw [List.filter_cons_of_neg (by simpa using hsigner)]
      refine ih (h.remove (v := v) (by simp) (fun w hw => ?_) fun a => ?_)
      · rcases List.mem_append.1 hw with hw | hw
        · exact List.mem_append_left _ hw
        · exact List.mem_append_right _ (.tail _ hw)
      · rw [votesAbout_append, votesAbout_append, votesAbout_cons, Nat.add_assoc]
    · rw [List.filter_cons_of_pos (by simpa using hsigner)]
      rw [List.append_cons] at h
      obtain ⟨heq, hcounted⟩ := ih h
      simp only
      refine ⟨by rw [heq], ?_⟩
      rw [List.append_cons]
      exact hcounted

theorem add (h : Counted f votes tally) (hv : v.authorize = f v.address) {t : Tally}
    (ht : t = match tally.get v.address with
      | some old => { old with votes := old.votes + 1 }
      | none => ⟨v.authorize, 1⟩) : Counted f (votes ++ [v]) (tally.set v.address t) := by
  refine ⟨fun w hw => ?_, fun a => ?_⟩
  · rcases List.mem_append.1 hw with hw | hw
    · exact h.sides w hw
    · rw [List.mem_singleton.1 hw]
      exact hv
  · have hone : votesAbout [v] a = if v.address = a then 1 else 0 := by
      rw [votesAbout_cons]
      exact Nat.zero_add _
    rw [get_set, tallyOf, votesAbout_append, hone]
    by_cases ha : a = v.address
    · have htally : t = ⟨f v.address, votesAbout votes v.address + 1⟩ := by
        rw [ht, h.counts, tallyOf]
        by_cases hzero : votesAbout votes v.address = 0
        · rw [if_pos hzero, hzero, hv]
        · rw [if_neg hzero]
      rw [if_pos ha, htally, ha, if_pos rfl, if_neg (Nat.succ_ne_zero _)]
    · rw [if_neg ha, if_neg (Ne.symm ha), Nat.add_zero, h.counts]
      rfl

theorem dropAbout (h : Counted f votes tally) (hf : ∀ b, b ≠ a → f' b = f b) :
    Counted f' (votes.filter fun v => v.address ≠ a) (tally.erase a) := by
  refine ⟨fun w hw => ?_, fun b => ?_⟩
  · obtain ⟨hmem, hne⟩ := List.mem_filter.1 hw
    rw [h.sides w hmem, hf _ (by simpa using hne)]
  · have hcount : votesAbout (votes.filter fun v => v.address ≠ a) b =
        if b = a then 0 else votesAbout votes b := by
      rw [votesAbout, List.countP_filter]
      split_ifs with hb
      · rw [List.countP_eq_zero]
        intro v _
        simp [hb]
      · refine List.countP_congr fun v _ => ?_
        simp only [Bool.and_eq_true, decide_eq_true_eq, and_iff_left_iff_imp]
        exact fun hv => hv ▸ hb
    rw [get_erase, tallyOf, hcount]
    by_cases hb : b = a
    · rw [if_pos hb, if_pos hb, if_pos rfl]
    · rw [if_neg hb, if_neg hb, h.counts, hf b hb]
      rfl

end Counted

/-! ## The votes of a snapshot -/

/-- The side of the votes about an address. -/
def sideOf (signers : Finset Address) (a : Address) : Bool := decide (a ∉ signers)

/-- The votes of a board after the block with the number. -/
structure VotesOk (epoch n : ℕ) (b : Board) : Prop where
  counted : Counted (sideOf b.signers) b.votes b.tally
  unique : b.votes.Pairwise fun v w => ¬ (v.signer = w.signer ∧ v.address = w.address)
  signers : ∀ v ∈ b.votes, v.signer ∈ b.signers
  current : ∀ v ∈ b.votes, v.block / epoch = n / epoch ∧ v.block ≤ n

variable {epoch n : ℕ} {b : Board} {signer address : Address} {authorize : Bool}

theorem VotesOk.sublist (h : VotesOk epoch n b) {b' : Board} (hsigners : b'.signers = b.signers)
    (hvotes : b'.votes.Sublist b.votes) (hcounted : Counted (sideOf b.signers) b'.votes b'.tally) :
    VotesOk epoch n b' :=
  ⟨hsigners ▸ hcounted, h.unique.sublist hvotes,
    fun v hv => hsigners ▸ h.signers v (hvotes.subset hv),
    fun v hv => h.current v (hvotes.subset hv)⟩

theorem VotesOk.resetVotes (h : VotesOk epoch n b) :
    VotesOk epoch (n + 1) (b.resetVotes epoch (n + 1)) := by
  rw [Board.resetVotes]
  split_ifs with hreset
  · exact ⟨.empty _, .nil, fun v hv => (by cases hv), fun v hv => (by cases hv)⟩
  · refine ⟨h.counted, h.unique, h.signers, fun v hv => ?_⟩
    obtain ⟨hblock, hle⟩ := h.current v hv
    have hdiv : (n + 1) / epoch = n / epoch := by
      rw [Nat.succ_div_of_not_dvd]
      exact fun hdvd => hreset (Nat.mod_eq_zero_of_dvd hdvd)
    exact ⟨hblock.trans hdiv.symm, hle.trans (Nat.le_succ n)⟩

theorem VotesOk.withRecents (h : VotesOk epoch n b) (recents : AssocMap ℕ Address) :
    VotesOk epoch n { b with recents } := ⟨h.counted, h.unique, h.signers, h.current⟩

theorem VotesOk.discard (h : VotesOk epoch n b) (signer address : Address) :
    VotesOk epoch n (b.discard signer address) ∧
      (∀ v ∈ (b.discard signer address).votes, ¬ (v.signer = signer ∧ v.address = address)) ∧
      ∀ v ∈ (b.discard signer address).votes, v ∈ b.votes := by
  rcases hfind : b.votes.find? fun vote => vote.signer = signer ∧ vote.address = address with _ | v
  · rw [Board.discard, hfind]
    refine ⟨h, fun v hv => ?_, fun _ hv => hv⟩
    simpa using List.find?_eq_none.1 hfind v hv
  · obtain ⟨hv, l₁, l₂, hvotes, hl₁⟩ := List.find?_eq_some_iff_append.1 hfind
    obtain ⟨rfl, rfl⟩ := of_decide_eq_true hv
    have herase : b.votes.eraseP (fun w => w.signer = v.signer ∧ w.address = v.address) = l₁ ++ l₂ := by
      have hl₁' : ∀ w ∈ l₁, ¬ decide (w.signer = v.signer ∧ w.address = v.address) = true :=
        fun w hw => by simpa only [Bool.not_eq_true', Bool.not_eq_true] using hl₁ w hw
      rw [hvotes, List.eraseP_append_right _ hl₁', List.eraseP_cons_of_pos (by simp)]
    have hsub : (l₁ ++ l₂).Sublist b.votes := by
      rw [hvotes]
      exact List.Sublist.append_left (List.sublist_cons_self v l₂) l₁
    rw [Board.discard, hfind]
    simp only [herase]
    refine ⟨h.sublist rfl hsub (h.counted.remove ?_ (fun w hw => hsub.subset hw) fun a => ?_),
      fun w hw heq => ?_, fun w hw => hsub.subset hw⟩
    · rw [hvotes]
      simp
    · rw [hvotes, votesAbout_append, votesAbout_append, votesAbout_cons, Nat.add_assoc]
    · have hunique := h.unique
      rw [hvotes, List.pairwise_append] at hunique
      rcases List.mem_append.1 hw with hw | hw
      · exact hunique.2.2 w hw v (.head _) heq
      · exact (List.pairwise_cons.1 hunique.2.1).1 w hw ⟨heq.1.symm, heq.2.symm⟩

theorem VotesOk.record (h : VotesOk epoch n b) (authorize : Bool) (hsigner : signer ∈ b.signers)
    (hnone : ∀ v ∈ b.votes, ¬ (v.signer = signer ∧ v.address = address)) :
    VotesOk epoch n (b.record signer n address authorize) ∧
      ∀ v ∈ (b.record signer n address authorize).votes, v ∈ b.votes ∨
        v = { signer, block := n, address, authorize } := by
  rw [Board.record, Board.cast]
  by_cases hvalid : b.validVote address authorize = true
  · rw [hvalid]
    simp only [Bool.not_true, Bool.false_eq_true, if_false, if_true]
    have hside : authorize = sideOf b.signers address := by
      rw [Board.validVote] at hvalid
      rw [sideOf]
      by_cases hmem : address ∈ b.signers <;> cases authorize <;> simp_all
    refine ⟨⟨?_, ?_, fun v hv => ?_, fun v hv => ?_⟩, fun v hv => ?_⟩
    · exact h.counted.add (v := { signer, block := n, address, authorize }) hside rfl
    · refine List.pairwise_append.2 ⟨h.unique, List.pairwise_singleton _ _, fun v hv w hw => ?_⟩
      rw [List.mem_singleton.1 hw]
      exact hnone v hv
    · rcases List.mem_append.1 hv with hv | hv
      · exact h.signers v hv
      · rw [List.mem_singleton.1 hv]
        exact hsigner
    · rcases List.mem_append.1 hv with hv | hv
      · exact h.current v hv
      · rw [List.mem_singleton.1 hv]
        exact ⟨rfl, le_rfl⟩
    · rcases List.mem_append.1 hv with hv | hv
      · exact .inl hv
      · exact .inr (List.mem_singleton.1 hv)
  · rw [Bool.not_eq_true] at hvalid
    rw [hvalid]
    exact ⟨h, fun v hv => .inl hv⟩

theorem VotesOk.decideVote (h : VotesOk epoch n b) (address : Address) :
    VotesOk epoch n (b.decideVote n address) := by
  rw [Board.decideVote]
  simp only
  split_ifs with hpass hauth
  · refine ⟨h.counted.dropAbout fun x hx => ?_, h.unique.sublist List.filter_sublist,
      fun v hv => ?_, fun v hv => h.current v (List.mem_filter.1 hv).1⟩
    · rw [sideOf, sideOf]
      simp [hx]
    · exact Finset.mem_insert_of_mem (h.signers v (List.mem_filter.1 hv).1)
  · have hdrop := @Counted.dropVotes _ b.votes [] b.tally h.counted address
    have hboard : b.deauthorize n address = { b with
        signers := b.signers.erase address
        recents := (b.deauthorize n address).recents
        votes := b.votes.filter fun v => v.signer ≠ address
        tally := (Clique.dropVotes address b.votes b.tally).2 } := by
      rw [Board.deauthorize, forget_eq]
      simp only [hdrop.1]
    rw [hboard]
    have hmem : ∀ v ∈ (b.votes.filter fun v => v.signer ≠ address).filter fun v =>
        v.address ≠ address, v ∈ b.votes ∧ v.signer ≠ address := by
      intro v hv
      obtain ⟨hv, -⟩ := List.mem_filter.1 hv
      obtain ⟨hv, hne⟩ := List.mem_filter.1 hv
      exact ⟨hv, by simpa using hne⟩
    refine ⟨Counted.dropAbout (f := sideOf b.signers) ?_ fun x hx => ?_,
      h.unique.sublist (List.filter_sublist.trans List.filter_sublist), fun v hv => ?_,
      fun v hv => h.current v (hmem v hv).1⟩
    · have hcounted := hdrop.2
      rw [hdrop.1] at hcounted
      exact hcounted
    · rw [sideOf, sideOf]
      simp [hx]
    · obtain ⟨hv, hne⟩ := hmem v hv
      exact Finset.mem_erase.2 ⟨hne, h.signers v hv⟩
  · exact h

/-- The board when the votes of a header are counted. -/
theorem VotesOk.boardCounted {config : Config} {h : Header} (hok : VotesOk config.epoch n b)
    (authorize : Bool) (hnumber : h.number = n + 1) (hsigner : signer ∈ b.signers) :
    VotesOk config.epoch (n + 1) (b.counted config h signer authorize) ∧
      ∀ v ∈ (b.counted config h signer authorize).votes,
        (v ∈ b.votes ∧ h.number % config.epoch ≠ 0 ∧
          ¬ (v.signer = signer ∧ v.address = h.coinbase)) ∨
          v = { signer, block := h.number, address := h.coinbase, authorize } := by
  have haccept : VotesOk config.epoch (n + 1) (b.accept config h.number signer) := by
    rw [Board.accept, Board.opened, forget_eq, hnumber]
    exact hok.resetVotes.withRecents _
  have hsub : ∀ v ∈ (b.accept config h.number signer).votes,
      v ∈ b.votes ∧ h.number % config.epoch ≠ 0 := by
    intro v hv
    rw [Board.accept, Board.opened, forget_eq, Board.resetVotes] at hv
    split_ifs at hv with hreset
    · cases hv
    · exact ⟨hv, hreset⟩
  obtain ⟨hdiscard, hnone, hmem⟩ := haccept.discard signer h.coinbase
  have hsigner' : signer ∈ ((b.accept config h.number signer).discard signer h.coinbase).signers := by
    rw [(discard_eq _ _ _).1, (accept_eq _ _ _ _).1]
    exact hsigner
  rw [Board.counted]
  rw [← hnumber] at hdiscard ⊢
  obtain ⟨hrecord, hvotes⟩ := hdiscard.record authorize hsigner' hnone
  refine ⟨hrecord, fun v hv => (hvotes v hv).imp_left fun hv => ?_⟩
  obtain ⟨hold, hepoch⟩ := hsub v (hmem v hv)
  exact ⟨hold, hepoch, hnone v hv⟩

/-! ## Runs -/

variable {config : Config} {s s' : Snapshot} {hs : List Header}

theorem votesOk_newSnapshot (epoch : ℕ) (hash : Word) (signers : List Address) :
    VotesOk epoch 0 (newSnapshot 0 hash signers).toBoard :=
  ⟨.empty _, .nil, fun _ hv => absurd hv List.not_mem_nil,
    fun _ hv => absurd hv List.not_mem_nil⟩

theorem votesOk_of_reached {hash : Word} {signers : List Address}
    (hr : Reached config (newSnapshot 0 hash signers) hs s) :
    VotesOk config.epoch s.number s.toBoard := by
  refine Reached.steps (P := fun _ s => VotesOk config.epoch s.number s.toBoard)
    (votesOk_newSnapshot _ _ _) (fun _ hok happly => ?_) hr
  obtain ⟨signer, authorize, hap⟩ := applied_of_apply happly
  rw [hap.board, hap.number', hap.number]
  exact (hok.boardCounted authorize hap.number hap.authorized).1.decideVote _

theorem decideVote_change {n : ℕ} {b : Board} {address a : Address}
    (ha : a ∈ (b.decideVote n address).signers ↔ a ∉ b.signers) :
    a = address ∧ b.signers.card / 2 < ((b.tally.get address).getD ⟨false, 0⟩).votes := by
  rw [Board.decideVote] at ha
  simp only at ha
  split_ifs at ha with hpass hauth
  · refine ⟨?_, hpass⟩
    by_contra hne
    rw [Finset.mem_insert, or_iff_right hne] at ha
    exact iff_not_self ha
  · refine ⟨?_, hpass⟩
    by_contra hne
    rw [Board.deauthorize, forget_eq] at ha
    simp only [Finset.mem_erase, ne_eq, hne, not_false_eq_true, true_and] at ha
    exact iff_not_self ha
  · exact absurd ha iff_not_self

/-- The signers whose votes are counted for an address. -/
def votersOf (b : Board) (a : Address) : Finset Address :=
  ((b.votes.filter fun v => v.address = a).map Vote.signer).toFinset

theorem card_votersOf {epoch n : ℕ} {b : Board} (h : VotesOk epoch n b) (a : Address) :
    (votersOf b a).card = votesAbout b.votes a := by
  rw [votersOf, List.toFinset_card_of_nodup, List.length_map, votesAbout, List.countP_eq_length_filter]
  refine List.pairwise_map.2 ?_
  refine List.Pairwise.imp_of_mem (fun hv hw hunique heq => hunique ⟨heq, ?_⟩)
    (h.unique.sublist List.filter_sublist)
  rw [of_decide_eq_true (List.mem_filter.1 hv).2, of_decide_eq_true (List.mem_filter.1 hw).2]

/-- **Voting.**  In every snapshot of a run: the tallies count the votes, which are all for the
    tally's side; there is one vote for a signer and an address, cast in the current epoch by an
    address that is still a signer; and the next header changes the authorization of an address
    only if more than half of the signers have votes for this change. -/
theorem voting_ok (config : Config) (hash : Word) (signers : List Address) (hs : List Header)
    (s : Snapshot) (hr : Reached config (newSnapshot 0 hash signers) hs s) :
    (∀ a, (s.tally.get a).isSome ↔ ∃ v ∈ s.votes, v.address = a) ∧
    (∀ a t, s.tally.get a = some t → t.votes = s.votes.countP (fun v => v.address = a) ∧
      ∀ v ∈ s.votes, v.address = a → v.authorize = t.authorize) ∧
    s.votes.Pairwise (fun v w => ¬ (v.signer = w.signer ∧ v.address = w.address)) ∧
    (∀ v ∈ s.votes, v.signer ∈ s.signers ∧ v.block ≤ s.number ∧
      v.block / config.epoch = s.number / config.epoch) ∧
    ∀ h s', s.apply config [h] = .ok s' → ∀ a, (a ∈ s'.signers ↔ a ∉ s.signers) →
      ∃ voters ⊆ s.signers, s.signers.card < 2 * voters.card ∧ ∀ x ∈ voters,
        (config.ecrecover h = .ok x ∧ h.coinbase = a ∧
          Board.voteOf h = .ok (decide (a ∉ s.signers))) ∨
        (h.number % config.epoch ≠ 0 ∧ ∃ v ∈ s.votes, v.signer = x ∧ v.address = a ∧
          v.authorize = decide (a ∉ s.signers)) := by
  have hok := votesOk_of_reached hr
  refine ⟨fun a => ?_, fun a t ht => ?_, hok.unique,
    fun v hv => ⟨hok.signers v hv, (hok.current v hv).2, (hok.current v hv).1⟩, ?_⟩
  · rw [hok.counted.counts, tallyOf]
    split_ifs with hzero
    · rw [votesAbout_eq_zero] at hzero
      exact ⟨nofun, fun ⟨v, hv, ha⟩ => absurd ha (hzero v hv)⟩
    · rw [votesAbout_eq_zero] at hzero
      push Not at hzero
      exact ⟨fun _ => hzero, fun _ => rfl⟩
  · rw [hok.counted.counts, tallyOf] at ht
    split_ifs at ht
    cases ht
    refine ⟨rfl, fun v hv ha => ?_⟩
    rw [hok.counted.sides v hv, ha]
  · intro h s' happly a hchange
    obtain ⟨signer, authorize, hap⟩ := applied_of_apply happly
    obtain ⟨hcounted, hvotes⟩ := hok.boardCounted authorize hap.number hap.authorized
    have hsigners := (counted_eq s.toBoard config h signer authorize).1
    rw [hap.board, ← hsigners] at hchange
    obtain ⟨rfl, hpass⟩ := decideVote_change hchange
    have hvoter : ∀ x ∈ votersOf (s.counted config h signer authorize) h.coinbase,
        ∃ v ∈ (s.counted config h signer authorize).votes, v.address = h.coinbase ∧ v.signer = x := by
      intro x hx
      obtain ⟨v, hv, rfl⟩ := List.mem_map.1 (List.mem_toFinset.1 hx)
      obtain ⟨hv, haddress⟩ := List.mem_filter.1 hv
      exact ⟨v, hv, of_decide_eq_true haddress, rfl⟩
    refine ⟨votersOf (s.counted config h signer authorize) h.coinbase, fun x hx => ?_, ?_,
      fun x hx => ?_⟩
    · obtain ⟨v, hv, -, rfl⟩ := hvoter x hx
      rw [← hsigners]
      exact hcounted.signers v hv
    · rw [hcounted.counted.counts, tallyOf] at hpass
      rw [card_votersOf hcounted, ← hsigners]
      split_ifs at hpass
      · exact absurd hpass (Nat.not_lt_zero _)
      · change _ < votesAbout _ _ at hpass
        omega
    · obtain ⟨v, hv, haddress, rfl⟩ := hvoter x hx
      have hside := hcounted.counted.sides v hv
      rw [haddress, sideOf, hsigners] at hside
      rcases hvotes v hv with ⟨hold, hepoch, -⟩ | rfl
      · exact .inr ⟨hepoch, v, hold, rfl, haddress, hside⟩
      · exact .inl ⟨hap.signer_eq, rfl, hap.vote.trans (congrArg _ hside)⟩

theorem voting_ok_first : ∃ s, Reached coinbaseConfig fourSigners [signedBy 1 1] s ∧
    s.votes = [⟨1, 1, 1, false⟩] ∧ (s.tally.get 1).isSome := by
  have hr : Reached coinbaseConfig fourSigners [signedBy 1 1] _ := .apply .start rfl
  refine ⟨_, hr, rfl, ?_⟩
  exact ((voting_ok coinbaseConfig 0 [1, 2, 3, 4] _ _ hr).1 1).2 ⟨_, .head _, rfl⟩

end GoEthereum.Clique
