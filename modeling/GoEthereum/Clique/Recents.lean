/-
  How often a signer signs (`signing_rate`), and when a seal is accepted (`seal_agrees`).

  The recent signers are a sliding window over the signers of all blocks, whose length follows
  the number of signers (`recents_window`).  `apply` and `Seal` look at this window alike.  The
  unsigned subtraction of `verifySeal` wraps for the first blocks of a chain with many signers.
-/
import GoEthereum.Lib.Outcome
import GoEthereum.Lib.Window
import GoEthereum.Clique.Snapshot

namespace GoEthereum.Clique

open GoEthereum.Core AssocMap Outcome

variable {config : Config} {s s' g : Snapshot} {hs : List Header} {h : Header} {b : Board}
  {n : ℕ} {signer address : Address} {authorize : Bool}

/-! ## Runs -/

/-- The snapshots that `apply` gives, in batches of any length, and the headers so far. -/
inductive Reached (config : Config) (g : Snapshot) : List Header → Snapshot → Prop
  | start : Reached config g [] g
  | apply {hs hs' : List Header} {s s' : Snapshot} : Reached config g hs s →
      s.apply config hs' = .ok s' → Reached config g (hs ++ hs') s'

theorem apply_cons {rest : List Header} (happly : s.apply config (h :: rest) = .ok s') :
    ∃ s₁, s.apply config [h] = .ok s₁ ∧ s₁.apply config rest = .ok s' := by
  cases rest with
  | nil => exact ⟨s', happly, rfl⟩
  | cons h' rest =>
    rw [Snapshot.apply_cons] at happly
    split_ifs at happly with hcons hnumber
    rw [consecutive, Bool.and_eq_true, decide_eq_true_eq] at hcons
    rw [not_not] at hnumber
    obtain ⟨board, hboard, hresult⟩ := bind_eq_ok happly
    rw [List.foldlM_cons] at hboard
    obtain ⟨b₁, hb₁, hboard⟩ := bind_eq_ok hboard
    refine ⟨{ b₁ with number := s.number + 1, hash := h.hash }, ?_, ?_⟩
    · rw [Snapshot.apply_cons, if_neg (by simp [consecutive]), if_neg (by simpa using hnumber)]
      simp only [List.foldlM_cons, hb₁, ok_bind, List.foldlM_nil]
      rfl
    · rw [Snapshot.apply_cons, if_neg (by simpa using hcons.2), if_neg (by simp [hcons.1, hnumber])]
      rw [hboard, ok_bind, ← hresult]
      simp [Nat.add_assoc, Nat.add_comm 1]

theorem Reached.steps {P : List Header → Snapshot → Prop} (hstart : P [] g)
    (hstep : ∀ {hs s h s'}, Reached config g hs s → P hs s → s.apply config [h] = .ok s' →
      P (hs ++ [h]) s') (hr : Reached config g hs s) : P hs s := by
  induction hr with
  | start => exact hstart
  | @apply hs hs' s s' hr happly ih =>
    induction hs' generalizing hs s with
    | nil =>
      cases happly
      rw [List.append_nil]
      exact ih
    | cons h rest ihrest =>
      obtain ⟨s₁, hs₁, hrest⟩ := apply_cons happly
      rw [List.append_cons]
      exact ihrest (.apply hr hs₁) hrest (hstep hr ih hs₁)

/-! ## One header -/

theorem forget_eq (b : Board) (n : ℕ) :
    b.forget n = { b with recents := Window.forget n b.limit b.recents } := by
  rw [Board.forget, Window.forget]
  split_ifs <;> rfl

@[simp]
theorem signers_resetVotes (b : Board) (epoch n : ℕ) : (b.resetVotes epoch n).signers = b.signers := by
  rw [Board.resetVotes]
  split_ifs <;> rfl

@[simp]
theorem recents_resetVotes (b : Board) (epoch n : ℕ) : (b.resetVotes epoch n).recents = b.recents := by
  rw [Board.resetVotes]
  split_ifs <;> rfl

theorem discard_eq (b : Board) (signer address : Address) :
    (b.discard signer address).signers = b.signers ∧
      (b.discard signer address).recents = b.recents := by
  rw [Board.discard]
  split
  · exact ⟨rfl, rfl⟩
  · exact ⟨rfl, rfl⟩

theorem record_eq (b : Board) (signer : Address) (n : ℕ) (address : Address) (authorize : Bool) :
    (b.record signer n address authorize).signers = b.signers ∧
      (b.record signer n address authorize).recents = b.recents := by
  rw [Board.record, Board.cast]
  split_ifs <;> exact ⟨rfl, rfl⟩

/-- The board on which the signer of a header is checked. -/
def Board.opened (b : Board) (config : Config) (n : ℕ) : Board :=
  (b.resetVotes config.epoch n).forget n

theorem opened_eq (b : Board) (config : Config) (n : ℕ) :
    (b.opened config n).signers = b.signers ∧
      (b.opened config n).recents = Window.forget n b.limit b.recents := by
  rw [Board.opened, forget_eq, Board.limit, signers_resetVotes, recents_resetVotes]
  exact ⟨rfl, rfl⟩

/-- The board when the signer of a header is accepted. -/
def Board.accept (b : Board) (config : Config) (n : ℕ) (signer : Address) : Board :=
  { b.opened config n with recents := (b.opened config n).recents.set n signer }

/-- The board when the vote of a header is counted. -/
def Board.counted (b : Board) (config : Config) (h : Header) (signer : Address)
    (authorize : Bool) : Board :=
  ((b.accept config h.number signer).discard signer h.coinbase).record signer h.number h.coinbase
    authorize

theorem accept_eq (b : Board) (config : Config) (n : ℕ) (signer : Address) :
    (b.accept config n signer).signers = b.signers ∧
      (b.accept config n signer).recents = (Window.forget n b.limit b.recents).set n signer := by
  obtain ⟨hsigners, hrecents⟩ := opened_eq b config n
  exact ⟨hsigners, congrArg (·.set n signer) hrecents⟩

theorem counted_eq (b : Board) (config : Config) (h : Header) (signer : Address) (authorize : Bool) :
    (b.counted config h signer authorize).signers = b.signers ∧
      (b.counted config h signer authorize).recents =
        (Window.forget h.number b.limit b.recents).set h.number signer := by
  obtain ⟨hrs, hrr⟩ := record_eq ((b.accept config h.number signer).discard signer h.coinbase)
    signer h.number h.coinbase authorize
  obtain ⟨hds, hdr⟩ := discard_eq (b.accept config h.number signer) signer h.coinbase
  obtain ⟨has, har⟩ := accept_eq b config h.number signer
  exact ⟨hrs.trans (hds.trans has), hrr.trans (hdr.trans har)⟩

/-- What a header that is applied has passed, and what it does. -/
structure Applied (config : Config) (s : Snapshot) (h : Header) (s' : Snapshot) (signer : Address)
    (authorize : Bool) : Prop where
  number : h.number = s.number + 1
  signer_eq : config.ecrecover h = .ok signer
  authorized : signer ∈ s.signers
  fresh : ∀ k, (Window.forget h.number s.limit s.recents).get k ≠ some signer
  vote : Board.voteOf h = .ok authorize
  board : s'.toBoard = (s.counted config h signer authorize).decideVote h.number h.coinbase
  number' : s'.number = s.number + 1

theorem exists_recent {m : AssocMap ℕ Address} {P : ℕ → Prop}
    (hP : ∀ k, P k → m.get k = some signer) : (∃ k ∈ m.keys, P k) ↔ ∃ k, P k :=
  ⟨fun ⟨k, _, hk⟩ => ⟨k, hk⟩, fun ⟨k, hk⟩ => ⟨k, (mem_keys _ _).2 ⟨_, hP k hk⟩, hk⟩⟩

theorem apply_single (hnumber : h.number = s.number + 1) : s.apply config [h] = do
    let board ← s.applyHeader config h
    return { board with number := s.number + 1, hash := h.hash } := by
  rw [Snapshot.apply_cons, if_neg (by simp [consecutive]), if_neg (not_not.2 hnumber), List.foldlM_cons,
    bind_assoc]
  rfl

theorem applyHeader_unauthorized (hsigner : config.ecrecover h = .ok signer)
    (hnot : signer ∉ b.signers) : b.applyHeader config h = .error .unauthorizedSigner := by
  have hopened := opened_eq b config h.number
  rw [Board.applyHeader, hsigner, ok_bind]
  exact if_pos (hopened.1 ▸ hnot)

theorem applyHeader_recent (hsigner : config.ecrecover h = .ok signer) (hmem : signer ∈ b.signers)
    (hrecent : ∃ k, (Window.forget h.number b.limit b.recents).get k = some signer) :
    b.applyHeader config h = .error .recentlySigned := by
  have hopened := opened_eq b config h.number
  rw [Board.applyHeader, hsigner, ok_bind]
  refine (if_neg (not_not.2 (hopened.1 ▸ hmem))).trans (if_pos ((exists_recent fun _ => id).2 ?_))
  exact hopened.2 ▸ hrecent

theorem applyHeader_fresh (hsigner : config.ecrecover h = .ok signer) (hmem : signer ∈ b.signers)
    (hfresh : ¬ ∃ k, (Window.forget h.number b.limit b.recents).get k = some signer) :
    b.applyHeader config h = do
      let authorize ← Board.voteOf h
      return (b.counted config h signer authorize).decideVote h.number h.coinbase := by
  have hopened := opened_eq b config h.number
  rw [Board.applyHeader, hsigner, ok_bind]
  refine (if_neg (not_not.2 (hopened.1 ▸ hmem))).trans (if_neg fun hrecent => hfresh ?_)
  exact hopened.2 ▸ (exists_recent fun _ => id).1 hrecent

theorem applied_of_apply (happly : s.apply config [h] = .ok s') :
    ∃ signer authorize, Applied config s h s' signer authorize := by
  have hnumber : h.number = s.number + 1 := by
    rw [Snapshot.apply_cons] at happly
    split_ifs at happly with hcons hnumber
    exact not_not.1 hnumber
  rw [apply_single hnumber] at happly
  obtain ⟨board, hboard, hresult⟩ := bind_eq_ok happly
  cases hresult
  rcases hsigner : config.ecrecover h with err | signer
  · rw [Board.applyHeader, hsigner] at hboard
    cases hboard
  by_cases hmem : signer ∈ s.signers
  · by_cases hrecent : ∃ k, (Window.forget h.number s.limit s.recents).get k = some signer
    · rw [applyHeader_recent hsigner hmem hrecent] at hboard
      cases hboard
    · rw [applyHeader_fresh hsigner hmem hrecent] at hboard
      obtain ⟨authorize, hvote, hboard⟩ := bind_eq_ok hboard
      cases hboard
      exact ⟨signer, authorize, hnumber, hsigner, hmem, fun k hk => hrecent ⟨k, hk⟩, hvote, rfl,
        rfl⟩
  · rw [applyHeader_unauthorized hsigner hmem] at hboard
    cases hboard

/-- A vote leaves the signers, adds one or removes one. -/
theorem decideVote_cases (b : Board) (n : ℕ) (address : Address) :
    ((b.decideVote n address).recents = b.recents ∧ b.signers ⊆ (b.decideVote n address).signers ∧
      (b.decideVote n address).signers.card ≤ b.signers.card + 1) ∨
    ((b.decideVote n address).recents =
        Window.forget n (b.decideVote n address).limit b.recents ∧
      (b.decideVote n address).signers ⊆ b.signers ∧
      b.signers.card ≤ (b.decideVote n address).signers.card + 1) := by
  rw [Board.decideVote]
  simp only
  split_ifs with hpass hauth
  · exact .inl ⟨rfl, Finset.subset_insert _ _, Finset.card_insert_le _ _⟩
  · refine .inr ?_
    have hdrop : (b.deauthorize n address).signers = b.signers.erase address ∧
        (b.deauthorize n address).recents =
          Window.forget n ((b.signers.erase address).card / 2 + 1) b.recents := by
      rw [Board.deauthorize, forget_eq]
      exact ⟨rfl, rfl⟩
    refine ⟨?_, ?_, ?_⟩
    · change (b.deauthorize n address).recents = Window.forget n
        ((b.deauthorize n address).signers.card / 2 + 1) b.recents
      rw [hdrop.2, hdrop.1]
    · change (b.deauthorize n address).signers ⊆ _
      rw [hdrop.1]
      exact Finset.erase_subset _ _
    · change _ ≤ (b.deauthorize n address).signers.card + 1
      rw [hdrop.1]
      have := Finset.pred_card_le_card_erase (s := b.signers) (a := address)
      omega
  · exact .inl ⟨rfl, Finset.Subset.refl _, Nat.le_succ _⟩

/-! ## The window of recent signers -/

/-- The signer of the block with a number. -/
def signerAt (config : Config) (hs : List Header) : ℕ → Option Address
  | 0 => none
  | k + 1 => hs[k]?.bind fun h => (config.ecrecover h).toOption

theorem signerAt_append {k : ℕ} (hk : k ≤ hs.length) (h : Header) :
    signerAt config (hs ++ [h]) k = signerAt config hs k := by
  cases k with
  | zero => rfl
  | succ k => rw [signerAt, signerAt, List.getElem?_append_left hk]

theorem signerAt_last (hsigner : config.ecrecover h = .ok signer) :
    signerAt config (hs ++ [h]) (hs.length + 1) = some signer := by
  rw [signerAt, List.getElem?_concat_length, Option.bind_some, hsigner]
  rfl

/-- What holds of the recent signers of a snapshot. -/
structure RecentsOk (config : Config) (size : ℕ) (hs : List Header) (s : Snapshot) : Prop where
  number : s.number = hs.length
  numbers : ∀ {k h}, hs[k]? = some h → h.number = k + 1
  window : Window (signerAt config hs) hs.length s.limit s.recents
  card_le : s.signers.card ≤ size + hs.length

theorem RecentsOk.step {size : ℕ} (hok : RecentsOk config size hs s)
    (happly : s.apply config [h] = .ok s') :
    RecentsOk config size (hs ++ [h]) s' := by
  obtain ⟨signer, authorize, hap⟩ := applied_of_apply happly
  have hnumber : h.number = hs.length + 1 := by rw [hap.number, hok.number]
  obtain ⟨hsigners, hrecents⟩ := counted_eq s.toBoard config h signer authorize
  have hexact : Window.Exact (signerAt config (hs ++ [h])) (hs.length + 1) s.limit
      (s.counted config h signer authorize).recents := by
    rw [hrecents, hnumber]
    exact hok.window.next (Nat.succ_pos _) (fun k hk => signerAt_append hk h)
      (signerAt_last hap.signer_eq)
  have hlimit : ∀ b : Board, b.limit = b.signers.card / 2 + 1 := fun b => rfl
  have hcard := hok.card_le
  refine ⟨?_, fun {k h'} hk => ?_, ?_, ?_⟩
  · rw [hap.number', hok.number, List.length_append, List.length_singleton]
  · rcases Nat.lt_or_ge k hs.length with hlt | hge
    · rw [List.getElem?_append_left hlt] at hk
      exact hok.numbers hk
    · have hlen := (List.getElem?_eq_some_iff.1 hk).1
      rw [List.length_append, List.length_singleton] at hlen
      obtain rfl : k = hs.length := by omega
      rw [List.getElem?_concat_length] at hk
      cases hk
      exact hnumber
  · rw [hap.board, List.length_append, List.length_singleton]
    rcases decideVote_cases (s.counted config h signer authorize) h.number h.coinbase with
      ⟨hrec, hsub, hle⟩ | ⟨hrec, hsub, hle⟩
    · have hge := Finset.card_le_card hsub
      rw [hsigners] at hge hle
      rw [hrec]
      refine hexact.grow ?_ ?_
      · rw [hlimit, hlimit]
        omega
      · rw [hlimit, hlimit]
        omega
    · have hge := Finset.card_le_card hsub
      rw [hsigners] at hge hle
      rw [hrec, hnumber]
      rw [hnumber] at hge hle
      refine hexact.shrink ?_ ?_
      · rw [hlimit, hlimit]
        omega
      · rw [hlimit, hlimit]
        omega
  · rw [hap.board, List.length_append, List.length_singleton]
    rcases decideVote_cases (s.counted config h signer authorize) h.number h.coinbase with
      ⟨-, -, hle⟩ | ⟨-, hsub, -⟩
    · rw [hsigners] at hle
      omega
    · have hge := Finset.card_le_card hsub
      rw [hsigners] at hge
      omega

theorem recents_window {hash : Word} {signers : List Address}
    (hr : Reached config (newSnapshot 0 hash signers) hs s) :
    RecentsOk config signers.length hs s := by
  refine hr.steps ⟨rfl, nofun, .empty _ _ rfl, List.toFinset_card_le signers⟩ ?_
  exact fun _ hok happly => hok.step happly

theorem Reached.split (hr : Reached config g hs s) {j : ℕ} (hj : hs[j]? = some h) :
    ∃ before after, Reached config g (hs.take j) before ∧ before.apply config [h] = .ok after := by
  refine Reached.steps (P := fun hs _ => ∀ j h, hs[j]? = some h → ∃ before after,
    Reached config g (hs.take j) before ∧ before.apply config [h] = .ok after) nofun ?_ hr j h hj
  intro hs s h s' hr ih happly j h' hj
  rcases Nat.lt_or_ge j hs.length with hlt | hge
  · rw [List.getElem?_append_left hlt] at hj
    rw [List.take_append_of_le_length hlt.le]
    exact ih j h' hj
  · have hlen := (List.getElem?_eq_some_iff.1 hj).1
    rw [List.length_append, List.length_singleton] at hlen
    obtain rfl : j = hs.length := by omega
    rw [List.getElem?_concat_length] at hj
    cases hj
    rw [List.take_left']
    · exact ⟨s, s', hr, happly⟩
    · rfl

/-- **The rate of signing.**  In every run from a genesis snapshot, whatever votes are cast: if a
    signer signs two blocks, their distance is more than half of the number of signers before the
    second one; and the recent signers are those of at most that many blocks. -/
theorem signing_rate (config : Config) (hash : Word) (signers : List Address) (hs : List Header)
    (s : Snapshot) (hr : Reached config (newSnapshot 0 hash signers) hs s) :
    (∀ i j h h', i < j → hs[i]? = some h → hs[j]? = some h' →
      config.ecrecover h = config.ecrecover h' →
      ∃ before, Reached config (newSnapshot 0 hash signers) (hs.take j) before ∧
        before.signers.card / 2 + 1 ≤ h'.number - h.number) ∧
    ∀ k a, s.recents.get k = some a →
      s.number < k + (s.signers.card / 2 + 1) ∧ k ≤ s.number := by
  have hok := recents_window hr
  constructor
  · intro i j h h' hij hi hj hsame
    obtain ⟨before, after, hbefore, happly⟩ := hr.split hj
    refine ⟨before, hbefore, ?_⟩
    have hok' := recents_window hbefore
    obtain ⟨signer, authorize, hap⟩ := applied_of_apply happly
    have hjlen : (hs.take j).length = j := by
      have hlt := (List.getElem?_eq_some_iff.1 hj).1
      rw [List.length_take]
      omega
    have hi' : (hs.take j)[i]? = some h := by
      rw [List.getElem?_take_of_lt hij]
      exact hi
    have hat : signerAt config (hs.take j) (i + 1) = some signer := by
      rw [signerAt, hi', Option.bind_some, hsame, hap.signer_eq]
      rfl
    have hnumber := hok.numbers hi
    have hnumber' := hok.numbers hj
    by_contra hlt
    refine hap.fresh (i + 1) ?_
    rw [hnumber', ← hjlen]
    refine hok'.window.advance.2 ⟨hat, by omega, ?_⟩
    have hlimit : before.limit = before.signers.card / 2 + 1 := rfl
    omega
  · intro k a hk
    obtain ⟨-, hle, hlt⟩ := hok.window.sound hk
    rw [hok.number]
    exact ⟨hlt, hle⟩

/-! ## Seals -/

theorem sub64_of_le {a c : ℕ} (ha : a < 2 ^ 64) (hle : c ≤ a) : sub64 a c = a - c := by
  rw [sub64, Nat.mod_eq_of_lt (hle.trans_lt ha)]
  omega

theorem sub64_of_lt {a c : ℕ} (hlt : a < c) (hc : c < 2 ^ 64) : sub64 a c = 2 ^ 64 + a - c := by
  rw [sub64, Nat.mod_eq_of_lt hc]
  omega

variable {size : ℕ}

theorem RecentsOk.forget_iff (hok : RecentsOk config size hs s) (hnumber : h.number = s.number + 1) :
    (∃ k, (Window.forget h.number s.limit s.recents).get k = some signer) ↔
      ∃ k, s.recents.get k = some signer ∧ h.number < k + s.limit := by
  have hlen : h.number = hs.length + 1 := by rw [hnumber, hok.number]
  rw [hlen]
  constructor
  · rintro ⟨k, hk⟩
    obtain ⟨hhist, hle, hlt⟩ := hok.window.advance.1 hk
    exact ⟨k, hok.window.complete hhist hle hlt, hlt⟩
  · rintro ⟨k, hk, hlt⟩
    obtain ⟨hhist, hle, -⟩ := hok.window.sound hk
    exact ⟨k, hok.window.advance.2 ⟨hhist, hle, hlt⟩⟩

theorem RecentsOk.seal_iff (hok : RecentsOk config size hs s) (hsize : size + hs.length < 2 ^ 63)
    (hnumber : h.number = s.number + 1) :
    (∃ k ∈ s.recents.keys, s.recents.get k = some signer ∧
      (h.number < s.limit ∨ k > sub64 h.number s.limit)) ↔
      ∃ k, s.recents.get k = some signer ∧ h.number < k + s.limit := by
  have hlen := hok.number
  have hiff : ∀ k, (h.number < s.limit ∨ k > sub64 h.number s.limit) ↔ h.number < k + s.limit := by
    intro k
    rcases Nat.lt_or_ge h.number s.limit with hlt | hge
    · exact ⟨fun _ => by omega, fun _ => .inl hlt⟩
    · rw [sub64_of_le (by omega) hge]
      omega
  simp only [hiff]
  exact exists_recent fun _ => And.left

theorem RecentsOk.verify_iff (hok : RecentsOk config size hs s) (hsize : size + hs.length < 2 ^ 63)
    (hnumber : h.number = s.number + 1) (signer : Address) :
    (∃ k ∈ s.recents.keys, s.recents.get k = some signer ∧ k > sub64 h.number s.limit) ↔
      s.limit ≤ h.number ∧ ∃ k, s.recents.get k = some signer ∧ h.number < k + s.limit := by
  have hlen := hok.number
  have hcard := hok.card_le
  have hlimit : s.limit = s.signers.card / 2 + 1 := rfl
  rw [exists_recent fun _ => And.left]
  constructor
  · rintro ⟨k, hk, hlt⟩
    obtain ⟨-, hle, -⟩ := hok.window.sound hk
    rcases Nat.lt_or_ge h.number s.limit with hsmall | hge
    · rw [sub64_of_lt hsmall (by omega)] at hlt
      omega
    · rw [sub64_of_le (by omega) hge] at hlt
      exact ⟨hge, k, hk, by omega⟩
  · rintro ⟨hge, k, hk, hlt⟩
    refine ⟨k, hk, ?_⟩
    rw [sub64_of_le (by omega) hge]
    omega

/-- The rule is the same for `verifySeal`, for `apply` and for `Seal`. -/
def SealAgrees (config : Config) (s : Snapshot) (h : Header) (signer : Address) : Prop :=
  ((∃ a, verifySigner config s h = .ok a) ↔ ∃ s', s.apply config [h] = .ok s') ∧
  ∀ block : Block, block.header = h → sealBlock config s signer block ≠ .paused →
    (sealBlock config s signer block = .signedRecently ↔
      verifySigner config s h = .error .recentlySigned)

theorem verifySigner_eq (hsigner : config.ecrecover h = .ok signer) (hmem : signer ∈ s.signers) :
    verifySigner config s h = if ∃ seen ∈ s.recents.keys, s.recents.get seen = some signer ∧
      seen > sub64 h.number s.limit then .error .recentlySigned else .ok signer := by
  rw [verifySigner, hsigner, ok_bind]
  exact if_neg (not_not.2 hmem)

theorem signedRecently_iff {block : Block} (hblock : block.header = h) (hnumber : h.number ≠ 0)
    (hmem : signer ∈ s.signers) (hpaused : sealBlock config s signer block ≠ .paused) :
    sealBlock config s signer block = .signedRecently ↔
      ∃ k ∈ s.recents.keys, s.recents.get k = some signer ∧
        (h.number < s.limit ∨ k > sub64 h.number s.limit) := by
  have hbnum : block.number = h.number := congrArg Header.number hblock
  rw [sealBlock, hbnum, if_neg hnumber, if_neg (not_not.2 hmem)] at hpaused ⊢
  by_cases hidle : config.period = 0 ∧ block.transactions = []
  · rw [if_pos hidle] at hpaused
    exact absurd rfl hpaused
  · rw [if_neg hidle]
    split_ifs with hwait
    · exact ⟨fun _ => hwait, fun _ => rfl⟩
    · exact ⟨fun h => (by cases h), fun h => absurd h hwait⟩

theorem sealAgrees_of_unauthorized (hnumber : h.number = s.number + 1)
    (hsigner : config.ecrecover h = .ok signer) (hmem : signer ∉ s.signers) :
    SealAgrees config s h signer := by
  have hverify : verifySigner config s h = .error .unauthorizedSigner := by
    rw [verifySigner, hsigner, ok_bind]
    exact if_pos hmem
  constructor
  · rw [hverify, apply_single hnumber, applyHeader_unauthorized hsigner hmem]
    exact ⟨nofun, nofun⟩
  · intro block hblock hpaused
    rw [hverify, sealBlock, if_pos hmem]
    split_ifs <;> exact ⟨nofun, nofun⟩

theorem apply_ok_iff (hok : RecentsOk config size hs s) (hnumber : h.number = s.number + 1)
    (hsigner : config.ecrecover h = .ok signer) (hmem : signer ∈ s.signers)
    (hvote : Board.voteOf h = .ok authorize) : (∃ s', s.apply config [h] = .ok s') ↔
      ¬ ∃ k, s.recents.get k = some signer ∧ h.number < k + s.limit := by
  rw [← hok.forget_iff hnumber, apply_single hnumber]
  by_cases hrecent : ∃ k, (Window.forget h.number s.limit s.recents).get k = some signer
  · rw [applyHeader_recent hsigner hmem hrecent]
    exact ⟨nofun, fun hfresh => absurd hrecent hfresh⟩
  · rw [applyHeader_fresh hsigner hmem hrecent, hvote]
    exact ⟨fun _ => hrecent, fun _ => ⟨_, rfl⟩⟩

/-- **Seals.**  For every snapshot that is reached from a genesis snapshot and every next header
    with a signer and a vote: the checks of `verifySeal`, `apply` and `Seal` agree if and only if
    the signer is not an authorized one that has signed before, at a block whose number is below
    the limit. -/
theorem seal_agrees (config : Config) (hash : Word) (signers : List Address) (hs : List Header)
    (s : Snapshot) (hr : Reached config (newSnapshot 0 hash signers) hs s)
    (hsize : signers.length + hs.length < 2 ^ 63) (h : Header) (hnumber : h.number = s.number + 1)
    (signer : Address) (hsigner : config.ecrecover h = .ok signer) (authorize : Bool)
    (hvote : Board.voteOf h = .ok authorize) : SealAgrees config s h signer ↔
      (signer ∈ s.signers → h.number < s.signers.card / 2 + 1 →
        ∀ k, s.recents.get k ≠ some signer) := by
  have hok := recents_window hr
  by_cases hmem : signer ∈ s.signers
  · have hverify := verifySigner_eq hsigner hmem
    have happly := apply_ok_iff hok hnumber hsigner hmem hvote
    have hseen := hok.verify_iff hsize hnumber signer
    constructor
    · intro hagrees _ hlt k hk
      have hlimit : s.limit = s.signers.card / 2 + 1 := rfl
      have hrefused := (not_congr happly).2 (not_not.2 ⟨k, hk, by omega⟩)
      refine hrefused (hagrees.1.1 ⟨signer, ?_⟩)
      rw [hverify, if_neg fun hex => ?_]
      exact absurd (hseen.1 hex).1 (not_le.2 hlt)
    · intro hcond
      have hiff : (∃ seen ∈ s.recents.keys, s.recents.get seen = some signer ∧
          seen > sub64 h.number s.limit) ↔
          ∃ k, s.recents.get k = some signer ∧ h.number < k + s.limit := by
        rw [hseen]
        refine ⟨And.right, ?_⟩
        rintro ⟨k, hk, hlt⟩
        refine ⟨?_, k, hk, hlt⟩
        by_contra hsmall
        exact hcond hmem (not_le.1 hsmall) k hk
      constructor
      · rw [happly, ← hiff, hverify]
        split_ifs with hex
        · refine ⟨?_, fun hnot => absurd hex hnot⟩
          rintro ⟨_, h⟩
          cases h
        · exact ⟨fun _ => hex, fun _ => ⟨_, rfl⟩⟩
      · intro block hblock hpaused
        rw [signedRecently_iff hblock (by omega) hmem hpaused, hok.seal_iff hsize hnumber, ← hiff,
          hverify]
        split_ifs with hex
        · exact ⟨fun _ => rfl, fun _ => hex⟩
        · exact ⟨fun h => absurd h hex, fun h => (by cases h)⟩
  · exact ⟨fun _ hm => absurd hm hmem, fun _ => sealAgrees_of_unauthorized hnumber hsigner hmem⟩

/-- A header with the signer in its coinbase field. -/
def signedBy (number : ℕ) (signer : Address) : Header :=
  { hash := .ofNat 256 number, parentHash := 0, difficulty := 1, number := number,
    coinbase := signer }

/-- The signer of a header is its coinbase. -/
def coinbaseConfig : Config where
  epoch := 30000
  epoch_pos := by decide
  period := 15
  ecrecover h := .ok h.coinbase

def fourSigners : Snapshot := newSnapshot 0 0 [1, 2, 3, 4]

theorem signing_rate_two : ∃ s, Reached coinbaseConfig fourSigners [signedBy 1 1, signedBy 2 2] s ∧
    s.recents.get 1 = some 1 ∧ s.recents.get 2 = some 2 ∧
    ∀ k a, s.recents.get k = some a → s.number < k + (s.signers.card / 2 + 1) ∧ k ≤ s.number := by
  have hr : Reached coinbaseConfig fourSigners [signedBy 1 1, signedBy 2 2] _ := .apply .start rfl
  exact ⟨_, hr, rfl, rfl, (signing_rate coinbaseConfig 0 [1, 2, 3, 4] _ _ hr).2⟩

/-- The second signer signs block 2. -/
theorem seal_agrees_two : ∃ s, Reached coinbaseConfig fourSigners [signedBy 1 1] s ∧
    SealAgrees coinbaseConfig s (signedBy 2 2) 2 := by
  have hr : Reached coinbaseConfig fourSigners [signedBy 1 1] _ := .apply .start rfl
  refine ⟨_, hr, (seal_agrees coinbaseConfig 0 [1, 2, 3, 4] _ _ hr (by decide) (signedBy 2 2) rfl 2
    rfl false rfl).2 fun _ _ k hk => ?_⟩
  change (AssocMap.set AssocMap.empty 1 1).get k = some 2 at hk
  rw [get_set, get_empty] at hk
  split_ifs at hk
  exact absurd (Option.some.inj hk) (by decide)

/-- The first signer signs block 2 as well: `verifySeal` accepts the header, `apply` and `Seal` do
    not. -/
theorem seal_disagrees : ∃ s, Reached coinbaseConfig fourSigners [signedBy 1 1] s ∧
    verifySigner coinbaseConfig s (signedBy 2 1) = .ok 1 ∧
    s.apply coinbaseConfig [signedBy 2 1] = .error .recentlySigned ∧
    sealBlock coinbaseConfig s 1 { header := signedBy 2 1 } = .signedRecently := by
  have hr : Reached coinbaseConfig fourSigners [signedBy 1 1] _ := .apply .start rfl
  exact ⟨_, hr, rfl, rfl, by decide⟩

/-! ## The rule -/

theorem signerAt_succ {k : ℕ} : signerAt config hs (k + 1) = some signer ↔
    ∃ h, hs[k]? = some h ∧ config.ecrecover h = .ok signer := by
  rw [signerAt, Option.bind_eq_some_iff]
  refine exists_congr fun h => and_congr_right fun _ => ?_
  cases config.ecrecover h <;> simp [Except.toOption]

/-- **The rule of the recent signers.**  In every snapshot of a run, the next header is accepted if
    and only if its signer is authorized and has signed none of the last headers, as many as half
    of the signers. -/
theorem accepted_iff (config : Config) (hash : Word) (signers : List Address) (hs : List Header)
    (s : Snapshot) (hr : Reached config (newSnapshot 0 hash signers) hs s) {h : Header}
    (hnumber : h.number = s.number + 1) {signer : Address}
    (hsigner : config.ecrecover h = .ok signer) {authorize : Bool}
    (hvote : Board.voteOf h = .ok authorize) :
    (∃ s', s.apply config [h] = .ok s') ↔ signer ∈ s.signers ∧
      ∀ k h', hs[k]? = some h' → config.ecrecover h' = .ok signer →
        k + s.signers.card / 2 < hs.length := by
  have hok := recents_window hr
  by_cases hmem : signer ∈ s.signers
  · have hlimit : s.limit = s.signers.card / 2 + 1 := rfl
    rw [apply_ok_iff hok hnumber hsigner hmem hvote, hnumber, hok.number]
    refine ⟨fun hfresh => ⟨hmem, fun k h' hk hsame => ?_⟩, fun ⟨_, hlast⟩ ⟨k, hk, hlt⟩ => ?_⟩
    · by_contra hle
      have hat := signerAt_succ.2 ⟨h', hk, hsame⟩
      have hlen := (List.getElem?_eq_some_iff.1 hk).1
      exact hfresh ⟨k + 1, hok.window.complete hat hlen (by omega), by omega⟩
    · obtain ⟨hat, hle, -⟩ := hok.window.sound hk
      obtain _ | k := k
      · cases hat
      · obtain ⟨h', hk', hsame⟩ := signerAt_succ.1 hat
        have := hlast k h' hk' hsame
        omega
  · rw [apply_single hnumber, applyHeader_unauthorized hsigner hmem]
    exact ⟨nofun, fun hin => absurd hin.1 hmem⟩

theorem accepted_iff_two : ∃ s, Reached coinbaseConfig fourSigners [signedBy 1 1] s ∧
    ((∃ s', s.apply coinbaseConfig [signedBy 2 2] = .ok s') ↔ 2 ∈ s.signers ∧
      ∀ k h', [signedBy 1 1][k]? = some h' → coinbaseConfig.ecrecover h' = .ok 2 →
        k + s.signers.card / 2 < 1) := by
  have hr : Reached coinbaseConfig fourSigners [signedBy 1 1] _ := .apply .start rfl
  exact ⟨_, hr, accepted_iff coinbaseConfig 0 [1, 2, 3, 4] _ _ hr rfl rfl
    (rfl : Board.voteOf (signedBy 2 2) = .ok false)⟩

end GoEthereum.Clique
