/-
  The retrieval of snapshots.

  `snapshot` goes back from a block until it finds a snapshot in memory, on disk or at the
  first block, and applies the headers it has met.  Whatever earlier calls have left in memory
  and on disk, it returns what the headers give when they are applied one by one
  (`snapshot_retrieval`): what is kept under the hash of a block belongs to it (`Belongs`).
-/
import GoEthereum.Clique.Recents
import GoEthereum.Clique.Store

namespace GoEthereum.Clique

open GoEthereum.Core Outcome

/-! ## The program -/

/-- The headers there are; the hash of a header determines it.  The first one has room for the
    vanity and the seal in its extra data. -/
structure Headers where
  mem : Header → Prop
  genesis : Header
  genesis_mem : mem genesis
  number_genesis : genesis.number = 0
  extra_genesis : 32 + 65 ≤ genesis.extra.length
  hash_inj {h h' : Header} : mem h → mem h' → h.hash = h'.hash → h = h'

/-- `ChainReader`: what a database that was filled from the first block on finds. -/
structure Reader (U : Headers) where
  getHeader : Word → ℕ → Option Header
  getHeaderByNumber : ℕ → Option Header
  sound {hash : Word} {number : ℕ} {h : Header} : getHeader hash number = some h →
    U.mem h ∧ h.hash = hash ∧ h.number = number
  genesis : getHeaderByNumber 0 = some U.genesis
  filled {number : ℕ} : getHeaderByNumber number = none → getHeaderByNumber (number + 1) = none

/-- The fields of `Clique` that `snapshot` uses: the snapshots in memory and on disk. -/
structure Engine where
  recents : Word → Option Snapshot := fun _ => none
  db : Word → Option (Document Rlp.Bytes Rlp.Bytes) := fun _ => none

def checkpointInterval : ℕ := 1024

/-- The signers in the extra data of a checkpoint. -/
def checkpointSigners (header : Header) : List Address :=
  (List.range ((header.extra.length - 32 - 65) / 20)).map fun i =>
    .ofNat 160 (BigEndian.ofBE ((header.extra.drop (32 + i * 20)).take 20))

namespace Engine

variable {U : Headers} (config : Config) (chain : Reader U) (c : Engine)

/-- `loadSnapshot` -/
def load (hash : Word) : Option Snapshot := (c.db hash).bind Snapshot.unmarshal

def store (snap : Snapshot) : Engine :=
  { c with db := Function.update c.db snap.hash (some snap.marshal) }

/-- `recents.Add`; the cache may drop any snapshots. -/
def add (keep : Word → Bool) (snap : Snapshot) : Engine :=
  { c with recents := fun hash =>
      if keep hash then Function.update c.recents snap.hash (some snap) hash else none }

/-- The checkpoint at which a snapshot can be made. -/
def checkpoint (number : ℕ) : Option Header :=
  if number = 0 ∨ (number % config.epoch = 0 ∧ chain.getHeaderByNumber (number - 1) = none) then
    chain.getHeaderByNumber number
  else none

/-- The header of a block, from the parents or else from the database. -/
def nextHeader (number : ℕ) (hash : Word) (parents : List Header) : Option (Header × List Header) :=
  match parents.getLast? with
  | some header =>
    if header.hash ≠ hash ∨ header.number ≠ number then none else some (header, parents.dropLast)
  | none => (chain.getHeader hash number).map fun header => (header, [])

/-- The loop of `snapshot`: the snapshot it finds, with the headers met on the way. -/
def find : ℕ → Word → List Header → List Header →
    Except CliqueError (Snapshot × List Header × Engine)
  | number, hash, parents, headers =>
    match c.recents hash with
    | some snap => .ok (snap, headers, c)
    | none =>
      match if number % checkpointInterval = 0 then c.load hash else none with
      | some snap => .ok (snap, headers, c)
      | none =>
        match checkpoint config chain number with
        | some header =>
          let snap := newSnapshot number header.hash (checkpointSigners header)
          .ok (snap, headers, c.store snap)
        | none =>
          match nextHeader chain number hash parents with
          | none => .error .unknownAncestor
          | some (header, parents) =>
            match number with
            | 0 => .error .unknownAncestor
            | number + 1 => find number header.parentHash parents (headers ++ [header])

def snapshot (keep : Word → Bool) (number : ℕ) (hash : Word) (parents : List Header) :
    Except CliqueError Snapshot × Engine :=
  match c.find config chain number hash parents [] with
  | .error err => (.error err, c)
  | .ok (snap, headers, c) =>
    match snap.apply config headers.reverse with
    | .error err => (.error err, c)
    | .ok snap =>
      let c := c.add keep snap
      (.ok snap, if snap.number % checkpointInterval = 0 ∧ headers ≠ [] then c.store snap else c)

/-- What calls of `snapshot`, for any blocks and with any parents, leave in memory and on disk. -/
inductive Reached (U : Headers) (config : Config) : Engine → Prop
  | new : Reached U config {}
  | snapshot {c : Engine} (chain : Reader U) (keep : Word → Bool) (number : ℕ) (hash : Word)
      {parents : List Header} : Reached U config c → (∀ h ∈ parents, U.mem h) →
      Reached U config (c.snapshot config chain keep number hash parents).2

end Engine

/-! ## Applying headers one by one -/

/-- The snapshot of the first block. -/
def genesisSnapshot (U : Headers) : Snapshot :=
  newSnapshot 0 U.genesis.hash (checkpointSigners U.genesis)

/-- The headers lead from the first block to `b`, and give the snapshot one by one. -/
inductive Chain (U : Headers) (config : Config) : List Header → Header → Snapshot → Prop
  | genesis : Chain U config [] U.genesis (genesisSnapshot U)
  | next {l : List Header} {p b : Header} {s s' : Snapshot} : Chain U config l p s → U.mem b →
      b.parentHash = p.hash → s.apply config [b] = .ok s' → Chain U config (l ++ [b]) b s'

variable {U : Headers} {config : Config} {s s' s₁ : Snapshot} {h b : Header} {l : List Header}

theorem number_of_apply (h₁ : s.apply config [h] = .ok s') : h.number = s.number + 1 := by
  by_contra hne
  rw [Snapshot.apply_cons, if_neg (by simp [consecutive]), if_pos hne] at h₁
  cases h₁

theorem apply_cons_iff (rest : List Header) : s.apply config (h :: rest) = .ok s' ↔
    ∃ s₁, s.apply config [h] = .ok s₁ ∧ s₁.apply config rest = .ok s' := by
  refine ⟨apply_cons, ?_⟩
  rintro ⟨s₁, hs₁, hrest⟩
  cases rest with
  | nil =>
    cases hrest
    exact hs₁
  | cons h' rest =>
    have hnumber := number_of_apply hs₁
    rw [apply_single hnumber] at hs₁
    obtain ⟨b₁, hb₁, heq⟩ := bind_eq_ok hs₁
    cases heq
    rw [Snapshot.apply_cons] at hrest
    split_ifs at hrest with hcons hnumber'
    obtain ⟨board, hboard, hresult⟩ := bind_eq_ok hrest
    have hnext : h'.number = s.number + 1 + 1 := not_not.1 hnumber'
    rw [Snapshot.apply_cons, if_neg, if_neg (not_not.2 hnumber), List.foldlM_cons, hb₁, ok_bind, hboard,
      ok_bind, ← hresult]
    · simp [Nat.add_assoc, Nat.add_comm 1]
    · rw [not_not, consecutive, hcons, Bool.and_true, decide_eq_true_eq, hnext, hnumber]

theorem apply_append {l' : List Header} : s.apply config (l ++ l') = .ok s' ↔
    ∃ s₁, s.apply config l = .ok s₁ ∧ s₁.apply config l' = .ok s' := by
  induction l generalizing s with
  | nil =>
    constructor
    · intro h
      exact ⟨s, rfl, h⟩
    · rintro ⟨s₁, hs₁, h⟩
      cases hs₁
      exact h
  | cons h l ih =>
    rw [List.cons_append, apply_cons_iff]
    simp only [ih, apply_cons_iff l]
    constructor
    · rintro ⟨s₁, hs₁, s₂, hs₂, h⟩
      exact ⟨s₂, ⟨s₁, hs₁, hs₂⟩, h⟩
    · rintro ⟨s₂, ⟨s₁, hs₁, hs₂⟩, h⟩
      exact ⟨s₁, hs₁, s₂, hs₂, h⟩

theorem apply_number_hash (h₁ : s.apply config [h] = .ok s') :
    s'.number = h.number ∧ s'.hash = h.hash := by
  have hnumber := number_of_apply h₁
  rw [apply_single hnumber] at h₁
  obtain ⟨board, -, heq⟩ := bind_eq_ok h₁
  cases heq
  exact ⟨hnumber.symm, rfl⟩

namespace Chain

theorem mem (hc : Chain U config l b s) : U.mem b := by
  cases hc with
  | genesis => exact U.genesis_mem
  | next _ hb => exact hb

theorem mem_of_mem (hc : Chain U config l b s) (hh : h ∈ l) : U.mem h := by
  induction hc with
  | genesis => cases hh
  | next _ hb _ _ ih =>
    rcases List.mem_append.1 hh with hh | hh
    · exact ih hh
    · rwa [List.mem_singleton.1 hh]

theorem number_hash (hc : Chain U config l b s) : s.number = b.number ∧ s.hash = b.hash := by
  cases hc with
  | genesis => exact ⟨U.number_genesis.symm, rfl⟩
  | next _ _ _ happly => exact apply_number_hash happly

theorem eq_genesis (hc : Chain U config l b s) (hzero : b.number = 0) : s = genesisSnapshot U := by
  cases hc with
  | genesis => rfl
  | next _ _ _ happly =>
    rw [number_of_apply happly] at hzero
    cases hzero

end Chain

/-! ## What is kept -/

/-- The snapshot is that of the block with its hash. -/
def Belongs (U : Headers) (config : Config) (s : Snapshot) : Prop :=
  ∀ l b s', Chain U config l b s' → b.hash = s.hash → s' = s

/-- The snapshots in memory and on disk belong to their blocks. -/
structure Kept (U : Headers) (config : Config) (c : Engine) : Prop where
  recents {hash : Word} {s : Snapshot} : c.recents hash = some s →
    s.hash = hash ∧ Belongs U config s
  db {hash : Word} {s : Snapshot} : c.load hash = some s → s.hash = hash ∧ Belongs U config s

theorem belongs_genesis : Belongs U config (genesisSnapshot U) := by
  intro l b s' hc hhash
  cases U.hash_inj hc.mem U.genesis_mem hhash
  exact hc.eq_genesis U.number_genesis

variable {c c' : Engine} {chain : Reader U} {keep : Word → Bool} {snap : Snapshot} {number : ℕ}
  {hash : Word} {parents headers : List Header}

theorem Kept.store (hk : Kept U config c) (hs : Belongs U config s) :
    Kept U config (c.store s) := by
  refine ⟨hk.recents, fun {hash s'} hload => ?_⟩
  rw [Engine.load, Engine.store] at hload
  dsimp only at hload
  rw [Function.update_apply] at hload
  split_ifs at hload with heq
  · rw [Option.bind_some, Snapshot.unmarshal_marshal] at hload
    cases hload
    exact ⟨heq.symm, hs⟩
  · exact hk.db hload

theorem Kept.add (hk : Kept U config c) (hs : Belongs U config s) :
    Kept U config (c.add keep s) := by
  refine ⟨fun {hash s'} hget => ?_, hk.db⟩
  rw [Engine.add] at hget
  dsimp only at hget
  rw [Function.update_apply] at hget
  split_ifs at hget with hkeep heq
  · cases hget
    exact ⟨heq.symm, hs⟩
  · exact hk.recents hget

theorem checkpoint_eq (hcheck : Engine.checkpoint config chain number = some h) :
    number = 0 ∧ h = U.genesis := by
  rw [Engine.checkpoint] at hcheck
  split_ifs at hcheck with hcond
  have hzero : number = 0 := by
    by_contra hne
    obtain ⟨n, rfl⟩ := Nat.exists_eq_succ_of_ne_zero hne
    have hnone : chain.getHeaderByNumber (n + 1) = none := chain.filled (hcond.resolve_left hne).2
    rw [hnone] at hcheck
    cases hcheck
  subst hzero
  rw [chain.genesis] at hcheck
  exact ⟨rfl, (Option.some.inj hcheck).symm⟩

theorem nextHeader_spec (hparents : ∀ h ∈ parents, U.mem h) {parents' : List Header}
    (hnext : Engine.nextHeader chain number hash parents = some (h, parents')) :
    U.mem h ∧ h.hash = hash ∧ h.number = number ∧ ∀ h ∈ parents', U.mem h := by
  rw [Engine.nextHeader] at hnext
  rcases hlast : parents.getLast? with _ | header
  · rw [hlast] at hnext
    obtain ⟨header, hget, heq⟩ := Option.map_eq_some_iff.1 hnext
    cases heq
    obtain ⟨hmem, hhash, hnumber⟩ := chain.sound hget
    exact ⟨hmem, hhash, hnumber, fun h hh => by cases hh⟩
  · rw [hlast] at hnext
    dsimp only at hnext
    split_ifs at hnext with hcond
    cases hnext
    rw [not_or, not_not, not_not] at hcond
    exact ⟨hparents _ (List.mem_of_getLast? hlast), hcond.1, hcond.2,
      fun h hh => hparents h (List.mem_of_mem_dropLast hh)⟩

/-- Where the search ends, or goes on. -/
theorem find_cases (hk : Kept U config c) {headers' : List Header}
    (hfind : c.find config chain number hash parents headers = .ok (snap, headers', c')) :
    (headers' = headers ∧ c' = c ∧ snap.hash = hash ∧ Belongs U config snap) ∨
    (headers' = headers ∧ c' = c.store snap ∧ number = 0 ∧ snap = genesisSnapshot U) ∨
    ∃ n h parents', number = n + 1 ∧
      Engine.nextHeader chain number hash parents = some (h, parents') ∧
      c.find config chain n h.parentHash parents' (headers ++ [h]) = .ok (snap, headers', c') := by
  unfold Engine.find at hfind
  rcases hrecent : c.recents hash with _ | snap₀
  swap
  · rw [hrecent] at hfind
    cases hfind
    exact .inl ⟨rfl, rfl, hk.recents hrecent⟩
  rw [hrecent] at hfind
  dsimp only at hfind
  rcases hload : (if number % checkpointInterval = 0 then c.load hash else none) with _ | snap₀
  swap
  · rw [hload] at hfind
    cases hfind
    split_ifs at hload
    exact .inl ⟨rfl, rfl, hk.db hload⟩
  rw [hload] at hfind
  dsimp only at hfind
  rcases hcheck : Engine.checkpoint config chain number with _ | header
  swap
  · rw [hcheck] at hfind
    obtain ⟨rfl, rfl⟩ := checkpoint_eq hcheck
    cases hfind
    exact .inr (.inl ⟨rfl, rfl, rfl, rfl⟩)
  rw [hcheck] at hfind
  dsimp only at hfind
  rcases hnext : Engine.nextHeader chain number hash parents with _ | ⟨h, parents'⟩
  · rw [hnext] at hfind
    cases hfind
  rw [hnext] at hfind
  dsimp only at hfind
  cases number with
  | zero => cases hfind
  | succ n => exact .inr (.inr ⟨n, h, parents', rfl, rfl, hfind⟩)

/-- What the search finds gives the snapshot of the block, with the headers it has met. -/
structure Found (U : Headers) (config : Config) (number : ℕ) (hash : Word) (snap : Snapshot)
    (hs : List Header) : Prop where
  nil : hs = [] → Belongs U config snap
  head : ∀ h, hs.head? = some h → U.mem h ∧ h.hash = hash ∧ h.number = number
  apply : ∀ l b s, Chain U config l b s → b.hash = hash → b.number = number →
    snap.apply config hs.reverse = .ok s

theorem Found.of_hash (hhash : snap.hash = hash) (hbelongs : Belongs U config snap) :
    Found U config number hash snap [] := by
  refine ⟨fun _ => hbelongs, fun h hh => (by cases hh), fun l b s hc hb _ => ?_⟩
  rw [hbelongs l b s hc (hb.trans hhash.symm)]
  rfl

theorem Found.of_genesis : Found U config 0 hash (genesisSnapshot U) [] := by
  refine ⟨fun _ => belongs_genesis, fun h hh => (by cases hh), fun l b s hc _ hzero => ?_⟩
  rw [hc.eq_genesis hzero]
  rfl

theorem Found.cons {hs : List Header} (hf : Found U config number h.parentHash snap hs)
    (hmem : U.mem h) (hnumber : h.number = number + 1) :
    Found U config (number + 1) h.hash snap (h :: hs) := by
  refine ⟨fun hh => (by cases hh), fun h' hh' => ?_, fun l b s hc hb _ => ?_⟩
  · cases hh'
    exact ⟨hmem, rfl, hnumber⟩
  · cases U.hash_inj hc.mem hmem hb
    rw [List.reverse_cons, apply_append]
    cases hc with
    | genesis => exact absurd (U.number_genesis.symm.trans hnumber) (Nat.succ_ne_zero _).symm
    | next hp _ hlink happly =>
      have hp' := number_of_apply happly
      refine ⟨_, hf.apply _ _ _ hp hlink.symm ?_, happly⟩
      rw [← hp.number_hash.1]
      omega

theorem find_spec (hk : Kept U config c) (hparents : ∀ h ∈ parents, U.mem h)
    {headers' : List Header}
    (hfind : c.find config chain number hash parents headers = .ok (snap, headers', c')) :
    Kept U config c' ∧ ∃ hs, headers' = headers ++ hs ∧ Found U config number hash snap hs := by
  induction number using Nat.strong_induction_on generalizing hash parents headers with
  | _ number ih =>
    rcases find_cases hk hfind with ⟨rfl, rfl, hhash, hbelongs⟩ | ⟨rfl, rfl, rfl, rfl⟩ |
      ⟨n, h, parents', rfl, hnext, hrest⟩
    · exact ⟨hk, [], (List.append_nil _).symm, .of_hash hhash hbelongs⟩
    · exact ⟨hk.store belongs_genesis, [], (List.append_nil _).symm, .of_genesis⟩
    · obtain ⟨hmem, rfl, hnumber, hparents'⟩ := nextHeader_spec hparents hnext
      obtain ⟨hk', hs, rfl, hfound⟩ := ih n n.lt_succ_self hparents' hrest
      exact ⟨hk', h :: hs, List.append_assoc .., hfound.cons hmem hnumber⟩

theorem Found.belongs {hs : List Header} (hf : Found U config number hash snap hs)
    (happly : snap.apply config hs.reverse = .ok s) : Belongs U config s := by
  cases hs with
  | nil =>
    cases happly
    exact hf.nil rfl
  | cons h hs =>
    obtain ⟨hmem, hhash, hnumber⟩ := hf.head h rfl
    intro l b s' hc hb
    have hlast : s.hash = h.hash := by
      rw [List.reverse_cons, apply_append] at happly
      obtain ⟨s₁, -, h₁⟩ := happly
      exact (apply_number_hash h₁).2
    cases U.hash_inj hc.mem hmem (hb.trans hlast)
    have := hf.apply l h s' hc hhash hnumber
    rw [happly] at this
    exact (Except.ok.inj this).symm

theorem Kept.snapshot (hk : Kept U config c) (hparents : ∀ h ∈ parents, U.mem h) :
    Kept U config (c.snapshot config chain keep number hash parents).2 := by
  rw [Engine.snapshot]
  rcases hfind : c.find config chain number hash parents [] with err | ⟨snap, headers, c'⟩
  · exact hk
  · obtain ⟨hk', hs, heq, hfound⟩ := find_spec hk hparents hfind
    rw [List.nil_append] at heq
    rw [← heq] at hfound
    dsimp only
    rcases happly : snap.apply config headers.reverse with err | s
    · exact hk'
    · have hbelongs := hfound.belongs happly
      dsimp only
      split_ifs
      · exact (hk'.add hbelongs).store hbelongs
      · exact hk'.add hbelongs

theorem Engine.Reached.kept (hr : Engine.Reached U config c) : Kept U config c := by
  induction hr with
  | new => exact ⟨fun h => (by cases h), fun h => (by cases h)⟩
  | snapshot chain keep number hash _ hparents ih => exact ih.snapshot hparents

/-! ## Retrieval -/

theorem find_of_next (hnext : ∀ n, number = n + 1 → ∃ h parents',
      Engine.nextHeader chain number hash parents = some (h, parents') ∧
      ∃ r, c.find config chain n h.parentHash parents' (headers ++ [h]) = .ok r) :
    ∃ r, c.find config chain number hash parents headers = .ok r := by
  unfold Engine.find
  rcases c.recents hash with _ | snap
  swap
  · exact ⟨_, rfl⟩
  dsimp only
  rcases (if number % checkpointInterval = 0 then c.load hash else none) with _ | snap
  swap
  · exact ⟨_, rfl⟩
  dsimp only
  rcases hcheck : Engine.checkpoint config chain number with _ | header
  swap
  · exact ⟨_, rfl⟩
  cases number with
  | zero =>
    rw [Engine.checkpoint, if_pos (.inl rfl), chain.genesis] at hcheck
    cases hcheck
  | succ n =>
    obtain ⟨h, parents', hnext, hrest⟩ := hnext n rfl
    rw [hnext]
    exact hrest

theorem find_ok (headers : List Header) (hc : Chain U config l b s) {l' : List Header}
    (hl : l = l' ++ parents)
    (hdb : ∀ h ∈ l', chain.getHeader h.hash h.number = some h) :
    ∃ r, c.find config chain b.number b.hash parents headers = .ok r := by
  induction hc generalizing l' parents headers with
  | genesis =>
    refine find_of_next fun n hn => ?_
    rw [U.number_genesis] at hn
    cases hn
  | @next l p b s s' hp _ hlink happly ih =>
    refine find_of_next fun n hn => ?_
    have hnumber := number_of_apply happly
    obtain rfl : n = p.number := by
      rw [hp.number_hash.1] at hnumber
      omega
    rcases List.eq_nil_or_concat parents with rfl | ⟨parents, x, rfl⟩
    · rw [List.append_nil] at hl
      subst hl
      refine ⟨b, [], ?_, ?_⟩
      · rw [Engine.nextHeader, hdb b (List.mem_append_right _ (.head _))]
        rfl
      · rw [hlink]
        exact ih _ (List.append_nil l).symm fun h hh => hdb h (List.mem_append_left _ hh)
    · rw [List.concat_eq_append, ← List.append_assoc] at hl
      obtain ⟨rfl, hx⟩ := List.append_inj' hl rfl
      cases hx
      refine ⟨b, parents, ?_, ?_⟩
      · rw [Engine.nextHeader, List.concat_eq_append, List.getLast?_concat]
        simp
      · rw [hlink]
        exact ih _ rfl hdb

/-- **The retrieval of a snapshot does not depend on what is kept**: it returns what the headers
    give one by one, in whatever way they are split between the parents and the database.
    Headers can be applied in batches, and a stored snapshot is loaded as it was. -/
theorem snapshot_retrieval (hr : Engine.Reached U config c) (chain : Reader U) (keep : Word → Bool)
    {l' : List Header} (hc : Chain U config (l' ++ parents) b s)
    (hdb : ∀ h ∈ l', chain.getHeader h.hash h.number = some h) :
    (c.snapshot config chain keep b.number b.hash parents).1 = .ok s ∧
      (∀ (s₁ s₂ : Snapshot) (l₁ l₂ : List Header), s₁.apply config (l₁ ++ l₂) = .ok s₂ ↔
        ∃ s, s₁.apply config l₁ = .ok s ∧ s.apply config l₂ = .ok s₂) ∧
      ∀ s₁ : Snapshot, (c.store s₁).load s₁.hash = some s₁ := by
  refine ⟨?_, fun s₁ s₂ l₁ l₂ => apply_append, fun s₁ => ?_⟩
  · obtain ⟨⟨snap, headers, c'⟩, hfind⟩ := find_ok (c := c) [] hc rfl hdb
    obtain ⟨-, hs, heq, hfound⟩ := find_spec hr.kept
      (fun h hh => hc.mem_of_mem (List.mem_append_right _ hh)) hfind
    rw [List.nil_append] at heq
    rw [← heq] at hfound
    have happly := hfound.apply _ b s hc rfl rfl
    rw [Engine.snapshot, hfind]
    dsimp only
    rw [happly]
  · rw [Engine.load, Engine.store]
    dsimp only
    rw [Function.update_self]
    exact s₁.unmarshal_marshal

/-- A first block with three signers, and blocks that they sign in turn. -/
def threeBlock : ℕ → Header
  | 0 => { signedBy 0 0 with
      extra := List.replicate 32 0 ++ [1, 2, 3].flatMap (BigEndian.toBE 20) ++ List.replicate 65 0 }
  | n + 1 => { signedBy (n + 1) (.ofNat 160 (n % 3 + 1)) with parentHash := .ofNat 256 n }

/-- The first block and three more. -/
def threeHeaders : Headers where
  mem h := ∃ n < 4, h = threeBlock n
  genesis := threeBlock 0
  genesis_mem := ⟨0, by decide, rfl⟩
  number_genesis := rfl
  extra_genesis := by simp [threeBlock]
  hash_inj := by
    rintro h h' ⟨n, hn, rfl⟩ ⟨m, hm, rfl⟩ heq
    interval_cases n <;> interval_cases m <;> first | rfl | cases heq

/-- A database with all but the last block. -/
def threeReader : Reader threeHeaders where
  getHeader hash number :=
    if number < 3 ∧ hash = (threeBlock number).hash then some (threeBlock number) else none
  getHeaderByNumber number := if number < 3 then some (threeBlock number) else none
  sound := by
    intro hash number h heq
    split_ifs at heq with hlt
    cases heq
    refine ⟨⟨number, by omega, rfl⟩, hlt.2.symm, ?_⟩
    cases number <;> rfl
  genesis := rfl
  filled := by
    intro number hnone
    split_ifs at hnone with hlt
    rw [if_neg (by omega)]

theorem genesis_three : genesisSnapshot threeHeaders = newSnapshot 0 0 [1, 2, 3] :=
  congrArg (newSnapshot 0 0) (show checkpointSigners (threeBlock 0) = [1, 2, 3] by decide +kernel)

/-- The snapshot of block 3, which is a parent, after one of block 1 was asked for; block 2 is in the
    database. -/
theorem snapshot_retrieval_three : ∃ s,
    Chain threeHeaders coinbaseConfig [threeBlock 1, threeBlock 2, threeBlock 3] (threeBlock 3) s ∧
    s.recents.get 3 = some 3 ∧
    ((({} : Engine).snapshot coinbaseConfig threeReader (fun _ => true) 1 1 []).2.snapshot
      coinbaseConfig threeReader (fun _ => true) 3 3 [threeBlock 3]).1 = .ok s := by
  have hg : Chain threeHeaders coinbaseConfig [] (threeBlock 0) (newSnapshot 0 0 [1, 2, 3]) := by
    rw [← genesis_three]
    exact .genesis
  have h₁ : Chain threeHeaders coinbaseConfig ([] ++ [threeBlock 1]) (threeBlock 1) _ :=
    .next hg ⟨1, by decide, rfl⟩ rfl rfl
  have h₂ : Chain threeHeaders coinbaseConfig (_ ++ [threeBlock 2]) (threeBlock 2) _ :=
    .next h₁ ⟨2, by decide, rfl⟩ rfl rfl
  have h₃ : Chain threeHeaders coinbaseConfig (_ ++ [threeBlock 3]) (threeBlock 3) _ :=
    .next h₂ ⟨3, by decide, rfl⟩ rfl rfl
  refine ⟨_, h₃, rfl, (snapshot_retrieval
    (.snapshot threeReader _ 1 1 .new (List.forall_mem_nil _)) threeReader _ h₃
    fun h hh => ?_).1⟩
  rcases hh with _ | ⟨_, _ | ⟨_, hh⟩⟩
  · rfl
  · rfl
  · cases hh

end GoEthereum.Clique
