/-
  What a download by `Sync` gives.

  `dependencies_booked`: the counters of the requests are right, and the batch is in an order
  in which it can be written.  `download_complete`: when nothing is pending, all that was
  asked for is there.  Both need that callbacks do not fail, and that the first request for
  an entry is the right one: requests are merged by their hash, and the first one decides
  whether the entry is raw and which callback is called.
-/
import GoEthereum.Trie.Bookkeeping

namespace GoEthereum.Trie

open GoEthereum.Rlp AssocMap Outcome

variable {C : Type}

/-! ## Dependencies -/

/-- Entries are raw or nodes, and a node waits for its children. -/
def Plan.ofRaws (C : Type) (content : Hash → Bytes) (raws : Set Hash) : Plan C where
  content
  fits h raw _ := raw = true ↔ h ∈ raws
  next h := {c | c ∈ kids content h}

namespace Sync

variable {P : Plan C} {s : Sync C} {content : Hash → Bytes} {raws : Set Hash} {calls : Callbacks C}
  {added : List (Add C)} {database : Hash → Option Bytes}

theorem sound_ofRaws (ho : (Plan.ofRaws C content raws).Orderly calls) :
    (Plan.ofRaws C content raws).Sound calls :=
  ⟨ho, fun h₁ h₂ => absurd (h₂.2 (h₁.1 rfl)) nofun, fun _ _ => .inl⟩

/-- What the dependencies are good for. -/
structure Booked (content : Hash → Bytes) (raws : Set Hash) (s : Sync C) : Prop where
  deps : ∀ {h r}, s.requests.get h = some r → r.data.isSome → r.deps = s.slots h
  nonneg : ∀ {h r}, s.requests.get h = some r → 0 ≤ r.deps
  pending : ∀ h, s.Processed h ↔ s.slots h ≠ 0
  committed : ∀ h ∈ s.order, s.requests.get h = none
  nodup : s.order.Nodup
  children : ∀ {h c before after}, s.order = before ++ h :: after → h ∉ raws →
    c ∈ kids content h → c ∈ s.order → c ∈ before

theorem Quiet.booked (hq : Quiet P s) (hnext : ∀ h, P.next h = {c | c ∈ kids content h})
    (hnode : ∀ h, h ∉ raws → P.Node h) : Booked content raws s where
  deps hr _ := by simpa using hq.1.deps hr
  nonneg hr := by
    rw [hq.1.deps hr]
    omega
  pending h := by
    refine ⟨?_, fun hne => by_contra fun hp => hne (hq.1.slots_eq_zero hp).1⟩
    rintro ⟨r, hr, hd⟩ hz
    have hdeps := hq.1.deps hr
    rw [hz] at hdeps
    exact (hq.2 h r hr hd nofun).1 hdeps
  committed h hh := by
    rw [← Option.not_isSome_iff_eq_none]
    intro hr
    obtain ⟨r, hr⟩ := Option.isSome_iff_exists.1 hr
    have := hq.1.order.1 hh
    rw [(hq.1.wanted hr).1] at this
    cases this
  nodup := hq.1.nodup
  children {h c before after} heq hraw hc hmem := by
    change c ∈ {c | c ∈ kids content h} at hc
    rw [← hnext] at hc
    have hplaced := hq.1.placed
    have hne := (hq.1.done (heq ▸ List.mem_append_right _ List.mem_cons_self) (hnode h hraw) c hc).1
    rw [heq] at hplaced hmem
    rcases List.mem_append.1 hmem with hmem | hmem
    · exact hmem
    · rcases List.mem_cons.1 hmem with rfl | hmem
      · exact absurd rfl hne
      · have hlater := (List.pairwise_cons.1 (List.pairwise_append.1 hplaced).2.1).1 c hmem
        exact absurd hc (hlater (hnode h hraw))

/-- **Dependencies.**  If no callback fails and no node is first requested as a raw entry, a
    request with data counts the places in which it is a parent, it is pending exactly as long
    as there are such places, and the order of the batch has each entry once and children
    first; a request leaves by a commit only. -/
theorem dependencies_booked (ho : (Plan.ofRaws C content raws).Orderly calls)
    (hr : Reached (Plan.ofRaws C content raws).toRequests calls database added s) :
    Booked content raws s ∧ ∀ hashes : List Hash,
      ItemsFit (Plan.ofRaws C content raws).toRequests calls hashes s →
      Meets (process calls false 0 (hashes.map fun h => (h, content h)) s)
        (fun p => ∀ h, (s.requests.get h).isSome → (p.2.requests.get h).isSome ∨ h ∈ p.2.order)
        (· = .decode) := by
  have hP := sound_ofRaws ho
  have hq := hr.quiet hP False.elim
  refine ⟨hq.booked (fun _ => rfl) fun _ hh => ⟨none, nofun, fun h => absurd h hh⟩,
    fun hashes hfit => ?_⟩
  have hasked : Quiet { Plan.ofRaws C content raws with
      asked := {h | (s.requests.get h).isSome}, held := ∅ } s :=
    ⟨{ hq.1 with asked := .inl, held := nofun }, hq.2⟩
  exact (process_spec (hP.keep ..) hasked hfit ..).mono (fun p hp h => hp.1.asked) fun _ => id

/-- A leaf, and an extension with this leaf, under their hashes. -/
def leafData : Bytes := [0xC2, 0x20, 0x01]

def leafHash : Hash :=
  ⟨[0xCE, 0x8C, 0x4B, 0x06, 0x0E, 0x96, 0x1E, 0x28, 0x5A, 0x1C, 0x2D, 0x6A, 0xF9, 0x56, 0xFA, 0xE9,
    0x69, 0x86, 0xF9, 0x46, 0x10, 0x2F, 0x23, 0xB7, 0x15, 0x06, 0x52, 0x4E, 0xEA, 0x9E, 0x24, 0x50], rfl⟩

def extData : Bytes := [0xE2, 0x11, 0xA0] ++ leafHash.1

def extHash : Hash :=
  ⟨[0xD3, 0x13, 0x04, 0x7E, 0xDF, 0x73, 0xE8, 0x74, 0x50, 0x6B, 0xD5, 0x04, 0xC2, 0x96, 0xED, 0x38,
    0x52, 0x36, 0x6B, 0x29, 0x47, 0x49, 0x84, 0x73, 0xBC, 0x25, 0xFC, 0x56, 0x77, 0xD3, 0x64, 0x23], rfl⟩

def treeContent (h : Hash) : Bytes :=
  if h = extHash then extData else if h = leafHash then leafData else []

theorem decodeNode_leaf : decodeNode (some leafHash) leafData 0 =
    some (.ok (.short [16] (.value [1]) ⟨some leafHash, 0, false⟩)) := by
  have hsplit : splitList leafData = some (.ok ([0x20, 0x01], [])) := rfl
  rw [decodeNode, show leafData.length + 1 = 3 + 1 from rfl, decodeNodeFuel, if_neg (by decide),
    hsplit]
  rfl

theorem decodeNode_ext : decodeNode (some extHash) extData 0 =
    some (.ok (.short [1] (.hash leafHash) ⟨some extHash, 0, false⟩)) := by
  have hsplit : splitList extData = some (.ok ([0x11, 0xA0] ++ leafHash.1, [])) := rfl
  rw [decodeNode, show extData.length + 1 = 35 + 1 from rfl, decodeNodeFuel, if_neg (by decide),
    hsplit]
  rfl

theorem parts_ext : parts treeContent extHash = [.hash leafHash] := by
  rw [parts, treeContent, if_pos rfl, decodeNode_ext]
  rfl

/-- Entries may be requested in any way. -/
def anyRequests (content : Hash → Bytes) : Requests Unit := ⟨content, fun _ _ _ => True⟩

/-- A callback that adds nothing. -/
def answer (ok : Bool) : Callbacks Unit := fun _ _ _ => ([], ok)

theorem itemsFit_answer (P : Requests Unit) (ok : Bool) (hashes : List Hash) (s : Sync Unit) :
    ItemsFit P (answer ok) hashes s := by
  have hadds : ∀ h callback v, calledAdds (answer ok) h callback v = [] := by
    intro h callback v
    cases callback <;> rfl
  have hleaves : ∀ h callback nodes s, LeavesFit P (answer ok) h callback nodes s := by
    intro h callback nodes
    induction nodes with
    | nil => exact fun _ => trivial
    | cons node nodes ih =>
      intro s
      cases node with
      | value v =>
        rw [LeavesFit, hadds]
        exact ⟨trivial, fun s' _ => ih s'⟩
      | nil | short | full | hash => exact ih s
  induction hashes generalizing s with
  | nil => exact trivial
  | cons h hashes ih => exact ⟨fun _ _ _ _ => hleaves .., fun _ s' _ => ih s'⟩

/-- The first request, for one of the two nodes. -/
def askedFor (h : Hash) : Sync Unit :=
  Sync.put { database := fun _ => none } h { callback := some () }

theorem newSync_askedFor (h : Hash) (hne : h ≠ emptyRoot) :
    newSync h (fun _ => none) (some ()) = .ok (askedFor h) := by
  have hdec : decodeNode (some h) [] 0 = some (.error (.plain .unexpectedEOF)) := rfl
  rw [newSync, addSubTrie, if_neg hne, if_neg (fun h => by cases h), Option.getD_none, hdec]
  rfl

/-- The extension waits for the leaf. -/
def waiting : Sync Unit :=
  ((askedFor extHash).put extHash { data := some extData, deps := 1, callback := some () }).put
    leafHash { parents := [extHash], callback := some () }

theorem process_ext : process (answer true) false 0
    ([extHash].map fun h => (h, treeContent h)) (askedFor extHash) =
      .ok ((false, 0, none), waiting) := by
  have hget : (askedFor extHash).requests.get extHash = some { callback := some () } :=
    get_set_self ..
  simp only [List.map, treeContent, if_true, process, processItem, hget, decodeNode_ext]
  rfl

theorem dependencies_booked_waiting : (∃ r, waiting.requests.get extHash = some r ∧
    r.data.isSome ∧ r.deps = 1) ∧ Booked treeContent ∅ waiting := by
  have hr : Reached (Plan.ofRaws Unit treeContent ∅).toRequests (answer true) (fun _ => none)
      [.subTrie extHash (some ())] (askedFor extHash) :=
    .newSync (fun h => by cases h) ⟨nofun, nofun⟩ (newSync_askedFor extHash (by decide))
  refine ⟨⟨_, rfl, rfl, rfl⟩, (dependencies_booked ⟨?_, ?_, ?_⟩
    (hr.process (itemsFit_answer ..) process_ext)).1⟩
  · exact fun _ _ => rfl
  · exact fun _ _ _ _ ha => absurd ha List.not_mem_nil
  · exact fun _ _ => ⟨nofun, nofun⟩

/-- The leaf is delivered, and its callback fails. -/
def failed : Sync Unit :=
  (askedFor leafHash).put leafHash { data := some leafData, callback := some () }

/-- A request whose callback fails stays, although it waits for nothing. -/
theorem failed_callback_stays : ∃ s : Sync Unit, Reached (anyRequests treeContent) (answer false)
    (fun _ => none) [.subTrie leafHash (some ())] s ∧ ¬ Booked treeContent ∅ s := by
  have hget : (askedFor leafHash).requests.get leafHash = some { callback := some () } :=
    get_set_self ..
  have hprocess : process (answer false) false 0 ([leafHash].map fun h => (h, treeContent h))
      (askedFor leafHash) = .ok ((false, 0, some .callback), failed) := by
    simp only [List.map, treeContent, show leafHash ≠ extHash by decide, if_false, if_true, process,
      processItem, hget, decodeNode_leaf]
    rfl
  refine ⟨failed, .process (.newSync (fun h => by cases h) trivial
    (newSync_askedFor leafHash (by decide))) (itemsFit_answer ..) hprocess, fun hb => ?_⟩
  have hp : failed.Processed leafHash := ⟨_, get_set_self .., rfl⟩
  exact (hb.pending leafHash).1 hp rfl

end Sync

/-! ## Completeness -/

section
variable (calls : Callbacks C) (content : Hash → Bytes) (raws : Set Hash) (role : Hash → Option C)

/-- What is asked for: the entries that are added, and with a trie its nodes and what the
    callback adds for its leaves.  A node inside another has no room for a hash. -/
inductive Needed (added : List (Add C)) : Add C → Prop
  | added {a} : a ∈ added → ¬ a.Empty → Needed added a
  | child {h c callback} : Needed added (.subTrie h callback) → c ∈ kids content h →
    Needed added (.subTrie c callback)
  | leaf {h k v a} : Needed added (.subTrie h (some k)) → .value v ∈ parts content h →
    a ∈ (calls k v h).1 → ¬ a.Empty → Needed added a

/-- The entries that a node needs. -/
def successors (h : Hash) : Set Hash :=
  {c | c ∈ kids content h ∨ ∃ k v, role h = some k ∧ .value v ∈ parts content h ∧
    ∃ a ∈ (calls k v h).1, ¬ a.Empty ∧ a.hash = c}

/-- Entries are raw, or nodes with one callback. -/
def Plan.ofRole : Plan C where
  content
  fits h raw callback := (raw = true ↔ h ∈ raws) ∧ (raw = false → callback = role h)
  next := successors calls content role
  closed := True

end

namespace Sync

variable {s : Sync C} {content : Hash → Bytes} {raws : Set Hash} {role : Hash → Option C}
  {calls : Callbacks C} {added : List (Add C)} {database : Hash → Option Bytes}

theorem sound_ofRole (hzero : ¬ Decodes content .zero)
    (ho : (Plan.ofRole calls content raws role).Orderly calls) :
    (Plan.ofRole calls content raws role).Sound calls := by
  refine ⟨ho, fun h₁ h₂ => absurd (h₂.1.2 (h₁.1.1 rfl)) nofun, fun {h c callback} hdec hfits hc =>
    ?_⟩
  rcases hc with hc | ⟨k, v, hk, h⟩
  · exact .inl hc
  · refine .inr ⟨?_, k, v, (hfits.2 rfl).trans hk, h⟩
    rintro rfl
    exact hzero hdec

/-- **Completeness.**  If no callback fails, a node is always requested with the same callback
    and no node is first requested as a raw entry, then nothing is missing when nothing is
    pending. -/
theorem download_complete (hzero : ¬ Decodes content .zero)
    (ho : (Plan.ofRole calls content raws role).Orderly calls)
    (hclosed : ∀ {h}, (database h).isSome → h ∉ raws →
      ∀ c ∈ successors calls content role h, (database c).isSome)
    (hr : Reached (Plan.ofRole calls content raws role).toRequests calls database added s)
    (hpending : s.requests.size = 0) {a : Add C} (ha : Needed calls content added a) :
    s.Known a.hash := by
  have hP := sound_ofRole hzero ho
  have hq := hr.quiet hP fun _ {h} hh ⟨_, hn⟩ => hclosed hh fun hraw => by
    exact absurd (hn.1.2 hraw) nofun
  have hnone : ∀ h, s.requests.get h = none := by
    intro h
    by_contra hne
    obtain ⟨r, hr⟩ := Option.ne_none_iff_exists'.1 hne
    have := le_total (fun _ => 1) hr
    rw [← size_eq_total, hpending] at this
    omega
  have hknown : ∀ {h}, s.Known h → (Plan.ofRole calls content raws role).Node h →
      ∀ c ∈ successors calls content role h, s.Known c := by
    rintro h (hb | hd) hn c hc
    · exact (hq.1.done (hq.1.order.2 hb) hn c hc).2
    · exact hq.1.closed trivial hd hn c hc
  have hall : (∀ {root callback}, a = .subTrie root callback →
      (Plan.ofRole calls content raws role).fits root false callback) ∧ s.Known a.hash := by
    induction ha with
    | @added a hmem hne =>
      refine ⟨?_, (hq.1.held ⟨a, hmem, hne, rfl⟩).resolve_left ?_⟩
      · rintro root callback rfl
        exact hr.fits hmem
      · rw [hnone]
        nofun
    | child _ hc ih =>
      refine ⟨?_, hknown ih.2 ⟨_, ih.1 rfl⟩ _ (.inl hc)⟩
      rintro _ _ ⟨⟩
      exact ho.child (ih.1 rfl) hc
    | leaf _ hv ha hne ih =>
      refine ⟨?_, hknown ih.2 ⟨_, ih.1 rfl⟩ _ (.inr ?_)⟩
      · rintro root callback rfl
        exact ho.adds hv (ih.1 rfl) ha
      · exact ⟨_, _, ((ih.1 rfl).2 rfl).symm, hv, _, ha, hne, rfl⟩
  exact hall.2

/-- Both nodes are in the batch, the leaf first. -/
def complete : Sync Unit :=
  ((waiting.store leafHash leafData).put extHash
    { data := some extData, callback := some () }).store extHash extData

theorem process_last : process (answer true) false 0
    ([leafHash].map fun h => (h, treeContent h)) waiting = .ok ((true, 0, none), complete) := by
  have hget : waiting.requests.get leafHash = some { parents := [extHash], callback := some () } :=
    get_set_self ..
  simp only [List.map, treeContent, show leafHash ≠ extHash by decide, if_false, if_true, process,
    processItem, hget, decodeNode_leaf]
  rfl

-- the extension is asked for once more, as a raw entry
theorem download_complete_late_raw : complete.Known extHash ∧ complete.Known leafHash := by
  have hzero : ¬ Decodes treeContent .zero := by
    rintro ⟨node, h⟩
    cases h
  have hraws : ∀ {h : Hash}, false = true ↔ h ∈ (∅ : Set Hash) := by simp
  have ho : (Plan.ofRole (answer true) treeContent ∅ fun _ => some ()).Orderly (answer true) :=
    ⟨fun _ _ => rfl, fun _ _ _ _ ha => absurd ha List.not_mem_nil,
      fun h _ => ⟨hraws, h.2⟩⟩
  have hraw : (askedFor extHash).add .zero (.rawEntry extHash) = .ok (askedFor extHash) := by
    rw [add, addRawEntry, if_neg (by decide)]
    rfl
  have hasked : Reached (Plan.ofRole (answer true) treeContent ∅ fun _ => some ()).toRequests
      (answer true) (fun _ => none) [.rawEntry extHash, .subTrie extHash (some ())]
      (askedFor extHash) :=
    .add (.newSync (fun h => by cases h) ⟨hraws, fun _ => rfl⟩
      (newSync_askedFor extHash (by decide))) (.inl rfl) (Or.inr (.inl rfl)) hraw
  have hr := (hasked.process (itemsFit_answer ..) process_ext).process (itemsFit_answer ..)
    process_last
  have hroot : Needed (answer true) treeContent [.rawEntry extHash, .subTrie extHash (some ())]
      (.subTrie extHash (some ())) :=
    .added (List.mem_cons_of_mem _ List.mem_cons_self)
      fun h => absurd (show extHash = emptyRoot from h) (by decide)
  have hkids : leafHash ∈ kids treeContent extHash := by
    rw [kids, parts_ext]
    exact List.mem_cons_self
  exact ⟨download_complete hzero ho (fun h => by cases h) hr rfl hroot,
    download_complete hzero ho (fun h => by cases h) hr rfl (hroot.child hkids)⟩

/-- The extension is asked for as a raw entry and then as a trie. -/
def clashAdded : List (Add Unit) :=
  [.subTrie extHash none, .rawEntry extHash, .subTrie emptyRoot none]

def clashSync : Sync Unit := { database := fun _ => none }

def clashRequest : Request Unit := { raw := true }

theorem reached_clash : Reached (anyRequests treeContent) (answer true) (fun _ => none) clashAdded
    ((clashSync.put extHash clashRequest).store extHash extData) := by
  have hget : (clashSync.put extHash clashRequest).requests.get extHash = some clashRequest :=
    get_set_self ..
  have hdec : decodeNode (some extHash) [] 0 = some (.error (.plain .unexpectedEOF)) := rfl
  have hnew : newSync emptyRoot (fun _ => none) none = .ok clashSync := rfl
  have hraw : clashSync.add .zero (.rawEntry extHash) =
      .ok (clashSync.put extHash clashRequest) := by
    rw [add, addRawEntry, if_neg (by decide)]
    rfl
  have hmerge : (clashSync.put extHash clashRequest).add .zero (.subTrie extHash none) =
      .ok ((clashSync.put extHash clashRequest).put extHash clashRequest) := by
    have hdata : ((clashSync.put extHash clashRequest).database extHash).getD [] = [] := rfl
    rw [add, addSubTrie, if_neg (by decide), if_neg (fun h => by cases h), hdata, hdec]
    simp only [link, ne_eq, not_true_eq_false, if_false, schedule, hget]
    rfl
  have hprocess : process (answer true) false 0 ([extHash].map fun h => (h, treeContent h))
      ((clashSync.put extHash clashRequest).put extHash clashRequest) =
        .ok ((true, 0, none), (clashSync.put extHash clashRequest).store extHash extData) := by
    have hget' : ((clashSync.put extHash clashRequest).put extHash clashRequest).requests.get
        extHash = some clashRequest := get_set_self ..
    simp only [List.map, treeContent, if_true, process, processItem, hget']
    rfl
  exact .process (.add (.add (.newSync (fun h => by cases h) trivial hnew) (.inl rfl)
    (.inl trivial) hraw) (.inl rfl) trivial hmerge) (itemsFit_answer ..) hprocess

/-- Asked for as a raw entry first, a node is there without its child. -/
theorem clash_incomplete : ∃ s : Sync Unit,
    Reached (anyRequests treeContent) (answer true) (fun _ => none) clashAdded s ∧
      s.requests.size = 0 ∧
      Needed (answer true) treeContent clashAdded (.subTrie leafHash none) ∧
      ¬ s.Known leafHash := by
  refine ⟨_, reached_clash, rfl, ?_, ?_⟩
  · have hroot : Needed (answer true) treeContent clashAdded (.subTrie extHash none) :=
      .added List.mem_cons_self fun h => absurd (show extHash = emptyRoot from h) (by decide)
    refine .child hroot ?_
    rw [kids, parts_ext]
    exact List.mem_cons_self
  · rintro (h | h)
    · cases h
    · cases h

end Sync

end GoEthereum.Trie
