/-
  The bounds of the RLP input stream (`rlp/decode.go`, type `Stream`).

  The positions on the stack never pass the ends of their lists, a list lies in the rest of
  the list around it, and no more is read than the limit allows.  This holds after any calls
  of the methods, those that fail included (`stream_bounds`).
-/
import GoEthereum.Rlp.Stream

namespace GoEthereum.Rlp

namespace Stream

/-- `Reset`; `known` if the reader is a `bytes.Reader` or a `strings.Reader`. -/
def reset (s : Stream) (r : Bytes) (known : Bool) (inputLimit : ℕ) : Stream :=
  let s :=
    if inputLimit > 0 then { s with remaining := inputLimit, limited := true }
    else if known then { s with remaining := r.length, limited := true }
    else { s with limited := false }
  { s with r := r, stack := [], size := 0, kind := none, kinderr := none }

def newListStream (r : Bytes) (known : Bool) (len : ℕ) : Stream :=
  let s := reset ⟨[], 0, false, some .byte, 0, 0, none, []⟩ r known len
  { s with kind := some .list, size := len }

/-- `Raw`; `none` if it panics, as the size of the buffer does not fit in 64 bits. -/
def raw (s : Stream) : Option (Except Err Bytes) × Stream :=
  match s.getKind with
  | (.error e, s) => (some (.error e), s)
  | (.ok (.byte, _), s) => (some (.ok [s.byteval]), { s with kind := none })
  | (.ok (kind, size), s) =>
    if headsize size + size ≥ 2 ^ 64 then (none, s)
    else
      match s.readFull size with
      | (.error e, s) => (some (.error e), s)
      | (.ok b, s) =>
        if kind = .string then (some (.ok (puthead 0x80 0xB7 size ++ b)), s)
        else (some (.ok (puthead 0xC0 0xF7 size ++ b)), s)

/-! ## Bounds -/

/-- The open lists lie in each other, and what is read of `input` keeps to `limit`. -/
structure Bounded (input : Bytes) (limit : ℕ) (s : Stream) : Prop where
  pos : ∀ l ∈ s.stack, l.pos ≤ l.size
  nested : s.stack.IsChain fun inner outer => inner.size ≤ outer.size - outer.pos
  suffix : s.r <:+ input
  budget : s.limited = true → input.length + s.remaining ≤ s.r.length + limit

/-- The value whose kind is cached lies in the innermost list. -/
def Cached (s : Stream) : Prop :=
  s.kind.isSome → s.kinderr = none → s.checkSize s.size = none

variable {input : Bytes} {limit n : ℕ} {s s' : Stream}

/-- What is left of the limit after `n` bytes that are not read yet. -/
def Owes (input : Bytes) (limit n : ℕ) (s : Stream) : Prop :=
  s.limited = true → input.length + s.remaining + n ≤ s.r.length + limit

theorem Bounded.charge (h : Bounded input limit s) {st : List ListPos} (n : ℕ)
    (hpos : ∀ l ∈ st, l.pos ≤ l.size)
    (hnested : st.IsChain fun inner outer => inner.size ≤ outer.size - outer.pos)
    {p : Except Err Unit × Stream} (hp : p = if s.limited then
      if n > s.remaining then (.error .valueTooLarge, { s with kind := none, stack := st })
      else (.ok (), { s with kind := none, stack := st, remaining := s.remaining - n })
      else (.ok (), { s with kind := none, stack := st })) :
    Bounded input limit p.2 ∧ p.2.kind = none ∧ (p.1 = .ok () → Owes input limit n p.2) := by
  have hbudget := h.budget
  rw [hp]
  split_ifs with hlim hn
  · exact ⟨⟨hpos, hnested, h.suffix, hbudget⟩, rfl, nofun⟩
  · have := hbudget hlim
    exact ⟨⟨hpos, hnested, h.suffix, fun _ => by dsimp only; omega⟩, rfl,
      fun _ _ => by dsimp only; omega⟩
  · exact ⟨⟨hpos, hnested, h.suffix, fun hl => absurd hl hlim⟩, rfl, fun _ hl => absurd hl hlim⟩

theorem Bounded.willRead (h : Bounded input limit s) (n : ℕ) :
    Bounded input limit (s.willRead n).2 ∧ (s.willRead n).2.kind = none ∧
      ((s.willRead n).1 = .ok () → Owes input limit n (s.willRead n).2) := by
  have hpos := h.pos
  have hnested := h.nested
  unfold Stream.willRead
  rcases hst : s.stack with _ | ⟨tos, st⟩ <;> rw [hst] at hpos hnested
  · exact h.charge n (by simp) .nil (by simp only)
  · by_cases hn : n > tos.size - tos.pos
    · dsimp only
      rw [if_pos hn]
      exact ⟨⟨hpos, hnested, h.suffix, h.budget⟩, rfl, nofun⟩
    · have htos := hpos tos (by simp)
      dsimp only
      rw [if_neg hn]
      refine h.charge n ?_ ?_ rfl
      · intro l hl
        rcases List.mem_cons.1 hl with rfl | hl
        · dsimp only
          omega
        · exact hpos l (List.mem_cons_of_mem _ hl)
      · rcases st with _ | ⟨outer, st⟩
        · exact .singleton _
        · rw [List.isChain_cons_cons] at hnested ⊢
          exact hnested

theorem Bounded.congr (h : Bounded input limit s) (hr : s'.r = s.r)
    (hrem : s'.remaining = s.remaining) (hlim : s'.limited = s.limited)
    (hst : s'.stack = s.stack) : Bounded input limit s' :=
  ⟨hst ▸ h.pos, hst ▸ h.nested, hr ▸ h.suffix, by rw [hr, hrem, hlim]; exact h.budget⟩

theorem Bounded.drop (h : Bounded input limit s) {k : ℕ} (ho : Owes input limit n s)
    (hk : k ≤ n) : Bounded input limit { s with r := s.r.drop k } := by
  refine ⟨h.pos, h.nested, (List.drop_suffix k s.r).trans h.suffix, fun hlim => ?_⟩
  have := ho hlim
  simp only [List.length_drop]
  omega

/-- The stream keeps its bounds, and nothing is cached. -/
def Rearmed (input : Bytes) (limit : ℕ) (s : Stream) : Prop :=
  Bounded input limit s ∧ s.kind = none

theorem Bounded.readByte (h : Bounded input limit s) : Rearmed input limit s.readByte.2 := by
  obtain ⟨hb, hk, ho⟩ := h.willRead 1
  unfold Stream.readByte
  rcases hw : s.willRead 1 with ⟨_ | ⟨⟩, s₁⟩ <;> rw [hw] at hb hk ho
  · exact ⟨hb, hk⟩
  · rcases hr : s₁.r with _ | ⟨b, r⟩
    · simp only [hr]
      exact ⟨hb, hk⟩
    · have := hb.drop (ho rfl) le_rfl
      simp only [hr, List.drop_one, List.tail_cons] at this ⊢
      exact ⟨this, hk⟩

theorem Bounded.readFull (h : Bounded input limit s) (n : ℕ) :
    Rearmed input limit (s.readFull n).2 := by
  obtain ⟨hb, hk, ho⟩ := h.willRead n
  unfold Stream.readFull
  rcases hw : s.willRead n with ⟨_ | ⟨⟩, s₁⟩ <;> rw [hw] at hb hk ho
  · exact ⟨hb, hk⟩
  · simp only
    split_ifs with hn
    · exact ⟨hb.drop (ho rfl) le_rfl, hk⟩
    · have := hb.drop (ho rfl) (le_of_not_ge hn)
      rw [List.drop_length] at this
      exact ⟨this, hk⟩

theorem Bounded.readUint (h : Bounded input limit s) (n : ℕ) :
    Rearmed input limit (s.readUint n).2 := by
  unfold Stream.readUint
  split
  · exact ⟨h.congr rfl rfl rfl rfl, rfl⟩
  · have hb := h.readByte
    rcases hr : s.readByte with ⟨_ | b, s₁⟩ <;> rw [hr] at hb <;> exact hb
  · have hb := h.readFull n
    rcases hr : s.readFull n with ⟨_ | b, s₁⟩ <;> rw [hr] at hb
    · exact hb
    · simp only
      split_ifs <;> exact hb

theorem Bounded.readKindSize (h : Bounded input limit s) (k : Kind) (n : ℕ) :
    Rearmed input limit (s.readKindSize k n).2 := by
  have hb := h.readUint n
  unfold Stream.readKindSize
  rcases hr : s.readUint n with ⟨_ | size, s₁⟩ <;> rw [hr] at hb <;> exact hb

theorem Bounded.readKind (h : Bounded input limit s) : Rearmed input limit s.readKind.2 := by
  have hb := h.readByte
  unfold Stream.readKind
  rcases hr : s.readByte with ⟨_ | b, s₁⟩ <;> rw [hr] at hb
  · exact hb
  · have hreset : Bounded input limit { s₁ with byteval := 0 } := hb.1.congr rfl rfl rfl rfl
    simp only
    split_ifs
    · exact ⟨hb.1.congr rfl rfl rfl rfl, hb.2⟩
    · exact ⟨hreset, hb.2⟩
    · exact hreset.readKindSize _ _
    · exact ⟨hreset, hb.2⟩
    · exact hreset.readKindSize _ _

/-! ## The methods -/

/-- What every call keeps. -/
structure Safe (input : Bytes) (limit : ℕ) (s : Stream) : Prop where
  bounded : Bounded input limit s
  cached : Cached s

theorem Rearmed.safe (h : Rearmed input limit s) : Safe input limit s :=
  ⟨h.1, by simp [Cached, h.2]⟩

/-- A value whose kind is returned lies in the innermost list. -/
def Within (p : Except Err (Kind × ℕ) × Stream) : Prop :=
  ∀ k size, p.1 = .ok (k, size) → p.2.checkSize size = none

theorem Rearmed.fetchKind (h : Rearmed input limit s) :
    Safe input limit s.fetchKind.2 ∧ Within s.fetchKind := by
  unfold Stream.fetchKind
  split_ifs with heol
  · exact ⟨h.safe, nofun⟩
  · have hb := h.1.readKind
    rcases hr : s.readKind with ⟨⟨k, size, _ | e⟩, s₁⟩ <;> rw [hr] at hb <;> simp only
    · rcases hc : s₁.checkSize size with _ | e
      · exact ⟨⟨hb.1.congr rfl rfl rfl rfl, fun _ _ => hc⟩, by rintro _ _ ⟨⟩; exact hc⟩
      · exact ⟨⟨hb.1.congr rfl rfl rfl rfl, nofun⟩, nofun⟩
    · exact ⟨⟨hb.1.congr rfl rfl rfl rfl, nofun⟩, nofun⟩

theorem Safe.getKind (h : Safe input limit s) :
    Safe input limit s.getKind.2 ∧ Within s.getKind := by
  unfold Stream.getKind
  rcases hk : s.kind with _ | k
  · exact Rearmed.fetchKind ⟨h.bounded.congr rfl rfl rfl rfl, rfl⟩
  · rcases he : s.kinderr with _ | e
    · simp only
      exact ⟨h, by rintro _ _ ⟨⟩; exact h.cached (by simp [hk]) he⟩
    · simp only
      exact ⟨h, nofun⟩

theorem Safe.rearm (h : Safe input limit s) : Safe input limit { s with kind := none } :=
  Rearmed.safe ⟨h.bounded.congr rfl rfl rfl rfl, rfl⟩

theorem Safe.bytes (h : Safe input limit s) : Safe input limit s.bytes.2 := by
  have hg := h.getKind.1
  unfold Stream.bytes
  rcases hk : s.getKind with ⟨e | ⟨_ | _ | _, size⟩, s₁⟩ <;> rw [hk] at hg
  · exact hg
  · exact hg.rearm
  · have hb := hg.bounded.readFull size
    rcases hr : s₁.readFull size with ⟨e | b, s₂⟩ <;> rw [hr] at hb <;> simp only [hr]
    · exact hb.safe
    · split_ifs <;> exact hb.safe
  · exact hg

theorem Safe.raw (h : Safe input limit s) : Safe input limit s.raw.2 := by
  have hg := h.getKind.1
  unfold Stream.raw
  have hread : ∀ {s₁ : Stream} (_ : Safe input limit s₁) (k : Kind) (size : ℕ), Safe input limit
      (if headsize size + size ≥ 2 ^ 64 then (none, s₁)
        else match s₁.readFull size with
          | (.error e, s) => (some (.error e), s)
          | (.ok b, s) =>
            if k = .string then (some (.ok (puthead 0x80 0xB7 size ++ b)), s)
            else (some (.ok (puthead 0xC0 0xF7 size ++ b)), s) :
        Option (Except Err Bytes) × Stream).2 := by
    intro s₁ hs k size
    have hb := hs.bounded.readFull size
    rcases hr : s₁.readFull size with ⟨e | b, s₂⟩ <;> rw [hr] at hb <;> simp only
    · split_ifs
      exacts [hs, hb.safe]
    · split_ifs
      exacts [hs, hb.safe, hb.safe]
  rcases hk : s.getKind with ⟨e | ⟨_ | _ | _, size⟩, s₁⟩ <;> rw [hk] at hg
  · exact hg
  · exact hg.rearm
  · exact hread hg .string size
  · exact hread hg .list size

theorem Safe.uint (h : Safe input limit s) (maxbits : ℕ) :
    Safe input limit (s.uint maxbits).2 := by
  have hg := h.getKind.1
  unfold Stream.uint
  rcases hk : s.getKind with ⟨e | ⟨_ | _ | _, size⟩, s₁⟩ <;> rw [hk] at hg
  · exact hg
  · simp only
    split_ifs
    exacts [hg, hg.rearm]
  · simp only
    split_ifs
    · exact hg
    · have hb := hg.bounded.readUint size
      rcases hr : s₁.readUint size with ⟨e | v, s₂⟩ <;> rw [hr] at hb
      · cases e <;> exact hb.safe
      · simp only
        split_ifs <;> exact hb.safe
  · exact hg

theorem Safe.bool (h : Safe input limit s) : Safe input limit s.bool.2 := by
  have hu := h.uint 8
  unfold Stream.bool
  rcases hr : s.uint 8 with ⟨e | _ | _ | n, s₁⟩ <;> rw [hr] at hu <;> exact hu

theorem Safe.list (h : Safe input limit s) : Safe input limit s.list.2 := by
  obtain ⟨hg, hw⟩ := h.getKind
  unfold Stream.list
  rcases hk : s.getKind with ⟨e | ⟨_ | _ | _, size⟩, s₁⟩ <;> rw [hk] at hg hw
  · exact hg
  · exact hg
  · exact hg
  · refine Rearmed.safe ⟨⟨?_, ?_, hg.bounded.suffix, hg.bounded.budget⟩, rfl⟩
    · intro l hl
      rcases List.mem_cons.1 hl with rfl | hl
      · exact Nat.zero_le _
      · exact hg.bounded.pos l hl
    · have hn := hg.bounded.nested
      have hc := hw .list size rfl
      unfold checkSize at hc
      rcases hst : s₁.stack with _ | ⟨outer, st⟩ <;> simp only [hst] at hn hc ⊢
      · exact .singleton _
      · refine List.isChain_cons_cons.2 ⟨?_, hn⟩
        by_contra hlt
        rw [if_pos (not_le.1 hlt)] at hc
        cases hc

theorem Safe.listEnd (h : Safe input limit s) : Safe input limit s.listEnd.2 := by
  have hpos := h.bounded.pos
  have hn := h.bounded.nested
  unfold Stream.listEnd
  rcases hst : s.stack with _ | ⟨tos, st⟩ <;> simp only
  · exact h
  · rw [hst] at hpos hn
    split_ifs with hend
    · exact h
    refine Rearmed.safe ⟨⟨?_, ?_, h.bounded.suffix, h.bounded.budget⟩, rfl⟩ <;>
      rcases st with _ | ⟨t, st⟩ <;> dsimp only
    · simp
    · have ht := hpos t (by simp)
      have hfit := (List.isChain_cons_cons.1 hn).1
      intro l hl
      rcases List.mem_cons.1 hl with rfl | hl
      · dsimp only
        omega
      · exact hpos l (by simp [hl])
    · exact .nil
    · have hn := (List.isChain_cons_cons.1 hn).2
      rcases st with _ | ⟨t', st⟩
      · exact .singleton _
      · rw [List.isChain_cons_cons] at hn ⊢
        exact hn

/-! ## Runs -/

/-- The calls of a stream's user; those of the decoders in the package are `uint`, the
    reads that are not exported, and `rearm` for an assignment of `-1` to `kind`. -/
inductive Call where
  | kind | bytes | raw | uint (maxbits : ℕ) | bool | list | listEnd
  | rearm | readKind | readUint (size : ℕ) | readFull (n : ℕ) | readByte | willRead (n : ℕ)

/-- The stream after a call, whatever its result. -/
def after (s : Stream) : Call → Stream
  | .kind => s.getKind.2
  | .bytes => s.bytes.2
  | .raw => s.raw.2
  | .uint maxbits => (s.uint maxbits).2
  | .bool => s.bool.2
  | .list => s.list.2
  | .listEnd => s.listEnd.2
  | .rearm => { s with kind := none }
  | .readKind => s.readKind.2
  | .readUint size => (s.readUint size).2
  | .readFull n => (s.readFull n).2
  | .readByte => s.readByte.2
  | .willRead n => (s.willRead n).2

/-- The streams after `NewStream`, `Reset` or `NewListStream` on the reader `r`, and any calls. -/
inductive Reached (r : Bytes) (known : Bool) (inputLimit : ℕ) : Stream → Prop
  | reset (s : Stream) : Reached r known inputLimit (s.reset r known inputLimit)
  | listStream : Reached r known inputLimit (newListStream r known inputLimit)
  | call {s : Stream} (c : Call) (h : Reached r known inputLimit s) :
      Reached r known inputLimit (s.after c)

theorem Safe.after (h : Safe input limit s) (c : Call) : Safe input limit (s.after c) := by
  cases c with
  | kind => exact h.getKind.1
  | bytes => exact h.bytes
  | raw => exact h.raw
  | uint maxbits => exact h.uint maxbits
  | bool => exact h.bool
  | list => exact h.list
  | listEnd => exact h.listEnd
  | rearm => exact h.rearm
  | readKind => exact h.bounded.readKind.safe
  | readUint size => exact (h.bounded.readUint size).safe
  | readFull n => exact (h.bounded.readFull n).safe
  | readByte => exact h.bounded.readByte.safe
  | willRead n =>
    obtain ⟨hb, hk, -⟩ := h.bounded.willRead n
    exact Rearmed.safe ⟨hb, hk⟩

/-- The bytes a stream may read: the limit that is given, or the length of the reader. -/
def allowance (r : Bytes) (inputLimit : ℕ) : ℕ := if inputLimit > 0 then inputLimit else r.length

theorem bounded_reset (s : Stream) (r : Bytes) (known : Bool) (inputLimit : ℕ) :
    Bounded r (allowance r inputLimit) (s.reset r known inputLimit) := by
  refine ⟨by simp [reset], by simp [reset], by simp [reset], fun _ => ?_⟩
  unfold reset allowance
  split_ifs <;> simp_all [reset]

theorem Reached.safe {r : Bytes} {known : Bool} {inputLimit : ℕ}
    (h : Reached r known inputLimit s) : Safe r (allowance r inputLimit) s := by
  induction h with
  | reset s => exact Rearmed.safe ⟨bounded_reset s r known inputLimit, rfl⟩
  | listStream =>
    refine ⟨(bounded_reset _ r known inputLimit).congr rfl rfl rfl rfl, fun _ _ => ?_⟩
    simp only [newListStream, Stream.reset, checkSize]
    split_ifs <;> simp_all
  | call c _ ih => exact ih.after c

/-- **Stream bounds.**  After any calls, failed ones included, the position in an open list
    does not pass its end, what is unread of an inner list fits in what is unread of the list
    around it, no more bytes are consumed than the limit allows, and bytes are taken from
    `remaining` only if it has them. -/
theorem stream_bounds {r : Bytes} {known : Bool} {inputLimit : ℕ}
    (h : Reached r known inputLimit s) :
    (∀ l ∈ s.stack, l.pos ≤ l.size) ∧
      (s.stack.IsChain fun inner outer => inner.size - inner.pos ≤ outer.size - outer.pos) ∧
      s.r <:+ r ∧ (s.limited = true → r.length - s.r.length ≤ allowance r inputLimit) ∧
      ∀ n, (s.willRead n).1 = .ok () → s.limited = true → n ≤ s.remaining := by
  obtain ⟨hpos, hnested, hsuffix, hbudget⟩ := h.safe.bounded
  refine ⟨hpos, hnested.imp fun inner outer hfit => by omega, hsuffix, fun hlim => ?_,
    fun n hok => ?_⟩
  · have := hbudget hlim
    omega
  · exact (willRead_ok (Prod.ext hok rfl : s.willRead n = (.ok (), (s.willRead n).2))).2

/-- A list in a list, with a value that does not fit; the reads go on after the error. -/
theorem stream_bounds_nested :
    ∃ s : Stream, Reached [0xC3, 0xC2, 0x83, 0x61] true 0 s ∧ s.stack = [⟨1, 2⟩, ⟨1, 3⟩] ∧
      s.kinderr = some .elemTooLarge ∧ ∀ l ∈ s.stack, l.pos ≤ l.size := by
  have hs : Reached [0xC3, 0xC2, 0x83, 0x61] true 0
      (((((newListStream [] true 0).reset [0xC3, 0xC2, 0x83, 0x61] true 0).after .list).after
        .list).after .bytes) := .call .bytes (.call .list (.call .list (.reset _)))
  exact ⟨_, hs, by decide, by decide, (stream_bounds hs).1⟩

end Stream

end GoEthereum.Rlp
