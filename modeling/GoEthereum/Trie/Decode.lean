/-
  Which bytes `decodeNode` panics on (`trie/node.go`).

  `decodeNode` returns a node or an error, unless it comes to a short node whose path is
  the empty string: `compactToHex` looks for the flags in the first byte of the path and
  slices behind them.  The node may be the given one or one that is embedded in it.
-/
import GoEthereum.Trie.Node

namespace GoEthereum.Trie

open GoEthereum.Rlp Relation

/-! ## One call of the decoder -/

/-- One call: the embedded nodes are decoded by `decodeNode` again. -/
theorem decodeNode_eq (hash : Option Hash) (buf : Bytes) (cachegen : UInt16) :
    decodeNode hash buf cachegen =
      if buf.length = 0 then some (.error (.plain .unexpectedEOF))
      else
        match splitList buf with
        | none => none
        | some (.error e) => some (.error (.plain (.list e)))
        | some (.ok (elems, _)) => (countValues elems).bind fun r =>
          match r.toOption.getD 0 with
          | 2 => (decodeShort decodeNode hash elems cachegen).map (wrapResult · "short")
          | 17 => (decodeFull decodeNode hash elems cachegen).map (wrapResult · "full")
          | c => some (.error (.plain (.count c))) := by
  rw [decodeNode, decodeNodeFuel]
  split_ifs with hb
  · rfl
  rcases hs : splitList buf with _ | e | ⟨elems, rest⟩
  · rfl
  · rfl
  have hlt := splitList_length hs hb
  have hrec : ∀ b : Bytes, b.length ≤ elems.length →
      decodeNodeFuel buf.length none b cachegen = decodeNode none b cachegen :=
    fun b hb => decodeNodeFuel_eq _ _ none cachegen (by omega) (by omega)
  have hshort := decodeShort_congr hrec hash (le_refl _)
  have hfull := decodeFull_congr hrec hash (le_refl _)
  dsimp only
  exact hshort ▸ hfull ▸ rfl

theorem compactToHex_eq_none {compact : Bytes} : compactToHex compact = none ↔ compact = [] := by
  constructor
  · intro h
    rcases compact with _ | ⟨b, bs⟩
    · rfl
    have hlen := length_keybytesToHex (b :: bs)
    rw [List.length_cons] at hlen
    dsimp only [compactToHex] at h
    rw [if_pos] at h
    · cases h
    · split_ifs
      · rw [List.length_dropLast]
        omega
      · omega
  · rintro rfl
    rfl

section
variable {node : Option Hash → Bytes → UInt16 → Option (Except DecodeError (Node Hex))}
  {cachegen : UInt16}

/-- The bytes begin with a list that is short enough for an embedded node. -/
def Embedded (buf : Bytes) : Prop :=
  ∃ content rest, split buf = some (.ok (.list, content, rest)) ∧ buf.length - rest.length ≤ 32

theorem decodeRef_eq_none {buf : Bytes} :
    decodeRef node buf cachegen = none ↔ Embedded buf ∧ node none buf cachegen = none := by
  rcases hs : split buf with _ | e | ⟨kind, val, rest⟩
  · exact absurd hs (split_ne_none buf)
  · simp [decodeRef, Embedded, hs]
  · by_cases hk : kind = .list
    · subst hk
      by_cases hsize : buf.length - rest.length ≤ 32
      · have he : Embedded buf := ⟨val, rest, hs, hsize⟩
        simp only [decodeRef, hs, if_true, if_neg (Nat.not_lt.2 hsize), Option.map_eq_none_iff, he,
          true_and]
      · have he : ¬ Embedded buf := by
          rintro ⟨_, _, h, hle⟩
          rw [hs] at h
          cases h
          exact hsize hle
        simp only [decodeRef, hs, if_true, if_pos (Nat.lt_of_not_le hsize), he, reduceCtorEq,
          false_and]
    · have hno : ¬ Embedded buf := by
        rintro ⟨_, _, he, -⟩
        rw [hs] at he
        cases he
        exact hk rfl
      simp only [decodeRef, hs, if_neg hk, hno, false_and, iff_false]
      split_ifs <;> simp

theorem decodeShort_eq_none {hash : Option Hash} {elems : Bytes} :
    decodeShort node hash elems cachegen = none ↔
      ∃ kbuf rest, splitString elems = some (.ok (kbuf, rest)) ∧
        (kbuf = [] ∨ ∃ key, compactToHex kbuf = some key ∧ hasTerm key = false ∧
          decodeRef node rest cachegen = none) := by
  rcases hs : splitString elems with _ | e | ⟨kbuf, rest⟩
  · exact absurd hs (splitString_ne_none elems)
  · simp [decodeShort, hs]
  rcases hk : compactToHex kbuf with _ | key
  · have hnil := compactToHex_eq_none.1 hk
    simp only [decodeShort, hs, hk, true_iff]
    exact ⟨kbuf, rest, rfl, .inl hnil⟩
  have hne : kbuf ≠ [] := fun h => by rw [compactToHex_eq_none.2 h] at hk; cases hk
  rcases ht : hasTerm key with _ | _
  · rcases hr : decodeRef node rest cachegen with _ | _ | ⟨r, rest'⟩ <;>
      simp [decodeShort, hs, hk, ht, hr, hne]
  · rcases hv : splitString rest with _ | e | ⟨val, rest'⟩
    · exact absurd hv (splitString_ne_none rest)
    · simp [decodeShort, hs, hk, ht, hv, hne]
    · simp [decodeShort, hs, hk, ht, hv, hne]

/-- The loop over the children panics at the first child that does, if all before it are
    decoded. -/
theorem decodeChildren_eq_none : ∀ {n i : ℕ} {elems : Bytes},
    decodeChildren node cachegen n i elems = none ↔
      ∃ j < n, ∃ cs b, decodeChildren node cachegen j i elems = some (.ok (cs, b)) ∧
        decodeRef node b cachegen = none
  | 0, i, elems => by simp [decodeChildren]
  | n + 1, i, elems => by
    rcases hr : decodeRef node elems cachegen with _ | e | ⟨cld, rest⟩
    · simp only [decodeChildren, hr, true_iff]
      exact ⟨0, by omega, [], elems, rfl, hr⟩
    · simp only [decodeChildren, hr, reduceCtorEq, false_iff]
      rintro ⟨j, -, cs, b, hj, hb⟩
      cases j with
      | zero => cases hj; rw [hr] at hb; cases hb
      | succ j => simp [decodeChildren, hr] at hj
    · have hstep : decodeChildren node cachegen (n + 1) i elems = none ↔
          decodeChildren node cachegen n (i + 1) rest = none := by
        simp only [decodeChildren, hr]
        rcases decodeChildren node cachegen n (i + 1) rest with _ | _ | _ <;> simp
      rw [hstep, decodeChildren_eq_none]
      constructor
      · rintro ⟨j, hj, cs, b, hd, hb⟩
        exact ⟨j + 1, by omega, cld :: cs, b, by simp only [decodeChildren, hr, hd], hb⟩
      · rintro ⟨j, hj, cs, b, hd, hb⟩
        cases j with
        | zero => cases hd; rw [hr] at hb; cases hb
        | succ j =>
          simp only [decodeChildren, hr] at hd
          rcases hj' : decodeChildren node cachegen j (i + 1) rest with _ | _ | ⟨cs', b'⟩ <;>
            rw [hj'] at hd <;> cases hd
          exact ⟨j, by omega, cs', _, hj', hb⟩

theorem decodeFull_eq_none {hash : Option Hash} {elems : Bytes} :
    decodeFull node hash elems cachegen = none ↔
      decodeChildren node cachegen 16 0 elems = none := by
  rw [decodeFull]
  rcases decodeChildren node cachegen 16 0 elems with _ | _ | ⟨cs, rest⟩
  · simp
  · simp
  · rcases hs : splitString rest with _ | _ | ⟨val, _⟩
    · exact absurd hs (splitString_ne_none rest)
    · simp [hs]
    · simp [hs]

end

/-! ## The nodes the decoder comes to -/

/-- The bytes are a short node with the empty string for its path. -/
def EmptyPath (buf : Bytes) : Prop :=
  ∃ elems rest rest', splitList buf = some (.ok (elems, rest)) ∧
    countValues elems = some (.ok 2) ∧ splitString elems = some (.ok ([], rest'))

/-- `decodeNode` on `buf` decodes the embedded node at the start of `b`: the value of a
    short node, or a child of a full node when those before it are decoded. -/
inductive Visits (cachegen : UInt16) : Bytes → Bytes → Prop
  | short {buf elems after kbuf b : Bytes} {key : Hex} : splitList buf = some (.ok (elems, after)) →
      countValues elems = some (.ok 2) → splitString elems = some (.ok (kbuf, b)) →
      compactToHex kbuf = some key → hasTerm key = false → Embedded b → Visits cachegen buf b
  | full {buf elems after b : Bytes} {i : ℕ} {cs : List (Node Hex)} :
      splitList buf = some (.ok (elems, after)) → countValues elems = some (.ok 17) → i < 16 →
      decodeChildren decodeNode cachegen i 0 elems = some (.ok (cs, b)) → Embedded b →
      Visits cachegen buf b

theorem count_getD {r : Except Err ℕ} {n : ℕ} (hn : n ≠ 0) : r.toOption.getD 0 = n ↔ r = .ok n := by
  rcases r with e | c
  · simp [Except.toOption, Ne.symm hn]
  · simp [Except.toOption]

theorem decodeNode_eq_none {hash : Option Hash} {buf : Bytes} {cachegen : UInt16} :
    decodeNode hash buf cachegen = none ↔
      EmptyPath buf ∨ ∃ b, Visits cachegen buf b ∧ decodeNode none b cachegen = none := by
  rw [decodeNode_eq]
  split_ifs with hb
  · obtain rfl := List.length_eq_zero_iff.1 hb
    simp only [false_iff]
    rintro (⟨_, _, _, h, -⟩ | ⟨b, h, -⟩)
    · cases h
    · cases h with
      | short h => cases h
      | full h => cases h
  rcases hs : splitList buf with _ | e | ⟨elems, after⟩
  · exact absurd hs (splitList_ne_none buf)
  · simp only [reduceCtorEq, false_iff]
    rintro (⟨_, _, _, h, -⟩ | ⟨b, h, -⟩)
    · rw [hs] at h; cases h
    · cases h with
      | short h | full h => rw [hs] at h; cases h
  obtain ⟨c, hcount⟩ := Option.ne_none_iff_exists'.1 (countValues_ne_none elems)
  simp only [hcount, Option.bind_some]
  split
  · next hc =>
    rw [count_getD (by omega)] at hc
    subst hc
    rw [Option.map_eq_none_iff, decodeShort_eq_none]
    constructor
    · rintro ⟨kbuf, rest, hk, rfl | ⟨key, hkey, ht, hr⟩⟩
      · exact .inl ⟨elems, after, rest, hs, hcount, hk⟩
      · obtain ⟨he, hn⟩ := decodeRef_eq_none.1 hr
        exact .inr ⟨rest, .short hs hcount hk hkey ht he, hn⟩
    · rintro (⟨_, _, rest, h, -, hk⟩ | ⟨b, h, hn⟩)
      · cases hs.symm.trans h
        exact ⟨[], rest, hk, .inl rfl⟩
      · cases h with
        | short h _ hk hkey ht he =>
          cases hs.symm.trans h
          exact ⟨_, b, hk, .inr ⟨_, hkey, ht, decodeRef_eq_none.2 ⟨he, hn⟩⟩⟩
        | full h h17 =>
          cases hs.symm.trans h
          rw [hcount] at h17
          cases h17
  · next hc =>
    rw [count_getD (by omega)] at hc
    subst hc
    rw [Option.map_eq_none_iff, decodeFull_eq_none, decodeChildren_eq_none]
    constructor
    · rintro ⟨i, hi, cs, b, hd, hr⟩
      obtain ⟨he, hn⟩ := decodeRef_eq_none.1 hr
      exact .inr ⟨b, .full hs hcount hi hd he, hn⟩
    · rintro (⟨_, _, rest, h, h2, -⟩ | ⟨b, h, hn⟩)
      · cases hs.symm.trans h
        rw [hcount] at h2
        cases h2
      · cases h with
        | short h h2 =>
          cases hs.symm.trans h
          rw [hcount] at h2
          cases h2
        | full h _ hi hd he =>
          cases hs.symm.trans h
          exact ⟨_, hi, _, b, hd, decodeRef_eq_none.2 ⟨he, hn⟩⟩
  · next h2 h17 =>
    simp only [reduceCtorEq, false_iff]
    have hno : ∀ {n : ℕ} {elems' : Bytes} {rest : Bytes}, n ≠ 0 → c.toOption.getD 0 ≠ n →
        splitList buf = some (.ok (elems', rest)) → countValues elems' ≠ some (.ok n) := by
      intro n elems' rest hn hne h hc
      cases hs.symm.trans h
      exact hne ((count_getD hn).2 (Option.some.inj (hcount.symm.trans hc)))
    rintro (⟨_, _, rest, h, hc, -⟩ | ⟨b, h, -⟩)
    · exact hno (by omega) h2 h hc
    · cases h with
      | short h hc => exact hno (by omega) h2 h hc
      | full h hc => exact hno (by omega) h17 h hc

theorem decodeChildren_length
    {node : Option Hash → Bytes → UInt16 → Option (Except DecodeError (Node Hex))}
    {cachegen : UInt16} : ∀ {n i : ℕ} {elems b : Bytes} {cs : List (Node Hex)},
    decodeChildren node cachegen n i elems = some (.ok (cs, b)) → b.length ≤ elems.length
  | 0, i, elems, b, cs, h => by
    simp only [decodeChildren] at h
    cases h
    exact le_refl _
  | n + 1, i, elems, b, cs, h => by
    simp only [decodeChildren] at h
    rcases hr : decodeRef node elems cachegen with _ | e | ⟨cld, rest⟩ <;> rw [hr] at h
    · cases h
    · cases h
    · dsimp only at h
      rcases hd : decodeChildren node cachegen n (i + 1) rest with _ | e | ⟨cs', b'⟩ <;>
        rw [hd] at h <;> cases h
      exact (decodeChildren_length hd).trans (decodeRef_length hr)

theorem Visits.length_lt {cachegen : UInt16} {buf b : Bytes} (h : Visits cachegen buf b) :
    b.length < buf.length := by
  have hne : ∀ {elems after : Bytes}, splitList buf = some (.ok (elems, after)) →
      buf.length ≠ 0 := by
    intro elems after h h0
    rw [List.length_eq_zero_iff.1 h0] at h
    cases h
  cases h with
  | short h _ hk => exact (splitString_length hk).trans_lt (splitList_length h (hne h))
  | full h _ _ hd => exact (decodeChildren_length hd).trans_lt (splitList_length h (hne h))

/-- **Where the decoder returns.**  `decodeNode` returns a node or an error exactly when
    it comes to no short node with an empty path. -/
theorem decodeNode_total (hash : Option Hash) (buf : Bytes) (cachegen : UInt16) :
    (∃ r, decodeNode hash buf cachegen = some r) ↔
      ∀ b, ReflTransGen (Visits cachegen) buf b → ¬ EmptyPath b := by
  rw [← Option.isSome_iff_exists, Option.isSome_iff_ne_none, ne_eq, not_iff_comm]
  push Not
  induction hn : buf.length using Nat.strong_induction_on generalizing hash buf with
  | _ n ih =>
    subst hn
    rw [decodeNode_eq_none]
    constructor
    · rintro ⟨b, hreach, hb⟩
      rcases hreach.cases_head with rfl | ⟨c, hc, hcb⟩
      · exact .inl hb
      · exact .inr ⟨c, hc, (ih _ hc.length_lt none c rfl).1 ⟨b, hcb, hb⟩⟩
    · rintro (hb | ⟨c, hc, hnone⟩)
      · exact ⟨buf, .refl, hb⟩
      · obtain ⟨b, hcb, hb⟩ := (ih _ hc.length_lt none c rfl).2 hnone
        exact ⟨b, .head hc hcb, hb⟩

/-- A list of two empty strings. -/
theorem decodeNode_panics : decodeNode none [0xC2, 0x80, 0x80] 0 = none :=
  decodeNode_eq_none.2 (.inl ⟨[0x80, 0x80], [], [0x80], by decide, by decide, by decide⟩)

end GoEthereum.Trie
