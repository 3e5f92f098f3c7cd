/-
  Taking an encoded value apart without decoding it (`rlp/raw.go`).

  `Split` returns the content of the first value of a byte slice and what comes
  after it; its slices are in range (`split_eq`).  On encodings it finds what was
  encoded (`split_enc`), and `CountValues` counts the values (`countValues_encs`).
-/
import GoEthereum.Rlp.Interface
import GoEthereum.Rlp.Stream

namespace GoEthereum.Rlp

open BigEndian GoEthereum.Rlp.Stream

/-! ## Slices -/

/-- `b[i:j]` -/
def slice (b : Bytes) (i j : ℕ) : Option Bytes :=
  if i ≤ j ∧ j ≤ b.length then some ((b.take j).drop i) else none

theorem slice_eq {b : Bytes} {i j : ℕ} (hij : i ≤ j) (hj : j ≤ b.length) :
    slice b i j = some ((b.take j).drop i) := if_pos ⟨hij, hj⟩

theorem slice_to_end {b : Bytes} {i : ℕ} (hi : i ≤ b.length) :
    slice b i b.length = some (b.drop i) := by
  rw [slice_eq hi (le_refl _), List.take_length]

/-! ## Values -/

def readSize (b : Bytes) (slen : ℕ) : Except Err ℕ :=
  if slen > b.length then .error .unexpectedEOF
  else
    let s := ofBE (b.take slen)
    if s < 56 ∨ b.head? = some 0 then .error .canonSize else .ok s

/-- The bound on the content at the end of `readKind`. -/
def checkContent (buf : Bytes) (k : Kind) (tagsize contentsize : ℕ) :
    Except Err (Kind × ℕ × ℕ) :=
  if contentsize > buf.length - tagsize then .error .valueTooLarge
  else .ok (k, tagsize, contentsize)

/-- `readKind` of `raw.go`: the kind, the size of the tag and the size of the
    content. -/
def readKind (buf : Bytes) : Except Err (Kind × ℕ × ℕ) :=
  match buf with
  | [] => .error .unexpectedEOF
  | b :: bs =>
    if b.toNat < 0x80 then checkContent buf .byte 0 1
    else if b.toNat < 0xB8 then
      let contentsize := b.toNat - 0x80
      if contentsize = 1 ∧ (bs.head?.any (· < 128)) = true then .error .canonSize
      else checkContent buf .string 1 contentsize
    else if b.toNat < 0xC0 then
      match readSize bs (b.toNat - 0xB7) with
      | .error e => .error e
      | .ok size => checkContent buf .string (b.toNat - 0xB7 + 1) size
    else if b.toNat < 0xF8 then checkContent buf .list 1 (b.toNat - 0xC0)
    else
      match readSize bs (b.toNat - 0xF7) with
      | .error e => .error e
      | .ok size => checkContent buf .list (b.toNat - 0xF7 + 1) size

/-- `Split`: the kind, the content and the rest; `none` is a slice out of range. -/
def split (b : Bytes) : Option (Except Err (Kind × Bytes × Bytes)) :=
  match readKind b with
  | .error e => some (.error e)
  | .ok (k, ts, cs) => do
    let content ← slice b ts (ts + cs)
    let rest ← slice b (ts + cs) b.length
    some (.ok (k, content, rest))

def splitString (b : Bytes) : Option (Except Err (Bytes × Bytes)) :=
  (split b).map fun r =>
    match r with
    | .error e => .error e
    | .ok (k, content, rest) => if k = .list then .error .expectedString else .ok (content, rest)

def splitList (b : Bytes) : Option (Except Err (Bytes × Bytes)) :=
  (split b).map fun r =>
    match r with
    | .error e => .error e
    | .ok (k, content, rest) => if k ≠ .list then .error .expectedList else .ok (content, rest)

/-- The loop of `CountValues`, which ends after at most as many rounds as there are
    bytes; `none` is a slice out of range. -/
def countValuesLoop : ℕ → ℕ → Bytes → Option (Except Err ℕ)
  | _, i, [] => some (.ok i)
  | 0, i, _ => some (.ok i)
  | n + 1, i, b =>
    match readKind b with
    | .error e => some (.error e)
    | .ok (_, ts, cs) => (slice b (ts + cs) b.length).bind (countValuesLoop n (i + 1))

def countValues (b : Bytes) : Option (Except Err ℕ) := countValuesLoop b.length 0 b

/-! ## The slices are in range -/

theorem checkContent_bounds {buf : Bytes} {k k' : Kind} {ts cs ts' cs' : ℕ}
    (h : checkContent buf k ts cs = .ok (k', ts', cs')) (hts : ts ≤ buf.length) :
    ts' + cs' ≤ buf.length ∧ k' = k ∧ ts' = ts := by
  unfold checkContent at h
  split_ifs at h
  cases h
  exact ⟨by omega, rfl, rfl⟩

theorem readSize_bounds {b : Bytes} {slen size : ℕ} (h : readSize b slen = .ok size) :
    slen ≤ b.length := by
  unfold readSize at h
  split_ifs at h
  omega

/-- The value is within the bytes, and a list has a tag. -/
theorem readKind_bounds {b : Bytes} {k : Kind} {ts cs : ℕ} (h : readKind b = .ok (k, ts, cs)) :
    ts + cs ≤ b.length ∧ (k = .list → 0 < ts) := by
  unfold readKind at h
  split at h
  · cases h
  · next x xs =>
    dsimp only at h
    split_ifs at h
    · obtain ⟨hle, rfl, -⟩ := checkContent_bounds h (Nat.zero_le _)
      exact ⟨hle, nofun⟩
    · obtain ⟨hle, rfl, -⟩ := checkContent_bounds h (by simp)
      exact ⟨hle, nofun⟩
    · split at h
      · cases h
      · next hsize =>
        obtain ⟨hle, rfl, -⟩ := checkContent_bounds h (by simpa using readSize_bounds hsize)
        exact ⟨hle, nofun⟩
    · obtain ⟨hle, -, rfl⟩ := checkContent_bounds h (by simp)
      exact ⟨hle, fun _ => Nat.one_pos⟩
    · split at h
      · cases h
      · next hsize =>
        obtain ⟨hle, -, rfl⟩ := checkContent_bounds h (by simpa using readSize_bounds hsize)
        exact ⟨hle, fun _ => Nat.succ_pos _⟩

theorem split_eq (b : Bytes) : split b =
    some ((readKind b).map fun (k, ts, cs) => (k, (b.drop ts).take cs, b.drop (ts + cs))) := by
  rw [split]
  rcases h : readKind b with e | ⟨k, ts, cs⟩
  · rfl
  · have hle := (readKind_bounds h).1
    simp only [slice_eq (Nat.le_add_right ts cs) hle, slice_to_end hle, Option.bind_eq_bind,
      Option.bind_some, Except.map, List.drop_take, Nat.add_sub_cancel_left]

theorem split_ne_none (b : Bytes) : split b ≠ none := by simp [split_eq]

theorem splitString_ne_none (b : Bytes) : splitString b ≠ none := by simp [splitString, split_eq]

theorem splitList_ne_none (b : Bytes) : splitList b ≠ none := by simp [splitList, split_eq]

theorem countValuesLoop_ne_none : ∀ (n i : ℕ) (b : Bytes), countValuesLoop n i b ≠ none
  | n, i, [] => by simp [countValuesLoop]
  | 0, i, x :: xs => by simp [countValuesLoop]
  | n + 1, i, x :: xs => by
    rw [countValuesLoop]
    · rcases h : readKind (x :: xs) with e | ⟨k, ts, cs⟩
      · simp
      · simp only [slice_to_end (readKind_bounds h).1, Option.bind_some]
        exact countValuesLoop_ne_none n (i + 1) _
    · simp

theorem countValues_ne_none (b : Bytes) : countValues b ≠ none := countValuesLoop_ne_none _ _ b

/-! ## Encodings -/

theorem checkContent_ok {buf : Bytes} {k : Kind} {ts cs : ℕ} (h : ts + cs ≤ buf.length) :
    checkContent buf k ts cs = .ok (k, ts, cs) := by
  rw [checkContent, if_neg (by omega)]

theorem readSize_toBE {size : ℕ} {rest : Bytes} (h : 56 ≤ size) :
    readSize (toBE (byteLen size) size ++ rest) (byteLen size) = .ok size := by
  obtain ⟨x, xs, hx, hx0, -⟩ := toBE_byteLen_head (n := size) (by omega)
  have htake : (toBE (byteLen size) size ++ rest).take (byteLen size) = toBE (byteLen size) size := by
    rw [List.take_append_of_le_length (by simp), List.take_of_length_le (by simp)]
  rw [readSize, if_neg (by simp), htake, ofBE_toBE_byteLen]
  dsimp only
  rw [if_neg]
  rintro (hlt | hhead)
  · omega
  · rw [hx] at hhead
    exact hx0 (by simpa using hhead)

theorem readKind_byte {x : UInt8} (h : x.toNat < 0x80) (rest : Bytes) :
    readKind (x :: rest) = .ok (.byte, 0, 1) := by
  rw [readKind, if_pos h, checkContent_ok (by simp)]

theorem toNat_tag {t : UInt8} {n : ℕ} (h : t.toNat + n < 256) :
    (t + .ofNat n).toNat = t.toNat + n := by
  rw [UInt8.toNat_add, UInt8.toNat_ofNat']
  omega

theorem le_7F {x : UInt8} : x ≤ 0x7F ↔ x.toNat < 0x80 := by
  rw [UInt8.le_iff_toNat_le]
  exact Nat.lt_succ_iff.symm

theorem readKind_string {b rest : Bytes} (hb : ∀ x, b = [x] → ¬ x ≤ 0x7F)
    (hlt : b.length < 2 ^ 64) :
    readKind (puthead 0x80 0xB7 b.length ++ b ++ rest)
      = .ok (.string, (puthead 0x80 0xB7 b.length).length, b.length) := by
  by_cases h56 : b.length < 56
  · have ht : ((0x80 : UInt8) + .ofNat b.length).toNat = 0x80 + b.length :=
      toNat_tag (by simp; omega)
    rw [puthead_small h56]
    simp (disch := omega) only [List.cons_append, readKind, ht, if_pos, if_neg,
      Nat.add_sub_cancel_left, List.length_singleton]
    rw [if_neg, checkContent_ok (by simp; omega)]
    rintro ⟨h1, hany⟩
    obtain ⟨x, rfl⟩ := List.length_eq_one_iff.1 h1
    have hx : x < 128 := by simpa using hany
    exact hb x rfl (le_7F.2 hx)
  · have h56' : 56 ≤ b.length := by omega
    obtain ⟨hb₁, hb₂⟩ := byteLen_bounds hlt
    have ht : ((0xB7 : UInt8) + .ofNat (byteLen b.length)).toNat = 0xB7 + byteLen b.length :=
      toNat_tag (by simp; omega)
    rw [puthead_large h56' hlt]
    simp (disch := omega) only [List.cons_append, List.append_assoc, readKind, ht, if_pos, if_neg,
      Nat.add_sub_cancel_left, readSize_toBE h56', List.length_cons, length_toBE]
    rw [checkContent_ok (by simp; omega)]

theorem readKind_list {b rest : Bytes} (hlt : b.length < 2 ^ 64) :
    readKind (puthead 0xC0 0xF7 b.length ++ b ++ rest)
      = .ok (.list, (puthead 0xC0 0xF7 b.length).length, b.length) := by
  by_cases h56 : b.length < 56
  · have ht : ((0xC0 : UInt8) + .ofNat b.length).toNat = 0xC0 + b.length :=
      toNat_tag (by simp; omega)
    rw [puthead_small h56]
    simp (disch := omega) only [List.cons_append, readKind, ht, if_pos, if_neg,
      Nat.add_sub_cancel_left, List.length_singleton]
    rw [checkContent_ok (by simp; omega)]
  · have h56' : 56 ≤ b.length := by omega
    obtain ⟨hb₁, hb₂⟩ := byteLen_bounds hlt
    have ht : ((0xF7 : UInt8) + .ofNat (byteLen b.length)).toNat = 0xF7 + byteLen b.length :=
      toNat_tag (by simp; omega)
    rw [puthead_large h56' hlt]
    simp (disch := omega) only [List.cons_append, List.append_assoc, readKind, ht, if_neg,
      Nat.add_sub_cancel_left, readSize_toBE h56', List.length_cons, length_toBE]
    rw [checkContent_ok (by simp; omega)]

/-- The kind `Split` finds: a byte below `0x80` is its own encoding. -/
def Item.kind : Item → Kind
  | .str [x] => if x ≤ 0x7F then .byte else .string
  | .str _ => .string
  | .list _ => .list

/-- The content `Split` finds. -/
def Item.content : Item → Bytes
  | .str b => b
  | .list xs => encs xs

theorem readKind_enc {x : Item} (rest : Bytes) (hlt : (enc x).length < 2 ^ 64) :
    ∃ ts cs, readKind (enc x ++ rest) = .ok (x.kind, ts, cs) ∧ ts + cs = (enc x).length ∧
      (enc x).drop ts = x.content := by
  cases x with
  | str b =>
    rw [enc] at hlt ⊢
    by_cases hx : ∃ x, b = [x] ∧ x ≤ 0x7F
    · obtain ⟨x, rfl, hle⟩ := hx
      have henc : encString [x] = [x] := by simp [encString, hle]
      rw [henc]
      exact ⟨0, 1, by simp [readKind_byte (le_7F.1 hle), Item.kind, hle], rfl, rfl⟩
    · have hx' : ∀ x, b = [x] → ¬ x ≤ 0x7F := fun x h₁ h₂ => hx ⟨x, h₁, h₂⟩
      have hk : (Item.str b).kind = .string := by
        unfold Item.kind
        split
        · next x h => rw [if_neg (hx' x (Item.str.inj h))]
        · rfl
        · next h => cases h
      rw [encString_of_head hx'] at hlt ⊢
      have hb : b.length < 2 ^ 64 := by rw [List.length_append] at hlt; omega
      exact ⟨_, _, by rw [readKind_string hx' hb, hk], by simp, by simp [Item.content]⟩
  | list xs =>
    rw [enc, encList] at hlt ⊢
    have hb : (encs xs).length < 2 ^ 64 := by rw [List.length_append] at hlt; omega
    exact ⟨_, _, readKind_list hb, by simp, by simp [Item.content]⟩

theorem split_enc (x : Item) (rest : Bytes) (hlt : (enc x).length < 2 ^ 64) :
    split (enc x ++ rest) = some (.ok (x.kind, x.content, rest)) := by
  obtain ⟨ts, cs, hrk, hsum, hdrop⟩ := readKind_enc rest hlt
  simp only [split_eq, hrk, Except.map, Option.some.injEq, Except.ok.injEq, Prod.mk.injEq, true_and]
  refine ⟨?_, ?_⟩
  · have hlen := congrArg List.length hdrop
    rw [List.length_drop] at hlen
    rw [List.drop_append_of_le_length (by omega), hdrop, List.take_append_of_le_length (by omega),
      List.take_of_length_le (by omega)]
  · rw [hsum, List.drop_left]

theorem splitString_encString {b rest : Bytes} (hlt : (encString b).length < 2 ^ 64) :
    splitString (encString b ++ rest) = some (.ok (b, rest)) := by
  have h := split_enc (.str b) rest (by rwa [enc])
  rw [enc] at h
  have hk : (Item.str b).kind ≠ .list := by
    unfold Item.kind
    split
    · split_ifs <;> simp
    · simp
    · next h => cases h
  simp only [splitString, h, Option.map_some, hk, if_false, Item.content]

theorem splitString_encString_nil {b : Bytes} (hlt : (encString b).length < 2 ^ 64) :
    splitString (encString b) = some (.ok (b, [])) := by
  simpa using @splitString_encString b [] hlt

theorem splitList_encList {xs : List Item} {rest : Bytes}
    (hlt : (encList (encs xs)).length < 2 ^ 64) :
    splitList (encList (encs xs) ++ rest) = some (.ok (encs xs, rest)) := by
  have h := split_enc (.list xs) rest (by rwa [enc])
  rw [enc] at h
  simp only [splitList, h, Option.map_some, Item.kind, ne_eq, not_true_eq_false, if_false,
    Item.content]

theorem countValuesLoop_encs : ∀ (xs : List Item) {n i : ℕ}, (encs xs).length ≤ n →
    (encs xs).length < 2 ^ 64 → countValuesLoop n i (encs xs) = some (.ok (i + xs.length))
  | [], n, i, _, _ => by rw [encs, countValuesLoop, List.length_nil, Nat.add_zero]
  | x :: xs, n, i, hn, hlt => by
    have hpos := List.length_pos_of_ne_nil (enc_ne_nil x)
    rw [encs, List.length_append] at hn hlt
    rw [encs]
    obtain ⟨n, rfl⟩ : ∃ m, n = m + 1 := ⟨n - 1, by omega⟩
    obtain ⟨ts, cs, hrk, hsum, -⟩ := readKind_enc (x := x) (encs xs) (by omega)
    obtain ⟨y, ys, hy⟩ : ∃ y ys, enc x ++ encs xs = y :: ys :=
      List.exists_cons_of_length_pos (by rw [List.length_append]; omega)
    rw [hy] at hrk ⊢
    rw [countValuesLoop]
    · simp only [hrk, slice_to_end (readKind_bounds hrk).1, Option.bind_some]
      rw [← hy, hsum, List.drop_left, countValuesLoop_encs xs (by omega) (by omega),
        List.length_cons]
      congr 2
      omega
    · simp

theorem countValues_encs {xs : List Item} (hlt : (encs xs).length < 2 ^ 64) :
    countValues (encs xs) = some (.ok xs.length) := by
  rw [countValues, countValuesLoop_encs xs (le_refl _) hlt, Nat.zero_add]

/-! ## Unique reading -/

theorem Item.kind_str_ne (b : Bytes) (xs : List Item) : (Item.str b).kind ≠ (Item.list xs).kind := by
  unfold Item.kind
  split
  · split_ifs <;> nofun
  · nofun
  · next h => cases h

mutual

theorem enc_append_inj : ∀ (x y : Item) {r r' : Bytes}, (enc x).length < 2 ^ 64 →
    (enc y).length < 2 ^ 64 → enc x ++ r = enc y ++ r' → x = y ∧ r = r'
  | x, y, r, r', hx, hy, h => by
    have hsplit := split_enc x r hx
    rw [h, split_enc y r' hy] at hsplit
    simp only [Option.some.injEq, Except.ok.injEq, Prod.mk.injEq] at hsplit
    obtain ⟨hkind, hcontent, hrest⟩ := hsplit
    refine ⟨?_, hrest.symm⟩
    match x, y with
    | .str b, .str b' => exact congrArg Item.str hcontent.symm
    | .str b, .list ys => exact absurd hkind.symm (Item.kind_str_ne b ys)
    | .list xs, .str b => exact absurd hkind (Item.kind_str_ne b xs)
    | .list xs, .list ys =>
      rw [enc] at hx
      exact congrArg Item.list (encs_inj xs ys ((length_lt_encList _).trans hx) hcontent.symm)

theorem encs_inj : ∀ xs ys : List Item, (encs xs).length < 2 ^ 64 → encs xs = encs ys → xs = ys
  | [], [], _, _ => rfl
  | [], y :: ys, _, h => by
    rw [encs, encs] at h
    exact absurd (List.append_eq_nil_iff.1 h.symm).1 (enc_ne_nil y)
  | x :: xs, [], _, h => by
    rw [encs, encs] at h
    exact absurd (List.append_eq_nil_iff.1 h).1 (enc_ne_nil x)
  | x :: xs, y :: ys, hlt, h => by
    have hlt' := h ▸ hlt
    rw [encs, List.length_append] at hlt hlt'
    rw [encs, encs] at h
    obtain ⟨rfl, hrest⟩ := enc_append_inj x y (by omega) (by omega) h
    rw [encs_inj xs ys (by omega) hrest]

end

/-- **Encodings are read in one way**: of values that are byte strings and lists, whatever follows
    them, the bytes are equal exactly if the values are and the same bytes follow. -/
theorem encodeToBytes_unique {x y : Item} {b b' : Bytes} (hx : encodeToBytes x = some b)
    (hy : encodeToBytes y = some b') (r r' : Bytes) : b ++ r = b' ++ r' ↔ x = y ∧ r = r' := by
  have henc : ∀ {x b}, encodeToBytes x = some b → b = enc x ∧ (enc x).length < 2 ^ 64 := by
    intro x b hx
    by_cases hsize : (writeInterface x {}).size ≤ maxInt
    · obtain ⟨heq, hle⟩ := encodeToBytes_eq hsize
      rw [heq] at hx
      rw [maxInt] at hle
      exact ⟨(Option.some.inj hx).symm, by omega⟩
    · rw [encodeToBytes, if_neg hsize] at hx
      cases hx
  obtain ⟨rfl, hlt⟩ := henc hx
  obtain ⟨rfl, hlt'⟩ := henc hy
  refine ⟨enc_append_inj x y hlt hlt', ?_⟩
  rintro ⟨rfl, rfl⟩
  rfl

/-- The encoding of a list of two strings does not begin with that of the first one. -/
theorem encodeToBytes_unique_list : ∃ b b', encodeToBytes (.list [.str [1], .str [2, 3]]) = some b ∧
    encodeToBytes (.str [1]) = some b' ∧ ∀ r r', b ++ r ≠ b' ++ r' := by
  refine ⟨_, _, rfl, rfl, fun r r' h => ?_⟩
  have hlist := (encodeToBytes_unique (x := .list [.str [1], .str [2, 3]]) (y := .str [1]) rfl rfl
    r r').1 h
  cases hlist.1

end GoEthereum.Rlp
