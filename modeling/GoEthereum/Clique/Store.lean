/-
  Snapshots on disk: what `store` writes, `load` reads again (`unmarshal_marshal`).

  A snapshot is written as a document of encoding/json, in which addresses and hashes are hex
  texts (common/types.go, common/hexutil); numbers and the structure of the document are up to
  the library.
-/
import GoEthereum.Clique.Snapshot

namespace GoEthereum.Clique

open GoEthereum.Core GoEthereum.Rlp

/-! ## Texts -/

/-- A digit of `hex.Encode`. -/
def hexDigit (n : ℕ) : UInt8 := .ofNat (if n < 10 then 48 + n else 87 + n)

/-- `MarshalText` of `hexutil.Bytes` -/
def marshalText (bs : Bytes) : Bytes :=
  48 :: 120 :: bs.flatMap fun b => [hexDigit (b.toNat / 16), hexDigit (b.toNat % 16)]

def decodeNibble (b : UInt8) : Option ℕ :=
  if 48 ≤ b ∧ b ≤ 57 then some (b.toNat - 48)
  else if 65 ≤ b ∧ b ≤ 70 then some (b.toNat - 55)
  else if 97 ≤ b ∧ b ≤ 102 then some (b.toNat - 87)
  else none

/-- `hex.Decode` -/
def decodeHex : Bytes → Option Bytes
  | [] => some []
  | [_] => none
  | x :: y :: rest => do
    let high ← decodeNibble x
    let low ← decodeNibble y
    return .ofNat (16 * high + low) :: (← decodeHex rest)

/-- `checkText`, which wants `0x` in front. -/
def checkText : Bytes → Option Bytes
  | [] => some []
  | x :: y :: input =>
    if x = 48 ∧ (y = 120 ∨ y = 88) then
      if input.length % 2 ≠ 0 then none else some input
    else none
  | _ => none

def unmarshalFixedText (size : ℕ) (input : Bytes) : Option Bytes := do
  let raw ← checkText input
  if raw.length / 2 ≠ size then none else decodeHex raw

theorem decodeNibble_hexDigit {n : ℕ} (hn : n < 16) : decodeNibble (hexDigit n) = some n := by
  interval_cases n <;> rfl

theorem length_hex (bs : Bytes) :
    (bs.flatMap fun b => [hexDigit (b.toNat / 16), hexDigit (b.toNat % 16)]).length =
      2 * bs.length := by
  induction bs with
  | nil => rfl
  | cons b bs ih =>
    rw [List.flatMap_cons, List.length_append, ih, List.length_cons]
    simp
    omega

theorem decodeHex_hex (bs : Bytes) :
    decodeHex (bs.flatMap fun b => [hexDigit (b.toNat / 16), hexDigit (b.toNat % 16)]) =
      some bs := by
  induction bs with
  | nil => rfl
  | cons b bs ih =>
    have hb := b.toNat_lt
    rw [List.flatMap_cons, List.cons_append, List.cons_append, List.nil_append, decodeHex,
      decodeNibble_hexDigit (by omega), decodeNibble_hexDigit (by omega), ih]
    change some (UInt8.ofNat (16 * (b.toNat / 16) + b.toNat % 16) :: bs) = _
    rw [Nat.div_add_mod, UInt8.ofNat_toNat]

theorem unmarshalFixedText_marshalText (bs : Bytes) :
    unmarshalFixedText bs.length (marshalText bs) = some bs := by
  have hlen := length_hex bs
  have hcheck : checkText (marshalText bs) =
      some (bs.flatMap fun b => [hexDigit (b.toNat / 16), hexDigit (b.toNat % 16)]) := by
    rw [marshalText, checkText, if_pos (by decide), if_neg (by rw [hlen]; omega)]
  rw [unmarshalFixedText, hcheck, Option.bind_eq_bind, Option.bind_some, if_neg, decodeHex_hex]
  rw [hlen]
  omega

/-- The text of an address or a hash of `k` bytes. -/
def textOf (k : ℕ) (x : BitVec (8 * k)) : Bytes := marshalText (BigEndian.toBE k x.toNat)

/-- The address or the hash of a text. -/
def ofText (k : ℕ) (text : Bytes) : Option (BitVec (8 * k)) :=
  (unmarshalFixedText k text).map fun bs => .ofNat _ (BigEndian.ofBE bs)

theorem ofText_textOf {k : ℕ} (x : BitVec (8 * k)) : ofText k (textOf k x) = some x := by
  have h := unmarshalFixedText_marshalText (BigEndian.toBE k x.toNat)
  rw [BigEndian.length_toBE] at h
  have hlt : x.toNat < 256 ^ k := by
    have := x.isLt
    rwa [pow_mul] at this
  rw [ofText, textOf, h, Option.map_some, BigEndian.ofBE_toBE_of_lt hlt, BitVec.ofNat_toNat,
    BitVec.setWidth_eq]

/-! ## Documents -/

/-- The fields of a snapshot, with addresses in `A` and hashes in `H`; a map is the list of its
    entries. -/
structure Document (A H : Type) where
  number : ℕ
  hash : H
  signers : List A
  recents : List (ℕ × A)
  votes : List (A × ℕ × A × Bool)
  tally : List (A × Tally)

namespace Document

variable {A B H K : Type}

def map (f : A → B) (g : H → K) (d : Document A H) : Document B K where
  number := d.number
  hash := g d.hash
  signers := d.signers.map f
  recents := d.recents.map fun e => (e.1, f e.2)
  votes := d.votes.map fun v => (f v.1, v.2.1, f v.2.2.1, v.2.2.2)
  tally := d.tally.map fun e => (f e.1, e.2)

/-- The document, if all addresses and hashes can be read. -/
def traverse (f : A → Option B) (g : H → Option K) (d : Document A H) :
    Option (Document B K) := do
  return {
    number := d.number
    hash := ← g d.hash
    signers := ← d.signers.mapM f
    recents := ← d.recents.mapM fun e => return (e.1, ← f e.2)
    votes := ← d.votes.mapM fun v => return (← f v.1, v.2.1, ← f v.2.2.1, v.2.2.2)
    tally := ← d.tally.mapM fun e => return (← f e.1, e.2) }

theorem mapM_map {α β : Type} {f : α → β} {g : β → Option α} (h : ∀ a, g (f a) = some a)
    (l : List α) : (l.map f).mapM g = some l := by
  induction l with
  | nil => rfl
  | cons a l ih =>
    rw [List.map_cons, List.mapM_cons, h, ih]
    rfl

theorem traverse_map {f : A → B} {f' : B → Option A} {g : H → K} {g' : K → Option H}
    (hf : ∀ a, f' (f a) = some a) (hg : ∀ h, g' (g h) = some h) (d : Document A H) :
    (d.map f g).traverse f' g' = some d := by
  rw [traverse, map]
  dsimp only
  rw [hg, mapM_map hf, mapM_map fun e => by rw [hf]; rfl, mapM_map fun v => by rw [hf, hf]; rfl,
    mapM_map fun e => by rw [hf]; rfl]
  rfl

end Document

namespace Snapshot

/-- The fields of a snapshot. -/
def fields (s : Snapshot) : Document Address Word where
  number := s.number
  hash := s.hash
  signers := s.sortedSigners
  recents := s.recents.toList
  votes := s.votes.map fun v => (v.signer, v.block, v.address, v.authorize)
  tally := s.tally.toList

/-- The snapshot with these fields. -/
def ofFields (d : Document Address Word) : Snapshot where
  number := d.number
  hash := d.hash
  signers := d.signers.toFinset
  recents := .ofList d.recents
  votes := d.votes.map fun v => ⟨v.1, v.2.1, v.2.2.1, v.2.2.2⟩
  tally := .ofList d.tally

/-- `json.Marshal`, as a document. -/
def marshal (s : Snapshot) : Document Bytes Bytes := s.fields.map (textOf 20) (textOf 32)

/-- `json.Unmarshal`, of a document. -/
def unmarshal (d : Document Bytes Bytes) : Option Snapshot :=
  (d.traverse (ofText 20) (ofText 32)).map ofFields

theorem ofFields_fields (s : Snapshot) : ofFields s.fields = s := by
  rw [ofFields, fields]
  dsimp only
  rw [AssocMap.ofList_toList, AssocMap.ofList_toList, sortedSigners, Finset.sort_toFinset,
    List.map_map]
  have hid (votes : List Vote) : votes.map ((fun v => (⟨v.1, v.2.1, v.2.2.1, v.2.2.2⟩ : Vote)) ∘
      fun v => (v.signer, v.block, v.address, v.authorize)) = votes := List.map_id votes
  rw [hid]

theorem unmarshal_marshal (s : Snapshot) : unmarshal s.marshal = some s := by
  rw [unmarshal, marshal, Document.traverse_map ofText_textOf ofText_textOf, Option.map_some,
    ofFields_fields]

end Snapshot

end GoEthereum.Clique
