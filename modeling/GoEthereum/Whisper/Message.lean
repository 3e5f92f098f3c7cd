/-
  Framing of messages (whisper/whisperv6/message.go).

  A message is a byte of flags, the size of the payload (its width is in the flags), the payload,
  the padding, and a signature if the flags say so.  `ValidateAndParse` compares the size of the
  payload with the end of the message, but does not count the size field: a size that ends behind
  the end is a slice out of range, which is a panic (`parses_iff_fits`).
-/
import GoEthereum.Lib.Outcome
import Mathlib.Tactic

namespace GoEthereum.Whisper

/-! ## Model -/

/-- What goes wrong. -/
inductive Fault where
  | slice
  | index
  | random
  /-- `"failed to generate random padding of size "` -/
  | padding (size : ℕ)
  | sign

def signatureFlag : UInt8 := 4

def sizeMask : UInt8 := 3

def signatureLength : ℕ := 65

def padSizeLimit : ℕ := 256

def flagsLength : ℕ := 1

/-- Hashes and signatures.  A signature has `signatureLength` bytes, and a key is recovered from
    it. -/
structure Crypto (Key Pub : Type) where
  keccak256 : List UInt8 → List UInt8
  sign : List UInt8 → Key → Option (List UInt8)
  sigToPub : List UInt8 → List UInt8 → Option Pub
  sign_length : ∀ h k s, sign h k = some s → s.length = signatureLength
  sign_recovers : ∀ h k s, sign h k = some s → (sigToPub h s).isSome

/-- A slice of bytes: those up to its length, and those behind it up to its capacity. -/
structure Slice where
  data : List UInt8
  spare : List UInt8

/-- `raw[lo:hi]` -/
def Slice.slice (raw : Slice) (lo hi : ℕ) : Except Fault (List UInt8) :=
  if lo ≤ hi ∧ hi ≤ (raw.data ++ raw.spare).length then
    .ok (((raw.data ++ raw.spare).take hi).drop lo)
  else .error .slice

def isMessageSigned (flags : UInt8) : Bool := flags &&& signatureFlag != 0

section Received

variable {Key Pub : Type}

structure ReceivedMessage (Pub : Type) where
  raw : Slice
  payload : List UInt8
  padding : List UInt8
  signature : List UInt8
  src : Option Pub

/-- `ReceivedMessage{Raw: raw}` -/
def ReceivedMessage.fresh (raw : Slice) : ReceivedMessage Pub := ⟨raw, [], [], [], none⟩

/-- `bytesToUintLittleEndian`, with the place value `mul`. -/
def bytesToUintLittleEndian (mul : UInt64) : List UInt8 → UInt64
  | [] => 0
  | b :: bs => b.toUInt64 * mul + bytesToUintLittleEndian (mul * 256) bs

/-- `ValidateAndParse` from the size field on; `stop` is `end`. -/
def ReceivedMessage.parse (msg : ReceivedMessage Pub) (flags : UInt8) (stop : ℕ) :
    Except Fault (Bool × ReceivedMessage Pub) :=
  let sizeOfPayloadSizeField := (flags &&& sizeMask).toNat
  if sizeOfPayloadSizeField ≠ 0 then do
    let field ← msg.raw.slice 1 (1 + sizeOfPayloadSizeField)
    let payloadSize := (bytesToUintLittleEndian 1 field).toNat
    if payloadSize + 1 > stop then .ok (false, msg)
    else
      let beg := 1 + sizeOfPayloadSizeField
      let payload ← msg.raw.slice beg (beg + payloadSize)
      let padding ← msg.raw.slice (beg + payloadSize) stop
      .ok (true, { msg with payload := payload, padding := padding })
  else do
    let padding ← msg.raw.slice 1 stop
    .ok (true, { msg with padding := padding })

/-- `SigToPubKey`, of a message that is signed. -/
def ReceivedMessage.sigToPubKey (C : Crypto Key Pub) (msg : ReceivedMessage Pub) : Option Pub :=
  C.sigToPub (C.keccak256 (msg.raw.data.take (msg.raw.data.length - signatureLength)))
    msg.signature

def ReceivedMessage.validateAndParse (C : Crypto Key Pub) (msg : ReceivedMessage Pub) :
    Except Fault (Bool × ReceivedMessage Pub) :=
  match msg.raw.data with
  | [] => .ok (false, msg)
  | flags :: _ =>
    if isMessageSigned flags then
      let stop := msg.raw.data.length - signatureLength
      if stop ≤ 1 then .ok (false, msg)
      else do
        let signature ← msg.raw.slice stop (stop + signatureLength)
        let msg := { msg with signature := signature }
        let msg := { msg with src := msg.sigToPubKey C }
        if msg.src.isNone then .ok (false, msg) else msg.parse flags stop
    else msg.parse flags msg.raw.data.length

end Received

section Sent

variable {Key Pub : Type}

/-- `MessageParams`: what the bytes of a message depend on. -/
structure MessageParams (Key : Type) where
  src : Option Key
  payload : List UInt8
  padding : List UInt8

/-- `getSizeOfPayloadSizeField`, of a payload with `n` bytes. -/
def getSizeOfPayloadSizeField (n : ℕ) : ℕ :=
  if n < 256 then 1 else getSizeOfPayloadSizeField (n / 256) + 1

def putUint32 (n : ℕ) : List UInt8 :=
  let v := n % 2 ^ 32
  [.ofNat v, .ofNat (v / 2 ^ 8), .ofNat (v / 2 ^ 16), .ofNat (v / 2 ^ 24)]

/-- `addPayloadSizeField`, on the flags: the new flags and the field. -/
def addPayloadSizeField (flags : UInt8) (payload : List UInt8) : Except Fault (List UInt8) :=
  let fieldSize := getSizeOfPayloadSizeField payload.length
  let field := putUint32 payload.length
  if fieldSize ≤ field.length then .ok ((flags ||| .ofNat fieldSize) :: field.take fieldSize)
  else .error .slice

def containsOnlyZeros (data : List UInt8) : Bool := data.all (· == 0)

def validateDataIntegrity (k : List UInt8) (expectedSize : ℕ) : Bool :=
  if k.length ≠ expectedSize then false
  else if expectedSize > 3 ∧ containsOnlyZeros k then false
  else true

/-- The bytes that `appendPadding` appends; `read` is `crand.Read` into that many bytes. -/
def makePadding (read : ℕ → Option (List UInt8)) (params : MessageParams Key) :
    Except Fault (List UInt8) :=
  if params.padding.length ≠ 0 then .ok params.padding
  else
    let rawSize := flagsLength + getSizeOfPayloadSizeField params.payload.length +
      params.payload.length + if params.src.isSome then signatureLength else 0
    let odd := rawSize % padSizeLimit
    let paddingSize := padSizeLimit - odd
    match read paddingSize with
    | none => .error .random
    | some pad => if validateDataIntegrity pad paddingSize then .ok pad
      else .error (.padding paddingSize)

def newSentMessage (read : ℕ → Option (List UInt8)) (params : MessageParams Key) :
    Except Fault (List UInt8) := do
  let raw ← addPayloadSizeField 0 params.payload
  let pad ← makePadding read params
  .ok (raw ++ params.payload ++ pad)

def sign (C : Crypto Key Pub) (raw : List UInt8) (key : Key) : Except Fault (List UInt8) :=
  match raw with
  | [] => .error .index
  | flags :: rest =>
    if isMessageSigned flags then .ok raw
    else
      let raw := (flags ||| signatureFlag) :: rest
      match C.sign (C.keccak256 raw) key with
      | none => .error .sign
      | some signature => .ok (raw ++ signature)

/-- `sign`, of a message that has a sender. -/
def signBy (C : Crypto Key Pub) (raw : List UInt8) : Option Key → Except Fault (List UInt8)
  | none => .ok raw
  | some key => sign C raw key

end Sent

/-! ## Parsing -/

section Parsing

variable {Key Pub : Type}

/-- The message is its flags, its size field, its payload, its padding and its signature, and
    nothing else. -/
def ReceivedMessage.Splits (msg : ReceivedMessage Pub) : Prop :=
  ∃ flags field,
    msg.raw.data = flags :: (field ++ msg.payload ++ msg.padding ++ msg.signature) ∧
    field.length = (flags &&& sizeMask).toNat ∧
    msg.payload.length = (bytesToUintLittleEndian 1 field).toNat ∧
    msg.signature.length = if isMessageSigned flags then signatureLength else 0

/-- `ValidateAndParse` does not panic, and a message that is valid is split. -/
def Slice.Parses (C : Crypto Key Pub) (raw : Slice) : Prop :=
  ∃ valid msg, (ReceivedMessage.fresh raw).validateAndParse C = .ok (valid, msg) ∧
    (valid = true → msg.raw = raw ∧ msg.Splits)

/-- There is no size field; or it can be read, and its payload is refused by its size alone, or ends
    with the message. -/
def Slice.SizeFits (raw : Slice) (flags : UInt8) (stop : ℕ) : Prop :=
  (flags &&& sizeMask).toNat = 0 ∨
    ∃ field, raw.slice 1 (1 + (flags &&& sizeMask).toNat) = .ok field ∧
      (stop < (bytesToUintLittleEndian 1 field).toNat + 1 ∨
        1 + (flags &&& sizeMask).toNat + (bytesToUintLittleEndian 1 field).toNat ≤ stop)

/-- Where the signature begins. -/
def Slice.stop (raw : Slice) (flags : UInt8) : ℕ :=
  if isMessageSigned flags then raw.data.length - signatureLength else raw.data.length

/-- The size fits, if the signature is there and a key is recovered from it. -/
def Slice.Fits (C : Crypto Key Pub) (raw : Slice) : Prop :=
  ∀ flags ∈ raw.data.head?,
    (isMessageSigned flags = true → 1 < raw.stop flags ∧
      (C.sigToPub (C.keccak256 (raw.data.take (raw.stop flags)))
        (raw.data.drop (raw.stop flags))).isSome) →
    raw.SizeFits flags (raw.stop flags)

theorem Slice.slice_data {raw : Slice} {lo hi : ℕ} (hlo : lo ≤ hi) (hhi : hi ≤ raw.data.length) :
    raw.slice lo hi = .ok ((raw.data.take hi).drop lo) := by
  rw [Slice.slice, if_pos ⟨hlo, hhi.trans (by simp)⟩, List.take_append_of_le_length hhi]

theorem drop_take_append (l : List UInt8) {a b c : ℕ} (hab : a ≤ b) (hbc : b ≤ c) :
    (l.take b).drop a ++ (l.take c).drop b = (l.take c).drop a := by
  have htake : ((l.take c).drop a).take (b - a) = (l.take b).drop a := by
    rw [List.take_drop, Nat.add_sub_cancel' hab, List.take_take, min_eq_left hbc]
  have hdrop : ((l.take c).drop a).drop (b - a) = (l.take c).drop b := by
    rw [List.drop_drop, Nat.add_sub_cancel' hab]
  rw [← htake, ← hdrop, List.take_append_drop]

theorem Slice.slice_eq_error {raw : Slice} {lo hi : ℕ} (h : hi < lo) :
    raw.slice lo hi = .error .slice := if_neg fun hbounds => absurd hbounds.1 (not_le.2 h)

namespace ReceivedMessage

variable {msg msg' : ReceivedMessage Pub} {flags : UInt8} {stop : ℕ} {field : List UInt8}

theorem parse_none (hs : (flags &&& sizeMask).toNat = 0) (hpos : 1 ≤ stop)
    (hstop : stop ≤ msg.raw.data.length) : msg.parse flags stop =
      .ok (true, { msg with padding := (msg.raw.data.take stop).drop 1 }) := by
  simp only [parse, hs, ne_eq, not_true_eq_false, if_false, Slice.slice_data hpos hstop,
    Outcome.ok_bind]

section
variable (hs : (flags &&& sizeMask).toNat ≠ 0)
  (hfield : msg.raw.slice 1 (1 + (flags &&& sizeMask).toNat) = .ok field)
include hs hfield

theorem parse_refused (h : stop < (bytesToUintLittleEndian 1 field).toNat + 1) :
    msg.parse flags stop = .ok (false, msg) := by
  simp only [parse, if_pos hs, hfield, Outcome.ok_bind, if_pos h, gt_iff_lt]

theorem parse_split
    (hfits : 1 + (flags &&& sizeMask).toNat + (bytesToUintLittleEndian 1 field).toNat ≤ stop)
    (hstop : stop ≤ msg.raw.data.length) : msg.parse flags stop = .ok (true, { msg with
      payload := (msg.raw.data.take (1 + (flags &&& sizeMask).toNat +
        (bytesToUintLittleEndian 1 field).toNat)).drop (1 + (flags &&& sizeMask).toNat)
      padding := (msg.raw.data.take stop).drop (1 + (flags &&& sizeMask).toNat +
        (bytesToUintLittleEndian 1 field).toNat) }) := by
  have hle : ¬ stop < (bytesToUintLittleEndian 1 field).toNat + 1 := by omega
  simp only [parse, if_pos hs, hfield, Outcome.ok_bind, if_neg hle, gt_iff_lt,
    Slice.slice_data (Nat.le_add_right _ _) (hfits.trans hstop), Slice.slice_data hfits hstop]

/-- A payload that is not refused and ends behind the message: the slice of the padding, if not
    that of the payload, is out of range. -/
theorem parse_panics (hsize : ¬ stop < (bytesToUintLittleEndian 1 field).toNat + 1)
    (hlong : stop < 1 + (flags &&& sizeMask).toNat + (bytesToUintLittleEndian 1 field).toNat) :
    ∃ e, msg.parse flags stop = .error e := by
  simp only [parse, if_pos hs, hfield, Outcome.ok_bind, if_neg hsize, gt_iff_lt]
  cases msg.raw.slice (1 + (flags &&& sizeMask).toNat) (1 + (flags &&& sizeMask).toNat +
    (bytesToUintLittleEndian 1 field).toNat) with
  | error e => exact ⟨e, rfl⟩
  | ok payload => exact ⟨.slice, by rw [Outcome.ok_bind, Slice.slice_eq_error hlong]; rfl⟩

end

theorem parse_fits (hpos : 1 ≤ stop) (hstop : stop ≤ msg.raw.data.length) :
    (∃ r, msg.parse flags stop = .ok r) ↔ msg.raw.SizeFits flags stop := by
  by_cases hs : (flags &&& sizeMask).toNat = 0
  · exact iff_of_true ⟨_, parse_none hs hpos hstop⟩ (.inl hs)
  · constructor
    · rintro ⟨r, hr⟩
      obtain ⟨field, hfield, -⟩ := Outcome.bind_eq_ok ((if_pos hs).symm.trans hr)
      refine .inr ⟨field, hfield, ?_⟩
      by_contra! h
      obtain ⟨e, he⟩ := parse_panics hs hfield (by omega) h.2
      exact absurd (hr.symm.trans he) (by simp)
    · rintro (h | ⟨field, hfield, h | h⟩)
      · exact absurd h hs
      · exact ⟨_, parse_refused hs hfield h⟩
      · exact ⟨_, parse_split hs hfield h hstop⟩

/-- What is valid is split up to where the signature begins. -/
theorem parse_splits (hpos : 1 ≤ stop) (hstop : stop ≤ msg.raw.data.length)
    (hpayload : msg.payload = []) (h : msg.parse flags stop = .ok (true, msg')) :
    msg'.raw = msg.raw ∧ msg'.signature = msg.signature ∧ ∃ field,
      field.length = (flags &&& sizeMask).toNat ∧
      msg'.payload.length = (bytesToUintLittleEndian 1 field).toNat ∧
      (msg.raw.data.take stop).drop 1 = field ++ msg'.payload ++ msg'.padding := by
  by_cases hs : (flags &&& sizeMask).toNat = 0
  · rw [parse_none hs hpos hstop] at h
    cases h
    refine ⟨rfl, rfl, [], hs.symm, ?_, ?_⟩
    · simp only [hpayload]
      rfl
    · simp [hpayload]
  · obtain hs' | ⟨field, hfield, hsize | hfits⟩ := (parse_fits hpos hstop).1 ⟨_, h⟩
    · exact absurd hs' hs
    · exact absurd (h.symm.trans (parse_refused hs hfield hsize)) (by simp)
    · rw [parse_split hs hfield hfits hstop] at h
      cases h
      have hshort : 1 + (flags &&& sizeMask).toNat ≤ msg.raw.data.length := by omega
      have hread : field = (msg.raw.data.take (1 + (flags &&& sizeMask).toNat)).drop 1 :=
        Except.ok.inj (hfield.symm.trans (Slice.slice_data (by omega) hshort))
      refine ⟨rfl, rfl, field, ?_, ?_, ?_⟩
      · rw [hread, List.length_drop, List.length_take]
        omega
      · rw [List.length_drop, List.length_take]
        omega
      · change _ = field ++ (msg.raw.data.take _).drop _ ++ (msg.raw.data.take stop).drop _
        have hle : 1 + (flags &&& sizeMask).toNat ≤ stop := by omega
        rw [← drop_take_append msg.raw.data (Nat.le_add_right 1 _) hle, ← hread,
          List.append_assoc, drop_take_append _ (Nat.le_add_right _ _) hfits]

/-- The two parts together, for a message whose signature is read. -/
theorem parse_iff {rest : List UInt8} (hdata : msg.raw.data = flags :: rest) (hpos : 1 ≤ stop)
    (hstop : stop ≤ msg.raw.data.length) (hpayload : msg.payload = [])
    (hsignature : msg.signature = msg.raw.data.drop stop)
    (hlength : msg.signature.length = if isMessageSigned flags then signatureLength else 0) :
    (∃ valid msg', msg.parse flags stop = .ok (valid, msg') ∧
      (valid = true → msg'.raw = msg.raw ∧ msg'.Splits)) ↔ msg.raw.SizeFits flags stop := by
  rw [← parse_fits hpos hstop]
  constructor
  · rintro ⟨valid, msg', h, -⟩
    exact ⟨_, h⟩
  · rintro ⟨⟨valid, msg'⟩, h⟩
    refine ⟨valid, msg', h, ?_⟩
    rintro rfl
    obtain ⟨hraw, hsig, field, hfield, hsize, hbody⟩ := parse_splits hpos hstop hpayload h
    refine ⟨hraw, flags, field, ?_, hfield, hsize, by rw [hsig, hlength]⟩
    obtain ⟨n, rfl⟩ := Nat.exists_eq_add_of_le' hpos
    have hhead : (msg.raw.data.take (n + 1)) =
        flags :: (msg.raw.data.take (n + 1)).drop 1 := by
      rw [hdata, List.take_succ_cons, List.drop_one, List.tail_cons]
    rw [hraw, hsig, hsignature, ← hbody, ← List.cons_append, ← hhead, List.take_append_drop]

section
variable (C : Crypto Key Pub) {raw : Slice} {rest : List UInt8} (hdata : raw.data = flags :: rest)
include hdata

theorem validateAndParse_unsigned (hflags : isMessageSigned flags = false) :
    (fresh raw).validateAndParse C = (fresh raw).parse flags raw.data.length := by
  simp only [validateAndParse, fresh, hdata, hflags, Bool.false_eq_true, if_false]

/-- A message that is signed and has room for its signature. -/
theorem validateAndParse_signed (hflags : isMessageSigned flags = true)
    (hstop : 1 < raw.data.length - signatureLength) {src : Option Pub}
    (hsrc : C.sigToPub (C.keccak256 (raw.data.take (raw.data.length - signatureLength)))
      (raw.data.drop (raw.data.length - signatureLength)) = src) :
    (fresh raw).validateAndParse C =
      let msg : ReceivedMessage Pub :=
        ⟨raw, [], [], raw.data.drop (raw.data.length - signatureLength), src⟩
      if src.isNone then .ok (false, msg)
      else msg.parse flags (raw.data.length - signatureLength) := by
  have hslice : raw.slice (raw.data.length - signatureLength)
      (raw.data.length - signatureLength + signatureLength) =
      .ok (raw.data.drop (raw.data.length - signatureLength)) := by
    rw [Nat.sub_add_cancel (by omega), Slice.slice_data (Nat.sub_le _ _) le_rfl,
      List.take_length]
  rw [hdata] at hslice hstop hsrc
  simp only [validateAndParse, fresh, hdata, hflags, if_true, not_le.2 hstop, if_false, hslice,
    Outcome.ok_bind, sigToPubKey, hsrc]

theorem validateAndParse_short (hflags : isMessageSigned flags = true)
    (hstop : ¬ 1 < raw.data.length - signatureLength) :
    (fresh raw).validateAndParse C = .ok (false, fresh raw) := by
  rw [hdata, not_lt] at hstop
  simp only [validateAndParse, fresh, hdata, hflags, if_true, hstop]

end

/-- **`ValidateAndParse` does not panic if and only if the size fits**, and then a message that is
    valid is split. -/
theorem parses_iff_fits (C : Crypto Key Pub) (raw : Slice) : raw.Parses C ↔ raw.Fits C := by
  cases hdata : raw.data with
  | nil =>
    refine iff_of_true ⟨false, fresh raw, ?_, by simp⟩ (by simp [Slice.Fits, hdata])
    simp only [validateAndParse, fresh, hdata]
  | cons flags rest =>
    simp only [Slice.Parses, Slice.Fits, hdata, List.head?_cons, Option.mem_some_iff, forall_eq']
    simp only [← hdata, Slice.stop]
    by_cases hflags : isMessageSigned flags = true
    · simp only [hflags, if_true, forall_true_left]
      by_cases hstop : 1 < raw.data.length - signatureLength
      · simp only [hstop, true_and]
        obtain ⟨src, hsrc⟩ : ∃ src, C.sigToPub (C.keccak256 (raw.data.take
            (raw.data.length - signatureLength)))
            (raw.data.drop (raw.data.length - signatureLength)) = src := ⟨_, rfl⟩
        rw [validateAndParse_signed C hdata hflags hstop hsrc, hsrc]
        cases src with
        | none => exact iff_of_true ⟨false, _, rfl, by simp⟩ fun h => absurd h (by simp)
        | some key =>
          rw [Option.isSome_some, eq_self, true_imp_iff]
          refine parse_iff hdata hstop.le (Nat.sub_le _ _) rfl rfl ?_
          change (raw.data.drop _).length = _
          rw [if_pos hflags, List.length_drop]
          omega
      · rw [validateAndParse_short C hdata hflags hstop]
        exact iff_of_true ⟨false, _, rfl, by simp⟩ fun h => absurd h.1 hstop
    · have hflags : isMessageSigned flags = false := by simpa using hflags
      rw [validateAndParse_unsigned C hdata hflags]
      simp only [hflags, Bool.false_eq_true, if_false, false_imp_iff, true_imp_iff]
      refine parse_iff hdata (by simp [hdata]) le_rfl rfl ?_ ?_ <;> simp [fresh, hflags]

end ReceivedMessage

end Parsing

/-! ## Messages that are built -/

section Building

variable {Key Pub : Type} {flags : UInt8} {field payload padding signature : List UInt8}

theorem getSizeOfPayloadSizeField_of_lt {n : ℕ} (h : n < 2 ^ 24) :
    getSizeOfPayloadSizeField n = if n < 2 ^ 8 then 1 else if n < 2 ^ 16 then 2 else 3 := by
  rw [getSizeOfPayloadSizeField, getSizeOfPayloadSizeField, getSizeOfPayloadSizeField]
  split_ifs <;> omega

theorem size_field {n : ℕ} (h : n < 2 ^ 24) :
    (bytesToUintLittleEndian 1 ((putUint32 n).take (getSizeOfPayloadSizeField n))).toNat = n := by
  rw [getSizeOfPayloadSizeField_of_lt h]
  split_ifs <;>
    simp [putUint32, bytesToUintLittleEndian, UInt64.toNat_add, UInt64.toNat_mul] <;> omega

theorem drop_take_parts (a b c : List UInt8) {n m : ℕ} (hn : n = a.length)
    (hm : m = a.length + b.length) : ((a ++ b ++ c).take m).drop n = b := by
  rw [hm, hn, ← List.length_append, List.take_left, List.drop_left]

/-- The parts of a message are found again. -/
theorem ReceivedMessage.parse_parts {msg : ReceivedMessage Pub}
    (hdata : msg.raw.data = flags :: (field ++ payload ++ padding ++ signature))
    (hne : field ≠ []) (hfield : field.length = (flags &&& sizeMask).toNat)
    (hsize : (bytesToUintLittleEndian 1 field).toNat = payload.length) :
    msg.parse flags (1 + field.length + payload.length + padding.length) =
      .ok (true, { msg with payload := payload, padding := padding }) := by
  have hlength : msg.raw.data.length =
      1 + field.length + payload.length + padding.length + signature.length := by
    rw [hdata]
    simp only [List.length_cons, List.length_append]
    omega
  have hread : msg.raw.slice 1 (1 + (flags &&& sizeMask).toNat) = .ok field := by
    rw [Slice.slice_data (Nat.le_add_right _ _) (by omega), hdata, ← hfield]
    have := drop_take_parts [flags] field (payload ++ padding ++ signature) rfl rfl
    simpa using this
  have hs : (flags &&& sizeMask).toNat ≠ 0 := by
    rw [← hfield]
    exact fun h => hne (List.length_eq_zero_iff.1 h)
  rw [parse_split hs hread (by omega) (by omega), hsize, ← hfield, hdata]
  congr 3
  · have := drop_take_parts (flags :: field) payload (padding ++ signature)
      (n := 1 + field.length) (m := 1 + field.length + payload.length)
      (by rw [List.length_cons]; omega) (by rw [List.length_cons]; omega)
    simpa using this
  · have := drop_take_parts (flags :: field ++ payload) padding signature
      (n := 1 + field.length + payload.length)
      (m := 1 + field.length + payload.length + padding.length)
      (by simp; omega) (by simp; omega)
    simpa using this

/-- A message that is not signed, or whose key is recovered, is valid. -/
theorem validateAndParse_parts (C : Crypto Key Pub) {raw : Slice}
    (hdata : raw.data = flags :: (field ++ payload ++ padding ++ signature))
    (hne : field ≠ []) (hfield : field.length = (flags &&& sizeMask).toNat)
    (hsize : (bytesToUintLittleEndian 1 field).toNat = payload.length)
    (hsignature : if isMessageSigned flags then signature.length = signatureLength ∧
        (C.sigToPub (C.keccak256 (flags :: (field ++ payload ++ padding))) signature).isSome
      else signature = []) :
    ∃ msg, (ReceivedMessage.fresh raw).validateAndParse C = .ok (true, msg) ∧
      msg.payload = payload ∧ msg.padding = padding := by
  have hstop : raw.data.length - signature.length =
      1 + field.length + payload.length + padding.length := by
    rw [hdata]
    simp only [List.length_cons, List.length_append]
    omega
  by_cases hflags : isMessageSigned flags = true
  · rw [if_pos hflags] at hsignature
    obtain ⟨hlength, hkey⟩ := hsignature
    have hparts : raw.data = (flags :: (field ++ payload ++ padding)) ++ signature := hdata
    have hlen : raw.data.length - signatureLength =
        (flags :: (field ++ payload ++ padding)).length := by
      rw [hparts, List.length_append, hlength, Nat.add_sub_cancel]
    have hpos := List.length_pos_of_ne_nil hne
    obtain ⟨key, hkey⟩ := Option.isSome_iff_exists.1 hkey
    have hsrc : C.sigToPub (C.keccak256 (raw.data.take (raw.data.length - signatureLength)))
        (raw.data.drop (raw.data.length - signatureLength)) = some key := by
      rw [hlen, hparts, List.take_left, List.drop_left, hkey]
    rw [hlength] at hstop
    rw [ReceivedMessage.validateAndParse_signed C hdata hflags (by omega) hsrc, hstop]
    exact ⟨_, ReceivedMessage.parse_parts hdata hne hfield hsize, rfl, rfl⟩
  · rw [if_neg hflags] at hsignature
    rw [hsignature, List.length_nil, Nat.sub_zero] at hstop
    rw [ReceivedMessage.validateAndParse_unsigned C hdata (by simpa using hflags), hstop]
    exact ⟨_, ReceivedMessage.parse_parts hdata hne hfield hsize, rfl, rfl⟩

theorem flags_of_size {size : ℕ} (hpos : 0 < size) (hle : size ≤ 3) :
    isMessageSigned (0 ||| .ofNat size) = false ∧
      isMessageSigned (0 ||| .ofNat size ||| signatureFlag) = true ∧
      ((0 ||| .ofNat size : UInt8) &&& sizeMask).toNat = size ∧
      ((0 ||| .ofNat size ||| signatureFlag : UInt8) &&& sizeMask).toNat = size := by
  interval_cases size <;> decide

/-- A message that is built and signed is valid, with the payload and the padding it is built
    from. -/
theorem validateAndParse_built (C : Crypto Key Pub) {read : ℕ → Option (List UInt8)}
    {params : MessageParams Key} {pad : List UInt8} (hpayload : params.payload.length < 2 ^ 24)
    (hpad : makePadding read params = .ok pad) :
    ∃ raw, newSentMessage read params = .ok raw ∧
      ∀ key signed, signBy C raw key = .ok signed → ∀ spare,
        ∃ msg, (ReceivedMessage.fresh ⟨signed, spare⟩).validateAndParse C = .ok (true, msg) ∧
          msg.payload = params.payload ∧ msg.padding = pad := by
  set size := getSizeOfPayloadSizeField params.payload.length with hsize
  have hbounds : 0 < size ∧ size ≤ 3 := by
    rw [hsize, getSizeOfPayloadSizeField_of_lt hpayload]
    split_ifs <;> omega
  obtain ⟨hunsigned, hsigned, hmask, hmask'⟩ := flags_of_size hbounds.1 hbounds.2
  set field := (putUint32 params.payload.length).take size with hfield
  have hlength : field.length = size := by
    rw [hfield, List.length_take]
    change min size 4 = size
    omega
  have hne : field ≠ [] := List.ne_nil_of_length_pos (by omega)
  have hread : (bytesToUintLittleEndian 1 field).toNat = params.payload.length :=
    size_field hpayload
  refine ⟨(0 ||| .ofNat size) :: (field ++ params.payload ++ pad), ?_, ?_⟩
  · have hle : size ≤ (putUint32 params.payload.length).length := hbounds.2.trans (Nat.le_succ 3)
    simp only [newSentMessage, addPayloadSizeField, ← hsize, if_pos hle, ← hfield, hpad,
      Outcome.ok_bind, List.cons_append]
  · intro key signed hsign spare
    cases key with
    | none =>
      cases hsign
      have hdata : (0 ||| .ofNat size) :: (field ++ params.payload ++ pad) =
          (0 ||| .ofNat size) :: (field ++ params.payload ++ pad ++ []) := by rw [List.append_nil]
      refine validateAndParse_parts C hdata hne (hlength.trans hmask.symm) hread ?_
      rw [if_neg (by rw [hunsigned]; decide)]
    | some key =>
      simp only [signBy, sign, hunsigned, Bool.false_eq_true, if_false] at hsign
      split at hsign
      · cases hsign
      · rename_i signature hsignature
        cases hsign
        refine validateAndParse_parts C rfl hne (hlength.trans hmask'.symm) hread ?_
        rw [if_pos hsigned]
        exact ⟨C.sign_length _ _ _ hsignature, C.sign_recovers _ _ _ hsignature⟩

theorem makePadding_given {read : ℕ → Option (List UInt8)} {params : MessageParams Key}
    (h : params.padding ≠ []) : makePadding read params = .ok params.padding :=
  if_pos fun hzero => h (List.length_eq_zero_iff.1 hzero)

/-- **Framing of messages.**  `ValidateAndParse` does not panic on a message, and splits it if it is
    valid, if and only if its size fits.  A message that is built from a payload of less than
    `2 ^ 24` bytes, and signed or not, is valid, with the same payload and the same padding. -/
theorem message_framing (C : Crypto Key Pub) :
    (∀ raw : Slice, raw.Parses C ↔ raw.Fits C) ∧
    ∀ (read : ℕ → Option (List UInt8)) (params : MessageParams Key),
      params.payload.length < 2 ^ 24 →
      (params.padding ≠ [] → makePadding read params = .ok params.padding) ∧
      ∀ pad, makePadding read params = .ok pad →
        ∃ raw, newSentMessage read params = .ok raw ∧
          ∀ key signed, signBy C raw key = .ok signed → ∀ spare,
            ∃ msg, (ReceivedMessage.fresh ⟨signed, spare⟩).validateAndParse C = .ok (true, msg) ∧
              msg.payload = params.payload ∧ msg.padding = pad :=
  ⟨ReceivedMessage.parses_iff_fits C, fun _ _ hpayload =>
    ⟨makePadding_given, fun _ => validateAndParse_built C hpayload⟩⟩

/-- Signatures of zeros, from which a key is always recovered. -/
def zeros : Crypto Unit Unit where
  keccak256 := id
  sign _ _ := some (List.replicate signatureLength 0)
  sigToPub _ _ := some ()
  sign_length := by
    rintro h k s ⟨⟩
    exact List.length_replicate
  sign_recovers := by
    rintro h k s ⟨⟩
    rfl

/-- A payload of two bytes with a padding, signed. -/
theorem message_framing_two :
    ∃ raw, newSentMessage (fun _ => none) ⟨some (), [7, 8], [9]⟩ = .ok raw ∧
      ∀ key signed, signBy zeros raw key = .ok signed → ∀ spare,
        ∃ msg, (ReceivedMessage.fresh ⟨signed, spare⟩).validateAndParse zeros = .ok (true, msg) ∧
          msg.payload = [7, 8] ∧ msg.padding = [9] :=
  ((message_framing zeros).2 (fun _ => none) ⟨some (), [7, 8], [9]⟩ (by decide)).2 [9] rfl

/-- A message of two bytes whose size is one: the payload begins where the message ends. -/
theorem validateAndParse_behind : ¬ Slice.Parses zeros ⟨[1, 1], []⟩ := by
  rintro ⟨valid, msg, h, -⟩
  have hpanic : (ReceivedMessage.fresh ⟨[1, 1], []⟩).validateAndParse zeros = .error .slice := rfl
  exact absurd (hpanic.symm.trans h) (by simp)

end Building

end GoEthereum.Whisper
