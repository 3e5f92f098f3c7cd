/-
  The RLP input stream (`rlp/decode.go`, type `Stream`).

  A `Stream` reads values from `r`.  It caches the kind and the size of the
  value ahead (`kind`, `size`, `byteval`, `kinderr`) until the value is read,
  and keeps the lists it is in on `stack`.  Every method returns its result
  together with the new stream, also when it fails: an error leaves traces
  that later calls can see.
-/
import GoEthereum.Rlp.Encode

namespace GoEthereum.Rlp

open BigEndian

inductive Kind where
  | byte | string | list
  deriving DecidableEq, Repr

/-- The errors of the package.  `decode` is `*decodeError`. -/
inductive Err where
  | eol
  | eof
  | unexpectedEOF
  | expectedString
  | expectedList
  | canonInt
  | canonSize
  | elemTooLarge
  | valueTooLarge
  | moreThanOneValue
  | notInList
  | notAtEOL
  | uintOverflow
  | invalidBool (n : ℕ)
  | notSerializable (typ : String)
  | decode (msg : String) (typ : String) (ctx : List String)
  deriving DecidableEq, Repr

structure ListPos where
  pos : ℕ
  size : ℕ
  deriving DecidableEq, Repr

/-- `Stream`.  `kind` is `none` where the source has `-1`; the innermost list
    stands first on the stack; `uintbuf` is scratch space and left out. -/
structure Stream where
  r : Bytes
  remaining : ℕ
  limited : Bool
  kind : Option Kind := none
  size : ℕ := 0
  byteval : UInt8 := 0
  kinderr : Option Err := none
  stack : List ListPos := []

namespace Stream

def willRead (s : Stream) (n : ℕ) : Except Err Unit × Stream :=
  let s := { s with kind := none }
  let limit (s : Stream) : Except Err Unit × Stream :=
    if s.limited then
      if n > s.remaining then (.error .valueTooLarge, s)
      else (.ok (), { s with remaining := s.remaining - n })
    else (.ok (), s)
  match s.stack with
  | [] => limit s
  | tos :: st =>
    if n > tos.size - tos.pos then (.error .elemTooLarge, s)
    else limit { s with stack := { tos with pos := tos.pos + n } :: st }

def readByte (s : Stream) : Except Err UInt8 × Stream :=
  match s.willRead 1 with
  | (.error e, s) => (.error e, s)
  | (.ok _, s) =>
    match s.r with
    | [] => (.error .unexpectedEOF, s)
    | b :: r => (.ok b, { s with r := r })

/-- `readFull` into a buffer of length `n`. -/
def readFull (s : Stream) (n : ℕ) : Except Err Bytes × Stream :=
  match s.willRead n with
  | (.error e, s) => (.error e, s)
  | (.ok _, s) =>
    if n ≤ s.r.length then (.ok (s.r.take n), { s with r := s.r.drop n })
    else (.error .unexpectedEOF, { s with r := [] })

/-- `readUint`: a big-endian number of `size` bytes, at most eight. -/
def readUint (s : Stream) (size : ℕ) : Except Err ℕ × Stream :=
  match size with
  | 0 => (.ok 0, { s with kind := none })
  | 1 =>
    match s.readByte with
    | (.error e, s) => (.error e, s)
    | (.ok b, s) => (.ok b.toNat, s)
  | n =>
    match s.readFull n with
    | (.error e, s) => (.error e, s)
    | (.ok b, s) => if b.head? = some 0 then (.error .canonSize, s) else (.ok (ofBE b), s)

/-- The size of a long string or list, in `n` bytes after the tag. -/
def readKindSize (s : Stream) (k : Kind) (n : ℕ) : (Kind × ℕ × Option Err) × Stream :=
  match s.readUint n with
  | (.error e, s) => ((k, 0, some e), s)
  | (.ok size, s) => ((k, size, if size < 56 then some .canonSize else none), s)

/-- `readKind`: kind and size are returned next to the error, as `getKind` stores
    all three. -/
def readKind (s : Stream) : (Kind × ℕ × Option Err) × Stream :=
  match s.readByte with
  | (.error e, s) =>
    let e := if s.stack = [] ∧ (e = .unexpectedEOF ∨ e = .valueTooLarge) then .eof else e
    ((.byte, 0, some e), s)
  | (.ok b, s) =>
    let s := { s with byteval := 0 }
    if b.toNat < 0x80 then ((.byte, 0, none), { s with byteval := b })
    else if b.toNat < 0xB8 then ((.string, b.toNat - 0x80, none), s)
    else if b.toNat < 0xC0 then s.readKindSize .string (b.toNat - 0xB7)
    else if b.toNat < 0xF8 then ((.list, b.toNat - 0xC0, none), s)
    else s.readKindSize .list (b.toNat - 0xF7)

/-- The bound on the size of a value in `Kind`: the rest of the innermost list, or
    at the top level the rest of the input. -/
def checkSize (s : Stream) (size : ℕ) : Option Err :=
  match s.stack with
  | [] => if s.limited ∧ size > s.remaining then some .valueTooLarge else none
  | tos :: _ => if size > tos.size - tos.pos then some .elemTooLarge else none

/-- The innermost list is exhausted. -/
def atEOL (s : Stream) : Bool :=
  match s.stack with
  | [] => false
  | tos :: _ => tos.pos = tos.size

/-- `Kind` when nothing is cached: the kind of the next value is read and stored. -/
def fetchKind (s : Stream) : Except Err (Kind × ℕ) × Stream :=
  if s.atEOL then (.error .eol, s)
  else
    match s.readKind with
    | ((k, size, some e), s) =>
      (.error e, { s with kind := some k, size := size, kinderr := some e })
    | ((k, size, none), s) =>
      match s.checkSize size with
      | some e => (.error e, { s with kind := some k, size := size, kinderr := some e })
      | none => (.ok (k, size), { s with kind := some k, size := size, kinderr := none })

/-- `Kind` -/
def getKind (s : Stream) : Except Err (Kind × ℕ) × Stream :=
  match s.kind with
  | none => fetchKind { s with kinderr := none }
  | some k =>
    match s.kinderr with
    | none => (.ok (k, s.size), s)
    | some e => (.error e, s)

def bytes (s : Stream) : Except Err Bytes × Stream :=
  match s.getKind with
  | (.error e, s) => (.error e, s)
  | (.ok (.byte, _), s) => (.ok [s.byteval], { s with kind := none })
  | (.ok (.string, size), s) =>
    match s.readFull size with
    | (.error e, s) => (.error e, s)
    | (.ok b, s) =>
      if size = 1 ∧ b.all (· < 128) then (.error .canonSize, s) else (.ok b, s)
  | (.ok (.list, _), s) => (.error .expectedString, s)

def uint (s : Stream) (maxbits : ℕ) : Except Err ℕ × Stream :=
  match s.getKind with
  | (.error e, s) => (.error e, s)
  | (.ok (.byte, _), s) =>
    if s.byteval = 0 then (.error .canonInt, s)
    else (.ok s.byteval.toNat, { s with kind := none })
  | (.ok (.string, size), s) =>
    if size > maxbits / 8 then (.error .uintOverflow, s)
    else
      match s.readUint size with
      | (.error .canonSize, s) => (.error .canonInt, s)
      | (.error e, s) => (.error e, s)
      | (.ok v, s) => if size > 0 ∧ v < 128 then (.error .canonSize, s) else (.ok v, s)
  | (.ok (.list, _), s) => (.error .expectedString, s)

def bool (s : Stream) : Except Err Bool × Stream :=
  match s.uint 8 with
  | (.error e, s) => (.error e, s)
  | (.ok 0, s) => (.ok false, s)
  | (.ok 1, s) => (.ok true, s)
  | (.ok n, s) => (.error (.invalidBool n), s)

def list (s : Stream) : Except Err ℕ × Stream :=
  match s.getKind with
  | (.error e, s) => (.error e, s)
  | (.ok (.list, size), s) =>
    (.ok size, { s with stack := ⟨0, size⟩ :: s.stack, kind := none, size := 0 })
  | (.ok _, s) => (.error .expectedList, s)

def listEnd (s : Stream) : Except Err Unit × Stream :=
  match s.stack with
  | [] => (.error .notInList, s)
  | tos :: st =>
    if tos.pos ≠ tos.size then (.error .notAtEOL, s)
    else
      let st := match st with
        | [] => []
        | t :: st => { t with pos := t.pos + tos.size } :: st
      (.ok (), { s with stack := st, kind := none, size := 0 })

/-! ## Positions -/

/-- The innermost list has `n` more bytes. -/
def Room (n : ℕ) : List ListPos → Prop
  | [] => True
  | tos :: _ => n ≤ tos.size - tos.pos

theorem willRead_ok {s s' : Stream} {n : ℕ} (h : s.willRead n = (.ok (), s')) :
    Room n s.stack ∧ (s.limited = true → n ≤ s.remaining) := by
  unfold willRead at h
  rcases hst : s.stack with _ | ⟨tos, st⟩
  · refine ⟨trivial, fun hlim => ?_⟩
    by_contra hn
    simp [hst, hlim, Nat.lt_of_not_le hn] at h
  · by_cases hr : n ≤ tos.size - tos.pos
    · refine ⟨hr, fun hlim => ?_⟩
      by_contra hn
      simp [hst, hlim, Nat.not_lt.mpr hr, Nat.lt_of_not_le hn] at h
    · simp [hst, Nat.lt_of_not_le hr] at h

end Stream

end GoEthereum.Rlp
