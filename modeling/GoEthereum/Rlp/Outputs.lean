/-
  The outputs of the RLP encoder (`rlp/encode.go`).

  What has been written to an `encbuf` leaves it in three ways: `toBytes` copies it to a
  slice of the size announced by `size`, `toWriter` writes it piece by piece, and an
  `encReader` hands it out to buffers of any length.  The pieces are the same in the last
  two cases (`EncReader.rest`), and together they are the encoding (`outputs_agree`).
-/
import GoEthereum.Rlp.Raw

namespace GoEthereum.Rlp

/-! ## The outputs -/

/-- `copy(out[pos:], src)`: the new `out`, and the number of bytes that fit. -/
def copyAt (out : Bytes) (pos : ℕ) (src : Bytes) : Bytes × ℕ :=
  let n := min (out.length - pos) src.length
  (out.take pos ++ src.take n ++ out.drop (pos + n), n)

namespace Encbuf

/-- The loop of `toBytes` over the heads, with the slice `out` that is filled; `none` is a
    panic. -/
def fillLoop (str : Bytes) : List Listhead → ℕ → ℕ → Bytes → Option Bytes
  | [], strpos, pos, out => do
    let _ ← slice out pos out.length
    let s ← slice str strpos str.length
    some (copyAt out pos s).1
  | head :: heads, strpos, pos, out => do
    let _ ← slice out pos out.length
    let s ← slice str strpos head.offset
    let (out, n) := copyAt out pos s
    let buf ← slice out (pos + n) out.length
    guard (head.encode.length ≤ buf.length)
    let (out, k) := copyAt out (pos + n) head.encode
    fillLoop str heads (strpos + n) (pos + n + k) out

/-- `toBytes` with the slice it makes. -/
def fill (w : Encbuf) : Option Bytes := fillLoop w.str w.lheads 0 0 (List.replicate w.size 0)

/-- The writes of `toWriter` from `strpos` on; the writer takes each of them. -/
def writesLoop (str : Bytes) : ℕ → List Listhead → List Bytes
  | strpos, [] => if strpos < str.length then [str.drop strpos] else []
  | strpos, head :: heads =>
    if head.offset - strpos > 0 then
      (str.take head.offset).drop strpos :: head.encode :: writesLoop str head.offset heads
    else head.encode :: writesLoop str strpos heads

def toWriter (w : Encbuf) : List Bytes := writesLoop w.str 0 w.lheads

end Encbuf

structure EncReader where
  buf : Option Encbuf
  lhpos : ℕ := 0
  strpos : ℕ := 0
  piece : Option Bytes := none

namespace EncReader

def next (r : EncReader) : Option Bytes × EncReader :=
  match r.buf with
  | none => (none, r)
  | some w =>
    match r.piece with
    | some p => (some p, r)
    | none =>
      match w.lheads[r.lhpos]? with
      | some head =>
        let sizebefore := head.offset - r.strpos
        if sizebefore > 0 then
          (some ((w.str.take head.offset).drop r.strpos), { r with strpos := r.strpos + sizebefore })
        else (some head.encode, { r with lhpos := r.lhpos + 1 })
      | none =>
        if r.strpos < w.str.length then
          (some (w.str.drop r.strpos), { r with strpos := w.str.length })
        else (none, r)

/-- The loop of `Read` for a buffer of `size` bytes that holds `b`; the flag is `io.EOF`. -/
def readLoop (size : ℕ) : ℕ → Bytes → EncReader → Option ((Bytes × Bool) × EncReader)
  | 0, _, _ => none
  | fuel + 1, b, r =>
    match r.next with
    | (none, r) => some ((b, true), { r with buf := none, piece := none })
    | (some piece, r) =>
      let nn := min (size - b.length) piece.length
      if nn < piece.length then
        some ((b ++ piece.take nn, false), { r with piece := some (piece.drop nn) })
      else readLoop size fuel (b ++ piece.take nn) { r with piece := none }

/-- `Read` for a buffer of `size` bytes. -/
def read (r : EncReader) (size : ℕ) : Option ((Bytes × Bool) × EncReader) :=
  let heads := match r.buf with
    | none => 0
    | some w => w.lheads.length
  readLoop size (2 * heads + 3) [] r

/-- The results of `Read` for buffers of the given sizes. -/
def reads : List ℕ → EncReader → Option (List (Bytes × Bool))
  | [], _ => some []
  | size :: sizes, r => do
    let (x, r) ← r.read size
    let xs ← reads sizes r
    some (x :: xs)

end EncReader

/-! ## The slice of `toBytes` -/

theorem length_copyAt (out : Bytes) {pos : ℕ} (src : Bytes) (h : pos ≤ out.length) :
    (copyAt out pos src).1.length = out.length := by
  simp only [copyAt, List.length_append, List.length_take, List.length_drop]
  omega

theorem copyAt_fits {out src : Bytes} {pos : ℕ} (h : pos + src.length ≤ out.length) :
    copyAt out pos src = (out.take pos ++ src ++ out.drop (pos + src.length), src.length) := by
  have hn : min (out.length - pos) src.length = src.length := by omega
  simp only [copyAt, hn, List.take_length]

theorem take_copyAt {out src : Bytes} {pos : ℕ} (h : pos + src.length ≤ out.length) :
    (copyAt out pos src).1.take (pos + src.length) = out.take pos ++ src := by
  have hl : (out.take pos ++ src).length = pos + src.length := by
    simp only [List.length_append, List.length_take]
    omega
  rw [copyAt_fits h, ← hl, List.take_left]

namespace Encbuf

/-- The slice is filled to its end. -/
theorem fillLoop_eq (str : Bytes) : ∀ (heads : List Listhead) (strpos pos : ℕ) (out : Bytes),
    HeadsIn str.length strpos heads →
    out.length = pos + (toBytesLoop str strpos heads).length →
    fillLoop str heads strpos pos out = some (out.take pos ++ toBytesLoop str strpos heads)
  | [], strpos, pos, out, hin, hlen => by
    simp only [HeadsIn, toBytesLoop] at hin hlen
    have hpos : pos ≤ out.length := by omega
    have htake : (copyAt out pos (str.drop strpos)).1 = out.take pos ++ str.drop strpos := by
      rw [← take_copyAt (le_of_eq hlen.symm), ← hlen, ← length_copyAt out (str.drop strpos) hpos,
        List.take_length]
    simp only [fillLoop, slice_to_end hpos, slice_to_end hin,
      toBytesLoop, htake, Option.bind_eq_bind, Option.bind_some]
  | head :: heads, strpos, pos, out, ⟨hle, hoff, hin⟩, hlen => by
    obtain ⟨s, hs⟩ : ∃ s, (str.take head.offset).drop strpos = s := ⟨_, rfl⟩
    have hn : strpos + s.length = head.offset := by
      rw [← hs, List.length_drop, List.length_take]
      omega
    simp only [toBytesLoop, hs, List.length_append] at hlen
    obtain ⟨out₁, h₁⟩ : ∃ out₁, (copyAt out pos s).1 = out₁ := ⟨_, rfl⟩
    have hlen₁ : out₁.length = out.length := h₁ ▸ length_copyAt out s (by omega)
    have htake₁ : out₁.take (pos + s.length) = out.take pos ++ s :=
      h₁ ▸ take_copyAt (show pos + s.length ≤ out.length by omega)
    have hc₁ : copyAt out pos s = (out₁, s.length) := by
      rw [← h₁, copyAt_fits (show pos + s.length ≤ out.length by omega)]
    obtain ⟨out₂, h₂⟩ : ∃ out₂, (copyAt out₁ (pos + s.length) head.encode).1 = out₂ := ⟨_, rfl⟩
    have hfits : pos + s.length + head.encode.length ≤ out₁.length := by omega
    have hc₂ : copyAt out₁ (pos + s.length) head.encode = (out₂, head.encode.length) := by
      rw [← h₂, copyAt_fits hfits]
    have ih := fillLoop_eq str heads head.offset (pos + s.length + head.encode.length) out₂ hin
      (by rw [← h₂, length_copyAt _ _ (by omega)]; omega)
    have htake₂ : out₂.take (pos + s.length + head.encode.length) = out.take pos ++ s ++ head.encode :=
      h₂ ▸ htake₁ ▸ take_copyAt hfits
    simp only [fillLoop, slice_to_end (show pos ≤ out.length by omega), slice_eq hle hoff, hs, hc₁,
      slice_to_end (show pos + s.length ≤ out₁.length by omega), List.length_drop, hc₂, hn,
      show head.encode.length ≤ out₁.length - (pos + s.length) by omega, guard, if_true, ih, htake₂,
      toBytesLoop, Option.bind_eq_bind, Option.bind_some, Option.pure_def, List.append_assoc]

theorem Renders.fill {w : Encbuf} {b : Bytes} (h : w.Renders b) : w.fill = some b := by
  have hlen := h.size_eq
  rw [← h.toBytes_eq] at hlen
  rw [Encbuf.fill, fillLoop_eq w.str w.lheads 0 0 _ h.heads (by simpa [toBytes] using hlen),
    ← h.toBytes_eq, List.take_zero, List.nil_append, toBytes]

/-! ## The pieces -/

theorem flatten_writesLoop (str : Bytes) : ∀ (strpos : ℕ) (heads : List Listhead),
    HeadsIn str.length strpos heads → (writesLoop str strpos heads).flatten = toBytesLoop str strpos heads
  | strpos, [], hin => by
    unfold writesLoop toBytesLoop
    split_ifs with h
    · simp
    · rw [List.drop_eq_nil_of_le (by omega)]
      rfl
  | strpos, head :: heads, ⟨hle, hoff, hin⟩ => by
    have ih := flatten_writesLoop str head.offset heads hin
    unfold writesLoop toBytesLoop
    split_ifs with h
    · simp [ih]
    · obtain rfl : strpos = head.offset := by omega
      simp [ih]

theorem length_writesLoop (str : Bytes) : ∀ (strpos : ℕ) (heads : List Listhead),
    (writesLoop str strpos heads).length ≤ 2 * heads.length + 1
  | strpos, [] => by
    unfold writesLoop
    split_ifs <;> simp
  | strpos, head :: heads => by
    have h₁ := length_writesLoop str head.offset heads
    have h₂ := length_writesLoop str strpos heads
    unfold writesLoop
    split_ifs <;> simp only [List.length_cons] <;> omega

end Encbuf

namespace EncReader

open Encbuf

/-- The pieces that are still to be read. -/
def rest (r : EncReader) : List Bytes :=
  match r.buf with
  | none => []
  | some w => r.piece.toList ++ writesLoop w.str r.strpos (w.lheads.drop r.lhpos)

theorem next_eq (r : EncReader) :
    (r.rest = [] ∧ r.next = (none, r)) ∨ ∃ p ps r', r.rest = p :: ps ∧ r.next = (some p, r') ∧
      r'.buf = r.buf ∧ ∀ q, ({ r' with piece := q } : EncReader).rest = q.toList ++ ps := by
  unfold next
  rcases hb : r.buf with _ | w
  · exact .inl ⟨by simp only [rest, hb], rfl⟩
  rcases hp : r.piece with _ | p
  · rcases hh : w.lheads[r.lhpos]? with _ | head
    · have hdrop : w.lheads.drop r.lhpos = [] := by
        rw [List.drop_eq_nil_iff, ← List.getElem?_eq_none_iff]
        exact hh
      by_cases hlt : r.strpos < w.str.length
      · refine .inr ⟨w.str.drop r.strpos, [], { r with strpos := w.str.length }, ?_, ?_, hb, ?_⟩
        · simp [rest, hb, hp, hdrop, writesLoop, hlt]
        · simp only [hh, if_pos hlt, hb, hp]
        · intro q
          simp [rest, hb, hdrop, writesLoop]
      · refine .inl ⟨?_, ?_⟩
        · simp [rest, hb, hp, hdrop, writesLoop, hlt]
        · simp only [hh, if_neg hlt]
    · have hdrop : w.lheads.drop r.lhpos = head :: w.lheads.drop (r.lhpos + 1) := by
        obtain ⟨hlt, rfl⟩ := List.getElem?_eq_some_iff.1 hh
        exact List.drop_eq_getElem_cons hlt
      by_cases hlt : head.offset - r.strpos > 0
      · refine .inr ⟨(w.str.take head.offset).drop r.strpos,
          head.encode :: writesLoop w.str head.offset (w.lheads.drop (r.lhpos + 1)),
          { r with strpos := r.strpos + (head.offset - r.strpos) }, ?_, ?_, hb, ?_⟩
        · simp only [rest, hb, hp, hdrop, writesLoop, if_pos hlt, Option.toList, List.nil_append]
        · simp only [hh, if_pos hlt, hb, hp]
        · intro q
          have hoff : r.strpos + (head.offset - r.strpos) = head.offset := by omega
          simp [rest, hb, hdrop, writesLoop, hoff]
      · refine .inr ⟨head.encode, writesLoop w.str r.strpos (w.lheads.drop (r.lhpos + 1)),
          { r with lhpos := r.lhpos + 1 }, ?_, ?_, hb, ?_⟩
        · simp only [rest, hb, hp, hdrop, writesLoop, if_neg hlt, Option.toList, List.nil_append]
        · simp only [hh, if_neg hlt, hb, hp]
        · intro q
          simp only [rest, hb]
  · refine .inr ⟨p, writesLoop w.str r.strpos (w.lheads.drop r.lhpos), r, ?_, rfl, hb, ?_⟩
    · simp only [rest, hb, hp, Option.toList, List.singleton_append]
    · intro q
      simp only [rest, hb]

/-- A buffer takes what fits of the pieces, and `io.EOF` comes with the last byte. -/
theorem readLoop_eq (size : ℕ) : ∀ (fuel : ℕ) (b : Bytes) (r : EncReader), r.rest.length < fuel →
    b.length ≤ size → ∃ r' : EncReader,
      readLoop size fuel b r = some ((b ++ r.rest.flatten.take (size - b.length),
        decide (r.rest.flatten.length ≤ size - b.length)), r') ∧
      r'.rest.flatten = r.rest.flatten.drop (size - b.length)
  | 0, _, _, h, _ => absurd h (Nat.not_lt_zero _)
  | fuel + 1, b, r, h, hb => by
    rcases next_eq r with ⟨hnil, hnext⟩ | ⟨p, ps, r', hcons, hnext, hbuf, hrest⟩
    · refine ⟨{ r with buf := none, piece := none }, ?_, ?_⟩
      · simp [readLoop, hnext, hnil]
      · rw [hnil]
        simp [rest]
    · rw [hcons] at h ⊢
      by_cases hlt : size - b.length < p.length
      · have hmin : min (size - b.length) p.length = size - b.length := by omega
        refine ⟨{ r' with piece := some (p.drop (size - b.length)) }, ?_, ?_⟩
        · simp only [readLoop, hnext, hmin, if_pos hlt, List.flatten_cons,
            List.take_append_of_le_length hlt.le, List.length_append]
          rw [decide_eq_false (by omega)]
        · rw [hrest, List.flatten_cons, List.drop_append_of_le_length hlt.le]
          simp
      · have hmin : min (size - b.length) p.length = p.length := by omega
        have hlen : size - (b ++ p).length = size - b.length - p.length := by
          rw [List.length_append]
          omega
        obtain ⟨r'', hread, hdrop⟩ := readLoop_eq size fuel (b ++ p) { r' with piece := none }
          (by rw [hrest]; simpa using h) (by rw [List.length_append]; omega)
        rw [hrest, hlen] at hread hdrop
        refine ⟨r'', ?_, ?_⟩
        · simp only [readLoop, hnext, hmin, lt_irrefl, if_false, List.take_length, hread,
            Option.toList, List.nil_append, List.flatten_cons, List.length_append]
          rw [List.take_append, List.take_of_length_le (show p.length ≤ size - b.length by omega),
            List.append_assoc]
          congr 3
          exact decide_eq_decide.2 (by omega)
        · rw [hdrop, List.flatten_cons, List.drop_append,
            List.drop_of_length_le (show p.length ≤ size - b.length by omega)]
          rfl

theorem length_rest_lt (r : EncReader) : r.rest.length <
    2 * (match r.buf with | none => 0 | some w => w.lheads.length) + 3 := by
  unfold rest
  rcases r.buf with _ | w
  · simp
  · have := length_writesLoop w.str r.strpos (w.lheads.drop r.lhpos)
    have hp : r.piece.toList.length ≤ 1 := by cases r.piece <;> simp
    rw [List.length_drop] at this
    simp only [List.length_append]
    omega

theorem reads_eq : ∀ (sizes : List ℕ) (r : EncReader), ∃ xs, reads sizes r = some xs ∧
    (xs.map Prod.fst).flatten = r.rest.flatten.take sizes.sum ∧
    ((∃ x ∈ xs, x.2 = true) ↔ sizes ≠ [] ∧ r.rest.flatten.length ≤ sizes.sum)
  | [], r => ⟨[], rfl, by simp, by simp⟩
  | size :: sizes, r => by
    obtain ⟨r', hread, hrest⟩ := readLoop_eq size _ [] r r.length_rest_lt (Nat.zero_le _)
    obtain ⟨xs, hreads, hxs, heof⟩ := reads_eq sizes r'
    simp only [List.length_nil, Nat.sub_zero, List.nil_append] at hread hrest
    rw [hrest] at hxs heof
    refine ⟨(r.rest.flatten.take size, decide (r.rest.flatten.length ≤ size)) :: xs, ?_, ?_, ?_⟩
    · simp only [reads, read, hread, hreads, Option.bind_eq_bind, Option.bind_some]
    · rw [List.map_cons, List.flatten_cons, hxs, List.sum_cons, List.take_add]
    · rw [List.length_drop] at heof
      simp only [List.mem_cons, exists_eq_or_imp, decide_eq_true_eq, heof, List.sum_cons, ne_eq,
        reduceCtorEq, not_false_eq_true, true_and]
      rcases sizes with _ | ⟨n, sizes⟩
      · simp
      · simp only [reduceCtorEq, not_false_eq_true, true_and]
        omega

end EncReader

/-! ## The heads -/

mutual
/-- The lengths of the contents of the lists in a value, in the order in which they open. -/
def contents : Item → List ℕ
  | .str _ => []
  | .list xs => (encs xs).length :: contentsOf xs

/-- The lengths of the contents of the lists in the values. -/
def contentsOf : List Item → List ℕ
  | [] => []
  | x :: xs => contents x ++ contentsOf xs
end

mutual
theorem sizes_buf : ∀ x : Item, (enc x).length < 2 ^ 64 →
    (buf x).lheads.map Listhead.size = contents x
  | .str b, _ => by rw [buf, contents]; rfl
  | .list xs, h => by
    rw [enc, encList, List.length_append] at h
    have hin : (encs xs).length < 2 ^ 64 := by omega
    rw [buf, contents, Encbuf.wrap, List.map_cons, sizes_bufs xs hin,
      (renders_bufs xs (.inr hin)).size_eq]

theorem sizes_bufs : ∀ xs : List Item, (encs xs).length < 2 ^ 64 →
    (bufs xs).lheads.map Listhead.size = contentsOf xs
  | [], _ => by rw [bufs, contentsOf]; rfl
  | x :: xs, h => by
    rw [encs, List.length_append] at h
    rw [bufs, contentsOf, Encbuf.append, List.map_append, List.map_map, sizes_buf x (by omega),
      ← sizes_bufs xs (by omega)]
    rfl
end

/-- **The outputs agree.**  For values written to an empty buffer, `toBytes`, the writes of
    `toWriter` and the reads of an `encReader` give the encoding of the values, of which `size`
    is the length, and the heads hold the lengths of the contents of their lists.  The reader
    may be read with buffers of any sizes, and reports the end exactly when they are enough. -/
theorem outputs_agree (xs : List Item) (h : (encs xs).length ≤ maxInt) :
    let w := writeElems xs {}
    w.fill = some (encs xs) ∧ w.toWriter.flatten = encs xs ∧ w.size = (encs xs).length ∧
      w.lheads.map Listhead.size = contentsOf xs ∧
      ∀ sizes, ∃ reads, EncReader.reads sizes { buf := some w } = some reads ∧
        (reads.map Prod.fst).flatten = (encs xs).take sizes.sum ∧
        ((∃ x ∈ reads, x.2 = true) ↔ sizes ≠ [] ∧ (encs xs).length ≤ sizes.sum) := by
  have hlt : (encs xs).length < 2 ^ 64 := by
    simp only [maxInt] at h
    omega
  have hw : writeElems xs {} = bufs xs := by
    rw [appends_writeElems xs {}, Encbuf.empty_append]
  have hr := renders_bufs xs (.inr hlt)
  have hflat : (bufs xs).toWriter.flatten = encs xs := by
    rw [← hr.toBytes_eq]
    exact Encbuf.flatten_writesLoop _ _ _ hr.heads
  intro w
  rw [show w = bufs xs from hw]
  refine ⟨hr.fill, hflat, hr.size_eq, sizes_bufs xs hlt, fun sizes => ?_⟩
  obtain ⟨reads, hreads, hcat, heof⟩ := EncReader.reads_eq sizes { buf := some (bufs xs) }
  have hrest : ({ buf := some (bufs xs) } : EncReader).rest = (bufs xs).toWriter := by
    simp [EncReader.rest, Encbuf.toWriter]
  rw [hrest, hflat] at hcat heof
  exact ⟨reads, hreads, hcat, heof⟩

/-- A list of a list and a string, read by three bytes. -/
theorem outputs_agree_nested :
    (writeElems [.list [.list [], .str [0x61, 0x62]]] {}).toWriter.flatten
        = [0xC4, 0xC0, 0x82, 0x61, 0x62] ∧
      ∃ reads, EncReader.reads [3, 3]
          { buf := some (writeElems [.list [.list [], .str [0x61, 0x62]]] {}) } = some reads ∧
        (reads.map Prod.fst).flatten = [0xC4, 0xC0, 0x82, 0x61, 0x62] := by
  obtain ⟨-, hw, -, -, hr⟩ := outputs_agree [.list [.list [], .str [0x61, 0x62]]] (by decide)
  obtain ⟨reads, hreads, hcat, -⟩ := hr [3, 3]
  exact ⟨hw, reads, hreads, hcat⟩

end GoEthereum.Rlp
