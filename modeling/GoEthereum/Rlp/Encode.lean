/-
  The RLP encoder (`rlp/encode.go`).

  The writers of all types append to one `encbuf`: string data goes to `str`,
  and every list leaves a head in `lheads` that records where its encoded
  length has to be inserted; the length is known only when the list ends.
  `toBytes` merges the two.

  A buffer is what has been written so far, so buffers form a monoid
  (`Encbuf.append`), and a writer is determined by the buffer it appends
  (`Appends`).  `Encbuf.Renders w b` says that `w` merges to the bytes `b`;
  `Renders.append` and `Renders.list` are the two ways in which the writers
  build their output.
-/
import GoEthereum.Lib.BigEndian

namespace GoEthereum.Rlp

open BigEndian

/-- A Go byte slice. -/
abbrev Bytes := List UInt8

/-- The greatest value of a Go `int`, hence the greatest length of a slice. -/
def maxInt : ℕ := 2 ^ 63 - 1

/-! ## Heads -/

/-- `putint`: the big-endian bytes of a `uint64`, as few as possible. -/
def putint (i : ℕ) : Bytes :=
  if i < 2 ^ 8 then [.ofNat i]
  else if i < 2 ^ 16 then [.ofNat (i / 2 ^ 8), .ofNat i]
  else if i < 2 ^ 24 then [.ofNat (i / 2 ^ 16), .ofNat (i / 2 ^ 8), .ofNat i]
  else if i < 2 ^ 32 then
    [.ofNat (i / 2 ^ 24), .ofNat (i / 2 ^ 16), .ofNat (i / 2 ^ 8), .ofNat i]
  else if i < 2 ^ 40 then
    [.ofNat (i / 2 ^ 32), .ofNat (i / 2 ^ 24), .ofNat (i / 2 ^ 16), .ofNat (i / 2 ^ 8), .ofNat i]
  else if i < 2 ^ 48 then
    [.ofNat (i / 2 ^ 40), .ofNat (i / 2 ^ 32), .ofNat (i / 2 ^ 24), .ofNat (i / 2 ^ 16),
      .ofNat (i / 2 ^ 8), .ofNat i]
  else if i < 2 ^ 56 then
    [.ofNat (i / 2 ^ 48), .ofNat (i / 2 ^ 40), .ofNat (i / 2 ^ 32), .ofNat (i / 2 ^ 24),
      .ofNat (i / 2 ^ 16), .ofNat (i / 2 ^ 8), .ofNat i]
  else
    [.ofNat (i / 2 ^ 56), .ofNat (i / 2 ^ 48), .ofNat (i / 2 ^ 40), .ofNat (i / 2 ^ 32),
      .ofNat (i / 2 ^ 24), .ofNat (i / 2 ^ 16), .ofNat (i / 2 ^ 8), .ofNat i]

/-- The loop of `intsize`: `size` grows until `i` is shifted out. -/
def intsizeLoop : ℕ → ℕ → ℕ → ℕ
  | 0, size, _ => size
  | n + 1, size, i => if i / 2 ^ 8 = 0 then size else intsizeLoop n (size + 1) (i / 2 ^ 8)

/-- `intsize`: the number of bytes needed for a `uint64`, which is shifted out
    after at most eight rounds. -/
def intsize (i : ℕ) : ℕ := intsizeLoop 8 1 i

/-- `headsize`: the size of the head of a value with `size` bytes of content. -/
def headsize (size : ℕ) : ℕ := if size < 56 then 1 else 1 + intsize size

/-- `puthead`: the head of a string or a list with `size` bytes of content. -/
def puthead (smalltag largetag : UInt8) (size : ℕ) : Bytes :=
  if size < 56 then [smalltag + .ofNat size]
  else (largetag + .ofNat (putint size).length) :: putint size

theorem byteLen_eq {k i : ℕ} (h₁ : 256 ^ k ≤ i) (h₂ : i < 256 ^ (k + 1)) : byteLen i = k + 1 := by
  rw [byteLen, Nat.log_eq_of_pow_le_of_lt_pow h₁ h₂]

theorem putint_eq {i : ℕ} (h : i < 2 ^ 64) : putint i = toBE (byteLen i) i := by
  have key : ∀ k, (k = 0 ∨ 256 ^ k ≤ i) → i < 256 ^ (k + 1) → toBE (byteLen i) i = toBE (k + 1) i := by
    intro k h₁ h₂
    rcases h₁ with rfl | h₁
    · rw [Nat.le_antisymm (byteLen_le (by omega) h₂) (byteLen_pos i)]
    · rw [byteLen_eq h₁ h₂]
  unfold putint
  split_ifs
  · rw [key 0 (.inl rfl) (by omega)]; simp [toBE]
  · rw [key 1 (.inr (by omega)) (by omega)]; simp [toBE]
  · rw [key 2 (.inr (by omega)) (by omega)]; simp [toBE]
  · rw [key 3 (.inr (by omega)) (by omega)]; simp [toBE]
  · rw [key 4 (.inr (by omega)) (by omega)]; simp [toBE]
  · rw [key 5 (.inr (by omega)) (by omega)]; simp [toBE]
  · rw [key 6 (.inr (by omega)) (by omega)]; simp [toBE]
  · rw [key 7 (.inr (by omega)) (by omega)]; simp [toBE]

theorem length_putint {i : ℕ} (h : i < 2 ^ 64) : (putint i).length = byteLen i := by
  rw [putint_eq h, length_toBE]

theorem intsizeLoop_eq : ∀ n size i : ℕ, i < 256 ^ n →
    intsizeLoop n size i = size + (byteLen i - 1)
  | 0, size, i, h => by
    have : i = 0 := by simpa using h
    subst this; simp [intsizeLoop, byteLen]
  | n + 1, size, i, h => by
    have hdiv : i / 2 ^ 8 < 256 ^ n := by
      rw [Nat.div_lt_iff_lt_mul (by norm_num)]; simpa [pow_succ] using h
    rw [intsizeLoop]
    split_ifs with h0
    · have : byteLen i ≤ 1 := byteLen_le (by omega) (by omega)
      omega
    · rw [intsizeLoop_eq n (size + 1) (i / 2 ^ 8) hdiv]
      have hlog : Nat.log 256 i = Nat.log 256 (i / 256) + 1 :=
        Nat.log_of_one_lt_of_le (by norm_num) (by omega)
      simp only [byteLen, hlog, show (2 : ℕ) ^ 8 = 256 by norm_num]
      omega

theorem intsize_eq {i : ℕ} (h : i < 2 ^ 64) : intsize i = byteLen i := by
  have := byteLen_pos i
  rw [intsize, intsizeLoop_eq 8 1 i (by omega)]; omega

theorem length_puthead {s l : UInt8} {size : ℕ} (h : size < 2 ^ 64) :
    (puthead s l size).length = headsize size := by
  unfold puthead headsize
  split_ifs
  · rfl
  · rw [List.length_cons, length_putint h, intsize_eq h, Nat.add_comm]

theorem headsize_pos (size : ℕ) : 0 < headsize size := by unfold headsize; split_ifs <;> omega

theorem headsize_le {size : ℕ} (h : size < 2 ^ 64) : headsize size ≤ 9 := by
  unfold headsize
  split_ifs
  · omega
  · have : byteLen size ≤ 8 := byteLen_le (by omega) (by omega)
    rw [intsize_eq h]; omega

/-! ## The buffer -/

/-- `listhead`: where a list starts in the string data and how long it is. -/
structure Listhead where
  offset : ℕ
  size : ℕ

def Listhead.encode (h : Listhead) : Bytes := puthead 0xC0 0xF7 h.size

/-- `encbuf`; `lhsize` is the total size of the encoded list heads. -/
structure Encbuf where
  str : Bytes := []
  lheads : List Listhead := []
  lhsize : ℕ := 0

namespace Encbuf

/-- `Write`, and the direct appends to `w.str`. -/
def write (w : Encbuf) (b : Bytes) : Encbuf := { w with str := w.str ++ b }

def encodeStringHeader (w : Encbuf) (size : ℕ) : Encbuf := w.write (puthead 0x80 0xB7 size)

def encodeString (w : Encbuf) (b : Bytes) : Encbuf :=
  match b with
  | [x] => if x ≤ 0x7F then w.write [x] else (w.encodeStringHeader 1).write [x]
  | b => (w.encodeStringHeader b.length).write b

def size (w : Encbuf) : ℕ := w.str.length + w.lhsize

/-- `list`: opens a list.  The head is referred to by its index; until the list
    ends its `size` is the total head size at the start of the list. -/
def list (w : Encbuf) : ℕ × Encbuf :=
  (w.lheads.length, { w with lheads := w.lheads ++ [⟨w.str.length, w.lhsize⟩] })

def listEnd (w : Encbuf) (lh : ℕ) : Encbuf :=
  match w.lheads[lh]? with
  | none => w
  | some h =>
    let size := w.size - h.offset - h.size
    { w with
      lheads := w.lheads.set lh { h with size := size }
      lhsize := w.lhsize + if size < 56 then 1 else 1 + intsize size }

/-- The loop of `toBytes`, from position `strpos` of the string data. -/
def toBytesLoop (str : Bytes) : ℕ → List Listhead → Bytes
  | strpos, [] => str.drop strpos
  | strpos, h :: hs => (str.take h.offset).drop strpos ++ h.encode ++ toBytesLoop str h.offset hs

def toBytes (w : Encbuf) : Bytes := toBytesLoop w.str 0 w.lheads

/-- What `w` holds after `p` has been written to it. -/
def append (w p : Encbuf) : Encbuf :=
  ⟨w.str ++ p.str, w.lheads ++ p.lheads.map fun h => ⟨w.str.length + h.offset, h.size⟩,
    w.lhsize + p.lhsize⟩

theorem append_assoc (w p q : Encbuf) : (w.append p).append q = w.append (p.append q) := by
  simp [append, Nat.add_assoc]

theorem append_empty (w : Encbuf) : w.append {} = w := by
  simp [append]

theorem empty_append (p : Encbuf) : append {} p = p := by
  simp [append]

theorem size_append (w p : Encbuf) : (w.append p).size = w.size + p.size := by
  simp only [size, append, List.length_append]; omega

end Encbuf

/-- The writer `f` appends the buffer `p`, whatever has been written before. -/
def Appends (f : Encbuf → Encbuf) (p : Encbuf) : Prop := ∀ w : Encbuf, f w = w.append p

theorem Appends.comp {f g : Encbuf → Encbuf} {p q : Encbuf} (hf : Appends f p) (hg : Appends g q) :
    Appends (fun w => g (f w)) (p.append q) := by
  intro w
  show g (f w) = _
  rw [hf, hg, Encbuf.append_assoc]

/-- The buffer written by a list whose elements write `p`. -/
def Encbuf.wrap (p : Encbuf) : Encbuf :=
  ⟨p.str, ⟨0, p.size⟩ :: p.lheads, headsize p.size + p.lhsize⟩

theorem Appends.list {f : Encbuf → Encbuf} {p : Encbuf} (hf : Appends f p) :
    Appends (fun w => (f w.list.2).listEnd w.list.1) p.wrap := by
  intro w
  have hsize : w.str.length + p.str.length + (w.lhsize + p.lhsize) - w.str.length - w.lhsize
      = p.size := by simp only [Encbuf.size]; omega
  simp only [Encbuf.list, hf _, Encbuf.listEnd, Encbuf.append, Encbuf.wrap, List.append_assoc]
  rw [List.getElem?_append_right (le_refl _)]
  simp only [Nat.sub_self, List.cons_append, List.nil_append, List.getElem?_cons_zero, Encbuf.size,
    List.length_append, List.map_cons, Nat.add_zero]
  simp only [Encbuf.size] at hsize
  rw [hsize, List.set_append_right _ _ (le_refl _)]
  simp only [Nat.sub_self, List.set_cons_zero, headsize]
  congr 1
  omega

/-! ## What a buffer renders to -/

/-- The offsets of the heads do not decrease and lie in the string data. -/
def HeadsIn (n : ℕ) : ℕ → List Listhead → Prop
  | strpos, [] => strpos ≤ n
  | strpos, h :: hs => strpos ≤ h.offset ∧ h.offset ≤ n ∧ HeadsIn n h.offset hs

namespace Encbuf

theorem toBytesLoop_append (s t : Bytes) : ∀ (strpos : ℕ) (hs ks : List Listhead),
    HeadsIn s.length strpos hs →
    toBytesLoop (s ++ t) strpos (hs ++ ks.map fun h => ⟨s.length + h.offset, h.size⟩)
      = toBytesLoop s strpos hs ++ toBytesLoop t 0 ks
  | strpos, [], [], h => by
    simp only [HeadsIn] at h
    simp [toBytesLoop, List.drop_append_of_le_length h]
  | strpos, [], k :: ks, h => by
    simp only [HeadsIn] at h
    have shift : ∀ (pos : ℕ) (ks : List Listhead),
        toBytesLoop (s ++ t) (s.length + pos) (ks.map fun h => ⟨s.length + h.offset, h.size⟩)
          = toBytesLoop t pos ks := by
      intro pos ks
      induction ks generalizing pos with
      | nil => simp [toBytesLoop, List.drop_append]
      | cons k ks ih =>
        simp only [List.map_cons, toBytesLoop, ih, Listhead.encode]
        rw [List.take_append, List.drop_append]
        simp
    simp only [List.nil_append, List.map_cons, toBytesLoop, shift, Listhead.encode]
    rw [List.take_append, List.take_of_length_le (by omega), List.drop_append_of_le_length h]
    simp
  | strpos, h :: hs, ks, hh => by
    obtain ⟨h₁, h₂, h₃⟩ := hh
    simp only [List.cons_append, toBytesLoop, toBytesLoop_append s t h.offset hs ks h₃,
      List.append_assoc]
    rw [List.take_append_of_le_length h₂]

/-- The buffer is well formed, its `size` is the length of what it renders to,
    and it renders to `b`. -/
structure Renders (w : Encbuf) (b : Bytes) : Prop where
  heads : HeadsIn w.str.length 0 w.lheads
  size_eq : w.size = b.length
  toBytes_eq : w.toBytes = b

end Encbuf

theorem HeadsIn.append {m n : ℕ} : ∀ {strpos : ℕ} {hs ks : List Listhead}, HeadsIn m strpos hs →
    HeadsIn n 0 ks → HeadsIn (m + n) strpos (hs ++ ks.map fun h => ⟨m + h.offset, h.size⟩)
  | strpos, [], [], hh, _ => by simp only [HeadsIn] at hh ⊢; simp [HeadsIn]; omega
  | strpos, [], k :: ks, hh, ⟨k₁, k₂, k₃⟩ => by
    have shift : ∀ {pos : ℕ} {ks : List Listhead}, HeadsIn n pos ks →
        HeadsIn (m + n) (m + pos) (ks.map fun h => ⟨m + h.offset, h.size⟩) := by
      intro pos ks hk
      induction ks generalizing pos with
      | nil => simp only [HeadsIn, List.map_nil] at hk ⊢; omega
      | cons k ks ih =>
        obtain ⟨k₁, k₂, k₃⟩ := hk
        exact ⟨Nat.add_le_add_left k₁ m, Nat.add_le_add_left k₂ m, ih k₃⟩
    simp only [HeadsIn] at hh
    exact ⟨Nat.le_trans hh (Nat.le_add_right _ _), Nat.add_le_add_left k₂ m, shift k₃⟩
  | _, h :: hs, ks, ⟨h₁, h₂, h₃⟩, hk => ⟨h₁, by omega, h₃.append hk⟩

namespace Encbuf

theorem Renders.append {w p : Encbuf} {a b : Bytes} (hw : w.Renders a) (hp : p.Renders b) :
    (w.append p).Renders (a ++ b) where
  heads := by
    simp only [Encbuf.append, List.length_append]
    exact hw.heads.append hp.heads
  size_eq := by rw [size_append, hw.size_eq, hp.size_eq, List.length_append]
  toBytes_eq := by
    have h := toBytesLoop_append w.str p.str 0 w.lheads p.lheads hw.heads
    rw [← hw.toBytes_eq, ← hp.toBytes_eq]
    exact h

theorem renders_write (b : Bytes) : Renders ⟨b, [], 0⟩ b :=
  ⟨Nat.zero_le _, by simp [size], by simp [toBytes, toBytesLoop]⟩

theorem Renders.list {p : Encbuf} {b : Bytes} (hp : p.Renders b) (hb : b.length < 2 ^ 64) :
    p.wrap.Renders (puthead 0xC0 0xF7 b.length ++ b) where
  heads := ⟨le_refl _, Nat.zero_le _, hp.heads⟩
  size_eq := by
    have h := hp.size_eq
    simp only [size, wrap, List.length_append, length_puthead hb] at h ⊢
    rw [h]; omega
  toBytes_eq := by
    rw [← hp.toBytes_eq]
    simp only [toBytes, wrap, toBytesLoop, Listhead.encode, hp.size_eq, ← hp.toBytes_eq]
    simp

end Encbuf

/-! ## Strings -/

/-- What `encodeString` writes: a byte up to `0x7F` stands for itself. -/
def encString (b : Bytes) : Bytes :=
  match b with
  | [x] => if x ≤ 0x7F then [x] else puthead 0x80 0xB7 1 ++ [x]
  | b => puthead 0x80 0xB7 b.length ++ b

theorem appends_encodeString (b : Bytes) :
    Appends (fun w => w.encodeString b) ⟨encString b, [], 0⟩ := by
  intro w
  unfold Encbuf.encodeString encString
  split
  · split_ifs <;> simp [Encbuf.encodeStringHeader, Encbuf.write, Encbuf.append]
  · simp [Encbuf.encodeStringHeader, Encbuf.write, Encbuf.append]

theorem encString_ne_nil (b : Bytes) : encString b ≠ [] := by
  unfold encString
  split
  · split_ifs <;> simp
  · unfold puthead; split_ifs <;> simp

theorem length_encString_le {b : Bytes} (h : b.length < 2 ^ 64) :
    (encString b).length ≤ headsize b.length + b.length := by
  have hpos := headsize_pos b.length
  unfold encString
  split
  · split_ifs
    · simp
    · rw [List.length_append, length_puthead (by norm_num)]
      rfl
  · rw [List.length_append, length_puthead h]

theorem encString_of_head {b : Bytes} (h : ∀ x, b = [x] → ¬ x ≤ 0x7F) :
    encString b = puthead 0x80 0xB7 b.length ++ b := by
  unfold encString
  split
  · rw [if_neg (h _ rfl)]; rfl
  · rfl

/-- A list with content `b`. -/
def encList (b : Bytes) : Bytes := puthead 0xC0 0xF7 b.length ++ b

theorem length_encList {b : Bytes} (hb : b.length < 2 ^ 64) :
    (encList b).length = headsize b.length + b.length := by
  rw [encList, List.length_append, length_puthead hb]

theorem length_lt_encList (b : Bytes) : b.length < (encList b).length := by
  unfold encList puthead; split_ifs <;> simp

theorem encList_ne_nil (b : Bytes) : encList b ≠ [] :=
  List.ne_nil_of_length_pos (Nat.zero_lt_of_lt (length_lt_encList b))

theorem puthead_small {s l : UInt8} {size : ℕ} (h : size < 56) :
    puthead s l size = [s + .ofNat size] := by rw [puthead, if_pos h]

theorem puthead_large {s l : UInt8} {size : ℕ} (h : 56 ≤ size) (h' : size < 2 ^ 64) :
    puthead s l size = (l + .ofNat (byteLen size)) :: toBE (byteLen size) size := by
  rw [puthead, if_neg (by omega), length_putint h', putint_eq h']

theorem byteLen_bounds {size : ℕ} (h : size < 2 ^ 64) : 1 ≤ byteLen size ∧ byteLen size ≤ 8 :=
  ⟨byteLen_pos size, byteLen_le (by omega) (by omega)⟩

end GoEthereum.Rlp
