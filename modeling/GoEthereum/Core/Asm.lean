/-
  The assembler of `core/asm`.

  `Feed` counts the code that each token will become, and so finds the positions of the labels.
  `Compile` goes over the tokens a second time and emits the code.  `Line` is what one call of
  `compileLine` reads and emits.  The two passes agree on all lines but those that push a label
  or jump to a string (`slack`).  A panic is `none`.
-/
import Mathlib.Logic.Function.Basic
import GoEthereum.Vm.JumpDests

namespace GoEthereum.Core.Asm

open BigEndian

/-- The bytes of a string. -/
abbrev Text := List UInt8

inductive TokenType where
  | eof
  | lineStart
  | lineEnd
  | invalidStatement
  | element
  | label
  | labelDef
  | number
  | stringValue
deriving DecidableEq

def TokenType.string : TokenType → String
  | .eof => "EOF"
  | .lineStart => "new line"
  | .lineEnd => "end of line"
  | .invalidStatement => "invalid statement"
  | .element => "element"
  | .label => "label"
  | .labelDef => "label definition"
  | .number => "number"
  | .stringValue => "string"

structure Token where
  typ : TokenType
  lineno : ℕ
  text : Text

/-- What the compiler takes from other packages: the upper case of a string, the bytes of the
    number that `MustParseBig256` reads, and the opcode with a name. -/
structure Packages where
  toUpper : Text → Text
  mustParseBig256 : Text → Option (List UInt8)
  stringToOp : Text → UInt8

/-- The positions of the labels. -/
abbrev Labels := Text → Option ℕ

variable (P : Packages)

/-- The bytes of `PUSH`. -/
def pushText : Text := [0x50, 0x55, 0x53, 0x48]

/-- The bytes of `JUMP`. -/
def jumpText : Text := [0x4a, 0x55, 0x4d, 0x50]

def Packages.isPush (op : Text) : Bool := P.toUpper op = pushText

/-- The other jump is `JUMPI`. -/
def Packages.isJump (op : Text) : Bool :=
  P.toUpper op = jumpText ++ [0x49] || P.toUpper op = jumpText

def Packages.toBinary (text : Text) : UInt8 := P.stringToOp (P.toUpper text)

/-- The bytes of a number, at least one. -/
def Packages.numBytes (text : Text) : Option (List UInt8) :=
  (P.mustParseBig256 text).map fun num => if num = [] then [0] else num

/-! ## The first pass -/

/-- One token of `Feed`, on the program counter and the labels.  Strings have their quotes:
    with a shorter text, `Compile` panics. -/
def feedToken (s : ℕ × Labels) (i : Token) : Option (ℕ × Labels) :=
  match i.typ with
  | .number => (P.numBytes i.text).map fun num => (s.1 + num.length, s.2)
  | .stringValue => some (s.1 + (i.text.length - 2), s.2)
  | .element => some (s.1 + 1, s.2)
  | .labelDef => some (s.1 + 1, Function.update s.2 i.text (some s.1))
  | .label => some (s.1 + 5, s.2)
  | _ => some s

def feed (tokens : List Token) : Option (ℕ × Labels) :=
  tokens.foldlM (feedToken P) (0, fun _ => none)

/-! ## The second pass -/

/-- A value of the binary.  `Compile` prints opcodes and byte slices, and no strings. -/
inductive Bin where
  | op (code : UInt8)
  | bytes (value : List UInt8)
  | str (value : Text)

def Bin.emit : Bin → List UInt8
  | .op code => [code]
  | .bytes value => value
  | .str _ => []

inductive CompileErr where
  | unexpected (lineno : ℕ) (got : Text) (want : String)
  | tooLong (lineno : ℕ)

/-- The bytes of a number without leading zeros. -/
def bigBytes (n : ℕ) : List UInt8 := if n = 0 then [] else toBE (byteLen n) n

def jumpdest : UInt8 := 0x5b

def push4 : UInt8 := 0x63

/-- The operand of a jump to a label, which has four bytes.  More do not fit the slice. -/
def jumpOperand (n : ℕ) : Option (List UInt8) :=
  let pos := bigBytes n
  if 4 < pos.length then none else some (List.replicate (4 - pos.length) 0 ++ pos)

/-- The operand of a push of a label, to the front of which its bytes are copied. -/
def pushOperand (n : ℕ) : List UInt8 :=
  let pos := bigBytes n
  pos.take 4 ++ List.replicate (4 - pos.length) 0

/-- What one step leaves: the values it emits, an error, and the tokens that are left. -/
abbrev Result := List Bin × Option CompileErr × List Token

/-- A jump with its operand. -/
def compileJump (labels : Labels) (element rvalue : Token) :
    Option (List Bin × Option CompileErr) :=
  match rvalue.typ with
  | .number => (P.numBytes rvalue.text).map fun num =>
      ([.bytes num, .op (P.toBinary element.text)], none)
  | .stringValue =>
    if rvalue.text.length < 3 then none
    else some ([.str ((rvalue.text.drop 1).take (rvalue.text.length - 3)),
      .op (P.toBinary element.text)], none)
  | .label => (jumpOperand ((labels rvalue.text).getD 0)).map fun pos =>
      ([.op push4, .bytes pos, .op (P.toBinary element.text)], none)
  | _ => some ([], some (.unexpected rvalue.lineno rvalue.text "number, string or label"))

/-- The value of a push. -/
def pushValue (labels : Labels) (rvalue : Token) : Option (Except CompileErr (List UInt8)) :=
  match rvalue.typ with
  | .number => (P.numBytes rvalue.text).map .ok
  | .stringValue =>
    if rvalue.text.length < 2 then none
    else some (.ok ((rvalue.text.drop 1).take (rvalue.text.length - 2)))
  | .label => some (.ok (pushOperand ((labels rvalue.text).getD 0)))
  | _ => some (.error (.unexpected rvalue.lineno rvalue.text "number, string or label"))

/-- A push with its operand. -/
def compilePush (labels : Labels) (rvalue : Token) : Option (List Bin × Option CompileErr) :=
  (pushValue P labels rvalue).map fun
    | .error err => ([], some err)
    | .ok value =>
      if 32 < value.length then ([], some (.tooLong rvalue.lineno))
      else ([.op (UInt8.ofNat (0x60 - 1 + value.length)), .bytes value], none)

/-- Reads an operand. -/
def operand (f : Token → Option (List Bin × Option CompileErr)) : List Token → Option Result
  | [] => none
  | rvalue :: rest => (f rvalue).map fun (bin, err) => (bin, err, rest)

def compileElement (labels : Labels) (element : Token) (rest : List Token) : Option Result :=
  if P.isJump element.text then operand (compileJump P labels element) rest
  else if P.isPush element.text then operand (compilePush P labels) rest
  else some ([.op (P.toBinary element.text)], none, rest)

/-- The end of a line. -/
def compileEnd (bin : List Bin) : List Token → Option Result
  | [] => none
  | n :: rest =>
    if n.typ = .lineEnd then some (bin, none, rest)
    else some (bin, some (.unexpected n.lineno n.text TokenType.lineEnd.string), rest)

def compileValue (labels : Labels) : List Token → Option Result
  | [] => none
  | lvalue :: rest =>
    match lvalue.typ with
    | .eof | .lineEnd => some ([], none, rest)
    | .element => do
      let (bin, err, rest) ← compileElement P labels lvalue rest
      if err.isSome then some (bin, err, rest) else compileEnd bin rest
    | .labelDef => compileEnd [.op jumpdest] rest
    | _ => some ([], some (.unexpected lvalue.lineno lvalue.text
        (TokenType.labelDef.string ++ " or " ++ TokenType.element.string)), rest)

def compileLine (labels : Labels) : List Token → Option Result
  | [] => none
  | n :: rest =>
    if n.typ ≠ .lineStart then
      some ([], some (.unexpected n.lineno n.typ.string.toUTF8.toList TokenType.lineStart.string),
        rest)
    else compileValue P labels rest

variable {P} {labels : Labels} {toks rest line : List Token} {bin : List Bin}
  {err : Option CompileErr} {element : Token}

theorem operand_ok {f : Token → Option (List Bin × Option CompileErr)}
    (h : operand f toks = some (bin, err, rest)) :
    ∃ r, toks = r :: rest ∧ f r = some (bin, err) := by
  cases toks with
  | nil => cases h
  | cons r toks =>
    obtain ⟨⟨b, e⟩, hf, heq⟩ := Option.map_eq_some_iff.mp h
    cases heq
    exact ⟨r, rfl, hf⟩

theorem compileElement_length (h : compileElement P labels element toks = some (bin, err, rest)) :
    rest.length ≤ toks.length := by
  rw [compileElement] at h
  split_ifs at h
  · obtain ⟨r, rfl, -⟩ := operand_ok h
    exact Nat.le_succ _
  · obtain ⟨r, rfl, -⟩ := operand_ok h
    exact Nat.le_succ _
  · cases h
    exact le_rfl

theorem compileEnd_length {bin' : List Bin} (h : compileEnd bin toks = some (bin', err, rest)) :
    rest.length < toks.length := by
  cases toks with
  | nil => cases h
  | cons l toks =>
    rw [compileEnd] at h
    split at h <;> cases h <;> exact Nat.lt_succ_self _

theorem compileLine_length (h : compileLine P labels toks = some (bin, err, rest)) :
    rest.length < toks.length := by
  rcases toks with _ | ⟨n, toks⟩
  · cases h
  · rw [compileLine] at h
    split at h
    · cases h
      exact Nat.lt_succ_self _
    · rcases toks with _ | ⟨lvalue, toks⟩
      · cases h
      · simp only [List.length_cons]
        cases hv : lvalue.typ <;> simp only [compileValue, hv] at h
        case element =>
          obtain ⟨⟨b, e, toks'⟩, helem, h⟩ := Option.bind_eq_some_iff.mp h
          have hle := compileElement_length helem
          dsimp only at h
          split at h
          · cases h
            omega
          · have := compileEnd_length h
            omega
        case labelDef =>
          have := compileEnd_length h
          omega
        all_goals
          cases h
          omega

/-- What one call of `compileLine` reads and emits. -/
structure Line where
  toks : List Token
  bin : List Bin
  err : Option CompileErr

def Line.emit (l : Line) : List UInt8 := l.bin.flatMap Bin.emit

/-- The calls of `compileLine` in `Compile`. -/
def compileLines (P : Packages) (labels : Labels) (toks : List Token) : Option (List Line) :=
  if toks = [] then some []
  else
    match _h : compileLine P labels toks with
    | none => none
    | some (bin, err, rest) =>
      (compileLines P labels rest).map fun lines =>
        ⟨toks.take (toks.length - rest.length), bin, err⟩ :: lines
termination_by toks.length
decreasing_by exact compileLine_length _h

theorem compileLines_nil (P : Packages) (labels : Labels) : compileLines P labels [] = some [] := by
  rw [compileLines, if_pos rfl]

theorem compileLines_cons (h : compileLine P labels toks = some (bin, err, rest)) :
    compileLines P labels toks = (compileLines P labels rest).map fun lines =>
      ⟨toks.take (toks.length - rest.length), bin, err⟩ :: lines := by
  have hne : toks ≠ [] := by
    rintro rfl
    cases h
  rw [compileLines, if_neg hne]
  split
  · rename_i hnone
    rw [hnone] at h
    cases h
  · rename_i hsome
    rw [hsome] at h
    cases h
    rfl

/-- `Compile`: the code, which the source returns in hexadecimal, and the errors. -/
def compile (P : Packages) (labels : Labels) (toks : List Token) :
    Option (List UInt8 × List CompileErr) :=
  (compileLines P labels toks).map fun lines => (lines.flatMap Line.emit, lines.filterMap Line.err)

/-! ## Lines without errors -/

/-- A token sequence without errors, and what it is compiled to. -/
inductive Compiled (P : Packages) (labels : Labels) : List Token → List Bin → Prop
  | blank {n l : Token} : n.typ = .lineStart → l.typ = .eof ∨ l.typ = .lineEnd →
      Compiled P labels [n, l] []
  | labelDef {n d l : Token} : n.typ = .lineStart → d.typ = .labelDef → l.typ = .lineEnd →
      Compiled P labels [n, d, l] [.op jumpdest]
  | plain {n e l : Token} : n.typ = .lineStart → e.typ = .element → l.typ = .lineEnd →
      ¬P.isJump e.text → ¬P.isPush e.text → Compiled P labels [n, e, l] [.op (P.toBinary e.text)]
  | jump {n e r l : Token} {bin : List Bin} : n.typ = .lineStart → e.typ = .element →
      l.typ = .lineEnd → P.isJump e.text → compileJump P labels e r = some (bin, none) →
      Compiled P labels [n, e, r, l] bin
  | push {n e r l : Token} {bin : List Bin} : n.typ = .lineStart → e.typ = .element →
      l.typ = .lineEnd → ¬P.isJump e.text → P.isPush e.text →
      compilePush P labels r = some (bin, none) → Compiled P labels [n, e, r, l] bin

theorem compileEnd_ok {bin' : List Bin} (h : compileEnd bin toks = some (bin', none, rest)) :
    bin' = bin ∧ ∃ l, l.typ = .lineEnd ∧ toks = l :: rest := by
  cases toks with
  | nil => cases h
  | cons l toks =>
    rw [compileEnd] at h
    split at h
    · rename_i hl
      cases h
      exact ⟨rfl, l, hl, rfl⟩
    · cases h

theorem compileLine_ok (h : compileLine P labels toks = some (bin, none, rest)) :
    ∃ line, toks = line ++ rest ∧ Compiled P labels line bin := by
  rcases toks with _ | ⟨n, _ | ⟨lvalue, toks⟩⟩
  · cases h
  · rw [compileLine] at h
    split at h <;> cases h
  · rw [compileLine] at h
    split at h
    · cases h
    · rename_i hn
      rw [ne_eq, not_not] at hn
      cases hv : lvalue.typ <;> simp only [compileValue, hv] at h
      case eof =>
        cases h
        exact ⟨[n, lvalue], rfl, .blank hn (.inl hv)⟩
      case lineEnd =>
        cases h
        exact ⟨[n, lvalue], rfl, .blank hn (.inr hv)⟩
      case labelDef =>
        obtain ⟨rfl, l, hl, rfl⟩ := compileEnd_ok h
        exact ⟨[n, lvalue, l], rfl, .labelDef hn hv hl⟩
      case element =>
        obtain ⟨⟨b, e, toks'⟩, helem, h⟩ := Option.bind_eq_some_iff.mp h
        dsimp only at h
        split at h
        · rename_i he
          cases h
          cases he
        · rename_i he
          obtain ⟨rfl, l, hl, rfl⟩ := compileEnd_ok h
          rw [Option.not_isSome_iff_eq_none] at he
          subst he
          rw [compileElement] at helem
          by_cases hj : P.isJump lvalue.text
          · rw [if_pos hj] at helem
            obtain ⟨r, rfl, hr⟩ := operand_ok helem
            exact ⟨[n, lvalue, r, l], rfl, .jump hn hv hl hj hr⟩
          · rw [if_neg hj] at helem
            by_cases hp : P.isPush lvalue.text
            · rw [if_pos hp] at helem
              obtain ⟨r, rfl, hr⟩ := operand_ok helem
              exact ⟨[n, lvalue, r, l], rfl, .push hn hv hl hj hp hr⟩
            · rw [if_neg hp] at helem
              cases helem
              exact ⟨[n, lvalue, l], rfl, .plain hn hv hl hj hp⟩
      all_goals cases h

theorem compileLines_ok {lines : List Line} (h : compileLines P labels toks = some lines)
    (herr : lines.filterMap Line.err = []) : toks = lines.flatMap Line.toks ∧
      ∀ l ∈ lines, Compiled P labels l.toks l.bin := by
  obtain ⟨n, hn⟩ : ∃ n, toks.length = n := ⟨_, rfl⟩
  induction n using Nat.strongRecOn generalizing toks lines with
  | ind n ih =>
    rw [compileLines] at h
    split at h
    · rename_i hnil
      cases h
      exact ⟨hnil, by simp⟩
    · split at h
      · cases h
      · rename_i bin err rest hline
        obtain ⟨lines, hrest, rfl⟩ := Option.map_eq_some_iff.mp h
        obtain ⟨rfl, herr⟩ : err = none ∧ lines.filterMap Line.err = [] := by
          cases err with
          | none => exact ⟨rfl, by simpa using herr⟩
          | some e => simp at herr
        obtain ⟨htoks, hlines⟩ := ih _ (hn ▸ compileLine_length hline) hrest herr rfl
        obtain ⟨line, rfl, hcompiled⟩ := compileLine_ok hline
        have htake : (line ++ rest).take ((line ++ rest).length - rest.length) = line := by
          rw [List.length_append, Nat.add_sub_cancel, List.take_left]
        rw [htake]
        refine ⟨by rw [List.flatMap_cons, ← htoks], fun l hl => ?_⟩
        rcases List.mem_cons.mp hl with rfl | hl
        · exact hcompiled
        · exact hlines l hl

/-! ## Positions -/

/-- The label that a line defines. -/
def Line.defines (l : Line) : Option Text :=
  match l.toks with
  | [_, d, _] => if d.typ = .labelDef then some d.text else none
  | _ => none

/-- The label that a line refers to. -/
def Line.refers (l : Line) : Option Text :=
  match l.toks with
  | [_, _, r, _] => if r.typ = .label then some r.text else none
  | _ => none

/-- The line is a push. -/
def Line.isPush (P : Packages) (l : Line) : Bool :=
  match l.toks with
  | [_, e, _, _] => !P.isJump e.text
  | _ => false

/-- What `Feed` counts for a line beyond the code that it becomes: one byte for a push of a
    label, and the string of a jump, which is not printed. -/
def slack (P : Packages) (l : Line) : ℕ :=
  match l.toks with
  | [_, e, r, _] =>
    if P.isJump e.text then if r.typ = .stringValue then r.text.length - 2 else 0
    else if r.typ = .label then 1 else 0
  | _ => 0

/-- The position of the last definition of a label, from the sizes of the lines. -/
def dest (size : Line → ℕ) : ℕ → List Line → Text → Option ℕ
  | _, [], _ => none
  | pos, l :: lines, x =>
    (dest size (pos + size l) lines x).or (if l.defines = some x then some pos else none)

/-- The lines with the positions of their code. -/
def offsets : ℕ → List Line → List (ℕ × Line)
  | _, [] => []
  | pos, l :: lines => (pos, l) :: offsets (pos + l.emit.length) lines

/-- What the push instruction at a position of the code puts on the stack.  Missing bytes at the
    end of the code are zero. -/
def pushed (code : List UInt8) (pc : ℕ) : Option ℕ :=
  let n := Vm.pushSize (code.getD pc 0)
  let data := (code.drop (pc + 1)).take n
  if n = 0 then none else some (ofBE (data ++ List.replicate (n - data.length) 0))

/-- Every label is where its `JUMPDEST` is, and every reference pushes that position. -/
def Resolved (labels : Labels) (lines : List Line) : Prop :=
  (∀ x, labels x = dest (·.emit.length) 0 lines x) ∧
    ∀ q l x d, (q, l) ∈ offsets 0 lines → l.refers = some x →
      dest (·.emit.length) 0 lines x = some d → pushed (lines.flatMap Line.emit) q = some d

/-- No line that the passes count differently is before a definition. -/
def Aligned (P : Packages) : List Line → Prop
  | [] => True
  | l :: lines => (slack P l ≠ 0 → ∀ m ∈ lines, m.defines = none) ∧ Aligned P lines

/-- The size of a line as `Feed` counts it. -/
def fed (P : Packages) (l : Line) : ℕ := l.emit.length + slack P l

/-- By the sizes of the tokens before them, the labels that are pushed have the position 0, or
    one of four bytes. -/
def PushesFit (P : Packages) (lines : List Line) : Prop :=
  ∀ l ∈ lines, l.isPush P → ∀ x d, l.refers = some x → dest (fed P) 0 lines x = some d →
    d = 0 ∨ 2 ^ 24 ≤ d ∧ d < 2 ^ 32

/-! ## The operands -/

theorem ofBE_replicate (k : ℕ) (bs : List UInt8) : ofBE (List.replicate k 0 ++ bs) = ofBE bs := by
  induction k with
  | zero => rfl
  | succ k ih => simp [List.replicate_succ, ofBE, ih]

theorem ofBE_append_replicate (bs : List UInt8) (k : ℕ) :
    ofBE (bs ++ List.replicate k 0) = ofBE bs * 256 ^ k := by
  induction bs with
  | nil => simpa [ofBE] using ofBE_replicate k []
  | cons b bs ih =>
    simp only [List.cons_append, ofBE, ih, List.length_append, List.length_replicate, pow_add]
    ring

theorem ofBE_bigBytes (n : ℕ) : ofBE (bigBytes n) = n := by
  rw [bigBytes]
  split_ifs with hn
  · rw [hn]
    rfl
  · exact ofBE_toBE_byteLen n

theorem jumpOperand_ok {n : ℕ} {pos : List UInt8} (h : jumpOperand n = some pos) :
    pos.length = 4 ∧ ofBE pos = n := by
  rw [jumpOperand] at h
  split_ifs at h with hlen
  cases h
  rw [ofBE_replicate, ofBE_bigBytes, List.length_append, List.length_replicate]
  exact ⟨by omega, rfl⟩

theorem length_pushOperand (n : ℕ) : (pushOperand n).length = 4 := by
  simp only [pushOperand, List.length_append, List.length_take, List.length_replicate]
  omega

theorem ofBE_pushOperand (n : ℕ) : ofBE (pushOperand n) = n ↔ n = 0 ∨ 2 ^ 24 ≤ n ∧ n < 2 ^ 32 := by
  rcases Nat.eq_zero_or_pos n with rfl | hpos
  · exact iff_of_true rfl (.inl rfl)
  have hlen : (bigBytes n).length = byteLen n := by rw [bigBytes, if_neg hpos.ne', length_toBE]
  have hlow : 256 ^ (byteLen n - 1) ≤ n := Nat.pow_log_le_self 256 hpos.ne'
  have hhigh : n < 256 ^ byteLen n := lt_pow_byteLen n
  rw [or_iff_right hpos.ne']
  rcases Nat.lt_or_ge 4 (byteLen n) with hlong | hshort
  · -- only four bytes are copied, and the number has more
    have hlt := ofBE_lt (pushOperand n)
    have hge : 256 ^ 4 ≤ 256 ^ (byteLen n - 1) := Nat.pow_le_pow_right (by decide) (by omega)
    rw [length_pushOperand] at hlt
    exact iff_of_false (by omega) (by omega)
  · rw [pushOperand, List.take_of_length_le (by omega), ofBE_append_replicate, ofBE_bigBytes, hlen]
    constructor
    · intro heq
      have hone : 256 ^ (4 - byteLen n) = 1 := Nat.eq_of_mul_eq_mul_left hpos (by omega)
      have hfour : byteLen n = 4 := by
        by_contra hne
        exact absurd hone (Nat.one_lt_pow (by omega) (by decide)).ne'
      rw [hfour] at hlow hhigh
      exact ⟨hlow, hhigh⟩
    · rintro ⟨hge, -⟩
      have hfour : byteLen n = 4 := by
        by_contra hne
        have : 256 ^ byteLen n ≤ 256 ^ 3 := Nat.pow_le_pow_right (by decide) (by omega)
        omega
      rw [hfour, Nat.sub_self, pow_zero, mul_one]

/-! ## The passes -/

theorem compilePush_ok {r : Token} (h : compilePush P labels r = some (bin, none)) :
    ∃ value, pushValue P labels r = some (.ok value) ∧
      bin = [.op (UInt8.ofNat (0x60 - 1 + value.length)), .bytes value] := by
  obtain ⟨v, hv, heq⟩ := Option.map_eq_some_iff.mp h
  cases v with
  | error e => cases heq
  | ok value =>
    dsimp only at heq
    split at heq
    · cases heq
    · cases heq
      exact ⟨value, hv, rfl⟩

theorem Compiled.feed {l : Line} {pc pc' : ℕ} {lab lab' : Labels}
    (hc : Compiled P labels l.toks l.bin)
    (h : l.toks.foldlM (feedToken P) (pc, lab) = some (pc', lab')) :
    pc' = pc + (l.emit.length + slack P l) ∧
      lab' = l.defines.elim lab fun x => Function.update lab x (some pc) := by
  obtain ⟨toks, bin, err⟩ := l
  dsimp only at hc h
  rw [Line.emit, slack, Line.defines]
  cases hc with
  | blank hn hl =>
    rcases hl with hl | hl <;> simp [List.foldlM, feedToken, hn, hl] at h <;> simp [← h]
  | labelDef hn hd hl =>
    simp [List.foldlM, feedToken, hn, hd, hl] at h
    simp [← h, hd, Bin.emit]
  | plain hn he hl =>
    simp [List.foldlM, feedToken, hn, he, hl] at h
    simp [← h, he, Bin.emit]
  | @jump n e r l _ hn he hl hj hr =>
    rw [compileJump] at hr
    split at hr
    · rename_i htyp
      obtain ⟨num, hnum, heq⟩ := Option.map_eq_some_iff.mp hr
      cases heq
      simp [List.foldlM, feedToken, hn, he, hl, htyp, hnum] at h
      simp [← h, hj, htyp, Bin.emit]
      omega
    · rename_i htyp
      split at hr
      · cases hr
      · cases hr
        simp [List.foldlM, feedToken, hn, he, hl, htyp] at h
        simp [← h, hj, htyp, Bin.emit]
        omega
    · rename_i htyp
      obtain ⟨pos, hpos, heq⟩ := Option.map_eq_some_iff.mp hr
      cases heq
      simp [List.foldlM, feedToken, hn, he, hl, htyp] at h
      simp [← h, hj, htyp, Bin.emit, (jumpOperand_ok hpos).1]
    · cases hr
  | @push n e r l _ hn he hl hj hp hr =>
    obtain ⟨value, hvalue, rfl⟩ := compilePush_ok hr
    rw [pushValue] at hvalue
    split at hvalue
    · rename_i htyp
      obtain ⟨num, hnum, heq⟩ := Option.map_eq_some_iff.mp hvalue
      cases heq
      simp [List.foldlM, feedToken, hn, he, hl, htyp, hnum] at h
      simp [← h, hj, htyp, Bin.emit]
      omega
    · rename_i htyp
      split at hvalue
      · cases hvalue
      · cases hvalue
        simp [List.foldlM, feedToken, hn, he, hl, htyp] at h
        simp [← h, hj, htyp, Bin.emit]
        omega
    · rename_i htyp
      cases hvalue
      simp [List.foldlM, feedToken, hn, he, hl, htyp] at h
      simp [← h, hj, htyp, Bin.emit, length_pushOperand]
    · cases hvalue

theorem feed_lines {lines : List Line} {pc pc' : ℕ} {lab lab' : Labels}
    (hc : ∀ l ∈ lines, Compiled P labels l.toks l.bin)
    (h : (lines.flatMap Line.toks).foldlM (feedToken P) (pc, lab) = some (pc', lab')) (x : Text) :
    lab' x = (dest (fed P) pc lines x).or (lab x) := by
  induction lines generalizing pc lab with
  | nil =>
    cases h
    rfl
  | cons l lines ih =>
    rw [List.flatMap_cons, List.foldlM_append] at h
    obtain ⟨⟨pc₁, lab₁⟩, hl, h⟩ := Option.bind_eq_some_iff.mp h
    obtain ⟨rfl, rfl⟩ := (hc l (.head _)).feed hl
    rw [ih (fun m hm => hc m (.tail _ hm)) h, dest, Option.or_assoc]
    congr 1
    cases hdef : l.defines with
    | none => rfl
    | some y =>
      rw [Option.elim_some, Function.update_apply]
      by_cases hxy : x = y
      · rw [if_pos hxy, if_pos (by rw [hxy])]
        rfl
      · rw [if_neg hxy, if_neg fun heq => hxy (Option.some.inj heq).symm]
        rfl

/-! ## Where they agree -/

theorem dest_eq_none_iff {size : Line → ℕ} {lines : List Line} {x : Text} {pos : ℕ} :
    dest size pos lines x = none ↔ ∀ m ∈ lines, m.defines ≠ some x := by
  induction lines generalizing pos with
  | nil => exact iff_of_true rfl (by simp)
  | cons l lines ih =>
    rw [dest, Option.or_eq_none_iff, ih, List.forall_mem_cons, and_comm]
    simp

theorem dest_mono {size size' : Line → ℕ} {lines : List Line} {x : Text} {pos pos' k d : ℕ}
    (hsize : ∀ l, size l ≤ size' l) (hpos : pos + k ≤ pos') (h : dest size pos lines x = some d) :
    ∃ d', dest size' pos' lines x = some d' ∧ d + k ≤ d' := by
  induction lines generalizing pos pos' with
  | nil => cases h
  | cons l lines ih =>
    rw [dest] at h ⊢
    cases hrest : dest size (pos + size l) lines x with
    | some d₁ =>
      rw [hrest] at h
      cases h
      have := hsize l
      obtain ⟨d', hd', hle⟩ := @ih (pos + size l) (pos' + size' l) (by omega) hrest
      exact ⟨d', by rw [hd']; rfl, hle⟩
    | none =>
      rw [hrest, Option.none_or] at h
      rw [dest_eq_none_iff.mpr (dest_eq_none_iff.mp hrest), Option.none_or]
      split_ifs at h ⊢
      cases h
      exact ⟨pos', rfl, hpos⟩

theorem aligned_of_defines_none {lines : List Line} (h : ∀ m ∈ lines, m.defines = none) :
    Aligned P lines := by
  induction lines with
  | nil => trivial
  | cons l lines ih =>
    have hlines := fun m hm => h m (.tail _ hm)
    exact ⟨fun _ => hlines, ih hlines⟩

/-- The positions of both passes are the same if and only if no line with slack is before a
    definition. -/
theorem dest_eq_iff {lines : List Line} (pos : ℕ) :
    (∀ x, dest (fed P) pos lines x = dest (·.emit.length) pos lines x) ↔ Aligned P lines := by
  induction lines generalizing pos with
  | nil => exact iff_of_true (fun _ => rfl) trivial
  | cons l lines ih =>
    by_cases hslack : slack P l = 0
    · have hsize : fed P l = l.emit.length := by rw [fed, hslack, Nat.add_zero]
      rw [Aligned, and_iff_right fun h => absurd hslack h, ← ih (pos + l.emit.length)]
      refine forall_congr' fun x => ?_
      simp only [dest, hsize]
      by_cases hnone : ∀ m ∈ lines, m.defines ≠ some x
      · simp only [dest_eq_none_iff.mpr hnone]
      · obtain ⟨d, hd⟩ := Option.ne_none_iff_exists'.mp (mt (@dest_eq_none_iff (fed P)
          lines x (pos + l.emit.length)).mp hnone)
        obtain ⟨d', hd'⟩ := Option.ne_none_iff_exists'.mp (mt (@dest_eq_none_iff (·.emit.length)
          lines x (pos + l.emit.length)).mp hnone)
        simp only [hd, hd', Option.some_or]
    · constructor
      · intro h
        have hnone : ∀ m ∈ lines, m.defines = none := by
          intro m hm
          by_contra hdef
          obtain ⟨x, hx⟩ := Option.ne_none_iff_exists'.mp hdef
          obtain ⟨d, hd⟩ := Option.ne_none_iff_exists'.mp (mt (@dest_eq_none_iff (·.emit.length)
            lines x (pos + l.emit.length)).mp fun h => h m hm hx)
          obtain ⟨d', hd', hle⟩ := @dest_mono (·.emit.length) (fed P) lines x _
            (pos + fed P l) (slack P l) d (fun l => Nat.le_add_right _ _)
            (by rw [fed]; omega) hd
          have heq := h x
          rw [dest, dest, hd, hd'] at heq
          have := Option.some.inj heq
          omega
        exact ⟨fun _ => hnone, aligned_of_defines_none hnone⟩
      · rintro ⟨hnone, -⟩ x
        have hx : ∀ m ∈ lines, m.defines ≠ some x := fun m hm h => by
          rw [hnone hslack m hm] at h
          cases h
        rw [dest, dest, dest_eq_none_iff.mpr hx, dest_eq_none_iff.mpr hx]

/-! ## References -/

theorem mem_offsets {lines : List Line} {pos q : ℕ} {l : Line} :
    (q, l) ∈ offsets pos lines ↔ ∃ before after, lines = before ++ l :: after ∧
      q = pos + (before.flatMap Line.emit).length := by
  induction lines generalizing pos with
  | nil => simp [offsets]
  | cons m lines ih =>
    rw [offsets, List.mem_cons, ih]
    constructor
    · rintro (heq | ⟨before, after, rfl, rfl⟩)
      · cases heq
        exact ⟨[], lines, rfl, rfl⟩
      · exact ⟨m :: before, after, rfl, by simp [Nat.add_assoc]⟩
    · rintro ⟨_ | ⟨m', before⟩, after, heq, rfl⟩
      · cases heq
        exact .inl rfl
      · cases heq
        exact .inr ⟨before, after, rfl, by simp [Nat.add_assoc]⟩

theorem pushed_eq {before operand after : List UInt8} (h : operand.length = 4) :
    pushed (before ++ (push4 :: (operand ++ after))) before.length = some (ofBE operand) := by
  have hop : (before ++ (push4 :: (operand ++ after))).getD before.length 0 = push4 := by simp
  have hdata : (before ++ (push4 :: (operand ++ after))).drop (before.length + 1) =
      operand ++ after := by simp
  have hsize : Vm.pushSize push4 = 4 := rfl
  rw [pushed, hop, hdata, hsize, ← h, List.take_left, Nat.sub_self, if_neg (by omega)]
  simp

theorem Compiled.refers {l : Line} {x : Text} (hc : Compiled P labels l.toks l.bin)
    (hx : l.refers = some x) : ∃ operand after, l.emit = push4 :: (operand ++ after) ∧
      operand.length = 4 ∧ (l.isPush P = false ∧ ofBE operand = (labels x).getD 0 ∨
        l.isPush P = true ∧ operand = pushOperand ((labels x).getD 0)) := by
  obtain ⟨toks, bin, err⟩ := l
  dsimp only at hc
  rw [Line.refers] at hx
  rw [Line.emit, Line.isPush]
  cases hc with
  | blank => cases hx
  | labelDef => cases hx
  | plain => cases hx
  | @jump n e r l _ hn he hl hj hr =>
    dsimp only at hx
    split_ifs at hx with htyp
    cases hx
    simp only [compileJump, htyp] at hr
    obtain ⟨pos, hpos, heq⟩ := Option.map_eq_some_iff.mp hr
    cases heq
    exact ⟨pos, [P.toBinary e.text], rfl, (jumpOperand_ok hpos).1, .inl ⟨by simp [hj],
      (jumpOperand_ok hpos).2⟩⟩
  | @push n e r l _ hn he hl hj hp hr =>
    dsimp only at hx
    split_ifs at hx with htyp
    cases hx
    obtain ⟨value, hvalue, rfl⟩ := compilePush_ok hr
    simp only [pushValue, htyp, Option.some.injEq, Except.ok.injEq] at hvalue
    subst hvalue
    refine ⟨pushOperand _, [], ?_, length_pushOperand _, .inr ⟨by simp [hj], rfl⟩⟩
    simp [Bin.emit, length_pushOperand, push4]

/-- **Label resolution.**  For tokens that are compiled without errors, the positions that the
    first pass records are those of the labels in the code and every reference pushes the
    position of its label, if and only if no push of a label and no jump to a string is before
    the definition of a label, and the labels that are pushed have the position 0 or one that
    takes four bytes. -/
theorem label_resolution {toks : List Token} {pc : ℕ} {labels : Labels} {code : List UInt8}
    (hfeed : feed P toks = some (pc, labels)) (hcompile : compile P labels toks = some (code, [])) :
    ∃ lines, compileLines P labels toks = some lines ∧ code = lines.flatMap Line.emit ∧
      (Resolved labels lines ↔ Aligned P lines ∧ PushesFit P lines) := by
  obtain ⟨lines, hlines, heq⟩ := Option.map_eq_some_iff.mp hcompile
  obtain ⟨rfl, herr⟩ := Prod.mk.inj heq
  obtain ⟨rfl, hc⟩ := compileLines_ok hlines herr
  have hlabels : ∀ x, labels x = dest (fed P) 0 lines x := fun x =>
    (feed_lines hc hfeed x).trans Option.or_none
  -- what the reference at a line pushes
  have hpushed : ∀ {q l x d}, (q, l) ∈ offsets 0 lines → l.refers = some x → labels x = some d →
      (pushed (lines.flatMap Line.emit) q = some d ↔
        (l.isPush P = true → d = 0 ∨ 2 ^ 24 ≤ d ∧ d < 2 ^ 32)) := by
    intro q l x d hq hx hd
    obtain ⟨before, after, rfl, rfl⟩ := mem_offsets.mp hq
    obtain ⟨operand, tail, hemit, hlen, hval⟩ := (hc l (by simp)).refers hx
    rw [List.flatMap_append, List.flatMap_cons, hemit, List.cons_append, List.append_assoc,
      Nat.zero_add, pushed_eq hlen, Option.some.injEq]
    rw [hd, Option.getD_some] at hval
    rcases hval with ⟨hjump, hval⟩ | ⟨hpush, rfl⟩
    · exact iff_of_true hval fun h => by rw [hjump] at h; cases h
    · rw [ofBE_pushOperand, forall_prop_of_true hpush]
  refine ⟨lines, hlines, rfl, fun ⟨hpos, hrefs⟩ => ?_, fun ⟨haligned, hfit⟩ => ?_⟩
  · refine ⟨(dest_eq_iff 0).mp fun x => (hlabels x).symm.trans (hpos x),
      fun l hl hpush x d hx hfed => ?_⟩
    have hd := (hlabels x).trans hfed
    obtain ⟨before, after, heq⟩ := List.append_of_mem hl
    have hmem : (0 + (before.flatMap Line.emit).length, l) ∈ offsets 0 lines :=
      mem_offsets.mpr ⟨before, after, heq, rfl⟩
    exact (hpushed hmem hx hd).mp (hrefs _ l x d hmem hx ((hpos x).symm.trans hd)) hpush
  · have hpos : ∀ x, labels x = dest (·.emit.length) 0 lines x := fun x =>
      (hlabels x).trans ((dest_eq_iff 0).mpr haligned x)
    refine ⟨hpos, fun q l x d hq hx hd => (hpushed hq hx ((hpos x).trans hd)).mpr fun hpush => ?_⟩
    obtain ⟨before, after, rfl, -⟩ := mem_offsets.mp hq
    exact hfit l (by simp) hpush x d hx ((hlabels x).symm.trans ((hpos x).trans hd))

/-- Packages for texts that are upper case already, with `JUMP` for every opcode. -/
def upperCase : Packages := ⟨id, fun _ => none, fun _ => 0x56⟩

/-- A label with the name `x`, and a jump to it. -/
def jumpBack : List Token :=
  [⟨.lineStart, 0, []⟩, ⟨.labelDef, 0, [0x78]⟩, ⟨.lineEnd, 0, []⟩,
   ⟨.lineStart, 1, []⟩, ⟨.element, 1, jumpText⟩, ⟨.label, 1, [0x78]⟩, ⟨.lineEnd, 1, []⟩]

theorem label_resolution_jumpBack : ∃ labels lines, feed upperCase jumpBack = some (7, labels) ∧
    compileLines upperCase labels jumpBack = some lines ∧
      lines.flatMap Line.emit = [0x5b, 0x63, 0, 0, 0, 0, 0x56] ∧ Resolved labels lines := by
  have hlines : compileLines upperCase (Function.update (fun _ => none) [0x78] (some 0)) jumpBack =
      some [⟨jumpBack.take 3, [.op jumpdest], none⟩,
        ⟨jumpBack.drop 3, [.op push4, .bytes [0, 0, 0, 0], .op 0x56], none⟩] := by
    rw [compileLines_cons rfl, compileLines_cons rfl, compileLines_nil]
    rfl
  obtain ⟨lines, hlines', hcode, hiff⟩ := @label_resolution upperCase jumpBack 7 _ _ rfl
    ((congrArg _ hlines).trans rfl)
  cases hlines.symm.trans hlines'
  refine ⟨_, _, rfl, hlines, rfl, hiff.mpr ⟨⟨fun h => absurd rfl h, fun h => absurd rfl h,
    trivial⟩, fun l hl hpush => ?_⟩⟩
  rcases List.mem_pair.mp hl with rfl | rfl
  · cases hpush
  · cases hpush

/-- A push of the label that is defined after it. -/
def pushAhead : List Token :=
  [⟨.lineStart, 0, []⟩, ⟨.element, 0, pushText⟩, ⟨.label, 0, [0x78]⟩, ⟨.lineEnd, 0, []⟩,
   ⟨.lineStart, 1, []⟩, ⟨.labelDef, 1, [0x78]⟩, ⟨.lineEnd, 1, []⟩]

/-- The `JUMPDEST` is at 5.  The first pass records 6, and the code pushes `6 * 256 ^ 3`. -/
theorem pushAhead_resolved : ∃ labels lines, feed upperCase pushAhead = some (7, labels) ∧
    labels [0x78] = some 6 ∧ compileLines upperCase labels pushAhead = some lines ∧
      compile upperCase labels pushAhead = some ([0x63, 6, 0, 0, 0, 0x5b], []) ∧
      ¬Resolved labels lines := by
  have hlines : compileLines upperCase (Function.update (fun _ => none) [0x78] (some 6)) pushAhead =
      some [⟨pushAhead.take 4, [.op push4, .bytes [6, 0, 0, 0]], none⟩,
        ⟨pushAhead.drop 4, [.op jumpdest], none⟩] := by
    rw [compileLines_cons rfl, compileLines_cons rfl, compileLines_nil]
    rfl
  refine ⟨_, _, rfl, rfl, hlines, (congrArg _ hlines).trans rfl, fun h => ?_⟩
  exact absurd (h.1 [0x78]) (by decide)

end GoEthereum.Core.Asm
