/-
  The nodes of the trie and their stored form (`trie/node.go`).

  A short node has a path and one child, a full node has a child for each nibble
  and a value, a hash node stands for a node in the database.  `Node Hex` is a
  node in memory; in the collapsed form `Node Bytes`, which is encoded, the paths
  are compact.  `decodeNode` reads the encoding of a node; a node that is shorter
  than a hash is embedded in its parent.
-/
import GoEthereum.Rlp.Raw
import GoEthereum.Trie.Encoding

namespace GoEthereum.Trie

open GoEthereum.Rlp

abbrev Hash := {b : Bytes // b.length = 32}

/-- The zero hash. -/
def Hash.zero : Hash := ⟨List.replicate 32 0, by simp⟩

structure NodeFlag where
  hash : Option Hash := none
  gen : UInt16 := 0
  dirty : Bool := false
  deriving DecidableEq

/-- `nodeFlag.canUnload`; the generations are 16 bits wide and wrap. -/
def NodeFlag.canUnload (n : NodeFlag) (cachegen cachelimit : UInt16) : Bool :=
  !n.dirty && decide (cachegen - n.gen ≥ cachelimit)

/-- `node`: `nil`, `valueNode`, `hashNode`, `shortNode` and `fullNode`. -/
inductive Node (κ : Type) where
  | nil
  | value (v : Bytes)
  | hash (h : Hash)
  | short (key : κ) (val : Node κ) (flags : NodeFlag)
  | full (children : Fin 17 → Node κ) (flags : NodeFlag)

namespace Node

variable {κ κ' : Type}

/-- `n == nil` -/
def isNil : Node κ → Bool
  | .nil => true
  | _ => false

/-- The type assertion `n.(valueNode)`. -/
def isValue : Node κ → Bool
  | .value _ => true
  | _ => false

def cache : Node κ → Option Hash × Bool
  | .short _ _ flags | .full _ flags => (flags.hash, flags.dirty)
  | _ => (none, true)

def canUnload (cachegen cachelimit : UInt16) : Node κ → Bool
  | .short _ _ flags | .full _ flags => flags.canUnload cachegen cachelimit
  | _ => false

/-- The node whose paths are read as the slices `f` of them. -/
def map (f : κ → κ') : Node κ → Node κ'
  | .nil => .nil
  | .value v => .value v
  | .hash h => .hash h
  | .short key val flags => .short (f key) (val.map f) flags
  | .full children flags => .full (fun i => (children i).map f) flags

/-- What is encoded for a node.  A short node is a struct of two fields, a full
    node an array of 17 nodes with `nilValueNode` for the missing ones
    (`fullNode.EncodeRLP`), and a nil interface is written as an empty list. -/
def item : Node Bytes → Item
  | .nil => .list []
  | .value v => .str v
  | .hash h => .str h
  | .short key val _ => .list [.str key, val.item]
  | .full children _ => .list (List.ofFn fun i =>
      if (children i).isNil then .str [] else (children i).item)

end Node

/-! ## Decoding -/

/-- What went wrong while a node was decoded. -/
inductive DecodeFault where
  | unexpectedEOF
  /-- "decode error: %v" -/
  | list (e : Err)
  /-- "invalid number of list elements: %v" -/
  | count (c : ℕ)
  /-- "invalid value node: %v" -/
  | value (e : Err)
  /-- "oversized embedded node (size is %d bytes, want size < %d)" -/
  | oversized (size : ℕ)
  /-- "invalid RLP string size %d (want 0 or 32)" -/
  | stringSize (n : ℕ)
  | rlp (e : Err)
  deriving DecidableEq, Repr

/-- An error of `decodeNode`, with the path to the node once it is a
    `decodeError`. -/
inductive DecodeError where
  | plain (what : DecodeFault)
  | wrapped (what : DecodeFault) (stack : List String)
  deriving DecidableEq, Repr

def wrapError (err : DecodeError) (ctx : String) : DecodeError :=
  match err with
  | .plain what => .wrapped what [ctx]
  | .wrapped what stack => .wrapped what (stack ++ [ctx])

/-- `wrapError` on the error of a result. -/
def wrapResult {α : Type} (r : Except DecodeError α) (ctx : String) : Except DecodeError α :=
  r.mapError (wrapError · ctx)

section
-- `node` decodes embedded nodes; no result is a panic
variable (node : Option Hash → Bytes → UInt16 → Option (Except DecodeError (Node Hex)))

def decodeRef (buf : Bytes) (cachegen : UInt16) :
    Option (Except DecodeError (Node Hex × Bytes)) :=
  match split buf with
  | none => none
  | some (.error e) => some (.error (.plain (.rlp e)))
  | some (.ok (kind, val, rest)) =>
    if kind = .list then
      if buf.length - rest.length > 32 then
        some (.error (.plain (.oversized (buf.length - rest.length))))
      else (node none buf cachegen).map fun r => r.map fun n => (n, rest)
    else if kind = .string ∧ val.length = 0 then some (.ok (.nil, rest))
    else if h : kind = .string ∧ val.length = 32 then some (.ok (.hash ⟨val, h.2⟩, rest))
    else some (.error (.plain (.stringSize val.length)))

def decodeShort (hash : Option Hash) (elems : Bytes) (cachegen : UInt16) :
    Option (Except DecodeError (Node Hex)) :=
  match splitString elems with
  | none => none
  | some (.error e) => some (.error (.plain (.rlp e)))
  | some (.ok (kbuf, rest)) =>
    let flag : NodeFlag := { hash := hash, gen := cachegen }
    match compactToHex kbuf with
    | none => none
    | some key =>
      if hasTerm key then
        match splitString rest with
        | none => none
        | some (.error e) => some (.error (.plain (.value e)))
        | some (.ok (val, _)) => some (.ok (.short key (.value val) flag))
      else
        match decodeRef node rest cachegen with
        | none => none
        | some (.error e) => some (.error (wrapError e "val"))
        | some (.ok (r, _)) => some (.ok (.short key r flag))

/-- The loop of `decodeFull` from child `i` on. -/
def decodeChildren (cachegen : UInt16) : ℕ → ℕ → Bytes →
    Option (Except DecodeError (List (Node Hex) × Bytes))
  | 0, _, elems => some (.ok ([], elems))
  | n + 1, i, elems =>
    match decodeRef node elems cachegen with
    | none => none
    | some (.error e) => some (.error (wrapError e s!"[{i}]"))
    | some (.ok (cld, rest)) =>
      match decodeChildren cachegen n (i + 1) rest with
      | none => none
      | some (.error e) => some (.error e)
      | some (.ok (cs, rest)) => some (.ok (cld :: cs, rest))

def decodeFull (hash : Option Hash) (elems : Bytes) (cachegen : UInt16) :
    Option (Except DecodeError (Node Hex)) :=
  match decodeChildren node cachegen 16 0 elems with
  | none => none
  | some (.error e) => some (.error e)
  | some (.ok (cs, elems)) =>
    match splitString elems with
    | none => none
    | some (.error e) => some (.error (.plain (.rlp e)))
    | some (.ok (val, _)) =>
      let value := if val.length > 0 then .value val else .nil
      some (.ok (.full (fun i => (cs ++ [value]).getD i .nil) { hash := hash, gen := cachegen }))

end

/-- `decodeNode` with at most `fuel` nodes inside each other. -/
def decodeNodeFuel : ℕ → Option Hash → Bytes → UInt16 → Option (Except DecodeError (Node Hex))
  | 0, _, _, _ => none
  | fuel + 1, hash, buf, cachegen =>
    if buf.length = 0 then some (.error (.plain .unexpectedEOF))
    else
      match splitList buf with
      | none => none
      | some (.error e) => some (.error (.plain (.list e)))
      | some (.ok (elems, _)) => (countValues elems).bind fun r =>
        match r.toOption.getD 0 with
        | 2 => (decodeShort (decodeNodeFuel fuel) hash elems cachegen).map (wrapResult · "short")
        | 17 => (decodeFull (decodeNodeFuel fuel) hash elems cachegen).map (wrapResult · "full")
        | c => some (.error (.plain (.count c)))

/-- `decodeNode`.  A node takes more bytes than the one embedded in it, so the
    length of the input is enough (`decodeNodeFuel_eq`); no result is a panic. -/
def decodeNode (hash : Option Hash) (buf : Bytes) (cachegen : UInt16) :
    Option (Except DecodeError (Node Hex)) :=
  decodeNodeFuel (buf.length + 1) hash buf cachegen

/-- `mustDecodeNode`, which panics on an error. -/
def mustDecodeNode (hash : Option Hash) (buf : Bytes) (cachegen : UInt16) : Option (Node Hex) :=
  match decodeNode hash buf cachegen with
  | some (.ok n) => some n
  | _ => none

/-! ## The fuel of the decoder -/

theorem split_length {b content rest : Bytes} {k : Kind}
    (h : split b = some (.ok (k, content, rest))) : content.length ≤ b.length ∧
      rest.length ≤ b.length ∧ (k = .list → b.length ≠ 0 → content.length < b.length) := by
  rw [split_eq] at h
  rcases hrk : readKind b with e | ⟨k', ts, cs⟩
  · rw [hrk] at h
    cases h
  · rw [hrk] at h
    cases h
    have htag := (readKind_bounds hrk).2
    simp only [List.length_take, List.length_drop]
    refine ⟨by omega, by omega, fun hk hb => ?_⟩
    have := htag hk
    omega

theorem splitList_length {b elems rest : Bytes} (h : splitList b = some (.ok (elems, rest)))
    (hb : b.length ≠ 0) : elems.length < b.length := by
  obtain ⟨_ | ⟨k, content, rest⟩, hs, h⟩ := Option.map_eq_some_iff.1 h
  · cases h
  · dsimp only at h
    split_ifs at h with hk
    cases h
    exact (split_length hs).2.2 (not_not.1 hk) hb

section
variable {node node' : Option Hash → Bytes → UInt16 → Option (Except DecodeError (Node Hex))}
  {n : ℕ} {cachegen : UInt16}

theorem decodeRef_congr (h : ∀ b, b.length ≤ n → node none b cachegen = node' none b cachegen)
    {buf : Bytes} (hbuf : buf.length ≤ n) :
    decodeRef node buf cachegen = decodeRef node' buf cachegen := by
  simp only [decodeRef, h buf hbuf]

theorem decodeRef_length {buf rest : Bytes} {m : Node Hex}
    (h : decodeRef node buf cachegen = some (.ok (m, rest))) : rest.length ≤ buf.length := by
  unfold decodeRef at h
  split at h
  · cases h
  · cases h
  · next kind val rest' hs =>
    have hrest := (split_length hs).2.1
    split_ifs at h
    · cases h
    · obtain ⟨r, -, hr⟩ := Option.map_eq_some_iff.1 h
      cases r with
      | error e => cases hr
      | ok m' => cases hr; exact hrest
    · cases h; exact hrest
    · cases h; exact hrest
    · cases h

theorem decodeChildren_congr
    (h : ∀ b, b.length ≤ n → node none b cachegen = node' none b cachegen) :
    ∀ (k i : ℕ) {elems : Bytes}, elems.length ≤ n →
      decodeChildren node cachegen k i elems = decodeChildren node' cachegen k i elems
  | 0, _, _, _ => rfl
  | k + 1, i, elems, he => by
    simp only [decodeChildren, decodeRef_congr h he]
    rcases hd : decodeRef node' elems cachegen with _ | _ | ⟨m, rest⟩
    · rfl
    · rfl
    · simp only [decodeChildren_congr h k (i + 1) ((decodeRef_length hd).trans he)]

theorem splitString_length {b s rest : Bytes} (h : splitString b = some (.ok (s, rest))) :
    rest.length ≤ b.length := by
  obtain ⟨_ | ⟨k, content, rest⟩, hs, h⟩ := Option.map_eq_some_iff.1 h
  · cases h
  · dsimp only at h
    split_ifs at h
    cases h
    exact (split_length hs).2.1

theorem decodeShort_congr (h : ∀ b, b.length ≤ n → node none b cachegen = node' none b cachegen)
    (hash : Option Hash) {elems : Bytes} (he : elems.length ≤ n) :
    decodeShort node hash elems cachegen = decodeShort node' hash elems cachegen := by
  unfold decodeShort
  split
  · rfl
  · rfl
  · next kbuf rest hs => simp only [decodeRef_congr h ((splitString_length hs).trans he)]

theorem decodeFull_congr (h : ∀ b, b.length ≤ n → node none b cachegen = node' none b cachegen)
    (hash : Option Hash) {elems : Bytes} (he : elems.length ≤ n) :
    decodeFull node hash elems cachegen = decodeFull node' hash elems cachegen := by
  simp only [decodeFull, decodeChildren_congr h 16 0 he]

end

/-- The decoder never runs out of fuel. -/
theorem decodeNodeFuel_eq : ∀ (fuel fuel' : ℕ) (hash : Option Hash) {buf : Bytes}
    (cachegen : UInt16), buf.length < fuel → buf.length < fuel' →
    decodeNodeFuel fuel hash buf cachegen = decodeNodeFuel fuel' hash buf cachegen
  | 0, _, _, _, _, h, _ => by omega
  | _ + 1, 0, _, _, _, _, h => by omega
  | fuel + 1, fuel' + 1, hash, buf, cachegen, h, h' => by
    simp only [decodeNodeFuel]
    split_ifs with hb
    · rfl
    split
    · rfl
    · rfl
    · next elems rest hs =>
      have hlt := splitList_length hs hb
      have hrec : ∀ b : Bytes, b.length ≤ elems.length →
          decodeNodeFuel fuel none b cachegen = decodeNodeFuel fuel' none b cachegen :=
        fun b hb => decodeNodeFuel_eq fuel fuel' none cachegen (by omega) (by omega)
      simp only [decodeShort_congr hrec hash (le_refl _), decodeFull_congr hrec hash (le_refl _)]

end GoEthereum.Trie
