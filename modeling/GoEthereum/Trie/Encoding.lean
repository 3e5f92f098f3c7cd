/-
  The key encodings of the trie (`trie/encoding.go`).

  A key has three forms: its bytes, its nibbles with the terminator `16` (`Hex`,
  used in memory) and the compact form of a part of it (used in stored nodes),
  whose first nibble says whether the number of nibbles is odd and whether the
  terminator follows.
-/
import GoEthereum.Lib.Patricia
import GoEthereum.Rlp.Encode

namespace GoEthereum.Trie

open GoEthereum.Rlp Patricia

/-- Nibbles, and `16` for the terminator. -/
abbrev Hex := List (Fin 17)

/-- One constant, wherever a nibble is written as a number. -/
instance neZero_nibbles : NeZero 17 := ⟨by decide⟩

/-- The terminator. -/
abbrev term : Fin 17 := 16

/-- A nibble as it stands in a byte slice. -/
def nib (a : Fin 17) : UInt8 := .ofNat a

def hasTerm (s : Hex) : Bool := s.getLast? = some term

/-- `decodeNibbles`; the callers pass an even number of nibbles. -/
def decodeNibbles : Hex → Bytes
  | a :: b :: s => (nib a <<< 4 ||| nib b) :: decodeNibbles s
  | _ => []

/-- The rest of `hexToCompact` once the terminator is off. -/
def compactNibbles (terminator : UInt8) (hex : Hex) : Bytes :=
  let flag := terminator <<< 5
  if hex.length % 2 = 1 then
    (flag ||| (1 : UInt8) <<< 4 ||| nib (hex.headD 0)) :: decodeNibbles hex.tail
  else flag :: decodeNibbles hex

def hexToCompact (hex : Hex) : Bytes :=
  if hasTerm hex then compactNibbles 1 hex.dropLast else compactNibbles 0 hex

def keybytesToHex : Bytes → Hex
  | [] => [term]
  | b :: bs => .ofNat 17 (b.toNat / 16) :: .ofNat 17 (b.toNat % 16) :: keybytesToHex bs

/-- `compactToHex`; slicing off more nibbles than there are panics. -/
def compactToHex (compact : Bytes) : Option Hex :=
  let base := keybytesToHex compact
  let first := (base.headD 0).val
  let base := if first < 2 then base.dropLast else base
  let chop := 2 - first % 2
  if chop ≤ base.length then some (base.drop chop) else none

/-- `hexToKeybytes`, which panics on an odd number of nibbles. -/
def hexToKeybytes (hex : Hex) : Option Bytes :=
  let hex := if hasTerm hex then hex.dropLast else hex
  if hex.length % 2 ≠ 0 then none else some (decodeNibbles hex)

def prefixLen (a b : Hex) : ℕ := commonLen a b

/-! ## Nibbles -/

theorem hasTerm_concat (k : Hex) : hasTerm (k ++ [term]) = true := by simp [hasTerm]

theorem hasTerm_of_notMem {k : Hex} (h : term ∉ k) : hasTerm k = false := by
  simp only [hasTerm, decide_eq_false_iff_not]
  exact fun hl => h (List.mem_of_getLast? hl)

theorem nibbles_byte : ∀ a b : Fin 17, a ≠ term → b ≠ term →
    Fin.ofNat 17 ((nib a <<< 4 ||| nib b).toNat / 16) = a ∧
      Fin.ofNat 17 ((nib a <<< 4 ||| nib b).toNat % 16) = b := by
  decide

theorem byte_nibbles (b : UInt8) :
    nib (.ofNat 17 (b.toNat / 16)) <<< 4 ||| nib (.ofNat 17 (b.toNat % 16)) = b := by
  have h : ∀ n < 256, nib (.ofNat 17 (n / 16)) <<< 4 ||| nib (.ofNat 17 (n % 16)) = UInt8.ofNat n := by
    decide +kernel
  rw [h b.toNat b.toNat_lt, UInt8.ofNat_toNat]

/-- The first byte of the compact form holds the flags and, if there is an odd
    number of nibbles, the first one. -/
theorem nibbles_flag (t : Bool) : ∀ a : Fin 17, a ≠ term →
    let f : UInt8 := (if t then (1 : UInt8) else 0) <<< 5 ||| (1 : UInt8) <<< 4 ||| nib a
    Fin.ofNat 17 (f.toNat / 16) = (if t then 3 else 1) ∧ Fin.ofNat 17 (f.toNat % 16) = a := by
  revert t; decide

theorem keybytesToHex_decodeNibbles : ∀ {k : Hex}, term ∉ k → k.length % 2 = 0 →
    keybytesToHex (decodeNibbles k) = k ++ [term]
  | [], _, _ => rfl
  | [_], _, h => by simp at h
  | a :: b :: k, hk, hlen => by
    simp only [List.mem_cons, not_or] at hk
    obtain ⟨h₁, h₂⟩ := nibbles_byte a b (Ne.symm hk.1) (Ne.symm hk.2.1)
    rw [decodeNibbles, keybytesToHex, h₁, h₂,
      keybytesToHex_decodeNibbles hk.2.2 (by simp only [List.length_cons] at hlen; omega)]
    rfl

theorem keybytesToHex_ne_nil (b : Bytes) : keybytesToHex b ≠ [] := by
  cases b <;> simp [keybytesToHex]

/-! ## The compact form -/

theorem dropLast_keybytesToHex {k : Hex} (hk : term ∉ k) (hlen : k.length % 2 = 0) :
    (keybytesToHex (decodeNibbles k)).dropLast = k := by
  rw [keybytesToHex_decodeNibbles hk hlen, List.dropLast_concat]

theorem compactToHex_compactNibbles (t : Bool) {k : Hex} (hk : term ∉ k) :
    compactToHex (compactNibbles (if t then 1 else 0) k)
      = some (if t then k ++ [term] else k) := by
  by_cases hodd : k.length % 2 = 1
  · obtain ⟨a, k, rfl⟩ : ∃ a k', k = a :: k' :=
      List.exists_cons_of_length_pos (by omega)
    simp only [List.mem_cons, not_or] at hk
    have heven : k.length % 2 = 0 := by rw [List.length_cons] at hodd; omega
    obtain ⟨h₁, h₂⟩ := nibbles_flag t a (Ne.symm hk.1)
    have hne := keybytesToHex_ne_nil (decodeNibbles k)
    simp only [compactNibbles, compactToHex, hodd, if_true, List.headD_cons, List.tail_cons,
      keybytesToHex, h₁, h₂]
    cases t
    · simp [List.dropLast_cons_of_ne_nil, hne, dropLast_keybytesToHex hk.2 heven]
    · simp [keybytesToHex_decodeNibbles hk.2 heven]
  · have heven : k.length % 2 = 0 := by omega
    have hne := keybytesToHex_ne_nil (decodeNibbles k)
    simp only [compactNibbles, compactToHex, hodd, if_false, keybytesToHex]
    cases t
    · simp [List.dropLast_cons_of_ne_nil, hne, dropLast_keybytesToHex hk heven]
    · simp [keybytesToHex_decodeNibbles hk heven]

theorem compactToHex_hexToCompact {k : Hex} (hk : term ∉ k) :
    compactToHex (hexToCompact k) = some k := by
  rw [hexToCompact, hasTerm_of_notMem hk]
  exact compactToHex_compactNibbles false hk

theorem compactToHex_hexToCompact_term {k : Hex} (hk : Term term k) :
    compactToHex (hexToCompact k) = some k := by
  obtain ⟨k, rfl, hk⟩ := hk
  rw [hexToCompact, hasTerm_concat, List.dropLast_concat]
  exact compactToHex_compactNibbles true hk

theorem length_decodeNibbles : ∀ k : Hex, (decodeNibbles k).length ≤ k.length
  | [] => by simp [decodeNibbles]
  | [_] => by simp [decodeNibbles]
  | _ :: _ :: k => by
    have := length_decodeNibbles k
    simp only [decodeNibbles, List.length_cons]
    omega

theorem length_compactNibbles (t : UInt8) (k : Hex) : (compactNibbles t k).length ≤ k.length + 1 := by
  have h₁ := length_decodeNibbles k
  have h₂ := length_decodeNibbles k.tail
  rw [List.length_tail] at h₂
  rw [compactNibbles]
  split_ifs <;> simp only [List.length_cons] <;> omega

theorem length_hexToCompact (k : Hex) : (hexToCompact k).length ≤ k.length + 1 := by
  rw [hexToCompact]
  split_ifs
  · exact (length_compactNibbles 1 k.dropLast).trans (by rw [List.length_dropLast]; omega)
  · exact length_compactNibbles 0 k

/-! ## Keys -/

theorem term_keybytesToHex : ∀ b : Bytes, Term term (keybytesToHex b)
  | [] => term_cons_self.2 rfl
  | b :: bs => by
    have hlt : ∀ n < 16, (Fin.ofNat 17 n) ≠ term := by decide
    rw [keybytesToHex, term_cons (hlt _ (by have := b.toNat_lt; omega)),
      term_cons (hlt _ (by omega))]
    exact term_keybytesToHex bs

theorem length_keybytesToHex (b : Bytes) : (keybytesToHex b).length = 2 * b.length + 1 := by
  induction b with
  | nil => rfl
  | cons b bs ih => simp only [keybytesToHex, List.length_cons, ih]; omega

theorem decodeNibbles_keybytesToHex (b : Bytes) :
    decodeNibbles (keybytesToHex b).dropLast = b := by
  induction b with
  | nil => rfl
  | cons b bs ih =>
    rw [keybytesToHex, List.dropLast_cons_of_ne_nil (by simp),
      List.dropLast_cons_of_ne_nil (keybytesToHex_ne_nil bs), decodeNibbles, ih, byte_nibbles]

theorem keybytesToHex_injective : Function.Injective keybytesToHex := by
  intro b b' h
  rw [← decodeNibbles_keybytesToHex b, ← decodeNibbles_keybytesToHex b', h]

theorem hexToKeybytes_keybytesToHex (b : Bytes) : hexToKeybytes (keybytesToHex b) = some b := by
  obtain ⟨k, hk, -⟩ := term_keybytesToHex b
  have hterm : hasTerm (keybytesToHex b) = true := by rw [hk, hasTerm_concat]
  have hlen : (keybytesToHex b).dropLast.length = 2 * b.length := by
    rw [List.length_dropLast, length_keybytesToHex]
    omega
  simp only [hexToKeybytes, hterm, if_true, hlen, Nat.mul_mod_right, ne_eq, not_true_eq_false,
    if_false, decodeNibbles_keybytesToHex]

/-! ## All encodings together -/

/-- Nibbles, with or without the terminator at their end. -/
def Nibbles (h : Hex) : Prop := term ∉ h ∨ Term term h

theorem compactToHex_of_nibbles {h : Hex} (hh : Nibbles h) :
    compactToHex (hexToCompact h) = some h :=
  hh.elim compactToHex_hexToCompact compactToHex_hexToCompact_term

/-- **The key encodings lose nothing.**  Nibbles are read back from their compact form,
    so different nibbles have different compact forms, and a key is read back from its
    nibbles. -/
theorem key_encodings :
    (∀ h, Nibbles h → compactToHex (hexToCompact h) = some h) ∧
    (∀ k, hexToKeybytes (keybytesToHex k) = some k) ∧
    ∀ h h', Nibbles h → Nibbles h' → hexToCompact h = hexToCompact h' → h = h' := by
  refine ⟨fun h => compactToHex_of_nibbles, hexToKeybytes_keybytesToHex, fun h h' hh hh' he => ?_⟩
  have := compactToHex_of_nibbles hh
  rw [he, compactToHex_of_nibbles hh'] at this
  exact (Option.some.inj this).symm

/-- An odd number of nibbles with the terminator, and no nibble at all. -/
theorem key_encodings_odd : compactToHex (hexToCompact [1, 2, 3, term]) = some [1, 2, 3, term] ∧
    compactToHex (hexToCompact []) = some [] :=
  ⟨key_encodings.1 _ (.inr ⟨[1, 2, 3], rfl, by decide⟩), key_encodings.1 _ (.inl (by decide))⟩

end GoEthereum.Trie
