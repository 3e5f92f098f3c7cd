/-
  Signing of transactions (core/types/transaction_signing.go, core/types/transaction.go).

  The elliptic curve and the hash function are arguments.  A transaction object has a cache
  with the sender and the signer it was derived for; whatever was asked before, `Sender` gives
  what the signer would give without the cache (`sender_fst`).
-/
import Mathlib.Data.Nat.Size
import GoEthereum.Rlp.Interface
import GoEthereum.Vm.Contracts

namespace GoEthereum.Signing

open GoEthereum.Rlp GoEthereum.Vm BigEndian

/-- Why a transaction is not signed or has no sender. -/
inductive Err where
  | invalidSig
  | invalidChainId
  | invalidPublicKey
  | recover
  | sign
  | wrongSize
deriving DecidableEq

/-- The cryptographic functions; `pubkey` is the encoded public key of a private key. -/
structure Crypto (Key : Type) where
  keccak : Bytes → Word
  sign : Word → Key → Option Bytes
  ecrecover : Word → Bytes → Option Bytes
  pubkey : Key → Bytes

structure TxData where
  accountNonce : UInt64
  price : ℤ
  gasLimit : UInt64
  recipient : Option Address
  amount : ℤ
  payload : Bytes
  v : ℤ := 0
  r : ℕ := 0
  s : ℕ := 0

/-- The implementations of `Signer`. -/
inductive Signer where
  | frontier
  | homestead
  | eip155 (chainId : ℤ)
deriving DecidableEq

/-- `Transaction`, with the cached sender. -/
structure Transaction where
  data : TxData
  cache : Option (Signer × Address) := none

/-! ### Numbers -/

def bitLen (x : ℤ) : ℕ := x.natAbs.size

/-- `Uint64` -/
def bigUint64 (x : ℤ) : UInt64 := .ofNat x.natAbs

def isProtectedV (v : ℤ) : Bool :=
  if bitLen v ≤ 8 then bigUint64 v ≠ 27 ∧ bigUint64 v ≠ 28 else true

def deriveChainId (v : ℤ) : ℤ :=
  if bitLen v ≤ 64 then
    if bigUint64 v = 27 ∨ bigUint64 v = 28 then 0 else ((bigUint64 v - 35) / 2).toNat
  else (v - 35) / 2

section
variable {Key : Type} (cr : Crypto Key)

/-! ### Hashes -/

/-- An integer as a value of the list to hash; negative ones cannot be encoded. -/
def bigItem (x : ℤ) : Option Item := if x < 0 then none else some (.str (natBytes x.toNat))

/-- `rlpHash`; nothing is hashed when the encoding fails. -/
def rlpHash (items : Option (List Item)) : Word :=
  cr.keccak (items.elim [] fun xs => enc (.list xs))

/-- The fields that are signed. -/
def TxData.items (tx : TxData) : Option (List Item) := do
  let price ← bigItem tx.price
  let amount ← bigItem tx.amount
  return [.str (natBytes tx.accountNonce.toNat), price, .str (natBytes tx.gasLimit.toNat),
    .str (tx.recipient.elim [] addressBytes), amount, .str tx.payload]

/-- `Hash` of the signers. -/
def Signer.hash : Signer → TxData → Word
  | .eip155 chainId, tx => rlpHash cr do
    let items ← tx.items
    let id ← bigItem chainId
    return items ++ [id, .str [], .str []]
  | _, tx => rlpHash cr tx.items

/-! ### Senders -/

/-- The address of an encoded public key. -/
def pubAddress (pub : Bytes) : Address := (cr.keccak (pub.drop 1)).setWidth 160

def recoverPlain (sighash : Word) (r s : ℕ) (vb : ℤ) (homestead : Bool) : Except Err Address :=
  if 8 < bitLen vb then .error .invalidSig
  else
    let v := (bigUint64 vb - 27).toUInt8
    if !validateSignatureValues v r s homestead then .error .invalidSig
    else
      let sig := leftPad (natBytes r) 32 ++ leftPad (natBytes s) 32 ++ [v]
      match cr.ecrecover sighash sig with
      | none => .error .recover
      | some pub =>
        if pub.head? ≠ some 4 then .error .invalidPublicKey else .ok (pubAddress cr pub)

/-- `HomesteadSigner.Sender` -/
def homesteadSender (tx : TxData) : Except Err Address :=
  recoverPlain cr (Signer.homestead.hash cr tx) tx.r tx.s tx.v true

/-- `Sender` of the signers. -/
def Signer.sender : Signer → TxData → Except Err Address
  | .frontier, tx => recoverPlain cr (Signer.frontier.hash cr tx) tx.r tx.s tx.v false
  | .homestead, tx => homesteadSender cr tx
  | .eip155 chainId, tx =>
    if !isProtectedV tx.v then homesteadSender cr tx
    else if deriveChainId tx.v ≠ chainId then .error .invalidChainId
    else
      recoverPlain cr ((Signer.eip155 chainId).hash cr tx) tx.r tx.s (tx.v - chainId * 2 - 8) true

/-- `Equal` of the signers. -/
def Signer.equal : Signer → Signer → Bool
  | .frontier, .frontier => true
  | .homestead, .homestead => true
  | .eip155 chainId, .eip155 chainId' => chainId' = chainId
  | _, _ => false

/-- The cached sender, if it was derived for an equal signer. -/
def Transaction.cached (tx : Transaction) (signer : Signer) : Option Address :=
  match tx.cache with
  | some (signer', address) => if signer'.equal signer then some address else none
  | none => none

/-- `Sender`, with the transaction whose cache it leaves. -/
def sender (signer : Signer) (tx : Transaction) : Except Err Address × Transaction :=
  match tx.cached signer with
  | some address => (.ok address, tx)
  | none =>
    match signer.sender cr tx.data with
    | .error e => (.error e, tx)
    | .ok address => (.ok address, { tx with cache := some (signer, address) })

/-! ### Signatures -/

/-- `SignatureValues`, with the value of `V` in the third place. -/
def Signer.signatureValues (signer : Signer) (sig : Bytes) : Except Err (ℕ × ℕ × ℤ) :=
  if sig.length ≠ 65 then .error .wrongSize
  else
    let v := sig.getD 64 0
    let r := ofBE (sig.take 32)
    let s := ofBE (sig.extract 32 64)
    match signer with
    | .eip155 chainId =>
      if chainId ≠ 0 then .ok (r, s, (v + 35).toNat + chainId * 2) else .ok (r, s, (v + 27).toNat)
    | _ => .ok (r, s, (v + 27).toNat)

def Transaction.withSignature (tx : Transaction) (signer : Signer) (sig : Bytes) :
    Except Err Transaction := do
  let (r, s, v) ← signer.signatureValues sig
  return { data := { tx.data with v := v, r := r, s := s } }

def signTx (tx : Transaction) (signer : Signer) (key : Key) : Except Err Transaction :=
  match cr.sign (signer.hash cr tx.data) key with
  | none => .error .sign
  | some sig => tx.withSignature signer sig

/-! ### The cache -/

variable {cr} {tx : Transaction}

theorem Signer.eq_of_equal {a b : Signer} (h : a.equal b = true) : a = b := by
  cases a <;> cases b <;> simp_all [equal]

/-- The cache holds what its signer derives. -/
def Transaction.CacheOk (cr : Crypto Key) (tx : Transaction) : Prop :=
  ∀ signer address, tx.cache = some (signer, address) → signer.sender cr tx.data = .ok address

theorem sender_cases (h : tx.CacheOk cr) (signer : Signer) :
    sender cr signer tx = (signer.sender cr tx.data, tx) ∨
      ∃ address, signer.sender cr tx.data = .ok address ∧
        sender cr signer tx = (.ok address, { tx with cache := some (signer, address) }) := by
  unfold sender
  rcases hc : tx.cached signer with _ | address
  · rcases hs : signer.sender cr tx.data with e | address
    · exact .inl rfl
    · exact .inr ⟨address, rfl, rfl⟩
  · left
    unfold Transaction.cached at hc
    rcases hcache : tx.cache with _ | ⟨cached, address'⟩
    · simp [hcache] at hc
    · simp only [hcache, Option.ite_none_right_eq_some, Option.some.injEq] at hc
      obtain ⟨heq, rfl⟩ := hc
      rw [← Signer.eq_of_equal heq, h cached address' hcache]

theorem sender_fst (h : tx.CacheOk cr) (signer : Signer) :
    (sender cr signer tx).1 = signer.sender cr tx.data := by
  rcases sender_cases h signer with hs | ⟨address, ha, hs⟩
  · rw [hs]
  · rw [hs, ha]

theorem sender_data (h : tx.CacheOk cr) (signer : Signer) :
    (sender cr signer tx).2.data = tx.data := by
  rcases sender_cases h signer with hs | ⟨address, -, hs⟩ <;> rw [hs]

theorem sender_cacheOk (h : tx.CacheOk cr) (signer : Signer) :
    (sender cr signer tx).2.CacheOk cr := by
  rcases sender_cases h signer with hs | ⟨address, ha, hs⟩
  · rw [hs]
    exact h
  · rw [hs]
    intro signer' address' hc
    cases hc
    exact ha

/-- The transaction object after calls of `Sender`. -/
def afterCalls (cr : Crypto Key) (calls : List Signer) (tx : Transaction) : Transaction :=
  calls.foldl (fun tx signer => (sender cr signer tx).2) tx

theorem sender_afterCalls (h : tx.CacheOk cr) (calls : List Signer) (signer : Signer) :
    (sender cr signer (afterCalls cr calls tx)).1 = signer.sender cr tx.data := by
  induction calls generalizing tx with
  | nil => exact sender_fst h signer
  | cons s calls ih =>
    rw [afterCalls, List.foldl_cons, ← sender_data h s]
    exact ih (sender_cacheOk h s)

/-! ### Signed transactions -/

/-- Signatures are low-s and lead back to the key. -/
structure Crypto.SignOk (cr : Crypto Key) : Prop where
  sign_ok : ∀ hash key, ∃ sig, cr.sign hash key = some sig ∧ sig.length = 65 ∧
    0 < ofBE (sig.take 32) ∧ ofBE (sig.take 32) < secp256k1N ∧
    0 < ofBE (sig.extract 32 64) ∧ ofBE (sig.extract 32 64) ≤ secp256k1HalfN ∧
    (sig.getD 64 0 = 0 ∨ sig.getD 64 0 = 1) ∧ cr.ecrecover hash sig = some (cr.pubkey key)
  pubkey_head : ∀ key, (cr.pubkey key).head? = some 4

theorem bitLen_le_iff {x : ℤ} {n : ℕ} : bitLen x ≤ n ↔ x.natAbs < 2 ^ n := Nat.size_le

theorem signature_parts {sig : Bytes} (hlen : sig.length = 65) :
    sig = sig.take 32 ++ sig.extract 32 64 ++ [sig.getD 64 0] := by
  have hlast : sig.drop 64 = [sig.getD 64 0] := by
    rw [List.drop_eq_getElem_cons (by omega), List.drop_eq_nil_of_le (by omega),
      List.getD_eq_getElem?_getD, List.getElem?_eq_getElem (by omega), Option.getD_some]
  rw [← hlast, List.extract_eq_take_drop, List.append_assoc]
  calc sig = sig.take 32 ++ sig.drop 32 := (List.take_append_drop ..).symm
    _ = sig.take 32 ++ ((sig.drop 32).take (64 - 32) ++ sig.drop 64) := by
      congr 1
      have h := List.take_append_drop 32 (sig.drop 32)
      rw [List.drop_drop] at h
      exact h.symm

theorem leftPad_append {sig : Bytes} (hlen : sig.length = 65) :
    leftPad (natBytes (ofBE (sig.take 32))) 32 ++
      leftPad (natBytes (ofBE (sig.extract 32 64))) 32 ++ [sig.getD 64 0] = sig := by
  have hpad : ∀ part : Bytes, part.length = 32 → leftPad (natBytes (ofBE part)) 32 = part := by
    intro part h
    have hlt := ofBE_lt part
    have hpart := toBE_ofBE part
    rw [h] at hlt hpart
    rw [leftPad_natBytes hlt, hpart]
  rw [hpad _ (by simp [hlen]), hpad _ (by simp [List.extract_eq_take_drop, hlen])]
  exact (signature_parts hlen).symm

theorem validateSignatureValues_lowS {v : UInt8} {r s : ℕ} (hr₀ : 0 < r) (hr : r < secp256k1N)
    (hs₀ : 0 < s) (hs : s ≤ secp256k1HalfN) (hv : v = 0 ∨ v = 1) (homestead : Bool) :
    validateSignatureValues v r s homestead = true := by
  have hs' : s < secp256k1N := hs.trans_lt (by decide)
  rw [validateSignatureValues, if_neg (by simp; omega), if_neg (by simp; omega)]
  simpa [hr, hs'] using hv

theorem recoverPlain_ok (h : cr.SignOk) {hash : Word} {key : Key} {sig : Bytes}
    (hsign : cr.sign hash key = some sig) (homestead : Bool) :
    recoverPlain cr hash (ofBE (sig.take 32)) (ofBE (sig.extract 32 64))
      (sig.getD 64 0 + 27).toNat homestead = .ok (pubAddress cr (cr.pubkey key)) := by
  obtain ⟨sig', hs, hlen, hr₀, hr, hs₀, hs₁, hv, hrec⟩ := h.sign_ok hash key
  obtain rfl : sig' = sig := Option.some.inj (hs.symm.trans hsign)
  have hvalid : ∀ v, v = 0 ∨ v = 1 → validateSignatureValues v (ofBE (sig'.take 32))
      (ofBE (sig'.extract 32 64)) homestead = true :=
    fun v hv => validateSignatureValues_lowS hr₀ hr hs₀ hs₁ hv homestead
  have hsig := leftPad_append hlen
  have hhead := h.pubkey_head key
  rcases hv with hv | hv <;> rw [hv] at hsig ⊢ <;> rw [recoverPlain, if_neg (by decide)]
  · have hv' : (bigUint64 ((0 : UInt8) + 27).toNat - 27).toUInt8 = 0 := by decide
    simp only [hv', hvalid 0 (.inl rfl), hsig, hrec, hhead]
    rfl
  · have hv' : (bigUint64 ((1 : UInt8) + 27).toNat - 27).toUInt8 = 1 := by decide
    simp only [hv', hvalid 1 (.inr rfl), hsig, hrec, hhead]
    rfl

/-- `V` of a signature for a chain. -/
def chainV (chainId : ℕ) (v : UInt8) : ℤ := (v + 35).toNat + (chainId : ℤ) * 2

section
variable {chainId : ℕ} {v : UInt8}

theorem chainV_eq (hv : v = 0 ∨ v = 1) :
    chainV chainId v = ((35 + v.toNat + chainId * 2 : ℕ) : ℤ) := by
  rcases hv with rfl | rfl <;> simp [chainV]

theorem toNat_bigUint64 {n : ℕ} (h : n < 2 ^ 64) : (bigUint64 n).toNat = n := by
  rw [bigUint64, Int.natAbs_natCast]
  exact UInt64.toNat_ofNat_of_lt' h

theorem bigUint64_ne {n : ℕ} (h : n < 2 ^ 64) (hn : 28 < n) : bigUint64 n ≠ 27 ∧ bigUint64 n ≠ 28 := by
  rw [Ne, Ne, ← UInt64.toNat_inj, ← UInt64.toNat_inj, toNat_bigUint64 h]
  exact ⟨by simp; omega, by simp; omega⟩

theorem chainV_protected (hv : v = 0 ∨ v = 1) : isProtectedV (chainV chainId v) = true := by
  rw [chainV_eq hv, isProtectedV]
  split_ifs with hb
  · rw [bitLen_le_iff, Int.natAbs_natCast] at hb
    exact decide_eq_true (bigUint64_ne (hb.trans (by norm_num)) (by omega))
  · rfl

theorem deriveChainId_chainV (hv : v = 0 ∨ v = 1) : deriveChainId (chainV chainId v) = chainId := by
  have hb : v.toNat = 0 ∨ v.toNat = 1 := hv.imp (congrArg _) (congrArg _)
  rw [chainV_eq hv, deriveChainId]
  split_ifs with hlen h28
  · rw [bitLen_le_iff, Int.natAbs_natCast] at hlen
    obtain ⟨h27, h28'⟩ := bigUint64_ne hlen (by omega)
    exact absurd h28 (not_or.2 ⟨h27, h28'⟩)
  · rw [bitLen_le_iff, Int.natAbs_natCast] at hlen
    have hnat := toNat_bigUint64 hlen
    have h35 : (35 : UInt64) ≤ bigUint64 ((35 + v.toNat + chainId * 2 : ℕ) : ℤ) := by
      rw [UInt64.le_iff_toNat_le, hnat]
      show 35 ≤ _
      omega
    rw [UInt64.toNat_div, UInt64.toNat_sub_of_le _ _ h35, hnat]
    show (((35 + v.toNat + chainId * 2 - 35) / 2 : ℕ) : ℤ) = chainId
    omega
  · push_cast
    omega

end

/-- The data of a signed transaction. -/
def TxData.signed (tx : TxData) (sig : Bytes) (v : ℤ) : TxData :=
  { tx with v := v, r := ofBE (sig.take 32), s := ofBE (sig.extract 32 64) }

theorem signTx_plain (h : cr.SignOk) (tx : Transaction) (key : Key) {signer : Signer}
    (hs : signer = .frontier ∨ signer = .homestead) :
    ∃ sig, cr.sign (signer.hash cr tx.data) key = some sig ∧
      (sig.getD 64 0 = 0 ∨ sig.getD 64 0 = 1) ∧
      signTx cr tx signer key = .ok { data := tx.data.signed sig (sig.getD 64 0 + 27).toNat } := by
  obtain ⟨sig, hsign, hlen, -, -, -, -, hv, -⟩ := h.sign_ok (signer.hash cr tx.data) key
  refine ⟨sig, hsign, hv, ?_⟩
  rcases hs with rfl | rfl <;>
    simp only [signTx, hsign, Transaction.withSignature, Signer.signatureValues, hlen] <;> rfl

theorem signTx_eip155 (h : cr.SignOk) (tx : Transaction) (key : Key) {c : ℕ} (hc : 0 < c) :
    ∃ sig, cr.sign ((Signer.eip155 c).hash cr tx.data) key = some sig ∧
      (sig.getD 64 0 = 0 ∨ sig.getD 64 0 = 1) ∧
      signTx cr tx (.eip155 c) key = .ok { data := tx.data.signed sig (chainV c (sig.getD 64 0)) } := by
  obtain ⟨sig, hsign, hlen, -, -, -, -, hv, -⟩ := h.sign_ok ((Signer.eip155 c).hash cr tx.data) key
  refine ⟨sig, hsign, hv, ?_⟩
  have hc' : (c : ℤ) ≠ 0 := by exact_mod_cast hc.ne'
  simp only [signTx, hsign, Transaction.withSignature, Signer.signatureValues, hlen]
  rw [if_neg (by simp), if_pos hc']
  rfl

theorem isProtectedV_plain {v : UInt8} (hv : v = 0 ∨ v = 1) :
    isProtectedV (v + 27).toNat = false := by
  rcases hv with rfl | rfl <;> decide

/-- **Signed transactions**: the signer gets the address of the key back, also from a Homestead
    signature for every chain, and a signature for one chain is refused by the signer of any
    other, whatever signers were asked before. -/
theorem sender_signTx (h : cr.SignOk) (tx : Transaction) (key : Key) :
    (∀ signer, (signer = .frontier ∨ signer = .homestead ∨ ∃ c : ℕ, 0 < c ∧ signer = .eip155 c) →
      ∃ signed, signTx cr tx signer key = .ok signed ∧
        ∀ calls, (sender cr signer (afterCalls cr calls signed)).1 =
          .ok (pubAddress cr (cr.pubkey key))) ∧
    (∃ signed, signTx cr tx .homestead key = .ok signed ∧
      ∀ calls (d : ℤ), (sender cr (.eip155 d) (afterCalls cr calls signed)).1 =
        .ok (pubAddress cr (cr.pubkey key))) ∧
    ∀ c : ℕ, 0 < c → ∃ signed, signTx cr tx (.eip155 c) key = .ok signed ∧
      ∀ calls (d : ℤ), d ≠ c → (sender cr (.eip155 d) (afterCalls cr calls signed)).1 =
        .error .invalidChainId := by
  have hnew : ∀ data : TxData, Transaction.CacheOk cr { data := data } := fun _ _ _ => nofun
  refine ⟨?_, ?_, fun c hc => ?_⟩
  · rintro signer (rfl | rfl | ⟨c, hc, rfl⟩)
    · obtain ⟨sig, hsign, -, hsigned⟩ := signTx_plain h tx key (.inl rfl)
      exact ⟨_, hsigned, fun calls => (sender_afterCalls (hnew _) calls _).trans
        (recoverPlain_ok h hsign false)⟩
    · obtain ⟨sig, hsign, -, hsigned⟩ := signTx_plain h tx key (.inr rfl)
      exact ⟨_, hsigned, fun calls => (sender_afterCalls (hnew _) calls _).trans
        (recoverPlain_ok h hsign true)⟩
    · obtain ⟨sig, hsign, hv, hsigned⟩ := signTx_eip155 h tx key hc
      refine ⟨_, hsigned, fun calls => (sender_afterCalls (hnew _) calls _).trans ?_⟩
      have hplain : chainV c (sig.getD 64 0) - c * 2 - 8 = (sig.getD 64 0 + 27).toNat := by
        rcases hv with hv | hv <;> rw [hv, chainV] <;> simp
      simp only [Signer.sender, TxData.signed, chainV_protected hv, deriveChainId_chainV hv, hplain]
      rw [if_neg (by simp), if_neg (by simp)]
      exact recoverPlain_ok h hsign true
  · obtain ⟨sig, hsign, hv, hsigned⟩ := signTx_plain h tx key (.inr rfl)
    refine ⟨_, hsigned, fun calls d => (sender_afterCalls (hnew _) calls _).trans ?_⟩
    simp only [Signer.sender, TxData.signed, isProtectedV_plain hv]
    exact recoverPlain_ok h hsign true
  · obtain ⟨sig, hsign, hv, hsigned⟩ := signTx_eip155 h tx key hc
    refine ⟨_, hsigned, fun calls d hd => (sender_afterCalls (hnew _) calls _).trans ?_⟩
    simp only [Signer.sender, TxData.signed, chainV_protected hv, deriveChainId_chainV hv]
    rw [if_neg (by simp), if_pos hd.symm]

end

/-- The encoded public key of the private key with all bytes 0x46. -/
def knownPub : Bytes := [4] ++
  toBE 32 0x4bc2a31265153f07e70e0bab08724e6b85e217f8cd628ceb62974247bb493382 ++
  toBE 32 0xce28cab79ad7119ee1ad3ebcdb98a16805211530ecc6cfefa1b88e6dff99232a

/-- Keccak-256 of the public key and of the list that is signed for `knownTx`. -/
def knownHashes : List (Bytes × Word) := [
  (knownPub.drop 1, 0x9cead80a9d0a0951cdbf966b9d8a62f656a8d1615c1294fd71e9cfb3e4855a4f),
  (toBE 45
      0xec098504a817c800825208943535353535353535353535353535353535353535880de0b6b3a764000080018080,
    0xdaf5a779ae972f972197303d7b574746c7ef83eadac0f2791ad23db92e4c8e53)]

/-- This key, with its signature for `knownTx` on chain 1. -/
def knownKey : Crypto Unit where
  keccak b := (knownHashes.lookup b).getD 0
  sign _ _ := some (
    toBE 32 0x28ef61340bd939bc2195fe537567866003e1a15d3c71ff63e1590620aa636276 ++
    toBE 32 0x67cbe9d8997f761aecb703304b3800ccf555c9f3dc64214b297fb1966a3b6d83 ++ [0])
  ecrecover _ _ := some knownPub
  pubkey _ := knownPub

def knownTx : Transaction where
  data := { accountNonce := 9, price := 20 * 10 ^ 9, gasLimit := 21000
            recipient := some 0x3535353535353535353535353535353535353535, amount := 10 ^ 18
            payload := [] }

theorem signOk_knownKey : knownKey.SignOk where
  sign_ok _ _ := ⟨_, rfl, by decide +kernel, by decide +kernel, by decide +kernel,
    by decide +kernel, by decide +kernel, by decide +kernel, rfl⟩
  pubkey_head _ := rfl

theorem sender_signTx_known : ∃ signed, signTx knownKey knownTx (.eip155 1) () = .ok signed ∧
    (Signer.eip155 1).hash knownKey knownTx.data =
      0xdaf5a779ae972f972197303d7b574746c7ef83eadac0f2791ad23db92e4c8e53 ∧
    (sender knownKey (.eip155 1) signed).1 = .ok 0x9d8a62f656a8d1615c1294fd71e9cfb3e4855a4f ∧
    (sender knownKey (.eip155 2) signed).1 = .error .invalidChainId := by
  obtain ⟨hsender, -, hchain⟩ := sender_signTx signOk_knownKey knownTx ()
  obtain ⟨signed, hsigned, hok⟩ := hsender (.eip155 1) (.inr (.inr ⟨1, Nat.one_pos, rfl⟩))
  obtain ⟨signed', hsigned', herr⟩ := hchain 1 Nat.one_pos
  obtain rfl : signed = signed' := Except.ok.inj (hsigned.symm.trans hsigned')
  have haddress : pubAddress knownKey (knownKey.pubkey ()) =
      0x9d8a62f656a8d1615c1294fd71e9cfb3e4855a4f := by decide +kernel
  exact ⟨signed, hsigned, by decide +kernel, (hok []).trans (congrArg _ haddress),
    herr [] 2 (by decide)⟩

end GoEthereum.Signing
