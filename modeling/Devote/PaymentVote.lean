import Devote.Storage
import Devote.Rlp
import Mathlib.Algebra.Group.Int

/-!
# Payment-vote signatures

`MasternodePaymentVote.Sign` signs a 32-byte hash with an ECDSA private key and returns
`r ‖ s`, each left-padded with zeros to the curve's size in bytes. `Verify` takes a hash, a
signature and a public key, but never reads the signature: it splits the hash at the vote's
`KeySize` and hands the two halves to `ecdsa.Verify` as `r` and `s`. `NewMasternodePaymentVote`
sets `KeySize` to 0, so `r` is always 0, which `ecdsa.Verify` rejects. ECDSA is kept abstract:
a structure of its functions with two facts, that `Verify` accepts what `Sign` makes and that
it rejects `r = 0`; everything here holds for every such scheme.

`Hash` is Keccak-256 of the RLP list of the vote's block height and account, and
`CheckSignature` checks a signature against it. Digests are symbolic, as the tries' are, and
`crypto.VerifySignature` is kept abstract. The hash commits to the height and the account
only, and every vote of a negative height, which does not encode, has the hash of the empty
input.
-/

namespace Devote

/-- The part of `crypto/ecdsa` the vote calls, over private keys `Priv` and public keys
`Pub`. -/
structure Ecdsa (Priv Pub : Type) where
  /-- `k.PublicKey` of a private key. -/
  publicKey : Priv → Pub
  /-- `Curve.Params().BitSize` of a key's curve. -/
  bitSize : Pub → Nat
  /-- `ecdsa.Sign(rand, k, hash)` with the random stream `rand`: the signature `(r, s)`. -/
  sign : Bytes → Priv → Bytes → Except DevoteError (Nat × Nat)
  /-- `ecdsa.Verify(pub, hash, r, s)`. -/
  verify : Pub → Bytes → Nat → Nat → Bool
  /-- A signature `Sign` makes verifies against the signer's public key. -/
  verify_sign : ∀ rand k hash r s, sign rand k hash = .ok (r, s) →
    verify (publicKey k) hash r s = true
  /-- `Verify` rejects `r ≤ 0`. -/
  verify_zero : ∀ pub hash s, verify pub hash 0 s = false

/-- The 32 bytes of a `common.Hash`. -/
structure HashBytes where
  bytes : Bytes
  length_bytes : bytes.length = 32

/-- A Go `interface{}` key, as the vote's methods switch on its dynamic type. -/
inductive SigningKey (Priv Pub : Type) where
  /-- An `*ecdsa.PrivateKey`. -/
  | privateKey (k : Priv)
  /-- An `*ecdsa.PublicKey`. -/
  | publicKey (pub : Pub)
  /-- A value of any other type. -/
  | other

/-- `errInvalidKeyType` -/
def errInvalidKeyType : DevoteError := .new "key is of invalid type"

/-- `errECDSAVerification` -/
def errECDSAVerification : DevoteError := .new "crypto/ecdsa: verification error"

/-- `big.Int.Bytes` of a non-negative value: its big-endian bytes without leading zeros. -/
def bigIntBytes (n : Nat) : Bytes :=
  if n = 0 then [] else bigIntBytes (n / 256) ++ [UInt8.ofNat (n % 256)]
termination_by n
decreasing_by omega

/-- `make([]byte, size)`, then `copy(padded[size-len(b):], b)`: `b` right-aligned in `size`
zero bytes; `none` is the slice-bounds panic when `b` is longer. -/
def padLeft (size : Nat) (b : Bytes) : Option Bytes :=
  if b.length ≤ size then some (List.replicate (size - b.length) 0 ++ b) else none

/-- The bytes of each of `r` and `s` in a signature: the curve's bit size in whole bytes. -/
def keyBytesOf (curveBits : Nat) : Nat :=
  if curveBits % 8 > 0 then curveBits / 8 + 1 else curveBits / 8

/-- `MasternodePaymentVote`: a masternode's vote for the payee of a block. -/
structure MasternodePaymentVote where
  /-- `Number`, the block height; `none` is the nil `*big.Int`. -/
  number : Option Int
  masternodeId : String
  masternodeAccount : Address
  keySize : Int

/-- `NewMasternodePaymentVote` -/
def newMasternodePaymentVote (blockHeight : Option Int) (id : String) (account : Address) :
    MasternodePaymentVote :=
  { number := blockHeight, masternodeId := id, masternodeAccount := account, keySize := 0 }

namespace MasternodePaymentVote

variable {Priv Pub : Type}

/-- `Verify`: the hash split at `KeySize` gives `r` and `s` for `ecdsa.Verify`; the signature
is never read. `none` is the slice-bounds panic of a `KeySize` outside the hash (a slice's
capacity is taken to be its length). -/
def verify (E : Ecdsa Priv Pub) (m : MasternodePaymentVote) (sighash _signature : Bytes)
    (key : SigningKey Priv Pub) : Option (Except DevoteError Unit) :=
  match key with
  | .publicKey ecdsaKey =>
    if m.keySize < 0 ∨ sighash.length < m.keySize then none
    else
      let r := ofBigEndian (sighash.take m.keySize.toNat)
      let s := ofBigEndian (sighash.drop m.keySize.toNat)
      some (if E.verify ecdsaKey sighash r s then .ok () else .error errECDSAVerification)
  | _ => some (.error errInvalidKeyType)

/-- `Sign`: `r ‖ s` of `ecdsa.Sign`, each padded to the curve's size in bytes. -/
def sign (E : Ecdsa Priv Pub) (_m : MasternodePaymentVote) (rand : Bytes)
    (signingString : HashBytes) (key : SigningKey Priv Pub) : Option (Except DevoteError Bytes) :=
  match key with
  | .privateKey ecdsaKey =>
    match E.sign rand ecdsaKey signingString.bytes with
    | .ok (r, s) => do
      let keyBytes := keyBytesOf (E.bitSize (E.publicKey ecdsaKey))
      let rBytesPadded ← padLeft keyBytes (bigIntBytes r)
      let sBytesPadded ← padLeft keyBytes (bigIntBytes s)
      return .ok (rBytesPadded ++ sBytesPadded)
    | .error err => some (.error err)
  | _ => some (.error errInvalidKeyType)

/-! ## What `Sign` writes -/

theorem ofBigEndian_bigIntBytes (n : Nat) : ofBigEndian (bigIntBytes n) = n := by
  induction n using Nat.strong_induction_on with
  | _ n ih =>
    rw [bigIntBytes]
    split_ifs with hn
    · simp [ofBigEndian, hn]
    · rw [ofBigEndian_append, ih _ (by omega)]
      simp [ofBigEndian]
      omega

theorem padLeft_eq_some {size : Nat} {b p : Bytes} (h : padLeft size b = some p) :
    p.length = size ∧ ofBigEndian p = ofBigEndian b := by
  unfold padLeft at h
  split_ifs at h with hb
  cases h
  refine ⟨by simp; omega, by simp [ofBigEndian_append, ofBigEndian_replicate_zero]⟩

/-- A signature `Sign` returns is `r` and `s` of `ecdsa.Sign`, in that order, the first in
exactly the curve's size in bytes. -/
theorem sign_eq_ok (E : Ecdsa Priv Pub) {m : MasternodePaymentVote} {rand : Bytes} {k : Priv}
    {h : HashBytes} {sig : Bytes} (hs : m.sign E rand h (.privateKey k) = some (.ok sig)) :
    ∃ r s rBytes sBytes, E.sign rand k h.bytes = .ok (r, s) ∧ sig = rBytes ++ sBytes ∧
      rBytes.length = keyBytesOf (E.bitSize (E.publicKey k)) ∧ ofBigEndian rBytes = r ∧
      ofBigEndian sBytes = s := by
  simp only [sign] at hs
  split at hs
  · next r s hrs =>
    simp only [Option.bind_eq_bind, Option.bind_eq_some, Option.pure_def, Option.some.injEq,
      Except.ok.injEq] at hs
    obtain ⟨rBytes, hr, sBytes, hs, rfl⟩ := hs
    obtain ⟨hrlen, hrval⟩ := padLeft_eq_some hr
    exact ⟨r, s, rBytes, sBytes, hrs, rfl, hrlen, by rw [hrval, ofBigEndian_bigIntBytes],
      by rw [(padLeft_eq_some hs).2, ofBigEndian_bigIntBytes]⟩
  · cases hs

/-- Split where `Sign` joined them, the halves of a signature `Sign` returns are `r` and
`s`, which `ecdsa.Verify` accepts against the signer's public key. -/
theorem sign_split_verifies (E : Ecdsa Priv Pub) (m : MasternodePaymentVote) (rand : Bytes)
    (k : Priv) (h : HashBytes) (sig : Bytes) (hs : m.sign E rand h (.privateKey k) = some (.ok sig)) :
    E.verify (E.publicKey k) h.bytes
      (ofBigEndian (sig.take (keyBytesOf (E.bitSize (E.publicKey k)))))
      (ofBigEndian (sig.drop (keyBytesOf (E.bitSize (E.publicKey k))))) = true := by
  obtain ⟨r, s, rBytes, sBytes, hrs, rfl, hlen, hr, hs⟩ := sign_eq_ok E hs
  rw [List.take_left' hlen, List.drop_left' hlen, hr, hs]
  exact E.verify_sign _ _ _ _ _ hrs

/-! ## What `Verify` checks -/

/-- `Verify` of a vote from `NewMasternodePaymentVote` returns `errECDSAVerification` for every
hash, signature and public key: with `KeySize` 0 it takes `r` from the empty prefix of the
hash, so `r` is 0, which `ecdsa.Verify` rejects. So it rejects every signature `Sign`
returns. -/
theorem verify_rejects_every_signature (E : Ecdsa Priv Pub) (blockHeight : Option Int)
    (id : String) (account : Address) (sighash signature : Bytes) (pub : Pub) :
    (newMasternodePaymentVote blockHeight id account).verify E sighash signature (.publicKey pub) =
      some (.error errECDSAVerification) := by
  have hlen : ¬(sighash.length : Int) < 0 := by omega
  simp [verify, newMasternodePaymentVote, ofBigEndian, E.verify_zero, hlen]

end MasternodePaymentVote

/-! ## A run where `Sign` succeeds -/

/-- A scheme with the two facts and nothing more: every signature is `(1, 1)` on a 256-bit
curve, and `Verify` accepts exactly the non-zero `r`. -/
def constEcdsa : Ecdsa Nat Nat where
  publicKey k := k
  bitSize _ := 256
  sign _ _ _ := .ok (1, 1)
  verify _ _ r _ := r != 0
  verify_sign _ _ _ r s h := by
    simp only [Except.ok.injEq, Prod.mk.injEq] at h
    rw [← h.1]
    rfl
  verify_zero _ _ _ := rfl

/-- The zero hash. -/
def HashBytes.zero : HashBytes := ⟨List.replicate 32 0, List.length_replicate _ _⟩

theorem sign_constEcdsa :
    (newMasternodePaymentVote none "" Address.zero).sign constEcdsa [] .zero (.privateKey 1) =
      some (.ok (bigEndian 32 1 ++ bigEndian 32 1)) := by
  have h1 : bigIntBytes 1 = [1] := by
    rw [bigIntBytes, if_neg one_ne_zero, show 1 / 256 = 0 from rfl, bigIntBytes, if_pos rfl]
    rfl
  simp only [MasternodePaymentVote.sign, constEcdsa, keyBytesOf, h1]
  rfl

/-- `Sign` returns a signature with a nil error, and `Verify` rejects it. -/
theorem sign_then_verify_rejected :
    (newMasternodePaymentVote none "" Address.zero).sign constEcdsa [] .zero (.privateKey 1) =
        some (.ok (bigEndian 32 1 ++ bigEndian 32 1)) ∧
      (newMasternodePaymentVote none "" Address.zero).verify constEcdsa HashBytes.zero.bytes
        (bigEndian 32 1 ++ bigEndian 32 1) (.publicKey (constEcdsa.publicKey 1)) =
        some (.error errECDSAVerification) :=
  ⟨sign_constEcdsa, rfl⟩

theorem sign_split_verifies_constEcdsa :
    (newMasternodePaymentVote none "" Address.zero).sign constEcdsa [] .zero (.privateKey 1) =
        some (.ok (bigEndian 32 1 ++ bigEndian 32 1)) ∧
      constEcdsa.verify (constEcdsa.publicKey 1) HashBytes.zero.bytes
        (ofBigEndian ((bigEndian 32 1 ++ bigEndian 32 1).take
          (keyBytesOf (constEcdsa.bitSize (constEcdsa.publicKey 1)))))
        (ofBigEndian ((bigEndian 32 1 ++ bigEndian 32 1).drop
          (keyBytesOf (constEcdsa.bitSize (constEcdsa.publicKey 1))))) = true :=
  ⟨sign_constEcdsa, MasternodePaymentVote.sign_split_verifies constEcdsa _ [] 1 .zero _
    sign_constEcdsa⟩

/-! ## The vote's hash -/

/-- A Keccak-256 digest of a byte string, kept symbolic as `Hash` is: the digest of `input`,
so that two digests are equal exactly when their inputs are. -/
structure Keccak256 where
  input : Bytes
  deriving DecidableEq

/-- `writeBigIntPtr`, the RLP writer of a `*big.Int`: nil and zero are the empty string, a
positive value is the string of its big-endian bytes, and a negative value is an error. -/
def writeBigIntPtr : Option Int → Except DevoteError Bytes
  | none => .ok [0x80]
  | some i =>
    if i < 0 then .error (.new "rlp: cannot encode negative *big.Int")
    else if i = 0 then .ok [0x80]
    else .ok (Rlp.encodeString (bigIntBytes i.toNat))

/-- `rlpHash`: Keccak-256 of what `rlp.Encode` writes into the hasher. Its error is dropped,
and `Encode` writes nothing when it fails, so a failed encoding hashes the empty input. -/
def rlpHash (enc : Except DevoteError Bytes) : Keccak256 :=
  match enc with
  | .ok b => ⟨b⟩
  | .error _ => ⟨[]⟩

namespace MasternodePaymentVote

/-- `rlp.Encode` of `[]interface{}{mpv.Number, mpv.MasternodeAccount}`: a list of the block
height and the account. -/
def encode (mpv : MasternodePaymentVote) : Except DevoteError Bytes := do
  let number ← writeBigIntPtr mpv.number
  let payload := number ++ Rlp.encodeString mpv.masternodeAccount.bytes
  return Rlp.puthead 0xc0 0xf7 payload.length ++ payload

/-- `MasternodePaymentVote.Hash` -/
def hash (mpv : MasternodePaymentVote) : Keccak256 := rlpHash mpv.encode

/-- `CheckSignature`: `crypto.VerifySignature` of the public key, the bytes of the vote's
hash and the signature, with `crypto.VerifySignature` kept abstract. -/
def checkSignature (verifySignature : Bytes → Keccak256 → Bytes → Bool)
    (mpv : MasternodePaymentVote) (pubkey signature : Bytes) : Bool :=
  verifySignature pubkey mpv.hash signature

/-- What a vote's hash commits to: the block height, a nil height counting as zero, and the
account; `none` for a negative height, which does not encode. -/
def signedKey (mpv : MasternodePaymentVote) : Option (Nat × Address) :=
  match mpv.number with
  | none => some (0, mpv.masternodeAccount)
  | some i => if i < 0 then none else some (i.toNat, mpv.masternodeAccount)

/-! ### The hash is a function of the signed key -/

/-- The string `writeBigIntPtr` writes for a non-negative height. -/
def encodeHeight (n : Nat) : Bytes :=
  if n = 0 then [0x80] else Rlp.encodeString (bigIntBytes n)

/-- The list `encode` writes for a non-negative height and an account. -/
def encodeKey (n : Nat) (a : Address) : Bytes :=
  Rlp.puthead 0xc0 0xf7 (encodeHeight n ++ 0x94 :: a.bytes).length ++
    (encodeHeight n ++ 0x94 :: a.bytes)

/-- The hash of a vote with this signed key. -/
def keyHash : Option (Nat × Address) → Keccak256
  | none => ⟨[]⟩
  | some (n, a) => ⟨encodeKey n a⟩

theorem writeBigIntPtr_of_signedKey {mpv : MasternodePaymentVote} {n : Nat} {a : Address}
    (h : mpv.signedKey = some (n, a)) :
    writeBigIntPtr mpv.number = .ok (encodeHeight n) ∧ mpv.masternodeAccount = a := by
  unfold signedKey at h
  split at h
  · next hn =>
    cases h
    exact ⟨by rw [hn]; rfl, rfl⟩
  · next i hn =>
    split_ifs at h with hi
    cases h
    refine ⟨?_, rfl⟩
    rw [hn, writeBigIntPtr, if_neg hi, encodeHeight]
    by_cases h0 : i = 0
    · simp [h0]
    · rw [if_neg h0, if_neg (by omega)]

theorem writeBigIntPtr_of_signedKey_none {mpv : MasternodePaymentVote}
    (h : mpv.signedKey = none) : ∃ e, writeBigIntPtr mpv.number = .error e := by
  unfold signedKey at h
  split at h
  · cases h
  · next i hn =>
    split_ifs at h with hi
    exact ⟨_, by rw [hn, writeBigIntPtr, if_pos hi]⟩

theorem hash_eq_keyHash (mpv : MasternodePaymentVote) : mpv.hash = keyHash mpv.signedKey := by
  cases hk : mpv.signedKey with
  | none =>
    obtain ⟨e, he⟩ := writeBigIntPtr_of_signedKey_none hk
    simp only [hash, encode, he]
    rfl
  | some key =>
    obtain ⟨he, ha⟩ := writeBigIntPtr_of_signedKey hk
    simp only [hash, encode, he, ha, Rlp.encodeString_address]
    rfl

/-! ### Distinct keys encode differently -/

theorem length_bigIntBytes_le {n k : Nat} (h : n < 256 ^ k) : (bigIntBytes n).length ≤ k := by
  induction k generalizing n with
  | zero => simp [Nat.lt_one_iff.1 h, bigIntBytes]
  | succ k ih =>
    rw [bigIntBytes]
    split_ifs
    · simp
    · rw [List.length_append, List.length_singleton, Nat.succ_le_succ_iff]
      exact ih (by rw [pow_succ] at h; omega)

/-- The string an RLP string encoding of fewer than 56 bytes holds: a byte below `0x80` is
its own encoding, and otherwise the header byte goes. -/
def shortStringPayload : Bytes → Bytes
  | [x] => if x < 0x80 then [x] else []
  | _ :: b => b
  | [] => []

theorem shortStringPayload_encodeString {b : Bytes} (h : b.length < 56) :
    shortStringPayload (Rlp.encodeString b) = b := by
  unfold Rlp.encodeString
  split
  · next x =>
    split_ifs with hx
    · simp [shortStringPayload, show x < 0x80 from Nat.lt_succ_of_le hx]
    · rfl
  · simp only [Rlp.puthead, if_pos h]
    cases b <;> rfl

theorem shortStringPayload_encodeHeight {n : Nat} (h : n < 2 ^ 64) :
    shortStringPayload (encodeHeight n) = bigIntBytes n := by
  unfold encodeHeight
  split_ifs with h0
  · simp [h0, shortStringPayload, bigIntBytes]
  · exact shortStringPayload_encodeString
      ((length_bigIntBytes_le (k := 8) (by simpa using h)).trans_lt (by decide))

theorem length_encodeHeight_le {n : Nat} (h : n < 2 ^ 64) : (encodeHeight n).length ≤ 9 := by
  have hb := length_bigIntBytes_le (k := 8) (n := n) (by simpa using h)
  unfold encodeHeight Rlp.encodeString
  split_ifs
  · simp
  · split
    · split_ifs <;> simp [Rlp.puthead]
    · rw [Rlp.puthead, if_pos (by omega), List.length_append, List.length_singleton]
      omega

/-- Below `2 ^ 64`, the list `encode` writes determines the height and the account. -/
theorem encodeKey_inj {n n' : Nat} {a a' : Address} (hn : n < 2 ^ 64) (hn' : n' < 2 ^ 64)
    (h : encodeKey n a = encodeKey n' a') : n = n' ∧ a = a' := by
  have hlen : ∀ {n : Nat} (a : Address), n < 2 ^ 64 →
      (encodeHeight n ++ 0x94 :: a.bytes).length < 56 := fun a hn => by
    rw [List.length_append, List.length_cons, a.length_bytes]
    have := length_encodeHeight_le hn
    omega
  simp only [encodeKey, Rlp.puthead, if_pos (hlen a hn), if_pos (hlen a' hn'),
    List.singleton_append, List.cons.injEq] at h
  obtain ⟨hh, ha⟩ := List.append_inj' h.2 (by simp [a.length_bytes, a'.length_bytes])
  have hb := congrArg shortStringPayload hh
  rw [shortStringPayload_encodeHeight hn, shortStringPayload_encodeHeight hn'] at hb
  refine ⟨?_, Address.bytes_injective (List.cons.inj ha).2⟩
  rw [← ofBigEndian_bigIntBytes n, hb, ofBigEndian_bigIntBytes]

theorem encodeKey_ne_nil (n : Nat) (a : Address) : encodeKey n a ≠ [] := by
  simp [encodeKey]

theorem signedKey_lt {mpv : MasternodePaymentVote} (h : ∀ i ∈ mpv.number, i < 2 ^ 64)
    {n : Nat} {a : Address} (hk : mpv.signedKey = some (n, a)) : n < 2 ^ 64 := by
  unfold signedKey at hk
  split at hk
  · cases hk
    exact Nat.two_pow_pos 64
  · next i hn =>
    split_ifs at hk with hi
    cases hk
    have := h i hn
    omega

/-- The hash of a vote, and so every signature `CheckSignature` accepts for it, commits to
the block height and the account and to nothing else: two votes of heights below `2 ^ 64`
have the same hash exactly when their heights, a nil height counting as zero, and their
accounts are the same, whatever their `MasternodeId` and `KeySize`; and every vote of a
negative height, which does not encode, hashes as the empty input, whatever its account. -/
theorem hash_eq_iff {m m' : MasternodePaymentVote} (h : ∀ i ∈ m.number, i < 2 ^ 64)
    (h' : ∀ i ∈ m'.number, i < 2 ^ 64) :
    (m.hash = m'.hash ↔ m.signedKey = m'.signedKey) ∧ (m.signedKey = none → m.hash = ⟨[]⟩) := by
  rw [hash_eq_keyHash, hash_eq_keyHash]
  refine ⟨⟨fun hk => ?_, congrArg keyHash⟩, fun hk => by rw [hk, keyHash]⟩
  rcases hm : m.signedKey with _ | ⟨n, a⟩ <;>
    rcases hm' : m'.signedKey with _ | ⟨n', a'⟩ <;>
    simp only [hm, hm', keyHash, Keccak256.mk.injEq] at hk ⊢
  · exact (encodeKey_ne_nil n' a' hk.symm).elim
  · exact (encodeKey_ne_nil n a hk).elim
  · obtain ⟨rfl, rfl⟩ := encodeKey_inj (signedKey_lt h hm) (signedKey_lt h' hm') hk
    rfl

theorem hash_eq_iff_ids :
    (∀ i ∈ (newMasternodePaymentVote (some 7) "a" Address.zero).number, i < 2 ^ 64) ∧
      (∀ i ∈ (newMasternodePaymentVote (some 7) "b" Address.zero).number, i < 2 ^ 64) ∧
      (∀ i ∈ (newMasternodePaymentVote (some (-1)) "a" Address.zero).number, i < 2 ^ 64) ∧
      ((newMasternodePaymentVote (some 7) "a" Address.zero).hash =
          (newMasternodePaymentVote (some 7) "b" Address.zero).hash ↔
        (newMasternodePaymentVote (some 7) "a" Address.zero).signedKey =
          (newMasternodePaymentVote (some 7) "b" Address.zero).signedKey) ∧
      (newMasternodePaymentVote (some (-1)) "a" Address.zero).hash = ⟨[]⟩ :=
  have hb : ∀ i ∈ some (7 : Int), i < 2 ^ 64 := fun i hi => by cases hi; decide
  have hn : ∀ i ∈ some (-1 : Int), i < 2 ^ 64 := fun i hi => by cases hi; decide
  ⟨hb, hb, hn, (hash_eq_iff hb hb).1,
    (@hash_eq_iff (newMasternodePaymentVote (some (-1)) "a" Address.zero)
      (newMasternodePaymentVote (some 7) "b" Address.zero) hn hb).2 rfl⟩

end MasternodePaymentVote

end Devote
