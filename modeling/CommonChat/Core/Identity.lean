import CommonChat.Core.UnionUnique
import CommonChat.Foundation.Hex
import CommonChat.Foundation.Value

/-!
# The signing core

`core/src/lib.rs` over the vendored Ed25519 wrapper.  The crates `hex` and
`ed25519_consensus` enter as the record `Ed25519`; what is relied on is in `Hex`
and in `Ed25519.Correct`.  Texts are the UTF-8 bytes that the WebAssembly boundary
passes.
-/

namespace CommonChat.Core

open CommonChat.Foundation

/-! ## Fixed-size arrays -/

structure FixedBytes (n : Nat) where
  bytes : Bytes
  size : bytes.length = n
  deriving DecidableEq

/-- `<[u8; N]>::read`: takes `n` bytes from the front of the buffer. -/
def FixedBytes.read (n : Nat) (buf : Bytes) : Except Codec.Error (FixedBytes n) :=
  if h : n ≤ buf.length then .ok ⟨buf.take n, List.length_take_of_le h⟩
  else .error .endOfBuffer

theorem FixedBytes.eq_of_bytes {n : Nat} {a b : FixedBytes n}
    (h : a.bytes = b.bytes) : a = b := by
  cases a
  cases b
  cases h
  rfl

theorem FixedBytes.read_bytes {n : Nat} (b : FixedBytes n) :
    FixedBytes.read n b.bytes = .ok b := by
  obtain ⟨bytes, rfl⟩ := b
  simp [FixedBytes.read]

/-! ## Ed25519 -/

abbrev PrivateKey := FixedBytes 32
abbrev PublicKey := FixedBytes 32
abbrev Signature := FixedBytes 64

/-- The functions of `ed25519_consensus` and of `hex` that the code calls. -/
structure Ed25519 where
  hex : Hex
  verificationKey : PrivateKey → PublicKey
  isVerificationKey : PublicKey → Bool
  sign : PrivateKey → Bytes → Signature
  verify : PublicKey → Signature → Bytes → Bool

/-- What the code relies on: derived keys decode, and genuine signatures verify. -/
structure Ed25519.Correct (E : Ed25519) : Prop where
  isVerificationKey_verificationKey :
    ∀ sk, E.isVerificationKey (E.verificationKey sk) = true
  verify_sign :
    ∀ sk payload, E.verify (E.verificationKey sk) (E.sign sk payload) payload = true

variable (E : Ed25519)

def signIn (sk : PrivateKey) (ns : Namespace) (msg : Bytes) : Signature :=
  E.sign sk (unionUnique ns msg)

def verifyIn (pk : PublicKey) (ns : Namespace) (msg : Bytes)
    (sig : Signature) : Bool :=
  E.verify pk sig (unionUnique ns msg)

def readPublicKey (buf : Bytes) : Except Codec.Error PublicKey := do
  let raw ← FixedBytes.read 32 buf
  if E.isVerificationKey raw then .ok raw
  else .error (.wrapped "ed25519" "MalformedPublicKey")

/-! ## The exported functions -/

def chatNamespace : Namespace :=
  ⟨"commonchat.v1".toList.map fun c => c.val.toUInt8, by decide⟩

structure JsError where
  message : String
  deriving DecidableEq, Repr

/-- An identity; its cached public key is always the one of its private key. -/
structure CommonwareIdentity where
  privateKey : PrivateKey
  pubKeyHex : Bytes
  pubKeyHex_eq : pubKeyHex = E.hex.encode (E.verificationKey privateKey).bytes

namespace CommonwareIdentity

variable {E}

def pubKey (identity : CommonwareIdentity E) : Bytes := identity.pubKeyHex

def publicKey (identity : CommonwareIdentity E) : PublicKey :=
  E.verificationKey identity.privateKey

def sign (identity : CommonwareIdentity E) (message : Bytes) : Bytes :=
  E.hex.encode (signIn E identity.privateKey chatNamespace message).bytes

def exportPrivateHex (identity : CommonwareIdentity E) : Bytes :=
  E.hex.encode identity.privateKey.bytes

end CommonwareIdentity

/-- `create_identity`, with the key drawn by the random generator. -/
def createIdentity (random : PrivateKey) : CommonwareIdentity E :=
  ⟨random, E.hex.encode (E.verificationKey random).bytes, rfl⟩

def verifySignature (pubKeyHex message signatureHex : Bytes) :
    Except JsError Bool := do
  let pubBytes ← (E.hex.decode pubKeyHex).mapError fun e =>
    ⟨"invalid pub key hex: " ++ e⟩
  if pubBytes.length ≠ 32 then
    .error ⟨"invalid pub key length"⟩
  else
    let sigBytes ← (E.hex.decode signatureHex).mapError fun e =>
      ⟨"invalid sig hex: " ++ e⟩
    if sigBytes.length ≠ 64 then
      .error ⟨"invalid signature length"⟩
    else
      let publicKey ← (readPublicKey E pubBytes).mapError fun e =>
        ⟨"decode pub key: " ++ e.debug⟩
      let signature ← (FixedBytes.read 64 sigBytes).mapError fun e =>
        ⟨"decode signature: " ++ e.debug⟩
      .ok (verifyIn E publicKey chatNamespace message signature)

def identityFromPrivateHex (hexStr : Bytes) :
    Except JsError (CommonwareIdentity E) := do
  let bytesVec ← (E.hex.decode hexStr).mapError fun e =>
    ⟨"invalid hex: " ++ e⟩
  if bytesVec.length ≠ 32 then
    .error ⟨"invalid key length"⟩
  else
    let privateKey ← (FixedBytes.read 32 bytesVec).mapError fun e =>
      ⟨"decode key: " ++ e.debug⟩
    .ok (createIdentity E privateKey)

/-! ## What verification establishes -/

variable {E}

private theorem mapError_eq_ok {ε ε' α : Type*} {x : Except ε α}
    {f : ε → ε'} {a : α} : x.mapError f = .ok a ↔ x = .ok a := by
  cases x <;> simp [Except.mapError]

private theorem read_eq_ok_iff {n : Nat} {buf : Bytes} {b : FixedBytes n}
    (hlen : buf.length = n) : FixedBytes.read n buf = .ok b ↔ buf = b.bytes := by
  constructor
  · intro h
    unfold FixedBytes.read at h
    split at h
    · cases h
      exact (List.take_of_length_le (by omega)).symm
    · cases h
  · intro h
    rw [h]
    exact b.read_bytes

private theorem readPublicKey_eq_ok_iff {buf : Bytes} {pk : PublicKey}
    (hlen : buf.length = 32) :
    readPublicKey E buf = .ok pk ↔
      buf = pk.bytes ∧ E.isVerificationKey pk = true := by
  unfold readPublicKey
  rw [except_bind_eq_ok]
  constructor
  · rintro ⟨raw, hread, hkey⟩
    split at hkey
    · rename_i hvalid
      cases hkey
      exact ⟨(read_eq_ok_iff hlen).mp hread, hvalid⟩
    · cases hkey
  · rintro ⟨hbuf, hvalid⟩
    exact ⟨pk, (read_eq_ok_iff hlen).mpr hbuf, by rw [if_pos hvalid]⟩

theorem verifySignature_eq_ok_true_iff (pubKeyHex message signatureHex : Bytes) :
    verifySignature E pubKeyHex message signatureHex = .ok true ↔
      ∃ (pk : PublicKey) (sig : Signature),
        E.hex.decode pubKeyHex = .ok pk.bytes ∧
        E.hex.decode signatureHex = .ok sig.bytes ∧
        E.isVerificationKey pk = true ∧
        E.verify pk sig (unionUnique chatNamespace message) = true := by
  unfold verifySignature
  constructor
  · intro h
    obtain ⟨pubBytes, hpub, h⟩ := except_bind_eq_ok.mp h
    rw [mapError_eq_ok] at hpub
    split at h
    · cases h
    rename_i hpubLen
    obtain ⟨sigBytes, hsig, h⟩ := except_bind_eq_ok.mp h
    rw [mapError_eq_ok] at hsig
    split at h
    · cases h
    rename_i hsigLen
    obtain ⟨pk, hpk, hbody⟩ := except_bind_eq_ok.mp h
    obtain ⟨sig, hread, hverify⟩ := except_bind_eq_ok.mp hbody
    rw [mapError_eq_ok] at hpk hread
    obtain ⟨rfl, hvalid⟩ := (readPublicKey_eq_ok_iff (not_not.mp hpubLen)).mp hpk
    obtain rfl := (read_eq_ok_iff (not_not.mp hsigLen)).mp hread
    exact ⟨pk, sig, hpub, hsig, hvalid, by simpa [verifyIn] using hverify⟩
  · rintro ⟨pk, sig, hpub, hsig, hvalid, hverify⟩
    have hpk := (readPublicKey_eq_ok_iff (E := E) pk.size).mpr ⟨rfl, hvalid⟩
    rw [hpub, hsig]
    simp [Except.mapError, bind, Except.bind, pk.size, sig.size, hpk,
      sig.read_bytes, verifyIn, hverify]

theorem verifySignature_sign (hE : E.Correct) (identity : CommonwareIdentity E)
    (message : Bytes) :
    verifySignature E identity.pubKey message (identity.sign message) =
      .ok true := by
  rw [verifySignature_eq_ok_true_iff]
  refine ⟨identity.publicKey, signIn E identity.privateKey chatNamespace message,
    ?_, E.hex.decode_encode _, hE.isVerificationKey_verificationKey _,
    hE.verify_sign _ _⟩
  rw [CommonwareIdentity.pubKey, identity.pubKeyHex_eq]
  exact E.hex.decode_encode _

theorem decode_pubKey (identity : CommonwareIdentity E) :
    E.hex.decode identity.pubKey = .ok identity.publicKey.bytes := by
  rw [CommonwareIdentity.pubKey, identity.pubKeyHex_eq]
  exact E.hex.decode_encode _

theorem ascii_pubKey (identity : CommonwareIdentity E) :
    ∀ b ∈ identity.pubKey, b.toNat < 0x80 := by
  rw [CommonwareIdentity.pubKey, identity.pubKeyHex_eq]
  exact E.hex.encode_ascii _

/-! ## Export and import -/

theorem identityFromPrivateHex_eq_ok_iff (hexStr : Bytes)
    (identity : CommonwareIdentity E) :
    identityFromPrivateHex E hexStr = .ok identity ↔
      E.hex.decode hexStr = .ok identity.privateKey.bytes := by
  unfold identityFromPrivateHex
  constructor
  · intro h
    obtain ⟨bytesVec, hdecode, h⟩ := except_bind_eq_ok.mp h
    rw [mapError_eq_ok] at hdecode
    split at h
    · cases h
    rename_i hlen
    obtain ⟨privateKey, hread, h⟩ := except_bind_eq_ok.mp h
    rw [mapError_eq_ok, read_eq_ok_iff (not_not.mp hlen)] at hread
    cases h
    rw [hdecode, hread]
    rfl
  · intro hdecode
    have hidentity : createIdentity E identity.privateKey = identity := by
      obtain ⟨privateKey, pubKeyHex, rfl⟩ := identity
      rfl
    rw [hdecode]
    simp [Except.mapError, bind, Except.bind, identity.privateKey.size,
      identity.privateKey.read_bytes, hidentity]

theorem exists_identityFromPrivateHex_iff (hexStr : Bytes) :
    (∃ identity, identityFromPrivateHex E hexStr = .ok identity) ↔
      hexStr.length = 64 ∧ ∀ c ∈ hexStr, Hex.isHexDigit c = true := by
  constructor
  · rintro ⟨identity, h⟩
    have hdecode := (identityFromPrivateHex_eq_ok_iff hexStr identity).mp h
    have hlen := E.hex.length_of_decode hdecode
    rw [identity.privateKey.size] at hlen
    exact ⟨hlen, ((E.hex.exists_decode_iff hexStr).mp ⟨_, hdecode⟩).2⟩
  · rintro ⟨hlen, hdigits⟩
    obtain ⟨bytes, hdecode⟩ := (E.hex.exists_decode_iff hexStr).mpr
      ⟨by rw [hlen], hdigits⟩
    have hsize : bytes.length = 32 := by
      have htext := E.hex.length_of_decode hdecode
      omega
    exact ⟨createIdentity E ⟨bytes, hsize⟩,
      (identityFromPrivateHex_eq_ok_iff hexStr _).mpr hdecode⟩

/--
Import accepts 64 digits of either case and export gives them back in lower
case; an exported identity is restored, and what it signs then verifies.
-/
theorem identity_export_import (hE : E.Correct) :
    (∀ hexStr : Bytes, (∃ identity, identityFromPrivateHex E hexStr = .ok identity) ↔
      hexStr.length = 64 ∧ ∀ c ∈ hexStr, Hex.isHexDigit c = true) ∧
    (∀ hexStr identity, identityFromPrivateHex E hexStr = .ok identity →
      identity.exportPrivateHex = hexStr.map Hex.toLower) ∧
    ∀ identity : CommonwareIdentity E, ∃ restored,
      identityFromPrivateHex E identity.exportPrivateHex = .ok restored ∧
      restored.privateKey = identity.privateKey ∧
      restored.pubKey = identity.pubKey ∧
      ∀ message, verifySignature E identity.pubKey message
        (restored.sign message) = .ok true := by
  refine ⟨exists_identityFromPrivateHex_iff, ?_, ?_⟩
  · intro hexStr identity h
    exact E.hex.encode_of_decode ((identityFromPrivateHex_eq_ok_iff _ _).mp h)
  · intro identity
    refine ⟨identity, ?_, rfl, rfl, verifySignature_sign hE identity⟩
    exact (identityFromPrivateHex_eq_ok_iff _ _).mpr (E.hex.decode_encode _)

/-! ## A scheme to run with -/

def plainSignature (sk : PrivateKey) (payload : Bytes) : Signature :=
  ⟨(sk.bytes ++ payload ++ List.replicate 32 0).take 64, by
    have hsize := sk.size
    simp only [List.length_take, List.length_append, List.length_replicate]
    omega⟩

/-- A scheme with readable keys and signatures, in which concrete runs evaluate. -/
def plainEd25519 : Ed25519 where
  hex := plainHex
  verificationKey sk := sk
  isVerificationKey _ := true
  sign := plainSignature
  verify pk sig payload := sig = plainSignature pk payload

theorem plainEd25519_correct : plainEd25519.Correct where
  isVerificationKey_verificationKey _ := rfl
  verify_sign _ _ := decide_eq_true rfl

def plainKey (n : UInt8) : PrivateKey := ⟨List.replicate 32 n, by simp⟩

theorem identity_export_import_plain :
    ∃ restored : CommonwareIdentity plainEd25519,
      identityFromPrivateHex plainEd25519 (List.replicate 64 65) = .ok restored ∧
      restored.exportPrivateHex = List.replicate 64 97 := by
  obtain ⟨haccepts, hexport, -⟩ := identity_export_import plainEd25519_correct
  obtain ⟨restored, hrestored⟩ := (haccepts (List.replicate 64 65)).mpr
    (by decide +kernel)
  refine ⟨restored, hrestored, ?_⟩
  rw [hexport _ _ hrestored]
  rfl

end CommonChat.Core
