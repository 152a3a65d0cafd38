import CommonChat.Frontend.Clients

/-!
# Peer ids and keys

The signature check decodes a peer id, and everything else compares it as a
string.  The decoder reads digits of both cases while `pub_key` writes lower
case, so the two views of a key agree on the spellings without upper-case digits
and on no others.
-/

namespace CommonChat.Frontend

open CommonChat.Foundation
open CommonChat.Core
open CommonChat.Relay

variable {H : Host}

/-- The string is a spelling of the key, in either case of the digits. -/
def Spells (H : Host) (p : JsString) (pk : PublicKey) : Prop :=
  H.ed25519.hex.decode (encodeUtf8 p) = .ok pk.bytes

instance (p : JsString) (pk : PublicKey) : Decidable (Spells H p pk) :=
  decidable_of_iff ((match H.ed25519.hex.decode (encodeUtf8 p) with
    | .ok bytes => decide (bytes = pk.bytes)
    | .error _ => false) = true) (by
      unfold Spells
      cases H.ed25519.hex.decode (encodeUtf8 p) <;> simp)

theorem Spells.unique {p : JsString} {pk pk' : PublicKey} (h : Spells H p pk)
    (h' : Spells H p pk') : pk = pk' :=
  FixedBytes.eq_of_bytes (Except.ok.inj (h.symm.trans h'))

def pubKeyText (H : Host) (pk : PublicKey) : JsString := ofAscii (H.ed25519.hex.encode pk.bytes)

theorem spells_pubKeyText (pk : PublicKey) : Spells H (pubKeyText H pk) pk := by
  unfold Spells pubKeyText
  rw [encodeUtf8_ofAscii (H.ed25519.hex.encode_ascii _), H.ed25519.hex.decode_encode]

def hasUpperDigit (p : JsString) : Bool :=
  p.any fun u => 65 ≤ u.toNat && u.toNat ≤ 70

private theorem hasUpperDigit_ofAscii (bytes : Bytes) :
    hasUpperDigit (ofAscii bytes) = bytes.any Hex.isUpper := by
  unfold hasUpperDigit ofAscii
  rw [List.any_map]
  rfl

theorem Spells.eq_pubKeyText_iff {p : JsString} {pk : PublicKey}
    (h : Spells H p pk) : p = pubKeyText H pk ↔ hasUpperDigit p = false := by
  have hp : ofAscii (encodeUtf8 p) = p :=
    ofAscii_encodeUtf8 (H.ed25519.hex.ascii_of_decode h)
  have hcanonical : p = pubKeyText H pk ↔ H.ed25519.hex.encode pk.bytes = encodeUtf8 p := by
    constructor
    · intro heq
      rw [heq, pubKeyText, encodeUtf8_ofAscii (H.ed25519.hex.encode_ascii _)]
    · intro heq
      rw [pubKeyText, heq, hp]
  rw [hcanonical, H.ed25519.hex.encode_eq_iff_of_decode h, ← hp, hasUpperDigit_ofAscii, hp,
    List.any_eq_false]
  simp only [Bool.not_eq_true]

def KeySized (p : JsString) : Prop := p.length = 64

theorem keySized_of_spells {p : JsString} {pk : PublicKey} (h : Spells H p pk) :
    KeySized p := by
  have hp : ofAscii (encodeUtf8 p) = p :=
    ofAscii_encodeUtf8 (H.ed25519.hex.ascii_of_decode h)
  have hlen := H.ed25519.hex.length_of_decode h
  rw [pk.size] at hlen
  rw [KeySized, ← hp, ofAscii, List.length_map]
  exact hlen

theorem KeySized.ne_nil {p : JsString} (h : KeySized p) : p ≠ [] := by
  rintro rfl
  cases h

theorem KeySized.ne_broadcastId {p : JsString} (h : KeySized p) :
    p ≠ broadcastId := by
  rintro rfl
  revert h
  unfold KeySized
  decide

private theorem ne_nil_of_decode {s : JsString} {sig : Signature}
    (h : H.ed25519.hex.decode (encodeUtf8 s) = .ok sig.bytes) : s ≠ [] := by
  rintro rfl
  have hlen := H.ed25519.hex.length_of_decode h
  rw [sig.size] at hlen
  cases hlen

theorem truthy_of_verifySignature {m : ChatMessage}
    (h : verifySignature H m.peerId m.text m.signatureHex = true) :
    m.peerId.truthy = true ∧ m.signatureHex.truthy = true := by
  obtain ⟨p, s, -, pk, sig, hp, hs, -, hpk, hsig, -⟩ := exists_of_verifySignature h
  rw [hp, hs, JsValue.truthy_str, JsValue.truthy_str]
  exact ⟨(keySized_of_spells hpk).ne_nil, ne_nil_of_decode hsig⟩

theorem spells_of_incoming {me : JsString} {m e : ChatMessage}
    (h : Tab.incoming H me m = some e) :
    ∃ p pk, m.peerId = .str p ∧ Spells H p pk := by
  obtain ⟨-, hverify, -⟩ := (Tab.incoming_eq_some_iff me m e).mp h
  obtain ⟨p, -, -, pk, -, hp, -, -, hpk, -⟩ := exists_of_verifySignature hverify
  exact ⟨p, pk, hp, hpk⟩

/--
An admitted peer id is the string of `pub_key` for its key exactly when it has
no upper-case digit; against such a one, another admitted spelling of the same
key is equal exactly when it has none either.
-/
theorem peerId_canonical_iff {me : JsString} {m e : ChatMessage}
    (h : Tab.incoming H me m = some e) :
    ∃ p pk, m.peerId = .str p ∧ Spells H p pk ∧
      (p = pubKeyText H pk ↔ hasUpperDigit p = false) ∧
      ∀ me' m' e' p', Tab.incoming H me' m' = some e' → m'.peerId = .str p' →
        Spells H p' pk → hasUpperDigit p = false →
        (p = p' ↔ hasUpperDigit p' = false) := by
  obtain ⟨p, pk, hp, hspells⟩ := spells_of_incoming h
  refine ⟨p, pk, hp, hspells, hspells.eq_pubKeyText_iff, ?_⟩
  intro me' m' e' p' _ _ hspells' hlower
  rw [hspells.eq_pubKeyText_iff.mpr hlower, eq_comm]
  exact hspells'.eq_pubKeyText_iff

def upperMessage (id text : JsString) : ChatMessage :=
  { plainMessage 0xAA id text with peerId := .str (List.replicate 64 65) }

theorem peerId_canonical_plain :
    (Tab.incoming plainHost [] (plainMessage 0xAA (js "1") (js "hi"))).isSome ∧
      (Tab.incoming plainHost [] (upperMessage (js "2") (js "hi"))).isSome ∧
      ∃ p pk, (plainMessage 0xAA (js "1") (js "hi")).peerId = .str p ∧
        Spells plainHost p pk ∧ (p = pubKeyText plainHost pk ↔ hasUpperDigit p = false) ∧
        (p = List.replicate 64 65 ↔ hasUpperDigit (List.replicate 64 65) = false) := by
  have hadmitted : (Tab.incoming plainHost []
      (plainMessage 0xAA (js "1") (js "hi"))).isSome = true := by
    decide +kernel
  have hupper : (Tab.incoming plainHost []
      (upperMessage (js "2") (js "hi"))).isSome = true := by
    decide +kernel
  obtain ⟨e, he⟩ := Option.isSome_iff_exists.mp hadmitted
  obtain ⟨e', he'⟩ := Option.isSome_iff_exists.mp hupper
  obtain ⟨p, pk, hp, hspells, hiff, hpair⟩ := peerId_canonical_iff he
  obtain rfl : plainPeer 0xAA = p := JsValue.str.inj hp
  have hkey : Spells plainHost (plainPeer 0xAA) (plainKey 0xAA) := by decide +kernel
  obtain rfl := hkey.unique hspells
  exact ⟨hadmitted, hupper, plainPeer 0xAA, plainKey 0xAA, rfl, hkey, hiff,
    hpair [] _ e' _ he' rfl (by decide +kernel) (by decide +kernel)⟩

theorem peerId_not_unique :
    ¬ ∀ (H : Host), H.ed25519.Correct →
      ∀ me m₁ m₂ p₁ p₂ pk, (Tab.incoming H me m₁).isSome →
        (Tab.incoming H me m₂).isSome → m₁.peerId = .str p₁ →
        m₂.peerId = .str p₂ → Spells H p₁ pk → Spells H p₂ pk → p₁ = p₂ := by
  intro hall
  have heq := hall plainHost plainEd25519_correct []
    (plainMessage 0xAA (js "1") (js "hi")) (upperMessage (js "2") (js "hi"))
    (plainPeer 0xAA) (List.replicate 64 65) (plainKey 0xAA)
    (by decide +kernel) (by decide +kernel) rfl rfl (by decide +kernel)
    (by decide +kernel)
  exact absurd heq (by decide +kernel)

end CommonChat.Frontend
