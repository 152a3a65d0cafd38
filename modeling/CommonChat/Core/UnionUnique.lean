import CommonChat.Core.Varint

/-!
# Namespace framing

`unionUnique` is the byte string that is actually signed: the length of the
namespace as a varint, the namespace, and the message.  The frame is injective,
so a signature made under one namespace is never a signature under another.
-/

namespace CommonChat.Core

open CommonChat.Foundation
open Varint

/-- A namespace the codec can frame; it panics on lengths that are not `u32`. -/
structure Namespace where
  bytes : Bytes
  fits : bytes.length < 2 ^ 32
  deriving DecidableEq

def Namespace.length (ns : Namespace) : BitVec UPrim.u32.bits :=
  BitVec.ofNat UPrim.u32.bits ns.bytes.length

def unionUnique (ns : Namespace) (msg : Bytes) : Bytes :=
  Varint.write ns.length ++ ns.bytes ++ msg

theorem Namespace.toNat_length (ns : Namespace) : ns.length.toNat = ns.bytes.length := by
  rw [Namespace.length, BitVec.toNat_ofNat]
  exact Nat.mod_eq_of_lt ns.fits

theorem unionUnique_inj {ns ns' : Namespace} {msg msg' : Bytes}
    (h : unionUnique ns msg = unionUnique ns' msg') :
    ns = ns' ∧ msg = msg' := by
  simp only [unionUnique, List.append_assoc, write_eq, Namespace.toNat_length] at h
  obtain ⟨hlen, hrest⟩ := Leb128.encode_append_inj h
  obtain ⟨hbytes, rfl⟩ := List.append_inj hrest hlen
  obtain ⟨bytes, hfits⟩ := ns
  obtain ⟨bytes', hfits'⟩ := ns'
  cases hbytes
  exact ⟨rfl, rfl⟩

end CommonChat.Core
