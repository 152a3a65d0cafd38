import CommonChat.Core.Identity
import CommonChat.Core.Varint
import CommonChat.Foundation.Format
import Mathlib.Data.List.Induction
import Mathlib.Order.Basic

/-!
# The codec

The traits of `codec/src/codec.rs` and their implementations for the built-in
types.  Each implementation is shown lawful from its parts: what decodes is what
encodes, under the limits of the configuration, and in one form only.  A write
can panic, when a length is not a `u32`.
-/

namespace CommonChat.Core

open CommonChat.Foundation
open Codec

/-! ## The traits -/

class Codec (α : Type) (Cfg : outParam Type) where
  write : α → Except Fault Bytes
  encodeSize : α → Except Fault Nat
  readCfg : Cfg → Reader UInt8 Fault α

namespace Codec

variable {α Cfg : Type} [Codec α Cfg]

def encode (v : α) : Except Fault Bytes := do
  let len ← encodeSize v
  let buffer ← write v
  if buffer.length = len then .ok buffer else .error .panic

def decodeCfg (α : Type) {Cfg : Type} [Codec α Cfg] (buf : Bytes) (cfg : Cfg) :
    Except Fault α := do
  let (result, rest) ← (readCfg cfg : Reader UInt8 Fault α).run buf
  if rest.length > 0 then .error (.error (.extraData rest.length)) else .ok result

end Codec

/-- An implementation that reads back what it writes, and what the limits allow. -/
class LawfulCodec (α : Type) {Cfg : outParam Type} [Codec α Cfg] where
  Valid : Cfg → α → Prop
  lawful : ∀ cfg, Lawful (.error .endOfBuffer) write (readCfg cfg) (Valid cfg)
  encodeSize_eq : ∀ v : α, encodeSize v = (write v).map List.length
  eq_panic : ∀ (v : α) (fault : Fault), write v = .error fault → fault = .panic

namespace Codec

variable {α Cfg : Type} [Codec α Cfg] [LawfulCodec α]

theorem encode_eq (v : α) : encode v = write v := by
  rw [encode, LawfulCodec.encodeSize_eq]
  cases write v with
  | error fault => rfl
  | ok out => exact if_pos rfl

theorem decodeCfg_eq_ok_iff (bytes : Bytes) (cfg : Cfg) (v : α) :
    decodeCfg α bytes cfg = .ok v ↔ LawfulCodec.Valid cfg v ∧ encode v = .ok bytes := by
  have hlawful := LawfulCodec.lawful (α := α) cfg
  rw [encode_eq]
  constructor
  · intro h
    unfold decodeCfg at h
    cases hread : (readCfg cfg : Reader UInt8 Fault α).run bytes with
    | error fault =>
        rw [hread] at h
        cases h
    | ok found =>
        obtain ⟨result, rest⟩ := found
        obtain ⟨hvalid, out, hout, rfl⟩ := (hlawful.read_iff _ _ _).mp hread
        rw [hread] at h
        simp only [bind, Except.bind] at h
        split at h
        · cases h
        · rename_i hrest
          cases h
          obtain rfl : rest = [] := List.length_eq_zero_iff.mp (by omega)
          exact ⟨hvalid, by rw [List.append_nil, hout]⟩
  · rintro ⟨hvalid, hout⟩
    have hread := hlawful.read_append hvalid hout []
    rw [List.append_nil] at hread
    rw [decodeCfg, hread]
    rfl

theorem decodeCfg_of_truncated {cfg : Cfg} {v : α} (hvalid : LawfulCodec.Valid cfg v)
    {bytes tail : Bytes} (htail : tail ≠ []) (hout : encode v = .ok (bytes ++ tail)) :
    decodeCfg α bytes cfg = .error (.error .endOfBuffer) := by
  rw [encode_eq] at hout
  have hread := (LawfulCodec.lawful (α := α) cfg).truncated v _ bytes tail hvalid hout
    rfl htail
  rw [decodeCfg, hread]
  rfl

theorem decodeCfg_of_append {cfg : Cfg} {v : α} (hvalid : LawfulCodec.Valid cfg v)
    {bytes rest : Bytes} (hrest : rest ≠ []) (hout : encode v = .ok bytes) :
    decodeCfg α (bytes ++ rest) cfg = .error (.error (.extraData rest.length)) := by
  rw [encode_eq] at hout
  have hread := (LawfulCodec.lawful (α := α) cfg).read_append hvalid hout rest
  have hlen := List.length_pos_of_ne_nil hrest
  rw [decodeCfg, hread]
  exact if_pos hlen

end Codec

/-! ## Numbers -/

def atLeast (len : Nat) : Reader UInt8 Fault Unit := fun buf =>
  if buf.length < len then .error (.error .endOfBuffer) else .ok ((), buf)

def copyToBytes (len : Nat) : Reader UInt8 Fault Bytes := fun buf =>
  if buf.length < len then .error .panic else .ok (buf.take len, buf.drop len)

def takeBytes (len : Nat) : Reader UInt8 Fault Bytes := do
  atLeast len
  copyToBytes len

theorem run_takeBytes (len : Nat) (buf : Bytes) :
    (takeBytes len).run buf = if buf.length < len then .error (.error .endOfBuffer)
      else .ok (buf.take len, buf.drop len) := by
  change (atLeast len >>= fun _ => copyToBytes len).run buf = _
  by_cases h : buf.length < len
  · have hfirst : (atLeast len).run buf = .error (.error .endOfBuffer) := if_pos h
    rw [Reader.bind_of_error hfirst, if_pos h]
  · have hfirst : (atLeast len).run buf = .ok ((), buf) := if_neg h
    rw [Reader.bind_of_ok hfirst]
    exact (if_neg h).trans (if_neg h).symm

theorem lawful_takeBytes (len : Nat) :
    Lawful (.error .endOfBuffer) (fun v => .ok v) (takeBytes len)
      (fun v => v.length = len) where
  read_iff input v rest := by
    rw [run_takeBytes]
    constructor
    · intro h
      split at h
      · cases h
      · rename_i hlen
        cases h
        exact ⟨List.length_take_of_le (by omega), _, rfl,
          (List.take_append_drop len input).symm⟩
    · rintro ⟨rfl, out, hout, rfl⟩
      cases hout
      rw [if_neg (by simp), List.take_left, List.drop_left]
  truncated v out input tail hlen hout heq htail := by
    cases hout
    have htail := List.length_pos_of_ne_nil htail
    rw [run_takeBytes, if_pos]
    rw [← hlen, heq, List.length_append]
    omega

def putBigEndian : Nat → Nat → Bytes
  | 0, _ => []
  | size + 1, value => putBigEndian size (value / 256) ++ [UInt8.ofNat value]

def getBigEndian (bytes : Bytes) : Nat :=
  bytes.foldl (fun value byte => value * 256 + byte.toNat) 0

theorem length_putBigEndian (size value : Nat) :
    (putBigEndian size value).length = size := by
  induction size generalizing value with
  | zero => rfl
  | succ size ih => rw [putBigEndian, List.length_append, ih, List.length_singleton]

theorem getBigEndian_concat (bytes : Bytes) (byte : UInt8) :
    getBigEndian (bytes ++ [byte]) = getBigEndian bytes * 256 + byte.toNat := by
  simp [getBigEndian, List.foldl_append]

theorem getBigEndian_putBigEndian {size value : Nat} (h : value < 2 ^ (8 * size)) :
    getBigEndian (putBigEndian size value) = value := by
  induction size generalizing value with
  | zero =>
      have hzero : value = 0 := by simpa using h
      rw [hzero]
      rfl
  | succ size ih =>
      have hpow : 2 ^ (8 * (size + 1)) = 256 * 2 ^ (8 * size) := by
        rw [show 8 * (size + 1) = 8 + 8 * size by omega, Nat.pow_add]
      rw [putBigEndian, getBigEndian_concat, ih (by omega), UInt8.toNat_ofNat']
      omega

theorem getBigEndian_lt (bytes : Bytes) : getBigEndian bytes < 2 ^ (8 * bytes.length) := by
  induction bytes using List.reverseRecOn with
  | nil => simp [getBigEndian]
  | append_singleton bytes byte ih =>
      have hbyte := byte.toNat_lt
      have hpow : 2 ^ (8 * (bytes.length + 1)) = 256 * 2 ^ (8 * bytes.length) := by
        rw [show 8 * (bytes.length + 1) = 8 + 8 * bytes.length by omega, Nat.pow_add]
      rw [getBigEndian_concat, List.length_append, List.length_singleton, hpow]
      omega

theorem putBigEndian_getBigEndian (bytes : Bytes) :
    putBigEndian bytes.length (getBigEndian bytes) = bytes := by
  induction bytes using List.reverseRecOn with
  | nil => rfl
  | append_singleton bytes byte ih =>
      have hbyte := byte.toNat_lt
      rw [getBigEndian_concat, List.length_append, List.length_singleton, putBigEndian]
      have hdiv : (getBigEndian bytes * 256 + byte.toNat) / 256 = getBigEndian bytes := by
        omega
      have hlast : UInt8.ofNat (getBigEndian bytes * 256 + byte.toNat) = byte := by
        apply UInt8.toNat_inj.mp
        rw [UInt8.toNat_ofNat']
        omega
      rw [hdiv, ih, hlast]

/-- The unsigned numbers of a size, such as `u16`, with their order. -/
abbrev Num (size : Nat) := Fin (2 ^ (8 * size))

def readNum (size : Nat) : Reader UInt8 Fault (Num size) := do
  let bytes ← takeBytes size
  pure (Fin.ofNat _ (getBigEndian bytes))

instance codecNum (size : Nat) : Codec (Num size) Unit where
  write v := .ok (putBigEndian size v.val)
  encodeSize _ := .ok size
  readCfg _ := readNum size

theorem lawful_readNum (size : Nat) :
    Lawful (.error .endOfBuffer) (fun v : Num size => .ok (putBigEndian size v.val))
      (readNum size) (fun _ => True) := by
  refine ((lawful_takeBytes size).map ?_).congr (fun _ _ => rfl) ?_
  · intro bytes hlen
    have hlt := getBigEndian_lt bytes
    rw [hlen] at hlt
    change Except.ok (putBigEndian size (getBigEndian bytes % 2 ^ (8 * size))) = .ok bytes
    rw [Nat.mod_eq_of_lt hlt, ← hlen, putBigEndian_getBigEndian]
  · intro v
    refine iff_of_true trivial ⟨_, length_putBigEndian size v.val, Fin.ext ?_⟩
    change v.val = getBigEndian (putBigEndian size v.val) % 2 ^ (8 * size)
    rw [getBigEndian_putBigEndian v.isLt, Nat.mod_eq_of_lt v.isLt]

instance lawfulNum (size : Nat) : LawfulCodec (Num size) where
  Valid _ _ := True
  lawful _ := lawful_readNum size
  encodeSize_eq v := congrArg Except.ok (length_putBigEndian size v.val).symm
  eq_panic := nofun

/-! ## Lengths -/

inductive Bound where
  | included (value : Nat)
  | excluded (value : Nat)
  | unbounded

structure RangeCfg where
  start : Bound
  stop : Bound

def RangeCfg.contains (range : RangeCfg) (value : Nat) : Bool :=
  (match range.start with
    | .included s => !decide (value < s)
    | .excluded s => !decide (value ≤ s)
    | .unbounded => true) &&
  match range.stop with
    | .included e => !decide (value > e)
    | .excluded e => !decide (value ≥ e)
    | .unbounded => true

/-- `usize::write`: the value is written as a `u32`. -/
def writeUsize (value : Nat) : Except Fault Bytes :=
  if value < 2 ^ 32 then .ok (Varint.write (BitVec.ofNat Varint.UPrim.u32.bits value))
  else .error .panic

def sizeUsize (value : Nat) : Except Fault Nat :=
  if value < 2 ^ 32 then .ok (Varint.size (BitVec.ofNat Varint.UPrim.u32.bits value))
  else .error .panic

def readU32 : Reader UInt8 Fault (BitVec Varint.UPrim.u32.bits) := Varint.read .u32

def readUsize (range : RangeCfg) : Reader UInt8 Fault Nat := do
  let value ← readU32
  let result := value.toNat
  if range.contains result then pure result
  else throw (.error (.invalidLength result))

instance codecUsize : Codec Nat RangeCfg where
  write := writeUsize
  encodeSize := sizeUsize
  readCfg := readUsize

theorem lawful_readU32 :
    Lawful (.error .endOfBuffer) (fun v => .ok (Varint.write v)) readU32
      (fun _ => True) where
  read_iff input v rest := by
    constructor
    · intro h
      exact ⟨trivial, _, rfl, (Varint.read_eq_ok_iff input v rest).mp h⟩
    · rintro ⟨-, out, hout, rfl⟩
      cases hout
      exact (Varint.read_eq_ok_iff _ v rest).mpr rfl
  truncated v out input tail _ hout heq htail := by
    cases hout
    exact (Varint.read_eq_endOfBuffer_iff input).mpr ⟨v, tail, htail, heq⟩

theorem toNat_ofNat_u32 {value : Nat} (h : value < 2 ^ 32) :
    (BitVec.ofNat Varint.UPrim.u32.bits value).toNat = value := by
  rw [BitVec.toNat_ofNat]
  exact Nat.mod_eq_of_lt h

theorem lawful_readUsize (range : RangeCfg) :
    Lawful (.error .endOfBuffer) writeUsize (readUsize range)
      (fun v => v < 2 ^ 32 ∧ range.contains v = true) := by
  have hnat : Lawful (.error .endOfBuffer)
      (fun v : Nat => .ok (Varint.write (BitVec.ofNat Varint.UPrim.u32.bits v)))
      (do let value ← readU32; pure value.toNat) (fun v => v < 2 ^ 32) := by
    refine (lawful_readU32.map ?_).congr (fun _ _ => rfl) ?_
    · intro v _
      simp
    · intro v
      constructor
      · intro hv
        exact ⟨_, trivial, (toNat_ofNat_u32 hv).symm⟩
      · rintro ⟨value, -, rfl⟩
        exact value.isLt
  have heq : readUsize range = (do
      let result ← (do let value ← readU32; pure value.toNat)
      if range.contains result then pure result
      else throw (.error (.invalidLength result))) := by
    simp only [readUsize, bind_assoc, pure_bind]
  rw [heq]
  refine hnat.check.congr ?_ (fun _ => Iff.rfl)
  rintro v ⟨hv, -⟩
  exact if_pos hv

instance lawfulUsize : LawfulCodec Nat where
  Valid range v := v < 2 ^ 32 ∧ range.contains v = true
  lawful := lawful_readUsize
  encodeSize_eq v := by
    change sizeUsize v = (writeUsize v).map List.length
    unfold sizeUsize writeUsize
    split
    · exact congrArg Except.ok (Varint.length_write _).symm
    · rfl
  eq_panic v fault h := by
    change writeUsize v = .error fault at h
    unfold writeUsize at h
    split at h
    · cases h
    · cases h
      rfl

/-! ## Small types -/

instance codecUnit : Codec Unit Unit where
  write _ := .ok []
  encodeSize _ := .ok 0
  readCfg _ := pure ()

instance lawfulUnit : LawfulCodec Unit where
  Valid _ _ := True
  lawful _ := (Lawful.pure ()).congr (fun _ _ => rfl) (by simp)
  encodeSize_eq _ := rfl
  eq_panic := nofun

def readBool : Reader UInt8 Fault Bool := do
  let tag ← readNum 1
  if tag = 0 then pure false
  else if tag = 1 then pure true
  else throw (.error .invalidBool)

def writeBool (v : Bool) : Except Fault Bytes := .ok [if v then 1 else 0]

instance codecBool : Codec Bool Unit where
  write := writeBool
  encodeSize _ := .ok 1
  readCfg _ := readBool

theorem lawful_readBool :
    Lawful (.error .endOfBuffer) writeBool readBool (fun _ => True) := by
  refine ((lawful_readNum 1).bind
    (Q := fun tag v => (tag = 0 ∧ v = false) ∨ (tag = 1 ∧ v = true))
    (w := fun _ _ => .ok []) ?_ ?_).congr (fun _ _ => rfl) ?_
  · intro tag _
    by_cases hzero : tag = 0
    · rw [if_pos hzero]
      exact (Lawful.pure false).congr (fun _ _ => rfl) (by simp [hzero])
    · rw [if_neg hzero]
      by_cases hone : tag = 1
      · rw [if_pos hone]
        exact (Lawful.pure true).congr (fun _ _ => rfl) (by simp [hone])
      · rw [if_neg hone]
        exact (Lawful.throw _ _).congr (fun _ _ => rfl) (by simp [hzero, hone])
  · rintro tag v - (⟨rfl, rfl⟩ | ⟨rfl, rfl⟩) <;> rfl
  · intro v
    cases v <;> simp

instance lawfulBool : LawfulCodec Bool where
  Valid _ _ := True
  lawful _ := lawful_readBool
  encodeSize_eq _ := rfl
  eq_panic := nofun

instance codecFixedBytes (n : Nat) : Codec (FixedBytes n) Unit where
  write v := .ok v.bytes
  encodeSize _ := .ok n
  readCfg _ := do
    let bytes ← takeBytes n
    if h : bytes.length = n then pure ⟨bytes, h⟩ else throw .panic

instance lawfulFixedBytes (n : Nat) : LawfulCodec (FixedBytes n) where
  Valid _ _ := True
  lawful _ := by
    refine ((lawful_takeBytes n).bind (Q := fun bytes v => v.bytes = bytes)
      (w := fun _ _ => .ok []) ?_ ?_).congr (fun _ _ => rfl) ?_
    · intro bytes hlen
      rw [dif_pos hlen]
      refine (Lawful.pure _).congr (fun _ _ => rfl) ?_
      intro v
      exact ⟨fun h => FixedBytes.eq_of_bytes h, fun h => h ▸ rfl⟩
    · rintro bytes v - rfl
      exact (append_nothing _).symm
    · intro v
      exact iff_of_true trivial ⟨v.bytes, v.size, rfl⟩
  encodeSize_eq v := congrArg Except.ok v.size.symm
  eq_panic := nofun

theorem fixedBytes_read_eq (n : Nat) (buf : Bytes) :
    FixedBytes.read n buf = match (readCfg () : Reader UInt8 Fault (FixedBytes n)).run buf with
      | .ok (v, _) => .ok v
      | .error _ => .error .endOfBuffer := by
  have htake := run_takeBytes n buf
  by_cases h : buf.length < n
  · rw [if_pos h] at htake
    rw [show (readCfg () : Reader UInt8 Fault (FixedBytes n)).run buf = _ from
      Reader.bind_of_error htake]
    exact dif_neg (by omega)
  · rw [if_neg h] at htake
    have hlen : (buf.take n).length = n := List.length_take_of_le (by omega)
    rw [show (readCfg () : Reader UInt8 Fault (FixedBytes n)).run buf = _ from
      Reader.bind_of_ok htake, dif_pos hlen]
    exact dif_pos (by omega)

section Options

variable {α Cfg : Type} [Codec α Cfg]

def readOption (cfg : Cfg) : Reader UInt8 Fault (Option α) := do
  if ← readBool then
    let inner ← readCfg cfg
    pure (some inner)
  else pure none

def writeInner : Option α → Except Fault Bytes
  | some inner => write inner
  | none => .ok []

def writeOption (v : Option α) : Except Fault Bytes := do
  let tag ← writeBool v.isSome
  let inner ← writeInner v
  pure (tag ++ inner)

instance codecOption : Codec (Option α) Cfg where
  write := writeOption
  encodeSize
    | some inner => do
        let size ← encodeSize inner
        pure (1 + size)
    | none => .ok 1
  readCfg := readOption

theorem lawful_readOption [LawfulCodec α] (cfg : Cfg) :
    Lawful (.error .endOfBuffer) writeOption (readOption cfg)
      (fun v : Option α => ∀ inner ∈ v, LawfulCodec.Valid cfg inner) := by
  refine (lawful_readBool.bind
    (Q := fun tag v => tag = Option.isSome v ∧ ∀ inner ∈ v, LawfulCodec.Valid cfg inner)
    (w := fun _ => writeInner) ?_ ?_).congr (fun _ _ => rfl) ?_
  · intro tag _
    cases tag with
    | false =>
        refine (Lawful.pure none).congr ?_ ?_
        · rintro v rfl
          rfl
        · intro v
          cases v <;> simp
    | true =>
        have hinner := LawfulCodec.lawful (α := α) cfg
        refine (hinner.map (w := writeInner) fun inner _ => rfl).congr (fun _ _ => rfl) ?_
        intro v
        cases v <;> simp
  · rintro tag v - ⟨rfl, -⟩
    rfl
  · intro v
    simp

instance lawfulOption [LawfulCodec α] : LawfulCodec (Option α) where
  Valid cfg v := ∀ inner ∈ v, LawfulCodec.Valid cfg inner
  lawful := lawful_readOption
  encodeSize_eq v := by
    change encodeSize v = (writeOption v).map List.length
    rw [writeOption, map_length_append]
    cases v with
    | none => rfl
    | some inner =>
        change (do let size ← encodeSize inner; pure (1 + size)) = _
        rw [LawfulCodec.encodeSize_eq]
        rfl
  eq_panic v fault h := by
    change writeOption v = .error fault at h
    rcases fault_of_append h with htag | hinner
    · cases htag
    · cases v with
      | none => cases hinner
      | some inner => exact LawfulCodec.eq_panic inner fault hinner

end Options

section Tuples

variable {α β CfgA CfgB : Type} [Codec α CfgA] [Codec β CfgB]

def writePair (v : α × β) : Except Fault Bytes := do
  let x ← write v.1
  let y ← write v.2
  pure (x ++ y)

def readPair (cfg : CfgA × CfgB) : Reader UInt8 Fault (α × β) := do
  let a ← readCfg cfg.1
  let b ← readCfg cfg.2
  pure (a, b)

instance codecPair : Codec (α × β) (CfgA × CfgB) where
  write := writePair
  encodeSize v := do
    let m ← encodeSize v.1
    let n ← encodeSize v.2
    pure (m + n)
  readCfg := readPair

instance lawfulPair [LawfulCodec α] [LawfulCodec β] : LawfulCodec (α × β) where
  Valid cfg v := LawfulCodec.Valid cfg.1 v.1 ∧ LawfulCodec.Valid cfg.2 v.2
  lawful cfg := by
    have hleft := LawfulCodec.lawful (α := α) cfg.1
    have hright := LawfulCodec.lawful (α := β) cfg.2
    refine (hleft.bind (fun a _ => hright.map (f := fun b => (a, b))
      (w := fun v => write v.2) fun b _ => rfl) ?_).congr (fun _ _ => rfl) ?_
    · rintro a v - ⟨b, -, rfl⟩
      rfl
    · rintro ⟨a, b⟩
      simp
  encodeSize_eq v := by
    change (do let m ← encodeSize v.1; let n ← encodeSize v.2; pure (m + n)) =
      (writePair v).map List.length
    rw [writePair, map_length_append, LawfulCodec.encodeSize_eq, LawfulCodec.encodeSize_eq]
  eq_panic v fault h := by
    rcases fault_of_append h with hleft | hright
    · exact LawfulCodec.eq_panic v.1 fault hleft
    · exact LawfulCodec.eq_panic v.2 fault hright

end Tuples

/-! ## Sequences -/

section Items

variable {α : Type} {w : α → Except Fault Bytes}

def writeItems (w : α → Except Fault Bytes) (items : List α) : Except Fault Bytes := do
  let x ← writeUsize items.length
  let y ← writeMany w items
  pure (x ++ y)

def sizeItems (size : α → Except Fault Nat) (items : List α) : Except Fault Nat := do
  let m ← sizeUsize items.length
  let n ← sizeMany size items
  pure (m + n)

theorem sizeItems_eq {size : α → Except Fault Nat}
    (h : ∀ a, size a = (w a).map List.length) (items : List α) :
    sizeItems size items = (writeItems w items).map List.length := by
  rw [sizeItems, writeItems, map_length_append, sizeMany_eq h]
  exact congrArg (· >>= _) (LawfulCodec.encodeSize_eq items.length)

theorem fault_of_writeItems (hw : ∀ a fault, w a = .error fault → fault = .panic)
    {items : List α} {fault : Fault} (h : writeItems w items = .error fault) :
    fault = .panic := by
  rcases fault_of_append h with hlen | hitems
  · exact LawfulCodec.eq_panic items.length fault hlen
  · obtain ⟨a, -, ha⟩ := fault_of_writeMany hitems
    exact hw a fault ha

end Items

section Sequences

variable {α Cfg : Type} [Codec α Cfg]

def readVec (cfg : RangeCfg × Cfg) : Reader UInt8 Fault (List α) := do
  let len ← readUsize cfg.1
  readMany (fun _ => readCfg cfg.2) len none

instance codecVec : Codec (List α) (RangeCfg × Cfg) where
  write := writeItems write
  encodeSize := sizeItems encodeSize
  readCfg := readVec

instance lawfulVec [LawfulCodec α] : LawfulCodec (List α) where
  Valid cfg v := (v.length < 2 ^ 32 ∧ cfg.1.contains v.length = true) ∧
    ∀ a ∈ v, LawfulCodec.Valid cfg.2 a
  lawful cfg := by
    have hitem : ∀ last : Option α, Lawful (.error .endOfBuffer) write
        (readCfg cfg.2) (fun a => LawfulCodec.Valid cfg.2 a ∧ True) := fun _ =>
      (LawfulCodec.lawful (α := α) cfg.2).congr (fun _ _ => rfl) fun _ => and_iff_left trivial
    refine ((lawful_readUsize cfg.1).bind
      (fun len _ => lawful_readMany hitem len none) ?_).congr (fun _ _ => rfl) ?_
    · rintro len v - ⟨rfl, -⟩
      rfl
    · intro v
      constructor
      · rintro ⟨hlen, hall⟩
        exact ⟨v.length, hlen, rfl, hall, linked_true none v⟩
      · rintro ⟨len, hlen, rfl, hall, -⟩
        exact ⟨hlen, hall⟩
  encodeSize_eq := sizeItems_eq LawfulCodec.encodeSize_eq
  eq_panic _ _ := fault_of_writeItems LawfulCodec.eq_panic

structure RawBytes where
  data : Bytes

def writeRawBytes (v : RawBytes) : Except Fault Bytes := do
  let x ← writeUsize v.data.length
  let y ← .ok v.data
  pure (x ++ y)

def readRawBytes (range : RangeCfg) : Reader UInt8 Fault RawBytes := do
  let len ← readUsize range
  let data ← takeBytes len
  pure ⟨data⟩

instance codecRawBytes : Codec RawBytes RangeCfg where
  write := writeRawBytes
  encodeSize v := do
    let m ← sizeUsize v.data.length
    let n ← .ok v.data.length
    pure (m + n)
  readCfg := readRawBytes

instance lawfulRawBytes : LawfulCodec RawBytes where
  Valid range v := v.data.length < 2 ^ 32 ∧ range.contains v.data.length = true
  lawful range := by
    refine ((lawful_readUsize range).bind (fun len _ => (lawful_takeBytes len).map
      (w := fun v : RawBytes => .ok v.data) fun data _ => rfl) ?_).congr (fun _ _ => rfl) ?_
    · rintro len v - ⟨data, rfl, rfl⟩
      rfl
    · rintro ⟨data⟩
      simp
  encodeSize_eq v := by
    change (do let m ← sizeUsize v.data.length; let n ← .ok v.data.length; pure (m + n)) =
      (writeRawBytes v).map List.length
    rw [writeRawBytes, map_length_append]
    exact congrArg (· >>= _) (LawfulCodec.encodeSize_eq v.data.length)
  eq_panic v fault h := by
    rcases fault_of_append h with hlen | hdata
    · exact LawfulCodec.eq_panic v.data.length fault hlen
    · cases hdata

/-- Whatever is signed can be taken apart again. -/
theorem readRawBytes_unionUnique {range : RangeCfg} (ns : Namespace)
    (hrange : range.contains ns.bytes.length = true) (msg : Bytes) :
    (readRawBytes range).run (unionUnique ns msg) = .ok (⟨ns.bytes⟩, msg) := by
  have hlen := ns.fits
  have hvalid : LawfulCodec.Valid range (RawBytes.mk ns.bytes) := ⟨hlen, hrange⟩
  refine (LawfulCodec.lawful range).read_append hvalid ?_ msg
  change (do let x ← writeUsize ns.bytes.length; let y ← .ok ns.bytes; pure (x ++ y)) = _
  rw [writeUsize, if_pos hlen]
  rfl

end Sequences

end CommonChat.Core
