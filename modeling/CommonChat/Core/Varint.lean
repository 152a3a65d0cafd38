import CommonChat.Foundation.Leb128
import CommonChat.Foundation.Text
import CommonChat.Foundation.Transition
import Mathlib.Tactic.Ring

/-!
# Varints

`codec/src/varint.rs`: the byte-wise decoder, reading, writing and sizes, and the
zigzag form of signed numbers.  The library of base 128 gives the meaning; what
is shown here is that the machine words compute it, that the decoder accepts the
shortest form only, and which error it reports on everything else.
-/

namespace CommonChat.Core

open CommonChat.Foundation

namespace Codec

inductive Error where
  | endOfBuffer
  | extraData (remaining : Nat)
  | invalidVarint (size : Nat)
  | invalidUsize
  | invalidBool
  | invalidEnum (tag : UInt8)
  | invalidLength (len : Nat)
  | invalid (context message : String)
  | wrapped (context cause : String)
  deriving DecidableEq, Repr

def Error.debug : Error → String
  | .endOfBuffer => "EndOfBuffer"
  | .extraData remaining => "ExtraData(" ++ toString remaining ++ ")"
  | .invalidVarint size => "InvalidVarint(" ++ toString size ++ ")"
  | .invalidUsize => "InvalidUsize"
  | .invalidBool => "InvalidBool"
  | .invalidEnum tag => "InvalidEnum(" ++ toString tag ++ ")"
  | .invalidLength len => "InvalidLength(" ++ toString len ++ ")"
  | .invalid context message => "Invalid(" ++ context.quote ++ ", " ++ message.quote ++ ")"
  | .wrapped context cause => "Wrapped(" ++ context.quote ++ ", " ++ cause ++ ")"

/-- How a call ends when it does not return a value. -/
inductive Fault where
  | error (e : Error)
  | panic
  deriving DecidableEq, Repr

end Codec

namespace Varint

open Codec

/-! ## Unsigned numbers -/

inductive UPrim where
  | u16
  | u32
  | u64
  | u128
  deriving DecidableEq, Repr

def UPrim.size : UPrim → Nat
  | .u16 => 2
  | .u32 => 4
  | .u64 => 8
  | .u128 => 16

def UPrim.bits (U : UPrim) : Nat := U.size * 8

variable {U : UPrim}

theorem UPrim.sixteen_le_bits (U : UPrim) : 16 ≤ U.bits := by
  cases U <;> decide

def asU8 (val : BitVec U.bits) : UInt8 := UInt8.ofBitVec (val.setWidth 8)

def continuationThreshold (U : UPrim) : BitVec U.bits := BitVec.ofNat U.bits 0x80

theorem toNat_continuationThreshold (U : UPrim) :
    (continuationThreshold U).toNat = 128 := by
  cases U <;> decide

theorem toNat_shiftRight_seven (val : BitVec U.bits) :
    (val >>> 7).toNat = val.toNat / 128 := by
  rw [BitVec.toNat_ushiftRight, Nat.shiftRight_eq_div_pow]

def writeLoop (val : BitVec U.bits) : Bytes :=
  if val ≥ continuationThreshold U then (asU8 val ||| 0x80) :: writeLoop (val >>> 7)
  else [asU8 val]
termination_by val.toNat
decreasing_by
  rename_i h
  have hle := BitVec.le_def.mp h
  rw [toNat_continuationThreshold] at hle
  rw [toNat_shiftRight_seven]
  omega

def write (value : BitVec U.bits) : Bytes :=
  if value < continuationThreshold U then [asU8 value] else writeLoop value

def size (value : BitVec U.bits) : Nat :=
  let dataBits := U.size * 8 - value.clz.toNat
  max 1 ((dataBits + 6) / 7)

structure Decoder (U : UPrim) where
  result : BitVec U.bits
  bitsRead : Nat
  deriving DecidableEq, Repr

namespace Decoder

def new (U : UPrim) : Decoder U := ⟨0, 0⟩

def feed (d : Decoder U) (byte : UInt8) :
    Except Fault (Option (BitVec U.bits) × Decoder U) :=
  let maxBits := U.size * 8
  if byte = 0 ∧ d.bitsRead > 0 then .error (.error (.invalidVarint U.size))
  -- `checked_sub` of the bits read is unwrapped.
  else if maxBits < d.bitsRead then .error .panic
  else
    let remainingBits := maxBits - d.bitsRead
    let relevantBits := 8 - byte.toBitVec.clz.toNat
    if remainingBits ≤ 7 ∧ relevantBits > remainingBits then
      .error (.error (.invalidVarint U.size))
    -- A shift by all bits of the type or more overflows.
    else if maxBits ≤ d.bitsRead then .error .panic
    else
      let result := d.result |||
        (BitVec.ofNat U.bits (byte &&& 0x7F).toNat <<< d.bitsRead)
      if byte &&& 0x80 = 0 then .ok (some result, ⟨result, d.bitsRead⟩)
      else .ok (none, ⟨result, d.bitsRead + 7⟩)

end Decoder

def readFrom (d : Decoder U) : Bytes → Except Fault (BitVec U.bits × Bytes)
  | [] => .error (.error .endOfBuffer)
  | byte :: rest =>
      match d.feed byte with
      | .error fault => .error fault
      | .ok (some value, _) => .ok (value, rest)
      | .ok (none, d') => readFrom d' rest

def read (U : UPrim) (buf : Bytes) : Except Fault (BitVec U.bits × Bytes) :=
  readFrom (Decoder.new U) buf

/-! ## Bits and bytes as numbers -/

theorem lt_sub_clz_iff {w : Nat} (x : BitVec w) (r : Nat) :
    r < w - x.clz.toNat ↔ 2 ^ r ≤ x.toNat := by
  constructor
  · intro h
    have hne : x ≠ 0#w := by
      rintro rfl
      have hzero : (0#w).clz = BitVec.ofNat w w := BitVec.clz_eq_iff_eq_zero.mpr rfl
      rw [hzero, BitVec.toNat_ofNat, Nat.mod_eq_of_lt Nat.lt_two_pow_self] at h
      omega
    calc 2 ^ r ≤ 2 ^ (w - 1 - x.clz.toNat) := Nat.pow_le_pow_right (by decide) (by omega)
      _ ≤ x.toNat := BitVec.two_pow_sub_clz_le_toNat_of_ne_zero (by omega) hne
  · intro h
    by_contra hle
    have hlt := BitVec.toNat_lt_two_pow_sub_clz (x := x)
    have hpow : 2 ^ (w - x.clz.toNat) ≤ 2 ^ r :=
      Nat.pow_le_pow_right (by decide) (by omega)
    omega

theorem toNat_asU8 (val : BitVec U.bits) : (asU8 val).toNat = val.toNat % 256 := by
  simp [asU8]

private theorem toNat_or_continuation (byte : UInt8) :
    (byte ||| 0x80).toNat = byte.toNat % 128 + 128 := by
  have hall : ∀ n < 256, (UInt8.ofNat n ||| 0x80).toNat = n % 128 + 128 := by
    decide +kernel
  have h := hall byte.toNat byte.toNat_lt
  rwa [UInt8.ofNat_toNat] at h

private theorem toNat_and_data (byte : UInt8) :
    (byte &&& 0x7F).toNat = byte.toNat % 128 := by
  rw [UInt8.toNat_and]
  exact Nat.and_two_pow_sub_one_eq_mod byte.toNat 7

private theorem and_continuation_eq_zero_iff (byte : UInt8) :
    byte &&& 0x80 = 0 ↔ byte.toNat < 128 := by
  have hall : ∀ n < 256, (UInt8.ofNat n &&& 0x80 = 0 ↔ n < 128) := by
    decide +kernel
  have h := hall byte.toNat byte.toNat_lt
  rwa [UInt8.ofNat_toNat] at h

/-! ## Writing -/

theorem writeLoop_eq (val : BitVec U.bits) : writeLoop val = Leb128.encode val.toNat := by
  induction val using writeLoop.induct with
  | case1 val h ih =>
      have hle := BitVec.le_def.mp h
      rw [toNat_continuationThreshold] at hle
      have hbyte : asU8 val ||| 0x80 = UInt8.ofNat (val.toNat % 128 + 128) := by
        apply UInt8.toNat_inj.mp
        rw [toNat_or_continuation, toNat_asU8, UInt8.toNat_ofNat']
        omega
      rw [writeLoop, if_pos h, ih, toNat_shiftRight_seven, Leb128.encode_of_ge hle, hbyte]
  | case2 val h =>
      have hlt : val.toNat < 128 := by
        rw [ge_iff_le, BitVec.le_def, toNat_continuationThreshold] at h
        omega
      have hbyte : asU8 val = UInt8.ofNat val.toNat := by
        apply UInt8.toNat_inj.mp
        rw [toNat_asU8, UInt8.toNat_ofNat']
      rw [writeLoop, if_neg h, Leb128.encode_of_lt hlt, hbyte]

theorem write_eq (value : BitVec U.bits) : write value = Leb128.encode value.toNat := by
  rw [← writeLoop_eq, write]
  split
  · rename_i h
    rw [writeLoop, if_neg]
    exact BitVec.not_le.mpr h
  · rfl

theorem length_write (value : BitVec U.bits) : (write value).length = size value := by
  have hpos := List.length_pos_of_ne_nil (Leb128.encode_ne_nil value.toNat)
  rw [write_eq]
  have hiff : ∀ k, (Leb128.encode value.toNat).length ≤ k + 1 ↔ size value ≤ k + 1 := by
    intro k
    have hclz := lt_sub_clz_iff value (7 * (k + 1))
    rw [Leb128.length_encode_le_iff]
    simp only [size, UPrim.bits] at hclz ⊢
    omega
  have hsize : 0 < size value := by
    simp only [size]
    omega
  have h₁ := (hiff ((Leb128.encode value.toNat).length - 1)).mp (by omega)
  have h₂ := (hiff (size value - 1)).mpr (by omega)
  omega

/-! ## Reading -/

namespace Decoder

/-- A decoder that has taken `count` continuing bytes worth `value`. -/
structure At (d : Decoder U) (count value : Nat) : Prop where
  bitsRead_eq : d.bitsRead = 7 * count
  room : 7 * count < U.bits
  result_eq : d.result.toNat = value
  value_lt : value < 2 ^ (7 * count)

theorem at_new (U : UPrim) : (new U).At 0 0 :=
  ⟨rfl, Nat.lt_of_lt_of_le (by decide) U.sixteen_le_bits, rfl, by decide⟩

def Refused (U : UPrim) (count : Nat) (byte : UInt8) : Prop :=
  (byte = 0 ∧ 0 < count) ∨ 2 ^ (U.bits - 7 * count) ≤ byte.toNat

theorem overflows_iff (U : UPrim) (count : Nat) (byte : UInt8) :
    (U.bits - 7 * count ≤ 7 ∧ 8 - byte.toBitVec.clz.toNat > U.bits - 7 * count) ↔
      2 ^ (U.bits - 7 * count) ≤ byte.toNat := by
  have hclz := lt_sub_clz_iff byte.toBitVec (U.bits - 7 * count)
  have hbyte : byte.toBitVec.toNat < 2 ^ 8 := byte.toBitVec.isLt
  constructor
  · rintro ⟨-, h⟩
    exact hclz.mp h
  · intro h
    refine ⟨?_, hclz.mpr h⟩
    by_contra hlarge
    have hpow : 2 ^ 8 ≤ 2 ^ (U.bits - 7 * count) :=
      Nat.pow_le_pow_right (by decide) (by omega)
    have hsame : byte.toBitVec.toNat = byte.toNat := rfl
    omega

theorem feed_of_refused {d : Decoder U} {count value : Nat} (h : d.At count value)
    {byte : UInt8} (hbad : Refused U count byte) :
    d.feed byte = .error (.error (.invalidVarint U.size)) := by
  have hroom : ¬ U.size * 8 < 7 * count := Nat.not_lt.mpr (Nat.le_of_lt h.room)
  simp only [feed, h.bitsRead_eq]
  by_cases hzero : byte = 0 ∧ 7 * count > 0
  · rw [if_pos hzero]
  · rw [if_neg hzero, if_neg hroom]
    rcases hbad with ⟨rfl, hcount⟩ | hlarge
    · exact absurd ⟨rfl, by omega⟩ hzero
    · exact if_pos ((overflows_iff U count byte).mpr hlarge)

theorem feed_of_not_refused {d : Decoder U} {count value : Nat} (h : d.At count value)
    {byte : UInt8} (hgood : ¬ Refused U count byte) :
    ∃ d' : Decoder U,
      d'.result.toNat = value + 2 ^ (7 * count) * (byte.toNat % 128) ∧
      (byte.toNat < 128 → d.feed byte = .ok (some d'.result, d')) ∧
      (128 ≤ byte.toNat → d.feed byte = .ok (none, d') ∧
        d'.At (count + 1) (value + 2 ^ (7 * count) * (byte.toNat - 128))) := by
  have hbyte := byte.toNat_lt
  obtain ⟨hzero, hsmall⟩ := not_or.mp hgood
  have hroom := h.room
  have hlimit := pow_mul_pow_sub 2 (Nat.le_of_lt hroom)
  have hdata : 2 ^ (7 * count) * (byte.toNat % 128) < 2 ^ U.bits := by
    rw [← hlimit]
    exact Nat.mul_lt_mul_of_pos_left (by omega) (Nat.two_pow_pos _)
  have hshift : (BitVec.ofNat U.bits (byte &&& 0x7F).toNat <<< (7 * count)).toNat =
      2 ^ (7 * count) * (byte.toNat % 128) := by
    have hone : byte.toNat % 128 < 2 ^ U.bits :=
      Nat.lt_of_le_of_lt (Nat.le_mul_of_pos_left _ (Nat.two_pow_pos _)) hdata
    rw [toNat_and_data, BitVec.toNat_shiftLeft, BitVec.toNat_ofNat, Nat.mod_eq_of_lt hone,
      Nat.shiftLeft_eq, Nat.mul_comm, Nat.mod_eq_of_lt hdata]
  have hresult : (d.result ||| BitVec.ofNat U.bits (byte &&& 0x7F).toNat <<<
      (7 * count)).toNat = value + 2 ^ (7 * count) * (byte.toNat % 128) := by
    rw [BitVec.toNat_or, hshift, h.result_eq, Nat.or_comm,
      ← Nat.two_pow_add_eq_or_of_lt h.value_lt, Nat.add_comm]
  have hfeed : d.feed byte =
      let result := d.result |||
        BitVec.ofNat U.bits (byte &&& 0x7F).toNat <<< (7 * count)
      if byte &&& 0x80 = 0 then .ok (some result, ⟨result, 7 * count⟩)
      else .ok (none, ⟨result, 7 * count + 7⟩) := by
    have hnonzero : ¬ (byte = 0 ∧ 7 * count > 0) := fun hb => hzero ⟨hb.1, by omega⟩
    have hnot : ¬ U.size * 8 < 7 * count := Nat.not_lt.mpr (Nat.le_of_lt hroom)
    have hfits : ¬ U.size * 8 ≤ 7 * count := Nat.not_le.mpr hroom
    simp only [feed, h.bitsRead_eq]
    rw [if_neg hnonzero, if_neg hnot, if_neg, if_neg hfits]
    exact fun hover => hsmall ((overflows_iff U count byte).mp hover)
  by_cases hlast : byte.toNat < 128
  · refine ⟨⟨_, 7 * count⟩, hresult, fun _ => ?_, fun hmore => by omega⟩
    rw [hfeed]
    exact if_pos ((and_continuation_eq_zero_iff byte).mpr hlast)
  · refine ⟨⟨_, 7 * count + 7⟩, hresult, fun hlt => absurd hlt hlast, fun hmore => ?_⟩
    have hmod : byte.toNat % 128 = byte.toNat - 128 := by omega
    refine ⟨?_, Nat.mul_succ 7 count, ?_, ?_, ?_⟩
    · rw [hfeed]
      exact if_neg fun hzero => hlast ((and_continuation_eq_zero_iff byte).mp hzero)
    · by_contra hfull
      have hpow : 2 ^ (U.bits - 7 * count) ≤ 2 ^ 7 :=
        Nat.pow_le_pow_right (by decide) (by omega)
      omega
    · rw [hresult, hmod]
    · have hpow := Leb128.two_pow_seven_mul_succ count
      have hvalue := h.value_lt
      have hterm : 2 ^ (7 * count) * (byte.toNat - 128) ≤ 2 ^ (7 * count) * 127 :=
        Nat.mul_le_mul_left _ (by omega)
      omega

end Decoder

theorem readFrom_eq_ok_iff {d : Decoder U} {count low : Nat} (h : d.At count low)
    (bytes : Bytes) (value : BitVec U.bits) (rest : Bytes) :
    readFrom d bytes = .ok (value, rest) ↔
      ∃ m, (0 < count → 0 < m) ∧ value.toNat = low + 2 ^ (7 * count) * m ∧
        bytes = Leb128.encode m ++ rest := by
  induction bytes generalizing d count low with
  | nil =>
      constructor
      · intro hread
        cases hread
      · rintro ⟨m, -, -, hnil⟩
        exact absurd (List.append_eq_nil_iff.mp hnil.symm).1 (Leb128.encode_ne_nil m)
  | cons byte bytes ih =>
      have hbyte := byte.toNat_lt
      have hpow := Leb128.two_pow_seven_mul_succ count
      by_cases hbad : Decoder.Refused U count byte
      · rw [readFrom, Decoder.feed_of_refused h hbad]
        constructor
        · intro hread
          cases hread
        · rintro ⟨m, hm, hvalue, hcons⟩
          exfalso
          rw [Leb128.cons_eq_encode_append_iff] at hcons
          rcases hbad with ⟨rfl, hcount⟩ | hlarge
          · rcases hcons with ⟨-, rfl, -⟩ | ⟨hge, -⟩
            · exact Nat.lt_irrefl 0 (hm hcount)
            · exact absurd hge (by decide)
          · have hle : byte.toNat ≤ m := by omega
            have hlimit := pow_mul_pow_sub 2 (Nat.le_of_lt h.room)
            have hterm : 2 ^ (7 * count) * 2 ^ (U.bits - 7 * count) ≤ 2 ^ (7 * count) * m :=
              Nat.mul_le_mul_left _ (by omega)
            have hfits := value.isLt
            omega
      · obtain ⟨d', hresult, hlast, hmore⟩ := Decoder.feed_of_not_refused h hbad
        simp only [Leb128.cons_eq_encode_append_iff]
        by_cases hend : byte.toNat < 128
        · rw [readFrom, hlast hend]
          rw [Nat.mod_eq_of_lt hend] at hresult
          have hcount : 0 < count → 0 < byte.toNat := by
            intro hpos
            by_contra hzero
            refine hbad (.inl ⟨?_, hpos⟩)
            apply UInt8.toNat_inj.mp
            rw [UInt8.toNat_zero]
            omega
          constructor
          · intro heq
            cases heq
            exact ⟨byte.toNat, hcount, hresult, .inl ⟨hend, rfl, rfl⟩⟩
          · rintro ⟨m, -, hvalue, ⟨-, rfl, rfl⟩ | ⟨hge, -⟩⟩
            · rw [BitVec.eq_of_toNat_eq (hvalue.trans hresult.symm)]
            · omega
        · obtain ⟨hfeed, hat⟩ := hmore (by omega)
          rw [readFrom, hfeed]
          simp only [ih hat, hpow]
          constructor
          · rintro ⟨m, hm, hvalue, rfl⟩
            refine ⟨byte.toNat - 128 + 128 * m, fun _ => by have := hm (by omega); omega,
              ?_, .inr ⟨by omega, m, hm (by omega), rfl, rfl⟩⟩
            rw [hvalue]
            ring
          · rintro ⟨m, -, hvalue, ⟨hlt, -⟩ | ⟨-, m, hm, rfl, rfl⟩⟩
            · omega
            · refine ⟨m, fun _ => hm, ?_, rfl⟩
              rw [hvalue]
              ring

theorem readFrom_eq_endOfBuffer_iff {d : Decoder U} {count low : Nat}
    (h : d.At count low) (bytes : Bytes) :
    readFrom d bytes = .error (.error .endOfBuffer) ↔
      Leb128.Continues bytes ∧ 7 * (count + bytes.length) < U.bits := by
  induction bytes generalizing d count low with
  | nil => simpa [readFrom, Leb128.Continues] using h.room
  | cons byte bytes ih =>
      have hbyte := byte.toNat_lt
      rw [Leb128.continues_cons, List.length_cons]
      by_cases hbad : Decoder.Refused U count byte
      · rw [readFrom, Decoder.feed_of_refused h hbad]
        constructor
        · intro hread
          cases hread
        · rintro ⟨⟨hmore, -⟩, hroom⟩
          exfalso
          rcases hbad with ⟨rfl, -⟩ | hlarge
          · exact absurd hmore (by decide)
          · have hpow : 2 ^ 8 ≤ 2 ^ (U.bits - 7 * count) :=
              Nat.pow_le_pow_right (by decide) (by omega)
            omega
      · obtain ⟨d', -, hlast, hmore⟩ := Decoder.feed_of_not_refused h hbad
        by_cases hend : byte.toNat < 128
        · rw [readFrom, hlast hend]
          constructor
          · intro hread
            cases hread
          · rintro ⟨⟨hge, -⟩, -⟩
            omega
        · obtain ⟨hfeed, hat⟩ := hmore (by omega)
          rw [readFrom, hfeed]
          simp only [ih hat]
          constructor
          · rintro ⟨hcontinues, hroom⟩
            exact ⟨⟨by omega, hcontinues⟩, by omega⟩
          · rintro ⟨⟨-, hcontinues⟩, hroom⟩
            exact ⟨hcontinues, by omega⟩

theorem readFrom_fault {d : Decoder U} {count low : Nat} (h : d.At count low)
    {bytes : Bytes} {fault : Fault} (hread : readFrom d bytes = .error fault) :
    fault = .error .endOfBuffer ∨ fault = .error (.invalidVarint U.size) := by
  induction bytes generalizing d count low with
  | nil =>
      cases hread
      exact .inl rfl
  | cons byte bytes ih =>
      rw [readFrom] at hread
      by_cases hbad : Decoder.Refused U count byte
      · rw [Decoder.feed_of_refused h hbad] at hread
        cases hread
        exact .inr rfl
      · obtain ⟨d', -, hlast, hmore⟩ := Decoder.feed_of_not_refused h hbad
        by_cases hend : byte.toNat < 128
        · rw [hlast hend] at hread
          cases hread
        · obtain ⟨hfeed, hat⟩ := hmore (by omega)
          rw [hfeed] at hread
          exact ih hat hread

theorem read_eq_ok_iff (bytes : Bytes) (value : BitVec U.bits) (rest : Bytes) :
    read U bytes = .ok (value, rest) ↔ bytes = write value ++ rest := by
  rw [read, readFrom_eq_ok_iff (Decoder.at_new U), write_eq]
  constructor
  · rintro ⟨m, -, hvalue, rfl⟩
    rw [hvalue]
    simp
  · rintro rfl
    exact ⟨value.toNat, nofun, by simp, rfl⟩

theorem read_eq_endOfBuffer_iff (bytes : Bytes) :
    read U bytes = .error (.error .endOfBuffer) ↔
      ∃ (value : BitVec U.bits) (tail : Bytes), tail ≠ [] ∧ write value = bytes ++ tail := by
  have hbits := U.sixteen_le_bits
  have hprefixes := @Leb128.exists_encode_iff bytes U.bits (by omega)
  rw [read, readFrom_eq_endOfBuffer_iff (Decoder.at_new U), Nat.zero_add, ← hprefixes]
  constructor
  · rintro ⟨n, tail, hn, htail, hencode⟩
    refine ⟨BitVec.ofNat U.bits n, tail, htail, ?_⟩
    rw [write_eq, BitVec.toNat_ofNat, Nat.mod_eq_of_lt hn, hencode]
  · rintro ⟨value, tail, htail, hwrite⟩
    exact ⟨value.toNat, tail, value.isLt, htail, by rw [← write_eq, hwrite]⟩

/--
Reading accepts exactly the bytes that writing produces.  It asks for more on
their proper beginnings, and everything else is an invalid varint.
-/
theorem read_varint (U : UPrim) (bytes : Bytes) :
    (∀ (value : BitVec U.bits) (rest : Bytes),
      read U bytes = .ok (value, rest) ↔ bytes = write value ++ rest) ∧
    (read U bytes = .error (.error .endOfBuffer) ↔
      ∃ (value : BitVec U.bits) (tail : Bytes), tail ≠ [] ∧
        write value = bytes ++ tail) ∧
    (read U bytes = .error (.error (.invalidVarint U.size)) ↔
      (∀ (value : BitVec U.bits) (rest : Bytes), bytes ≠ write value ++ rest) ∧
      ∀ (value : BitVec U.bits) (tail : Bytes), tail ≠ [] →
        write value ≠ bytes ++ tail) ∧
    ∀ value : BitVec U.bits, (write value).length = size value := by
  have hok := read_eq_ok_iff (U := U) bytes
  have hend := read_eq_endOfBuffer_iff (U := U) bytes
  refine ⟨hok, hend, ⟨?_, ?_⟩, length_write⟩
  · intro hinvalid
    rw [hinvalid] at hok hend
    constructor
    · intro value rest heq
      cases (hok value rest).mpr heq
    · intro value tail htail heq
      cases hend.mpr ⟨value, tail, htail, heq⟩
  · rintro ⟨hnot, hshort⟩
    cases hread : read U bytes with
    | ok found => exact absurd ((hok found.1 found.2).mp hread) (hnot found.1 found.2)
    | error fault =>
        rcases readFrom_fault (Decoder.at_new U) hread with rfl | rfl
        · obtain ⟨value, tail, htail, heq⟩ := hend.mp hread
          exact absurd heq (hshort value tail htail)
        · rfl

/-! ## Any bytes in any order -/

namespace Decoder

def next (d : Decoder U) (byte : UInt8) : Option (Decoder U) :=
  match d.feed byte with
  | .ok (_, d') => some d'
  | .error (.error _) => some d
  | .error .panic => none

def system (U : UPrim) : System (Decoder U) UInt8 := ⟨new U, next⟩

theorem feed_cases {d : Decoder U} (h : d.bitsRead < U.bits) (byte : UInt8) :
    (∃ e, d.feed byte = .error (.error e)) ∨
      ∃ value d', d.feed byte = .ok (value, d') ∧ d'.bitsRead < U.bits := by
  have hsize : U.size * 8 = U.bits := rfl
  simp only [feed, hsize]
  split
  · exact .inl ⟨_, rfl⟩
  · rw [if_neg (by omega)]
    split
    · exact .inl ⟨_, rfl⟩
    · rename_i hover
      rw [if_neg (by omega)]
      split
      · exact .inr ⟨_, _, rfl, h⟩
      · rename_i hmore
        refine .inr ⟨_, _, rfl, ?_⟩
        have hbyte : 2 ^ 7 ≤ byte.toBitVec.toNat := by
          rw [and_continuation_eq_zero_iff] at hmore
          exact Nat.not_lt.mp hmore
        have hclz := (lt_sub_clz_iff byte.toBitVec 7).mpr hbyte
        change d.bitsRead + 7 < U.bits
        omega

/-- Whatever a decoder was fed, the next byte does not make it panic. -/
theorem feed_ne_panic_of_reach {d : Decoder U}
    (hd : (system U).Reach (fun _ _ => True) d) (byte : UInt8) :
    d.feed byte ≠ .error .panic := by
  have hlt : d.bitsRead < U.bits := by
    refine hd.invariant (I := fun d => d.bitsRead < U.bits) (at_new U).room ?_
    intro d byte d' _ h _ hstep
    change d.next byte = some d' at hstep
    unfold next at hstep
    rcases feed_cases h byte with ⟨e, hfeed⟩ | ⟨value, d₁, hfeed, hlt⟩
    · rw [hfeed] at hstep
      cases hstep
      exact h
    · rw [hfeed] at hstep
      cases hstep
      exact hlt
  rcases feed_cases hlt byte with ⟨e, hfeed⟩ | ⟨value, d₁, hfeed, -⟩
  · simp [hfeed]
  · simp [hfeed]

end Decoder

/-! ## Signed numbers -/

def asZigzag {w : Nat} (x : BitVec w) : BitVec w := (x <<< 1) ^^^ x.sshiftRight (w - 1)

def unZigzag {w : Nat} (value : BitVec w) : BitVec w :=
  (value >>> 1) ^^^ (-(value &&& 1#w))

theorem sshiftRight_last {w : Nat} (x : BitVec w) :
    x.sshiftRight (w - 1) = if x.msb then BitVec.allOnes w else 0#w := by
  refine BitVec.eq_of_getLsbD_eq ?_
  intro i hi
  have hsign : (x.sshiftRight (w - 1)).getLsbD i = x.msb := by
    rw [BitVec.getLsbD_sshiftRight]
    split
    · obtain rfl : i = 0 := by omega
      simp [BitVec.msb_eq_getLsbD_last]
      omega
    · simp
      omega
  rw [hsign]
  cases x.msb <;> simp [hi]

theorem neg_and_one {w : Nat} (value : BitVec w) :
    -(value &&& 1#w) = if value.getLsbD 0 then BitVec.allOnes w else 0#w := by
  have hone : value &&& 1#w = if value.getLsbD 0 then 1#w else 0#w := by
    ext j hj
    cases hbit : value.getLsbD 0 <;> cases j <;> simp_all
  rw [hone]
  cases value.getLsbD 0
  · simp
  · rw [if_pos rfl, if_pos rfl, BitVec.neg_one_eq_allOnes]

theorem getLsbD_asZigzag {w : Nat} (x : BitVec w) {i : Nat} (hi : i < w) :
    (asZigzag x).getLsbD i = ((decide (0 < i) && x.getLsbD (i - 1)) ^^ x.msb) := by
  rw [asZigzag, BitVec.getLsbD_xor, sshiftRight_last, BitVec.getLsbD_shiftLeft]
  cases i with
  | zero => cases x.msb <;> simp [hi]
  | succ i => cases x.msb <;> simp [hi]

theorem getLsbD_unZigzag {w : Nat} (value : BitVec w) {i : Nat} (hi : i < w) :
    (unZigzag value).getLsbD i = (value.getLsbD (1 + i) ^^ value.getLsbD 0) := by
  rw [unZigzag, BitVec.getLsbD_xor, neg_and_one, BitVec.getLsbD_ushiftRight]
  cases value.getLsbD 0 <;> simp [hi]

theorem unZigzag_asZigzag {w : Nat} (x : BitVec w) : unZigzag (asZigzag x) = x := by
  refine BitVec.eq_of_getLsbD_eq ?_
  intro i hi
  rw [getLsbD_unZigzag _ hi, getLsbD_asZigzag x (Nat.zero_lt_of_lt hi)]
  by_cases hlast : 1 + i < w
  · rw [getLsbD_asZigzag x hlast]
    simp
  · obtain rfl : i = w - 1 := by omega
    rw [BitVec.getLsbD_of_ge _ _ (by omega), BitVec.msb_eq_getLsbD_last]
    simp

theorem asZigzag_unZigzag {w : Nat} (value : BitVec w) :
    asZigzag (unZigzag value) = value := by
  refine BitVec.eq_of_getLsbD_eq ?_
  intro i hi
  have hsign : (unZigzag value).msb = value.getLsbD 0 := by
    rw [BitVec.msb_eq_getLsbD_last, getLsbD_unZigzag _ (by omega),
      BitVec.getLsbD_of_ge _ _ (by omega), Bool.false_xor]
  rw [getLsbD_asZigzag _ hi, hsign]
  cases i with
  | zero => simp
  | succ i =>
      rw [Nat.add_sub_cancel, getLsbD_unZigzag _ (by omega), Nat.add_comm 1 i]
      simp

theorem toNat_asZigzag {w : Nat} (x : BitVec w) :
    ((asZigzag x).toNat : Int) =
      if 0 ≤ x.toInt then 2 * x.toInt else -2 * x.toInt - 1 := by
  have hlt := x.isLt
  have hsign := BitVec.toInt_eq_msb_cond x
  have hmsb := BitVec.msb_eq_true_iff_two_mul_ge (x := x)
  rw [asZigzag, sshiftRight_last]
  cases hbit : x.msb
  · rw [hbit] at hsign hmsb
    have hhalf : 2 * x.toNat < 2 ^ w :=
      Nat.not_le.mp fun hge => Bool.false_ne_true (hmsb.mpr hge)
    have hsmall : x.toNat <<< 1 % 2 ^ w = 2 * x.toNat := by
      rw [Nat.shiftLeft_eq, Nat.mod_eq_of_lt] <;> omega
    rw [if_neg Bool.false_ne_true] at hsign ⊢
    rw [BitVec.xor_zero, BitVec.toNat_shiftLeft, hsmall, hsign, if_pos (by omega)]
    omega
  · rw [hbit] at hsign hmsb
    have hge : 2 ^ w ≤ 2 * x.toNat := hmsb.mp rfl
    have hlarge : x.toNat <<< 1 % 2 ^ w = 2 * x.toNat - 2 ^ w := by
      rw [Nat.shiftLeft_eq, Nat.mul_comm, Nat.mod_eq_sub_mod hge, Nat.mod_eq_of_lt]
      omega
    rw [if_pos rfl] at hsign ⊢
    rw [BitVec.xor_allOnes, BitVec.toNat_not, BitVec.toNat_shiftLeft, hlarge, hsign,
      if_neg (by omega)]
    omega

def writeSigned (value : BitVec U.bits) : Bytes := write (asZigzag value)

def readSigned (U : UPrim) (buf : Bytes) : Except Fault (BitVec U.bits × Bytes) := do
  let (value, rest) ← read U buf
  .ok (unZigzag value, rest)

def sizeSigned (value : BitVec U.bits) : Nat := size (asZigzag value)

/--
Signed numbers have exactly one encoding too, and the number of bytes is decided
by the distance from zero.
-/
theorem readSigned_varint (U : UPrim) :
    (∀ (bytes : Bytes) (value : BitVec U.bits) (rest : Bytes),
      readSigned U bytes = .ok (value, rest) ↔ bytes = writeSigned value ++ rest) ∧
    (∀ value : BitVec U.bits, (writeSigned value).length = sizeSigned value) ∧
    ∀ (value : BitVec U.bits) (k : Nat), sizeSigned value ≤ k + 1 ↔
      -2 ^ (7 * k + 6) ≤ value.toInt ∧ value.toInt < 2 ^ (7 * k + 6) := by
  refine ⟨?_, fun value => length_write _, ?_⟩
  · intro bytes value rest
    rw [readSigned, writeSigned, ← read_eq_ok_iff]
    constructor
    · intro h
      cases hread : read U bytes with
      | error fault =>
          rw [hread] at h
          cases h
      | ok found =>
          rw [hread] at h
          cases h
          rw [asZigzag_unZigzag]
    · intro h
      rw [h]
      exact congrArg (fun x => Except.ok (x, rest)) (unZigzag_asZigzag value)
  · intro value k
    have hlen := Leb128.length_encode_le_iff (asZigzag value).toNat k
    rw [← write_eq, length_write] at hlen
    have hpow : (2 : Nat) ^ (7 * (k + 1)) = 2 * 2 ^ (7 * k + 6) := by
      rw [show 7 * (k + 1) = 7 * k + 6 + 1 by omega, Nat.pow_succ, Nat.mul_comm]
    have hcast : ((2 ^ (7 * k + 6) : Nat) : Int) = 2 ^ (7 * k + 6) := by
      exact Nat.cast_pow 2 _
    have hvalue := toNat_asZigzag value
    rw [sizeSigned, hlen, hpow, ← hcast]
    split at hvalue <;> omega

end Varint

end CommonChat.Core
