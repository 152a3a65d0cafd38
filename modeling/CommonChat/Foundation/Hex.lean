import CommonChat.Foundation.Text

/-!
# Hexadecimal text

A codec writes two lower-case digits for each byte and takes digits of either
case.  `encode_of_decode` says what it forgets: exactly the case of the letters.
-/

namespace CommonChat.Foundation

namespace Hex

def isUpper (c : UInt8) : Bool := 65 ≤ c.toNat && c.toNat ≤ 70

def toLower (c : UInt8) : UInt8 :=
  if isUpper c then UInt8.ofNat (c.toNat + 32) else c

def isHexDigit (c : UInt8) : Bool :=
  isUpper c || (97 ≤ c.toNat && c.toNat ≤ 102) || (48 ≤ c.toNat && c.toNat ≤ 57)

private theorem ascii_of_isHexDigit {c : UInt8} (h : isHexDigit c = true) :
    c.toNat < 0x80 := by
  simp only [isHexDigit, isUpper, Bool.or_eq_true, Bool.and_eq_true, decide_eq_true_eq] at h
  omega

private theorem toLower_eq_self_iff (c : UInt8) :
    toLower c = c ↔ isUpper c = false := by
  unfold toLower
  split
  · rename_i h
    simp only [h, Bool.true_eq_false, iff_false]
    intro heq
    have hval := congrArg UInt8.toNat heq
    simp only [isUpper, Bool.and_eq_true, decide_eq_true_eq] at h
    simp at hval
    omega
  · rename_i h
    simp [h]

end Hex

/-- An encoder and a decoder of bytes as digits; an error is the text that it displays. -/
structure Hex where
  encode : Bytes → Bytes
  decode : Bytes → Except String Bytes
  length_encode : ∀ bytes, (encode bytes).length = 2 * bytes.length
  decode_encode : ∀ bytes, decode (encode bytes) = .ok bytes
  exists_decode_iff : ∀ text, (∃ bytes, decode text = .ok bytes) ↔
    text.length % 2 = 0 ∧ ∀ c ∈ text, Hex.isHexDigit c = true
  encode_of_decode : ∀ {text bytes}, decode text = .ok bytes →
    encode bytes = text.map Hex.toLower

attribute [simp] Hex.length_encode Hex.decode_encode

namespace Hex

variable (hex : Hex)

theorem ascii_of_decode {text bytes : Bytes} (h : hex.decode text = .ok bytes) :
    ∀ c ∈ text, c.toNat < 0x80 := by
  intro c hc
  exact ascii_of_isHexDigit (((hex.exists_decode_iff text).mp ⟨bytes, h⟩).2 c hc)

theorem length_of_decode {text bytes : Bytes} (h : hex.decode text = .ok bytes) :
    text.length = 2 * bytes.length := by
  have hlen := congrArg List.length (hex.encode_of_decode h)
  simpa using hlen.symm

theorem encode_ascii (bytes : Bytes) : ∀ c ∈ hex.encode bytes, c.toNat < 0x80 :=
  hex.ascii_of_decode (hex.decode_encode bytes)

/-- A decodable text is the canonical one iff it has no upper-case digit. -/
theorem encode_eq_iff_of_decode {text bytes : Bytes}
    (h : hex.decode text = .ok bytes) :
    hex.encode bytes = text ↔ ∀ c ∈ text, isUpper c = false := by
  rw [hex.encode_of_decode h]
  constructor
  · intro heq c hc
    have hsame : ∀ c ∈ text, toLower c = id c :=
      List.map_inj_left.mp (heq.trans (List.map_id text).symm)
    exact (toLower_eq_self_iff c).mp (hsame c hc)
  · intro hlower
    have hsame : text.map toLower = text.map id :=
      List.map_congr_left fun c hc => (toLower_eq_self_iff c).mpr (hlower c hc)
    exact hsame.trans (List.map_id text)

end Hex

/-! ## A codec to run with -/

namespace PlainHex

open Hex

def digit (n : Nat) : UInt8 :=
  if n < 10 then UInt8.ofNat (48 + n) else UInt8.ofNat (87 + n)

def encode : Bytes → Bytes
  | [] => []
  | b :: rest => digit (b.toNat / 16) :: digit (b.toNat % 16) :: encode rest

def val (c : UInt8) (index : Nat) : Except String Nat :=
  if 65 ≤ c.toNat ∧ c.toNat ≤ 70 then .ok (c.toNat - 65 + 10)
  else if 97 ≤ c.toNat ∧ c.toNat ≤ 102 then .ok (c.toNat - 97 + 10)
  else if 48 ≤ c.toNat ∧ c.toNat ≤ 57 then .ok (c.toNat - 48)
  else .error ("Invalid character at position " ++ toString index)

def decodePairs : Nat → Bytes → Except String Bytes
  | _, [] => .ok []
  | _, [_] => .error "Odd number of digits"
  | index, high :: low :: rest => do
      let h ← val high index
      let l ← val low (index + 1)
      let tail ← decodePairs (index + 2) rest
      .ok (UInt8.ofNat (h * 16 + l) :: tail)

def decode (text : Bytes) : Except String Bytes :=
  if text.length % 2 ≠ 0 then .error "Odd number of digits" else decodePairs 0 text

private theorem val_digit {n : Nat} (hn : n < 16) (index : Nat) :
    val (digit n) index = .ok n := by
  unfold digit
  split
  · have hc : (UInt8.ofNat (48 + n)).toNat = 48 + n := by simp; omega
    rw [val, hc, if_neg (by omega), if_neg (by omega), if_pos (by omega)]
    congr 1
    omega
  · have hc : (UInt8.ofNat (87 + n)).toNat = 87 + n := by simp; omega
    rw [val, hc, if_neg (by omega), if_pos (by omega)]
    congr 1
    omega

private theorem length_encode (bytes : Bytes) :
    (encode bytes).length = 2 * bytes.length := by
  induction bytes with
  | nil => rfl
  | cons b rest ih =>
      simp only [encode, List.length_cons, ih]
      omega

private theorem decodePairs_encode (index : Nat) (bytes : Bytes) :
    decodePairs index (encode bytes) = .ok bytes := by
  induction bytes generalizing index with
  | nil => rfl
  | cons b rest ih =>
      have hb : b.toNat < 256 := b.toNat_lt
      rw [encode, decodePairs, val_digit (by omega), val_digit (by omega), ih]
      change Except.ok (UInt8.ofNat (b.toNat / 16 * 16 + b.toNat % 16) :: rest) = _
      rw [show b.toNat / 16 * 16 + b.toNat % 16 = b.toNat by omega,
        UInt8.ofNat_toNat]

private theorem decode_encode (bytes : Bytes) :
    decode (encode bytes) = .ok bytes := by
  rw [decode, if_neg (by rw [length_encode]; omega), decodePairs_encode]

private theorem val_ok {c : UInt8} {index n : Nat} (h : val c index = .ok n) :
    n < 16 ∧ digit n = toLower c := by
  have hsame : UInt8.ofNat c.toNat = c := UInt8.ofNat_toNat
  unfold val at h
  split at h
  · cases h
    refine ⟨by omega, ?_⟩
    rw [digit, if_neg (by omega), toLower, if_pos (by simp [isUpper]; omega)]
    congr 1
    omega
  split at h
  · cases h
    refine ⟨by omega, ?_⟩
    rw [digit, if_neg (by omega), toLower, if_neg (by simp [isUpper]; omega),
      show 87 + (c.toNat - 97 + 10) = c.toNat by omega, hsame]
  split at h
  · cases h
    refine ⟨by omega, ?_⟩
    rw [digit, if_pos (by omega), toLower, if_neg (by simp [isUpper]; omega),
      show 48 + (c.toNat - 48) = c.toNat by omega, hsame]
  · cases h

private theorem exists_val_iff (c : UInt8) (index : Nat) :
    (∃ n, val c index = .ok n) ↔ isHexDigit c = true := by
  simp only [val, isHexDigit, isUpper, Bool.or_eq_true, Bool.and_eq_true,
    decide_eq_true_eq]
  split
  · rename_i h
    simp [h]
  split
  · rename_i h
    simp [h]
  split
  · rename_i h
    simp [h]
  · rename_i hupper hlower hdecimal
    simp [hupper, hlower, hdecimal]

private theorem decodePairs_cons {index : Nat} {high low : UInt8}
    {rest bytes : Bytes}
    (h : decodePairs index (high :: low :: rest) = .ok bytes) :
    ∃ hi lo tail, val high index = .ok hi ∧ val low (index + 1) = .ok lo ∧
      decodePairs (index + 2) rest = .ok tail ∧
      bytes = UInt8.ofNat (hi * 16 + lo) :: tail := by
  rw [decodePairs] at h
  cases hhigh : val high index with
  | error e => rw [hhigh] at h; cases h
  | ok hi =>
      cases hlow : val low (index + 1) with
      | error e => rw [hhigh, hlow] at h; cases h
      | ok lo =>
          cases htail : decodePairs (index + 2) rest with
          | error e => rw [hhigh, hlow, htail] at h; cases h
          | ok tail =>
              rw [hhigh, hlow, htail] at h
              cases h
              exact ⟨hi, lo, tail, rfl, rfl, rfl, rfl⟩

private theorem encode_of_decodePairs {index : Nat} {text bytes : Bytes}
    (h : decodePairs index text = .ok bytes) :
    encode bytes = text.map toLower := by
  induction index, text using decodePairs.induct generalizing bytes with
  | case1 => cases h; simp [encode]
  | case2 => cases h
  | case3 index high low rest ih =>
      obtain ⟨hi, lo, tail, hhigh, hlow, htail, rfl⟩ := decodePairs_cons h
      obtain ⟨hhi, hdhi⟩ := val_ok hhigh
      obtain ⟨hlo, hdlo⟩ := val_ok hlow
      have hbyte : (UInt8.ofNat (hi * 16 + lo)).toNat = hi * 16 + lo := by
        simp
        omega
      rw [encode, hbyte, show (hi * 16 + lo) / 16 = hi by omega,
        show (hi * 16 + lo) % 16 = lo by omega, hdhi, hdlo, ih htail]
      rfl

private theorem decodePairs_of_decode {text bytes : Bytes}
    (h : decode text = .ok bytes) : decodePairs 0 text = .ok bytes := by
  unfold decode at h
  split at h
  · cases h
  · exact h

private theorem exists_decodePairs_iff (index : Nat) (text : Bytes) :
    (∃ bytes, decodePairs index text = .ok bytes) ↔
      text.length % 2 = 0 ∧ ∀ c ∈ text, isHexDigit c = true := by
  induction index, text using decodePairs.induct with
  | case1 => exact ⟨fun _ => ⟨rfl, nofun⟩, fun _ => ⟨[], rfl⟩⟩
  | case2 index c =>
      constructor
      · rintro ⟨bytes, h⟩
        cases h
      · rintro ⟨hodd, -⟩
        cases hodd
  | case3 index high low rest ih =>
      rw [List.length_cons, List.length_cons, List.forall_mem_cons,
        List.forall_mem_cons]
      constructor
      · rintro ⟨bytes, h⟩
        obtain ⟨hi, lo, tail, hhigh, hlow, htail, -⟩ := decodePairs_cons h
        obtain ⟨heven, hdigits⟩ := ih.mp ⟨tail, htail⟩
        exact ⟨by omega, (exists_val_iff _ _).mp ⟨hi, hhigh⟩,
          (exists_val_iff _ _).mp ⟨lo, hlow⟩, hdigits⟩
      · rintro ⟨heven, hhigh, hlow, hdigits⟩
        obtain ⟨hi, hhi⟩ := (exists_val_iff high index).mpr hhigh
        obtain ⟨lo, hlo⟩ := (exists_val_iff low (index + 1)).mpr hlow
        obtain ⟨tail, htail⟩ := ih.mpr ⟨by omega, hdigits⟩
        exact ⟨_, by rw [decodePairs, hhi, hlo, htail]; rfl⟩

private theorem exists_decode_iff (text : Bytes) :
    (∃ bytes, decode text = .ok bytes) ↔
      text.length % 2 = 0 ∧ ∀ c ∈ text, isHexDigit c = true := by
  rw [← exists_decodePairs_iff 0 text, decode]
  split
  · rename_i hodd
    rw [exists_decodePairs_iff]
    simp [hodd]
  · rfl

end PlainHex

def plainHex : Hex where
  encode := PlainHex.encode
  decode := PlainHex.decode
  length_encode := PlainHex.length_encode
  decode_encode := PlainHex.decode_encode
  exists_decode_iff := PlainHex.exists_decode_iff
  encode_of_decode h := PlainHex.encode_of_decodePairs (PlainHex.decodePairs_of_decode h)

end CommonChat.Foundation
