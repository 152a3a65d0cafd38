import Mathlib.Algebra.Order.Ring.Nat
import Mathlib.Data.List.Basic

/-!
# Base 128

A number as bytes of seven bits each, lowest first, with the high bit set on
every byte but the last.  Only the shortest form counts as the encoding: the
last byte of a longer one is not zero.
-/

namespace CommonChat.Foundation.Leb128

def encode (n : Nat) : List UInt8 :=
  if n < 128 then [UInt8.ofNat n]
  else UInt8.ofNat (n % 128 + 128) :: encode (n / 128)
termination_by n
decreasing_by omega

theorem encode_of_lt {n : Nat} (h : n < 128) : encode n = [UInt8.ofNat n] := by
  rw [encode, if_pos h]

theorem encode_of_ge {n : Nat} (h : 128 ≤ n) :
    encode n = UInt8.ofNat (n % 128 + 128) :: encode (n / 128) := by
  rw [encode, if_neg (by omega)]

theorem encode_ne_nil (n : Nat) : encode n ≠ [] := by
  rw [encode]
  split <;> simp

theorem cons_eq_encode_append_iff {byte : UInt8} {bytes rest : List UInt8} {n : Nat} :
    byte :: bytes = encode n ++ rest ↔
      (byte.toNat < 128 ∧ n = byte.toNat ∧ bytes = rest) ∨
      (128 ≤ byte.toNat ∧ ∃ m, 0 < m ∧ n = byte.toNat - 128 + 128 * m ∧
        bytes = encode m ++ rest) := by
  have hbyte := byte.toNat_lt
  constructor
  · intro h
    by_cases hn : n < 128
    · rw [encode_of_lt hn, List.cons_append, List.nil_append, List.cons.injEq] at h
      obtain ⟨rfl, rfl⟩ := h
      have hval : (UInt8.ofNat n).toNat = n := by
        rw [UInt8.toNat_ofNat']
        omega
      exact .inl ⟨by omega, hval.symm, rfl⟩
    · rw [encode_of_ge (by omega), List.cons_append, List.cons.injEq] at h
      obtain ⟨rfl, rfl⟩ := h
      have hval : (UInt8.ofNat (n % 128 + 128)).toNat = n % 128 + 128 := by
        rw [UInt8.toNat_ofNat']
        omega
      exact .inr ⟨by omega, n / 128, by omega, by omega, rfl⟩
  · rintro (⟨hlast, rfl, rfl⟩ | ⟨hmore, m, hm, rfl, rfl⟩)
    · rw [encode_of_lt hlast, UInt8.ofNat_toNat]
      rfl
    · have hmod : (byte.toNat - 128 + 128 * m) % 128 + 128 = byte.toNat := by omega
      have hdiv : (byte.toNat - 128 + 128 * m) / 128 = m := by omega
      have hge : 128 ≤ byte.toNat - 128 + 128 * m := by omega
      rw [encode_of_ge hge, hmod, hdiv, UInt8.ofNat_toNat]
      rfl

theorem cons_eq_encode_iff {byte : UInt8} {bytes : List UInt8} {n : Nat} :
    byte :: bytes = encode n ↔
      (byte.toNat < 128 ∧ n = byte.toNat ∧ bytes = []) ∨
      (128 ≤ byte.toNat ∧ ∃ m, 0 < m ∧ n = byte.toNat - 128 + 128 * m ∧
        bytes = encode m) := by
  have h := @cons_eq_encode_append_iff byte bytes [] n
  simpa only [List.append_nil] using h

theorem encode_append_inj {m n : Nat} {x y : List UInt8}
    (h : encode m ++ x = encode n ++ y) : m = n ∧ x = y := by
  induction m using Nat.strongRecOn generalizing n with
  | ind m ih =>
      by_cases hm : m < 128
      · rw [encode_of_lt hm, List.cons_append, List.nil_append,
          cons_eq_encode_append_iff, UInt8.toNat_ofNat'] at h
        rcases h with ⟨-, rfl, rfl⟩ | ⟨hge, -⟩
        · exact ⟨by omega, rfl⟩
        · omega
      · rw [encode_of_ge (by omega), List.cons_append, cons_eq_encode_append_iff,
          UInt8.toNat_ofNat'] at h
        rcases h with ⟨hlt, -⟩ | ⟨-, k, -, rfl, hrest⟩
        · omega
        · obtain ⟨rfl, rfl⟩ := ih (m / 128) (by omega) hrest
          exact ⟨by omega, rfl⟩

theorem two_pow_seven_mul_succ (k : Nat) : 2 ^ (7 * (k + 1)) = 128 * 2 ^ (7 * k) := by
  rw [show 7 * (k + 1) = 7 + 7 * k by omega, Nat.pow_add]

theorem length_encode_le_iff (n k : Nat) :
    (encode n).length ≤ k + 1 ↔ n < 2 ^ (7 * (k + 1)) := by
  induction k generalizing n with
  | zero =>
      by_cases hn : n < 128
      · simp [encode_of_lt hn, hn]
      · have hne := List.length_pos_of_ne_nil (encode_ne_nil (n / 128))
        rw [encode_of_ge (by omega), List.length_cons]
        omega
  | succ k ih =>
      have hpow := two_pow_seven_mul_succ (k + 1)
      have hone : 0 < 2 ^ (7 * (k + 1)) := Nat.two_pow_pos _
      by_cases hn : n < 128
      · rw [encode_of_lt hn, List.length_singleton, hpow]
        omega
      · rw [encode_of_ge (by omega), List.length_cons, Nat.add_le_add_iff_right, ih, hpow]
        omega

/-! ## Beginnings of encodings -/

def Continues (bytes : List UInt8) : Prop := ∀ byte ∈ bytes, 128 ≤ byte.toNat

theorem continues_cons {byte : UInt8} {bytes : List UInt8} :
    Continues (byte :: bytes) ↔ 128 ≤ byte.toNat ∧ Continues bytes := by
  simp [Continues]

def low (bytes : List UInt8) : Nat :=
  bytes.foldr (fun byte n => byte.toNat - 128 + 128 * n) 0

theorem low_lt (bytes : List UInt8) : low bytes < 2 ^ (7 * bytes.length) := by
  induction bytes with
  | nil => simp [low]
  | cons byte bytes ih =>
      have hbyte := byte.toNat_lt
      have hpow := two_pow_seven_mul_succ bytes.length
      simp only [low, List.foldr_cons, List.length_cons] at ih ⊢
      rw [hpow]
      omega

theorem encode_of_continues {bytes : List UInt8} (h : Continues bytes) {m : Nat}
    (hm : 0 < m) :
    encode (low bytes + 2 ^ (7 * bytes.length) * m) = bytes ++ encode m := by
  induction bytes with
  | nil => simp [low]
  | cons byte bytes ih =>
      obtain ⟨hbyte, hrest⟩ := continues_cons.mp h
      have hpow := two_pow_seven_mul_succ bytes.length
      have hpos : 0 < low bytes + 2 ^ (7 * bytes.length) * m :=
        Nat.add_pos_right _ (Nat.mul_pos (Nat.two_pow_pos _) hm)
      have hsum : low (byte :: bytes) + 2 ^ (7 * (byte :: bytes).length) * m =
          byte.toNat - 128 + 128 * (low bytes + 2 ^ (7 * bytes.length) * m) := by
        simp only [low, List.foldr_cons, List.length_cons, hpow]
        rw [Nat.mul_add, Nat.mul_assoc]
        omega
      rw [hsum, List.cons_append]
      refine (cons_eq_encode_iff.mpr (.inr ⟨hbyte, _, hpos, rfl, ?_⟩)).symm
      rw [ih hrest]

/-- The proper beginnings of the encodings of the numbers of some size. -/
theorem exists_encode_iff {bytes : List UInt8} {bits : Nat} (hbits : 0 < bits) :
    (∃ n tail, n < 2 ^ bits ∧ tail ≠ [] ∧ encode n = bytes ++ tail) ↔
      Continues bytes ∧ 7 * bytes.length < bits := by
  constructor
  · rintro ⟨n, tail, hn, htail, h⟩
    have hmore : Continues bytes ∧ (bytes ≠ [] → 2 ^ (7 * bytes.length) ≤ n) := by
      clear hn
      induction bytes generalizing n with
      | nil => exact ⟨by simp [Continues], by simp⟩
      | cons byte bytes ih =>
          rw [List.cons_append] at h
          rcases cons_eq_encode_iff.mp h.symm with ⟨-, -, hnil⟩ | ⟨hbyte, m, hm, rfl, hrest⟩
          · exact absurd (List.append_eq_nil_iff.mp hnil).2 htail
          · obtain ⟨hcontinues, hle⟩ := ih m hrest.symm
            refine ⟨continues_cons.mpr ⟨hbyte, hcontinues⟩, fun _ => ?_⟩
            have hpow := two_pow_seven_mul_succ bytes.length
            have hbound : 2 ^ (7 * bytes.length) ≤ m := by
              by_cases hnil : bytes = []
              · subst hnil
                exact hm
              · exact hle hnil
            rw [List.length_cons, hpow]
            omega
    refine ⟨hmore.1, ?_⟩
    by_cases hnil : bytes = []
    · subst hnil
      simpa using hbits
    · exact (Nat.pow_lt_pow_iff_right (by decide)).mp (Nat.lt_of_le_of_lt (hmore.2 hnil) hn)
  · rintro ⟨hcontinues, hlen⟩
    refine ⟨low bytes + 2 ^ (7 * bytes.length) * 1, encode 1, ?_, encode_ne_nil 1,
      encode_of_continues hcontinues (by decide)⟩
    have hlow := low_lt bytes
    calc low bytes + 2 ^ (7 * bytes.length) * 1
        < 2 ^ (7 * bytes.length + 1) := by
          rw [Nat.pow_succ]
          omega
      _ ≤ 2 ^ bits := Nat.pow_le_pow_right (by decide) hlen

end CommonChat.Foundation.Leb128
