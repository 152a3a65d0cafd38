import Mathlib.Data.List.Basic

/-!
# Browser strings

A `JsString` is a sequence of UTF-16 code units, which need not be well formed.
`encodeUtf8` is the encoding a browser applies when such a string crosses into
byte-oriented code: a surrogate pair becomes one scalar value and every unpaired
surrogate becomes U+FFFD.  Two different strings can therefore share their
UTF-8 bytes; strings whose bytes are all ASCII cannot.
-/

namespace CommonChat.Foundation

abbrev Bytes := List UInt8

abbrev JsString := List UInt16

/-- The code units of a literal without characters outside the basic plane. -/
def js (literal : String) : JsString :=
  literal.toList.map fun c => c.val.toUInt16

/-! ## UTF-8 -/

def isLeadSurrogate (u : UInt16) : Bool := 0xD800 ≤ u && u ≤ 0xDBFF

def isTrailSurrogate (u : UInt16) : Bool := 0xDC00 ≤ u && u ≤ 0xDFFF

def encodeScalar (c : Nat) : Bytes :=
  if c < 0x80 then [UInt8.ofNat c]
  else if c < 0x800 then
    [UInt8.ofNat (0xC0 + c / 64), UInt8.ofNat (0x80 + c % 64)]
  else if c < 0x10000 then
    [UInt8.ofNat (0xE0 + c / 4096), UInt8.ofNat (0x80 + c / 64 % 64),
      UInt8.ofNat (0x80 + c % 64)]
  else
    [UInt8.ofNat (0xF0 + c / 262144), UInt8.ofNat (0x80 + c / 4096 % 64),
      UInt8.ofNat (0x80 + c / 64 % 64), UInt8.ofNat (0x80 + c % 64)]

/-- A code unit outside a surrogate pair; unpaired surrogates are replaced. -/
def loneUnit (u : UInt16) : Nat :=
  if isLeadSurrogate u || isTrailSurrogate u then 0xFFFD else u.toNat

def encodeUtf8 : JsString → Bytes
  | [] => []
  | [u] => encodeScalar (loneUnit u)
  | u :: v :: rest =>
      if isLeadSurrogate u && isTrailSurrogate v then
        encodeScalar
            (0x10000 + (u.toNat - 0xD800) * 0x400 + (v.toNat - 0xDC00)) ++
          encodeUtf8 rest
      else encodeScalar (loneUnit u) ++ encodeUtf8 (v :: rest)

def IsAscii (s : JsString) : Prop := ∀ u ∈ s, u.toNat < 0x80

private theorem isLeadSurrogate_ascii {u : UInt16} (hu : u.toNat < 0x80) :
    isLeadSurrogate u = false := by
  simp [isLeadSurrogate, UInt16.le_iff_toNat_le]
  omega

private theorem loneUnit_ascii {u : UInt16} (hu : u.toNat < 0x80) :
    loneUnit u = u.toNat := by
  have htrail : isTrailSurrogate u = false := by
    simp [isTrailSurrogate, UInt16.le_iff_toNat_le]
    omega
  simp only [loneUnit, isLeadSurrogate_ascii hu, htrail, Bool.or_self,
    Bool.false_eq_true, if_false]

private theorem encodeScalar_ascii {u : UInt16} (hu : u.toNat < 0x80) :
    encodeScalar (loneUnit u) = [u.toUInt8] := by
  rw [loneUnit_ascii hu, encodeScalar, if_pos hu]
  rfl

theorem encodeUtf8_ascii {s : JsString} (hs : IsAscii s) :
    encodeUtf8 s = s.map UInt16.toUInt8 := by
  induction s using encodeUtf8.induct with
  | case1 => rfl
  | case2 u =>
      rw [encodeUtf8, encodeScalar_ascii (hs u (by simp))]
      rfl
  | case3 u v rest hpair ih =>
      rw [isLeadSurrogate_ascii (hs u (by simp))] at hpair
      simp at hpair
  | case4 u v rest hpair ih =>
      rw [encodeUtf8, if_neg hpair, encodeScalar_ascii (hs u (by simp)),
        ih fun w hw => hs w (List.mem_cons_of_mem _ hw)]
      rfl

private theorem encodeScalar_head {c : Nat} (hlow : 0x80 ≤ c)
    (hhigh : c < 0x110000) : ∃ b ∈ encodeScalar c, 0x80 ≤ b.toNat := by
  unfold encodeScalar
  rw [if_neg (by omega)]
  split
  · exact ⟨_, List.mem_cons_self, by simp; omega⟩
  split
  · exact ⟨_, List.mem_cons_self, by simp; omega⟩
  · exact ⟨_, List.mem_cons_self, by simp; omega⟩

private theorem ascii_of_encodeScalar_loneUnit {u : UInt16}
    (h : ∀ b ∈ encodeScalar (loneUnit u), b.toNat < 0x80) :
    u.toNat < 0x80 := by
  by_contra hu
  have hlt : u.toNat < 0x10000 := u.toNat_lt
  have hlone : 0x80 ≤ loneUnit u ∧ loneUnit u < 0x110000 := by
    unfold loneUnit
    split <;> constructor <;> omega
  obtain ⟨b, hb, hge⟩ := encodeScalar_head hlone.1 hlone.2
  exact absurd (h b hb) (by omega)

theorem isAscii_of_encodeUtf8 {s : JsString}
    (h : ∀ b ∈ encodeUtf8 s, b.toNat < 0x80) : IsAscii s := by
  induction s using encodeUtf8.induct with
  | case1 => intro u hu; cases hu
  | case2 u =>
      intro w hw
      obtain rfl := List.mem_singleton.mp hw
      exact ascii_of_encodeScalar_loneUnit h
  | case3 u v rest hpair ih =>
      rw [encodeUtf8, if_pos hpair] at h
      simp only [isLeadSurrogate, isTrailSurrogate, UInt16.le_iff_toNat_le,
        Bool.and_eq_true, decide_eq_true_eq, UInt16.reduceToNat] at hpair
      obtain ⟨b, hb, hge⟩ := encodeScalar_head
        (c := 0x10000 + (u.toNat - 0xD800) * 0x400 + (v.toNat - 0xDC00))
        (by omega) (by omega)
      exact absurd (h b (List.mem_append_left _ hb)) (by omega)
  | case4 u v rest hpair ih =>
      rw [encodeUtf8, if_neg hpair] at h
      intro w hw
      rcases List.mem_cons.mp hw with rfl | hw
      · exact ascii_of_encodeScalar_loneUnit fun b hb =>
          h b (List.mem_append_left _ hb)
      · exact ih (fun b hb => h b (List.mem_append_right _ hb)) w hw

def ofAscii (bytes : Bytes) : JsString := bytes.map UInt8.toUInt16

theorem isAscii_ofAscii {bytes : Bytes} (h : ∀ b ∈ bytes, b.toNat < 0x80) :
    IsAscii (ofAscii bytes) := by
  intro u hu
  obtain ⟨b, hb, rfl⟩ := List.mem_map.mp hu
  simpa using h b hb

theorem encodeUtf8_ofAscii {bytes : Bytes} (h : ∀ b ∈ bytes, b.toNat < 0x80) :
    encodeUtf8 (ofAscii bytes) = bytes := by
  rw [encodeUtf8_ascii (isAscii_ofAscii h), ofAscii, List.map_map]
  exact (List.map_congr_left fun b _ => by simp).trans (List.map_id bytes)

theorem ofAscii_encodeUtf8 {s : JsString}
    (h : ∀ b ∈ encodeUtf8 s, b.toNat < 0x80) :
    ofAscii (encodeUtf8 s) = s := by
  have hascii := isAscii_of_encodeUtf8 h
  rw [encodeUtf8_ascii hascii, ofAscii, List.map_map]
  refine (List.map_congr_left fun u hu => ?_).trans (List.map_id s)
  apply UInt16.toNat_inj.mp
  have := hascii u hu
  simp
  omega

theorem encodeUtf8_cons_ascii {u : UInt16} (hu : u.toNat < 0x80) (s : JsString) :
    encodeUtf8 (u :: s) = u.toUInt8 :: encodeUtf8 s := by
  cases s with
  | nil => simp only [encodeUtf8, encodeScalar_ascii hu]
  | cons v rest =>
      rw [encodeUtf8, isLeadSurrogate_ascii hu, Bool.false_and, if_neg (by simp),
        encodeScalar_ascii hu]
      rfl

theorem encodeUtf8_append_ascii {front : JsString} (h : IsAscii front) (rest : JsString) :
    encodeUtf8 (front ++ rest) = front.map UInt16.toUInt8 ++ encodeUtf8 rest := by
  induction front with
  | nil => rfl
  | cons u front ih =>
      rw [List.cons_append, encodeUtf8_cons_ascii (h u List.mem_cons_self),
        ih fun w hw => h w (List.mem_cons_of_mem _ hw)]
      rfl

private theorem length_encodeScalar_le (c : Nat) : (encodeScalar c).length ≤ 4 := by
  unfold encodeScalar
  split
  · simp
  split
  · simp
  split <;> simp

private theorem length_encodeScalar_loneUnit_le (u : UInt16) :
    (encodeScalar (loneUnit u)).length ≤ 3 := by
  have hlt : loneUnit u < 0x10000 := by
    unfold loneUnit
    split
    · decide
    · exact u.toNat_lt
  unfold encodeScalar
  split
  · simp
  split <;> simp

/--
`TextEncoder.encodeInto`: what is written into a place of `room` bytes.  A scalar
value that does not fit ends it, and is not split.
-/
def encodeInto : JsString → Nat → Bytes
  | [], _ => []
  | [u], room =>
      if (encodeScalar (loneUnit u)).length ≤ room then encodeScalar (loneUnit u) else []
  | u :: v :: rest, room =>
      if isLeadSurrogate u && isTrailSurrogate v then
        let scalar := encodeScalar
          (0x10000 + (u.toNat - 0xD800) * 0x400 + (v.toNat - 0xDC00))
        if scalar.length ≤ room then scalar ++ encodeInto rest (room - scalar.length)
        else []
      else
        let scalar := encodeScalar (loneUnit u)
        if scalar.length ≤ room then
          scalar ++ encodeInto (v :: rest) (room - scalar.length)
        else []

theorem encodeUtf8_ne_nil {s : JsString} (h : s ≠ []) : encodeUtf8 s ≠ [] := by
  intro hnil
  have hascii : IsAscii s := isAscii_of_encodeUtf8 (by simp [hnil])
  rw [encodeUtf8_ascii hascii] at hnil
  exact h (List.map_eq_nil_iff.mp hnil)

theorem encodeInto_eq {s : JsString} {room : Nat} (h : 3 * s.length ≤ room) :
    encodeInto s room = encodeUtf8 s ∧ (encodeUtf8 s).length ≤ 3 * s.length := by
  induction s using encodeUtf8.induct generalizing room with
  | case1 => exact ⟨by simp [encodeInto, encodeUtf8], Nat.le_refl _⟩
  | case2 u =>
      have hlength := length_encodeScalar_loneUnit_le u
      rw [List.length_singleton] at h
      rw [encodeInto, if_pos (by omega), encodeUtf8]
      exact ⟨rfl, by simpa using hlength⟩
  | case3 u v rest hpair ih =>
      have hlength := length_encodeScalar_le
        (0x10000 + (u.toNat - 0xD800) * 0x400 + (v.toNat - 0xDC00))
      simp only [List.length_cons] at h ⊢
      rw [encodeInto, if_pos hpair, encodeUtf8, if_pos hpair]
      simp only
      rw [if_pos (by omega)]
      have hrest : 3 * rest.length ≤ room - (encodeScalar (0x10000 +
          (u.toNat - 0xD800) * 0x400 + (v.toNat - 0xDC00))).length := by omega
      obtain ⟨heq, hle⟩ := ih hrest
      refine ⟨by rw [heq], ?_⟩
      rw [List.length_append]
      omega
  | case4 u v rest hpair ih =>
      have hlength := length_encodeScalar_loneUnit_le u
      rw [List.length_cons] at h ⊢
      rw [encodeInto, if_neg hpair, encodeUtf8, if_neg hpair]
      simp only
      rw [if_pos (by omega)]
      have hrest : 3 * (v :: rest).length ≤
          room - (encodeScalar (loneUnit u)).length := by omega
      obtain ⟨heq, hle⟩ := ih hrest
      refine ⟨by rw [heq], ?_⟩
      rw [List.length_append]
      omega

/-! ## Decoding -/

def isContinuation (b : UInt8) (lower upper : Nat) : Bool :=
  lower ≤ b.toNat && b.toNat ≤ upper

def unitsOf (c : Nat) : JsString :=
  if c < 0x10000 then [UInt16.ofNat c]
  else [UInt16.ofNat (0xD800 + (c - 0x10000) / 0x400),
    UInt16.ofNat (0xDC00 + (c - 0x10000) % 0x400)]

/--
`TextDecoder.decode` for UTF-8 with the option `fatal`: whatever is not the shortest
encoding of scalar values is refused.
-/
def decodeUtf8 : Bytes → Option JsString
  | [] => some []
  | b :: rest =>
      let n := b.toNat
      if n < 0x80 then (decodeUtf8 rest).map (unitsOf n ++ ·)
      else if 0xC2 ≤ n ∧ n ≤ 0xDF then
        match rest with
        | b₁ :: rest =>
            if isContinuation b₁ 0x80 0xBF then
              (decodeUtf8 rest).map (unitsOf ((n - 0xC0) * 64 + (b₁.toNat - 0x80)) ++ ·)
            else none
        | _ => none
      else if 0xE0 ≤ n ∧ n ≤ 0xEF then
        match rest with
        | b₁ :: b₂ :: rest =>
            if isContinuation b₁ (if n = 0xE0 then 0xA0 else 0x80)
                (if n = 0xED then 0x9F else 0xBF) && isContinuation b₂ 0x80 0xBF then
              (decodeUtf8 rest).map (unitsOf ((n - 0xE0) * 4096 +
                (b₁.toNat - 0x80) * 64 + (b₂.toNat - 0x80)) ++ ·)
            else none
        | _ => none
      else if 0xF0 ≤ n ∧ n ≤ 0xF4 then
        match rest with
        | b₁ :: b₂ :: b₃ :: rest =>
            if isContinuation b₁ (if n = 0xF0 then 0x90 else 0x80)
                (if n = 0xF4 then 0x8F else 0xBF) && isContinuation b₂ 0x80 0xBF &&
                isContinuation b₃ 0x80 0xBF then
              (decodeUtf8 rest).map (unitsOf ((n - 0xF0) * 262144 +
                (b₁.toNat - 0x80) * 4096 + (b₂.toNat - 0x80) * 64 + (b₃.toNat - 0x80)) ++ ·)
            else none
        | _ => none
      else none

private theorem ofNat_toNat {n : Nat} (h : n < 256) : (UInt8.ofNat n).toNat = n := by
  simp
  omega

theorem decodeUtf8_encodeScalar {c : Nat} (hc : c < 0x110000)
    (hsurrogate : c < 0xD800 ∨ 0xE000 ≤ c) (rest : Bytes) :
    decodeUtf8 (encodeScalar c ++ rest) = (decodeUtf8 rest).map (unitsOf c ++ ·) := by
  unfold encodeScalar
  split
  · rename_i h
    rw [List.singleton_append, decodeUtf8.eq_def]
    simp only [ofNat_toNat (show c < 256 by omega), if_pos h]
  split
  · rename_i h₀ h
    have hb : (UInt8.ofNat (0xC0 + c / 64)).toNat = 0xC0 + c / 64 := ofNat_toNat (by omega)
    have hb₁ : (UInt8.ofNat (0x80 + c % 64)).toNat = 0x80 + c % 64 := ofNat_toNat (by omega)
    have hvalue : (0xC0 + c / 64 - 0xC0) * 64 + (0x80 + c % 64 - 0x80) = c := by omega
    have hcont : isContinuation (UInt8.ofNat (0x80 + c % 64)) 0x80 0xBF = true := by
      simp only [isContinuation, hb₁, Bool.and_eq_true, decide_eq_true_eq]
      omega
    simp only [List.cons_append, List.nil_append]
    rw [decodeUtf8.eq_def]
    simp only [hb]
    rw [if_neg (by omega), if_pos (by omega), if_pos hcont, hb₁, hvalue]
  split
  · rename_i h₀ h₁ h
    have hb : (UInt8.ofNat (0xE0 + c / 4096)).toNat = 0xE0 + c / 4096 :=
      ofNat_toNat (by omega)
    have hb₁ : (UInt8.ofNat (0x80 + c / 64 % 64)).toNat = 0x80 + c / 64 % 64 :=
      ofNat_toNat (by omega)
    have hb₂ : (UInt8.ofNat (0x80 + c % 64)).toNat = 0x80 + c % 64 := ofNat_toNat (by omega)
    have hvalue : (0xE0 + c / 4096 - 0xE0) * 4096 + (0x80 + c / 64 % 64 - 0x80) * 64 +
        (0x80 + c % 64 - 0x80) = c := by omega
    have hcont : (isContinuation (UInt8.ofNat (0x80 + c / 64 % 64))
        (if 0xE0 + c / 4096 = 0xE0 then 0xA0 else 0x80)
        (if 0xE0 + c / 4096 = 0xED then 0x9F else 0xBF) &&
          isContinuation (UInt8.ofNat (0x80 + c % 64)) 0x80 0xBF) = true := by
      simp only [isContinuation, hb₁, hb₂, Bool.and_eq_true, decide_eq_true_eq]
      refine ⟨⟨?_, ?_⟩, ?_⟩
      · split <;> omega
      · split <;> omega
      · omega
    simp only [List.cons_append, List.nil_append]
    rw [decodeUtf8.eq_def]
    simp only [hb]
    rw [if_neg (by omega), if_neg (by omega), if_pos (by omega), if_pos hcont, hb₁, hb₂,
      hvalue]
  · rename_i h₀ h₁ h
    have hb : (UInt8.ofNat (0xF0 + c / 262144)).toNat = 0xF0 + c / 262144 :=
      ofNat_toNat (by omega)
    have hb₁ : (UInt8.ofNat (0x80 + c / 4096 % 64)).toNat = 0x80 + c / 4096 % 64 :=
      ofNat_toNat (by omega)
    have hb₂ : (UInt8.ofNat (0x80 + c / 64 % 64)).toNat = 0x80 + c / 64 % 64 :=
      ofNat_toNat (by omega)
    have hb₃ : (UInt8.ofNat (0x80 + c % 64)).toNat = 0x80 + c % 64 := ofNat_toNat (by omega)
    have hvalue : (0xF0 + c / 262144 - 0xF0) * 262144 +
        (0x80 + c / 4096 % 64 - 0x80) * 4096 + (0x80 + c / 64 % 64 - 0x80) * 64 +
        (0x80 + c % 64 - 0x80) = c := by omega
    have hcont : (isContinuation (UInt8.ofNat (0x80 + c / 4096 % 64))
        (if 0xF0 + c / 262144 = 0xF0 then 0x90 else 0x80)
        (if 0xF0 + c / 262144 = 0xF4 then 0x8F else 0xBF) &&
          isContinuation (UInt8.ofNat (0x80 + c / 64 % 64)) 0x80 0xBF &&
          isContinuation (UInt8.ofNat (0x80 + c % 64)) 0x80 0xBF) = true := by
      simp only [isContinuation, hb₁, hb₂, hb₃, Bool.and_eq_true, decide_eq_true_eq]
      refine ⟨⟨⟨?_, ?_⟩, ?_⟩, ?_⟩
      · split <;> omega
      · split <;> omega
      · omega
      · omega
    simp only [List.cons_append, List.nil_append]
    rw [decodeUtf8.eq_def]
    simp only [hb]
    rw [if_neg (by omega), if_neg (by omega), if_neg (by omega), if_pos (by omega),
      if_pos hcont, hb₁, hb₂, hb₃, hvalue]

def toWellFormed : JsString → JsString
  | [] => []
  | [u] => [UInt16.ofNat (loneUnit u)]
  | u :: v :: rest =>
      if isLeadSurrogate u && isTrailSurrogate v then u :: v :: toWellFormed rest
      else UInt16.ofNat (loneUnit u) :: toWellFormed (v :: rest)

private theorem loneUnit_bounds (u : UInt16) :
    loneUnit u < 0x10000 ∧ (loneUnit u < 0xD800 ∨ 0xE000 ≤ loneUnit u) := by
  have hlt := u.toNat_lt
  unfold loneUnit
  split
  · decide
  · rename_i h
    simp only [isLeadSurrogate, isTrailSurrogate, UInt16.le_iff_toNat_le,
      Bool.or_eq_true, Bool.and_eq_true, decide_eq_true_eq, UInt16.reduceToNat,
      not_or, not_and, Nat.not_le] at h
    omega

private theorem decodeUtf8_loneUnit (u : UInt16) (rest : Bytes) :
    decodeUtf8 (encodeScalar (loneUnit u) ++ rest) =
      (decodeUtf8 rest).map (UInt16.ofNat (loneUnit u) :: ·) := by
  obtain ⟨hlt, hscalar⟩ := loneUnit_bounds u
  rw [decodeUtf8_encodeScalar (by omega) hscalar, unitsOf, if_pos hlt]
  rfl

private theorem unitsOf_pair {u v : UInt16} (hu : isLeadSurrogate u = true)
    (hv : isTrailSurrogate v = true) :
    unitsOf (0x10000 + (u.toNat - 0xD800) * 0x400 + (v.toNat - 0xDC00)) = [u, v] ∧
      0x10000 + (u.toNat - 0xD800) * 0x400 + (v.toNat - 0xDC00) < 0x110000 := by
  simp only [isLeadSurrogate, isTrailSurrogate, UInt16.le_iff_toNat_le,
    Bool.and_eq_true, decide_eq_true_eq, UInt16.reduceToNat] at hu hv
  refine ⟨?_, by omega⟩
  rw [unitsOf, if_neg (by omega)]
  have hlead : 0xD800 + (0x10000 + (u.toNat - 0xD800) * 0x400 + (v.toNat - 0xDC00) -
      0x10000) / 0x400 = u.toNat := by omega
  have htrail : 0xDC00 + (0x10000 + (u.toNat - 0xD800) * 0x400 + (v.toNat - 0xDC00) -
      0x10000) % 0x400 = v.toNat := by omega
  rw [hlead, htrail, UInt16.ofNat_toNat, UInt16.ofNat_toNat]

/-- Encoding and decoding again replaces unpaired surrogates and nothing else. -/
theorem decodeUtf8_encodeUtf8 (s : JsString) :
    decodeUtf8 (encodeUtf8 s) = some (toWellFormed s) := by
  induction s using encodeUtf8.induct with
  | case1 => rfl
  | case2 u =>
      have h := decodeUtf8_loneUnit u []
      rw [List.append_nil] at h
      rw [encodeUtf8, h]
      rfl
  | case3 u v rest hpair ih =>
      have hsurrogates := hpair
      rw [Bool.and_eq_true] at hsurrogates
      obtain ⟨hunits, hlt⟩ := unitsOf_pair hsurrogates.1 hsurrogates.2
      rw [encodeUtf8, if_pos hpair, decodeUtf8_encodeScalar hlt (by omega), ih, hunits,
        toWellFormed, if_pos hpair]
      rfl
  | case4 u v rest hpair ih =>
      rw [encodeUtf8, if_neg hpair, decodeUtf8_loneUnit, ih, toWellFormed, if_neg hpair]
      rfl

theorem toWellFormed_ascii {s : JsString} (h : IsAscii s) : toWellFormed s = s := by
  have hunit : ∀ u ∈ s, UInt16.ofNat (loneUnit u) = u := by
    intro u hu
    rw [loneUnit_ascii (h u hu), UInt16.ofNat_toNat]
  induction s using toWellFormed.induct with
  | case1 => rfl
  | case2 u => rw [toWellFormed, hunit u List.mem_cons_self]
  | case3 u v rest hpair =>
      rw [isLeadSurrogate_ascii (h u List.mem_cons_self)] at hpair
      cases hpair
  | case4 u v rest hpair ih =>
      rw [toWellFormed, if_neg hpair, hunit u List.mem_cons_self,
        ih (fun w hw => h w (List.mem_cons_of_mem _ hw))
          (fun w hw => hunit w (List.mem_cons_of_mem _ hw))]

theorem decodeUtf8_ascii {bytes : Bytes} (h : ∀ b ∈ bytes, b.toNat < 0x80) :
    decodeUtf8 bytes = some (ofAscii bytes) := by
  calc decodeUtf8 bytes = decodeUtf8 (encodeUtf8 (ofAscii bytes)) := by
        rw [encodeUtf8_ofAscii h]
    _ = some (toWellFormed (ofAscii bytes)) := decodeUtf8_encodeUtf8 _
    _ = some (ofAscii bytes) := by rw [toWellFormed_ascii (isAscii_ofAscii h)]

/-! ## String methods -/

/-- ECMAScript `WhiteSpace` and `LineTerminator`. -/
def isWhiteSpace (u : UInt16) : Bool :=
  (0x0009 ≤ u && u ≤ 0x000D) || u == 0x0020 || u == 0x00A0 || u == 0x1680 ||
    (0x2000 ≤ u && u ≤ 0x200A) || u == 0x2028 || u == 0x2029 || u == 0x202F ||
    u == 0x205F || u == 0x3000 || u == 0xFEFF

def trimStart (s : JsString) : JsString := s.dropWhile isWhiteSpace

def trim (s : JsString) : JsString :=
  (trimStart (trimStart s).reverse).reverse

end CommonChat.Foundation
