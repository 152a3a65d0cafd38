import CommonChat.Frontend.Glue

/-!
# The exported functions

The functions of `frontend/src/commonware-lib/commonchat_core.js`, over the memory
that they share with the core.  A string goes into a block that is given back before the call
ends.  An identity stays: the core keeps a record of it and the text of its public
key, and the page has the address of the record, until it is freed.
-/

namespace CommonChat.Frontend

open CommonChat.Foundation
open CommonChat.Core

namespace Glue

variable {σ : Type} (R : Runtime σ) (E : Ed25519)

def identityAt (g : Glue σ) (ptr : Nat) : Option (CommonwareIdentity E) := do
  let (privateKey, text) ← R.unbox (g.memory.read ptr R.boxSize)
  let pubKeyHex := g.memory.read text.start text.length
  if h : pubKeyHex = E.hex.encode (E.verificationKey privateKey).bytes then
    some ⟨privateKey, pubKeyHex, h⟩
  else none

def takeString (g : Glue σ) (ret0 : Int) (ret1 : Nat) : Option (JsString × Glue σ) := do
  let (text, g) ← g.getStringFromWasm0 ret0 ret1
  let g ← g.free R (toUint32 ret0) ret1
  some (text, g)

def getText (g : Glue σ) (bytes : Bytes) : Option (JsString × Glue σ) := do
  let g ← g.work R
  let (ret, g) ← g.place R bytes
  g.takeString R (toInt32 ret) bytes.length

def pubKey (g : Glue σ) (ptr : Nat) : Option (JsString × Glue σ) := do
  let identity ← g.identityAt R E ptr
  g.getText R identity.pubKey

def exportPrivateHex (g : Glue σ) (ptr : Nat) : Option (JsString × Glue σ) := do
  let identity ← g.identityAt R E ptr
  g.getText R identity.exportPrivateHex

def sign (g : Glue σ) (ptr : Nat) (message : JsString) : Option (JsString × Glue σ) := do
  let (ptr0, g) ← g.passStringToWasm0 R message true
  let len0 := g.wasmVectorLen
  let identity ← g.identityAt R E ptr
  let result := identity.sign (g.memory.read ptr0 len0)
  let g ← g.work R
  let (ret, g) ← g.place R result
  let g ← g.free R ptr0 len0
  g.takeString R (toInt32 ret) result.length

def wrap (g : Glue σ) (identity : CommonwareIdentity E) (text : Nat) :
    Option (Nat × Glue σ) := do
  let (ret, g) ← g.place R
    (R.box identity.privateKey ⟨text, identity.pubKeyHex.length⟩)
  some (toUint32 (toInt32 ret), g)

def createIdentity (g : Glue σ) (random : PrivateKey) : Option (Nat × Glue σ) := do
  let identity := Core.createIdentity E random
  let g ← g.work R
  let (text, g) ← g.place R identity.pubKeyHex
  g.wrap R E identity text

def identityFromPrivateHex (g : Glue σ) (hexStr : JsString) :
    Option (Except JsError Nat × Glue σ) := do
  let (ptr0, g) ← g.passStringToWasm0 R hexStr true
  let len0 := g.wasmVectorLen
  let ret := Core.identityFromPrivateHex E (g.memory.read ptr0 len0)
  let g ← g.work R
  match ret with
  | .error e =>
      let g ← g.free R ptr0 len0
      some (.error e, g)
  | .ok identity =>
      let (text, g) ← g.place R identity.pubKeyHex
      let g ← g.free R ptr0 len0
      let (ptr, g) ← g.wrap R E identity text
      some (.ok ptr, g)

def verifySignature (g : Glue σ) (pubKeyHex message signatureHex : JsString) :
    Option (Except JsError Bool × Glue σ) := do
  let (ptr0, g) ← g.passStringToWasm0 R pubKeyHex true
  let len0 := g.wasmVectorLen
  let (ptr1, g) ← g.passStringToWasm0 R message true
  let len1 := g.wasmVectorLen
  let (ptr2, g) ← g.passStringToWasm0 R signatureHex true
  let len2 := g.wasmVectorLen
  let ret := Core.verifySignature E (g.memory.read ptr0 len0) (g.memory.read ptr1 len1)
    (g.memory.read ptr2 len2)
  let g ← g.work R
  let g ← g.free R ptr0 len0
  let g ← g.free R ptr1 len1
  let g ← g.free R ptr2 len2
  some (ret, g)

/-- The method `free` of an identity, which the finalization of the page calls too. -/
def freeIdentity (g : Glue σ) (ptr : Nat) : Option (Glue σ) := do
  let (_, text) ← R.unbox (g.memory.read ptr R.boxSize)
  let g ← g.free R text.start text.length
  g.free R ptr R.boxSize

/-! ## Blocks that are given back -/

variable {R E}

structure Freed (R : Runtime σ) (g g' : Glue σ) (block : Block) (room : Nat) : Prop where
  owned_iff : ∀ b, R.owned g'.allocator b ↔ R.owned g.allocator b ∧ b ≠ block
  same : ∀ b, R.owned g'.allocator b → ∀ a, b.Contains a →
    g'.memory.byte a = g.memory.byte a
  size_le : g.memory.size ≤ g'.memory.size
  coherent : g'.Coherent
  room : R.room g'.allocator g'.memory room

theorem freed_free (hR : R.Lawful) {g : Glue σ} (hg : g.Coherent) {ptr len k : Nat}
    (howned : 0 < len → R.owned g.allocator ⟨ptr, len⟩)
    (hroom : R.room g.allocator g.memory k) :
    ∃ g', g.free R ptr len = some g' ∧ g.Freed R g' ⟨ptr, len⟩ k := by
  by_cases hlen : len = 0
  · refine ⟨g, by rw [free, if_pos hlen], ?_, fun _ _ _ _ => rfl, Nat.le_refl _, hg, hroom⟩
    intro b
    refine ⟨fun hb => ⟨hb, ?_⟩, And.left⟩
    rintro rfl
    have hpos : 0 < len := hR.owned_pos hb
    omega
  · obtain ⟨allocator, memory, hfree, hroom', howned', hkeeps⟩ :=
      hR.free (howned (Nat.pos_of_ne_zero hlen)) hroom
    refine ⟨{ g with allocator := allocator, memory := memory }, ?_, howned', hkeeps.same,
      hkeeps.size_le, hg.grow hkeeps, hroom'⟩
    rw [free, if_neg hlen, hfree]
    rfl

theorem Placed.ne (hR : R.Lawful) {g g' : Glue σ} {block b : Block} {bytes : Bytes}
    {k : Nat} (h : g.Placed R g' block bytes k) (hb : R.owned g.allocator b) :
    b ≠ block := by
  rintro rfl
  exact (h.apart b hb).ne (hR.owned_pos hb) rfl

theorem placed_place (hR : R.Lawful) {g : Glue σ} (hg : g.Coherent) {bytes : Bytes}
    {k : Nat} (hroom : R.room g.allocator g.memory k) (hk : bytes.length ≤ k) :
    ∃ ptr g', g.place R bytes = some (ptr, g') ∧
      g.Placed R g' ⟨ptr, bytes.length⟩ bytes (k - bytes.length) := by
  obtain ⟨ptr, allocator, memory, hmalloc, hroom', hnew⟩ := hR.malloc hroom hk
  have hplaced := placed_of_allocated hg hnew hroom'
  have hall : ([] : Bytes).length + bytes.length ≤ bytes.length := by simp
  refine ⟨ptr, _, ?_, hplaced.write hR hall⟩
  rw [place, hmalloc]
  rfl

theorem getStringFromWasm0_eq {g : Glue σ} (hg : g.Coherent) {ptr : Nat} {bytes : Bytes}
    (hptr : ptr < 2 ^ 32) (hfits : ptr + bytes.length ≤ g.memory.size)
    (hread : g.memory.read ptr bytes.length = bytes)
    (hascii : ∀ b ∈ bytes, b.toNat < 0x80) :
    ∃ g', g.getStringFromWasm0 (toInt32 ptr) bytes.length = some (ofAscii bytes, g') ∧
      g'.allocator = g.allocator ∧ g'.memory = g.memory ∧ g'.Coherent := by
  have hg₁ : Coherent { g with
      numBytesDecoded :=
        if g.numBytesDecoded + bytes.length ≥ maxSafariDecodeBytes then bytes.length
        else g.numBytesDecoded + bytes.length } := hg
  obtain ⟨cached, heq, hcoherent⟩ := getUint8ArrayMemory0_eq hg₁
  have hview : (View.whole g.memory).subarray g.memory ptr (ptr + bytes.length) =
      ⟨g.memory.buffer, ptr, bytes.length⟩ := by
    rw [View.subarray_whole (by omega) hfits, Nat.add_sub_cancel_left]
  have hdecode : decodeUtf8 (g.memory.read ptr bytes.length) = some (ofAscii bytes) := by
    rw [hread, decodeUtf8_ascii hascii]
  refine ⟨_, ?_, ?_, ?_, hcoherent⟩
  · simp only [getStringFromWasm0, heq, toUint32_toInt32 hptr, hview, hdecode,
      Option.bind_eq_bind, Option.bind_some]
  · rfl
  · rfl

variable (R)

/-! ## Strings that are held -/

structure Held where
  start : Nat
  bytes : Bytes

def Held.block (x : Held) : Block := ⟨x.start, x.bytes.length⟩

/--
Since the state `g` the strings in the list were placed and not given back.
Everything else is handed out, and holds, as it was.
-/
structure Holding (g g' : Glue σ) (held : List Held) (room : Nat) : Prop where
  start_lt : ∀ x ∈ held, x.start < 2 ^ 32
  fits : ∀ x ∈ held, x.start + x.bytes.length ≤ g'.memory.size
  read : ∀ x ∈ held, g'.memory.read x.start x.bytes.length = x.bytes
  owned_iff : ∀ b, R.owned g'.allocator b ↔
    (∃ x ∈ held, b = x.block ∧ 0 < b.length) ∨ R.owned g.allocator b
  fresh : ∀ x ∈ held, ¬ R.owned g.allocator x.block
  distinct : held.Pairwise fun x y => 0 < x.block.length → x.block ≠ y.block
  same : ∀ b, R.owned g.allocator b → ∀ a, b.Contains a →
    g'.memory.byte a = g.memory.byte a
  coherent : g'.Coherent
  room : R.room g'.allocator g'.memory room

variable {R}

theorem Held.read_of_same {x : Held} {m m' : Memory}
    (h : m.read x.start x.bytes.length = x.bytes)
    (hsame : 0 < x.block.length → ∀ a, x.block.Contains a → m'.byte a = m.byte a) :
    m'.read x.start x.bytes.length = x.bytes := by
  rw [Memory.read_eq_iff] at h ⊢
  intro i hi
  have hpos : 0 < x.block.length := Nat.lt_of_le_of_lt (Nat.zero_le i) hi
  have hcontains : x.block.Contains (x.start + i) := by
    simp only [Block.Contains, Held.block]
    omega
  rw [hsame hpos _ hcontains, h i hi]

theorem Holding.of_same {g g' g₁ : Glue σ} {held : List Held} {k : Nat}
    (h : g.Holding R g' held k) (hallocator : g₁.allocator = g'.allocator)
    (hmemory : g₁.memory = g'.memory) (hcoherent : g₁.Coherent) :
    g.Holding R g₁ held k where
  start_lt := h.start_lt
  fits := by rw [hmemory]; exact h.fits
  read := by rw [hmemory]; exact h.read
  owned_iff := by rw [hallocator]; exact h.owned_iff
  fresh := h.fresh
  distinct := h.distinct
  same := by rw [hmemory]; exact h.same
  coherent := hcoherent
  room := by rw [hallocator, hmemory]; exact h.room

theorem Holding.owned {g g' : Glue σ} {held : List Held} {k : Nat}
    (h : g.Holding R g' held k) {x : Held} (hx : x ∈ held) (hpos : 0 < x.block.length) :
    R.owned g'.allocator x.block :=
  (h.owned_iff _).mpr (.inl ⟨x, hx, rfl, hpos⟩)

theorem Holding.push (hR : R.Lawful) {g g' g'' : Glue σ} {held : List Held} {k k' : Nat}
    (h : g.Holding R g' held k) {x : Held} (hx : g'.Placed R g'' x.block x.bytes k') :
    g.Holding R g'' (x :: held) k' where
  start_lt := List.forall_mem_cons.mpr ⟨hx.start_lt, h.start_lt⟩
  fits := List.forall_mem_cons.mpr
    ⟨hx.fits, fun y hy => Nat.le_trans (h.fits y hy) hx.size_le⟩
  read := by
    refine List.forall_mem_cons.mpr ⟨hx.read, ?_⟩
    intro y hy
    exact Held.read_of_same (h.read y hy) fun hpos => hx.same _ (h.owned hy hpos)
  owned_iff b := by
    rw [hx.owned_iff, h.owned_iff, ← or_assoc]
    refine or_congr_left ?_
    constructor
    · rintro (⟨rfl, hpos⟩ | ⟨y, hy, heq⟩)
      · exact ⟨x, List.mem_cons_self, rfl, hpos⟩
      · exact ⟨y, List.mem_cons_of_mem _ hy, heq⟩
    · rintro ⟨y, hy, rfl, hpos⟩
      rcases List.mem_cons.mp hy with rfl | hy
      · exact .inl ⟨rfl, hpos⟩
      · exact .inr ⟨y, hy, rfl, hpos⟩
  fresh := by
    refine List.forall_mem_cons.mpr ⟨?_, h.fresh⟩
    intro hold
    exact hx.ne hR ((h.owned_iff _).mpr (.inr hold)) rfl
  distinct := by
    refine List.pairwise_cons.mpr ⟨?_, h.distinct⟩
    intro y hy hpos heq
    exact hx.ne hR (h.owned hy (heq ▸ hpos)) heq.symm
  same b hb a ha := by
    rw [hx.same b ((h.owned_iff b).mpr (.inr hb)) a ha, h.same b hb a ha]
  coherent := hx.coherent
  room := hx.room

theorem Holding.free (hR : R.Lawful) {g g' : Glue σ} (before : List Held) {x : Held}
    {after : List Held} {k : Nat} (h : g.Holding R g' (before ++ x :: after) k) :
    ∃ g'', g'.free R x.start x.bytes.length = some g'' ∧
      g.Holding R g'' (before ++ after) k := by
  have hmem : x ∈ before ++ x :: after := by simp
  obtain ⟨g'', hfree, hfreed⟩ := freed_free hR h.coherent (h.owned hmem) h.room
  have hothers : ∀ y, y ∈ before ++ after → y ∈ before ++ x :: after := by
    intro y hy
    simp only [List.mem_append, List.mem_cons] at hy ⊢
    tauto
  obtain ⟨hbefore, hafter, hbetween⟩ := List.pairwise_append.mp h.distinct
  have hne : ∀ y ∈ before ++ after, 0 < y.block.length → y.block ≠ x.block := by
    intro y hy hpos heq
    rcases List.mem_append.mp hy with hy | hy
    · exact hbetween y hy x List.mem_cons_self hpos heq
    · exact (List.pairwise_cons.mp hafter).1 y hy (heq ▸ hpos) heq.symm
  have howned : ∀ y ∈ before ++ after, 0 < y.block.length →
      R.owned g''.allocator y.block := by
    intro y hy hpos
    exact (hfreed.owned_iff _).mpr ⟨h.owned (hothers y hy) hpos, hne y hy hpos⟩
  have hold : ∀ b, R.owned g.allocator b → R.owned g''.allocator b := by
    intro b hb
    refine (hfreed.owned_iff b).mpr ⟨(h.owned_iff b).mpr (.inr hb), ?_⟩
    rintro rfl
    exact h.fresh x hmem hb
  refine ⟨g'', hfree, ?_⟩
  exact {
    start_lt := fun y hy => h.start_lt y (hothers y hy)
    fits := fun y hy => Nat.le_trans (h.fits y (hothers y hy)) hfreed.size_le
    read := fun y hy => Held.read_of_same (h.read y (hothers y hy)) fun hpos =>
      hfreed.same _ (howned y hy hpos)
    owned_iff := by
      intro b
      constructor
      · intro hb
        obtain ⟨hb, hbx⟩ := (hfreed.owned_iff b).mp hb
        rcases (h.owned_iff b).mp hb with ⟨y, hy, rfl, hpos⟩ | hb
        · refine .inl ⟨y, ?_, rfl, hpos⟩
          simp only [List.mem_append, List.mem_cons] at hy ⊢
          rcases hy with hy | rfl | hy
          · exact .inl hy
          · exact absurd rfl hbx
          · exact .inr hy
        · exact .inr hb
      · rintro (⟨y, hy, rfl, hpos⟩ | hb)
        · exact howned y hy hpos
        · exact hold b hb
    fresh := fun y hy => h.fresh y (hothers y hy)
    distinct := h.distinct.sublist
      (List.Sublist.append_left (List.sublist_cons_self x after) before)
    same := by
      intro b hb a ha
      rw [hfreed.same b (hold b hb) a ha, h.same b hb a ha]
    coherent := hfreed.coherent
    room := hfreed.room }

theorem Holding.perm {g g' : Glue σ} {held held' : List Held} {k : Nat}
    (h : g.Holding R g' held k) (hperm : held.Perm held') : g.Holding R g' held' k where
  start_lt x hx := h.start_lt x (hperm.mem_iff.mpr hx)
  fits x hx := h.fits x (hperm.mem_iff.mpr hx)
  read x hx := h.read x (hperm.mem_iff.mpr hx)
  owned_iff b := by
    rw [h.owned_iff]
    simp only [hperm.mem_iff]
  fresh x hx := h.fresh x (hperm.mem_iff.mpr hx)
  distinct := by
    refine (hperm.pairwise_iff ?_).mp h.distinct
    intro x y hne hpos heq
    exact hne (heq ▸ hpos) heq.symm
  same := h.same
  coherent := h.coherent
  room := h.room

theorem Holding.work (hR : R.Lawful) {g g' : Glue σ} {held : List Held} {k : Nat}
    (h : g.Holding R g' held k) :
    ∃ g'', g'.work R = some g'' ∧ g.Holding R g'' held k := by
  obtain ⟨allocator, memory, hwork, hroom, howned, hkeeps⟩ := hR.work h.room
  refine ⟨{ g' with allocator := allocator, memory := memory }, ?_, ?_⟩
  · rw [Glue.work, hwork]
    rfl
  · exact {
      start_lt := h.start_lt
      fits := fun x hx => Nat.le_trans (h.fits x hx) hkeeps.size_le
      read := fun x hx => Held.read_of_same (h.read x hx) fun hpos =>
        hkeeps.same _ (h.owned hx hpos)
      owned_iff := fun b => (howned b).trans (h.owned_iff b)
      fresh := h.fresh
      distinct := h.distinct
      same := by
        intro b hb a ha
        rw [hkeeps.same b ((h.owned_iff b).mpr (.inr hb)) a ha, h.same b hb a ha]
      coherent := h.coherent.grow hkeeps
      room := hroom }

/-! ## What the calls give -/

theorem Holding.passString (hR : R.Lawful) {g g' : Glue σ} {held : List Held} {k : Nat}
    (h : g.Holding R g' held k) {arg : JsString} (hlt : 3 * arg.length < 2 ^ 32)
    (hk : 7 * arg.length ≤ k) :
    ∃ ptr g'', g'.passStringToWasm0 R arg true = some (ptr, g'') ∧
      g''.wasmVectorLen = (encodeUtf8 arg).length ∧
      g.Holding R g'' (⟨ptr, encodeUtf8 arg⟩ :: held) (k - 7 * arg.length) := by
  obtain ⟨ptr, g'', hpass, hlen, hplaced⟩ :=
    placed_passStringToWasm0 hR h.coherent hlt h.room hk true
  exact ⟨ptr, g'', hpass, hlen, h.push hR (x := ⟨ptr, encodeUtf8 arg⟩) hplaced⟩

theorem Holding.place (hR : R.Lawful) {g g' : Glue σ} {held : List Held} {k : Nat}
    (h : g.Holding R g' held k) (bytes : Bytes) (hk : bytes.length ≤ k) :
    ∃ ptr g'', g'.place R bytes = some (ptr, g'') ∧
      g.Holding R g'' (⟨ptr, bytes⟩ :: held) (k - bytes.length) := by
  obtain ⟨ptr, g'', hplace, hplaced⟩ := placed_place hR h.coherent h.room hk
  exact ⟨ptr, g'', hplace, h.push hR (x := ⟨ptr, bytes⟩) hplaced⟩

theorem Holding.takeString (hR : R.Lawful) {g g' : Glue σ} {x : Held} {held : List Held}
    {k : Nat} (h : g.Holding R g' (x :: held) k) (hascii : ∀ b ∈ x.bytes, b.toNat < 0x80) :
    ∃ g'', g'.takeString R (toInt32 x.start) x.bytes.length =
        some (ofAscii x.bytes, g'') ∧ g.Holding R g'' held k := by
  have hx : x ∈ x :: held := List.mem_cons_self
  obtain ⟨g₁, hdecode, hallocator, hmemory, hcoherent⟩ :=
    getStringFromWasm0_eq h.coherent (h.start_lt x hx) (h.fits x hx) (h.read x hx) hascii
  obtain ⟨g₂, hfree, h₂⟩ := (h.of_same hallocator hmemory hcoherent).free hR []
  refine ⟨g₂, ?_, h₂⟩
  simp only [Glue.takeString, hdecode, toUint32_toInt32 (h.start_lt x hx), hfree,
    Option.bind_eq_bind, Option.bind_some]

theorem Holding.getText (hR : R.Lawful) {g g' : Glue σ} {held : List Held} {k : Nat}
    (h : g.Holding R g' held k) (bytes : Bytes) (hascii : ∀ b ∈ bytes, b.toNat < 0x80)
    (hk : bytes.length ≤ k) :
    ∃ g'', g'.getText R bytes = some (ofAscii bytes, g'') ∧
      g.Holding R g'' held (k - bytes.length) := by
  obtain ⟨g₁, hwork, h₁⟩ := h.work hR
  obtain ⟨ptr, g₂, hplace, h₂⟩ := h₁.place hR bytes hk
  obtain ⟨g₃, htake, h₃⟩ := h₂.takeString hR hascii
  refine ⟨g₃, ?_, h₃⟩
  simp only [Glue.getText, hwork, hplace, htake, Option.bind_eq_bind, Option.bind_some]

/-! ## Identities that are kept -/

end Glue

/-- An identity in the memory of the core: its record, and the text of its public key. -/
structure Boxed (E : Ed25519) where
  start : Nat
  text : Nat
  identity : CommonwareIdentity E

namespace Boxed

open Glue

variable {σ : Type} {E : Ed25519} (R : Runtime σ) (o : Boxed E)

def textBlock : Block := ⟨o.text, o.identity.pubKeyHex.length⟩

def held : List Held :=
  [⟨o.start, R.box o.identity.privateKey o.textBlock⟩, ⟨o.text, o.identity.pubKeyHex⟩]

theorem length_pubKeyHex (identity : CommonwareIdentity E) :
    identity.pubKeyHex.length = 64 := by
  rw [identity.pubKeyHex_eq, E.hex.length_encode, FixedBytes.size]

variable {R}

theorem unbox_eq (hR : R.Lawful) {g g' : Glue σ} {held : List Held} {k : Nat}
    (h : g.Holding R g' held k) {o : Boxed E} (ho : o.held R ⊆ held) :
    R.unbox (g'.memory.read o.start R.boxSize) =
      some (o.identity.privateKey, o.textBlock) := by
  obtain ⟨hrecord, htext⟩ := List.forall_mem_cons.mp ho
  have hread := h.read _ hrecord
  simp only [hR.length_box] at hread
  have hshort : o.identity.pubKeyHex.length < 2 ^ 32 := by
    rw [length_pubKeyHex]
    decide
  rw [hread]
  exact hR.unbox_box _ _ (h.start_lt _ (htext _ List.mem_cons_self)) hshort

theorem identityAt_eq (hR : R.Lawful) {g g' : Glue σ} {held : List Held} {k : Nat}
    (h : g.Holding R g' held k) {o : Boxed E} (ho : o.held R ⊆ held) :
    g'.identityAt R E o.start = some o.identity := by
  have htext := h.read ⟨o.text, o.identity.pubKeyHex⟩ (ho (by simp [Boxed.held]))
  simp only at htext
  simp only [identityAt, unbox_eq hR h ho, textBlock, htext, Option.bind_eq_bind,
    Option.bind_some]
  exact dif_pos o.identity.pubKeyHex_eq

end Boxed

namespace Glue

variable {σ : Type} {R : Runtime σ} {E : Ed25519}

theorem Holding.pubKey (hR : R.Lawful) {g g' : Glue σ} {held : List Held} {k : Nat}
    (h : g.Holding R g' held k) {o : Boxed E} (ho : o.held R ⊆ held) (hk : 64 ≤ k) :
    ∃ g'', g'.pubKey R E o.start = some (ofAscii o.identity.pubKey, g'') ∧
      g.Holding R g'' held (k - 64) := by
  have hsize : o.identity.pubKey.length = 64 := Boxed.length_pubKeyHex o.identity
  obtain ⟨g'', hget, h''⟩ := h.getText hR o.identity.pubKey (ascii_pubKey o.identity)
    (by omega)
  rw [hsize] at h''
  refine ⟨g'', ?_, h''⟩
  simp only [Glue.pubKey, Boxed.identityAt_eq hR h ho, hget, Option.bind_eq_bind,
    Option.bind_some]

theorem Holding.exportPrivateHex (hR : R.Lawful) {g g' : Glue σ} {held : List Held}
    {k : Nat} (h : g.Holding R g' held k) {o : Boxed E} (ho : o.held R ⊆ held)
    (hk : 64 ≤ k) :
    ∃ g'', g'.exportPrivateHex R E o.start =
        some (ofAscii o.identity.exportPrivateHex, g'') ∧
      g.Holding R g'' held (k - 64) := by
  have hsize : o.identity.exportPrivateHex.length = 64 := by
    rw [CommonwareIdentity.exportPrivateHex, E.hex.length_encode, FixedBytes.size]
  obtain ⟨g'', hget, h''⟩ := h.getText hR o.identity.exportPrivateHex
    (E.hex.encode_ascii _) (by omega)
  rw [hsize] at h''
  refine ⟨g'', ?_, h''⟩
  simp only [Glue.exportPrivateHex, Boxed.identityAt_eq hR h ho, hget, Option.bind_eq_bind,
    Option.bind_some]

theorem Holding.sign (hR : R.Lawful) {g g' : Glue σ} {held : List Held} {k : Nat}
    (h : g.Holding R g' held k) {o : Boxed E} (ho : o.held R ⊆ held) {message : JsString}
    (hlt : 3 * message.length < 2 ^ 32) (hk : 7 * message.length + 128 ≤ k) :
    ∃ g'', g'.sign R E o.start message =
        some (ofAscii (o.identity.sign (encodeUtf8 message)), g'') ∧
      g.Holding R g'' held (k - (7 * message.length + 128)) := by
  have hsize : (o.identity.sign (encodeUtf8 message)).length = 128 := by
    rw [CommonwareIdentity.sign, E.hex.length_encode, FixedBytes.size]
  obtain ⟨ptr₀, g₁, hpass, hlen, h₁⟩ := h.passString hR hlt (by omega)
  have hidentity := Boxed.identityAt_eq hR h₁ (fun x hx => List.mem_cons_of_mem _ (ho hx))
  have hread : g₁.memory.read ptr₀ g₁.wasmVectorLen = encodeUtf8 message := by
    rw [hlen]
    exact h₁.read _ List.mem_cons_self
  obtain ⟨g₂, hwork, h₂⟩ := h₁.work hR
  obtain ⟨ptr, g₃, hplace, h₃⟩ := h₂.place hR (o.identity.sign (encodeUtf8 message))
    (by omega)
  obtain ⟨g₄, hdrop, h₄⟩ := h₃.free hR [_]
  obtain ⟨g₅, htake, h₅⟩ := h₄.takeString hR (E.hex.encode_ascii _)
  refine ⟨g₅, ?_, ?_⟩
  · simp only [Glue.sign, hpass, hidentity, hread, hwork, hplace, Option.bind_eq_bind,
      Option.bind_some]
    rw [hlen, hdrop]
    exact htake
  · rw [hsize, Nat.sub_sub] at h₅
    exact h₅

theorem Holding.wrap (hR : R.Lawful) {g g' : Glue σ} {held : List Held} {k : Nat}
    {identity : CommonwareIdentity E} {text : Nat}
    (h : g.Holding R g' (⟨text, identity.pubKeyHex⟩ :: held) k) (hk : R.boxSize ≤ k) :
    ∃ o g'', g'.wrap R E identity text = some (Boxed.start o, g'') ∧
      o.identity = identity ∧ g.Holding R g'' (o.held R ++ held) (k - R.boxSize) := by
  obtain ⟨ptr, g'', hplace, h''⟩ := h.place hR
    (R.box identity.privateKey ⟨text, identity.pubKeyHex.length⟩)
    (by rw [hR.length_box]; exact hk)
  have hptr := h''.start_lt _ List.mem_cons_self
  refine ⟨⟨ptr, text, identity⟩, g'', ?_, rfl, ?_⟩
  · simp only [Glue.wrap, hplace, Option.bind_eq_bind, Option.bind_some,
      toUint32_toInt32 hptr]
  · rw [hR.length_box] at h''
    exact h''

theorem Holding.createIdentity (hR : R.Lawful) {g g' : Glue σ} {held : List Held} {k : Nat}
    (h : g.Holding R g' held k) (random : PrivateKey) (hk : 64 + R.boxSize ≤ k) :
    ∃ o g'', g'.createIdentity R E random = some (Boxed.start o, g'') ∧
      o.identity = Core.createIdentity E random ∧
      g.Holding R g'' (o.held R ++ held) (k - (64 + R.boxSize)) := by
  have hsize := Boxed.length_pubKeyHex (Core.createIdentity E random)
  obtain ⟨g₁, hwork, h₁⟩ := h.work hR
  obtain ⟨text, g₂, hplace, h₂⟩ := h₁.place hR (Core.createIdentity E random).pubKeyHex
    (by omega)
  obtain ⟨o, g₃, hwrap, ho, h₃⟩ := h₂.wrap hR (by omega)
  refine ⟨o, g₃, ?_, ho, ?_⟩
  · simp only [Glue.createIdentity, hwork, hplace, hwrap, Option.bind_eq_bind,
      Option.bind_some]
  · rw [hsize, Nat.sub_sub] at h₃
    exact h₃

theorem Holding.identityFromPrivateHex_error (hR : R.Lawful) {g g' : Glue σ}
    {held : List Held} {k : Nat} (h : g.Holding R g' held k) {hexStr : JsString}
    (hlt : 3 * hexStr.length < 2 ^ 32) (hk : 7 * hexStr.length ≤ k) {e : JsError}
    (he : Core.identityFromPrivateHex E (encodeUtf8 hexStr) = .error e) :
    ∃ g'', g'.identityFromPrivateHex R E hexStr = some (.error e, g'') ∧
      g.Holding R g'' held (k - 7 * hexStr.length) := by
  obtain ⟨ptr₀, g₁, hpass, hlen, h₁⟩ := h.passString hR hlt hk
  have hread := h₁.read _ List.mem_cons_self
  obtain ⟨g₂, hwork, h₂⟩ := h₁.work hR
  obtain ⟨g₃, hdrop, h₃⟩ := h₂.free hR []
  refine ⟨g₃, ?_, h₃⟩
  simp only at hread hdrop
  simp only [Glue.identityFromPrivateHex, hpass, hlen, hread, he, hwork, hdrop,
    Option.bind_eq_bind, Option.bind_some]

theorem Holding.identityFromPrivateHex_ok (hR : R.Lawful) {g g' : Glue σ}
    {held : List Held} {k : Nat} (h : g.Holding R g' held k) {hexStr : JsString}
    (hlt : 3 * hexStr.length < 2 ^ 32) (hk : 7 * hexStr.length + (64 + R.boxSize) ≤ k)
    {identity : CommonwareIdentity E}
    (hok : Core.identityFromPrivateHex E (encodeUtf8 hexStr) = .ok identity) :
    ∃ o g'', g'.identityFromPrivateHex R E hexStr = some (.ok (Boxed.start o), g'') ∧
      o.identity = identity ∧
      g.Holding R g'' (o.held R ++ held) (k - (7 * hexStr.length + (64 + R.boxSize))) := by
  have hsize := Boxed.length_pubKeyHex identity
  obtain ⟨ptr₀, g₁, hpass, hlen, h₁⟩ := h.passString hR hlt (by omega)
  have hread := h₁.read _ List.mem_cons_self
  obtain ⟨g₂, hwork, h₂⟩ := h₁.work hR
  obtain ⟨text, g₃, hplace, h₃⟩ := h₂.place hR identity.pubKeyHex (by omega)
  obtain ⟨g₄, hdrop, h₄⟩ := h₃.free hR [_]
  obtain ⟨o, g₅, hwrap, ho, h₅⟩ := h₄.wrap hR (by omega)
  refine ⟨o, g₅, ?_, ho, ?_⟩
  · simp only at hread hdrop
    simp only [Glue.identityFromPrivateHex, hpass, hlen, hread, hok, hwork, hplace, hdrop,
      hwrap, Option.bind_eq_bind, Option.bind_some]
  · rw [hsize, Nat.sub_sub, Nat.sub_sub] at h₅
    exact h₅

theorem Holding.verifySignature (hR : R.Lawful) {g g' : Glue σ} {held : List Held}
    {k : Nat} (h : g.Holding R g' held k) {pubKeyHex message signatureHex : JsString}
    (hpub : 3 * pubKeyHex.length < 2 ^ 32) (hmessage : 3 * message.length < 2 ^ 32)
    (hsignature : 3 * signatureHex.length < 2 ^ 32)
    (hk : 7 * (pubKeyHex.length + message.length + signatureHex.length) ≤ k) :
    ∃ g'', g'.verifySignature R E pubKeyHex message signatureHex =
        some (Core.verifySignature E (encodeUtf8 pubKeyHex) (encodeUtf8 message)
          (encodeUtf8 signatureHex), g'') ∧
      g.Holding R g'' held
        (k - 7 * (pubKeyHex.length + message.length + signatureHex.length)) := by
  obtain ⟨ptr₀, g₁, hpass₀, hlen₀, h₁⟩ := h.passString hR hpub (by omega)
  obtain ⟨ptr₁, g₂, hpass₁, hlen₁, h₂⟩ := h₁.passString hR hmessage (by omega)
  obtain ⟨ptr₂, g₃, hpass₂, hlen₂, h₃⟩ := h₂.passString hR hsignature (by omega)
  have hread : ∀ x ∈ [⟨ptr₂, encodeUtf8 signatureHex⟩, ⟨ptr₁, encodeUtf8 message⟩,
      ⟨ptr₀, encodeUtf8 pubKeyHex⟩],
      g₃.memory.read (Held.start x) (Held.bytes x).length = x.bytes := by
    intro x hx
    exact h₃.read x (List.mem_append_left held hx)
  simp only [List.forall_mem_cons] at hread
  obtain ⟨hread₂, hread₁, hread₀, -⟩ := hread
  obtain ⟨g₄, hwork, h₄⟩ := h₃.work hR
  obtain ⟨g₅, hdrop₀, h₅⟩ := h₄.free hR [_, _]
  obtain ⟨g₆, hdrop₁, h₆⟩ := h₅.free hR [_]
  obtain ⟨g₇, hdrop₂, h₇⟩ := h₆.free hR []
  simp only at hdrop₀ hdrop₁ hdrop₂
  refine ⟨g₇, ?_, ?_⟩
  · simp only [Glue.verifySignature, hpass₀, hlen₀, hpass₁, hlen₁, hpass₂, hlen₂, hread₀,
      hread₁, hread₂, hwork, hdrop₀, hdrop₁, hdrop₂, Option.bind_eq_bind, Option.bind_some]
  · have hspent : k - 7 * pubKeyHex.length - 7 * message.length - 7 * signatureHex.length =
        k - 7 * (pubKeyHex.length + message.length + signatureHex.length) := by omega
    rw [← hspent]
    exact h₇

theorem Holding.weaken (hR : R.Lawful) {g g' : Glue σ} {held : List Held} {k n : Nat}
    (h : g.Holding R g' held k) (hn : n ≤ k) : g.Holding R g' held n :=
  { h with room := hR.room_mono h.room hn }

theorem Holding.freeIdentity (hR : R.Lawful) {g g' : Glue σ} {k : Nat}
    (before : List Held) {o : Boxed E} {after : List Held}
    (h : g.Holding R g' (before ++ (o.held R ++ after)) k) :
    ∃ g'', g'.freeIdentity R o.start = some g'' ∧
      g.Holding R g'' (before ++ after) k := by
  have hunbox := Boxed.unbox_eq hR h (o := o) (by
    intro x hx
    exact List.mem_append_right _ (List.mem_append_left _ hx))
  rw [Boxed.held, List.cons_append, List.singleton_append, List.append_cons] at h
  obtain ⟨g₁, hdrop₁, h₁⟩ := h.free hR
  rw [List.append_assoc, List.singleton_append] at h₁
  obtain ⟨g₂, hdrop₂, h₂⟩ := h₁.free hR
  refine ⟨g₂, ?_, h₂⟩
  simp only [hR.length_box] at hdrop₂
  simp only [Glue.freeIdentity, hunbox, Boxed.textBlock, hdrop₁, hdrop₂,
    Option.bind_eq_bind, Option.bind_some]

end Glue

end CommonChat.Frontend
