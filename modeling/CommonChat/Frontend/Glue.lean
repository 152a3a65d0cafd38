import CommonChat.Foundation.LinearMemory
import CommonChat.Frontend.Tab

/-!
# Strings on their way into the core and back

`frontend/src/commonware-lib/commonchat_core.js`, the generated code between the
page and the core.  A string is placed in the memory of the core: ASCII is copied
unit by unit into a block of the length of the string; from the first other unit on
the rest goes through the text encoder, in a block that is made large enough first
and cut afterwards.  The core drops its arguments, and the page drops the strings it
gets back.  The allocator belongs to the core and is a parameter, as are the layout
of its records and what it does for itself, with the promises of `Runtime.Lawful`.
-/

namespace CommonChat.Frontend

open CommonChat.Foundation
open CommonChat.Core

/-- The core with its allocator, and the encoder; older ones lack `encodeInto`. -/
structure Runtime (σ : Type) extends Allocator σ where
  hasEncodeInto : Bool
  boxSize : Nat
  box : PrivateKey → Block → Bytes
  unbox : Bytes → Option (PrivateKey × Block)
  /-- What the core takes and gives back for itself in a call. -/
  work : σ → Memory → Option (σ × Memory)

/--
What the code relies on.  The room counts what calls ask for, besides what the core
needs for itself.
-/
structure Runtime.Lawful {σ : Type} (R : Runtime σ) : Prop extends
    R.toAllocator.Lawful where
  boxSize_pos : 0 < R.boxSize
  length_box : ∀ key block, (R.box key block).length = R.boxSize
  unbox_box : ∀ key block, block.start < 2 ^ 32 → block.length < 2 ^ 32 →
    R.unbox (R.box key block) = some (key, block)
  work : ∀ {s m k}, R.room s m k → ∃ s' m', R.work s m = some (s', m') ∧
    R.room s' m' k ∧ (∀ b, R.owned s' b ↔ R.owned s b) ∧ m.Keeps m' (R.owned s)

structure Glue (σ : Type) where
  allocator : σ
  memory : Memory
  cachedUint8ArrayMemory0 : Option View
  wasmVectorLen : Nat
  numBytesDecoded : Nat

def toArgument (n : Nat) : Nat := n % 2 ^ 32

def toInt32 (n : Nat) : Int := (BitVec.ofNat 32 n).toInt

def toUint32 (i : Int) : Nat := (i % 2 ^ 32).toNat

namespace Glue

variable {σ : Type} (R : Runtime σ)

def getUint8ArrayMemory0 (g : Glue σ) : View × Glue σ :=
  let renew := (View.whole g.memory,
    { g with cachedUint8ArrayMemory0 := some (View.whole g.memory) })
  match g.cachedUint8ArrayMemory0 with
  | none => renew
  | some view => if view.byteLength g.memory = 0 then renew else (view, g)

def malloc (g : Glue σ) (length : Nat) : Option (Nat × Glue σ) := do
  let (ptr, allocator, memory) ← R.malloc g.allocator g.memory (toArgument length)
  some (toUint32 (toInt32 ptr), { g with allocator := allocator, memory := memory })

def realloc (g : Glue σ) (ptr oldLength length : Nat) : Option (Nat × Glue σ) := do
  let (ptr', allocator, memory) ← R.realloc g.allocator g.memory (toArgument ptr)
    (toArgument oldLength) (toArgument length)
  some (toUint32 (toInt32 ptr'), { g with allocator := allocator, memory := memory })

def copyAscii (mem : View) (ptr : Nat) : Memory → Nat → JsString → Memory × Nat × JsString
  | m, offset, [] => (m, offset, [])
  | m, offset, code :: rest =>
      if code > 0x7F then (m, offset, code :: rest)
      else copyAscii mem ptr (mem.set m (ptr + offset) code.toUInt8) (offset + 1) rest

/-- `view.set(buf)`, which throws when there is no room. -/
def setBytes (g : Glue σ) (view : View) (buf : Bytes) : Option (Glue σ) :=
  if buf.length ≤ view.byteLength g.memory then
    some { g with memory := g.memory.write view.start buf }
  else none

def encodeIntoView (g : Glue σ) (arg : JsString) (view : View) :
    Option (Nat × Glue σ) :=
  if R.hasEncodeInto then
    let written := encodeInto arg (view.byteLength g.memory)
    some (written.length, { g with memory := g.memory.write view.start written })
  else
    (g.setBytes view (encodeUtf8 arg)).map fun g => ((encodeUtf8 arg).length, g)

def passEncoded (g : Glue σ) (arg : JsString) : Option (Nat × Glue σ) := do
  let buf := encodeUtf8 arg
  let (ptr, g) ← g.malloc R buf.length
  let (mem, g) := g.getUint8ArrayMemory0
  let g ← g.setBytes (mem.subarray g.memory ptr (ptr + buf.length)) buf
  some (ptr, { g with wasmVectorLen := buf.length })

/-- What follows when the string is not ASCII from `offset` on. -/
def passRest (g : Glue σ) (ptr len offset : Nat) (arg : JsString) :
    Option (Nat × Glue σ) := do
  let len' := offset + arg.length * 3
  let (ptr, g) ← g.realloc R ptr len len'
  let (mem, g) := g.getUint8ArrayMemory0
  let (written, g) ← g.encodeIntoView R arg (mem.subarray g.memory (ptr + offset) (ptr + len'))
  let (ptr, g) ← g.realloc R ptr len' (offset + written)
  some (ptr, { g with wasmVectorLen := offset + written })

def passStringToWasm0 (g : Glue σ) (arg : JsString) (withRealloc : Bool) :
    Option (Nat × Glue σ) := do
  if withRealloc then
    let (ptr, g) ← g.malloc R arg.length
    let (mem, g) := g.getUint8ArrayMemory0
    let (memory, offset, rest) := copyAscii mem ptr g.memory 0 arg
    let g := { g with memory := memory }
    if offset ≠ arg.length then g.passRest R ptr arg.length offset rest
    else some (ptr, { g with wasmVectorLen := offset })
  else g.passEncoded R arg

def maxSafariDecodeBytes : Nat := 2146435072

/-- `decodeText`, after `ptr >>> 0`; a new decoder is made after enough bytes. -/
def getStringFromWasm0 (g : Glue σ) (ptr : Int) (len : Nat) : Option (JsString × Glue σ) := do
  let ptr := toUint32 ptr
  let total := g.numBytesDecoded + len
  let g := { g with numBytesDecoded := if total ≥ maxSafariDecodeBytes then len else total }
  let (mem, g) := g.getUint8ArrayMemory0
  let view := mem.subarray g.memory ptr (ptr + len)
  let text ← decodeUtf8 (g.memory.read view.start view.length)
  some (text, g)

/-- `__wbindgen_free`, which ignores empty blocks; the core drops strings with it too. -/
def free (g : Glue σ) (ptr len : Nat) : Option (Glue σ) :=
  if len = 0 then some g
  else do
    let (allocator, memory) ← R.free g.allocator g.memory ptr len
    some { g with allocator := allocator, memory := memory }

def place (g : Glue σ) (bytes : Bytes) : Option (Nat × Glue σ) := do
  let (ptr, allocator, memory) ← R.malloc g.allocator g.memory bytes.length
  some (ptr, { g with allocator := allocator, memory := memory.write ptr bytes })

def work (g : Glue σ) : Option (Glue σ) := do
  let (allocator, memory) ← R.work g.allocator g.memory
  some { g with allocator := allocator, memory := memory }

/-! ## The cached view -/

/-- A cached view that is not detached is a view of the whole memory. -/
def Coherent (g : Glue σ) : Prop :=
  ∀ view, g.cachedUint8ArrayMemory0 = some view →
    view.buffer ≤ g.memory.buffer ∧
      (view.buffer = g.memory.buffer → view = View.whole g.memory)

theorem getUint8ArrayMemory0_eq {g : Glue σ} (h : g.Coherent) :
    ∃ cached, g.getUint8ArrayMemory0 =
        (View.whole g.memory, { g with cachedUint8ArrayMemory0 := cached }) ∧
      ({ g with cachedUint8ArrayMemory0 := cached } : Glue σ).Coherent := by
  have hwhole : Coherent
      { g with cachedUint8ArrayMemory0 := some (View.whole g.memory) } := by
    intro view hview
    cases hview
    exact ⟨Nat.le_refl _, fun _ => rfl⟩
  unfold getUint8ArrayMemory0
  split
  · exact ⟨_, rfl, hwhole⟩
  · rename_i view hview
    split
    · exact ⟨_, rfl, hwhole⟩
    · rename_i hlength
      have hattached : view.buffer = g.memory.buffer := by
        by_contra hne
        exact hlength (by rw [View.byteLength, if_neg hne])
      refine ⟨g.cachedUint8ArrayMemory0, ?_, h⟩
      rw [(h view hview).2 hattached]

/-! ## A string in a block -/

/--
Since the state `g` a block was handed out that begins with the bytes; everything
that was handed out before is as it was, and there is room for `room` more bytes.
-/
structure Placed (g g' : Glue σ) (block : Block) (bytes : Bytes) (room : Nat) : Prop where
  start_lt : block.start < 2 ^ 32
  fits : block.start + block.length ≤ g'.memory.size
  size_le : g.memory.size ≤ g'.memory.size
  length_le : bytes.length ≤ block.length
  content : ∀ i < bytes.length, g'.memory.byte (block.start + i) = bytes.getD i 0
  owned_iff : ∀ b, R.owned g'.allocator b ↔
    (b = block ∧ 0 < block.length) ∨ R.owned g.allocator b
  apart : ∀ b, R.owned g.allocator b → b.Apart block
  same : ∀ b, R.owned g.allocator b → ∀ a, b.Contains a →
    g'.memory.byte a = g.memory.byte a
  coherent : g'.Coherent
  room : R.room g'.allocator g'.memory room

variable {R}

theorem toUint32_toInt32 {n : Nat} (h : n < 2 ^ 32) : toUint32 (toInt32 n) = n := by
  unfold toUint32 toInt32
  rw [BitVec.toInt_eq_toNat_bmod, BitVec.toNat_ofNat, Nat.mod_eq_of_lt h]
  have hmod : (n : Int).bmod (2 ^ 32) % ((2 ^ 32 : Nat) : Int) = n % ((2 ^ 32 : Nat) : Int) :=
    Int.bmod_emod
  rw [show (2 : Int) ^ 32 = ((2 ^ 32 : Nat) : Int) from rfl, hmod]
  omega

theorem toArgument_of_lt {n : Nat} (h : n < 2 ^ 32) : toArgument n = n :=
  Nat.mod_eq_of_lt h

theorem Coherent.grow {g : Glue σ} (h : g.Coherent) {allocator : σ} {m : Memory}
    {kept : Block → Prop} (hkeeps : g.memory.Keeps m kept) :
    ({ g with allocator := allocator, memory := m } : Glue σ).Coherent := by
  intro view hview
  obtain ⟨hbuffer, hwhole⟩ := h view hview
  refine ⟨Nat.le_trans hbuffer hkeeps.buffer_le, ?_⟩
  intro hsame
  have hkept : m.buffer = g.memory.buffer := by
    have hle := hkeeps.buffer_le
    change view.buffer = m.buffer at hsame
    omega
  rw [hwhole (by rw [← hkept]; exact hsame)]
  simp only [View.whole, hkept, hkeeps.size_eq hkept]

theorem placed_of_allocated {g : Glue σ} (hg : g.Coherent) {block : Block} {allocator : σ}
    {memory : Memory} {room : Nat}
    (hnew : Allocated R.toAllocator (R.owned g.allocator) g.memory block allocator memory)
    (hroom : R.room allocator memory room) :
    g.Placed R { g with allocator := allocator, memory := memory } block [] room where
  start_lt := hnew.start_lt
  fits := hnew.fits
  size_le := hnew.keeps.size_le
  length_le := Nat.zero_le _
  content := by simp
  owned_iff := hnew.owned_iff
  apart := hnew.apart
  same := hnew.keeps.same
  coherent := hg.grow hnew.keeps
  room := hroom

theorem placed_malloc (hR : R.Lawful) {g : Glue σ} (hg : g.Coherent) {n k : Nat}
    (hn : n < 2 ^ 32) (hroom : R.room g.allocator g.memory k) (hk : n ≤ k) :
    ∃ ptr g', g.malloc R n = some (ptr, g') ∧ g.Placed R g' ⟨ptr, n⟩ [] (k - n) := by
  obtain ⟨ptr, allocator, memory, hmalloc, hroom', hnew⟩ := hR.malloc hroom hk
  refine ⟨ptr, _, ?_, placed_of_allocated hg hnew hroom'⟩
  rw [malloc, toArgument_of_lt hn, hmalloc, Option.bind_eq_bind, Option.bind_some]
  simp only [toUint32_toInt32 hnew.start_lt]

theorem Placed.of_same {g g' g₁ : Glue σ} {block : Block} {bytes : Bytes} {room : Nat}
    (h : g.Placed R g' block bytes room) (hallocator : g₁.allocator = g'.allocator)
    (hmemory : g₁.memory = g'.memory) (hcoherent : g₁.Coherent) :
    g.Placed R g₁ block bytes room where
  start_lt := h.start_lt
  fits := by rw [hmemory]; exact h.fits
  size_le := by rw [hmemory]; exact h.size_le
  length_le := h.length_le
  content := by rw [hmemory]; exact h.content
  owned_iff := by rw [hallocator]; exact h.owned_iff
  apart := h.apart
  same := by rw [hmemory]; exact h.same
  coherent := hcoherent
  room := by rw [hallocator, hmemory]; exact h.room

theorem Placed.realloc (hR : R.Lawful) {g g' : Glue σ} {block : Block} {bytes : Bytes}
    {k n : Nat} (h : g.Placed R g' block bytes k) (hpos : 0 < block.length)
    (hlt : block.length < 2 ^ 32) (hn : 0 < n) (hn' : n < 2 ^ 32)
    (hbytes : bytes.length ≤ n) (hk : n ≤ k) :
    ∃ ptr g'', g'.realloc R block.start block.length n = some (ptr, g'') ∧
      g.Placed R g'' ⟨ptr, n⟩ bytes (k - n) := by
  have howned : R.owned g'.allocator block := (h.owned_iff block).mpr (.inl ⟨rfl, hpos⟩)
  obtain ⟨ptr, allocator, memory, hrealloc, hroom, hnew, hmoved⟩ :=
    hR.realloc howned hn h.room hk
  refine ⟨ptr, { g' with allocator := allocator, memory := memory }, ?_, ?_⟩
  · rw [Glue.realloc, toArgument_of_lt h.start_lt, toArgument_of_lt hlt,
      toArgument_of_lt hn', hrealloc, Option.bind_eq_bind, Option.bind_some]
    simp only [toUint32_toInt32 hnew.start_lt]
  have hkept : ∀ b, R.owned g'.allocator b ∧ b ≠ block ↔ R.owned g.allocator b := by
    intro b
    rw [h.owned_iff]
    constructor
    · rintro ⟨⟨rfl, -⟩ | hold, hne⟩
      · exact absurd rfl hne
      · exact hold
    · intro hold
      exact ⟨.inr hold, (h.apart b hold).ne hpos⟩
  exact {
    start_lt := hnew.start_lt
    fits := hnew.fits
    size_le := Nat.le_trans h.size_le hnew.keeps.size_le
    length_le := hbytes
    content := by
      intro i hi
      have hle := h.length_le
      exact (hmoved i (by omega)).trans (h.content i hi)
    owned_iff := fun b => (hnew.owned_iff b).trans (or_congr_right (hkept b))
    apart := fun b hold => hnew.apart b ((hkept b).mpr hold)
    same := fun b hold a ha =>
      (hnew.keeps.same b ((hkept b).mpr hold) a ha).trans (h.same b hold a ha)
    coherent := h.coherent.grow hnew.keeps
    room := hroom }

theorem Placed.write (hR : R.Lawful) {g g' : Glue σ} {block : Block} {bytes more : Bytes}
    {k : Nat} (h : g.Placed R g' block bytes k)
    (hmore : bytes.length + more.length ≤ block.length) :
    g.Placed R { g' with memory := g'.memory.write (block.start + bytes.length) more }
      block (bytes ++ more) k where
  start_lt := h.start_lt
  fits := h.fits
  size_le := h.size_le
  length_le := by simpa using hmore
  content := by
    intro i hi
    rcases Nat.lt_or_ge i bytes.length with hlt | hge
    · rw [Memory.write_byte_of_not _ _ (by omega), h.content i hlt,
        List.getD_append _ _ _ _ hlt]
    · obtain ⟨j, rfl⟩ := Nat.exists_eq_add_of_le hge
      rw [List.length_append] at hi
      rw [← Nat.add_assoc, Memory.write_byte_of_lt _ _ (by omega),
        List.getD_append_right _ _ _ _ hge, Nat.add_sub_cancel_left]
  owned_iff := h.owned_iff
  apart := h.apart
  same := by
    intro b hold a ha
    refine (Memory.write_byte_of_not _ _ ?_).trans (h.same b hold a ha)
    have hout := h.apart b hold a ha
    simp only [Block.Contains, not_and, Nat.not_lt] at hout
    omega
  coherent := h.coherent
  room := hR.room_write h.room

theorem Placed.view {g g' : Glue σ} {block : Block} {bytes : Bytes} {k : Nat}
    (h : g.Placed R g' block bytes k) :
    ∃ g₁ : Glue σ, g'.getUint8ArrayMemory0 = (View.whole g₁.memory, g₁) ∧
      g.Placed R g₁ block bytes k := by
  obtain ⟨cached, heq, hcoherent⟩ := getUint8ArrayMemory0_eq h.coherent
  refine ⟨{ g' with cachedUint8ArrayMemory0 := cached }, heq, ?_⟩
  exact h.of_same rfl rfl hcoherent

theorem Placed.read {g g' : Glue σ} {ptr : Nat} {bytes : Bytes} {k : Nat}
    (h : g.Placed R g' ⟨ptr, bytes.length⟩ bytes k) :
    g'.memory.read ptr bytes.length = bytes :=
  (g'.memory.read_eq_iff ptr bytes).mpr h.content

/-! ## The two ways of passing a string -/

theorem copyAscii_eq {view : View} {m : Memory} (hbuffer : view.buffer = m.buffer)
    (hstart : view.start = 0) (hlength : view.length = m.size) {ptr offset : Nat}
    {arg : JsString} (hfits : ptr + offset + arg.length ≤ m.size) :
    ∃ front rest, arg = front ++ rest ∧ IsAscii front ∧
      copyAscii view ptr m offset arg =
        (m.write (ptr + offset) (front.map UInt16.toUInt8), offset + front.length, rest) := by
  induction arg generalizing m offset with
  | nil => exact ⟨[], [], rfl, by simp [IsAscii], by simp [copyAscii]⟩
  | cons code rest ih =>
      by_cases hcode : code > 0x7F
      · refine ⟨[], code :: rest, rfl, by simp [IsAscii], ?_⟩
        simp [copyAscii, hcode]
      · rw [List.length_cons] at hfits
        have hset : view.set m (ptr + offset) code.toUInt8 =
            m.write (ptr + offset) [code.toUInt8] := by
          rw [View.set, View.byteLength, if_pos hbuffer, hlength, if_pos (by omega), hstart,
            Nat.zero_add]
        have hroom : ptr + (offset + 1) + rest.length ≤ m.size := by omega
        obtain ⟨front, rest', hsplit, hascii, hrun⟩ :=
          ih (m := m.write (ptr + offset) [code.toUInt8]) hbuffer hlength hroom
        refine ⟨code :: front, rest', by rw [hsplit]; rfl, ?_, ?_⟩
        · intro u hu
          rcases List.mem_cons.mp hu with rfl | hu
          · simp only [gt_iff_lt, UInt16.lt_iff_toNat_lt, Nat.not_lt] at hcode
            have hlimit : (0x7F : UInt16).toNat = 127 := rfl
            omega
          · exact hascii u hu
        · rw [copyAscii, if_neg hcode, hset, hrun, ← Nat.add_assoc, Memory.write_cons,
            List.map_cons, List.length_cons, Nat.add_assoc, Nat.add_comm 1]

theorem encodeIntoView_eq {g : Glue σ} {arg : JsString} {view : View}
    (h : 3 * arg.length ≤ view.byteLength g.memory) :
    g.encodeIntoView R arg view = some ((encodeUtf8 arg).length,
      { g with memory := g.memory.write view.start (encodeUtf8 arg) }) := by
  obtain ⟨heq, hle⟩ := encodeInto_eq h
  unfold encodeIntoView setBytes
  split
  · simp only [heq]
  · rw [if_pos (Nat.le_trans hle h)]
    rfl

theorem Placed.weaken (hR : R.Lawful) {g g' : Glue σ} {block : Block} {bytes : Bytes}
    {k n : Nat} (h : g.Placed R g' block bytes k) (hn : n ≤ k) :
    g.Placed R g' block bytes n :=
  { h with room := hR.room_mono h.room hn }

theorem Placed.passRest (hR : R.Lawful) {g g' : Glue σ} {block : Block} {bytes : Bytes}
    {k : Nat} (h : g.Placed R g' block bytes k) {arg : JsString} (hne : arg ≠ [])
    (hlength : block.length = bytes.length + arg.length)
    (hlt : 3 * block.length < 2 ^ 32) (hk : 6 * block.length ≤ k) :
    ∃ ptr g'', g'.passRest R block.start block.length bytes.length arg = some (ptr, g'') ∧
      g''.wasmVectorLen = (bytes ++ encodeUtf8 arg).length ∧
      g.Placed R g'' ⟨ptr, (bytes ++ encodeUtf8 arg).length⟩ (bytes ++ encodeUtf8 arg)
        (k - 6 * block.length) := by
  have hpos : 0 < arg.length := List.length_pos_of_ne_nil hne
  have hencoded : 0 < (encodeUtf8 arg).length :=
    List.length_pos_of_ne_nil (encodeUtf8_ne_nil hne)
  have hle := (encodeInto_eq (Nat.le_refl (3 * arg.length))).2
  obtain ⟨ptr₁, g₁, hgrow, h₁⟩ := h.realloc hR (n := bytes.length + arg.length * 3) (by omega)
    (by omega) (by omega) (by omega) (by omega) (by omega)
  obtain ⟨g₂, hview, h₂⟩ := h₁.view
  have hfits : ptr₁ + (bytes.length + arg.length * 3) ≤ g₂.memory.size := h₂.fits
  have hroom : bytes.length + (encodeUtf8 arg).length ≤ bytes.length + arg.length * 3 := by
    omega
  have h₃ := h₂.write hR hroom
  have hwrite : g₂.encodeIntoView R arg ((View.whole g₂.memory).subarray g₂.memory
      (ptr₁ + bytes.length) (ptr₁ + (bytes.length + arg.length * 3))) =
      some ((encodeUtf8 arg).length,
        { g₂ with memory := g₂.memory.write (ptr₁ + bytes.length) (encodeUtf8 arg) }) := by
    rw [View.subarray_whole (by omega) hfits]
    refine encodeIntoView_eq ?_
    simp only [View.byteLength, if_true]
    omega
  obtain ⟨ptr₄, g₄, hcut, h₄⟩ := h₃.realloc hR
    (n := bytes.length + (encodeUtf8 arg).length) (by simp only; omega) (by simp only; omega)
    (by omega) (by omega) (by rw [List.length_append]) (by omega)
  refine ⟨ptr₄, { g₄ with wasmVectorLen := bytes.length + (encodeUtf8 arg).length },
    ?_, ?_, ?_⟩
  · simp only [Glue.passRest, hgrow, Option.bind_eq_bind, Option.bind_some, hview, hwrite]
    simp only at hcut
    rw [hcut]
    rfl
  · rw [List.length_append]
  · rw [List.length_append]
    refine Placed.of_same (h₄.weaken hR ?_) rfl rfl h₄.coherent
    omega

theorem placed_passEncoded (hR : R.Lawful) {g : Glue σ} (hg : g.Coherent)
    {arg : JsString} (hlt : 3 * arg.length < 2 ^ 32) {k : Nat}
    (hroom : R.room g.allocator g.memory k) (hk : 7 * arg.length ≤ k) :
    ∃ ptr g', g.passEncoded R arg = some (ptr, g') ∧
      g'.wasmVectorLen = (encodeUtf8 arg).length ∧
      g.Placed R g' ⟨ptr, (encodeUtf8 arg).length⟩ (encodeUtf8 arg)
        (k - 7 * arg.length) := by
  have hle := (encodeInto_eq (Nat.le_refl (3 * arg.length))).2
  obtain ⟨ptr, g₁, hmalloc, h₁⟩ := placed_malloc hR hg (n := (encodeUtf8 arg).length)
    (by omega) hroom (by omega)
  obtain ⟨g₂, hview, h₂⟩ := h₁.view
  have hfits : ptr + (encodeUtf8 arg).length ≤ g₂.memory.size := h₂.fits
  have hall : ([] : Bytes).length + (encodeUtf8 arg).length ≤ (encodeUtf8 arg).length := by
    simp
  have h₃ := h₂.write hR hall
  have hset : g₂.setBytes ((View.whole g₂.memory).subarray g₂.memory ptr
      (ptr + (encodeUtf8 arg).length)) (encodeUtf8 arg) =
      some { g₂ with memory := g₂.memory.write ptr (encodeUtf8 arg) } := by
    rw [View.subarray_whole (by omega) hfits, setBytes,
      if_pos (by simp [View.byteLength])]
  refine ⟨ptr, { g₂ with
    memory := g₂.memory.write ptr (encodeUtf8 arg)
    wasmVectorLen := (encodeUtf8 arg).length }, ?_, rfl, ?_⟩
  · simp only [passEncoded, hmalloc, Option.bind_eq_bind, Option.bind_some, hview, hset]
  · refine Placed.of_same (h₃.weaken hR ?_) rfl rfl h₃.coherent
    omega

/--
When a string has been passed, its block holds exactly its encoding.  Both ways of
passing it agree, and nothing that was handed out before has changed.
-/
theorem placed_passStringToWasm0 (hR : R.Lawful) {g : Glue σ} (hg : g.Coherent)
    {arg : JsString} (hlt : 3 * arg.length < 2 ^ 32) {k : Nat}
    (hroom : R.room g.allocator g.memory k) (hk : 7 * arg.length ≤ k)
    (withRealloc : Bool) :
    ∃ ptr g', g.passStringToWasm0 R arg withRealloc = some (ptr, g') ∧
      g'.wasmVectorLen = (encodeUtf8 arg).length ∧
      g.Placed R g' ⟨ptr, (encodeUtf8 arg).length⟩ (encodeUtf8 arg)
        (k - 7 * arg.length) := by
  cases withRealloc with
  | false => exact placed_passEncoded hR hg hlt hroom hk
  | true =>
      obtain ⟨ptr, g₁, hmalloc, h₁⟩ := placed_malloc hR hg (n := arg.length) (by omega)
        hroom (by omega)
      obtain ⟨g₂, hview, h₂⟩ := h₁.view
      have hfits : ptr + 0 + arg.length ≤ g₂.memory.size := h₂.fits
      obtain ⟨front, rest, hsplit, hascii, hcopy⟩ :=
        copyAscii_eq (rfl : (View.whole g₂.memory).buffer = _) rfl rfl hfits
      have hoffset : 0 + front.length = (front.map UInt16.toUInt8).length := by simp
      have hlength : arg.length = (front.map UInt16.toUInt8).length + rest.length := by
        simp [hsplit]
      have hfront : ([] : Bytes).length + (front.map UInt16.toUInt8).length ≤
          arg.length := by simp [hsplit]
      have h₃ := h₂.write hR hfront
      have hencode : encodeUtf8 arg = front.map UInt16.toUInt8 ++ encodeUtf8 rest := by
        rw [hsplit, encodeUtf8_append_ascii hascii]
      simp only [passStringToWasm0, if_true, hmalloc, Option.bind_eq_bind, Option.bind_some,
        hview, hcopy, hoffset]
      by_cases hrest : rest = []
      · have hwhole : encodeUtf8 arg = front.map UInt16.toUInt8 := by
          rw [hencode, hrest]
          exact List.append_nil _
        have hall : arg.length = (front.map UInt16.toUInt8).length := by
          rw [hlength, hrest]
          rfl
        rw [if_neg (by omega), hwhole]
        refine ⟨ptr, _, rfl, rfl, ?_⟩
        rw [hall] at h₃
        refine Placed.of_same (h₃.weaken hR ?_) rfl rfl h₃.coherent
        omega
      · have hmore : (front.map UInt16.toUInt8).length ≠ arg.length := by
          have := List.length_pos_of_ne_nil hrest
          omega
        rw [if_pos hmore, hencode]
        obtain ⟨ptr', g', hpass, hvector, h'⟩ :=
          h₃.passRest hR hrest hlength hlt (by simp only; omega)
        exact ⟨ptr', g', hpass, hvector, h'.weaken hR (by simp only; omega)⟩

end Glue

end CommonChat.Frontend
