import CommonChat.Foundation.Text
import Mathlib.Algebra.Order.Ring.Nat
import Mathlib.Data.List.GetD
import Mathlib.Tactic.Common

/-!
# Linear memory

A growable byte memory with 32-bit addresses, the views that a host has on it and
what its allocator promises.  Growing replaces the buffer of the memory; a view of
the old buffer is detached then, has no elements and takes no writes.
-/

namespace CommonChat.Foundation

/-! ## Bytes at addresses -/

structure Memory where
  size : Nat
  size_le : size ≤ 2 ^ 32
  byte : Nat → UInt8
  buffer : Nat

namespace Memory

def read (m : Memory) (start length : Nat) : Bytes :=
  (List.range length).map fun i => m.byte (start + i)

def write (m : Memory) (start : Nat) (bytes : Bytes) : Memory :=
  { m with byte := fun a =>
      if start ≤ a ∧ a < start + bytes.length then bytes.getD (a - start) 0
      else m.byte a }

variable (m : Memory) (start : Nat)

@[simp] theorem write_size (bytes : Bytes) : (m.write start bytes).size = m.size := rfl

@[simp] theorem write_buffer (bytes : Bytes) :
    (m.write start bytes).buffer = m.buffer := rfl

theorem write_byte_of_lt {bytes : Bytes} {i : Nat} (h : i < bytes.length) :
    (m.write start bytes).byte (start + i) = bytes.getD i 0 := by
  simp [write, h]

theorem write_byte_of_not {bytes : Bytes} {a : Nat}
    (h : a < start ∨ start + bytes.length ≤ a) :
    (m.write start bytes).byte a = m.byte a := by
  simp only [write]
  rw [if_neg (by omega)]

@[simp] theorem write_nil : m.write start [] = m := by
  have hbyte : (m.write start []).byte = m.byte := by
    funext a
    exact m.write_byte_of_not start (by simp; omega)
  cases m
  simp_all [write]

theorem write_cons (b : UInt8) (bytes : Bytes) :
    (m.write start [b]).write (start + 1) bytes = m.write start (b :: bytes) := by
  have hbyte : ((m.write start [b]).write (start + 1) bytes).byte =
      (m.write start (b :: bytes)).byte := by
    funext a
    rcases Nat.lt_or_ge a start with hlt | hge
    · rw [write_byte_of_not _ _ (by omega), write_byte_of_not _ _ (.inl hlt),
        write_byte_of_not _ _ (.inl hlt)]
    · obtain ⟨i, rfl⟩ := Nat.exists_eq_add_of_le hge
      cases i with
      | zero =>
          rw [write_byte_of_not _ _ (by omega), write_byte_of_lt _ _ (by simp),
            write_byte_of_lt _ _ (by simp)]
          rfl
      | succ i =>
          have hsucc : start + (i + 1) = start + 1 + i := by omega
          rcases Nat.lt_or_ge i bytes.length with hlt | hge
          · rw [write_byte_of_lt _ start (by simpa using hlt), hsucc,
              write_byte_of_lt _ _ hlt]
            rfl
          · have hlong : start + (b :: bytes).length ≤ start + (i + 1) := by
              rw [List.length_cons]
              omega
            rw [write_byte_of_not _ _ (by omega), write_byte_of_not _ _ (by simp),
              write_byte_of_not _ _ (.inr hlong)]
  simp only [write] at hbyte ⊢
  rw [hbyte]

theorem read_length (length : Nat) : (m.read start length).length = length := by
  simp [read]

theorem read_eq_iff (bytes : Bytes) :
    m.read start bytes.length = bytes ↔
      ∀ i < bytes.length, m.byte (start + i) = bytes.getD i 0 := by
  constructor
  · intro h i hi
    have hget := congrArg (fun l : Bytes => l.getD i 0) h
    simpa [read, hi] using hget
  · intro h
    apply List.ext_getElem
    · exact m.read_length start _
    · intro i hi hi'
      have hbyte := h i hi'
      simpa [read, hi'] using hbyte

end Memory

/-! ## Views -/

structure View where
  buffer : Nat
  start : Nat
  length : Nat

namespace View

def byteLength (view : View) (m : Memory) : Nat :=
  if view.buffer = m.buffer then view.length else 0

def set (view : View) (m : Memory) (i : Nat) (value : UInt8) : Memory :=
  if i < view.byteLength m then m.write (view.start + i) [value] else m

def subarray (view : View) (m : Memory) (begin finish : Nat) : View :=
  let first := min begin (view.byteLength m)
  let last := min finish (view.byteLength m)
  ⟨view.buffer, view.start + first, last - first⟩

def whole (m : Memory) : View := ⟨m.buffer, 0, m.size⟩

@[simp] theorem byteLength_whole (m : Memory) : (whole m).byteLength m = m.size := by
  simp [byteLength, whole]

theorem subarray_whole {m : Memory} {first last : Nat} (hle : first ≤ last)
    (hlast : last ≤ m.size) :
    (whole m).subarray m first last = ⟨m.buffer, first, last - first⟩ := by
  simp only [subarray, byteLength_whole, Nat.min_eq_left hlast,
    Nat.min_eq_left (Nat.le_trans hle hlast)]
  simp [whole]

end View

/-! ## Allocation -/

structure Block where
  start : Nat
  length : Nat
  deriving DecidableEq

namespace Block

def Contains (b : Block) (a : Nat) : Prop := b.start ≤ a ∧ a < b.start + b.length

def Apart (b c : Block) : Prop := ∀ a, b.Contains a → ¬ c.Contains a

theorem Apart.ne {b c : Block} (h : b.Apart c) (hpos : 0 < c.length) : b ≠ c := by
  rintro rfl
  have hmem : b.Contains b.start := ⟨Nat.le_refl _, by omega⟩
  exact h b.start hmem hmem

end Block

structure Allocator (σ : Type) where
  malloc : σ → Memory → Nat → Option (Nat × σ × Memory)
  realloc : σ → Memory → Nat → Nat → Nat → Option (Nat × σ × Memory)
  free : σ → Memory → Nat → Nat → Option (σ × Memory)
  owned : σ → Block → Prop
  /-- There is room for requests of so many bytes in all. -/
  room : σ → Memory → Nat → Prop

/-- The memory after a call: it may have grown, and the blocks kept are as they were. -/
structure Memory.Keeps (m m' : Memory) (kept : Block → Prop) : Prop where
  buffer_le : m.buffer ≤ m'.buffer
  size_le : m.size ≤ m'.size
  size_eq : m'.buffer = m.buffer → m'.size = m.size
  same : ∀ b, kept b → ∀ a, b.Contains a → m'.byte a = m.byte a

structure Allocated {σ : Type} (A : Allocator σ) (kept : Block → Prop) (m : Memory)
    (block : Block) (s' : σ) (m' : Memory) : Prop where
  start_lt : block.start < 2 ^ 32
  fits : block.start + block.length ≤ m'.size
  owned_iff : ∀ b, A.owned s' b ↔ (b = block ∧ 0 < block.length) ∨ kept b
  apart : ∀ b, kept b → b.Apart block
  keeps : m.Keeps m' kept

/--
What the functions promise; an empty block is never handed out.  A request is served
as long as there is room.
-/
structure Allocator.Lawful {σ : Type} (A : Allocator σ) : Prop where
  owned_pos : ∀ {s b}, A.owned s b → 0 < b.length
  room_mono : ∀ {s m k n}, A.room s m k → n ≤ k → A.room s m n
  room_write : ∀ {s m k start bytes}, A.room s m k → A.room s (m.write start bytes) k
  malloc : ∀ {s m k n}, A.room s m k → n ≤ k → ∃ p s' m',
    A.malloc s m n = some (p, s', m') ∧ A.room s' m' (k - n) ∧
      Allocated A (A.owned s) m ⟨p, n⟩ s' m'
  realloc : ∀ {s m k p old n}, A.owned s ⟨p, old⟩ → 0 < n → A.room s m k → n ≤ k →
    ∃ p' s' m', A.realloc s m p old n = some (p', s', m') ∧ A.room s' m' (k - n) ∧
      Allocated A (fun b => A.owned s b ∧ b ≠ ⟨p, old⟩) m ⟨p', n⟩ s' m' ∧
      ∀ i < min old n, m'.byte (p' + i) = m.byte (p + i)
  free : ∀ {s m k p n}, A.owned s ⟨p, n⟩ → A.room s m k → ∃ s' m',
    A.free s m p n = some (s', m') ∧ A.room s' m' k ∧
      (∀ b, A.owned s' b ↔ A.owned s b ∧ b ≠ ⟨p, n⟩) ∧ m.Keeps m' (A.owned s')

/-! ## An allocator that never reuses a block -/

def Memory.growTo (m : Memory) (size : Nat) : Option Memory :=
  if size ≤ m.size then some m
  else if h : size ≤ 2 ^ 32 then
    some { m with
      size := (size + 65535) / 65536 * 65536
      size_le := by omega
      buffer := m.buffer + 1 }
  else none

theorem Memory.growTo_eq_some {m : Memory} {size : Nat} (h : size ≤ 2 ^ 32)
    (kept : Block → Prop) :
    ∃ m', m.growTo size = some m' ∧ size ≤ m'.size ∧ m'.byte = m.byte ∧ m.Keeps m' kept := by
  unfold growTo
  split
  · rename_i hle
    exact ⟨m, rfl, hle, rfl, Nat.le_refl _, Nat.le_refl _, fun _ => rfl, fun _ _ _ _ => rfl⟩
  · rename_i hlt
    refine ⟨_, rfl, by simp only; omega, rfl, ?_⟩
    exact {
      buffer_le := Nat.le_succ _
      size_le := by simp only; omega
      size_eq := by simp
      same := fun _ _ _ _ => rfl }

structure Bump where
  next : Nat
  blocks : List Block
  below : ∀ b ∈ blocks, 0 < b.length ∧ b.start + b.length ≤ next

namespace Bump

def take (s : Bump) (n : Nat) : Bump where
  next := s.next + n
  blocks := if n = 0 then s.blocks else ⟨s.next, n⟩ :: s.blocks
  below := by
    have hold : ∀ b ∈ s.blocks, 0 < b.length ∧ b.start + b.length ≤ s.next + n :=
      fun b hb => ⟨(s.below b hb).1, Nat.le_add_right_of_le (s.below b hb).2⟩
    split
    · exact hold
    · refine List.forall_mem_cons.mpr ⟨⟨?_, Nat.le_refl _⟩, hold⟩
      simp only
      omega

def drop (s : Bump) (b : Block) : Bump where
  next := s.next
  blocks := s.blocks.filter (· ≠ b)
  below c hc := s.below c (List.mem_of_mem_filter hc)

def allocator : Allocator Bump where
  malloc s m n := (m.growTo (s.next + n)).map fun m => (s.next, s.take n, m)
  realloc s m p old n := (m.growTo (s.next + n)).map fun m' =>
    (s.next, (s.drop ⟨p, old⟩).take n, m'.write s.next (m.read p (min old n)))
  free s m p n := some (s.drop ⟨p, n⟩, m)
  owned s b := b ∈ s.blocks
  room s _ k := s.next + k < 2 ^ 32

theorem mem_take {s : Bump} {n : Nat} {b : Block} :
    b ∈ (s.take n).blocks ↔ (b = ⟨s.next, n⟩ ∧ 0 < n) ∨ b ∈ s.blocks := by
  simp only [take]
  split
  · simp_all
  · rename_i hn
    simp [Nat.pos_of_ne_zero hn]

theorem mem_drop {s : Bump} {b c : Block} :
    c ∈ (s.drop b).blocks ↔ c ∈ s.blocks ∧ c ≠ b := by
  simp [drop]

theorem apart {s : Bump} {b : Block} (hb : b ∈ s.blocks) (n : Nat) :
    b.Apart ⟨s.next, n⟩ := by
  intro a ha hnew
  have hbelow := (s.below b hb).2
  simp only [Block.Contains] at ha hnew
  omega

theorem allocated_take {s : Bump} {m m' : Memory} {n : Nat} (hnext : s.next < 2 ^ 32)
    (hsize : s.next + n ≤ m'.size) (hkeeps : m.Keeps m' (· ∈ s.blocks)) :
    Allocated allocator (· ∈ s.blocks) m ⟨s.next, n⟩ (s.take n) m' where
  start_lt := hnext
  fits := hsize
  owned_iff _ := mem_take
  apart _ hb := apart hb n
  keeps := hkeeps

theorem lawful : allocator.Lawful where
  owned_pos h := (Bump.below _ _ h).1
  room_mono h hle := Nat.lt_of_le_of_lt (Nat.add_le_add_left hle _) h
  room_write h := h
  malloc := by
    intro s m k n hroom hn
    simp only [allocator] at hroom
    obtain ⟨m', hgrow, hsize, -, hkeeps⟩ :=
      m.growTo_eq_some (show s.next + n ≤ 2 ^ 32 by omega) (· ∈ s.blocks)
    refine ⟨s.next, s.take n, m', ?_, ?_, allocated_take (by omega) hsize hkeeps⟩
    · simp only [allocator, hgrow, Option.map_some]
    · simp only [allocator, take]
      omega
  realloc := by
    intro s m k p old n howned hpos hroom hn
    simp only [allocator] at hroom
    obtain ⟨m', hgrow, hsize, hbyte, hkeeps⟩ :=
      m.growTo_eq_some (show s.next + n ≤ 2 ^ 32 by omega)
        (· ∈ (s.drop ⟨p, old⟩).blocks)
    refine ⟨s.next, (s.drop ⟨p, old⟩).take n,
      m'.write s.next (m.read p (min old n)), ?_, ?_, ?_, ?_⟩
    · simp only [allocator, hgrow, Option.map_some]
    · simp only [allocator, take, drop]
      omega
    · have hwritten : m.Keeps (m'.write s.next (m.read p (min old n)))
          (· ∈ (s.drop ⟨p, old⟩).blocks) := {
        hkeeps with
        same := by
          intro b hb a ha
          have hbelow := ((s.drop ⟨p, old⟩).below b hb).2
          simp only [drop, Block.Contains] at hbelow ha
          rw [Memory.write_byte_of_not _ _ (by omega), hbyte] }
      have hfits : s.next + n ≤ (m'.write s.next (m.read p (min old n))).size := hsize
      have hnew := allocated_take (s := s.drop ⟨p, old⟩) (by simp only [drop]; omega) hfits
        hwritten
      simp only [mem_drop] at hnew
      exact hnew
    · intro i hi
      rw [Memory.write_byte_of_lt _ _ (by rw [Memory.read_length]; exact hi)]
      simp [Memory.read, hi]
  free := by
    intro s m k p n howned hroom
    refine ⟨s.drop ⟨p, n⟩, m, rfl, hroom, fun _ => mem_drop, ?_⟩
    exact ⟨Nat.le_refl _, Nat.le_refl _, fun _ => rfl, fun _ _ _ _ => rfl⟩

end Bump

end CommonChat.Foundation
