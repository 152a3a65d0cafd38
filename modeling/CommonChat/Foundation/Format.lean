import Mathlib.Data.List.Basic

/-!
# Formats

A format is a fallible writer and a reader that takes a value from the front of
the input.  A lawful one accepts exactly what the writer produces, so that no
value has two encodings and none is the beginning of another; on the proper
beginnings of an encoding it reports the end of the input.  The rules build
lawful formats from lawful parts along the binds of their readers.
-/

namespace CommonChat.Foundation

abbrev Reader (σ ε α : Type) := StateT (List σ) (Except ε) α

variable {σ ε α γ : Type}

theorem Reader.bind_eq_ok_iff {first : Reader σ ε α} {second : α → Reader σ ε γ}
    {input rest : List σ} {v : γ} :
    (first >>= second).run input = .ok (v, rest) ↔
      ∃ a mid, first.run input = .ok (a, mid) ∧ (second a).run mid = .ok (v, rest) := by
  rw [StateT.run_bind]
  cases hfirst : first.run input with
  | error e => simp [bind, Except.bind]
  | ok found =>
      obtain ⟨a, mid⟩ := found
      simp [bind, Except.bind]

theorem Reader.bind_of_ok {first : Reader σ ε α} {second : α → Reader σ ε γ}
    {input mid : List σ} {a : α} (h : first.run input = .ok (a, mid)) :
    (first >>= second).run input = (second a).run mid := by
  rw [StateT.run_bind, h]
  rfl

theorem Reader.bind_of_error {first : Reader σ ε α} {second : α → Reader σ ε γ}
    {input : List σ} {e : ε} (h : first.run input = .error e) :
    (first >>= second).run input = .error e := by
  rw [StateT.run_bind, h]
  rfl

theorem append_of_ok {a b : Except ε (List σ)} {out : List σ}
    (h : (do let x ← a; let y ← b; pure (x ++ y)) = .ok out) :
    ∃ x y, a = .ok x ∧ b = .ok y ∧ out = x ++ y := by
  cases a with
  | error e => cases h
  | ok x =>
      cases b with
      | error e => cases h
      | ok y =>
          cases h
          exact ⟨x, y, rfl, rfl, rfl⟩

theorem fault_of_append {a b : Except ε (List σ)} {e : ε}
    (h : (do let x ← a; let y ← b; pure (x ++ y)) = .error e) :
    a = .error e ∨ b = .error e := by
  cases a with
  | error e' =>
      cases h
      exact .inl rfl
  | ok x =>
      cases b with
      | error e' =>
          cases h
          exact .inr rfl
      | ok y => cases h

theorem append_nothing (a : Except ε (List σ)) :
    (do let x ← a; let y ← (.ok [] : Except ε (List σ)); pure (x ++ y)) = a := by
  cases a with
  | error e => rfl
  | ok x => exact congrArg Except.ok (List.append_nil x)

theorem map_length_append (a b : Except ε (List σ)) :
    (do let x ← a; let y ← b; pure (x ++ y)).map List.length =
      (do let m ← a.map List.length; let n ← b.map List.length; pure (m + n)) := by
  cases a with
  | error e => rfl
  | ok x =>
      cases b with
      | error e => rfl
      | ok y => exact congrArg Except.ok List.length_append

/--
The reader accepts what the writer produces of the values with `P`, and nothing
else; `eof` is the error for input that ends too early.
-/
structure Lawful (eof : ε) (write : α → Except ε (List σ)) (read : Reader σ ε α)
    (P : α → Prop) : Prop where
  read_iff : ∀ input v rest, read.run input = .ok (v, rest) ↔
    P v ∧ ∃ out, write v = .ok out ∧ input = out ++ rest
  truncated : ∀ v out input tail, P v → write v = .ok out → out = input ++ tail →
    tail ≠ [] → read.run input = .error eof

namespace Lawful

variable {eof : ε} {write : α → Except ε (List σ)} {read : Reader σ ε α} {P : α → Prop}

theorem read_append (h : Lawful eof write read P) {v : α} (hv : P v) {out : List σ}
    (hout : write v = .ok out) (rest : List σ) :
    read.run (out ++ rest) = .ok (v, rest) :=
  (h.read_iff _ v rest).mpr ⟨hv, out, hout, rfl⟩

theorem congr (h : Lawful eof write read P) {write' : α → Except ε (List σ)}
    {Q : α → Prop} (hwrite : ∀ v, P v → write' v = write v) (hP : ∀ v, Q v ↔ P v) :
    Lawful eof write' read Q where
  read_iff input v rest := by
    rw [h.read_iff, hP]
    refine and_congr_right fun hv => ?_
    rw [hwrite v hv]
  truncated v out input tail hv hout := by
    rw [hP] at hv
    rw [hwrite v hv] at hout
    exact h.truncated v out input tail hv hout

theorem pure (a : α) :
    Lawful eof (fun _ => .ok []) (pure a : Reader σ ε α) (fun v => v = a) where
  read_iff input v rest := by
    constructor
    · intro h
      cases h
      exact ⟨rfl, [], rfl, rfl⟩
    · rintro ⟨rfl, out, hout, rfl⟩
      cases hout
      rfl
  truncated v out input tail _ hout heq htail := by
    cases hout
    exact absurd (List.append_eq_nil_iff.mp heq.symm).2 htail

theorem throw (e : ε) (write : α → Except ε (List σ)) :
    Lawful eof write (throw e : Reader σ ε α) (fun _ => False) where
  read_iff _ _ _ := ⟨nofun, fun h => h.1.elim⟩
  truncated _ _ _ _ hv := hv.elim

theorem bind {second : α → Reader σ ε γ} {w : α → γ → Except ε (List σ)}
    {writeAll : γ → Except ε (List σ)} {Q : α → γ → Prop}
    (h : Lawful eof write read P)
    (h₂ : ∀ a, P a → Lawful eof (w a) (second a) (Q a))
    (hwrite : ∀ a v, P a → Q a v →
      writeAll v = (do let x ← write a; let y ← w a v; Pure.pure (x ++ y))) :
    Lawful eof writeAll (read >>= second) (fun v => ∃ a, P a ∧ Q a v) where
  read_iff input v rest := by
    rw [Reader.bind_eq_ok_iff]
    constructor
    · rintro ⟨a, mid, hfirst, hsecond⟩
      obtain ⟨ha, x, hx, rfl⟩ := (h.read_iff _ _ _).mp hfirst
      obtain ⟨hv, y, hy, rfl⟩ := ((h₂ a ha).read_iff _ _ _).mp hsecond
      refine ⟨⟨a, ha, hv⟩, x ++ y, ?_, (List.append_assoc x y rest).symm⟩
      rw [hwrite a v ha hv, hx, hy]
      rfl
    · rintro ⟨⟨a, ha, hv⟩, out, hout, rfl⟩
      rw [hwrite a v ha hv] at hout
      obtain ⟨x, y, hx, hy, rfl⟩ := append_of_ok hout
      refine ⟨a, y ++ rest, ?_, (h₂ a ha).read_append hv hy rest⟩
      rw [List.append_assoc]
      exact h.read_append ha hx _
  truncated v out input tail hv hout heq htail := by
    obtain ⟨a, ha, hv⟩ := hv
    rw [hwrite a v ha hv] at hout
    obtain ⟨x, y, hx, hy, rfl⟩ := append_of_ok hout
    rcases List.append_eq_append_iff.mp heq with ⟨mid, rfl, rfl⟩ | ⟨mid, rfl, rfl⟩
    · rw [Reader.bind_of_ok (h.read_append ha hx mid)]
      exact (h₂ a ha).truncated v _ mid tail hv hy rfl htail
    · cases mid with
      | nil =>
          rw [List.append_nil] at hx
          have hfirst := h.read_append ha hx []
          rw [List.append_nil] at hfirst
          rw [Reader.bind_of_ok hfirst]
          exact (h₂ a ha).truncated v _ [] y hv hy rfl htail
      | cons s mid =>
          exact Reader.bind_of_error (h.truncated a _ input _ ha hx rfl (by simp))

theorem check (h : Lawful eof write read P) {ok : α → Bool} {fault : α → ε} :
    Lawful eof write (do
      let a ← read
      if ok a then Pure.pure a else MonadExcept.throw (fault a))
      (fun v => P v ∧ ok v = true) := by
  refine (h.bind (Q := fun a v => v = a ∧ ok a = true)
    (w := fun _ _ => .ok []) ?_ ?_).congr (fun _ _ => rfl) ?_
  · intro a _
    cases ok a with
    | true => exact (Lawful.pure a).congr (fun _ _ => rfl) (fun v => and_iff_left rfl)
    | false => exact (Lawful.throw _ _).congr (fun _ _ => rfl) (by simp)
  · rintro a v - ⟨rfl, -⟩
    exact (append_nothing (write v)).symm
  · intro v
    constructor
    · rintro ⟨hv, hok⟩
      exact ⟨v, hv, rfl, hok⟩
    · rintro ⟨a, ha, rfl, hok⟩
      exact ⟨ha, hok⟩

theorem map (h : Lawful eof write read P) {f : α → γ} {w : γ → Except ε (List σ)}
    (hw : ∀ a, P a → w (f a) = write a) :
    Lawful eof w (do let a ← read; Pure.pure (f a)) (fun v => ∃ a, P a ∧ v = f a) := by
  refine h.bind (w := fun _ _ => .ok []) (fun a _ => Lawful.pure (f a)) ?_
  rintro a v ha rfl
  rw [hw a ha]
  exact (append_nothing (write a)).symm

end Lawful

/-! ## Repetition -/

/-- Reads a number of items, each of which may depend on the one before. -/
def readMany (item : Option α → Reader σ ε α) : Nat → Option α → Reader σ ε (List α)
  | 0, _ => pure []
  | n + 1, last => do
      let a ← item last
      let items ← readMany item n (some a)
      pure (a :: items)

def writeMany (write : α → Except ε (List σ)) : List α → Except ε (List σ)
  | [] => .ok []
  | a :: items => do
      let x ← write a
      let y ← writeMany write items
      pure (x ++ y)

theorem fault_of_writeMany {write : α → Except ε (List σ)} {items : List α} {e : ε}
    (h : writeMany write items = .error e) : ∃ a ∈ items, write a = .error e := by
  induction items with
  | nil => cases h
  | cons a items ih =>
      rcases fault_of_append h with ha | hrest
      · exact ⟨a, List.mem_cons_self, ha⟩
      · obtain ⟨b, hb, hfault⟩ := ih hrest
        exact ⟨b, List.mem_cons_of_mem a hb, hfault⟩

def sizeMany (size : α → Except ε Nat) : List α → Except ε Nat
  | [] => .ok 0
  | a :: items => do
      let m ← size a
      let n ← sizeMany size items
      pure (m + n)

theorem sizeMany_eq {size : α → Except ε Nat} {write : α → Except ε (List σ)}
    (h : ∀ a, size a = (write a).map List.length) (items : List α) :
    sizeMany size items = (writeMany write items).map List.length := by
  induction items with
  | nil => rfl
  | cons a items ih => rw [sizeMany, writeMany, map_length_append, ← h, ih]

def Linked (R : Option α → α → Prop) : Option α → List α → Prop
  | _, [] => True
  | last, a :: items => R last a ∧ Linked R (some a) items

theorem linked_true (last : Option α) (items : List α) :
    Linked (fun _ _ => True) last items := by
  induction items generalizing last with
  | nil => trivial
  | cons a items ih => exact ⟨trivial, ih (some a)⟩

theorem lawful_readMany {eof : ε} {write : α → Except ε (List σ)} {P : α → Prop}
    {R : Option α → α → Prop} {item : Option α → Reader σ ε α}
    (h : ∀ last, Lawful eof write (item last) (fun a => P a ∧ R last a)) (n : Nat)
    (last : Option α) :
    Lawful eof (writeMany write) (readMany item n last)
      (fun items => items.length = n ∧ (∀ a ∈ items, P a) ∧ Linked R last items) := by
  induction n generalizing last with
  | zero =>
      refine (Lawful.pure []).congr ?_ ?_
      · rintro v rfl
        rfl
      · intro items
        constructor
        · rintro ⟨hnil, -⟩
          exact List.length_eq_zero_iff.mp hnil
        · rintro rfl
          exact ⟨rfl, by simp, trivial⟩
  | succ n ih =>
      have hrest : ∀ a, P a ∧ R last a → Lawful eof
          (fun items => writeMany write items.tail)
          (do let items ← readMany item n (some a); pure (a :: items))
          (fun items => ∃ rest, (rest.length = n ∧ (∀ a ∈ rest, P a) ∧
            Linked R (some a) rest) ∧ items = a :: rest) := by
        intro a _
        exact (ih (some a)).map fun rest _ => rfl
      refine ((h last).bind hrest ?_).congr (fun _ _ => rfl) ?_
      · rintro a items - ⟨rest, -, rfl⟩
        rfl
      · intro items
        constructor
        · rintro ⟨hlen, hall, hlinked⟩
          cases items with
          | nil => cases hlen
          | cons a rest =>
              simp only [List.length_cons, Nat.add_right_cancel_iff] at hlen
              rw [List.forall_mem_cons] at hall
              exact ⟨a, ⟨hall.1, hlinked.1⟩, rest, ⟨hlen, hall.2, hlinked.2⟩, rfl⟩
        · rintro ⟨a, ⟨hP, hR⟩, rest, ⟨hlen, hall, hlinked⟩, rfl⟩
          exact ⟨by rw [List.length_cons, hlen], List.forall_mem_cons.mpr ⟨hP, hall⟩,
            hR, hlinked⟩

theorem readMany_of_error {eof : ε} {write : α → Except ε (List σ)} {P : α → Prop}
    {R : Option α → α → Prop} {item : Option α → Reader σ ε α}
    (h : ∀ last, Lawful eof write (item last) (fun a => P a ∧ R last a))
    {front : List α} {last : Option α} {out input : List σ} {e : ε} (n : Nat)
    (hvalid : ∀ a ∈ front, P a) (hlinked : Linked R last front)
    (hout : writeMany write front = .ok out)
    (herror : (item (front.getLast?.or last)).run input = .error e) :
    (readMany item (front.length + (n + 1)) last).run (out ++ input) = .error e := by
  induction front generalizing last out with
  | nil =>
      cases hout
      rw [List.length_nil, Nat.zero_add]
      exact Reader.bind_of_error herror
  | cons a front ih =>
      obtain ⟨x, y, hx, hy, rfl⟩ := append_of_ok hout
      obtain ⟨ha, hfront⟩ := List.forall_mem_cons.mp hvalid
      have hrest : (readMany item (front.length + (n + 1)) (some a)).run (y ++ input) =
          .error e := by
        refine ih hfront hlinked.2 hy ?_
        cases hlast : front.getLast? <;> simpa [hlast, List.getLast?_cons] using herror
      rw [List.length_cons, Nat.add_right_comm, List.append_assoc, readMany,
        Reader.bind_of_ok ((h last).read_append ⟨ha, hlinked.1⟩ hx (y ++ input))]
      exact Reader.bind_of_error hrest

end CommonChat.Foundation
