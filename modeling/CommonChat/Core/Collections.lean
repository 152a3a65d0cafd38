import CommonChat.Core.Codec
import Mathlib.Data.List.Sort
import Mathlib.Order.Compare

/-!
# Ordered collections on the wire

Maps and sets are written as a length and the entries in ascending order of their
keys, and they are only read in that order (`codec/src/types`).  A `BTreeMap` is
kept in order; a `HashMap` is iterated in any order and sorted when it is written,
so that the two have one wire format.
-/

namespace CommonChat.Core

open CommonChat.Foundation
open Codec

variable {K V KCfg VCfg : Type} [LinearOrder K]

/-! ## Reading in order -/

def checkAscends (type duplicate descent : String) (last : Option K) (key : K) :
    Reader UInt8 Fault Unit :=
  match last with
  | none => pure ()
  | some lastKey =>
      match compare key lastKey with
      | .eq => throw (.error (.invalid type duplicate))
      | .lt => throw (.error (.invalid type descent))
      | .gt => pure ()

theorem checkAscends_of_lt {type duplicate descent : String} {last : Option K} {key : K}
    (h : ∀ lastKey ∈ last, lastKey < key) :
    checkAscends type duplicate descent last key = pure () := by
  cases last with
  | none => rfl
  | some lastKey =>
      have hgt : compare key lastKey = .gt := compare_gt_iff_gt.mpr (h lastKey rfl)
      simp only [checkAscends, hgt]

theorem checkAscends_of_not_lt (type duplicate descent : String) {last : Option K}
    {key : K} (h : ¬ ∀ lastKey ∈ last, lastKey < key) :
    ∃ fault, checkAscends type duplicate descent last key = throw fault := by
  cases last with
  | none => exact absurd nofun h
  | some lastKey =>
      have hle : key ≤ lastKey := by simpa using h
      rcases hle.lt_or_eq with hlt | rfl
      · exact ⟨.error (.invalid type descent), by
          simp only [checkAscends, compare_lt_iff_lt.mpr hlt]⟩
      · exact ⟨.error (.invalid type duplicate), by
          simp only [checkAscends, compare_eq_iff_eq.mpr rfl]⟩

section Loop

variable {M α : Type}

def insertLast (insert : M → α → M) (m : M) (last : Option α) : M :=
  match last with
  | some a => insert m a
  | none => m

/-- The loop of `read_ordered_map` and `read_ordered_set`: the last item is held back. -/
def readOrdered (item : Option α → Reader UInt8 Fault α) (insert : M → α → M) :
    Nat → Option α → M → Reader UInt8 Fault M
  | 0, last, m => pure (insertLast insert m last)
  | n + 1, last, m => do
      let a ← item last
      readOrdered item insert n (some a) (insertLast insert m last)

theorem readOrdered_eq (item : Option α → Reader UInt8 Fault α) (insert : M → α → M)
    (n : Nat) (last : Option α) (m : M) :
    readOrdered item insert n last m = (do
      let items ← readMany item n last
      pure (items.foldl insert (insertLast insert m last))) := by
  induction n generalizing last m with
  | zero => simp [readOrdered, readMany]
  | succ n ih => simp [readOrdered, readMany, ih, insertLast]

end Loop

/-! ## Ascending lists -/

section Ascending

variable {α : Type} {key : α → K}

def Above (key : α → K) (last : Option α) (a : α) : Prop := ∀ u ∈ last, key u < key a

def Ascending (key : α → K) (items : List α) : Prop :=
  items.Pairwise fun a b => key a < key b

theorem linked_above_some_iff (u : α) (items : List α) :
    Linked (Above key) (some u) items ↔ Ascending key (u :: items) := by
  unfold Ascending
  induction items generalizing u with
  | nil => simp [Linked]
  | cons a items ih =>
      rw [Linked, ih, List.pairwise_cons (l := a :: items)]
      constructor
      · rintro ⟨habove, hrest⟩
        have hua : key u < key a := habove u rfl
        refine ⟨?_, hrest⟩
        intro b hb
        rcases List.mem_cons.mp hb with rfl | hb
        · exact hua
        · exact hua.trans ((List.pairwise_cons.mp hrest).1 b hb)
      · rintro ⟨hall, hrest⟩
        refine ⟨?_, hrest⟩
        intro u' hu'
        cases hu'
        exact hall a List.mem_cons_self

theorem linked_above_iff (items : List α) :
    Linked (Above key) none items ↔ Ascending key items := by
  cases items with
  | nil => simp [Linked, Ascending]
  | cons a items =>
      rw [Linked, linked_above_some_iff]
      exact and_iff_right nofun

theorem Ascending.eq_of_perm {items items' : List α} (h : Ascending key items)
    (h' : Ascending key items') (hperm : items.Perm items') : items = items' :=
  List.Perm.eq_of_pairwise (fun _ _ _ _ hab hba => absurd hba hab.asymm) h h' hperm

theorem foldl_insert_eq {M : Type} (items : M → List α) {insert : M → α → M}
    (hinsert : ∀ m a, (∀ b ∈ items m, key b < key a) → items (insert m a) = items m ++ [a])
    (m : M) (new : List α) (h : Ascending key (items m ++ new)) :
    items (new.foldl insert m) = items m ++ new := by
  induction new generalizing m with
  | nil => simp
  | cons a new ih =>
      have hlast : items (insert m a) = items m ++ [a] := by
        refine hinsert m a ?_
        intro b hb
        exact (List.pairwise_append.mp h).2.2 b hb a List.mem_cons_self
      have hnext : items m ++ a :: new = items (insert m a) ++ new := by
        rw [hlast, List.append_assoc]
        rfl
      rw [List.foldl_cons, hnext, ih]
      rwa [← hnext]

end Ascending

/-! ## The wire format -/

section Wire

variable {α M : Type} {key : α → K} {w : α → Except Fault Bytes} {P : α → Prop}

structure Allowed (key : α → K) (range : RangeCfg) (P : α → Prop) (items : List α) :
    Prop where
  fits : items.length < 2 ^ 32
  contains : range.contains items.length = true
  valid : ∀ a ∈ items, P a
  ascending : Ascending key items

def readCollection (range : RangeCfg) (item : Option α → Reader UInt8 Fault α)
    (insert : M → α → M) (empty : M) : Reader UInt8 Fault M := do
  let len ← readUsize range
  readOrdered item insert len none empty

theorem lawful_readCollection {item : Option α → Reader UInt8 Fault α}
    (hitem : ∀ last, Lawful (.error .endOfBuffer) w (item last)
      (fun a => P a ∧ Above key last a)) (range : RangeCfg) {insert : M → α → M}
    {empty : M} {writeAll : M → Except Fault Bytes}
    (hwrite : ∀ items, Ascending key items →
      writeAll (items.foldl insert empty) = writeItems w items) :
    Lawful (.error .endOfBuffer) writeAll (readCollection range item insert empty)
      (fun m => ∃ items, Allowed key range P items ∧ m = items.foldl insert empty) := by
  have hread : readCollection range item insert empty = (do
      let items ← (do
        let len ← readUsize range
        readMany item len none)
      pure (items.foldl insert empty)) := by
    simp only [readCollection, readOrdered_eq, insertLast, bind_assoc]
  have hitems : Lawful (.error .endOfBuffer) (writeItems w)
      (do let len ← readUsize range; readMany item len none)
      (Allowed key range P) := by
    refine ((lawful_readUsize range).bind
      (fun len _ => lawful_readMany hitem len none) ?_).congr (fun _ _ => rfl) ?_
    · rintro len items - ⟨rfl, -⟩
      rfl
    · intro items
      constructor
      · rintro ⟨hfits, hcontains, hvalid, hascending⟩
        exact ⟨items.length, ⟨hfits, hcontains⟩, rfl, hvalid,
          (linked_above_iff items).mpr hascending⟩
      · rintro ⟨len, ⟨hfits, hcontains⟩, rfl, hvalid, hlinked⟩
        exact ⟨hfits, hcontains, hvalid, (linked_above_iff items).mp hlinked⟩
  rw [hread]
  exact hitems.map fun items hallowed => hwrite items hallowed.ascending

end Wire

/-! ## Items -/

section Entries

variable [Codec K KCfg] [Codec V VCfg]

def readEntry (type : String) (cfg : KCfg × VCfg) (last : Option (K × V)) :
    Reader UInt8 Fault (K × V) := do
  let key ← readCfg cfg.1
  checkAscends type "Duplicate key" "Keys must ascend" (last.map Prod.fst) key
  let value ← readCfg cfg.2
  pure (key, value)

def readItem (type : String) (cfg : KCfg) (last : Option K) : Reader UInt8 Fault K := do
  let item ← readCfg cfg
  checkAscends type "Duplicate item" "Items must ascend" last item
  pure item

theorem lawful_readEntry [LawfulCodec K] [LawfulCodec V] (type : String)
    (cfg : KCfg × VCfg) (last : Option (K × V)) :
    Lawful (.error .endOfBuffer) writePair (readEntry type cfg last)
      (fun e : K × V => LawfulCodec.Valid cfg e ∧ Above Prod.fst last e) := by
  have hkey := LawfulCodec.lawful (α := K) cfg.1
  have hvalue := LawfulCodec.lawful (α := V) cfg.2
  refine (hkey.bind (Q := fun key e => e.1 = key ∧ LawfulCodec.Valid cfg.2 e.2 ∧
    Above Prod.fst last e) (w := fun _ e => write e.2) ?_ ?_).congr (fun _ _ => rfl) ?_
  · intro key _
    by_cases habove : ∀ lastKey ∈ last.map Prod.fst, lastKey < key
    · rw [checkAscends_of_lt habove, pure_bind]
      refine (hvalue.map (w := fun e : K × V => write e.2) fun value _ => rfl).congr
        (fun _ _ => rfl) ?_
      rintro ⟨key', value⟩
      constructor
      · rintro ⟨rfl, hvalid, -⟩
        exact ⟨value, hvalid, rfl⟩
      · rintro ⟨value', hvalid, heq⟩
        cases heq
        exact ⟨rfl, hvalid, fun u hu => habove u.1 (Option.mem_map_of_mem Prod.fst hu)⟩
    · obtain ⟨fault, hfault⟩ := checkAscends_of_not_lt type "Duplicate key"
        "Keys must ascend" habove
      rw [hfault]
      refine (Lawful.throw fault _).congr (fun _ _ => rfl) ?_
      rintro ⟨key', value⟩
      refine iff_of_false ?_ id
      rintro ⟨rfl, -, hnot⟩
      refine habove fun lastKey hmem => ?_
      obtain ⟨u, hu, rfl⟩ := Option.mem_map.mp hmem
      exact hnot u hu
  · rintro key e - ⟨rfl, -⟩
    rfl
  · rintro ⟨key, value⟩
    constructor
    · rintro ⟨⟨hkey, hvalue⟩, habove⟩
      exact ⟨key, hkey, rfl, hvalue, habove⟩
    · rintro ⟨key', hkey, rfl, hvalue, habove⟩
      exact ⟨⟨hkey, hvalue⟩, habove⟩

theorem lawful_readItem [LawfulCodec K] (type : String) (cfg : KCfg) (last : Option K) :
    Lawful (.error .endOfBuffer) write (readItem type cfg last)
      (fun item : K => LawfulCodec.Valid cfg item ∧ Above id last item) := by
  have hitem := LawfulCodec.lawful (α := K) cfg
  refine (hitem.bind (Q := fun item v => v = item ∧ Above id last v)
    (w := fun _ _ => .ok []) ?_ ?_).congr (fun _ _ => rfl) ?_
  · intro item _
    by_cases habove : ∀ lastKey ∈ last, lastKey < item
    · rw [checkAscends_of_lt habove, pure_bind]
      refine (Lawful.pure item).congr (fun _ _ => rfl) ?_
      intro v
      refine and_iff_left_of_imp ?_
      rintro rfl
      exact habove
    · obtain ⟨fault, hfault⟩ := checkAscends_of_not_lt type "Duplicate item"
        "Items must ascend" habove
      rw [hfault]
      refine (Lawful.throw fault _).congr (fun _ _ => rfl) ?_
      intro v
      refine iff_of_false ?_ id
      rintro ⟨rfl, hnot⟩
      exact habove hnot
  · rintro item v - ⟨rfl, -⟩
    exact (append_nothing (write v)).symm
  · intro v
    constructor
    · rintro ⟨hvalid, habove⟩
      exact ⟨v, hvalid, rfl, habove⟩
    · rintro ⟨item, hvalid, rfl, habove⟩
      exact ⟨hvalid, habove⟩

end Entries

/-! ## Trees -/

section Trees

variable {α : Type}

@[ext]
structure Tree (key : α → K) where
  items : List α
  ascending : Ascending key items

def insertItem (key : α → K) (a : α) : List α → List α
  | [] => [a]
  | b :: items =>
      match compare (key a) (key b) with
      | .lt => a :: b :: items
      | .eq => a :: items
      | .gt => b :: insertItem key a items

theorem mem_of_mem_insertItem {key : α → K} {a x : α} {items : List α}
    (h : x ∈ insertItem key a items) : x = a ∨ x ∈ items := by
  induction items with
  | nil => exact .inl (List.mem_singleton.mp h)
  | cons b items ih =>
      unfold insertItem at h
      split at h
      · rcases List.mem_cons.mp h with rfl | h
        · exact .inl rfl
        · exact .inr h
      · rcases List.mem_cons.mp h with rfl | h
        · exact .inl rfl
        · exact .inr (List.mem_cons_of_mem b h)
      · rcases List.mem_cons.mp h with rfl | h
        · exact .inr List.mem_cons_self
        · exact (ih h).imp_right (List.mem_cons_of_mem b)

theorem ascending_insertItem {key : α → K} (a : α) {items : List α}
    (h : Ascending key items) : Ascending key (insertItem key a items) := by
  unfold Ascending at h ⊢
  induction items with
  | nil => exact List.pairwise_singleton _ a
  | cons b items ih =>
      obtain ⟨hb, hrest⟩ := List.pairwise_cons.mp h
      unfold insertItem
      split
      · rename_i hlt
        rw [compare_lt_iff_lt] at hlt
        refine List.pairwise_cons.mpr ⟨?_, h⟩
        intro x hx
        rcases List.mem_cons.mp hx with rfl | hx
        · exact hlt
        · exact hlt.trans (hb x hx)
      · rename_i heq
        rw [compare_eq_iff_eq] at heq
        refine List.pairwise_cons.mpr ⟨?_, hrest⟩
        intro x hx
        rw [heq]
        exact hb x hx
      · rename_i hgt
        rw [compare_gt_iff_gt] at hgt
        refine List.pairwise_cons.mpr ⟨?_, ih hrest⟩
        intro x hx
        rcases mem_of_mem_insertItem hx with rfl | hx
        · exact hgt
        · exact hb x hx

theorem insertItem_of_forall_lt {key : α → K} {a : α} {items : List α}
    (h : ∀ b ∈ items, key b < key a) : insertItem key a items = items ++ [a] := by
  induction items with
  | nil => rfl
  | cons b items ih =>
      obtain ⟨hb, hrest⟩ := List.forall_mem_cons.mp h
      have hgt : compare (key a) (key b) = .gt := compare_gt_iff_gt.mpr hb
      simp only [insertItem, hgt, ih hrest, List.cons_append]

namespace Tree

variable {key : α → K}

def empty (key : α → K) : Tree key := ⟨[], List.Pairwise.nil⟩

def insert (t : Tree key) (a : α) : Tree key :=
  ⟨insertItem key a t.items, ascending_insertItem a t.ascending⟩

theorem foldl_insert_empty {items : List α} (h : Ascending key items) :
    items.foldl insert (empty key) = ⟨items, h⟩ := by
  refine Tree.ext ?_
  refine (foldl_insert_eq Tree.items ?_ (empty key) items h).trans rfl
  intro t a hlt
  exact insertItem_of_forall_lt hlt

theorem lawful {w : α → Except Fault Bytes} {P : α → Prop}
    {item : Option α → Reader UInt8 Fault α}
    (hitem : ∀ last, Lawful (.error .endOfBuffer) w (item last)
      (fun a => P a ∧ Above key last a)) (range : RangeCfg) :
    Lawful (.error .endOfBuffer) (fun t : Tree key => writeItems w t.items)
      (readCollection range item insert (empty key))
      (fun t => Allowed key range P t.items) := by
  refine (lawful_readCollection hitem range ?_).congr (fun _ _ => rfl) ?_
  · intro items h
    rw [foldl_insert_empty h]
  · intro t
    constructor
    · intro hallowed
      exact ⟨t.items, hallowed, (foldl_insert_empty t.ascending).symm⟩
    · rintro ⟨items, hallowed, rfl⟩
      rw [foldl_insert_empty hallowed.ascending]
      exact hallowed

end Tree

end Trees

def BTreeMap (K V : Type) [LinearOrder K] : Type := Tree (Prod.fst : K × V → K)

def BTreeSet (K : Type) [LinearOrder K] : Type := Tree (id : K → K)

/-! ## Hash tables -/

section Tables

variable {α : Type} {key : α → K}

@[ext]
structure Table (key : α → K) where
  items : List α
  distinct : (items.map key).Nodup

def sortItems (key : α → K) (items : List α) : List α :=
  items.mergeSort fun a b => decide (key a ≤ key b)

theorem perm_sortItems (key : α → K) (items : List α) : (sortItems key items).Perm items :=
  List.mergeSort_perm _ _

theorem ascending_sortItems {items : List α} (h : (items.map key).Nodup) :
    Ascending key (sortItems key items) := by
  have hle : (sortItems key items).Pairwise fun a b => key a ≤ key b := by
    refine (List.pairwise_mergeSort ?_ ?_ items).imp ?_
    · intro a b c hab hbc
      simp only [decide_eq_true_eq] at hab hbc ⊢
      exact hab.trans hbc
    · intro a b
      simpa using le_total (key a) (key b)
    · intro a b hab
      simpa using hab
  have hnodup : (sortItems key items).Pairwise fun a b => key a ≠ key b :=
    List.pairwise_map.mp (((perm_sortItems key items).map key).nodup_iff.mpr h)
  exact (hle.and hnodup).imp fun hab => lt_of_le_of_ne hab.1 hab.2

theorem Ascending.nodup_keys {items : List α} (h : Ascending key items) :
    (items.map key).Nodup :=
  List.pairwise_map.mpr (h.imp fun hlt => hlt.ne)

theorem Ascending.sortItems_eq {items : List α} (h : Ascending key items) :
    sortItems key items = items :=
  (ascending_sortItems h.nodup_keys).eq_of_perm h (perm_sortItems key items)

namespace Table

def empty (key : α → K) : Table key := ⟨[], List.nodup_nil⟩

def insertNew (key : α → K) (a : α) (items : List α) : List α :=
  if key a ∈ items.map key then items.map fun b => if key b = key a then a else b
  else items ++ [a]

theorem nodup_insertNew (a : α) {items : List α} (h : (items.map key).Nodup) :
    ((insertNew key a items).map key).Nodup := by
  unfold insertNew
  split
  · have hsame : (items.map fun b => if key b = key a then a else b).map key =
        items.map key := by
      rw [List.map_map]
      refine List.map_congr_left ?_
      intro b _
      simp only [Function.comp_apply]
      split
      · rename_i heq
        exact heq.symm
      · rfl
    rw [hsame]
    exact h
  · rename_i hnew
    rw [List.map_append, List.map_singleton, ← List.concat_eq_append]
    exact h.concat hnew

def insert (t : Table key) (a : α) : Table key :=
  ⟨insertNew key a t.items, nodup_insertNew a t.distinct⟩

theorem foldl_insert_empty {items : List α} (h : Ascending key items) :
    items.foldl insert (empty key) = ⟨items, h.nodup_keys⟩ := by
  refine Table.ext ?_
  refine (foldl_insert_eq Table.items ?_ (empty key) items h).trans rfl
  intro t a hlt
  refine if_neg ?_
  intro hmem
  obtain ⟨b, hb, heq⟩ := List.mem_map.mp hmem
  exact (hlt b hb).ne heq

theorem lawful {w : α → Except Fault Bytes} {P : α → Prop}
    {item : Option α → Reader UInt8 Fault α}
    (hitem : ∀ last, Lawful (.error .endOfBuffer) w (item last)
      (fun a => P a ∧ Above key last a)) (range : RangeCfg) :
    Lawful (.error .endOfBuffer) (fun t : Table key => writeItems w (sortItems key t.items))
      (readCollection range item insert (empty key))
      (fun t => Allowed key range P t.items) := by
  refine (lawful_readCollection hitem range ?_).congr (fun _ _ => rfl) ?_
  · intro items h
    rw [foldl_insert_empty h, h.sortItems_eq]
  · intro t
    constructor
    · intro hallowed
      exact ⟨t.items, hallowed, (foldl_insert_empty hallowed.ascending).symm⟩
    · rintro ⟨items, hallowed, rfl⟩
      rw [foldl_insert_empty hallowed.ascending]
      exact hallowed

end Table

theorem sizeMany_perm {size : α → Except Fault Nat}
    (hsize : ∀ a fault, size a = .error fault → fault = .panic) {items items' : List α}
    (h : items.Perm items') : sizeMany size items = sizeMany size items' := by
  induction h with
  | nil => rfl
  | cons a h ih => rw [sizeMany, sizeMany, ih]
  | swap a b items =>
      simp only [sizeMany]
      cases hb : size b with
      | error fault =>
          obtain rfl := hsize b fault hb
          cases ha : size a with
          | error fault =>
              obtain rfl := hsize a fault ha
              rfl
          | ok m => rfl
      | ok n =>
          cases ha : size a with
          | error fault => rfl
          | ok m =>
              cases sizeMany size items with
              | error fault => rfl
              | ok rest => exact congrArg Except.ok (Nat.add_left_comm n m rest)
  | trans h₁ h₂ ih₁ ih₂ => exact ih₁.trans ih₂

theorem sizeItems_perm {size : α → Except Fault Nat}
    (hsize : ∀ a fault, size a = .error fault → fault = .panic) {items items' : List α}
    (h : items.Perm items') : sizeItems size items = sizeItems size items' := by
  rw [sizeItems, sizeItems, h.length_eq, sizeMany_perm hsize h]

end Tables

def HashMap (K V : Type) [LinearOrder K] : Type := Table (Prod.fst : K × V → K)

def HashSet (K : Type) [LinearOrder K] : Type := Table (id : K → K)

/-! ## Implementations -/

section Instances

variable [Codec K KCfg] [Codec V VCfg]

instance codecHashMap : Codec (HashMap K V) (RangeCfg × KCfg × VCfg) where
  write m := writeItems writePair (sortItems Prod.fst m.items)
  encodeSize m := sizeItems encodeSize m.items
  readCfg cfg := readCollection cfg.1 (readEntry "HashMap" cfg.2) Table.insert
    (Table.empty Prod.fst)

instance codecHashSet : Codec (HashSet K) (RangeCfg × KCfg) where
  write m := writeItems write (sortItems id m.items)
  encodeSize m := sizeItems encodeSize m.items
  readCfg cfg := readCollection cfg.1 (readItem "HashSet" cfg.2) Table.insert
    (Table.empty id)

instance codecBTreeMap : Codec (BTreeMap K V) (RangeCfg × KCfg × VCfg) where
  write m := writeItems writePair m.items
  encodeSize m := sizeItems encodeSize m.items
  readCfg cfg := readCollection cfg.1 (readEntry "BTreeMap" cfg.2) Tree.insert
    (Tree.empty Prod.fst)

instance codecBTreeSet : Codec (BTreeSet K) (RangeCfg × KCfg) where
  write m := writeItems write m.items
  encodeSize m := sizeItems encodeSize m.items
  readCfg cfg := readCollection cfg.1 (readItem "BTreeSet" cfg.2) Tree.insert
    (Tree.empty id)

instance lawfulBTreeMap [LawfulCodec K] [LawfulCodec V] : LawfulCodec (BTreeMap K V) where
  Valid cfg m := Allowed Prod.fst cfg.1 (LawfulCodec.Valid cfg.2) m.items
  lawful cfg := Tree.lawful (lawful_readEntry "BTreeMap" cfg.2) cfg.1
  encodeSize_eq m := sizeItems_eq LawfulCodec.encodeSize_eq m.items
  eq_panic _ _ := fault_of_writeItems fun e => LawfulCodec.eq_panic e

instance lawfulBTreeSet [LawfulCodec K] : LawfulCodec (BTreeSet K) where
  Valid cfg m := Allowed id cfg.1 (LawfulCodec.Valid cfg.2) m.items
  lawful cfg := Tree.lawful (lawful_readItem "BTreeSet" cfg.2) cfg.1
  encodeSize_eq m := sizeItems_eq LawfulCodec.encodeSize_eq m.items
  eq_panic _ _ := fault_of_writeItems LawfulCodec.eq_panic

theorem encodeSize_eq_panic {α Cfg : Type} [Codec α Cfg] [LawfulCodec α] (a : α)
    (fault : Fault) (h : encodeSize a = .error fault) : fault = .panic := by
  rw [LawfulCodec.encodeSize_eq] at h
  cases hwrite : write a with
  | error fault' =>
      rw [hwrite] at h
      cases h
      exact LawfulCodec.eq_panic a _ hwrite
  | ok out =>
      rw [hwrite] at h
      cases h

instance lawfulHashMap [LawfulCodec K] [LawfulCodec V] : LawfulCodec (HashMap K V) where
  Valid cfg m := Allowed Prod.fst cfg.1 (LawfulCodec.Valid cfg.2) m.items
  lawful cfg := Table.lawful (lawful_readEntry "HashMap" cfg.2) cfg.1
  encodeSize_eq m := (sizeItems_perm encodeSize_eq_panic
    (perm_sortItems Prod.fst m.items).symm).trans (sizeItems_eq LawfulCodec.encodeSize_eq _)
  eq_panic _ _ := fault_of_writeItems fun e => LawfulCodec.eq_panic e

instance lawfulHashSet [LawfulCodec K] : LawfulCodec (HashSet K) where
  Valid cfg m := Allowed id cfg.1 (LawfulCodec.Valid cfg.2) m.items
  lawful cfg := Table.lawful (lawful_readItem "HashSet" cfg.2) cfg.1
  encodeSize_eq m := (sizeItems_perm encodeSize_eq_panic
    (perm_sortItems id m.items).symm).trans (sizeItems_eq LawfulCodec.encodeSize_eq _)
  eq_panic _ _ := fault_of_writeItems LawfulCodec.eq_panic

end Instances

/-! ## What decodes -/

section Results

variable [Codec K KCfg] [Codec V VCfg] [LawfulCodec K] [LawfulCodec V]

theorem encode_hashMap_eq {m : HashMap K V} {b : BTreeMap K V}
    (h : m.items.Perm b.items) : encode m = encode b := by
  have hsorted : sortItems Prod.fst m.items = b.items :=
    (ascending_sortItems m.distinct).eq_of_perm b.ascending
      ((perm_sortItems Prod.fst m.items).trans h)
  rw [encode_eq, encode_eq]
  exact congrArg (writeItems writePair) hsorted

/--
A map decodes from exactly one byte string, the encoding of its entries in
ascending order, under the limits of the configuration; whatever is missing or
left over is reported.
-/
theorem decode_btreeMap (cfg : RangeCfg × KCfg × VCfg) (m : BTreeMap K V) :
    (∀ bytes, decodeCfg (BTreeMap K V) bytes cfg = .ok m ↔
      (cfg.1.contains m.items.length = true ∧
        ∀ e ∈ m.items, LawfulCodec.Valid cfg.2.1 e.1 ∧ LawfulCodec.Valid cfg.2.2 e.2) ∧
      encode m = .ok bytes) ∧
    ∀ bytes, decodeCfg (BTreeMap K V) bytes cfg = .ok m →
      (∀ front tail, tail ≠ [] → bytes = front ++ tail →
        decodeCfg (BTreeMap K V) front cfg = .error (.error .endOfBuffer)) ∧
      ∀ rest, rest ≠ [] → decodeCfg (BTreeMap K V) (bytes ++ rest) cfg =
        .error (.error (.extraData rest.length)) := by
  have hiff := fun bytes => decodeCfg_eq_ok_iff (α := BTreeMap K V) bytes cfg m
  refine ⟨?_, ?_⟩
  · intro bytes
    rw [hiff]
    constructor
    · rintro ⟨hvalid, hencode⟩
      exact ⟨⟨hvalid.contains, hvalid.valid⟩, hencode⟩
    · rintro ⟨⟨hcontains, hvalid⟩, hencode⟩
      refine ⟨⟨?_, hcontains, hvalid, m.ascending⟩, hencode⟩
      by_contra hlong
      rw [encode_eq] at hencode
      obtain ⟨x, -, hx, -, -⟩ := append_of_ok hencode
      rw [writeUsize, if_neg hlong] at hx
      cases hx
  · intro bytes hdecode
    obtain ⟨hvalid, hencode⟩ := (hiff bytes).mp hdecode
    refine ⟨?_, fun rest hrest => decodeCfg_of_append hvalid hrest hencode⟩
    rintro front tail htail rfl
    exact decodeCfg_of_truncated hvalid htail hencode

/-- A hash map is written as the ordered map of its entries, and read like it. -/
theorem hashMap_format (cfg : RangeCfg × KCfg × VCfg) (m : HashMap K V)
    (b : BTreeMap K V) (bytes : Bytes) :
    (m.items.Perm b.items → encode m = encode b) ∧
    (decodeCfg (BTreeMap K V) bytes cfg = .ok b →
      ∃ m' : HashMap K V, decodeCfg (HashMap K V) bytes cfg = .ok m' ∧
        m'.items.Perm b.items) ∧
    (decodeCfg (HashMap K V) bytes cfg = .ok m →
      ∃ b' : BTreeMap K V, decodeCfg (BTreeMap K V) bytes cfg = .ok b' ∧
        b'.items.Perm m.items) := by
  refine ⟨encode_hashMap_eq, ?_, ?_⟩
  · intro h
    obtain ⟨hvalid, hencode⟩ := (decodeCfg_eq_ok_iff bytes cfg b).mp h
    let m' : HashMap K V := ⟨b.items, b.ascending.nodup_keys⟩
    refine ⟨m', (decodeCfg_eq_ok_iff bytes cfg m').mpr ⟨hvalid, ?_⟩, List.Perm.refl _⟩
    rw [encode_hashMap_eq (List.Perm.refl _), hencode]
  · intro h
    obtain ⟨hvalid, hencode⟩ := (decodeCfg_eq_ok_iff bytes cfg m).mp h
    let b' : BTreeMap K V := ⟨m.items, hvalid.ascending⟩
    refine ⟨b', (decodeCfg_eq_ok_iff bytes cfg b').mpr ⟨hvalid, ?_⟩, List.Perm.refl _⟩
    rw [← encode_hashMap_eq (m := m) (List.Perm.refl _), hencode]

omit [Codec V VCfg] [LawfulCodec V] [Codec K KCfg] [LawfulCodec K] in
theorem checkAscends_of_le {type duplicate descent : String} {lastKey key : K}
    (h : key ≤ lastKey) :
    checkAscends type duplicate descent (some lastKey) key =
      throw (.error (.invalid type (if key = lastKey then duplicate else descent))) := by
  by_cases heq : key = lastKey
  · rw [if_pos heq]
    simp only [checkAscends, compare_eq_iff_eq.mpr heq]
  · rw [if_neg heq]
    simp only [checkAscends, compare_lt_iff_lt.mpr (lt_of_le_of_ne h heq)]

omit [LawfulCodec V] in
theorem readEntry_of_le (type : String) {cfg : KCfg × VCfg} {u : K × V} {key : K}
    {written : Bytes} (hkey : LawfulCodec.Valid cfg.1 key) (hwrite : write key = .ok written)
    (hnot : key ≤ u.1) (rest : Bytes) :
    (readEntry type cfg (some u) : Reader UInt8 Fault (K × V)).run (written ++ rest) =
      .error (.error (.invalid type
        (if key = u.1 then "Duplicate key" else "Keys must ascend"))) := by
  rw [readEntry, Reader.bind_of_ok ((LawfulCodec.lawful cfg.1).read_append hkey hwrite rest),
    Option.map_some, checkAscends_of_le hnot]
  rfl

/--
A key that does not ascend is named as soon as it is read, whatever bytes follow it.
-/
theorem decode_btreeMap_disorder {cfg : RangeCfg × KCfg × VCfg} {count : Nat}
    {front : List (K × V)} {u : K × V} {key : K} {header entries written : Bytes}
    (hrange : cfg.1.contains count = true) (hheader : writeUsize count = .ok header)
    (hcount : (front ++ [u]).length < count)
    (hvalid : ∀ x ∈ front ++ [u], LawfulCodec.Valid cfg.2 x)
    (hascends : Ascending Prod.fst (front ++ [u]))
    (hentries : writeMany writePair (front ++ [u]) = .ok entries)
    (hkey : LawfulCodec.Valid cfg.2.1 key) (hwrite : write key = .ok written)
    (hnot : key ≤ u.1) (rest : Bytes) :
    decodeCfg (BTreeMap K V) (header ++ (entries ++ (written ++ rest))) cfg =
      .error (.error (.invalid "BTreeMap"
        (if key = u.1 then "Duplicate key" else "Keys must ascend"))) := by
  obtain ⟨n, rfl⟩ : ∃ n, count = (front ++ [u]).length + (n + 1) :=
    ⟨count - (front ++ [u]).length - 1, by omega⟩
  have hfits : (front ++ [u]).length + (n + 1) < 2 ^ 32 := by
    by_contra hlong
    rw [writeUsize, if_neg hlong] at hheader
    cases hheader
  have hlen := (lawful_readUsize cfg.1).read_append ⟨hfits, hrange⟩ hheader
  have hitem := readEntry_of_le "BTreeMap" (u := u) hkey hwrite hnot rest
  have hmany := readMany_of_error (lawful_readEntry "BTreeMap" cfg.2) n hvalid
    ((linked_above_iff _).mpr hascends) hentries (by simpa using hitem)
  have hread : (readCfg cfg : Reader UInt8 Fault (BTreeMap K V)).run
      (header ++ (entries ++ (written ++ rest))) = .error (.error (.invalid "BTreeMap"
        (if key = u.1 then "Duplicate key" else "Keys must ascend"))) := by
    change (readCollection cfg.1 (readEntry "BTreeMap" cfg.2) Tree.insert
      (Tree.empty Prod.fst)).run _ = _
    rw [readCollection, Reader.bind_of_ok (hlen _), readOrdered_eq]
    exact Reader.bind_of_error hmany
  rw [decodeCfg, hread]
  rfl

theorem decode_btreeMap_disorder_descending :
    let range : RangeCfg := ⟨.unbounded, .unbounded⟩
    ∀ bytes ∈ ([[2, 7, 1, 3], [2, 7, 1, 3, 9], [3, 7, 1, 3, 0]] : List Bytes),
      decodeCfg (BTreeMap (Num 1) Bool) bytes (range, (), ()) =
        .error (.error (.invalid "BTreeMap" "Keys must ascend")) := by
  intro range
  have hall : ∀ (count : Nat) (header rest : Bytes), writeUsize count = .ok header →
      1 < count → decodeCfg (BTreeMap (Num 1) Bool) (header ++ ([7, 1] ++ ([3] ++ rest)))
        (range, (), ()) = .error (.error (.invalid "BTreeMap" "Keys must ascend")) := by
    intro count header rest hheader hcount
    exact @decode_btreeMap_disorder (Num 1) Bool Unit Unit _ _ _ _ _ (range, (), ()) count []
      (7, true) 3 header [7, 1] [3] rfl hheader hcount (by simp [LawfulCodec.Valid])
      (List.pairwise_singleton _ _) rfl trivial rfl (by decide) rest
  intro bytes hbytes
  simp only [List.mem_cons, List.not_mem_nil, or_false] at hbytes
  rcases hbytes with rfl | rfl | rfl
  · exact hall 2 [2] [] rfl (by decide)
  · exact hall 2 [2] [9] rfl (by decide)
  · exact hall 3 [3] [0] rfl (by decide)

end Results

end CommonChat.Core
