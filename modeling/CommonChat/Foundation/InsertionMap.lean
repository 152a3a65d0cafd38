import Mathlib.Data.List.Induction
import Mathlib.Data.List.Nodup
import Mathlib.Data.List.Lookmap

/-!
# Insertion-ordered maps and sets

`InsertionMap` and `InsertionSet` follow the ECMAScript `Map` and `Set`:
iteration is in insertion order, writing an existing key keeps its position,
and deleting a key and writing it again moves it to the end.  Both carry the
proof that no key occurs twice.  A map written from a list has the keys of the
list in the order of their first occurrence, each with the value of its last.
-/

namespace CommonChat.Foundation

/-! ## First occurrences -/

section Distinct

variable {κ : Type*} [BEq κ] [LawfulBEq κ]

theorem eraseDups_concat (l : List κ) (k : κ) :
    (l ++ [k]).eraseDups = if k ∈ l then l.eraseDups else l.eraseDups ++ [k] := by
  rw [List.eraseDups_append]
  by_cases hmem : k ∈ l
  · simp [List.removeAll, hmem]
  · simp [List.removeAll, hmem, List.eraseDups_cons]

theorem nodup_eraseDups (l : List κ) : l.eraseDups.Nodup := by
  induction l using List.reverseRecOn with
  | nil => exact List.nodup_nil
  | append_singleton l k ih =>
      rw [eraseDups_concat]
      split
      · exact ih
      · rename_i hnew
        apply List.Nodup.append ih (List.nodup_singleton k)
        rw [List.disjoint_singleton, List.mem_eraseDups]
        exact hnew

theorem filter_eraseDups (l : List κ) (keep : κ → Bool) :
    l.eraseDups.filter keep = (l.filter keep).eraseDups := by
  induction l using List.reverseRecOn with
  | nil => rfl
  | append_singleton l k ih =>
      rw [eraseDups_concat, List.filter_append]
      by_cases hkeep : keep k = true
      · rw [List.filter_cons_of_pos hkeep, List.filter_nil, eraseDups_concat]
        by_cases hmem : k ∈ l
        · simp [hmem, hkeep, ih]
        · simp [hmem, hkeep, ih]
      · rw [List.filter_cons_of_neg hkeep, List.filter_nil, List.append_nil, ← ih]
        split
        · rfl
        · simp [hkeep]

end Distinct

structure InsertionMap (κ ν : Type*) where
  entries : List (κ × ν)
  nodup : (entries.map Prod.fst).Nodup

namespace InsertionMap

variable {κ ν : Type*}

def empty : InsertionMap κ ν := ⟨[], List.nodup_nil⟩

variable [DecidableEq κ]

def get (m : InsertionMap κ ν) (k : κ) : Option ν := m.entries.lookup k

def has (m : InsertionMap κ ν) (k : κ) : Bool := (m.get k).isSome

/-- Replaces the value of a key that is already present, keeping its place. -/
def overwrite (k : κ) (v : ν) (entry : κ × ν) : κ × ν :=
  if entry.1 = k then (k, v) else entry

private theorem map_fst_overwrite (k : κ) (v : ν) (entries : List (κ × ν)) :
    (entries.map (overwrite k v)).map Prod.fst = entries.map Prod.fst := by
  rw [List.map_map]
  apply List.map_congr_left
  intro entry _
  by_cases h : entry.1 = k <;> simp [overwrite, h]

def set (m : InsertionMap κ ν) (k : κ) (v : ν) : InsertionMap κ ν :=
  if h : k ∈ m.entries.map Prod.fst then
    ⟨m.entries.map (overwrite k v), by
      rw [map_fst_overwrite]
      exact m.nodup⟩
  else
    ⟨m.entries ++ [(k, v)], by
      rw [List.map_append]
      exact List.Nodup.append m.nodup (List.nodup_singleton k)
        (List.disjoint_singleton.mpr h)⟩

def delete (m : InsertionMap κ ν) (k : κ) : InsertionMap κ ν :=
  ⟨m.entries.filter fun entry => entry.1 ≠ k,
    m.nodup.sublist (List.filter_sublist.map Prod.fst)⟩

@[simp] theorem get_empty (k : κ) : (empty : InsertionMap κ ν).get k = none := rfl

theorem mem_entries_iff (m : InsertionMap κ ν) (k : κ) (v : ν) :
    (k, v) ∈ m.entries ↔ m.get k = some v := by
  obtain ⟨entries, hnodup⟩ := m
  change (k, v) ∈ entries ↔ entries.lookup k = some v
  induction entries with
  | nil => simp
  | cons entry rest ih =>
      obtain ⟨key, value⟩ := entry
      simp only [List.map_cons, List.nodup_cons] at hnodup
      by_cases hkey : k = key
      · subst hkey
        have hrest : (k, v) ∉ rest := fun hmem =>
          hnodup.1 (List.mem_map.mpr ⟨(k, v), hmem, rfl⟩)
        simp [hrest, eq_comm]
      · simp [List.lookup_cons, hkey, beq_eq_false_iff_ne.mpr hkey,
          ih hnodup.2]

theorem mem_keys_iff (m : InsertionMap κ ν) (k : κ) :
    k ∈ m.entries.map Prod.fst ↔ ∃ v, m.get k = some v := by
  simp only [List.mem_map, Prod.exists, exists_and_right, exists_eq_right,
    mem_entries_iff]

theorem get_eq_none_iff (m : InsertionMap κ ν) (k : κ) :
    m.get k = none ↔ k ∉ m.entries.map Prod.fst := by
  rw [mem_keys_iff]
  cases m.get k <;> simp

private theorem get_eq_of_mem {m : InsertionMap κ ν} {k : κ} {r : Option ν}
    (h : ∀ v, (k, v) ∈ m.entries ↔ r = some v) : m.get k = r := by
  cases r with
  | none =>
      cases hget : m.get k with
      | none => rfl
      | some v => simpa using (h v).mp ((m.mem_entries_iff k v).mpr hget)
  | some v => exact (m.mem_entries_iff k v).mp ((h v).mpr rfl)

@[simp] theorem get_set (m : InsertionMap κ ν) (k k' : κ) (v : ν) :
    (m.set k v).get k' = if k' = k then some v else m.get k' := by
  apply get_eq_of_mem
  intro w
  unfold set
  split
  · rename_i hmem
    obtain ⟨old, hold⟩ := (m.mem_keys_iff k).mp hmem
    simp only [List.mem_map]
    constructor
    · rintro ⟨⟨key, value⟩, hentry, heq⟩
      by_cases hkey : key = k
      · simp only [overwrite, hkey, if_true, Prod.mk.injEq] at heq
        simp [← heq.1, ← heq.2]
      · simp only [overwrite, hkey, if_false, Prod.mk.injEq] at heq
        rw [← heq.1, ← heq.2, if_neg hkey]
        exact (m.mem_entries_iff key value).mp hentry
    · intro heq
      by_cases hkey : k' = k
      · simp only [hkey, if_true, Option.some.injEq] at heq
        exact ⟨(k, old), (m.mem_entries_iff k old).mpr hold, by
          simp [overwrite, hkey, heq]⟩
      · rw [if_neg hkey] at heq
        exact ⟨(k', w), (m.mem_entries_iff k' w).mpr heq, by
          simp [overwrite, hkey]⟩
  · rename_i hmem
    simp only [List.mem_append, List.mem_singleton, Prod.mk.injEq,
      mem_entries_iff]
    by_cases hkey : k' = k
    · have hnone := (m.get_eq_none_iff k).mpr hmem
      simp [hkey, hnone, eq_comm]
    · simp [hkey]

@[simp] theorem get_delete (m : InsertionMap κ ν) (k k' : κ) :
    (m.delete k).get k' = if k' = k then none else m.get k' := by
  apply get_eq_of_mem
  intro w
  by_cases hkey : k' = k <;> simp [delete, hkey, mem_entries_iff]

/-! ## The order of the entries -/

def keys (m : InsertionMap κ ν) : List κ := m.entries.map Prod.fst

def values (m : InsertionMap κ ν) : List ν := m.entries.map Prod.snd

theorem has_iff (m : InsertionMap κ ν) (k : κ) : m.has k = true ↔ k ∈ m.keys := by
  rw [has, Option.isSome_iff_exists, keys, mem_keys_iff]

theorem entries_set_of_mem {m : InsertionMap κ ν} {k : κ} (h : k ∈ m.keys) (v : ν) :
    (m.set k v).entries = m.entries.map (overwrite k v) := by
  have hold : k ∈ m.entries.map Prod.fst := h
  simp only [set, dif_pos hold]

theorem entries_set_of_new {m : InsertionMap κ ν} {k : κ} (h : k ∉ m.keys) (v : ν) :
    (m.set k v).entries = m.entries ++ [(k, v)] := by
  have hnew : k ∉ m.entries.map Prod.fst := h
  simp only [set, dif_neg hnew]

theorem keys_set (m : InsertionMap κ ν) (k : κ) (v : ν) :
    (m.set k v).keys = if k ∈ m.keys then m.keys else m.keys ++ [k] := by
  by_cases hmem : k ∈ m.keys
  · rw [if_pos hmem, keys, entries_set_of_mem hmem]
    exact map_fst_overwrite k v m.entries
  · rw [if_neg hmem, keys, entries_set_of_new hmem, List.map_append]
    rfl

theorem values_eq_filterMap_get (m : InsertionMap κ ν) :
    m.values = m.keys.filterMap m.get := by
  have hget : ∀ entry ∈ m.entries, m.get entry.1 = some entry.2 :=
    fun entry hentry => (m.mem_entries_iff entry.1 entry.2).mp hentry
  rw [values, keys, List.filterMap_map, Function.comp_def, List.filterMap_congr hget,
    ← List.filterMap_eq_map]
  rfl

section Items

variable {β : Type*} (keyOf : β → κ) (valueOf : β → ν)

def ofItems (items : List β) : InsertionMap κ ν :=
  items.foldl (fun m item => m.set (keyOf item) (valueOf item)) empty

theorem ofItems_concat (items : List β) (item : β) :
    ofItems keyOf valueOf (items ++ [item]) =
      (ofItems keyOf valueOf items).set (keyOf item) (valueOf item) := by
  rw [ofItems, List.foldl_append]
  rfl

theorem keys_ofItems [BEq κ] [LawfulBEq κ] (items : List β) :
    (ofItems keyOf valueOf items).keys = (items.map keyOf).eraseDups := by
  induction items using List.reverseRecOn with
  | nil => rfl
  | append_singleton items item ih =>
      rw [ofItems_concat, keys_set, ih, List.map_append, List.map_singleton,
        eraseDups_concat]
      simp only [List.mem_eraseDups]

/-- The last item with a key gives the value of the key. -/
theorem get_ofItems (items : List β) (k : κ) :
    (ofItems keyOf valueOf items).get k =
      ((items.filter fun item => keyOf item = k).getLast?).map valueOf := by
  induction items using List.reverseRecOn with
  | nil => rfl
  | append_singleton items item ih =>
      rw [ofItems_concat, get_set, ih, List.filter_append]
      by_cases hkey : keyOf item = k
      · simp [hkey]
      · simp [hkey, Ne.symm hkey]

def setNew (m : InsertionMap κ ν) (k : κ) (v : ν) : InsertionMap κ ν :=
  if m.has k then m else m.set k v

theorem values_foldl_setNew {items : List β} (hnodup : (items.map keyOf).Nodup)
    (m : InsertionMap κ ν) :
    (items.foldl (fun m item => m.setNew (keyOf item) (valueOf item)) m).values =
      m.values ++ (items.filter fun item => !m.has (keyOf item)).map valueOf := by
  induction items generalizing m with
  | nil => simp
  | cons item rest ih =>
      rw [List.map_cons, List.nodup_cons] at hnodup
      rw [List.foldl_cons, ih hnodup.2, setNew]
      by_cases hknown : m.has (keyOf item) = true
      · simp [hknown]
      · have hnew : keyOf item ∉ m.keys := fun h => hknown ((m.has_iff _).mpr h)
        have hrest : ∀ later ∈ rest,
            (m.set (keyOf item) (valueOf item)).has (keyOf later) =
              m.has (keyOf later) := by
          intro later hlater
          have hne : keyOf later ≠ keyOf item := fun heq =>
            hnodup.1 (heq ▸ List.mem_map_of_mem hlater)
          rw [has, get_set, if_neg hne, has]
        rw [if_neg hknown, values, entries_set_of_new hnew,
          List.filter_cons_of_pos (by simpa using hknown), List.map_cons,
          List.filter_congr fun later hlater => by rw [hrest later hlater]]
        simp [values]

end Items
end InsertionMap

structure InsertionSet (α : Type*) where
  elems : List α
  nodup : elems.Nodup

namespace InsertionSet

variable {α : Type*}

def empty : InsertionSet α := ⟨[], List.nodup_nil⟩

def size (s : InsertionSet α) : Nat := s.elems.length

instance : Membership α (InsertionSet α) := ⟨fun s a => a ∈ s.elems⟩

theorem mem_def {s : InsertionSet α} {a : α} : a ∈ s ↔ a ∈ s.elems := Iff.rfl

@[simp] theorem not_mem_empty (a : α) : a ∉ (empty : InsertionSet α) :=
  List.not_mem_nil

theorem size_eq_zero_iff (s : InsertionSet α) : s.size = 0 ↔ ∀ a, a ∉ s := by
  rw [size, List.length_eq_zero_iff, List.eq_nil_iff_forall_not_mem]
  rfl

variable [DecidableEq α]

instance (s : InsertionSet α) (a : α) : Decidable (a ∈ s) :=
  inferInstanceAs (Decidable (a ∈ s.elems))

def add (s : InsertionSet α) (a : α) : InsertionSet α :=
  if h : a ∈ s.elems then s
  else ⟨s.elems ++ [a], List.Nodup.append s.nodup (List.nodup_singleton a)
    (List.disjoint_singleton.mpr h)⟩

def delete (s : InsertionSet α) (a : α) : InsertionSet α :=
  ⟨s.elems.filter (· ≠ a), s.nodup.filter _⟩

@[simp] theorem mem_add {s : InsertionSet α} {a b : α} :
    b ∈ s.add a ↔ b = a ∨ b ∈ s := by
  unfold add
  split
  · rename_i hmem
    constructor
    · exact Or.inr
    · rintro (rfl | hb)
      · exact hmem
      · exact hb
  · simp [mem_def, or_comm]

@[simp] theorem mem_delete {s : InsertionSet α} {a b : α} :
    b ∈ s.delete a ↔ b ≠ a ∧ b ∈ s := by
  simp [delete, mem_def, and_comm]

end InsertionSet

end CommonChat.Foundation
