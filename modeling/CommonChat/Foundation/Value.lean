import CommonChat.Foundation.Text
import Mathlib.Data.Rat.Defs

/-!
# Script values

The values that untyped handlers receive.  Objects are association lists; a
missing property and a property that is `undefined` read the same.  Arrays and
objects are compared by reference, so `strictEq`, which is used between values
of different messages, never identifies two of them, and `key` takes the
reference as an explicit address.
-/

namespace CommonChat.Foundation

/-- Numbers that a JSON text can denote. -/
inductive JsNumber where
  | finite (value : Rat)
  | infinite (negative : Bool)
  deriving DecidableEq

inductive JsValue where
  | undefined
  | null
  | bool (value : Bool)
  | num (value : JsNumber)
  | str (value : JsString)
  | arr (items : List JsValue)
  | obj (fields : List (JsString × JsValue))

structure TypeError where
  message : String
  deriving DecidableEq, Repr

theorem except_bind_eq_ok {ε α β : Type} {x : Except ε α}
    {f : α → Except ε β} {b : β} :
    (x >>= f) = .ok b ↔ ∃ a, x = .ok a ∧ f a = .ok b := by
  cases x with
  | error e => exact ⟨nofun, nofun⟩
  | ok a => simp [bind, Except.bind]

/-- A value as a `Map` key: by content, or by address for a reference. -/
inductive JsKey where
  | undefined
  | null
  | bool (value : Bool)
  | num (value : JsNumber)
  | str (value : JsString)
  | reference (address : Nat)
  deriving DecidableEq

namespace JsValue

def truthy : JsValue → Bool
  | .undefined | .null => false
  | .bool value => value
  | .num value => value ≠ .finite 0
  | .str value => value ≠ []
  | .arr _ | .obj _ => true

def isNullish : JsValue → Bool
  | .undefined | .null => true
  | _ => false

def isObject : JsValue → Bool
  | .arr _ | .obj _ => true
  | _ => false

def coalesce (value fallback : JsValue) : JsValue :=
  if value.isNullish then fallback else value

def orElse (value fallback : JsValue) : JsValue :=
  if value.truthy then value else fallback

def field (value : JsValue) (name : JsString) : JsValue :=
  match value with
  | .obj fields => (fields.lookup name).getD .undefined
  | _ => .undefined

/-- The operator `===` between values of different messages. -/
def strictEq : JsValue → JsValue → Bool
  | .undefined, .undefined => true
  | .null, .null => true
  | .bool a, .bool b => a == b
  | .num a, .num b => a == b
  | .str a, .str b => a == b
  | _, _ => false

def key (address : Nat) : JsValue → JsKey
  | .undefined => .undefined
  | .null => .null
  | .bool value => .bool value
  | .num value => .num value
  | .str value => .str value
  | .arr _ | .obj _ => .reference address

def trimCall (value : JsValue) (callee : String) : Except TypeError JsValue :=
  match value with
  | .str text => .ok (.str (trim text))
  | _ => .error ⟨callee ++ ".trim is not a function"⟩

def hasSlice : JsValue → Bool
  | .str _ | .arr _ => true
  | _ => false

def sliceCall (value : JsValue) (count : Nat) (callee : String) :
    Except TypeError JsValue :=
  match value with
  | .str text => .ok (.str (text.take count))
  | .arr items => .ok (.arr (items.take count))
  | _ => .error ⟨callee ++ ".slice is not a function"⟩

mutual

/-- `JSON.parse(JSON.stringify(value))`: an infinite number becomes `null`. -/
def throughJson : JsValue → JsValue
  | .num (.infinite _) => .null
  | .arr items => .arr (throughJsonItems items)
  | .obj fields => .obj (throughJsonFields fields)
  | value => value

def throughJsonItems : List JsValue → List JsValue
  | [] => []
  | .undefined :: rest => .null :: throughJsonItems rest
  | item :: rest => item.throughJson :: throughJsonItems rest

def throughJsonFields :
    List (JsString × JsValue) → List (JsString × JsValue)
  | [] => []
  | (name, value) :: rest => (name, value.throughJson) :: throughJsonFields rest

end

@[simp] theorem throughJson_str (s : JsString) :
    (str s).throughJson = str s := rfl

@[simp] theorem throughJson_bool (b : Bool) :
    (bool b).throughJson = bool b := rfl

mutual

theorem throughJson_throughJson :
    ∀ value : JsValue, value.throughJson.throughJson = value.throughJson
  | .undefined | .null | .bool _ | .str _ => rfl
  | .num (.finite _) => rfl
  | .num (.infinite _) => rfl
  | .arr items => by
      simp only [throughJson, throughJsonItems_throughJsonItems items]
  | .obj fields => by
      simp only [throughJson, throughJsonFields_throughJsonFields fields]

theorem throughJsonItems_throughJsonItems :
    ∀ items : List JsValue,
      throughJsonItems (throughJsonItems items) = throughJsonItems items
  | [] => rfl
  | item :: rest => by
      have hitem := throughJson_throughJson item
      have hrest := throughJsonItems_throughJsonItems rest
      cases item with
      | undefined => simp [throughJsonItems, throughJson, hrest]
      | num value =>
          cases value <;> simp [throughJsonItems, throughJson, hrest]
      | arr items =>
          simp only [throughJson, arr.injEq] at hitem
          simp [throughJsonItems, throughJson, hrest, hitem]
      | obj fields =>
          simp only [throughJson, obj.injEq] at hitem
          simp [throughJsonItems, throughJson, hrest, hitem]
      | _ => simp [throughJsonItems, throughJson, hrest]

theorem throughJsonFields_throughJsonFields :
    ∀ fields : List (JsString × JsValue),
      throughJsonFields (throughJsonFields fields) = throughJsonFields fields
  | [] => rfl
  | (_, value) :: rest => by
      simp only [throughJsonFields, throughJson_throughJson value,
        throughJsonFields_throughJsonFields rest]

end

theorem throughJsonItems_of_obj {items : List JsValue}
    (h : ∀ item ∈ items, ∃ fields, item = .obj fields) :
    throughJsonItems items = items.map throughJson := by
  induction items with
  | nil => rfl
  | cons item rest ih =>
      obtain ⟨fields, rfl⟩ := h item List.mem_cons_self
      rw [throughJsonItems, List.map_cons,
        ih fun item hitem => h item (List.mem_cons_of_mem _ hitem)]
      simp

private theorem lookup_throughJsonFields (fields : List (JsString × JsValue))
    (name : JsString) :
    (throughJsonFields fields).lookup name =
      (fields.lookup name).map throughJson := by
  induction fields with
  | nil => rfl
  | cons entry rest ih =>
      obtain ⟨key, value⟩ := entry
      rw [throughJsonFields, List.lookup_cons, List.lookup_cons, ih]
      cases name == key <;> rfl

theorem field_throughJson (value : JsValue) (name : JsString) :
    value.throughJson.field name = (value.field name).throughJson := by
  cases value with
  | obj fields =>
      simp only [throughJson, field, lookup_throughJsonFields]
      cases fields.lookup name <;> rfl
  | num value => cases value <;> rfl
  | _ => rfl

@[simp] theorem strictEq_str_iff (value : JsValue) (s : JsString) :
    value.strictEq (.str s) = true ↔ value = .str s := by
  cases value <;> simp [strictEq]

theorem strictEq_str_false_iff (value : JsValue) (s : JsString) :
    value.strictEq (.str s) = false ↔ value ≠ .str s := by
  rw [← Bool.not_eq_true, strictEq_str_iff]

@[simp] theorem str_strictEq_str (a b : JsString) :
    (str a).strictEq (.str b) = (a == b) := rfl

theorem eq_of_strictEq {a b : JsValue} (h : a.strictEq b = true) : a = b := by
  cases a <;> cases b <;> simp_all [strictEq]

@[simp] theorem truthy_str (s : JsString) :
    (str s).truthy = true ↔ s ≠ [] := by
  simp [truthy]

theorem trimCall_eq_ok {value trimmed : JsValue} {callee : String}
    (h : value.trimCall callee = .ok trimmed) : ∃ s, value = .str s ∧
      trimmed = .str (trim s) := by
  cases value with
  | str s =>
      cases h
      exact ⟨s, rfl, rfl⟩
  | _ => cases h

theorem sliceCall_eq_ok_iff (value : JsValue) (count : Nat) (callee : String) :
    (∃ sliced, value.sliceCall count callee = .ok sliced) ↔
      value.hasSlice = true := by
  cases value <;> simp [sliceCall, hasSlice]

theorem truthy_of_sliceCall {value sliced : JsValue} {count : Nat}
    {callee : String} (hvalue : value.truthy = true) (hcount : 0 < count)
    (h : value.sliceCall count callee = .ok sliced) : sliced.truthy = true := by
  cases value with
  | str s =>
      cases h
      rw [truthy_str] at hvalue ⊢
      simpa [Nat.ne_of_gt hcount] using hvalue
  | arr items =>
      cases h
      rfl
  | _ => cases h

theorem throughJson_eq_str_iff (value : JsValue) (s : JsString) :
    value.throughJson = .str s ↔ value = .str s := by
  cases value with
  | num value => cases value <;> simp [throughJson]
  | _ => simp [throughJson]

theorem coalesce_throughJson {value : JsValue} {fallback s : JsString}
    (h : value.coalesce (.str fallback) = .str s) :
    value.throughJson.coalesce (.str fallback) = .str s := by
  cases value with
  | undefined => exact h
  | null => exact h
  | str r => exact h
  | bool b => cases h
  | num n => cases h
  | arr items => cases h
  | obj fields => cases h

end JsValue

end CommonChat.Foundation
