import EventScript.Snapshot
import Mathlib.Algebra.Group.Nat.Defs
import Mathlib.Data.List.Basic
import Mathlib.Tactic.Common

/-!
# What values hold

A value can hold others. `Value.All` says something of a value and of all that it holds: that its
arrays are maps (`Value.Proper`), and that its texts and collections have lengths that fit into
words (`Value.Sized`).
-/

namespace EventScript

namespace Value

mutual

def All (P : Value → Prop) : Value → Prop
  | list vs => P (list vs) ∧ AllOf P vs
  | array es => P (array es) ∧ AllIn P es
  | v => P v

def AllOf (P : Value → Prop) : List Value → Prop
  | [] => True
  | v :: vs => v.All P ∧ AllOf P vs

def AllIn (P : Value → Prop) : List (ArrayKey × Value) → Prop
  | [] => True
  | (_, v) :: es => v.All P ∧ AllIn P es

end

theorem allOf_iff : AllOf P vs ↔ ∀ v ∈ vs, v.All P := by
  induction vs with
  | nil => simp [AllOf]
  | cons v vs ih => simp [AllOf, ih]

theorem allIn_iff : AllIn P es ↔ ∀ e ∈ es, e.2.All P := by
  induction es with
  | nil => simp [AllIn]
  | cons e es ih =>
    obtain ⟨k, v⟩ := e
    simp [AllIn, ih]

@[simp] theorem all_list : (list vs).All P ↔ P (list vs) ∧ ∀ v ∈ vs, v.All P := by
  rw [All, allOf_iff]

@[simp] theorem all_array : (array es).All P ↔ P (array es) ∧ ∀ e ∈ es, e.2.All P := by
  rw [All, allIn_iff]

/-- What holds of a list or an array if it holds of all that is in it, and of all other values,
holds of every value. Those that can be keys go together. -/
theorem induct {P : Value → Prop} (undefined : P undefined) (bool : ∀ b, P (bool b))
    (key : ∀ k : ArrayKey, P k.toValue) (list : ∀ vs, (∀ v ∈ vs, P v) → P (list vs))
    (array : ∀ es : Entries, (∀ e ∈ es, P e.2) → P (array es)) : ∀ v, P v
  | .undefined => undefined
  | .bool b => bool b
  | .integer n => key (.integer n)
  | .float d => key (.float d)
  | .string s => key (.string s)
  | .key s => key (.key s)
  | .vector v => key (.vector v)
  | .rotation q => key (.rotation q)
  | .list vs => list vs fun v _ => induct undefined bool key list array v
  | .array es => array es fun e _ => induct undefined bool key list array e.2
decreasing_by
  · have := List.sizeOf_lt_of_mem ‹v ∈ vs›
    simp only [Value.list.sizeOf_spec]; omega
  · have := List.sizeOf_lt_of_mem ‹e ∈ es›
    obtain ⟨k, v⟩ := e
    simp only [Value.array.sizeOf_spec, Prod.mk.sizeOf_spec] at this ⊢; omega

/-! ## Arrays that are maps -/

/-- No key of an array stands twice, and none has `undef` for its value. -/
def IsMap : Value → Prop
  | array es => (es.map Prod.fst).Nodup ∧ ∀ e ∈ es, e.2 ≠ undefined
  | _ => True

/-- All arrays in the value are maps. -/
def Proper (v : Value) : Prop := v.All IsMap

/-! ## Lengths -/

end Value

/-- The text of a key is short enough for its length to be written. -/
def ArrayKey.Fits : ArrayKey → Prop
  | string s | key s => s.utf8ByteSize < 2 ^ 32
  | _ => True

namespace Value

/-- The length of a text is less than 2^32, and that of a collection less than 2^31. -/
def Fits : Value → Prop
  | string s | key s => s.utf8ByteSize < 2 ^ 32
  | list vs => vs.length < 2 ^ 31
  | array es => es.length < 2 ^ 31 ∧ ∀ e ∈ es, e.1.Fits
  | _ => True

/-- All texts and collections in the value have lengths that can be written. -/
def Sized (v : Value) : Prop := v.All Fits

end Value

end EventScript
