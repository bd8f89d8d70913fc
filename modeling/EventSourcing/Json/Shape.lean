import EventSourcing.Json.Basic

/-!
# Shapes of typed data

A shape is the type that a reader expects of a value. `Shape.conform?` reads a value at a shape and
writes what it read: nothing is coerced (`1.0` is no integer, `0` is no truth value), a record drops
the fields it does not know, and a record also reads from the array of its fields in order.
-/

namespace EventSourcing

/-- A type of data. -/
inductive Shape where
  /-- An integer from `0` to `2 ^ bits - 1`. -/
  | unsigned (bits : Nat)
  /-- An integer of 64 bits with a sign. -/
  | integer
  | bool
  | string
  /-- Null only. -/
  | unit
  | list (item : Shape)
  /-- Null, or a value of the shape. -/
  | optional (inner : Shape)
  /-- An object whose values have the shape. -/
  | map (value : Shape)
  /-- A record of named fields, in order of declaration. -/
  | record (fields : List (String × Shape))

namespace Shape

mutual

/-- The value as the shape writes it, if the value has the shape. -/
def conform? : Shape → Json → Option Json
  | .unsigned bits, .number (.int n) => if 0 ≤ n ∧ n < Nat.pow 2 bits then some (.int n) else none
  | .integer, .number (.int n) =>
    if -9223372036854775808 ≤ n ∧ n < 9223372036854775808 then some (.int n) else none
  | .bool, .bool b => some (.bool b)
  | .string, .string s => some (.string s)
  | .unit, .null => some .null
  | .list item, .array xs => (xs.mapM (conform? item)).map .array
  | .optional _, .null => some .null
  | .optional inner, v => conform? inner v
  | .map value, .object fields =>
    (fields.mapM fun f => (conform? value f.2).map (f.1, ·)).map .object
  | .record fields, .object given => (conformFields? fields given).map Json.ofFields
  | .record fields, .array items => (conformItems? fields items).map Json.ofFields
  | _, _ => none

/-- The fields of a record, from an object that has them all. -/
def conformFields? : List (String × Shape) → Fields → Option (List (String × Json))
  | [], _ => some []
  | (key, shape) :: rest, given => do
    let v ← Fields.get? key given
    let w ← conform? shape v
    return (key, w) :: (← conformFields? rest given)

/-- The fields of a record, from exactly as many items. -/
def conformItems? : List (String × Shape) → List Json → Option (List (String × Json))
  | [], [] => some []
  | (key, shape) :: rest, v :: items => do
    let w ← conform? shape v
    return (key, w) :: (← conformItems? rest items)
  | _, _ => none

end

/-- An order: one record with a number. -/
def order : Shape := .record [("order", .unsigned 32)]

example : order.conform? (.array [.int 7]) = some (.object [("order", .int 7)]) := by decide +kernel

end Shape
end EventSourcing
