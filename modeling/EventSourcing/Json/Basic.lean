import EventSourcing.Number.Binary64

/-!
# JSON values

A value is null, a truth value, a number, a string, an array or an object. An integer from `-2 ^ 63`
to `2 ^ 64 - 1` is kept exactly and every other number is a floating-point number. An object is a
list of fields whose keys ascend strictly (`Fields.insert` keeps them so, and a later field replaces
an earlier one of the same key); `Json.Canonical` states both rules for a whole value.

`Json.depth` counts how many arrays and objects stand around the innermost one, itself included.

One key is special to the reader: an object that begins with `Json.rawKey` stands for the value that
its string spells. `Json.Plain` says that no object inside a value begins so.
-/

namespace EventSourcing

/-- A number: an integer kept exactly, or a floating-point number. -/
inductive Number where
  | int (value : Int)
  | float (value : Binary64)
  deriving DecidableEq, Repr

/-- The integers that are kept exactly. -/
def exactInt (n : Int) : Bool := -9223372036854775808 ≤ n && n < 18446744073709551616

/-- A JSON value. -/
inductive Json where
  | null
  | bool (value : Bool)
  | number (value : Number)
  | string (value : String)
  | array (items : List Json)
  | object (fields : List (String × Json))
  deriving Repr

/-- The fields of an object, keys ascending. -/
abbrev Fields := List (String × Json)

namespace Fields

/-- Sets a field, keeping the keys in order. -/
def insert (key : String) (value : Json) : Fields → Fields
  | [] => [(key, value)]
  | (k, v) :: r =>
    if key < k then (key, value) :: (k, v) :: r
    else if key = k then (key, value) :: r
    else (k, v) :: insert key value r

/-- The value of a key. -/
def get? (key : String) (fields : Fields) : Option Json :=
  (fields.find? fun f => f.1 = key).map (·.2)

/-- The fields without a key. -/
def erase (key : String) (fields : Fields) : Fields := fields.filter fun f => f.1 ≠ key

/-- The fields of both, those of the second winning. -/
def merge (old new : Fields) : Fields := new.foldl (fun acc f => insert f.1 f.2 acc) old

/-- The fields of a list of fields in any order, later ones winning. -/
def ofList (fields : List (String × Json)) : Fields := merge [] fields

/-- Whether the keys ascend strictly. -/
def Sorted (fields : Fields) : Prop := fields.Pairwise fun f g => f.1 < g.1

@[simp] theorem merge_nil (old : Fields) : merge old [] = old := rfl

end Fields

namespace Json

mutual

/-- Whether two values are equal. -/
def decEq : (a b : Json) → Decidable (a = b)
  | .null, .null => isTrue rfl
  | .bool a, .bool b => if h : a = b then isTrue (by rw [h]) else isFalse (by simp [h])
  | .number a, .number b => if h : a = b then isTrue (by rw [h]) else isFalse (by simp [h])
  | .string a, .string b => if h : a = b then isTrue (by rw [h]) else isFalse (by simp [h])
  | .array a, .array b =>
    match decEqItems a b with
    | isTrue h => isTrue (by rw [h])
    | isFalse h => isFalse (by simp [h])
  | .object a, .object b =>
    match decEqFields a b with
    | isTrue h => isTrue (by rw [h])
    | isFalse h => isFalse (by simp [h])
  | .null, .bool _ | .null, .number _ | .null, .string _ | .null, .array _ | .null, .object _
  | .bool _, .null | .bool _, .number _ | .bool _, .string _ | .bool _, .array _
  | .bool _, .object _
  | .number _, .null | .number _, .bool _ | .number _, .string _ | .number _, .array _
  | .number _, .object _
  | .string _, .null | .string _, .bool _ | .string _, .number _ | .string _, .array _
  | .string _, .object _
  | .array _, .null | .array _, .bool _ | .array _, .number _ | .array _, .string _
  | .array _, .object _
  | .object _, .null | .object _, .bool _ | .object _, .number _ | .object _, .string _
  | .object _, .array _ => isFalse (by simp)

/-- Whether two lists of values are equal. -/
def decEqItems : (a b : List Json) → Decidable (a = b)
  | [], [] => isTrue rfl
  | x :: xs, y :: ys =>
    match decEq x y, decEqItems xs ys with
    | isTrue h, isTrue hs => isTrue (by rw [h, hs])
    | isFalse h, _ => isFalse (by simp [h])
    | _, isFalse hs => isFalse (by simp [hs])
  | [], _ :: _ | _ :: _, [] => isFalse (by simp)

/-- Whether two lists of fields are equal. -/
def decEqFields : (a b : List (String × Json)) → Decidable (a = b)
  | [], [] => isTrue rfl
  | (k, x) :: xs, (l, y) :: ys =>
    match decEq x y, decEqFields xs ys with
    | isTrue h, isTrue hs =>
      if hk : k = l then isTrue (by rw [h, hs, hk]) else isFalse (by simp [hk])
    | isFalse h, _ => isFalse (by simp [h])
    | _, isFalse hs => isFalse (by simp [hs])
  | [], _ :: _ | _ :: _, [] => isFalse (by simp)

end

instance : DecidableEq Json := decEq

instance : Inhabited Json := ⟨.null⟩

mutual

/-- How many arrays and objects stand around the innermost one, itself included. -/
def depth : Json → Nat
  | .array items => depthItems items + 1
  | .object fields => depthFields fields + 1
  | _ => 0

/-- The greatest depth of the items. -/
def depthItems : List Json → Nat
  | [] => 0
  | x :: xs => max (depth x) (depthItems xs)

/-- The greatest depth of the field values. -/
def depthFields : List (String × Json) → Nat
  | [] => 0
  | (_, x) :: xs => max (depth x) (depthFields xs)

end

mutual

/-- Every number is an integer that is kept exactly, and the keys of every object ascend. -/
def Canonical : Json → Prop
  | .number (.int n) => exactInt n = true
  | .number (.float _) => False
  | .array items => CanonicalItems items
  | .object fields => Fields.Sorted fields ∧ CanonicalFields fields
  | _ => True

/-- Every item is canonical. -/
def CanonicalItems : List Json → Prop
  | [] => True
  | x :: xs => Canonical x ∧ CanonicalItems xs

/-- Every field value is canonical. -/
def CanonicalFields : List (String × Json) → Prop
  | [] => True
  | (_, x) :: xs => Canonical x ∧ CanonicalFields xs

end

/-- The key of an object that stands for the value that its string spells. -/
def rawKey : String := "$serde_json::private::RawValue"

/-- Whether fields begin with `rawKey`. -/
def beginsRaw : Fields → Bool
  | [] => false
  | (key, _) :: _ => key = rawKey

mutual

/-- Whether the fields of every object inside a value pass a test. -/
def allObjects (p : Fields → Bool) : Json → Bool
  | .array items => allObjectsItems p items
  | .object fields => p fields && allObjectsFields p fields
  | _ => true

/-- The test for every item. -/
def allObjectsItems (p : Fields → Bool) : List Json → Bool
  | [] => true
  | x :: xs => allObjects p x && allObjectsItems p xs

/-- The test for every field value. -/
def allObjectsFields (p : Fields → Bool) : List (String × Json) → Bool
  | [] => true
  | (_, x) :: xs => allObjects p x && allObjectsFields p xs

end

/-- No object inside a value begins with `rawKey`. -/
def Plain (v : Json) : Prop := v.allObjects (fun fields => !beginsRaw fields) = true

/-- Every item is plain. -/
def PlainItems (items : List Json) : Prop :=
  allObjectsItems (fun fields => !beginsRaw fields) items = true

/-- Every field value is plain. -/
def PlainFields (fields : List (String × Json)) : Prop :=
  allObjectsFields (fun fields => !beginsRaw fields) fields = true

instance (v : Json) : Decidable v.Plain := inferInstanceAs (Decidable (_ = true))

section Plain

variable {x : Json} {items : List Json} {key : String} {fields : List (String × Json)}

@[simp] theorem beginsRaw_cons : beginsRaw ((key, x) :: fields) = decide (key = rawKey) := rfl

@[simp] theorem plain_string (s : String) : (string s).Plain := rfl

@[simp] theorem plainItems_nil : PlainItems [] := rfl

@[simp] theorem plainFields_nil : PlainFields [] := rfl

@[simp] theorem plain_array : (array items).Plain ↔ PlainItems items := Iff.rfl

@[simp] theorem plain_object :
    (object fields).Plain ↔ beginsRaw fields = false ∧ PlainFields fields := by
  simp [Plain, PlainFields, allObjects]

@[simp] theorem plainItems_cons : PlainItems (x :: items) ↔ x.Plain ∧ PlainItems items :=
  Bool.and_eq_true_iff

@[simp] theorem plainFields_cons :
    PlainFields ((key, x) :: fields) ↔ x.Plain ∧ PlainFields fields :=
  Bool.and_eq_true_iff

end Plain

/-- An integer as a value. -/
def int (n : Int) : Json := .number (.int n)

/-- The object with the given fields. -/
def ofFields (fields : List (String × Json)) : Json := .object (Fields.ofList fields)

end Json

end EventSourcing
