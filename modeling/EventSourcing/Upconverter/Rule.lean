import EventSourcing.Upconverter

/-!
# Conversion rules

The common changes of data as values: set, drop, rename or scale a field, wrap data into a field or
unwrap it, replace it, refuse it. `Rule.converter` makes a converter of a rule; its refusals name
the kind that could not be converted.
-/

namespace EventSourcing

/-- A change of data. -/
inductive Rule where
  | identity
  | set (key : String) (value : Json)
  | drop (key : String)
  | rename (source target : String)
  | wrap (key : String)
  | unwrap (key : String)
  | scale (source target : String) (factor : Int)
  | const (value : Json)
  | fail (reason : String)
  deriving DecidableEq, Repr

namespace Rule

/-- The fields of data that must be an object. -/
def fieldsOf : Json → Except String Fields
  | .object fields => .ok fields
  | _ => .error "not an object"

/-- Whether an integer has 64 bits with a sign. -/
def isInt64 (n : Int) : Bool := -9223372036854775808 ≤ n && n < 9223372036854775808

/-- The integer of 64 bits in a field, if the data has it. -/
def integerField? (key : String) : Json → Option Int
  | .object fields =>
    match Fields.get? key fields with
    | some (.number (.int n)) => if isInt64 n then some n else none
    | _ => none
  | _ => none

/-- The changed data, or the reason of a refusal. -/
def apply : Rule → Json → Except String Json
  | .identity, data => .ok data
  | .set key value, data => do
    return .object (Fields.insert key value (← fieldsOf data))
  | .drop key, data => do
    return .object (Fields.erase key (← fieldsOf data))
  | .rename source target, data => do
    let fields ← fieldsOf data
    match Fields.get? source fields with
    | none => throw (source ++ " missing")
    | some value => return .object (Fields.insert target value (Fields.erase source fields))
  | .wrap key, data => .ok (.object [(key, data)])
  | .unwrap key, data => do
    match Fields.get? key (← fieldsOf data) with
    | none => throw (key ++ " missing")
    | some value => return value
  | .scale source target factor, data =>
    match integerField? source data with
    | none => .error (source ++ " missing")
    | some n => if isInt64 (n * factor) then .ok (.object [(target, .int (n * factor))])
        else .error "overflow"
  | .const value, _ => .ok value
  | .fail reason, _ => .error reason

/-- The converter from one kind to another by a rule. -/
def converter (r : Rule) (source target : String) : Converter where
  source := source
  target := target
  convert data := (r.apply data).mapError (.failed source)

end Rule
end EventSourcing
