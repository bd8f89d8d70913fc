import EventSourcing.Text.Utf8

/-!
# Tagged fields in bytes

A message is written as a sequence of fields. A field starts with a key, which holds its number and
the form of its value; numbers are written seven bits at a time, the low ones first, and texts and
messages follow their length.

| form | value |
| --- | --- |
| 0 | a number of 64 bits |
| 1 | eight bytes |
| 2 | a length and as many bytes |
| 3, 4 | the begin and the end of a group of fields |
| 5 | four bytes |

`readFields` splits bytes into fields. Groups belong to no message of this library; they are checked
and skipped, and at most `depth` of them may be open at once. An entry of a map always follows its
length, whatever form its key gives, so the numbers of the maps of a message are needed to read it.
-/

namespace EventSourcing
namespace Protobuf

/-- Writes a number in groups of seven bits, at most so many. -/
def varintWithin : Nat → Nat → Bytes
  | 0, _ => []
  | k + 1, n =>
    if n < 128 then [UInt8.ofNat n] else UInt8.ofNat (n % 128 + 128) :: varintWithin k (n / 128)

/-- A number of 64 bits takes at most ten bytes. -/
def varint (n : Nat) : Bytes := varintWithin 10 n

/-- Reads a number of at most so many bytes. The last of ten bytes has room for one bit. -/
def readVarintWithin : Nat → Bytes → Option (Nat × Bytes)
  | 0, _ => none
  | _, [] => none
  | k + 1, b :: r =>
    if b < 128 then
      if k = 0 ∧ 2 ≤ b then none else some (b.toNat, r)
    else
      match readVarintWithin k r with
      | none => none
      | some (n, r) => some (b.toNat % 128 + 128 * n, r)

/-- Reads a number of 64 bits. -/
def readVarint (bs : Bytes) : Option (Nat × Bytes) := readVarintWithin 10 bs

/-- An integer of 64 bits with a sign, as a number. -/
def ofInteger (n : Int) : Nat := (n % 18446744073709551616).toNat

/-- The integer of 64 bits with a sign that a number stands for. -/
def toInteger (n : Nat) : Int :=
  if n < 9223372036854775808 then n else (n : Int) - 18446744073709551616

/-- The integer of 32 bits with a sign in the low half of a number. -/
def toInteger32 (n : Nat) : Int :=
  let low : Nat := n % 4294967296
  if low < 2147483648 then (low : Int) else (low : Int) - 4294967296

/-- The key of a field: its number and the form of its value. -/
def key (number form : Nat) : Bytes := varint (8 * number + form)

/-- Bytes behind their length. -/
def delimited (bs : Bytes) : Bytes := varint bs.length ++ bs

/-! ## Writing fields -/

/-- A field of a number, left out if it is zero. -/
def word (number value : Nat) : Bytes := if value = 0 then [] else key number 0 ++ varint value

/-- A field of an integer, whatever it is. -/
def someInteger (number : Nat) (value : Int) : Bytes := key number 0 ++ varint (ofInteger value)

/-- A field of an integer, left out if it is zero. -/
def integer (number : Nat) (value : Int) : Bytes :=
  if value = 0 then [] else someInteger number value

/-- A field of a message. -/
def message (number : Nat) (bs : Bytes) : Bytes := key number 2 ++ delimited bs

/-- A field of a text, whatever it is. -/
def someText (number : Nat) (s : String) : Bytes := message number (Utf8.ofString s)

/-- A field of a text, left out if it is empty. -/
def text (number : Nat) (s : String) : Bytes := if s.isEmpty then [] else someText number s

/-- A field for each entry of a map: a message of the key and the value. -/
def entries (number : Nat) (m : List (String × String)) : Bytes :=
  m.flatMap fun e => message number (text 1 e.1 ++ text 2 e.2)

/-! ## Reading fields -/

/-- What a field holds. -/
inductive Value where
  | number (n : Nat)
  | bytes (bs : Bytes)
  /-- A value of a form that no message of this library uses. -/
  | skipped
  deriving DecidableEq, Repr

/-- A field of a message. -/
structure Field where
  number : Nat
  value : Value
  deriving DecidableEq, Repr

/-- Reads the key of a field: its number, which is not zero, and the form of its value. -/
def readKey (bs : Bytes) : Option (Nat × Nat × Bytes) :=
  match readVarint bs with
  | none => none
  | some (k, r) => if k < 4294967296 ∧ k / 8 ≠ 0 then some (k / 8, k % 8, r) else none

/-- Reads bytes behind their length. -/
def readDelimited (bs : Bytes) : Option (Bytes × Bytes) :=
  match readVarint bs with
  | none => none
  | some (n, r) => if n ≤ r.length then some (r.take n, r.drop n) else none

/-- Skips so many bytes. -/
def skip (n : Nat) (bs : Bytes) : Option Bytes := if n ≤ bs.length then some (bs.drop n) else none

/-- Skips what is left of the open groups, innermost first; `steps` bounds the keys read. -/
def skipGroups (depth : Nat) : List Nat → Nat → Bytes → Option Bytes
  | [], _, bs => some bs
  | _, 0, _ => none
  | inner :: outer, steps + 1, bs =>
    match readKey bs with
    | none => none
    | some (number, form, r) =>
      if form = 4 then
        if number = inner then skipGroups depth outer steps r else none
      else if depth ≤ outer.length + 1 then none
      else
        match form with
        | 0 => (readVarint r).bind fun v => skipGroups depth (inner :: outer) steps v.2
        | 1 => (skip 8 r).bind (skipGroups depth (inner :: outer) steps)
        | 2 => (readDelimited r).bind fun v => skipGroups depth (inner :: outer) steps v.2
        | 3 => skipGroups depth (number :: inner :: outer) steps r
        | 5 => (skip 4 r).bind (skipGroups depth (inner :: outer) steps)
        | _ => none

/-- Reads the value of a field that is no map. -/
def readValue (depth number form : Nat) (bs : Bytes) : Option (Value × Bytes) :=
  match form with
  | 0 => (readVarint bs).map fun v => (.number v.1, v.2)
  | 1 => (skip 8 bs).map fun r => (.skipped, r)
  | 2 => (readDelimited bs).map fun v => (.bytes v.1, v.2)
  | 3 => (skipGroups depth [number] bs.length bs).map fun r => (.skipped, r)
  | 5 => (skip 4 bs).map fun r => (.skipped, r)
  | _ => none

/-- Reads one field. -/
def readField (depth : Nat) (maps : List Nat) (bs : Bytes) : Option (Field × Bytes) :=
  match readKey bs with
  | none => none
  | some (number, form, r) =>
    let value :=
      if maps.contains number && form ≤ 5 then (readDelimited r).map fun v => (.bytes v.1, v.2)
      else readValue depth number form r
    value.map fun v => (⟨number, v.1⟩, v.2)

/-- Reads fields to the end of the bytes; `steps` bounds their number. -/
def readFieldsWithin (depth : Nat) (maps : List Nat) : Nat → Bytes → Option (List Field)
  | _, [] => some []
  | 0, _ :: _ => none
  | steps + 1, bs =>
    match readField depth maps bs with
    | none => none
    | some (f, r) => (readFieldsWithin depth maps steps r).map (f :: ·)

/-- Splits bytes into fields. -/
def readFields (depth : Nat) (maps : List Nat) (bs : Bytes) : Option (List Field) :=
  readFieldsWithin depth maps bs.length bs

/-- Takes fields into a message one after the other. -/
def absorb {α : Type} (take : α → Field → Option α) : α → List Field → Option α
  | m, [] => some m
  | m, f :: fs => (take m f).bind (absorb take · fs)

/-- Takes the fields that bytes hold into a message with maps of certain numbers. -/
def merge {α : Type} (depth : Nat) (maps : List Nat) (take : α → Field → Option α) (m : α)
    (bs : Bytes) : Option α :=
  (readFields depth maps bs).bind (absorb take m)

namespace Value

/-- The number, at its low 32 bits. -/
def word? : Value → Option Nat
  | .number n => some (n % 4294967296)
  | _ => none

/-- The number as an integer of 64 bits with a sign. -/
def integer? : Value → Option Int
  | .number n => some (toInteger n)
  | _ => none

/-- The number as an integer of 32 bits with a sign. -/
def integer32? : Value → Option Int
  | .number n => some (toInteger32 n)
  | _ => none

/-- The number as a truth value. -/
def bool? : Value → Option Bool
  | .number n => some (n ≠ 0)
  | _ => none

def bytes? : Value → Option Bytes
  | .bytes bs => some bs
  | _ => none

/-- The bytes as text. -/
def text? (v : Value) : Option String :=
  v.bytes?.bind fun bs => (Utf8.decode bs).toOption.map String.ofList

end Value

/-- Sets the value of a key, keeping the keys in order. -/
def setEntry (key value : String) : List (String × String) → List (String × String)
  | [] => [(key, value)]
  | (k, v) :: r =>
    if key < k then (key, value) :: (k, v) :: r
    else if key = k then (key, value) :: r
    else (k, v) :: setEntry key value r

/-- Takes a field into an entry of a map. -/
def takeEntryField (e : String × String) (f : Field) : Option (String × String) :=
  match f.number with
  | 1 => f.value.text?.map (·, e.2)
  | 2 => f.value.text?.map (e.1, ·)
  | _ => some e

/-- Takes an entry into a map. -/
def takeEntry (depth : Nat) (m : List (String × String)) (v : Value) :
    Option (List (String × String)) :=
  v.bytes?.bind fun bs =>
    (merge (depth - 1) [] takeEntryField ("", "") bs).map fun e => setEntry e.1 e.2 m

example : varint 300 = [0xAC, 0x02] := by decide

example : readVarint [0xAC, 0x02, 0x07] = some (300, [0x07]) := by decide

end Protobuf
end EventSourcing
