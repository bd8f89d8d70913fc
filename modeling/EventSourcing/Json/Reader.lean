import EventSourcing.Json.Basic
import EventSourcing.Text.Utf8

/-!
# Reading JSON text

`Json.read` takes a whole text. It fails with `truncated` if the text ends too early and with
`malformed` if it cannot be the beginning of a value: a wrong character, characters after the value,
a number out of range, a lone surrogate, or arrays and objects inside one another more than
`maxDepth` levels deep. Of two offences the first one in the text decides.

An object whose first key in the text is `Json.rawKey` is read as the value that its string spells,
a whole text of its own with a bound on depth of its own. It fails with `mistyped` if the value of
the key is no string or its text is not read; no other field may follow. `Json.settle` is the same
rule for a value that is taken apart once more: there the first key is the smallest one.

Numbers are read digit by digit. Digits are taken into a significand while it stays below `2 ^ 64`;
later digits are dropped, and those before the point are counted. A number without point and
exponent that fits is an integer; `-0` and everything else is a floating-point number, the
significand times a power of ten (`Number.scaled?`).

The recursion is bounded by a number of steps that the length of the text exceeds nowhere: every
step consumes a character.
-/

namespace EventSourcing

/-- Why characters are not the text of a JSON value. -/
inductive Json.TextFault where
  | truncated
  | malformed
  deriving DecidableEq, Repr

/-- Why a text is not read: it is not the text of a value, or what stands under `Json.rawKey` is
none. -/
inductive Json.ReadFault where
  | text (fault : TextFault)
  | mistyped
  deriving DecidableEq, Repr

/-- The value of a decimal digit. -/
def digitValue (c : Char) : Nat := c.toNat - 48

namespace Number

/-- The number `significand * 10 ^ exponent`: the significand, rounded to a floating-point number,
is multiplied or divided by a power of ten, itself rounded. For a power below
`10 ^ -308` it is divided by `10 ^ 308` first. There is no number if it would be infinite. -/
def scaled? (negative : Bool) (significand : Nat) (exponent : Int) : Option Binary64 := do
  let f ← Binary64.ofNat? significand
  let x ←
    if f.isZero then some f
    else if 308 < exponent then none
    else if 0 ≤ exponent then f.mul? (← Binary64.powerOfTen? exponent.natAbs)
    else if -308 ≤ exponent then f.div? (← Binary64.powerOfTen? exponent.natAbs)
    else if -616 ≤ exponent then do
      let g ← f.div? (← Binary64.powerOfTen? 308)
      g.div? (← Binary64.powerOfTen? (exponent.natAbs - 308))
    else some (Binary64.zero false)
  return { x with negative := negative }

end Number

namespace Json

/-- The arrays and objects that may stand around one another. -/
def maxDepth : Nat := 127

/-- The characters that may stand between the parts of a value. -/
def isBlank (c : Char) : Bool := c = ' ' || c = '\n' || c = '\r' || c = '\t'

def skipBlanks (cs : List Char) : List Char := cs.dropWhile isBlank

/-- The offence of a text that ought to go on with something else. -/
def unexpected (rest : List Char) : TextFault :=
  if rest.isEmpty then .truncated else .malformed

/-- Takes digits while the significand stays below `2 ^ 64`; tells how many were taken. -/
def takeDigits (significand taken : Nat) : List Char → Nat × Nat × List Char
  | [] => (significand, taken, [])
  | c :: r =>
    if c.isDigit ∧ significand * 10 + digitValue c < 18446744073709551616 then
      takeDigits (significand * 10 + digitValue c) (taken + 1) r
    else (significand, taken, c :: r)

/-- A floating-point number, if it is in range. -/
def floatOf (negative : Bool) (significand : Nat) (exponent : Int) (rest : List Char) :
    Except TextFault (Number × List Char) :=
  match Number.scaled? negative significand exponent with
  | some x => .ok (.float x, rest)
  | none => .error .malformed

/-- The exponent, after its mark. -/
def readExponent (negative : Bool) (significand : Nat) (exponent : Int) (cs : List Char) :
    Except TextFault (Number × List Char) :=
  let (sign, cs) := match cs with
    | '+' :: r => ((1 : Int), r)
    | '-' :: r => (-1, r)
    | r => (1, r)
  let digits := cs.takeWhile Char.isDigit
  let rest := cs.drop digits.length
  if digits.isEmpty then .error (unexpected rest)
  else
    let value := digits.foldl (fun n c => n * 10 + digitValue c) 0
    floatOf negative significand (exponent + sign * value) rest

/-- What follows the digits of a floating-point number. -/
def readScale (negative : Bool) (significand : Nat) (exponent : Int) (cs : List Char) :
    Except TextFault (Number × List Char) :=
  match cs with
  | 'e' :: r | 'E' :: r => readExponent negative significand exponent r
  | r => floatOf negative significand exponent r

/-- The digits after a point; at least one is required. -/
def readFraction (negative : Bool) (significand : Nat) (exponent : Int) (cs : List Char) :
    Except TextFault (Number × List Char) :=
  let (s, taken, rest) := takeDigits significand 0 cs
  let more := rest.takeWhile Char.isDigit
  if taken = 0 ∧ more.isEmpty then .error (unexpected rest)
  else readScale negative s (exponent - taken) (rest.drop more.length)

/-- The integer of a significand, a floating-point number where it does not fit. -/
def integerOf (negative : Bool) (significand : Nat) : Option Number :=
  if negative then
    if 0 < significand ∧ significand ≤ 9223372036854775808 then some (.int (-significand))
    else (Number.scaled? true significand 0).map .float
  else some (.int significand)

/-- What follows the digits before a point. -/
def readAfterWhole (negative : Bool) (significand : Nat) (cs : List Char) :
    Except TextFault (Number × List Char) :=
  match cs with
  | '.' :: r => readFraction negative significand 0 r
  | 'e' :: r | 'E' :: r => readExponent negative significand 0 r
  | r =>
    match integerOf negative significand with
    | some n => .ok (n, r)
    | none => .error .malformed

/-- A number after its sign. -/
def readNumber (negative : Bool) (cs : List Char) : Except TextFault (Number × List Char) :=
  match cs with
  | [] => .error .truncated
  | '0' :: r =>
    if (r.takeWhile Char.isDigit).isEmpty then readAfterWhole negative 0 r else .error .malformed
  | c :: r =>
    if c.isDigit then
      let (s, _, rest) := takeDigits 0 0 (c :: r)
      let more := rest.takeWhile Char.isDigit
      if more.isEmpty then readAfterWhole negative s rest
      else
        match rest.drop more.length with
        | '.' :: r => readFraction negative s more.length r
        | r => readScale negative s more.length r
    else .error .malformed

/-- The value of a hexadecimal digit of either case. -/
def hexValue? (c : Char) : Option Nat :=
  if c.isDigit then some (digitValue c)
  else if 'a' ≤ c ∧ c ≤ 'f' then some (c.toNat - 87)
  else if 'A' ≤ c ∧ c ≤ 'F' then some (c.toNat - 55)
  else none

/-- The 16-bit unit of four hexadecimal digits. -/
def unit? (a b c d : Char) : Option Nat := do
  return (((← hexValue? a) * 16 + (← hexValue? b)) * 16 + (← hexValue? c)) * 16 + (← hexValue? d)

/-- The offence of an escape whose four digits are not there: the text ended if fewer than four
bytes are left. -/
def unitFault (rest : List Char) : TextFault :=
  if Utf8.size rest < 4 then .truncated else .malformed

def isHighSurrogate (n : Nat) : Bool := 0xD800 ≤ n && n < 0xDC00

def isLowSurrogate (n : Nat) : Bool := 0xDC00 ≤ n && n < 0xE000

/-- The character of an escape letter. -/
def simpleEscape? (c : Char) : Option Char :=
  match c with
  | '"' => some '"'
  | '\\' => some '\\'
  | '/' => some '/'
  | 'b' => some '\x08'
  | 'f' => some '\x0c'
  | 'n' => some '\n'
  | 'r' => some '\r'
  | 't' => some '\t'
  | _ => none

/-- The characters of a string, after its opening quote. -/
def readString : List Char → Except TextFault (List Char × List Char)
  | [] => .error .truncated
  | '"' :: r => .ok ([], r)
  | '\\' :: 'u' :: a :: b :: c :: d :: r =>
    match unit? a b c d with
    | none => .error .malformed
    | some n =>
      if isLowSurrogate n then .error .malformed
      else if isHighSurrogate n then
        match r with
        | [] => .error .truncated
        | '\\' :: [] => .error .truncated
        | '\\' :: 'u' :: e :: f :: g :: h :: r =>
          match unit? e f g h with
          | none => .error .malformed
          | some m =>
            if isLowSurrogate m then do
              let (cs, r) ← readString r
              return (Char.ofNat (0x10000 + (n - 0xD800) * 0x400 + (m - 0xDC00)) :: cs, r)
            else .error .malformed
        | '\\' :: 'u' :: r => .error (unitFault r)
        | _ => .error .malformed
      else do
        let (cs, r) ← readString r
        return (Char.ofNat n :: cs, r)
  | '\\' :: 'u' :: r => .error (unitFault r)
  | '\\' :: [] => .error .truncated
  | '\\' :: c :: r =>
    match simpleEscape? c with
    | none => .error .malformed
    | some c => do
      let (cs, r) ← readString r
      return (c :: cs, r)
  | c :: r =>
    if c.toNat < 32 then .error .malformed
    else do
      let (cs, r) ← readString r
      return (c :: cs, r)

/-- A fixed word. -/
def readWord (word : List Char) (value : Json) (cs : List Char) :
    Except TextFault (Json × List Char) :=
  match word, cs with
  | [], r => .ok (value, r)
  | _ :: _, [] => .error .truncated
  | w :: ws, c :: r => if w = c then readWord ws value r else .error .malformed

/-- A value that is neither an array nor an object. -/
def readScalar : List Char → Except TextFault (Json × List Char)
  | [] => .error .truncated
  | 'n' :: r => readWord ['u', 'l', 'l'] .null r
  | 't' :: r => readWord ['r', 'u', 'e'] (.bool true) r
  | 'f' :: r => readWord ['a', 'l', 's', 'e'] (.bool false) r
  | '"' :: r => do
    let (s, r) ← readString r
    return (.string (String.ofList s), r)
  | '-' :: r => do
    let (n, r) ← readNumber true r
    return (.number n, r)
  | c :: r =>
    if c.isDigit then do
      let (n, r) ← readNumber false (c :: r)
      return (.number n, r)
    else .error .malformed

/-- What follows `rawKey`, where the fields of an object begin with it. -/
def afterRawKey? (cs : List Char) : Option (List Char) :=
  match skipBlanks cs with
  | '"' :: r =>
    match readString r with
    | .ok (key, r) => if String.ofList key = rawKey then some r else none
    | .error _ => none
  | _ => none

/-- The string that is the value of `rawKey`, after its colon. -/
def readRawText (cs : List Char) : Except ReadFault (List Char × List Char) :=
  match skipBlanks cs with
  | ':' :: r =>
    match skipBlanks r with
    | '[' :: _ | '\x7b' :: _ => .error .mistyped
    | r =>
      match readScalar r with
      | .ok (.string s, r) => .ok (s.toList, r)
      | .ok _ => .error .mistyped
      | .error e => .error (.text e)
  | r => .error (.text (unexpected r))

/-- The value that was read, if nothing but blanks is left. -/
def whole? (result : Except ReadFault (Json × List Char)) : Option Json :=
  match result with
  | .ok (v, rest) => if (skipBlanks rest).isEmpty then some v else none
  | .error _ => none

mutual

/-- A value; at most `depth` arrays and objects may stand around one another. -/
def readValue : Nat → Nat → List Char → Except ReadFault (Json × List Char)
  | 0, _, _ => .error (.text .malformed)
  | steps + 1, depth, cs =>
    match skipBlanks cs with
    | '[' :: r =>
      match depth with
      | 0 => .error (.text .malformed)
      | depth + 1 => do
        let (items, r) ← readItems steps depth true r
        return (.array items, r)
    | '\x7b' :: r =>
      match depth with
      | 0 => .error (.text .malformed)
      | depth + 1 =>
        match afterRawKey? r with
        | some r => readRaw steps r
        | none => do
          let (fields, r) ← readFields steps depth true r
          return (ofFields fields, r)
    | r => (readScalar r).mapError .text
termination_by structural steps => steps

/-- The rest of an object that begins with `rawKey`. -/
def readRaw : Nat → List Char → Except ReadFault (Json × List Char)
  | 0, _ => .error (.text .malformed)
  | steps + 1, cs => do
    let (s, r) ← readRawText cs
    match whole? (readValue steps maxDepth s) with
    | none => throw .mistyped
    | some v =>
      match skipBlanks r with
      | '\x7d' :: r => return (v, r)
      | r => throw (.text (unexpected r))
termination_by structural steps => steps

/-- The items of an array up to its closing bracket; `first` before the first one. -/
def readItems : Nat → Nat → Bool → List Char → Except ReadFault (List Json × List Char)
  | 0, _, _, _ => .error (.text .malformed)
  | steps + 1, depth, first, cs =>
    match skipBlanks cs with
    | [] => .error (.text .truncated)
    | ']' :: r => .ok ([], r)
    | c :: r =>
      if first then do
        let (x, r) ← readValue steps depth (c :: r)
        let (xs, r) ← readItems steps depth false r
        return (x :: xs, r)
      else if c = ',' then
        match skipBlanks r with
        | ']' :: _ => .error (.text .malformed)
        | r => do
          let (x, r) ← readValue steps depth r
          let (xs, r) ← readItems steps depth false r
          return (x :: xs, r)
      else .error (.text .malformed)
termination_by structural steps => steps

/-- The fields of an object up to its closing bracket, in the order of the text. -/
def readFields : Nat → Nat → Bool → List Char → Except ReadFault (List (String × Json) × List Char)
  | 0, _, _, _ => .error (.text .malformed)
  | steps + 1, depth, first, cs =>
    match skipBlanks cs with
    | [] => .error (.text .truncated)
    | '\x7d' :: r => .ok ([], r)
    | c :: r =>
      if first then readField steps depth (c :: r)
      else if c = ',' then readField steps depth (skipBlanks r)
      else .error (.text .malformed)
termination_by structural steps => steps

/-- A field, and the fields after it. -/
def readField : Nat → Nat → List Char → Except ReadFault (List (String × Json) × List Char)
  | 0, _, _ => .error (.text .malformed)
  | steps + 1, depth, cs =>
    match cs with
    | '"' :: r => do
      let (key, r) ← (readString r).mapError .text
      match skipBlanks r with
      | ':' :: r => do
        let (x, r) ← readValue steps depth r
        let (xs, r) ← readFields steps depth false r
        return ((String.ofList key, x) :: xs, r)
      | r => throw (.text (unexpected r))
    | r => .error (.text (unexpected r))
termination_by structural steps => steps

end

/-- The value that a whole text spells. -/
def read (cs : List Char) : Except ReadFault Json := do
  let (v, rest) ← readValue (2 * cs.length + 2) maxDepth cs
  if (skipBlanks rest).isEmpty then return v else throw (.text .malformed)

/-- The value that fields which begin with `rawKey` stand for. -/
def rawValue? : Fields → Option Json
  | [(_, .string s)] => (read s.toList).toOption
  | _ => none

mutual

/-- A value that is taken as a whole out of another one: an object that begins with `rawKey` is what
it stands for. -/
def settle : Json → Option Json
  | .array items => (settleItems items).map .array
  | .object fields =>
    if beginsRaw fields then rawValue? fields else (settleFields fields).map .object
  | v => some v

/-- Every item of an array. -/
def settleItems : List Json → Option (List Json)
  | [] => some []
  | x :: xs => do return (← settle x) :: (← settleItems xs)

/-- Every field value of an object. -/
def settleFields : List (String × Json) → Option (List (String × Json))
  | [] => some []
  | (key, x) :: xs => do return (key, ← settle x) :: (← settleFields xs)

end

mutual

/-- A plain value is taken as it is. -/
theorem settle_of_plain : ∀ {v : Json}, v.Plain → settle v = some v
  | .null, _ | .bool _, _ | .number _, _ | .string _, _ => rfl
  | .array items, h => by rw [settle, settleItems_of_plain h, Option.map_some]
  | .object fields, h => by
    obtain ⟨hfirst, hfields⟩ := plain_object.1 h
    rw [settle, if_neg (by simp [hfirst]), settleFields_of_plain hfields, Option.map_some]

theorem settleItems_of_plain :
    ∀ {items : List Json}, PlainItems items → settleItems items = some items
  | [], _ => rfl
  | x :: items, h => by
    obtain ⟨hx, hitems⟩ := plainItems_cons.1 h
    rw [settleItems, settle_of_plain hx, settleItems_of_plain hitems]
    rfl

theorem settleFields_of_plain :
    ∀ {fields : List (String × Json)}, PlainFields fields → settleFields fields = some fields
  | [], _ => rfl
  | (key, x) :: fields, h => by
    obtain ⟨hx, hfields⟩ := plainFields_cons.1 h
    rw [settleFields, settle_of_plain hx, settleFields_of_plain hfields]
    rfl

end

example : (read "\x7b\"$serde_json::private::RawValue\": \"[1]\"\x7d".toList).toOption
    = some (.array [.int 1]) := by decide +kernel

end Json
end EventSourcing
