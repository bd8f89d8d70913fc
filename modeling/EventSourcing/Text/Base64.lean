import EventSourcing.Text.Utf8

/-!
# Base64 text

Three bytes become four symbols of the standard alphabet; one or two bytes at the end become two or
three symbols and are padded to four with `=`. Reading requires that padding and refuses symbols
whose unused bits are set, so every sequence of bytes has one text.

A refusal names the first offence in this order: a stray byte after the last whole group of four, a
symbol outside the alphabet (`=` counts as one before the last group, or as one of its first two), a
single symbol in the last group, missing padding, and set bits that no byte receives.
-/

namespace EventSourcing
namespace Base64

/-- Why a text is not base64. -/
inductive Fault where
  | badSymbol (byte : UInt8) (offset : Nat)
  | badLastSymbol (byte : UInt8) (offset : Nat)
  | badPadding
  | badLength (length : Nat)
  deriving DecidableEq, Repr

def Fault.message : Fault → String
  | .badSymbol b i => "Invalid symbol " ++ toString b.toNat ++ ", offset " ++ toString i ++ "."
  | .badLastSymbol b i =>
    "Invalid last symbol " ++ toString b.toNat ++ ", offset " ++ toString i ++ "."
  | .badPadding => "Invalid padding"
  | .badLength n => "Invalid input length: " ++ toString n

/-- The padding byte, `=`. -/
def pad : UInt8 := 61

/-- The symbol of a number below 64. -/
def symbol (n : Nat) : UInt8 :=
  UInt8.ofNat
    (if n < 26 then 65 + n else if n < 52 then 71 + n else if n < 62 then n - 4
     else if n = 62 then 43 else 47)

/-- The number of a symbol. -/
def value? (b : UInt8) : Option Nat :=
  if 65 ≤ b && b ≤ 90 then some (b.toNat - 65)
  else if 97 ≤ b && b ≤ 122 then some (b.toNat - 71)
  else if 48 ≤ b && b ≤ 57 then some (b.toNat + 4)
  else if b = 43 then some 62
  else if b = 47 then some 63
  else none

/-- The symbols of a sequence of bytes, as ASCII bytes. -/
def encode : Bytes → Bytes
  | [] => []
  | [a] => [symbol (a.toNat / 4), symbol (a.toNat % 4 * 16), pad, pad]
  | [a, b] =>
    [symbol (a.toNat / 4), symbol (a.toNat % 4 * 16 + b.toNat / 16), symbol (b.toNat % 16 * 4), pad]
  | a :: b :: c :: r =>
    symbol (a.toNat / 4) :: symbol (a.toNat % 4 * 16 + b.toNat / 16) ::
      symbol (b.toNat % 16 * 4 + c.toNat / 64) :: symbol (c.toNat % 64) :: encode r

/-- The numbers of symbols of which none may be padding; `pos` symbols have been read before. -/
def values (pos : Nat) : Bytes → Except Fault (List Nat)
  | [] => .ok []
  | b :: r =>
    match value? b with
    | none => .error (.badSymbol b pos)
    | some v => do
      let vs ← values (pos + 1) r
      return v :: vs

/-- The bytes of whole groups of four numbers. -/
def groups : List Nat → Bytes
  | a :: b :: c :: d :: r =>
    UInt8.ofNat (a * 4 + b / 16) :: UInt8.ofNat (b % 16 * 16 + c / 4) ::
      UInt8.ofNat (c % 4 * 64 + d) :: groups r
  | _ => []

/-- The symbols of the last group before its padding, and the length of the padding. An `=` among
the first two symbols, and any `=` that a symbol follows, is an offence. -/
def lastGroup (pos : Nat) (text : Bytes) : Except Fault (List Nat × Nat) :=
  let symbols := text.takeWhile (· ≠ pad)
  let padding := (text.drop symbols.length).takeWhile (· = pad)
  match values pos symbols with
  | .error e => .error e
  | .ok vs =>
    if symbols.length < text.length ∧
        (symbols.length < 2 ∨ symbols.length + padding.length < text.length) then
      .error (.badSymbol pad (pos + symbols.length))
    else .ok (vs, padding.length)

/-- The bytes of the last group, `last` being its last symbol. -/
def finish (pos : Nat) (last : UInt8) : List Nat → Nat → Except Fault Bytes
  | [a, b, c, d], 0 => .ok (groups [a, b, c, d])
  | [a, b, c], 1 =>
    if c % 4 = 0 then .ok [UInt8.ofNat (a * 4 + b / 16), UInt8.ofNat (b % 16 * 16 + c / 4)]
    else .error (.badLastSymbol last (pos + 2))
  | [a, b], 2 =>
    if b % 16 = 0 then .ok [UInt8.ofNat (a * 4 + b / 16)]
    else .error (.badLastSymbol last (pos + 1))
  | [], _ => .error (.badLength pos)
  | [_], _ => .error (.badLength (pos + 1))
  | _, _ => .error .badPadding

/-- The bytes that base64 text spells. -/
def decode (text : Bytes) : Except Fault Bytes :=
  let rest := text.length % 4
  let last := text.getLastD 0
  if text = [] then .ok []
  else if rest = 1 ∧ last ≠ pad ∧ (value? last).isNone then
    .error (.badSymbol last (text.length - 1))
  else do
    let whole := text.length - rest - (if rest = 0 then 4 else 0)
    let front ← values 0 (text.take whole)
    let (vs, padding) ← lastGroup whole (text.drop whole)
    let back ← finish whole ((text.drop whole).getD (vs.length - 1) 0) vs padding
    return groups front ++ back

example : decode (Utf8.ofString "bnVsbB==") = .error (.badLastSymbol 66 5) := by rfl

example : decode (Utf8.ofString "ab") = .error .badPadding := by rfl

example : decode (Utf8.ofString "abcd=") = .error (.badSymbol 61 4) := by rfl

end Base64
end EventSourcing
