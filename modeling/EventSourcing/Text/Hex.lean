import EventSourcing.Text.Utf8

/-!
# Hexadecimal text

Two digits a byte, the high half first. Writing uses small letters; reading takes both cases.
Reading refuses an odd number of digits before it looks at any digit, and otherwise names the first
byte that is no digit and its position.
-/

namespace EventSourcing
namespace Hex

/-- Why a text is not hexadecimal. -/
inductive Fault where
  | oddLength
  | badDigit (byte : UInt8) (position : Nat)
  deriving DecidableEq, Repr

/-- The digit of a number below sixteen. -/
def digit (n : Nat) : Char := Char.ofNat (if n < 10 then 48 + n else 87 + n)

/-- The value of a digit. -/
def value? (b : UInt8) : Option Nat :=
  if 48 ≤ b && b ≤ 57 then some (b.toNat - 48)
  else if 97 ≤ b && b ≤ 102 then some (b.toNat - 87)
  else if 65 ≤ b && b ≤ 70 then some (b.toNat - 55)
  else none

/-- Two digits a byte. -/
def encode : Bytes → List Char
  | [] => []
  | b :: r => digit (b.toNat / 16) :: digit (b.toNat % 16) :: encode r

/-- Reads pairs of digits; `pos` digits have been read before. -/
def decodeFrom (pos : Nat) : Bytes → Except Fault Bytes
  | [] => .ok []
  | [_] => .error .oddLength
  | a :: b :: r =>
    match value? a, value? b with
    | none, _ => .error (.badDigit a pos)
    | some _, none => .error (.badDigit b (pos + 1))
    | some x, some y => do
      let bs ← decodeFrom (pos + 2) r
      return UInt8.ofNat (16 * x + y) :: bs

/-- The bytes that hexadecimal text spells. -/
def decode (text : Bytes) : Except Fault Bytes :=
  if text.length % 2 = 1 then .error .oddLength else decodeFrom 0 text

/-- How a byte that is no digit is shown: itself where it prints, an escape where it does not. -/
def shown (b : UInt8) : List Char :=
  if b = 0 then ['\\', '0']
  else if b = 9 then ['\\', 't']
  else if b = 10 then ['\\', 'n']
  else if b = 13 then ['\\', 'r']
  else if b = 39 then ['\\', '\'']
  else if b = 92 then ['\\', '\\']
  else if b < 32 || (127 ≤ b && b ≤ 160) || b = 173 then
    ['\\', 'u', '\x7b'] ++ Nat.toDigits 16 b.toNat ++ ['\x7d']
  else [Char.ofNat b.toNat]

def Fault.message : Fault → String
  | .oddLength => "Odd number of digits"
  | .badDigit b i =>
    "Invalid character '" ++ String.ofList (shown b) ++ "' at position " ++ toString i

theorem length_encode (bs : Bytes) : (encode bs).length = 2 * bs.length := by
  induction bs with
  | nil => rfl
  | cons b r ih => simp [encode, ih]; omega

end Hex
end EventSourcing
