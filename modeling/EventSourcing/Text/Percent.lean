import EventSourcing.Text.Hex

/-!
# Percent escapes

`%` and two hexadecimal digits stand for a byte. A percent sign that two digits do not follow stands
for itself, so every text can be read.
-/

namespace EventSourcing
namespace Percent

/-- The byte that two digits spell. -/
def byte? (a b : UInt8) : Option UInt8 := do
  let x ← Hex.value? a
  let y ← Hex.value? b
  return UInt8.ofNat (16 * x + y)

/-- The bytes that a text with escapes stands for. -/
def decode : Bytes → Bytes
  | [] => []
  | [a] => [a]
  | [a, b] => [a, b]
  | a :: b :: c :: r =>
    if a = 37 then
      match byte? b c with
      | some x => x :: decode r
      | none => a :: decode (b :: c :: r)
    else a :: decode (b :: c :: r)

example : decode [37, 52, 49, 37] = [65, 37] := by rfl

end Percent
end EventSourcing
