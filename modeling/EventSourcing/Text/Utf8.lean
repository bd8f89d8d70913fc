/-!
# UTF-8

`encode` writes a list of characters as bytes and `decode` reads them back. A refusal tells where
the text stops being valid: the length of the longest prefix that is whole characters, and how many
bytes after it can belong to no character. That second number is absent when the bytes merely end
inside a character, so that more bytes could still complete it.

The second byte of a character is checked against a range that depends on the first one, which rules
out overlong forms, surrogates and numbers above `0x10FFFF` before the later bytes are looked at.
-/

namespace EventSourcing

/-- A sequence of bytes. -/
abbrev Bytes := List UInt8

namespace Utf8

/-- Where a sequence of bytes stops being text. -/
structure Fault where
  validUpTo : Nat
  badLength : Option Nat
  deriving DecidableEq, Repr

def Fault.message (e : Fault) : String :=
  match e.badLength with
  | some n =>
    "invalid utf-8 sequence of " ++ toString n ++ " bytes from index " ++ toString e.validUpTo
  | none => "incomplete utf-8 byte sequence from index " ++ toString e.validUpTo

/-- The bytes of a text. -/
def encode (cs : List Char) : Bytes := cs.flatMap String.utf8EncodeChar

/-- The number of bytes of a text. -/
def size (cs : List Char) : Nat := cs.foldl (fun n c => n + c.utf8Size) 0

/-- Whether a byte continues a character. -/
def isTail (b : UInt8) : Bool := 0x80 ≤ b && b < 0xC0

/-- The six bits a continuing byte carries. -/
def tailBits (b : UInt8) : Nat := b.toNat % 64

/-- The bytes that may follow the first byte of a character of three bytes. -/
def second3 (a b : UInt8) : Bool :=
  if a = 0xE0 then 0xA0 ≤ b && b < 0xC0
  else if a = 0xED then 0x80 ≤ b && b < 0xA0
  else isTail b

/-- The bytes that may follow the first byte of a character of four bytes. -/
def second4 (a b : UInt8) : Bool :=
  if a = 0xF0 then 0x90 ≤ b && b < 0xC0
  else if a = 0xF4 then 0x80 ≤ b && b < 0x90
  else isTail b

/-- Reads characters; `pos` bytes have been read before. -/
def decodeFrom (pos : Nat) : Bytes → Except Fault (List Char)
  | [] => .ok []
  | a :: r =>
    if a < 0x80 then do
      let cs ← decodeFrom (pos + 1) r
      return Char.ofNat a.toNat :: cs
    else if 0xC2 ≤ a && a < 0xE0 then
      match r with
      | [] => .error ⟨pos, none⟩
      | b :: r =>
        if isTail b then do
          let cs ← decodeFrom (pos + 2) r
          return Char.ofNat (a.toNat % 32 * 64 + tailBits b) :: cs
        else .error ⟨pos, some 1⟩
    else if 0xE0 ≤ a && a < 0xF0 then
      match r with
      | [] => .error ⟨pos, none⟩
      | b :: r =>
        if second3 a b then
          match r with
          | [] => .error ⟨pos, none⟩
          | c :: r =>
            if isTail c then do
              let cs ← decodeFrom (pos + 3) r
              return Char.ofNat ((a.toNat % 16 * 64 + tailBits b) * 64 + tailBits c) :: cs
            else .error ⟨pos, some 2⟩
        else .error ⟨pos, some 1⟩
    else if 0xF0 ≤ a && a < 0xF5 then
      match r with
      | [] => .error ⟨pos, none⟩
      | b :: r =>
        if second4 a b then
          match r with
          | [] => .error ⟨pos, none⟩
          | c :: r =>
            if isTail c then
              match r with
              | [] => .error ⟨pos, none⟩
              | d :: r =>
                if isTail d then do
                  let cs ← decodeFrom (pos + 4) r
                  return Char.ofNat
                    (((a.toNat % 8 * 64 + tailBits b) * 64 + tailBits c) * 64 + tailBits d) :: cs
                else .error ⟨pos, some 3⟩
            else .error ⟨pos, some 2⟩
        else .error ⟨pos, some 1⟩
    else .error ⟨pos, some 1⟩

/-- The text that the bytes spell. -/
def decode (bs : Bytes) : Except Fault (List Char) := decodeFrom 0 bs

@[simp] theorem encode_nil : encode [] = [] := rfl

@[simp] theorem encode_cons (c : Char) (cs : List Char) :
    encode (c :: cs) = String.utf8EncodeChar c ++ encode cs := rfl

theorem encode_append (xs ys : List Char) : encode (xs ++ ys) = encode xs ++ encode ys := by
  simp [encode]

/-- The bytes of a string. -/
def ofString (s : String) : Bytes := encode s.toList

end Utf8

end EventSourcing
