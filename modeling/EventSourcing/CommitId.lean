import EventSourcing.Text.Hex

/-!
# Commit ids

A commit id is sixteen bytes that the writer chooses. It is written as 32 small hexadecimal digits,
in stores and messages without dashes and elsewhere with dashes after 8, 12, 16 and 20 digits.
-/

namespace EventSourcing

/-- Sixteen bytes. -/
structure CommitId where
  bytes : Bytes
  length_eq : bytes.length = 16
  deriving DecidableEq

namespace CommitId

/-- The id of sixteen bytes. -/
def ofBytes? (bs : Bytes) : Option CommitId :=
  if h : bs.length = 16 then some ⟨bs, h⟩ else none

/-- The 32 digits of an id. -/
def digits (id : CommitId) : String := String.ofList (Hex.encode id.bytes)

/-- The digits of an id with its four dashes. -/
def text (id : CommitId) : String :=
  let cs := Hex.encode id.bytes
  String.ofList (cs.take 8 ++ '-' :: (cs.drop 8).take 4 ++ '-' :: (cs.drop 12).take 4
    ++ '-' :: (cs.drop 16).take 4 ++ '-' :: cs.drop 20)

/-- The id that a text of digits of either case spells, whatever its dashes. -/
def ofText? (s : String) : Option CommitId :=
  match Hex.decode (Utf8.encode (s.toList.filter (· ≠ '-'))) with
  | .ok bs => ofBytes? bs
  | .error _ => none

instance : Inhabited CommitId := ⟨⟨List.replicate 16 0, rfl⟩⟩

instance : Repr CommitId := ⟨fun id _ => id.text⟩

@[ext] theorem ext {a b : CommitId} (h : a.bytes = b.bytes) : a = b := by
  cases a; cases b; simp_all

theorem ofBytes?_bytes (id : CommitId) : ofBytes? id.bytes = some id := by
  simp [ofBytes?, id.length_eq]

end CommitId
end EventSourcing
