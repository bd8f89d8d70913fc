import EventSourcing.Text.Utf8

/-!
# Addresses of remote stores

An address names the host of a remote store, and may say with `http://` or `https://` how to talk to
it; without either `http://` is meant. What follows up to the first `/`, `?` or `#` is the
authority: a host, perhaps a name and `@` before it, a colon and a number after it. It uses the
characters that addresses may hold, at most one colon outside brackets (eight within, for a numeric
host), one pair of brackets and no percent sign in the host. A path and a query may follow; they are
checked, though nothing uses them.
-/

namespace EventSourcing

/-- Why a text is not an address. -/
inductive AddressFault where
  | tooLong
  | empty
  | badCharacter
  | badAuthority
  | noAuthority
  deriving DecidableEq, Repr

def AddressFault.message : AddressFault → String
  | .tooLong => "uri too long"
  | .empty => "empty string"
  | .badCharacter => "invalid uri character"
  | .badAuthority => "invalid authority"
  | .noAuthority => "invalid format"

/-- Where a remote store is. -/
structure Address where
  secure : Bool
  authority : String
  deriving DecidableEq, Repr

namespace Address

/-- What has been read of an authority. -/
structure Scan where
  /-- The colons that may stand before the number. -/
  colons : Nat := 0
  bracketOpened : Bool := false
  bracketClosed : Bool := false
  /-- Whether the host has a percent sign so far. -/
  percent : Bool := false
  /-- Whether the last character was `@`. -/
  atSign : Bool := false
  deriving DecidableEq, Repr

/-- The characters without a meaning of their own in an authority. -/
def isPlain (c : Char) : Bool :=
  c.isAlphanum || c ∈ ['!', '$', '&', '\'', '(', ')', '*', '+', ',', '-', '.', ';', '=', '_', '~']

/-- Reads one character of an authority. Colons before `@` or `]` do not count. -/
def Scan.next (s : Scan) (c : Char) : Except AddressFault Scan :=
  let s := { s with atSign := false }
  if c = ':' then
    if 8 ≤ s.colons then .error .badAuthority else .ok { s with colons := s.colons + 1 }
  else if c = '[' then
    if s.percent || s.bracketOpened then .error .badAuthority
    else .ok { s with bracketOpened := true }
  else if c = ']' then
    if !s.bracketOpened || s.bracketClosed then .error .badAuthority
    else .ok { s with bracketClosed := true, colons := 0, percent := false }
  else if c = '@' then .ok { s with colons := 0, percent := false, atSign := true }
  else if c = '%' then .ok { s with percent := true }
  else if isPlain c then .ok s
  else .error .badCharacter

/-- Whether an authority may end here. -/
def Scan.complete (s : Scan) : Bool :=
  s.bracketOpened = s.bracketClosed && s.colons ≤ 1 && !s.atSign && !s.percent

/-- Checks an authority. -/
def checkAuthority (cs : List Char) : Except AddressFault Unit := do
  let s ← cs.foldlM Scan.next {}
  if s.complete then return () else throw .badAuthority

/-- Whether a character may stand in a path. -/
def inPath (c : Char) : Bool := 0x20 < c.toNat && c ∉ ['<', '>', '\x60', '\x7f']

/-- Whether a character may stand in a query. -/
def inQuery (c : Char) : Bool := 0x20 < c.toNat && c ∉ ['"', '<', '>', '\x7f']

/-- Checks a path, and the query after it; a fragment may hold anything. -/
def checkPath (cs : List Char) : Except AddressFault Unit :=
  let isPath (c : Char) : Bool := c ≠ '?' && c ≠ '#'
  let path := cs.takeWhile isPath
  let query :=
    match cs.dropWhile isPath with
    | '?' :: rest => rest.takeWhile (· ≠ '#')
    | _ => []
  if path.all inPath && query.all inQuery then .ok () else .error .badCharacter

/-- Whether a character ends an authority. -/
def endsAuthority (c : Char) : Bool := c = '/' || c = '?' || c = '#'

/-- The greatest size of an address in bytes, with its scheme. -/
def maxSize : Nat := 65534

/-- The scheme of an address, and what follows it. -/
def splitScheme : List Char → Bool × List Char
  | 'h' :: 't' :: 't' :: 'p' :: ':' :: '/' :: '/' :: rest => (false, rest)
  | 'h' :: 't' :: 't' :: 'p' :: 's' :: ':' :: '/' :: '/' :: rest => (true, rest)
  | cs => (false, cs)

/-- The address that characters spell. -/
def ofChars (cs : List Char) : Except AddressFault Address := do
  let (secure, rest) := splitScheme cs
  if maxSize < Utf8.size rest + (if secure then 8 else 7) then throw .tooLong
  if rest.isEmpty then throw .empty
  let authority := rest.takeWhile fun c => !endsAuthority c
  checkAuthority authority
  if authority.isEmpty then throw .noAuthority
  checkPath (rest.drop authority.length)
  return ⟨secure, String.ofList authority⟩

/-- The address that a text spells. -/
def ofString (s : String) : Except AddressFault Address := ofChars s.toList

example : ofChars ['a', ':', '1'] = .ok ⟨false, "a:1"⟩ := by rfl

example : ofChars ['[', ':', ':', '1'] = .error .badAuthority := by rfl

example : ofChars ['a', ':', '1', '/', 'b', ' '] = .error .badCharacter := by rfl

end Address
end EventSourcing
