import EventSourcing.Settings.Yaml.Tokens

/-!
# Values of documents

The tokens of a text are put together to documents: scalars, lists and mappings, named values and
aliases. A mapping holds its keys and values in turn, as they stand; that keys are scalars and that
each stands once is asked only when a document is taken for settings. A key or a value that is left
out is null, unless it has a name or a tag: then it is an empty scalar.
-/

namespace EventSourcing
namespace Yaml

/-- A value of a document. -/
inductive Node where
  /-- A scalar, nothing if it is not of the type that its tag asks for. -/
  | scalar (value : Option Scalar)
  | list (items : List Node)
  /-- Keys and values in turn. -/
  | mapping (nodes : List Node)
  /-- A value that is given a name. -/
  | named (name : String) (value : Node)
  /-- The value that was given the name before. -/
  | alias (name : String)
  deriving Repr, Inhabited

def Node.null : Node := .scalar (some .null)

/-- What handles of tags stand for. -/
abbrev TagStarts := List (String × String)

/-- What tags of basic types start with. -/
def basicTags : String := "tag:yaml.org,2002:"

/-- What stands before a value. -/
structure Properties where
  name : Option String := none
  tag : Option (String × String) := none
  deriving DecidableEq, Repr

namespace Properties

/-- Whether anything stands before a value. -/
def any (p : Properties) : Bool := p.name.isSome || p.tag.isSome

/-- A value with its name. -/
def apply (p : Properties) (n : Node) : Node :=
  match p.name with
  | none => n
  | some name => .named name n

/-- A scalar with its tag. Only plain scalars are more than text. -/
def scalar (p : Properties) (plain : Bool) (cs : List Char) : Node :=
  p.apply <| .scalar <|
    if !plain then some (.text (String.ofList cs))
    else
      match p.tag with
      | none => some (.ofPlain cs)
      | some (start, suffix) =>
        if start = basicTags then Scalar.ofBasic? suffix cs else some (.text (String.ofList cs))

end Properties

/-- What a tag stands for; a handle with a name must be known. -/
def resolveTag (tags : TagStarts) (handle suffix : String) : Option (String × String) :=
  match tags.lookup handle with
  | some start => some (start, suffix)
  | none =>
    if handle = "!!" then some (basicTags, suffix)
    else if isNamedHandle handle.toList then none
    else some (handle, suffix)

/-- Takes a name and a tag, in either order. -/
def readProperties (tags : TagStarts) : List Token → Option (Properties × List Token)
  | .anchor name :: .tag handle suffix :: r =>
    (resolveTag tags handle suffix).map fun t => (⟨some name, some t⟩, r)
  | .anchor name :: r => some (⟨some name, none⟩, r)
  | .tag handle suffix :: .anchor name :: r =>
    (resolveTag tags handle suffix).map fun t => (⟨some name, some t⟩, r)
  | .tag handle suffix :: r => (resolveTag tags handle suffix).map fun t => (⟨none, some t⟩, r)
  | ts => some ({}, ts)

/-- Whether the next token is one of several. -/
def nextIs (several : List Token) (ts : List Token) : Bool := ts.head?.any several.contains

/-- Where a value may stand: in flow form, in block form, or as the value of an entry in block
form, where a list needs no column of its own. -/
inductive Place where
  | flow
  | block
  | entry
  deriving DecidableEq, Repr

mutual

/-- Puts a value together. -/
def readNode : Nat → TagStarts → Place → List Token → Option (Node × List Token)
  | 0, _, _, _ => none
  | steps + 1, tags, place, ts =>
    match ts with
    | .alias name :: r => some (.alias name, r)
    | _ =>
      match readProperties tags ts with
      | none => none
      | some (p, ts) => readContent steps tags place p ts
termination_by structural steps => steps

/-- Puts a value together that has certain properties. -/
def readContent : Nat → TagStarts → Place → Properties → List Token → Option (Node × List Token)
  | 0, _, _, _, _ => none
  | steps + 1, tags, place, p, ts =>
    let empty := if p.any then some (p.scalar true [], ts) else none
    let named (v : Node × List Token) : Node × List Token := (p.apply v.1, v.2)
    match ts with
    | .scalar plain text :: r => some (p.scalar plain text, r)
    | .flowList :: r => (readFlowItems steps tags [] true r).map named
    | .flowMapping :: r => (readFlowEntries steps tags [] true r).map named
    | .blockEntry :: r =>
      if place = .entry then (readEntryItems steps tags [] (.blockEntry :: r)).map named else empty
    | .blockList :: r => if place = .flow then empty else (readItems steps tags [] r).map named
    | .blockMapping :: r => if place = .flow then empty else (readEntries steps tags [] r).map named
    | _ => empty
termination_by structural steps => steps

/-- Puts a value together, null if one of several tokens comes next. -/
def readOptional : Nat → TagStarts → Place → List Token → List Token → Option (Node × List Token)
  | 0, _, _, _, _ => none
  | steps + 1, tags, place, ends, ts =>
    if nextIs ends ts then some (.null, ts) else readNode steps tags place ts
termination_by structural steps => steps

/-- Puts the items of a list in block form together. -/
def readItems : Nat → TagStarts → List Node → List Token → Option (Node × List Token)
  | 0, _, _, _ => none
  | steps + 1, tags, acc, ts =>
    match ts with
    | .blockEnd :: r => some (.list acc, r)
    | .blockEntry :: r =>
      match readOptional steps tags .block [.blockEntry, .blockEnd] r with
      | none => none
      | some (n, r) => readItems steps tags (acc ++ [n]) r
    | _ => none
termination_by structural steps => steps

/-- Puts the items of a list together that has no column of its own. -/
def readEntryItems : Nat → TagStarts → List Node → List Token → Option (Node × List Token)
  | 0, _, _, _ => none
  | steps + 1, tags, acc, ts =>
    match ts with
    | .blockEntry :: r =>
      match readOptional steps tags .block [.blockEntry, .key, .value, .blockEnd] r with
      | none => none
      | some (n, r) => readEntryItems steps tags (acc ++ [n]) r
    | _ => some (.list acc, ts)
termination_by structural steps => steps

/-- Puts the entries of a mapping in block form together. -/
def readEntries : Nat → TagStarts → List Node → List Token → Option (Node × List Token)
  | 0, _, _, _ => none
  | steps + 1, tags, acc, ts =>
    let ends := [.key, .value, .blockEnd]
    let key? :=
      match ts with
      | .key :: r => readOptional steps tags .entry ends r
      | .value :: _ => some (.null, ts)
      | _ => none
    match ts, key? with
    | .blockEnd :: r, _ => some (.mapping acc, r)
    | _, none => none
    | _, some (key, ts) =>
      let value? :=
        match ts with
        | .value :: r => readOptional steps tags .entry ends r
        | _ => some (.null, ts)
      match value? with
      | none => none
      | some (value, ts) => readEntries steps tags (acc ++ [key, value]) ts
termination_by structural steps => steps

/-- Puts the items of a list in flow form together. -/
def readFlowItems : Nat → TagStarts → List Node → Bool → List Token → Option (Node × List Token)
  | 0, _, _, _, _ => none
  | steps + 1, tags, acc, first, ts =>
    let item (ts : List Token) :=
      match ts with
      | .flowListEnd :: r => some (.list acc, r)
      | .key :: r =>
        match readFlowPair steps tags r with
        | none => none
        | some (n, r) => readFlowItems steps tags (acc ++ [n]) false r
      | _ =>
        match readNode steps tags .flow ts with
        | none => none
        | some (n, r) => readFlowItems steps tags (acc ++ [n]) false r
    match ts with
    | .flowListEnd :: r => some (.list acc, r)
    | .flowEntry :: r => if first then item ts else item r
    | _ => if first then item ts else none
termination_by structural steps => steps

/-- Puts the only entry of a mapping together that is an item of a list and has no braces. What
takes the place of its key is passed. -/
def readFlowPair : Nat → TagStarts → List Token → Option (Node × List Token)
  | 0, _, _ => none
  | steps + 1, tags, ts =>
    let key? :=
      if nextIs [.value, .flowEntry, .flowListEnd] ts then some (.null, ts.drop 1)
      else readNode steps tags .flow ts
    match key? with
    | none => none
    | some (key, ts) =>
      let value? :=
        match ts with
        | .value :: r => readOptional steps tags .flow [.flowEntry, .flowListEnd] r
        | _ => some (.null, ts)
      value?.map fun v => (.mapping [key, v.1], v.2)
termination_by structural steps => steps

/-- Puts the entries of a mapping in flow form together. -/
def readFlowEntries : Nat → TagStarts → List Node → Bool → List Token → Option (Node × List Token)
  | 0, _, _, _, _ => none
  | steps + 1, tags, acc, first, ts =>
    let value (ts : List Token) :=
      match ts with
      | .value :: r => readOptional steps tags .flow [.flowEntry, .flowMappingEnd] r
      | _ => some (.null, ts)
    let go (key : Node) (v : Node × List Token) :=
      readFlowEntries steps tags (acc ++ [key, v.1]) false v.2
    let entry (ts : List Token) :=
      match ts with
      | .flowMappingEnd :: r => some (.mapping acc, r)
      | .key :: r =>
        (readOptional steps tags .flow [.value, .flowEntry, .flowMappingEnd] r).bind fun k =>
          (value k.2).bind (go k.1)
      | .value :: _ => (value ts).bind (go .null)
      | _ => (readNode steps tags .flow ts).bind fun k => go k.1 (.null, k.2)
    match ts with
    | .flowMappingEnd :: r => some (.mapping acc, r)
    | .flowEntry :: r => if first then entry ts else entry r
    | _ => if first then entry ts else none
termination_by structural steps => steps

end

/-- Takes the directives before a document. Of several the last one counts, and there is at most one
about the version. -/
def readDirectives (versioned : Bool) (tags : TagStarts) :
    List Token → Option (TagStarts × List Token)
  | .versionDirective :: r => if versioned then none else readDirectives true [] r
  | .tagDirective handle start :: r => readDirectives versioned [(handle, start)] r
  | ts => some (tags, ts)

/-- Whether a token is a directive. -/
def isDirective : Token → Bool
  | .versionDirective | .tagDirective .. => true
  | _ => false

/-- Whether a token is none of a document. -/
def endsDocument : Token → Bool
  | .documentStart | .documentEnd | .streamEnd => true
  | t => isDirective t

/-- Takes a document. Only the first one, and one after an end, needs no begin. -/
def readDocument (bare : Bool) (ts : List Token) : Option (Node × List Token) :=
  let steps := 4 * ts.length + 8
  if ts.head?.any fun t => isDirective t || t = .documentStart then
    match readDirectives false [] ts with
    | some (tags, .documentStart :: r) =>
      if r.head?.any endsDocument then some (.null, r) else readNode steps tags .block r
    | _ => none
  else if bare then readNode steps [] .block ts
  else none

/-- Takes documents up to the end of a text; `bare` tells whether the next one needs no begin. -/
def readDocuments : Nat → Bool → List Token → Option (List Node)
  | 0, _, _ => none
  | steps + 1, bare, ts =>
    match ts.dropWhile (· = .documentEnd) with
    | [.streamEnd] => some []
    | ts =>
      match readDocument bare ts with
      | none => none
      | some (n, .documentEnd :: r) => (readDocuments steps true r).map (n :: ·)
      | some (n, r) =>
        if r.head?.any isDirective then none else (readDocuments steps false r).map (n :: ·)

/-- The documents of a text. -/
def documentsOf (cs : List Char) : Option (List Node) :=
  (tokensOf cs).bind fun ts => readDocuments (ts.length + 1) true ts

end Yaml
end EventSourcing
