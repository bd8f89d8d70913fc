import EventSourcing.Commit
import EventSourcing.Fault

/-!
# Upconversion

Stored events keep the kind they were written with. A converter turns the data of one kind into
data of another; an upconverter follows converters from kind to kind until none applies. `build`
accepts a list of converters if no kind has two and no chain returns to a kind it came through; with
`n` converters a chain then has at most `n` steps, which is the bound that `convertPayload` uses.

A cycle is found by walking on from each kind in turn. Kinds that an earlier walk came through are
cleared, so no kind is walked through twice.
-/

namespace EventSourcing

/-- A conversion of the data of one kind into data of another. -/
structure Converter where
  source : String
  target : String
  convert : Json → Except ConversionFault Json

/-- Converters that `Upconverter.build` has accepted. -/
structure Upconverter where
  converters : List Converter

/-- The first converter whose kind an earlier one has, by its kind; `known` are the kinds so far. -/
def repeatedSource (known : List String) : List Converter → Option String
  | [] => none
  | c :: cs => if c.source ∈ known then some c.source else repeatedSource (c.source :: known) cs

/-- The converter of a kind. -/
def converterOf (converters : List Converter) (kind : String) : Option Converter :=
  converters.find? (·.source = kind)

/-- Walks on from a kind. `path` holds the kinds of this walk, first one first. The answer is the
walk with the kind that it came to twice at its end, or the kinds of a walk that ended. -/
def walk (converters : List Converter) (cleared : List String) :
    Nat → List String → String → Except (List String) (List String)
  | 0, path, _ => .ok path
  | steps + 1, path, kind =>
    match converterOf converters kind with
    | none => .ok path
    | some c =>
      if kind ∈ cleared then .ok path
      else if kind ∈ path then .error (path ++ [kind])
      else walk converters cleared steps (path ++ [kind]) c.target

/-- The first walk that comes to a kind twice, starting from the given kinds in turn. -/
def findCycle (converters : List Converter) (cleared : List String) :
    List String → Option (List String)
  | [] => none
  | start :: rest =>
    match walk converters cleared (converters.length + 1) [] start with
    | .error cycle => some cycle
    | .ok path => findCycle converters (cleared ++ path) rest

namespace Upconverter

/-- Accepts converters of which no two have one kind and which form no cycle. -/
def build (converters : List Converter) : Except ConversionFault Upconverter :=
  match repeatedSource [] converters with
  | some kind => .error (.multipleConverters kind)
  | none =>
    match findCycle converters [] (converters.map (·.source)) with
    | some kinds => .error (.cycle kinds)
    | none => .ok ⟨converters⟩

/-- The number of converters. -/
def size (u : Upconverter) : Nat := u.converters.length

/-- Whether a payload of a kind would be converted. -/
def converts (u : Upconverter) (kind : String) : Bool := (converterOf u.converters kind).isSome

/-- Applies converters until none applies, at most so many times. -/
def convertWithin (u : Upconverter) : Nat → Payload → Except ConversionFault Payload
  | 0, p => .ok p
  | steps + 1, p =>
    match converterOf u.converters p.kind with
    | none => .ok p
    | some c =>
      match c.convert p.data with
      | .error e => .error e
      | .ok data => convertWithin u steps ⟨c.target, data⟩

/-- A payload of the kind at the end of its chain. -/
def convertPayload (u : Upconverter) (p : Payload) : Except ConversionFault Payload :=
  u.convertWithin u.size p

/-- An event with its payload converted. -/
def convertEvent (u : Upconverter) (e : Event) : Except ConversionFault Event :=
  if u.converts e.body.kind then
    match u.convertPayload e.body with
    | .error f => .error f
    | .ok body => .ok { e with body := body }
  else .ok e

/-- All events converted, in order; the first refusal ends it. -/
def convertEvents (u : Upconverter) : List Event → Except ConversionFault (List Event)
  | [] => .ok []
  | e :: es =>
    match u.convertEvent e with
    | .error f => .error f
    | .ok e =>
      match u.convertEvents es with
      | .error f => .error f
      | .ok es => .ok (e :: es)

/-- A commit with its events converted and everything else as it was. -/
def upconvert (u : Upconverter) (c : Commit) : Except ConversionFault Commit :=
  match u.convertEvents c.events with
  | .error f => .error f
  | .ok events => .ok { c with events := events }

end Upconverter

/-- The kinds on the cycle at the end of a walk, starting with the least one. -/
def cycleKinds (kinds : List String) : List String :=
  match kinds.getLast? with
  | none => []
  | some again =>
    let cycle := (kinds.dropLast).dropWhile (· ≠ again)
    let least := cycle.foldl (fun m k => if k < m then k else m) again
    cycle.dropWhile (· ≠ least) ++ cycle.takeWhile (· ≠ least)

example : cycleKinds ["a", "d", "c", "b", "d"] = ["b", "d", "c"] := by decide

end EventSourcing
