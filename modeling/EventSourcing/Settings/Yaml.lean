import EventSourcing.Settings.Yaml.Node

/-!
# Settings written as YAML

A text of settings is at most one document, which is a mapping; a text without a document has no
entries. Keys are scalars, and a key stands once in its mapping. Aliases stand for values that were
given their names before; a name inside its own value stands for nothing.

A value that stands for nothing is as good as a missing one, but it is no key: where a key should
stand it is passed over, and its value is taken for the key.
-/

namespace EventSourcing
namespace Yaml

/-- What a value of a document comes to. -/
inductive Content where
  | nothing
  | scalar (value : Scalar)
  /-- A list or a table. -/
  | composite (value : Setting)
  deriving Repr, Inhabited

/-- The setting that a content stands for. -/
def Content.toSetting? : Content → Option Setting
  | .nothing => some .missing
  | .scalar s => s.toSetting?
  | .composite v => some v

/-- The values that were given names so far, the last one first. -/
abbrev Names := List (String × Content)

/-- Adds an entry, unless the key is there already. -/
def extended? (key : Scalar) (value : Setting) (entries : List (Scalar × Setting)) :
    Option (List (Scalar × Setting)) :=
  if entries.any (·.1 = key) then none else some (entries ++ [(key, value)])

/-- Entries with the names of their keys. -/
def namedEntries? (entries : List (Scalar × Setting)) : Option (List (String × Setting)) :=
  entries.mapM fun e => e.1.key?.map (·, e.2)

mutual

/-- What a value comes to. -/
def Node.content? (names : Names) : Node → Option (Content × Names)
  | .scalar none => some (.nothing, names)
  | .scalar (some s) => some (.scalar s, names)
  | .list items => (itemsOf? names items).map fun v => (.composite (.list v.1), v.2)
  | .mapping nodes =>
    match entriesOf? names .nothing [] nodes with
    | none => none
    | some (entries, names) =>
      (namedEntries? entries).map fun es => (.composite (.table es), names)
  | .named name n =>
    (n.content? ((name, .nothing) :: names)).map fun v => (v.1, (name, v.1) :: v.2)
  | .alias name => (names.lookup name).map (·, names)

/-- The items of a list as settings. -/
def itemsOf? (names : Names) : List Node → Option (List Setting × Names)
  | [] => some ([], names)
  | n :: ns =>
    match n.content? names with
    | none => none
    | some (c, names) =>
      match c.toSetting?, itemsOf? names ns with
      | some v, some (vs, names) => some (v :: vs, names)
      | _, _ => none

/-- The entries of a mapping; `key` is the key whose value comes next. -/
def entriesOf? (names : Names) (key : Content) (entries : List (Scalar × Setting)) :
    List Node → Option (List (Scalar × Setting) × Names)
  | [] => some (entries, names)
  | n :: ns =>
    match n.content? names with
    | none => none
    | some (c, names) =>
      match key with
      | .nothing => entriesOf? names c entries ns
      | .composite _ => none
      | .scalar k =>
        match c.toSetting?.bind (extended? k · entries) with
        | none => none
        | some entries => entriesOf? names .nothing entries ns

end

/-- The entries of a text of settings. -/
def read (cs : List Char) : Option (List (String × Setting)) :=
  match documentsOf cs with
  | some [] => some []
  | some [n] =>
    match n.content? [] with
    | some (.composite (.table entries), _) => some entries
    | _ => none
  | _ => none

end Yaml
end EventSourcing
