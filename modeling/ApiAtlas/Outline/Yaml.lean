import ApiAtlas.Outline
import ApiAtlas.Outline.Scalar

/-!
# Outlines as YAML

Records are mappings with two more blanks a level; the items of a list stand at the level of the
record that holds it. Empty lists and records are closed brackets, and a variant is its content
behind a tag. A key that is long or has several lines is marked by a question mark.
-/
namespace ApiAtlas.Outline

open Yaml (blanks scalarChars isBreak isShortKey)

/-- End a line, unless a break ends it already. -/
def endLine (cs : List Char) : List Char :=
  if cs.getLast?.any isBreak then cs else cs ++ ['\n']

/-- What stands in the line of a leaf: a scalar or closed brackets. -/
def leafChars (indent : Nat) : Outline → List Char
  | null => "null".toList
  | flag value => (if value then "true" else "false").toList
  | count value => Decimal.digits value
  | text value => scalarChars indent value
  | list _ => ['[', ']']
  | record _ => ['\x7b', '\x7d']
  | variant _ _ => []

/-- A leaf in the rest of its line. -/
def leafLine (indent : Nat) (leaf : Outline) : List Char :=
  ' ' :: endLine (leafChars indent leaf)

mutual

/-- A value in the rest of its key's line and the lines below, in a record at a level. -/
def yamlValue (level : Nat) : Outline → List Char
  | list (item :: rest) => '\n' :: yamlItems level true (item :: rest)
  | record (member :: rest) => '\n' :: yamlMembers (level + 2) true (member :: rest)
  | variant name content => ' ' :: '!' :: name.toList ++ yamlValue level content
  | leaf => leafLine (level + 2) leaf

/-- A value in the rest of the line of its dash and the lines below, in a list at a level. -/
def yamlItem (level : Nat) : Outline → List Char
  | list (item :: rest) => ' ' :: yamlItems (level + 2) false (item :: rest)
  | record (member :: rest) => ' ' :: yamlMembers (level + 2) false (member :: rest)
  | variant name content => ' ' :: '!' :: name.toList ++ yamlValue level content
  | leaf => leafLine (level + 2) leaf

/-- The items of a list at a level; the first may have its line begun. -/
def yamlItems (level : Nat) (fresh : Bool) : List Outline → List Char
  | [] => []
  | item :: rest =>
      (if fresh then blanks level else []) ++ '-' :: yamlItem level item ++
        yamlItems level true rest

/-- The members of a record at a level; the first may have its line begun. -/
def yamlMembers (level : Nat) (fresh : Bool) : List (String × Outline) → List Char
  | [] => []
  | (name, value) :: rest =>
      (if fresh then blanks level else []) ++
        (if isShortKey name then scalarChars (level + 2) name ++ ':' :: yamlValue level value
        else '?' :: leafLine (level + 2) (text name) ++ blanks level ++ ':' :: yamlItem level value) ++
        yamlMembers level true rest

end

/-- An outline as a YAML document. -/
def toYaml : Outline → String
  | list (item :: rest) => String.ofList (yamlItems 0 true (item :: rest))
  | record (member :: rest) => String.ofList (yamlMembers 0 true (member :: rest))
  | variant name content => String.ofList ('!' :: name.toList ++ yamlValue 0 content)
  | leaf => String.ofList (endLine (leafChars 2 leaf))

end ApiAtlas.Outline
