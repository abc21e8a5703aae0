import ApiAtlas.Wire
import ApiAtlas.Outline

/-!
# Identities in records

An identity is written as a record of its module, its parent if it has one, its name, its
arguments, and its style unless that is dotted. A record without a module is read as well: its
name is then a whole type name, whose arguments give way to those of the record, if it lists any.
-/
namespace ApiAtlas

namespace PathStyle

def outline : PathStyle → Outline
  | dotted => .text "dotted"
  | coloned => .text "rust"

def ofName : String → Except Wire.Fault PathStyle
  | "dotted" => .ok dotted
  | "rust" => .ok coloned
  | _ => .error .shape

def ofJson : Wire.Reader PathStyle
  | .string name => ofName name
  | .object [(name, .null)] => ofName name
  | _ => .error .shape

end PathStyle

namespace Identity

mutual

def outline : Identity → Outline
  | ⟨module, parent, name, parameters, style⟩ =>
      .record ([("module", .text module)] ++ parentMember parent ++
        [("name", .text name), ("generic_parameters", .list (parameterOutlines parameters))] ++
        (if style = .dotted then [] else [("path_style", style.outline)]))

def parentMember : Option Identity → List (String × Outline)
  | none => []
  | some parent => [("parent", outline parent)]

def parameterOutlines : List Parameter → List Outline
  | [] => []
  | parameter :: rest => parameterOutline parameter :: parameterOutlines rest

/-- A written argument: a variant that tells its kind. -/
def parameterOutline : Parameter → Outline
  | .type identity => .variant "type" (outline identity)
  | .literal label value valueType =>
      .variant "integer_literal" (.record [("name", .text? label),
        ("value", .count value.toNat), ("value_type", outline valueType)])

end

def toJson (t : Identity) : Json := t.outline.toJson

/-- The fields of an identity, in their order. -/
def fieldNames : List String := ["module", "parent", "name", "generic_parameters", "path_style"]

/-- The fields of a number among arguments, in their order. -/
def literalFieldNames : List String := ["name", "value", "value_type"]

/-- A record without a module holds a whole type name. -/
def ofWholeName (name : String) (parameters : List Parameter) : Except Wire.Fault Identity :=
  match parse name with
  | .error cause => .error (.typeName cause)
  | .ok t => .ok (if parameters.isEmpty then t else { t with parameters })

/-- A number among arguments, given the reader of the types inside it. -/
def readLiteral (read : Wire.Reader Identity) : Wire.Reader Parameter := fun value => do
  let fields ← Wire.Fields.of literalFieldNames 3 value
  let label := fields.get? "name" (Wire.nullable Wire.text)
  let number := fields.get? "value" Wire.word
  let valueType := fields.get? "value_type" read
  fields.check (Wire.Fields.faultOf "name" label ++ Wire.Fields.faultOf "value" number ++
    Wire.Fields.faultOf "value_type" valueType)
  return .literal (← label).join (← Wire.required number) (← Wire.required valueType)

/-- An argument is an object with one member, which tells its kind. -/
def readParameter (read : Wire.Reader Identity) : Wire.Reader Parameter
  | .object [(kind, value)] =>
      if kind = "type" then (read value).map .type
      else if kind = "integer_literal" then readLiteral read value
      else .error .shape
  | _ => .error .shape

/-- An identity, given the reader of the identities inside it. -/
def readWith (read : Wire.Reader Identity) : Wire.Reader Identity := fun value => do
  let fields ← Wire.Fields.of fieldNames 3 value
  let module := fields.get? "module" (Wire.nullable Wire.text)
  let parent := fields.get? "parent" (Wire.nullable read)
  let name := fields.get? "name" Wire.text
  let parameters := fields.get? "generic_parameters" (Wire.listOf (readParameter read))
  let style := fields.get? "path_style" PathStyle.ofJson
  fields.check (Wire.Fields.faultOf "module" module ++ Wire.Fields.faultOf "parent" parent ++
    Wire.Fields.faultOf "name" name ++ Wire.Fields.faultOf "generic_parameters" parameters ++
    Wire.Fields.faultOf "path_style" style)
  let name ← Wire.required name
  let parameters ← Wire.withDefault [] parameters
  match (← module).join with
  | some module =>
      return ⟨module, (← parent).join, name, parameters, ← Wire.withDefault .dotted style⟩
  | none => ofWholeName name parameters

def readWithin : Nat → Wire.Reader Identity
  | 0 => fun _ => .error .shape
  | depth + 1 => readWith (readWithin depth)

def ofJson : Wire.Reader Identity := fun value => readWithin value.depth value

end Identity
end ApiAtlas
