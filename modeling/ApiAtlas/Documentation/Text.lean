import ApiAtlas.Documentation

/-!
# Documentation as text

The plain text of the documentation. Fields and cases stand on lines of their own, three blanks
in. An object lists its fields by name, whatever their order; a body on its own keeps theirs.
-/
namespace ApiAtlas

/-- What stands in front of a field or a case. -/
def lineFront : String := "   "

/-- Lines in braces, after a title. -/
def block (title : String) (lines : List String) : String :=
  title ++ " \x7b\n" ++ String.join (lines.map fun line => lineFront ++ line ++ "\n") ++ "\x7d"

namespace Field

def text (field : Field) : String :=
  field.name ++ ": " ++ field.type.defaultName ++ if field.isOptional then "?" else ""

end Field

namespace EnumCase

def text (case : EnumCase) : String :=
  match case.name with
  | some name => name ++ ": " ++ case.value
  | none => case.value

/-- The text of a case in a list. -/
def line (case : EnumCase) : String := "- " ++ case.text

end EnumCase

namespace Body

def text : Body → String
  | empty => "Empty"
  | fields [] => "Fields (empty)"
  | cases [] => "Cases (empty)"
  | fields list => block "Fields" (list.map Field.text)
  | cases list => block "Cases" (list.map EnumCase.line)

/-- The lines that an object shows of its body. Fields of one name keep their order. -/
def lines : Body → List String
  | empty => []
  | fields list => (list.mergeSort fun a b => a.name ≤ b.name).map Field.text
  | cases list => list.map EnumCase.line

end Body

namespace Object

/-- The text of an object: only its name if there is nothing to list. -/
def text (object : Object) : String :=
  if object.body.isEmpty then object.type.defaultName
  else block object.type.defaultName object.body.lines

end Object

namespace Payload

/-- The text of a payload: the media type, then the objects with an empty line between them. -/
def text (payload : Payload) : String :=
  "<" ++ payload.mediaType.text ++ ">\n" ++ "\n\n".intercalate (payload.objects.map Object.text)

/-- The text of a payload under its title; nothing for none. -/
def section? (title : String) : Option Payload → String
  | none => ""
  | some payload => "\n" ++ title ++ ":\n" ++ payload.text

end Payload

namespace Endpoint

def text (endpoint : Endpoint) : String :=
  (match endpoint.groupName with
    | some name => "[" ++ name ++ "]\n"
    | none => "") ++
  endpoint.method.name ++ " " ++ endpoint.path ++
  Payload.section? "Query" endpoint.query ++
  Payload.section? "Request" endpoint.request ++
  Payload.section? "Response" endpoint.response ++
  (if endpoint.requiredAuthorization.isEmpty then ""
    else "\nRequired Authorization: " ++ ", ".intercalate endpoint.requiredAuthorization)

end Endpoint
end ApiAtlas
