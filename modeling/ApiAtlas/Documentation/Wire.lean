import ApiAtlas.Documentation
import ApiAtlas.Identity.Wire

/-!
# Documentation in records

Every part of the documentation is written as a record and read back from one. A body is written
as three members side by side, of which `isEmpty` counts before `fields`, and `fields` before
`cases`; a body that is not empty and has neither is refused.
-/
namespace ApiAtlas

/-- The three members that tell a body. -/
def bodyOutline (isEmpty : Bool) (fields cases : Option (List Outline)) : Outline :=
  .record [("isEmpty", .flag isEmpty), ("fields", .optional (fields.map .list)),
    ("cases", .optional (cases.map .list))]

namespace DocumentedType

def outline (t : DocumentedType) : Outline :=
  .record [("typeDescription", t.identity.outline), ("customName", .text? t.customName)]

def ofJson : Wire.Reader DocumentedType := fun value => do
  let fields ← Wire.Fields.of ["typeDescription", "customName"] 2 value
  let identity := fields.get? "typeDescription" Identity.ofJson
  let name := fields.get? "customName" (Wire.nullable Wire.text)
  fields.check (Wire.Fields.faultOf "typeDescription" identity ++
    Wire.Fields.faultOf "customName" name)
  return ⟨← Wire.required identity, (← name).join⟩

end DocumentedType

namespace Field

def outline (field : Field) : Outline :=
  .record [("name", .text field.name), ("type", field.type.outline),
    ("isOptional", .flag field.isOptional)]

def ofJson : Wire.Reader Field := fun value => do
  let fields ← Wire.Fields.of ["name", "type", "isOptional"] 3 value
  let name := fields.get? "name" Wire.text
  let type := fields.get? "type" DocumentedType.ofJson
  let isOptional := fields.get? "isOptional" Wire.flag
  fields.check (Wire.Fields.faultOf "name" name ++ Wire.Fields.faultOf "type" type ++
    Wire.Fields.faultOf "isOptional" isOptional)
  return ⟨← Wire.required name, ← Wire.required type, ← Wire.required isOptional⟩

end Field

namespace EnumCase

def outline (case : EnumCase) : Outline :=
  .record [("name", .text? case.name), ("value", .text case.value)]

def ofJson : Wire.Reader EnumCase := fun value => do
  let fields ← Wire.Fields.of ["name", "value"] 2 value
  let name := fields.get? "name" (Wire.nullable Wire.text)
  let text := fields.get? "value" Wire.text
  fields.check (Wire.Fields.faultOf "name" name ++ Wire.Fields.faultOf "value" text)
  return ⟨(← name).join, ← Wire.required text⟩

end EnumCase

namespace Body

/-- The written body. A list counts as something even if nothing is in it. -/
def outline : Body → Outline
  | empty => bodyOutline true none none
  | fields list => bodyOutline false (some (list.map Field.outline)) none
  | cases list => bodyOutline false none (some (list.map EnumCase.outline))

/-- The body that three members tell. -/
def ofMembers (isEmpty : Bool) (fields : Option (List Field)) (cases : Option (List EnumCase)) :
    Except Wire.Fault Body :=
  if isEmpty then .ok .empty
  else
    match fields, cases with
    | some list, _ => .ok (.fields list)
    | none, some list => .ok (.cases list)
    | none, none => .error .shape

def ofJson : Wire.Reader Body := fun value => do
  let members ← Wire.Fields.of ["isEmpty", "fields", "cases"] 1 value
  let isEmpty := members.get? "isEmpty" Wire.flag
  let fields := members.get? "fields" (Wire.nullable (Wire.listOf Field.ofJson))
  let cases := members.get? "cases" (Wire.nullable (Wire.listOf EnumCase.ofJson))
  members.check (Wire.Fields.faultOf "isEmpty" isEmpty ++ Wire.Fields.faultOf "fields" fields ++
    Wire.Fields.faultOf "cases" cases)
  ofMembers (← Wire.required isEmpty) (← fields).join (← cases).join

end Body

namespace Object

def outline (object : Object) : Outline :=
  .record [("type", object.type.outline), ("body", object.body.outline)]

def ofJson : Wire.Reader Object := fun value => do
  let fields ← Wire.Fields.of ["type", "body"] 2 value
  let type := fields.get? "type" DocumentedType.ofJson
  let body := fields.get? "body" Body.ofJson
  fields.check (Wire.Fields.faultOf "type" type ++ Wire.Fields.faultOf "body" body)
  return ⟨← Wire.required type, ← Wire.required body⟩

end Object

namespace Payload

def outline (payload : Payload) : Outline :=
  .record [("mediaType", payload.mediaType.outline),
    ("objects", .list (payload.objects.map Object.outline))]

def ofJson : Wire.Reader Payload := fun value => do
  let fields ← Wire.Fields.of ["mediaType", "objects"] 2 value
  let mediaType := fields.get? "mediaType" MediaType.ofJson
  let objects := fields.get? "objects" (Wire.listOf Object.ofJson)
  fields.check (Wire.Fields.faultOf "mediaType" mediaType ++
    Wire.Fields.faultOf "objects" objects)
  return ⟨← Wire.required mediaType, ← Wire.required objects⟩

end Payload

namespace Endpoint

def outline (endpoint : Endpoint) : Outline :=
  .record [("groupName", .text? endpoint.groupName), ("method", endpoint.method.outline),
    ("path", .text endpoint.path), ("query", .optional (endpoint.query.map Payload.outline)),
    ("request", .optional (endpoint.request.map Payload.outline)),
    ("response", .optional (endpoint.response.map Payload.outline)),
    ("requiredAuthorization", .list (endpoint.requiredAuthorization.map .text))]

/-- The fields of an endpoint, in their order. -/
def fieldNames : List String :=
  ["groupName", "method", "path", "query", "request", "response", "requiredAuthorization"]

def ofJson : Wire.Reader Endpoint := fun value => do
  let fields ← Wire.Fields.of fieldNames 7 value
  let groupName := fields.get? "groupName" (Wire.nullable Wire.text)
  let method := fields.get? "method" Method.ofJson
  let path := fields.get? "path" Wire.text
  let query := fields.get? "query" (Wire.nullable Payload.ofJson)
  let request := fields.get? "request" (Wire.nullable Payload.ofJson)
  let response := fields.get? "response" (Wire.nullable Payload.ofJson)
  let authorization := fields.get? "requiredAuthorization" (Wire.listOf Wire.text)
  fields.check (Wire.Fields.faultOf "groupName" groupName ++
    Wire.Fields.faultOf "method" method ++ Wire.Fields.faultOf "path" path ++
    Wire.Fields.faultOf "query" query ++ Wire.Fields.faultOf "request" request ++
    Wire.Fields.faultOf "response" response ++
    Wire.Fields.faultOf "requiredAuthorization" authorization)
  return {
    groupName := (← groupName).join
    method := ← Wire.required method
    path := ← Wire.required path
    query := (← query).join
    request := (← request).join
    response := (← response).join
    requiredAuthorization := ← Wire.required authorization }

end Endpoint
end ApiAtlas
