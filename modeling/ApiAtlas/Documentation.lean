import ApiAtlas.MediaType
import ApiAtlas.Method
import ApiAtlas.Registry

/-!
# Documentation of endpoints

What a reader of the documentation is told. An endpoint has a method, a path and up to three
payloads; a payload lists objects; an object is a type with fields, with the cases of an
enumeration, or with nothing to tell. Types carry the display name that was registered for them
when they were documented.
-/
namespace ApiAtlas

structure DocumentedType where
  identity : Identity
  customName : Option String
  deriving DecidableEq

namespace DocumentedType

/-- Describe a type by what is registered. -/
def of (registry : Registry) (identity : Identity) : DocumentedType :=
  ⟨identity, registry.name? identity⟩

/-- The display name, or the full type name. -/
def defaultName (t : DocumentedType) : String := t.customName.getD t.identity.fullName

/-- The display name, or the type name without its module. -/
def docsName (t : DocumentedType) : String :=
  t.customName.getD (t.identity.typeName .parents)

end DocumentedType

structure Field where
  /-- The name on the wire. -/
  name : String
  /-- The type without its optional and wrapping layers. -/
  type : DocumentedType
  isOptional : Bool
  deriving DecidableEq

inductive Body where
  | empty
  | fields (fields : List Field)
  | cases (cases : List EnumCase)
  deriving DecidableEq

namespace Body

def isEmpty : Body → Bool
  | empty => true
  | fields list => list.isEmpty
  | cases list => list.isEmpty

/-- Remove fields of the given names, and cases that have one of them as readable name. -/
def without (names : List String) : Body → Body
  | empty => empty
  | fields list => .fields (list.filter fun field => !names.contains field.name)
  | cases list => .cases (list.filter fun case => !case.name.any names.contains)

end Body

structure Object where
  type : DocumentedType
  body : Body
  deriving DecidableEq

namespace Object

def adjustBody (object : Object) (adjust : Body → Body) : Object :=
  { object with body := adjust object.body }

end Object

/-- The objects that are exchanged in one direction, and the media type of the exchange. -/
structure Payload where
  mediaType : MediaType
  objects : List Object
  deriving DecidableEq

namespace Payload

/-- Keep the objects that pass a test. -/
def filter (payload : Payload) (keep : Object → Bool) : Payload :=
  { payload with objects := payload.objects.filter keep }

/-- Replace objects by their images; objects without one are dropped. -/
def filterMap (payload : Payload) (map : Object → Option Object) : Payload :=
  { payload with objects := payload.objects.filterMap map }

end Payload

structure Endpoint where
  /-- The group that lists the endpoint. -/
  groupName : Option String := none
  method : Method
  path : String
  query : Option Payload := none
  request : Option Payload := none
  response : Option Payload := none
  /-- The names of the authorizations that the endpoint asks for. -/
  requiredAuthorization : List String := []
  deriving DecidableEq

namespace Endpoint

/-- An endpoint of which only method and path are known. Slashes around the path go away. -/
def of (method : Method) (path : String) : Endpoint :=
  { method, path := String.ofList (Text.strip (· = '/') path.toList) }

/-- The key by which endpoints are sorted: the sort key of the method, then the path. -/
def sortKey (endpoint : Endpoint) : String := endpoint.method.sortKey ++ "/" ++ endpoint.path

end Endpoint
end ApiAtlas
