import ApiAtlas.Documentation.Wire

/-!
# Views of endpoints

The view is what a page of documentation shows: endpoints by group, groups numbered in the order
of their names, and endpoints without a group apart. Inside a group endpoints ascend by a key,
and equal keys keep the order of the input. Types are shown by name; a registered name counts
before the naming that the caller chose, and that before the name without module.
-/
namespace ApiAtlas

/-- A way to name types that have no registered name. -/
abbrev Naming := Option (DocumentedType → String)

/-- The name that a view shows for a type. -/
def DocumentedType.shownName (naming : Naming) (t : DocumentedType) : String :=
  match t.customName, naming with
  | some name, _ => name
  | none, some name => name t
  | none, none => t.identity.typeName .parents

structure FieldView where
  name : String
  type : String
  isOptional : Bool
  deriving DecidableEq

/-- The inside of an object as it is shown. -/
inductive BodyView where
  | empty
  | fields (fields : List FieldView)
  | cases (cases : List EnumCase)
  deriving DecidableEq

structure ObjectView where
  name : String
  body : BodyView
  deriving DecidableEq

structure PayloadView where
  mediaType : MediaType
  objects : List ObjectView
  deriving DecidableEq

structure EndpointView where
  method : Method
  path : String
  query : Option PayloadView
  request : Option PayloadView
  response : Option PayloadView
  requiredAuthorization : List String
  deriving DecidableEq

structure GroupView where
  /-- The position of the group among all groups. -/
  id : Nat
  name : String
  endpoints : List EndpointView
  deriving DecidableEq

structure View where
  groups : List GroupView
  /-- The endpoints without a group. -/
  others : List EndpointView
  deriving DecidableEq

namespace FieldView

def of (naming : Naming) (field : Field) : FieldView :=
  ⟨field.name, field.type.shownName naming, field.isOptional⟩

def outline (field : FieldView) : Outline :=
  .record [("name", .text field.name), ("type", .text field.type),
    ("isOptional", .flag field.isOptional)]

end FieldView

namespace BodyView

def of (naming : Naming) : Body → BodyView
  | .empty => empty
  | .fields list => fields (list.map (FieldView.of naming))
  | .cases list => cases list

/-- The written body. A list with nothing in it counts as empty, and is still there. -/
def outline : BodyView → Outline
  | empty => bodyOutline true none none
  | fields list => bodyOutline list.isEmpty (some (list.map FieldView.outline)) none
  | cases list => bodyOutline list.isEmpty none (some (list.map EnumCase.outline))

end BodyView

namespace ObjectView

def of (naming : Naming) (object : Object) : ObjectView :=
  ⟨object.type.shownName naming, .of naming object.body⟩

def outline (object : ObjectView) : Outline :=
  .record [("name", .text object.name), ("body", object.body.outline)]

end ObjectView

namespace PayloadView

def of (naming : Naming) (payload : Payload) : PayloadView :=
  ⟨payload.mediaType, payload.objects.map (ObjectView.of naming)⟩

def outline (payload : PayloadView) : Outline :=
  .record [("mediaType", payload.mediaType.outline),
    ("objects", .list (payload.objects.map ObjectView.outline))]

end PayloadView

namespace EndpointView

def of (naming : Naming) (endpoint : Endpoint) : EndpointView where
  method := endpoint.method
  path := endpoint.path
  query := endpoint.query.map (PayloadView.of naming)
  request := endpoint.request.map (PayloadView.of naming)
  response := endpoint.response.map (PayloadView.of naming)
  requiredAuthorization := endpoint.requiredAuthorization

def outline (endpoint : EndpointView) : Outline :=
  .record [("method", endpoint.method.outline), ("path", .text endpoint.path),
    ("query", .optional (endpoint.query.map PayloadView.outline)),
    ("request", .optional (endpoint.request.map PayloadView.outline)),
    ("response", .optional (endpoint.response.map PayloadView.outline)),
    ("requiredAuthorization", .list (endpoint.requiredAuthorization.map .text))]

end EndpointView

namespace GroupView

def outline (group : GroupView) : Outline :=
  .record [("id", .count group.id), ("groupName", .text group.name),
    ("documentations", .list (group.endpoints.map EndpointView.outline))]

end GroupView

namespace View

variable {κ : Type} [LE κ] [DecidableLE κ]

/-- Endpoints shown in the order of their keys. -/
def sorted (key : Endpoint → κ) (naming : Naming) (endpoints : List Endpoint) :
    List EndpointView :=
  (endpoints.mergeSort fun a b => decide (key a ≤ key b)).map (EndpointView.of naming)

/-- The names of the groups, ascending and each once. -/
def groupNames (endpoints : List Endpoint) : List String :=
  Table.keys (Table.ofList ((endpoints.filterMap Endpoint.groupName).map fun name => (name, ())))

/-- Show endpoints, sorted by a key. -/
def build (key : Endpoint → κ) (naming : Naming) (endpoints : List Endpoint) : View where
  groups := (groupNames endpoints).zipIdx.map fun (name, id) =>
    ⟨id, name, sorted key naming (endpoints.filter fun e => e.groupName = some name)⟩
  others := sorted key naming (endpoints.filter fun e => e.groupName = none)

/-- Show endpoints in the usual order, with names without modules. -/
def ofEndpoints (endpoints : List Endpoint) : View := build Endpoint.sortKey none endpoints

def outline (view : View) : Outline :=
  .record [("groupedDocumentations", .list (view.groups.map GroupView.outline)),
    ("otherDocumentations", .list (view.others.map EndpointView.outline))]

end View
end ApiAtlas
