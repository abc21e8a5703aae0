import ApiAtlas.Documentation.Reflect
import ApiAtlas.Route
import ApiAtlas.Run

/-!
# A pet store

A small interface to try the library on: six types of records and enumerations, two names of
their own, and seven routes of which one is not documented. The types live in a module that the
caller names.
-/
namespace ApiAtlas.Demo

open Walk (Reflection World)

/-- A type of the pet store, in its module. -/
def slot (home label : String) : Slot := ⟨label, home ++ "::" ++ label⟩

def type (home label : String) : TypeExpr := .declared (slot home label)

def identity (home label : String) : Identity := (type home label).ref.identity

/-- A field; an optional one may be absent. -/
def field (name : String) (type : TypeExpr) : FieldDecl := ⟨name, type, type.isOption⟩

def schemas (home : String) : Schemas :=
  let text := TypeExpr.text .string
  let word := TypeExpr.int .u64
  [(slot home "PetId", .newtype "PetId" word),
    (slot home "Kilograms", .newtype "Kilograms" (.float .f32)),
    (slot home "PetStatus", .enumeration "PetStatus"
      [("available", .unit), ("pending", .unit), ("sold", .unit)]),
    (slot home "Category", .record "Category"
      [field "id" word, field "name" text,
        field "parent" (.option (.pointer .box (type home "Category")))] false),
    (slot home "Pet", .record "Pet"
      [field "id" (type home "PetId"), field "name" text,
        field "status" (type home "PetStatus"),
        field "category" (.option (type home "Category")), field "tags" (.vec text),
        field "weight" (.option (type home "Kilograms"))] false),
    (slot home "NewPet", .record "NewPet"
      [field "name" text, field "status" (type home "PetStatus"),
        field "categoryId" (.option word), field "tags" (.vec text)] false),
    (slot home "PetQuery", .record "PetQuery"
      [field "status" (.option (type home "PetStatus")),
        field "limit" (.option (.int .u32))] false),
    (slot home "Health", .record "Health" [field "ok" .bool, field "version" text] false)]

/-- The readable cases of the status of a pet. -/
def statusCases : List EnumCase :=
  [⟨some "Available for adoption", "available"⟩, ⟨some "Adoption pending", "pending"⟩,
    ⟨some "Adopted", "sold"⟩]

def register (home : String) (registry : Registry) : Registry :=
  ((registry.document (identity home "PetStatus") (.cases statusCases) none).name
    (identity home "PetId") "Pet ID").wrap
      (identity home "Kilograms") (TypeExpr.float .f32).ref.identity

/-- A world that knows the pet store and nothing else. -/
def world (home : String) : World :=
  { registry := register home Registry.standard, schemas := schemas home }

/-- A route that is documented by one endpoint. -/
def documented (handler : String) (path : String) (endpoint : Endpoint) : Route :=
  (⟨path, endpoint.method, handler, []⟩ : Route).document endpoint

def routes (home : String) : Reflection (List Route) := do
  let pets := fun (method : Method) (path : String) =>
    { Endpoint.of method path with groupName := some "Pets" }
  let query ← Payload.query (type home "PetQuery")
  let list ← Payload.json (.vec (type home "Pet"))
  let created ← Payload.json (type home "NewPet")
  let pet ← Payload.json (type home "Pet")
  let categories ← Payload.json (.vec (type home "Category"))
  let health ← Payload.json (type home "Health")
  return [
    documented "list_pets" "/pets"
      { pets .get "/pets" with query := some query, response := some list },
    documented "create_pet" "/pets"
      { pets .post "/pets" with
        request := some created, response := some pet, requiredAuthorization := ["Bearer"] },
    documented "get_pet" "/pets/:id" { pets .get "/pets/:id" with response := some pet },
    documented "delete_pet" "/pets/:id"
      { pets .delete "/pets/:id" with requiredAuthorization := ["Bearer"] },
    documented "list_categories" "/categories"
      { Endpoint.of .get "/categories" with
        groupName := some "Categories", response := some categories },
    documented "health" "/health" { Endpoint.of .get "/health" with response := some health },
    ⟨"/metrics", .get, "metrics", []⟩]

end ApiAtlas.Demo
