import ApiAtlas.Documentation

/-!
# Documenting a shape

The objects of a shape are those of its nodes: the root first, then the fields in the order of
their names, each with everything below it. An object is listed once, and one without anything
to tell not at all if its type is listed before it: where a type recurs the shape ends in such
nodes.
-/
namespace ApiAtlas

namespace EnumCase

/-- Cases are sorted by value; of equal values a case without a name comes first. -/
def le (a b : EnumCase) : Bool :=
  a.value < b.value || a.value = b.value &&
    (match a.name, b.name with
    | none, _ => true
    | some _, none => false
    | some a, some b => a ≤ b)

end EnumCase

namespace Field

def ofShape (registry : Registry) (name : String) (node : Shape) : Field :=
  ⟨name, .of registry (registry.leafType node.type.identity.stripOptional), node.type.isOptional⟩

end Field

namespace Body

/-- The body that tells what is known of the inside of a type. -/
def ofShape (registry : Registry) : ShapeBody → Body
  | .plain => empty
  | .fields nodes => fields (nodes.map fun (name, node) => Field.ofShape registry name node)
  | .cases list => cases (list.mergeSort EnumCase.le)

end Body

namespace Shape

mutual

/-- The nodes of a shape, every node before those below it. -/
def nodes : Shape → List Shape
  | ⟨type, body⟩ => ⟨type, body⟩ :: nodesBelow body

def nodesBelow : ShapeBody → List Shape
  | .plain => []
  | .cases _ => []
  | .fields fields => nodesOfFields fields

def nodesOfFields : List (String × Shape) → List Shape
  | [] => []
  | (_, child) :: rest => nodes child ++ nodesOfFields rest

end

end Shape

namespace Object

def ofShape (registry : Registry) (node : Shape) : Object :=
  ⟨.of registry (registry.leafType node.type.identity), .ofShape registry node.body⟩

/-- Whether an object need not be listed again. -/
def isCovered (objects : List Object) (object : Object) : Bool :=
  objects.any fun listed =>
    listed = object || listed.type = object.type && object.body = .empty

def list (objects : List Object) (object : Object) : List Object :=
  if object.isCovered objects then objects else objects ++ [object]

def ofNodes (registry : Registry) (shape : Shape) : List Object :=
  (shape.nodes.map (ofShape registry)).foldl list []

end Object

namespace Payload

def ofShape (registry : Registry) (mediaType : MediaType) (shape : Shape) : Payload :=
  ⟨mediaType, Object.ofNodes registry shape⟩

end Payload
end ApiAtlas
