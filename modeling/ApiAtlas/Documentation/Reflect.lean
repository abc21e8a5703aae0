import ApiAtlas.Documentation.Collect
import ApiAtlas.Walk.Reader

/-!
# Documenting a type

The object and the payload of a type are made from its shape, with the names and wrappings that
are registered once the shape is known.
-/
namespace ApiAtlas

open Walk (Options Reflection)

namespace Object

/-- The object of a type itself. -/
def reflect (type : TypeExpr) (options : Options) (context : List (String × Json)) :
    Reflection Object := do
  let shape ← Walk.reflect type options context
  return ofShape (← get).registry shape

end Object

namespace Payload

/-- A type as it is exchanged in a media type. -/
def reflect (type : TypeExpr) (options : Options) (context : List (String × Json))
    (mediaType : MediaType) : Reflection Payload := do
  let shape ← Walk.reflect type options context
  return ofShape (← get).registry mediaType shape

def json (type : TypeExpr) : Reflection Payload := reflect type {} [] .json

/-- A type as it is given by query parameters. -/
def query (type : TypeExpr) : Reflection Payload := reflect type {} [] .formUrlencoded

end Payload
end ApiAtlas
