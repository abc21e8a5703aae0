import ApiAtlas.Walk.Reader

/-!
# Runs

A run is a sequence of steps on one world: types are declared and registered, the cache is
emptied, and types are reflected. Only reflections have answers. Registered types that are read
from a text are known from the start.
-/
namespace ApiAtlas

open Walk (Options Stop World)

namespace Registry

/-- The registrations of the types with a text form: nothing to tell, and a text to read. -/
def standard : Registry :=
  TextForm.all.foldl (fun registry form =>
    registry.document (TypeExpr.form form).ref.identity .plain (some (.string form.placeholder))) []

end Registry

/-- A step of a run. -/
inductive Step where
  /-- Declare types, or declare them anew. -/
  | declare (schemas : Schemas)
  /-- Register documentation of a type. -/
  | document (type : Identity) (body : ShapeBody) (placeholder : Option Json)
  /-- Register what a type wraps. -/
  | wrap (type wrapped : Identity)
  /-- Register the display name of a type. -/
  | name (type : Identity) (shown : String)
  /-- Forget every cached shape. -/
  | clearCache
  /-- Reflect a type. -/
  | reflect (type : TypeExpr) (options : Options) (context : List (String × Json))

namespace Step

/-- What a step answers: a shape or why there is none, if it is a reflection. -/
abbrev Answer := Option (Except Stop Shape)

def register (world : World) (f : Registry → Registry) : Answer × World :=
  (none, { world with registry := f world.registry })

def run (world : World) : Step → Answer × World
  | declare schemas =>
      (none, { world with
        schemas := schemas.foldl (fun all entry => Table.put all entry.1 entry.2) world.schemas })
  | document type body placeholder =>
      register world fun registry => registry.document type body placeholder
  | wrap type wrapped => register world fun registry => registry.wrap type wrapped
  | name type shown => register world fun registry => registry.name type shown
  | clearCache => (none, { world with cache := [] })
  | reflect type options context =>
      let (answer, world) := (Walk.reflect type options context).run world
      (some answer, world)

def runAll (world : World) : List Step → List Answer × World
  | [] => ([], world)
  | step :: rest =>
      let (answer, world) := step.run world
      let (answers, world) := runAll world rest
      (answer :: answers, world)

end Step
end ApiAtlas
