import ApiAtlas.Outline.Yaml

/-!
# Output formats

Whatever the library writes out can be written as YAML or as indented JSON.
-/
namespace ApiAtlas

/-- The two written forms of an outline. -/
inductive Format where
  | yaml
  | json
  deriving DecidableEq, Repr

namespace Format

def ofName? : String → Option Format
  | "yaml" => some yaml
  | "json" => some json
  | _ => none

def write : Format → Outline → String
  | yaml, outline => outline.toYaml
  | json, outline => outline.toJson.indented 0

end Format
end ApiAtlas
