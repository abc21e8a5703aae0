import ApiAtlas.Table
import ApiAtlas.Text.Split
import ApiAtlas.Wire
import ApiAtlas.Outline

/-!
# Media types

A media type has a type, a subtype and parameters, as in `application/json; charset=utf-8`. It is
read generously: blanks around parts, empty parameters and quotes around values go away, and the
letters of types and parameter names become small ones. A later parameter replaces an earlier one
of its name.
-/
namespace ApiAtlas

/-- A media type; the parameters ascend by name. -/
structure MediaType where
  type : String
  subtype : String
  parameters : List (String × String)
  deriving DecidableEq, Repr

namespace MediaType

/-- Add a parameter, or replace the one of its name. -/
def withParameter (m : MediaType) (name value : String) : MediaType :=
  { m with parameters := Table.insert m.parameters name value }

/-- A media type of text in the usual encoding. -/
def encoded (type subtype : String) : MediaType := ⟨type, subtype, [("charset", "utf-8")]⟩

def json : MediaType := encoded "application" "json"

def plainText : MediaType := encoded "text" "plain"

def formUrlencoded : MediaType := encoded "application" "x-www-form-urlencoded"

def text (m : MediaType) : String :=
  m.type ++ "/" ++ m.subtype ++
    String.join (m.parameters.map fun parameter => "; " ++ parameter.1 ++ "=" ++ parameter.2)

/-- A text in small letters; only ASCII letters have one. -/
def lowerText (cs : List Char) : String := String.ofList (cs.map Char.toLower)

/-- Whether a type or subtype is well formed: there is something, and no blank in it. -/
def isToken (cs : List Char) : Bool := !cs.isEmpty && !cs.any Text.isBlank

/-- The name and the value of a parameter. -/
def parameter? (cs : List Char) : Option (String × String) := do
  let (name, value) ← Text.cut? '=' cs
  let name := Text.trim name
  if name.isEmpty then none
  else some (lowerText name, String.ofList (Text.strip (· = '"') (Text.trim value)))

/-- The parameters, given the texts between semicolons. -/
def parameters? (parts : List (List Char)) : Option (List (String × String)) :=
  (((parts.map Text.trim).filter (!·.isEmpty)).mapM parameter?).map Table.ofList

/-- The type and the subtype. -/
def essence? (cs : List Char) : Option (String × String) := do
  let (type, subtype) ← Text.cut? '/' (Text.trim cs)
  if isToken type && isToken subtype then some (lowerText type, lowerText subtype) else none

/-- The media type that a text gives. -/
def ofText? (text : String) : Option MediaType :=
  match Text.parts ';' text.toList with
  | [] => none
  | front :: rest => do
      let (type, subtype) ← essence? front
      let parameters ← parameters? rest
      return ⟨type, subtype, parameters⟩

/-- The message about a text that gives no media type. -/
def malformed (text : String) : String := "Malformed media type '" ++ text ++ "'"

def outline (m : MediaType) : Outline :=
  .record [("type", .text m.type), ("subtype", .text m.subtype),
    ("parameters", .record (m.parameters.map fun parameter => (parameter.1, .text parameter.2)))]

/-- The texts that members hold. -/
def readTexts : List (String × Json) → Except Wire.Fault (List (String × String))
  | [] => .ok []
  | (name, value) :: rest => do return (name, ← Wire.text value) :: (← readTexts rest)

/-- Parameters are read from an object of texts. -/
def readParameters : Wire.Reader (List (String × String))
  | .object members => (readTexts members).map Table.ofList
  | _ => .error .shape

/-- The fields of a media type, in their order. -/
def fieldNames : List String := ["type", "subtype", "parameters"]

def ofJson : Wire.Reader MediaType := fun value => do
  let fields ← Wire.Fields.of fieldNames 3 value
  let type := fields.get? "type" Wire.text
  let subtype := fields.get? "subtype" Wire.text
  let parameters := fields.get? "parameters" readParameters
  fields.check (Wire.Fields.faultOf "type" type ++ Wire.Fields.faultOf "subtype" subtype ++
    Wire.Fields.faultOf "parameters" parameters)
  return ⟨← Wire.required type, ← Wire.required subtype, ← Wire.required parameters⟩

end MediaType
end ApiAtlas
