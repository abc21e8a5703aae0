import ApiAtlas.Text.Quoted
import ApiAtlas.Json.Printer

/-!
# Why data is refused

A reader refuses data with a problem. What becomes of it depends on where the data came from: the
engine keeps missing fields and unknown variants apart, because it learns from them, and words
everything else; data that is replayed from JSON only has words, and words some values its own
way.
-/
namespace ApiAtlas

open Decimal (Binary64 Layout plainLayout intNumeral numeral)

/-- What a reader was given. -/
inductive Given where
  | bool (value : Bool)
  | integer (value : Int)
  | floating (value : Binary64)
  | text (value : String)
  | bytes
  | unit
  | option
  | newtype
  | sequence
  | map
  | enumeration
  | unitVariant
  deriving DecidableEq, Repr

/-- Why a reader refuses data. -/
inductive Problem where
  | custom (text : String)
  | missingField (field : String)
  | unknownVariant (variant : String) (expected : List String)
  | unknownField (field : String) (expected : List String)
  | duplicateField (field : String)
  | invalidType (given : Given) (expected : String)
  | invalidValue (given : Given) (expected : String)
  | invalidLength (length : Nat) (expected : String)
  deriving DecidableEq, Repr

/-- A failed decode. -/
inductive Fault where
  | decode (text : String)
  | missingField (field : String)
  | unknownVariant (variant : String) (expected : List String)
  deriving DecidableEq, Repr

namespace Fault

def message : Fault → String
  | decode text => "Shape decoding failed: " ++ text
  | missingField field => "Shape decoding failed: missing field \x60" ++ field ++ "\x60"
  | unknownVariant variant expected =>
      "Shape decoding failed: unknown variant \x60" ++ variant ++ "\x60, expected one of " ++
        ", ".intercalate expected

end Fault

/-- How problems are told: by the engine, or in words about replayed JSON, with a place behind
them. -/
inductive Style where
  | engine
  | replay (place : String)
  deriving DecidableEq, Repr

/-- A name between grave accents. -/
def Problem.ticked (name : String) : String := "\x60" ++ name ++ "\x60"

/-- A list of expected names. -/
def Problem.oneOf (none : String) : List String → String
  | [] => none
  | [a] => "expected " ++ ticked a
  | [a, b] => "expected " ++ ticked a ++ " or " ++ ticked b
  | names => "expected one of " ++ ", ".intercalate (names.map ticked)

namespace Style

def describe (style : Style) : Given → String
  | .bool value => "boolean " ++ Problem.ticked (if value then "true" else "false")
  | .integer value => "integer " ++ Problem.ticked (intNumeral value)
  | .floating value =>
      let layout := match style with
        | engine => plainLayout
        | replay _ => Json.numberLayout
      "floating point " ++ Problem.ticked (layout.write value)
  | .text value => "string " ++ Text.quoted value
  | .bytes => "byte array"
  | .unit =>
      match style with
      | engine => "unit value"
      | replay _ => "null"
  | .option => "Option value"
  | .newtype => "newtype struct"
  | .sequence => "sequence"
  | .map => "map"
  | .enumeration => "enum"
  | .unitVariant => "unit variant"

def words (style : Style) : Problem → String
  | .custom text => text
  | .missingField field => "missing field " ++ Problem.ticked field
  | .unknownVariant variant expected =>
      "unknown variant " ++ Problem.ticked variant ++ ", " ++
        Problem.oneOf "there are no variants" expected
  | .unknownField field expected =>
      "unknown field " ++ Problem.ticked field ++ ", " ++
        Problem.oneOf "there are no fields" expected
  | .duplicateField field => "duplicate field " ++ Problem.ticked field
  | .invalidType given expected =>
      "invalid type: " ++ style.describe given ++ ", expected " ++ expected
  | .invalidValue given expected =>
      "invalid value: " ++ style.describe given ++ ", expected " ++ expected
  | .invalidLength length expected =>
      "invalid length " ++ numeral length ++ ", expected " ++ expected

def fault (style : Style) (problem : Problem) : Fault :=
  match style with
  | replay place => .decode (style.words problem ++ place)
  | engine =>
      match problem with
      | .missingField field => .missingField field
      | .unknownVariant variant expected => .unknownVariant variant expected
      | problem => .decode (style.words problem)

end Style
end ApiAtlas
