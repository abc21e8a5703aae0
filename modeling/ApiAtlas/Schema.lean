import ApiAtlas.Shape
import ApiAtlas.Json
import ApiAtlas.TextForm

/-!
# Types and what they ask for

A type is a library type, a layer around a type, or declared: then a schema says which requests
its reader makes and which answers it accepts. Every type has a runtime name, under which shapes
and the cache know it.
-/
namespace ApiAtlas

inductive IntKind where
  | i8 | i16 | i32 | i64 | i128 | u8 | u16 | u32 | u64 | u128
  deriving DecidableEq, Repr

namespace IntKind

def name : IntKind → String
  | i8 => "i8" | i16 => "i16" | i32 => "i32" | i64 => "i64" | i128 => "i128"
  | u8 => "u8" | u16 => "u16" | u32 => "u32" | u64 => "u64" | u128 => "u128"

def bits : IntKind → Nat
  | i8 => 8 | i16 => 16 | i32 => 32 | i64 => 64 | i128 => 128
  | u8 => 8 | u16 => 16 | u32 => 32 | u64 => 64 | u128 => 128

/-- Whether the type has negative numbers. -/
def isSigned : IntKind → Bool
  | i8 | i16 | i32 | i64 | i128 => true
  | _ => false

def holds (kind : IntKind) (n : Int) : Bool :=
  let bound : Int := Nat.pow 2 (if kind.isSigned then kind.bits - 1 else kind.bits)
  (if kind.isSigned then -bound else 0) ≤ n && n < bound

end IntKind

inductive FloatKind where
  | f32 | f64
  deriving DecidableEq, Repr

namespace FloatKind

def name : FloatKind → String
  | f32 => "f32" | f64 => "f64"

end FloatKind

/-- Owners of a text. -/
inductive TextOwner where
  | string | cow | box
  deriving DecidableEq, Repr

/-- Pointers, which read as what they point to. -/
inductive Pointer where
  | box | arc | rc | cow
  deriving DecidableEq, Repr

/-- A declared type: its label in schemas and its runtime name. -/
structure Slot where
  label : String
  typeName : String
  deriving DecidableEq, Repr

/-- A type. -/
inductive TypeExpr where
  | declared (slot : Slot)
  | bool
  | int (kind : IntKind)
  | float (kind : FloatKind)
  | char
  | text (owner : TextOwner)
  | unit
  | phantom
  | value
  | ignored
  | nonZero
  | result
  | duration
  | form (form : TextForm)
  | option (inner : TypeExpr)
  | vec (inner : TypeExpr)
  | pointer (pointer : Pointer) (inner : TypeExpr)
  | map (inner : TypeExpr)
  | range (inner : TypeExpr)
  | array (length : Nat) (inner : TypeExpr)
  | pair (inner : TypeExpr)
  | withText (inner : TypeExpr)
  | one (inner : TypeExpr)
  deriving DecidableEq, Repr

namespace TypeExpr

/-- The runtime name of owned text. -/
def ownedText : String := "alloc::string::String"

def runtimeName : TypeExpr → String
  | declared slot => slot.typeName
  | bool => "bool"
  | int kind => kind.name
  | float kind => kind.name
  | char => "char"
  | text .string => ownedText
  | text .cow => "alloc::borrow::Cow<'_, str>"
  | text .box => "alloc::boxed::Box<str>"
  | unit => "()"
  | phantom => "core::marker::PhantomData<fn() -> u8>"
  | value => "serde_json::value::Value"
  | ignored => "serde_core::de::ignored_any::IgnoredAny"
  | nonZero => "core::num::nonzero::NonZero<u32>"
  | result => "core::result::Result<u8, " ++ ownedText ++ ">"
  | duration => "core::time::Duration"
  | form f => f.typeName
  | option inner => "core::option::Option<" ++ inner.runtimeName ++ ">"
  | vec inner => "alloc::vec::Vec<" ++ inner.runtimeName ++ ">"
  | pointer .box inner => "alloc::boxed::Box<" ++ inner.runtimeName ++ ">"
  | pointer .arc inner => "alloc::sync::Arc<" ++ inner.runtimeName ++ ">"
  | pointer .rc inner => "alloc::rc::Rc<" ++ inner.runtimeName ++ ">"
  | pointer .cow inner => "alloc::borrow::Cow<'_, " ++ inner.runtimeName ++ ">"
  | map inner =>
      "alloc::collections::btree::map::BTreeMap<" ++ ownedText ++ ", " ++ inner.runtimeName ++ ">"
  | range inner => "core::ops::range::Range<" ++ inner.runtimeName ++ ">"
  | array length inner => "[" ++ inner.runtimeName ++ "; " ++ Decimal.numeral length ++ "]"
  | pair inner => "(" ++ inner.runtimeName ++ ", " ++ inner.runtimeName ++ ")"
  | withText inner => "(" ++ inner.runtimeName ++ ", " ++ ownedText ++ ")"
  | one inner => "(" ++ inner.runtimeName ++ ",)"

def ref (t : TypeExpr) : TypeRef := ⟨t.runtimeName⟩

def isOption : TypeExpr → Bool
  | option _ => true
  | _ => false

end TypeExpr

instance : Inhabited TypeExpr := ⟨.unit⟩

/-- A field of a record; one that may be absent is not missed. -/
structure FieldDecl where
  name : String
  type : TypeExpr
  mayBeAbsent : Bool
  deriving DecidableEq, Repr

/-- What follows the name of a variant. -/
inductive VariantContent where
  | unit
  | newtype (type : TypeExpr)
  | tuple (types : List TypeExpr)
  | record (fields : List FieldDecl)
  deriving DecidableEq, Repr

/-- Scalars that a schema may ask for. -/
inductive ScalarKind where
  | bool
  | int (kind : IntKind)
  | float (kind : FloatKind)
  | char
  | str
  | string
  | identifier
  | unit
  | unitStruct
  | bytes
  | byteBuf
  | ignoredAny
  deriving DecidableEq, Repr

namespace ScalarKind

def name : ScalarKind → String
  | bool => "bool"
  | int kind => kind.name
  | float kind => kind.name
  | char => "char"
  | str => "str"
  | string => "string"
  | identifier => "identifier"
  | unit => "unit"
  | unitStruct => "unit_struct"
  | bytes => "bytes"
  | byteBuf => "byte_buf"
  | ignoredAny => "ignored_any"

end ScalarKind

/-- What the keys of a map are read as. -/
inductive KeyKind where
  | text
  | int (kind : IntKind)
  | bool
  | char
  | optionalText
  | cases
  deriving DecidableEq, Repr

inductive ValueKind where
  | null
  | bool
  | number
  | string
  | seq
  | map
  deriving DecidableEq, Repr

namespace ValueKind

def name : ValueKind → String
  | null => "null" | bool => "bool" | number => "number" | string => "string"
  | seq => "seq" | map => "map"

end ValueKind

/-- What the reader of a declared type does. -/
inductive Schema where
  /-- Ask for a scalar; with a text, refuse it after accepting. -/
  | scalar (request : ScalarKind) (reject : Option String)
  /-- Ask for a newtype record and read the inner type from what is inside. -/
  | newtype (name : String) (inner : TypeExpr)
  /-- Read another type in place. -/
  | delegate (target : TypeExpr)
  /-- Ask for a record of named fields. -/
  | record (name : String) (fields : List FieldDecl) (denyUnknown : Bool)
  /-- Read a record from self-describing data. -/
  | anyRecord (name : String) (fields : List FieldDecl)
  /-- Ask for a tuple, or a tuple record if there is a name. -/
  | tuple (name : Option String) (types : List TypeExpr)
  /-- Ask for a sequence and read some or all of it; the last type repeats. -/
  | seq (types : List TypeExpr) (take : Option Nat)
  /-- Ask for a map and read some or all of it. -/
  | map (key : KeyKind) (content : TypeExpr) (take : Option Nat)
  /-- Ask for a map and for a value before any key. -/
  | valueFirst (type : TypeExpr)
  /-- Ask for an externally tagged enumeration. -/
  | enumeration (name : String) (variants : List (String × VariantContent))
  /-- Take self-describing data of the listed kinds; with an echo, refuse it and tell what it
  was. -/
  | any (accept : List ValueKind) (echo : Bool)
  /-- Read an internally tagged enumeration from self-describing data. -/
  | tagged (name : String) (tag : String) (variants : List (String × List FieldDecl))
  /-- Keep self-describing data and try types on it. -/
  | untagged (name : String) (variants : List TypeExpr)
  /-- Ask for a map, read own fields and keep the others for inner types. -/
  | flatten (name : String) (own : List FieldDecl) (inner : List TypeExpr)
  /-- Read another type in place, chosen by a context value. -/
  | context (key : String) (cases : List (Json × TypeExpr)) (otherwise : TypeExpr)
  /-- Read another type in place, chosen by whether a shape is being decoded. -/
  | decoding (yes no : TypeExpr)
  /-- Reflect a type from the beginning, then read another in place. -/
  | reflect (root next : TypeExpr)
  /-- Behave differently from one decode to the next; the last behaviour stays. -/
  | nth (schemas : List Schema)
  /-- Fail with a text. -/
  | fail (text : String)
  /-- Report a missing field. -/
  | missing (field : String)
  /-- Report an unknown variant. -/
  | unknown (variant : String) (expected : List String)

instance : Inhabited Schema := ⟨.delegate .unit⟩

/-- Schemas by declared type. -/
abbrev Schemas := List (Slot × Schema)

end ApiAtlas
