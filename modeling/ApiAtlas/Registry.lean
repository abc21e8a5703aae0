import ApiAtlas.Shape
import ApiAtlas.Json

/-!
# Registered capabilities and wrappings

Types may register documentation of their own, a type that they wrap, and a display name. Optionals
and pointers wrap their argument without being registered. `leafType` follows wrappings until
nothing is wrapped or a type would come up again.
-/
namespace ApiAtlas

/-- Documentation that a type declares, and data that it accepts. -/
structure CustomDocumentation where
  body : ShapeBody
  placeholder : Option Json
  deriving DecidableEq

structure Capabilities where
  documentation : Option CustomDocumentation := none
  wrapped : Option Identity := none
  name : Option String := none
  deriving DecidableEq

/-- Capabilities by type. -/
abbrev Registry := List (Identity × Capabilities)

namespace Registry

/-- Change the capabilities of a type; a type without any starts from none. -/
def update (registry : Registry) (t : Identity) (f : Capabilities → Capabilities) : Registry :=
  Table.put registry t (f ((Table.get? registry t).getD {}))

def document (registry : Registry) (t : Identity) (body : ShapeBody) (placeholder : Option Json) :
    Registry :=
  registry.update t fun c => { c with documentation := some ⟨body, placeholder⟩ }

def wrap (registry : Registry) (t wrapped : Identity) : Registry :=
  registry.update t fun c => { c with wrapped := some wrapped }

def name (registry : Registry) (t : Identity) (name : String) : Registry :=
  registry.update t fun c => { c with name := some name }

def documentation? (registry : Registry) (t : Identity) : Option CustomDocumentation :=
  (Table.get? registry t).bind Capabilities.documentation

def name? (registry : Registry) (t : Identity) : Option String :=
  (Table.get? registry t).bind Capabilities.name

end Registry

namespace Identity

/-- Pointers that are documented as what they point to. -/
def isPointer (t : Identity) : Bool :=
  t.module = "alloc::boxed" && t.name = "Box" || t.module = "alloc::sync" && t.name = "Arc" ||
    t.module = "alloc::rc" && t.name = "Rc" || t.module = "alloc::borrow" && t.name = "Cow"

/-- Optionals and pointers. -/
def isTransparent (t : Identity) : Bool := t.isOptional || t.isPointer

/-- Remove one optional layer. -/
def stripOptional (t : Identity) : Identity :=
  if t.isOptional then t.firstType?.getD t else t

/-- Remove optional and pointer layers; registered wrappings stay. -/
def stripTransparent : Identity → Identity
  | ⟨module, parent, name, .type inner :: rest, style⟩ =>
      let t : Identity := ⟨module, parent, name, .type inner :: rest, style⟩
      if t.isTransparent then stripTransparent inner else t
  | t => t

/-- The number of types on the chain of first arguments, with the type itself. -/
def chainLength : Identity → Nat
  | ⟨_, _, _, .type inner :: _, _⟩ => chainLength inner + 1
  | _ => 1

end Identity

namespace Registry

/-- The type that a type wraps directly. -/
def wrapped? (registry : Registry) (t : Identity) : Option Identity :=
  if t.isTransparent then t.firstType? else (Table.get? registry t).bind Capabilities.wrapped

/-- More types than any chain of wrappings can go through without coming back: those on the chain
of the type itself and on the chains of the registered ones. -/
def wrappingBound (registry : Registry) (t : Identity) : Nat :=
  registry.foldr (fun entry n => (entry.2.wrapped.map Identity.chainLength).getD 0 + n)
    t.chainLength

/-- Follow wrappings for a number of steps, short of a type that was met before. -/
def follow (registry : Registry) : Nat → List Identity → Identity → Identity
  | 0, _, t => t
  | steps + 1, met, t =>
      match registry.wrapped? t with
      | none => t
      | some next => if next ∈ t :: met then t else follow registry steps (t :: met) next

/-- The last type of the chain of wrappings before it ends or repeats. -/
def leafType (registry : Registry) (t : Identity) : Identity :=
  registry.follow (registry.wrappingBound t) [] t

/-- Registered documentation of a runtime type, looked up behind optional and pointer layers. -/
def documentationOf? (registry : Registry) (t : TypeRef) : Option CustomDocumentation :=
  registry.documentation? t.identity.stripTransparent

end Registry
end ApiAtlas
