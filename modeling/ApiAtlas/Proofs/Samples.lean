import ApiAtlas.Proofs.Made
import Mathlib.Logic.Relation

/-!
# The data made up for types without maps

The data that a walk makes up for a type in which there are no maps, by recursion on its layers.
Nothing that is learned on the way changes it: only the keys of maps are learned.
-/
namespace ApiAtlas

/-- The entries made up for fields, given the data made up for their types. -/
def fieldSamples (value : TypeExpr → Json) (fields : List FieldDecl) : List (String × Json) :=
  Table.ofList (fields.map fun field => (field.name, value field.type))

/-- The data made up for a variant. -/
def VariantContent.sample (value : TypeExpr → Json) (name : String) : VariantContent → Json
  | unit => .string name
  | newtype type => .object [(name, value type)]
  | tuple types => .object [(name, .array (types.map value))]
  | record fields => .object [(name, .object (fieldSamples value fields))]

namespace Walk

/-- The data made up for a layout without keys to learn. -/
def Layout.sample (value : TypeExpr → Json) (most : Nat) : Layout → Json
  | pointer inner | newtype _ inner | option inner => value inner
  | record _ fields _ _ => .object (fieldSamples value fields)
  | seq inner => .array (List.replicate most (value inner))
  | tuple _ types => .array (types.map value)
  | map _ => .object []
  | enumeration _ [] => .null
  | enumeration _ ((name, content) :: rest) =>
      ((Table.get? ((name, content) :: rest) name).map
        (VariantContent.sample value name)).getD .null

/-- The data made up for a type of some layers. -/
def madeUp (schemas : Schemas) (most : Nat) : Nat → TypeExpr → Json
  | 0, _ => .null
  | n + 1, t =>
      match t.zero? schemas with
      | some zero => zero
      | none => ((t.layout? schemas).map (Layout.sample (madeUp schemas most n) most)).getD .null

/-- A type is read inside another, or is the same. -/
def Nested (schemas : Schemas) : TypeExpr → TypeExpr → Prop :=
  Relation.ReflTransGen fun t p => p ∈ t.parts schemas

/-- No map is read inside a type. -/
def MapFree (schemas : Schemas) (t : TypeExpr) : Prop :=
  ∀ p, Nested schemas t p → ∀ inner, p.layout? schemas ≠ some (.map inner)

theorem MapFree.nested {schemas : Schemas} {t p : TypeExpr} (h : MapFree schemas t)
    (hp : Nested schemas t p) : MapFree schemas p :=
  fun q hq => h q (hp.trans hq)

/-- No map is inside the types of a closed list without maps. -/
theorem mapFree_of_closed {schemas : Schemas} {t : TypeExpr} (types : List TypeExpr)
    (closed : ∀ t ∈ types, ∀ p ∈ t.parts schemas, p ∈ types)
    (free : ∀ t ∈ types, ∀ inner, t.layout? schemas ≠ some (.map inner)) (ht : t ∈ types) :
    MapFree schemas t := by
  intro p nested
  have inside : p ∈ types := by
    induction nested with
    | refl => exact ht
    | tail _ hp ih => exact closed _ ih _ hp
  exact free p inside

section
variable {made : Bool → Piece → Prop} {inPlace : TypeExpr → ShapeBody → Json → Prop} {most : Nat}
variable {learned muted : Bool} {value : TypeExpr → Json} {layout : Layout} {body : ShapeBody}
  {sample : Json}

theorem samples_eq {types : List TypeExpr} {pieces : List Piece}
    (ht : pieces.map Piece.type = types)
    (h : ∀ x ∈ pieces, x.sample = value x.type) : pieces.map Piece.sample = types.map value := by
  subst ht
  rw [List.map_map]
  exact List.map_congr_left h

theorem filed_eq {fields : List FieldDecl} {pieces : List Piece}
    (ht : pieces.map Piece.type = fields.map FieldDecl.type)
    (h : ∀ x ∈ pieces, x.sample = value x.type) :
    Stage.filed [] (fields.map FieldDecl.name) pieces = fieldSamples value fields := by
  unfold Stage.filed fieldSamples Table.ofList
  rw [samples_eq ht h, List.map_map, List.zip_map']
  rfl

theorem type_mem {types : List TypeExpr} {pieces : List Piece}
    (ht : pieces.map Piece.type = types) :
    ∀ x ∈ pieces, x.type ∈ types :=
  fun _ hx => ht ▸ List.mem_map_of_mem hx

/-- What is made from the data made up for the parts is the data made up for the layout. -/
theorem Made.sample_eq (h : Made made inPlace most false learned muted layout body sample)
    (hm : ∀ muted x, made muted x → x.type ∈ layout.parts → x.sample = value x.type)
    (hi : ∀ t body v, inPlace t body v → t ∈ layout.parts → v = value t)
    (free : ∀ inner, layout ≠ .map inner) : sample = layout.sample value most := by
  cases h with
  | pointer h => exact hi _ _ _ h (List.mem_singleton_self _)
  | newtype h => exact hi _ _ _ h (List.mem_singleton_self _)
  | option _ h => exact hi _ _ _ h (List.mem_singleton_self _)
  | cutOption hc => cases hc
  | record ht h =>
      refine congrArg Json.object (filed_eq ht fun x hx => hm _ x (h x hx) ?_)
      exact type_mem ht x hx
  | seq ht h =>
      rw [if_neg Bool.false_ne_true] at ht
      refine congrArg Json.array ((samples_eq ht fun x hx => hm _ x (h x hx) ?_).trans
        List.map_replicate)
      exact List.mem_singleton.mpr (type_of_replicate ht x hx)
  | tuple ht h =>
      refine congrArg Json.array (samples_eq ht fun x hx => hm _ x (h x hx) ?_)
      exact type_mem ht x hx
  | map => exact absurd rfl (free _)
  | openMap => exact absurd rfl (free _)
  | cutMap => exact absurd rfl (free _)
  | unit hv => rw [Layout.sample, hv]; rfl
  | @payload _ variant content chosen rest _ hv h =>
      have inside {t : TypeExpr} (ht : t ∈ chosen.parts) :
          t ∈ Layout.parts (.enumeration ‹_› ((variant, content) :: rest)) :=
        List.mem_flatMap.mpr ⟨_, Table.mem_of_get? hv, ht⟩
      have under {v v' : Json} (same : v = v') :
          Json.object [(variant, v)] = .object [(variant, v')] := by rw [same]
      rw [Layout.sample, hv]
      cases h with
      | newtype h => exact under (hm _ _ h (inside (List.mem_singleton_self _)))
      | tuple ht h =>
          refine under (congrArg Json.array (samples_eq ht fun x hx => hm _ x (h x hx) (inside ?_)))
          exact type_mem ht x hx
      | record ht h =>
          refine under (congrArg Json.object (filed_eq ht fun x hx => hm _ x (h x hx) (inside ?_)))
          exact type_mem ht x hx

end
end Walk
end ApiAtlas
