import ApiAtlas.Proofs.Readers

/-!
# Layouts

What the readers of plain types do, without where the types come from: a scalar makes one request
and accepts the data made up for it, and every other plain type has a layout. Types that look at
self-describing data, at context values, or at how often they were read have neither.
-/
namespace ApiAtlas
namespace Walk

/-- What the reader of a plain type that is no scalar does. -/
inductive Layout where
  /-- Read another type in place. -/
  | pointer (inner : TypeExpr)
  | newtype (name : String) (inner : TypeExpr)
  | option (inner : TypeExpr)
  /-- Read a record of named fields; one of the library is read from a sequence too. -/
  | record (expecting : String) (fields : List FieldDecl) (library denyUnknown : Bool)
  | seq (inner : TypeExpr)
  | tuple (expecting : String) (types : List TypeExpr)
  | map (inner : TypeExpr)
  | enumeration (name : String) (variants : List (String × VariantContent))

namespace Layout

/-- The types that the reader of a layout reads. -/
def parts : Layout → List TypeExpr
  | pointer inner | newtype _ inner | option inner | seq inner | map inner => [inner]
  | record _ fields _ _ => fields.map FieldDecl.type
  | tuple _ types => types
  | enumeration _ variants => variants.flatMap fun variant => variant.2.parts

end Layout

end Walk

namespace Schema

/-- The layout of a declared type. -/
def layout? : Schema → Option Walk.Layout
  | newtype name inner => some (.newtype name inner)
  | delegate target => some (.pointer target)
  | record name fields denyUnknown => some (.record ("struct " ++ name) fields false denyUnknown)
  | tuple _ types => some (.tuple ("a tuple of " ++ Decimal.numeral types.length) types)
  | seq [type] none => some (.seq type)
  | map .text content none => some (.map content)
  | enumeration name variants => some (.enumeration name variants)
  | _ => none

/-- The scalar that a declared type asks for, if that is all it does. -/
def scalar? : Schema → Option ScalarKind
  | scalar kind none => some kind
  | _ => none

end Schema

/-- The data made up for a scalar. -/
def ScalarKind.zero : ScalarKind → Json
  | bool => .bool false
  | int _ => Json.ofNat 0
  | float _ => Json.zeroPointZero
  | char => .string "\x00"
  | str | string | identifier => .string ""
  | unit | unitStruct | ignoredAny => .null
  | bytes | byteBuf => .array []

namespace TypeExpr

/-- The layout of a type. -/
def layout? (schemas : Schemas) : TypeExpr → Option Walk.Layout
  | declared slot => (Table.get? schemas slot).bind Schema.layout?
  | result =>
      some (.enumeration "Result" [("Ok", .newtype (.int .u8)), ("Err", .newtype (.text .string))])
  | duration =>
      some (.record "struct Duration"
        [Walk.Reader.requiredField "secs" (.int .u64),
          Walk.Reader.requiredField "nanos" (.int .u32)] true true)
  | option inner => some (.option inner)
  | vec inner => some (.seq inner)
  | pointer _ inner => some (.pointer inner)
  | map inner => some (.map inner)
  | range inner =>
      some (.record "struct Range"
        [Walk.Reader.requiredField "start" inner, Walk.Reader.requiredField "end" inner] true true)
  | array length inner =>
      some (.tuple ("an array of length " ++ Decimal.numeral length) (List.replicate length inner))
  | pair inner => some (.tuple "a tuple of size 2" [inner, inner])
  | withText inner => some (.tuple "a tuple of size 2" [inner, .text .string])
  | one inner => some (.tuple "a tuple of size 1" [inner])
  | _ => none

/-- The data made up for a scalar type. -/
def zero? (schemas : Schemas) : TypeExpr → Option Json
  | declared slot => ((Table.get? schemas slot).bind Schema.scalar?).map ScalarKind.zero
  | bool => some (.bool false)
  | int _ => some (Json.ofNat 0)
  | float _ => some Json.zeroPointZero
  | char => some (.string "\x00")
  | text _ => some (.string "")
  | unit | phantom | ignored => some .null
  | _ => none

end TypeExpr

namespace Walk
open Decode Reader

/-- How a layout is read, given how the types inside it are. -/
def Layout.read (read : TypeReader) : Layout → Source → Decode Unit
  | .pointer inner, source => read inner source
  | .newtype name inner, source => readNewtype (read inner) name source
  | .option inner, source => readOption (read inner) source
  | .record expecting fields true _, source => readLibraryRecord read expecting fields source
  | .record expecting fields false denyUnknown, source => do
      let answer ← source.ask (recordRequest fields) expecting
      acceptRecord read expecting fields denyUnknown answer
  | .seq inner, source => readSeq (fun _ => seedOf read inner) none source
  | .tuple expecting types, source => readTuple expecting (types.map (seedOf read)) source
  | .map inner, source =>
      readMap (fun source => discard (readText source)) (seedOf read inner) none source
  | .enumeration name variants, source => readEnumeration read name variants source

/-- A state in which a type began to be read. -/
def State.began (s : State) : TypeExpr → State
  | .declared slot => s.counted slot
  | _ => s

@[simp] theorem State.began_session (s : State) (type : TypeExpr) :
    (s.began type).session = s.session := by
  cases type <;> rfl

theorem exec_layout {schemas : Schemas} {type : TypeExpr} {layout : Layout}
    (h : type.layout? schemas = some layout) (read : TypeReader) (source : Source) {s : State}
    (hs : s.world.schemas = schemas) :
    exec (readTypeWith read type source) s = exec (layout.read read source) (s.began type) := by
  cases type with
  | declared slot =>
      obtain ⟨schema, hd, hl⟩ := Option.bind_eq_some_iff.mp h
      show exec (readDeclared read slot source) s = _
      rw [exec_readDeclared, hs, hd]
      dsimp only
      unfold Schema.layout? at hl
      split at hl <;> cases hl
      case h_5 type =>
        have at' : (fun i => seedOf read ([type].getD (min i ([type].length - 1)) .unit)) =
            fun _ => seedOf read type := by
          funext i
          simp
        show exec (readSeq _ none source) _ = exec (readSeq _ none source) _
        rw [at']
        rfl
      all_goals rfl
  | array length inner =>
      obtain rfl := Option.some.inj h
      show exec (readTuple _ _ source) s = exec (readTuple _ _ source) s
      rw [List.map_replicate]
  | _ => cases h <;> rfl

/-- The parts of a layout are those of the type. -/
theorem mem_parts_iff {schemas : Schemas} {type : TypeExpr} {layout : Layout}
    (h : type.layout? schemas = some layout) (part : TypeExpr) :
    part ∈ type.parts schemas ↔ part ∈ layout.parts := by
  cases type with
  | declared slot =>
      obtain ⟨schema, hd, hl⟩ := Option.bind_eq_some_iff.mp h
      simp only [TypeExpr.parts, hd, Option.map_some, Option.getD_some]
      unfold Schema.layout? at hl
      split at hl <;> cases hl <;> exact Iff.rfl
  | range inner =>
      cases h
      simp [Layout.parts, TypeExpr.parts, requiredField]
  | pair inner =>
      cases h
      simp [Layout.parts, TypeExpr.parts]
  | _ => cases h <;> exact Iff.rfl

/-- A scalar has no layout. -/
theorem layout?_of_zero {schemas : Schemas} {type : TypeExpr} {zero : Json}
    (h : type.zero? schemas = some zero) : type.layout? schemas = none := by
  cases type with
  | declared slot =>
      obtain ⟨kind, hk, -⟩ := Option.map_eq_some_iff.mp h
      obtain ⟨schema, hd, hl⟩ := Option.bind_eq_some_iff.mp hk
      unfold Schema.scalar? at hl
      split at hl <;> cases hl
      simp [TypeExpr.layout?, hd, Schema.layout?]
  | _ => cases h <;> rfl

/-- A scalar has no parts. -/
theorem parts_of_zero {schemas : Schemas} {type : TypeExpr} {zero : Json}
    (h : type.zero? schemas = some zero) : type.parts schemas = [] := by
  cases type with
  | declared slot =>
      obtain ⟨kind, hk, -⟩ := Option.map_eq_some_iff.mp h
      obtain ⟨schema, hd, hl⟩ := Option.bind_eq_some_iff.mp hk
      unfold Schema.scalar? at hl
      split at hl <;> cases hl
      simp [TypeExpr.parts, hd, Schema.parts]
  | _ => cases h <;> rfl

/-! ## Scalars -/

theorem scalar_walked {schemas : Schemas} {type : TypeExpr} {zero : Json}
    (h : type.zero? schemas = some zero) (read : TypeReader) (path : Path) (muted : Bool)
    {s : State} (hs : s.world.schemas = schemas) :
    exec (readTypeWith read type (.walk path muted)) s =
      (.ok (), (s.began type).inSession (Note.sample zero).apply) := by
  cases type with
  | declared slot =>
      obtain ⟨kind, hk, rfl⟩ := Option.map_eq_some_iff.mp h
      obtain ⟨schema, hd, hl⟩ := Option.bind_eq_some_iff.mp hk
      show exec (readDeclared read slot _) s = _
      rw [exec_readDeclared, hs, hd]
      dsimp only
      unfold Schema.scalar? at hl
      split at hl <;> cases hl
      cases kind <;> rfl
  | int kind => cases h; cases kind <;> rfl
  | _ => cases h <;> rfl

theorem scalar_replayed {schemas : Schemas} {type : TypeExpr} {zero : Json}
    (h : type.zero? schemas = some zero) (read : TypeReader)
    {s : State} (hs : s.world.schemas = schemas) :
    exec (readTypeWith read type (.data .replay zero)) s = (.ok (), s.began type) := by
  cases type with
  | declared slot =>
      obtain ⟨kind, hk, rfl⟩ := Option.map_eq_some_iff.mp h
      obtain ⟨schema, hd, hl⟩ := Option.bind_eq_some_iff.mp hk
      show exec (readDeclared read slot _) s = _
      rw [exec_readDeclared, hs, hd]
      dsimp only
      unfold Schema.scalar? at hl
      split at hl <;> cases hl
      cases kind <;> rfl
  | int kind => cases h; cases kind <;> rfl
  | _ => cases h <;> rfl

end Walk
end ApiAtlas
