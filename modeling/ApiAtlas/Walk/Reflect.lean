import ApiAtlas.Walk.Source

/-!
# Reflecting a type

The shape of a type is found by walking it from the root. A walk that fails is repeated as long
as its fault taught something about the self-describing sites, up to a fixed number of walks.
A type with registered documentation has the registered shape, and is only walked to find data
that it accepts. Shapes are kept in the cache, and a cached shape is the answer at once.

How a type is read is a parameter here, because reading a type may itself reflect another one.
-/
namespace ApiAtlas.Walk

/-- How types are read. -/
abbrev TypeReader := TypeExpr → Source → Decode Unit

/-- A computation on the world that stops or succeeds. -/
abbrev Reflection (α : Type) := ExceptT Stop (StateM World) α

/-- How often a root is walked before its self-describing answers are given up. -/
def maxWalks : Nat := 64

/-- Read a root, and learn from its fault at the root. -/
def readRoot (read : TypeReader) (type : TypeExpr) (muted : Bool) : Decode Unit :=
  Decode.onFault (read type (.walk [] muted)) fun fault => Decode.revise [] .any fault

/-- One walk of a root: how it ended, and the state it reached. -/
def walkOnce (read : TypeReader) (type : TypeExpr) (options : Options)
    (context : List (String × Json)) (muted : Bool) (hints : Hints) (world : World) :
    Except Stop Unit × State :=
  (readRoot read type muted).run ⟨world, Session.start type.ref options context hints⟩

/-- Walk a root up to a number of times: its shape and the data it accepted. -/
def walkRoot (read : TypeReader) (type : TypeExpr) (options : Options)
    (context : List (String × Json)) (muted : Bool) : Nat → Hints → Reflection (Shape × Json)
  | 0, _ =>
      throw (.fault (.decode ("no placeholder data satisfied " ++ type.runtimeName ++ " within " ++
        Decimal.numeral maxWalks ++ " walks")))
  | walks + 1, hints => do
      let (result, state) := walkOnce read type options context muted hints (← get)
      set state.world
      match result with
      | .ok () => return (state.session.tree, state.session.sample)
      | .error (.fault fault) =>
          if state.session.revised then
            walkRoot read type options context muted walks state.session.hints
          else throw (.fault fault)
      | .error stop => throw stop

/-- The shape of a type, from the cache or by walking it, given how types are read. -/
def reflectWith (read : TypeReader) (type : TypeExpr) (options : Options)
    (context : List (String × Json)) : Reflection Shape := do
  let world ← get
  match Table.get? world.cache (type.ref, options) with
  | some entry => return entry.shape
  | none => do
      let entry ← match world.registry.documentationOf? type.ref with
        | some custom => do
            let sample ← match custom.placeholder with
              | some placeholder => pure placeholder
              | none => Prod.snd <$> walkRoot read type options context true maxWalks []
            pure { sample, shape := (⟨type.ref, custom.body⟩ : Shape) : CacheEntry }
        | none => do
            let (shape, sample) ← walkRoot read type options context false maxWalks []
            pure { sample, shape : CacheEntry }
      modify fun world => { world with cache := Table.put world.cache (type.ref, options) entry }
      return entry.shape

end ApiAtlas.Walk
