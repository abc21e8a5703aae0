import ApiAtlas.Proofs.Reflect
import ApiAtlas.Run
import Mathlib.Logic.Relation

/-!
# Reflections with other options do not show

All reflections share one cache, but an entry belongs to the options it was made with: a reflection
finds and writes entries for its own options only, and a reflection that a reader starts inside has
the default ones. So two worlds that hold the same entries for some options cannot be told apart by
reflections with these options, and every reflection leaves the entries for all other options as
they were. A run therefore answers its reflections with some options alike if those with other
options are left out.

Two things cross over. A reader that reflects a type of its own from the beginning leaves an entry
for the default options, whatever the options around it are; and the decodes of a declared type are
counted for all options together, which shows where its reader goes by the count.
-/
namespace ApiAtlas

/-- A type is read or reflected by the reader of another or by readers inside, or is the same. -/
def TypeExpr.Involves (schemas : Schemas) : TypeExpr → TypeExpr → Prop :=
  Relation.ReflTransGen fun t p => p ∈ t.parts schemas ∨ p ∈ t.roots schemas

/-- A list that holds what the readers of its types read and reflect holds all that they involve. -/
theorem TypeExpr.Involves.mem {schemas : Schemas} {types : List TypeExpr}
    (closed : ∀ t ∈ types, ∀ p ∈ t.parts schemas ++ t.roots schemas, p ∈ types) {t p : TypeExpr}
    (h : t.Involves schemas p) (ht : t ∈ types) : p ∈ types := by
  induction h with
  | refl => exact ht
  | tail _ inside ih => exact closed _ ih _ (List.mem_append.mpr inside)

namespace Walk
open Decode Reader

/-- Worlds that reflections with some options cannot tell apart, but for decode counts. -/
structure Level (o : Options) (w w' : World) : Prop where
  schemas : w.schemas = w'.schemas
  registry : w.registry = w'.registry
  entries : ∀ type, Table.get? w.cache (type, o) = Table.get? w'.cache (type, o)

/-- A world is as it was, but for decode counts and the entries for some options. -/
structure Spared (o : Options) (before w : World) : Prop where
  schemas : w.schemas = before.schemas
  registry : w.registry = before.registry
  others : ∀ type o', o' ≠ o → Table.get? w.cache (type, o') = Table.get? before.cache (type, o')

namespace Level
variable {o : Options} {w w' : World}

theorem refl (o : Options) (w : World) : Level o w w := ⟨rfl, rfl, fun _ => rfl⟩

theorem symm (h : Level o w w') : Level o w' w :=
  ⟨h.schemas.symm, h.registry.symm, fun type => (h.entries type).symm⟩

theorem trans {w'' : World} (h : Level o w w') (h' : Level o w' w'') : Level o w w'' :=
  ⟨h.schemas.trans h'.schemas, h.registry.trans h'.registry,
    fun type => (h.entries type).trans (h'.entries type)⟩

theorem counting (h : Level o w w') (counts counts' : List (Slot × Nat)) :
    Level o { w with counts } { w' with counts := counts' } :=
  ⟨h.schemas, h.registry, h.entries⟩

theorem caching (h : Level o w w') (type : TypeRef) (entry : CacheEntry) :
    Level o (w.caching type o entry) (w'.caching type o entry) := by
  refine ⟨h.schemas, h.registry, fun other => ?_⟩
  unfold World.caching
  by_cases same : other = type
  · subst same
    rw [Table.get?_put_self, Table.get?_put_self]
  · have apart : (other, o) ≠ (type, o) := fun eq => same (Prod.mk.inj eq).1
    rw [Table.get?_put_of_ne _ _ apart, Table.get?_put_of_ne _ _ apart]
    exact h.entries other

end Level

namespace Spared
variable {o o' : Options} {before w : World}

theorem refl (o : Options) (w : World) : Spared o w w := ⟨rfl, rfl, fun _ _ _ => rfl⟩

theorem counting (h : Spared o before w) (counts : List (Slot × Nat)) :
    Spared o before { w with counts } :=
  ⟨h.schemas, h.registry, h.others⟩

theorem caching (h : Spared o before w) (type : TypeRef) (entry : CacheEntry) :
    Spared o before (w.caching type o entry) := by
  refine ⟨h.schemas, h.registry, fun other o' different => ?_⟩
  have apart : (other, o') ≠ (type, o) := fun eq => different (Prod.mk.inj eq).2
  unfold World.caching
  rw [Table.get?_put_of_ne _ _ apart]
  exact h.others other o' different

theorem trans {w' : World} (h : Spared o before w) (h' : Spared o w w') : Spared o before w' :=
  ⟨h'.schemas.trans h.schemas, h'.registry.trans h.registry, fun type o' different =>
    (h'.others type o' different).trans (h.others type o' different)⟩

/-- What was left as it was cannot be told apart with other options. -/
theorem level (h : Spared o' before w) (different : o ≠ o') : Level o before w :=
  ⟨h.schemas.symm, h.registry.symm, fun type => (h.others type o different).symm⟩

end Spared

/-! ## Two runs -/

/-- What ties two runs of a reflection with some options: their worlds cannot be told apart, and
both are left as they were otherwise. Their decode counts are equal if this is asked for. -/
structure Apart (o : Options) (before before' : World) (counted : Prop) (w w' : World) : Prop where
  level : Level o w w'
  spared : Spared o before w
  spared' : Spared o before' w'
  counts : counted → w.counts = w'.counts

section
variable {o : Options} {before before' : World} {counted : Prop}

theorem Apart.caching {w w' : World} (h : Apart o before before' counted w w') (type : TypeRef)
    (entry : CacheEntry) :
    Apart o before before' counted (w.caching type o entry) (w'.caching type o entry) :=
  ⟨h.level.caching type entry, h.spared.caching type entry, h.spared'.caching type entry, h.counts⟩

/-- One session with some options, in worlds that are apart otherwise. -/
def Bond.apart (o : Options) (before before' : World) (counted : Prop) : Bond before.schemas where
  rel s t := s.session = t.session ∧ s.session.options = o ∧
    Apart o before before' counted s.world t.world
  first := False
  second := False
  session := And.left
  declared := fun ⟨_, _, h⟩ =>
    ⟨h.spared.schemas, h.level.schemas.symm.trans h.spared.schemas⟩
  note := fun note ⟨same, options, h⟩ =>
    ⟨congrArg note.apply same, (Note.apply_options note _).trans options, h⟩
  counted := fun slot ⟨same, options, h⟩ =>
    ⟨same, options, h.level.counting _ _, h.spared.counting _, h.spared'.counting _, fun asked => by
      simp only [State.counted, World.count, h.counts asked]⟩

theorem passage_apart {α : Type} (parent : Path) (key : String) (type : TypeRef)
    (run run' : Source → Decode α) :
    Passage (Bond.apart o before before' counted) (Bond.apart o before before' counted)
      parent key type run run' where
  cached := fun ⟨same, options, h⟩ => by
    rw [← same, options]
    exact h.level.entries type
  registered := fun ⟨_, _, h⟩ => by rw [h.level.registry]
  first := id
  second := id
  enter := fun ⟨same, options, h⟩ => ⟨congrArg (Session.enter · _) same, options, h⟩
  leave := fun {s t} ⟨same, options, h⟩ =>
    ⟨congrArg (Session.leave · _) same, (State.leaving_options s _).trans options, h⟩
  walked := fun _ _ _ _ _ _ ⟨same, options, h⟩ => by
    refine ⟨same, options, ?_⟩
    unfold State.caching
    rw [← same, options]
    exact h.caching _ _
  documented := fun _ _ _ _ ⟨same, options, h⟩ => by
    refine ⟨same, options, ?_⟩
    unfold State.caching
    rw [← same, options]
    exact h.caching _ _

theorem entry_apart (read : TypeReader) (type : TypeExpr) (context : List (String × Json)) :
    Entry (Apart o before before' counted) (Apart o before before' counted)
      (Bond.apart o before before' counted) read type o context where
  cached := fun h => h.level.entries _
  registered := fun h => by rw [h.level.registry]
  start := fun _ h => ⟨rfl, rfl, h⟩
  finish := fun h => h.2.2
  weaken := id
  walked := fun _ _ _ _ h => h.caching _ _
  placed := fun _ _ h _ => h.caching _ _
  documented := fun _ _ _ _ h => h.caching _ _

/-- What is asked of the types that are read with some options: a reflection inside has the same
options, and decodes behave alike where their counts may differ. -/
structure Settles (schemas : Schemas) (o : Options) (counted : Prop) (p : TypeExpr) : Prop where
  roots : ∀ root ∈ p.roots schemas, o = {}
  steady : ∀ slot schema, p = .declared slot → Table.get? schemas slot = some schema →
    schema.isSteady ∨ counted

/-- A walk with some options goes alike in worlds that can only be told apart with others. -/
theorem agree_apart (depth : Nat) {type : TypeExpr}
    (h : ∀ p, type.Involves before.schemas p → Settles before.schemas o counted p)
    (source : Source) :
    Agree (Bond.apart o before before' counted) (readType depth type source)
      (readType depth type source) := by
  induction depth generalizing type source with
  | zero => exact agree_throw _
  | succ depth ih =>
      have inner {p : TypeExpr} (hp : p ∈ type.parts before.schemas ∨ p ∈ type.roots before.schemas)
          (source : Source) := ih (fun q hq => h q (hq.head hp)) source
      have child {α : Type} {run : Source → Decode α} {ref : TypeRef}
          (hr : ∀ source, Agree (Bond.apart o before before' counted) (run source) (run source))
          (path : Path) (muted : Bool) (key : String) :
          Agree (Bond.apart o before before' counted) (readChild path muted key ⟨ref, run⟩)
            (readChild path muted key ⟨ref, run⟩) :=
        (passage_apart path key ref run run).readChild (fun _ => hr _) (fun _ => hr _) muted
      obtain ⟨roots, steady⟩ := h type .refl
      refine Relies.readTypeWith ⟨fun p hp => ⟨inner (.inl hp), child (inner (.inl hp))⟩,
        fun root hr style => ?_, child agree_readText, child agree_readValue, child agree_skipValue⟩
        (fun slot schema same found => ?_) source
      · -- a reflection inside has the default options, which are those around it
        obtain rfl := roots root hr
        refine agree_reflectInside (I := Apart {} before before' counted) id id
          (fun {s t} hst => ?_) (fun hw => ?_) style
        · obtain ⟨same, options, hw⟩ := hst
          exact ⟨hw, fun w w' hw => ⟨same, options, hw⟩⟩
        · exact (entry_apart _ root []).reflectWith (fun _ => inner (.inr hr) _) hw
      · exact (steady slot schema same found).imp_right fun asked s t hst => by
          unfold World.count
          rw [hst.2.2.counts asked]

theorem matching_reflectWithin (depth : Nat) {type : TypeExpr}
    (h : ∀ p, type.Involves before.schemas p → Settles before.schemas o counted p)
    (context : List (String × Json)) {w w' : World} (hw : Apart o before before' counted w w') :
    (exec (reflectWithin depth type o context) w).1 =
        (exec (reflectWithin depth type o context) w').1 ∧
      Apart o before before' counted (exec (reflectWithin depth type o context) w).2
        (exec (reflectWithin depth type o context) w').2 := by
  rcases (entry_apart (readType depth) type context).reflectWith
    (fun _ => agree_apart depth h _) hw with ⟨never, -⟩ | ⟨never, -⟩ | both
  · exact never.elim
  · exact never.elim
  · exact both

end

section
variable {o : Options} {w w' : World} {type : TypeExpr}

/-- Worlds that cannot be told apart with some options answer a reflection with them alike, and
cannot be told apart afterwards. -/
theorem level_reflectWithin (h : Level o w w') (depth : Nat)
    (settles : ∀ p, type.Involves w.schemas p → Settles w.schemas o False p)
    (context : List (String × Json)) :
    (exec (reflectWithin depth type o context) w).1 =
        (exec (reflectWithin depth type o context) w').1 ∧
      Level o (exec (reflectWithin depth type o context) w).2
        (exec (reflectWithin depth type o context) w').2 :=
  have start : Apart o w w' False w w' := ⟨h, .refl o w, .refl o w', False.elim⟩
  (matching_reflectWithin depth settles context start).imp_right Apart.level

/-- A reflection leaves the entries for other options than its own as they were. -/
theorem spared_reflectWithin (depth : Nat) (o : Options)
    (roots : ∀ p, type.Involves w.schemas p → ∀ root ∈ p.roots w.schemas, o = {})
    (context : List (String × Json)) :
    Spared o w (exec (reflectWithin depth type o context) w).2 :=
  have start : Apart o w w True w w := ⟨.refl o w, .refl o w, .refl o w, fun _ => rfl⟩
  have settles (p) (hp : type.Involves w.schemas p) : Settles w.schemas o True p :=
    ⟨roots p hp, fun _ _ _ _ => .inr trivial⟩
  (matching_reflectWithin depth settles context start).2.spared

end
end Walk

/-! ## Runs -/

open Walk

namespace Step

/-- Whether a step is a reflection with other options. -/
def strays (o : Options) : Step → Bool
  | reflect _ options _ => decide (options ≠ o)
  | _ => false

/-- The answers of a run to its steps other than reflections with other options. -/
def answersWith (o : Options) (w : World) (steps : List Step) : List Answer :=
  ((steps.zip (runAll w steps).1).filter fun p => !p.1.strays o).map Prod.snd

/-- What is asked of a step for a run to be looked at with some options: it declares no types, the
readers that it runs reflect none from the beginning unless they do so with the options of the step
itself, and those that it runs with the options looked at behave alike in every decode. -/
structure Isolated (schemas : Schemas) (o : Options) (step : Step) : Prop where
  fixed : ∀ declared, step ≠ declare declared
  roots : ∀ type options context, step = reflect type options context → options ≠ {} →
    ∀ p, type.Involves schemas p → p.roots schemas = []
  steady : ∀ type context, step = reflect type o context →
    ∀ slot schema, type.Involves schemas (.declared slot) → Table.get? schemas slot = some schema →
      schema.isSteady

section
variable {o : Options} {w w' : World} {step : Step}

/-- Only a reflection whose options are the default ones runs readers that reflect. -/
theorem Isolated.default {type : TypeExpr} {options : Options} {context : List (String × Json)}
    (h : Isolated w.schemas o (reflect type options context)) {p root : TypeExpr}
    (hp : type.Involves w.schemas p) (hr : root ∈ p.roots w.schemas) : options = {} := by
  by_contra other
  rw [h.roots type options context rfl other p hp] at hr
  cases hr

theorem Isolated.spared {type : TypeExpr} {options : Options} {context : List (String × Json)}
    (h : Isolated w.schemas o (reflect type options context)) :
    Spared options w ((reflect type options context).run w).2 :=
  spared_reflectWithin defaultDepth options (fun _ hp _ hr => h.default hp hr) context

theorem schemas_run (h : step.Isolated w.schemas o) : (step.run w).2.schemas = w.schemas := by
  cases step with
  | declare schemas => exact absurd rfl (h.fixed schemas)
  | reflect type options context => exact h.spared.schemas
  | document type body placeholder => rfl
  | wrap type wrapped => rfl
  | name type shown => rfl
  | clearCache => rfl

/-- A reflection with other options cannot be told from nothing. -/
theorem level_stray (h : step.Isolated w.schemas o) (stray : step.strays o = true) :
    Level o w (step.run w).2 := by
  cases step with
  | reflect type options context => exact h.spared.level (Ne.symm (of_decide_eq_true stray))
  | declare schemas => cases stray
  | document type body placeholder => cases stray
  | wrap type wrapped => cases stray
  | name type shown => cases stray
  | clearCache => cases stray

/-- Any other step is answered alike in worlds that cannot be told apart. -/
theorem level_run (h : step.Isolated w.schemas o) (kept : step.strays o = false)
    (level : Level o w w') :
    (step.run w).1 = (step.run w').1 ∧ Level o (step.run w).2 (step.run w').2 := by
  have registered (f : Registry → Registry) :
      Level o (register w f).2 (register w' f).2 :=
    ⟨level.schemas, congrArg f level.registry, level.entries⟩
  cases step with
  | declare schemas => exact absurd rfl (h.fixed schemas)
  | document type body placeholder => exact ⟨rfl, registered _⟩
  | wrap type wrapped => exact ⟨rfl, registered _⟩
  | name type shown => exact ⟨rfl, registered _⟩
  | clearCache => exact ⟨rfl, level.schemas, level.registry, fun _ => rfl⟩
  | reflect type options context =>
      obtain rfl : options = o := not_not.mp (of_decide_eq_false kept)
      have settles (p : TypeExpr) (hp : type.Involves w.schemas p) :
          Settles w.schemas options False p := by
        refine ⟨fun _ hr => h.default hp hr, fun slot schema same found => .inl ?_⟩
        subst same
        exact h.steady type context rfl slot schema hp found
      obtain ⟨same, after⟩ := level_reflectWithin level defaultDepth settles context
      exact ⟨congrArg some same, after⟩

end

/-- Runs with and without the reflections with other options go on side by side. -/
theorem answersWith_of_level {o : Options} {steps : List Step} {w w' : World} (level : Level o w w')
    (h : ∀ step ∈ steps, step.Isolated w.schemas o) :
    answersWith o w steps = (runAll w' (steps.filter fun step => !step.strays o)).1 := by
  induction steps generalizing w w' with
  | nil => rfl
  | cons step rest ih =>
      obtain ⟨first, later⟩ := List.forall_mem_cons.mp h
      rw [← schemas_run first] at later
      cases strays : step.strays o with
      | true =>
          have behind := level_stray first strays
          have after : Level o (step.run w).2 w' := behind.symm.trans level
          simpa [answersWith, runAll, strays] using ih after later
      | false =>
          obtain ⟨same, after⟩ := level_run first strays level
          simpa [answersWith, runAll, strays, same] using ih after later

/-- Options do not interfere: leaving the reflections with other options out of a run over fixed
schemas changes no answer to the others, if readers reflect types of their own only where the
options are the default ones, and behave alike in every decode where they are read with the options
looked at. -/
theorem answers_apart (o : Options) (w : World) (steps : List Step)
    (h : ∀ step ∈ steps, step.Isolated w.schemas o) :
    answersWith o w steps = (runAll w (steps.filter fun step => !step.strays o)).1 :=
  answersWith_of_level (.refl o w) h

namespace Crossing

def tight : Options := { cycleThreshold := 1, maxSequenceLength := 1 }

def reflecting : Slot := ⟨"T0", "api::model::T<0>"⟩
def link : Slot := ⟨"T1", "api::model::T<1>"⟩
def fading : Slot := ⟨"T2", "api::model::T<2>"⟩
def point : Slot := ⟨"D0", "api::model::D<0>"⟩

/-- The type of the links that a link holds. -/
def next : TypeExpr := .option (.declared link)

/-- One reader reflects a recursive type first, and one fails from its second decode on. -/
def schemas : Schemas :=
  [(reflecting, .reflect (.declared link) (.int .u8)),
    (link, .record "Link" [⟨"next", next, true⟩] false),
    (fading, .nth [.delegate (.int .u8), .fail "late"]),
    (point, .record "Point" [⟨"x", .int .u8, false⟩] false)]

def world : World := { schemas }

def documented : ShapeBody := .cases [⟨none, "here"⟩]

def recorded : ShapeBody := .fields [("x", Shape.leaf (TypeExpr.int .u8).ref)]

/-- Links inside each other, the last of which is cut off. -/
def links : Nat → Shape
  | 0 => Shape.leaf next.ref
  | n + 1 => ⟨next.ref, .fields [("next", links n)]⟩

/-- The reader that reflects runs with the default options, and the one that fails with others. -/
def steps : List Step :=
  [.reflect (.declared point) tight [], .reflect (.declared fading) tight [],
    .reflect (.declared reflecting) {} [], .reflect next {} [],
    .document (TypeExpr.declared point).ref.identity documented (some .null),
    .reflect (.declared point) {} [], .clearCache, .reflect (.declared point) tight [],
    .reflect next {} []]

theorem isolated_point (options : Options) :
    (reflect (.declared point) options []).Isolated schemas {} := by
  have inside {p : TypeExpr} (hp : (TypeExpr.declared point).Involves schemas p) :
      p ∈ [.declared point, .int .u8] :=
    hp.mem (by decide +kernel) (by decide)
  refine ⟨nofun, ?_, ?_⟩
  · rintro _ _ _ ⟨⟩ - p hp
    exact (by decide +kernel :
      ∀ p ∈ [.declared point, .int .u8], p.roots schemas = []) p (inside hp)
  · rintro _ _ ⟨⟩ slot schema hp found
    have here : slot = point := by simpa using inside hp
    subst here
    exact Option.some.inj found ▸ rfl

/-- The types that a reflection of links runs the readers of. -/
theorem involved_reflecting {p : TypeExpr}
    (hp : (TypeExpr.declared reflecting).Involves schemas p ∨ next.Involves schemas p) :
    p ∈ [.declared reflecting, .declared link, next, .int .u8] := by
  rcases hp with hp | hp <;> exact hp.mem (by decide +kernel) (by decide)

theorem steady_reflecting {slot : Slot} {schema : Schema}
    (inside : TypeExpr.declared slot ∈ [.declared reflecting, .declared link, next, .int .u8])
    (found : Table.get? schemas slot = some schema) : schema.isSteady := by
  have here : slot = reflecting ∨ slot = link := by simpa [next] using inside
  rcases here with rfl | rfl <;> exact Option.some.inj found ▸ rfl

theorem isolated_reflecting : (reflect (.declared reflecting) {} []).Isolated schemas {} := by
  refine ⟨nofun, ?_, ?_⟩
  · rintro _ _ _ ⟨⟩ other
    exact absurd rfl other
  · rintro _ _ ⟨⟩ slot schema hp found
    exact steady_reflecting (involved_reflecting (.inl hp)) found

theorem isolated_next : (reflect next {} []).Isolated schemas {} := by
  refine ⟨nofun, ?_, ?_⟩
  · rintro _ _ _ ⟨⟩ other
    exact absurd rfl other
  · rintro _ _ ⟨⟩ slot schema hp found
    exact steady_reflecting (involved_reflecting (.inr hp)) found

theorem isolated_fading : (reflect (.declared fading) tight []).Isolated schemas {} := by
  refine ⟨nofun, ?_, nofun⟩
  rintro _ _ _ ⟨⟩ - p hp
  exact (by decide +kernel : ∀ p ∈ [.declared fading, .int .u8], p.roots schemas = []) p
    (hp.mem (by decide +kernel) (by decide))

theorem answers_apart_crossing :
    (∀ step ∈ steps, step.Isolated schemas {}) ∧
    answersWith {} world steps =
      [some (.ok (Shape.leaf (TypeExpr.declared reflecting).ref)), some (.ok (links 3)), none,
        some (.ok ⟨(TypeExpr.declared point).ref, documented⟩), none, some (.ok (links 4))] := by
  have isolated : ∀ step ∈ steps, step.Isolated schemas {} := by
    simp only [steps, List.forall_mem_cons, List.not_mem_nil, false_imp_iff, implies_true, and_true]
    exact ⟨isolated_point _, isolated_fading, isolated_reflecting, isolated_next,
      ⟨nofun, nofun, nofun⟩, isolated_point _, ⟨nofun, nofun, nofun⟩, isolated_point _,
      isolated_next⟩
  exact ⟨isolated, (answers_apart {} world steps isolated).trans (by decide +kernel)⟩

/-- A reader that reflects a type of its own leaves the default entries of what it holds behind,
where a recursion was cut off one link earlier, and a decode with other options counts: the answers
with the default options show both. -/
theorem other_options_show :
    let early : List Step :=
      [.reflect (.declared reflecting) tight [], .reflect next {} []]
    let twice : List Step :=
      [.reflect (.declared fading) tight [], .reflect (.declared fading) {} []]
    answersWith {} world early = [some (.ok (links 3))] ∧
    (runAll world (early.filter fun step => !step.strays {})).1 = [some (.ok (links 4))] ∧
    answersWith {} world twice = [some (.error (.fault (.decode "late")))] ∧
    (runAll world (twice.filter fun step => !step.strays {})).1 =
      [some (.ok (Shape.leaf (TypeExpr.declared fading).ref))] := by
  decide +kernel

end Crossing
end Step
end ApiAtlas
