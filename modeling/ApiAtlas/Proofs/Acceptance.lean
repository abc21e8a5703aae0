import ApiAtlas.Proofs.Histories
import ApiAtlas.Proofs.Termination

/-!
# Cached data is accepted

Whatever is reflected in whatever order, the data in the cache is accepted by its type: the data of
a layout is put together from data that its parts accept, be it walked, served from the cache,
registered, or cut in a cycle. One layout is left out. The payload that is a tuple of nothing leaves
an empty array, for which a replay offers a unit, and the tuple refuses that.
-/
namespace ApiAtlas.Walk
open Decode Reader Filter

/-- Finitely many types, no two of one name, that end; no payload is a tuple of nothing, and
registered placeholders are accepted. -/
structure AcceptingFamily (schemas : Schemas) (registry : Registry) (types : List TypeExpr) : Prop
    extends LayoutFamily schemas types where
  apart : ∀ a ∈ types, ∀ b ∈ types, a.ref = b.ref → a = b
  full : ∀ t ∈ types, ∀ layout, t.layout? schemas = some layout → layout.Full
  placed : ∀ t ∈ types, ∀ body placeholder,
    registry.documentationOf? t.ref = some ⟨body, some placeholder⟩ → Accepted schemas t placeholder

/-- A world whose cached data is accepted. -/
structure AcceptedWorld (schemas : Schemas) (registry : Registry) (types : List TypeExpr)
    (w : World) : Prop where
  declared : w.schemas = schemas
  registered : w.registry = registry
  entries : ∀ {t o entry}, t ∈ types → Table.get? w.cache (t.ref, o) = some entry →
    Accepted schemas t entry.sample

section
variable {schemas : Schemas} {registry : Registry} {types : List TypeExpr} {w : World}

theorem acceptedWorld_of_empty (declared : w.schemas = schemas) (registered : w.registry = registry)
    (empty : w.cache = []) : AcceptedWorld schemas registry types w :=
  ⟨declared, registered, fun _ found => by rw [empty] at found; cases found⟩

/-- Walks of an accepting family keep a world of accepted data, under any options. -/
theorem AcceptingFamily.building (family : AcceptingFamily schemas registry types) (o : Options) :
    Building schemas types o (AcceptedWorld schemas registry types) (Accepted schemas) where
  declared h := h.declared
  recounted h _ := ⟨h.declared, h.registered, fun ht found => h.entries ht found⟩
  cached h ht found := h.entries ht found
  placed h ht found := family.placed _ ht _ _ (h.registered ▸ found)
  caching {w t v} shape h ht accepted := by
    refine ⟨h.declared, h.registered, fun {t' o' entry} ht' found => ?_⟩
    by_cases same : (t'.ref, o') = (t.ref, o)
    · obtain rfl := family.apart t' ht' t ht (Prod.mk.inj same).1
      obtain ⟨-, rfl⟩ := Prod.mk.inj same
      obtain rfl := Option.some.inj ((Table.get?_put_self _ _ _).symm.trans found)
      exact accepted
    · exact h.entries ht' ((Table.get?_put_of_ne _ _ same).symm.trans found)
  leaf _ _ reread := accepted_of_reread reread
  built ht hl data := accepted_of_layout hl (data (family.full _ ht _ hl))

/-- A history of an accepting family ends, in a world of accepted data. -/
theorem AcceptedWorld.after (family : AcceptingFamily schemas registry types)
    (fits : AcceptedWorld schemas registry types w) {calls : List Call}
    (members : ∀ call ∈ calls, call.type ∈ types) :
    ∃ u, (∀ᶠ d in atTop, w.after d calls = u) ∧ AcceptedWorld schemas registry types u := by
  induction calls generalizing w with
  | nil => exact ⟨w, .of_forall fun _ => rfl, fits⟩
  | cons call calls ih =>
      have law := family.building call.options
      have member := members call List.mem_cons_self
      obtain ⟨r, u, run, -, -, fits'⟩ := ends_reflect law.toKeeping member
        (law.walks family.toLayoutFamily member) call.context fits
      obtain ⟨v, later, fits''⟩ :=
        ih fits' fun other ho => members other (List.mem_cons_of_mem _ ho)
      refine ⟨v, ?_, fits''⟩
      filter_upwards [run, later] with d run later
      rw [← later]
      show (exec _ w).2.after d calls = _
      rw [run]

/-- After every history from an empty cache, a replay of cached data succeeds, from every state and
within late allowances. -/
theorem cached_accepted (family : AcceptingFamily schemas registry types)
    (declared : w.schemas = schemas) (registered : w.registry = registry) (empty : w.cache = [])
    {calls : List Call} (members : ∀ call ∈ calls, call.type ∈ types) :
    ∀ᶠ d in atTop, ∀ t ∈ types, ∀ o entry,
      Table.get? (w.after d calls).cache (t.ref, o) = some entry →
      ∀ᶠ d in atTop, ∀ s : State, s.world.schemas = schemas →
        (exec (replay (seedOf (readType d) t) entry.sample) s).1 = .ok () := by
  obtain ⟨u, late, fits⟩ :=
    (acceptedWorld_of_empty declared registered empty).after family members
  refine late.mono fun d last t ht o entry cached => ?_
  rw [last] at cached
  refine (fits.entries ht cached).mono fun d accepted s hs => ?_
  obtain ⟨counts, run⟩ := accepted s hs
  rw [exec_replay]
  dsimp only [seedOf]
  rw [run]

end

/-! ## A family of every layer, and a payload of nothing -/

namespace Layers

theorem accepting : AcceptingFamily schemas [] types where
  toLayoutFamily := family
  apart := by decide +kernel
  full t ht layout hl := by
    simp only [types, List.mem_cons, List.not_mem_nil, or_false] at ht
    rcases ht with rfl | rfl | rfl | rfl | rfl | rfl | rfl <;> cases hl
    case inr.inl =>
      intro variant hv
      simp only [List.mem_cons, List.not_mem_nil, or_false] at hv
      rcases hv with rfl | rfl | rfl | rfl <;> exact fun empty => by cases empty
    all_goals trivial
  placed _ _ _ _ found := by cases found

theorem cached_accepted_layers :
    ∀ᶠ d in atTop, ∀ t ∈ types, ∀ o entry,
      Table.get? (World.after d { schemas := schemas }
        [⟨.declared tree, {}, []⟩, ⟨.declared kind, { cycleThreshold := 0 }, []⟩]).cache
          (t.ref, o) = some entry →
      ∀ᶠ d in atTop, ∀ s : State, s.world.schemas = schemas →
        (exec (replay (seedOf (readType d) t) entry.sample) s).1 = .ok () :=
  cached_accepted accepting rfl rfl rfl (by decide)

end Layers

namespace Hollow

def choice : Slot := ⟨"T0", "api::model::T<0>"⟩

def holder : Slot := ⟨"T1", "api::model::T<1>"⟩

/-- A variant whose payload is a tuple of nothing, and a record of it. -/
def schemas : Schemas :=
  [(choice, .enumeration "E" [("A", .tuple [])]),
    (holder, .record "S" [⟨"e", .declared choice, false⟩] false)]

/-- Behind a reflection of the variant, its cached data is refused inside the record. -/
theorem empty_tuple_rejected :
    (exec (reflect (.declared holder) {} [])
      (exec (reflect (.declared choice) {} []) { schemas := schemas }).2).1 =
        .error (.fault (.decode ("placeholder of api::model::T<0> was rejected: " ++
          "invalid type: null, expected a tuple of 0"))) := by
  decide +kernel

end Hollow
end ApiAtlas.Walk
