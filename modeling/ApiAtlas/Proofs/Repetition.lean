import ApiAtlas.Proofs.Readings
import ApiAtlas.Proofs.Traceless

/-!
# How often a type repeats below itself

A step that stands more often than the threshold ends a cycle: an optional, a sequence and a map
are cut off there. The steps are counted by key and type, and only those that are walked are; a
shape that is served from the cache brings the repetitions along that it was recorded with, which
may have been counted under other keys. So a path of a shape may hold a type more often than any
of its steps was counted.

What bounds it is the number of keys under which the type stands in the schemas. Each of them can be
stepped to as often as the threshold says before the type is cut off, and nothing that is cached
holds the type more often, with one more that was cut off, than there are such steps left to take.
-/
namespace ApiAtlas

/-- A way down from a body: under each key stands a node of the type, and the next one is below. -/
inductive ShapeBody.Leads : ShapeBody → Walk.Path → Prop
  | stay (body : ShapeBody) : Leads body []
  | step {body : ShapeBody} {key : String} {child : Shape} {rest : Walk.Path}
      (h : (key, child) ∈ body.entries) (later : Leads child.body rest) :
      Leads body (⟨key, child.type⟩ :: rest)

/-- No way down has more than a number of nodes of the type. -/
def ShapeBody.Few (type : TypeRef) (most : Nat) (body : ShapeBody) : Prop :=
  ∀ path, body.Leads path → path.countP (·.type = type) ≤ most

/-- So it is, if the node itself counts. -/
def Shape.Few (type : TypeRef) (most : Nat) (shape : Shape) : Prop :=
  ∀ path, shape.body.Leads path →
    path.countP (·.type = type) + (if shape.type = type then 1 else 0) ≤ most

theorem Shape.Few.mono {type : TypeRef} {most more : Nat} {shape : Shape}
    (h : shape.Few type most) (le : most ≤ more) : shape.Few type more :=
  fun path leads => Nat.le_trans (h path leads) le

namespace ShapeBody
variable {type : TypeRef} {most more : Nat} {body : ShapeBody}

theorem few_iff : body.Few type most ↔ ∀ entry ∈ body.entries, entry.2.Few type most := by
  refine ⟨fun h entry member path leads => ?_, fun h path leads => ?_⟩
  · obtain ⟨key, child⟩ := entry
    have counted := h _ (.step member leads)
    simpa [List.countP_cons] using counted
  · cases leads with
    | stay => exact Nat.zero_le _
    | step member later =>
        have counted := h _ member _ later
        simpa [List.countP_cons] using counted

theorem few_plain : Few type most .plain := few_iff.mpr nofun

theorem Few.mono (h : body.Few type most) (le : most ≤ more) : body.Few type more :=
  fun path leads => Nat.le_trans (h path leads) le

theorem Few.withField (h : body.Few type most) {child : Shape} (few : child.Few type most)
    (key : String) : (body.withField key child).Few type most := by
  refine few_iff.mpr fun entry member => ?_
  rcases entries_withField member with rfl | member
  · exact few
  · exact few_iff.mp h entry member

theorem Few.closedSequence (h : body.Few type most) (asked count : Nat) :
    (Walk.closedSequence asked count body).Few type most := by
  refine few_iff.mpr fun entry member => ?_
  obtain ⟨key, before⟩ := Walk.entries_closedSequence member
  exact few_iff.mp h (key, entry.2) before

/-- A node of another type counts for nothing. -/
theorem Few.other (h : body.Few type most) {ref : TypeRef} (apart : ref ≠ type) :
    Shape.Few type most ⟨ref, body⟩ := by
  intro path leads
  rw [if_neg apart]
  exact h path leads

theorem Few.own (h : body.Few type most) : Shape.Few type (most + 1) ⟨type, body⟩ := by
  intro path leads
  rw [if_pos rfl]
  exact Nat.succ_le_succ (h path leads)

end ShapeBody

namespace Walk
open Decode Reader

/-! ## Steps that are left -/

theorem count_stepped (occurrences : List (Segment × Nat)) (taken segment : Segment) :
    (Table.get? (stepped occurrences taken) segment).getD 0 =
      (Table.get? occurrences segment).getD 0 + if segment = taken then 1 else 0 := by
  unfold stepped
  by_cases same : segment = taken
  · rw [same, Table.get?_put_self, if_pos rfl, Option.getD_some]
  · rw [Table.get?_put_of_ne _ _ same, if_neg same, Nat.add_zero]

/-- How many steps to a type may be taken under some keys before each of them ends a cycle. -/
def room (threshold : Nat) (type : TypeRef) (occurrences : List (Segment × Nat)) :
    List String → Nat
  | [] => 0
  | key :: keys =>
      threshold - (Table.get? occurrences ⟨key, type⟩).getD 0 + room threshold type occurrences keys

section
variable {threshold : Nat} {type : TypeRef} {occurrences : List (Segment × Nat)}
  {keys : List String}
variable {key : String}

theorem room_nil : room threshold type [] keys = keys.length * threshold := by
  induction keys with
  | nil => exact (Nat.zero_mul _).symm
  | cons key keys ih =>
      rw [room, ih, List.length_cons, Nat.succ_mul, Nat.add_comm]
      rfl

theorem room_stepped_other {taken : Segment} (apart : taken.type ≠ type) :
    room threshold type (stepped occurrences taken) keys =
      room threshold type occurrences keys := by
  induction keys with
  | nil => rfl
  | cons key keys ih =>
      have other : (⟨key, type⟩ : Segment) ≠ taken :=
        fun same => apart (congrArg Segment.type same).symm
      rw [room, room, ih, count_stepped, if_neg other, Nat.add_zero]

theorem room_stepped_le (taken : Segment) :
    room threshold type (stepped occurrences taken) keys ≤
      room threshold type occurrences keys := by
  induction keys with
  | nil => exact Nat.le_refl _
  | cons key keys ih =>
      rw [room, room, count_stepped]
      omega

/-- A step that ends no cycle uses up room. -/
theorem room_stepped_lt (member : key ∈ keys)
    (uncut : (Table.get? (stepped occurrences ⟨key, type⟩) ⟨key, type⟩).getD 0 ≤ threshold) :
    room threshold type (stepped occurrences ⟨key, type⟩) keys <
      room threshold type occurrences keys := by
  induction keys with
  | nil => cases member
  | cons first keys ih =>
      have rest : room threshold type (stepped occurrences ⟨key, type⟩) keys ≤
          room threshold type occurrences keys := room_stepped_le _
      rw [room, room, count_stepped]
      rw [count_stepped, if_pos rfl] at uncut
      by_cases same : first = key
      · subst same
        rw [if_pos rfl]
        omega
      · have less := ih ((List.mem_cons.mp member).resolve_left (Ne.symm same))
        omega

end

/-- Whether a layout is cut off where a cycle ends. -/
def Layout.IsCut : Layout → Prop
  | .option _ | .seq _ | .map _ => True
  | _ => False

end Walk

/-- An optional, a sequence or a map. -/
def TypeExpr.IsCut (schemas : Schemas) (t : TypeExpr) : Prop :=
  ∃ layout, t.layout? schemas = some layout ∧ layout.IsCut

namespace Walk
open Decode Reader

/-- Types over schemas with all that their readers read: scalars and layouts without variants, none
of them registered. -/
structure RecordSet where
  schemas : Schemas
  registry : Registry
  types : TypeExpr → Prop
  parts : ∀ {t}, types t → ∀ p ∈ t.parts schemas, types p
  kinds : ∀ {t}, types t → t.isScalar schemas ∨ ∃ layout, t.layout? schemas = some layout ∧
    ∀ name variants, layout ≠ .enumeration name variants
  unregistered : ∀ {t}, types t → registry.documentationOf? t.ref = none

/-- The name of an optional, a sequence or a map of such a set, and the keys under which types of
this name stand there. The elements of a sequence stand under the key of the first one. -/
structure Repeated (F : RecordSet) where
  ref : TypeRef
  isCut : ∀ {t}, F.types t → t.ref = ref → t.IsCut F.schemas
  keys : List String
  stands : ∀ {t layout key p}, F.types t → t.layout? F.schemas = some layout →
    layout.Under 1 none key p → p.ref = ref → key ∈ keys

/-- Nothing was learned of self-describing sites, and none was asked. -/
structure Session.Unlearned (session : Session) : Prop where
  hints : session.hints = []
  anySites : session.anySites = []
  revised : session.revised = false

/-- Where nothing is known, only a missed field teaches something. -/
theorem Session.Unlearned.revise {session : Session} (h : session.Unlearned) (site : Site)
    (kind : SiteKind) {fault : Fault} (told : ∀ field, fault ≠ .missingField field) :
    (session.revise site kind fault).Unlearned := by
  have unknown : session.hints.lastKeySite? site = none := by rw [h.hints]; rfl
  unfold Session.revise
  split
  · exact h
  · next asked =>
    have other : kind ≠ .any := fun any => asked (by rw [any, h.anySites]; simp)
    have nothing : session.hints.revise site kind fault = (session.hints, false) := by
      cases fault with
      | missingField field => exact absurd rfl (told field)
      | unknownVariant variant expected => rw [Hints.revise, unknown]
      | decode text =>
          rw [Hints.revise, unknown]
          exact if_neg other
    rw [nothing]
    exact ⟨h.hints, h.anySites, rfl⟩

section
variable {α β : Type}

/-- A decode ended with a value and in a state of a kind, or it stopped, missed no field and
learned nothing. -/
def Came (Q : α → State → Prop) : Except Stop α × State → Prop :=
  Outcome Q fun stop u => (∀ field, stop ≠ .fault (.missingField field)) ∧ u.session.Unlearned

theorem Came.mono {Q Q' : α → State → Prop} {x : Except Stop α × State} (h : Came Q x)
    (sub : ∀ a u, Q a u → Q' a u) : Came Q' x :=
  Outcome.mono h sub fun _ _ stopped => stopped

theorem Came.bind {Q : α → State → Prop} {Q' : β → State → Prop} {m : Decode α}
    {f : α → Decode β} {s : State} (h : Came Q (exec m s))
    (hf : ∀ a u, Q a u → Came Q' (exec (f a) u)) : Came Q' (exec (m >>= f) s) :=
  Outcome.bind h hf

theorem came_refuse {Q : α → State → Prop} {s : State} (h : s.session.Unlearned) (style : Style)
    {problem : Problem} (told : ∀ field, problem ≠ .missingField field) :
    Came Q (exec (refuse style problem : Decode α) s) :=
  ⟨fun field same => fault_ne_missing style told field (Stop.fault.inj same), h⟩

/-- A lesson from a fault that is no missed field changes nothing. -/
theorem Came.onFault {Q : α → State → Prop} {m : Decode α} {s : State} (h : Came Q (exec m s))
    (site : Site) (kind : SiteKind) :
    Came Q (exec (onFault m fun fault => Decode.revise site kind fault) s) := by
  refine Outcome.onFault h (fun fault u ⟨told, unlearned⟩ => ?_) fun _ _ _ stopped => stopped
  exact ⟨told, unlearned.revise site kind fun field same => told field (congrArg _ same)⟩

end

namespace Repeated
variable {F : RecordSet} {R : Repeated F} {o : Options} {occurrences : List (Segment × Nat)}
variable {path : Path} {ref : TypeRef} {body body' : ShapeBody} {s t u : State} {w w' : World}

/-- Whether a shape of the type is cached. -/
def Cached (o : Options) (type : TypeRef) (w : World) : Prop :=
  (Table.get? w.cache (type, o)).isSome

instance (o : Options) (type : TypeRef) (w : World) : Decidable (Cached o type w) :=
  inferInstanceAs (Decidable (_ = true))

/-- How often the type may stand on a way down in what is recorded: not at all before it was cached,
and then once more than there are steps left to it. -/
def most (R : Repeated F) (o : Options) (occurrences : List (Segment × Nat)) (w : World) : Nat :=
  if Cached o R.ref w then room o.cycleThreshold R.ref occurrences R.keys + 1 else 0

/-- A world in which no cached shape has the type too often. -/
structure Bounded (R : Repeated F) (o : Options) (occurrences : List (Segment × Nat)) (w : World) :
    Prop where
  declared : w.schemas = F.schemas
  registered : w.registry = F.registry
  entries : ∀ {type entry}, Table.get? w.cache (type, o) = some entry →
    entry.shape.Few R.ref (R.most o occurrences w)

/-- A state of a walk below some steps, at a node of which a body was recorded. -/
structure At (R : Repeated F) (o : Options) (occurrences : List (Segment × Nat)) (path : Path)
    (ref : TypeRef) (body : ShapeBody) (s : State) : Prop where
  options : s.session.options = o
  counted : s.session.occurrences = occurrences
  unlearned : s.session.Unlearned
  world : R.Bounded o occurrences s.world
  stands : s.Stands path false ⟨ref, body⟩
  takes : body.IsOpen
  few : body.Few R.ref (R.most o occurrences s.world)

/-- A decode gave the node another body, and more shapes were cached. -/
structure Led (R : Repeated F) (o : Options) (occurrences : List (Segment × Nat)) (path : Path)
    (ref : TypeRef) (body : ShapeBody) (s u : State) : Prop
    extends R.At o occurrences path ref body u where
  landed : ∃ v, u = s.landed path false ⟨ref, body⟩ v u.world
  grows : ∀ type, Cached o type s.world → Cached o type u.world

theorem most_mono (grows : Cached o R.ref w → Cached o R.ref w') :
    R.most o occurrences w ≤ R.most o occurrences w' := by
  unfold most
  split
  · next cached => rw [if_pos (grows cached)]
  · exact Nat.zero_le _

theorem At.led (h : R.At o occurrences path ref body s) : R.Led o occurrences path ref body s s :=
  ⟨h, ⟨_, h.stands.landed_self.symm⟩, fun _ => id⟩

theorem Led.trans (h : R.At o occurrences path ref body s)
    (first : R.Led o occurrences path ref body' s t) {body'' : ShapeBody}
    (second : R.Led o occurrences path ref body'' t u) :
    R.Led o occurrences path ref body'' s u := by
  obtain ⟨v, ht⟩ := first.landed
  obtain ⟨v', hu⟩ := second.landed
  refine ⟨second.toAt, ⟨v', ?_⟩, fun type cached => second.grows type (first.grows type cached)⟩
  rw [ht, h.stands.landed_landed] at hu
  exact hu

/-- What a decode may leave is said of where it landed. -/
theorem At.lands (h : R.At o occurrences path ref body s) {v : Json}
    (hu : u = s.landed path false ⟨ref, body'⟩ v u.world) (world : R.Bounded o occurrences u.world)
    (takes : body'.IsOpen) (few : body'.Few R.ref (R.most o occurrences u.world))
    (grows : ∀ type, Cached o type s.world → Cached o type u.world) :
    R.Led o occurrences path ref body' s u := by
  refine ⟨⟨?_, ?_, ?_, world, ?_, takes, few⟩, ⟨v, hu⟩, grows⟩
  · rw [hu]
    exact h.options
  · rw [hu]
    exact h.counted
  · rw [hu]
    exact ⟨h.unlearned.hints, h.unlearned.anySites, h.unlearned.revised⟩
  · rw [hu]
    exact h.stands.landed _ _ _

theorem At.sampled (h : R.At o occurrences path ref body s) (v : Json) :
    R.Led o occurrences path ref body s (s.inSession (Note.sample v).apply) :=
  h.lands (h.stands.sample_landed v) h.world h.takes h.few fun _ => id

/-- That a reader ran more often is no matter. -/
theorem At.began (h : R.At o occurrences path ref body s) (t : TypeExpr) :
    R.At o occurrences path ref body (s.began t) := by
  obtain ⟨counts, began⟩ := s.began_recount t
  rw [began]
  exact ⟨h.options, h.counted, h.unlearned, ⟨h.world.declared, h.world.registered, h.world.entries⟩,
    h.stands, h.takes, h.few⟩

theorem Led.began {t : TypeExpr} (h : R.Led o occurrences path ref body (s.began t) u) :
    R.Led o occurrences path ref body s u := by
  obtain ⟨v, landed⟩ := h.landed
  obtain ⟨counts, began⟩ := s.began_recount t
  rw [began] at landed
  refine ⟨h.toAt, ⟨v, landed⟩, ?_⟩
  have grows := h.grows
  rw [began] at grows
  exact grows

/-! ## Reading under a key -/

theorem cached_put {type type' : TypeRef} {entry : CacheEntry}
    (h : Cached o type' w) :
    Cached o type' { w with cache := Table.put w.cache (type, o) entry } := by
  unfold Cached at *
  by_cases same : (type', o) = (type, o)
  · rw [same, Table.get?_put_self]
    rfl
  · rw [Table.get?_put_of_ne _ _ same]
    exact h

theorem cached_put_self {type : TypeRef} {entry : CacheEntry} :
    Cached o type { w with cache := Table.put w.cache (type, o) entry } := by
  unfold Cached
  rw [Table.get?_put_self]
  rfl

section
variable {α : Type} {t : TypeExpr} {key : String} {inside : ShapeBody}

/-- A step to a type that is not cached leaves what may be cached as it is. -/
theorem most_stepped (uncached : ¬ Cached o t.ref w) :
    R.most o (stepped occurrences ⟨key, t.ref⟩) w = R.most o occurrences w := by
  unfold most
  by_cases same : t.ref = R.ref
  · rw [same] at uncached
    rw [if_neg uncached, if_neg uncached]
  · rw [room_stepped_other same]

theorem most_le (occurrences : List (Segment × Nat)) (w : World) :
    R.most o occurrences w ≤ room o.cycleThreshold R.ref occurrences R.keys + 1 := by
  unfold most
  split
  · exact Nat.le_refl _
  · exact Nat.zero_le _

/-- Behind a step the shape may be cached: the step that was counted on the way in makes room for
the type itself. -/
theorem few_left (keyed : t.ref = R.ref → key ∈ R.keys) (member : F.types t)
    (few : inside.Few R.ref (R.most o (stepped occurrences ⟨key, t.ref⟩) w))
    (cut : t.IsCut F.schemas → o.cycleThreshold <
      (Table.get? (stepped occurrences ⟨key, t.ref⟩) ⟨key, t.ref⟩).getD 0 → inside = .plain)
    (cached : Cached o t.ref w') (grows : ∀ type, Cached o type w → Cached o type w') :
    Shape.Few R.ref (R.most o occurrences w') ⟨t.ref, inside⟩ ∧
      R.most o (stepped occurrences ⟨key, t.ref⟩) w ≤ R.most o occurrences w' := by
  have bound : R.most o (stepped occurrences ⟨key, t.ref⟩) w ≤
      room o.cycleThreshold R.ref (stepped occurrences ⟨key, t.ref⟩) R.keys + 1 := most_le _ _
  by_cases same : t.ref = R.ref
  · have after : R.most o occurrences w' = room o.cycleThreshold R.ref occurrences R.keys + 1 :=
      if_pos (same ▸ cached)
    have ends := cut (R.isCut member same)
    rw [same] at bound few ends ⊢
    have less : room o.cycleThreshold R.ref (stepped occurrences ⟨key, R.ref⟩) R.keys ≤
        room o.cycleThreshold R.ref occurrences R.keys := room_stepped_le _
    rw [after]
    refine ⟨ShapeBody.Few.own ?_, by omega⟩
    by_cases beyond : o.cycleThreshold <
        (Table.get? (stepped occurrences ⟨key, R.ref⟩) ⟨key, R.ref⟩).getD 0
    · rw [ends beyond]
      exact ShapeBody.few_plain
    · have uncut := room_stepped_lt (keyed same) (Nat.le_of_not_lt beyond)
      exact few.mono (by omega)
  · have le : R.most o (stepped occurrences ⟨key, t.ref⟩) w ≤ R.most o occurrences w' := by
      unfold most
      rw [room_stepped_other same]
      exact most_mono (grows _)
    exact ⟨(few.mono le).other same, le⟩

/-- What a walk of a type leaves at its node, if it ends: nothing, where a cycle ends and the type
is cut off there. -/
def Walks (R : Repeated F) (o : Options) (isCut : Prop) (run : Source → Decode Unit) : Prop :=
  ∀ {occurrences path ref s}, Positive occurrences → R.At o occurrences path ref .plain s →
    Came (fun _ u => ∃ body, R.Led o occurrences path ref body s u ∧
      (isCut → s.session.inCycle path = true → body = .plain)) (exec (run (.walk path false)) s)

theorem rejected_told {stop : Stop} (h : ∀ field, stop ≠ .fault (.missingField field))
    (type : TypeRef) (field : String) : rejected type stop ≠ .fault (.missingField field) := by
  unfold rejected
  split
  · nofun
  · exact h field

theorem runaway_told {type : TypeRef} (field : String) :
    runaway type path ≠ .fault (.missingField field) := by
  intro same
  cases Stop.fault.inj same

theorem unlearned_leaving (h : s.session.Unlearned) (segment : Segment) :
    (s.leaving segment).session.Unlearned := by
  have left : (s.session.leave segment).Unlearned := by
    unfold Session.leave
    split
    · exact h
    · exact ⟨h.hints, h.anySites, h.revised⟩
  exact left

theorem unlearned_taught (h : s.session.Unlearned) (site : Site) {stop : Stop}
    (told : ∀ field, stop ≠ .fault (.missingField field)) :
    (s.taught site stop).session.Unlearned := by
  cases stop with
  | fault fault => exact h.revise site .any fun field same => told field (congrArg _ same)
  | unrecorded path => exact h
  | valueBeforeKey => exact h
  | depth => exact h

/-- Where a walk inside of a step came to an end, so does the descent, and what was walked is
cached. -/
theorem came_descend {Q Q' : α → State → Prop} {run : Source → Decode α} {type : TypeRef}
    (unlearned : s.session.Unlearned)
    (came : Came Q (exec (run (.walk (path.child key type) false)) (s.entering ⟨key, type⟩)))
    (ends : ∀ a u, Q a u → Came Q' (cacheWalked type (path.child key type) false
      (s.entering ⟨key, type⟩).session.anyRequests a (u.leaving ⟨key, type⟩))) :
    Came Q' (exec (descend path false key ⟨type, run⟩) s) := by
  have inside : (s.entering ⟨key, type⟩).session.Unlearned :=
    ⟨unlearned.hints, unlearned.anySites, unlearned.revised⟩
  rw [exec_descend]
  dsimp only
  split
  · exact ⟨runaway_told, unlearned_leaving inside _⟩
  · generalize exec (run _) _ = x at came ⊢
    obtain ⟨stop | a, u⟩ := x
    · exact ⟨came.1, unlearned_taught (unlearned_leaving came.2 _) _ came.1⟩
    · exact ends a u came

/-- What hands out data at most leaves the node as it is. -/
theorem At.obeyed (h : R.At o occurrences path ref body s) {x : Except Stop α × State}
    (quiet : Obeyed (.traceless F.schemas) s x) :
    Came (fun _ u => R.Led o occurrences path ref body s u) x := by
  obtain ⟨stop | a, world, session⟩ := x
  · obtain ⟨⟨v, rfl⟩, -, -⟩ := quiet.rel
    exact ⟨quiet.stops stop rfl, h.unlearned.hints, h.unlearned.anySites, h.unlearned.revised⟩
  · obtain ⟨⟨v, rfl⟩, cache, registry⟩ := quiet.rel
    have declared : world.schemas = F.schemas := quiet.holds
    have cache : world.cache = s.world.cache := cache
    have registry : world.registry = s.world.registry := registry
    have same (type : TypeRef) : Cached o type world ↔ Cached o type s.world := by
      unfold Cached
      rw [cache]
    have most : R.most o occurrences world = R.most o occurrences s.world := by
      simp only [Repeated.most, same]
    refine h.lands (v := v) ?_ ⟨declared, registry.trans h.world.registered, ?_⟩ h.takes ?_
      fun type => (same type).mpr
    · exact congrArg (fun t => (⟨world, t.session⟩ : State)) (h.stands.sample_landed v)
    · intro type entry cached
      rw [most]
      exact h.world.entries (cache ▸ cached)
    · show ShapeBody.Few _ (R.most o occurrences world) _
      rw [most]
      exact h.few

/-- A cached shape is recorded, and the replay of its sample leaves no trace. -/
theorem At.served (h : R.At o occurrences path ref body s) (key : String)
    {run : Source → Decode Unit} (data : ∀ v, Traceless F.schemas (run (.data .replay v)))
    {entry : CacheEntry}
    (found : Table.get? s.world.cache (t.ref, o) = some entry) :
    Came (fun _ u => R.Led o occurrences path ref (body.withField key entry.shape) s u ∧
      Cached o t.ref u.world) (exec (serve path false key ⟨t.ref, run⟩ entry) s) := by
  have noted : R.Led o occurrences path ref (body.withField key entry.shape) s
      (s.landed path false ⟨ref, body.withField key entry.shape⟩ s.session.sample s.world) :=
    h.lands rfl h.world (h.takes.withField _ _) (h.few.withField (h.world.entries found) key)
      fun _ => id
  have replayed := noted.toAt.obeyed (data entry.sample _ h.world.declared)
  unfold serve
  rw [exec_bind, h.stands.noted]
  dsimp only
  rw [exec_bind, exec_replay]
  dsimp only
  generalize exec (run _) _ = x at replayed ⊢
  obtain ⟨stop | a, u⟩ := x
  · exact ⟨rejected_told replayed.1 _, replayed.2⟩
  · have led := noted.trans h replayed
    have handed := led.trans h (led.toAt.sampled entry.sample)
    exact ⟨handed, handed.grows _ (by simp [Cached, found])⟩

/-- A shape that has the type as seldom as the others may be cached with them. -/
theorem Bounded.keeping {taken : List (Segment × Nat)} {type : TypeRef} {entry : CacheEntry}
    (h : R.Bounded o taken w)
    (le : R.most o taken w ≤ R.most o occurrences (w.keeping false type o entry))
    (few : entry.shape.Few R.ref (R.most o occurrences (w.keeping false type o entry))) :
    R.Bounded o occurrences (w.keeping false type o entry) := by
  refine ⟨h.declared, h.registered, fun {other found} cached => ?_⟩
  have put : Table.get? (Table.put w.cache (type, o) entry) (other, o) = some found := cached
  by_cases same : (other, o) = (type, o)
  · rw [same, Table.get?_put_self] at put
    obtain rfl := Option.some.inj put
    exact few
  · rw [Table.get?_put_of_ne _ _ same] at put
    exact (h.entries put).mono le

/-- A step to a type that is not cached. -/
theorem At.stepping (h : R.At o occurrences path ref body s) (key : String)
    (uncached : ¬ Cached o t.ref s.world) :
    R.At o (stepped occurrences ⟨key, t.ref⟩) (path.child key t.ref) t.ref .plain
      ((s.landed path false ⟨ref, body.withField key (Shape.leaf t.ref)⟩ s.session.sample
        s.world).entering ⟨key, t.ref⟩) := by
  have stands := h.stands.child h.takes key t.ref (Shape.leaf t.ref) s.session.sample s.world
  refine ⟨h.options, ?_, ⟨h.unlearned.hints, h.unlearned.anySites, h.unlearned.revised⟩,
    ⟨h.world.declared, h.world.registered, fun {type entry} cached => ?_⟩, stands, trivial,
    ShapeBody.few_plain⟩
  · rw [State.entering_occurrences, State.landed_occurrences, h.counted]
  · have few := h.world.entries cached
    rwa [← most_stepped uncached] at few

theorem At.inCycle_child {below : Path} (h : R.At o occurrences below ref body s) (key : String)
    (type : TypeRef) : s.session.inCycle (path.child key type) =
      decide (o.cycleThreshold < (Table.get? occurrences ⟨key, type⟩).getD 0) := by
  unfold Session.inCycle
  rw [Session.occurrencesAt_child, h.options, h.counted]

/-- What was walked behind a step is cached there. -/
theorem At.walked (h : R.At o occurrences path ref body s) (keyed : t.ref = R.ref → key ∈ R.keys)
    (member : F.types t) {v : Json} {inside : ShapeBody}
    (led : R.Led o (stepped occurrences ⟨key, t.ref⟩) (path.child key t.ref) t.ref inside
      ((s.landed path false ⟨ref, body.withField key (Shape.leaf t.ref)⟩ s.session.sample
        s.world).entering ⟨key, t.ref⟩) u)
    (cut : t.IsCut F.schemas → o.cycleThreshold <
      (Table.get? (stepped occurrences ⟨key, t.ref⟩) ⟨key, t.ref⟩).getD 0 → inside = .plain) :
    R.Led o occurrences path ref (body.withField key ⟨t.ref, inside⟩) s
      (s.landed path false ⟨ref, body.withField key ⟨t.ref, inside⟩⟩ v
        (u.world.keeping false t.ref o ⟨v, ⟨t.ref, inside⟩⟩)) := by
  have grows (type : TypeRef) (cached : Cached o type u.world) :
      Cached o type (u.world.keeping false t.ref o ⟨v, ⟨t.ref, inside⟩⟩) := cached_put cached
  obtain ⟨few, le⟩ := few_left keyed member led.few cut cached_put_self grows
  have before (type : TypeRef) (known : Cached o type s.world) : Cached o type _ :=
    grows type (led.grows type known)
  exact h.lands rfl (led.world.keeping le few) (h.takes.withField _ _)
    ((h.few.mono (most_mono (before _))).withField few key) before

/-- Where the walk inside of a step leaves what it may, so does reading under the key. -/
theorem At.readsChild (h : R.At o occurrences path ref body s) (positive : Positive occurrences)
    (member : F.types t) {run : Source → Decode Unit} (walks : R.Walks o (t.IsCut F.schemas) run)
    (data : ∀ v, Traceless F.schemas (run (.data .replay v)))
    (keyed : t.ref = R.ref → key ∈ R.keys ∨ Cached o t.ref s.world) :
    Came (fun _ u => (∃ body', R.Led o occurrences path ref body' s u) ∧ Cached o t.ref u.world)
      (exec (readChild path false key ⟨t.ref, run⟩) s) := by
  cases found : Table.get? s.world.cache (t.ref, s.session.options) with
  | some entry =>
      rw [exec_readChild]
      dsimp only
      rw [found]
      exact (h.served key data (h.options ▸ found)).mono fun _ _ led => ⟨⟨_, led.1⟩, led.2⟩
  | none =>
      have uncached : ¬ Cached o t.ref s.world := by
        rw [Cached, ← h.options, found]
        exact Bool.false_ne_true
      have keyed (named : t.ref = R.ref) : key ∈ R.keys := (keyed named).resolve_right uncached
      have unregistered : s.world.registry.documentationOf? t.ref = none := by
        rw [h.world.registered]
        exact F.unregistered member
      have inside := h.stepping key uncached
      have counted : Positive s.session.occurrences := h.counted ▸ positive
      rw [h.stands.uncached h.takes key ⟨t.ref, run⟩ found unregistered]
      refine came_descend ⟨h.unlearned.hints, h.unlearned.anySites, h.unlearned.revised⟩
        (walks (positive.stepped _) inside) fun a u left => ?_
      obtain ⟨body', led, cut⟩ := left
      obtain ⟨v, landed⟩ := led.landed
      have left : u.leaving ⟨key, t.ref⟩ =
          s.landed path false ⟨ref, body.withField key ⟨t.ref, body'⟩⟩ v u.world := by
        have counted : Positive (s.landed path false ⟨ref, body.withField key (Shape.leaf t.ref)⟩
          s.session.sample s.world).session.occurrences := h.counted ▸ positive
        rw [landed, State.landed_left counted, h.stands.child_landed h.takes]
        rfl
      have shape := h.stands.child h.takes key t.ref ⟨t.ref, body'⟩ v u.world rfl
      have kept := h.walked (v := v) keyed member led fun isCut ends =>
        cut isCut ((inside.inCycle_child key t.ref).trans (decide_eq_true ends))
      unfold cacheWalked
      rw [left, if_pos (by simp [State.landed, Session.enter]), shape]
      rw [← h.options] at kept ⊢
      exact ⟨⟨_, kept⟩, cached_put_self⟩

end

/-! ## Decodes at a node -/

section
variable {α β : Type} {P : World → Prop} {Q : α → World → Prop} {Q' : β → World → Prop}

/-- From a world of a kind, a decode gives the node another body at most, and ends with a value and
in a world of a kind. -/
def Goes (R : Repeated F) (o : Options) (occurrences : List (Segment × Nat)) (path : Path)
    (ref : TypeRef) (P : World → Prop) (m : Decode α) (Q : α → World → Prop) : Prop :=
  ∀ s body, R.At o occurrences path ref body s → P s.world →
    Came (fun a u => (∃ body', R.Led o occurrences path ref body' s u) ∧ Q a u.world) (exec m s)

theorem Goes.bind {m : Decode α} {f : α → Decode β} (hm : R.Goes o occurrences path ref P m Q)
    (hf : ∀ a, R.Goes o occurrences path ref (Q a) (f a) Q') :
    R.Goes o occurrences path ref P (m >>= f) Q' := by
  intro s body h given
  refine (hm s body h given).bind fun a t first => ?_
  obtain ⟨⟨body', led⟩, between⟩ := first
  refine (hf a t body' led.toAt between).mono fun b u second => ?_
  obtain ⟨⟨body'', later⟩, ends⟩ := second
  exact ⟨⟨body'', led.trans h later⟩, ends⟩

theorem Goes.bindGiven {C : α → Prop} {m : Decode α} {f : α → Decode β}
    (hm : R.Goes o occurrences path ref P m fun a _ => C a)
    (hf : ∀ a, C a → R.Goes o occurrences path ref (fun _ => True) (f a) Q') :
    R.Goes o occurrences path ref P (m >>= f) Q' :=
  hm.bind fun a s body h given => hf a given s body h trivial

theorem Goes.mono {P' : World → Prop} {Q' : α → World → Prop} {m : Decode α}
    (hm : R.Goes o occurrences path ref P m Q) (pre : ∀ w, P' w → P w)
    (post : ∀ a w, Q a w → Q' a w) : R.Goes o occurrences path ref P' m Q' :=
  fun s body h given => (hm s body h (pre _ given)).mono fun a _ ends =>
    ⟨ends.1, post a _ ends.2⟩

theorem goes_pure {a : α} (given : ∀ w, P w → Q a w) : R.Goes o occurrences path ref P (pure a) Q :=
  fun _ body h here => ⟨⟨body, h.led⟩, given _ here⟩

theorem goes_refuse (style : Style) {problem : Problem}
    (told : ∀ field, problem ≠ .missingField field) :
    R.Goes o occurrences path ref P (refuse style problem) Q :=
  fun _ _ h _ => came_refuse h.unlearned style told

theorem goes_setSample (v : Json) :
    R.Goes o occurrences path ref P (setSample v) fun _ => P :=
  fun _ body h given => ⟨⟨body, h.sampled v⟩, given⟩

theorem goes_takeSample : R.Goes o occurrences path ref P takeSample fun _ => P :=
  fun _ body h given => ⟨⟨body, h.sampled .null⟩, given⟩

/-- Of the world, what hands out data at most keeps nothing but what is cached. -/
theorem goes_quiet {m : Decode α} (quiet : Traceless F.schemas m) :
    R.Goes o occurrences path ref P m fun _ _ => True :=
  fun s body h _ => (h.obeyed (quiet s h.world.declared)).mono fun _ _ led => ⟨⟨body, led⟩, trivial⟩

theorem Goes.onFault {m : Decode α} (hm : R.Goes o occurrences path ref P m Q) (site : Site)
    (kind : SiteKind) :
    R.Goes o occurrences path ref P (onFault m fun fault => Decode.revise site kind fault) Q :=
  fun s body h given => (hm s body h given).onFault site kind

theorem goes_closeSeq (limit index : Nat) (samples : List Json) :
    R.Goes o occurrences path ref P (SeqCursor.close (.walk path false limit index samples))
      fun _ => P := by
  intro s body h given
  rw [lands_closeSeq h.stands]
  exact ⟨⟨_, h.lands rfl h.world (ShapeBody.IsOpen.closedSequence h.takes _ _)
    (h.few.closedSequence _ _) fun _ => id⟩, given⟩

/-! ## Loops -/

variable {read : TypeReader} {t : TypeExpr}

/-- What reading a type under keys of the node has to do: where the name of the type repeats, the
key is one of those that are counted, or the type is cached. -/
def Enters (R : Repeated F) (o : Options) (occurrences : List (Segment × Nat)) (path : Path)
    (ref : TypeRef) (read : TypeReader) (t : TypeExpr) : Prop :=
  ∀ key, R.Goes o occurrences path ref (fun w => t.ref = R.ref → key ∈ R.keys ∨ Cached o t.ref w)
    (readChild path false key (seedOf read t)) fun _ => Cached o t.ref

/-- A value is read under its key, and its sample is taken from the node. -/
theorem goes_value {key : String} {f : Json → Decode β}
    (enters : R.Enters o occurrences path ref read t)
    (keyed : ∀ w, P w → t.ref = R.ref → key ∈ R.keys ∨ Cached o t.ref w)
    (rest : ∀ v, R.Goes o occurrences path ref (Cached o t.ref) (f v) Q') :
    R.Goes o occurrences path ref P
      (readChild path false key (seedOf read t) >>= fun _ => takeSample >>= f) Q' := by
  have entered : R.Goes o occurrences path ref P (readChild path false key (seedOf read t))
      fun _ => Cached o t.ref := (enters key).mono keyed fun _ _ => id
  exact entered.bind fun _ => goes_takeSample.bind rest

/-- The first element is walked under its number, and the others are served what is cached behind
it. -/
theorem goes_readElements (enters : R.Enters o occurrences path ref read t)
    (first : t.ref = R.ref → Decimal.numeral 0 ∈ R.keys) (limit more index : Nat)
    (samples : List Json) :
    R.Goes o occurrences path ref (fun w => 0 < index → Cached o t.ref w)
      (readElements (fun _ => seedOf read t) more index (.walk path false limit index samples))
      fun r _ => ∃ n samples', r.2 = .walk path false limit n samples' := by
  induction more generalizing index samples with
  | zero => exact goes_pure fun _ _ => ⟨index, samples, rfl⟩
  | succ more ih =>
      unfold readElements SeqCursor.next?
      dsimp only
      split
      · exact goes_pure fun _ _ => ⟨index, samples, rfl⟩
      · simp only [bind_assoc, pure_bind]
        refine goes_value enters (fun w before named => ?_) fun v => ?_
        · rcases Nat.eq_zero_or_pos index with rfl | later
          · exact .inl (first named)
          · exact .inr (before later)
        · exact (ih (index + 1) (v :: samples)).mono (fun _ cached _ => cached) fun _ _ => id

theorem goes_readSeqCursor {cursor : SeqCursor} {body : SeqCursor → Decode (Unit × SeqCursor)}
    (h : R.Goes o occurrences path ref P (body cursor) fun r _ =>
      ∃ limit n samples, r.2 = .walk path false limit n samples) :
    R.Goes o occurrences path ref P (cursor.read body) fun _ _ => True := by
  refine h.bindGiven fun r stands => ?_
  obtain ⟨⟨⟩, cursor⟩ := r
  obtain ⟨limit, n, samples, rfl⟩ := stands
  exact (goes_closeSeq limit n samples).bind fun _ => goes_pure fun _ _ => trivial

theorem goes_readSeq (enters : R.Enters o occurrences path ref read t)
    (first : t.ref = R.ref → Decimal.numeral 0 ∈ R.keys) :
    R.Goes o occurrences path ref P (readSeq (fun _ => seedOf read t) none (.walk path false))
      fun _ _ => True := by
  intro s body h given
  unfold readSeq
  rw [exec_bind, exec_ask_walk _ rfl]
  refine goes_readSeqCursor (P := fun _ => True) ?_ s body h trivial
  refine Goes.bindGiven ((goes_readElements enters first _ _ 0 []).mono (fun _ _ => nofun)
    fun _ _ => id) fun r stands => goes_pure fun _ _ => ⟨_, stands⟩

/-- A place is read under its number. -/
theorem goes_readPlaces (style : Style) (expecting : String) (limit : Nat) (types : List TypeExpr)
    (index : Nat) (samples : List Json)
    (enters : ∀ i t, types[i]? = some t → R.Enters o occurrences path ref read t ∧
      (t.ref = R.ref → Decimal.numeral (index + i) ∈ R.keys)) :
    R.Goes o occurrences path ref P
      (readPlaces style expecting index (types.map (seedOf read))
        (.walk path false limit index samples))
      fun r _ => ∃ limit n samples, r.2 = .walk path false limit n samples := by
  induction types generalizing index samples P with
  | nil => exact goes_pure fun _ _ => ⟨limit, index, samples, rfl⟩
  | cons t types ih =>
      obtain ⟨here, keyed⟩ := enters 0 t rfl
      unfold List.map readPlaces SeqCursor.next?
      dsimp only
      split
      · exact goes_refuse style fun _ same => by cases same
      · simp only [bind_assoc, pure_bind]
        refine goes_value here (fun _ _ named => .inl (keyed named)) fun v => ?_
        refine ih (index + 1) (v :: samples) fun i t' found => ?_
        have later := enters (i + 1) t' found
        rwa [Nat.add_comm i 1, ← Nat.add_assoc] at later

theorem goes_acceptTuple (style : Style) (expecting : String) {types : List TypeExpr}
    (enters : ∀ i t, types[i]? = some t → R.Enters o occurrences path ref read t ∧
      (t.ref = R.ref → Decimal.numeral i ∈ R.keys)) :
    R.Goes o occurrences path ref P (acceptTuple expecting (types.map (seedOf read))
      ⟨.seq (.walk path false types.length 0 []), style, none⟩) fun _ _ => True := by
  refine goes_readSeqCursor (goes_readPlaces style expecting _ types 0 [] fun i t found => ?_)
  rw [Nat.zero_add]
  exact enters i t found

/-- A map of which no key was learned is asked for one value. -/
theorem goes_readEntries (enters : R.Enters o occurrences path ref read t)
    (keyed : t.ref = R.ref → Shape.anyKey ∈ R.keys) (most : Nat) (yielded : Bool)
    (samples : List (String × Json)) :
    R.Goes o occurrences path ref P
      (readEntries (fun source => discard (readText source)) (seedOf read t) most
        (.walk path false (.opened yielded) none samples))
      fun r _ => ∃ keys samples, r.2 = .walk path false keys none samples := by
  induction most generalizing yielded samples P with
  | zero => exact goes_pure fun _ _ => ⟨_, samples, rfl⟩
  | succ most ih =>
      unfold readEntries MapCursor.nextKey?
      cases yielded with
      | true => exact goes_pure fun _ _ => ⟨_, samples, rfl⟩
      | false =>
          have text : Traceless F.schemas (discard (readText (.walk path true))) :=
            scalars_traceless.readText.map _
          dsimp only
          rw [bind_assoc]
          refine (goes_quiet text).bind fun _ => ?_
          rw [bind_assoc]
          refine goes_takeSample.bind fun v => ?_
          rw [pure_bind]
          simp only [MapCursor.nextValue, bind_assoc, pure_bind]
          exact goes_value enters (fun _ _ named => .inl (keyed named)) fun v => ih true _

theorem goes_readMapCursor {keys : Keys} {body : MapCursor → Decode (Unit × MapCursor)}
    (h : R.Goes o occurrences path ref P (body (.walk path false keys none [])) fun r _ =>
      ∃ keys samples, r.2 = .walk path false keys none samples) :
    R.Goes o occurrences path ref P (MapCursor.read (.walk path false keys none []) body)
      fun _ _ => True := by
  have closed (r : Unit × MapCursor)
      (stands : ∃ keys samples, r.2 = .walk path false keys none samples) :
      R.Goes o occurrences path ref (fun _ => True) (r.2.close *> pure r.1) fun _ _ => True := by
    obtain ⟨keys, samples, cursor⟩ := stands
    rw [cursor]
    exact (goes_setSample _).bind fun _ => goes_pure fun _ _ => trivial
  unfold MapCursor.read
  dsimp only
  split
  · exact (h.onFault _ _).bindGiven closed
  · exact h.bindGiven closed

theorem goes_readFields (style : Style) {fields : List FieldDecl} (denyUnknown : Bool)
    (enters : ∀ field ∈ fields, R.Enters o occurrences path ref read field.type ∧
      (field.type.ref = R.ref → field.name ∈ R.keys))
    (more : Nat) {before after : List FieldDecl} {done : List Nat}
    (split : fields = before ++ after)
    (few : after.length < more) (isDone : ∀ j < before.length, j ∈ done)
    (samples : List (String × Json)) :
    R.Goes o occurrences path ref P
      (readFields read style fields denyUnknown more done
        (.walk path false (.declared (after.map FieldDecl.name)) none samples))
      fun r _ => (∀ j < fields.length, j ∈ r.1) ∧
        ∃ keys samples, r.2 = .walk path false keys none samples := by
  induction more generalizing before after done samples P with
  | zero => cases few
  | succ more ih =>
      unfold readFields
      cases after with
      | nil =>
          rw [List.append_nil] at split
          subst split
          exact goes_pure fun _ _ => ⟨isDone, _, samples, rfl⟩
      | cons field after =>
          have key : MapCursor.nextKey?
              (.walk path false (.declared ((field :: after).map FieldDecl.name)) none samples)
              readText = pure (some (field.name, .walk path false
                (.declared (after.map FieldDecl.name)) (some (field.name, field.name))
                samples)) := rfl
          rw [key, pure_bind]
          dsimp only
          cases found : findField? fields field.name with
          | none =>
              refine absurd found (Ground.findField?_ne_none ?_)
              rw [split]
              exact List.mem_append_right _ List.mem_cons_self
          | some entry =>
              obtain ⟨i, declared⟩ := entry
              dsimp only
              cases twice : done.contains i with
              | true => exact goes_refuse style fun _ same => by cases same
              | false =>
                  have fresh : i ∉ done := by simpa using twice
                  obtain ⟨here, keyed⟩ := enters declared (findField?_mem found)
                  rw [split] at found
                  obtain ⟨rfl, rfl, -⟩ := Ground.findField?_append found
                    (Nat.le_of_not_lt fun early => fresh (isDone i early))
                  have later : fields = (before ++ [declared]) ++ after := by
                    rw [split, List.append_assoc, List.singleton_append]
                  rw [if_neg Bool.false_ne_true]
                  simp only [MapCursor.nextValue, bind_assoc, pure_bind]
                  refine goes_value here (fun _ _ named => .inl (keyed named)) fun v => ?_
                  refine ih later (Nat.lt_of_succ_lt_succ few) (fun j hj => ?_) _
                  rw [List.length_append, List.length_singleton] at hj
                  rcases Nat.lt_succ_iff_lt_or_eq.mp hj with earlier | rfl
                  · exact List.mem_cons_of_mem _ (isDone j earlier)
                  · exact List.mem_cons_self

theorem goes_acceptRecord (style : Style) (expecting : String) {fields : List FieldDecl}
    (denyUnknown : Bool)
    (enters : ∀ field ∈ fields, R.Enters o occurrences path ref read field.type ∧
      (field.type.ref = R.ref → field.name ∈ R.keys)) :
    R.Goes o occurrences path ref P (acceptRecord read expecting fields denyUnknown
      ⟨.map (.walk path false (.declared (fields.map FieldDecl.name)) none []), style, none⟩)
      fun _ _ => True := by
  show R.Goes o occurrences path ref P (readRecordMap read style fields denyUnknown _) _
  refine goes_readMapCursor (Goes.bindGiven (goes_readFields style denyUnknown enters _
    (List.nil_append fields).symm ?_ nofun []) fun r read => ?_)
  · simp [MapCursor.left]
  · obtain ⟨isDone, stands⟩ := read
    have complete : ∀ i field, fields[i]? = some field → r.1.contains i = true :=
      fun i field there => by simpa using isDone i (List.getElem?_eq_some_iff.mp there).1
    dsimp only
    rw [checkMissing_done complete, pure_bind]
    exact goes_pure fun _ _ => stands

end

/-! ## Walks of types -/

section
variable {read : TypeReader} {t : TypeExpr} {layout : Layout}

/-- Where a cycle ends, such a type leaves nothing. -/
theorem exec_layout_cut (read : TypeReader) (isCut : layout.IsCut)
    (cycle : s.session.inCycle path = true) :
    ∃ v, exec (layout.read read (.walk path false)) s =
      (.ok (), s.inSession (Note.sample v).apply) := by
  cases layout with
  | option t =>
      refine ⟨.null, ?_⟩
      have answer := exec_walkAnswer_option s path false
      rw [if_pos cycle] at answer
      unfold Layout.read readOption
      rw [exec_bind, exec_ask_walk _ answer]
      rfl
  | seq t =>
      refine ⟨.array [], ?_⟩
      have answer : exec (Source.walkAnswer path false .seq) s =
          (.ok (.seq (.walk path false 0 0 [])), s) := by
        show (Except.ok (Visit.seq (.walk path false (if _ then _ else _) 0 [])), s) = _
        rw [if_pos cycle]
      unfold Layout.read readSeq
      rw [exec_bind, exec_ask_walk _ answer]
      rfl
  | map t =>
      refine ⟨.object [], ?_⟩
      have answer := exec_walkAnswer_map s path false
      rw [if_pos cycle] at answer
      unfold Layout.read readMap
      rw [exec_bind, exec_ask_walk _ answer]
      rfl
  | _ => exact isCut.elim

/-- A layout gives its node another body at most, if its parts do, in place and under keys. -/
theorem At.readsLayout (h : R.At o occurrences path ref .plain s) (read : TypeReader)
    (single : ∀ name variants, layout ≠ .enumeration name variants)
    (uncut : layout.IsCut → s.session.inCycle path = false)
    (inner : ∀ t, layout.inner? = some t → ∀ s, R.At o occurrences path ref .plain s →
      Came (fun _ u => ∃ body, R.Led o occurrences path ref body s u)
        (exec (read t (.walk path false)) s))
    (enters : ∀ t ∈ layout.parts, R.Enters o occurrences path ref read t)
    (keyed : ∀ {key p}, layout.Under 1 none key p → p.ref = R.ref → key ∈ R.keys) :
    Came (fun _ u => ∃ body, R.Led o occurrences path ref body s u)
      (exec (layout.read read (.walk path false)) s) := by
  have ended {m : Decode Unit}
      (goes : R.Goes o occurrences path ref (fun _ => True) m fun _ _ => True) :
      Came (fun _ u => ∃ body, R.Led o occurrences path ref body s u) (exec m s) :=
    (goes s _ h trivial).mono fun _ _ left => left.1
  cases layout with
  | pointer t => exact inner t rfl s h
  | newtype name t =>
      unfold Layout.read readNewtype
      rw [exec_bind, exec_ask_walk _ rfl]
      exact inner t rfl s h
  | option t =>
      have answer := exec_walkAnswer_option s path false
      rw [if_neg (by rw [uncut trivial]; exact Bool.false_ne_true)] at answer
      unfold Layout.read readOption
      rw [exec_bind, exec_ask_walk _ answer]
      exact inner t rfl s h
  | record expecting fields library denyUnknown =>
      have fields' : ∀ field ∈ fields, R.Enters o occurrences path ref read field.type ∧
          (field.type.ref = R.ref → field.name ∈ R.keys) := fun field member =>
        ⟨enters _ (List.mem_map_of_mem member), keyed ⟨field, member, rfl, rfl⟩⟩
      cases library with
      | true => exact ended (goes_acceptRecord .engine expecting true fields')
      | false => exact ended (goes_acceptRecord .engine expecting denyUnknown fields')
  | seq t =>
      exact ended (goes_readSeq (enters t (List.mem_singleton_self _))
        (keyed ⟨rfl, 0, Nat.zero_lt_one, rfl⟩))
  | tuple expecting types =>
      have places := goes_acceptTuple (P := fun _ => True) .engine expecting fun i t there =>
        ⟨enters t (List.mem_of_getElem? there), keyed ⟨i, there, rfl⟩⟩
      unfold Layout.read readTuple
      rw [exec_bind, exec_ask_walk _ rfl, List.length_map]
      exact ended places
  | map t =>
      have unknown : s.session.hints.keys? path.site = none := by
        rw [h.unlearned.hints]
        rfl
      have answer := exec_walkAnswer_map s path false
      rw [if_neg (by rw [uncut trivial]; exact Bool.false_ne_true), unknown] at answer
      unfold Layout.read readMap
      rw [exec_bind, exec_ask_walk _ answer]
      exact ended (goes_readMapCursor (goes_readEntries (enters t (List.mem_singleton_self _))
        (keyed ⟨rfl, List.mem_singleton_self _⟩) _ false []))
  | enumeration name variants => exact absurd rfl (single name variants)

/-- A walk of a type of the set leaves what it may. -/
theorem walks (depth : Nat) (member : F.types t) :
    R.Walks o (t.IsCut F.schemas) (readType depth t) := by
  induction depth generalizing t with
  | zero => exact fun _ h => ⟨nofun, h.unlearned⟩
  | succ depth ih =>
      intro occurrences path ref s positive h
      rcases F.kinds member with scalar | ⟨layout, hl, single⟩
      · have quiet : Traceless F.schemas (readType (depth + 1) t (.walk path false)) :=
          scalars_traceless.readType scalar _
        exact (h.obeyed (quiet s h.world.declared)).mono fun _ _ led =>
          ⟨.plain, led, fun _ _ => rfl⟩
      · have part {p : TypeExpr} (inside : p ∈ layout.parts) : F.types p :=
          F.parts member p ((mem_parts_iff hl p).mpr inside)
        have isCut (cut : t.IsCut F.schemas) : layout.IsCut := by
          obtain ⟨other, same, cut⟩ := cut
          rwa [Option.some.inj (hl.symm.trans same)]
        rw [readType, exec_layout hl _ _ h.world.declared]
        have began := h.began t
        by_cases cycle : layout.IsCut ∧ (s.began t).session.inCycle path = true
        · obtain ⟨v, run⟩ := exec_layout_cut (readType depth) cycle.1 cycle.2
          rw [run]
          exact ⟨.plain, (began.sampled v).began, fun _ _ => rfl⟩
        · have inPlace (p : TypeExpr) (inner : layout.inner? = some p) (s' : State)
              (h' : R.At o occurrences path ref .plain s') :
              Came (fun _ u => ∃ body, R.Led o occurrences path ref body s' u)
                (exec (readType depth p (.walk path false)) s') :=
            (ih (part (mem_parts_of_inner inner)) positive h').mono fun _ _ left =>
              left.imp fun _ led => led.1
          have enters (p : TypeExpr) (inside : p ∈ layout.parts) :
              R.Enters o occurrences path ref (readType depth) p :=
            fun key s' body h' keyed => h'.readsChild positive (part inside) (ih (part inside))
              (traceless_readType F.parts F.kinds depth (part inside)) keyed
          have uncut (cut : layout.IsCut) : (s.began t).session.inCycle path = false := by
            simpa [cut] using cycle
          have read := began.readsLayout (readType depth) single uncut inPlace enters
            (R.stands member hl)
          refine read.mono fun _ u left => ?_
          obtain ⟨body, led⟩ := left
          refine ⟨body, led.began, fun cut ends => absurd ⟨isCut cut, ?_⟩ cycle⟩
          rwa [State.began_session]

end

/-! ## Reflections -/

section
variable {type : TypeExpr} {context : List (String × Json)} {shape : Shape}

theorem At.start (declared : w.schemas = F.schemas) (registered : w.registry = F.registry)
    (empty : w.cache = []) (type : TypeExpr) (context : List (String × Json)) :
    R.At o [] [] type.ref .plain (rootState type o context [] w) where
  options := rfl
  counted := rfl
  unlearned := ⟨rfl, rfl, rfl⟩
  world := ⟨declared, registered, fun found => by
    rw [show (rootState type o context [] w).world = w from rfl, empty] at found
    cases found⟩
  stands _ := rfl
  takes := trivial
  few := ShapeBody.few_plain

/-- In what is reflected from an empty cache, an optional, a sequence or a map stands at most once
more on a way down than there are steps to it before it is cut off: as many as the threshold, under
each key under which it stands in the schemas. -/
theorem reflect_few (member : F.types type) (declared : w.schemas = F.schemas)
    (registered : w.registry = F.registry) (empty : w.cache = []) {d : Nat}
    (run : exec (reflectWithin d type o context) w = (.ok shape, w')) :
    shape.body.Few R.ref (R.keys.length * o.cycleThreshold + 1) := by
  have unregistered : w.registry.documentationOf? type.ref = none := by
    rw [registered]
    exact F.unregistered member
  have start : R.At o [] [] type.ref .plain (rootState type o context [] w) :=
    .start declared registered empty type context
  have came := (walks d member positive_nil start).onFault [] .any
  rw [reflectWithin, exec_reflectWith, empty, unregistered] at run
  dsimp only [Table.get?] at run
  rw [show maxWalks = 63 + 1 from rfl, exec_walkRoot] at run
  unfold readRoot at run
  generalize exec (onFault _ _) _ = x at came run
  obtain ⟨stop | a, u⟩ := x
  · -- nothing was learned, so the root is not walked again
    have once : u.session.revised = false := came.2.revised
    rcases stop with fault | _ | _ | _ <;> simp [once, cacheRoot] at run
  · obtain ⟨body, led, -⟩ := came
    have root : u.session.tree = ⟨type.ref, body⟩ := Option.some.inj (led.stands rfl)
    obtain rfl : u.session.tree = shape := Except.ok.inj (Prod.mk.inj run).1
    rw [root, ← room_nil]
    exact led.few.mono (most_le _ _)

end

/-! ## Nodes with children and a successor -/

namespace Linked

def slot : Slot := ⟨"T0", "api::model::T<0>"⟩

def node : TypeExpr := .declared slot

def successor : TypeExpr := .option node

def children : TypeExpr := .vec successor

def schemas : Schemas :=
  [(slot, .record "Node" [⟨"children", children, false⟩, ⟨"next", successor, false⟩] false)]

def types : List TypeExpr := [node, successor, children]

def records : RecordSet where
  schemas := schemas
  registry := []
  types := (· ∈ types)
  parts := fun h => (by decide +kernel : ∀ t ∈ types, ∀ p ∈ t.parts schemas, p ∈ types) _ h
  kinds := by
    intro t member
    simp only [types, List.mem_cons, List.not_mem_nil, or_false] at member
    rcases member with rfl | rfl | rfl <;> exact .inr ⟨_, rfl, nofun⟩
  unregistered _ := rfl

/-- A successor stands under its own name and as an element. -/
def repeated : Repeated records where
  ref := successor.ref
  isCut := by
    intro t member named
    simp only [records, types, List.mem_cons, List.not_mem_nil, or_false] at member
    rcases member with rfl | rfl | rfl
    · exact absurd named (by decide +kernel)
    · exact ⟨_, rfl, trivial⟩
    · exact ⟨_, rfl, trivial⟩
  keys := [Decimal.numeral 0, "next"]
  stands := by
    intro t layout key p member found under named
    simp only [records, types, List.mem_cons, List.not_mem_nil, or_false] at member
    rcases member with rfl | rfl | rfl <;> cases found
    · obtain ⟨field, member, rfl, rfl⟩ := under
      simp only [List.mem_cons, List.not_mem_nil, or_false] at member
      rcases member with rfl | rfl
      · exact absurd named (by decide +kernel)
      · exact List.mem_cons_of_mem _ List.mem_cons_self
    · exact under.elim
    · obtain ⟨-, i, first, rfl⟩ := under
      obtain rfl := Nat.lt_one_iff.mp first
      exact List.mem_cons_self

def few : Options := { cycleThreshold := 1, maxSequenceLength := 1 }

/-- A successor without elements, above another one. -/
def above (body : ShapeBody) : Shape :=
  ⟨successor.ref, .fields
    [("children", Shape.leaf children.ref), ("next", ⟨successor.ref, body⟩)]⟩

/-- The element was walked first, where its key was not counted yet, and is cached with the
successors behind it. -/
def reflected : Shape :=
  ⟨node.ref, .fields
    [("children", ⟨children.ref, .fields [(Shape.elementsKey, above (above .plain).body)]⟩),
      ("next", above (above .plain).body)]⟩

theorem reflect_few_linked :
    (exec (reflectWithin 12 node few []) ({ schemas } : World)).1 = .ok reflected ∧
      reflected.body.Few successor.ref 3 := by
  have run : (exec (reflectWithin 12 node few []) ({ schemas } : World)).1 = .ok reflected := by
    decide +kernel
  exact ⟨run, reflect_few (R := repeated) (w := { schemas }) (show node ∈ types by decide) rfl rfl
    rfl (Prod.ext run rfl)⟩

/-- A successor stands below itself under its own name more often than the threshold and once. -/
theorem repeated_beyond : (exec (reflectWithin 12 node few []) ({ schemas } : World)).1 =
      .ok reflected ∧
    ¬ ∀ path, reflected.body.Leads path →
      path.count ⟨"next", successor.ref⟩ ≤ few.cycleThreshold + 1 := by
  refine ⟨by decide +kernel, fun h => ?_⟩
  have next {body : ShapeBody} {rest : Path} (later : body.Leads rest) :
      (above body).body.Leads (⟨"next", successor.ref⟩ :: rest) := by
    have member : ("next", (⟨successor.ref, body⟩ : Shape)) ∈ (above body).body.entries :=
      List.mem_cons_of_mem _ List.mem_cons_self
    exact .step member later
  have first : ("next", above (above .plain).body) ∈ reflected.body.entries :=
    List.mem_cons_of_mem _ List.mem_cons_self
  have path : reflected.body.Leads [⟨"next", successor.ref⟩, ⟨"next", successor.ref⟩,
      ⟨"next", successor.ref⟩] :=
    .step first (next (next (.stay _)))
  exact absurd (h _ path) (by decide +kernel)

end Linked
end Repeated
end Walk
end ApiAtlas
