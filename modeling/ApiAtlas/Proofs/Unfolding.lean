import ApiAtlas.Proofs.PlainShape
import ApiAtlas.Proofs.Records

/-!
# Recursive records are unfolded up to the threshold

A record of scalars that holds itself under one key, in a list, an optional or a map, is unfolded as
often as a step may repeat. Going down, only the step to what holds the record repeats, and every
one of them is walked. Going up, what holds a copy is cached over what holds the copies inside it,
and so is the copy; the other elements of a list are served the entry that was written last, so they
are told once.
-/
namespace ApiAtlas.Walk
open Decode Reader Filter

/-- How a record holds itself. -/
inductive Holder where
  | list
  | optional
  | map
  deriving DecidableEq, Repr

namespace Holder

def around : Holder → TypeExpr → TypeExpr
  | list, type => .vec type
  | optional, type => .option (.pointer .box type)
  | map, type => .map type

/-- The body of what holds a record, given the body of the record. An optional is read in place. -/
def body : Holder → TypeRef → ShapeBody → ShapeBody
  | list, ref, inside => .fields [(Shape.elementsKey, ⟨ref, inside⟩)]
  | optional, _, inside => inside
  | map, ref, inside => .fields [(Shape.anyKey, ⟨ref, inside⟩)]

end Holder

/-- A record of scalars, and of itself under one key. -/
structure SelfRecord where
  slot : Slot
  name : String
  denyUnknown : Bool
  front : List FieldDecl
  key : String
  holder : Holder
  mayBeAbsent : Bool
  back : List FieldDecl

namespace SelfRecord

def type (R : SelfRecord) : TypeExpr := .declared R.slot

def held (R : SelfRecord) : TypeExpr := R.holder.around R.type

def fields (R : SelfRecord) : List FieldDecl :=
  R.front ++ ⟨R.key, R.held, R.mayBeAbsent⟩ :: R.back

def types (R : SelfRecord) : List TypeExpr := R.type :: R.fields.map FieldDecl.type

/-- The body of one copy of the record, given the body of what holds the next one. -/
def level (R : SelfRecord) (inside : ShapeBody) : ShapeBody :=
  ShapeBody.plain.withFields (R.fields.map fun field =>
    (field.name, ⟨field.type.ref, if field.name = R.key then inside else .plain⟩))

/-- The body of what holds the record, with a number of copies one in the other. -/
def unfolding (R : SelfRecord) : Nat → ShapeBody
  | 0 => .plain
  | n + 1 => R.holder.body R.type.ref (R.level (R.unfolding n))

/-- The record is declared, its other fields accept the data made up for them, and nothing in it is
registered or has the name of something else. -/
structure Declared (R : SelfRecord) (schemas : Schemas) (registry : Registry) : Prop where
  schema : Table.get? schemas R.slot = some (.record R.name R.fields R.denyUnknown)
  scalars : ∀ field ∈ R.front ++ R.back, ∃ zero, field.type.zero? schemas = some zero
  names : (R.fields.map FieldDecl.name).Nodup
  apart : ∀ a ∈ R.types, ∀ b ∈ R.types, a.ref = b.ref → a = b
  unregistered : ∀ t ∈ R.types, registry.documentationOf? t.ref = none

section
variable {R : SelfRecord} {schemas : Schemas} {registry : Registry} {o : Options}

theorem type_mem (R : SelfRecord) : R.type ∈ R.types := List.mem_cons_self

theorem field_type_mem {field : FieldDecl} (h : field ∈ R.fields) : field.type ∈ R.types :=
  List.mem_cons_of_mem _ (List.mem_map_of_mem h)

theorem held_mem (R : SelfRecord) : R.held ∈ R.types :=
  field_type_mem (show FieldDecl.mk R.key R.held R.mayBeAbsent ∈ R.fields by simp [fields])

theorem type_ne_held (R : SelfRecord) : R.type ≠ R.held := by
  unfold held type
  cases R.holder <;> nofun

theorem Holder.zero?_around (holder : Holder) (type : TypeExpr) (schemas : Schemas) :
    (holder.around type).zero? schemas = none := by
  cases holder <;> rfl

/-- A field is what holds the record, or another one and a scalar. -/
theorem Declared.field_cases (h : R.Declared schemas registry) {field : FieldDecl}
    (member : field ∈ R.fields) :
    field.name = R.key ∧ field.type = R.held ∨
      field.name ≠ R.key ∧ ∃ zero, field.type.zero? schemas = some zero := by
  have names := h.names
  simp only [fields, List.map_append, List.map_cons, List.nodup_append, List.nodup_cons] at names
  obtain ⟨-, ⟨behind, -⟩, before⟩ := names
  rcases List.mem_append.mp member with front | rest
  · refine .inr ⟨fun same => ?_, h.scalars field (List.mem_append_left _ front)⟩
    exact before _ (List.mem_map_of_mem front) _ List.mem_cons_self same
  · rcases List.mem_cons.mp rest with rfl | back
    · exact .inl ⟨rfl, rfl⟩
    · refine .inr ⟨fun same => ?_, h.scalars field (List.mem_append_right _ back)⟩
      exact behind (same ▸ List.mem_map_of_mem back)

theorem Declared.zero?_type (h : R.Declared schemas registry) : R.type.zero? schemas = none := by
  simp [type, TypeExpr.zero?, h.schema, Schema.scalar?]

/-- The body under every type inside the record, where a number of copies is left. -/
def inside (R : SelfRecord) (n : Nat) (t : TypeExpr) : ShapeBody :=
  if t = R.type then R.level (R.unfolding n) else if t = R.held then R.unfolding n else .plain

theorem inside_type (R : SelfRecord) (n : Nat) : R.inside n R.type = R.level (R.unfolding n) :=
  if_pos rfl

theorem inside_held (R : SelfRecord) (n : Nat) : R.inside n R.held = R.unfolding n := by
  rw [inside, if_neg R.type_ne_held.symm, if_pos rfl]

/-- A scalar of the record. -/
def Scalar (R : SelfRecord) (schemas : Schemas) (t : TypeExpr) : Prop :=
  t ∈ R.types ∧ ∃ zero, t.zero? schemas = some zero

theorem Declared.scalar_ne_type (h : R.Declared schemas registry) {t : TypeExpr}
    (scalar : R.Scalar schemas t) : t ≠ R.type := by
  rintro rfl
  obtain ⟨-, zero, known⟩ := scalar
  rw [h.zero?_type] at known
  cases known

theorem scalar_ne_held {t : TypeExpr} (scalar : R.Scalar schemas t) : t ≠ R.held := by
  rintro rfl
  obtain ⟨-, zero, known⟩ := scalar
  rw [held, Holder.zero?_around] at known
  cases known

theorem Declared.inside_scalar (h : R.Declared schemas registry) {t : TypeExpr}
    (scalar : R.Scalar schemas t) (n : Nat) : R.inside n t = .plain := by
  rw [inside, if_neg (h.scalar_ne_type scalar), if_neg (scalar_ne_held scalar)]

/-! ## What is cached -/

/-- The scalars of the record are cached as they are. -/
structure Grounded (R : SelfRecord) (schemas : Schemas) (registry : Registry) (o : Options)
    (w : World) : Prop where
  declared : w.schemas = schemas
  registered : w.registry = registry
  scalars : ∀ {t entry}, R.Scalar schemas t → Table.get? w.cache (t.ref, o) = some entry →
    entry.shape = Shape.leaf t.ref ∧ Accepted schemas t entry.sample

/-- Where a number of copies is left: the entry of a type that may be served is the one written
last, and until there is one another type has none. -/
structure Filed (R : SelfRecord) (schemas : Schemas) (registry : Registry) (o : Options) (n : Nat)
    (own other : TypeExpr) (w : World) : Prop extends R.Grounded schemas registry o w where
  entry : ∀ {entry}, Table.get? w.cache (own.ref, o) = some entry →
    entry.shape = ⟨own.ref, R.inside n own⟩ ∧ Accepted schemas own entry.sample
  fresh : Table.get? w.cache (own.ref, o) = none → Table.get? w.cache (other.ref, o) = none

variable {n : Nat} {own other t : TypeExpr} {w v : World} {sample : Json}

theorem Grounded.recounted (h : R.Grounded schemas registry o w) (hs : v.schemas = w.schemas)
    (hr : v.registry = w.registry) (hc : v.cache = w.cache) : R.Grounded schemas registry o v :=
  ⟨hs.trans h.declared, hr.trans h.registered, fun scalar found => h.scalars scalar (hc ▸ found)⟩

theorem Filed.recounted (h : R.Filed schemas registry o n own other w)
    (hs : v.schemas = w.schemas) (hr : v.registry = w.registry) (hc : v.cache = w.cache) :
    R.Filed schemas registry o n own other v :=
  ⟨h.toGrounded.recounted hs hr hc, fun found => h.entry (hc ▸ found), hc ▸ h.fresh⟩

theorem Declared.ref_ne (h : R.Declared schemas registry) {a b : TypeExpr} (ha : a ∈ R.types)
    (hb : b ∈ R.types) (apart : a ≠ b) : (a.ref, o) ≠ (b.ref, o) :=
  fun same => apart (h.apart a ha b hb (Prod.mk.inj same).1)

theorem Declared.get?_caching (h : R.Declared schemas registry) {a b : TypeExpr} (ha : a ∈ R.types)
    (hb : b ∈ R.types) (apart : a ≠ b) (entry : CacheEntry) :
    Table.get? (w.caching b.ref o entry).cache (a.ref, o) = Table.get? w.cache (a.ref, o) :=
  Table.get?_put_of_ne _ _ (h.ref_ne ha hb apart)

/-- A scalar may be cached. -/
theorem Filed.scalar (h : R.Declared schemas registry)
    (filed : R.Filed schemas registry o n own other w) (scalar : R.Scalar schemas t)
    (hown : own ∈ R.types) (hother : other ∈ R.types) (apart : t ≠ own) (apart' : t ≠ other)
    (accepted : Accepted schemas t sample) :
    R.Filed schemas registry o n own other (w.caching t.ref o ⟨sample, Shape.leaf t.ref⟩) := by
  refine ⟨⟨filed.declared, filed.registered, fun {t' entry} scalar' found => ?_⟩,
    fun {entry} found => ?_, fun absent => ?_⟩
  · by_cases same : t' = t
    · subst same
      obtain rfl := Option.some.inj ((Table.get?_put_self _ _ _).symm.trans found)
      exact ⟨rfl, accepted⟩
    · exact filed.scalars scalar' ((h.get?_caching scalar'.1 scalar.1 same _).symm.trans found)
  · exact filed.entry ((h.get?_caching hown scalar.1 apart.symm _).symm.trans found)
  · rw [h.get?_caching hother scalar.1 apart'.symm]
    exact filed.fresh ((h.get?_caching hown scalar.1 apart.symm _).symm.trans absent)

/-- What was read is cached over what was read inside. -/
theorem Grounded.filed (h : R.Declared schemas registry)
    (grounded : R.Grounded schemas registry o w)
    (hown : own ∈ R.types) (unlike : ∀ t, R.Scalar schemas t → t ≠ own)
    (accepted : Accepted schemas own sample) :
    R.Filed schemas registry o n own other
      (w.caching own.ref o ⟨sample, ⟨own.ref, R.inside n own⟩⟩) := by
  have written : Table.get? (w.caching own.ref o ⟨sample, ⟨own.ref, R.inside n own⟩⟩).cache
      (own.ref, o) = some ⟨sample, ⟨own.ref, R.inside n own⟩⟩ := Table.get?_put_self _ _ _
  refine ⟨⟨grounded.declared, grounded.registered, fun {t' entry} scalar' found => ?_⟩,
    fun {entry} found => ?_, fun absent => ?_⟩
  · exact grounded.scalars scalar'
      ((h.get?_caching scalar'.1 hown (unlike t' scalar') _).symm.trans found)
  · obtain rfl := Option.some.inj (written.symm.trans found)
    exact ⟨rfl, accepted⟩
  · rw [written] at absent
    cases absent

/-! ## Counts -/

/-- On the way down, the step to what holds the record was taken so often, and no step to the record
more often than so; no step to a scalar leads further. -/
structure Counted (R : SelfRecord) (schemas : Schemas) (occurrences : List (Segment × Nat))
    (held copies : Nat) : Prop where
  positive : Positive occurrences
  held : (Table.get? occurrences ⟨R.key, R.held.ref⟩).getD 0 = held
  copies : ∀ key, (Table.get? occurrences ⟨key, R.type.ref⟩).getD 0 ≤ copies
  scalars : ∀ key t, R.Scalar schemas t → Table.get? occurrences ⟨key, t.ref⟩ = none

variable {occurrences : List (Segment × Nat)} {i j : Nat} {key : String}

theorem Declared.get?_stepped (h : R.Declared schemas registry) {a b : TypeExpr} (ha : a ∈ R.types)
    (hb : b ∈ R.types) (apart : a ≠ b) (key key' : String) :
    Table.get? (stepped occurrences ⟨key', b.ref⟩) ⟨key, a.ref⟩ =
      Table.get? occurrences ⟨key, a.ref⟩ :=
  Table.get?_put_of_ne _ _ fun same => apart (h.apart a ha b hb (Segment.mk.inj same).2)

theorem Counted.stepHeld (counted : R.Counted schemas occurrences i j)
    (h : R.Declared schemas registry) :
    R.Counted schemas (stepped occurrences ⟨R.key, R.held.ref⟩) (i + 1) j := by
  refine ⟨counted.positive.stepped _, ?_, fun key => ?_, fun key t scalar => ?_⟩
  · rw [stepped, Table.get?_put_self, Option.getD_some, counted.held]
  · rw [h.get?_stepped R.type_mem R.held_mem R.type_ne_held]
    exact counted.copies key
  · rw [h.get?_stepped scalar.1 R.held_mem (scalar_ne_held scalar)]
    exact counted.scalars key t scalar

theorem Counted.stepCopy (counted : R.Counted schemas occurrences i j)
    (h : R.Declared schemas registry) (key : String) :
    R.Counted schemas (stepped occurrences ⟨key, R.type.ref⟩) i (j + 1) := by
  refine ⟨counted.positive.stepped _, ?_, fun key' => ?_, fun key' t scalar => ?_⟩
  · rw [h.get?_stepped R.held_mem R.type_mem R.type_ne_held.symm]
    exact counted.held
  · by_cases same : key' = key
    · rw [same, stepped, Table.get?_put_self, Option.getD_some]
      exact Nat.succ_le_succ (counted.copies key)
    · rw [stepped, Table.get?_put_of_ne _ _ fun steps => same (Segment.mk.inj steps).1]
      exact Nat.le_succ_of_le (counted.copies key')
  · rw [h.get?_stepped scalar.1 R.type_mem (h.scalar_ne_type scalar)]
    exact counted.scalars key' t scalar

/-! ## Walks -/

/-- What a walk finds inside the record, where a number of copies is left and a type may be served
from the cache. -/
def stage (R : SelfRecord) (schemas : Schemas) (registry : Registry) (o : Options) (n : Nat)
    (own other : TypeExpr) (occurrences : List (Segment × Nat)) : Stage where
  options := o
  occurrences := occurrences
  hints := []
  late := atTop
  fits := R.Filed schemas registry o n own other
  grows _ _ := True
  made _ _ x := x.body = R.inside n x.type ∧ Accepted schemas x.type x.sample
  refl _ := trivial
  trans _ _ := trivial
  kept h _ := h

variable {path : Path} {S : Stage}

theorem counts_stage : (R.stage schemas registry o n own other occurrences).Counts schemas :=
  ⟨fun fits => fits.declared, fun fits _ => ⟨fits.recounted rfl rfl rfl, trivial⟩⟩

/-- A value under a key lands: what is cached of it is served, and otherwise it is walked. -/
theorem lands_child (h : R.Declared schemas registry) (ht : R.Scalar schemas t ∨ t = own)
    (hown : own ∈ R.types) (positive : Positive occurrences)
    (within : (Table.get? (stepped occurrences ⟨key, t.ref⟩) ⟨key, t.ref⟩).getD 0 ≤ o.runawayLimit)
    (late : S.late = atTop) {left : World → ShapeBody → Json → Prop}
    (reads : S.Reads (fun d => readType d t) (path.child key t.ref) false left)
    (enters : ∀ u, (R.stage schemas registry o n own other occurrences).Holds u →
      Table.get? u.world.cache (t.ref, o) = none → S.Holds (u.entering ⟨key, t.ref⟩))
    (leaves : ∀ w body sample, S.fits w → left w body sample → body = R.inside n t ∧
      Accepted schemas t sample ∧
      R.Filed schemas registry o n own other (w.caching t.ref o ⟨sample, ⟨t.ref, body⟩⟩)) :
    (R.stage schemas registry o n own other occurrences).Child readType path false key t := by
  intro s ref body hs stands takes
  have member : t ∈ R.types := ht.elim (·.1) (· ▸ hown)
  have options : s.session.options = o := hs.options
  have fits : R.Filed schemas registry o n own other s.world := hs.fits
  cases cached : Table.get? s.world.cache (t.ref, o) with
  | some entry =>
      obtain ⟨shape, accepted⟩ : entry.shape = ⟨t.ref, R.inside n t⟩ ∧
          Accepted schemas t entry.sample := by
        rcases ht with scalar | rfl
        · rw [h.inside_scalar scalar]
          exact fits.scalars scalar cached
        · exact fits.entry cached
      obtain ⟨D, late⟩ := eventually_atTop.mp accepted
      obtain ⟨counts, run⟩ := late D (Nat.le_refl D)
        (s.landed path false ⟨ref, body.withField key entry.shape⟩ s.session.sample s.world)
        fits.declared
      refine ⟨⟨t, R.inside n t, entry.sample⟩, { s.world with counts }, rfl,
        eventually_atTop.mpr ⟨D, fun d hd => ?_⟩, fits.recounted rfl rfl rfl, trivial, rfl,
        accepted⟩
      rw [← readType_mono hd _ _ _ (by rw [run]; nofun)] at run
      refine (stands.served (seedOf (readType d) t) (options ▸ cached) run).trans ?_
      rw [shape]
      rfl
  | none =>
      -- the walk starts in the world of this state
      let here : Stage :=
        { R.stage schemas registry o n own other occurrences with fits := fun w => w = s.world }
      have holds : here.Holds s := ⟨hs.options, hs.occurrences, hs.hints, rfl⟩
      obtain ⟨inside, sample, w, run, fits', -, found⟩ := holds.walks stands takes positive cached
        (fits.registered.symm ▸ h.unregistered t member) within reads fun u hu => by
          have same : u.world = s.world := hu.fits
          exact enters u ⟨hu.options, hu.occurrences, hu.hints, same ▸ hs.fits⟩ (same ▸ cached)
      obtain ⟨rfl, accepted, filed⟩ := leaves w inside sample fits' found
      rw [late] at run
      exact ⟨⟨t, R.inside n t, sample⟩, _, rfl, run, filed, trivial, rfl, accepted⟩

theorem stepped_le (few : (Table.get? occurrences ⟨key, t.ref⟩).getD 0 ≤ 2 * o.cycleThreshold)
    (below : o.cycleThreshold < 2 ^ 63) :
    (Table.get? (stepped occurrences ⟨key, t.ref⟩) ⟨key, t.ref⟩).getD 0 ≤ o.runawayLimit := by
  rw [stepped, Table.get?_put_self, Option.getD_some, Options.runawayLimit_eq below]
  exact Nat.succ_le_succ few

/-- A scalar lands, cached or not. -/
theorem lands_scalar (h : R.Declared schemas registry) (scalar : R.Scalar schemas t)
    (hown : own ∈ R.types) (hother : other ∈ R.types) (apart : t ≠ own) (apart' : t ≠ other)
    (below : o.cycleThreshold < 2 ^ 63) (counted : R.Counted schemas occurrences i j) :
    (R.stage schemas registry o n own other occurrences).Child readType path false key t := by
  obtain ⟨zero, known⟩ := scalar.2
  have unseen := counted.scalars key t scalar
  refine lands_child
    (S := R.stage schemas registry o n own other (stepped occurrences ⟨key, t.ref⟩))
    h (.inl scalar) hown counted.positive (stepped_le (by rw [unseen]; exact Nat.zero_le _) below)
    rfl (Stage.Reads.later rfl (counts_stage.reads_scalar known))
    (fun u hu _ => ⟨hu.options, congrArg (stepped · _) hu.occurrences, hu.hints, hu.fits⟩)
    fun w body sample fits left => ?_
  obtain ⟨rfl, rfl⟩ := left
  have accepted := accepted_of_zero known
  exact ⟨(h.inside_scalar scalar n).symm, accepted,
    Filed.scalar h fits scalar hown hother apart apart' accepted⟩

/-- What a copy of the record leaves, where a number of copies is left. -/
def Copied (R : SelfRecord) (schemas : Schemas) (n : Nat) (_ : World) (body : ShapeBody)
    (sample : Json) : Prop :=
  body = R.level (R.unfolding n) ∧ Accepted schemas R.type sample

/-- A copy of the record lands if its fields do. -/
theorem reads_fields (h : R.Declared schemas registry)
    (fields : ∀ field ∈ R.fields, (R.stage schemas registry o n own other occurrences).Child
      readType path false field.name field.type) :
    (R.stage schemas registry o n own other occurrences).Reads (fun d => readType d R.type) path
      false (R.Copied schemas n) := by
  have hl : R.type.layout? schemas =
      some (.record ("struct " ++ R.name) R.fields false R.denyUnknown) := by
    simp [type, TypeExpr.layout?, h.schema, Schema.layout?]
  refine Stage.Reads.later rfl ((counts_stage.reads_type hl (@Stage.reads_record _ _ _ _
    (fun _ _ _ _ => False) _ _ _ _ h.names fields o.maxSequenceLength false false)).mono
    fun w body sample made => ⟨?_, accepted_of_layout hl
      (made.data h.names (fun _ _ found => found.2) fun _ _ _ nowhere => nowhere.elim)⟩)
  cases made with
  | record ht found =>
      have shapes : _ = List.map (fun t => Shape.mk t.ref (R.inside n t)) _ :=
        shapes_of_types ht fun x hx => congrArg (Shape.mk _) (found x hx).1
      have bodies : ∀ field ∈ R.fields, R.inside n field.type =
          if field.name = R.key then R.unfolding n else .plain := by
        intro field member
        rcases h.field_cases member with ⟨named, same⟩ | ⟨other, scalar⟩
        · rw [same, inside_held, if_pos named]
        · rw [h.inside_scalar ⟨field_type_mem member, scalar⟩, if_neg other]
      rw [shapes, List.map_map, List.zip_map', level]
      congr 1
      exact List.map_congr_left fun field member =>
        congrArg (fun body => (field.name, Shape.mk field.type.ref body)) (bodies field member)

/-- The step to what holds the record ends a cycle if it was taken more often than it may. -/
theorem inCycle_held (counted : R.Counted schemas occurrences i j) :
    (R.stage schemas registry o n own other occurrences).inCycle (path.child R.key R.held.ref) =
      decide (o.cycleThreshold < i) := by
  unfold Stage.inCycle
  rw [List.getLast?_append]
  exact congrArg (fun count => decide (o.cycleThreshold < count)) counted.held

/-- What holds the record lands: without it in a cycle, and otherwise if the record does. -/
theorem reads_held {cut : Bool}
    (ends : (R.stage schemas registry o n own other occurrences).inCycle path = cut)
    (asked : 1 ≤ o.maxSequenceLength)
    (inPlace : cut = false → R.holder = .optional →
      (R.stage schemas registry o n own other occurrences).Reads (fun d => readType d R.type) path
        false (R.Copied schemas n))
    (under : cut = false → R.holder ≠ .optional → ∀ key,
      (R.stage schemas registry o n own other occurrences).Child readType path false key R.type) :
    (R.stage schemas registry o n own other occurrences).Reads
      (fun d => readType d R.held) path false fun _ body sample =>
        body = (if cut then .plain else R.unfolding (n + 1)) ∧
        Accepted schemas R.held sample := by
  unfold held unfolding
  subst ends
  cases hh : R.holder with
  | list =>
      refine Stage.Reads.later rfl ((counts_stage.reads_type (t := .vec R.type) rfl
        (@Stage.reads_seq _ _ _ _ (fun _ _ _ _ => False) _ (fun uncut i _ =>
          under uncut (by rw [hh]; nofun) (Decimal.numeral i)) false)).mono
        fun w body sample made => ?_)
      refine ⟨?_, accepted_of_layout rfl
        (made.data trivial (fun _ _ found => found.2) fun _ _ _ nowhere => nowhere.elim)⟩
      cases made with
      | @seq _ pieces ht found =>
        have nodes : _ = List.map (fun t => Shape.mk t.ref (R.inside n t)) _ :=
          shapes_of_types ht fun x hx => congrArg (Shape.mk _) (found x hx).1
        rw [List.map_replicate, inside_type] at nodes
        rw [numbered_eq, ← List.length_map (f := Piece.shape)]
        refine (closedSequence_places _ _).trans ?_
        rw [nodes]
        cases (R.stage schemas registry o n own other occurrences).inCycle path with
        | true => rfl
        | false => exact (tupleBody_replicate _ _).trans (if_neg (Nat.ne_of_gt asked))
  | optional =>
      refine Stage.Reads.later rfl ((counts_stage.reads_type
        (t := .option (.pointer .box R.type)) rfl
        (@Stage.reads_option _ _ _ _
          (fun _ t body sample => body = R.level (R.unfolding n) ∧ Accepted schemas t sample)
          _ (fun uncut => Stage.Reads.later rfl ((inPlace uncut hh).mono fun _ _ _ copied =>
            ⟨copied.1, accepted_of_layout rfl (.pointer copied.2)⟩)) false)).mono
        fun w body sample made => ?_)
      refine ⟨?_, accepted_of_layout rfl
        (made.data trivial (fun _ _ found => found.2) fun _ _ _ found => found.2)⟩
      generalize (R.stage schemas registry o n own other occurrences).inCycle path = cut at made ⊢
      cases made with
      | option uncut found => rw [uncut]; exact found.1
      | cutOption cut => rw [cut]; rfl
  | map =>
      cases ends : (R.stage schemas registry o n own other occurrences).inCycle path with
      | true =>
          refine Stage.Reads.later rfl ((counts_stage.reads_type (t := .map R.type) rfl
            (Stage.reads_cutMap ends)).mono fun w body sample left => ?_)
          obtain ⟨rfl, rfl⟩ := left
          exact ⟨rfl, accepted_of_layout rfl (.map nofun)⟩
      | false =>
          have child := under ends (by rw [hh]; nofun) Shape.anyKey
          refine Stage.Reads.later rfl ((counts_stage.reads_type (t := .map R.type) rfl
            (Stage.reads_openMap ends rfl child)).mono fun w body sample left => ?_)
          obtain ⟨x, same, ⟨copy, accepted⟩, rfl, rfl⟩ := left
          rw [same, inside_type] at copy
          refine ⟨?_, accepted_of_layout rfl (.map fun member found => ?_)⟩
          · rw [Piece.shape, same, copy]
            rfl
          · obtain rfl := List.mem_singleton.mp found
            exact same ▸ accepted

/-- Where nothing is cached of two types, either may be written first. -/
theorem Grounded.bare (grounded : R.Grounded schemas registry o w)
    (uncached : Table.get? w.cache (own.ref, o) = none)
    (uncached' : Table.get? w.cache (other.ref, o) = none) :
    R.Filed schemas registry o n own other w := by
  refine ⟨grounded, fun found => ?_, fun _ => uncached'⟩
  rw [uncached] at found
  cases found

/-- A copy of the record under a key of what holds it lands if it does inside. -/
theorem lands_copy (h : R.Declared schemas registry) (below : o.cycleThreshold < 2 ^ 63)
    (counted : R.Counted schemas occurrences i j) (few : j ≤ 2 * o.cycleThreshold)
    (reads :
      (R.stage schemas registry o n R.held R.type (stepped occurrences ⟨key, R.type.ref⟩)).Reads
        (fun d => readType d R.type) (path.child key R.type.ref) false (R.Copied schemas n)) :
    (R.stage schemas registry o n R.type R.held occurrences).Child readType path false key
      R.type := by
  refine lands_child h (.inr rfl) R.type_mem counted.positive
    (stepped_le (Nat.le_trans (counted.copies key) few) below) rfl reads
    (fun u hu uncached => ⟨hu.options, congrArg (stepped · ⟨key, R.type.ref⟩) hu.occurrences,
      hu.hints, hu.fits.toGrounded.bare (hu.fits.fresh uncached) uncached⟩)
    fun w body sample fits left => ?_
  obtain ⟨copy, accepted⟩ := left
  rw [← inside_type] at copy
  subst copy
  exact ⟨rfl, accepted, fits.toGrounded.filed h R.type_mem (fun _ => h.scalar_ne_type) accepted⟩

/-- What holds the record lands under its key if it does inside, with what may be served there. -/
theorem lands_held (h : R.Declared schemas registry) (below : o.cycleThreshold < 2 ^ 63)
    (counted : R.Counted schemas occurrences i j) (few : i ≤ 2 * o.cycleThreshold) {m : Nat}
    (order : own = R.type ∧ other = R.held ∨ own = R.held ∧ other = R.type)
    (reads :
      (R.stage schemas registry o m own other (stepped occurrences ⟨R.key, R.held.ref⟩)).Reads
        (fun d => readType d R.held) (path.child R.key R.held.ref) false fun _ body sample =>
          body = R.unfolding n ∧ Accepted schemas R.held sample) :
    (R.stage schemas registry o n R.held R.type occurrences).Child readType path false R.key
      R.held := by
  refine lands_child h (.inr rfl) R.held_mem counted.positive
    (stepped_le (counted.held ▸ few) below) rfl reads
    (fun u hu uncached => ⟨hu.options, congrArg (stepped · ⟨R.key, R.held.ref⟩) hu.occurrences,
      hu.hints, ?_⟩) fun w body sample fits left => ?_
  · rcases order with ⟨rfl, rfl⟩ | ⟨rfl, rfl⟩
    · exact hu.fits.toGrounded.bare (hu.fits.fresh uncached) uncached
    · exact hu.fits.toGrounded.bare uncached (hu.fits.fresh uncached)
  · obtain ⟨copies, accepted⟩ := left
    rw [← inside_held] at copies
    subst copies
    exact ⟨rfl, accepted, fits.toGrounded.filed h R.held_mem (fun _ => scalar_ne_held) accepted⟩

/-- A copy of the record lands if what holds the next one does; the other fields are scalars. -/
theorem reads_copy (h : R.Declared schemas registry) (below : o.cycleThreshold < 2 ^ 63)
    (counted : R.Counted schemas occurrences i j)
    (held : (R.stage schemas registry o n R.held R.type occurrences).Child readType path false R.key
      R.held) :
    (R.stage schemas registry o n R.held R.type occurrences).Reads (fun d => readType d R.type) path
      false (R.Copied schemas n) := by
  refine reads_fields h fun field member => ?_
  rcases h.field_cases member with ⟨named, same⟩ | ⟨-, zero⟩
  · rwa [named, same]
  · have scalar : R.Scalar schemas field.type := ⟨field_type_mem member, zero⟩
    exact lands_scalar h scalar R.held_mem R.type_mem (scalar_ne_held scalar)
      (h.scalar_ne_type scalar) below counted

/-- A copy of the record lands with all copies that are left below it. -/
theorem reads_copies (h : R.Declared schemas registry) (below : o.cycleThreshold < 2 ^ 63)
    (asked : 1 ≤ o.maxSequenceLength) (n : Nat) (left : i + n = o.cycleThreshold) (less : j ≤ i)
    (counted : R.Counted schemas occurrences i j) :
    (R.stage schemas registry o n R.held R.type occurrences).Reads (fun d => readType d R.type) path
      false (R.Copied schemas n) := by
  have few : i ≤ 2 * o.cycleThreshold := by omega
  induction n generalizing i j occurrences path with
  | zero =>
      have cut : decide (o.cycleThreshold < i + 1) = true := decide_eq_true (by omega)
      exact reads_copy h below counted (lands_held h below counted few (m := 0) (.inl ⟨rfl, rfl⟩)
        (reads_held ((inCycle_held (counted.stepHeld h)).trans cut) asked nofun nofun))
  | succ n ih =>
      have counted' := counted.stepHeld h
      have uncut : decide (o.cycleThreshold < i + 1) = false := decide_eq_false (by omega)
      refine reads_copy h below counted ?_
      by_cases inPlace : R.holder = .optional
      · exact lands_held h below counted few (.inr ⟨rfl, rfl⟩)
          (reads_held ((inCycle_held counted').trans uncut) asked
            (fun _ _ => ih (by omega) (by omega) counted' (by omega))
            fun _ under => absurd inPlace under)
      · refine lands_held h below counted few (.inl ⟨rfl, rfl⟩)
          (reads_held ((inCycle_held counted').trans uncut) asked
            (fun _ held => absurd held inPlace) fun _ _ key => ?_)
        exact lands_copy h below counted' (by omega)
          (ih (by omega) (by omega) (counted'.stepCopy h key) (by omega))

/-- From an empty cache, a record of scalars that holds itself under one key reflects to as many
copies of itself below the root as a step may repeat, one in the other, each with all its fields;
under the last one nothing is recorded of what would hold the next. -/
theorem reflect_unfolded (h : R.Declared schemas registry) (below : o.cycleThreshold < 2 ^ 63)
    (asked : 1 ≤ o.maxSequenceLength) (declared : w.schemas = schemas)
    (registered : w.registry = registry) (empty : w.cache = []) (context : List (String × Json)) :
    (∀ᶠ d in atTop, (exec (reflectWithin d R.type o context) w).1 =
      .ok ⟨R.type.ref, R.level (R.unfolding o.cycleThreshold)⟩) ∧
    ∀ d, (exec (reflectWithin d R.type o context) w).1 = .error .depth ∨
      (exec (reflectWithin d R.type o context) w).1 =
        .ok ⟨R.type.ref, R.level (R.unfolding o.cycleThreshold)⟩ := by
  have counted : R.Counted schemas [] 0 0 :=
    ⟨nofun, rfl, fun _ => Nat.le_refl _, fun _ _ _ => rfl⟩
  have uncached (t : TypeExpr) : Table.get? w.cache (t.ref, o) = none := by rw [empty]; rfl
  have fits : R.Filed schemas registry o o.cycleThreshold R.held R.type w := by
    refine Grounded.bare ⟨declared, registered, fun _ found => ?_⟩ (uncached _) (uncached _)
    rw [uncached] at found
    cases found
  obtain ⟨body, sample, u, run, copy, -⟩ := (reads_copies h below asked o.cycleThreshold
    (Nat.zero_add _) (Nat.le_refl 0) counted).reflects context ⟨rfl, rfl, rfl, fits⟩ (uncached _)
    (registered ▸ h.unregistered R.type R.type_mem)
  subst copy
  have late : ∀ᶠ d in atTop, (exec (reflectWithin d R.type o context) w).1 =
      .ok ⟨R.type.ref, R.level (R.unfolding o.cycleThreshold)⟩ :=
    run.mono fun d run => congrArg Prod.fst run
  refine ⟨late, fun d => ?_⟩
  obtain ⟨D, hD⟩ := eventually_atTop.mp late
  refine or_iff_not_imp_left.mpr fun used => ?_
  rw [← reflectWithin_mono (Nat.le_max_left d D) R.type o context w used]
  exact hD _ (Nat.le_max_right d D)

end

namespace Branches

/-- A tree of labels. -/
def tree : SelfRecord where
  slot := ⟨"T0", "api::model::T<0>"⟩
  name := "Tree"
  denyUnknown := false
  front := [⟨"label", .text .string, false⟩]
  key := "children"
  holder := .list
  mayBeAbsent := true
  back := [⟨"weight", .float .f64, false⟩]

def schemas : Schemas := [(tree.slot, .record "Tree" tree.fields false)]

theorem declared : tree.Declared schemas [] where
  schema := by simp [schemas, Table.get?, tree]
  scalars := by
    intro field member
    simp only [tree, List.mem_append, List.mem_singleton] at member
    rcases member with rfl | rfl <;> exact ⟨_, rfl⟩
  names := by decide
  apart := by decide +kernel
  unregistered := by decide +kernel

/-- A copy of the tree. -/
def copy (children : ShapeBody) : Shape :=
  ⟨tree.type.ref, .fields
    [("children", ⟨⟨"alloc::vec::Vec<api::model::T<0>>"⟩, children⟩),
      ("label", Shape.leaf ⟨"alloc::string::String"⟩), ("weight", Shape.leaf ⟨"f64"⟩)]⟩

def elements (child : Shape) : ShapeBody := .fields [(Shape.elementsKey, child)]

/-- Where a step may repeat twice, there are two trees inside the tree. -/
theorem reflect_unfolded_tree :
    let o : Options := { cycleThreshold := 2, maxSequenceLength := 3 }
    let trees := copy (elements (copy (elements (copy .plain))))
    (∀ᶠ d in atTop, (exec (reflectWithin d tree.type o []) { schemas }).1 = .ok trees) ∧
    ∀ d, (exec (reflectWithin d tree.type o []) { schemas }).1 = .error .depth ∨
      (exec (reflectWithin d tree.type o []) { schemas }).1 = .ok trees := by
  intro o trees
  have unfolded : (⟨tree.type.ref, tree.level (tree.unfolding 2)⟩ : Shape) = trees := by
    decide +kernel
  rw [← unfolded]
  exact reflect_unfolded (o := o) declared (by decide) (by decide) rfl rfl rfl []

end Branches
end SelfRecord
end ApiAtlas.Walk
