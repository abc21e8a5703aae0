import ApiAtlas.Proofs.Rereading

/-!
# Walks over a registered type

A type that is registered with a placeholder may stand anywhere below a root, under optionals and
pointers, as long as no other type hands its request on to it in place: then its reader is run on
nothing but the placeholder. This is said by a reader that reads the one type from its placeholder
only and stops at anything else, and with which the reflection is the same.

A newtype hands its request on, and is not looked through for a registration. So a newtype of a
registered type is walked, and the type is made to read the data that stands for a text.
-/
namespace ApiAtlas

/-- Optional and pointer layers over a type. -/
def TypeExpr.isLayerOver : TypeExpr → TypeExpr → Bool
  | option inner, x => option inner = x || inner.isLayerOver x
  | pointer layer inner, x => pointer layer inner = x || inner.isLayerOver x
  | t, x => t = x

namespace Walk
open Decode Reader Filter

/-- Types are read as usual, but one type only from its placeholder: at anything else its reader
stops. -/
def readOnly (x : TypeExpr) (placeholder : Json) : Nat → TypeReader
  | 0 => fun _ _ => throw .depth
  | d + 1 => fun t source =>
      if t = x then
        match source with
        | .data .replay v => if v = placeholder then readType (d + 1) x source else throw .depth
        | _ => throw .depth
      else readTypeWith (readOnly x placeholder d) t source

/-- Finitely many types over a registered one, no two of one name and none inside of itself. Under
optional and pointer layers the registration is found; every other type is unregistered, and a
scalar or of a layout that is no enumeration and does not read the registered type in place. -/
structure PlacedFamily (schemas : Schemas) (registry : Registry) (x : TypeExpr)
    (placeholder : Json) (types : List TypeExpr) : Prop where
  apart : ∀ a ∈ types, ∀ b ∈ types, a.ref = b.ref → a = b
  accepts : Accepted schemas x placeholder
  registered : ∀ t ∈ types, t.isLayerOver x →
    ∃ body, registry.documentationOf? t.ref = some ⟨body, some placeholder⟩
  unregistered : ∀ t ∈ types, ¬ t.isLayerOver x → registry.documentationOf? t.ref = none
  kinds : ∀ t ∈ types, ¬ t.isLayerOver x → (∃ zero, t.zero? schemas = some zero) ∨
    ∃ layout, t.layout? schemas = some layout ∧ layout.Sound ∧
      (∀ name variants, layout ≠ .enumeration name variants) ∧
      (∀ p ∈ layout.parts, p ∈ types) ∧ ∀ p, layout.inner? = some p → ¬ p.isLayerOver x
  nested : ∃ rank : TypeExpr → Nat, ∀ t ∈ types, ∀ layout, t.layout? schemas = some layout →
    ∀ p ∈ layout.parts, rank p < rank t

section
variable {schemas : Schemas} {registry : Registry} {x : TypeExpr} {placeholder : Json}
variable {types : List TypeExpr} {o : Options} {occurrences : List (Segment × Nat)} {w : World}
variable {t : TypeExpr} {path : Path} {muted : Bool} {key : String} {v : Json}

/-! ## The reader of one placeholder -/

theorem readOnly_placeholder (d : Nat) :
    readOnly x placeholder d x (.data .replay placeholder) =
      readType d x (.data .replay placeholder) := by
  cases d with
  | zero => rfl
  | succ d => simp [readOnly]

theorem readOnly_of_ne (h : t ≠ x) (d : Nat) (source : Source) :
    readOnly x placeholder (d + 1) t source = readTypeWith (readOnly x placeholder d) t source := by
  simp [readOnly, h]

/-- Reading a type from its placeholder only is no different where it does not stop. -/
theorem agree_readOnly {read : Nat → TypeReader}
    (own : ∀ d, read d x (.data .replay placeholder) = readType d x (.data .replay placeholder))
    (others : ∀ d t source, t ≠ x → read (d + 1) t source = readTypeWith (read d) t source)
    {d d' : Nat} (h : d ≤ d') (t : TypeExpr) (source : Source) :
    Agree (Bond.allowance schemas) (readOnly x placeholder d t source) (read d' t source) := by
  have stopped (read : Decode Unit) :
      Agree (Bond.allowance schemas) (throw .depth : Decode Unit) read :=
    fun _ _ _ => .inl ⟨trivial, rfl⟩
  induction d generalizing d' t source with
  | zero => exact stopped _
  | succ d ih =>
      obtain ⟨d', rfl⟩ := Nat.exists_eq_succ_of_ne_zero
        (Nat.ne_of_gt (Nat.lt_of_lt_of_le d.succ_pos h))
      by_cases same : t = x
      · subst same
        cases source with
        | data origin v =>
            by_cases only : origin = .replay ∧ v = placeholder
            · obtain ⟨rfl, rfl⟩ := only
              rw [readOnly_placeholder, own]
              exact agree_readType h _ _
            · have stops : readOnly t placeholder (d + 1) t (.data origin v) = throw .depth := by
                cases origin with
                | replay => simp_all [readOnly]
                | _ => simp [readOnly]
              rw [stops]
              exact stopped _
        | _ =>
            simp only [readOnly, if_true]
            exact stopped _
      · rw [readOnly_of_ne same, others d' t source same]
        exact agree_readTypeWith (fun t source => ih (Nat.le_of_succ_le_succ h) t source) t source

theorem readOnly_mono {d d' : Nat} (h : d ≤ d') (t : TypeExpr) (source : Source) (s : State)
    (used : (exec (readOnly x placeholder d t source) s).1 ≠ .error .depth) :
    exec (readOnly x placeholder d' t source) s = exec (readOnly x placeholder d t source) s :=
  exec_of_agree
    (agree_readOnly readOnly_placeholder (fun _ _ _ other => readOnly_of_ne other _ _) h t source)
    used

/-- Replays of the data read the type, with the one type read from its placeholder only. -/
def Taken (schemas : Schemas) (x : TypeExpr) (placeholder : Json) (t : TypeExpr) (v : Json) :
    Prop :=
  ∀ᶠ d in atTop, Yields schemas (readOnly x placeholder d t (.data .replay v)) ()

theorem taken_of_layout {layout : Layout} (other : t ≠ x) (hl : t.layout? schemas = some layout)
    (h : LayoutData (Taken schemas x placeholder) layout v) : Taken schemas x placeholder t v := by
  refine eventually_succ ((eventually_layoutData h).mono fun d data s hs => ?_)
  obtain ⟨counts, began⟩ := s.began_recount t
  obtain ⟨counts', ran⟩ := yields_layout data (s.began t) (by rw [began]; exact hs)
  exact ⟨counts', by rw [readOnly_of_ne other, exec_layout hl _ _ hs, ran, began]; rfl⟩

theorem taken_of_zero {zero : Json} (other : t ≠ x) (h : t.zero? schemas = some zero) :
    Taken schemas x placeholder t zero := by
  refine eventually_succ (.of_forall fun d s hs => ?_)
  obtain ⟨counts, began⟩ := s.began_recount t
  exact ⟨counts, by rw [readOnly_of_ne other, scalar_replayed h _ hs, began]⟩

/-- Layers hand the placeholder on to the type that accepts it. -/
theorem taken_of_layer (accepts : Accepted schemas x placeholder) (h : t.isLayerOver x) :
    Taken schemas x placeholder t placeholder := by
  have own : Taken schemas x placeholder x placeholder :=
    accepts.mono fun d yields => readOnly_placeholder (x := x) d ▸ yields
  induction t with
  | option inner ih =>
      by_cases same : .option inner = x
      · exact same ▸ own
      · exact taken_of_layout same rfl (.some (ih (by simpa [TypeExpr.isLayerOver, same] using h)))
  | pointer layer inner ih =>
      by_cases same : .pointer layer inner = x
      · exact same ▸ own
      · exact taken_of_layout same rfl
          (.pointer (ih (by simpa [TypeExpr.isLayerOver, same] using h)))
  | _ => exact (of_decide_eq_true h : _ = x) ▸ own

/-! ## What a walk finds -/

/-- A world whose cached shapes were recorded for their types, from data that is taken. -/
structure PlacedWorld (schemas : Schemas) (registry : Registry) (x : TypeExpr) (placeholder : Json)
    (types : List TypeExpr) (o : Options) (w : World) : Prop where
  declared : w.schemas = schemas
  registered : w.registry = registry
  entries : ∀ {t entry}, t ∈ types → Table.get? w.cache (t.ref, o) = some entry →
    (∃ body, entry.shape = ⟨t.ref, body⟩) ∧ Taken schemas x placeholder t entry.sample

theorem PlacedWorld.recounted (h : PlacedWorld schemas registry x placeholder types o w)
    (counts : List (Slot × Nat)) :
    PlacedWorld schemas registry x placeholder types o { w with counts } :=
  ⟨h.declared, h.registered, fun ht found => h.entries ht found⟩

theorem PlacedWorld.keeping (family : PlacedFamily schemas registry x placeholder types)
    (h : PlacedWorld schemas registry x placeholder types o w) (ht : t ∈ types) {body : ShapeBody}
    (taken : Taken schemas x placeholder t v) (muted : Bool) :
    PlacedWorld schemas registry x placeholder types o
      (w.keeping muted t.ref o ⟨v, ⟨t.ref, body⟩⟩) := by
  cases muted with
  | true => exact h
  | false =>
      refine ⟨h.declared, h.registered, fun {t' entry} ht' found => ?_⟩
      by_cases same : t' = t
      · subst same
        obtain rfl := Option.some.inj ((Table.get?_put_self _ _ _).symm.trans found)
        exact ⟨⟨body, rfl⟩, taken⟩
      · refine h.entries ht' ((Table.get?_put_of_ne _ _ fun key => same ?_).symm.trans found)
        exact family.apart t' ht' t ht (Prod.mk.inj key).1

/-- What a walk over a registered type finds where it reads the inside of a type. -/
def placedStage (schemas : Schemas) (registry : Registry) (x : TypeExpr) (placeholder : Json)
    (types : List TypeExpr) (o : Options) (occurrences : List (Segment × Nat)) : Stage where
  options := o
  occurrences := occurrences
  hints := []
  late := atTop
  fits := PlacedWorld schemas registry x placeholder types o
  grows _ _ := True
  made _ _ y := y.type ∈ types ∧ Taken schemas x placeholder y.type y.sample
  refl _ := trivial
  trans _ _ := trivial
  kept h _ := h

/-- A registered type is recorded as registered, and read from its placeholder. -/
theorem State.Stands.documented {α : Type} {s : State} {type : TypeRef} {body : ShapeBody}
    (h : s.Stands path muted ⟨type, body⟩) (key : String) (seed : Seed α)
    (uncached : Table.get? s.world.cache (seed.type, s.session.options) = none)
    {inside : ShapeBody}
    (registered : s.world.registry.documentationOf? seed.type = some ⟨inside, some placeholder⟩)
    {a : α} {w : World}
    (run : exec (seed.run (.data .replay placeholder))
        (s.landed path muted ⟨type, body.withField key ⟨seed.type, inside⟩⟩
          s.session.sample s.world) =
      (.ok a, s.landed path muted ⟨type, body.withField key ⟨seed.type, inside⟩⟩
        s.session.sample w)) :
    exec (readChild path muted key seed) s = (.ok a,
      s.landed path muted ⟨type, body.withField key ⟨seed.type, inside⟩⟩ placeholder
        (w.keeping muted seed.type s.session.options ⟨placeholder, ⟨seed.type, inside⟩⟩)) := by
  rw [exec_readChild, uncached, registered]
  dsimp only
  rw [readDocumented_eq, exec_bind, h.noted]
  dsimp only
  rw [exec_bind, exec_session]
  dsimp only
  rw [exec_bind]
  unfold readPlaceholder
  dsimp only
  rw [exec_bind, exec_replay, run]
  cases muted with
  | true => rfl
  | false =>
      dsimp only
      rw [exec_bind, exec_setSample]
      dsimp only
      rw [exec_pure]
      dsimp only
      rw [exec_bind, exec_session]
      dsimp only
      rw [if_pos (by simp [State.landed, Note.apply])]
      rfl

/-- A step to a type that stands nowhere above lands: served, as registered, or walked. -/
theorem placed_child (family : PlacedFamily schemas registry x placeholder types) (ht : t ∈ types)
    (positive : Positive occurrences) (clear : Table.get? occurrences ⟨key, t.ref⟩ = none)
    (reads : ¬ t.isLayerOver x →
      (placedStage schemas registry x placeholder types o (stepped occurrences ⟨key, t.ref⟩)).Reads
        (fun d => readOnly x placeholder d t) (path.child key t.ref) muted fun _ _ sample =>
          Taken schemas x placeholder t sample) :
    (placedStage schemas registry x placeholder types o occurrences).Child (readOnly x placeholder)
      path muted key t := by
  intro s ref body hs stands takes
  have options : s.session.options = o := hs.options
  have fits : PlacedWorld schemas registry x placeholder types o s.world := hs.fits
  -- a replay within late allowances, from one state
  have replayed {v : Json} (taken : Taken schemas x placeholder t v) {u : State}
      (hu : u.world.schemas = schemas) : ∃ counts, ∀ᶠ d in atTop,
        exec (readOnly x placeholder d t (.data .replay v)) u = (.ok (), u.recount counts) := by
    obtain ⟨D, late⟩ := eventually_atTop.mp taken
    obtain ⟨counts, run⟩ := late D (Nat.le_refl D) u hu
    refine ⟨counts, eventually_atTop.mpr ⟨D, fun d hd => ?_⟩⟩
    exact (readOnly_mono hd _ _ _ (by rw [run]; exact fun h => by cases h)).trans run
  cases cached : Table.get? s.world.cache (t.ref, o) with
  | some entry =>
      obtain ⟨⟨inside, shape⟩, taken⟩ := fits.entries ht cached
      obtain ⟨counts, run⟩ := replayed taken (u := s.landed path muted
        ⟨ref, body.withField key entry.shape⟩ s.session.sample s.world) fits.declared
      refine ⟨⟨t, inside, entry.sample⟩, { s.world with counts }, rfl, run.mono fun d run => ?_,
        fits.recounted counts, trivial, ht, taken⟩
      refine (stands.served (seedOf (readOnly x placeholder d) t)
        (options ▸ cached) run).trans ?_
      rw [shape]
      rfl
  | none =>
      by_cases layer : t.isLayerOver x
      · obtain ⟨inside, found⟩ := family.registered t ht layer
        have taken := taken_of_layer family.accepts layer
        obtain ⟨counts, run⟩ := replayed taken (u := s.landed path muted
          ⟨ref, body.withField key ⟨t.ref, inside⟩⟩ s.session.sample s.world) fits.declared
        refine ⟨⟨t, inside, placeholder⟩, ({ s.world with counts } : World).keeping muted t.ref
          s.session.options ⟨placeholder, ⟨t.ref, inside⟩⟩, rfl, run.mono fun d run => ?_,
          options.symm ▸ (fits.recounted counts).keeping family ht taken muted, trivial, ht, taken⟩
        exact stands.documented key (seedOf (readOnly x placeholder d) t)
          (options.symm ▸ cached) (fits.registered.symm ▸ found) run
      · have limit : (Table.get? (stepped occurrences ⟨key, t.ref⟩) ⟨key, t.ref⟩).getD 0 ≤
            o.runawayLimit := by
          rw [stepped, Table.get?_put_self, clear]
          exact o.one_le_runawayLimit
        obtain ⟨inside, sample, w, run, fits', -, taken⟩ := hs.walks stands takes positive cached
          (fits.registered.symm ▸ family.unregistered t ht layer) limit
          (reads layer)
          fun u hu => ⟨hu.options, congrArg (stepped · _) hu.occurrences, hu.hints, hu.fits⟩
        exact ⟨⟨t, inside, sample⟩, _, rfl, run, fits'.keeping family ht taken muted, trivial, ht,
          taken⟩

/-- Steps to types below a rank stand nowhere above. -/
def ClearBelow (types : List TypeExpr) (rank : TypeExpr → Nat) (n : Nat)
    (occurrences : List (Segment × Nat)) : Prop :=
  ∀ key, ∀ t ∈ types, rank t < n → Table.get? occurrences ⟨key, t.ref⟩ = none

theorem ClearBelow.stepped {rank : TypeExpr → Nat} {n : Nat}
    (apart : ∀ a ∈ types, ∀ b ∈ types, a.ref = b.ref → a = b)
    (h : ClearBelow types rank n occurrences) (ht : t ∈ types) (less : rank t < n) (key : String) :
    ClearBelow types rank (rank t) (stepped occurrences ⟨key, t.ref⟩) := by
  intro key' t' ht' less'
  rw [Walk.stepped, Table.get?_put_of_ne _ _ fun same => ?_]
  · exact h key' t' ht' (less'.trans less)
  · obtain rfl := apart t' ht' t ht (Segment.mk.inj same).2
    exact Nat.lt_irrefl _ less'

/-- Walks over a registered type land. -/
theorem reads_placed (family : PlacedFamily schemas registry x placeholder types)
    {rank : TypeExpr → Nat} (nested : ∀ t ∈ types, ∀ layout, t.layout? schemas = some layout →
      ∀ p ∈ layout.parts, rank p < rank t) (ht : t ∈ types) (layer : ¬ t.isLayerOver x)
    (positive : Positive occurrences) (clear : ClearBelow types rank (rank t) occurrences)
    (path : Path) (muted : Bool) :
    (placedStage schemas registry x placeholder types o occurrences).Reads
      (fun d => readOnly x placeholder d t) path muted fun _ _ sample =>
        Taken schemas x placeholder t sample := by
  induction hr : rank t using Nat.strongRecOn generalizing t occurrences path muted with
  | _ n flatter =>
      subst hr
      have other : t ≠ x :=
        fun same => layer (by subst same; cases t <;> simp [TypeExpr.isLayerOver])
      have law : (placedStage schemas registry x placeholder types o occurrences).Counts schemas :=
        ⟨PlacedWorld.declared, fun fits counts => ⟨fits.recounted counts, trivial⟩⟩
      have read (d : Nat) : readOnly x placeholder (d + 1) t =
          readTypeWith (readOnly x placeholder d) t := funext (readOnly_of_ne other d)
      refine Stage.Reads.later rfl ?_
      simp only [read]
      obtain ⟨zero, scalar⟩ | ⟨layout, hl, sound, plain, parts, inner⟩ := family.kinds t ht layer
      · refine (law.reads_scalar scalar).mono fun _ _ v left => ?_
        rw [left.2]
        exact taken_of_zero other scalar
      · have less {p : TypeExpr} (hp : p ∈ layout.parts) : rank p < rank t :=
          nested t ht layout hl p hp
        have lands : (placedStage schemas registry x placeholder types o occurrences).Reads
            (fun d => layout.read (readOnly x placeholder d)) path muted fun w =>
              Made ((placedStage schemas registry x placeholder types o occurrences).made w)
                (fun q _ sample => Taken schemas x placeholder q sample) o.maxSequenceLength
                ((placedStage schemas registry x placeholder types o occurrences).inCycle path)
                false muted layout := by
          refine Stage.reads_layout sound (fun name variants h => absurd h (plain name variants))
            (fun q hq _ => ?_) (fun _ key c hc => ?_) fun key c hc => ?_
          · have part := mem_parts_of_inner hq
            exact flatter (rank q) (less part) (parts q part) (inner q hq) positive
              (fun key c hc' below => clear key c hc' (below.trans (less part))) path muted rfl
          · have part := mem_parts_of_under hc
            refine placed_child family (parts c part) positive
              (clear key c (parts c part) (less part)) fun unlayered => ?_
            exact flatter (rank c) (less part) (parts c part) unlayered (positive.stepped _)
              (clear.stepped family.apart (parts c part) (less part) key) _ muted rfl
          · cases layout with
            | enumeration name variants => exact absurd rfl (plain name variants)
            | _ => cases hc
        exact (law.reads_type hl lands).mono fun _ _ _ made =>
          taken_of_layout other hl (made.data sound (fun _ _ h => h.2) fun _ _ _ h => h)

/-- Over a registered type, a reflection from an empty cache gives a shape, and it is the same if
the type is read from its placeholder only. -/
theorem reflect_placed (family : PlacedFamily schemas registry x placeholder types) (ht : t ∈ types)
    (o : Options) (context : List (String × Json)) (declared : w.schemas = schemas)
    (registered : w.registry = registry) (empty : w.cache = []) :
    ∃ body u, ∀ᶠ d in atTop,
      exec (reflectWithin d t o context) w = (.ok ⟨t.ref, body⟩, u) ∧
      exec (reflectWith (readOnly x placeholder d) t o context) w = (.ok ⟨t.ref, body⟩, u) := by
  have reflected : ∃ body u, ∀ᶠ d in atTop,
      exec (reflectWith (readOnly x placeholder d) t o context) w = (.ok ⟨t.ref, body⟩, u) := by
    by_cases layer : t.isLayerOver x
    · obtain ⟨body, found⟩ := family.registered t ht layer
      simp only [exec_reflectWith, empty, Table.get?_nil, registered, found]
      exact ⟨body, _, .of_forall fun _ => rfl⟩
    · obtain ⟨rank, nested⟩ := family.nested
      have fits : PlacedWorld schemas registry x placeholder types o w :=
        ⟨declared, registered, fun _ found => by rw [empty] at found; cases found⟩
      have lands := reads_placed (o := o) family nested ht layer positive_nil
        (fun _ _ _ _ => rfl) []
        false
      obtain ⟨body, sample, u, run, -⟩ := Stage.Reads.reflects lands context ⟨rfl, rfl, rfl, fits⟩
        (by rw [empty]; rfl) (registered ▸ family.unregistered t ht layer)
      exact ⟨body, _, run⟩
  obtain ⟨body, u, run⟩ := reflected
  refine ⟨body, u, run.mono fun d run => ⟨?_, run⟩⟩
  rw [← run]
  exact reflectWith_of_agree (agree_readOnly (fun _ => rfl) (fun _ _ _ _ => rfl) (Nat.le_refl d) t)
    (by rw [run]; exact fun h => by cases h)

end

/-! ## Orders with identifiers, and an identifier of its own type -/

namespace Identifiers

def order : Slot := ⟨"T0", "api::model::T<0>"⟩

def label : Slot := ⟨"T1", "api::model::T<1>"⟩

def uuid : TypeExpr := .form .uuid

/-- Identifiers in records, optionals, pointers, lists, maps and tuples. -/
def schemas : Schemas :=
  [(order, .record "Order" [⟨"id", uuid, false⟩, ⟨"parent", .option (.pointer .box uuid), false⟩,
      ⟨"items", .vec uuid, false⟩, ⟨"places", .map (.pair uuid), false⟩,
      ⟨"label", .declared label, false⟩] false),
    (label, .newtype "Label" (.text .string))]

def placeholder : Json := .string TextForm.uuid.placeholder

/-- Identifiers have nothing to tell, and a placeholder. -/
def registry : Registry := Registry.document [] uuid.ref.identity .plain (some placeholder)

def types : List TypeExpr :=
  [.declared order, .declared label, uuid, .option (.pointer .box uuid), .pointer .box uuid,
    .vec uuid, .map (.pair uuid), .pair uuid, .text .string]

def rank : TypeExpr → Nat
  | .declared slot => if slot = order then 3 else 1
  | .option _ => 2
  | .map _ => 2
  | .pointer _ _ => 1
  | .vec _ => 1
  | .pair _ => 1
  | _ => 0

theorem family : PlacedFamily schemas registry uuid placeholder types where
  apart := by decide +kernel
  accepts := accepted_of_reread (reread_form (by decide +kernel))
  registered := by
    intro t ht layer
    refine ⟨.plain, ?_⟩
    revert t
    decide +kernel
  unregistered := by decide +kernel
  kinds := by
    intro t ht layer
    simp only [types, List.mem_cons, List.not_mem_nil, or_false] at ht
    rcases ht with rfl | rfl | rfl | rfl | rfl | rfl | rfl | rfl | rfl
    · exact .inr ⟨_, rfl, (by decide : (List.map FieldDecl.name _).Nodup), nofun,
        by decide +kernel, fun _ inner => by cases inner⟩
    · exact .inr ⟨_, rfl, trivial, nofun, by decide +kernel, fun _ inner => by cases inner; decide⟩
    · exact absurd rfl layer
    · exact absurd rfl layer
    · exact absurd rfl layer
    · exact .inr ⟨_, rfl, trivial, nofun, by decide +kernel, fun _ inner => by cases inner⟩
    · exact .inr ⟨_, rfl, trivial, nofun, by decide +kernel, fun _ inner => by cases inner⟩
    · exact .inr ⟨_, rfl, trivial, nofun, by decide +kernel, fun _ inner => by cases inner⟩
    · exact .inl ⟨_, rfl⟩
  nested := by
    refine ⟨rank, fun t ht layout hl => ?_⟩
    simp only [types, List.mem_cons, List.not_mem_nil, or_false] at ht
    rcases ht with rfl | rfl | rfl | rfl | rfl | rfl | rfl | rfl | rfl <;> cases hl <;>
      decide +kernel

theorem reflect_placed_order :
    ∃ body u, ∀ᶠ d in atTop,
      exec (reflectWithin d (.declared order) {} []) { schemas := schemas, registry := registry } =
        (.ok ⟨⟨"api::model::T<0>"⟩, body⟩, u) ∧
      exec (reflectWith (readOnly uuid placeholder d) (.declared order) {} [])
        { schemas := schemas, registry := registry } = (.ok ⟨⟨"api::model::T<0>"⟩, body⟩, u) :=
  reflect_placed family (by decide) {} [] rfl rfl rfl

/-- A newtype of an identifier. -/
def wrapped : Schemas := [(order, .newtype "UserId" uuid)]

theorem newtype_refused :
    (exec (reflect (.declared order) {} []) { schemas := wrapped, registry := registry }).1 =
      .error (.fault (.decode "UUID parsing failed: invalid length: found 0")) := by
  decide +kernel

end Identifiers
end Walk
end ApiAtlas
