import ApiAtlas.Proofs.Allowance
import ApiAtlas.Proofs.Recursion

/-!
# Walks of recursive records

A family of records may recurse. Its walks land if every step that stands in a cycle has two steps
to optionals, sequences or maps that break its cycles: then no step repeats as often as a walk
bounds it, and the ways down are not endless. What was cached on the way may be cut, but its data
is accepted within late allowances, and it is served like any other.
-/
namespace ApiAtlas.Walk
open Decode Reader Filter

/-- Finitely many types, none registered and no two of one name, each a scalar or of a layout that
is no enumeration; in place, types are nested finitely often. -/
structure RecordFamily (schemas : Schemas) (registry : Registry)
    (types : List TypeExpr) : Prop where
  apart : ∀ a ∈ types, ∀ b ∈ types, a.ref = b.ref → a = b
  unregistered : ∀ t ∈ types, registry.documentationOf? t.ref = none
  parts : ∀ t ∈ types, ∀ p ∈ t.parts schemas, p ∈ types
  kinds : ∀ t ∈ types, (∃ zero, t.zero? schemas = some zero) ∨
    ∃ layout, t.layout? schemas = some layout ∧ layout.Sound ∧
      ∀ name variants, layout ≠ .enumeration name variants
  inPlace : ∃ rank : TypeExpr → Nat, ∀ t ∈ types, ∀ layout, t.layout? schemas = some layout →
    ∀ p, layout.inner? = some p → rank p < rank t

/-- Replays of the data read the type within late allowances. -/
def Accepted (schemas : Schemas) (t : TypeExpr) (v : Json) : Prop :=
  ∀ᶠ d in atTop, Yields schemas (readType d t (.data .replay v)) ()

/-- A world whose cached shapes were recorded for their types, from data that is accepted. -/
structure RecordWorld (schemas : Schemas) (registry : Registry) (types : List TypeExpr)
    (o : Options) (w : World) : Prop where
  declared : w.schemas = schemas
  registered : w.registry = registry
  entries : ∀ {t entry}, t ∈ types → Table.get? w.cache (t.ref, o) = some entry →
    (∃ body, entry.shape = ⟨t.ref, body⟩) ∧ Accepted schemas t entry.sample

/-- Counts of the steps of a way. -/
def Counted (types : List TypeExpr) (occurrences : List (Segment × Nat)) (p : List Reference) :
    Prop :=
  ∀ x : Reference, x.type ∈ types →
    (Table.get? occurrences ⟨x.key, x.type.ref⟩).getD 0 = p.count x

/-- The path of a way. -/
def trail (p : List Reference) : Path := p.map fun x => ⟨x.key, x.type.ref⟩

/-- The step at the end of a way does not repeat too often. -/
def Uncut (threshold : Nat) (p : List Reference) : Prop :=
  ∀ y, p.getLast? = some y → p.count y ≤ threshold

/-- What a walk of a family of records finds where it reads the inside of a type. -/
def recordStage (schemas : Schemas) (registry : Registry) (types : List TypeExpr) (o : Options)
    (occurrences : List (Segment × Nat)) : Stage where
  options := o
  occurrences := occurrences
  hints := []
  late := atTop
  fits := RecordWorld schemas registry types o
  grows _ _ := True
  made _ _ x := x.type ∈ types ∧ Accepted schemas x.type x.sample
  refl _ := trivial
  trans _ _ := trivial
  kept h _ := h

section
variable {schemas : Schemas} {registry : Registry} {types : List TypeExpr} {o : Options}
variable {occurrences : List (Segment × Nat)} {p : List Reference} {x : Reference}
variable {t a : TypeExpr} {muted : Bool} {w : World}

/-! ## Accepted data -/

theorem eventually_forall₂ {P : Nat → TypeExpr → Json → Prop} {types : List TypeExpr}
    {values : List Json} (h : List.Forall₂ (fun t v => ∀ᶠ d in atTop, P d t v) types values) :
    ∀ᶠ d in atTop, List.Forall₂ (P d) types values := by
  induction h with
  | nil => exact .of_forall fun _ => .nil
  | cons first _ ih =>
      filter_upwards [first, ih] with d first rest
      exact .cons first rest

theorem eventually_forall_mem {α : Type} {P : Nat → α → Prop} {l : List α}
    (h : ∀ x ∈ l, ∀ᶠ d in atTop, P d x) : ∀ᶠ d in atTop, ∀ x ∈ l, P d x := by
  induction l with
  | nil => exact .of_forall fun _ _ hx => by cases hx
  | cons first rest ih =>
      filter_upwards [h first List.mem_cons_self, ih fun x hx => h x (List.mem_cons_of_mem _ hx)]
        with d hf hr x hx
      rcases List.mem_cons.mp hx with rfl | hx
      · exact hf
      · exact hr x hx

theorem eventually_holdsFields {P : Nat → TypeExpr → Json → Prop} {fields : List FieldDecl}
    {members : List (String × Json)}
    (h : HoldsFields (fun t v => ∀ᶠ d in atTop, P d t v) fields members) :
    ∀ᶠ d in atTop, HoldsFields (P d) fields members := by
  have each : ∀ member ∈ members, ∀ᶠ d in atTop, ∃ field ∈ fields, field.name = member.1 ∧
      P d field.type member.2 := by
    intro member hm
    obtain ⟨field, hf, named, accepted⟩ := h.accepted member hm
    filter_upwards [accepted] with d accepted
    exact ⟨field, hf, named, accepted⟩
  filter_upwards [eventually_forall_mem each] with d accepted
  exact ⟨h.fields_nodup, h.members_nodup, accepted, h.complete⟩

/-- Data of a layout whose inside is accepted late is, late, data of the layout. -/
theorem eventually_layoutData {P : Nat → TypeExpr → Json → Prop} {layout : Layout} {v : Json}
    (h : LayoutData (fun t v => ∀ᶠ d in atTop, P d t v) layout v) :
    ∀ᶠ d in atTop, LayoutData (P d) layout v := by
  cases h with
  | pointer h => exact h.mono fun _ h => .pointer h
  | newtype h => exact h.mono fun _ h => .newtype h
  | none => exact .of_forall fun _ => .none
  | some h => exact h.mono fun _ h => .some h
  | record h => exact (eventually_holdsFields h).mono fun _ h => .record h
  | seq h => exact (eventually_forall_mem h).mono fun _ h => .seq h
  | tuple h => exact (eventually_forall₂ h).mono fun _ h => .tuple h
  | map h => exact (eventually_forall_mem h).mono fun _ h => .map h
  | unit h => exact .of_forall fun _ => .unit h
  | payload h hv =>
      cases hv with
      | newtype hp => exact hp.mono fun _ hp => .payload h (.newtype hp)
      | tuple nonempty hp =>
          exact (eventually_forall₂ hp).mono fun _ hp => .payload h (.tuple nonempty hp)
      | record hp => exact (eventually_holdsFields hp).mono fun _ hp => .payload h (.record hp)

theorem eventually_succ {P : Nat → Prop} (h : ∀ᶠ d in atTop, P (d + 1)) : ∀ᶠ d in atTop, P d := by
  obtain ⟨D, hD⟩ := eventually_atTop.mp h
  refine eventually_atTop.mpr ⟨D + 1, fun d hd => ?_⟩
  obtain ⟨d, rfl⟩ := Nat.exists_eq_add_of_le' (Nat.le_trans (Nat.succ_pos D) hd)
  exact hD d (Nat.le_of_succ_le_succ hd)

/-- A reader lands within late allowances if it does within one less. -/
theorem Stage.Reads.later {S : Stage} (late : S.late = atTop) {read : Nat → Source → Decode Unit}
    {path : Path} {left : World → ShapeBody → Json → Prop}
    (h : S.Reads (fun d => read (d + 1)) path muted left) : S.Reads read path muted left := by
  intro s ref hs stands
  obtain ⟨body, sample, w, run, rest⟩ := h s ref hs stands
  rw [late] at run
  exact ⟨body, sample, w, late ▸ eventually_succ run, rest⟩

theorem accepted_of_layout {layout : Layout} {v : Json} (hl : t.layout? schemas = some layout)
    (h : LayoutData (Accepted schemas) layout v) : Accepted schemas t v := by
  refine eventually_succ ((eventually_layoutData h).mono fun d data s hs => ?_)
  obtain ⟨counts, began⟩ := s.began_recount t
  obtain ⟨counts', ran⟩ := yields_layout data (s.began t) (by rw [began]; exact hs)
  exact ⟨counts', by rw [readType, exec_layout hl _ _ hs, ran, began]; rfl⟩

theorem accepted_of_zero {zero : Json} (h : t.zero? schemas = some zero) :
    Accepted schemas t zero := by
  refine eventually_succ (.of_forall fun d s hs => ?_)
  obtain ⟨counts, began⟩ := s.began_recount t
  exact ⟨counts, began ▸ scalar_replayed h (readType d) hs⟩

/-! ## Steps of a family -/

/-- The steps that a layout reads. -/
def Layout.references (most : Nat) : Layout → List Reference
  | .seq inner => (List.range most).map fun i => ⟨Decimal.numeral i, inner⟩
  | .map inner => [⟨Shape.anyKey, inner⟩]
  | .record _ fields _ _ => fields.map fun field => ⟨field.name, field.type⟩
  | .tuple _ types => types.zipIdx.map fun entry => ⟨Decimal.numeral entry.2, entry.1⟩
  | _ => []

theorem Layout.mem_references {layout : Layout} {most : Nat} {key : String} {c : TypeExpr}
    (h : layout.Under most none key c) : ⟨key, c⟩ ∈ layout.references most := by
  cases layout with
  | seq inner =>
      obtain ⟨rfl, i, hi, rfl⟩ := h
      exact List.mem_map_of_mem (List.mem_range.mpr hi)
  | map inner =>
      obtain ⟨rfl, hk⟩ := h
      obtain rfl := List.mem_singleton.mp hk
      exact List.mem_singleton_self _
  | record expecting fields library denyUnknown =>
      obtain ⟨field, hf, rfl, rfl⟩ := h
      exact List.mem_map_of_mem hf
  | tuple expecting types =>
      obtain ⟨i, hi, rfl⟩ := h
      exact List.mem_map.mpr ⟨(c, i), List.mk_mem_zipIdx_iff_getElem?.mpr hi, rfl⟩
  | _ => exact h.elim

/-- The steps of a family. -/
def references (schemas : Schemas) (most : Nat) (types : List TypeExpr) : List Reference :=
  types.flatMap fun t => ((t.layout? schemas).map (Layout.references most)).getD []

theorem RecordFamily.below (fam : RecordFamily schemas registry types) {most : Nat}
    (ht : t ∈ types) (h : Below schemas most t x) :
    x ∈ references schemas most types ∧ x.type ∈ types := by
  induction h with
  | @under t layout key c h hc =>
      refine ⟨List.mem_flatMap.mpr ⟨t, ht, ?_⟩, fam.parts t ht c ?_⟩
      · rw [h]
        exact Layout.mem_references hc
      · exact (mem_parts_iff h c).mpr (mem_parts_of_under hc)
  | @inner t p layout x h hp _ ih =>
      exact ih (fam.parts t ht p ((mem_parts_iff h p).mpr (mem_parts_of_inner hp)))

theorem RecordFamily.way (fam : RecordFamily schemas registry types) {most threshold : Nat}
    (ht : t ∈ types) (h : Way schemas most threshold t p a) :
    a ∈ types ∧ ∀ x ∈ p, x ∈ references schemas most types ∧ x.type ∈ types := by
  induction h with
  | nil => exact ⟨ht, fun _ hx => by cases hx⟩
  | step _ hx _ ih =>
      have last := fam.below ih.1 hx
      refine ⟨last.2, fun y hy => ?_⟩
      rcases List.mem_append.mp hy with hy | hy
      · exact ih.2 y hy
      · exact List.mem_singleton.mp hy ▸ last

theorem Counted.stepped (fam : RecordFamily schemas registry types)
    (h : Counted types occurrences p) (hx : x.type ∈ types) :
    Counted types (stepped occurrences ⟨x.key, x.type.ref⟩) (p ++ [x]) := by
  intro y hy
  rw [List.count_append, List.count_singleton]
  by_cases same : y = x
  · subst same
    rw [Walk.stepped, Table.get?_put_self, Option.getD_some, h y hy]
    simp
  · rw [Walk.stepped, Table.get?_put_of_ne _ _ fun steps => same ?_, h y hy]
    · simp [Ne.symm same]
    · obtain ⟨key, ref⟩ := Segment.mk.inj steps
      obtain ⟨key', type'⟩ := y
      obtain ⟨key, type⟩ := x
      cases key
      cases fam.apart _ hy _ hx ref
      rfl

theorem inCycle_trail (member : ∀ x ∈ p, x.type ∈ types) (h : Counted types occurrences p) :
    (recordStage schemas registry types o occurrences).inCycle (trail p) = false ↔
      Uncut o.cycleThreshold p := by
  unfold Stage.inCycle Uncut trail
  rw [List.getLast?_map, decide_eq_false_iff_not, Nat.not_lt]
  cases hl : p.getLast? with
  | none => simp
  | some y =>
      have counted := h y (member y (List.mem_of_getLast? hl))
      simp only [Option.map_some, recordStage, counted]
      exact ⟨fun le z hz => Option.some.inj hz ▸ le, fun le => le y rfl⟩

/-! ## Walks -/

theorem RecordWorld.recounted {v : World} (h : RecordWorld schemas registry types o w)
    (hs : v.schemas = w.schemas) (hr : v.registry = w.registry) (hc : v.cache = w.cache) :
    RecordWorld schemas registry types o v :=
  ⟨hs.trans h.declared, hr.trans h.registered, fun ht found => h.entries ht (hc ▸ found)⟩

theorem RecordWorld.keeping (fam : RecordFamily schemas registry types)
    (h : RecordWorld schemas registry types o w) (ht : t ∈ types) {body : ShapeBody} {sample : Json}
    (accepted : Accepted schemas t sample) (muted : Bool) :
    RecordWorld schemas registry types o (w.keeping muted t.ref o ⟨sample, ⟨t.ref, body⟩⟩) := by
  cases muted with
  | true => exact h
  | false =>
      refine ⟨h.declared, h.registered, fun {t' entry} ht' found => ?_⟩
      by_cases same : t' = t
      · subst same
        obtain rfl := Option.some.inj ((Table.get?_put_self _ _ _).symm.trans found)
        exact ⟨⟨body, rfl⟩, accepted⟩
      · refine h.entries ht' ((Table.get?_put_of_ne _ _ fun key => same ?_).symm.trans found)
        exact fam.apart t' ht' t ht (Prod.mk.inj key).1

/-- A step of a way lands, walked or served. -/
theorem record_child (fam : RecordFamily schemas registry types)
    (below : o.cycleThreshold < 2 ^ 63) (hx : x.type ∈ types) (positive : Positive occurrences)
    (counted : Counted types occurrences p)
    (within : (p ++ [x]).count x ≤ 2 * o.cycleThreshold + 1)
    (reads : (recordStage schemas registry types o (stepped occurrences ⟨x.key, x.type.ref⟩)).Reads
      (fun d => readType d x.type) (trail (p ++ [x])) muted fun _ _ sample =>
        Accepted schemas x.type sample) :
    (recordStage schemas registry types o occurrences).Child readType
      (trail p) muted x.key x.type := by
  intro s ref body hs stands takes
  have options : s.session.options = o := hs.options
  have fits : RecordWorld schemas registry types o s.world := hs.fits
  cases cached : Table.get? s.world.cache (x.type.ref, o) with
  | some entry =>
      obtain ⟨⟨inside, shape⟩, accepted⟩ := fits.entries hx cached
      obtain ⟨D, late⟩ := eventually_atTop.mp accepted
      obtain ⟨counts, run⟩ := late D (Nat.le_refl D)
        (s.landed (trail p) muted ⟨ref, body.withField x.key entry.shape⟩ s.session.sample s.world)
        fits.declared
      refine ⟨⟨x.type, inside, entry.sample⟩, { s.world with counts }, rfl,
        eventually_atTop.mpr ⟨D, fun d hd => ?_⟩, fits.recounted rfl rfl rfl, trivial, hx, accepted⟩
      rw [← readType_mono hd _ _ _ (by rw [run]; nofun)] at run
      refine (stands.served (seedOf (readType d) x.type) (options ▸ cached) run).trans ?_
      rw [shape]
      rfl
  | none =>
      have path : trail (p ++ [x]) = (trail p).child x.key x.type.ref := by simp [trail]
      rw [path] at reads
      have limit : (Table.get? (stepped occurrences ⟨x.key, x.type.ref⟩)
          ⟨x.key, x.type.ref⟩).getD 0 ≤ o.runawayLimit := by
        rw [counted.stepped fam hx x hx, Options.runawayLimit_eq below]
        exact within
      obtain ⟨inside, sample, w, run, fits', -, accepted⟩ := hs.walks stands takes positive cached
        (fits.registered.symm ▸ fam.unregistered x.type hx) limit
        reads fun u hu => ⟨hu.options, congrArg (stepped · _) hu.occurrences, hu.hints, hu.fits⟩
      exact ⟨⟨x.type, inside, sample⟩, _, rfl, run, fits'.keeping fam hx accepted muted, trivial,
        hx, accepted⟩

variable {root : TypeExpr}

/-- Where a walk goes on below the end of a way, the way goes on. -/
theorem Way.next {most threshold : Nat} (way : Way schemas most threshold root p a)
    (inside : ∀ y, Below schemas most t y → Below schemas most a y)
    (goes : Stops schemas a → Uncut threshold p) (hx : Below schemas most t x) :
    Way schemas most threshold root (p ++ [x]) x.type :=
  way.step (inside x hx) goes

/-- At the end of a way, a type of a family lands if its parts land, in place and under keys. -/
theorem reads_parts (fam : RecordFamily schemas registry types) (ht : t ∈ types)
    (member : ∀ x ∈ p, x.type ∈ types) (counted : Counted types occurrences p)
    (inner : ∀ layout q, t.layout? schemas = some layout → layout.inner? = some q →
      (∀ i, layout = .option i → Uncut o.cycleThreshold p) →
      (recordStage schemas registry types o occurrences).Reads (fun d => readType d q)
        (trail p) muted fun _ _ sample => Accepted schemas q sample)
    (children : ∀ layout, t.layout? schemas = some layout →
      (∀ i, layout = .seq i ∨ layout = .map i → Uncut o.cycleThreshold p) → ∀ key c,
      layout.Under o.maxSequenceLength none key c →
      (recordStage schemas registry types o occurrences).Child readType (trail p) muted key c) :
    (recordStage schemas registry types o occurrences).Reads (fun d => readType d t) (trail p) muted
      fun _ _ sample => Accepted schemas t sample := by
  have law : (recordStage schemas registry types o occurrences).Counts schemas :=
    ⟨RecordWorld.declared, fun fits _ => ⟨fits.recounted rfl rfl rfl, trivial⟩⟩
  have cut (h : Uncut o.cycleThreshold p) :
      (recordStage schemas registry types o occurrences).inCycle (trail p) = false :=
    (inCycle_trail member counted).mpr h
  have uncut (h : (recordStage schemas registry types o occurrences).inCycle (trail p) = false) :
      Uncut o.cycleThreshold p := (inCycle_trail member counted).mp h
  obtain ⟨zero, scalar⟩ | ⟨layout, hl, sound, other⟩ := fam.kinds t ht
  · refine Stage.Reads.later rfl ((law.reads_scalar scalar).mono fun _ _ v left => ?_)
    rw [left.2]
    exact accepted_of_zero scalar
  · have lands : (recordStage schemas registry types o occurrences).Reads
        (fun d => layout.read (readType d)) (trail p) muted fun w =>
          Made ((recordStage schemas registry types o occurrences).made w)
            (fun q _ sample => Accepted schemas q sample) o.maxSequenceLength
            ((recordStage schemas registry types o occurrences).inCycle (trail p))
            false muted layout := by
      refine Stage.reads_layout sound (fun name variants h => absurd h (other name variants))
        (fun q hq open' => inner layout q hl hq fun i hi => uncut (open' i hi))
        (fun open' key c hc => children layout hl (fun i hi => uncut (open' i hi)) key c hc)
        fun key c hc => ?_
      cases layout with
      | enumeration name variants => exact absurd rfl (other name variants)
      | _ => cases hc
    exact Stage.Reads.later rfl ((law.reads_type hl lands).mono fun _ _ _ made =>
      accepted_of_layout hl (made.data sound (fun _ _ h => h.2) fun _ _ _ h => h))

/-- Walks of a family of records land at the end of every way. -/
theorem reads_record (fam : RecordFamily schemas registry types)
    (below : o.cycleThreshold < 2 ^ 63) (guarded : Guarded schemas o.maxSequenceLength types)
    (hr : root ∈ types) (left : Nat)
    (way : Way schemas o.maxSequenceLength o.cycleThreshold root p a)
    (enough : (references schemas o.maxSequenceLength types).length * (2 * o.cycleThreshold + 1) ≤
      p.length + left) (ht : t ∈ types)
    (inside : ∀ y, Below schemas o.maxSequenceLength t y → Below schemas o.maxSequenceLength a y)
    (ends : Stops schemas a → Stops schemas t ∨ Uncut o.cycleThreshold p)
    (positive : Positive occurrences) (counted : Counted types occurrences p) (muted : Bool) :
    (recordStage schemas registry types o occurrences).Reads (fun d => readType d t) (trail p) muted
      fun _ _ sample => Accepted schemas t sample := by
  obtain ⟨rank, ranked⟩ := fam.inPlace
  induction left using Nat.strongRecOn generalizing p a t occurrences with
  | _ left deeper =>
  induction hn : rank t using Nat.strongRecOn generalizing t with
  | _ n flatter =>
      have member : ∀ x ∈ p, x.type ∈ types := fun x hx => ((fam.way hr way).2 x hx).2
      refine reads_parts fam ht member counted (fun layout q hl hq open' => ?_)
        fun layout hl open' key c hc => ?_
      · have hq' := fam.parts t ht q ((mem_parts_iff hl q).mpr (mem_parts_of_inner hq))
        refine flatter (rank q) (hn ▸ ranked t ht layout hl q hq) hq'
          (fun y hy => inside y (.inner hl hq hy)) (fun stops => ?_) rfl
        rcases ends stops with stops | uncut
        · cases stops with
          | option h => exact .inr (open' _ (Option.some.inj (hl.symm.trans h)))
          | seq h | map h => cases Option.some.inj (hl.symm.trans h); cases hq
          | inner h hp stops =>
              cases Option.some.inj (hl.symm.trans h)
              exact .inl (Option.some.inj (hp.symm.trans hq) ▸ stops)
        · exact .inr uncut
      · have step : Below schemas o.maxSequenceLength t ⟨key, c⟩ := .under hl hc
        have next := way.next inside (fun stops => ?_) step
        · have few := next.count_le_runaway guarded fun y hy => ((fam.way hr next).2 y hy).2
          have short := length_le_of_count (fun y hy => ((fam.way hr next).2 y hy).1) few
          rw [List.length_append, List.length_singleton] at short
          have hc' := (fam.below ht step).2
          refine record_child (x := ⟨key, c⟩) fam below hc' positive counted (few _) ?_
          refine deeper (left - 1) (by omega) next ?_ hc' (fun _ h => h) .inl (positive.stepped _)
            (counted.stepped fam hc')
          rw [List.length_append, List.length_singleton]
          omega
        · rcases ends stops with stops | uncut
          · cases stops with
            | option h => cases Option.some.inj (hl.symm.trans h); exact hc.elim
            | seq h => exact open' _ (.inl (Option.some.inj (hl.symm.trans h)))
            | map h => exact open' _ (.inr (Option.some.inj (hl.symm.trans h)))
            | inner h hp stops =>
                cases Option.some.inj (hl.symm.trans h)
                cases layout <;> cases hp <;> exact hc.elim
          · exact uncut

/-- Where a walk of the root lands, the reflection gives what it left, and caches it. -/
theorem Stage.Reads.reflects {S : Stage} {read : Nat → TypeReader}
    {left : World → ShapeBody → Json → Prop} (h : S.Reads (fun d => read d t) [] false left)
    (context : List (String × Json)) (holds : S.Holds (rootState t o context [] w))
    (uncached : Table.get? w.cache (t.ref, o) = none)
    (unregistered : w.registry.documentationOf? t.ref = none) :
    ∃ body sample u, (∀ᶠ d in S.late, exec (reflectWith (read d) t o context) w =
      (.ok ⟨t.ref, body⟩, u.caching t.ref o ⟨sample, ⟨t.ref, body⟩⟩)) ∧ left u body sample := by
  obtain ⟨body, sample, u, run, -, -, found⟩ := h _ t.ref holds fun _ => rfl
  refine ⟨body, sample, u, run.mono fun d run => ?_, found⟩
  dsimp only at run
  rw [exec_reflectWith, uncached, unregistered]
  dsimp only
  rw [show maxWalks = 63 + 1 from rfl, exec_walkRoot]
  unfold readRoot
  rw [exec_onFault, run]
  rfl

/-- A record of a guarded family reflects from an empty cache: no allowance ends in a fault, and
late ones give a shape. -/
theorem reflect_record (fam : RecordFamily schemas registry types)
    (below : o.cycleThreshold < 2 ^ 63) (guarded : Guarded schemas o.maxSequenceLength types)
    (hr : root ∈ types) (declared : w.schemas = schemas) (registered : w.registry = registry)
    (empty : w.cache = []) (context : List (String × Json)) :
    ∃ body, (∀ᶠ d in atTop, (exec (reflectWithin d root o context) w).1 = .ok ⟨root.ref, body⟩) ∧
      ∀ d, (exec (reflectWithin d root o context) w).1 = .error .depth ∨
        (exec (reflectWithin d root o context) w).1 = .ok ⟨root.ref, body⟩ := by
  have counted : Counted types [] [] := fun _ _ => rfl
  have fits : RecordWorld schemas registry types o w :=
    ⟨declared, registered, fun _ found => by rw [empty] at found; cases found⟩
  have lands := reads_record fam below guarded hr
    ((references schemas o.maxSequenceLength types).length * (2 * o.cycleThreshold + 1)) .nil
    (Nat.le_add_left _ _) hr (fun _ h => h) .inl positive_nil counted false
  obtain ⟨body, sample, u, run, -⟩ := lands.reflects context ⟨rfl, rfl, rfl, fits⟩
    (by rw [empty]; rfl) (registered ▸ fam.unregistered root hr)
  have late : ∀ᶠ d in atTop,
      (exec (reflectWithin d root o context) w).1 = .ok ⟨root.ref, body⟩ :=
    run.mono fun d run => congrArg Prod.fst run
  refine ⟨body, late, fun d => ?_⟩
  obtain ⟨D, hD⟩ := eventually_atTop.mp late
  refine or_iff_not_imp_left.mpr fun used => ?_
  rw [← reflectWithin_mono (Nat.le_max_left d D) root o context w used]
  exact hD _ (Nat.le_max_right d D)

end

/-! ## Two and three lists of nodes -/

namespace Nodes

def node : Slot := ⟨"T0", "api::model::T<0>"⟩

/-- The nodes under one key. -/
def list : TypeExpr := .vec (.declared node)

def fields : List FieldDecl := [⟨"a", list, false⟩, ⟨"b", .option list, false⟩]

def types : List TypeExpr := [.declared node, list, .option list]

/-- Nodes of two lists. -/
def two : Schemas := [(node, .record "Node" fields false)]

theorem family : RecordFamily two [] types where
  apart := by decide +kernel
  unregistered := by decide +kernel
  parts := by decide +kernel
  kinds := by
    intro t ht
    simp only [types, List.mem_cons, List.not_mem_nil, or_false] at ht
    rcases ht with rfl | rfl | rfl
    · exact .inr ⟨_, rfl, (by decide : (fields.map FieldDecl.name).Nodup), nofun⟩
    · exact .inr ⟨_, rfl, trivial, nofun⟩
    · exact .inr ⟨_, rfl, trivial, nofun⟩
  inPlace := by
    refine ⟨fun t => if t.isOption then 1 else 0, fun t ht layout hl p hp => ?_⟩
    simp only [types, List.mem_cons, List.not_mem_nil, or_false] at ht
    rcases ht with rfl | rfl | rfl <;> cases hl <;> cases hp
    exact Nat.zero_lt_one

theorem below_list {x : Reference} (h : Below two 10 list x) : x.type = .declared node := by
  cases h with
  | under hl hc => cases hl; exact hc.1
  | inner hl hp => cases hl; cases hp

theorem guarded : Guarded two 10 types := by
  refine guarded_of_rank (F := [⟨"a", list⟩, ⟨"b", .option list⟩])
    (fun t => if t = .declared node then 0 else 1) (by decide) (fun f hf => ?_)
    fun t ht x hx => ?_
  · simp only [List.mem_cons, List.not_mem_nil, or_false] at hf
    rcases hf with rfl | rfl
    · exact .seq rfl
    · exact .option rfl
  · simp only [types, List.mem_cons, List.not_mem_nil, or_false] at ht
    rcases ht with rfl | rfl | rfl
    · cases hx with
      | inner hl hp => cases hl; cases hp
      | under hl hc =>
          cases hl
          obtain ⟨field, hf, rfl, rfl⟩ := hc
          simp only [fields, List.mem_cons, List.not_mem_nil, or_false] at hf
          rcases hf with rfl | rfl
          · exact ⟨by decide, .inl (by decide)⟩
          · exact ⟨by decide, .inl (by decide)⟩
    · rw [below_list hx]
      exact ⟨by decide, .inr (by decide)⟩
    · cases hx with
      | under hl hc => cases hl; exact hc.elim
      | inner hl hp hx =>
          cases hl
          cases hp
          rw [below_list hx]
          exact ⟨by decide, .inr (by decide)⟩

theorem reflect_record_two :
    ∃ body, (∀ᶠ d in atTop, (exec (reflectWithin d (.declared node) {} []) { schemas := two }).1 =
        .ok ⟨⟨"api::model::T<0>"⟩, body⟩) ∧
      ∀ d, (exec (reflectWithin d (.declared node) {} []) { schemas := two }).1 = .error .depth ∨
        (exec (reflectWithin d (.declared node) {} []) { schemas := two }).1 =
          .ok ⟨⟨"api::model::T<0>"⟩, body⟩ :=
  reflect_record family (by decide) guarded (by decide) rfl rfl rfl []

/-- Nodes of three lists. -/
def three : Schemas :=
  [(node, .record "Node" (fields ++ [⟨"c", .pointer .box list, false⟩]) false)]

/-- With a third list, the steps to elements repeat too often before all lists were cut. -/
theorem three_overrun :
    (exec (reflect (.declared node) {} []) { schemas := three }).1 =
      .error (.fault (.decode ("api::model::T<0> recurses at 'a.0.a.0.a.0.b.0.b.0.b.0.c.0.c.0' " ++
        "without an optional, sequence, map or enum in between"))) := by
  decide +kernel

end Nodes
end ApiAtlas.Walk
