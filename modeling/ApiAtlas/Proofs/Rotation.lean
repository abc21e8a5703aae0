import ApiAtlas.Proofs.Termination

/-!
# Recursive enumerations

A walk takes the first variant of an enumeration until a step to it repeats too often, and from
then on the next one with each repetition. A step repeats no more often than twice the threshold
and once, so only the first variants come in turn, as many as the threshold and two. A recursive
enumeration reflects exactly if one of these does not lead back to it. A variant that ends the
recursion but stands behind them is never taken.
-/
namespace ApiAtlas

/-- Whether a type is another one, or pointers to it. -/
def TypeExpr.leadsTo : TypeExpr → TypeExpr → Bool
  | pointer layer inner, e => pointer layer inner = e || inner.leadsTo e
  | t, e => t = e

theorem TypeExpr.leadsTo_self (e : TypeExpr) : e.leadsTo e := by
  cases e <;> simp [leadsTo]

namespace Walk
open Decode Reader Filter

/-- An enumeration whose payloads read pointers, scalars and the enumeration itself. No two of the
types have one name, and none is registered. -/
structure RotatingFamily (schemas : Schemas) (registry : Registry) (e : TypeExpr) (name : String)
    (variants : List (String × VariantContent)) (types : List TypeExpr) : Prop where
  layout : e.layout? schemas = some (.enumeration name variants)
  member : e ∈ types
  payloads : ∀ variant ∈ variants, ∀ p ∈ variant.2.parts, p ∈ types
  kinds : ∀ t ∈ types, t = e ∨ (∃ zero, t.zero? schemas = some zero) ∨
    ∃ layer inner, t = .pointer layer inner ∧ inner ∈ types
  apart : ∀ a ∈ types, ∀ b ∈ types, a.ref = b.ref → a = b
  unregistered : ∀ t ∈ types, registry.documentationOf? t.ref = none
  named : (variants.map Prod.fst).Nodup
  fields : ∀ variant ∈ variants, ∀ fields, variant.2 = .record fields →
    (fields.map FieldDecl.name).Nodup

/-- A payload that does not lead back. -/
def Closed (e : TypeExpr) (content : VariantContent) : Prop :=
  ∀ p ∈ content.parts, ¬ p.leadsTo e

instance (e : TypeExpr) (content : VariantContent) : Decidable (Closed e content) :=
  inferInstanceAs (Decidable (∀ p ∈ content.parts, ¬ p.leadsTo e))

section
variable {schemas : Schemas} {registry : Registry} {e t : TypeExpr} {name : String}
variable {variants : List (String × VariantContent)} {types : List TypeExpr} {o : Options}
variable {occurrences : List (Segment × Nat)} {path : Path} {muted : Bool} {w : World}

theorem get?_of_getElem? {table : List (String × VariantContent)} {i : Nat} {key : String}
    {content : VariantContent} (nodup : (table.map Prod.fst).Nodup)
    (h : table[i]? = some (key, content)) : Table.get? table key = some content := by
  induction table generalizing i with
  | nil => cases h
  | cons first rest ih =>
      obtain ⟨absent, nodup⟩ := List.nodup_cons.mp nodup
      cases i with
      | zero =>
          obtain rfl := Option.some.inj h
          simp [Table.get?]
      | succ i =>
          have later := ih nodup h
          have other : first.1 ≠ key := fun same =>
            absent (same ▸ List.mem_map_of_mem (Table.mem_of_get? later))
          simpa [Table.get?, other] using later

/-- As many repetitions beyond the threshold take the variant of that place. -/
theorem turn_add {threshold i count : Nat} (h : i < count) :
    turn threshold (threshold + i) count = i := by
  unfold turn
  split
  · rw [Nat.add_sub_cancel_left, Nat.mod_eq_of_lt h]
  · omega

theorem RotatingFamily.payload_mem (family : RotatingFamily schemas registry e name variants types)
    {variant : String × VariantContent} (mem : variant ∈ variants) {key : String}
    (under : variant.2.Under variant.1 key t) (hints : Hints) :
    t ∈ types ∧ ⟨key, t.ref⟩ ∈ steps schemas types o hints := by
  have ht := family.payloads variant mem t under.mem_parts
  exact ⟨ht, mem_steps family.member family.layout
    (List.mem_flatMap.mpr ⟨variant, mem, VariantContent.mem_keys under⟩) ht⟩

/-! ## A variant in turn that does not lead back -/

/-- What a walk of an enumeration finds: nothing is cached, since walks of payloads are muted. -/
def rotatingStage (schemas : Schemas) (registry : Registry) (o : Options)
    (occurrences : List (Segment × Nat)) : Stage where
  options := o
  occurrences := occurrences
  hints := []
  late := atTop
  fits w := w.schemas = schemas ∧ w.registry = registry ∧ w.cache = []
  grows _ _ := True
  made _ _ _ := True
  refl _ := trivial
  trans _ _ := trivial
  kept _ _ := trivial

theorem counts_rotatingStage :
    (rotatingStage schemas registry o occurrences).Counts schemas :=
  ⟨fun fits => fits.1, fun fits _ => ⟨fits, trivial⟩⟩

/-- The steps of a path lead back, and stand no more often than a limit; where one stands as often,
so does the last one. -/
structure Turning (types : List TypeExpr) (e : TypeExpr) (limit : Nat) (path : Path)
    (occurrences : List (Segment × Nat)) : Prop where
  carried : ∀ segment ∈ path, ∃ t ∈ types, t.leadsTo e ∧ segment.type = t.ref
  few : ∀ segment, path.count segment ≤ limit
  last : ∀ segment, path.count segment = limit → repeatsAt occurrences path = limit

theorem turning_root (limit : Nat) : Turning types e limit [] [] where
  carried _ h := by cases h
  few _ := Nat.zero_le _
  last _ h := h

theorem repeatsAt_child {key : String} {ref : TypeRef} (path : Path)
    (counted : ∀ segment, (Table.get? occurrences segment).getD 0 = path.count segment) :
    repeatsAt (stepped occurrences ⟨key, ref⟩) (path.child key ref) =
      path.count ⟨key, ref⟩ + 1 := by
  simp [repeatsAt, stepped, Table.get?_put_self, counted]

/-- Below a step that does not stand as often as the limit, steps that lead back may be taken. -/
theorem Turning.child {limit : Nat} {key : String} (h : Turning types e limit path occurrences)
    (counted : ∀ segment, (Table.get? occurrences segment).getD 0 = path.count segment)
    (below : repeatsAt occurrences path ≠ limit) (ht : t ∈ types) (leads : t.leadsTo e) :
    Turning types e limit (path.child key t.ref) (stepped occurrences ⟨key, t.ref⟩) := by
  have less (segment : Segment) : path.count segment < limit :=
    Nat.lt_of_le_of_ne (h.few segment) fun same => below (h.last segment same)
  refine ⟨fun segment hs => ?_, fun segment => ?_, fun segment same => ?_⟩
  · rcases List.mem_append.mp hs with hs | hs
    · exact h.carried segment hs
    · exact ⟨t, ht, leads, by rw [List.mem_singleton.mp hs]⟩
  · rw [List.count_append, List.count_singleton]
    have := less segment
    split <;> omega
  · have := less segment
    rw [List.count_append, List.count_singleton] at same
    rw [repeatsAt_child path counted]
    split at same
    · next last =>
      rw [← beq_iff_eq.mp last] at same
      exact same
    · omega

/-- A type lands in place if the enumeration does where it leads back. -/
theorem reads_carrier (family : RotatingFamily schemas registry e name variants types)
    (ht : t ∈ types) (enumerates : t.leadsTo e →
      (rotatingStage schemas registry o occurrences).Reads (fun d => readType d e) path muted
        fun _ _ _ => True) :
    (rotatingStage schemas registry o occurrences).Reads (fun d => readType d t) path muted
      fun _ _ _ => True := by
  induction t with
  | pointer layer inner ih =>
      obtain rfl | ⟨zero, scalar⟩ | ⟨layer', inner', same, inside⟩ := family.kinds _ ht
      · exact enumerates (TypeExpr.leadsTo_self _)
      · cases scalar
      · obtain ⟨-, rfl⟩ := TypeExpr.pointer.inj same
        have layout : (TypeExpr.pointer layer inner).layout? schemas = some (.pointer inner) := rfl
        exact .later rfl (counts_rotatingStage.reads_type layout
          (ih inside fun leads => enumerates (by simp [TypeExpr.leadsTo, leads])))
  | _ =>
      obtain rfl | ⟨zero, scalar⟩ | ⟨layer, inner, same, -⟩ := family.kinds _ ht
      · exact enumerates (TypeExpr.leadsTo_self _)
      · exact .later rfl ((counts_rotatingStage.reads_scalar scalar).mono fun _ _ _ _ => trivial)
      · cases same

/-- Where a step that leads back is taken, the turn of the variant that does not has not come. -/
theorem repeats_ne {i : Nat} {variant chosen : String × VariantContent}
    (there : variants[i]? = some variant) (closed : Closed e variant.2)
    (taken : variants[turn o.cycleThreshold (repeatsAt occurrences path) variants.length]? =
      some chosen) (under : chosen.2.Under chosen.1 key p) (leads : p.leadsTo e) :
    repeatsAt occurrences path ≠ o.cycleThreshold + i := by
  intro last
  obtain ⟨bound, -⟩ := List.getElem?_eq_some_iff.mp there
  rw [last, turn_add bound, there] at taken
  obtain rfl := Option.some.inj taken
  exact closed p under.mem_parts leads

/-- On a turning way a step was taken less often than the limit: one that leads back has not
reached the turn of the variant that does not, and no other stands on the way. -/
theorem Turning.count_lt (family : RotatingFamily schemas registry e name variants types)
    (below : o.cycleThreshold < 2 ^ 63) {i : Nat} (within : i ≤ o.cycleThreshold + 1)
    (turning : Turning types e (o.cycleThreshold + i) path occurrences)
    (open' : p.leadsTo e → repeatsAt occurrences path ≠ o.cycleThreshold + i) (hp : p ∈ types)
    (key : String) : path.count ⟨key, p.ref⟩ < o.runawayLimit := by
  have limit : o.runawayLimit = 2 * o.cycleThreshold + 1 := Options.runawayLimit_eq below
  by_cases leads : p.leadsTo e
  · have less := Nat.lt_of_le_of_ne (turning.few ⟨key, p.ref⟩) fun same =>
      open' leads (turning.last _ same)
    omega
  · have absent : (⟨key, p.ref⟩ : Segment) ∉ path := fun stands => by
      obtain ⟨q, hq, back, same⟩ := turning.carried _ stands
      exact leads (family.apart p hp q hq same ▸ back)
    rw [List.count_eq_zero_of_not_mem absent]
    exact o.one_le_runawayLimit

/-- If a variant that comes in turn does not lead back, walks of the enumeration land. -/
theorem reads_rotating (family : RotatingFamily schemas registry e name variants types)
    (below : o.cycleThreshold < 2 ^ 63) {i : Nat} {variant : String × VariantContent}
    (there : variants[i]? = some variant) (closed : Closed e variant.2)
    (within : i ≤ o.cycleThreshold + 1) (left : Nat)
    (standing : Standing schemas types o [] path occurrences)
    (turning : Turning types e (o.cycleThreshold + i) path occurrences)
    (enough : (steps schemas types o []).length * o.runawayLimit ≤ path.length + left)
    (muted : Bool) :
    (rotatingStage schemas registry o occurrences).Reads (fun d => readType d e) path muted
      fun _ body _ => body = .cases (variants.map fun v => ⟨none, v.1⟩) := by
  -- the way grows by a step at a time, and is never longer than all steps as often as the limit
  induction left using Nat.strongRecOn generalizing path occurrences muted with
  | _ left deeper =>
      obtain ⟨bound, -⟩ := List.getElem?_eq_some_iff.mp there
      obtain ⟨chosen, taken⟩ : ∃ chosen,
          variants[(rotatingStage schemas registry o occurrences).turn path variants.length]? =
            some chosen :=
        ⟨_, List.getElem?_eq_getElem (turn_lt _ _ (Nat.zero_lt_of_lt bound))⟩
      have mem := List.mem_of_getElem? taken
      have named : (variants.map Prod.fst)[(rotatingStage schemas registry o occurrences).turn path
          variants.length]? = some chosen.1 := by
        rw [List.getElem?_map, taken]
        rfl
      refine .later rfl (counts_rotatingStage.reads_type family.layout
        ((Stage.reads_variant named (get?_of_getElem? family.named taken) (family.fields chosen mem)
          fun key p under => ?_).mono fun _ _ _ left => left.1))
      obtain ⟨hp, known⟩ := family.payload_mem mem under []
      have unclosed := repeats_ne there closed taken under
      have few : (Table.get? (stepped occurrences ⟨key, p.ref⟩) ⟨key, p.ref⟩).getD 0 ≤
          o.runawayLimit := by
        rw [stepped, Table.get?_put_self, Option.getD_some, standing.counted]
        exact turning.count_lt family below within unclosed hp key
      have next := standing.child known few
      intro s ref body hs stands takes
      obtain ⟨-, registered, empty⟩ := hs.fits
      have lands : (rotatingStage schemas registry o (stepped occurrences ⟨key, p.ref⟩)).Reads
          (fun d => readType d p) (path.child key p.ref) true fun _ _ _ => True := by
        refine reads_carrier family hp fun leads => ?_
        have longer := next.length_le
        rw [List.length_append, List.length_singleton] at longer
        refine (deeper (left - 1) (by omega) next
          (turning.child standing.counted (unclosed leads) hp leads) ?_ true).mono
            fun _ _ _ _ => trivial
        rw [List.length_append, List.length_singleton]
        omega
      obtain ⟨inside, sample, w, run, fits, -, -⟩ := hs.walks stands takes standing.positive
        (by rw [empty]; rfl) (registered ▸ family.unregistered p hp) few lands
        fun u hu => ⟨hu.options, congrArg (stepped · _) hu.occurrences, hu.hints, hu.fits⟩
      exact ⟨⟨p, inside, sample⟩, w, rfl, run, fits, trivial, trivial⟩

/-! ## Variants in turn that all lead back -/

theorem PayloadData.part {accepts : TypeExpr → Json → Prop} {content : VariantContent} {v : Json}
    (h : PayloadData accepts content v) {p : TypeExpr} (hp : p ∈ content.parts) :
    ∃ v, accepts p v := by
  cases h with
  | newtype h => exact ⟨v, List.mem_singleton.mp hp ▸ h⟩
  | tuple _ h =>
      obtain ⟨i, bound, rfl⟩ := List.getElem_of_mem hp
      exact ⟨_, h.get bound (h.length_eq ▸ bound)⟩
  | record h =>
      obtain ⟨field, hf, rfl⟩ := List.mem_map.mp hp
      obtain ⟨member, hm, named⟩ := List.mem_map.mp (h.complete field hf)
      obtain ⟨field', hf', named', accepted⟩ := h.accepted member hm
      obtain rfl := List.inj_on_of_nodup_map h.fields_nodup hf' hf (named'.trans named)
      exact ⟨_, accepted⟩

/-- A world that holds no data of a type that leads back. -/
structure UnservedWorld (schemas : Schemas) (registry : Registry) (e : TypeExpr)
    (types : List TypeExpr) (w : World) : Prop where
  declared : w.schemas = schemas
  registered : w.registry = registry
  entries : ∀ {t o entry}, t ∈ types → Table.get? w.cache (t.ref, o) = some entry → ¬ t.leadsTo e

theorem RotatingFamily.keeping (family : RotatingFamily schemas registry e name variants types)
    (o : Options) :
    Keeping schemas types o (UnservedWorld schemas registry e types) fun t _ => ¬ t.leadsTo e where
  declared h := h.declared
  recounted h _ := ⟨h.declared, h.registered, fun ht found => h.entries ht found⟩
  cached h ht found := h.entries ht found
  placed h ht found := by cases (family.unregistered _ ht).symm.trans (h.registered ▸ found)
  caching {w t v} shape h ht closed := by
    refine ⟨h.declared, h.registered, fun {t' o' entry} ht' found => ?_⟩
    by_cases same : (t'.ref, o') = (t.ref, o)
    · obtain rfl := family.apart t' ht' t ht (Prod.mk.inj same).1
      exact closed
    · exact h.entries ht' ((Table.get?_put_of_ne _ _ same).symm.trans found)

theorem RotatingFamily.layouts (family : RotatingFamily schemas registry e name variants types) :
    LayoutFamily schemas types where
  parts t ht p hp := by
    obtain rfl | ⟨zero, scalar⟩ | ⟨layer, inner, rfl, inside⟩ := family.kinds t ht
    · obtain ⟨variant, mem, hp⟩ := List.mem_flatMap.mp ((mem_parts_iff family.layout p).mp hp)
      exact family.payloads variant mem p hp
    · rw [parts_of_zero scalar] at hp
      cases hp
    · exact List.mem_singleton.mp hp ▸ inside
  kinds t ht := by
    obtain rfl | ⟨zero, scalar⟩ | ⟨layer, inner, rfl, -⟩ := family.kinds t ht
    · exact .inr ⟨_, family.layout⟩
    · exact .inl (.scalar scalar)
    · exact .inr ⟨_, rfl⟩
  inPlace := by
    refine ⟨fun t => sizeOf t, fun t ht layout hl p hp => ?_⟩
    obtain rfl | ⟨zero, scalar⟩ | ⟨layer, inner, rfl, -⟩ := family.kinds t ht
    · cases family.layout.symm.trans hl
      cases hp
    · cases (layout?_of_zero scalar).symm.trans hl
    · cases hl
      cases hp
      simp

theorem RotatingFamily.closed_of_zero
    (family : RotatingFamily schemas registry e name variants types) {zero : Json}
    (scalar : t.zero? schemas = some zero) : ¬ t.leadsTo e := by
  intro leads
  obtain rfl : t = e := by
    cases t with
    | pointer => cases scalar
    | _ => exact of_decide_eq_true leads
  cases (layout?_of_zero scalar).symm.trans family.layout

theorem leaves_scalar (family : RotatingFamily schemas registry e name variants types)
    {hints : Hints} {zero : Json} (scalar : t.zero? schemas = some zero) :
    (groundAt o (UnservedWorld schemas registry e types) hints occurrences).Leaves
      (fun d => readType d t (.walk path muted)) fun _ => ¬ t.leadsTo e := by
  have leaf : (groundAt o (UnservedWorld schemas registry e types) hints occurrences).Leaves
      (fun d => readTypeWith (readType d) t (.walk path muted)) (Reread schemas t) :=
    Ground.leaves_leaf_walk (.scalar scalar) fun s hs => (family.keeping o).began t hs
  have leaves := leaf.mono fun _ _ => family.closed_of_zero scalar
  exact ends_succ leaves

/-- A type that leads back leaves nothing in place if the enumeration does not. -/
theorem leaves_carrier (family : RotatingFamily schemas registry e name variants types)
    {hints : Hints} (ht : t ∈ types) (enumerates : t.leadsTo e →
      (groundAt o (UnservedWorld schemas registry e types) hints occurrences).Leaves
        (fun d => readType d e (.walk path muted)) fun _ => False) :
    (groundAt o (UnservedWorld schemas registry e types) hints occurrences).Leaves
      (fun d => readType d t (.walk path muted)) fun _ => ¬ t.leadsTo e := by
  have law := family.keeping o
  induction t with
  | pointer layer inner ih =>
      obtain rfl | ⟨zero, scalar⟩ | ⟨layer', inner', same, inside⟩ := family.kinds _ ht
      · exact (enumerates (TypeExpr.leadsTo_self _)).mono fun _ none => none.elim
      · cases scalar
      · obtain ⟨-, rfl⟩ := TypeExpr.pointer.inj same
        by_cases root : TypeExpr.pointer layer inner = e
        · subst root
          exact (enumerates (TypeExpr.leadsTo_self _)).mono fun _ none => none.elim
        · have layout : (TypeExpr.pointer layer inner).layout? schemas = some (.pointer inner) :=
            rfl
          have same : (TypeExpr.pointer layer inner).leadsTo e = inner.leadsTo e := by
            simp [TypeExpr.leadsTo, root]
          rw [same] at enumerates ⊢
          have leaves := ih inside enumerates
          exact law.ends_layout layout leaves
  | _ =>
      obtain rfl | ⟨zero, scalar⟩ | ⟨layer, inner, same, -⟩ := family.kinds _ ht
      · exact (enumerates (TypeExpr.leadsTo_self _)).mono fun _ none => none.elim
      · exact leaves_scalar family scalar
      · cases same

theorem Standing.repeats_le {hints : Hints} (h : Standing schemas types o hints path occurrences) :
    repeatsAt occurrences path ≤ o.runawayLimit := by
  unfold repeatsAt
  cases path.getLast? with
  | none => exact Nat.zero_le _
  | some segment => exact h.counted segment ▸ h.few segment

theorem turn_le {threshold repeats : Nat} (h : repeats ≤ 2 * threshold + 1) (count : Nat) :
    turn threshold repeats count ≤ threshold + 1 := by
  unfold turn
  split
  · have := Nat.mod_le (repeats - threshold) count
    omega
  · exact Nat.zero_le _

/-- If all variants that come in turn lead back, no walk of the enumeration leaves anything. -/
theorem leaves_rotating (family : RotatingFamily schemas registry e name variants types)
    (below : o.cycleThreshold < 2 ^ 63)
    (led : ∀ i ≤ o.cycleThreshold + 1, ∀ variant, variants[i]? = some variant →
      ¬ Closed e variant.2) {hints : Hints} (left : Nat)
    (standing : Standing schemas types o hints path occurrences)
    (enough : (steps schemas types o hints).length * o.runawayLimit ≤ path.length + left)
    (muted : Bool) :
    (groundAt o (UnservedWorld schemas registry e types) hints occurrences).Leaves
      (fun d => readType d e (.walk path muted)) fun _ => False := by
  induction left using Nat.strongRecOn generalizing path occurrences muted with
  | _ left deeper =>
      have law := family.keeping o
      have children : ∀ variant content, (variants.map Prod.fst)[(groundAt o
            (UnservedWorld schemas registry e types) hints occurrences).turn path
              variants.length]? = some variant →
          Table.get? variants variant = some content → ∀ key p, content.Under variant key p →
          (groundAt o (UnservedWorld schemas registry e types) hints occurrences).Leaves
            (fun d => readChild path true key (seedOf (readType d) p)) fun _ => ¬ p.leadsTo e := by
        intro variant content _ chosen key p under
        obtain ⟨hp, known⟩ := family.payload_mem (Table.mem_of_get? chosen) under hints
        refine leaves_readChild law hp standing.positive (runs_replay family.layouts law hp)
          fun muted within => leaves_carrier family hp fun _ => ?_
        have next := standing.child known within
        have longer := next.length_le
        rw [List.length_append, List.length_singleton] at longer
        refine deeper (left - 1) (by omega) next ?_ muted
        rw [List.length_append, List.length_singleton]
        omega
      have leaves : (groundAt o (UnservedWorld schemas registry e types) hints occurrences).Leaves
          (fun d => readEnumeration (readType d) name variants (.walk path muted))
          fun _ => False := by
        refine (Ground.leaves_readEnumeration children).mono fun v found => ?_
        obtain ⟨variant, content, taken, chosen, data⟩ := found
        rw [List.getElem?_map] at taken
        obtain ⟨⟨variant, content'⟩, there, rfl⟩ := Option.map_eq_some_iff.mp taken
        obtain rfl := Option.some.inj (chosen.symm.trans (get?_of_getElem? family.named there))
        have few := turn_le (Options.runawayLimit_eq below ▸ standing.repeats_le) variants.length
        obtain ⟨p, hp, leads⟩ : ∃ p ∈ content.parts, p.leadsTo e := by
          simpa [Closed] using led _ few _ there
        rcases data (fun empty => by subst empty; cases hp) with ⟨rfl, -⟩ | ⟨x, -, payload⟩
        · cases hp
        · obtain ⟨v, closed⟩ := payload.part hp
          exact closed leads
      exact law.ends_layout family.layout leaves

/-! ## Reflections -/

/-- From an empty cache, an enumeration reflects to the names of all variants exactly if one of the
first variants, as many as the threshold and two, does not lead back to it. -/
theorem reflect_rotation (family : RotatingFamily schemas registry e name variants types)
    (o : Options) (below : o.cycleThreshold < 2 ^ 63) (context : List (String × Json))
    (declared : w.schemas = schemas) (registered : w.registry = registry) (empty : w.cache = []) :
    (∃ u, ∀ᶠ d in atTop, exec (reflectWithin d e o context) w =
      (.ok ⟨e.ref, .cases (variants.map fun v => ⟨none, v.1⟩)⟩, u)) ↔
    ∃ variant ∈ variants.take (o.cycleThreshold + 2), Closed e variant.2 := by
  constructor
  · rintro ⟨u, reflected⟩
    by_contra all
    have led : ∀ i ≤ o.cycleThreshold + 1, ∀ variant, variants[i]? = some variant →
        ¬ Closed e variant.2 := fun i within variant there closed => by
      have taken : (variants.take (o.cycleThreshold + 2))[i]? = some variant := by
        rw [List.getElem?_take_of_lt (by omega), there]
      exact all ⟨variant, List.mem_of_getElem? taken, closed⟩
    have fits : UnservedWorld schemas registry e types w :=
      ⟨declared, registered, fun _ found => by rw [empty] at found; cases found⟩
    obtain ⟨r, u', run, -, found, -⟩ := ends_reflect (family.keeping o) family.member
      (fun hints muted => (leaves_rotating family below led _ standing_root (Nat.le_add_left _ _)
        muted).mono fun _ none => none.elim) context fits
    obtain ⟨d, first, second⟩ := (reflected.and run).exists
    obtain ⟨v, closed⟩ := found _ (Prod.mk.inj (second.symm.trans first)).1
    exact closed e.leadsTo_self
  · rintro ⟨variant, mem, closed⟩
    obtain ⟨i, taken⟩ := List.mem_iff_getElem?.mp mem
    obtain ⟨within, there⟩ : i < o.cycleThreshold + 2 ∧ variants[i]? = some variant := by
      rw [List.getElem?_take] at taken
      split at taken
      · exact ⟨‹_›, taken⟩
      · cases taken
    have lands := reads_rotating family below there closed (by omega) _ standing_root
      (turning_root _) (Nat.le_add_left _ _) false
    obtain ⟨body, sample, u, run, rfl⟩ := lands.reflects context
      ⟨rfl, rfl, rfl, declared, registered, empty⟩ (by rw [empty]; rfl)
      (registered ▸ family.unregistered e family.member)
    exact ⟨_, run⟩

end

/-! ## Expressions, and an enumeration of one variant too many -/

namespace Expressions

def expr : Slot := ⟨"T0", "api::model::T<0>"⟩

def boxed : TypeExpr := .pointer .box (.declared expr)

/-- The last variant that comes in turn is the only one that does not lead back. -/
def variants : List (String × VariantContent) :=
  [("Not", .newtype boxed), ("And", .tuple [boxed, boxed]),
    ("Let", .record [⟨"name", .text .string, false⟩, ⟨"value", boxed, false⟩]),
    ("Shared", .newtype (.pointer .arc boxed)), ("Literal", .newtype (.int .u8))]

def schemas : Schemas := [(expr, .enumeration "Expr" variants)]

def types : List TypeExpr :=
  [.declared expr, boxed, .pointer .arc boxed, .text .string, .int .u8]

theorem family : RotatingFamily schemas [] (.declared expr) "Expr" variants types where
  layout := rfl
  member := by decide
  payloads := by decide +kernel
  kinds := by
    intro t ht
    simp only [types, List.mem_cons, List.not_mem_nil, or_false] at ht
    rcases ht with rfl | rfl | rfl | rfl | rfl
    · exact .inl rfl
    · exact .inr (.inr ⟨_, _, rfl, by decide⟩)
    · exact .inr (.inr ⟨_, _, rfl, by decide⟩)
    · exact .inr (.inl ⟨_, rfl⟩)
    · exact .inr (.inl ⟨_, rfl⟩)
  apart := by decide +kernel
  unregistered := by decide +kernel
  named := by decide
  fields := by
    intro variant hv fields same
    simp only [variants, List.mem_cons, List.not_mem_nil, or_false] at hv
    rcases hv with rfl | rfl | rfl | rfl | rfl <;> cases same
    decide

theorem reflect_rotation_expr :
    ∃ u, ∀ᶠ d in atTop, exec (reflectWithin d (.declared expr) {} []) { schemas := schemas } =
      (.ok ⟨⟨"api::model::T<0>"⟩, .cases (variants.map fun v => ⟨none, v.1⟩)⟩, u) :=
  (reflect_rotation family {} (by decide) [] rfl rfl rfl).mpr (by decide)

/-- A unit behind five variants that lead back. -/
def crowded : Schemas :=
  [(expr, .enumeration "E" [("A", .newtype boxed), ("B", .newtype boxed), ("C", .newtype boxed),
    ("D", .newtype boxed), ("F", .newtype boxed), ("G", .unit)])]

theorem unit_not_reached :
    (exec (reflect (.declared expr) {} []) { schemas := crowded }).1 =
      .error (.fault (.decode ("alloc::boxed::Box<api::model::T<0>> recurses at " ++
        "'A.A.A.A.B.A.C.A.D.A.F.A' without an optional, sequence, map or enum in between"))) := by
  decide +kernel

end Expressions
end Walk
end ApiAtlas
