import ApiAtlas.Proofs.PlainShape

/-!
# Runs from two caches

Two runs of a reflection from two worlds, in lockstep. Where a type is cached in one world and
walked in the other, the runs come together again if the type leaves the same either way: it is
plain and without maps, or registered with a placeholder. Everything else has to be cached alike.
-/
namespace ApiAtlas.Walk
open Decode Reader Filter

section
variable (schemas : Schemas) (registry : Registry) (U V : TypeExpr → Prop) (O : Options → Prop)

/-- What a type leaves is the same, cached or not. -/
def Uniform (o : Options) (t : TypeExpr) : Prop :=
  o.Good ∧ (∃ n, Plain schemas registry n t) ∧ MapFree schemas t ∨
    ∃ body placeholder, registry.documentationOf? t.ref = some ⟨body, some placeholder⟩

/-- Worlds of settled shapes that hold the same of types which are not uniform. -/
structure Alike (w w' : World) : Prop where
  first : PlainWorld schemas registry U w
  second : PlainWorld schemas registry U w'
  same : ∀ {t o}, V t → O o → ¬ Uniform schemas registry o t →
    Table.get? w.cache (t.ref, o) = Table.get? w'.cache (t.ref, o)

end

variable {schemas : Schemas} {registry : Registry} {U V : TypeExpr → Prop} {O : Options → Prop}
variable {o : Options} {hints hints' : Hints} {w w' v v' : World} {n d : Nat} {t root : TypeExpr}

theorem Alike.symm (h : Alike schemas registry U V O w w') : Alike schemas registry U V O w' w :=
  ⟨h.second, h.first, fun ht ho other => (h.same ht ho other).symm⟩

/-! ## Uniform types -/

theorem recordedMaps_of_mapFree (free : MapFree schemas t) (most n : Nat) (own : TypeRef) :
    recordedMaps schemas most n own t = [] := by
  induction n generalizing t own with
  | zero => rfl
  | succ n ih =>
      unfold recordedMaps
      cases hl : t.layout? schemas with
      | none => rfl
      | some layout =>
          have inside {p : TypeExpr} (hp : p ∈ layout.parts) (own : TypeRef) :
              recordedMaps schemas most n own p = [] :=
            ih (free.nested (.single ((mem_parts_iff hl p).mpr hp))) own
          cases layout with
          | pointer inner => exact inside (List.mem_singleton_self _) _
          | newtype name inner => exact inside (List.mem_singleton_self _) _
          | option inner => exact inside (List.mem_singleton_self _) _
          | record expecting fields library denyUnknown =>
              exact List.flatMap_eq_nil_iff.mpr fun field hf => inside (List.mem_map_of_mem hf) _
          | seq inner =>
              dsimp only
              split
              · rfl
              · exact inside (List.mem_singleton_self _) _
          | tuple expecting types =>
              exact List.flatMap_eq_nil_iff.mpr fun c hc => inside hc _
          | map inner => exact absurd hl (free t .refl inner)
          | enumeration name variants => rfl

/-- What is cached of a plain type without maps. -/
theorem PlainWorld.entry_eq (family : Family schemas U) (fits : PlainWorld schemas registry U w)
    (good : o.Good) (member : U t) (plain : Plain schemas registry n t) (free : MapFree schemas t)
    {entry : CacheEntry} (cached : Table.get? w.cache (t.ref, o) = some entry) :
    entry = ⟨madeUp schemas o.maxSequenceLength n t,
      ⟨t.ref, plainBody schemas everyKey o.maxSequenceLength n t.ref t⟩⟩ := by
  obtain ⟨body, m, shape, settled⟩ := fits.entries good member plain cached
  obtain ⟨sample, shape'⟩ := entry
  obtain rfl : shape' = ⟨t.ref, body⟩ := shape
  have noMaps := recordedMaps_of_mapFree free o.maxSequenceLength n t.ref
  have made : sample = madeUp schemas o.maxSequenceLength n t := settled.sampled free n plain
  have listed := settled.plainBody fits good family (w.mapKeys o)
    (fun _ _ => mapKeys_of_cached) member id member plain cached
  rw [listed, made, (plainBody_eq_iff plain).mpr fun ref hr => by rw [noMaps] at hr; cases hr]

/-- The growth by a plain type without maps caches nothing that is not uniform. -/
theorem PlainGrowth.alike (family : Family schemas U) (good : o.Good) (free : MapFree schemas root)
    (grown : PlainGrowth schemas registry U o hints root n w v) {o' : Options} (member : U t)
    (other : ¬ Uniform schemas registry o' t) :
    Table.get? v.cache (t.ref, o') = Table.get? w.cache (t.ref, o') := by
  cases found : Table.get? w.cache (t.ref, o') with
  | some entry => exact grown.kept found
  | none =>
      by_contra present
      obtain ⟨x, member', plain, nested, same⟩ := grown.plain found present
      obtain ⟨ref, rfl⟩ := Prod.mk.inj same
      obtain rfl := family.apart member member' ref
      exact other (.inl ⟨good, ⟨n, plain⟩, free.nested nested⟩)

theorem Alike.grown (family : Family schemas U) (sub : ∀ t, V t → U t) (good : o.Good)
    (free : MapFree schemas root) (h : Alike schemas registry U V O w w')
    (fits : PlainWorld schemas registry U v) (fits' : PlainWorld schemas registry U v')
    (grown : PlainGrowth schemas registry U o hints root n w v)
    (grown' : PlainGrowth schemas registry U o hints' root n w' v') :
    Alike schemas registry U V O v v' := by
  refine ⟨fits, fits', fun {t o'} ht ho other => ?_⟩
  rw [grown.alike family good free (sub t ht) other, grown'.alike family good free (sub t ht) other]
  exact h.same ht ho other

/-- Caching a uniform type keeps worlds alike. -/
theorem Alike.caching (family : Family schemas U) (sub : ∀ t, V t → U t)
    (h : Alike schemas registry U V O w w') (member : U t) (uniform : Uniform schemas registry o t)
    {entry : CacheEntry} (fits : PlainWorld schemas registry U (w.caching t.ref o entry)) :
    Alike schemas registry U V O (w.caching t.ref o entry) w' := by
  refine ⟨fits, h.second, fun {t' o'} ht ho other => ?_⟩
  refine (Table.get?_put_of_ne _ _ fun same => other ?_).trans (h.same ht ho other)
  obtain ⟨ref, rfl⟩ := Prod.mk.inj same
  exact family.apart (sub t' ht) member ref ▸ uniform

/-! ## The bond -/

/-- States of one session in worlds that are alike. -/
def Bond.alike (schemas : Schemas) (registry : Registry) (U V : TypeExpr → Prop)
    (O : Options → Prop) (o : Options) (occurrences : List (Segment × Nat)) : Bond schemas where
  rel s t := s.session = t.session ∧ s.session.options = o ∧ s.session.occurrences = occurrences ∧
    Alike schemas registry U V O s.world t.world
  first := True
  second := True
  session := And.left
  declared := fun ⟨_, _, _, h⟩ => ⟨h.first.declared, h.second.declared⟩
  note := fun note ⟨same, options, counted, h⟩ =>
    ⟨congrArg note.apply same, (note.apply_options _).trans options,
      (note.apply_occurrences _).trans counted, h⟩
  counted := fun _ ⟨same, options, counted, h⟩ =>
    ⟨same, options, counted, h.first.recounted rfl rfl rfl, h.second.recounted rfl rfl rfl,
      fun ht ho other => h.same ht ho other⟩

/-! ## Plain types under a key -/

section
variable {occurrences : List (Segment × Nat)} {path : Path} {muted : Bool} {key : String}
variable {s : State} {α : Type}

/-- Under a node that takes no fields a value is read as if muted. -/
theorem readChild_closed (seed : Seed α) {ref : TypeRef} {body : ShapeBody}
    (node : s.session.tree.at? path.keys = some ⟨ref, body⟩) (closed : ¬ body.IsOpen)
    (unregistered : s.world.registry.documentationOf? seed.type = none) :
    exec (readChild path false key seed) s = exec (readChild path true key seed) s := by
  have refused (child : Shape) : exec (recordField path key child) s = (.ok false, s) := by
    rw [exec_recordField, node]
    cases body with
    | cases list => rfl
    | _ => exact absurd trivial closed
  have noted (child : Shape) : exec (noteField path false key child) s = (.ok (), s) := by
    show exec ((fun _ => ()) <$> recordField path key child) s = _
    rw [exec_map, refused]
  rw [exec_readChild, exec_readChild, unregistered]
  cases Table.get? s.world.cache (seed.type, s.session.options) with
  | some entry =>
      dsimp only
      unfold serve
      rw [exec_bind, noted, exec_bind]
      rfl
  | none =>
      show exec ((! ·) <$> recordField path key (Shape.leaf seed.type) >>= fun refused =>
        descend path refused key seed) s = exec (descend path true key seed) s
      rw [exec_bind, exec_map, refused]
      rfl

/-- Nothing is recorded under a node that is missing. -/
theorem readChild_missing (seed : Seed α) (missing : s.session.tree.at? path.keys = none)
    (unregistered : s.world.registry.documentationOf? seed.type = none) :
    exec (readChild path false key seed) s = (.error (.unrecorded path), s) := by
  have refused (child : Shape) :
      exec (recordField path key child) s = (.error (.unrecorded path), s) := by
    rw [exec_recordField, missing]
  have noted (child : Shape) :
      exec (noteField path false key child) s = (.error (.unrecorded path), s) := by
    show exec ((fun _ => ()) <$> recordField path key child) s = _
    rw [exec_map, refused]
  rw [exec_readChild, unregistered]
  cases Table.get? s.world.cache (seed.type, s.session.options) with
  | some entry =>
      dsimp only
      unfold serve
      rw [exec_bind, noted]
  | none =>
      show exec ((! ·) <$> recordField path key (Shape.leaf seed.type) >>= fun refused =>
        descend path refused key seed) s = _
      rw [exec_bind, exec_map, refused]

/-- Where a plain type without maps ends under a key that can be recorded. -/
theorem plain_child_stands (family : Family schemas U) (good : o.Good) (member : U t)
    (plain : Plain schemas registry n t) (free : MapFree schemas t)
    (positive : Positive occurrences) (clear : ClearFor schemas registry U key t occurrences)
    (options : s.session.options = o) (counted : s.session.occurrences = occurrences)
    (fits : PlainWorld schemas registry U s.world) {ref : TypeRef} {body : ShapeBody}
    (stands : s.Stands path muted ⟨ref, body⟩) (takes : body.IsOpen) :
    ∃ w, PlainWorld schemas registry U w ∧
      PlainGrowth schemas registry U o s.session.hints t n s.world w ∧
      ∀ d ≥ n, exec (readChild path muted key (seedOf (readType d) t)) s =
        (.ok (), s.landed path muted ⟨ref, body.withField key
          ⟨t.ref, plainBody schemas everyKey o.maxSequenceLength n t.ref t⟩⟩
          (madeUp schemas o.maxSequenceLength n t) w) := by
  obtain ⟨x, w, rfl, run, fits', grown, piece⟩ := child_lands family good
    (fun k _ t member plain => reads_plain family good k member plain) positive member .refl plain
    key clear s ref body ⟨options, counted, rfl, fits⟩ stands takes
  have sample : x.sample = madeUp schemas o.maxSequenceLength n x.type := piece.sampled free n plain
  refine ⟨w, fits', grown, fun d hd => ?_⟩
  rw [eventually_principal.mp run d hd, ← sample]
  cases muted with
  | true => rfl
  | false =>
      have entry := fits'.entry_eq family good member plain free (piece.cached rfl)
      rw [(CacheEntry.mk.inj entry).2]

/-- From two states, reads of a type under a key end alike within late allowances. -/
def ReadTogether (schemas : Schemas) (registry : Registry) (U V : TypeExpr → Prop)
    (O : Options → Prop) (o : Options) (occurrences : List (Segment × Nat)) (n : Nat)
    (t : TypeExpr) (path : Path) (muted : Bool) (key : String) (s u : State) : Prop :=
  ∃ r s' u', (∀ d ≥ n, exec (readChild path muted key (seedOf (readType d) t)) s = (r, s')) ∧
    (∀ d ≥ n, exec (readChild path muted key (seedOf (readType d) t)) u = (r, u')) ∧
    (Bond.alike schemas registry U V O o occurrences).rel s' u'

/-- A plain type without maps is read together under a node that takes fields. -/
theorem together_standing (family : Family schemas U) (sub : ∀ t, V t → U t) (good : o.Good)
    (member : U t) (plain : Plain schemas registry n t) (free : MapFree schemas t)
    (positive : Positive occurrences) (clear : ClearFor schemas registry U key t occurrences)
    {u : State} {ref : TypeRef} {body : ShapeBody}
    (h : (Bond.alike schemas registry U V O o occurrences).rel s u)
    (stands : s.Stands path muted ⟨ref, body⟩) (takes : body.IsOpen) :
    ReadTogether schemas registry U V O o occurrences n t path muted key s u := by
  obtain ⟨same, options, counted, alike⟩ := h
  obtain ⟨w, fits, grown, run⟩ := plain_child_stands family good member plain free positive clear
    options counted alike.first stands takes
  obtain ⟨w', fits', grown', run'⟩ := plain_child_stands family good member plain free positive
    clear (same ▸ options) (same ▸ counted) alike.second (fun quiet => same ▸ stands quiet) takes
  refine ⟨_, _, _, run, run', ?_, options, counted,
    alike.grown family sub good free fits fits' grown grown'⟩
  show (s.landed ..).session = (u.landed ..).session
  unfold State.landed
  rw [same]

/-- A plain type without maps is read together, wherever it stands: where nothing can be recorded,
it is read as if muted or not at all. -/
theorem together_plain (family : Family schemas U) (sub : ∀ t, V t → U t) (good : o.Good)
    (member : U t) (plain : Plain schemas registry n t) (free : MapFree schemas t)
    (positive : Positive occurrences) (clear : ClearFor schemas registry U key t occurrences)
    {u : State} (h : (Bond.alike schemas registry U V O o occurrences).rel s u) :
    ReadTogether schemas registry U V O o occurrences n t path muted key s u := by
  have same := h.1
  have standing {muted : Bool} {ref : TypeRef} {body : ShapeBody}
      (stands : s.Stands path muted ⟨ref, body⟩) (takes : body.IsOpen) :=
    together_standing family sub good member plain free positive clear h stands takes
  have loud : s.Stands path true ⟨t.ref, .plain⟩ := fun quiet => by cases quiet
  have quietly := standing loud trivial
  have unregistered : s.world.registry.documentationOf? t.ref = none := by
    rw [h.2.2.2.first.registered, plain.unregistered]
  have unregistered' : u.world.registry.documentationOf? t.ref = none := by
    rw [h.2.2.2.second.registered, plain.unregistered]
  cases muted with
  | true => exact quietly
  | false =>
      cases node : s.session.tree.at? path.keys with
      | none =>
          have node' : u.session.tree.at? path.keys = none := same ▸ node
          exact ⟨_, s, u, fun d _ => readChild_missing _ node unregistered,
            fun d _ => readChild_missing _ node' unregistered', h⟩
      | some parent =>
          obtain ⟨ref, body⟩ := parent
          have node' : u.session.tree.at? path.keys = some ⟨ref, body⟩ := same ▸ node
          by_cases takes : body.IsOpen
          · exact standing (fun _ => node) takes
          · obtain ⟨r, s', u', run, run', after⟩ := quietly
            refine ⟨r, s', u', fun d hd => ?_, fun d hd => ?_, after⟩
            · rw [readChild_closed (seedOf (readType d) t) node takes unregistered, run d hd]
            · rw [readChild_closed (seedOf (readType d) t) node' takes unregistered', run' d hd]

/-- Runs from two caches come together behind a plain type without maps. -/
theorem agree_plain_child (family : Family schemas U) (sub : ∀ t, V t → U t) (good : o.Good)
    (member : U t) (plain : Plain schemas registry n t) (free : MapFree schemas t)
    (positive : Positive occurrences) (clear : ClearFor schemas registry U key t occurrences) :
    Agree (Bond.alike schemas registry U V O o occurrences)
      (readChild path muted key (seedOf (readType d) t))
      (readChild path muted key (seedOf (readType d) t)) := by
  intro s u h
  have together : ReadTogether schemas registry U V O o occurrences n t path muted key s u :=
    together_plain family sub good member plain free positive clear h
  obtain ⟨r, s', u', run, run', after⟩ := together
  by_cases used : (exec (readChild path muted key (seedOf (readType d) t)) s).1 = .error .depth
  · exact .inl ⟨trivial, used⟩
  by_cases used' : (exec (readChild path muted key (seedOf (readType d) t)) u).1 = .error .depth
  · exact .inr (.inl ⟨trivial, used'⟩)
  rw [← readChild_mono (Nat.le_max_left d n) path muted key t s used,
    ← readChild_mono (Nat.le_max_left d n) path muted key t u used',
    run _ (Nat.le_max_right d n), run' _ (Nat.le_max_right d n)]
  exact .inr (.inr ⟨rfl, after⟩)

/-! ## Types with placeholders under a key -/

theorem exec_readDocumented_placed (seed : Seed α) (body : ShapeBody) (placeholder : Json)
    {r : Except Stop α} {u : State}
    (served : exec (serve path muted key seed ⟨placeholder, ⟨seed.type, body⟩⟩) s = (r, u)) :
    ∃ u', exec (readDocumented path muted key seed ⟨body, some placeholder⟩) s = (r, u') ∧
      (u' = u ∨ u' = u.caching seed.type ⟨placeholder, ⟨seed.type, body⟩⟩) := by
  unfold serve at served
  rw [readDocumented_eq]
  unfold readPlaceholder
  rw [exec_bind] at served ⊢
  generalize exec (noteField path muted key ⟨seed.type, body⟩) s = x at served ⊢
  obtain ⟨stop | _, s'⟩ := x
  · obtain ⟨rfl, rfl⟩ := Prod.mk.inj served
    exact ⟨s', rfl, .inl rfl⟩
  · dsimp only at served ⊢
    simp only [exec_bind, exec_session] at served ⊢
    generalize exec (replay seed placeholder) s' = x at served ⊢
    obtain ⟨stop | a, s''⟩ := x
    · obtain ⟨rfl, rfl⟩ := Prod.mk.inj served
      exact ⟨s'', rfl, .inl rfl⟩
    · obtain ⟨rfl, rfl⟩ := Prod.mk.inj served
      simp only [exec_setSample, exec_pure]
      split
      · exact ⟨_, rfl, .inr rfl⟩
      · exact ⟨_, rfl, .inl rfl⟩

/-- A type that is registered with a placeholder ends as if it were served. -/
theorem placed_child_ends (fits : PlainWorld schemas registry U s.world) (member : U t)
    {body : ShapeBody} {placeholder : Json}
    (registered : registry.documentationOf? t.ref = some ⟨body, some placeholder⟩)
    (run : Source → Decode α) {r : Except Stop α} {u : State}
    (served : exec (serve path muted key ⟨t.ref, run⟩ ⟨placeholder, ⟨t.ref, body⟩⟩) s = (r, u)) :
    ∃ u', exec (readChild path muted key ⟨t.ref, run⟩) s = (r, u') ∧
      (u' = u ∨ u' = u.caching t.ref ⟨placeholder, ⟨t.ref, body⟩⟩) := by
  rw [exec_readChild]
  dsimp only
  cases cached : Table.get? s.world.cache (t.ref, s.session.options) with
  | some entry =>
      obtain rfl := fits.placed member registered cached
      exact ⟨u, served, .inl rfl⟩
  | none =>
      rw [fits.registered, registered]
      exact exec_readDocumented_placed _ body placeholder served

/-- Runs from two caches come together behind a type that is registered with a placeholder. -/
theorem agree_placed_child (family : Family schemas U) (sub : ∀ t, V t → U t) (member : U t)
    {body : ShapeBody} {placeholder : Json}
    (registered : registry.documentationOf? t.ref = some ⟨body, some placeholder⟩)
    {run : Source → Decode α}
    (hd : ∀ v, Agree (Bond.alike schemas registry U V O o occurrences) (run (.data .replay v))
      (run (.data .replay v))) :
    Agree (Bond.alike schemas registry U V O o occurrences)
      (readChild path muted key ⟨t.ref, run⟩) (readChild path muted key ⟨t.ref, run⟩) := by
  intro s t' h
  have uniform : Uniform schemas registry o t := .inr ⟨body, placeholder, registered⟩
  have caching {w : World} (fits : PlainWorld schemas registry U w) :
      PlainWorld schemas registry U (w.caching t.ref o ⟨placeholder, ⟨t.ref, body⟩⟩) := by
    refine fits.caching family member (fun _ _ again => ?_) fun n _ plain => ?_
    · cases Option.some.inj (registered.symm.trans again)
      rfl
    · cases plain.unregistered.symm.trans registered
  have served : Agree (Bond.alike schemas registry U V O o occurrences)
      (serve path muted key ⟨t.ref, run⟩ ⟨placeholder, ⟨t.ref, body⟩⟩)
      (serve path muted key ⟨t.ref, run⟩ ⟨placeholder, ⟨t.ref, body⟩⟩) := agree_serve hd muted _
  have both := served s t' h
  rcases hx : exec (serve path muted key ⟨t.ref, run⟩ ⟨placeholder, ⟨t.ref, body⟩⟩) s with ⟨r, u⟩
  rcases hy : exec (serve path muted key ⟨t.ref, run⟩ ⟨placeholder, ⟨t.ref, body⟩⟩) t' with ⟨r', v⟩
  obtain ⟨u', run, hu⟩ := placed_child_ends h.2.2.2.first member registered run hx
  obtain ⟨v', run', hv⟩ := placed_child_ends h.2.2.2.second member registered _ hy
  rw [hx, hy] at both
  rw [run, run']
  rcases both with ⟨first, rfl⟩ | ⟨second, rfl⟩ | ⟨same, session, options, counted, alike⟩
  · exact .inl ⟨first, rfl⟩
  · exact .inr (.inl ⟨second, rfl⟩)
  obtain rfl : r = r' := same
  have options' : v.session.options = o := session ▸ options
  have first : (Bond.alike schemas registry U V O o occurrences).rel u' v := by
    rcases hu with rfl | rfl
    · exact ⟨session, options, counted, alike⟩
    · refine ⟨session, options, counted, ?_⟩
      show Alike schemas registry U V O (u.world.caching t.ref u.session.options _) v.world
      rw [show u.session.options = o from options]
      exact alike.caching family sub member uniform (caching alike.first)
  refine .inr (.inr ⟨rfl, ?_⟩)
  rcases hv with rfl | rfl
  · exact first
  · obtain ⟨session, options, counted, alike⟩ := first
    refine ⟨session, options, counted, Alike.symm ?_⟩
    show Alike schemas registry U V O (v.world.caching t.ref v.session.options _) u'.world
    rw [options']
    exact alike.symm.caching family sub member uniform (caching alike.second)

end

end ApiAtlas.Walk
