import ApiAtlas.Proofs.Laws
import ApiAtlas.Proofs.Reflect
import ApiAtlas.Run

/-!
# Cached answers are stable

A walk writes to the cache where it leaves a value, and types inside themselves write again to an
entry that a walk further in has written. But a walk enters a value only if no entry stands for
it, so every write hits an entry that was missing when the walk of the value began. By induction on
the steps of readers an entry that stands when a decode begins stands unchanged when it ends, also
where it fails, and then the same holds of reflections and of runs.
-/
namespace ApiAtlas.Walk
open Decode Reader

/-- Every entry of the first cache is an entry of the second. -/
def Cache.Within (cache cache' : Cache) : Prop :=
  ∀ key entry, Table.get? cache key = some entry → Table.get? cache' key = some entry

namespace Cache.Within
variable {a b c : Cache}

theorem refl (cache : Cache) : Cache.Within cache cache := fun _ _ => id

theorem trans (h : Within a b) (h' : Within b c) : Within a c :=
  fun key entry found => h' key entry (h key entry found)

/-- An entry that was missing may be written. -/
theorem put (h : Within a b) {key : TypeRef × Options} (absent : Table.get? a key = none)
    (entry : CacheEntry) : Within a (Table.put b key entry) := by
  intro other found hf
  by_cases same : other = key
  · rw [same, absent] at hf
    cases hf
  · rw [Table.get?_put_of_ne _ _ same]
    exact h other found hf

end Cache.Within

/-- What a decode leaves as it was: the options, and the entries that the cache had. -/
structure Kept (s t : State) : Prop where
  options : t.session.options = s.session.options
  cache : Cache.Within s.world.cache t.world.cache

namespace Kept
variable {s t u : State}

theorem refl (s : State) : Kept s s := ⟨rfl, .refl _⟩

theorem trans (h : Kept s t) (h' : Kept t u) : Kept s u :=
  ⟨h'.options.trans h.options, h.cache.trans h'.cache⟩

theorem noted (s : State) (note : Note) : Kept s (s.inSession note.apply) :=
  ⟨Note.apply_options _ _, .refl _⟩

theorem entering (s : State) (segment : Segment) : Kept s (s.entering segment) := ⟨rfl, .refl _⟩

theorem leaving (s : State) (segment : Segment) : Kept s (s.leaving segment) :=
  ⟨State.leaving_options s segment, .refl _⟩

theorem taught (s : State) (site : Site) (stop : Stop) : Kept s (s.taught site stop) := by
  cases stop with
  | fault fault => exact noted _ _
  | unrecorded path => exact refl s
  | valueBeforeKey => exact refl s
  | depth => exact refl s

theorem caching (h : Kept s t) {type : TypeRef}
    (absent : Table.get? s.world.cache (type, s.session.options) = none) (entry : CacheEntry) :
    Kept s (t.caching type entry) := by
  refine ⟨h.options, ?_⟩
  unfold State.caching
  rw [h.options]
  exact h.cache.put absent entry

end Kept

/-- A decode leaves what stands as it was, however it ends. -/
def Law.keeping : Law where
  holds _ := True
  stops _ := True
  rel := Kept
  refl := .refl
  trans := .trans

namespace Decode
variable {α : Type}

abbrev Keeps (m : Decode α) : Prop := Obeys .keeping m

theorem keeps_of {m : Decode α} (h : ∀ s, Kept s (exec m s).2) : Keeps m :=
  fun s _ => ⟨fun _ _ => trivial, trivial, h s⟩

theorem Obeys.kept {m : Decode α} (h : Keeps m) (s : State) : Kept s (exec m s).2 :=
  (h s trivial).rel

theorem keeps_note (note : Note) : Keeps (modifySession note.apply) :=
  keeps_of fun s => .noted s note

theorem keeps_modifyNode (path : Path) (f : Shape → Shape) : Keeps (modifyNode path f) := by
  refine keeps_of fun s => ?_
  rw [exec_modifyNode]
  split
  · exact .noted s _
  · exact .refl s

theorem keeps_recordField (path : Path) (name : String) (child : Shape) :
    Keeps (recordField path name child) := by
  refine keeps_of fun s => ?_
  rw [exec_recordField]
  split
  · exact .refl s
  · split
    · exact .refl s
    · split
      · exact .refl s
      · exact .noted s _

section
variable {parent : Path} {muted : Bool} {key : String} {seed : Seed α} {s t : State}

theorem serves_keeping (hd : ∀ v, Keeps (seed.run (.data .replay v))) :
    Serves .keeping parent muted key seed where
  stops _ := trivial
  sample v := keeps_note (.sample v)
  data := hd
  record _ := keeps_recordField parent key

/-- What a walked value leaves in the cache was missing when its reader was asked for it. -/
theorem kept_descend (h : Keeps (seed.run (.walk (parent.child key seed.type) muted)))
    (before : Kept s t)
    (absent : muted = false → Table.get? s.world.cache (seed.type, s.session.options) = none) :
    Kept s (exec (descend parent muted key seed) t).2 := by
  have entered := before.trans (.entering t ⟨key, seed.type⟩)
  rw [exec_descend]
  dsimp only
  split
  · exact entered.trans (.leaving _ _)
  · have walked := entered.trans (h.kept (t.entering ⟨key, seed.type⟩))
    generalize exec (seed.run _) _ = x at walked ⊢
    obtain ⟨stop | a, u⟩ := x
    · exact (walked.trans (.leaving u _)).trans (.taught _ _ _)
    · have left := walked.trans (.leaving u ⟨key, seed.type⟩)
      dsimp only [cacheWalked]
      split
      · next recorded =>
        have loud : muted = false := by
          simp only [Bool.and_eq_true, Bool.not_eq_true'] at recorded
          exact recorded.1
        split
        · exact left.caching (absent loud) _
        · exact left
      · exact left

theorem kept_readDocumented {custom : CustomDocumentation}
    (hd : ∀ v, Keeps (seed.run (.data .replay v)))
    (hw : Keeps (seed.run (.walk (parent.child key seed.type) true)))
    (absent : Table.get? s.world.cache (seed.type, s.session.options) = none) :
    Kept s (exec (readDocumented parent muted key seed custom) s).2 := by
  have serves : Serves .keeping parent muted key seed := serves_keeping hd
  have walked : Keeps (descend parent true key seed) :=
    keeps_of fun s => kept_descend hw (.refl s) nofun
  have noted := (serves.noteField ⟨seed.type, custom.body⟩).kept s
  rw [readDocumented_eq, exec_bind]
  generalize exec (noteField parent muted key ⟨seed.type, custom.body⟩) s = x at noted ⊢
  obtain ⟨_ | _, t⟩ := x
  · exact noted
  · have placed := noted.trans ((serves.readPlaceholder walked custom).kept t)
    simp only [exec_bind, exec_session]
    generalize exec (readPlaceholder parent key seed custom) t = y at placed ⊢
    obtain ⟨_ | a, u⟩ := y
    · exact placed
    · dsimp only
      split
      · exact placed.caching absent _
      · exact placed

theorem kept_walkChild
    (h : ∀ muted', (muted = true → muted' = true) →
      Keeps (seed.run (.walk (parent.child key seed.type) muted')))
    (absent : Table.get? s.world.cache (seed.type, s.session.options) = none) :
    Kept s (exec (walkChild parent muted key seed) s).2 := by
  unfold walkChild
  cases muted with
  | true => exact kept_descend (h true id) (.refl s) nofun
  | false =>
      have recorded := ((keeps_recordField parent key (Shape.leaf seed.type)).map (! ·)).kept s
      show Kept s (exec ((! ·) <$> recordField parent key (Shape.leaf seed.type) >>=
        fun refused => descend parent refused key seed) s).2
      rw [exec_bind]
      generalize exec (_ <$> _) s = x at recorded ⊢
      obtain ⟨_ | refused, t⟩ := x
      · exact recorded
      · exact kept_descend (h refused nofun) recorded fun _ => absent

/-- Reading under a key writes to the cache only what was missing when it began. -/
theorem keeps_readChild (hd : ∀ v, Keeps (seed.run (.data .replay v)))
    (hw : ∀ muted', (muted = true → muted' = true) →
      Keeps (seed.run (.walk (parent.child key seed.type) muted'))) :
    Keeps (readChild parent muted key seed) := by
  refine keeps_of fun s => ?_
  rw [exec_readChild]
  split
  · exact ((serves_keeping hd).serve _).kept s
  · next absent =>
    split
    · exact kept_readDocumented hd (hw true fun _ => rfl) absent
    · exact kept_walkChild hw absent

end
end Decode

/-! ## Reflections -/

section
variable {read : TypeReader} {type : TypeExpr} {options : Options} {context : List (String × Json)}

theorem within_walkRoot {muted : Bool} (h : Keeps (read type (.walk [] muted))) (walks : Nat)
    (hints : Hints) (w : World) :
    w.cache.Within (exec (walkRoot read type options context muted walks hints) w).2.cache := by
  have root : Keeps (readRoot read type muted) :=
    h.onFault fun fault => keeps_note (.lesson [] .any fault)
  have once (hints : Hints) (w : World) : w.cache.Within (exec (readRoot read type muted)
      (rootState type options context hints w)).2.world.cache :=
    (root.kept (rootState type options context hints w)).cache
  refine walkRoot_ends (P := fun w x => w.cache.Within x.2.cache) (fun _ _ => .refl _)
    (fun hints w => ?_) (fun hints w _ => (once hints w).trans) walks hints w
  have ended := once hints w
  generalize exec (readRoot read type muted) _ = x at ended ⊢
  obtain ⟨_ | _, t⟩ := x <;> exact ended

/-- A reflection keeps the entries of the cache, if walks of its root do. -/
theorem within_reflectWith (h : ∀ muted, Keeps (read type (.walk [] muted))) (w : World) :
    w.cache.Within (exec (reflectWith read type options context) w).2.cache := by
  have cached {muted : Bool} (shapeOf : Shape → Shape)
      (absent : Table.get? w.cache (type.ref, options) = none) :
      w.cache.Within (cacheRoot type.ref options shapeOf
        (exec (walkRoot read type options context muted maxWalks []) w)).2.cache := by
    have walked : w.cache.Within
        (exec (walkRoot read type options context muted maxWalks []) w).2.cache :=
      within_walkRoot (h muted) _ _ _
    generalize exec (walkRoot read type options context muted maxWalks []) w = x at walked ⊢
    obtain ⟨_ | ⟨shape, sample⟩, v⟩ := x
    · exact walked
    · exact walked.put absent _
  rw [exec_reflectWith]
  split
  · exact .refl _
  · next absent =>
    split
    · exact (Cache.Within.refl _).put absent _
    · exact cached _ absent
    · exact cached _ absent

theorem keeps_reflectInside (h : ∀ muted, Keeps (read type (.walk [] muted))) (style : Style) :
    Keeps (reflectInside read style type) := by
  refine keeps_of fun s => ?_
  rw [exec_reflectInside]
  exact ⟨rfl, within_reflectWith h _⟩

end

theorem upheld_keeping : Upheld .any fun _ => .keeping where
  knows _ := trivial
  stops _ := trivial
  note _ := keeps_note _
  count _ _ := keeps_of fun _ => ⟨rfl, .refl _⟩
  cases _ _ := keeps_modifyNode _ _
  compress _ _ := keeps_modifyNode _ _
  child _ hd hw := keeps_readChild (hd _) hw
  inside _ hr := keeps_reflectInside hr _

theorem keeps_readType (depth : Nat) (type : TypeExpr) (source : Source) :
    Keeps (readType depth type source) := by
  obtain ⟨q, here⟩ := source.exists_at
  exact upheld_keeping.readType depth type here

theorem within_reflectWithin (depth : Nat) (type : TypeExpr) (options : Options)
    (context : List (String × Json)) (w : World) :
    w.cache.Within (exec (reflectWithin depth type options context) w).2.cache :=
  within_reflectWith (fun _ => keeps_readType depth type _) w

/-- The answer of a reflection is cached. -/
theorem cached_of_reflectWith {read : TypeReader} {type : TypeExpr} {options : Options}
    {context : List (String × Json)} {w w' : World} {shape : Shape}
    (h : exec (reflectWith read type options context) w = (.ok shape, w')) :
    ∃ entry, entry.shape = shape ∧
      Table.get? w'.cache (type.ref, options) = some entry := by
  have caching {x : Except Stop (Shape × Json) × World} {shapeOf : Shape → Shape}
      (h : cacheRoot type.ref options shapeOf x = (.ok shape, w')) :
      ∃ entry, entry.shape = shape ∧
        Table.get? w'.cache (type.ref, options) = some entry := by
    obtain ⟨_ | ⟨tree, sample⟩, v⟩ := x
    · cases (Prod.mk.inj h).1
    · obtain ⟨same, rfl⟩ := Prod.mk.inj h
      exact ⟨⟨sample, shapeOf tree⟩, Except.ok.inj same, Table.get?_put_self _ _ _⟩
  rw [exec_reflectWith] at h
  split at h
  · next entry found =>
    obtain ⟨same, rfl⟩ := Prod.mk.inj h
    exact ⟨entry, Except.ok.inj same, found⟩
  · split at h
    · obtain ⟨same, rfl⟩ := Prod.mk.inj h
      exact ⟨_, Except.ok.inj same, Table.get?_put_self _ _ _⟩
    · exact caching h
    · exact caching h

/-- A cached shape is the answer whatever the reader would do, and nothing happens. -/
theorem reflectWith_cached {type : TypeExpr} {options : Options} {w : World} {entry : CacheEntry}
    (h : Table.get? w.cache (type.ref, options) = some entry) (read : TypeReader)
    (context : List (String × Json)) :
    exec (reflectWith read type options context) w = (.ok entry.shape, w) := by
  rw [exec_reflectWith, h]

/-! ## Runs -/

theorem within_run {step : Step} (h : step ≠ .clearCache) (w : World) :
    w.cache.Within (step.run w).2.cache := by
  cases step with
  | clearCache => exact absurd rfl h
  | reflect type options context => exact within_reflectWithin _ _ _ _ _
  | declare schemas => exact .refl _
  | document type body placeholder => exact .refl _
  | wrap type wrapped => exact .refl _
  | name type shown => exact .refl _

theorem within_runAll {steps : List Step} (h : Step.clearCache ∉ steps) (w : World) :
    w.cache.Within (Step.runAll w steps).2.cache := by
  induction steps generalizing w with
  | nil => exact .refl _
  | cons step rest ih =>
      have first : step ≠ .clearCache := fun same => h (same ▸ List.mem_cons_self)
      have later : Step.clearCache ∉ rest := fun member => h (List.mem_cons_of_mem _ member)
      exact (within_run first w).trans (ih later _)

/-- Unless the cache is cleared, no entry is changed or removed: not by anything that a reader does
inside a reflection, not by a reflection, and not by a run. So a type that was reflected is answered
alike ever after, and its reader does not run for it. -/
theorem cached_answers_stable {steps : List Step} (h : Step.clearCache ∉ steps) (w : World) :
    (∀ depth type source (s : State), s.world.cache.Within
      (exec (readType depth type source) s).2.world.cache) ∧
    (∀ depth type options context,
      w.cache.Within (exec (reflectWithin depth type options context) w).2.cache) ∧
    w.cache.Within (Step.runAll w steps).2.cache ∧
    ∀ depth type options context shape w',
      exec (reflectWithin depth type options context) w = (.ok shape, w') →
      ∀ read context', exec (reflectWith read type options context') (Step.runAll w' steps).2 =
        (.ok shape, (Step.runAll w' steps).2) := by
  refine ⟨fun depth type source s => ((keeps_readType depth type source).kept s).cache,
    fun depth type options context => within_reflectWithin _ _ _ _ _, within_runAll h w, ?_⟩
  intro depth type options context shape w' run read context'
  obtain ⟨entry, rfl, found⟩ := cached_of_reflectWith run
  exact reflectWith_cached (within_runAll h w' _ _ found) read context'

namespace Late

def bytes : TypeExpr := .vec (.int .u8)

def shape : Shape :=
  ⟨bytes.ref, .fields [(Shape.elementsKey, Shape.leaf (TypeExpr.int .u8).ref)]⟩

/-- The world after the list was reflected. -/
def world : World := (exec (reflectWithin 4 bytes {} []) {}).2

/-- The list is registered as something else too late, and an undeclared type fails. -/
def steps : List Step :=
  [.document bytes.ref.identity (.cases [⟨none, "late"⟩]) (some .null),
    .reflect (.declared ⟨"T0", "api::model::T<0>"⟩) {} [], .reflect (.option bytes) {} [],
    .reflect bytes { maxSequenceLength := 1 } []]

theorem cached_answers_stable_bytes :
    Step.clearCache ∉ steps ∧ ∀ read context,
      exec (reflectWith read bytes {} context) (Step.runAll world steps).2 =
        (.ok shape, (Step.runAll world steps).2) := by
  have uncleared : Step.clearCache ∉ steps := by simp [steps]
  have run : exec (reflectWithin 4 bytes {} []) {} = (.ok shape, world) :=
    Prod.ext (by decide +kernel) rfl
  exact ⟨uncleared, (cached_answers_stable uncleared {}).2.2.2 4 bytes {} [] shape world run⟩

end Late
end ApiAtlas.Walk
