import ApiAtlas.Proofs.Allowance
import ApiAtlas.Proofs.Samples

/-!
# Walks of plain types

A plain type is a scalar or has a layout of plain types, and is not registered. Its layers are
counted, so that it does not contain itself. A walk of a plain type lands from every world in
which the plain types that are cached were settled by such walks: whether a part is walked or
served from the cache, what it leaves is settled. The occurrences of the way down do not matter,
as long as no type inside stands on it.
-/
namespace ApiAtlas

/-- A set of types that holds what their readers read and reflect, the types that readers read
for themselves, and no two types of one name. -/
structure Family (schemas : Schemas) (U : TypeExpr → Prop) : Prop where
  parts : ∀ {t}, U t → ∀ p ∈ t.parts schemas, U p
  roots : ∀ {t}, U t → ∀ p ∈ t.roots schemas, U p
  text : U (.text .string)
  value : U .value
  ignored : U .ignored
  apart : ∀ {a b}, U a → U b → a.ref = b.ref → a = b

/-- A plain type of at most some number of layers. -/
def Plain (schemas : Schemas) (registry : Registry) : Nat → TypeExpr → Prop
  | 0, _ => False
  | n + 1, t => registry.documentationOf? t.ref = none ∧
      ((∃ zero, t.zero? schemas = some zero) ∨ ∃ layout, t.layout? schemas = some layout ∧
        layout.Sound ∧ ∀ p ∈ layout.parts, Plain schemas registry n p)

namespace Plain
variable {schemas : Schemas} {registry : Registry} {t : TypeExpr} {n m : Nat}

theorem unregistered (h : Plain schemas registry n t) : registry.documentationOf? t.ref = none := by
  cases n with
  | zero => exact h.elim
  | succ n => exact h.1

theorem layers (h : Plain schemas registry n t) : ∃ m, n = m + 1 := by
  cases n with
  | zero => exact h.elim
  | succ n => exact ⟨n, rfl⟩

theorem succ (h : Plain schemas registry n t) : Plain schemas registry (n + 1) t := by
  induction n generalizing t with
  | zero => exact h.elim
  | succ n ih =>
      obtain ⟨unregistered, scalar | ⟨layout, hl, sound, parts⟩⟩ := h
      · exact ⟨unregistered, .inl scalar⟩
      · exact ⟨unregistered, .inr ⟨layout, hl, sound, fun p hp => ih (parts p hp)⟩⟩

theorem mono (h : Plain schemas registry n t) (le : n ≤ m) : Plain schemas registry m t := by
  induction le with
  | refl => exact h
  | step _ ih => exact ih.succ

theorem lt_of_not (h : Plain schemas registry n t) (more : ¬ Plain schemas registry m t) : m < n :=
  Nat.lt_of_not_le fun le => more (h.mono le)

/-- A plain type has a least number of layers. -/
theorem least (h : Plain schemas registry n t) :
    ∃ k, k + 1 ≤ n ∧ Plain schemas registry (k + 1) t ∧ ¬ Plain schemas registry k t := by
  induction n with
  | zero => exact h.elim
  | succ n ih =>
      by_cases fewer : Plain schemas registry n t
      · obtain ⟨k, le, least⟩ := ih fewer
        exact ⟨k, Nat.le_succ_of_le le, least⟩
      · exact ⟨n, Nat.le_refl _, h, fewer⟩

/-- The parts of a plain type have fewer layers. -/
theorem part (h : Plain schemas registry (n + 1) t) {c : TypeExpr}
    (hc : c ∈ t.parts schemas) : Plain schemas registry n c := by
  obtain ⟨-, ⟨zero, scalar⟩ | ⟨layout, hl, -, parts⟩⟩ := h
  · rw [Walk.parts_of_zero scalar] at hc
    cases hc
  · exact parts c ((Walk.mem_parts_iff hl c).mp hc)

end Plain

/-- A type that reads a map in its own place. -/
inductive TypeExpr.MapOf (schemas : Schemas) : TypeExpr → Prop
  | map {t inner : TypeExpr} (h : t.layout? schemas = some (.map inner)) : MapOf schemas t
  | inner {t u : TypeExpr} {layout : Walk.Layout} (hl : t.layout? schemas = some layout)
      (hu : layout.inner? = some u) (h : MapOf schemas u) : MapOf schemas t

namespace Walk
open Decode Reader Filter

/-- Options under which a step may stand once on the way down, and a bound of repetitions does not
exceed a word. -/
structure Options.Good (o : Options) : Prop where
  positive : 1 ≤ o.cycleThreshold
  below : o.cycleThreshold < 2 ^ 63

section
variable (schemas : Schemas) (registry : Registry) (U : TypeExpr → Prop)

/-- A replay of the data reads a plain type within any allowance for its layers. -/
def Accepts (t : TypeExpr) (v : Json) : Prop :=
  ∀ d, Plain schemas registry d t → Yields schemas (readType d t (.data .replay v)) ()

/-- The data is what is made up for the type, if no map is inside. -/
def Sampled (most : Nat) (t : TypeExpr) (v : Json) : Prop :=
  MapFree schemas t → ∀ n, Plain schemas registry n t → v = madeUp schemas most n t

/-- A piece of a plain type: its data is accepted, and it is cached unless its walk was muted. -/
structure PlainPiece (w : World) (o : Options) (muted : Bool) (x : Piece) : Prop where
  member : U x.type
  plain : ∃ n, Plain schemas registry n x.type
  accepted : Accepts schemas registry x.type x.sample
  sampled : Sampled schemas registry o.maxSequenceLength x.type x.sample
  cached : muted = false → Table.get? w.cache (x.type.ref, o) = some ⟨x.sample, x.shape⟩

/-- What the walk of a plain type leaves, layer by layer. -/
def Settled (w : World) (o : Options) (muted : Bool) : Nat → TypeExpr → ShapeBody → Json → Prop
  | 0, _, _, _ => False
  | n + 1, t, body, v =>
      t.zero? schemas = some v ∧ body = .plain ∨
        ∃ layout, t.layout? schemas = some layout ∧ layout.Sound ∧
          Made (PlainPiece schemas registry U w o) (Settled w o muted n) o.maxSequenceLength false
            true muted layout body v

/-- The body of a type that reads a map lists the one key that stands for every key. -/
def Opens (t : TypeExpr) (body : ShapeBody) : Prop :=
  t.MapOf schemas → ∃ node, body = .fields [(Shape.anyKey, node)]

/-- A world whose cache holds settled shapes of plain types, and registered shapes with their
placeholders. -/
structure PlainWorld (w : World) : Prop where
  declared : w.schemas = schemas
  registered : w.registry = registry
  placed : ∀ {o t body placeholder entry}, U t →
    registry.documentationOf? t.ref = some ⟨body, some placeholder⟩ →
    Table.get? w.cache (t.ref, o) = some entry → entry = ⟨placeholder, ⟨t.ref, body⟩⟩
  entries : ∀ {o t n entry}, o.Good → U t → Plain schemas registry n t →
    Table.get? w.cache (t.ref, o) = some entry →
    ∃ body m, entry.shape = ⟨t.ref, body⟩ ∧
      Settled schemas registry U w o false m t body entry.sample

/-- A cache that only took shapes of plain types of at most some number of layers inside a type,
under some options. Walks without hints opened the maps that it took. -/
structure PlainGrowth (o : Options) (hints : Hints) (root : TypeExpr) (n : Nat) (v w : World) :
    Prop where
  kept : ∀ {key entry}, Table.get? v.cache key = some entry → Table.get? w.cache key = some entry
  plain : ∀ {key}, Table.get? v.cache key = none → Table.get? w.cache key ≠ none →
    ∃ t, U t ∧ Plain schemas registry n t ∧ Nested schemas root t ∧ key = (t.ref, o)
  opened : hints = [] → ∀ {t entry}, U t → Table.get? v.cache (t.ref, o) = none →
    Table.get? w.cache (t.ref, o) = some entry → Opens schemas t entry.shape.body

/-- No plain type of at most some number of layers stands on the way down. -/
def Clear (n : Nat) (occurrences : List (Segment × Nat)) : Prop :=
  ∀ t key, U t → Plain schemas registry n t → Table.get? occurrences ⟨key, t.ref⟩ = none

/-- Neither a step nor a plain type of fewer layers than its type stands on the way down. -/
def ClearFor (key : String) (t : TypeExpr) (occurrences : List (Segment × Nat)) : Prop :=
  ∀ n, Plain schemas registry (n + 1) t → ¬ Plain schemas registry n t →
    Clear schemas registry U n occurrences ∧ Table.get? occurrences ⟨key, t.ref⟩ = none

end

section
variable {schemas : Schemas} {registry : Registry} {U : TypeExpr → Prop}
variable {v w : World} {o : Options} {hints : Hints} {muted : Bool} {n m : Nat}
  {t root : TypeExpr}
variable {body : ShapeBody}
variable {sample : Json}

/-! ## Pieces stay settled -/

/-- A cache that keeps the shapes of plain types under some options. -/
def KeepsPlain (schemas : Schemas) (registry : Registry) (U : TypeExpr → Prop) (o : Options)
    (v w : World) : Prop :=
  ∀ t n entry, U t → Plain schemas registry n t → Table.get? v.cache (t.ref, o) = some entry →
    Table.get? w.cache (t.ref, o) = some entry

theorem PlainPiece.kept {x : Piece} (h : PlainPiece schemas registry U v o muted x)
    (keeps : KeepsPlain schemas registry U o v w) : PlainPiece schemas registry U w o muted x := by
  obtain ⟨n, plain⟩ := h.plain
  exact { h with cached := fun unmuted => keeps _ n _ h.member plain (h.cached unmuted) }

theorem Settled.kept (h : Settled schemas registry U v o muted n t body sample)
    (keeps : KeepsPlain schemas registry U o v w) :
    Settled schemas registry U w o muted n t body sample := by
  induction n generalizing t body sample with
  | zero => exact h.elim
  | succ n ih =>
      rcases h with scalar | ⟨layout, hl, sound, made⟩
      · exact .inl scalar
      · exact .inr ⟨layout, hl, sound,
          made.mono id (fun _ _ hx => hx.kept keeps) fun _ _ _ inner => ih inner⟩

/-! ## Settled data is accepted -/

theorem Settled.accepts (h : Settled schemas registry U w o muted n t body sample) :
    Accepts schemas registry t sample := by
  induction n generalizing t body sample with
  | zero => exact h.elim
  | succ n ih =>
      intro d plain
      cases d with
      | zero => exact plain.elim
      | succ d =>
          intro s hs
          obtain ⟨counts, began⟩ := s.began_recount t
          rcases h with ⟨scalar, -⟩ | ⟨layout, hl, sound, made⟩
          · exact ⟨counts, began ▸ scalar_replayed scalar (readType d) hs⟩
          · obtain ⟨-, ⟨zero, hz⟩ | ⟨layout', hl', -, parts⟩⟩ := plain
            · cases (layout?_of_zero hz).symm.trans hl
            · obtain rfl := Option.some.inj (hl.symm.trans hl')
              have data : LayoutData (Accepts schemas registry) layout sample :=
                made.data sound (fun _ _ hx => hx.accepted) fun _ _ _ inner => ih inner
              have run := yields_layout (data.mono fun p hp v accepted => accepted d (parts p hp))
              obtain ⟨counts', ran⟩ := run (s.began t) (by rw [began]; exact hs)
              exact ⟨counts', by rw [readType, exec_layout hl _ _ hs, ran, began]; rfl⟩

/-- Settled data of a type without maps is what is made up for it. -/
theorem Settled.sampled (h : Settled schemas registry U w o muted m t body sample) :
    Sampled schemas registry o.maxSequenceLength t sample := by
  intro free n plain
  induction m generalizing t body sample n with
  | zero => exact h.elim
  | succ m ih =>
      obtain ⟨n, rfl⟩ := plain.layers
      rcases h with ⟨scalar, -⟩ | ⟨layout, hl, sound, made⟩
      · rw [madeUp, scalar]
      · obtain ⟨-, ⟨zero, hz⟩ | ⟨layout', hl', -, parts⟩⟩ := plain
        · cases (layout?_of_zero hz).symm.trans hl
        · obtain rfl := Option.some.inj (hl.symm.trans hl')
          have noScalar : t.zero? schemas = none := by
            by_contra present
            obtain ⟨zero, hz⟩ := Option.ne_none_iff_exists'.mp present
            cases (layout?_of_zero hz).symm.trans hl
          have inside {p : TypeExpr} (hp : p ∈ layout.parts) : MapFree schemas p :=
            free.nested (.single ((mem_parts_iff hl p).mpr hp))
          rw [madeUp, noScalar, hl]
          exact made.sample_eq (fun _ x hx hp => hx.sampled (inside hp) n (parts _ hp))
            (fun p _ _ inner hp => ih inner (inside hp) n (parts p hp))
            fun inner same => free t .refl inner (same ▸ hl)

/-! ## Opened maps -/

theorem opens_of_zero {zero : Json} (scalar : t.zero? schemas = some zero) :
    Opens schemas t body := by
  intro leads
  cases leads with
  | map hl => cases (layout?_of_zero scalar).symm.trans hl
  | inner hl => cases (layout?_of_zero scalar).symm.trans hl

/-- Where no keys were learned, what is made of a layout opens the map that it reads. -/
theorem Made.opens {made : Bool → Piece → Prop} {inPlace : TypeExpr → ShapeBody → Json → Prop}
    {most : Nat} {layout : Layout}
    (h : Made made inPlace most false false muted layout body sample)
    (hl : t.layout? schemas = some layout)
    (hi : ∀ {u body v}, inPlace u body v → Opens schemas u body) : Opens schemas t body := by
  intro leads
  cases leads with
  | map hm =>
      obtain rfl := Option.some.inj (hl.symm.trans hm)
      cases h with
      | map _ learned => cases learned
      | openMap _ h => exact ⟨_, rfl⟩
      | cutMap cut => cases cut
  | inner hl' hu leads =>
      obtain rfl := Option.some.inj (hl.symm.trans hl')
      cases h with
      | pointer h | newtype h | option _ h => exact hi h (Option.some.inj hu ▸ leads)
      | cutOption cut => cases cut
      | _ => cases hu

/-! ## Worlds of settled shapes -/

/-- A cache that kept its entries grew by none. -/
theorem PlainGrowth.of_cache (same : w.cache = v.cache) :
    PlainGrowth schemas registry U o hints root n v w where
  kept found := same ▸ found
  plain absent present := absurd absent (same ▸ present)
  opened _ _ _ _ absent found := by cases absent.symm.trans (same ▸ found)

theorem PlainGrowth.refl (w : World) : PlainGrowth schemas registry U o hints root n w w :=
  .of_cache rfl

theorem PlainGrowth.trans {u : World} (h : PlainGrowth schemas registry U o hints root n u v)
    (h' : PlainGrowth schemas registry U o hints root n v w) :
    PlainGrowth schemas registry U o hints root n u w where
  kept found := h'.kept (h.kept found)
  plain {key} absent present := by
    by_cases between : Table.get? v.cache key = none
    · exact h'.plain between present
    · exact h.plain absent between
  opened unlearned t entry member absent found := by
    cases between : Table.get? v.cache (t.ref, o) with
    | none => exact h'.opened unlearned member between found
    | some entry' =>
        obtain rfl := Option.some.inj ((h'.kept between).symm.trans found)
        exact h.opened unlearned member absent between

theorem PlainGrowth.mono (h : PlainGrowth schemas registry U o hints t n v w) (le : n ≤ m)
    (inside : Nested schemas root t) : PlainGrowth schemas registry U o hints root m v w := by
  refine ⟨h.kept, fun absent present => ?_, h.opened⟩
  obtain ⟨x, member, plain, below, same⟩ := h.plain absent present
  exact ⟨x, member, plain.mono le, inside.trans below, same⟩

theorem PlainGrowth.keeps {o' : Options} (h : PlainGrowth schemas registry U o hints root n v w) :
    KeepsPlain schemas registry U o' v w :=
  fun _ _ _ _ _ found => h.kept found

/-- A cache that takes one plain type. -/
theorem PlainGrowth.caching (family : Family schemas U) (member : U t)
    (plain : Plain schemas registry n t) (inside : Nested schemas root t)
    (absent : Table.get? w.cache (t.ref, o) = none) {entry : CacheEntry}
    (opens : hints = [] → Opens schemas t entry.shape.body) :
    PlainGrowth schemas registry U o hints root n w (w.caching t.ref o entry) where
  kept found := by
    refine (Table.get?_put_of_ne _ _ fun same => ?_).trans found
    cases (same ▸ absent).symm.trans found
  plain absent' present := by
    refine ⟨t, member, plain, inside, ?_⟩
    by_contra other
    exact present ((Table.get?_put_of_ne _ _ other).trans absent')
  opened unlearned t' entry' member' absent' found := by
    by_cases same : (t'.ref, o) = (t.ref, o)
    · obtain rfl := family.apart member' member (Prod.mk.inj same).1
      obtain rfl := Option.some.inj ((Table.get?_put_self _ _ _).symm.trans found)
      exact opens unlearned
    · cases absent'.symm.trans ((Table.get?_put_of_ne _ _ same).symm.trans found)

/-- A world in which only counts changed. -/
theorem PlainWorld.recounted (h : PlainWorld schemas registry U w) (hs : v.schemas = w.schemas)
    (hr : v.registry = w.registry) (hc : v.cache = w.cache) : PlainWorld schemas registry U v := by
  refine ⟨hs.trans h.declared, hr.trans h.registered,
    fun member documented found => h.placed member documented (hc ▸ found),
    fun {o t n entry} good member plain found => ?_⟩
  obtain ⟨body, m, shape, settled⟩ := h.entries good member plain (hc ▸ found)
  exact ⟨body, m, shape, settled.kept fun _ _ _ _ _ found => hc ▸ found⟩

/-- A cached shape is settled or placed, or is none of a plain type under good options, nor of a
type that is registered with a placeholder. -/
theorem PlainWorld.caching (family : Family schemas U) (h : PlainWorld schemas registry U w)
    {entry : CacheEntry} (member : U t)
    (placed : ∀ body placeholder,
      registry.documentationOf? t.ref = some ⟨body, some placeholder⟩ →
      entry = ⟨placeholder, ⟨t.ref, body⟩⟩)
    (absent : ∀ n, o.Good → Plain schemas registry n t →
      Table.get? w.cache (t.ref, o) = none ∧ ∃ body m, entry.shape = ⟨t.ref, body⟩ ∧
        Settled schemas registry U w o false m t body entry.sample) :
    PlainWorld schemas registry U (w.caching t.ref o entry) := by
  have keeps {o' : Options} (good : o'.Good) :
      KeepsPlain schemas registry U o' w (w.caching t.ref o entry) := by
    intro t' n entry' member' plain found
    refine (Table.get?_put_of_ne _ _ fun same => ?_).trans found
    obtain ⟨ref, rfl⟩ := Prod.mk.inj same
    obtain rfl := family.apart member' member ref
    cases (absent n good plain).1.symm.trans found
  refine ⟨h.declared, h.registered, fun {o' t' body ph entry'} member' documented found => ?_,
    fun {o' t' n entry'} good member' plain found => ?_⟩
  · by_cases same : (t'.ref, o') = (t.ref, o)
    · obtain ⟨ref, rfl⟩ := Prod.mk.inj same
      obtain rfl := family.apart member' member ref
      obtain rfl := Option.some.inj ((Table.get?_put_self _ _ _).symm.trans found)
      exact placed body ph documented
    · exact h.placed member' documented ((Table.get?_put_of_ne _ _ same).symm.trans found)
  by_cases same : (t'.ref, o') = (t.ref, o)
  · obtain ⟨ref, rfl⟩ := Prod.mk.inj same
    obtain rfl := family.apart member' member ref
    obtain rfl := Option.some.inj ((Table.get?_put_self _ _ _).symm.trans found)
    obtain ⟨-, body, m, shape, settled⟩ := absent n good plain
    exact ⟨body, m, shape, settled.kept (keeps good)⟩
  · obtain ⟨body, m, shape, settled⟩ :=
      h.entries good member' plain ((Table.get?_put_of_ne _ _ same).symm.trans found)
    exact ⟨body, m, shape, settled.kept (keeps good)⟩

/-! ## Clear ways -/

theorem Clear.mono {occurrences : List (Segment × Nat)}
    (h : Clear schemas registry U m occurrences) (le : n ≤ m) :
    Clear schemas registry U n occurrences :=
  fun t key member plain => h t key member (plain.mono le)

/-- A step to a type of more layers keeps the way clear. -/
theorem Clear.stepped (family : Family schemas U) {occurrences : List (Segment × Nat)}
    (h : Clear schemas registry U n occurrences) (member : U t)
    (more : ¬ Plain schemas registry n t) (key : String) :
    Clear schemas registry U n (stepped occurrences ⟨key, t.ref⟩) := by
  intro t' key' member' plain
  refine (Table.get?_put_of_ne _ _ fun same => more ?_).trans (h t' key' member' plain)
  obtain ⟨-, ref⟩ := Segment.mk.inj same
  exact family.apart member' member ref ▸ plain

/-! ## Walks -/

/-- What a walk of a plain type finds where it reads its parts, within allowances from a bound
on. -/
def plainStage (schemas : Schemas) (registry : Registry) (U : TypeExpr → Prop) (o : Options)
    (root : TypeExpr) (occurrences : List (Segment × Nat)) (hints : Hints)
    (n least : Nat) : Stage where
  options := o
  occurrences := occurrences
  hints := hints
  late := 𝓟 (Set.Ici least)
  fits := PlainWorld schemas registry U
  grows := PlainGrowth schemas registry U o hints root n
  made w muted x := PlainPiece schemas registry U w o muted x
  refl := .refl
  trans := .trans
  kept h grown := h.kept grown.keeps

/-- Walks of a plain type land within allowances for its layers, and leave something settled. They
open the map that the type reads unless keys were learned. -/
def PlainReads (schemas : Schemas) (registry : Registry) (U : TypeExpr → Prop) (o : Options)
    (n : Nat) (t : TypeExpr) : Prop :=
  ∀ occurrences hints path muted, Positive occurrences →
    Clear schemas registry U n occurrences →
    (plainStage schemas registry U o t occurrences hints n (n + 1)).inCycle path = false →
    (plainStage schemas registry U o t occurrences hints n (n + 1)).Reads
      (fun d => readType d t) path muted fun w body sample =>
        Settled schemas registry U w o muted (n + 1) t body sample ∧
          (hints = [] → Opens schemas t body)

variable {occurrences : List (Segment × Nat)} {path : Path}

/-- A cached part of plain type is served. -/
theorem child_served (good : o.Good) (member : U t) (plain : Plain schemas registry n t)
    {key : String} {s : State} {ref : TypeRef} {entry : CacheEntry}
    (hs : (plainStage schemas registry U o root occurrences hints n n).Holds s)
    (stands : s.Stands path muted ⟨ref, body⟩)
    (cached : Table.get? s.world.cache (t.ref, o) = some entry) :
    ∃ x w, x.type = t ∧
      (∀ d ≥ n, exec (readChild path muted key (seedOf (readType d) t)) s =
        (.ok (), s.landed path muted ⟨ref, body.withField key x.shape⟩ x.sample w)) ∧
      PlainWorld schemas registry U w ∧ PlainGrowth schemas registry U o hints root n s.world w ∧
      PlainPiece schemas registry U w o muted x := by
  have fits : PlainWorld schemas registry U s.world := hs.fits
  obtain ⟨inside, m, shape, settled⟩ := fits.entries good member plain cached
  obtain ⟨counts, run⟩ := settled.accepts n plain
    (s.landed path muted ⟨ref, body.withField key entry.shape⟩ s.session.sample s.world)
    fits.declared
  refine ⟨⟨t, inside, entry.sample⟩, { s.world with counts }, rfl, fun d hd => ?_,
    fits.recounted rfl rfl rfl, .of_cache rfl,
    ⟨member, ⟨n, plain⟩, settled.accepts, settled.sampled, fun _ => ?_⟩⟩
  · have options : s.session.options = o := hs.options
    rw [← readType_mono hd _ _ _ (by rw [run]; nofun)] at run
    refine (stands.served (seedOf (readType d) t) (options ▸ cached) run).trans ?_
    rw [shape]
    rfl
  · rw [Piece.shape, ← shape]
    exact cached

/-- An uncached part of plain type is walked. -/
theorem child_walked (family : Family schemas U) (good : o.Good) (member : U t)
    (inside : Nested schemas root t) (plain : Plain schemas registry (n + 1) t)
    (more : ¬ Plain schemas registry n t) (le : n < m) (reads : PlainReads schemas registry U o n t)
    (positive : Positive occurrences) {key : String}
    (clear : Clear schemas registry U n occurrences)
    (fresh : Table.get? occurrences ⟨key, t.ref⟩ = none) {s : State} {ref : TypeRef}
    (hs : (plainStage schemas registry U o root occurrences hints m m).Holds s)
    (stands : s.Stands path muted ⟨ref, body⟩) (takes : body.IsOpen)
    (uncached : Table.get? s.world.cache (t.ref, o) = none) :
    ∃ x w, x.type = t ∧
      (∀ d ≥ m, exec (readChild path muted key (seedOf (readType d) t)) s =
        (.ok (), s.landed path muted ⟨ref, body.withField key x.shape⟩ x.sample w)) ∧
      PlainWorld schemas registry U w ∧ PlainGrowth schemas registry U o hints root m s.world w ∧
      PlainPiece schemas registry U w o muted x := by
  have fits : PlainWorld schemas registry U s.world := hs.fits
  -- no step to the type stands on the way down, so this one counts once
  have once : (Table.get? (stepped occurrences ⟨key, t.ref⟩) ⟨key, t.ref⟩).getD 0 = 1 := by
    rw [stepped, Table.get?_put_self, fresh]
    rfl
  have uncut : (plainStage schemas registry U o t (stepped occurrences ⟨key, t.ref⟩) hints n
      (n + 1)).inCycle (path.child key t.ref) = false := by
    have := good.positive
    simp [Stage.inCycle, plainStage, once]
    omega
  have lands := reads (stepped occurrences ⟨key, t.ref⟩) hints (path.child key t.ref) muted
    (positive.stepped _) (clear.stepped family member more key) uncut
  obtain ⟨left, sample, w, run, fits', grows, settled, opens⟩ := hs.walks stands takes positive
    uncached
    (fits.registered.symm ▸ plain.unregistered) (once.trans_le o.one_le_runawayLimit) lands
    fun u hu => ⟨hu.options, congrArg (stepped · _) hu.occurrences, hu.hints, hu.fits⟩
  have still : Table.get? w.cache (t.ref, o) = none := by
    by_contra present
    obtain ⟨t', member', plain', -, same⟩ := grows.plain uncached present
    exact more (family.apart member' member (Prod.mk.inj same).1.symm ▸ plain')
  have grown := grows.mono (Nat.le_of_lt le) inside
  refine ⟨⟨t, left, sample⟩, w.keeping muted t.ref o ⟨sample, ⟨t.ref, left⟩⟩, rfl, fun d hd =>
    Filter.eventually_principal.mp run d (Set.mem_Ici.mpr (Nat.le_trans le hd)), ?_⟩
  cases muted with
  | true =>
      exact ⟨fits', grown, member, ⟨_, plain⟩, settled.accepts,
        settled.sampled, fun unmuted => by cases unmuted⟩
  | false =>
      refine ⟨PlainWorld.caching family fits' member
          (fun _ _ documented => by cases plain.unregistered.symm.trans documented)
          fun _ _ _ => ⟨still, left, _, rfl, settled⟩,
        grown.trans (.caching family member (plain.mono le) inside still opens),
        member, ⟨_, plain⟩, settled.accepts, settled.sampled,
        fun _ => Table.get?_put_self _ _ _⟩

/-- A part of plain type lands under every key, walked or served. -/
theorem child_lands (family : Family schemas U) (good : o.Good)
    (reads : ∀ k < n, ∀ t, U t → Plain schemas registry (k + 1) t →
      PlainReads schemas registry U o k t) (positive : Positive occurrences)
    (member : U t) (inside : Nested schemas root t) (plain : Plain schemas registry n t)
    (key : String) (clear : ClearFor schemas registry U key t occurrences) :
    (plainStage schemas registry U o root occurrences hints n n).Child readType path
      muted key t := by
  intro s ref body hs stands takes
  cases cached : Table.get? s.world.cache (t.ref, o) with
  | some entry =>
      obtain ⟨x, w, hx, run, rest⟩ := child_served good member plain hs stands cached
      exact ⟨x, w, hx, Filter.eventually_principal.mpr run, rest⟩
  | none =>
      obtain ⟨k, within, least, more⟩ := plain.least
      obtain ⟨clear, fresh⟩ := clear k least more
      obtain ⟨x, w, hx, run, rest⟩ := child_walked family good member inside least more within
        (reads k within t member least) positive clear fresh hs stands takes cached
      exact ⟨x, w, hx, Filter.eventually_principal.mpr run, rest⟩

/-- A reader that lands and leaves parts of few layers lands where one more is allowed. -/
theorem Stage.Reads.deepened {read : Nat → Source → Decode Unit}
    {left : World → ShapeBody → Json → Prop} (inside : Nested schemas root t)
    (h : (plainStage schemas registry U o t occurrences hints n m).Reads read path muted left) :
    (plainStage schemas registry U o root occurrences hints (n + 1) m).Reads read path
      muted left := by
  intro s ref hs stands
  obtain ⟨body, sample, w, run, fits, grows, made⟩ :=
    h s ref ⟨hs.options, hs.occurrences, hs.hints, hs.fits⟩ stands
  exact ⟨body, sample, w, run, fits, grows.mono (Nat.le_succ n) inside, made⟩

/-- A reader that lands lands where one more allowance is asked for. -/
theorem Stage.Reads.allowed {read : Nat → Source → Decode Unit}
    {left : World → ShapeBody → Json → Prop}
    (h : (plainStage schemas registry U o root occurrences hints n m).Reads (fun d => read (d + 1))
      path muted left) :
    (plainStage schemas registry U o root occurrences hints n (m + 1)).Reads read path muted
      left := by
  intro s ref hs stands
  obtain ⟨body, sample, w, run, rest⟩ :=
    h s ref ⟨hs.options, hs.occurrences, hs.hints, hs.fits⟩ stands
  refine ⟨body, sample, w, Filter.eventually_principal.mpr fun d hd => ?_, rest⟩
  obtain ⟨d, rfl⟩ := Nat.exists_eq_add_of_le' (Nat.le_trans (Nat.succ_pos m) hd)
  exact Filter.eventually_principal.mp run d (Nat.le_of_succ_le_succ hd)

/-- Walks of a plain type land from every world of settled shapes, and leave something settled. -/
theorem reads_plain (family : Family schemas U) (good : o.Good) (n : Nat) {t : TypeExpr}
    (member : U t) (plain : Plain schemas registry (n + 1) t) :
    PlainReads schemas registry U o n t := by
  induction n using Nat.strongRecOn generalizing t with
  | _ n ih =>
      intro occurrences hints path muted positive clear uncut
      have law : (plainStage schemas registry U o t occurrences hints n n).Counts schemas :=
        ⟨PlainWorld.declared, fun fits _ => ⟨fits.recounted rfl rfl rfl, .of_cache rfl⟩⟩
      refine Stage.Reads.allowed ?_
      obtain ⟨-, ⟨zero, scalar⟩ | ⟨layout, hl, sound, parts⟩⟩ := id plain
      · exact (law.reads_scalar scalar).mono fun _ _ _ left =>
          ⟨.inl ⟨left.2 ▸ scalar, left.1⟩, fun _ => opens_of_zero scalar⟩
      · have members : ∀ p ∈ layout.parts, U p := fun p hp =>
          family.parts member p ((mem_parts_iff hl p).mpr hp)
        have child {muted : Bool} {p : TypeExpr} (hp : p ∈ layout.parts) (key : String) :
            (plainStage schemas registry U o t occurrences hints n n).Child readType path muted key
              p :=
          child_lands family good (fun k hk t member plain => ih k hk member plain) positive
            (members p hp) (.single ((mem_parts_iff hl p).mpr hp)) (parts p hp) key
            fun k _ more => ⟨clear.mono ((parts p hp).lt_of_not more).le,
              clear p key (members p hp) (parts p hp)⟩
        have lands : (plainStage schemas registry U o t occurrences hints n n).Reads
            (fun d => layout.read (readType d)) path muted fun w =>
              Made (PlainPiece schemas registry U w o)
                (fun p body v => Settled schemas registry U w o muted n p body v ∧
                  (hints = [] → Opens schemas p body))
                o.maxSequenceLength
                ((plainStage schemas registry U o t occurrences hints n n).inCycle path)
                (hints.keys? path.site).isSome muted layout :=
          Stage.reads_layout sound (fun _ _ _ => uncut)
            (fun p hp _ => by
              have inside := mem_parts_of_inner hp
              obtain ⟨n', rfl⟩ := (parts p inside).layers
              exact (ih n' (Nat.lt_succ_self _) (members p inside) (parts p inside) occurrences
                hints path muted positive (clear.mono (Nat.le_succ _)) uncut).deepened
                (.single ((mem_parts_iff hl p).mpr inside)))
            (fun _ key p hp => child (mem_parts_of_under hp) key)
            (fun key p hp => child (mem_parts_of_payload hp) key)
        refine (law.reads_type hl lands).mono fun _ _ _ made => ?_
        rw [show (plainStage schemas registry U o t occurrences hints n n).inCycle path = false
          from uncut] at made
        refine ⟨.inr ⟨layout, hl, sound, ?_⟩, fun unlearned => ?_⟩
        · exact made.mono (fun _ => rfl) (fun _ _ => id) fun _ _ _ => And.left
        · subst unlearned
          exact made.opens hl fun inner => inner.2 rfl

end
end Walk
end ApiAtlas
