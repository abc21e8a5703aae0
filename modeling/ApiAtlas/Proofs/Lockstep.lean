import ApiAtlas.Documentation.Collect
import ApiAtlas.Proofs.Alike

/-!
# Reflections that do not depend on earlier ones

A reflection ends the same from the empty cache and after a history, unless an allowance is used
up: if every type inside that the history left cached is uniform, and no reader behaves differently
from one decode to the next.
-/
namespace ApiAtlas.Walk
open Decode Reader

variable {schemas : Schemas} {registry : Registry} {U V : TypeExpr → Prop} {O : Options → Prop}
variable {o : Options} {occurrences : List (Segment × Nat)} {n d : Nat} {t : TypeExpr} {α : Type}

/-! ## Scalars under a key -/

theorem Uniform.of_scalar (good : o.Good) (unregistered : registry.documentationOf? t.ref = none)
    {zero : Json} (scalar : t.zero? schemas = some zero) : Uniform schemas registry o t := by
  refine .inl ⟨good, ⟨1, unregistered, .inl ⟨zero, scalar⟩⟩, fun p hp inner hl => ?_⟩
  rcases hp.cases_head with rfl | ⟨q, hq, -⟩
  · cases (layout?_of_zero scalar).symm.trans hl
  · rw [parts_of_zero scalar] at hq
    cases hq

/-- No unregistered scalar stands on the way down. -/
def NoScalars (schemas : Schemas) (registry : Registry) (V : TypeExpr → Prop)
    (occurrences : List (Segment × Nat)) : Prop :=
  ∀ t key, V t → registry.documentationOf? t.ref = none → (∃ zero, t.zero? schemas = some zero) →
    Table.get? occurrences ⟨key, t.ref⟩ = none

theorem NoScalars.stepped (family : Family schemas V) (good : o.Good)
    (h : NoScalars schemas registry V occurrences) (member : V t)
    (other : ¬ Uniform schemas registry o t) (key : String) :
    NoScalars schemas registry V (stepped occurrences ⟨key, t.ref⟩) := by
  intro c key' member' unregistered ⟨zero, scalar⟩
  refine (Table.get?_put_of_ne _ _ fun same => other ?_).trans
    (h c key' member' unregistered ⟨zero, scalar⟩)
  obtain ⟨-, ref⟩ := Segment.mk.inj same
  exact family.apart member' member ref ▸ .of_scalar good unregistered scalar

/-- The sample behind a value is a function of the value. -/
def Shows (m : Decode α) (sample : α → Json) : Prop :=
  Triple (fun _ => True) m (fun a u => u.session.sample = sample a) fun _ _ => True

theorem shows_bind {β : Type} {m : Decode β} {f : β → Decode α} {sample : α → Json}
    (h : ∀ b, Shows (f b) sample) : Shows (m >>= f) sample :=
  Triple.bind (fun _ _ => .any _) h

theorem shows_descend {parent : Path} {muted : Bool} {key : String} {seed : Seed α}
    {sample : α → Json} (h : ∀ path, Shows (seed.run (.walk path muted)) sample) :
    Shows (descend parent muted key seed) sample := by
  intro s _
  rw [exec_descend]
  dsimp only
  split
  · trivial
  · have shown := h (parent.child key seed.type) (s.entering ⟨key, seed.type⟩) trivial
    generalize exec (seed.run _) _ = x at shown ⊢
    obtain ⟨stop | a, t⟩ := x
    · trivial
    · have left : (t.leaving ⟨key, seed.type⟩).session.sample = sample a :=
        (State.leaving_sample ..).trans shown
      dsimp only [cacheWalked]
      split
      · split
        · exact left
        · trivial
      · exact left

theorem shows_replay {seed : Seed α} {sample : α → Json} (v : Json)
    (h : Gives (fun a => sample a = v) (seed.run (.data .replay v))) :
    Shows (do
      let value ← replay seed v
      setSample v
      return value) sample := by
  have given : Gives (fun a => sample a = v) (replay seed v) := by
    intro s _
    rw [exec_replay]
    have read := h s trivial
    generalize exec (seed.run _) s = x at read ⊢
    obtain ⟨stop | a, t⟩ := x
    · trivial
    · exact read
  exact Triple.bind given fun a s same => same.symm

theorem shows_readChild {path : Path} {muted : Bool} {key : String} {seed : Seed α}
    {sample : α → Json} (walk : ∀ path muted, Shows (seed.run (.walk path muted)) sample)
    (data : ∀ v, Gives (fun a => sample a = v) (seed.run (.data .replay v))) :
    Shows (readChild path muted key seed) sample := by
  intro s _
  rw [exec_readChild]
  split
  · exact shows_bind (fun _ => shows_replay _ (data _)) s trivial
  · split
    · next custom _ =>
      have placed : Shows (readPlaceholder path key seed custom) sample := by
        unfold readPlaceholder
        split
        · exact shows_replay _ (data _)
        · exact shows_descend fun path => walk path true
      rw [readDocumented_eq]
      refine shows_bind (fun _ => shows_bind fun before => ?_) s trivial
      refine Triple.bind placed fun a s shown => ?_
      rw [exec_bind, exec_session]
      dsimp only
      split <;> exact shown
    · have down (refused : Bool) : Shows (descend path refused key seed) sample :=
        shows_descend fun path => walk path refused
      cases muted with
      | true => exact down true s trivial
      | false =>
          exact shows_bind (m := (! ·) <$> recordField path key (Shape.leaf seed.type))
            down s trivial

variable {B : Bond schemas}

/-- Runs that agree but for their values agree where the sample shows the value. -/
theorem agree_of_shows {m : Decode α} {sample : α → Json} (inj : Function.Injective sample)
    (shows : Shows m sample) (h : Agree B ((fun _ => ()) <$> m) ((fun _ => ()) <$> m)) :
    Agree B m m := by
  intro s t hst
  have both := h s t hst
  rw [exec_map, exec_map] at both
  rcases hx : exec m s with ⟨stop | a, u⟩
  all_goals rcases hy : exec m t with ⟨stop' | b, v⟩
  all_goals
    rw [hx, hy] at both
    dsimp only at both
    rcases both with ⟨first, ends⟩ | ⟨second, ends⟩ | ⟨same, huv⟩
  · exact .inl ⟨first, congrArg Except.error (Except.error.inj ends)⟩
  · exact .inr (.inl ⟨second, congrArg Except.error (Except.error.inj ends)⟩)
  · exact .inr (.inr ⟨congrArg Except.error (Except.error.inj same), huv⟩)
  · exact .inl ⟨first, congrArg Except.error (Except.error.inj ends)⟩
  · cases ends
  · cases same
  · cases ends
  · exact .inr (.inl ⟨second, congrArg Except.error (Except.error.inj ends)⟩)
  · cases same
  · cases ends
  · cases ends
  · have session : u.session = v.session := B.session huv
    have value : a = b := inj (by
      rw [← shows.value trivial hx, ← shows.value trivial hy, session])
    exact .inr (.inr ⟨by rw [value], huv⟩)

/-! ## Types that are not uniform -/

/-- The caches hold the same of types which are not uniform. -/
def CachesAlike (schemas : Schemas) (registry : Registry) (V : TypeExpr → Prop)
    (O : Options → Prop) (w w' : World) : Prop :=
  ∀ {t o}, V t → O o → ¬ Uniform schemas registry o t →
    Table.get? w.cache (t.ref, o) = Table.get? w'.cache (t.ref, o)

theorem CachesAlike.caching {w w' : World} {entry : CacheEntry}
    (h : CachesAlike schemas registry V O w w') :
    CachesAlike schemas registry V O (w.caching t.ref o entry) (w'.caching t.ref o entry) := by
  intro c o' hc ho other
  by_cases same : (c.ref, o') = (t.ref, o)
  · rw [same]
    exact (Table.get?_put_self _ _ _).trans (Table.get?_put_self _ _ _).symm
  · exact (Table.get?_put_of_ne _ _ same).trans
      ((h hc ho other).trans (Table.get?_put_of_ne _ _ same).symm)

/-- Caching one entry for a type in states of one session keeps them bound. -/
theorem Alike.cachingBoth {u v : State} {entry : CacheEntry} (same : u.session = v.session)
    (options : u.session.options = o) (counted : u.session.occurrences = occurrences)
    (h : Alike schemas registry U V O u.world v.world)
    (fits : PlainWorld schemas registry U (u.caching t.ref entry).world)
    (fits' : PlainWorld schemas registry U (v.caching t.ref entry).world) :
    (Bond.alike schemas registry U V O o occurrences).rel (u.caching t.ref entry)
      (v.caching t.ref entry) := by
  refine ⟨same, options, counted, ?_⟩
  change Alike schemas registry U V O (u.world.caching t.ref u.session.options entry)
    (v.world.caching t.ref v.session.options entry)
  change PlainWorld schemas registry U (u.world.caching t.ref u.session.options entry) at fits
  change PlainWorld schemas registry U (v.world.caching t.ref v.session.options entry) at fits'
  rw [← same] at fits' ⊢
  exact ⟨fits, fits', CachesAlike.caching h.same⟩

/-- What a type that is not uniform allows under a key. -/
theorem passage_alike {run : Source → Decode α} (family : Family schemas U) (sub : ∀ t, V t → U t)
    (ho : O o) (positive : Positive occurrences) (member : V t)
    (other : ¬ Uniform schemas registry o t) (parent : Path) (key : String)
    (way : ∀ n, o.Good → Plain schemas registry (n + 1) t → ¬ Plain schemas registry n t →
      (∃ zero, t.zero? schemas = some zero) ∨
        Clear schemas registry U n occurrences ∧ Table.get? occurrences ⟨key, t.ref⟩ = none)
    (walks : ∀ path s a u, exec (run (.walk path false)) s = (.ok a, u) →
      ∃ d, exec (readType d t (.walk path false)) s = (.ok (), u)) :
    Passage (Bond.alike schemas registry U V O o occurrences)
      (Bond.alike schemas registry U V O o (stepped occurrences ⟨key, t.ref⟩)) parent key t.ref run
      run where
  cached := fun ⟨same, options, _, alike⟩ => by
    rw [← same, options]
    exact alike.same member ho other
  registered := fun ⟨_, _, _, alike⟩ => by rw [alike.first.registered, alike.second.registered]
  first := id
  second := id
  enter := fun ⟨same, options, counted, alike⟩ =>
    ⟨congrArg (Session.enter · _) same, options, by rw [State.entering_occurrences, counted], alike⟩
  leave := fun {s u} ⟨same, options, counted, alike⟩ => by
    have left := positive.left counted
    exact ⟨congrArg (Session.leave · _) same, by simp [left, options], by simp [left], alike⟩
  walked := fun {s s' u v a shape} ⟨same, options, counted, alike⟩ fresh fresh' ran ran' found
      ⟨same', options', counted', alike'⟩ => by
    have passage :
        Passage (Bond.plain schemas registry U o occurrences) _ parent key t.ref run run :=
      passage_plain family positive (sub t member) parent key way walks
    have tree := congrArg Session.tree same'
    have sample := congrArg Session.sample same'
    rw [State.leaving_tree, State.leaving_tree] at tree
    rw [State.leaving_sample, State.leaving_sample] at sample
    have first := passage.walked ⟨rfl, options, counted, alike.first⟩ fresh fresh ran ran found
      ⟨rfl, options', counted', alike'.first⟩
    have second := passage.walked ⟨rfl, same ▸ options, same ▸ counted, alike.second⟩ fresh' fresh'
      ran' ran' (tree ▸ found) ⟨rfl, same' ▸ options', same' ▸ counted', alike'.second⟩
    rw [← sample] at second
    exact Alike.cachingBoth same' options' counted' alike' first.2.2.2 second.2.2.2
  documented := fun {s s' u v a custom} ⟨same, options, counted, alike⟩ registered ran ran'
      ⟨same', options', counted', alike'⟩ => by
    have passage :
        Passage (Bond.plain schemas registry U o occurrences) _ parent key t.ref run run :=
      passage_plain family positive (sub t member) parent key way walks
    have sample : u.session.sample = v.session.sample := by rw [same']
    have registered' : s'.world.registry.documentationOf? t.ref = some custom := by
      rw [alike.second.registered, ← alike.first.registered, registered]
    have first := passage.documented ⟨rfl, options, counted, alike.first⟩ registered ran ran
      ⟨rfl, options', counted', alike'.first⟩
    have second := passage.documented ⟨rfl, same ▸ options, same ▸ counted, alike.second⟩
      registered' ran' ran' ⟨rfl, same' ▸ options', same' ▸ counted', alike'.second⟩
    rw [← sample] at second
    exact Alike.cachingBoth same' options' counted' alike' first.2.2.2 second.2.2.2

/-! ## Roots -/

/-- What a root that is not uniform allows. -/
theorem entry_alike (ho : O o) (member : V t) (other : ¬ Uniform schemas registry o t)
    (read : TypeReader) (context : List (String × Json)) :
    Entry (Alike schemas registry U V O) (CachesAlike schemas registry V O)
      (Bond.alike schemas registry U V O o []) read t o context where
  cached := fun h => h.same member ho other
  registered := fun h => by rw [h.first.registered, h.second.registered]
  start := fun _ h => ⟨rfl, rfl, rfl, h⟩
  finish := fun ⟨_, _, _, h⟩ => h
  weaken := fun h => h.same
  walked := fun _ _ _ _ h => CachesAlike.caching h.same
  placed := fun _ _ h _ => CachesAlike.caching h.same
  documented := fun _ _ _ _ h => CachesAlike.caching h.same

/-- Where a plain root without maps ends. -/
theorem plain_root_ends (family : Family schemas U) (good : o.Good) (member : U t)
    (plain : Plain schemas registry n t) (free : MapFree schemas t) (context : List (String × Json))
    {w : World} (fits : PlainWorld schemas registry U w) :
    ∃ u, PlainWorld schemas registry U u ∧ PlainGrowth schemas registry U o [] t n w u ∧
      ((exec (reflectWithin d t o context) w).1 ≠ .error .depth →
        exec (reflectWithin d t o context) w =
          (.ok ⟨t.ref, plainBody schemas everyKey o.maxSequenceLength n t.ref t⟩, u)) := by
  obtain ⟨body, m, sample, u, run, fits', grown, cached, -⟩ :=
    reflectWithin_plain family good member plain (Nat.le_max_right d n) context fits
  have entry := fits'.entry_eq family good member plain free cached
  refine ⟨u, fits', grown, fun used => ?_⟩
  rw [← reflectWithin_mono (Nat.le_max_left d n) t o context w used, run,
    (CacheEntry.mk.inj entry).2]

/-- Where a root that is registered with a placeholder ends. -/
theorem placed_root_ends (family : Family schemas U) (member : U t) {body : ShapeBody}
    {placeholder : Json}
    (registered : registry.documentationOf? t.ref = some ⟨body, some placeholder⟩)
    (read : TypeReader) (context : List (String × Json)) {w : World}
    (fits : PlainWorld schemas registry U w) :
    ∃ u, exec (reflectWith read t o context) w = (.ok ⟨t.ref, body⟩, u) ∧
      ∀ {w'}, Alike schemas registry U V O w w' → (∀ t, V t → U t) →
        Alike schemas registry U V O u w' := by
  rw [exec_reflectWith]
  cases cached : Table.get? w.cache (t.ref, o) with
  | some entry =>
      obtain rfl := fits.placed member registered cached
      exact ⟨w, rfl, fun h _ => h⟩
  | none =>
      rw [fits.registered, registered]
      refine ⟨_, rfl, fun h sub => h.caching family sub member
        (.inr ⟨body, placeholder, registered⟩) ?_⟩
      refine fits.caching family member (fun _ _ again => ?_) fun n _ plain => ?_
      · cases Option.some.inj (registered.symm.trans again)
        rfl
      · cases plain.unregistered.symm.trans registered

/-- Runs of reading a type from two caches agree. -/
def KeepsAlike (schemas : Schemas) (registry : Registry) (U V : TypeExpr → Prop)
    (O : Options → Prop) (d : Nat) : Prop :=
  ∀ o occurrences t, O o → V t → Positive occurrences → Above schemas registry U occurrences t →
    (o.Good → NoScalars schemas registry V occurrences) → ∀ source,
      Agree (Bond.alike schemas registry U V O o occurrences) (readType d t source)
        (readType d t source)

/-- Reflections from two caches agree. -/
theorem reflectWithin_alike (family : Family schemas U) (sub : ∀ t, V t → U t)
    (keeps : KeepsAlike schemas registry U V O d) (member : V t) (ho : O o)
    (context : List (String × Json)) {w w' : World} (h : Alike schemas registry U V O w w') :
    Matching True True (Alike schemas registry U V O) (exec (reflectWithin d t o context) w)
      (exec (reflectWithin d t o context) w') := by
  by_cases uniform : Uniform schemas registry o t
  · rcases uniform with ⟨good, ⟨n, plain⟩, free⟩ | ⟨body, placeholder, registered⟩
    · obtain ⟨u, fits, grown, run⟩ :=
        plain_root_ends (d := d) family good (sub t member) plain free context h.first
      obtain ⟨u', fits', grown', run'⟩ :=
        plain_root_ends (d := d) family good (sub t member) plain free context h.second
      by_cases used : (exec (reflectWithin d t o context) w).1 = .error .depth
      · exact .inl ⟨trivial, used⟩
      by_cases used' : (exec (reflectWithin d t o context) w').1 = .error .depth
      · exact .inr (.inl ⟨trivial, used'⟩)
      rw [run used, run' used']
      exact .inr (.inr ⟨rfl, h.grown family sub good free fits fits' grown grown'⟩)
    · obtain ⟨u, run, first⟩ := placed_root_ends (o := o) (V := V) (O := O) family (sub t member)
        registered (readType d) context h.first
      obtain ⟨u', run', second⟩ := placed_root_ends (o := o) (V := V) (O := O) family (sub t member)
        registered (readType d) context h.second
      unfold reflectWithin
      rw [run, run']
      exact .inr (.inr ⟨rfl, (second (first h sub).symm sub).symm⟩)
  · have both := (entry_alike (U := U) ho member uniform (readType d) context).reflectWith
      (fun muted => keeps o [] t ho member (fun _ _ found => by cases found) above_nil
        (fun _ _ _ _ _ _ => rfl) _) h
    have settled {w : World} (fits : PlainWorld schemas registry U w) :=
      reflectWith_keeps family (keeps_settled family d) (sub t member) o context fits
    rcases both with first | second | ⟨same, alike⟩
    · exact .inl first
    · exact .inr (.inl second)
    · exact .inr (.inr ⟨same, settled h.first, settled h.second, alike⟩)

/-! ## Every walk -/

theorem replay_text (v : Json) :
    Gives (fun a => Json.string a = v) (readText (.data .replay v)) := by
  intro s _
  cases v with
  | string text => exact rfl
  | _ => trivial

/-- Two runs have come down one way: they read types of a family whose uniform ones are settled,
under options that count, and no scalar stands above them. -/
structure Abreast (schemas : Schemas) (registry : Registry) (U V : TypeExpr → Prop)
    (O : Options → Prop) (o : Options) (occurrences : List (Segment × Nat)) : Prop where
  family : Family schemas U
  inner : Family schemas V
  sub : ∀ t, V t → U t
  options : O o
  positive : Positive occurrences
  scalars : o.Good → NoScalars schemas registry V occurrences

namespace Abreast
variable {run : Source → Decode α} {c : TypeExpr}

theorem stepped (h : Abreast schemas registry U V O o occurrences) (member : V t)
    (other : ¬ Uniform schemas registry o t) (key : String) :
    Abreast schemas registry U V O o (Walk.stepped occurrences ⟨key, t.ref⟩) :=
  { h with
    positive := h.positive.stepped _
    scalars := fun good => (h.scalars good).stepped h.inner good member other key }

/-- A part is read alike under every key. -/
theorem agree_part (h : Abreast schemas registry U V O o occurrences)
    (keeps : KeepsAlike schemas registry U V O d) (member : V t)
    (above : Above schemas registry U occurrences t) (hc : c ∈ t.parts schemas) (path : Path)
    (muted : Bool) (key : String) :
    Agree (Bond.alike schemas registry U V O o occurrences)
      (readChild path muted key (seedOf (readType d) c))
      (readChild path muted key (seedOf (readType d) c)) := by
  have memberC := h.inner.parts member c hc
  have replays (v : Json) := keeps o occurrences c h.options memberC h.positive (above.part hc)
    h.scalars (.data .replay v)
  have clear := above.clear h.family hc (h.sub c memberC) key
  by_cases uniform : Uniform schemas registry o c
  · rcases uniform with ⟨good, ⟨n, plain⟩, free⟩ | ⟨body, placeholder, registered⟩
    · exact agree_plain_child h.family h.sub good (h.sub c memberC) plain free h.positive clear
    · exact agree_placed_child h.family h.sub (h.sub c memberC) registered replays
  · have next := h.stepped memberC uniform key
    refine (passage_alike h.family h.sub h.options h.positive memberC uniform path key
      (fun n _ plain more => .inr (clear n plain more)) fun _ _ _ _ ran => ⟨d, ran⟩).readChild
      replays (fun _ => ?_) muted
    exact keeps o _ c h.options memberC next.positive
      ((above.part hc).stepped (h.sub c memberC) key) next.scalars _

/-- An unregistered scalar has one layer, and does not stand on the way down. -/
theorem agree_scalar (h : Abreast schemas registry U V O o occurrences) (member : V t)
    (good : o.Good) (plain : Plain schemas registry n t) (free : MapFree schemas t) {zero : Json}
    (scalar : t.zero? schemas = some zero) (path : Path) (muted : Bool) (key : String) :
    Agree (Bond.alike schemas registry U V O o occurrences)
      (readChild path muted key (seedOf (readType 1) t))
      (readChild path muted key (seedOf (readType 1) t)) := by
  have single : Plain schemas registry 1 t := ⟨plain.unregistered, .inl ⟨zero, scalar⟩⟩
  refine agree_plain_child h.family h.sub good (h.sub t member) single free h.positive
    fun k _ more => ?_
  obtain rfl : k = 0 := Nat.lt_one_iff.mp (single.lt_of_not more)
  exact ⟨fun _ _ _ plain => plain.elim,
    h.scalars good t key member plain.unregistered ⟨zero, scalar⟩⟩

/-- Own values are read alike under every key, if they are where their type is plain. -/
theorem agree_own (h : Abreast schemas registry U V O o occurrences) (member : V t)
    (own : ReadsOwn schemas registry t run) (path : Path) (muted : Bool) (key : String)
    (plainly : o.Good → ∀ n, Plain schemas registry n t → MapFree schemas t →
      Agree (Bond.alike schemas registry U V O o occurrences)
        (readChild path muted key ⟨t.ref, run⟩) (readChild path muted key ⟨t.ref, run⟩)) :
    Agree (Bond.alike schemas registry U V O o occurrences)
      (readChild path muted key ⟨t.ref, run⟩) (readChild path muted key ⟨t.ref, run⟩) := by
  by_cases uniform : Uniform schemas registry o t
  · rcases uniform with ⟨good, ⟨n, plain⟩, free⟩ | ⟨body, placeholder, registered⟩
    · exact plainly good n plain free
    · exact agree_placed_child h.family h.sub (h.sub t member) registered fun _ => own.agrees _
  · exact (passage_alike h.family h.sub h.options h.positive member uniform path key
      (fun _ _ plain _ => .inl (own.scalar _ plain)) own.walks).readChild (fun _ => own.agrees _)
      (fun _ => own.agrees _) muted

theorem agree_text (h : Abreast schemas registry U V O o occurrences) (path : Path) (muted : Bool)
    (key : String) :
    Agree (Bond.alike schemas registry U V O o occurrences) (readChild path muted key textSeed)
      (readChild path muted key textSeed) := by
  refine h.agree_own h.inner.text readsOwn_text path muted key fun good n plain free => ?_
  have shows : Shows (readChild path muted key textSeed) Json.string := by
    refine shows_readChild (fun path muted s _ => ?_) replay_text
    exact rfl
  refine agree_of_shows (fun _ _ => Json.string.inj) shows ?_
  rw [← readChild_map]
  exact h.agree_scalar h.inner.text good plain free rfl path muted key

theorem agree_value (h : Abreast schemas registry U V O o occurrences) (path : Path) (muted : Bool)
    (key : String) :
    Agree (Bond.alike schemas registry U V O o occurrences) (readChild path muted key valueSeed)
      (readChild path muted key valueSeed) := by
  refine h.agree_own h.inner.value readsOwn_value path muted key fun _ n plain _ => ?_
  -- self-describing data is no scalar, so its type is never plain
  obtain ⟨zero, scalar⟩ := readsOwn_value.scalar n plain
  cases scalar

theorem agree_skip (h : Abreast schemas registry U V O o occurrences) (path : Path) (muted : Bool)
    (key : String) :
    Agree (Bond.alike schemas registry U V O o occurrences) (readChild path muted key skipSeed)
      (readChild path muted key skipSeed) :=
  h.agree_own h.inner.ignored readsOwn_ignored path muted key fun good _ plain free =>
    h.agree_scalar h.inner.ignored good plain free rfl path muted key

end Abreast

/-- Every walk from two caches agrees. -/
theorem keeps_alike (family : Family schemas U) (sub : ∀ t, V t → U t) (inner : Family schemas V)
    (steady : ∀ slot schema, V (.declared slot) → Table.get? schemas slot = some schema →
      schema.isSteady) (default : O {}) (d : Nat) : KeepsAlike schemas registry U V O d := by
  induction d with
  | zero => exact fun _ _ _ _ _ _ _ _ _ _ _ h => .inr (.inr ⟨rfl, h⟩)
  | succ d ih =>
      intro o occurrences t ho member positive above scalars source
      have abreast : Abreast schemas registry U V O o occurrences :=
        ⟨family, inner, sub, ho, positive, scalars⟩
      refine Relies.readTypeWith ⟨fun c hc => ⟨fun source => ih o occurrences c ho
          (inner.parts member c hc) positive (above.part hc) scalars source,
          abreast.agree_part ih member above hc⟩,
          fun root hr style => ?_, abreast.agree_text, abreast.agree_value, abreast.agree_skip⟩
        (fun slot schema same found => .inl ?_) source
      · refine agree_reflectInside (I := Alike schemas registry U V O) id id (fun {s u} h => ?_)
          (reflectWithin_alike family sub ih (inner.roots member root hr) default []) style
        obtain ⟨session, options, counted, alike⟩ := h
        exact ⟨alike, fun w w' alike' => ⟨session, options, counted, alike'⟩⟩
      · subst same
        exact steady slot schema member found

/-! ## Documentation -/

/-- The objects that document a type. -/
def objectsOf (d : Nat) (t : TypeExpr) (o : Options) (context : List (String × Json)) (w : World) :
    Except Stop (List Object) :=
  (exec (reflectWithin d t o context) w).1.map (Object.ofNodes w.registry)

/-- A history does not change what documents a type, if of the types inside it left only uniform
ones cached, under the options of the reflection or the default ones of those inside. -/
theorem objectsOf_after (family : Family schemas U) (sub : ∀ t, V t → U t)
    (inner : Family schemas V)
    (steady : ∀ slot schema, V (.declared slot) → Table.get? schemas slot = some schema →
      schema.isSteady)
    (member : V t) {w w' : World} (declared : w.schemas = schemas)
    (registered : w.registry = registry)
    (empty : w.cache = []) (declared' : w'.schemas = schemas) (registered' : w'.registry = registry)
    (empty' : w'.cache = []) {calls : List Call} (members : ∀ call ∈ calls, U call.type)
    (shared : ∀ c o', V c → o' = o ∨ o' = {} →
      Table.get? (w'.after d calls).cache (c.ref, o') ≠ none → Uniform schemas registry o' c)
    (context : List (String × Json)) (ends : objectsOf d t o context w ≠ .error .depth)
    (ends' : objectsOf d t o context (w'.after d calls) ≠ .error .depth) :
    objectsOf d t o context (w'.after d calls) = objectsOf d t o context w := by
  have fits := plainWorld_of_empty (U := U) declared registered empty
  have fits' := (plainWorld_of_empty (U := U) declared' registered' empty').after family d members
  have alike : Alike schemas registry U V (fun o' => o' = o ∨ o' = {}) w (w'.after d calls) := by
    refine ⟨fits, fits', fun {c o'} hc ho other => ?_⟩
    rw [empty]
    exact (not_not.mp fun cached => other (shared c o' hc ho cached)).symm
  rcases reflectWithin_alike family sub (keeps_alike family sub inner steady (.inr rfl) d) member
    (.inl rfl) context alike with ⟨-, used⟩ | ⟨-, used⟩ | ⟨same, -⟩
  · exact absurd (by rw [objectsOf, used]; rfl) ends
  · exact absurd (by rw [objectsOf, used]; rfl) ends'
  · rw [objectsOf, objectsOf, same, fits'.registered, registered]

namespace Trees

def point : Slot := ⟨"T0", "api::model::T<0>"⟩

def tree : Slot := ⟨"T1", "api::model::T<1>"⟩

def outline : Slot := ⟨"T2", "api::model::T<2>"⟩

/-- Trees with a point as label, and a list of points. -/
def labelled : Schemas :=
  [(point, .record "Point" [⟨"x", .int .u8, false⟩] false),
    (tree, .record "Tree"
      [⟨"children", .vec (.declared tree), false⟩, ⟨"label", .declared point, false⟩] false),
    (outline, .record "Outline" [⟨"points", .vec (.declared point), false⟩] false)]

/-- The types inside the trees. -/
def inTree : List TypeExpr :=
  [.declared tree, .vec (.declared tree), .declared point, .int .u8, .text .string,
    .value, .ignored]

def types : List TypeExpr := inTree ++ [.declared outline, .vec (.declared point)]

theorem family_of_closed {types : List TypeExpr}
    (parts : ∀ t ∈ types, ∀ p ∈ t.parts labelled, p ∈ types)
    (roots : ∀ t ∈ types, ∀ p ∈ t.roots labelled, p ∈ types)
    (own : .text .string ∈ types ∧ .value ∈ types ∧ .ignored ∈ types)
    (apart : ∀ a ∈ types, ∀ b ∈ types, a.ref = b.ref → a = b) : Family labelled (· ∈ types) where
  parts := fun h => parts _ h
  roots := fun h => roots _ h
  text := own.1
  value := own.2.1
  ignored := own.2.2
  apart := fun ha hb => apart _ ha _ hb

theorem shared_uniform {t : TypeExpr} (ht : t ∈ [TypeExpr.declared point, .int .u8]) :
    Uniform labelled [] {} t := by
  have byte : Plain labelled [] 1 (.int .u8) := ⟨rfl, .inl ⟨_, rfl⟩⟩
  refine .inl ⟨⟨by decide, by decide⟩, ?_, mapFree_of_closed _ (by decide +kernel) ?_ ht⟩
  · simp only [List.mem_cons, List.not_mem_nil, or_false] at ht
    rcases ht with rfl | rfl
    · refine ⟨2, rfl, .inr ⟨_, rfl, List.nodup_singleton _, fun p hp => ?_⟩⟩
      obtain rfl := List.mem_singleton.mp hp
      exact byte
    · exact ⟨1, byte⟩
  · simp only [List.mem_cons, List.not_mem_nil, or_false]
    rintro t (rfl | rfl) inner ⟨⟩

theorem objectsOf_after_outline :
    objectsOf 12 (.declared tree) {} []
        (({ schemas := labelled } : World).after 12 [⟨.declared outline, {}, []⟩]) =
      objectsOf 12 (.declared tree) {} [] { schemas := labelled } := by
  have family : Family labelled (· ∈ types) :=
    family_of_closed (by decide +kernel) (by decide +kernel) (by decide +kernel) (by decide +kernel)
  have inner : Family labelled (· ∈ inTree) :=
    family_of_closed (by decide +kernel) (by decide +kernel) (by decide +kernel) (by decide +kernel)
  refine objectsOf_after family (fun t => List.mem_append_left _) inner
    (fun slot schema _ found => ?_) (by decide +kernel) rfl rfl rfl rfl rfl rfl (by decide +kernel)
    (fun c o' hc ho cached => ?_) [] (by decide +kernel) (by decide +kernel)
  · exact (by decide +kernel : ∀ x ∈ labelled, x.2.isSteady) _ (Table.mem_of_get? found)
  · obtain rfl : o' = {} := or_self_iff.mp ho
    refine shared_uniform ((by decide +kernel : ∀ c ∈ inTree,
      Table.get? (({ schemas := labelled } : World).after 12 [⟨.declared outline, {}, []⟩]).cache
        (c.ref, {}) ≠ none → c ∈ [TypeExpr.declared point, .int .u8]) c hc cached)

/-- Nodes with one optional neighbour and a list of them. -/
def linked : Schemas :=
  [(point, .record "Node" [⟨"a", .option (.declared point), false⟩,
    ⟨"b", .vec (.option (.declared point)), false⟩] false)]

/-- After the node was reflected, the list tells nothing of the inside of the node, which it lists
with its fields otherwise. -/
theorem cut_node_listed :
    (objectsOf defaultDepth (.vec (.option (.declared point))) {} [] { schemas := linked }).map
        (List.map (·.body.isEmpty)) = .ok [false, false] ∧
      (objectsOf defaultDepth (.vec (.option (.declared point))) {} []
        (({ schemas := linked } : World).after defaultDepth [⟨.declared point, {}, []⟩])).map
        (List.map (·.body.isEmpty)) = .ok [false, true] := by
  decide +kernel

end Trees
end ApiAtlas.Walk
