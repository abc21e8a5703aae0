import ApiAtlas.Proofs.Cuts
import ApiAtlas.Proofs.Listing
import ApiAtlas.Proofs.PlainShape
import ApiAtlas.Proofs.Recorded

/-!
# Sequences tell their elements once

The elements of a sequence are read under keys of their own, where steps are counted apart, so the
walks of two elements could end differently. Only the first one is walked: behind it the cache has
an entry for the type of the elements, however often it was written while the element was walked,
and as an entry that stands is never written again, the other elements are served this one. So all
of them are equal when the sequence is closed, and are told once. A sequence that was cut off tells
nothing, and a shape that tells nothing of one owes this to a cut: readers that stop at cuts of the
sequence never leave it without its elements.

This needs that nothing depends on self-describing data, as such shapes are not cached. What a walk
does to the node that it was sent to is said for every walk that succeeds: the nodes below it are as
they have to be. Of a walk that fails only the world is left, as no reader goes on behind a fault.
-/
namespace ApiAtlas

/-- A type is read as a list of another one, in place of the layers around the list. -/
inductive TypeExpr.ListOf (schemas : Schemas) : TypeExpr → TypeExpr → Prop
  | list {t inner : TypeExpr} (h : t.layout? schemas = some (.seq inner)) : ListOf schemas t inner
  | option {t u inner : TypeExpr} (h : t.layout? schemas = some (.option u))
      (held : ListOf schemas u inner) : ListOf schemas t inner
  | pointer {t u inner : TypeExpr} (h : t.layout? schemas = some (.pointer u))
      (held : ListOf schemas u inner) : ListOf schemas t inner
  | newtype {t u inner : TypeExpr} {name : String} (h : t.layout? schemas = some (.newtype name u))
      (held : ListOf schemas u inner) : ListOf schemas t inner

/-- The body of a list that tells one element for all. -/
def ShapeBody.TellsOnce (element : TypeRef) (body : ShapeBody) : Prop :=
  ∃ child : Shape, child.type = element ∧ body = .fields [(Shape.elementsKey, child)]

namespace Walk
open Decode Reader

/-- Types over schemas and a registry, with all that their readers read and reflect. Their names
tell them apart, also from data that is skipped, none of them asks for self-describing data, and no
registered body has fields. -/
structure Catalogue where
  schemas : Schemas
  registry : Registry
  types : TypeExpr → Prop
  parts : ∀ {t}, types t → ∀ p ∈ t.parts schemas, types p
  roots : ∀ {t}, types t → ∀ root ∈ t.roots schemas, types root
  apart : ∀ {a b}, types a → types b → a.ref = b.ref → a = b
  skipped : ∀ {t}, types t → TypeExpr.ignored.ref = t.ref → t = .ignored
  asks : ∀ {t}, types t → t.asks schemas = false
  bodies : ∀ {type custom}, registry.documentationOf? type = some custom →
    ∀ fields, custom.body ≠ .fields fields

/-- A catalogue, and the types that readers of it stop at where they are cut off. -/
structure Watched extends Catalogue where
  watched : Options → TypeRef → Bool

namespace Watched
variable {C : Watched} {o : Options}

/-- A list that is not registered tells its elements once. It tells nothing if nothing is asked of
it, or if its type is not watched. -/
def Compact (C : Watched) (o : Options) (node : Shape) : Prop :=
  ∀ {t inner}, C.types t → t.ListOf C.schemas inner → node.type = t.ref →
    C.registry.documentationOf? t.ref = none → node.body.TellsOnce inner.ref ∨
      node.body = .plain ∧ (o.maxSequenceLength = 0 ∨ C.watched o node.type = false)

/-- All lists below a node tell their elements once. -/
def Below (C : Watched) (o : Options) (body : ShapeBody) : Prop :=
  ∀ node ∈ Shape.nodesBelow body, C.Compact o node

/-- All lists of a shape tell their elements once. -/
def Told (C : Watched) (o : Options) (shape : Shape) : Prop :=
  ∀ node ∈ shape.nodes, C.Compact o node

theorem told_iff {shape : Shape} : C.Told o shape ↔ C.Compact o shape ∧ C.Below o shape.body := by
  unfold Told
  rw [Shape.nodes_eq, List.forall_mem_cons]
  rfl

theorem below_iff {body : ShapeBody} :
    C.Below o body ↔ ∀ entry ∈ body.entries, C.Told o entry.2 := by
  cases body with
  | fields fields =>
      show C.Below o (.fields fields) ↔ ∀ entry ∈ fields, C.Told o entry.2
      induction fields with
      | nil => exact ⟨fun _ => nofun, fun _ => nofun⟩
      | cons first rest ih =>
          have split : C.Below o (.fields (first :: rest)) ↔
              C.Told o first.2 ∧ C.Below o (.fields rest) := List.forall_mem_append
          rw [split, ih, List.forall_mem_cons]
  | _ => exact ⟨fun _ => nofun, fun _ => nofun⟩

theorem below_plain : C.Below o .plain := nofun

theorem Below.withField {body : ShapeBody} (h : C.Below o body) {child : Shape}
    (told : body.IsOpen → C.Told o child) (key : String) :
    C.Below o (body.withField key child) := by
  have added (told : C.Told o child) : C.Below o (body.withField key child) := by
    refine below_iff.mpr fun entry member => ?_
    rcases ShapeBody.entries_withField member with rfl | member
    · exact told
    · exact below_iff.mp h entry member
  cases body with
  | cases list => exact h
  | _ => exact added (told trivial)

theorem Below.compress {type : TypeRef} {body : ShapeBody} (h : C.Below o body) (count : Nat) :
    C.Below o (Shape.compress ⟨type, body⟩ count).body := by
  refine below_iff.mpr fun entry member => ?_
  obtain ⟨key, before⟩ := Shape.entries_compress member
  exact below_iff.mp h (key, entry.2) before

/-- A world of these schemas and registrations, whose cached shapes tell elements once. -/
structure Tells (C : Watched) (w : World) : Prop where
  declared : w.schemas = C.schemas
  registered : w.registry = C.registry
  entries : ∀ {type o entry}, Table.get? w.cache (type, o) = some entry →
    entry.shape.type = type ∧ C.Told o entry.shape

theorem Tells.caching {w : World} (h : C.Tells w) (entry : CacheEntry)
    (told : C.Told o entry.shape) : C.Tells (w.caching entry.shape.type o entry) := by
  refine ⟨h.declared, h.registered, fun {type o' found} cached => ?_⟩
  unfold World.caching at cached
  by_cases same : (type, o') = (entry.shape.type, o)
  · obtain ⟨rfl, rfl⟩ := Prod.mk.inj same
    rw [Table.get?_put_self] at cached
    obtain rfl := Option.some.inj cached
    exact ⟨rfl, told⟩
  · rw [Table.get?_put_of_ne _ _ same] at cached
    exact h.entries cached

/-- A registered shape is no list that has to tell its elements once. -/
theorem told_registered {type : TypeRef} {custom : CustomDocumentation}
    (h : C.registry.documentationOf? type = some custom) : C.Told o ⟨type, custom.body⟩ := by
  refine told_iff.mpr ⟨fun _ _ named absent => ?_, ?_⟩
  · rw [← named, h] at absent
    cases absent
  · have bodies := C.bodies h
    cases hb : custom.body with
    | fields fields => exact absurd hb (bodies fields)
    | plain => exact below_plain
    | cases list => exact fun node member => absurd member List.not_mem_nil

/-! ## Decodes at a spot -/

/-- A state in which a spot may be read. -/
structure Fits (C : Watched) (q : Spot) (s : State) : Prop where
  world : C.Tells s.world
  node : q.muted = false → ∃ type body, s.session.tree.at? q.path.keys = some ⟨type, body⟩ ∧
    C.Below s.session.options body

/-- What a decode at a spot does to the tree if it succeeds: where the spot is not muted it may give
its node another body. -/
structure Turns (C : Watched) (q : Spot) (s t : State) : Prop where
  kept : Kept s t
  asked : t.session.anyRequests = s.session.anyRequests
  muted : q.muted = true → t.session.tree = s.session.tree
  node : q.muted = false → ∀ type body, s.session.tree.at? q.path.keys = some ⟨type, body⟩ →
    ∃ body', C.Below s.session.options body' ∧
      t.session.tree = s.session.tree.setAt q.path.keys ⟨type, body'⟩

variable {q : Spot} {s t u : State}

theorem Fits.still (h : C.Fits q s) (kept : Kept s t)
    (asked : t.session.anyRequests = s.session.anyRequests)
    (tree : t.session.tree = s.session.tree) : C.Turns q s t := by
  refine ⟨kept, asked, fun _ => tree, fun loud type body found => ?_⟩
  obtain ⟨type', body', found', below⟩ := h.node loud
  obtain ⟨rfl, rfl⟩ := Shape.mk.inj (Option.some.inj (found.symm.trans found'))
  exact ⟨body, below, by rw [tree, Shape.setAt_self found]⟩

theorem Fits.refl (h : C.Fits q s) : C.Turns q s s := h.still (.refl s) rfl rfl

theorem Turns.trans (h : C.Turns q s t) (h' : C.Turns q t u) : C.Turns q s u := by
  refine ⟨h.kept.trans h'.kept, h'.asked.trans h.asked,
    fun muted => (h'.muted muted).trans (h.muted muted), fun loud type body found => ?_⟩
  obtain ⟨between, -, tree⟩ := h.node loud type body found
  have found' : t.session.tree.at? q.path.keys = some ⟨type, between⟩ :=
    tree ▸ Shape.at?_setAt found _
  obtain ⟨after, below, tree'⟩ := h'.node loud type between found'
  exact ⟨after, h.kept.options ▸ below, by rw [tree', tree, Shape.setAt_setAt found]⟩

theorem Fits.turned (h : C.Fits q s) (turns : C.Turns q s t) (world : C.Tells t.world) :
    C.Fits q t := by
  refine ⟨world, fun loud => ?_⟩
  obtain ⟨type, body, found, -⟩ := h.node loud
  obtain ⟨after, below, tree⟩ := turns.node loud type body found
  exact ⟨type, after, tree ▸ Shape.at?_setAt found _, turns.kept.options ▸ below⟩

section
variable {α β : Type} {P P' : α → Prop} {Q : β → Prop}

/-- How a decode may end. -/
def Ended (C : Watched) (q : Spot) (P : α → Prop) (s : State) : Except Stop α × State → Prop :=
  Outcome (fun a t => C.Tells t.world ∧ P a ∧ C.Turns q s t) fun _ t => C.Tells t.world

/-- From every state in which the spot may be read, the decode ends in one of these ways. -/
def Ends (C : Watched) (q : Spot) (P : α → Prop) (m : Decode α) : Prop :=
  ∀ s, C.Fits q s → C.Ended q P s (exec m s)

theorem ended_iff {x : Except Stop α × State} :
    C.Ended q P s x ↔ C.Tells x.2.world ∧ ∀ a, x.1 = .ok a → P a ∧ C.Turns q s x.2 := by
  obtain ⟨stop | a, t⟩ := x
  · exact ⟨fun world => ⟨world, nofun⟩, And.left⟩
  · exact ⟨fun ended => ⟨ended.1, by rintro _ ⟨⟩; exact ended.2⟩, fun h => ⟨h.1, h.2 a rfl⟩⟩

theorem Ended.world {x : Except Stop α × State} (h : C.Ended q P s x) : C.Tells x.2.world :=
  (ended_iff.mp h).1

theorem Ended.ok {x : Except Stop α × State} (h : C.Ended q P s x) :
    ∀ a, x.1 = .ok a → P a ∧ C.Turns q s x.2 :=
  (ended_iff.mp h).2

theorem ended_ok {a : α} (world : C.Tells t.world) (h : P a) (turns : C.Turns q s t) :
    C.Ended q P s (.ok a, t) :=
  ⟨world, h, turns⟩

theorem ended_error (stop : Stop) (world : C.Tells t.world) : C.Ended q P s (.error stop, t) :=
  world

theorem ends_pure {a : α} (h : P a) : C.Ends q P (pure a) :=
  fun _ fits => ended_ok fits.world h fits.refl

theorem ends_throw (stop : Stop) : C.Ends q P (throw stop) :=
  fun _ fits => ended_error stop fits.world

/-- What is only noted. -/
theorem ends_note (note : Note) (tree : ∀ tree, note ≠ .tree tree)
    (asked : ∀ site offer, note ≠ .asked site offer) :
    C.Ends q (fun _ => True) (modifySession note.apply) := by
  intro s fits
  refine ended_ok fits.world trivial (fits.still (.noted s note) ?_ (Note.apply_tree tree _))
  cases note with
  | asked site offer => exact absurd rfl (asked site offer)
  | lesson site kind fault =>
      show (s.session.revise site kind fault).anyRequests = _
      unfold Session.revise
      split <;> rfl
  | _ => rfl

theorem ends_setSample (v : Json) : C.Ends q (fun _ => True) (setSample v) :=
  ends_note (.sample v) nofun nofun

theorem Ends.bind {m : Decode α} {f : α → Decode β} (hm : C.Ends q P m)
    (hf : ∀ a, P a → C.Ends q Q (f a)) : C.Ends q Q (m >>= f) := by
  refine fun s fits => Outcome.bind (hm s fits) fun a t ⟨world, given, turns⟩ => ?_
  exact Outcome.mono (hf a given t (fits.turned turns world))
    (fun _ _ ⟨after, value, later⟩ => ⟨after, value, turns.trans later⟩) fun _ _ after => after

/-- A decode that is looked at only where it fails, and fails again. -/
theorem Ends.rethrown {m : Decode α} {handle : Stop → Decode α} (hm : C.Ends q P m)
    (again : ∀ stop s, ∃ stop' t, exec (handle stop) s = (.error stop', t) ∧ t.world = s.world) :
    C.Ends q P (tryCatch m handle) := by
  refine fun s fits => Outcome.tryCatch (hm s fits) fun stop t world => ?_
  obtain ⟨stop', u, run, same⟩ := again stop t
  rw [run]
  exact ended_error stop' (same ▸ world)

theorem Ends.taught {m : Decode α} (hm : C.Ends q P m) (site : Site) (kind : SiteKind) :
    C.Ends q P (onFault m fun fault => revise site kind fault) := by
  refine hm.rethrown fun stop s => ?_
  cases stop with
  | fault fault => exact ⟨_, _, rfl, rfl⟩
  | unrecorded path => exact ⟨_, _, rfl, rfl⟩
  | valueBeforeKey => exact ⟨_, _, rfl, rfl⟩
  | depth => exact ⟨_, _, rfl, rfl⟩

theorem ends_modifyNode (loud : q.muted = false) {f : Shape → Shape}
    (hf : ∀ o type body, C.Below o body → ∃ body', f ⟨type, body⟩ = ⟨type, body'⟩ ∧
      C.Below o body') :
    C.Ends q (fun _ => True) (modifyNode q.path f) := by
  intro s fits
  obtain ⟨type, body, found, below⟩ := fits.node loud
  obtain ⟨body', same, below'⟩ := hf _ type body below
  rw [exec_modifyNode, Shape.modifyAt?_eq_setAt f found, same]
  refine ended_ok fits.world trivial ⟨.noted s _, rfl, fun quiet => ?_,
    fun _ type' old found' => ?_⟩
  · exact absurd (loud.symm.trans quiet) Bool.false_ne_true
  · obtain ⟨rfl, rfl⟩ := Shape.mk.inj (Option.some.inj (found.symm.trans found'))
    exact ⟨body', below', rfl⟩

end

/-! ## Reading under a key -/

/-- A spot at which nothing is recorded. -/
abbrev aside : Spot := ⟨[], true⟩

theorem fits_muted {q : Spot} (quiet : q.muted = true) (world : C.Tells s.world) : C.Fits q s :=
  ⟨world, fun loud => absurd (loud.symm.trans quiet) Bool.false_ne_true⟩

theorem Turns.aside (h : C.Turns q s t) (quiet : q.muted = true) : C.Turns aside s t :=
  ⟨h.kept, h.asked, fun _ => h.muted quiet, nofun⟩

section
variable {α : Type} {path : Path} {muted : Bool} {key : String} {seed : Seed α}

theorem Ends.aside {P : α → Prop} {m : Decode α} (h : C.Ends q P m) (quiet : q.muted = true) :
    C.Ends aside P m := by
  intro s fits
  exact Outcome.mono (h s (fits_muted quiet fits.world))
    (fun _ _ ⟨world, given, turns⟩ => ⟨world, given, turns.aside quiet⟩) fun _ _ world => world

/-- What is asked of a reader with a node of its own: if the node is a list, its elements are told
once. -/
def Serves (C : Watched) (seed : Seed α) : Prop :=
  ∀ {path s a t body}, (∀ segment, path.getLast? = some segment → segment.type = seed.type) →
    exec (seed.run (.walk path false)) s = (.ok a, t) → C.Tells s.world →
    s.session.tree.at? path.keys = some (Shape.leaf seed.type) →
    t.session.tree.at? path.keys = some ⟨seed.type, body⟩ →
    C.Compact s.session.options ⟨seed.type, body⟩

/-- What is asked of a seed to be read under a key. -/
structure Feeds (C : Watched) (path : Path) (muted : Bool) (key : String) (seed : Seed α) :
    Prop where
  serves : C.Serves seed
  data : ∀ origin value, C.Ends aside (fun _ => True) (seed.run (.data origin value))
  walk : ∀ muted', (muted = true → muted' = true) →
    C.Ends ⟨path.child key seed.type, muted'⟩ (fun _ => True)
      (seed.run (.walk (path.child key seed.type) muted'))

/-- What reading under a key of a node leaves if it succeeds: a shape is recorded under the key,
unless the walk is muted, and cached if the node took it. -/
structure Filled (C : Watched) (path : Path) (muted : Bool) (key : String) (type ref : TypeRef)
    (body : ShapeBody) (s t : State) : Prop where
  kept : Kept s t
  asked : t.session.anyRequests = s.session.anyRequests
  shape : ∃ entry : CacheEntry, (muted = false → body.IsOpen →
      C.Told s.session.options entry.shape ∧
        Table.get? t.world.cache (type, s.session.options) = some entry) ∧
    t.session.tree = if muted then s.session.tree
      else s.session.tree.setAt path.keys ⟨ref, body.withField key entry.shape⟩

/-- How reading under a key may end. -/
def Fills (C : Watched) (path : Path) (muted : Bool) (key : String) (type ref : TypeRef)
    (body : ShapeBody) (s : State) : Except Stop α × State → Prop :=
  Outcome (fun _ t => C.Tells t.world ∧ C.Filled path muted key type ref body s t)
    fun _ t => C.Tells t.world

variable {ref : TypeRef} {body : ShapeBody}

theorem Filled.turns {type : TypeRef} (h : C.Filled q.path muted key type ref body s t)
    (quiet : q.muted = true → muted = true) (fits : C.Fits q s)
    (stands : s.Stands q.path muted ⟨ref, body⟩) : C.Turns q s t := by
  obtain ⟨entry, taken, tree⟩ := h.shape
  cases muted with
  | true => exact fits.still h.kept h.asked tree
  | false =>
      refine ⟨h.kept, h.asked, fun muted => absurd (quiet muted) Bool.false_ne_true,
        fun loud ref' body' found => ?_⟩
      obtain ⟨rfl, rfl⟩ := Shape.mk.inj (Option.some.inj ((stands rfl).symm.trans found))
      obtain ⟨type', body', found', below⟩ := fits.node loud
      obtain ⟨rfl, rfl⟩ := Shape.mk.inj (Option.some.inj (found.symm.trans found'))
      exact ⟨_, below.withField (fun takes => (taken rfl takes).1) key, tree⟩

/-- What follows the note of a shape without recording more. -/
theorem Ended.fills {P : α → Prop} {x : Except Stop α × State} {type : TypeRef} {child : Shape}
    (ended : C.Ended aside P (s.landed path muted ⟨ref, body.withField key child⟩ s.session.sample
      s.world) x) (told : muted = false → body.IsOpen → C.Told s.session.options child)
    (cached : ∀ a, x.1 = .ok a → muted = false → body.IsOpen →
      ∃ sample, Table.get? x.2.world.cache (type, s.session.options) = some ⟨sample, child⟩) :
    C.Fills path muted key type ref body s x := by
  obtain ⟨stop | a, t⟩ := x
  · exact ended
  obtain ⟨world, -, turns⟩ := ended
  have found := cached a rfl
  refine ⟨world, ⟨turns.kept.options, turns.kept.cache⟩, turns.asked, ?_⟩
  by_cases takes : muted = false ∧ body.IsOpen
  · obtain ⟨sample, found⟩ := found takes.1 takes.2
    exact ⟨⟨sample, child⟩, fun loud opened => ⟨told loud opened, found⟩, turns.muted rfl⟩
  · exact ⟨⟨.null, child⟩, fun loud opened => absurd ⟨loud, opened⟩ takes, turns.muted rfl⟩

namespace Feeds
variable (h : C.Feeds path muted key seed)
include h

theorem replay (v : Json) : C.Ends aside (fun _ => True) (Decode.replay seed v) := by
  refine (h.data .replay v).rethrown fun stop s => ?_
  rcases stop with (_ | _ | _) | _ | _ | _ <;> exact ⟨_, _, rfl, rfl⟩

/-- Data in the place of a value is replayed and handed out. -/
theorem replaced (v : Json) : C.Ends aside (fun _ => True) (do
    let value ← Decode.replay seed v
    setSample v
    return value) :=
  (h.replay v).bind fun _ _ => (ends_setSample v).bind fun _ _ => ends_pure trivial

theorem descend_muted : C.Ends aside (fun _ => True) (Decode.descend path true key seed) := by
  intro s fits
  rw [exec_descend]
  dsimp only
  split
  · exact ended_error _ fits.world
  · have inner := (h.walk true fun _ => rfl).aside rfl (s.entering ⟨key, seed.type⟩)
      (fits_muted rfl fits.world)
    generalize exec (seed.run _) _ = x at inner ⊢
    obtain ⟨stop | a, t⟩ := x
    · refine ended_error _ ?_
      cases stop <;> exact inner.world
    · obtain ⟨-, turns⟩ := inner.ok a rfl
      refine ended_ok inner.world trivial ⟨?_, ?_, fun _ => ?_, nofun⟩
      · exact ((Kept.entering s _).trans turns.kept).trans (.leaving t _)
      · exact (State.leaving_anyRequests t _).trans turns.asked
      · exact (State.leaving_tree t _).trans (turns.muted rfl)

theorem readPlaceholder (custom : CustomDocumentation) :
    C.Ends aside (fun _ => True) (Decode.readPlaceholder path key seed custom) := by
  unfold Decode.readPlaceholder
  split
  · exact h.replaced _
  · exact h.descend_muted

/-- A cached shape is recorded and stays cached. -/
theorem serve {entry : CacheEntry} (world : C.Tells s.world)
    (stands : s.Stands path muted ⟨ref, body⟩)
    (cached : Table.get? s.world.cache (seed.type, s.session.options) = some entry) :
    C.Fills path muted key seed.type ref body s
      (exec (Decode.serve path muted key seed entry) s) := by
  unfold Decode.serve
  rw [exec_bind, stands.noted]
  dsimp only
  have ended := h.replaced entry.sample _ (fits_muted rfl
    (show C.Tells (s.landed path muted ⟨ref, body.withField key entry.shape⟩ s.session.sample
      s.world).world from world))
  refine ended.fills (fun _ _ => (world.entries cached).2) fun a same _ _ => ⟨entry.sample, ?_⟩
  exact (ended.ok a same).2.kept.cache _ _ cached

/-- A registered shape is recorded, and cached where it is. -/
theorem readDocumented {custom : CustomDocumentation} (world : C.Tells s.world)
    (stands : s.Stands path muted ⟨ref, body⟩)
    (uncached : Table.get? s.world.cache (seed.type, s.session.options) = none)
    (registered : C.registry.documentationOf? seed.type = some custom) :
    C.Fills path muted key seed.type ref body s
      (exec (Decode.readDocumented path muted key seed custom) s) := by
  have told {o : Options} : C.Told o ⟨seed.type, custom.body⟩ := told_registered registered
  rw [readDocumented_eq, exec_bind, stands.noted]
  dsimp only
  rw [exec_bind, exec_session]
  dsimp only
  rw [exec_bind]
  have placed := h.readPlaceholder custom _ (fits_muted rfl
    (show C.Tells (s.landed path muted ⟨ref, body.withField key ⟨seed.type, custom.body⟩⟩
      s.session.sample s.world).world from world))
  generalize exec (Decode.readPlaceholder path key seed custom) _ = x at placed ⊢
  obtain ⟨stop | a, t⟩ := x
  · exact placed
  · obtain ⟨-, turns⟩ := placed.ok a rfl
    dsimp only
    rw [exec_bind, exec_session]
    dsimp only
    cases muted with
    | true => exact placed.fills nofun nofun
    | false =>
        rw [if_pos (by rw [turns.asked]; simp)]
        have caught : C.Ended aside (fun _ => True) _
            ((.ok a, t.caching seed.type ⟨t.session.sample, ⟨seed.type, custom.body⟩⟩) :
              Except Stop α × State) :=
          ended_ok (placed.world.caching ⟨t.session.sample, ⟨seed.type, custom.body⟩⟩ told) trivial
            ⟨turns.kept.caching uncached _, turns.asked, turns.muted, nofun⟩
        refine caught.fills (fun _ _ => told) fun _ _ _ _ => ⟨t.session.sample, ?_⟩
        show Table.get? (Table.put t.world.cache (seed.type, t.session.options) _) _ = _
        rw [turns.kept.options]
        exact Table.get?_put_self _ _ _

/-- A value that is walked is cached with what its walk recorded. -/
theorem descend (loud : muted = false) (world : C.Tells s.world)
    (stands : s.Stands path false ⟨ref, body⟩) (takes : body.IsOpen)
    (uncached : Table.get? s.world.cache (seed.type, s.session.options) = none) :
    C.Fills path false key seed.type ref body s (exec (Decode.descend path false key seed)
      (s.landed path false ⟨ref, body.withField key (Shape.leaf seed.type)⟩ s.session.sample
        s.world)) := by
  subst loud
  have leaf := stands.child takes key seed.type (Shape.leaf seed.type) s.session.sample s.world rfl
  rw [exec_descend]
  dsimp only
  split
  · exact world
  · have inner := h.walk false nofun ((s.landed path false
      ⟨ref, body.withField key (Shape.leaf seed.type)⟩ s.session.sample s.world).entering
        ⟨key, seed.type⟩) ⟨world, fun _ => ⟨_, _, leaf, below_plain⟩⟩
    rcases run : exec (seed.run _) _ with ⟨stop | a, t⟩ <;> rw [run] at inner
    · cases stop <;> exact inner.world
    · obtain ⟨-, turns⟩ := inner.ok a rfl
      obtain ⟨inside, below, tree⟩ := turns.node rfl _ _ leaf
      have found : t.session.tree.at? (path.child key seed.type).keys = some ⟨seed.type, inside⟩ :=
        tree ▸ Shape.at?_setAt leaf _
      have told : C.Told s.session.options ⟨seed.type, inside⟩ := by
        refine told_iff.mpr ⟨h.serves (fun segment last => ?_) run world leaf found, below⟩
        rw [Path.child, List.getLast?_concat] at last
        exact (congrArg Segment.type (Option.some.inj last)).symm
      have left : Kept s (t.leaving ⟨key, seed.type⟩) :=
        .trans ⟨turns.kept.options, turns.kept.cache⟩ (.leaving t _)
      let entry : CacheEntry := ⟨(t.leaving ⟨key, seed.type⟩).session.sample, ⟨seed.type, inside⟩⟩
      have cached : C.Tells ((t.leaving ⟨key, seed.type⟩).caching seed.type entry).world :=
        Tells.caching (w := (t.leaving ⟨key, seed.type⟩).world) inner.world entry
          (left.options.symm ▸ told)
      dsimp only
      unfold cacheWalked
      rw [if_pos (by rw [State.leaving_anyRequests, turns.asked]; simp), State.leaving_tree, found]
      refine ⟨cached, left.caching uncached _, ?_, entry, fun _ _ => ⟨told, ?_⟩, ?_⟩
      · exact (State.leaving_anyRequests t _).trans turns.asked
      · show Table.get?
          (Table.put _ (seed.type, (t.leaving ⟨key, seed.type⟩).session.options) _) _ = _
        rw [left.options]
        exact Table.get?_put_self _ _ _
      · refine (State.leaving_tree t _).trans (tree.trans ?_)
        rw [Path.keys_child]
        exact Shape.setAt_withField (stands rfl) takes key _ _

/-- A value is walked, muted where its node does not take it. -/
theorem walkChild (world : C.Tells s.world) (stands : s.Stands path muted ⟨ref, body⟩)
    (uncached : Table.get? s.world.cache (seed.type, s.session.options) = none) :
    C.Fills path muted key seed.type ref body s
      (exec (Decode.walkChild path muted key seed) s) := by
  have quietly : C.Ended aside (fun _ => True) s (exec (Decode.descend path true key seed) s) :=
    h.descend_muted s (fits_muted rfl world)
  unfold Decode.walkChild
  cases muted with
  | true =>
      have ended : C.Ended aside (fun _ => True) (s.landed path true
        ⟨ref, body.withField key (Shape.leaf seed.type)⟩ s.session.sample s.world) _ := quietly
      exact ended.fills nofun nofun
  | false =>
      show C.Fills path false key seed.type ref body s (exec ((! ·) <$> recordField path key
        (Shape.leaf seed.type) >>= fun refused => Decode.descend path refused key seed) s)
      rw [exec_bind, exec_map]
      have taken (takes : body.IsOpen) : C.Fills path false key seed.type ref body s _ :=
        h.descend rfl world stands takes uncached
      cases body with
      | cases list =>
          rw [stands.refused]
          have ended : C.Ended aside (fun _ => True) (s.landed path false
              ⟨ref, (ShapeBody.cases list).withField key (Shape.leaf seed.type)⟩
              s.session.sample s.world) (exec (Decode.descend path true key seed) s) := by
            show C.Ended aside (fun _ => True)
              (s.landed path false ⟨ref, .cases list⟩ s.session.sample s.world) _
            rw [stands.landed_self]
            exact quietly
          exact ended.fills (fun _ takes => takes.elim) fun _ _ _ takes => takes.elim
      | plain => rw [stands.recorded trivial]; exact taken trivial
      | fields all => rw [stands.recorded trivial]; exact taken trivial

theorem readChild (world : C.Tells s.world) (stands : s.Stands path muted ⟨ref, body⟩) :
    C.Fills path muted key seed.type ref body s
      (exec (Decode.readChild path muted key seed) s) := by
  rw [exec_readChild]
  split
  · next cached => exact h.serve world stands cached
  · next uncached =>
    split
    · next registered =>
      rw [world.registered] at registered
      exact h.readDocumented world stands uncached registered
    · exact h.walkChild world stands uncached

end Feeds

end

/-! ## Reflecting a type -/

section
variable {read : TypeReader} {root : TypeExpr} {w : World}
variable (serves : C.Serves (seedOf read root))
variable (walks : ∀ muted, C.Ends ⟨[], muted⟩ (fun _ => True) (read root (.walk [] muted)))
variable (options : Options) (context : List (String × Json))
include serves walks

/-- A walk of a root tells lists once where it records anything. -/
theorem readRoot_tells (hints : Hints) (muted : Bool) (world : C.Tells w) :
    C.Tells (exec (readRoot read root muted) (rootState root options context hints w)).2.world ∧
      ∀ a t, exec (readRoot read root muted) (rootState root options context hints w) = (.ok a, t) →
        muted = false → t.session.tree.type = root.ref ∧ C.Told options t.session.tree := by
  have fits : C.Fits ⟨[], muted⟩ (rootState root options context hints w) :=
    ⟨world, fun _ => ⟨_, _, rfl, below_plain⟩⟩
  have ended := (walks muted).taught [] .any _ fits
  refine ⟨ended.world, fun a t run loud => ?_⟩
  subst loud
  have walked : exec (read root (.walk [] false)) (rootState root options context hints w) =
      (.ok a, t) := by
    unfold readRoot at run
    rw [exec_onFault] at run
    rcases hx : exec (read root (.walk [] false)) _ with ⟨(_ | _ | _ | _) | _, _⟩ <;>
      rw [hx] at run
    case ok => exact run
    all_goals cases (Prod.mk.inj run).1
  have turns := ((walks false _ fits).ok a (by rw [walked])).2
  obtain ⟨body, below, tree⟩ := turns.node rfl root.ref .plain rfl
  rw [walked] at tree
  have tree : t.session.tree = ⟨root.ref, body⟩ := tree
  rw [tree]
  refine ⟨rfl, told_iff.mpr ⟨serves (fun _ last => ?_) walked world rfl (by rw [tree]; rfl), below⟩⟩
  cases last

theorem walkRoot_tells (muted : Bool) (walks' : Nat) (hints : Hints) (world : C.Tells w) :
    C.Tells (exec (walkRoot read root options context muted walks' hints) w).2 ∧
      ∀ shape, Prod.fst <$> (exec (walkRoot read root options context muted walks' hints) w).1 =
        .ok shape → muted = false → shape.type = root.ref ∧ C.Told options shape := by
  refine walkRoot_ends (P := fun w x => C.Tells w → C.Tells x.2 ∧ ∀ shape,
    Prod.fst <$> x.1 = .ok shape → muted = false → shape.type = root.ref ∧ C.Told options shape)
    (fun _ _ world => ⟨world, nofun⟩) (fun hints w world => ?_)
    (fun hints w x ends world =>
      ends (readRoot_tells serves walks options context hints muted world).1) walks' hints w world
  obtain ⟨kept, told⟩ := readRoot_tells serves walks options context hints muted world
  rcases run : exec (readRoot read root muted) _ with ⟨_ | a, t⟩ <;> rw [run] at kept
  · exact ⟨kept, nofun⟩
  · refine ⟨kept, fun shape same loud => ?_⟩
    obtain rfl := Except.ok.inj same
    exact told a t run loud

/-- A reflection keeps such a world, and what it gives tells lists once. -/
theorem reflectWith_tells (world : C.Tells w) :
    C.Tells (exec (reflectWith read root options context) w).2 ∧
      ∀ shape, (exec (reflectWith read root options context) w).1 = .ok shape →
        C.Told options shape := by
  rw [exec_reflectWith]
  split
  · next cached =>
    exact ⟨world, fun shape same => Except.ok.inj same ▸ (world.entries cached).2⟩
  · split
    · next body placeholder registered =>
      have told : C.Told options ⟨root.ref, body⟩ := told_registered (world.registered ▸ registered)
      exact ⟨world.caching ⟨placeholder, ⟨root.ref, body⟩⟩ told,
        fun shape same => Except.ok.inj same ▸ told⟩
    · next body registered =>
      have told : C.Told options ⟨root.ref, body⟩ := told_registered (world.registered ▸ registered)
      obtain ⟨kept, -⟩ := walkRoot_tells serves walks options context true maxWalks [] world
      generalize exec (walkRoot read root options context true maxWalks []) w = x at kept ⊢
      obtain ⟨_ | ⟨_, sample⟩, _⟩ := x
      · exact ⟨kept, nofun⟩
      · exact ⟨kept.caching ⟨sample, ⟨root.ref, body⟩⟩ told,
          fun shape same => Except.ok.inj same ▸ told⟩
    · obtain ⟨kept, told⟩ := walkRoot_tells serves walks options context false maxWalks [] world
      generalize exec (walkRoot read root options context false maxWalks []) w = x at kept told ⊢
      obtain ⟨_ | ⟨shape, sample⟩, _⟩ := x
      · exact ⟨kept, nofun⟩
      · obtain ⟨named, told⟩ := told shape rfl rfl
        have cached := kept.caching ⟨sample, shape⟩ told
        rw [named] at cached
        exact ⟨cached, fun shape same => Except.ok.inj same ▸ told⟩

theorem ends_reflectInside (keeps : ∀ muted, Keeps (read root (.walk [] muted))) (style : Style) :
    C.Ends q (fun _ => True) (reflectInside read style root) := by
  intro s fits
  rw [exec_reflectInside]
  obtain ⟨world, -⟩ := reflectWith_tells serves walks {} [] fits.world
  exact ended_iff.mpr
    ⟨world, fun _ _ => ⟨trivial, fits.still ⟨rfl, within_reflectWith keeps _⟩ rfl rfl⟩⟩

end

/-! ## Readers -/

/-- Data that is skipped is no list. -/
theorem serves_skipSeed : C.Serves skipSeed := by
  intro path s a t body _ _ _ _ _ t' inner member list named
  obtain rfl := C.skipped member named
  cases list with
  | list h | option h | pointer h | newtype h => cases h

/-- What is known where the types of a catalogue are read. -/
def scope (C : Watched) : Scope where
  knows w := w.schemas = C.schemas
  starts read root := ∀ muted, Keeps (read root (.walk [] muted))
  asks := False
  serves := C.Serves
  inhabited := ⟨{ schemas := C.schemas }, rfl⟩
  skips := serves_skipSeed
  keeps := False.elim

/-- Every decode made of the steps of readers ends as it has to. -/
theorem ends_of_reads {α : Type} {P : α → Prop} {m : Decode α} (h : ReadsAt C.scope q P m) :
    C.Ends q P m := by
  induction h with
  | pure given => exact ends_pure given
  | throw _ => exact ends_throw _
  | bind _ _ hm hf => exact hm.bind hf
  | tryCatch asks => exact asks.elim
  | taught _ site kind hm => exact hm.taught site kind
  | session => exact fun s fits => ended_ok fits.world trivial fits.refl
  | world => exact fun s fits => ended_ok fits.world fits.world.declared fits.refl
  | note note tree asks => exact ends_note note tree asks
  | count slot n =>
      exact fun s fits => ended_ok ⟨fits.world.declared, fits.world.registered, fits.world.entries⟩
        trivial (fits.still ⟨rfl, .refl _⟩ rfl rfl)
  | cases loud list =>
      exact ends_modifyNode loud fun _ type body _ =>
        ⟨.cases list, rfl, fun _ member => absurd member List.not_mem_nil⟩
  | compress loud count =>
      exact ends_modifyNode loud fun _ type body below =>
        ⟨_, compress_eq _ _ _, below.compress count⟩
  | @child q _ muted key seed quiet serves data walk hd hw =>
      intro s fits
      have feeds : C.Feeds q.path muted key seed := ⟨serves, fun _ _ => hd _ _ _, hw⟩
      obtain ⟨ref, body, stands⟩ : ∃ ref body, s.Stands q.path muted ⟨ref, body⟩ := by
        cases muted with
        | true => exact ⟨⟨""⟩, .plain, nofun⟩
        | false =>
            obtain ⟨ref, body, found, -⟩ := fits.node (unmuted_of quiet rfl)
            exact ⟨ref, body, fun _ => found⟩
      exact Outcome.mono (feeds.readChild fits.world stands)
        (fun _ _ ⟨world, filled⟩ => ⟨world, trivial, filled.turns quiet fits stands⟩)
        fun _ _ world => world
  | inside starts serves _ walks => exact ends_reflectInside serves walks starts _

theorem feeds_of_sown {α : Type} {seed : Seed α} (h : Sown C.scope seed) (path : Path)
    (muted : Bool) (key : String) : C.Feeds path muted key seed where
  serves := h.serves
  data origin value := ends_of_reads (h.follows aside (.data origin value) trivial)
  walk muted' _ :=
    ends_of_reads (h.follows ⟨path.child key seed.type, muted'⟩ (.walk _ muted') ⟨rfl, id⟩)

/-! ## Lists -/

/-- One shape under the numbers of some elements. -/
def alike (index count : Nat) (child : Shape) : List (String × Shape) :=
  (List.range' index count).map fun i => (Decimal.numeral i, child)

theorem alike_eq_places (count : Nat) (child : Shape) :
    alike 0 count child = places (List.replicate count child) := by
  unfold alike places
  refine List.ext_getElem (by simp) fun i h h' => ?_
  simp

section
variable {path : Path} {seed : Seed Unit} {ref : TypeRef}

/-- The elements of a list that is walked all have the shape that is cached behind the first. -/
theorem readElements_alike (h : ∀ key, C.Feeds path false key seed) {limit index left more : Nat}
    (hl : index + left = limit) (enough : left < more) {samples : List Json} {body : ShapeBody}
    (world : C.Tells s.world) (stands : s.Stands path false ⟨ref, body⟩) (takes : body.IsOpen)
    {r : Nat × SeqCursor} (run : exec (readElements (fun _ => seed) more index
      (.walk path false limit index samples)) s = (.ok r, u)) :
    ∃ child samples', child.type = seed.type ∧ r.2 = .walk path false limit limit samples' ∧
      Kept s u ∧ u.Stands path false ⟨ref, body.withFields (alike index left child)⟩ ∧
      (0 < left → ∃ sample,
        Table.get? u.world.cache (seed.type, s.session.options) = some ⟨sample, child⟩) := by
  induction left generalizing index samples more s body with
  | zero =>
      obtain ⟨more, rfl⟩ := Nat.exists_eq_succ_of_ne_zero (Nat.ne_of_gt enough)
      obtain rfl : index = limit := hl
      rw [readElements, exec_bind] at run
      unfold SeqCursor.next? at run
      dsimp only at run
      rw [if_pos (Nat.le_refl _)] at run
      obtain ⟨same, rfl⟩ := Prod.mk.inj run
      obtain rfl := Except.ok.inj same
      exact ⟨Shape.leaf seed.type, samples, rfl, rfl, .refl s, stands,
        fun none => absurd none (Nat.lt_irrefl 0)⟩
  | succ left ih =>
      obtain ⟨more, rfl⟩ := Nat.exists_eq_succ_of_ne_zero (Nat.ne_of_gt (Nat.zero_lt_of_lt enough))
      have first := (h (Decimal.numeral index)).readChild world stands
      rw [readElements, exec_bind] at run
      unfold SeqCursor.next? at run
      dsimp only at run
      rw [if_neg (by omega), exec_bind] at run
      rcases hx : exec (readChild path false (Decimal.numeral index) seed) s with ⟨_ | a, t⟩ <;>
        rw [hx] at run first
      · cases (Prod.mk.inj run).1
      obtain ⟨world', kept, -, entry, taken, tree⟩ := first
      have cached := (taken rfl takes).2
      have named := (world'.entries cached).1
      dsimp only at run
      rw [exec_bind, exec_takeSample] at run
      obtain ⟨child, samples', -, same, kept', stands', cached'⟩ := ih
        (show index + 1 + left = limit by omega) (show left < more by omega)
        (show C.Tells (t.inSession (Note.sample .null).apply).world from world')
        (show State.Stands _ path false ⟨ref, body.withField (Decimal.numeral index) entry.shape⟩
          from fun _ => (congrArg (·.at? path.keys) tree).trans (Shape.at?_setAt (stands rfl) _))
        (takes.withField _ _) run
      have kept' : Kept t u := .trans (.noted t (.sample .null)) kept'
      have found := kept'.cache _ _ cached
      -- the entry behind the first element still stands, so the others were served it
      have served : alike (index + 1) left child = alike (index + 1) left entry.shape := by
        rcases Nat.eq_zero_or_pos left with rfl | some
        · rfl
        · obtain ⟨sample, found'⟩ := cached' some
          rw [show (t.inSession (Note.sample .null).apply).session.options = s.session.options from
            kept.options, found] at found'
          rw [Option.some.inj found']
      rw [served] at stands'
      exact ⟨entry.shape, samples', named, same, kept.trans kept', stands', fun _ => ⟨_, found⟩⟩

end

theorem Tells.began (world : C.Tells s.world) (t : TypeExpr) : C.Tells (s.began t).world := by
  obtain ⟨counts, began⟩ := s.began_recount t
  rw [began]
  exact ⟨world.declared, world.registered, world.entries⟩

/-- A walk of a list leaves it with its elements told once, if any are asked for and it is not cut
off. -/
theorem readSeq_tells {path : Path} {ref : TypeRef} {seed : Seed Unit}
    (h : ∀ key, C.Feeds path false key seed) (world : C.Tells s.world)
    (stands : s.Stands path false ⟨ref, .plain⟩)
    (run : exec (readSeq (fun _ => seed) none (.walk path false)) s = (.ok (), u)) :
    ∃ body, u.Stands path false ⟨ref, body⟩ ∧ (body.TellsOnce seed.type ∨ body = .plain ∧
      (s.session.options.maxSequenceLength = 0 ∨ s.session.inCycle path = true)) := by
  generalize hl :
    (if s.session.inCycle path then 0 else s.session.options.maxSequenceLength) = limit
  have answer : exec (Source.walkAnswer path false .seq) s =
      (.ok (.seq (.walk path false limit 0 [])), s) := hl ▸ rfl
  unfold readSeq readOpen SeqCursor.read at run
  rw [exec_bind, exec_ask_walk _ answer] at run
  dsimp only at run
  rw [exec_bind, exec_bind] at run
  rcases hx : exec (readElements (fun _ => seed) _ 0 (.walk path false limit 0 [])) s with
    ⟨_ | ⟨n, cursor⟩, t⟩ <;> rw [hx] at run
  · cases (Prod.mk.inj run).1
  obtain ⟨child, samples, named, rfl, kept, stands', -⟩ :=
    readElements_alike h (Nat.zero_add limit) (Nat.lt_succ_self _) world stands trivial hx
  dsimp only [exec_pure] at run
  rw [exec_bind, lands_closeSeq stands'] at run
  obtain rfl := (Prod.mk.inj run).2
  refine ⟨_, stands'.landed _ _ _, ?_⟩
  rw [kept.options]
  cases hc : s.session.inCycle path with
  | true =>
      rw [hc, if_pos rfl] at hl
      exact .inr ⟨hl ▸ rfl, .inr rfl⟩
  | false =>
      rw [hc, if_neg Bool.false_ne_true] at hl
      have closed := closedSequence_places limit (List.replicate limit child)
      rw [List.length_replicate, tupleBody_replicate, ← alike_eq_places] at closed
      rw [hl, closed]
      split
      · next none => exact .inr ⟨rfl, .inl none⟩
      · exact .inl ⟨child, named, rfl⟩

/-- A walk of a type that succeeds is one of its layout, within a smaller allowance, and was not
stopped. -/
theorem walk_of_layout {t : TypeExpr} {layout : Layout} (h : t.layout? C.schemas = some layout)
    {path : Path} {ref : TypeRef} {depth : Nat} (world : C.Tells s.world)
    (stands : s.Stands path false ⟨ref, .plain⟩)
    (run : exec (readUncut C.watched depth t (.walk path false)) s = (.ok (), u)) :
    ∃ less s', depth = less + 1 ∧ s'.session = s.session ∧ C.Tells s'.world ∧
      s'.Stands path false ⟨ref, .plain⟩ ∧ s.session.cuts C.watched path = false ∧
      exec (layout.read (readUncut C.watched less) (.walk path false)) s' = (.ok (), u) := by
  cases depth with
  | zero => cases (Prod.mk.inj run).1
  | succ less =>
      obtain ⟨counts, began⟩ := s.began_recount t
      rw [exec_readUncut] at run
      split at run
      · cases (Prod.mk.inj run).1
      · next goes =>
        rw [exec_layout h _ _ world.declared] at run
        exact ⟨less, s.began t, rfl, by rw [began]; rfl, world.began t, began ▸ stands,
          Bool.eq_false_iff.mpr goes, run⟩

/-- What excuses a list that a walk leaves without elements: none are asked for, or it is cut off
and its type is not watched. -/
def Excuses (C : Watched) (session : Session) (path : Path) : Prop :=
  session.options.maxSequenceLength = 0 ∨
    ∃ segment, path.getLast? = some segment ∧ C.watched session.options segment.type = false

/-- So does a walk of the layers around a list. -/
theorem readUncut_tells {t inner : TypeExpr} (h : t.ListOf C.schemas inner) {path : Path}
    {ref : TypeRef} {depth : Nat} (member : C.types t)
    (sown : ∀ less < depth, ∀ {p}, C.types p → Sown C.scope (seedOf (readUncut C.watched less) p))
    (world : C.Tells s.world) (stands : s.Stands path false ⟨ref, .plain⟩)
    (run : exec (readUncut C.watched depth t (.walk path false)) s = (.ok (), u)) :
    ∃ body, u.Stands path false ⟨ref, body⟩ ∧
      (body.TellsOnce inner.ref ∨ body = .plain ∧ C.Excuses s.session path) := by
  induction h generalizing depth s with
  | list layout =>
      obtain ⟨less, s', rfl, same, world, stands, goes, run⟩ :=
        walk_of_layout layout world stands run
      have part := C.parts member _ ((mem_parts_iff layout _).mpr (List.mem_singleton_self _))
      obtain ⟨body, stands, told⟩ := readSeq_tells
        (feeds_of_sown (sown less (Nat.lt_succ_self _) part) path false) world stands run
      refine ⟨body, stands, told.imp_right fun ⟨plain, why⟩ => ⟨plain, ?_⟩⟩
      rw [same] at why
      exact why.imp_right (Session.unwatched_of_inCycle goes)
  | pointer layout _ ih =>
      obtain ⟨less, s', rfl, same, world, stands, -, run⟩ := walk_of_layout layout world stands run
      have part := C.parts member _ ((mem_parts_iff layout _).mpr (List.mem_singleton_self _))
      rw [← same]
      exact ih part (fun least h => sown least (Nat.lt_succ_of_lt h)) world stands run
  | newtype layout _ ih =>
      obtain ⟨less, s', rfl, same, world, stands, -, run⟩ := walk_of_layout layout world stands run
      have part := C.parts member _ ((mem_parts_iff layout _).mpr (List.mem_singleton_self _))
      rw [← same]
      refine ih part (fun least h => sown least (Nat.lt_succ_of_lt h)) world stands ?_
      rwa [Layout.read, readNewtype, exec_bind, exec_ask_walk _ rfl] at run
  | option layout _ ih =>
      obtain ⟨less, s', rfl, same, world, stands, goes, run⟩ :=
        walk_of_layout layout world stands run
      have part := C.parts member _ ((mem_parts_iff layout _).mpr (List.mem_singleton_self _))
      have answer := exec_walkAnswer_option s' path false
      unfold Layout.read readOption at run
      rw [← same] at goes ⊢
      split at answer
      · next cycle =>
        rw [exec_bind, exec_ask_walk _ answer] at run
        obtain rfl := (Prod.mk.inj run).2
        exact ⟨.plain, stands, .inr ⟨rfl, .inr (Session.unwatched_of_inCycle goes cycle)⟩⟩
      · rw [exec_bind, exec_ask_walk _ answer] at run
        exact ih part (fun least h => sown least (Nat.lt_succ_of_lt h)) world stands run

/-- Where the readers inside are sown, a reader of a type of the catalogue serves. -/
theorem serves_readUncut {t : TypeExpr} {depth : Nat} (member : C.types t)
    (sown : ∀ less < depth, ∀ {p}, C.types p → Sown C.scope (seedOf (readUncut C.watched less) p)) :
    C.Serves (seedOf (readUncut C.watched depth) t) := by
  intro path s a u body last run world leaf found t' inner member' list named _
  obtain rfl := C.apart member member' named
  obtain ⟨body', stands, told⟩ := readUncut_tells list member sown world (fun _ => leaf) run
  obtain rfl := (Shape.mk.inj (Option.some.inj ((stands rfl).symm.trans found))).2
  refine told.imp_right (And.imp_right (Or.imp_right ?_))
  rintro ⟨segment, here, unwatched⟩
  exact last segment here ▸ unwatched

theorem covers : C.scope.Covers (readUncut C.watched) C.types where
  parts known member := known ▸ C.parts member
  roots known member := known ▸ C.roots member
  starts _ _ _ _ depth _ := keeps_readUncut depth _ _
  asks known member asks := by
    rw [known, C.asks member] at asks
    cases asks
  serves := serves_readUncut

/-! ## Histories -/

/-- A reflection that stops at cuts of watched types tells their elements once. -/
theorem reflectUncut_tells (call : Call) (member : C.types call.type) (d : Nat) {w : World}
    (world : C.Tells w) :
    C.Tells (exec (call.uncut d C.watched) w).2 ∧
      ∀ shape, (exec (call.uncut d C.watched) w).1 = .ok shape → C.Told call.options shape := by
  have sown := layered_readUncut.sown covers d member
  exact reflectWith_tells sown.serves
    (fun muted => ends_of_reads (sown.follows ⟨[], muted⟩ _ ⟨rfl, id⟩)) call.options call.context
    world

theorem tells_of_empty {w : World} (declared : w.schemas = C.schemas)
    (registered : w.registry = C.registry) (empty : w.cache = []) : C.Tells w :=
  ⟨declared, registered, fun found => by rw [empty] at found; cases found⟩

/-- A history that is not stopped at a cut keeps such a world. -/
theorem Tells.after {w : World} (world : C.Tells w) (d : Nat) {calls : List Call}
    (members : ∀ call ∈ calls, C.types call.type)
    (uncut : ∀ before call rest, calls = before ++ call :: rest →
      exec (call.uncut d C.watched) (w.after d before) = exec (call.reflect d) (w.after d before)) :
    C.Tells (w.after d calls) := by
  induction calls generalizing w with
  | nil => exact world
  | cons call calls ih =>
      have same : exec (call.uncut d C.watched) w = exec (call.reflect d) w :=
        uncut [] call calls rfl
      have first := (reflectUncut_tells call (members _ List.mem_cons_self) d world).1
      rw [same] at first
      exact ih first (fun other ho => members other (List.mem_cons_of_mem _ ho))
        fun before next rest same => uncut (call :: before) next rest (congrArg (call :: ·) same)

theorem told_after {w : World} (declared : w.schemas = C.schemas)
    (registered : w.registry = C.registry) (empty : w.cache = []) (d : Nat) {calls : List Call}
    (members : ∀ call ∈ calls, C.types call.type) {call : Call} (member : C.types call.type)
    (uncut : ∀ before this rest, calls ++ [call] = before ++ this :: rest →
      exec (this.uncut d C.watched) (w.after d before) = exec (this.reflect d) (w.after d before))
    {shape : Shape} (run : (exec (call.reflect d) (w.after d calls)).1 = .ok shape) :
    C.Told call.options shape := by
  have world := (tells_of_empty declared registered empty).after d members
    fun before this rest same => uncut before this (rest ++ [call]) (by rw [same]; simp)
  refine (reflectUncut_tells call member d world).2 shape ?_
  rw [uncut calls call [] rfl, run]

end Watched

namespace Catalogue
variable {C : Catalogue}

/-- After every history of reflections, every list of a reflected shape that is not registered tells
one element for all. It tells nothing only if the history or the reflection cut its type off. -/
theorem sequences_told {w : World} (declared : w.schemas = C.schemas)
    (registered : w.registry = C.registry) (empty : w.cache = []) (d : Nat) {calls : List Call}
    (members : ∀ call ∈ calls, C.types call.type) {call : Call} (member : C.types call.type)
    (asked : 1 ≤ call.options.maxSequenceLength) {shape : Shape}
    (run : (exec (call.reflect d) (w.after d calls)).1 = .ok shape)
    {node : Shape} (inside : node ∈ shape.nodes) {t inner : TypeExpr}
    (list : t.ListOf C.schemas inner) (named : node.type = t.ref) (known : C.types t)
    (unregistered : C.registry.documentationOf? t.ref = none) :
    (∃ child : Shape, child.type = inner.ref ∧
        node.body = .fields [(Shape.elementsKey, child)]) ∨
      node.body = .plain ∧ CutOff d w (calls ++ [call]) call.options node.type := by
  -- whatever is watched, a history that does not stop there leaves what a watched reader does
  have told (watched : Options → TypeRef → Bool)
      (uncut : ∀ before this rest, calls ++ [call] = before ++ this :: rest →
        exec (this.uncut d watched) (w.after d before) =
          exec (this.reflect d) (w.after d before)) :=
    Watched.told_after (C := ⟨C, watched⟩) declared registered empty d members member uncut run node
      inside known list named unregistered
  by_cases cut : CutOff d w (calls ++ [call]) call.options node.type
  · refine (told (fun _ _ => false) fun _ this _ _ => ?_).imp_right fun ⟨plain, _⟩ => ⟨plain, cut⟩
    rw [Call.uncut, readUncut_unwatched]
    rfl
  · refine .inl ((told (only call.options node.type) fun before this rest same => ?_).resolve_right
      ?_)
    · by_contra other
      exact cut ⟨before, this, rest, same, other⟩
    · rintro ⟨-, none | unwatched⟩
      · omega
      · exact absurd unwatched (by simp [only])

/-! ## Trees whose branches are lists -/

namespace Forest

def slot : Slot := ⟨"T0", "api::model::T<0>"⟩

def tree : TypeExpr := .declared slot

def branches : TypeExpr := .vec tree

def grafts : TypeExpr := .option branches

def rings : TypeExpr := .vec (.int .u8)

def trunk : Slot := ⟨"T1", "api::model::T<1>"⟩

def schemas : Schemas :=
  [(slot, .record "Tree" [⟨"branches", branches, false⟩, ⟨"grafts", grafts, false⟩,
      ⟨"trunk", .declared trunk, false⟩] false),
    (trunk, .newtype "Trunk" rings)]

def types : List TypeExpr := [tree, branches, grafts, .declared trunk, rings, .int .u8]

def catalogue : Catalogue where
  schemas := schemas
  registry := []
  types := (· ∈ types)
  parts := fun h => (by decide +kernel : ∀ t ∈ types, ∀ p ∈ t.parts schemas, p ∈ types) _ h
  roots := fun h => (by decide +kernel : ∀ t ∈ types, ∀ p ∈ t.roots schemas, p ∈ types) _ h
  apart := fun {a b} ha hb =>
    (by decide +kernel : ∀ a ∈ types, ∀ b ∈ types, a.ref = b.ref → a = b) a ha b hb
  skipped := fun {t} h =>
    (by decide +kernel : ∀ t ∈ types, TypeExpr.ignored.ref = t.ref → t = .ignored) t h
  asks := fun h => (by decide +kernel : ∀ t ∈ types, t.asks schemas = false) _ h
  bodies := nofun

def few : Options := { cycleThreshold := 1, maxSequenceLength := 2 }

/-- A list of trees, reflected after a tree was. Below its one tree the lists of trees were cut off,
but not the list in the trunk. -/
def reflected : Shape :=
  ⟨grafts.ref, .fields [(Shape.elementsKey, ⟨tree.ref, .fields
    [("branches", Shape.leaf branches.ref), ("grafts", Shape.leaf grafts.ref),
      ("trunk", ⟨(TypeExpr.declared trunk).ref,
        .fields [(Shape.elementsKey, Shape.leaf (TypeExpr.int .u8).ref)]⟩)]⟩)]⟩

/-- No reflection stops at the list in the trunk. -/
theorem trunk_uncut : ¬ CutOff 12 { schemas } [⟨tree, few, []⟩, ⟨grafts, few, []⟩] few
    (TypeExpr.declared trunk).ref := by
  intro cut
  obtain ⟨before, call, rest, same, stopped⟩ := cut.stops
  rcases before with _ | ⟨first, _ | ⟨second, before⟩⟩
  · obtain ⟨rfl, -⟩ := List.cons.inj same
    exact absurd stopped (by decide +kernel)
  · obtain ⟨rfl, later⟩ := List.cons.inj same
    obtain ⟨rfl, -⟩ := List.cons.inj later
    exact absurd stopped (by decide +kernel)
  · simp at same

theorem sequences_told_grafts :
    (exec (Call.reflect ⟨grafts, few, []⟩ 12)
        (({ schemas } : World).after 12 [⟨tree, few, []⟩])).1 = .ok reflected ∧
      (∀ node ∈ reflected.nodes, node.type = grafts.ref →
        (∃ child : Shape, child.type = tree.ref ∧
          node.body = .fields [(Shape.elementsKey, child)]) ∨
        node.body = .plain ∧
          CutOff 12 { schemas } [⟨tree, few, []⟩, ⟨grafts, few, []⟩] few node.type) ∧
      ∀ node ∈ reflected.nodes, node.type = (TypeExpr.declared trunk).ref →
        ∃ child : Shape, child.type = (TypeExpr.int .u8).ref ∧
          node.body = .fields [(Shape.elementsKey, child)] := by
  have run : (exec (Call.reflect ⟨grafts, few, []⟩ 12)
      (({ schemas } : World).after 12 [⟨tree, few, []⟩])).1 = .ok reflected := by decide +kernel
  have member : catalogue.types (Call.type ⟨grafts, few, []⟩) := show grafts ∈ types by decide
  have told {node : Shape} (inside : node ∈ reflected.nodes) {t inner : TypeExpr}
      (list : t.ListOf schemas inner) (named : node.type = t.ref) (known : t ∈ types) :=
    sequences_told (C := catalogue) (w := { schemas }) rfl rfl rfl 12
      (show ∀ call ∈ [(⟨tree, few, []⟩ : Call)], call.type ∈ types by decide)
      member (show 1 ≤ few.maxSequenceLength by decide) run inside list named known rfl
  refine ⟨run, fun node inside named => ?_, fun node inside named => ?_⟩
  · exact told inside (.option rfl (.list rfl)) named (by decide)
  · exact (told inside (.newtype rfl (.list rfl)) named (by decide)).resolve_right
      fun cut => trunk_uncut (named ▸ cut.2)

/-- The branches of the tree were cut off. -/
example : CutOff 12 { schemas } [⟨tree, few, []⟩, ⟨grafts, few, []⟩] few branches.ref :=
  ⟨[], _, _, rfl, fun same => absurd (congrArg Prod.fst same) (by decide +kernel)⟩

end Forest
end Catalogue
end Walk
end ApiAtlas
