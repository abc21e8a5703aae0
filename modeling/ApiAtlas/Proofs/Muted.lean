import ApiAtlas.Proofs.Isolation
import ApiAtlas.Proofs.Recorded
import ApiAtlas.Proofs.Stability

/-!
# Muted decodes leave no trace

A muted decode records nothing and caches nothing: not where it reads, not under any key below, and
not for any type, whether it succeeds or fails. The payload of a variant is read muted, and so are
the keys of a map and a registered type without a placeholder; so an enumeration that is read where
it may be recorded lists its cases and nothing else.

What remains of a muted decode in the world are the counts of the readers that ran, and what
reflections leave that a reader starts inside: they begin anew, at a root of their own. Their
entries are new ones for the default options, and without such readers the cache stays as it is.
-/
namespace ApiAtlas

/-- A type is among some types, or read or reflected inside one of them. -/
def TypeExpr.Among (schemas : Schemas) (types : List TypeExpr) (p : TypeExpr) : Prop :=
  ∃ t ∈ types, t.Involves schemas p

namespace Walk
open Decode Reader

/-- What the readers of types, and those inside, do to a world besides recording: they are counted,
and reflect what their schemas say from the beginning. -/
inductive World.Stirs (types : List TypeExpr) (w : World) : World → Prop
  | counted (slot : Slot) (n : Nat) : Stirs types w { w with counts := Table.put w.counts slot n }
  | reflected (depth : Nat) {type root : TypeExpr} (among : TypeExpr.Among w.schemas types type)
      (h : root ∈ type.roots w.schemas) : Stirs types w (exec (reflectWithin depth root {} []) w).2

abbrev World.Stirred (types : List TypeExpr) : World → World → Prop :=
  Relation.ReflTransGen (World.Stirs types)

/-- A decode left nothing in the tree, and nothing in the world but what its readers do besides. -/
structure State.Traceless (types : List TypeExpr) (s t : State) : Prop where
  tree : t.session.tree = s.session.tree
  world : s.world.Stirred types t.world

namespace State.Traceless
variable {types : List TypeExpr} {s t u : State}

theorem refl (s : State) : Traceless types s s := ⟨rfl, .refl⟩

theorem trans (h : Traceless types s t) (h' : Traceless types t u) : Traceless types s u :=
  ⟨h'.tree.trans h.tree, h.world.trans h'.world⟩

end State.Traceless

/-- The schemas are known, and the readers of types, and those inside, reflect what they say. -/
def Scope.declaring (schemas : Schemas) (types : List TypeExpr) : Scope where
  knows w := w.schemas = schemas
  starts read root := (∃ depth, read = readType depth) ∧
    ∃ type, TypeExpr.Among schemas types type ∧ root ∈ type.roots schemas
  asks := True
  serves _ := True
  inhabited := ⟨{ schemas }, rfl⟩
  skips := trivial
  keeps _ := ⟨trivial, trivial⟩

theorem Scope.covers_declaring (schemas : Schemas) (types : List TypeExpr) :
    (declaring schemas types).Covers readType (TypeExpr.Among schemas types) where
  parts := by
    rintro w t rfl ⟨first, member, involved⟩ p inside
    exact ⟨first, member, involved.tail (.inl inside)⟩
  roots := by
    rintro w t rfl ⟨first, member, involved⟩ p inside
    exact ⟨first, member, involved.tail (.inr inside)⟩
  starts := by
    rintro w t rfl among root member depth
    exact ⟨⟨depth, rfl⟩, t, among, member⟩
  asks _ _ _ := trivial
  serves _ _ := trivial

/-- The readers of some types are sown. -/
theorem sown_readType_of_mem (schemas : Schemas) (depth : Nat) (types : List TypeExpr) :
    ∀ type ∈ types, Sown (.declaring schemas types) (seedOf (readType depth) type) :=
  fun type member =>
    layered_readType.sown (Scope.covers_declaring schemas types) depth ⟨type, member, .refl⟩

/-- The readers of some types take their steps where they are sent. -/
theorem follows_readType_of_mem (schemas : Schemas) (depth : Nat) (types : List TypeExpr) :
    ∀ type ∈ types, Follows (.declaring schemas types) (readType depth type) :=
  fun type member => (sown_readType_of_mem schemas depth types type member).follows

/-- The schemas stay, and a muted decode leaves no trace. -/
def Law.silent (schemas : Schemas) (types : List TypeExpr) (muted : Bool) : Law where
  holds s := s.world.schemas = schemas
  stops _ := True
  rel s t := muted = true → s.Traceless types t
  refl s _ := .refl s
  trans first second muted := (first muted).trans (second muted)

namespace Decode
variable {α β : Type} {schemas : Schemas} {types : List TypeExpr} {b muted : Bool} {s : State}

abbrev Silent (schemas : Schemas) (types : List TypeExpr) (muted : Bool) (m : Decode α) : Prop :=
  Obeys (.silent schemas types muted) m

/-- Where a decode may record, it only has to keep the schemas. -/
theorem Obeyed.loosen {x : Except Stop α × State} (h : Obeyed (.silent schemas types muted) s x)
    (quiet : b = true → muted = true) : Obeyed (.silent schemas types b) s x :=
  ⟨h.stops, h.holds, fun hb => h.rel (quiet hb)⟩

theorem Obeys.loosen {m : Decode α} (h : Silent schemas types muted m)
    (quiet : b = true → muted = true) : Silent schemas types b m :=
  fun s hs => (h s hs).loosen quiet

/-- What comes after a run, and leaves tree and world as they are. -/
theorem Obeyed.followed {x : Except Stop α × State} (h : Obeyed (.silent schemas types b) s x)
    {y : Except Stop β × State} (tree : y.2.session.tree = x.2.session.tree)
    (world : y.2.world = x.2.world) : Obeyed (.silent schemas types b) s y := by
  refine ⟨fun _ _ => trivial, ?_, fun hb => (h.rel hb).trans ⟨tree, by rw [world]⟩⟩
  have holds : x.2.world.schemas = schemas := h.holds
  show y.2.world.schemas = schemas
  rw [world, holds]

theorem silent_note {note : Note} (h : ∀ tree, note ≠ .tree tree) :
    Silent schemas types b (modifySession note.apply) :=
  fun s hs => (obeys_pure () s hs).followed (Note.apply_tree h s.session) rfl

theorem silent_setSample (v : Json) : Silent schemas types b (setSample v) :=
  have plain : ∀ tree, Note.sample v ≠ .tree tree := nofun
  silent_note plain

/-- A step that may only be taken where the walk is not muted. -/
theorem silent_of_loud {m : Decode α}
    (h : ∀ s, (exec m s).2.world.schemas = s.world.schemas) : Silent schemas types false m :=
  fun s hs => ⟨fun _ _ => trivial, (h s).trans hs, nofun⟩

theorem silent_modifyNode (path : Path) (f : Shape → Shape) :
    Silent schemas types false (modifyNode path f) := by
  refine silent_of_loud fun s => ?_
  rw [exec_modifyNode]
  split <;> rfl

theorem silent_recordField (path : Path) (key : String) (child : Shape) :
    Silent schemas types false (recordField path key child) := by
  refine silent_of_loud fun s => ?_
  rw [exec_recordField]
  split
  · rfl
  · split
    · rfl
    · split <;> rfl

theorem silent_insertCache (type : TypeRef) (entry : CacheEntry) :
    Silent schemas types false (insertCache type entry) :=
  silent_of_loud fun _ => rfl

/-! ## Reading under a key -/

section
variable {parent : Path} {key : String} {seed : Seed α}

theorem serves_silent (quiet : b = true → muted = true)
    (hd : ∀ v, Silent schemas types b (seed.run (.data .replay v))) :
    Serves (.silent schemas types b) parent muted key seed where
  stops _ := trivial
  sample := silent_setSample
  data := hd
  record loud child := (silent_recordField parent key child).loosen (loud ▸ quiet)

theorem silent_descend
    (h : Silent schemas types muted (seed.run (.walk (parent.child key seed.type) muted))) :
    Silent schemas types muted (descend parent muted key seed) := by
  intro s hs
  rw [exec_descend]
  dsimp only
  split
  · exact (obeys_pure () s hs).followed (State.leaving_tree _ _) rfl
  · have entered := h (s.entering ⟨key, seed.type⟩) hs
    have walked : Obeyed (.silent schemas types muted) s
        (exec (seed.run _) (s.entering ⟨key, seed.type⟩)) :=
      ⟨entered.stops, entered.holds, fun hm => ⟨(entered.rel hm).tree, (entered.rel hm).world⟩⟩
    generalize exec (seed.run _) _ = x at walked ⊢
    obtain ⟨stop | a, t⟩ := x
    · refine walked.followed ((State.taught_tree _ _ _).trans (State.leaving_tree t _)) ?_
      cases stop <;> rfl
    · have left : Obeyed (.silent schemas types muted) s
          ((.ok a, t.leaving ⟨key, seed.type⟩) : Except Stop α × State) :=
        walked.followed (State.leaving_tree t _) rfl
      dsimp only [cacheWalked]
      split
      · next recorded =>
        -- only what was recorded is cached
        obtain rfl : muted = false := by
          simp only [Bool.and_eq_true, Bool.not_eq_true'] at recorded
          exact recorded.1
        split
        · exact ⟨fun _ _ => trivial, left.holds, nofun⟩
        · exact left.followed rfl rfl
      · exact left

theorem silent_walkChild (quiet : b = true → muted = true)
    (hw : ∀ muted', (muted = true → muted' = true) →
      Silent schemas types muted' (seed.run (.walk (parent.child key seed.type) muted'))) :
    Silent schemas types b (walkChild parent muted key seed) := by
  refine Obeys.loosen ?_ quiet
  unfold walkChild
  cases muted with
  | true => exact silent_descend (hw true id)
  | false =>
      exact ((silent_recordField parent key (Shape.leaf seed.type)).map (! ·)).bind fun refused =>
        (silent_descend (hw refused nofun)).loosen nofun

theorem silent_readChild (quiet : b = true → muted = true)
    (hd : ∀ v, Silent schemas types b (seed.run (.data .replay v)))
    (hw : ∀ muted', (muted = true → muted' = true) →
      Silent schemas types muted' (seed.run (.walk (parent.child key seed.type) muted'))) :
    Silent schemas types b (readChild parent muted key seed) :=
  (serves_silent quiet hd).readChild
    (fun loud entry => (silent_insertCache _ entry).loosen (loud ▸ quiet))
    ((silent_descend (hw true fun _ => rfl)).loosen fun _ => rfl) (silent_walkChild quiet hw)

end

/-! ## Reflections -/

theorem schemas_reflectWithin (depth : Nat) (root : TypeExpr) (w : World) :
    (exec (reflectWithin depth root {} []) w).2.schemas = w.schemas :=
  (spared_reflectWithin depth {} (fun _ _ _ _ => rfl) []).schemas

theorem silent_reflectInside (depth : Nat) {type root : TypeExpr}
    (among : TypeExpr.Among schemas types type) (member : root ∈ type.roots schemas)
    (style : Style) :
    Silent schemas types b (reflectInside (readType depth) style root) := by
  rintro s rfl
  rw [exec_reflectInside]
  exact ⟨fun _ _ => trivial, schemas_reflectWithin depth root s.world,
    fun _ => ⟨rfl, .single (.reflected depth among member)⟩⟩

theorem upheld_silent (schemas : Schemas) (types : List TypeExpr) :
    Upheld (.declaring schemas types) fun q => .silent schemas types q.muted where
  knows := id
  stops _ := trivial
  note known := silent_note known
  count slot n := fun _ hs => ⟨fun _ _ => trivial, hs, fun _ => ⟨rfl, .single (.counted slot n)⟩⟩
  cases cases unmuted := by
    rw [unmuted]
    exact silent_modifyNode _ _
  compress count unmuted := by
    rw [unmuted]
    exact silent_modifyNode _ _
  child quiet hd hw := silent_readChild quiet (hd _) hw
  inside := by
    rintro q read style root ⟨⟨depth, rfl⟩, type, among, member⟩ -
    exact silent_reflectInside depth among member style

/-- Every reader that takes its steps at a muted spot leaves no trace. -/
theorem Reads.traceless {m : Decode α} {path : Path}
    (h : Reads (.declaring s.world.schemas types) ⟨path, true⟩ m) :
    s.Traceless types (exec m s).2 :=
  ((upheld_silent s.world.schemas types).obeys h s rfl).rel rfl

/-! ## What is read muted -/

/-- Muted walks of a root record nothing at it. -/
theorem traceless_walkRoot (depth : Nat) (type : TypeExpr) (options : Options)
    (context : List (String × Json)) (walks : Nat) (hints : Hints) (w : World) :
    w.Stirred [type] (exec (walkRoot (readType depth) type options context true walks hints) w).2 ∧
    ∀ shape sample,
      (exec (walkRoot (readType depth) type options context true walks hints) w).1 =
        .ok (shape, sample) → shape = Shape.leaf type.ref := by
  have root (w : World) : Silent w.schemas [type] true (readRoot (readType depth) type true) := by
    refine Obeys.onFault ?_ fun fault => ?_
    · exact (upheld_silent w.schemas [type]).obeys (q := ⟨[], true⟩)
        (follows_readType_of_mem _ depth _ type (List.mem_singleton_self type) _ _ ⟨rfl, id⟩)
    · exact @silent_note _ _ _ (.lesson [] .any fault) nofun
  have once (hints : Hints) (w : World) :
      State.Traceless [type] (rootState type options context hints w)
        (exec (readRoot (readType depth) type true) (rootState type options context hints w)).2 :=
    (root w (rootState type options context hints w) rfl).rel rfl
  refine walkRoot_ends (P := fun w x => w.Stirred [type] x.2 ∧ ∀ shape sample,
      x.1 = .ok (shape, sample) → shape = Shape.leaf type.ref) (fun _ _ => ⟨.refl, nofun⟩)
    (fun hints w => ?_)
    (fun hints w x later => ⟨(once hints w).world.trans later.1, later.2⟩) walks hints w
  have ended := once hints w
  generalize exec (readRoot (readType depth) type true) _ = x at ended ⊢
  obtain ⟨_ | _, t⟩ := x
  · exact ⟨ended.world, nofun⟩
  · refine ⟨ended.world, fun shape sample same => ?_⟩
    obtain rfl := (Prod.mk.inj (Except.ok.inj same)).1
    exact ended.tree

/-- Asked for an enumeration, the walk lists the cases at the node, or fails before that. -/
theorem exec_ask_enumeration (path : Path) (title : String) (variants : List String)
    (expecting : String) (s : State) :
    (∃ stop, exec ((Source.walk path false).ask (.enumeration title variants) expecting) s =
      (.error stop, s)) ∨
    ∃ tree variant,
      s.session.tree.modifyAt? (fun node => node.setCases (variants.map fun v => ⟨none, v⟩))
        path.keys = some tree ∧
      exec ((Source.walk path false).ask (.enumeration title variants) expecting) s =
        (.ok ⟨.variant (.walk path variant), .engine, none⟩,
          s.inSession (Note.tree tree).apply) := by
  unfold Source.ask Source.walkAnswer
  rw [exec_bind, exec_bind, exec_session]
  dsimp only
  cases variants.isEmpty with
  | true => exact .inl ⟨_, rfl⟩
  | false =>
      rw [if_neg Bool.false_ne_true, if_pos (by rfl), exec_bind, exec_modifyNode]
      cases s.session.tree.modifyAt? _ path.keys with
      | none => exact .inl ⟨_, rfl⟩
      | some tree => exact .inr ⟨tree, _, rfl, rfl⟩

/-- An enumeration read where it may be recorded lists its cases; its payload leaves no trace. -/
theorem traceless_readEnumeration (depth : Nat) (path : Path) (name : String)
    (variants : List (String × VariantContent)) (s : State) :
    let types := variants.flatMap fun variant => variant.2.parts
    let x := exec (readEnumeration (readType depth) name variants (.walk path false)) s
    (∃ stop, x = (.error stop, s)) ∨
    s.world.Stirred types x.2.world ∧
      s.session.tree.modifyAt? (fun node => node.setCases (variants.map fun v => ⟨none, v.1⟩))
        path.keys = some x.2.session.tree := by
  intro types
  unfold readEnumeration
  dsimp only
  rw [exec_bind]
  rcases exec_ask_enumeration path name (variants.map Prod.fst) ("enum " ++ name) s with
    ⟨stop, asked⟩ | ⟨tree, variant, recorded, asked⟩
  · rw [asked]
    exact .inl ⟨stop, rfl⟩
  · rw [asked]
    dsimp only
    right
    rw [List.map_map] at recorded
    have chosen {m : Decode Unit} (h : Reads (.declaring s.world.schemas types) ⟨path, true⟩ m) :
        s.world.Stirred types (exec m (s.inSession (Note.tree tree).apply)).2.world ∧
        s.session.tree.modifyAt? (fun node => node.setCases (variants.map fun v => ⟨none, v.1⟩))
          path.keys = some (exec m (s.inSession (Note.tree tree).apply)).2.session.tree := by
      have rest := h.traceless (s := s.inSession (Note.tree tree).apply)
      exact ⟨rest.world, recorded.trans (congrArg some rest.tree.symm)⟩
    refine chosen ?_
    split
    · next payload found =>
      have here : (VariantCursor.walk path variant).At ⟨path, true⟩ := rfl
      refine reads_readContent (fun type inside => ?_) here
      refine sown_readType_of_mem _ depth types type ?_
      exact List.mem_flatMap.mpr ⟨_, Table.mem_of_get? found, inside⟩
    · exact .refuse _ _

end Decode

/-! ## What remains -/

section
variable {types : List TypeExpr} {w w' : World}

/-- Only entries for the default options are added. -/
theorem World.Stirred.spared (h : w.Stirred types w') : Spared {} w w' := by
  induction h with
  | refl => exact .refl _ _
  | tail _ last ih =>
      refine ih.trans ?_
      cases last with
      | counted slot n => exact (Spared.refl {} _).counting _
      | reflected depth among member => exact spared_reflectWithin depth {} (fun _ _ _ _ => rfl) []

theorem World.Stirred.within (h : w.Stirred types w') : w.cache.Within w'.cache := by
  induction h with
  | refl => exact .refl _
  | tail _ last ih =>
      refine ih.trans ?_
      cases last with
      | counted slot n => exact .refl _
      | reflected depth among member => exact within_reflectWithin _ _ _ _ _

/-- Where no reader reflects, nothing is cached. -/
theorem World.Stirred.cache (h : w.Stirred types w')
    (roots : ∀ t, TypeExpr.Among w.schemas types t → t.roots w.schemas = []) :
    w'.cache = w.cache := by
  induction h with
  | refl => rfl
  | tail before last ih =>
      refine Eq.trans ?_ ih
      cases last with
      | counted slot n => rfl
      | @reflected depth type root among member =>
          rw [(World.Stirred.spared before).schemas] at among member
          rw [roots type among] at member
          cases member

end

/-- A muted decode leaves no trace, whatever it reads and however it ends: not a type, not a key of
a map, not the payload of a variant, not what stands under a key, and not a registered type without
a placeholder, also as a root. So an enumeration lists its cases and nothing else. What remains in
the world are counts, and entries of reflections that readers inside start themselves: new ones for
the default options, and none where no schema inside says so. -/
theorem muted_traceless (depth : Nat) (type : TypeExpr) :
    (∀ (s : State) (path : Path),
      s.Traceless [type] (exec (readType depth type (.walk path true)) s).2 ∧
      (∀ kind, s.Traceless [] (exec (readKey (readType depth) kind (.walk path true)) s).2) ∧
      (∀ variant (content : VariantContent), s.Traceless content.parts
        (exec (readContent (readType depth) (.walk path variant) content) s).2) ∧
      (∀ key, s.Traceless [type]
        (exec (readChild path true key (seedOf (readType depth) type)) s).2) ∧
      (∀ key body, s.Traceless [type]
        (exec (readPlaceholder path key (seedOf (readType depth) type) ⟨body, none⟩) s).2) ∧
      ∀ name (variants : List (String × VariantContent)),
        let types := variants.flatMap fun variant => variant.2.parts
        let x := exec (readEnumeration (readType depth) name variants (.walk path false)) s
        (∃ stop, x = (.error stop, s)) ∨
        s.world.Stirred types x.2.world ∧
          s.session.tree.modifyAt? (fun node => node.setCases (variants.map fun v => ⟨none, v.1⟩))
            path.keys = some x.2.session.tree) ∧
    (∀ options context walks hints w,
      let x := exec (walkRoot (readType depth) type options context true walks hints) w
      w.Stirred [type] x.2 ∧
        ∀ shape sample, x.1 = .ok (shape, sample) → shape = Shape.leaf type.ref) ∧
    ∀ types (w w' : World), w.Stirred types w' →
      w.cache.Within w'.cache ∧
      (∀ t o, o ≠ {} → Table.get? w'.cache (t, o) = Table.get? w.cache (t, o)) ∧
      ((∀ t, TypeExpr.Among w.schemas types t → t.roots w.schemas = []) → w'.cache = w.cache) := by
  refine ⟨fun s path => ?_, traceless_walkRoot depth type,
    fun types w w' stirred => ⟨stirred.within, stirred.spared.others, stirred.cache⟩⟩
  have follows := follows_readType_of_mem s.world.schemas depth
  have upheld := upheld_silent s.world.schemas [type]
  have read := follows [type] type (List.mem_singleton_self type)
  have walked (q : Spot) :
      Silent s.world.schemas [type] q.muted (readType depth type (.walk q.path q.muted)) :=
    upheld.obeys (read q _ ⟨rfl, id⟩)
  have replayed (v : Json) :
      Silent s.world.schemas [type] true (readType depth type (.data .replay v)) :=
    upheld.obeys (q := ⟨[], true⟩) (read _ _ trivial)
  refine ⟨?_, fun kind => ?_, fun variant content => ?_, fun key => ?_, fun key body => ?_,
    fun name variants => traceless_readEnumeration depth path name variants s⟩
  · exact Reads.traceless (read ⟨path, true⟩ _ ⟨rfl, id⟩)
  · exact Reads.traceless (follows_readKey _ kind ⟨path, true⟩ _ ⟨rfl, id⟩)
  · have here : (VariantCursor.walk path variant).At ⟨path, true⟩ := rfl
    exact Reads.traceless (reads_readContent (sown_readType_of_mem _ depth content.parts) here)
  · have quiet : true = true → true = true := id
    exact (silent_readChild quiet replayed (fun muted' _ => walked ⟨_, muted'⟩) s rfl).rel rfl
  · exact (silent_descend (walked ⟨_, true⟩) s rfl).rel rfl

namespace Payload

def choice : TypeExpr := .declared ⟨"T0", "api::model::T<0>"⟩
def content : TypeExpr := .declared ⟨"T1", "api::model::T<1>"⟩
def hidden : TypeExpr := .declared ⟨"T2", "api::model::T<2>"⟩

/-- The reader of the only payload reflects another type first. -/
def schemas : Schemas :=
  [(⟨"T0", "api::model::T<0>"⟩, .enumeration "Choice" [("A", .newtype content)]),
    (⟨"T1", "api::model::T<1>"⟩, .reflect hidden (.int .u8)),
    (⟨"T2", "api::model::T<2>"⟩, .delegate (.int .u8))]

def world : World := { schemas }

/-- A shape that is seen only inside a payload enters the cache by a reflection inside. -/
theorem payload_reflection_cached :
    let s := rootState choice {} [] [] world
    let x := exec (readType 8 content (.walk [⟨"A", content.ref⟩] true)) s
    let y := exec (reflectWithin 8 choice {} []) world
    s.world.cache.map Prod.fst = [] ∧
    x.1 = .ok () ∧ x.2.world.cache.map Prod.fst = [(hidden.ref, {})] ∧
    y.1 = .ok ⟨choice.ref, .cases [⟨none, "A"⟩]⟩ ∧
    y.2.cache.map Prod.fst = [(hidden.ref, {}), (choice.ref, {})] := by
  decide +kernel

end Payload
end Walk
end ApiAtlas
