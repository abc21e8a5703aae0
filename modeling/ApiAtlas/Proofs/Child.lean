import ApiAtlas.Proofs.Decode
import ApiAtlas.Proofs.Tree

/-!
# Runs of reading under a key

What reading the value under a key does to a state: the step is counted on the way in and taken
back on the way out, the shape is cached behind it, and a cached or registered shape is replayed
in its place.
-/
namespace ApiAtlas.Walk

/-- The way to the value under a key. -/
abbrev Path.child (parent : Path) (key : String) (type : TypeRef) : Path := parent ++ [⟨key, type⟩]

/-- A state on the way into a value. -/
abbrev State.entering (s : State) (segment : Segment) : State :=
  s.inSession fun session => session.enter segment

/-- A state on the way out of a value. -/
abbrev State.leaving (s : State) (segment : Segment) : State :=
  s.inSession fun session => session.leave segment

/-- A state with a cached shape. -/
def State.caching (s : State) (type : TypeRef) (entry : CacheEntry) : State :=
  { s with world := { s.world with
    cache := Table.put s.world.cache (type, s.session.options) entry } }

@[simp] theorem State.caching_session (s : State) (type : TypeRef) (entry : CacheEntry) :
    (s.caching type entry).session = s.session := rfl

/-- A state that took its lesson from how a value stopped. -/
def State.taught (s : State) (site : Site) : Stop → State
  | .fault fault => s.inSession (Note.lesson site .any fault).apply
  | _ => s

namespace Decode
variable {α β : Type}

/-- How a replay stops where its data is refused. -/
def rejected (type : TypeRef) : Stop → Stop
  | .fault (.decode text) =>
      .fault (.decode ("placeholder of " ++ type.name ++ " was rejected: " ++ text))
  | stop => stop

/-- How a step stops that repeats too often. -/
def runaway (type : TypeRef) (path : Path) : Stop :=
  .fault (.decode (type.name ++ " recurses at '" ++ path.text ++
    "' without an optional, sequence, map or enum in between"))

/-- The end of a walk that left a value: what it recorded is cached, unless it was muted or
depends on self-describing data. -/
def cacheWalked (type : TypeRef) (path : Path) (muted : Bool) (asked : Nat) (value : α)
    (s : State) : Except Stop α × State :=
  if !muted && s.session.anyRequests = asked then
    match s.session.tree.at? path.keys with
    | some shape => (.ok value, s.caching type ⟨s.session.sample, shape⟩)
    | none => (.error (.unrecorded path), s)
  else (.ok value, s)

theorem exec_replay (seed : Seed α) (sample : Json) (s : State) :
    exec (replay seed sample) s = match exec (seed.run (.data .replay sample)) s with
      | (.ok a, t) => (.ok a, t)
      | (.error stop, t) => (.error (rejected seed.type stop), t) := by
  unfold replay
  rw [exec_tryCatch]
  rcases exec (seed.run _) s with ⟨r, t⟩
  rcases r with ((_ | _ | _) | _ | _ | _) | a <;> rfl

theorem exec_descend (parent : Path) (muted : Bool) (key : String) (seed : Seed α) (s : State) :
    exec (descend parent muted key seed) s =
      let segment : Segment := ⟨key, seed.type⟩
      let path := parent.child key seed.type
      let s := s.entering segment
      if s.session.options.runawayLimit < s.session.occurrencesAt path then
        (.error (runaway seed.type path), s.leaving segment)
      else match exec (seed.run (.walk path muted)) s with
        | (.ok a, t) =>
            cacheWalked seed.type path muted s.session.anyRequests a (t.leaving segment)
        | (.error stop, t) => (.error stop, (t.leaving segment).taught path.site stop) := by
  unfold descend
  simp only [exec_bind, exec_modifySession, exec_session]
  split
  · rfl
  · rw [exec_bind, exec_tryCatch]
    rcases exec (seed.run _) _ with ⟨r, t⟩
    rcases r with (_ | _ | _ | _) | a
    · rfl
    · rfl
    · rfl
    · rfl
    · dsimp only
      simp only [exec_bind, exec_modifySession, exec_session]
      unfold cacheWalked
      split
      · rw [exec_bind, exec_nodeAt]
        dsimp only [State.leaving, State.entering, Path.child]
        cases (t.inSession _).session.tree.at? _ <;> rfl
      · rfl

theorem exec_recordField (path : Path) (name : String) (child : Shape) (s : State) :
    exec (recordField path name child) s =
      match s.session.tree.at? path.keys with
      | none => (.error (.unrecorded path), s)
      | some node =>
          match node.setField? name child with
          | none => (.ok false, s)
          | some node =>
              match s.session.tree.modifyAt? (fun _ => node) path.keys with
              | none => (.error (.unrecorded path), s)
              | some tree => (.ok true, s.inSession (Note.tree tree).apply) := by
  unfold recordField
  rw [exec_bind, exec_nodeAt]
  cases s.session.tree.at? path.keys with
  | none => rfl
  | some node =>
      dsimp only
      cases node.setField? name child with
      | none => rfl
      | some node =>
          dsimp only
          rw [exec_bind, exec_modifyNode]
          cases s.session.tree.modifyAt? _ _ <;> rfl

/-- Record a shape under a key, if the walk is not muted. -/
def noteField (path : Path) (muted : Bool) (key : String) (child : Shape) : Decode Unit :=
  if !muted then discard (recordField path key child) else pure ()

/-- Replay a cached shape in the place of a value. -/
def serve (parent : Path) (muted : Bool) (key : String) (seed : Seed α) (entry : CacheEntry) :
    Decode α := do
  noteField parent muted key entry.shape
  let value ← replay seed entry.sample
  setSample entry.sample
  return value

/-- Walk a value whose shape is neither cached nor registered. -/
def walkChild (parent : Path) (muted : Bool) (key : String) (seed : Seed α) : Decode α := do
  let refused ← if muted then pure true
    else (! ·) <$> recordField parent key (Shape.leaf seed.type)
  descend parent refused key seed

/-- Read a value of a registered type, short of caching it. -/
def readPlaceholder (parent : Path) (key : String) (seed : Seed α) (custom : CustomDocumentation) :
    Decode α :=
  match custom.placeholder with
  | some placeholder => do
      let value ← replay seed placeholder
      setSample placeholder
      return value
  | none => descend parent true key seed

theorem sample_of_placeholder {parent : Path} {key : String} {seed : Seed α} {body : ShapeBody}
    {placeholder : Json} {s t : State} {a : α}
    (run : exec (readPlaceholder parent key seed ⟨body, some placeholder⟩) s = (.ok a, t)) :
    t.session.sample = placeholder := by
  unfold readPlaceholder at run
  dsimp only at run
  rw [exec_bind] at run
  rcases hx : exec (replay seed placeholder) s with ⟨_ | a', u⟩ <;> rw [hx] at run
  · cases (Prod.mk.inj run).1
  · exact (Prod.mk.inj run).2 ▸ rfl

theorem readDocumented_eq (parent : Path) (muted : Bool) (key : String) (seed : Seed α)
    (custom : CustomDocumentation) :
    readDocumented parent muted key seed custom = (do
      noteField parent muted key ⟨seed.type, custom.body⟩
      let before ← session
      let value ← readPlaceholder parent key seed custom
      let after ← session
      if !muted && after.anyRequests = before.anyRequests then
        insertCache seed.type ⟨after.sample, ⟨seed.type, custom.body⟩⟩
      return value) := by
  unfold readDocumented noteField readPlaceholder
  cases custom.placeholder with
  | some placeholder => cases muted <;> simp only [bind_assoc, pure_bind] <;> rfl
  | none => cases muted <;> rfl

theorem exec_readChild (parent : Path) (muted : Bool) (key : String) (seed : Seed α) (s : State) :
    exec (readChild parent muted key seed) s =
      match Table.get? s.world.cache (seed.type, s.session.options) with
      | some entry => exec (serve parent muted key seed entry) s
      | none =>
          match s.world.registry.documentationOf? seed.type with
          | some custom => exec (readDocumented parent muted key seed custom) s
          | none => exec (walkChild parent muted key seed) s := by
  unfold readChild serve walkChild noteField
  rw [exec_bind, exec_cached?]
  dsimp only
  cases Table.get? s.world.cache (seed.type, s.session.options) with
  | some entry => cases muted <;> rfl
  | none =>
      dsimp only
      rw [exec_bind, exec_world]
      dsimp only
      cases s.world.registry.documentationOf? seed.type with
      | some custom => rfl
      | none => rfl

/-! ## Seeds whose value is changed -/

/-- A seed with its value changed. -/
def mapSeed (f : α → β) (seed : Seed α) : Seed β :=
  ⟨seed.type, fun source => f <$> seed.run source⟩

theorem replay_map (f : α → β) (seed : Seed α) (sample : Json) :
    replay (mapSeed f seed) sample = f <$> replay seed sample := by
  refine ext_exec fun s => ?_
  rw [exec_map, exec_replay, exec_replay]
  dsimp only [mapSeed]
  rw [exec_map]
  rcases exec (seed.run _) s with ⟨_ | _, t⟩ <;> rfl

theorem descend_map (f : α → β) (parent : Path) (muted : Bool) (key : String) (seed : Seed α) :
    descend parent muted key (mapSeed f seed) = f <$> descend parent muted key seed := by
  refine ext_exec fun s => ?_
  rw [exec_map, exec_descend, exec_descend]
  dsimp only [mapSeed]
  split
  · rfl
  · rw [exec_map]
    rcases exec (seed.run _) _ with ⟨_ | _, t⟩
    · rfl
    · dsimp only [cacheWalked]
      split
      · cases (t.leaving _).session.tree.at? _ <;> rfl
      · rfl

theorem readPlaceholder_map (f : α → β) (parent : Path) (key : String) (seed : Seed α)
    (custom : CustomDocumentation) :
    readPlaceholder parent key (mapSeed f seed) custom =
      f <$> readPlaceholder parent key seed custom := by
  unfold readPlaceholder
  split
  · rw [replay_map]
    simp only [map_bind, bind_map_left, map_pure]
  · exact descend_map f parent true key seed

theorem serve_map (f : α → β) (parent : Path) (muted : Bool) (key : String) (seed : Seed α)
    (entry : CacheEntry) :
    serve parent muted key (mapSeed f seed) entry = f <$> serve parent muted key seed entry := by
  unfold serve
  rw [replay_map]
  simp only [map_bind, bind_map_left, map_pure]

theorem readDocumented_map (f : α → β) (parent : Path) (muted : Bool) (key : String)
    (seed : Seed α) (custom : CustomDocumentation) :
    readDocumented parent muted key (mapSeed f seed) custom =
      f <$> readDocumented parent muted key seed custom := by
  rw [readDocumented_eq, readDocumented_eq, readPlaceholder_map]
  simp only [map_bind, bind_map_left]
  refine bind_congr fun _ => bind_congr fun _ => bind_congr fun _ => bind_congr fun _ => ?_
  split
  · rw [map_bind]; rfl
  · rfl

theorem walkChild_map (f : α → β) (parent : Path) (muted : Bool) (key : String) (seed : Seed α) :
    walkChild parent muted key (mapSeed f seed) = f <$> walkChild parent muted key seed := by
  unfold walkChild
  simp only [descend_map]
  cases muted with
  | true => rfl
  | false => exact (map_bind f _ _).symm

theorem readChild_map (f : α → β) (parent : Path) (muted : Bool) (key : String) (seed : Seed α) :
    readChild parent muted key (mapSeed f seed) = f <$> readChild parent muted key seed := by
  refine ext_exec fun s => ?_
  rw [exec_map, exec_readChild, exec_readChild]
  dsimp only [mapSeed]
  cases Table.get? s.world.cache (seed.type, s.session.options) with
  | some entry => exact (congrArg (exec · s) (serve_map f ..)).trans (exec_map ..)
  | none =>
      dsimp only
      cases s.world.registry.documentationOf? seed.type with
      | some custom => exact (congrArg (exec · s) (readDocumented_map f ..)).trans (exec_map ..)
      | none => exact (congrArg (exec · s) (walkChild_map f ..)).trans (exec_map ..)

/-! ## Agreement under a key -/

/-- A value is neither cached nor registered, and its node is recorded and empty. -/
structure Fresh (parent : Path) (key : String) (type : TypeRef) (s : State) : Prop where
  uncached : Table.get? s.world.cache (type, s.session.options) = none
  unregistered : s.world.registry.documentationOf? type = none
  leaf : s.session.tree.at? (parent.child key type).keys = some (Shape.leaf type)

/-- What a bond has to allow for decodes to agree under a key: to find the same under the type, to
step into the value, where another bond holds, to step out again, and to cache what was recorded. -/
structure Passage {schemas : Schemas} (B B' : Bond schemas) (parent : Path) (key : String)
    (type : TypeRef) (run run' : Source → Decode α) : Prop where
  cached : ∀ {s t}, B.rel s t → Table.get? s.world.cache (type, s.session.options) =
    Table.get? t.world.cache (type, t.session.options)
  registered : ∀ {s t}, B.rel s t →
    s.world.registry.documentationOf? type = t.world.registry.documentationOf? type
  first : B'.first → B.first
  second : B'.second → B.second
  enter : ∀ {s t}, B.rel s t → B'.rel (s.entering ⟨key, type⟩) (t.entering ⟨key, type⟩)
  leave : ∀ {s t}, B'.rel s t → B.rel (s.leaving ⟨key, type⟩) (t.leaving ⟨key, type⟩)
  walked : ∀ {s t u v : State} {a shape}, B.rel s t → Fresh parent key type s →
    Fresh parent key type t →
    exec (run (.walk (parent.child key type) false)) (s.entering ⟨key, type⟩) = (.ok a, u) →
    exec (run' (.walk (parent.child key type) false)) (t.entering ⟨key, type⟩) = (.ok a, v) →
    u.session.tree.at? (parent.child key type).keys = some shape →
    B.rel (u.leaving ⟨key, type⟩) (v.leaving ⟨key, type⟩) →
    B.rel ((u.leaving ⟨key, type⟩).caching type ⟨u.session.sample, shape⟩)
      ((v.leaving ⟨key, type⟩).caching type ⟨u.session.sample, shape⟩)
  documented : ∀ {s t u v : State} {a custom}, B.rel s t →
    s.world.registry.documentationOf? type = some custom →
    exec (readPlaceholder parent key ⟨type, run⟩ custom) s = (.ok a, u) →
    exec (readPlaceholder parent key ⟨type, run'⟩ custom) t = (.ok a, v) → B.rel u v →
    B.rel (u.caching type ⟨u.session.sample, ⟨type, custom.body⟩⟩)
      (v.caching type ⟨u.session.sample, ⟨type, custom.body⟩⟩)

@[simp] theorem State.leaving_sample (s : State) (segment : Segment) :
    (s.leaving segment).session.sample = s.session.sample := by
  unfold State.leaving Session.leave
  dsimp only [State.inSession_session]
  split <;> rfl

@[simp] theorem State.leaving_tree (s : State) (segment : Segment) :
    (s.leaving segment).session.tree = s.session.tree := by
  unfold State.leaving Session.leave
  dsimp only [State.inSession_session]
  split <;> rfl

@[simp] theorem State.leaving_options (s : State) (segment : Segment) :
    (s.leaving segment).session.options = s.session.options := by
  unfold State.leaving Session.leave
  dsimp only [State.inSession_session]
  split <;> rfl

@[simp] theorem State.leaving_anyRequests (s : State) (segment : Segment) :
    (s.leaving segment).session.anyRequests = s.session.anyRequests := by
  unfold State.leaving Session.leave
  dsimp only [State.inSession_session]
  split <;> rfl

section
variable {schemas : Schemas} {B B' : Bond schemas} {parent : Path} {key : String} {type : TypeRef}
variable {run run' : Source → Decode α}

theorem Passage.fresh (h : Passage B B' parent key type run run') {s t : State} (hst : B.rel s t)
    (fresh : Fresh parent key type s) : Fresh parent key type t :=
  ⟨(h.cached hst).symm.trans fresh.uncached, (h.registered hst).symm.trans fresh.unregistered,
    B.session hst ▸ fresh.leaf⟩

theorem Passage.descend (h : Passage B B' parent key type run run') {muted : Bool}
    (hr : Agree B' (run (.walk (parent.child key type) muted))
      (run' (.walk (parent.child key type) muted))) {s t : State} (hst : B.rel s t)
    (fresh : muted = false → Fresh parent key type s) :
    Match B (exec (descend parent muted key ⟨type, run⟩) s)
      (exec (descend parent muted key ⟨type, run'⟩) t) := by
  have entered := h.enter hst
  have session := B'.session entered
  rw [exec_descend, exec_descend]
  dsimp only
  rw [← session]
  split
  · exact .inr (.inr ⟨rfl, h.leave entered⟩)
  · have both := hr _ _ entered
    generalize hx : exec (run _) _ = x at both ⊢
    generalize hy : exec (run' _) _ = y at both ⊢
    obtain ⟨r, u⟩ := x
    obtain ⟨r', v⟩ := y
    rcases both with ⟨first, rfl⟩ | ⟨second, rfl⟩ | ⟨same, huv⟩
    · exact .inl ⟨h.first first, rfl⟩
    · exact .inr (.inl ⟨h.second second, rfl⟩)
    · obtain rfl : r = r' := same
      have huv : B'.rel u v := huv
      have left := h.leave huv
      refine .inr (.inr ?_)
      cases r with
      | error stop =>
          refine ⟨rfl, ?_⟩
          cases stop with
          | fault fault => exact B.note _ left
          | _ => exact left
      | ok a =>
          dsimp only [cacheWalked]
          rw [← B.session left]
          split
          · next recorded =>
            rw [State.leaving_tree, State.leaving_sample]
            cases hn : u.session.tree.at? (parent.child key type).keys with
            | none => exact ⟨rfl, left⟩
            | some shape =>
                obtain rfl : muted = false := by simp_all
                exact ⟨rfl, h.walked hst (fresh rfl) (h.fresh hst (fresh rfl)) hx hy hn left⟩
          · exact ⟨rfl, left⟩

theorem recordField_taken {path : Path} {name : String} {child : Shape} {s t : State}
    (h : exec (recordField path name child) s = (.ok true, t)) :
    t.session.tree.at? (path.keys ++ [name]) = some child ∧ t.world = s.world ∧
      t.session.options = s.session.options := by
  rw [exec_recordField] at h
  cases hn : s.session.tree.at? path.keys with
  | none => rw [hn] at h; cases (Prod.mk.inj h).1
  | some node =>
      rw [hn] at h
      dsimp only at h
      cases hf : node.setField? name child with
      | none => rw [hf] at h; cases (Prod.mk.inj h).1
      | some filled =>
          rw [hf] at h
          dsimp only at h
          rw [Shape.modifyAt?_eq_setAt _ hn] at h
          obtain rfl := (Prod.mk.inj h).2
          refine ⟨?_, rfl, rfl⟩
          obtain ⟨type, fields, rfl, found⟩ : ∃ type fields, filled = ⟨type, .fields fields⟩ ∧
              Table.get? fields name = some child := by
            obtain ⟨type, body⟩ := node
            cases body with
            | cases list => cases hf
            | plain => exact ⟨type, _, (Option.some.inj hf).symm, by simp [Table.get?]⟩
            | fields all =>
                exact ⟨type, _, (Option.some.inj hf).symm, Table.get?_insert_self _ _ _⟩
          exact (Shape.at?_child (Shape.at?_setAt hn _) name).trans found

theorem agree_noteField (path : Path) (muted : Bool) (key : String) (child : Shape) :
    Agree B (noteField path muted key child) (noteField path muted key child) := by
  unfold noteField
  split
  · exact (agree_recordField _ _ _).discard
  · exact agree_pure _

theorem agree_replay (hd : ∀ v, Agree B (run (.data .replay v)) (run' (.data .replay v)))
    (sample : Json) : Agree B (replay ⟨type, run⟩ sample) (replay ⟨type, run'⟩ sample) := by
  refine (hd sample).tryCatch (fun stop => ?_) (fun _ => rfl) (fun _ => rfl)
  split
  · exact agree_fail _
  · exact agree_throw _

theorem agree_serve (hd : ∀ v, Agree B (run (.data .replay v)) (run' (.data .replay v)))
    (muted : Bool) (entry : CacheEntry) :
    Agree B (serve parent muted key ⟨type, run⟩ entry)
      (serve parent muted key ⟨type, run'⟩ entry) :=
  (agree_noteField _ _ _ _).bind fun _ => (agree_replay hd _).bind fun _ =>
    (agree_setSample _).bind fun _ => agree_pure _

theorem Passage.walkChild (h : Passage B B' parent key type run run')
    (hr : ∀ muted, Agree B' (run (.walk (parent.child key type) muted))
      (run' (.walk (parent.child key type) muted))) (muted : Bool) {s t : State} (hst : B.rel s t)
    (uncached : Table.get? s.world.cache (type, s.session.options) = none)
    (unregistered : s.world.registry.documentationOf? type = none) :
    Match B (exec (walkChild parent muted key ⟨type, run⟩) s)
      (exec (walkChild parent muted key ⟨type, run'⟩) t) := by
  unfold Decode.walkChild
  cases muted with
  | true => exact h.descend (hr true) hst fun quiet => by cases quiet
  | false =>
      refine Match.bind (((agree_recordField parent key _).map _) s t hst)
        fun refused u v hu _ huv => h.descend (hr refused) huv fun taken => ?_
      rw [exec_map] at hu
      rcases hx : exec (recordField parent key (Shape.leaf type)) s with ⟨r, w⟩
      rw [hx] at hu
      cases r with
      | error stop => cases (Prod.mk.inj hu).1
      | ok answer =>
          obtain ⟨same, rfl⟩ := Prod.mk.inj hu
          obtain rfl : answer = true := by
            have := Except.ok.inj same
            simp_all
          obtain ⟨leaf, world, options⟩ := recordField_taken hx
          exact ⟨by rw [world, options]; exact uncached, by rw [world]; exact unregistered,
            by simpa [Path.keys] using leaf⟩

theorem noteField_world (path : Path) (muted : Bool) (key : String) (child : Shape) (s : State) :
    (exec (noteField path muted key child) s).2.world = s.world := by
  unfold noteField
  split
  · show (exec ((fun _ => ()) <$> recordField path key child) s).2.world = s.world
    rw [exec_map, exec_recordField]
    cases s.session.tree.at? path.keys with
    | none => rfl
    | some node =>
        dsimp only
        cases node.setField? key child with
        | none => rfl
        | some node =>
            dsimp only
            cases s.session.tree.modifyAt? _ _ <;> rfl
  · rfl

theorem Passage.readDocumented (h : Passage B B' parent key type run run')
    (hd : ∀ v, Agree B (run (.data .replay v)) (run' (.data .replay v)))
    (hr : Agree B' (run (.walk (parent.child key type) true))
      (run' (.walk (parent.child key type) true))) (muted : Bool) {custom : CustomDocumentation}
    {s t : State} (hst : B.rel s t) (hc : s.world.registry.documentationOf? type = some custom) :
    Match B (exec (readDocumented parent muted key ⟨type, run⟩ custom) s)
      (exec (readDocumented parent muted key ⟨type, run'⟩ custom) t) := by
  have placed : Agree B (readPlaceholder parent key ⟨type, run⟩ custom)
      (readPlaceholder parent key ⟨type, run'⟩ custom) := by
    unfold readPlaceholder
    split
    · exact (agree_replay hd _).bind fun _ => (agree_setSample _).bind fun _ => agree_pure _
    · exact fun u v huv => h.descend hr huv fun quiet => by cases quiet
  rw [readDocumented_eq, readDocumented_eq]
  refine (agree_noteField parent muted key _ s t hst).bind fun _ u v hu _ huv => ?_
  have registered : u.world.registry.documentationOf? type = some custom := by
    have world := noteField_world parent muted key ⟨type, custom.body⟩ s
    rw [hu] at world
    rw [world, hc]
  rw [exec_bind, exec_bind, exec_session, exec_session]
  dsimp only
  rw [← B.session huv]
  refine (placed u v huv).bind fun a u' v' hu' hv' huv' => ?_
  rw [exec_bind, exec_session, exec_bind, exec_session]
  dsimp only
  rw [← B.session huv']
  split
  · exact .inr (.inr ⟨rfl, h.documented huv registered hu' hv' huv'⟩)
  · exact .inr (.inr ⟨rfl, huv'⟩)

/-- Decodes that agree in place agree under a key. -/
theorem Passage.readChild (h : Passage B B' parent key type run run')
    (hd : ∀ v, Agree B (run (.data .replay v)) (run' (.data .replay v)))
    (hr : ∀ muted, Agree B' (run (.walk (parent.child key type) muted))
      (run' (.walk (parent.child key type) muted))) (muted : Bool) :
    Agree B (readChild parent muted key ⟨type, run⟩) (readChild parent muted key ⟨type, run'⟩) := by
  intro s t hst
  rw [exec_readChild, exec_readChild]
  dsimp only
  rw [← h.cached hst, ← h.registered hst]
  split
  · exact agree_serve hd muted _ s t hst
  · next uncached =>
    split
    · next hc => exact h.readDocumented hd (hr true) muted hst hc
    · next hc => exact h.walkChild hr muted hst uncached hc

end

end Decode
end ApiAtlas.Walk
