import ApiAtlas.Proofs.Readers

/-!
# Runs of reflections

What reflecting a type from the beginning does to a world, and what two ways of reading keep when
they reflect: as under a key, the shape is cached behind the walk.
-/
namespace ApiAtlas.Walk
open Decode

/-- A world with a cached shape. -/
def World.caching (w : World) (type : TypeRef) (options : Options) (entry : CacheEntry) : World :=
  { w with cache := Table.put w.cache (type, options) entry }

/-- The end of the walks of a root: the shape is made of what was recorded, and cached. -/
def cacheRoot (type : TypeRef) (options : Options) (shapeOf : Shape → Shape) :
    Except Stop (Shape × Json) × World → Except Stop Shape × World
  | (.ok (shape, sample), w) =>
      (.ok (shapeOf shape), w.caching type options ⟨sample, shapeOf shape⟩)
  | (.error stop, w) => (.error stop, w)

section
variable (read : TypeReader) (type : TypeExpr) (options : Options)
variable (context : List (String × Json))

/-- The state that a walk of a root starts from. -/
abbrev rootState (hints : Hints) (w : World) : State :=
  ⟨w, Session.start type.ref options context hints⟩

theorem exec_walkRoot (muted : Bool) (walks : Nat) (hints : Hints) (w : World) :
    exec (walkRoot read type options context muted (walks + 1) hints) w =
      match exec (readRoot read type muted) (rootState type options context hints w) with
      | (.ok (), t) => (.ok (t.session.tree, t.session.sample), t.world)
      | (.error (.fault fault), t) =>
          if t.session.revised then
            exec (walkRoot read type options context muted walks t.session.hints) t.world
          else (.error (.fault fault), t.world)
      | (.error stop, t) => (.error stop, t.world) := by
  rw [walkRoot, exec_bind, exec_get]
  dsimp only
  rw [show walkOnce read type options context muted hints w =
    exec (readRoot read type muted) (rootState type options context hints w) from rfl]
  rcases exec (readRoot read type muted) _ with ⟨r, t⟩
  rcases r with (fault | _ | _ | _) | a
  · show exec (if t.session.revised then _ else _) t.world = if t.session.revised then _ else _
    cases t.session.revised <;> rfl
  all_goals rfl

/-- What a walk of a root ends with, if it is the last one. -/
def endOfWalk : Except Stop Unit × State → Except Stop (Shape × Json) × World
  | (.ok (), t) => (.ok (t.session.tree, t.session.sample), t.world)
  | (.error stop, t) => (.error stop, t.world)

variable {read type options context}

/-- What holds of every last walk of a root, and of walks after others if it holds of them alone,
holds of all walks of the root. -/
theorem walkRoot_ends {muted : Bool} {P : World → Except Stop (Shape × Json) × World → Prop}
    (used : ∀ w fault, P w (.error (.fault fault), w))
    (last : ∀ hints w, P w (endOfWalk (exec (readRoot read type muted)
      (rootState type options context hints w))))
    (before : ∀ hints w x, P (exec (readRoot read type muted)
      (rootState type options context hints w)).2.world x → P w x)
    (walks : Nat) (hints : Hints) (w : World) :
    P w (exec (walkRoot read type options context muted walks hints) w) := by
  induction walks generalizing hints w with
  | zero => exact used w _
  | succ walks ih =>
      have ended := last hints w
      have again := before hints w
      rw [exec_walkRoot]
      generalize exec (readRoot read type muted) _ = x at ended again ⊢
      obtain ⟨r, t⟩ := x
      rcases r with (fault | _ | _ | _) | a
      · dsimp only
        split
        · exact again _ (ih _ _)
        · exact ended
      all_goals exact ended

variable (read type options context)

theorem exec_reflectWith (w : World) :
    exec (reflectWith read type options context) w =
      match Table.get? w.cache (type.ref, options) with
      | some entry => (.ok entry.shape, w)
      | none =>
          match w.registry.documentationOf? type.ref with
          | some ⟨body, some placeholder⟩ =>
              (.ok ⟨type.ref, body⟩,
                w.caching type.ref options ⟨placeholder, ⟨type.ref, body⟩⟩)
          | some ⟨body, none⟩ =>
              cacheRoot type.ref options (fun _ => ⟨type.ref, body⟩)
                (exec (walkRoot read type options context true maxWalks []) w)
          | none =>
              cacheRoot type.ref options id
                (exec (walkRoot read type options context false maxWalks []) w) := by
  unfold reflectWith
  rw [exec_bind, exec_get]
  dsimp only
  cases Table.get? w.cache (type.ref, options) with
  | some entry => rfl
  | none =>
      dsimp only
      rcases w.registry.documentationOf? type.ref with _ | ⟨body, _ | placeholder⟩
      · simp only [exec_bind]
        rcases exec (walkRoot read type options context false maxWalks []) w with ⟨_ | _, t⟩ <;> rfl
      · simp only [exec_bind, exec_map]
        rcases exec (walkRoot read type options context true maxWalks []) w with ⟨_ | _, t⟩ <;> rfl
      · rfl

end

/-- What a bond has to allow for reflections of a type to lead from one relation of worlds to
another: to find the same under the type, to walk from the root, where the bond holds, and to cache
what was recorded. -/
structure Entry {schemas : Schemas} (I J : World → World → Prop) (B : Bond schemas)
    (read : TypeReader) (type : TypeExpr) (options : Options) (context : List (String × Json)) :
    Prop where
  cached : ∀ {w w'}, I w w' →
    Table.get? w.cache (type.ref, options) = Table.get? w'.cache (type.ref, options)
  registered : ∀ {w w'}, I w w' →
    w.registry.documentationOf? type.ref = w'.registry.documentationOf? type.ref
  start : ∀ {w w'} hints, I w w' →
    B.rel (rootState type options context hints w) (rootState type options context hints w')
  finish : ∀ {s t}, B.rel s t → I s.world t.world
  weaken : ∀ {w w'}, I w w' → J w w'
  walked : ∀ {w₀ w₀' w w' : World} {hints} {t : State} {v : World}, I w₀ w₀' →
    w₀.registry.documentationOf? type.ref = none → I w w' →
    exec (readRoot read type false) (rootState type options context hints w) = (.ok (), t) →
    I t.world v →
    J (t.world.caching type.ref options ⟨t.session.sample, t.session.tree⟩)
      (v.caching type.ref options ⟨t.session.sample, t.session.tree⟩)
  placed : ∀ {w w'} body placeholder, I w w' →
    w.registry.documentationOf? type.ref = some ⟨body, some placeholder⟩ →
    J (w.caching type.ref options ⟨placeholder, ⟨type.ref, body⟩⟩)
      (w'.caching type.ref options ⟨placeholder, ⟨type.ref, body⟩⟩)
  documented : ∀ {w₀ w₀' w w' : World} {body hints} {t : State} {v : World}, I w₀ w₀' →
    w₀.registry.documentationOf? type.ref = some ⟨body, none⟩ → I w w' →
    exec (readRoot read type true) (rootState type options context hints w) = (.ok (), t) →
    I t.world v →
    J (t.world.caching type.ref options ⟨t.session.sample, ⟨type.ref, body⟩⟩)
      (v.caching type.ref options ⟨t.session.sample, ⟨type.ref, body⟩⟩)

section
variable {schemas : Schemas} {I J : World → World → Prop} {B : Bond schemas}
variable {read read' : TypeReader} {type : TypeExpr} {options : Options}
variable {context : List (String × Json)}

theorem agree_readRoot {muted : Bool}
    (h : Agree B (read type (.walk [] muted)) (read' type (.walk [] muted))) :
    Agree B (readRoot read type muted) (readRoot read' type muted) :=
  h.onFault fun _ => agree_revise _ _ _

/-- Walks of a root end alike, where it is known which relation the last walk leaves. -/
theorem Entry.walkRoot (e : Entry I J B read type options context) {muted : Bool}
    (h : Agree B (read type (.walk [] muted)) (read' type (.walk [] muted)))
    (shapeOf : Shape → Shape)
    (cached : ∀ {w w' : World} {hints} {t : State} {v : World}, I w w' →
      exec (readRoot read type muted) (rootState type options context hints w) = (.ok (), t) →
      I t.world v →
      J (t.world.caching type.ref options ⟨t.session.sample, shapeOf t.session.tree⟩)
        (v.caching type.ref options ⟨t.session.sample, shapeOf t.session.tree⟩))
    (walks : Nat) (hints : Hints) {w w' : World} (hw : I w w') :
    Matching B.first B.second J
      (cacheRoot type.ref options shapeOf
        (exec (walkRoot read type options context muted walks hints) w))
      (cacheRoot type.ref options shapeOf
        (exec (walkRoot read' type options context muted walks hints) w')) := by
  induction walks generalizing hints w w' with
  | zero => exact .inr (.inr ⟨rfl, e.weaken hw⟩)
  | succ walks ih =>
      rw [exec_walkRoot, exec_walkRoot]
      have both := agree_readRoot h _ _ (e.start hints hw)
      generalize hx : exec (readRoot read type muted) _ = x at both ⊢
      generalize exec (readRoot read' type muted) _ = y at both ⊢
      obtain ⟨r, t⟩ := x
      obtain ⟨r', t'⟩ := y
      rcases both with ⟨first, rfl⟩ | ⟨second, rfl⟩ | ⟨same, ht⟩
      · exact .inl ⟨first, rfl⟩
      · exact .inr (.inl ⟨second, rfl⟩)
      · obtain rfl : r = r' := same
        have session := B.session ht
        have kept := e.finish ht
        rcases r with (fault | _ | _ | _) | a
        · dsimp only
          rw [← session]
          split
          · exact ih _ kept
          · exact .inr (.inr ⟨rfl, e.weaken kept⟩)
        · exact .inr (.inr ⟨rfl, e.weaken kept⟩)
        · exact .inr (.inr ⟨rfl, e.weaken kept⟩)
        · exact .inr (.inr ⟨rfl, e.weaken kept⟩)
        · dsimp only [cacheRoot]
          rw [← session]
          exact .inr (.inr ⟨rfl, cached hw hx kept⟩)

theorem Entry.reflectWith (e : Entry I J B read type options context)
    (h : ∀ muted, Agree B (read type (.walk [] muted)) (read' type (.walk [] muted)))
    {w w' : World} (hw : I w w') :
    Matching B.first B.second J (exec (reflectWith read type options context) w)
      (exec (reflectWith read' type options context) w') := by
  rw [exec_reflectWith, exec_reflectWith, ← e.cached hw, ← e.registered hw]
  cases Table.get? w.cache (type.ref, options) with
  | some entry => exact .inr (.inr ⟨rfl, e.weaken hw⟩)
  | none =>
      dsimp only
      rcases hd : w.registry.documentationOf? type.ref with _ | ⟨body, _ | placeholder⟩
      · exact e.walkRoot (h false) id (e.walked hw hd) maxWalks [] hw
      · exact e.walkRoot (h true) (fun _ => ⟨type.ref, body⟩) (e.documented hw hd) maxWalks [] hw
      · exact .inr (.inr ⟨rfl, e.placed body placeholder hw hd⟩)

/-- How a decode goes on from a reflection that its reader started: the shape is dropped, and a
fault is told in the style of the data. -/
def endOfInside (style : Style) : Except Stop Shape → Except Stop Unit
  | .ok _ => .ok ()
  | .error (.fault fault) => .error (.fault (style.fault (.custom fault.message)))
  | .error stop => .error stop

theorem exec_reflectInside (read : TypeReader) (style : Style) (root : TypeExpr) (s : State) :
    exec (Reader.reflectInside read style root) s =
      (endOfInside style (exec (Walk.reflectWith read root {} []) s.world).1,
        { s with world := (exec (Walk.reflectWith read root {} []) s.world).2 }) := by
  unfold Reader.reflectInside
  simp only [exec_bind, exec_get]
  rw [show (Walk.reflectWith read root {} []).run s.world =
    exec (Walk.reflectWith read root {} []) s.world from rfl]
  rcases exec (Walk.reflectWith read root {} []) s.world with ⟨(_ | _ | _ | _) | _, w⟩ <;> rfl

/-- Reflecting a type while another is read keeps a bond that does not look at more of the worlds
than a relation that reflections keep. -/
theorem agree_reflectInside {B' : Bond schemas} {first second : Prop} (excused : first → B'.first)
    (excused' : second → B'.second)
    (world : ∀ {s t}, B'.rel s t → I s.world t.world ∧
      ∀ w w', I w w' → B'.rel { s with world := w } { t with world := w' })
    (h : ∀ {w w'}, I w w' → Matching first second I (exec (Walk.reflectWith read type {} []) w)
      (exec (Walk.reflectWith read' type {} []) w')) (style : Style) :
    Agree B' (Reader.reflectInside read style type) (Reader.reflectInside read' style type) := by
  intro s t hst
  obtain ⟨hw, back⟩ := world hst
  have both := h hw
  rw [exec_reflectInside, exec_reflectInside]
  generalize exec (Walk.reflectWith read type {} []) s.world = x at both ⊢
  generalize exec (Walk.reflectWith read' type {} []) t.world = y at both ⊢
  obtain ⟨r, u⟩ := x
  obtain ⟨r', v⟩ := y
  rcases both with ⟨first, rfl⟩ | ⟨second, rfl⟩ | ⟨same, huv⟩
  · exact .inl ⟨excused first, rfl⟩
  · exact .inr (.inl ⟨excused' second, rfl⟩)
  · obtain rfl : r = r' := same
    exact .inr (.inr ⟨rfl, back u v huv⟩)

end
end ApiAtlas.Walk
