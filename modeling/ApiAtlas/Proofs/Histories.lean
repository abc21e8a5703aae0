import ApiAtlas.Proofs.Plain
import ApiAtlas.Run

/-!
# Settled shapes over histories

Cached shapes of plain types stay settled, whatever is reflected and whether it succeeds. A walk
of any type keeps this, since every type that stands on the way down holds the type that is being
read: so a plain type is never walked inside itself, and its own walk lands.
-/
namespace ApiAtlas.Walk
open Decode Reader

variable {schemas : Schemas} {registry : Registry} {U : TypeExpr → Prop}
variable {o : Options} {occurrences : List (Segment × Nat)} {n d : Nat} {t : TypeExpr}

/-! ## What stands on the way down -/

/-- Every type that stands on the way down has the layers of a type, if it has any. -/
def Above (schemas : Schemas) (registry : Registry) (U : TypeExpr → Prop)
    (occurrences : List (Segment × Nat)) (t : TypeExpr) : Prop :=
  ∀ segment count, Table.get? occurrences segment = some count →
    ∃ a, U a ∧ segment.type = a.ref ∧
      ∀ n, Plain schemas registry n a → Plain schemas registry n t

/-- The way to a part. -/
theorem Above.part (h : Above schemas registry U occurrences t) {c : TypeExpr}
    (hc : c ∈ t.parts schemas) : Above schemas registry U occurrences c := by
  intro segment count found
  obtain ⟨a, member, named, layers⟩ := h segment count found
  refine ⟨a, member, named, fun n plain => ?_⟩
  exact (layers _ plain.succ).part hc

theorem Above.stepped (h : Above schemas registry U occurrences t) (member : U t) (key : String) :
    Above schemas registry U (stepped occurrences ⟨key, t.ref⟩) t := by
  intro segment count found
  by_cases same : segment = ⟨key, t.ref⟩
  · exact ⟨t, member, by rw [same], fun _ => id⟩
  · exact h segment count ((Table.get?_put_of_ne _ _ same).symm.trans found)

/-- A plain part is not inside itself, nor inside a plain type of as few layers. -/
theorem Above.clear (family : Family schemas U) (h : Above schemas registry U occurrences t)
    {c : TypeExpr} (hc : c ∈ t.parts schemas) (member : U c) (key : String) :
    ClearFor schemas registry U key c occurrences := by
  intro n plain more
  constructor
  · intro a key' member' plain'
    by_contra present
    obtain ⟨count, found⟩ := Option.ne_none_iff_exists'.mp present
    obtain ⟨b, memberB, named, layers⟩ := h _ _ found
    obtain rfl := family.apart member' memberB named
    exact more ((layers _ plain'.succ).part hc)
  · by_contra present
    obtain ⟨count, found⟩ := Option.ne_none_iff_exists'.mp present
    obtain ⟨b, memberB, named, layers⟩ := h _ _ found
    obtain rfl := family.apart member memberB named
    exact more ((layers _ plain).part hc)

/-! ## Walks that succeed -/

/-- Where a successful walk of a plain type ends, whatever its allowance. -/
theorem walked_settled (family : Family schemas U) (good : o.Good) (member : U t)
    (plain : Plain schemas registry (n + 1) t) {s u : State} {path : Path}
    (way : (∃ zero, t.zero? schemas = some zero) ∨ Positive s.session.occurrences ∧
      Clear schemas registry U n s.session.occurrences ∧ s.session.inCycle path = false)
    (fits : PlainWorld schemas registry U s.world) (options : s.session.options = o)
    (leaf : s.session.tree.at? path.keys = some (Shape.leaf t.ref))
    (run : exec (readType d t (.walk path false)) s = (.ok (), u)) :
    ∃ body, u.session.tree.at? path.keys = some ⟨t.ref, body⟩ ∧
      Settled schemas registry U u.world o false (n + 1) t body u.session.sample ∧
      PlainGrowth schemas registry U o s.session.hints t n s.world u.world ∧
      (s.session.hints = [] → Opens schemas t body) := by
  have same := readType_mono (Nat.le_max_left d (n + 1)) t (.walk path false) s (by rw [run]; nofun)
  rw [run] at same
  have stands : s.Stands path false ⟨t.ref, .plain⟩ := fun _ => leaf
  rcases way with ⟨zero, scalar⟩ | ⟨positive, clear, uncut⟩
  · obtain ⟨D, hD⟩ := Nat.exists_eq_add_of_le' (Nat.le_max_right d (n + 1))
    have exact' := scalar_walked scalar (readType (D + n)) path false fits.declared
    rw [hD, show D + (n + 1) = D + n + 1 from rfl, readType, exact'] at same
    obtain rfl := (Prod.mk.inj same).2
    obtain ⟨counts, began⟩ := s.began_recount t
    rw [began]
    exact ⟨.plain, leaf, .inl ⟨scalar, rfl⟩, .of_cache rfl, fun _ => opens_of_zero scalar⟩
  · have lands := reads_plain family good n member plain s.session.occurrences s.session.hints path
      false positive clear (by
        rw [← uncut, ← options]
        rfl)
    obtain ⟨body, sample, w, ran, -, grows, settled, opens⟩ := lands s t.ref
      ⟨options, rfl, rfl, fits⟩ stands
    rw [Filter.eventually_principal.mp ran _ (Nat.le_max_right d (n + 1))] at same
    obtain rfl := (Prod.mk.inj same).2
    exact ⟨body, stands.landed _ _ _ rfl, settled, grows, opens⟩

/-! ## Every walk keeps settled shapes -/

/-- Equal states of a walk with some options and counts of steps, in a world of settled shapes. -/
def Bond.plain (schemas : Schemas) (registry : Registry) (U : TypeExpr → Prop) (o : Options)
    (occurrences : List (Segment × Nat)) : Bond schemas where
  rel s t := s = t ∧ s.session.options = o ∧ s.session.occurrences = occurrences ∧
    PlainWorld schemas registry U s.world
  first := False
  second := False
  session := fun ⟨same, _⟩ => by rw [same]
  declared := fun ⟨same, _, _, fits⟩ => ⟨fits.declared, same ▸ fits.declared⟩
  note := fun note ⟨same, options, counted, fits⟩ =>
    ⟨by rw [same], (note.apply_options _).trans options, (note.apply_occurrences _).trans counted,
      fits⟩
  counted := fun _ ⟨same, options, counted, fits⟩ =>
    ⟨by rw [same], options, counted, fits.recounted rfl rfl rfl⟩

variable {α : Type} {run : Source → Decode α}

/-- What a seed of a type allows under a key: a walk of it is one of the type. -/
theorem passage_plain (family : Family schemas U) (positive : Positive occurrences) (member : U t)
    (parent : Path) (key : String)
    (way : ∀ n, o.Good → Plain schemas registry (n + 1) t → ¬ Plain schemas registry n t →
      (∃ zero, t.zero? schemas = some zero) ∨
        Clear schemas registry U n occurrences ∧ Table.get? occurrences ⟨key, t.ref⟩ = none)
    (walks : ∀ path s a u, exec (run (.walk path false)) s = (.ok a, u) →
      ∃ d, exec (readType d t (.walk path false)) s = (.ok (), u)) :
    Passage (Bond.plain schemas registry U o occurrences)
      (Bond.plain schemas registry U o (stepped occurrences ⟨key, t.ref⟩)) parent key t.ref run
      run where
  cached := fun h => by rw [h.1]
  registered := fun h => by rw [h.1]
  first := id
  second := id
  enter := fun ⟨same, options, counted, fits⟩ =>
    ⟨by rw [same], options, by rw [State.entering_occurrences, counted], fits⟩
  leave := fun {s u} ⟨same, options, counted, fits⟩ => by
    have left := positive.left counted
    exact ⟨by rw [same], by simp [left, options], by simp [left], fits⟩
  walked := fun {s _ u v a shape} ⟨_, options, counted, fits⟩ fresh _ ran _ found
      ⟨same, options', counted', fits'⟩ => by
    refine ⟨by rw [← same], options', counted', ?_⟩
    show PlainWorld schemas registry U ((u.leaving _).world.caching t.ref _ _)
    rw [options']
    refine fits'.caching family member (fun _ _ documented => ?_) fun m good plain => ?_
    · cases (fits.registered ▸ fresh.unregistered).symm.trans documented
    obtain ⟨n, -, least, more⟩ := plain.least
    obtain ⟨d, walk⟩ := walks _ _ _ _ ran
    have entered : (s.entering ⟨key, t.ref⟩).session.occurrences =
        stepped occurrences ⟨key, t.ref⟩ := by
      rw [State.entering_occurrences, counted]
    obtain ⟨body, node, settled, grows, -⟩ := walked_settled (s := s.entering ⟨key, t.ref⟩)
      family good member least ((way n good least more).imp_right fun ⟨clear, fresh⟩ => by
        refine ⟨entered ▸ positive.stepped _,
          entered ▸ clear.stepped family member more key, ?_⟩
        have once := good.positive
        rw [Session.inCycle, Session.occurrencesAt_child, entered, stepped, Table.get?_put_self,
          fresh]
        exact decide_eq_false (Nat.not_lt.mpr (options.symm ▸ once)))
      fits options fresh.leaf walk
    obtain rfl := Option.some.inj (found.symm.trans node)
    refine ⟨?_, body, _, rfl, settled⟩
    by_contra present
    obtain ⟨t', member', plain', -, same⟩ := grows.plain (options ▸ fresh.uncached) present
    exact more (family.apart member' member (Prod.mk.inj same).1.symm ▸ plain')
  documented := fun {s _ u v a custom} ⟨_, options, counted, fits⟩ registered ran _
      ⟨same, options', counted', fits'⟩ => by
    refine ⟨by rw [← same], options', counted', ?_⟩
    show PlainWorld schemas registry U (u.world.caching t.ref u.session.options _)
    rw [fits.registered] at registered
    refine fits'.caching family member (fun body placeholder documented => ?_)
      fun n good plain => ?_
    · obtain rfl := Option.some.inj (registered.symm.trans documented)
      rw [sample_of_placeholder ran]
    · rw [plain.unregistered] at registered
      cases registered

/-- Equal worlds of settled shapes. -/
def SamePlain (schemas : Schemas) (registry : Registry) (U : TypeExpr → Prop) (w w' : World) :
    Prop :=
  w = w' ∧ PlainWorld schemas registry U w

/-- Walks of a root that is not plain, or under other options, cache no shape of a plain type for
it. -/
theorem entry_plain (family : Family schemas U) (member : U t)
    (foreign : ∀ n, o.Good → ¬ Plain schemas registry n t) (read : TypeReader)
    (context : List (String × Json)) :
    Entry (SamePlain schemas registry U) (SamePlain schemas registry U)
      (Bond.plain schemas registry U o []) read t o context where
  cached := fun h => by rw [h.1]
  registered := fun h => by rw [h.1]
  start := fun _ ⟨same, fits⟩ => ⟨by rw [same], rfl, rfl, fits⟩
  finish := fun ⟨same, _, _, fits⟩ => ⟨by rw [same], fits⟩
  weaken := id
  walked := fun {w _ _ _ _ _ _} ⟨_, fits⟩ unregistered _ _ ⟨same, fits'⟩ => by
    refine ⟨by rw [same], fits'.caching family member (fun _ _ documented => ?_) fun n good plain =>
      absurd plain (foreign n good)⟩
    cases (fits.registered ▸ unregistered).symm.trans documented
  placed := fun body placeholder ⟨same, fits⟩ registered => by
    rw [fits.registered] at registered
    refine ⟨by rw [same], fits.caching family member (fun _ _ documented => ?_) fun n good plain =>
      absurd plain (foreign n good)⟩
    cases Option.some.inj (registered.symm.trans documented)
    rfl
  documented := fun ⟨_, fits⟩ registered _ _ ⟨same, fits'⟩ => by
    rw [fits.registered] at registered
    refine ⟨by rw [same], fits'.caching family member (fun _ _ documented => ?_) fun n good plain =>
      absurd plain (foreign n good)⟩
    cases Option.some.inj (registered.symm.trans documented)

/-- Every walk of a type of the family keeps a world of settled shapes. -/
def KeepsSettled (schemas : Schemas) (registry : Registry) (U : TypeExpr → Prop) (d : Nat) : Prop :=
  ∀ o occurrences t, U t → Positive occurrences → Above schemas registry U occurrences t →
    ∀ source, Agree (Bond.plain schemas registry U o occurrences) (readType d t source)
      (readType d t source)

theorem above_nil : Above schemas registry U [] t := by
  intro segment count found
  cases found

/-- The walk of a plain root under good options settles its shape, unless the allowance is used
up. -/
theorem exec_walkRoot_plain (family : Family schemas U) (good : o.Good) (member : U t)
    (plain : Plain schemas registry n t) (keeps : KeepsSettled schemas registry U d)
    (context : List (String × Json)) (walks : Nat) (hints : Hints) {w : World}
    (fits : PlainWorld schemas registry U w) (uncached : Table.get? w.cache (t.ref, o) = none) :
    ∃ u, PlainWorld schemas registry U u ∧
      (exec (walkRoot (readType d) t o context false (walks + 1) hints) w = (.error .depth, u) ∧
          d < n ∨
        ∃ body m sample,
          exec (walkRoot (readType d) t o context false (walks + 1) hints) w =
            (.ok (⟨t.ref, body⟩, sample), u) ∧
          Settled schemas registry U u o false m t body sample ∧
          (hints = [] → Opens schemas t body) ∧
          PlainGrowth schemas registry U o hints t n w u ∧
          Table.get? u.cache (t.ref, o) = none) := by
  obtain ⟨k, within, least, more⟩ := plain.least
  have clear : Clear schemas registry U k [] := fun _ _ _ _ => rfl
  have kept := keeps o [] t member positive_nil above_nil (.walk [] false)
    (rootState t o context hints w) (rootState t o context hints w) ⟨rfl, rfl, rfl, fits⟩
  rw [exec_walkRoot]
  unfold readRoot
  rw [exec_onFault]
  rcases hx : exec (readType d t (.walk [] false)) (rootState t o context hints w) with ⟨r, u⟩
  rw [hx] at kept
  obtain ⟨-, -, -, -, fits'⟩ := (kept.resolve_left fun h => h.1).resolve_left fun h => h.1
  obtain ⟨body, sample, w', ran, -, -, -⟩ :=
    reads_plain family good k member least [] hints [] false
    positive_nil clear (decide_eq_false (Nat.not_lt_zero _)) (rootState t o context hints w) t.ref
    ⟨rfl, rfl, rfl, fits⟩ fun _ => rfl
  have ran := Filter.eventually_principal.mp ran _ (Nat.le_max_right d (k + 1))
  by_cases used : r = .error .depth
  · subst used
    refine ⟨u.world, fits', .inl ⟨rfl, ?_⟩⟩
    by_contra enough
    rw [Nat.max_eq_left (show k + 1 ≤ d by omega), hx] at ran
    cases (Prod.mk.inj ran).1
  · have same := readType_mono (Nat.le_max_left d (k + 1)) t (.walk [] false)
      (rootState t o context hints w) (by rw [hx]; exact used)
    rw [ran, hx] at same
    obtain rfl : r = .ok () := (Prod.mk.inj same).1.symm
    obtain ⟨body, node, settled, grows, opens⟩ := walked_settled family good member least
      (.inr ⟨positive_nil, clear, rfl⟩) fits rfl rfl hx
    refine ⟨u.world, fits', .inr ⟨body, _, u.session.sample, ?_, settled, opens,
      grows.mono (Nat.le_of_succ_le within) .refl, ?_⟩⟩
    · rw [← Option.some.inj node]
    · by_contra present
      obtain ⟨t', member', plain', -, same⟩ := grows.plain uncached present
      exact more (family.apart member' member (Prod.mk.inj same).1.symm ▸ plain')

/-- Reflecting a type of the family keeps a world of settled shapes. -/
theorem reflectWith_keeps (family : Family schemas U) (keeps : KeepsSettled schemas registry U d)
    (member : U t) (o : Options) (context : List (String × Json)) {w : World}
    (fits : PlainWorld schemas registry U w) :
    PlainWorld schemas registry U (exec (reflectWith (readType d) t o context) w).2 := by
  by_cases foreign : ∀ n, o.Good → ¬ Plain schemas registry n t
  · have both := (entry_plain family member foreign (readType d) context).reflectWith
      (fun muted => keeps o [] t member (fun _ _ found => by cases found) above_nil _) ⟨rfl, fits⟩
    exact ((both.resolve_left fun h => h.1).resolve_left fun h => h.1).2.2
  · obtain ⟨n, hn⟩ := not_forall.mp foreign
    obtain ⟨good, plain⟩ := Classical.not_imp.mp hn
    have plain := not_not.mp plain
    rw [exec_reflectWith]
    cases cached : Table.get? w.cache (t.ref, o) with
    | some entry => exact fits
    | none =>
        rw [fits.registered, plain.unregistered]
        dsimp only
        obtain ⟨u, fits', ⟨ends, -⟩ | ⟨body, m, sample, ends, settled, -, -, absent⟩⟩ :=
          exec_walkRoot_plain family good member plain keeps context 63 [] fits cached
        · rw [show maxWalks = 63 + 1 from rfl, ends]
          exact fits'
        · rw [show maxWalks = 63 + 1 from rfl, ends]
          exact fits'.caching family member
            (fun _ _ documented => by cases plain.unregistered.symm.trans documented)
            fun _ _ _ => ⟨absent, body, m, rfl, settled⟩

/-! ## Own values and parts -/

/-- A reader of its own values: it reads no type inside, and its type is plain only as a scalar.
Where a walk of it succeeds, one of its type does. -/
structure ReadsOwn (schemas : Schemas) (registry : Registry) (t : TypeExpr)
    (run : Source → Decode α) : Prop where
  scalar : ∀ n, Plain schemas registry n t → ∃ zero, t.zero? schemas = some zero
  agrees : ∀ {B : Bond schemas} source, Agree B (run source) (run source)
  walks : ∀ path s a u, exec (run (.walk path false)) s = (.ok a, u) →
    ∃ d, exec (readType d t (.walk path false)) s = (.ok (), u)

theorem readsOwn_text : ReadsOwn schemas registry (.text .string) readText where
  scalar _ _ := ⟨_, rfl⟩
  agrees := agree_readText
  walks path s a u ran := by
    refine ⟨1, ?_⟩
    show exec ((fun _ => ()) <$> readText (.walk path false)) s = _
    rw [exec_map, ran]

theorem readsOwn_value : ReadsOwn schemas registry .value readValue where
  scalar _ plain := by
    obtain ⟨m, rfl⟩ := plain.layers
    obtain ⟨-, scalar | ⟨layout, hl, -⟩⟩ := plain
    · exact scalar
    · cases hl
  agrees := agree_readValue
  walks path s a u ran := by
    refine ⟨1, ?_⟩
    show exec ((fun _ => ()) <$> readValue (.walk path false)) s = _
    rw [exec_map, ran]

theorem readsOwn_ignored : ReadsOwn schemas registry .ignored skipValue where
  scalar _ _ := ⟨_, rfl⟩
  agrees := agree_skipValue
  walks _ _ _ _ ran := ⟨1, ran⟩

/-- A reader of its own values keeps settled shapes under every key. -/
theorem ReadsOwn.settled (own : ReadsOwn schemas registry t run) (family : Family schemas U)
    (positive : Positive occurrences) (member : U t) (path : Path) (muted : Bool) (key : String) :
    Agree (Bond.plain schemas registry U o occurrences) (readChild path muted key ⟨t.ref, run⟩)
      (readChild path muted key ⟨t.ref, run⟩) :=
  (passage_plain family positive member path key
    (fun _ _ plain _ => .inl (own.scalar _ plain)) own.walks).readChild
    (fun _ => own.agrees _) (fun _ => own.agrees _) muted

/-- A part keeps settled shapes under every key. -/
theorem Above.settled_part (family : Family schemas U) (keeps : KeepsSettled schemas registry U d)
    (positive : Positive occurrences) (above : Above schemas registry U occurrences t)
    (member : U t) {c : TypeExpr} (hc : c ∈ t.parts schemas) (path : Path) (muted : Bool)
    (key : String) :
    Agree (Bond.plain schemas registry U o occurrences)
      (readChild path muted key (seedOf (readType d) c))
      (readChild path muted key (seedOf (readType d) c)) := by
  have memberC := family.parts member c hc
  refine (passage_plain family positive memberC path key
    (fun n _ plain more => .inr (above.clear family hc memberC key n plain more))
    fun _ _ _ _ ran => ⟨d, ran⟩).readChild (fun v => ?_) (fun _ => ?_) muted
  · exact keeps o occurrences c memberC positive (above.part hc) _
  · exact keeps o _ c memberC (positive.stepped _) ((above.part hc).stepped memberC key) _

theorem keeps_settled (family : Family schemas U) (d : Nat) :
    KeepsSettled schemas registry U d := by
  induction d with
  | zero => exact fun _ _ _ _ _ _ _ _ _ h => .inr (.inr ⟨rfl, h⟩)
  | succ d ih =>
      intro o occurrences t member positive above source
      refine Relies.readTypeWith ⟨fun c hc =>
          ⟨fun source => ih o occurrences c (family.parts member c hc) positive
            (above.part hc) source, above.settled_part family ih positive member hc⟩,
          fun root hr style => ?_, readsOwn_text.settled family positive family.text,
          readsOwn_value.settled family positive family.value,
          readsOwn_ignored.settled family positive family.ignored⟩
        (fun _ _ _ _ => .inr fun _ _ hst => by rw [hst.1]) source
      refine agree_reflectInside (I := SamePlain schemas registry U) id id
        (fun {s u} h => ?_) (fun {w w'} ⟨same, fits⟩ => ?_) style
      · obtain ⟨same, options, counted, fits⟩ := h
        exact ⟨⟨by rw [same], fits⟩, fun w w' ⟨same', fits'⟩ =>
          ⟨by rw [same, same'], options, counted, fits'⟩⟩
      · refine .inr (.inr ⟨by rw [same], by rw [same], ?_⟩)
        exact reflectWith_keeps family ih (family.roots member root hr) {} [] fits

/-! ## Histories -/

/-- A reflection that is asked for. -/
structure Call where
  type : TypeExpr
  options : Options
  context : List (String × Json)

/-- The step of a run that asks for the reflection. -/
def Call.step (call : Call) : Step := .reflect call.type call.options call.context

/-- The world after reflections, one after the other. -/
def World.after (d : Nat) (w : World) (calls : List Call) : World :=
  calls.foldl
    (fun w call => (exec (reflectWithin d call.type call.options call.context) w).2) w

/-- A run of reflections leaves the world after them. -/
theorem runAll_calls (w : World) (calls : List Call) :
    (Step.runAll w (calls.map Call.step)).2 = w.after defaultDepth calls := by
  induction calls generalizing w with
  | nil => rfl
  | cons call calls ih => exact ih _

theorem plainWorld_of_empty {w : World} (declared : w.schemas = schemas)
    (registered : w.registry = registry) (empty : w.cache = []) :
    PlainWorld schemas registry U w :=
  ⟨declared, registered, fun _ _ found => (by rw [empty] at found; cases found),
    fun _ _ _ found => (by rw [empty] at found; cases found)⟩

/-- Shapes of plain types stay settled over every history. -/
theorem PlainWorld.after (family : Family schemas U) {w : World}
    (fits : PlainWorld schemas registry U w) (d : Nat) {calls : List Call}
    (members : ∀ call ∈ calls, U call.type) : PlainWorld schemas registry U (w.after d calls) := by
  induction calls generalizing w with
  | nil => exact fits
  | cons call calls ih =>
      exact ih (reflectWith_keeps family (keeps_settled family d) (members _ List.mem_cons_self)
        call.options call.context fits) fun other ho => members other (List.mem_cons_of_mem _ ho)

/-- Reflecting a plain type in a world of settled shapes gives a settled shape. -/
theorem reflectWithin_plain (family : Family schemas U) (good : o.Good) (member : U t)
    (plain : Plain schemas registry n t) (enough : n ≤ d) (context : List (String × Json))
    {w : World} (fits : PlainWorld schemas registry U w) :
    ∃ body m sample u, exec (reflectWithin d t o context) w = (.ok ⟨t.ref, body⟩, u) ∧
      PlainWorld schemas registry U u ∧
      PlainGrowth schemas registry U o [] t n w u ∧
      Table.get? u.cache (t.ref, o) = some ⟨sample, ⟨t.ref, body⟩⟩ ∧
      Settled schemas registry U u o false m t body sample := by
  have kept := reflectWith_keeps family (keeps_settled family d) member o context fits
  unfold reflectWithin
  rw [exec_reflectWith] at kept ⊢
  cases cached : Table.get? w.cache (t.ref, o) with
  | some entry =>
      obtain ⟨body, m, shape, settled⟩ := fits.entries good member plain cached
      refine ⟨body, m, entry.sample, w, by rw [← shape], fits, .refl w, ?_, settled⟩
      rw [cached, ← shape]
  | none =>
      rw [cached, fits.registered, plain.unregistered] at kept
      rw [fits.registered, plain.unregistered]
      dsimp only at kept ⊢
      obtain ⟨u, -, ⟨-, short⟩ | ⟨body, m, sample, ends, settled, opens, grown, absent⟩⟩ :=
        exec_walkRoot_plain family good member plain
          (keeps_settled family d) context 63 [] fits cached
      · omega
      · rw [show maxWalks = 63 + 1 from rfl, ends] at kept ⊢
        have taken : PlainGrowth schemas registry U o [] t n u
            (u.caching t.ref o ⟨sample, ⟨t.ref, body⟩⟩) :=
          .caching family member plain .refl absent opens
        exact ⟨body, m, sample, _, rfl, kept, grown.trans taken, Table.get?_put_self _ _ _,
          settled.kept taken.keeps⟩

end ApiAtlas.Walk
