import ApiAtlas.Proofs.Lessons

/-!
# Steps on the way down

A walk counts the steps that lead to the value being decoded. Counting a step on the way in and
taking it back on the way out are apart, with a whole decode between them that may stop anywhere.

The course of a decode is the list of its moments: after each thing it does to the session, the
session and the way down to the innermost value that is being descended into. It follows the decode
step by step, also where the decode stops, catches a stop, or replays data. Reflecting another type
is one step of it, since the walks of that type have sessions of their own. Every walk has a course,
and at every moment of it the table of counts tells how often each step stands on the way down.
-/
namespace ApiAtlas

namespace Table
variable {κ α : Type} [DecidableEq κ]

theorem get?_erase_self (table : List (κ × α)) (key : κ) : get? (erase table key) key = none := by
  rw [get?_eq_none]
  intro member
  obtain ⟨entry, kept, same⟩ := List.mem_map.mp member
  exact absurd same (of_decide_eq_true (List.mem_filter.mp kept).2)

theorem get?_erase_of_ne (table : List (κ × α)) {key other : κ} (h : other ≠ key) :
    get? (erase table key) other = get? table other := by
  induction table with
  | nil => rfl
  | cons entry rest ih =>
      obtain ⟨k, v⟩ := entry
      simp only [erase, ne_eq, decide_not] at ih ⊢
      by_cases same : k = key
      · simp [get?, same, Ne.symm h, ih]
      · simp [get?, same, ih]

theorem nodup_keys_erase {table : List (κ × α)} (h : (keys table).Nodup) (key : κ) :
    (keys (erase table key)).Nodup :=
  h.sublist (List.filter_sublist.map _)

end Table

namespace Walk
open Decode Reader

/-! ## The table of counts -/

/-- A table holds how often each step stands on a path, and nothing else. -/
structure Mirrors (path : Path) (table : List (Segment × Nat)) : Prop where
  nodup : (Table.keys table).Nodup
  entries : ∀ segment count, (segment, count) ∈ table ↔ 0 < count ∧ path.count segment = count

namespace Mirrors
variable {path : Path} {table : List (Segment × Nat)} {session : Session} {segment : Segment}

/-- Looking a step up gives its count, or nothing where it does not stand on the path. -/
theorem iff_get? : Mirrors path table ↔ (Table.keys table).Nodup ∧
    ∀ segment, Table.get? table segment =
      if path.count segment = 0 then none else some (path.count segment) := by
  constructor
  · intro h
    refine ⟨h.nodup, fun segment => ?_⟩
    split
    · next absent =>
      refine Table.get?_eq_none.mpr fun member => ?_
      obtain ⟨⟨segment, count⟩, known, rfl⟩ := List.mem_map.mp member
      obtain ⟨positive, exact⟩ := (h.entries segment count).mp known
      exact absurd (exact.symm.trans absent) (Nat.ne_of_gt positive)
    · next present =>
      exact Table.get?_of_mem h.nodup ((h.entries _ _).mpr ⟨Nat.pos_of_ne_zero present, rfl⟩)
  · rintro ⟨nodup, found⟩
    refine ⟨nodup, fun segment count => ?_⟩
    constructor
    · intro member
      have known := Table.get?_of_mem nodup member
      rw [found, Option.ite_none_left_eq_some, Option.some.injEq] at known
      exact ⟨by omega, known.2⟩
    · rintro ⟨positive, rfl⟩
      refine Table.mem_of_get? ?_
      rw [found, if_neg (Nat.ne_of_gt positive)]

theorem getD_get? (h : Mirrors path table) (segment : Segment) :
    (Table.get? table segment).getD 0 = path.count segment := by
  rw [(iff_get?.mp h).2]
  split
  · next absent => exact absent.symm
  · rfl

theorem nil_iff : Mirrors [] table ↔ table = [] := by
  constructor
  · intro h
    refine List.eq_nil_iff_forall_not_mem.mpr fun ⟨segment, count⟩ member => ?_
    have := (h.entries segment count).mp member
    simp at this
    omega
  · rintro rfl
    exact ⟨List.nodup_nil, fun segment count => by simp; omega⟩

theorem enter (h : Mirrors path session.occurrences) (segment : Segment) :
    Mirrors (path ++ [segment]) (session.enter segment).occurrences := by
  refine iff_get?.mpr ⟨Table.nodup_keys_put h.nodup, fun other => ?_⟩
  show Table.get? (Table.put session.occurrences segment _) other = _
  rw [h.getD_get?]
  by_cases same : other = segment
  · subst same
    simp [Table.get?_put_self]
  · rw [Table.get?_put_of_ne _ _ same, (iff_get?.mp h).2]
    simp [Ne.symm same]

theorem leave (h : Mirrors (path ++ [segment]) session.occurrences) :
    Mirrors path (session.leave segment).occurrences := by
  obtain ⟨nodup, found⟩ := iff_get?.mp h
  have known : Table.get? session.occurrences segment = some (path.count segment + 1) := by
    simp [found]
  have others {other : Segment} (different : other ≠ segment) :
      Table.get? session.occurrences other =
        if path.count other = 0 then none else some (path.count other) := by
    simp [found, Ne.symm different]
  unfold Session.leave
  rw [known]
  dsimp only
  split
  · next last =>
    refine iff_get?.mpr ⟨Table.nodup_keys_erase nodup _, fun other => ?_⟩
    by_cases same : other = segment
    · subst same
      rw [Table.get?_erase_self, if_pos (by omega)]
    · rw [Table.get?_erase_of_ne _ same, others same]
  · next more =>
    refine iff_get?.mpr ⟨Table.nodup_keys_put nodup, fun other => ?_⟩
    by_cases same : other = segment
    · subst same
      rw [Table.get?_put_self, if_neg (by omega), Nat.add_sub_cancel]
    · rw [Table.get?_put_of_ne _ _ same, others same]

end Mirrors

/-! ## Courses -/

/-- A moment of a walk. -/
structure Moment where
  /-- The way down to the innermost value that is being descended into. -/
  path : Path
  /-- Whether this value is being decoded. If not, the step to it was only just counted, and may
  still be refused. -/
  decoding : Bool
  session : Session

/-- The moment of a state in which the value at a path is being decoded. -/
def State.during (s : State) (path : Path) : Moment := ⟨path, true, s.session⟩

/-- The moments of a decode at a path, from a state. There is a rule for each thing that is done to
the state at once, for putting decodes together, and for descending into a value. -/
inductive Course : Path → {α : Type} → Decode α → State → List Moment → Prop
  | pure {path : Path} {α : Type} {a : α} {s : State} :
      Course path (pure a) s [s.during path]
  | throw {path : Path} {α : Type} {stop : Stop} {s : State} :
      Course path (throw stop : Decode α) s [s.during path]
  | get {path : Path} {s : State} :
      Course path get s [s.during path]
  | note {path : Path} (note : Note) {s : State} :
      Course path (modifySession note.apply) s
        [s.during path, (s.inSession note.apply).during path]
  | world {path : Path} (f : World → World) {s : State} :
      Course path (modifyWorld f) s [s.during path]
  | inside {path : Path} {read : TypeReader} {style : Style} {root : TypeExpr} {s : State} :
      Course path (reflectInside read style root) s
        [s.during path, (exec (reflectInside read style root) s).2.during path]
  | bind {path : Path} {α β : Type} {m : Decode α} {f : α → Decode β} {a : α} {s t : State}
      {first later : List Moment} (run : exec m s = (.ok a, t)) (hm : Course path m s first)
      (hf : Course path (f a) t later) : Course path (m >>= f) s (first ++ later)
  | bindStop {path : Path} {α β : Type} {m : Decode α} {f : α → Decode β} {stop : Stop}
      {s t : State} {first : List Moment} (run : exec m s = (.error stop, t))
      (hm : Course path m s first) : Course path (m >>= f) s first
  | tryCatch {path : Path} {α : Type} {m : Decode α} {handle : Stop → Decode α} {a : α}
      {s t : State} {first : List Moment} (run : exec m s = (.ok a, t))
      (hm : Course path m s first) : Course path (tryCatch m handle) s first
  | tryCatchStop {path : Path} {α : Type} {m : Decode α} {handle : Stop → Decode α} {stop : Stop}
      {s t : State} {first later : List Moment} (run : exec m s = (.error stop, t))
      (hm : Course path m s first) (hh : Course path (handle stop) t later) :
      Course path (tryCatch m handle) s (first ++ later)
  | runaway {parent : Path} {muted : Bool} {key : String} {α : Type} {seed : Seed α} {s : State}
      {segment : Segment} (step : segment = ⟨key, seed.type⟩)
      (far : (s.entering segment).session.options.runawayLimit <
        (s.entering segment).session.occurrencesAt (parent ++ [segment])) :
      Course parent (descend parent muted key seed) s
        [s.during parent, ⟨parent ++ [segment], false, (s.entering segment).session⟩,
          ((s.entering segment).leaving segment).during parent]
  | descend {parent : Path} {muted : Bool} {key : String} {α : Type} {seed : Seed α} {s : State}
      {segment : Segment} {inner : List Moment} (step : segment = ⟨key, seed.type⟩)
      (near : (s.entering segment).session.occurrencesAt (parent ++ [segment]) ≤
        (s.entering segment).session.options.runawayLimit)
      (walk : Course (parent ++ [segment]) (seed.run (.walk (parent ++ [segment]) muted))
        (s.entering segment) inner) :
      Course parent (descend parent muted key seed) s
        ([s.during parent, ⟨parent ++ [segment], false, (s.entering segment).session⟩] ++ inner ++
          [((exec (seed.run (.walk (parent ++ [segment]) muted)) (s.entering segment)).2.leaving
              segment).during parent,
            (exec (descend parent muted key seed) s).2.during parent])

namespace Course
variable {path : Path} {α : Type} {m : Decode α} {s : State} {trail : List Moment}

/-- A course begins with the state that the decode starts from and ends with the one it reaches. -/
theorem ends (course : Course path m s trail) :
    trail.head? = some (s.during path) ∧ trail.getLast? = some ((exec m s).2.during path) := by
  induction course with
  | bind run hm hf ihm ihf =>
      rw [exec_bind, run]
      simp [ihm.1, ihf.2]
  | bindStop run hm ihm =>
      rw [exec_bind, run]
      rw [run] at ihm
      exact ihm
  | tryCatch run hm ihm =>
      rw [exec_tryCatch, run]
      rw [run] at ihm
      exact ihm
  | tryCatchStop run hm hh ihm ihh =>
      rw [exec_tryCatch, run]
      simp [ihm.1, ihh.2]
  | runaway step far =>
      subst step
      rw [exec_descend]
      dsimp only
      rw [if_pos far]
      exact ⟨rfl, rfl⟩
  | descend step near walk ih => exact ⟨rfl, by rw [List.getLast?_append]; rfl⟩
  | _ => exact ⟨rfl, rfl⟩

end Course

/-! ## What holds at every moment -/

/-- The table of a session mirrors the way down, on which no step repeats too often. -/
structure Session.Steady (o : Options) (path : Path) (session : Session) : Prop where
  options : session.options = o
  mirrors : Mirrors path session.occurrences
  bounded : ∀ segment, path.count segment ≤ o.runawayLimit

/-- The table mirrors the way down, also where a step to a value was only just counted. -/
structure Moment.Steady (o : Options) (moment : Moment) : Prop where
  mirrors : Mirrors moment.path moment.session.occurrences
  bounded : moment.decoding = true → ∀ segment, moment.path.count segment ≤ o.runawayLimit

namespace Session.Steady
variable {o : Options} {path : Path} {session : Session} {segment : Segment}

theorem during {s : State} (h : s.session.Steady o path) : (s.during path).Steady o :=
  ⟨h.mirrors, fun _ => h.bounded⟩

theorem note (h : session.Steady o path) (note : Note) : (note.apply session).Steady o path :=
  ⟨(note.apply_options session).trans h.options, (note.apply_occurrences session).symm ▸ h.mirrors,
    h.bounded⟩

/-- The table looks a step up that was just counted. -/
theorem occurrencesAt_enter (h : session.Steady o path) (segment : Segment) :
    (session.enter segment).occurrencesAt (path ++ [segment]) = path.count segment + 1 := by
  unfold Session.occurrencesAt
  rw [List.getLast?_concat]
  dsimp only
  rw [(h.mirrors.enter segment).getD_get?]
  simp

theorem enter (h : session.Steady o path)
    (near : (session.enter segment).occurrencesAt (path ++ [segment]) ≤ o.runawayLimit) :
    (session.enter segment).Steady o (path ++ [segment]) := by
  refine ⟨h.options, h.mirrors.enter segment, fun other => ?_⟩
  rw [h.occurrencesAt_enter] at near
  by_cases same : segment = other
  · subst same
    simpa using near
  · simpa [same] using h.bounded other

theorem leave (h : session.Steady o (path ++ [segment])) :
    (session.leave segment).Steady o path := by
  refine ⟨?_, h.mirrors.leave, fun other => ?_⟩
  · exact (State.leaving_options ⟨{}, session⟩ segment).trans h.options
  · have := h.bounded other
    rw [List.count_append] at this
    omega

/-- A step that is refused was only counted for a moment. -/
theorem refused (h : session.Steady o path) (segment : Segment) :
    ((session.enter segment).leave segment).Steady o path := by
  refine ⟨?_, (h.mirrors.enter segment).leave, h.bounded⟩
  exact (State.leaving_options ⟨{}, session.enter segment⟩ segment).trans h.options

/-- What is learned from how a value stopped is not about the way down. -/
theorem taught {s : State} (h : s.session.Steady o path) (site : Site) (stop : Stop) :
    (s.taught site stop).session.Steady o path := by
  cases stop with
  | fault fault => exact h.note (.lesson site .any fault)
  | _ => exact h

/-- Caching what a value left is done outside of the session. -/
theorem cached {α : Type} {s : State} (h : s.session.Steady o path) (type : TypeRef) (child : Path)
    (muted : Bool) (asked : Nat) (value : α) :
    (cacheWalked type child muted asked value s).2.session.Steady o path := by
  unfold cacheWalked
  split
  · split
    · exact h
    · exact h
  · exact h

end Session.Steady

/-- From a state whose table mirrors the way down a decode goes through such moments, and it reaches
such a state, however it ends. -/
theorem Course.steady {path : Path} {α : Type} {m : Decode α} {s : State} {trail : List Moment}
    {o : Options} (course : Course path m s trail) (h : s.session.Steady o path) :
    (∀ moment ∈ trail, moment.Steady o) ∧ (exec m s).2.session.Steady o path := by
  induction course with
  | pure => exact ⟨List.forall_mem_singleton.mpr h.during, h⟩
  | throw => exact ⟨List.forall_mem_singleton.mpr h.during, h⟩
  | get => exact ⟨List.forall_mem_singleton.mpr h.during, h⟩
  | world f => exact ⟨List.forall_mem_singleton.mpr h.during, h⟩
  | note note =>
      have noted := h.note note
      exact ⟨List.forall_mem_cons.mpr ⟨h.during, List.forall_mem_singleton.mpr noted.during⟩, noted⟩
  | inside =>
      rw [exec_reflectInside]
      exact ⟨List.forall_mem_cons.mpr ⟨h.during, List.forall_mem_singleton.mpr h.during⟩, h⟩
  | bind run hm hf ihm ihf =>
      rw [exec_bind, run]
      rw [run] at ihm
      obtain ⟨first, reached⟩ := ihm h
      obtain ⟨later, ended⟩ := ihf reached
      exact ⟨List.forall_mem_append.mpr ⟨first, later⟩, ended⟩
  | bindStop run hm ihm =>
      rw [exec_bind, run]
      rw [run] at ihm
      exact ihm h
  | tryCatch run hm ihm =>
      rw [exec_tryCatch, run]
      rw [run] at ihm
      exact ihm h
  | tryCatchStop run hm hh ihm ihh =>
      rw [exec_tryCatch, run]
      rw [run] at ihm
      obtain ⟨first, reached⟩ := ihm h
      obtain ⟨later, ended⟩ := ihh reached
      exact ⟨List.forall_mem_append.mpr ⟨first, later⟩, ended⟩
  | @runaway parent muted key α seed s segment step far =>
      subst step
      rw [exec_descend]
      dsimp only
      rw [if_pos far]
      have back := h.refused ⟨key, seed.type⟩
      refine ⟨?_, back⟩
      refine List.forall_mem_cons.mpr ⟨h.during, List.forall_mem_cons.mpr ⟨⟨?_, nofun⟩, ?_⟩⟩
      · exact h.mirrors.enter _
      · exact List.forall_mem_singleton.mpr back.during
  | @descend parent muted key α seed s segment inner step near walk ih =>
      subst step
      have entered := h.enter (h.options ▸ near)
      obtain ⟨within, ended⟩ := ih entered
      have reached : (exec (Decode.descend parent muted key seed) s).2.session.Steady o parent := by
        rw [exec_descend]
        dsimp only
        rw [if_neg (Nat.not_lt.mpr near)]
        generalize exec (seed.run _) _ = x at ended ⊢
        obtain ⟨r, t⟩ := x
        have left : (t.leaving ⟨key, seed.type⟩).session.Steady o parent := ended.leave
        cases r with
        | ok a => exact left.cached _ _ _ _ _
        | error stop => exact left.taught _ _
      refine ⟨fun moment member => ?_, reached⟩
      simp only [List.mem_append, List.mem_cons, List.not_mem_nil, or_false] at member
      obtain ((rfl | rfl) | inside) | rfl | rfl := member
      · exact h.during
      · exact ⟨h.mirrors.enter _, nofun⟩
      · exact within moment inside
      · exact ⟨ended.mirrors.leave, fun _ => h.bounded⟩
      · exact reached.during

/-! ## Every decode has a course -/

namespace Decode
variable {α β : Type} {path : Path} {m : Decode α}

/-- From every state there is a course of the decode at a path. -/
def Charted (path : Path) (m : Decode α) : Prop := ∀ s, ∃ trail, Course path m s trail

namespace Charted

theorem pure (a : α) : Charted path (Pure.pure a) := fun _ => ⟨_, .pure⟩

theorem throw (stop : Stop) : Charted path (MonadExcept.throw stop : Decode α) :=
  fun _ => ⟨_, .throw⟩

theorem get : Charted path (MonadState.get : Decode State) := fun _ => ⟨_, .get⟩

theorem note (note : Note) : Charted path (modifySession note.apply) := fun _ => ⟨_, .note note⟩

theorem modifyWorld (f : World → World) : Charted path (Decode.modifyWorld f) :=
  fun _ => ⟨_, .world f⟩

/-- Decodes in a row, knowing something of the value in between. -/
theorem bindGiven {P : α → Prop} {f : α → Decode β} (hm : Charted path m) (hp : Gives P m)
    (hf : ∀ a, P a → Charted path (f a)) : Charted path (m >>= f) := by
  intro s
  obtain ⟨first, course⟩ := hm s
  rcases run : exec m s with ⟨stop | a, t⟩
  · exact ⟨_, .bindStop run course⟩
  · obtain ⟨later, further⟩ := hf a (hp.value trivial run) t
    exact ⟨_, .bind run course further⟩

theorem bind {f : α → Decode β} (hm : Charted path m) (hf : ∀ a, Charted path (f a)) :
    Charted path (m >>= f) :=
  hm.bindGiven (P := fun _ => True) (fun _ _ => .any _) fun a _ => hf a

theorem tryCatch {handle : Stop → Decode α} (hm : Charted path m)
    (hh : ∀ stop, Charted path (handle stop)) : Charted path (tryCatchThe Stop m handle) := by
  intro s
  obtain ⟨first, course⟩ := hm s
  rcases run : exec m s with ⟨stop | a, t⟩
  · obtain ⟨later, further⟩ := hh stop t
    exact ⟨_, .tryCatchStop run course further⟩
  · exact ⟨_, .tryCatch run course⟩

theorem map (hm : Charted path m) (f : α → β) : Charted path (f <$> m) := by
  rw [map_eq_pure_bind]
  exact hm.bind fun a => .pure (f a)

theorem session : Charted path Decode.session := get.bind fun s => .pure s.session

theorem world : Charted path Decode.world := get.bind fun s => .pure s.world

theorem setSample (v : Json) : Charted path (Decode.setSample v) := note (.sample v)

theorem onFault {look : Fault → Decode Unit} (hm : Charted path m)
    (hl : ∀ fault, Charted path (look fault)) : Charted path (Decode.onFault m look) := by
  refine hm.tryCatch fun stop => ?_
  cases stop with
  | fault fault => exact (hl fault).bind fun _ => .throw _
  | _ => exact .throw _

theorem nodeAt (place : Path) : Charted path (Decode.nodeAt place) := by
  refine session.bind fun session => ?_
  split
  · exact .pure _
  · exact .throw _

theorem modifyNode (place : Path) (f : Shape → Shape) :
    Charted path (Decode.modifyNode place f) := by
  refine session.bind fun session => ?_
  split
  · exact .note (.tree _)
  · exact .throw _

theorem recordField (place : Path) (name : String) (child : Shape) :
    Charted path (Decode.recordField place name child) := by
  refine (nodeAt place).bind fun node => ?_
  split
  · exact .pure _
  · exact (modifyNode place _).bind fun _ => .pure _

theorem noteField (place : Path) (muted : Bool) (key : String) (child : Shape) :
    Charted path (Decode.noteField place muted key child) := by
  unfold Decode.noteField
  split
  · exact (recordField place key child).map _
  · exact .pure ()

theorem cached? (type : TypeRef) : Charted path (Decode.cached? type) := get.bind fun _ => .pure _

theorem insertCache (type : TypeRef) (entry : CacheEntry) :
    Charted path (Decode.insertCache type entry) :=
  session.bind fun _ => .modifyWorld _

section
variable {parent : Path} {key : String} {seed : Seed α}

theorem replay (data : ∀ value, Charted path (seed.run (.data .replay value))) (sample : Json) :
    Charted path (Decode.replay seed sample) := by
  refine (data sample).tryCatch fun stop => ?_
  split
  · exact .throw _
  · exact .throw _

theorem descend {muted : Bool} (walk : Charted (parent.child key seed.type)
      (seed.run (.walk (parent.child key seed.type) muted))) :
    Charted parent (Decode.descend parent muted key seed) := by
  intro s
  by_cases far : (s.entering ⟨key, seed.type⟩).session.options.runawayLimit <
      (s.entering ⟨key, seed.type⟩).session.occurrencesAt (parent.child key seed.type)
  · exact ⟨_, .runaway rfl far⟩
  · obtain ⟨inner, course⟩ := walk (s.entering ⟨key, seed.type⟩)
    exact ⟨_, .descend rfl (Nat.not_lt.mp far) course⟩

theorem readDocumented {muted : Bool}
    (data : ∀ value, Charted parent (seed.run (.data .replay value)))
    (walk : Charted (parent.child key seed.type)
      (seed.run (.walk (parent.child key seed.type) true))) (custom : CustomDocumentation) :
    Charted parent (Decode.readDocumented parent muted key seed custom) := by
  rw [readDocumented_eq]
  refine (noteField _ _ _ _).bind fun _ => session.bind fun before => ?_
  have placed : Charted parent (readPlaceholder parent key seed custom) := by
    unfold readPlaceholder
    split
    · exact (replay data _).bind fun _ => (setSample _).bind fun _ => .pure _
    · exact descend walk
  refine placed.bind fun value => session.bind fun after => ?_
  split
  · exact (insertCache _ _).bind fun _ => .pure value
  · exact .pure value

theorem readChild {muted : Bool} (data : ∀ value, Charted parent (seed.run (.data .replay value)))
    (walk : ∀ muted', (muted = true → muted' = true) → Charted (parent.child key seed.type)
      (seed.run (.walk (parent.child key seed.type) muted'))) :
    Charted parent (Decode.readChild parent muted key seed) := by
  refine (cached? _).bind fun found => ?_
  split
  · next entry =>
    have served : Charted parent (serve parent muted key seed entry) :=
      (noteField _ _ _ _).bind fun _ => (replay data _).bind fun _ =>
        (setSample _).bind fun _ => .pure _
    cases muted <;> exact served
  · refine world.bind fun world => ?_
    split
    · exact readDocumented data (walk true fun _ => rfl) _
    · cases muted with
      | true => exact descend (walk true fun _ => rfl)
      | false =>
          refine ((recordField _ _ _).map _).bind fun refused => ?_
          exact descend (walk refused nofun)

end
end Charted

/-- What is known of the value of a reader holds of every value that it ends with. -/
theorem ReadsAt.gives {q : Spot} {P : α → Prop} (reads : ReadsAt .any q P m) : Gives P m :=
  fun s _ => (upheld_learning.grants reads s trivial).mono (fun _ _ ended => ended.1)
    fun _ _ _ => trivial

/-- Whatever readers do, there is a course of it where they are sent. -/
theorem ReadsAt.charted {q : Spot} {P : α → Prop} (reads : ReadsAt .any q P m) :
    Charted q.path m := by
  induction reads with
  | pure => exact .pure _
  | throw => exact .throw _
  | bind hm hf ihm ihf => exact ihm.bindGiven hm.gives ihf
  | tryCatch asks hm hh hu ihm ihh =>
      refine ihm.tryCatch fun stop => ?_
      by_cases missing : ∃ path, stop = .unrecorded path
      · obtain ⟨path, rfl⟩ := missing
        rw [hu path]
        exact .throw _
      · exact ihh stop (not_exists.mp missing)
  | taught hm site kind ih => exact ih.onFault fun fault => .note (.lesson site kind fault)
  | session => exact .session
  | world => exact .world
  | note note => exact .note note
  | count slot n => exact .modifyWorld _
  | cases h cases => exact .modifyNode _ _
  | compress h count => exact .modifyNode _ _
  | child h serves data walk ihd ihw => exact .readChild (fun value => ihd _ .replay value) ihw
  | inside => exact fun s => ⟨_, .inside⟩

end Decode

/-- Every walk has a course. At every moment of it the table of counts holds how often each step
stands on the way down to the innermost value that is being descended into, and no other counts.
While a value is decoded no count exceeds the bound. When the walk is over, with or without a fault,
nothing is counted any more. -/
theorem walk_mirrors (depth : Nat) (type : TypeExpr) (options : Options)
    (context : List (String × Json)) (muted : Bool) (hints : Hints) (world : World) :
    let start := rootState type options context hints world
    let walk := readRoot (readType depth) type muted
    let finish := (walkOnce (readType depth) type options context muted hints world).2
    (∃ trail, Course [] walk start trail) ∧
      (∀ trail, Course [] walk start trail →
        trail.head? = some (start.during []) ∧ trail.getLast? = some (finish.during []) ∧
        ∀ moment ∈ trail, Mirrors moment.path moment.session.occurrences ∧
          (moment.decoding = true → ∀ entry ∈ moment.session.occurrences,
            entry.2 ≤ 2 * options.cycleThreshold + 1)) ∧
      finish.session.occurrences = [] := by
  intro start walk finish
  have reads : Reads .any ⟨[], muted⟩ (readType depth type (.walk [] muted)) :=
    follows_readType Scope.covers_any depth trivial ⟨[], muted⟩ _ ⟨rfl, id⟩
  have charted : Charted [] walk := reads.charted.onFault fun fault => .note (.lesson [] .any fault)
  have steady : start.session.Steady options [] := ⟨rfl, Mirrors.nil_iff.mpr rfl, by simp⟩
  obtain ⟨trail, course⟩ := charted start
  refine ⟨⟨trail, course⟩, fun trail course => ?_, ?_⟩
  · obtain ⟨first, last⟩ := course.ends
    refine ⟨first, last, fun moment member => ?_⟩
    have kept := (course.steady steady).1 moment member
    refine ⟨kept.mirrors, fun decoding entry known => ?_⟩
    obtain ⟨-, exact⟩ := (kept.mirrors.entries entry.1 entry.2).mp known
    calc entry.2
      _ = moment.path.count entry.1 := exact.symm
      _ ≤ options.runawayLimit := kept.bounded decoding entry.1
      _ ≤ 2 * options.cycleThreshold + 1 := Nat.mod_le _ _
  · exact Mirrors.nil_iff.mp (course.steady steady).2.mirrors

end Walk
end ApiAtlas
