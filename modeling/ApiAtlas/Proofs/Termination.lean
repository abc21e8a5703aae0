import ApiAtlas.Proofs.Readings
import ApiAtlas.Proofs.Records
import ApiAtlas.Proofs.Rereading

/-!
# Reflections that end

Types are given by finitely many layouts that refer to one another in any way. A walk counts the
steps to a value, and stops at one that repeats too often; so a way down is no longer than all
steps there are, each as often as it may stand. Between two steps a layout hands the walk on in
place, which is counted nowhere. Where types are nested in place finitely often, every reflection
ends; where they are not, none does, and whatever the options, the walk asks without end.
-/
namespace ApiAtlas

namespace VariantContent

/-- The keys under which a payload is read. -/
def keys (variant : String) : VariantContent → List String
  | unit => []
  | newtype _ => [variant]
  | tuple types => (List.range types.length).map Decimal.numeral
  | record fields => fields.map FieldDecl.name

theorem mem_keys {variant key : String} {content : VariantContent} {t : TypeExpr}
    (h : content.Under variant key t) : key ∈ content.keys variant := by
  cases content with
  | unit => exact h.elim
  | newtype type => exact List.mem_singleton.mpr h.1
  | tuple types =>
      obtain ⟨i, there, rfl⟩ := h
      obtain ⟨bound, -⟩ := List.getElem?_eq_some_iff.mp there
      exact List.mem_map_of_mem (List.mem_range.mpr bound)
  | record fields =>
      obtain ⟨field, hf, rfl, -⟩ := h
      exact List.mem_map_of_mem hf

end VariantContent

namespace Walk
open Decode Reader Filter

/-- The keys under which a layout is read, given the keys that were learned at any site. -/
def Layout.keys (most : Nat) (learned : List String) : Layout → List String
  | seq _ => (List.range most).map Decimal.numeral
  | map _ => Shape.anyKey :: learned
  | record _ fields _ _ => fields.map FieldDecl.name
  | tuple _ types => (List.range types.length).map Decimal.numeral
  | enumeration _ variants => variants.flatMap fun variant => variant.2.keys variant.1
  | _ => []

/-- All keys that were learned. -/
def learnedKeys (hints : Hints) : List String := hints.flatMap fun entry => entry.2.keys

theorem learned_of_keys? {hints : Hints} {site : Site} {names : List String} {key : String}
    (h : hints.keys? site = some names) (hk : key ∈ names) : key ∈ learnedKeys hints := by
  unfold Hints.keys? Hints.at? at h
  split at h
  · rename_i hint found
    split at h
    · cases h
    · cases h
      exact List.mem_flatMap.mpr ⟨_, Table.mem_of_get? found, hk⟩
  · cases h

theorem Layout.mem_keys {layout : Layout} {most : Nat} {hints : Hints} {site : Site} {key : String}
    {t : TypeExpr} (h : layout.Under most (hints.keys? site) key t) :
    key ∈ layout.keys most (learnedKeys hints) := by
  cases layout with
  | seq inner =>
      obtain ⟨-, i, bound, rfl⟩ := h
      exact List.mem_map_of_mem (List.mem_range.mpr bound)
  | map inner =>
      obtain ⟨-, hk⟩ := h
      cases found : hints.keys? site with
      | none =>
          rw [found] at hk
          exact List.mem_cons.mpr (.inl (List.mem_singleton.mp hk))
      | some names =>
          rw [found] at hk
          exact List.mem_cons_of_mem _ (learned_of_keys? found hk)
  | record expecting fields library denyUnknown =>
      obtain ⟨field, hf, rfl, -⟩ := h
      exact List.mem_map_of_mem hf
  | tuple expecting types =>
      obtain ⟨i, there, rfl⟩ := h
      obtain ⟨bound, -⟩ := List.getElem?_eq_some_iff.mp there
      exact List.mem_map_of_mem (List.mem_range.mpr bound)
  | _ => exact h.elim

/-- Finitely many types that are nested in place finitely often. Each reads nothing inside or is of
a layout. -/
structure LayoutFamily (schemas : Schemas) (types : List TypeExpr) : Prop where
  parts : ∀ t ∈ types, ∀ p ∈ t.parts schemas, p ∈ types
  kinds : ∀ t ∈ types, t.Leaf schemas ∨ ∃ layout, t.layout? schemas = some layout
  inPlace : ∃ rank : TypeExpr → Nat, ∀ t ∈ types, ∀ layout, t.layout? schemas = some layout →
    ∀ p, layout.inner? = some p → rank p < rank t

/-- What is kept of a world while types of a family are read, and what is known of their data. -/
structure Keeping (schemas : Schemas) (types : List TypeExpr) (o : Options)
    (fits : World → Prop) (A : TypeExpr → Json → Prop) : Prop where
  declared : ∀ {w}, fits w → w.schemas = schemas
  recounted : ∀ {w}, fits w → ∀ counts, fits { w with counts }
  cached : ∀ {w t entry}, fits w → t ∈ types → Table.get? w.cache (t.ref, o) = some entry →
    A t entry.sample
  placed : ∀ {w t body placeholder}, fits w → t ∈ types →
    w.registry.documentationOf? t.ref = some ⟨body, some placeholder⟩ → A t placeholder
  caching : ∀ {w t v} shape, fits w → t ∈ types → A t v → fits (w.caching t.ref o ⟨v, shape⟩)

/-- What is known of the data of types is known of data that is put together from theirs. -/
structure Building (schemas : Schemas) (types : List TypeExpr) (o : Options)
    (fits : World → Prop) (A : TypeExpr → Json → Prop) : Prop
    extends Keeping schemas types o fits A where
  leaf : ∀ {t v}, t ∈ types → t.Leaf schemas → Reread schemas t v → A t v
  built : ∀ {t layout v}, t ∈ types → t.layout? schemas = some layout →
    (layout.Full → LayoutData A layout v) → A t v

/-- The ground of a walk that stands below some steps. -/
def groundAt (o : Options) (fits : World → Prop) (hints : Hints)
    (occurrences : List (Segment × Nat)) : Ground :=
  ⟨o, occurrences, hints, fits⟩

section
variable {schemas : Schemas} {types : List TypeExpr} {o : Options} {fits : World → Prop}
variable {A : TypeExpr → Json → Prop} {hints : Hints} {occurrences : List (Segment × Nat)}
variable {t : TypeExpr} {path : Path} {muted : Bool} {key : String}

/-! ## Reading under a key -/

theorem rejected_ne_depth {stop : Stop} (type : TypeRef) (h : stop ≠ .depth) :
    rejected type stop ≠ .depth := by
  unfold rejected
  split
  · nofun
  · exact h

/-- A replay ends if reading its data does. -/
theorem leaves_replay {G : Ground} {read : Nat → TypeReader} {v : Json} {D : Json → Prop}
    (h : G.Runs (fun d => read d t (.data .replay v)) fun _ => True) (hv : D v) :
    G.Leaves (fun d => do
      let value ← replay (seedOf (read d) t) v
      setSample v
      return value) D := by
  have replayed : G.Runs (fun d => replay (seedOf (read d) t) v) fun _ => True := by
    intro s hs
    obtain ⟨⟨stop | a, u⟩, run, ended⟩ := h s hs
    · refine ⟨(.error (rejected t.ref stop), u), run.mono fun d run => ?_,
        rejected_ne_depth t.ref ended.1, ended.2⟩
      rw [exec_replay]
      dsimp only [seedOf]
      rw [run]
    · refine ⟨(.ok a, u), run.mono fun d run => ?_, ended⟩
      rw [exec_replay]
      dsimp only [seedOf]
      rw [run]
  exact replayed.leaves fun _ _ => Ground.Leaves.andThen (Ground.leaves_setSample hv)

theorem holds_entering (s : State) (h : (groundAt o fits hints occurrences).Holds s)
    (segment : Segment) :
    (groundAt o fits hints (stepped occurrences segment)).Holds (s.entering segment) :=
  ⟨h.options, by rw [State.entering_occurrences]; exact congrArg (stepped · _) h.occurrences,
    h.hints, h.fits⟩

theorem holds_leaving (positive : Positive occurrences) {s : State} {segment : Segment}
    (h : (groundAt o fits hints (stepped occurrences segment)).Holds s) :
    (groundAt o fits hints occurrences).Holds (s.leaving segment) ∧
      (s.leaving segment).session.sample = s.session.sample := by
  have left := positive.left h.occurrences
  refine ⟨⟨?_, ?_, ?_, h.fits⟩, State.leaving_sample s segment⟩
  · exact (congrArg Session.options left).trans h.options
  · exact congrArg Session.occurrences left
  · exact (congrArg Session.hints left).trans h.hints

/-- A step that does not repeat too often ends if the walk of the value does. -/
theorem leaves_descend (path : Path) (law : Keeping schemas types o fits A) (ht : t ∈ types)
    (positive : Positive occurrences)
    (walks : (Table.get? (stepped occurrences ⟨key, t.ref⟩) ⟨key, t.ref⟩).getD 0 ≤ o.runawayLimit →
      (groundAt o fits hints (stepped occurrences ⟨key, t.ref⟩)).Leaves
        (fun d => readType d t (.walk (path.child key t.ref) muted)) (A t)) :
    (groundAt o fits hints occurrences).Leaves
      (fun d => descend path muted key (seedOf (readType d) t)) (A t) := by
  intro s hs
  have entered := holds_entering s hs ⟨key, t.ref⟩
  have counted : (s.entering ⟨key, t.ref⟩).session.occurrencesAt (path.child key t.ref) =
      (Table.get? (stepped occurrences ⟨key, t.ref⟩) ⟨key, t.ref⟩).getD 0 := by
    rw [Session.occurrencesAt_child, entered.occurrences]
    rfl
  by_cases beyond : o.runawayLimit <
      (Table.get? (stepped occurrences ⟨key, t.ref⟩) ⟨key, t.ref⟩).getD 0
  · refine ⟨(.error (runaway t.ref (path.child key t.ref)),
      (s.entering ⟨key, t.ref⟩).leaving ⟨key, t.ref⟩), .of_forall fun d => ?_, nofun, hs.fits⟩
    rw [exec_descend]
    dsimp only [seedOf]
    rw [if_pos]
    rw [counted, entered.options]
    exact beyond
  · obtain ⟨⟨stop | a, u⟩, run, ended⟩ := walks (Nat.le_of_not_lt beyond) _ entered
    · refine ⟨(.error stop, (u.leaving ⟨key, t.ref⟩).taught (path.child key t.ref).site stop),
        run.mono fun d run => ?_, ended.1, ?_⟩
      · rw [exec_descend]
        dsimp only [seedOf]
        rw [if_neg, run]
        rw [counted, entered.options]
        exact beyond
      · cases stop <;> exact ended.2
    · obtain ⟨holds, sample⟩ := holds_leaving positive ended.1
      refine ⟨cacheWalked t.ref (path.child key t.ref) muted
        (s.entering ⟨key, t.ref⟩).session.anyRequests a (u.leaving ⟨key, t.ref⟩),
        run.mono fun d run => ?_, ?_⟩
      · rw [exec_descend]
        dsimp only [seedOf]
        rw [if_neg, run]
        rw [counted, entered.options]
        exact beyond
      · unfold cacheWalked
        split
        · split
          · rename_i shape _
            refine ⟨⟨holds.options, holds.occurrences, holds.hints, ?_⟩, sample ▸ ended.2⟩
            have kept := law.caching shape holds.fits ht (sample.symm ▸ ended.2)
            have options : (u.leaving ⟨key, t.ref⟩).session.options = o := holds.options
            rw [← options] at kept
            exact kept
          · exact ⟨nofun, holds.fits⟩
        · exact ⟨holds, sample ▸ ended.2⟩

theorem leaves_walkChild {G : Ground} {seed : Nat → Seed Unit} {D : Json → Prop}
    (h : ∀ muted, G.Leaves (fun d => descend path muted key (seed d)) D)
    (type : TypeRef) (same : ∀ d, (seed d).type = type) :
    G.Leaves (fun d => walkChild path muted key (seed d)) D := by
  unfold walkChild
  cases muted with
  | true => exact h true
  | false =>
      simp only [same]
      have recorded : G.Runs (fun _ => (! ·) <$> recordField path key (Shape.leaf type))
          fun _ => True :=
        (Ground.runs_recordField path key (Shape.leaf type)).bind fun _ _ =>
          Ground.runs_pure trivial
      exact recorded.leaves fun refused _ => h refused

/-- A registered type ends if its replays do, and walks where it has no placeholder. -/
theorem leaves_readDocumented (law : Keeping schemas types o fits A) (ht : t ∈ types)
    {custom : CustomDocumentation} (placed : ∀ v ∈ custom.placeholder, A t v)
    (replays : ∀ v, (groundAt o fits hints occurrences).Runs
      (fun d => readType d t (.data .replay v)) fun _ => True)
    (walks : (groundAt o fits hints occurrences).Leaves
      (fun d => descend path true key (seedOf (readType d) t)) (A t)) :
    (groundAt o fits hints occurrences).Leaves
      (fun d => readDocumented path muted key (seedOf (readType d) t) custom) (A t) := by
  have read : (groundAt o fits hints occurrences).Leaves
      (fun d => readPlaceholder path key (seedOf (readType d) t) custom) (A t) := by
    unfold readPlaceholder
    cases placeholder : custom.placeholder with
    | some v => exact leaves_replay (replays v) (placed v placeholder)
    | none => exact walks
  simp only [readDocumented_eq]
  refine (Ground.runs_noteField path muted key (⟨t.ref, custom.body⟩ : Shape)).leaves fun _ _ => ?_
  refine Ground.Runs.leaves (m := fun _ => session) (C := fun _ => True)
    (ends_exec fun _ hs => ⟨hs, trivial⟩) fun before _ => ?_
  refine Ends.bind read fun _ => Ends.bind (m := fun _ => session)
    (Q := fun after u => after = u.session ∧ (groundAt o fits hints occurrences).Holds u ∧
      A t u.session.sample) (ends_exec fun _ hs => ⟨rfl, hs⟩) fun after => ?_
  dsimp only [seedOf]
  refine ends_exec fun s hs => ?_
  obtain ⟨rfl, holds, accepted⟩ := hs
  split
  · refine ⟨⟨holds.options, holds.occurrences, holds.hints, ?_⟩, accepted⟩
    have kept := law.caching (⟨t.ref, custom.body⟩ : Shape) holds.fits ht accepted
    have options : s.session.options = o := holds.options
    rw [← options] at kept
    exact kept
  · exact ⟨holds, accepted⟩

/-- Reading under a key ends if replays do, and walks below steps that do not repeat too often. -/
theorem leaves_readChild (law : Keeping schemas types o fits A) (ht : t ∈ types)
    (positive : Positive occurrences)
    (replays : ∀ v, (groundAt o fits hints occurrences).Runs
      (fun d => readType d t (.data .replay v)) fun _ => True)
    (walks : ∀ muted,
      (Table.get? (stepped occurrences ⟨key, t.ref⟩) ⟨key, t.ref⟩).getD 0 ≤ o.runawayLimit →
      (groundAt o fits hints (stepped occurrences ⟨key, t.ref⟩)).Leaves
        (fun d => readType d t (.walk (path.child key t.ref) muted)) (A t)) :
    (groundAt o fits hints occurrences).Leaves
      (fun d => readChild path muted key (seedOf (readType d) t)) (A t) := by
  intro s hs
  have options : s.session.options = o := hs.options
  have descends (muted : Bool) := leaves_descend path law ht positive (walks muted)
  simp only [exec_readChild, seedOf, options]
  cases cached : Table.get? s.world.cache (t.ref, o) with
  | some entry =>
      exact (Ground.runs_noteField path muted key entry.shape).leaves
        (fun _ _ => leaves_replay (replays entry.sample) (law.cached hs.fits ht cached)) s hs
  | none =>
      cases registered : s.world.registry.documentationOf? t.ref with
      | some custom =>
          refine leaves_readDocumented law ht (fun v hv => ?_) replays (descends true) s hs
          obtain ⟨body, placeholder⟩ := custom
          cases hv
          exact law.placed hs.fits ht registered
      | none => exact leaves_walkChild descends t.ref (fun _ => rfl) s hs

/-! ## Types of a family -/

theorem Keeping.began (law : Keeping schemas types o fits A) (t : TypeExpr) {s : State}
    (hs : (groundAt o fits hints occurrences).Holds s) :
    s.world.schemas = schemas ∧ (groundAt o fits hints occurrences).Holds (s.began t) := by
  obtain ⟨counts, began⟩ := s.began_recount t
  rw [began]
  exact ⟨law.declared hs.fits, hs.options, hs.occurrences, hs.hints, law.recounted hs.fits counts⟩

/-- A type ends as its reader does, given how the types inside it are read. -/
theorem ends_succ {G : Ground} {source : Source} {Q : Unit → State → Prop}
    (h : Ends G.Holds (fun d => readTypeWith (readType d) t source) Q fits) :
    Ends G.Holds (fun d => readType d t source) Q fits := by
  intro s hs
  obtain ⟨x, run, ended⟩ := h s hs
  exact ⟨x, eventually_succ run, ended⟩

/-- A type ends as its layout does. -/
theorem Keeping.ends_layout (law : Keeping schemas types o fits A) {layout : Layout}
    (hl : t.layout? schemas = some layout) {source : Source} {Q : Unit → State → Prop}
    (h : Ends (groundAt o fits hints occurrences).Holds
      (fun d => layout.read (readType d) source) Q fits) :
    Ends (groundAt o fits hints occurrences).Holds (fun d => readType d t source) Q fits := by
  refine ends_succ fun s hs => ?_
  obtain ⟨declared, began⟩ := law.began t hs
  obtain ⟨x, run, ended⟩ := h _ began
  refine ⟨x, run.mono fun d run => ?_, ended⟩
  rw [exec_layout hl _ _ declared]
  exact run

/-- Replays of any data end. -/
theorem runs_replay (family : LayoutFamily schemas types) (law : Keeping schemas types o fits A)
    (ht : t ∈ types) (v : Json) :
    (groundAt o fits hints occurrences).Runs (fun d => readType d t (.data .replay v))
      fun _ => True := by
  obtain ⟨rank, ranked⟩ := family.inPlace
  -- the data gets less, or the type flatter
  induction hv : sizeOf v using Nat.strongRecOn generalizing t v with
  | _ size smaller =>
  induction hr : rank t using Nat.strongRecOn generalizing t with
  | _ height flatter =>
      obtain leaf | ⟨layout, hl⟩ := family.kinds t ht
      · exact ends_succ (Ground.runs_leaf_data leaf fun s hs => law.began t hs)
      · refine law.ends_layout hl (Ground.RunsParts.runs ⟨fun p hp => ?_, fun p hp item less => ?_⟩)
        · have hp' := family.parts t ht p ((mem_parts_iff hl p).mpr (mem_parts_of_inner hp))
          exact flatter (rank p) (hr ▸ ranked t ht layout hl p hp) hp' rfl
        · exact smaller (sizeOf item) (hv ▸ less)
            (family.parts t ht p ((mem_parts_iff hl p).mpr hp)) item rfl

/-- All steps that a walk of a family may take. -/
def steps (schemas : Schemas) (types : List TypeExpr) (o : Options) (hints : Hints) : Path :=
  (types.flatMap fun parent => ((parent.layout? schemas).map
    (Layout.keys o.maxSequenceLength (learnedKeys hints))).getD []).flatMap fun key =>
      types.map fun t => ⟨key, t.ref⟩

theorem mem_steps {parent : TypeExpr} {layout : Layout} (hp : parent ∈ types)
    (hl : parent.layout? schemas = some layout)
    (hk : key ∈ layout.keys o.maxSequenceLength (learnedKeys hints)) (ht : t ∈ types) :
    ⟨key, t.ref⟩ ∈ steps schemas types o hints :=
  List.mem_flatMap.mpr ⟨key, List.mem_flatMap.mpr ⟨parent, hp, by rw [hl]; exact hk⟩,
    List.mem_map_of_mem ht⟩

/-- The steps of a path are counted, and none of them repeats too often. -/
structure Standing (schemas : Schemas) (types : List TypeExpr) (o : Options) (hints : Hints)
    (path : Path) (occurrences : List (Segment × Nat)) : Prop where
  positive : Positive occurrences
  counted : ∀ segment, (Table.get? occurrences segment).getD 0 = path.count segment
  few : ∀ segment, path.count segment ≤ o.runawayLimit
  known : path ⊆ steps schemas types o hints

theorem standing_root : Standing schemas types o hints [] [] where
  positive := nofun
  counted _ := rfl
  few _ := Nat.zero_le _
  known := List.nil_subset _

theorem Standing.child (h : Standing schemas types o hints path occurrences)
    (known : ⟨key, t.ref⟩ ∈ steps schemas types o hints)
    (within : (Table.get? (stepped occurrences ⟨key, t.ref⟩) ⟨key, t.ref⟩).getD 0 ≤
      o.runawayLimit) :
    Standing schemas types o hints (path.child key t.ref) (stepped occurrences ⟨key, t.ref⟩) := by
  have counted : ∀ segment, (Table.get? (stepped occurrences ⟨key, t.ref⟩) segment).getD 0 =
      (path.child key t.ref).count segment := by
    intro segment
    rw [List.count_append, List.count_singleton, stepped]
    by_cases same : segment = ⟨key, t.ref⟩
    · subst same
      rw [Table.get?_put_self, Option.getD_some, h.counted]
      simp
    · rw [Table.get?_put_of_ne _ _ same, h.counted]
      simp [Ne.symm same]
  refine ⟨h.positive.stepped _, counted, fun segment => ?_, ?_⟩
  · by_cases same : segment = ⟨key, t.ref⟩
    · exact same ▸ counted ⟨key, t.ref⟩ ▸ within
    · rw [List.count_append, List.count_singleton]
      simpa [Ne.symm same] using h.few segment
  · exact List.append_subset.mpr ⟨h.known, List.cons_subset.mpr ⟨known, List.nil_subset _⟩⟩

/-- A path is no longer than all steps, each as often as it may stand. -/
theorem Standing.length_le (h : Standing schemas types o hints path occurrences) :
    path.length ≤ (steps schemas types o hints).length * o.runawayLimit :=
  length_le_of_count h.known h.few

/-- Walks of a family end, wherever they stand. -/
theorem leaves_walk (family : LayoutFamily schemas types) (law : Building schemas types o fits A)
    (left : Nat) (standing : Standing schemas types o hints path occurrences)
    (enough : (steps schemas types o hints).length * o.runawayLimit ≤ path.length + left)
    (ht : t ∈ types) (muted : Bool) :
    (groundAt o fits hints occurrences).Leaves (fun d => readType d t (.walk path muted))
      (A t) := by
  obtain ⟨rank, ranked⟩ := family.inPlace
  -- the path gets longer, or the type flatter
  induction left using Nat.strongRecOn generalizing path occurrences t muted with
  | _ left deeper =>
  induction hr : rank t using Nat.strongRecOn generalizing t with
  | _ height flatter =>
      have below {parent c : TypeExpr} {layout : Layout} {key : String} (hp : parent ∈ types)
          (hl : parent.layout? schemas = some layout)
          (hk : key ∈ layout.keys o.maxSequenceLength (learnedKeys hints)) (hc : c ∈ types)
          (muted : Bool) : (groundAt o fits hints occurrences).Leaves
            (fun d => readChild path muted key (seedOf (readType d) c)) (A c) := by
        refine leaves_readChild law.toKeeping hc standing.positive
          (runs_replay family law.toKeeping hc)
          fun muted within => ?_
        have next := standing.child (mem_steps hp hl hk hc) within
        have longer := next.length_le
        rw [List.length_append, List.length_singleton] at longer
        refine deeper (left - 1) (by omega) next ?_ hc muted
        rw [List.length_append, List.length_singleton]
        omega
      obtain leaf | ⟨layout, hl⟩ := family.kinds t ht
      · exact ends_succ ((Ground.leaves_leaf_walk leaf fun s hs => law.began t hs).mono
          fun v => law.leaf ht leaf)
      · refine law.ends_layout hl ((Ground.LeavesParts.leaves ⟨fun p hp => ?_,
          fun key c hc => ?_, fun name variants hv variant mem key c hc => ?_⟩).mono
            fun v data => law.built ht hl data)
        · have hp' := family.parts t ht p ((mem_parts_iff hl p).mpr (mem_parts_of_inner hp))
          exact flatter (rank p) (hr ▸ ranked t ht layout hl p hp) hp' rfl
        · exact below ht hl (Layout.mem_keys hc)
            (family.parts t ht c ((mem_parts_iff hl c).mpr (mem_parts_of_under hc))) muted
        · subst hv
          exact below ht hl (List.mem_flatMap.mpr ⟨variant, mem, VariantContent.mem_keys hc⟩)
            (family.parts t ht c ((mem_parts_iff hl c).mpr
              (List.mem_flatMap.mpr ⟨variant, mem, hc.mem_parts⟩))) true

theorem Building.walks (law : Building schemas types o fits A) (family : LayoutFamily schemas types)
    (ht : t ∈ types) (hints : Hints) (muted : Bool) :
    (groundAt o fits hints []).Leaves (fun d => readType d t (.walk [] muted)) (A t) :=
  leaves_walk family law _ standing_root (Nat.le_add_left _ _) ht muted

/-! ## Reflections of a family -/

/-- Walks of a root ended: with data of the type, or with a stop. -/
def RootEnded (fits : World → Prop) (accepted : Json → Prop) :
    Except Stop (Shape × Json) × World → Prop :=
  Outcome (fun found w => accepted found.2 ∧ fits w) fun stop w => stop ≠ .depth ∧ fits w

theorem ends_walkRoot (muted : Bool)
    (walks : ∀ hints, (groundAt o fits hints []).Leaves
      (fun d => readType d t (.walk [] muted)) (A t))
    (context : List (String × Json)) (more : Nat) (hints : Hints) {w : World} (hw : fits w) :
    ∃ x, (∀ᶠ d in atTop, exec (walkRoot (readType d) t o context muted more hints) w = x) ∧
      RootEnded fits (A t) x := by
  induction more generalizing hints w with
  | zero => exact ⟨(.error _, w), .of_forall fun _ => rfl, nofun, hw⟩
  | succ more ih =>
      have root : Ends (groundAt o fits hints []).Holds (fun d => readRoot (readType d) t muted)
          (fun _ u => (groundAt o fits hints []).Holds u ∧ A t u.session.sample) fits :=
        Ends.onFault (walks hints) fun _ s => ⟨_, exec_revise .., rfl⟩
      obtain ⟨⟨stop | a, u⟩, run, ended⟩ := root (rootState t o context hints w) ⟨rfl, rfl, rfl, hw⟩
      · cases stop with
        | fault fault =>
            cases revised : u.session.revised with
            | true =>
                obtain ⟨x, again, ended'⟩ := ih u.session.hints ended.2
                refine ⟨x, ?_, ended'⟩
                filter_upwards [run, again] with d run again
                rw [exec_walkRoot, run]
                dsimp only
                rw [if_pos revised, again]
            | false =>
                refine ⟨(.error (.fault fault), u.world), run.mono fun d run => ?_, ended⟩
                rw [exec_walkRoot, run]
                dsimp only
                rw [revised]
                rfl
        | depth => exact absurd rfl ended.1
        | _ =>
            refine ⟨(.error _, u.world), run.mono fun d run => ?_, ended⟩
            rw [exec_walkRoot, run]
      · refine ⟨(.ok (u.session.tree, u.session.sample), u.world), run.mono fun d run => ?_,
          ended.2, ended.1.fits⟩
        rw [exec_walkRoot, run]

/-- All late allowances end a reflection alike if they do the walks of its root: with a shape, where
there is data of the type, or with a stop, and in a world of the kind that it started from. -/
theorem ends_reflect (law : Keeping schemas types o fits A) (ht : t ∈ types)
    (walks : ∀ hints muted, (groundAt o fits hints []).Leaves
      (fun d => readType d t (.walk [] muted)) (A t))
    (context : List (String × Json)) {w : World} (hw : fits w) :
    ∃ r u, (∀ᶠ d in atTop, exec (reflectWithin d t o context) w = (r, u)) ∧
      r ≠ .error .depth ∧ (∀ shape, r = .ok shape → ∃ v, A t v) ∧ fits u := by
  have cachesRoot (muted : Bool) (shapeOf : Shape → Shape) : ∃ r u, (∀ᶠ d in atTop,
      cacheRoot t.ref o shapeOf (exec (walkRoot (readType d) t o context muted maxWalks []) w) =
        (r, u)) ∧ r ≠ .error .depth ∧ (∀ shape, r = .ok shape → ∃ v, A t v) ∧ fits u := by
    obtain ⟨⟨stop | ⟨shape, sample⟩, u⟩, run, ended⟩ :=
      ends_walkRoot muted (walks · muted) context maxWalks [] hw
    · refine ⟨.error stop, u, run.mono fun d run => by rw [run]; rfl, fun same => ?_,
        fun _ same => (by cases same), ended.2⟩
      exact ended.1 (Except.error.inj same)
    · exact ⟨.ok (shapeOf shape), _, run.mono fun d run => by rw [run]; rfl, (by simp),
        fun _ _ => ⟨sample, ended.1⟩, law.caching (shapeOf shape) ended.2 ht ended.1⟩
  unfold reflectWithin
  simp only [exec_reflectWith]
  cases cached : Table.get? w.cache (t.ref, o) with
  | some entry =>
      exact ⟨_, _, .of_forall fun _ => rfl, (by simp), fun _ _ => ⟨_, law.cached hw ht cached⟩, hw⟩
  | none =>
      cases registered : w.registry.documentationOf? t.ref with
      | none => exact cachesRoot false id
      | some custom =>
          obtain ⟨body, _ | placeholder⟩ := custom
          · exact cachesRoot true fun _ => ⟨t.ref, body⟩
          · have placed := law.placed hw ht registered
            exact ⟨_, _, .of_forall fun _ => rfl, (by simp), fun _ _ => ⟨_, placed⟩,
              law.caching _ hw ht placed⟩

/-- Every reflection of a family ends, whatever is cached and registered. -/
theorem reflect_ends (family : LayoutFamily schemas types) (ht : t ∈ types) (o : Options)
    (context : List (String × Json)) {w : World} (declared : w.schemas = schemas) :
    ∃ r u, (∀ᶠ d in atTop, exec (reflectWithin d t o context) w = (r, u)) ∧ r ≠ .error .depth := by
  have law : Building schemas types o (fun w => w.schemas = schemas) fun _ _ => True := {
    declared := id
    recounted := fun h _ => h
    cached := fun _ _ _ => trivial
    placed := fun _ _ _ => trivial
    caching := fun _ h _ _ => h
    leaf := fun _ _ _ => trivial
    built := fun _ _ _ => trivial }
  obtain ⟨r, u, run, ended, -⟩ := ends_reflect law.toKeeping ht
    (law.walks family ht) context declared
  exact ⟨r, u, run, ended⟩

end

/-! ## Nesting in place without end -/

section
variable {schemas : Schemas} {U : TypeExpr → Prop} {t : TypeExpr}

/-- A walk of types that are nested in place without end uses up every allowance. -/
theorem walk_endless
    (nested : ∀ t, U t → ∃ layout p, t.layout? schemas = some layout ∧ layout.inner? = some p ∧ U p)
    (ht : U t) (d : Nat) (muted : Bool) {s : State} (hs : s.world.schemas = schemas) :
    (exec (readType d t (.walk [] muted)) s).1 = .error .depth := by
  induction d generalizing t s with
  | zero => rfl
  | succ d ih =>
      obtain ⟨layout, p, hl, hp, inside⟩ := nested t ht
      obtain ⟨counts, began⟩ := s.began_recount t
      have inner := ih inside (s := s.began t) (by rw [began]; exact hs)
      rw [readType, exec_layout hl _ _ hs]
      cases layout with
      | pointer q | newtype name q =>
          cases hp
          exact inner
      | option q =>
          cases hp
          have answer : exec (Source.walkAnswer [] muted .option) (s.began t) =
            (.ok (.some (.walk [] muted)), s.began t) := exec_walkAnswer_option ..
          show (exec (readOption (readType d p) (.walk [] muted)) (s.began t)).1 = _
          unfold readOption
          rw [exec_bind, exec_ask_walk _ answer]
          exact inner
      | _ => cases hp

/-- A reflection of types that are nested in place without end uses up every allowance, whatever
the options are: between its requests, no step is counted. -/
theorem reflect_endless
    (nested : ∀ t, U t → ∃ layout p, t.layout? schemas = some layout ∧ layout.inner? = some p ∧ U p)
    (ht : U t) (o : Options) (context : List (String × Json)) {w : World}
    (declared : w.schemas = schemas) (uncached : Table.get? w.cache (t.ref, o) = none)
    (unregistered : w.registry.documentationOf? t.ref = none) (d : Nat) :
    (exec (reflectWithin d t o context) w).1 = .error .depth := by
  have walked := walk_endless nested ht d false (s := rootState t o context [] w) declared
  unfold reflectWithin
  rw [exec_reflectWith, uncached, unregistered]
  dsimp only
  rw [show maxWalks = 63 + 1 from rfl, exec_walkRoot]
  unfold readRoot
  rw [exec_onFault]
  generalize exec (readType d t (.walk [] false)) (rootState t o context [] w) = x at walked ⊢
  obtain ⟨r, u⟩ := x
  obtain rfl : r = .error .depth := walked
  rfl

end

/-! ## A family of every layer, and a newtype of itself -/

namespace Layers

def tree : Slot := ⟨"T0", "api::model::T<0>"⟩

def kind : Slot := ⟨"T1", "api::model::T<1>"⟩

/-- A tree is found in itself through an optional, a list, a map, a tuple and payloads. -/
def schemas : Schemas :=
  [(tree, .record "Tree" [⟨"next", .option (.pointer .box (.declared tree)), false⟩,
      ⟨"all", .vec (.declared tree), false⟩, ⟨"named", .map (.declared tree), false⟩,
      ⟨"kind", .declared kind, false⟩] false),
    (kind, .enumeration "Kind" [("Leaf", .unit),
      ("Inner", .newtype (.pointer .box (.declared tree))),
      ("Pair", .tuple [.declared tree, .pair (.declared tree)]),
      ("Named", .record [⟨"of", .declared kind, false⟩])])]

def types : List TypeExpr :=
  [.declared tree, .declared kind, .option (.pointer .box (.declared tree)),
    .pointer .box (.declared tree), .vec (.declared tree), .map (.declared tree),
    .pair (.declared tree)]

/-- How many layers hand a request on in place. -/
def layers : TypeExpr → Nat
  | .option _ => 2
  | .pointer _ _ => 1
  | _ => 0

theorem family : LayoutFamily schemas types where
  parts := by decide +kernel
  kinds := by
    intro t ht
    simp only [types, List.mem_cons, List.not_mem_nil, or_false] at ht
    rcases ht with rfl | rfl | rfl | rfl | rfl | rfl | rfl <;> exact .inr ⟨_, rfl⟩
  inPlace := by
    refine ⟨layers, fun t ht layout hl p hp => ?_⟩
    simp only [types, List.mem_cons, List.not_mem_nil, or_false] at ht
    rcases ht with rfl | rfl | rfl | rfl | rfl | rfl | rfl <;> cases hl <;> cases hp
    · exact Nat.one_lt_two
    · exact Nat.zero_lt_one

theorem reflect_ends_layers :
    ∃ r u, (∀ᶠ d in atTop,
      exec (reflectWithin d (.declared tree) {} []) { schemas := schemas } = (r, u)) ∧
        r ≠ .error .depth :=
  reflect_ends family (by decide) {} [] rfl

/-- A newtype of an optional of itself. -/
def newtype : Schemas := [(tree, .newtype "N" (.option (.pointer .box (.declared tree))))]

theorem newtype_endless :
    ¬ ∃ d, (exec (reflectWithin d (.declared tree) {} []) { schemas := newtype }).1 ≠
      .error .depth := by
  rintro ⟨d, ends⟩
  refine ends (reflect_endless (U := fun t => t = .declared tree ∨
    t = .option (.pointer .box (.declared tree)) ∨ t = .pointer .box (.declared tree))
    (fun t ht => ?_) (.inl rfl) {} [] rfl rfl rfl d)
  rcases ht with rfl | rfl | rfl
  · exact ⟨_, _, rfl, rfl, .inr (.inl rfl)⟩
  · exact ⟨_, _, rfl, rfl, .inr (.inr rfl)⟩
  · exact ⟨_, _, rfl, rfl, .inl rfl⟩

end Layers
end Walk
end ApiAtlas
