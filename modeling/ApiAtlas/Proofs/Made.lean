import ApiAtlas.Proofs.Pieces
import ApiAtlas.Proofs.Replay

/-!
# What walks of layouts leave

A layout is made from the pieces that its parts left under their keys, or from what a part left
in place. In a cycle an optional, a sequence and a map end without their part.
-/
namespace ApiAtlas

/-- Whether a payload can be read from the data made up for it: names of fields differ, and there
is no tuple of nothing. -/
def VariantContent.Sound : VariantContent → Prop
  | tuple types => types ≠ []
  | record fields => (fields.map FieldDecl.name).Nodup
  | _ => True

/-- What a payload reads under a key. -/
def VariantContent.Under (variant : String) : VariantContent → String → TypeExpr → Prop
  | unit, _, _ => False
  | newtype type, key, t => key = variant ∧ t = type
  | tuple types, key, t => ∃ i, types[i]? = some t ∧ key = Decimal.numeral i
  | record fields, key, t => ∃ field ∈ fields, field.name = key ∧ field.type = t

theorem VariantContent.Under.mem_parts {variant key : String} {content : VariantContent}
    {t : TypeExpr} (h : content.Under variant key t) : t ∈ content.parts := by
  cases content with
  | unit => exact h.elim
  | newtype type => exact List.mem_singleton.mpr h.2
  | tuple types =>
      obtain ⟨i, there, -⟩ := h
      exact List.mem_of_getElem? there
  | record fields =>
      obtain ⟨field, hf, -, rfl⟩ := h
      exact List.mem_map_of_mem hf

namespace Walk
open Decode Reader

namespace Layout

/-- Whether a layout can be read from the data made up for it. -/
def Sound : Layout → Prop
  | record _ fields _ _ => (fields.map FieldDecl.name).Nodup
  | enumeration _ variants => variants ≠ [] ∧ ∀ variant ∈ variants, variant.2.Sound
  | _ => True

/-- The part that a layout reads in place. -/
def inner? : Layout → Option TypeExpr
  | pointer inner | newtype _ inner | option inner => some inner
  | _ => none

/-- What a layout reads under a key, given how many elements are asked of a sequence and which
keys were learned for a map. -/
def Under (most : Nat) (learned : Option (List String)) : Layout → String → TypeExpr → Prop
  | seq inner, key, type => type = inner ∧ ∃ i < most, key = Decimal.numeral i
  | map inner, key, type => type = inner ∧ key ∈ learned.getD [Shape.anyKey]
  | record _ fields _ _, key, type => ∃ field ∈ fields, field.name = key ∧ field.type = type
  | tuple _ types, key, type => ∃ i, types[i]? = some type ∧ key = Decimal.numeral i
  | _, _, _ => False

/-- The parts inside the payload of the first variant, which are read under keys and muted. -/
def payload : Layout → List TypeExpr
  | enumeration _ ((name, content) :: rest) =>
      ((Table.get? ((name, content) :: rest) name).map VariantContent.parts).getD []
  | _ => []

end Layout

/-- What the payload of a variant is made from. -/
inductive PayloadMade (made : Piece → Prop) : VariantContent → Json → Prop
  | newtype {x : Piece} (h : made x) : PayloadMade made (.newtype x.type) x.sample
  | tuple {types : List TypeExpr} {pieces : List Piece} (ht : pieces.map Piece.type = types)
      (h : ∀ x ∈ pieces, made x) :
      PayloadMade made (.tuple types) (.array (pieces.map Piece.sample))
  | record {fields : List FieldDecl} {pieces : List Piece}
      (ht : pieces.map Piece.type = fields.map FieldDecl.type) (h : ∀ x ∈ pieces, made x) :
      PayloadMade made (.record fields)
        (.object (Stage.filed [] (fields.map FieldDecl.name) pieces))

/-- What a layout is made from: pieces under keys, or what a part left in place. A map may list
other keys than the one that stands for every key only where keys were learned for it. -/
inductive Made (made : Bool → Piece → Prop) (inPlace : TypeExpr → ShapeBody → Json → Prop)
    (most : Nat) (cut learned muted : Bool) : Layout → ShapeBody → Json → Prop
  | pointer {inner : TypeExpr} {body : ShapeBody} {sample : Json} (h : inPlace inner body sample) :
      Made made inPlace most cut learned muted (.pointer inner) body sample
  | newtype {name : String} {inner : TypeExpr} {body : ShapeBody} {sample : Json}
      (h : inPlace inner body sample) :
      Made made inPlace most cut learned muted (.newtype name inner) body sample
  | option {inner : TypeExpr} {body : ShapeBody} {sample : Json} (hc : cut = false)
      (h : inPlace inner body sample) :
      Made made inPlace most cut learned muted (.option inner) body sample
  | cutOption {inner : TypeExpr} (hc : cut = true) :
      Made made inPlace most cut learned muted (.option inner) .plain .null
  | record {expecting : String} {fields : List FieldDecl} {library denyUnknown : Bool}
      {pieces : List Piece} (ht : pieces.map Piece.type = fields.map FieldDecl.type)
      (h : ∀ x ∈ pieces, made muted x) :
      Made made inPlace most cut learned muted (.record expecting fields library denyUnknown)
        (ShapeBody.withFields .plain
          ((fields.map FieldDecl.name).zip (pieces.map Piece.shape)))
        (.object (Stage.filed [] (fields.map FieldDecl.name) pieces))
  | seq {inner : TypeExpr} {pieces : List Piece}
      (ht : pieces.map Piece.type = List.replicate (if cut then 0 else most) inner)
      (h : ∀ x ∈ pieces, made muted x) :
      Made made inPlace most cut learned muted (.seq inner)
        (closedSequence most pieces.length (ShapeBody.withFields .plain (Stage.numbered 0 pieces)))
        (.array (pieces.map Piece.sample))
  | tuple {expecting : String} {types : List TypeExpr} {pieces : List Piece}
      (ht : pieces.map Piece.type = types) (h : ∀ x ∈ pieces, made muted x) :
      Made made inPlace most cut learned muted (.tuple expecting types)
        (closedSequence most pieces.length (ShapeBody.withFields .plain (Stage.numbered 0 pieces)))
        (.array (pieces.map Piece.sample))
  | map {inner : TypeExpr} {names : List String} {pieces : List Piece} (hc : cut = false)
      (hk : learned = true) (nonempty : names ≠ [])
      (ht : pieces.map Piece.type = List.replicate names.length inner)
      (h : ∀ x ∈ pieces, made muted x) :
      Made made inPlace most cut learned muted (.map inner)
        (ShapeBody.withFields .plain (names.zip (pieces.map Piece.shape)))
        (.object (Stage.filed [] names pieces))
  | openMap {x : Piece} (hc : cut = false) (h : made muted x) :
      Made made inPlace most cut learned muted (.map x.type)
        (.fields [(Shape.anyKey, x.shape)]) (.object [("", x.sample)])
  | cutMap {inner : TypeExpr} (hc : cut = true) :
      Made made inPlace most cut learned muted (.map inner) .plain (.object [])
  | unit {name variant : String} {content : VariantContent}
      {rest : List (String × VariantContent)}
      (hv : Table.get? ((variant, content) :: rest) variant = some .unit) :
      Made made inPlace most cut learned muted (.enumeration name ((variant, content) :: rest))
        (.cases (((variant, content) :: rest).map fun v => ⟨none, v.1⟩)) (.string variant)
  | payload {name variant : String} {content chosen : VariantContent}
      {rest : List (String × VariantContent)} {sample : Json}
      (hv : Table.get? ((variant, content) :: rest) variant = some chosen)
      (h : PayloadMade (made true) chosen sample) :
      Made made inPlace most cut learned muted (.enumeration name ((variant, content) :: rest))
        (.cases (((variant, content) :: rest).map fun v => ⟨none, v.1⟩))
        (.object [(variant, sample)])

theorem Made.mono {made made' : Bool → Piece → Prop}
    {inPlace inPlace' : TypeExpr → ShapeBody → Json → Prop} {most : Nat}
    {cut learned learned' muted : Bool}
    {layout : Layout} {body : ShapeBody} {sample : Json}
    (h : Made made inPlace most cut learned muted layout body sample)
    (more : learned = true → learned' = true) (hm : ∀ muted x, made muted x → made' muted x)
    (hi : ∀ t body sample, inPlace t body sample → inPlace' t body sample) :
    Made made' inPlace' most cut learned' muted layout body sample := by
  cases h with
  | pointer h => exact .pointer (hi _ _ _ h)
  | newtype h => exact .newtype (hi _ _ _ h)
  | option hc h => exact .option hc (hi _ _ _ h)
  | cutOption hc => exact .cutOption hc
  | record ht h => exact .record ht fun x hx => hm _ _ (h x hx)
  | seq ht h => exact .seq ht fun x hx => hm _ _ (h x hx)
  | tuple ht h => exact .tuple ht fun x hx => hm _ _ (h x hx)
  | map hc hk nonempty ht h => exact .map hc (more hk) nonempty ht fun x hx => hm _ _ (h x hx)
  | openMap hc h => exact .openMap hc (hm _ _ h)
  | cutMap hc => exact .cutMap hc
  | unit hv => exact .unit hv
  | payload hv h =>
      refine .payload hv ?_
      cases h with
      | newtype h => exact .newtype (hm _ _ h)
      | tuple ht h => exact .tuple ht fun x hx => hm _ _ (h x hx)
      | record ht h => exact .record ht fun x hx => hm _ _ (h x hx)

theorem mem_parts_of_inner {layout : Layout} {t : TypeExpr} (h : layout.inner? = some t) :
    t ∈ layout.parts := by
  cases layout <;> cases h <;> exact List.mem_singleton_self _

theorem mem_parts_of_under {layout : Layout} {t : TypeExpr} {most : Nat}
    {learned : Option (List String)} {key : String} (h : layout.Under most learned key t) :
    t ∈ layout.parts := by
  cases layout with
  | seq inner => exact List.mem_singleton.mpr h.1
  | map inner => exact List.mem_singleton.mpr h.1
  | record expecting fields library denyUnknown =>
      obtain ⟨field, hf, -, rfl⟩ := h
      exact List.mem_map_of_mem hf
  | tuple expecting types =>
      obtain ⟨i, hi, -⟩ := h
      exact List.mem_of_getElem? hi
  | _ => exact h.elim

theorem mem_parts_of_payload {layout : Layout} {t : TypeExpr} (h : t ∈ layout.payload) :
    t ∈ layout.parts := by
  unfold Layout.payload at h
  split at h
  · next name variant content rest =>
    obtain ⟨types, found, mem⟩ : ∃ types, (Table.get? ((variant, content) :: rest) variant).map
        VariantContent.parts = some types ∧ t ∈ types := by
      cases hv : (Table.get? ((variant, content) :: rest) variant).map VariantContent.parts with
      | none => rw [hv] at h; cases h
      | some types => exact ⟨types, rfl, by rwa [hv] at h⟩
    obtain ⟨chosen, hv, rfl⟩ := Option.map_eq_some_iff.mp found
    exact List.mem_flatMap.mpr ⟨_, Table.mem_of_get? hv, mem⟩
  · cases h

namespace Stage
variable {S : Stage} {path : Path} {muted : Bool}

/-- A reader lands in place, and leaves something of a kind. -/
def Reads (S : Stage) (read : Nat → Source → Decode Unit) (path : Path) (muted : Bool)
    (left : World → ShapeBody → Json → Prop) : Prop :=
  ∀ s ref, S.Holds s → s.Stands path muted ⟨ref, .plain⟩ →
    ∃ body sample w,
      (∀ᶠ d in S.late, exec (read d (.walk path muted)) s =
        (.ok (), s.landed path muted ⟨ref, body⟩ sample w)) ∧
      S.fits w ∧ S.grows s.world w ∧ left w body sample

/-- Walking a value under a key lands if the walk inside of the step does. -/
theorem Holds.walks {S' : Stage} {read : Nat → TypeReader} {key : String} {t : TypeExpr} {s : State}
    {ref : TypeRef} {body : ShapeBody} {left : World → ShapeBody → Json → Prop} (hs : S.Holds s)
    (stands : s.Stands path muted ⟨ref, body⟩) (takes : body.IsOpen)
    (positive : Positive S.occurrences)
    (uncached : Table.get? s.world.cache (t.ref, S.options) = none)
    (unregistered : s.world.registry.documentationOf? t.ref = none)
    (within : (Table.get? (stepped S.occurrences ⟨key, t.ref⟩) ⟨key, t.ref⟩).getD 0 ≤
      S.options.runawayLimit)
    (reads : S'.Reads (fun d => read d t) (path.child key t.ref) muted left)
    (enters : ∀ u, S.Holds u → S'.Holds (u.entering ⟨key, t.ref⟩)) :
    ∃ inside sample w,
      (∀ᶠ d in S'.late, exec (readChild path muted key (seedOf (read d) t)) s = (.ok (),
        s.landed path muted ⟨ref, body.withField key ⟨t.ref, inside⟩⟩ sample
          (w.keeping muted t.ref S.options ⟨sample, ⟨t.ref, inside⟩⟩))) ∧
      S'.fits w ∧ S'.grows s.world w ∧ left w inside sample := by
  obtain ⟨inside, sample, w, run, fits, grows, left⟩ := reads
    ((s.landed path muted ⟨ref, body.withField key (Shape.leaf t.ref)⟩ s.session.sample
      s.world).entering ⟨key, t.ref⟩) t.ref
    (enters _ ⟨hs.options, hs.occurrences, hs.hints, hs.fits⟩)
    (stands.child takes key t.ref (Shape.leaf t.ref) s.session.sample s.world)
  refine ⟨inside, sample, w, ?_, fits, grows, left⟩
  filter_upwards [run] with d run
  rw [← hs.options]
  refine stands.walked takes key (seedOf (read d) t) (hs.occurrences.symm ▸ positive)
    (hs.options.symm ▸ uncached) unregistered ?_ fun state hstate => hstate ▸ run
  rw [hs.occurrences, hs.options]
  exact within

/-- Whether the value at a path ends a cycle. -/
def inCycle (S : Stage) (path : Path) : Bool :=
  decide (S.options.cycleThreshold < match path.getLast? with
    | none => 0
    | some segment => (Table.get? S.occurrences segment).getD 0)

/-- Which of so many variants is taken at a path. -/
def turn (S : Stage) (path : Path) (count : Nat) : Nat :=
  Walk.turn S.options.cycleThreshold (repeatsAt S.occurrences path) count

theorem Holds.turn {s : State} (h : S.Holds s) (path : Path) (count : Nat) :
    Walk.turn s.session.options.cycleThreshold (s.session.occurrencesAt path) count =
      S.turn path count := by
  rw [Session.occurrencesAt_eq, h.options, h.occurrences]
  rfl

/-- The first variant is taken where no step repeats too often. -/
theorem turn_of_uncut (h : S.inCycle path = false) (count : Nat) : S.turn path count = 0 := by
  refine if_neg fun repeats => of_decide_eq_false h ?_
  unfold repeatsAt at repeats
  revert repeats
  cases path.getLast? <;> exact id

theorem Holds.inCycle {s : State} (h : S.Holds s) (path : Path) :
    s.session.inCycle path = S.inCycle path := by
  unfold Session.inCycle Session.occurrencesAt Stage.inCycle
  cases path.getLast? <;> simp only [h.options, h.occurrences]

end Stage

/-! ## Requests of a walk -/

section
variable {s t : State} {path : Path} {muted : Bool}

theorem exec_walkAnswer_option (s : State) (path : Path) (muted : Bool) :
    exec (Source.walkAnswer path muted .option) s =
      if s.session.inCycle path then (.ok .none, s.inSession (Note.sample .null).apply)
      else (.ok (.some (.walk path muted)), s) := by
  unfold Source.walkAnswer
  rw [exec_bind, exec_session]
  dsimp only
  split <;> rfl

theorem exec_walkAnswer_map (s : State) (path : Path) (muted : Bool) :
    exec (Source.walkAnswer path muted .map) s =
      (.ok (.map (.walk path muted
        (if s.session.inCycle path then .declared []
        else match s.session.hints.keys? path.site with
          | some keys => .learned keys
          | none => .opened false) none [])), s) := by
  unfold Source.walkAnswer
  rw [exec_bind, exec_session]
  dsimp only
  cases s.session.inCycle path with
  | true => rfl
  | false => cases s.session.hints.keys? path.site <;> rfl

theorem exec_walkAnswer_enumeration (muted : Bool) (title : String) {variants : List String}
    (nonempty : variants ≠ []) {ref : TypeRef} {body : ShapeBody}
    (stands : s.Stands path muted ⟨ref, body⟩) :
    exec (Source.walkAnswer path muted (.enumeration title variants)) s =
      (.ok (.variant (.walk path (variants.getD (turn s.session.options.cycleThreshold
          (s.session.occurrencesAt path) variants.length) ""))),
        s.landed path muted ⟨ref, .cases (variants.map fun v => ⟨none, v⟩)⟩ s.session.sample
          s.world) := by
  have some' : variants.isEmpty = false := by simpa using nonempty
  unfold Source.walkAnswer
  rw [exec_bind, exec_session]
  dsimp only
  rw [some', if_neg Bool.false_ne_true]
  cases muted with
  | true =>
      rw [if_neg (by simp)]
      rfl
  | false =>
      rw [if_pos (by simp), exec_bind, stands.modified]
      rfl

end

namespace Stage
variable {S : Stage} {read : Nat → TypeReader} {path : Path} {muted : Bool}
variable {inPlace : World → TypeExpr → ShapeBody → Json → Prop}

theorem Reads.mono {read : Nat → Source → Decode Unit}
    {left left' : World → ShapeBody → Json → Prop}
    (h : S.Reads read path muted left) (sub : ∀ w body v, left w body v → left' w body v) :
    S.Reads read path muted left' := by
  intro s ref hs stands
  obtain ⟨body, sample, w, run, fits, grows, found⟩ := h s ref hs stands
  exact ⟨body, sample, w, run, fits, grows, sub w body sample found⟩

theorem reads_option {inner : TypeExpr}
    (h : S.inCycle path = false →
      S.Reads (fun d => read d inner) path muted fun w => inPlace w inner) {learned : Bool} :
    S.Reads (fun d => readOption (read d inner)) path muted fun w =>
      Made (S.made w) (inPlace w) S.options.maxSequenceLength (S.inCycle path) learned muted
        (.option inner) := by
  intro s ref hs stands
  have answer := exec_walkAnswer_option s path muted
  rw [hs.inCycle] at answer
  unfold readOption
  cases hc : S.inCycle path with
  | true =>
      refine ⟨.plain, .null, s.world, .of_forall fun d => ?_, hs.fits, S.refl _, .cutOption rfl⟩
      rw [hc, if_pos rfl] at answer
      rw [exec_bind, exec_ask_walk "option" answer]
      dsimp only
      rw [stands.sample_landed]
      rfl
  | false =>
      obtain ⟨body, sample, w, run, fits, grows, left⟩ := h hc s ref hs stands
      refine ⟨body, sample, w, ?_, fits, grows, .option rfl left⟩
      rw [hc, if_neg Bool.false_ne_true] at answer
      filter_upwards [run] with d run
      rw [exec_bind, exec_ask_walk "option" answer]
      exact run

theorem reads_newtype {name : String} {inner : TypeExpr}
    (h : S.Reads (fun d => read d inner) path muted fun w => inPlace w inner) {most : Nat}
    {cut learned : Bool} :
    S.Reads (fun d => readNewtype (read d inner) name) path muted fun w =>
      Made (S.made w) (inPlace w) most cut learned muted (.newtype name inner) := by
  intro s ref hs stands
  obtain ⟨body, sample, w, run, fits, grows, left⟩ := h s ref hs stands
  refine ⟨body, sample, w, ?_, fits, grows, .newtype left⟩
  filter_upwards [run] with d run
  unfold Reader.readNewtype
  rw [exec_bind, exec_ask_walk _ rfl]
  exact run

/-- Reading a record whose parts land. -/
theorem lands_acceptRecord {fields : List FieldDecl} {ref : TypeRef} {body : ShapeBody}
    (style : Style) (expecting : String) (denyUnknown : Bool)
    (nodup : (fields.map FieldDecl.name).Nodup)
    (h : ∀ field ∈ fields, S.Child read path muted field.name field.type) {s : State}
    (hs : S.Holds s) (stands : s.Stands path muted ⟨ref, body⟩) (takes : body.IsOpen) :
    ∃ pieces w, pieces.map Piece.type = fields.map FieldDecl.type ∧
      (∀ᶠ d in S.late, exec (acceptRecord (read d) expecting fields denyUnknown
        ⟨.map (.walk path muted (.declared (fields.map FieldDecl.name)) none []), style, none⟩) s =
        (.ok (), s.landed path muted
          ⟨ref, body.withFields ((fields.map FieldDecl.name).zip (pieces.map Piece.shape))⟩
          (.object (filed [] (fields.map FieldDecl.name) pieces)) w)) ∧
      S.fits w ∧ S.grows s.world w ∧ ∀ x ∈ pieces, S.made w muted x := by
  have known : ∀ field ∈ fields, ∃ i, findField? fields field.name = some (i, field) := by
    intro field hf
    obtain ⟨i, hi⟩ := List.mem_iff_getElem?.mp hf
    exact ⟨i, findField?_of_mem nodup hi⟩
  obtain ⟨pieces, t, done, types, run, steps, made, -, all⟩ := lands_readFields style denyUnknown h
    known nodup (fun _ _ _ _ => List.not_mem_nil) []
    (show fields.length < (fields.map FieldDecl.name).length + 1 by simp) hs stands takes
  refine ⟨pieces, t.world, types, ?_, steps.fits, steps.grows, made⟩
  have checked : exec (checkMissing style fields done.contains) t = (.ok (), t) := by
    rw [checkMissing_done fun i field hi => ?_]
    · rfl
    · simpa using all field (List.mem_of_getElem? hi) i (findField?_of_mem nodup hi)
  filter_upwards [run] with d run
  have inner : exec (readFields (read d) style fields denyUnknown
        ((fields.map FieldDecl.name).length + 1) []
        (.walk path muted (.declared (fields.map FieldDecl.name)) none []) >>= fun r => do
      checkMissing style fields r.1.contains
      return ((), r.2)) s = (.ok ((), .walk path muted (.declared []) none
        (filed [] (fields.map FieldDecl.name) pieces)), t) := by
    rw [exec_bind, run]
    dsimp only
    rw [exec_bind, checked]
    rfl
  rw [← (steps.resampled stands _).2]
  unfold acceptRecord readRecordMap
  exact lands_readMap inner

theorem reads_record {expecting : String} {fields : List FieldDecl} {library denyUnknown : Bool}
    (nodup : (fields.map FieldDecl.name).Nodup)
    (h : ∀ field ∈ fields, S.Child read path muted field.name field.type) {most : Nat}
    {cut learned : Bool} :
    S.Reads (fun d => Layout.read (read d) (.record expecting fields library denyUnknown))
      path muted fun w => Made (S.made w) (inPlace w) most cut learned muted
        (.record expecting fields library denyUnknown) := by
  intro s ref hs stands
  obtain ⟨pieces, w, types, run, fits, grows, made⟩ := lands_acceptRecord .engine expecting
    (library || denyUnknown) nodup h hs stands trivial
  refine ⟨_, _, w, ?_, fits, grows, .record types made⟩
  have ask : exec ((Source.walk path muted).ask (recordRequest fields) expecting) s =
      (.ok ⟨.map (.walk path muted (.declared (fields.map FieldDecl.name)) none []), .engine, none⟩,
        s) := exec_ask_walk expecting rfl
  filter_upwards [run] with d run
  cases library with
  | true =>
      unfold Layout.read readLibraryRecord
      rw [exec_bind, ask]
      exact run
  | false =>
      unfold Layout.read
      dsimp only
      rw [exec_bind, ask]
      exact run

theorem length_of_types {pieces : List Piece} {types : List TypeExpr}
    (h : pieces.map Piece.type = types) : pieces.length = types.length := by
  rw [← h, List.length_map]

theorem reads_seq {inner : TypeExpr}
    (h : S.inCycle path = false → ∀ i < S.options.maxSequenceLength,
      S.Child read path muted (Decimal.numeral i) inner) {learned : Bool} :
    S.Reads (fun d => readSeq (fun _ => seedOf (read d) inner) none) path muted fun w =>
      Made (S.made w) (inPlace w) S.options.maxSequenceLength (S.inCycle path) learned muted
        (.seq inner) := by
  intro s ref hs stands
  generalize hl : (if S.inCycle path then 0 else S.options.maxSequenceLength) = limit
  obtain ⟨pieces, t, ht, run, steps, made⟩ : ∃ pieces t,
      pieces.map Piece.type = List.replicate limit inner ∧
      (∀ᶠ d in S.late, exec (readElements (fun _ => seedOf (read d) inner) (limit + 1) 0
        (.walk path muted limit 0 [])) s =
        (.ok (limit, .walk path muted limit limit ((pieces.map Piece.sample).reverse ++ [])), t)) ∧
      S.Steps path muted ref .plain (numbered 0 pieces) s t ∧
      ∀ x ∈ pieces, S.made t.world muted x := by
    cases hc : S.inCycle path with
    | true =>
        obtain rfl : 0 = limit := by rw [← hl, hc]; rfl
        exact ⟨[], s, rfl, .of_forall fun _ => rfl, .start hs stands, by simp⟩
    | false =>
        obtain rfl : S.options.maxSequenceLength = limit := by rw [← hl, hc]; rfl
        exact lands_readElements (h hc) [] (Nat.zero_add _) (Nat.lt_succ_self _) hs stands trivial
  refine ⟨_, _, t.world, ?_, steps.fits, steps.grows, .seq (hl ▸ ht) made⟩
  have answer : exec (Source.walkAnswer path muted .seq) s =
      (.ok (.seq (.walk path muted limit 0 [])), s) := by
    unfold Source.walkAnswer
    rw [exec_bind, exec_session]
    dsimp only
    rw [hs.inCycle, hs.options, hl]
    rfl
  filter_upwards [run] with d run
  unfold readSeq readOpen
  rw [exec_bind, exec_ask_walk _ answer]
  dsimp only
  refine (lands_readSeq (a := ()) limit limit ((pieces.map Piece.sample).reverse ++ []) ?_
    (steps.stands stands)).trans ?_
  · show exec (readElements _ (limit - 0 + 1) 0 _ >>= _) s = _
    rw [Nat.sub_zero, exec_bind, run]
    rfl
  · rw [(steps.holds hs).options, steps.relanded stands, List.append_nil, List.reverse_reverse]
    have count := length_of_types ht
    rw [List.length_replicate] at count
    rw [count]

theorem reads_tuple {expecting : String} {types : List TypeExpr}
    (h : ∀ i type, types[i]? = some type → S.Child read path muted (Decimal.numeral i) type)
    {cut learned : Bool} :
    S.Reads (fun d => readTuple expecting (types.map (seedOf (read d)))) path muted fun w =>
      Made (S.made w) (inPlace w) S.options.maxSequenceLength cut learned muted
        (.tuple expecting types) := by
  intro s ref hs stands
  obtain ⟨pieces, t, ht, run, steps, made⟩ := lands_readPlaces .engine expecting
    (fun i c hc => (Nat.zero_add i).symm ▸ h i c hc) []
    (show 0 + types.length ≤ types.length by omega) hs stands trivial
  refine ⟨_, _, t.world, ?_, steps.fits, steps.grows, .tuple ht made⟩
  filter_upwards [run] with d run
  unfold Reader.readTuple acceptTuple
  rw [exec_bind, exec_ask_walk expecting rfl, List.length_map]
  have closed := lands_readSeq _ _ _ run (steps.stands stands)
  rw [(steps.holds hs).options, steps.relanded stands, Nat.zero_add, List.append_nil,
    List.reverse_reverse] at closed
  rw [length_of_types ht]
  exact closed

theorem learned_ne_nil {hints : Hints} {site : Site} {names : List String}
    (h : hints.keys? site = some names) : names ≠ [] := by
  rintro rfl
  unfold Hints.keys? at h
  split at h
  · split at h
    · cases h
    · next filled => simp_all
  · cases h

/-- In a cycle nothing is asked of a map. -/
theorem reads_cutMap {inner : TypeExpr} (cut : S.inCycle path = true) :
    S.Reads
      (fun d => readMap (fun source => discard (readText source)) (seedOf (read d) inner) none)
      path muted fun _ body sample => body = .plain ∧ sample = .object [] := by
  intro s ref hs stands
  have answer := exec_walkAnswer_map s path muted
  rw [hs.inCycle, cut, if_pos rfl] at answer
  refine ⟨.plain, .object [], s.world, .of_forall fun d => ?_, hs.fits, S.refl _, rfl, rfl⟩
  unfold readMap
  rw [exec_bind, exec_ask_walk _ answer]
  dsimp only
  rw [← stands.sample_landed]
  exact lands_readMap rfl

/-- Where no keys were learned for it, a map lands if any value of it does. -/
theorem reads_openMap {inner : TypeExpr} (uncut : S.inCycle path = false)
    (unlearned : S.hints.keys? path.site = none)
    (h : S.Child read path muted Shape.anyKey inner) :
    S.Reads
      (fun d => readMap (fun source => discard (readText source)) (seedOf (read d) inner) none)
      path muted fun w body sample => ∃ x, x.type = inner ∧ S.made w muted x ∧
        body = .fields [(Shape.anyKey, x.shape)] ∧ sample = .object [("", x.sample)] := by
  intro s ref hs stands
  have answer := exec_walkAnswer_map s path muted
  rw [hs.inCycle, hs.hints, uncut, if_neg Bool.false_ne_true, unlearned] at answer
  obtain ⟨x, t, hx, run, steps, made⟩ :=
    lands_readOpened h (show 1 < 1 + 1 by omega) hs stands trivial
  refine ⟨_, _, t.world, ?_, steps.fits, steps.grows, x, hx, made, rfl, rfl⟩
  filter_upwards [run] with d run
  unfold readMap
  rw [exec_bind, exec_ask_walk _ answer]
  dsimp only
  refine (lands_readMap run).trans ?_
  rw [(steps.resampled stands _).2]
  rfl

/-- A map lands whose values under the keys learned for it do. -/
theorem reads_learnedMap {inner : TypeExpr} {names : List String} (uncut : S.inCycle path = false)
    (learned : S.hints.keys? path.site = some names)
    (h : ∀ name ∈ names, S.Child read path muted name inner) {most : Nat} :
    S.Reads
      (fun d => readMap (fun source => discard (readText source)) (seedOf (read d) inner) none)
      path muted fun w => Made (S.made w) (inPlace w) most false true muted (.map inner) := by
  intro s ref hs stands
  have answer := exec_walkAnswer_map s path muted
  rw [hs.inCycle, hs.hints, uncut, if_neg Bool.false_ne_true, learned] at answer
  obtain ⟨pieces, t, types, run, steps, made⟩ := lands_readLearned h []
    (Nat.lt_succ_self names.length) hs stands trivial
  refine ⟨_, _, t.world, ?_, steps.fits, steps.grows,
    .map rfl rfl (learned_ne_nil learned) types made⟩
  filter_upwards [run] with d run
  unfold readMap
  rw [exec_bind, exec_ask_walk _ answer]
  dsimp only
  refine (lands_readMap run).trans ?_
  rw [(steps.resampled stands _).2]

theorem reads_map {inner : TypeExpr}
    (h : S.inCycle path = false → ∀ key ∈ (S.hints.keys? path.site).getD [Shape.anyKey],
      S.Child read path muted key inner) :
    S.Reads
      (fun d => readMap (fun source => discard (readText source)) (seedOf (read d) inner) none)
      path muted fun w =>
      Made (S.made w) (inPlace w) S.options.maxSequenceLength (S.inCycle path)
        (S.hints.keys? path.site).isSome muted (.map inner) := by
  cases hc : S.inCycle path with
  | true =>
      refine (reads_cutMap hc).mono fun w body sample left => ?_
      obtain ⟨rfl, rfl⟩ := left
      exact .cutMap rfl
  | false =>
      cases hk : S.hints.keys? path.site with
      | none =>
          have any := h hc _ (by rw [hk]; exact List.mem_singleton_self _)
          refine (reads_openMap hc hk any).mono fun w body sample left => ?_
          obtain ⟨x, rfl, made, rfl, rfl⟩ := left
          exact .openMap rfl made
      | some names => exact reads_learnedMap hc hk fun name hn => h hc name (by rw [hk]; exact hn)

/-- The payload of a variant lands if its parts do. -/
theorem lands_payload {content : VariantContent} (hu : content ≠ .unit)
    (nodup : ∀ fields, content = .record fields → (fields.map FieldDecl.name).Nodup)
    {variant : String}
    (h : ∀ key type, content.Under variant key type → S.Child read path true key type) {s : State}
    (hs : S.Holds s) (ref : TypeRef) :
    ∃ sample t,
      (∀ᶠ d in S.late, exec (readContent (read d) (.walk path variant) content) s = (.ok (), t)) ∧
      t = s.landed path true ⟨ref, .plain⟩ (.object [(variant, sample)]) t.world ∧
      S.fits t.world ∧ S.grows s.world t.world ∧
      PayloadMade (S.made t.world true) content sample := by
  have stands : s.Stands path true ⟨ref, .plain⟩ := fun muted => by cases muted
  cases content with
  | unit => exact absurd rfl hu
  | newtype type =>
      obtain ⟨x, w, rfl, run, fits, grows, made⟩ :=
        h variant type ⟨rfl, rfl⟩ s ref .plain hs stands trivial
      refine ⟨x.sample, s.landed path true ⟨ref, .plain⟩ (.object [(variant, x.sample)]) w, ?_, rfl,
        fits, grows, .newtype made⟩
      filter_upwards [run] with d run
      unfold readContent VariantCursor.readNewtype
      dsimp only
      rw [exec_bind, run]
      rfl
  | tuple types =>
      have inside : ∀ i type, types[i]? = some type →
          S.Child read path true (Decimal.numeral (0 + i)) type :=
        fun i c hc => h _ c ⟨i, hc, by rw [Nat.zero_add]⟩
      obtain ⟨pieces, t, ht, run, steps, made⟩ := lands_readPlaces .engine
        ("a tuple of " ++ Decimal.numeral types.length) inside []
        (show 0 + types.length ≤ types.length by omega) hs stands trivial
      refine ⟨.array (pieces.map Piece.sample), s.landed path true ⟨ref, .plain⟩ _ t.world, ?_, rfl,
        steps.fits, steps.grows, .tuple ht made⟩
      filter_upwards [run] with d run
      have closed := lands_readSeq _ _ _ run (steps.stands stands)
      rw [steps.relanded stands, List.append_nil, List.reverse_reverse] at closed
      unfold readContent VariantCursor.readTuple VariantCursor.readContainer acceptTuple
      dsimp only
      rw [exec_bind, closed]
      rfl
  | record fields =>
      have inside : ∀ field ∈ fields, S.Child read path true field.name field.type :=
        fun field hf => h _ field.type ⟨field, hf, rfl, rfl⟩
      obtain ⟨pieces, w, types, run, fits, grows, made⟩ := lands_acceptRecord .engine
        ("struct " ++ variant) false (nodup fields rfl) inside hs stands trivial
      refine ⟨_, s.landed path true ⟨ref, .plain⟩ _ w, ?_, rfl, fits, grows, .record types made⟩
      filter_upwards [run] with d run
      unfold readContent VariantCursor.readRecord VariantCursor.readContainer
      dsimp only [VariantCursor.variant]
      rw [exec_bind, run]
      rfl

/-- An enumeration lands if the variant in turn does: it leaves the names of all variants, and the
name of that one or what its payload is made from. -/
theorem reads_variant {name variant : String} {variants : List (String × VariantContent)}
    {chosen : VariantContent}
    (taken : (variants.map Prod.fst)[S.turn path variants.length]? = some variant)
    (hv : Table.get? variants variant = some chosen)
    (nodup : ∀ fields, chosen = .record fields → (fields.map FieldDecl.name).Nodup)
    (h : ∀ key type, chosen.Under variant key type → S.Child read path true key type) :
    S.Reads (fun d => readEnumeration (read d) name variants) path muted fun w body sample =>
      body = .cases (variants.map fun v => ⟨none, v.1⟩) ∧
        (chosen = .unit ∧ sample = .string variant ∨
          ∃ v, sample = .object [(variant, v)] ∧ PayloadMade (S.made w true) chosen v) := by
  intro s ref hs stands
  let cases : ShapeBody := .cases (variants.map fun v => ⟨none, v.1⟩)
  have answer : exec (Source.walkAnswer path muted (.enumeration name (variants.map Prod.fst))) s =
      (.ok (.variant (.walk path variant)),
        s.landed path muted ⟨ref, cases⟩ s.session.sample s.world) := by
    have answer := exec_walkAnswer_enumeration muted name
      (List.ne_nil_of_mem (List.mem_of_getElem? taken)) stands
    rw [hs.turn, List.length_map, List.getD_eq_getElem?_getD, taken, List.map_map] at answer
    exact answer
  have begun (d : Nat) : exec (readEnumeration (read d) name variants (.walk path muted)) s =
      exec (readContent (read d) (.walk path variant) chosen)
        (s.landed path muted ⟨ref, cases⟩ s.session.sample s.world) := by
    unfold readEnumeration
    rw [exec_bind, exec_ask_walk _ answer]
    dsimp only [VariantCursor.variant]
    rw [hv]
  by_cases hu : chosen = .unit
  · subst hu
    refine ⟨cases, .string variant, s.world, .of_forall fun d => (begun d).trans ?_, hs.fits,
      S.refl _, rfl, .inl ⟨rfl, rfl⟩⟩
    have noted := (stands.landed ⟨ref, cases⟩ s.session.sample s.world).sample_landed
      (.string variant)
    rw [stands.landed_landed] at noted
    exact congrArg (Prod.mk (Except.ok ())) noted
  · have holds : S.Holds (s.landed path muted ⟨ref, cases⟩ s.session.sample s.world) :=
      ⟨hs.options, hs.occurrences, hs.hints, hs.fits⟩
    obtain ⟨sample, t, run, landed, fits, grows, made⟩ := lands_payload hu nodup h holds ref
    refine ⟨cases, .object [(variant, sample)], t.world, ?_, fits, grows, rfl,
      .inr ⟨sample, rfl, made⟩⟩
    filter_upwards [run] with d run
    exact (begun d).trans (run.trans (by rw [landed]; rfl))

theorem reads_enumeration {name : String} {variants : List (String × VariantContent)}
    (sound : (Layout.enumeration name variants).Sound)
    (h : ∀ key, ∀ type ∈ (Layout.enumeration name variants).payload,
      S.Child read path true key type)
    (uncut : S.inCycle path = false) {most : Nat} {cut learned : Bool} :
    S.Reads (fun d => readEnumeration (read d) name variants) path muted fun w =>
      Made (S.made w) (inPlace w) most cut learned muted (.enumeration name variants) := by
  obtain ⟨nonempty, sound⟩ := sound
  cases variants with
  | nil => exact absurd rfl nonempty
  | cons first rest =>
      obtain ⟨variant, content⟩ := first
      obtain ⟨chosen, hv⟩ : ∃ chosen,
          Table.get? ((variant, content) :: rest) variant = some chosen :=
        ⟨content, by simp [Table.get?]⟩
      have taken : (((variant, content) :: rest).map Prod.fst)[
          S.turn path ((variant, content) :: rest).length]? = some variant := by
        rw [turn_of_uncut uncut]
        rfl
      have inside : ∀ key type, chosen.Under variant key type → S.Child read path true key type :=
        fun key type under => h key type (by simpa [Layout.payload, hv] using under.mem_parts)
      refine (reads_variant taken hv (fun fields same => ?_) inside).mono fun w body v left => ?_
      · have := sound _ (Table.mem_of_get? hv)
        rwa [same] at this
      · obtain ⟨rfl, ⟨rfl, rfl⟩ | ⟨payload, rfl, made⟩⟩ := left
        · exact .unit hv
        · exact .payload hv made

/-- A layout lands if its parts do, and what it leaves is made from what they left. -/
theorem reads_layout {layout : Layout} (sound : layout.Sound)
    (ends : ∀ name variants, layout = .enumeration name variants → S.inCycle path = false)
    (inner : ∀ type, layout.inner? = some type →
      (∀ i, layout = .option i → S.inCycle path = false) →
      S.Reads (fun d => read d type) path muted fun w => inPlace w type)
    (children : (∀ i, layout = .seq i ∨ layout = .map i → S.inCycle path = false) →
      ∀ key type, layout.Under S.options.maxSequenceLength (S.hints.keys? path.site) key type →
        S.Child read path muted key type)
    (payload : ∀ key, ∀ type ∈ layout.payload, S.Child read path true key type) :
    S.Reads (fun d => layout.read (read d)) path muted fun w =>
      Made (S.made w) (inPlace w) S.options.maxSequenceLength (S.inCycle path)
        (S.hints.keys? path.site).isSome muted layout := by
  cases layout with
  | pointer type =>
      intro s ref hs stands
      obtain ⟨body, sample, w, run, fits, grows, left⟩ :=
        inner type rfl (fun _ h => by cases h) s ref hs stands
      exact ⟨body, sample, w, run, fits, grows, .pointer left⟩
  | newtype name type => exact reads_newtype (inner type rfl fun _ h => by cases h)
  | option type => exact reads_option fun uncut => inner type rfl fun _ _ => uncut
  | record expecting fields library denyUnknown =>
      refine reads_record sound fun field hf => ?_
      exact children (fun _ h => by rcases h with h | h <;> cases h) _ _ ⟨field, hf, rfl, rfl⟩
  | seq type =>
      exact reads_seq fun uncut i hi => children (fun _ _ => uncut) _ type ⟨rfl, i, hi, rfl⟩
  | tuple expecting types =>
      refine reads_tuple fun i c hc => ?_
      exact children (fun _ h => by rcases h with h | h <;> cases h) _ c ⟨i, hc, rfl⟩
  | map type =>
      exact reads_map fun uncut key hk => children (fun _ _ => uncut) key type ⟨rfl, hk⟩
  | enumeration name variants => exact reads_enumeration sound payload (ends name variants rfl)

/-! ### Types -/

/-- A stage has schemas, and counting that a reader ran does not leave it. -/
structure Counts (S : Stage) (schemas : Schemas) : Prop where
  declared : ∀ {w}, S.fits w → w.schemas = schemas
  recounted : ∀ {w}, S.fits w → ∀ counts, S.fits { w with counts } ∧ S.grows w { w with counts }

/-- A scalar lands, and leaves the data made up for it. -/
theorem Counts.reads_scalar {schemas : Schemas} {t : TypeExpr} {zero : Json}
    (law : S.Counts schemas) (scalar : t.zero? schemas = some zero) :
    S.Reads (fun d => readTypeWith (read d) t) path muted fun _ body sample =>
      body = .plain ∧ sample = zero := by
  intro s ref hs stands
  obtain ⟨counts, began⟩ := s.began_recount t
  have standsBegan : (s.began t).Stands path muted ⟨ref, .plain⟩ := began ▸ stands
  obtain ⟨fits, grows⟩ := law.recounted hs.fits counts
  refine ⟨.plain, zero, { s.world with counts }, .of_forall fun d => ?_, fits, grows, rfl, rfl⟩
  rw [scalar_walked scalar _ _ _ (law.declared hs.fits), standsBegan.sample_landed, began]
  rfl

/-- A type lands where its layout does. -/
theorem Counts.reads_type {schemas : Schemas} {t : TypeExpr} {layout : Layout}
    (law : S.Counts schemas) (hl : t.layout? schemas = some layout)
    {left : World → ShapeBody → Json → Prop}
    (h : S.Reads (fun d => layout.read (read d)) path muted left) :
    S.Reads (fun d => readTypeWith (read d) t) path muted left := by
  intro s ref hs stands
  obtain ⟨counts, began⟩ := s.began_recount t
  obtain ⟨fits, grows⟩ := law.recounted hs.fits counts
  have holds : S.Holds (s.began t) := began ▸ ⟨hs.options, hs.occurrences, hs.hints, fits⟩
  obtain ⟨body, sample, w, run, fits', grows', found⟩ := h (s.began t) ref holds (began ▸ stands)
  rw [began] at grows'
  refine ⟨body, sample, w, run.mono fun d run => ?_, fits', S.trans grows grows', found⟩
  rw [exec_layout hl _ _ (law.declared hs.fits), run, began]
  rfl

end Stage

/-! ## Samples of layouts -/

section
variable {accepts : TypeExpr → Json → Prop} {made : Bool → Piece → Prop} {muted : Bool}

theorem accepted_pieces {types : List TypeExpr} {pieces : List Piece}
    (ht : pieces.map Piece.type = types) (h : ∀ x ∈ pieces, accepts x.type x.sample) :
    List.Forall₂ accepts types (pieces.map Piece.sample) := by
  subst ht
  rw [List.forall₂_map_left_iff, List.forall₂_map_right_iff, List.forall₂_same]
  exact h

theorem accepted_fields {fields : List FieldDecl} {pieces : List Piece}
    (nodup : (fields.map FieldDecl.name).Nodup)
    (ht : pieces.map Piece.type = fields.map FieldDecl.type)
    (h : ∀ x ∈ pieces, accepts x.type x.sample) :
    HoldsFields accepts fields (Stage.filed [] (fields.map FieldDecl.name) pieces) :=
  HoldsFields.ofList nodup (List.forall₂_map_left_iff.mp (accepted_pieces ht h))

theorem mem_filed {samples : List (String × Json)} {names : List String} {pieces : List Piece}
    {member : String × Json} (h : member ∈ Stage.filed samples names pieces) :
    member ∈ samples ∨ ∃ x ∈ pieces, x.sample = member.2 := by
  unfold Stage.filed at h
  induction pieces generalizing samples names with
  | nil => exact .inl (by simpa using h)
  | cons x pieces ih =>
      cases names with
      | nil => exact .inl h
      | cons name names =>
          rcases ih h with h | ⟨y, hy, same⟩
          · rcases Table.mem_insert h with rfl | h
            · exact .inr ⟨x, List.mem_cons_self, rfl⟩
            · exact .inl h
          · exact .inr ⟨y, List.mem_cons_of_mem _ hy, same⟩

theorem type_of_replicate {pieces : List Piece} {count : Nat} {type : TypeExpr}
    (h : pieces.map Piece.type = List.replicate count type) : ∀ x ∈ pieces, x.type = type :=
  fun _ hx => List.eq_of_mem_replicate (h ▸ List.mem_map_of_mem hx)

theorem Made.data {inPlace : TypeExpr → ShapeBody → Json → Prop} {most : Nat}
    {cut learned : Bool} {layout : Layout} {body : ShapeBody} {sample : Json}
    (h : Made made inPlace most cut learned muted layout body sample) (sound : layout.Sound)
    (hm : ∀ muted x, made muted x → accepts x.type x.sample)
    (hi : ∀ type body sample, inPlace type body sample → accepts type sample) :
    LayoutData accepts layout sample := by
  cases h with
  | pointer h => exact .pointer (hi _ _ _ h)
  | newtype h => exact .newtype (hi _ _ _ h)
  | option _ h => exact .some (hi _ _ _ h)
  | cutOption => exact .none
  | record ht h => exact .record (accepted_fields sound ht fun x hx => hm _ x (h x hx))
  | seq ht h =>
      refine .seq fun value hv => ?_
      obtain ⟨x, hx, rfl⟩ := List.mem_map.mp hv
      exact type_of_replicate ht x hx ▸ hm _ x (h x hx)
  | tuple ht h => exact .tuple (accepted_pieces ht fun x hx => hm _ x (h x hx))
  | map _ _ _ ht h =>
      refine .map fun member hmem => ?_
      rcases mem_filed hmem with hmem | ⟨x, hx, same⟩
      · cases hmem
      · exact same ▸ type_of_replicate ht x hx ▸ hm _ x (h x hx)
  | openMap _ h =>
      refine .map fun member hmem => ?_
      obtain rfl := List.mem_singleton.mp hmem
      exact hm _ _ h
  | cutMap =>
      refine .map fun member hmem => ?_
      cases hmem
  | unit hv => exact .unit hv
  | payload hv h =>
      have chosenSound := sound.2 _ (Table.mem_of_get? hv)
      refine .payload hv ?_
      cases h with
      | newtype h => exact .newtype (hm _ _ h)
      | tuple ht h => exact .tuple chosenSound (accepted_pieces ht fun x hx => hm _ x (h x hx))
      | record ht h => exact .record (accepted_fields chosenSound ht fun x hx => hm _ x (h x hx))

end
end Walk
end ApiAtlas
