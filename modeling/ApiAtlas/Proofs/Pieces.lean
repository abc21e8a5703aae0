import ApiAtlas.Proofs.Landing
import Mathlib.Order.Filter.AtTopBot.Basic

/-!
# Walks of layouts

A stage fixes what a walk finds where it reads the inside of a value. If every part lands under
its key, reading a layout lands, and what it left is put together from the pieces that the parts
left. Everything is said of late allowances: of all that suffice for some number of layers, or of
all from some allowance on.
-/
namespace ApiAtlas.Walk
open Decode Reader

/-- What a walk of a value left. -/
structure Piece where
  type : TypeExpr
  body : ShapeBody
  sample : Json

/-- The recorded node of a piece. -/
def Piece.shape (x : Piece) : Shape := ⟨x.type.ref, x.body⟩

/-- What a walk finds where it reads the inside of a value, and what the walks inside leave. -/
structure Stage where
  options : Options
  occurrences : List (Segment × Nat)
  hints : Hints
  /-- The allowances within which parts land. -/
  late : Filter Nat
  /-- The worlds in which parts land. -/
  fits : World → Prop
  /-- How a world may change. -/
  grows : World → World → Prop
  /-- What is known of a piece, left by a walk that was muted or not. -/
  made : World → Bool → Piece → Prop
  refl : ∀ w, grows w w
  trans : ∀ {u v w}, grows u v → grows v w → grows u w
  kept : ∀ {v w muted x}, made v muted x → grows v w → made w muted x

namespace Stage
variable (S : Stage)

/-- The state is one of the stage. -/
structure Holds (s : State) : Prop where
  options : s.session.options = S.options
  occurrences : s.session.occurrences = S.occurrences
  hints : s.session.hints = S.hints
  fits : S.fits s.world

/-- A part lands under a key. -/
def Child (read : Nat → TypeReader) (path : Path) (muted : Bool) (key : String) (type : TypeExpr) :
    Prop :=
  ∀ s ref body, S.Holds s → s.Stands path muted ⟨ref, body⟩ → body.IsOpen →
    ∃ x w, x.type = type ∧
      (∀ᶠ d in S.late, exec (readChild path muted key (seedOf (read d) type)) s =
        (.ok (), s.landed path muted ⟨ref, body.withField key x.shape⟩ x.sample w)) ∧
      S.fits w ∧ S.grows s.world w ∧ S.made w muted x

/-- A walk went on from a state, recorded fields in the node of a path, and changed no more. -/
structure Steps (path : Path) (muted : Bool) (ref : TypeRef) (body : ShapeBody)
    (entries : List (String × Shape)) (s t : State) : Prop where
  landed : ∃ v, t = s.landed path muted ⟨ref, body.withFields entries⟩ v t.world
  fits : S.fits t.world
  grows : S.grows s.world t.world

end Stage

variable {S : Stage} {read : Nat → TypeReader} {path : Path} {muted : Bool} {ref : TypeRef}
variable {body : ShapeBody} {s t u : State}

namespace Stage

theorem Steps.start (hs : S.Holds s) (stands : s.Stands path muted ⟨ref, body⟩) :
    S.Steps path muted ref body [] s s :=
  ⟨⟨s.session.sample, stands.landed_self.symm⟩, hs.fits, S.refl _⟩

theorem Steps.holds {entries : List (String × Shape)}
    (h : S.Steps path muted ref body entries s t) (hs : S.Holds s) : S.Holds t := by
  obtain ⟨v, ht⟩ := h.landed
  have fits := h.fits
  rw [ht] at fits ⊢
  exact ⟨hs.options, hs.occurrences, hs.hints, fits⟩

theorem Steps.stands {entries : List (String × Shape)}
    (h : S.Steps path muted ref body entries s t) (stands : s.Stands path muted ⟨ref, body⟩) :
    t.Stands path muted ⟨ref, body.withFields entries⟩ := by
  obtain ⟨v, ht⟩ := h.landed
  rw [ht]
  exact stands.landed _ _ _

/-- A piece stays what it was made as while the ones behind it are made. -/
theorem Steps.made_cons {entries : List (String × Shape)} {x : Piece} {pieces : List Piece}
    (h : S.Steps path muted ref body entries s t) (made : S.made s.world muted x)
    (all : ∀ y ∈ pieces, S.made t.world muted y) : ∀ y ∈ x :: pieces, S.made t.world muted y :=
  List.forall_mem_cons.mpr ⟨S.kept made h.grows, all⟩

theorem Steps.trans {a b : List (String × Shape)} (h : S.Steps path muted ref body a s t)
    (h' : S.Steps path muted ref (body.withFields a) b t u)
    (stands : s.Stands path muted ⟨ref, body⟩) :
    S.Steps path muted ref body (a ++ b) s u := by
  obtain ⟨v, ht⟩ := h.landed
  obtain ⟨v', hu⟩ := h'.landed
  refine ⟨⟨v', ?_⟩, h'.fits, S.trans h.grows h'.grows⟩
  rw [ht, stands.landed_landed, ← ShapeBody.withFields_append] at hu
  exact hu

/-- A landing in the node of the steps is one from where they started. -/
theorem Steps.relanded {entries : List (String × Shape)}
    (h : S.Steps path muted ref body entries s t) (stands : s.Stands path muted ⟨ref, body⟩)
    (node : Shape) (v : Json) (w : World) :
    t.landed path muted node v w = s.landed path muted node v w := by
  obtain ⟨v', ht⟩ := h.landed
  rw [ht, stands.landed_landed]

/-- A new sample is no step. -/
theorem Steps.resampled {entries : List (String × Shape)}
    (h : S.Steps path muted ref body entries s t) (stands : s.Stands path muted ⟨ref, body⟩)
    (v : Json) :
    S.Steps path muted ref body entries s (t.inSession (Note.sample v).apply) ∧
      t.inSession (Note.sample v).apply =
        s.landed path muted ⟨ref, body.withFields entries⟩ v t.world := by
  have same : t.inSession (Note.sample v).apply =
      s.landed path muted ⟨ref, body.withFields entries⟩ v t.world := by
    rw [(h.stands stands).sample_landed, h.relanded stands]
  exact ⟨⟨⟨v, same⟩, h.fits, h.grows⟩, same⟩

/-- One part is read under a key, and its sample taken. -/
theorem Child.taken {type : TypeExpr} {key : String} (h : S.Child read path muted key type)
    (hs : S.Holds s) (stands : s.Stands path muted ⟨ref, body⟩) (takes : body.IsOpen) :
    ∃ x t, x.type = type ∧
      (∀ᶠ d in S.late, exec (readChild path muted key (seedOf (read d) type)) s = (.ok (), t)) ∧
      t.session.sample = x.sample ∧
      S.Steps path muted ref body [(key, x.shape)] s (t.inSession (Note.sample .null).apply) ∧
      S.made t.world muted x := by
  obtain ⟨x, w, hx, run, fits, grows, made⟩ := h s ref body hs stands takes
  have step : S.Steps path muted ref body [(key, x.shape)] s
      (s.landed path muted ⟨ref, body.withField key x.shape⟩ x.sample w) :=
    ⟨⟨x.sample, rfl⟩, fits, grows⟩
  exact ⟨x, _, hx, run, rfl, (step.resampled stands .null).1, made⟩

/-! ## Loops -/

/-- The nodes of the elements of a sequence, by place. -/
def numbered : Nat → List Piece → List (String × Shape)
  | _, [] => []
  | index, x :: rest => (Decimal.numeral index, x.shape) :: numbered (index + 1) rest

/-- One element of a walked sequence is read. -/
theorem Child.next {type : TypeExpr} {limit index : Nat}
    (h : S.Child read path muted (Decimal.numeral index) type) (more : index < limit)
    (samples : List Json) (hs : S.Holds s) (stands : s.Stands path muted ⟨ref, body⟩)
    (takes : body.IsOpen) :
    ∃ x t, x.type = type ∧
      (∀ᶠ d in S.late,
        exec (SeqCursor.next? (.walk path muted limit index samples) (seedOf (read d) type)) s =
          (.ok (some ((), .walk path muted limit (index + 1) (x.sample :: samples))), t)) ∧
      S.Steps path muted ref body [(Decimal.numeral index, x.shape)] s t ∧
      S.made t.world muted x := by
  obtain ⟨x, t, hx, run, sample, step, made⟩ := h.taken hs stands takes
  refine ⟨x, _, hx, ?_, step, made⟩
  filter_upwards [run] with d run
  unfold SeqCursor.next?
  dsimp only
  rw [if_neg (Nat.not_le.mpr more), exec_bind, run]
  dsimp only
  rw [exec_bind, exec_takeSample, sample]
  rfl

theorem lands_readPlaces (style : Style) (expecting : String) {types : List TypeExpr}
    {limit index : Nat}
    (h : ∀ i type, types[i]? = some type →
      S.Child read path muted (Decimal.numeral (index + i)) type)
    (samples : List Json) (enough : index + types.length ≤ limit) (hs : S.Holds s)
    (stands : s.Stands path muted ⟨ref, body⟩) (takes : body.IsOpen) :
    ∃ pieces t, pieces.map Piece.type = types ∧
      (∀ᶠ d in S.late, exec (readPlaces style expecting index (types.map (seedOf (read d)))
        (.walk path muted limit index samples)) s =
        (.ok ((), .walk path muted limit (index + types.length)
          ((pieces.map Piece.sample).reverse ++ samples)), t)) ∧
      S.Steps path muted ref body (numbered index pieces) s t ∧
      ∀ x ∈ pieces, S.made t.world muted x := by
  induction types generalizing index samples s body with
  | nil => exact ⟨[], s, rfl, .of_forall fun _ => rfl, .start hs stands, by simp⟩
  | cons type types ih =>
      rw [List.length_cons] at enough
      obtain ⟨x, t, hx, run, step, made⟩ := Child.next
        (show S.Child read path muted (Decimal.numeral index) type from h 0 type rfl)
        (show index < limit by omega) samples hs stands takes
      have later : ∀ i type, types[i]? = some type →
          S.Child read path muted (Decimal.numeral (index + 1 + i)) type := fun i c hc => by
        rw [Nat.add_assoc, Nat.add_comm 1 i]
        exact h (i + 1) c hc
      obtain ⟨pieces, u, types', run', steps, all⟩ := ih later (x.sample :: samples)
        (show index + 1 + types.length ≤ limit by omega) (step.holds hs)
        (step.stands stands) (takes.withField _ _)
      refine ⟨x :: pieces, u, by rw [List.map_cons, hx, types'], ?_, step.trans steps stands, ?_⟩
      · filter_upwards [run, run'] with d run run'
        rw [List.map_cons, readPlaces, exec_bind, run]
        dsimp only
        rw [run', List.length_cons, List.map_cons, List.reverse_cons, List.append_assoc,
          show index + 1 + types.length = index + (types.length + 1) by omega]
        rfl
      · exact steps.made_cons made all

theorem lands_readElements {type : TypeExpr} {limit index : Nat}
    (h : ∀ i < limit, S.Child read path muted (Decimal.numeral i) type)
    (samples : List Json) {left more : Nat} (hl : index + left = limit)
    (enough : left < more) (hs : S.Holds s) (stands : s.Stands path muted ⟨ref, body⟩)
    (takes : body.IsOpen) :
    ∃ pieces t, pieces.map Piece.type = List.replicate left type ∧
      (∀ᶠ d in S.late, exec (readElements (fun _ => seedOf (read d) type) more index
        (.walk path muted limit index samples)) s =
        (.ok (limit, .walk path muted limit limit
          ((pieces.map Piece.sample).reverse ++ samples)), t)) ∧
      S.Steps path muted ref body (numbered index pieces) s t ∧
      ∀ x ∈ pieces, S.made t.world muted x := by
  induction left generalizing index samples more s body with
  | zero =>
      obtain ⟨more, rfl⟩ := Nat.exists_eq_succ_of_ne_zero (Nat.ne_of_gt enough)
      obtain rfl : index = limit := hl
      refine ⟨[], s, rfl, .of_forall fun d => ?_, .start hs stands, by simp⟩
      rw [readElements, exec_bind]
      unfold SeqCursor.next?
      dsimp only
      rw [if_pos (Nat.le_refl _)]
      rfl
  | succ left ih =>
      obtain ⟨more, rfl⟩ := Nat.exists_eq_succ_of_ne_zero (Nat.ne_of_gt (Nat.zero_lt_of_lt enough))
      obtain ⟨x, t, hx, run, step, made⟩ := (h index (by omega)).next (show index < limit by omega)
        samples hs stands takes
      obtain ⟨pieces, u, types', run', steps, all⟩ := ih (x.sample :: samples)
        (show index + 1 + left = limit by omega) (show left < more by omega) (step.holds hs)
        (step.stands stands) (takes.withField _ _)
      refine ⟨x :: pieces, u, by rw [List.map_cons, hx, types']; rfl, ?_,
        step.trans steps stands, ?_⟩
      · filter_upwards [run, run'] with d run run'
        rw [readElements, exec_bind, run]
        dsimp only
        rw [run', List.map_cons, List.reverse_cons, List.append_assoc]
        rfl
      · exact steps.made_cons made all

/-- Samples filed under names of their own or others. -/
def filed (samples : List (String × Json)) (names : List String) (pieces : List Piece) :
    List (String × Json) :=
  (names.zip (pieces.map Piece.sample)).foldl
    (fun table entry => Table.insert table entry.1 entry.2) samples

/-- The value of a key of a walked map is read. -/
theorem Child.value {type : TypeExpr} {key : String} (h : S.Child read path muted key type)
    (keys : Keys) (sampleKey : String) (samples : List (String × Json)) (hs : S.Holds s)
    (stands : s.Stands path muted ⟨ref, body⟩) (takes : body.IsOpen) :
    ∃ x t, x.type = type ∧
      (∀ᶠ d in S.late,
        exec (MapCursor.nextValue (.walk path muted keys (some (key, sampleKey)) samples)
          (seedOf (read d) type)) s =
          (.ok ((), .walk path muted keys none (Table.insert samples sampleKey x.sample)), t)) ∧
      S.Steps path muted ref body [(key, x.shape)] s t ∧
      S.made t.world muted x := by
  obtain ⟨x, t, hx, run, sample, step, made⟩ := h.taken hs stands takes
  refine ⟨x, _, hx, ?_, step, made⟩
  filter_upwards [run] with d run
  unfold MapCursor.nextValue
  dsimp only
  rw [exec_bind, run]
  dsimp only
  rw [exec_bind, exec_takeSample, sample]
  rfl

/-- A map whose keys were learned is read key by key. -/
theorem lands_readLearned {type : TypeExpr} {names : List String}
    (h : ∀ name ∈ names, S.Child read path muted name type)
    (samples : List (String × Json)) {more : Nat} (enough : names.length < more) (hs : S.Holds s)
    (stands : s.Stands path muted ⟨ref, body⟩) (takes : body.IsOpen) :
    ∃ pieces t, pieces.map Piece.type = List.replicate names.length type ∧
      (∀ᶠ d in S.late,
        exec (readEntries (fun source => discard (readText source)) (seedOf (read d) type) more
          (.walk path muted (.learned names) none samples)) s =
          (.ok ((), .walk path muted (.learned []) none (filed samples names pieces)), t)) ∧
      S.Steps path muted ref body (names.zip (pieces.map Piece.shape)) s t ∧
      ∀ x ∈ pieces, S.made t.world muted x := by
  induction names generalizing samples more s body with
  | nil =>
      obtain ⟨more, rfl⟩ := Nat.exists_eq_succ_of_ne_zero (Nat.ne_of_gt enough)
      exact ⟨[], s, rfl, .of_forall fun _ => rfl, .start hs stands, by simp⟩
  | cons name names ih =>
      obtain ⟨more, rfl⟩ := Nat.exists_eq_succ_of_ne_zero (Nat.ne_of_gt (Nat.zero_lt_of_lt enough))
      obtain ⟨x, t, hx, run, step, made⟩ := (h name List.mem_cons_self).value (.learned names) name
        samples hs stands takes
      obtain ⟨pieces, u, types', run', steps, all⟩ := ih
        (fun other ho => h other (List.mem_cons_of_mem _ ho)) (Table.insert samples name x.sample)
        (Nat.lt_of_succ_lt_succ enough) (step.holds hs) (step.stands stands) (takes.withField _ _)
      refine ⟨x :: pieces, u, by rw [List.map_cons, hx, types']; rfl, ?_,
        step.trans steps stands, ?_⟩
      · have key : exec (MapCursor.nextKey?
            (.walk path muted (.learned (name :: names)) none samples)
            fun source => discard (readText source)) s =
            (.ok (some ((), .walk path muted (.learned names)
              (some (name, name)) samples)), s) := rfl
        filter_upwards [run, run'] with d run run'
        rw [readEntries, exec_bind, key]
        dsimp only
        rw [exec_bind, run]
        exact run'
      · exact steps.made_cons made all

/-- A map whose reader chooses its keys is read once. -/
theorem lands_readOpened {type : TypeExpr} (h : S.Child read path muted Shape.anyKey type)
    {more : Nat}
    (enough : 1 < more) (hs : S.Holds s) (stands : s.Stands path muted ⟨ref, body⟩)
    (takes : body.IsOpen) :
    ∃ x t, x.type = type ∧
      (∀ᶠ d in S.late,
        exec (readEntries (fun source => discard (readText source)) (seedOf (read d) type) more
          (.walk path muted (.opened false) none [])) s =
          (.ok ((), .walk path muted (.opened true) none [("", x.sample)]), t)) ∧
      S.Steps path muted ref body [(Shape.anyKey, x.shape)] s t ∧ S.made t.world muted x := by
  obtain ⟨more, rfl⟩ := Nat.exists_eq_add_of_lt enough
  have start : S.Steps path muted ref body [] s (s.inSession (Note.sample .null).apply) :=
    ((Steps.start hs stands).resampled stands .null).1
  obtain ⟨x, t, hx, run, step, made⟩ := h.value (.opened true) "" [] (start.holds hs)
    (start.stands stands) takes
  refine ⟨x, t, hx, ?_, start.trans step stands, made⟩
  have key : exec (MapCursor.nextKey? (.walk path muted (.opened false) none [])
      fun source => discard (readText source)) s =
      (.ok (some ((), .walk path muted (.opened true) (some (Shape.anyKey, "")) [])),
        s.inSession (Note.sample .null).apply) := rfl
  filter_upwards [run] with d run
  rw [show 1 + more + 1 = more + 1 + 1 by omega, readEntries, exec_bind, key]
  dsimp only
  rw [exec_bind, run]
  rfl

/-- A walked record is read field by field; then each of its fields is done. -/
theorem lands_readFields (style : Style) {fields rest : List FieldDecl} (denyUnknown : Bool)
    (h : ∀ field ∈ rest, S.Child read path muted field.name field.type)
    (known : ∀ field ∈ rest, ∃ i, findField? fields field.name = some (i, field))
    (nodup : (rest.map FieldDecl.name).Nodup) {done : List Nat}
    (fresh : ∀ field ∈ rest, ∀ i, findField? fields field.name = some (i, field) → i ∉ done)
    (samples : List (String × Json)) {more : Nat} (enough : rest.length < more) (hs : S.Holds s)
    (stands : s.Stands path muted ⟨ref, body⟩) (takes : body.IsOpen) :
    ∃ pieces t done', pieces.map Piece.type = rest.map FieldDecl.type ∧
      (∀ᶠ d in S.late, exec (readFields (read d) style fields denyUnknown more done
        (.walk path muted (.declared (rest.map FieldDecl.name)) none samples)) s =
        (.ok (done', .walk path muted (.declared []) none
          (filed samples (rest.map FieldDecl.name) pieces)), t)) ∧
      S.Steps path muted ref body ((rest.map FieldDecl.name).zip (pieces.map Piece.shape)) s t ∧
      (∀ x ∈ pieces, S.made t.world muted x) ∧ done ⊆ done' ∧
      ∀ field ∈ rest, ∀ i, findField? fields field.name = some (i, field) → i ∈ done' := by
  induction rest generalizing samples more s body done with
  | nil =>
      obtain ⟨more, rfl⟩ := Nat.exists_eq_succ_of_ne_zero (Nat.ne_of_gt enough)
      exact ⟨[], s, done, rfl, .of_forall fun _ => rfl, .start hs stands, by simp,
        List.Subset.refl _, by simp⟩
  | cons field rest ih =>
      obtain ⟨more, rfl⟩ := Nat.exists_eq_succ_of_ne_zero (Nat.ne_of_gt (Nat.zero_lt_of_lt enough))
      obtain ⟨i, hf⟩ := known field List.mem_cons_self
      obtain ⟨absent, nodup⟩ := List.nodup_cons.mp nodup
      have later : ∀ other ∈ rest, ∀ j, findField? fields other.name = some (j, other) →
          j ∉ i :: done := by
        intro other ho j hj hmem
        rcases List.mem_cons.mp hmem with rfl | hd
        · have same := (findField?_some hf).2.symm.trans (findField?_some hj).2
          exact absent (List.mem_map.mpr ⟨other, ho, by rw [Option.some.inj same]⟩)
        · exact fresh other (List.mem_cons_of_mem _ ho) j hj hd
      obtain ⟨x, t, hx, run, step, made⟩ := (h field List.mem_cons_self).value
        (.declared (rest.map FieldDecl.name)) field.name samples hs stands takes
      obtain ⟨pieces, u, done', types', run', steps, all, sub, read⟩ :=
        ih (fun f hf => h f (List.mem_cons_of_mem _ hf))
          (fun f hf => known f (List.mem_cons_of_mem _ hf)) nodup later
          (Table.insert samples field.name x.sample) (Nat.lt_of_succ_lt_succ enough)
          (step.holds hs) (step.stands stands) (takes.withField _ _)
      refine ⟨x :: pieces, u, done', by rw [List.map_cons, hx, types']; rfl, ?_,
        step.trans steps stands, ?_, fun j hj => sub (List.mem_cons_of_mem _ hj), ?_⟩
      · have key : exec (MapCursor.nextKey? (.walk path muted
            (.declared ((field :: rest).map FieldDecl.name)) none samples) readText) s =
            (.ok (some (field.name, .walk path muted (.declared (rest.map FieldDecl.name))
              (some (field.name, field.name)) samples)), s) := rfl
        have unread : done.contains i = false := by
          simpa using fresh field List.mem_cons_self i hf
        filter_upwards [run, run'] with d run run'
        rw [readFields, exec_bind, key]
        simp only [hf, unread]
        show exec (_ >>= _) s = _
        rw [exec_bind, run]
        exact run'
      · exact steps.made_cons made all
      · intro other ho j hj
        rcases List.mem_cons.mp ho with rfl | ho
        · obtain ⟨rfl, -⟩ := Prod.mk.inj (Option.some.inj (hf.symm.trans hj))
          exact sub List.mem_cons_self
        · exact read other ho j hj

end Stage

/-! ## Cursors that are closed -/

theorem compress_eq (ref : TypeRef) (body : ShapeBody) (count : Nat) :
    Shape.compress ⟨ref, body⟩ count = ⟨ref, (Shape.compress ⟨⟨""⟩, body⟩ count).body⟩ := by
  cases body with
  | fields all =>
      unfold Shape.compress Shape.compress?
      dsimp only
      split
      · rfl
      · cases Table.get? all (Decimal.numeral 0) with
        | none => rfl
        | some first =>
            dsimp only
            split <;> rfl
  | _ => rfl

/-- The body of a sequence of which a number of elements was read: where that is all that may be
asked for, equal elements are told once. -/
def closedSequence (most count : Nat) (body : ShapeBody) : ShapeBody :=
  if 0 < count ∧ most ≤ count then (Shape.compress ⟨⟨""⟩, body⟩ count).body else body

theorem entries_closedSequence {most count : Nat} {entry : String × Shape}
    (h : entry ∈ (closedSequence most count body).entries) :
    ∃ key, (key, entry.2) ∈ body.entries := by
  unfold closedSequence at h
  split at h
  · exact Shape.entries_compress h
  · exact ⟨entry.1, h⟩

theorem ShapeBody.IsOpen.closedSequence {body : ShapeBody} (h : body.IsOpen) (most count : Nat) :
    (closedSequence most count body).IsOpen := by
  unfold Walk.closedSequence
  split
  · cases body with
    | fields all =>
        unfold Shape.compress Shape.compress?
        dsimp only
        split
        · trivial
        · split
          · trivial
          · split <;> trivial
    | _ => exact h
  · exact h

section
variable {α : Type} {v : Json}

theorem lands_closeSeq {limit index : Nat} {samples : List Json}
    (stands : s.Stands path muted ⟨ref, body⟩) :
    exec (SeqCursor.close (.walk path muted limit index samples)) s =
      (.ok (), s.landed path muted
        ⟨ref, closedSequence s.session.options.maxSequenceLength index body⟩
        (.array samples.reverse) s.world) := by
  unfold SeqCursor.close
  dsimp only
  rw [exec_bind, exec_session]
  dsimp only
  cases muted with
  | true => rfl
  | false =>
      unfold closedSequence
      by_cases closes : 0 < index ∧ s.session.options.maxSequenceLength ≤ index
      · rw [if_pos (by simp [closes]), if_pos closes, exec_bind, stands.modified]
        dsimp only
        rw [exec_setSample, compress_eq, (stands.landed _ _ _).sample_landed,
          stands.landed_landed]
        rfl
      · rw [if_neg (by simpa using closes), if_neg closes, exec_setSample, stands.sample_landed]

theorem lands_readSeq {cursor : SeqCursor} (limit index : Nat) (samples : List Json)
    {read : SeqCursor → Decode (α × SeqCursor)} {a : α}
    (run : exec (read cursor) s = (.ok (a, .walk path muted limit index samples), t))
    (stands : t.Stands path muted ⟨ref, body⟩) :
    exec (cursor.read read) s = (.ok a, t.landed path muted
      ⟨ref, closedSequence t.session.options.maxSequenceLength index body⟩
      (.array samples.reverse) t.world) := by
  unfold SeqCursor.read
  rw [exec_bind, run]
  dsimp only
  rw [exec_bind, lands_closeSeq stands]
  rfl

theorem lands_readMap {keys keys' : Keys} {pending pending' : Option (String × String)}
    {samples samples' : List (String × Json)} {read : MapCursor → Decode (α × MapCursor)} {a : α}
    (run : exec (read (.walk path muted keys pending samples)) s =
      (.ok (a, .walk path muted keys' pending' samples'), t)) :
    exec (MapCursor.read (.walk path muted keys pending samples) read) s =
      (.ok a, t.inSession (Note.sample (.object samples')).apply) := by
  unfold MapCursor.read
  dsimp only
  cases keys.isOpen with
  | true =>
      rw [if_pos rfl, exec_bind, exec_onFault, run]
      rfl
  | false =>
      rw [if_neg Bool.false_ne_true, exec_bind, run]
      rfl

end

end ApiAtlas.Walk
