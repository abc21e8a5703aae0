import ApiAtlas.Proofs.Readers
import Mathlib.Tactic.IntervalCases

/-!
# Which candidates types accept

A field that a reader keeps for later is offered the candidates one after the other. A scalar, a
text or a sequence accepts the one of its kind. A record refuses all of them but the last, which is
an object without members: it accepts that one if no field is missed in it. Nothing that is read
this way changes the session, whatever becomes of it.
-/
namespace ApiAtlas

/-- What becomes of the candidates that are offered for a field one after the other. -/
inductive Verdict where
  /-- The candidate of a place is the first that is accepted. -/
  | taken (place : Nat)
  /-- The last candidate, an object without members, lacks a field, and the others are refused. -/
  | lacking (field : String)
  /-- All candidates are refused. -/
  | never
  deriving DecidableEq, Repr

/-- How many candidates are refused before the one that decides. -/
def Verdict.refusals : Verdict → Nat
  | taken place => place
  | lacking _ => 5
  | never => 5

/-- The place of the first candidate that is accepted as a scalar. -/
def ScalarKind.place : ScalarKind → Nat
  | unit | unitStruct | ignoredAny => 0
  | char | str | string | identifier => 1
  | int _ | float _ => 2
  | bool => 3
  | bytes | byteBuf => 4

/-- The verdict on scalars, sequences and records. -/
def Schema.verdict? : Schema → Option Verdict
  | .scalar kind none => some (.taken kind.place)
  | .scalar _ (some _) => some .never
  | .seq _ _ => some (.taken 4)
  | .record _ fields _ =>
      match fields.find? fun field => !field.mayBeAbsent with
      | some field => some (.lacking field.name)
      | none => some (.taken 5)
  | _ => none

/-- The verdict on scalars, texts, sequences and records. -/
def TypeExpr.verdict? (schemas : Schemas) : TypeExpr → Option Verdict
  | unit => some (.taken 0)
  | text _ => some (.taken 1)
  | int _ | float _ => some (.taken 2)
  | bool => some (.taken 3)
  | vec _ => some (.taken 4)
  | char | nonZero => some .never
  | declared slot => (Table.get? schemas slot).bind Schema.verdict?
  | _ => none

/-- How often a walk fails before a field is accepted, or is known not to be. -/
def FieldDecl.walks (schemas : Schemas) (field : FieldDecl) : Nat :=
  if field.mayBeAbsent then 0
  else match field.type.verdict? schemas with
    | some verdict => 1 + verdict.refusals
    | none => 0

namespace Walk
open Decode Reader

/-- The session and the schemas are as they were. -/
structure Untouched (s t : State) : Prop where
  session : t.session = s.session
  schemas : t.world.schemas = s.world.schemas

theorem Untouched.refl (s : State) : Untouched s s := ⟨rfl, rfl⟩

theorem Untouched.trans {s t u : State} (first : Untouched s t) (second : Untouched t u) :
    Untouched s u :=
  ⟨second.session.trans first.session, second.schemas.trans first.schemas⟩

theorem Untouched.counted (s : State) (slot : Slot) : Untouched s (s.counted slot) := ⟨rfl, rfl⟩

/-- A candidate that a reader kept for a field. -/
abbrev candidate (place : Nat) : Source :=
  .data (.buffered .engine) (Hint.candidates.getD place .null)

/-- A reader refuses data in words. -/
def Refuses (m : Decode Unit) (s : State) : Prop :=
  ∃ text t, exec m s = (.error (.fault (.decode text)), t) ∧ Untouched s t

/-- How reading the candidate that decides ends. -/
def Decides (m : Decode Unit) (s : State) : Verdict → Prop
  | .taken _ => ∃ t, exec m s = (.ok (), t) ∧ Untouched s t
  | .lacking field => ∃ t, exec m s = (.error (.fault (.missingField field)), t) ∧ Untouched s t
  | .never => Refuses m s

/-- A reader of a type does with the candidates what the verdict says. -/
structure Meets (schemas : Schemas) (read : Source → Decode Unit) (verdict : Verdict) : Prop where
  refuses : ∀ place < verdict.refusals, ∀ s, s.world.schemas = schemas →
    Refuses (read (candidate place)) s
  decides : ∀ s, s.world.schemas = schemas →
    Decides (read (candidate verdict.refusals)) s verdict
  few : verdict.refusals < Hint.candidates.length

section
variable {schemas : Schemas} {depth : Nat}

theorem meets_bool : Meets schemas readBool (.taken 3) where
  refuses place few s _ := by
    match place, few with
    | 0, _ | 1, _ | 2, _ => exact ⟨_, _, rfl, .refl s⟩
  decides s _ := ⟨_, rfl, .refl s⟩
  few := by decide

theorem meets_int (kind : IntKind) : Meets schemas (readInt kind) (.taken 2) where
  refuses place few s _ := by
    match place, few with
    | 0, _ | 1, _ => exact ⟨_, _, rfl, .refl s⟩
  decides s _ := by cases kind <;> exact ⟨_, rfl, .refl s⟩
  few := by decide

theorem meets_float (kind : FloatKind) : Meets schemas (readFloat kind) (.taken 2) where
  refuses place few s _ := by
    match place, few with
    | 0, _ | 1, _ => exact ⟨_, _, rfl, .refl s⟩
  decides s _ := ⟨_, rfl, .refl s⟩
  few := by decide

theorem meets_text : Meets schemas (fun source => discard (readText source)) (.taken 1) where
  refuses place few s _ := by
    match place, few with
    | 0, _ => exact ⟨_, _, rfl, .refl s⟩
  decides s _ := ⟨_, rfl, .refl s⟩
  few := by decide

theorem meets_unit : Meets schemas Reader.readUnit (.taken 0) where
  refuses _ few := absurd few (Nat.not_lt_zero _)
  decides s _ := ⟨_, rfl, .refl s⟩
  few := by decide

theorem meets_char : Meets schemas readChar .never where
  refuses place few s _ := by
    match place, few with
    | 0, _ | 1, _ | 2, _ | 3, _ | 4, _ => exact ⟨_, _, rfl, .refl s⟩
  decides s _ := ⟨_, _, rfl, .refl s⟩
  few := by decide

theorem meets_nonZero : Meets schemas readNonZero .never where
  refuses place few s _ := by
    match place, few with
    | 0, _ | 1, _ | 2, _ | 3, _ | 4, _ => exact ⟨_, _, rfl, .refl s⟩
  decides s _ := ⟨_, _, rfl, .refl s⟩
  few := by decide

theorem meets_seq (seedAt : Nat → Seed Unit) (take : Option Nat) :
    Meets schemas (readSeq seedAt take) (.taken 4) where
  refuses place few s _ := by
    match place, few with
    | 0, _ | 1, _ | 2, _ | 3, _ => exact ⟨_, _, rfl, .refl s⟩
  decides s _ := by
    have none (most : Nat) : exec (readElements seedAt most 0 (.data (.buffered .engine) 0 [])) s =
        (.ok (0, .data (.buffered .engine) 0 []), s) := by cases most <;> rfl
    have read : exec (readSeq seedAt take (candidate 4)) s = (.ok (), s) := by
      show exec (readOpen seedAt take (.data (.buffered .engine) 0 [])) s = _
      unfold readOpen SeqCursor.read
      rw [exec_bind, exec_bind, none]
      rfl
    exact ⟨s, read, .refl s⟩
  few := by decide

theorem meets_scalar (kind : ScalarKind) :
    Meets schemas (readScalar kind none) (.taken kind.place) where
  refuses place few s _ := by
    cases kind <;> simp only [Verdict.refusals, ScalarKind.place] at few <;>
      interval_cases place <;> exact ⟨_, _, rfl, .refl s⟩
  decides s _ := by cases kind <;> exact ⟨s, rfl, .refl s⟩
  few := by cases kind <;> simp [Verdict.refusals, ScalarKind.place, Hint.candidates]

/-- A scalar that is refused after it was accepted is refused in any case. -/
theorem meets_rejected (kind : ScalarKind) (text : String) :
    Meets schemas (readScalar kind (some text)) .never := by
  have refuses (place : Nat) (few : place < 6) (s : State) :
      Refuses (readScalar kind (some text) (candidate place)) s := by
    interval_cases place <;> cases kind <;> exact ⟨_, s, rfl, .refl s⟩
  exact ⟨fun place few s _ => refuses place (Nat.lt_succ_of_lt few) s,
    fun s _ => refuses 5 (by decide) s, by decide⟩

/-- If no field was read, the first one that may not be absent is missed. -/
theorem exec_checkMissing_nil (fields : List FieldDecl) (s : State) :
    exec (checkMissing .engine fields ([] : List Nat).contains) s =
      ((fields.find? fun field => !field.mayBeAbsent).elim (.ok ())
        fun field => .error (.fault (.missingField field.name)), s) := by
  have first : (fields.find? fun field => !field.mayBeAbsent) =
      (fields.zipIdx.find? fun entry =>
        !([] : List Nat).contains entry.2 && !entry.1.mayBeAbsent).map Prod.fst := by
    conv_lhs => rw [← List.zipIdx_map_fst 0 fields, List.find?_map]
    rfl
  rw [first]
  unfold checkMissing
  cases fields.zipIdx.find? _ <;> rfl

theorem meets_record (read : TypeReader) (decode : Nat) {name : String} {fields : List FieldDecl}
    {denyUnknown : Bool} {verdict : Verdict}
    (h : (Schema.record name fields denyUnknown).verdict? = some verdict) :
    Meets schemas (readSchema read decode (.record name fields denyUnknown)) verdict := by
  have empty (s : State) :
      exec (readSchema read decode (.record name fields denyUnknown) (candidate 5)) s =
        ((fields.find? fun field => !field.mayBeAbsent).elim (.ok ())
          fun field => .error (.fault (.missingField field.name)), s) := by
    show exec (readRecordMap read .engine fields denyUnknown
      (.data (.buffered .engine) 0 [] none)) s = _
    have none : exec (readFields read .engine fields denyUnknown 1 []
        (.data (.buffered .engine) 0 [] none)) s =
          (.ok ([], .data (.buffered .engine) 0 [] none), s) := rfl
    unfold readRecordMap MapCursor.read
    simp only [exec_bind, MapCursor.left, List.length_nil, none, exec_checkMissing_nil]
    cases fields.find? _ <;> rfl
  have refuses (place : Nat) (few : place < 5) (s : State) :
      Refuses (readSchema read decode (.record name fields denyUnknown) (candidate place)) s := by
    interval_cases place <;> exact ⟨_, s, rfl, .refl s⟩
  dsimp only [Schema.verdict?] at h
  cases found : fields.find? fun field => !field.mayBeAbsent with
  | none =>
      rw [found] at h
      obtain rfl := Option.some.inj h
      have taken (s : State) :
          exec (readSchema read decode (.record name fields denyUnknown) (candidate 5)) s =
            (.ok (), s) := by
        rw [empty, found]
        rfl
      exact ⟨fun place few s _ => refuses place few s, fun s _ => ⟨s, taken s, .refl s⟩, by decide⟩
  | some field =>
      rw [found] at h
      obtain rfl := Option.some.inj h
      have lacking (s : State) :
          exec (readSchema read decode (.record name fields denyUnknown) (candidate 5)) s =
            (.error (.fault (.missingField field.name)), s) := by
        rw [empty, found]
        rfl
      exact ⟨fun place few s _ => refuses place few s, fun s _ => ⟨s, lacking s, .refl s⟩,
        by simp [Verdict.refusals, Hint.candidates]⟩

theorem meets_schema (read : TypeReader) (decode : Nat) {schema : Schema} {verdict : Verdict}
    (h : schema.verdict? = some verdict) :
    Meets schemas (readSchema read decode schema) verdict := by
  cases schema with
  | scalar kind reject =>
      cases reject with
      | none => obtain rfl := Option.some.inj h; exact meets_scalar kind
      | some text => obtain rfl := Option.some.inj h; exact meets_rejected kind text
  | seq types take => obtain rfl := Option.some.inj h; exact meets_seq _ take
  | record name fields denyUnknown => exact meets_record read decode h
  | _ => cases h

/-- A declared type is counted first. -/
theorem Meets.counted {slot : Slot} {schema : Schema} {read : TypeReader} {verdict : Verdict}
    (declared : Table.get? schemas slot = some schema)
    (h : ∀ decode, Meets schemas (readSchema read decode schema) verdict) :
    Meets schemas (readDeclared read slot) verdict := by
  have start {s : State} (hs : s.world.schemas = schemas) (source : Source) :
      exec (readDeclared read slot source) s =
        exec (readSchema read (s.world.count slot + 1) schema source) (s.counted slot) := by
    rw [exec_readDeclared, hs, declared]
  refine ⟨fun place few s hs => ?_, fun s hs => ?_, (h 0).few⟩
  · obtain ⟨text, t, run, same⟩ := (h _).refuses place few (s.counted slot) hs
    exact ⟨text, t, (start hs _).trans run, (Untouched.counted s slot).trans same⟩
  · have decided := (h (s.world.count slot + 1)).decides (s.counted slot) hs
    cases verdict with
    | taken place =>
        obtain ⟨t, run, same⟩ := decided
        exact ⟨t, (start hs _).trans run, (Untouched.counted s slot).trans same⟩
    | lacking field =>
        obtain ⟨t, run, same⟩ := decided
        exact ⟨t, (start hs _).trans run, (Untouched.counted s slot).trans same⟩
    | never =>
        obtain ⟨text, t, run, same⟩ := decided
        exact ⟨text, t, (start hs _).trans run, (Untouched.counted s slot).trans same⟩

/-- The reader of a type does with the candidates what the verdict on the type says. -/
theorem meets_readType (depth : Nat) {type : TypeExpr} {verdict : Verdict}
    (h : type.verdict? schemas = some verdict) :
    Meets schemas (readType (depth + 1) type) verdict := by
  cases type with
  | bool => obtain rfl := Option.some.inj h; exact meets_bool
  | int kind => obtain rfl := Option.some.inj h; exact meets_int kind
  | float kind => obtain rfl := Option.some.inj h; exact meets_float kind
  | text owner => obtain rfl := Option.some.inj h; exact meets_text
  | unit => obtain rfl := Option.some.inj h; exact meets_unit
  | vec inner => obtain rfl := Option.some.inj h; exact meets_seq _ none
  | char => obtain rfl := Option.some.inj h; exact meets_char
  | nonZero => obtain rfl := Option.some.inj h; exact meets_nonZero
  | declared slot =>
      obtain ⟨schema, declared, known⟩ := Option.bind_eq_some_iff.mp h
      exact .counted declared fun decode => meets_schema _ decode known
  | _ => cases h

end

end Walk
end ApiAtlas
