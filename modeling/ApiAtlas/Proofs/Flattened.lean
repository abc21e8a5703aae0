import ApiAtlas.Proofs.Made
import ApiAtlas.Proofs.Scalars

/-!
# Records with flattened members

A record with flattened members asks for a map and never says which keys it takes. Its keys become
known one by one, each from the fault that it was missed, so that a walk which is satisfied was
offered exactly the keys that may not be absent. A field that may be absent is never missed, and is
not among the fields of the shape. Until a key is known, one with an empty text is offered, and what
is read under it is recorded as standing for every key.
-/
namespace ApiAtlas

namespace Shape

/-- The names of the fields of a node. -/
def fieldNames (s : Shape) : List String :=
  match s.body with
  | .fields fields => Table.keys fields
  | _ => []

variable {s : Shape} (takes : ∀ cases, s.body ≠ .cases cases) (key : String) (child : Shape)
include takes

theorem mem_fieldNames_setField (name : String) :
    name ∈ (s.setField key child).fieldNames ↔ name = key ∨ name ∈ s.fieldNames := by
  obtain ⟨type, body⟩ := s
  cases body with
  | cases cases => exact absurd rfl (takes cases)
  | plain => simp [setField, setField?, fieldNames, Table.keys]
  | fields fields => exact Table.mem_keys_insert fields key child name

theorem setField_takes (cases : List EnumCase) : (s.setField key child).body ≠ .cases cases := by
  obtain ⟨type, body⟩ := s
  cases body with
  | cases cases => exact absurd rfl (takes cases)
  | plain => exact nofun
  | fields fields => exact nofun

end Shape

/-- The names of the fields that may not be absent. -/
def requiredNames (fields : List FieldDecl) : List String :=
  (fields.filter fun field => !field.mayBeAbsent).map FieldDecl.name

theorem mem_requiredNames {fields : List FieldDecl} {name : String} :
    name ∈ requiredNames fields ↔
      ∃ field ∈ fields, field.mayBeAbsent = false ∧ field.name = name := by
  simp [requiredNames, and_assoc]

theorem requiredNames_append (fields more : List FieldDecl) :
    requiredNames (fields ++ more) = requiredNames fields ++ requiredNames more := by
  simp [requiredNames]

/-- The names of the fields that a record lists if its keys are learned: those of the fields that
may not be absent, if there is a name among them. -/
def listedNames (fields : List FieldDecl) : List String :=
  if (requiredNames fields).all (· = "") then [Shape.anyKey] else requiredNames fields

/-- The fields that types bring into a record when they are flattened into it: those of records of
scalars, and of records with such members of their own. -/
inductive Flattens (schemas : Schemas) : List TypeExpr → List FieldDecl → Prop
  | nil : Flattens schemas [] []
  | record {slot : Slot} {name : String} {fields more : List FieldDecl} {denyUnknown : Bool}
      {types : List TypeExpr}
      (declared : Table.get? schemas slot = some (.record name fields denyUnknown))
      (plain : ∀ field ∈ fields, field.type.isPlain schemas)
      (rest : Flattens schemas types more) :
      Flattens schemas (.declared slot :: types) (fields ++ more)
  | flatten {slot : Slot} {name : String} {own fields more : List FieldDecl}
      {inner types : List TypeExpr}
      (declared : Table.get? schemas slot = some (.flatten name own inner))
      (plain : ∀ field ∈ own, field.type.isPlain schemas)
      (inside : Flattens schemas inner fields) (rest : Flattens schemas types more) :
      Flattens schemas (.declared slot :: types) (own ++ fields ++ more)

namespace Walk
open Decode Reader

/-! ## Filing fields of the root -/

/-- What is known of the root while something is read for it, and which fields may be missed. -/
structure Filing where
  schemas : Schemas
  hint : Hint
  missed : Set String

namespace Filing
variable {F : Filing} {α β : Type} {names later after : Set String} {C : α → Prop} {D : β → Prop}

/-- The fields of the root have certain names. -/
structure Holds (F : Filing) (names : Set String) (s : State) : Prop where
  schemas : s.world.schemas = F.schemas
  hint : s.session.hints.get [] = F.hint
  takes : ∀ cases, s.session.tree.body ≠ .cases cases
  names : ∀ name, name ∈ s.session.tree.fieldNames ↔ name ∈ names

/-- How reading may stop: only what may be missed is, and nothing was learned of the root. -/
def Stopped (F : Filing) (stop : Stop) (t : State) : Prop :=
  (∀ field, stop = .fault (.missingField field) → field ∈ F.missed) ∧
    t.world.schemas = F.schemas ∧ t.session.hints.get [] = F.hint

/-- A run ended with a value of a kind and with certain names filed, or for a reason that may be. -/
def Ended (F : Filing) (C : α → Prop) (after : Set String) : Except Stop α × State → Prop :=
  Outcome (fun a t => C a ∧ F.Holds after t) F.Stopped

/-- From the states in which certain names are filed, a decode runs to those with others. -/
def Runs (F : Filing) (names : Set String) (m : Decode α) (C : α → Prop) (after : Set String) :
    Prop :=
  Triple (F.Holds names) m (fun a t => C a ∧ F.Holds after t) F.Stopped

theorem runs_pure {a : α} (h : C a) : F.Runs names (pure a) C names := .pure fun _ hs => ⟨h, hs⟩

theorem Runs.bind {m : Decode α} {f : α → Decode β} (hm : F.Runs names m C later)
    (hf : ∀ a, C a → F.Runs later (f a) D after) : F.Runs names (m >>= f) D after :=
  Triple.bind hm fun a t ht => hf a ht.1 t ht.2

theorem Runs.mono {m : Decode α} {C' : α → Prop} (h : F.Runs names m C after)
    (sub : ∀ a, C a → C' a) : F.Runs names m C' after :=
  h.weaken (fun _ hs => hs) (fun a _ ended => ⟨sub a ended.1, ended.2⟩) fun _ _ stopped => stopped

theorem runs_refuse (style : Style) {problem : Problem}
    (h : ∀ field, problem = .missingField field → field ∈ F.missed) :
    F.Runs names (refuse style problem : Decode α) C after := by
  refine fun s hs => ⟨fun field missed => ?_, hs.schemas, hs.hint⟩
  replace missed := Stop.fault.inj missed
  cases style with
  | replay place => cases missed
  | engine =>
      cases problem with
      | missingField name => exact h field (congrArg _ (Fault.missingField.inj missed))
      | _ => cases missed

theorem runs_throw {stop : Stop} (h : ∀ field, stop ≠ .fault (.missingField field)) :
    F.Runs names (throw stop : Decode α) C after :=
  fun _ hs => ⟨fun field missed => absurd missed (h field), hs.schemas, hs.hint⟩

/-- What obeys the law of scalars files nothing. -/
theorem ended_still {s : State} (hs : F.Holds names s) {x : Except Stop α × State}
    (h : Obeyed (.still F.schemas) s x) : F.Ended (fun _ => True) names x := by
  obtain ⟨stop | a, t⟩ := x
  · exact ⟨fun field missed => absurd missed (h.stops stop rfl field), h.holds,
      h.rel.2.trans hs.hint⟩
  · refine ⟨trivial, h.holds, h.rel.2.trans hs.hint, ?_, ?_⟩
    · rw [h.rel.1]
      exact hs.takes
    · rw [h.rel.1]
      exact hs.names

theorem runs_still {m : Decode α} (h : Still F.schemas m) :
    F.Runs names m (fun _ => True) names :=
  fun s hs => ended_still hs (h s hs.schemas)

theorem Holds.sampled {s : State} (h : F.Holds names s) (v : Json) :
    F.Holds names (s.inSession (Note.sample v).apply) :=
  ⟨h.schemas, h.hint, h.takes, h.names⟩

/-- Reading under a key of the root files the key. -/
theorem runs_readChild {seed : Seed α} (h : ∀ source, Still F.schemas (seed.run source))
    (key : String) :
    F.Runs names (readChild [] false key seed) (fun _ => True) (names ∪ {key}) := by
  intro s hs
  obtain ⟨child, obeyed⟩ := readChild_files h key hs.schemas hs.takes
  have filed : F.Holds (names ∪ {key}) (s.filing key child) := by
    refine ⟨hs.schemas, hs.hint, Shape.setField_takes hs.takes key child, fun name => ?_⟩
    refine (Shape.mem_fieldNames_setField hs.takes key child name).trans ?_
    rw [hs.names, or_comm]
    rfl
  exact ended_still filed obeyed

/-- A declared type runs as its schema does. -/
theorem runs_readDeclared {read : TypeReader} {slot : Slot} {schema : Schema} {source : Source}
    {C : Unit → Prop} (declared : Table.get? F.schemas slot = some schema)
    (h : ∀ decode, F.Runs names (readSchema read decode schema source) C after) :
    F.Runs names (readDeclared read slot source) C after := by
  intro s hs
  rw [exec_readDeclared, hs.schemas, declared]
  exact h _ _ ⟨hs.schemas, hs.hint, hs.takes, hs.names⟩

end Filing

/-! ## Keys that are handed out -/

/-- A cursor that hands out texts as keys, and files what is under them under names: one of the root
that is walked, or one of an object that is kept. -/
inductive Hands : MapCursor → List String → List String → Prop
  | learned {names : List String} {samples : List (String × Json)} :
      Hands (.walk [] false (.learned names) none samples) names names
  | opened {samples : List (String × Json)} :
      Hands (.walk [] false (.opened false) none samples) [""] [Shape.anyKey]
  | closed {samples : List (String × Json)} :
      Hands (.walk [] false (.opened true) none samples) [] []
  | kept {total : Nat} {members : List (String × Json)} :
      Hands (.data (.buffered .engine) total members none) (Table.keys members) []

/-- Such a cursor after a key, with the names that its value and later ones are filed under. -/
inductive Owes : MapCursor → List String → List String → List String → Prop
  | learned {name sampleName : String} {names : List String} {samples : List (String × Json)} :
      Owes (.walk [] false (.learned names) (some (name, sampleName)) samples) names [name] names
  | opened {sampleName : String} {samples : List (String × Json)} :
      Owes (.walk [] false (.opened true) (some (Shape.anyKey, sampleName)) samples)
        [] [Shape.anyKey] []
  | kept {total : Nat} {members : List (String × Json)} {v : Json} :
      Owes (.data (.buffered .engine) total members (some v)) (Table.keys members) [] []

section
variable {cursor : MapCursor} {texts filed now later : List String} {names : Set String}

theorem Hands.left (h : Hands cursor texts filed) : cursor.left = texts.length := by
  cases h <;> simp [MapCursor.left, Table.keys]

/-- The end, or the next text. -/
theorem Hands.nextKey? (h : Hands cursor texts filed) (s : State) :
    (texts = [] ∧ filed = [] ∧ exec (cursor.nextKey? readText) s = (.ok none, s)) ∨
      ∃ text rest now later next v, texts = text :: rest ∧ filed = now ++ later ∧
        Owes next rest now later ∧ exec (cursor.nextKey? readText) s =
          (.ok (some (text, next)), s.inSession (Note.sample v).apply) := by
  cases h with
  | @learned _ samples =>
      cases texts with
      | nil => exact .inl ⟨rfl, rfl, rfl⟩
      | cons name names =>
          exact .inr ⟨name, names, [name], names,
            .walk [] false (.learned names) (some (name, name)) samples, s.session.sample, rfl, rfl,
            .learned, rfl⟩
  | @opened samples =>
      exact .inr ⟨"", [], [Shape.anyKey], [],
        .walk [] false (.opened true) (some (Shape.anyKey, "")) samples, .null, rfl, rfl, .opened,
        rfl⟩
  | closed => exact .inl ⟨rfl, rfl, rfl⟩
  | @kept total members =>
      cases members with
      | nil => exact .inl ⟨rfl, rfl, rfl⟩
      | cons member members =>
          exact .inr ⟨member.1, Table.keys members, [], [],
            .data (.buffered .engine) total members (some member.2), s.session.sample, rfl, rfl,
            .kept, rfl⟩

/-- The value of a key is filed under its name. -/
theorem Owes.nextValue {F : Filing} {α : Type} {seed : Seed α}
    (h : Owes cursor texts now later) (still : ∀ source, Still F.schemas (seed.run source)) :
    F.Runs names (cursor.nextValue seed) (fun p => Hands p.2 texts later)
      (names ∪ {name | name ∈ now}) := by
  have walked {next : Json → MapCursor} (key : String)
      (hands : ∀ sample, Hands (next sample) texts later) :
      F.Runs names (do
        let value ← readChild [] false key seed
        let sample ← takeSample
        return (value, next sample)) (fun p => Hands p.2 texts later)
      (names ∪ {name | name ∈ [key]}) := by
    have same : ({name | name ∈ [key]} : Set String) = {key} := by ext; simp
    rw [same]
    refine (Filing.runs_readChild still key).bind fun value _ => ?_
    exact fun s hs => ⟨hands _, hs.sampled _⟩
  cases h with
  | learned => exact walked _ fun _ => .learned
  | opened => exact walked _ fun _ => .closed
  | @kept total members v =>
      have same : names ∪ {name | name ∈ ([] : List String)} = names := by simp
      rw [same]
      exact (Filing.runs_still (still (.data (.buffered .engine) v))).bind fun _ _ =>
        Filing.runs_pure .kept

end

/-! ## Reading what is handed out -/

/-- The fields that texts name are added to those that are read. -/
def Finds (fields : List FieldDecl) (texts : List String) (done done' : List Nat) : Prop :=
  ∀ i, i ∈ done' ↔ i ∈ done ∨ ∃ text ∈ texts, ∃ field, findField? fields text = some (i, field)

/-- The texts that name no field are added to those that are kept. -/
def Buffers (fields : List FieldDecl) (texts : List String)
    (buffer buffer' : List (String × Json)) : Prop :=
  ∀ key, key ∈ Table.keys buffer' ↔
    key ∈ Table.keys buffer ∨ key ∈ texts ∧ findField? fields key = none

section
variable {fields : List FieldDecl} {texts : List String} {text : String} {done done' : List Nat}
variable {buffer buffer' : List (String × Json)} {i : Nat} {named : FieldDecl}

theorem finds_nil : Finds fields [] done done := by simp [Finds]

theorem buffers_nil : Buffers fields [] buffer buffer := by simp [Buffers]

theorem Finds.field (h : Finds fields texts (i :: done) done')
    (found : findField? fields text = some (i, named)) :
    Finds fields (text :: texts) done done' := by
  intro j
  rw [h j]
  simp only [List.mem_cons, exists_eq_or_imp, found, Option.some.injEq, Prod.mk.injEq]
  grind

theorem Finds.other (h : Finds fields texts done done') (found : findField? fields text = none) :
    Finds fields (text :: texts) done done' := by
  intro j
  rw [h j]
  simp [found]

theorem Buffers.field (h : Buffers fields texts buffer buffer')
    (found : findField? fields text = some (i, named)) :
    Buffers fields (text :: texts) buffer buffer' := by
  intro key
  rw [h key]
  grind

theorem Buffers.other {v : Json} (h : Buffers fields texts (Table.insert buffer text v) buffer')
    (found : findField? fields text = none) : Buffers fields (text :: texts) buffer buffer' := by
  intro key
  rw [h key, Table.mem_keys_insert]
  grind

theorem findField?_eq_none (h : text ∉ fields.map FieldDecl.name) :
    findField? fields text = none := by
  cases found : findField? fields text with
  | none => rfl
  | some p =>
      exact absurd (List.mem_map.mpr ⟨p.2, findField?_mem found, (findField?_some found).1⟩) h

end

theorem unfiled (names : Set String) : names ∪ {name | name ∈ ([] : List String)} = names := by simp

theorem union_append (names : Set String) (now later : List String) :
    names ∪ {name | name ∈ now ++ later} = names ∪ {name | name ∈ now} ∪ {name | name ∈ later} := by
  ext name
  simp [or_assoc]

section
variable {F : Filing} {read : TypeReader} {fields own : List FieldDecl} {cursor : MapCursor}
variable {texts filed : List String}

/-- Own fields are read, what is under other keys is kept, and all of it is filed. -/
theorem runs_readFlattened
    (still : ∀ field ∈ own, ∀ source, Still F.schemas (read field.type source)) {more : Nat}
    (enough : texts.length < more) (h : Hands cursor texts filed) (names : Set String)
    (done : List Nat) (buffer : List (String × Json)) :
    F.Runs names (readFlattened read own more done buffer cursor)
      (fun p => Finds own texts done p.1.1 ∧ Buffers own texts buffer p.1.2)
      (names ∪ {name | name ∈ filed}) := by
  induction more generalizing texts filed cursor names done buffer with
  | zero => cases enough
  | succ more ih =>
      intro s hs
      rw [readFlattened, exec_bind]
      rcases h.nextKey? s with ⟨rfl, rfl, run⟩ |
        ⟨text, rest, now, later, next, v, rfl, rfl, owes, run⟩
      · rw [run, unfiled]
        exact ⟨⟨finds_nil, buffers_nil⟩, hs⟩
      · have fewer : rest.length < more := Nat.lt_of_succ_lt_succ enough
        rw [run, union_append]
        dsimp only
        split
        · next i field found =>
          have inside := still field (findField?_mem found)
          refine Filing.Runs.bind (owes.nextValue inside) (fun p hands => ?_) _ (hs.sampled v)
          exact (ih fewer hands _ _ _).mono fun _ h => ⟨h.1.field found, h.2.field found⟩
        · next found =>
          refine Filing.Runs.bind (owes.nextValue still_readValue) (fun p hands => ?_) _
            (hs.sampled v)
          exact (ih fewer hands _ _ _).mono fun _ h => ⟨h.1.other found, h.2.other found⟩

/-- Fields of a record are read, each once, and what is under other keys is dropped or refused. -/
theorem runs_readFields
    (still : ∀ field ∈ fields, ∀ source, Still F.schemas (read field.type source))
    {denyUnknown : Bool} {more : Nat} (enough : texts.length < more) (h : Hands cursor texts filed)
    (names : Set String) (done : List Nat) :
    F.Runs names (readFields read .engine fields denyUnknown more done cursor)
      (fun p => Finds fields texts done p.1) (names ∪ {name | name ∈ filed}) := by
  induction more generalizing texts filed cursor names done with
  | zero => cases enough
  | succ more ih =>
      intro s hs
      rw [readFields, exec_bind]
      rcases h.nextKey? s with ⟨rfl, rfl, run⟩ |
        ⟨text, rest, now, later, next, v, rfl, rfl, owes, run⟩
      · rw [run, unfiled]
        exact ⟨finds_nil, hs⟩
      · have fewer : rest.length < more := Nat.lt_of_succ_lt_succ enough
        rw [run, union_append]
        dsimp only
        split
        · next i field found =>
          split
          · exact Filing.runs_refuse _ (fun _ same => by cases same) _ (hs.sampled v)
          · have inside := still field (findField?_mem found)
            refine Filing.Runs.bind (owes.nextValue inside) (fun p hands => ?_) _ (hs.sampled v)
            exact (ih fewer hands _ _).mono fun _ h => h.field found
        · next found =>
          split
          · exact Filing.runs_refuse _ (fun _ same => by cases same) _ (hs.sampled v)
          · refine Filing.Runs.bind (owes.nextValue still_skipValue) (fun p hands => ?_) _
              (hs.sampled v)
            exact (ih fewer hands _ _).mono fun _ h => h.other found

/-- Fields that may not be absent, and are not named by any text, may be missed. -/
def Filing.Allows (F : Filing) (fields : List FieldDecl) (texts : List String) : Prop :=
  ∀ name ∈ requiredNames fields, name ∉ texts → name ∈ F.missed

/-- A field is missed that may not be absent and that no text names, if there is one. -/
theorem runs_checkMissing (nodup : (fields.map FieldDecl.name).Nodup) {done : List Nat}
    (finds : Finds fields texts [] done) (allows : F.Allows fields texts) (names : Set String) :
    F.Runs names (checkMissing .engine fields done.contains)
      (fun _ => requiredNames fields ⊆ texts) names := by
  unfold checkMissing
  split
  · next field i missing =>
    refine Filing.runs_refuse _ fun name same => ?_
    obtain rfl := Problem.missingField.inj same
    have at' := List.mem_zipIdx_iff_getElem?.mp (List.mem_of_find?_eq_some missing)
    have unread := List.find?_some missing
    simp only [Bool.and_eq_true, Bool.not_eq_true', List.contains_eq_mem,
      decide_eq_false_iff_not] at unread
    have required := mem_requiredNames.mpr ⟨field, List.mem_of_getElem? at', unread.2, rfl⟩
    refine allows _ required fun named => ?_
    exact unread.1 ((finds i).mpr (.inr ⟨_, named, _, findField?_of_mem nodup at'⟩))
  · next none =>
    refine Filing.runs_pure fun name required => ?_
    obtain ⟨field, member, needed, rfl⟩ := mem_requiredNames.mp required
    obtain ⟨i, at'⟩ := List.mem_iff_getElem?.mp member
    have read := List.find?_eq_none.mp none (field, i) (List.mem_zipIdx_iff_getElem?.mpr at')
    have done : i ∈ done := by simpa [needed] using read
    obtain ⟨text, named, other, found⟩ := ((finds i).mp done).resolve_left nofun
    obtain ⟨same, there⟩ := findField?_some found
    obtain rfl := Option.some.inj (at'.symm.trans there)
    exact same ▸ named

theorem still_close {schemas : Schemas} (cursor : MapCursor) : Still schemas cursor.close := by
  unfold MapCursor.close
  split
  · exact still_setSample _
  · exact still_refuse _ nofun
  · exact obeys_pure _

/-- Nothing is checked when an object that is kept is closed, but whether all of it was replayed. -/
theorem runs_readKept {α : Type} {origin : Origin} {total : Nat} {members : List (String × Json)}
    {pending : Option Json} {body : MapCursor → Decode (α × MapCursor)} {C : α → Prop}
    {names after : Set String}
    (h : F.Runs names (body (.data origin total members pending)) (fun p => C p.1) after) :
    F.Runs names ((MapCursor.data origin total members pending).read body) C after := by
  exact h.bind fun p hp => (Filing.runs_still (still_close p.2)).bind fun _ _ => Filing.runs_pure hp

/-- An object that is accepted as a record has every field that may not be absent. -/
theorem runs_acceptRecord
    (still : ∀ field ∈ fields, ∀ source, Still F.schemas (read field.type source))
    (nodup : (fields.map FieldDecl.name).Nodup) {members : List (String × Json)}
    (allows : F.Allows fields (Table.keys members)) (expecting : String) (denyUnknown : Bool)
    (total : Nat) (names : Set String) :
    F.Runs names (acceptRecord read expecting fields denyUnknown
        ⟨.map (.data (.buffered .engine) total members none), .engine, none⟩)
      (fun _ => requiredNames fields ⊆ Table.keys members) names := by
  have enough : (Table.keys members).length < members.length + 1 := by simp [Table.keys]
  have entries : F.Runs names (readFields read .engine fields denyUnknown (members.length + 1) []
      (.data (.buffered .engine) total members none))
      (fun p => Finds fields (Table.keys members) [] p.1) (names ∪ {name | name ∈ []}) :=
    runs_readFields still enough .kept names []
  rw [unfiled] at entries
  unfold acceptRecord readRecordMap
  dsimp only
  refine runs_readKept (C := fun _ => requiredNames fields ⊆ Table.keys members) ?_
  refine entries.bind fun p finds => ?_
  exact (runs_checkMissing nodup finds allows names).bind fun _ => Filing.runs_pure

/-- What the reader of a record with flattened members does with the map that it is visited with. -/
def readMembers (read : TypeReader) (own : List FieldDecl) (inner : List TypeExpr)
    (cursor : MapCursor) : Decode (Unit × MapCursor) := do
  let ((done, buffer), cursor) ← readFlattened read own (cursor.left + 1) [] [] cursor
  checkMissing .engine own done.contains
  inner.forM fun type => read type (.data (.buffered .engine) (.object buffer))
  return ((), cursor)

theorem Filing.Allows.left {more : List FieldDecl} (h : F.Allows (fields ++ more) texts) :
    F.Allows fields texts :=
  fun name required => h name (requiredNames_append fields more ▸ List.mem_append_left _ required)

theorem Filing.Allows.right {more : List FieldDecl} (h : F.Allows (fields ++ more) texts) :
    F.Allows more texts :=
  fun name required => h name (requiredNames_append fields more ▸ List.mem_append_right _ required)

/-- Own fields and those that are flattened are read from one map if the latter are read from what
own fields leave of it. -/
theorem runs_readMembers {inner : List TypeExpr}
    (still : ∀ field ∈ own, ∀ source, Still F.schemas (read field.type source))
    (nodup : ((own ++ fields).map FieldDecl.name).Nodup) (allows : F.Allows (own ++ fields) texts)
    (h : Hands cursor texts filed) (names : Set String)
    (inside : ∀ buffer, F.Allows fields (Table.keys buffer) → ∀ names,
      F.Runs names (inner.forM fun type => read type (.data (.buffered .engine) (.object buffer)))
        (fun _ => requiredNames fields ⊆ Table.keys buffer) names) :
    F.Runs names (readMembers read own inner cursor)
      (fun _ => requiredNames (own ++ fields) ⊆ texts) (names ∪ {name | name ∈ filed}) := by
  rw [List.map_append, List.nodup_append] at nodup
  obtain ⟨ownNodup, _, apart⟩ := nodup
  have enough : texts.length < cursor.left + 1 := by rw [h.left]; exact Nat.lt_succ_self _
  refine (runs_readFlattened still enough h names [] []).bind
    fun ((done, buffer), cursor) ⟨finds, buffers⟩ => ?_
  -- a text that names a flattened field names no own one, and is among what is kept
  have kept (name : String) (required : name ∈ requiredNames fields) :
      name ∈ Table.keys buffer ↔ name ∈ texts := by
    obtain ⟨field, member, _, rfl⟩ := mem_requiredNames.mp required
    have unowned : findField? own field.name = none :=
      findField?_eq_none fun owned => apart _ owned _ (List.mem_map_of_mem member) rfl
    refine (buffers field.name).trans ?_
    simp [unowned, Table.keys]
  refine (runs_checkMissing ownNodup finds allows.left _).bind fun _ ownComplete => ?_
  have allowed : F.Allows fields (Table.keys buffer) := fun name required absent =>
    allows.right name required fun named => absent ((kept name required).mpr named)
  refine (inside buffer allowed _).bind fun _ complete => Filing.runs_pure ?_
  rw [requiredNames_append]
  refine List.append_subset.mpr ⟨ownComplete, fun name required => ?_⟩
  exact (kept name required).mp (complete required)

end

/-- Two readings of one object find the fields of both. -/
theorem Filing.Runs.further {F : Filing} {m m' : Decode Unit} {fields more : List FieldDecl}
    {texts : List String} {names : Set String}
    (first : F.Runs names m (fun _ => requiredNames fields ⊆ texts) names)
    (second : F.Runs names m' (fun _ => requiredNames more ⊆ texts) names) :
    F.Runs names (m >>= fun _ => m') (fun _ => requiredNames (fields ++ more) ⊆ texts) names :=
  first.bind fun _ found => second.mono fun _ rest => by
    rw [requiredNames_append]
    exact List.append_subset.mpr ⟨found, rest⟩

/-- Flattened types are read from what is kept for them: each field that may not be absent is there,
or the first one that is not is missed. -/
theorem runs_flattened {F : Filing} {types : List TypeExpr} {fields : List FieldDecl}
    (h : Flattens F.schemas types fields) (nodup : (fields.map FieldDecl.name).Nodup)
    {members : List (String × Json)} (allows : F.Allows fields (Table.keys members)) (depth : Nat)
    (names : Set String) :
    F.Runs names
      (types.forM fun type => readType depth type (.data (.buffered .engine) (.object members)))
      (fun _ => requiredNames fields ⊆ Table.keys members) names := by
  induction h generalizing members depth names with
  | nil => exact Filing.runs_pure (List.nil_subset _)
  | @record slot name fields more denyUnknown types declared plain _ ih =>
      rw [List.map_append, List.nodup_append] at nodup
      have first : F.Runs names
          (readType depth (.declared slot) (.data (.buffered .engine) (.object members)))
          (fun _ => requiredNames fields ⊆ Table.keys members) names := by
        cases depth with
        | zero => exact Filing.runs_throw nofun
        | succ depth =>
            refine Filing.runs_readDeclared declared fun decode => ?_
            exact runs_acceptRecord (fun field member => still_plain (plain field member) depth)
              nodup.1 allows.left ("struct " ++ name) denyUnknown members.length names
      exact first.further (ih nodup.2.1 allows.right depth names)
  | @flatten slot name own fields more inner types declared plain _ _ inside ih =>
      rw [List.map_append, List.nodup_append] at nodup
      have first : F.Runs names
          (readType depth (.declared slot) (.data (.buffered .engine) (.object members)))
          (fun _ => requiredNames (own ++ fields) ⊆ Table.keys members) names := by
        cases depth with
        | zero => exact Filing.runs_throw nofun
        | succ depth =>
            refine Filing.runs_readDeclared declared fun decode => ?_
            have read : F.Runs names (readMembers (readType depth) own inner
                (.data (.buffered .engine) members.length members none))
                (fun _ => requiredNames (own ++ fields) ⊆ Table.keys members)
                (names ∪ {name | name ∈ []}) :=
              runs_readMembers (fun field member => still_plain (plain field member) depth) nodup.1
                allows.left .kept names fun buffer allowed names =>
                  inside (List.nodup_append.mp (List.map_append ▸ nodup.1)).2.1 allowed depth names
            rw [unfiled] at read
            exact runs_readKept (C := fun _ => requiredNames (own ++ fields) ⊆ Table.keys members)
              read
      exact first.further (ih nodup.2.1 allows.right depth names)

/-! ## Walks of the root -/

/-- The texts that are handed out as keys of the root once some are learned, and before. -/
def handedOut (keys : List String) : List String := if keys = [] then [""] else keys

/-- The names that are filed for them. -/
def filedFor (keys : List String) : List String := if keys = [] then [Shape.anyKey] else keys

/-- A lesson at the root adds nothing to its keys but a field that was missed. -/
theorem Session.keys_revise (session : Session) (kind : SiteKind) (fault : Fault) :
    ∃ more, ((session.revise [] kind fault).hints.get []).keys =
        (session.hints.get []).keys ++ more ∧ ∀ field ∈ more, fault = .missingField field := by
  unfold Session.revise
  split
  · exact ⟨[], (List.append_nil _).symm, nofun⟩
  · exact session.hints.keys_revise [] kind fault

theorem Hints.keys?_eq (hints : Hints) (site : Site) :
    hints.keys? site = if (hints.get site).keys = [] then none else some (hints.get site).keys := by
  unfold Hints.keys? Hints.get
  cases hints.at? site with
  | none => rfl
  | some hint => cases keys : hint.keys <;> simp [keys]

/-- A record with flattened members that is walked from its root. -/
structure FlattenedRoot where
  schemas : Schemas
  slot : Slot
  name : String
  own : List FieldDecl
  inner : List TypeExpr
  /-- The fields that are flattened. -/
  fields : List FieldDecl
  declared : Table.get? schemas slot = some (.flatten name own inner)
  plain : ∀ field ∈ own, field.type.isPlain schemas
  inside : Flattens schemas inner fields
  nodup : ((own ++ fields).map FieldDecl.name).Nodup
  options : Options
  context : List (String × Json)
  depth : Nat

namespace FlattenedRoot
variable {R : FlattenedRoot} {hints : Hints} {w : World}

/-- The fields that may not be absent. -/
abbrev required (R : FlattenedRoot) : List String := requiredNames (R.own ++ R.fields)

/-- The keys that were learned are required, and the empty text is not the first of them. -/
structure Learns (R : FlattenedRoot) (hints : Hints) : Prop where
  required : (hints.get []).keys ⊆ R.required
  first : (hints.get []).keys.head? ≠ some ""

/-- What is known of the root in a walk, and what may be missed in it. -/
def filing (R : FlattenedRoot) (hints : Hints) : Filing where
  schemas := R.schemas
  hint := hints.get []
  missed := {name | name ∈ R.required ∧ name ∉ handedOut (hints.get []).keys}

/-- How reading the root ends: with the names of its keys filed, or with keys learned that may be
missed. -/
def Ends {α : Type} (R : FlattenedRoot) (hints : Hints) (C : α → Prop) :
    Except Stop α × State → Prop :=
  Outcome
    (fun a t => C a ∧ (R.filing hints).Holds {name | name ∈ filedFor (hints.get []).keys} t)
    fun stop t =>
      (∀ field, stop = .fault (.missingField field) → field ∈ (R.filing hints).missed) ∧
        t.world.schemas = R.schemas ∧
        ∃ more, (t.session.hints.get []).keys = (hints.get []).keys ++ more ∧
          ∀ field ∈ more, field ∈ (R.filing hints).missed

section
variable {α β : Type} {C : α → Prop} {D : β → Prop} {m : Decode α} {s : State}

theorem ends_of_ended {x : Except Stop α × State}
    (h : (R.filing hints).Ended C {name | name ∈ filedFor (hints.get []).keys} x) :
    R.Ends hints C x := by
  refine h.mono (fun _ _ ended => ended) fun stop t ⟨missed, schemas, hint⟩ => ?_
  have same : t.session.hints.get [] = hints.get [] := hint
  exact ⟨missed, schemas, [], by rw [same, List.append_nil], nofun⟩

theorem Ends.onFault (h : R.Ends hints C (exec m s)) (kind : SiteKind) :
    R.Ends hints C (exec (onFault m fun fault => revise [] kind fault) s) := by
  refine Outcome.onFault h (fun fault t ⟨missed, schemas, more, keys, all⟩ => ?_)
    fun _ _ _ stopped => stopped
  obtain ⟨last, taught, told⟩ := t.session.keys_revise kind fault
  refine ⟨missed, schemas, more ++ last, ?_, fun field member => ?_⟩
  · show ((t.session.revise [] kind fault).hints.get []).keys = _
    rw [taught, keys, List.append_assoc]
  · rcases List.mem_append.mp member with before | new
    · exact all field before
    · exact missed field (congrArg _ (told field new))

theorem Ends.bind {f : α → Decode β} (h : R.Ends hints C (exec m s))
    (hf : ∀ a, C a → (R.filing hints).Runs {name | name ∈ filedFor (hints.get []).keys} (f a) D
      {name | name ∈ filedFor (hints.get []).keys}) :
    R.Ends hints D (exec (m >>= f) s) :=
  Outcome.bind h fun a t ended => ends_of_ended (hf a ended.1 t ended.2)

end

theorem hands_root (keys : List String) :
    Hands (.walk [] false (if keys = [] then .opened false else .learned keys) none [])
      (handedOut keys) (filedFor keys) := by
  unfold handedOut filedFor
  split
  · exact .opened
  · exact .learned

theorem exec_ask_root (expecting : String) (s : State) :
    exec ((Source.walk [] false).ask .map expecting) s = (.ok ⟨.map (.walk [] false
      (if (s.session.hints.get []).keys = [] then .opened false
        else .learned (s.session.hints.get []).keys) none []), .engine, none⟩, s) := by
  refine exec_ask_walk expecting ?_
  have uncut : s.session.inCycle [] = false := by simp [Session.inCycle, Session.occurrencesAt]
  rw [exec_walkAnswer_map, uncut, if_neg Bool.false_ne_true, show Path.site [] = [] from rfl,
    Hints.keys?_eq]
  by_cases none : (s.session.hints.get []).keys = []
  · rw [if_pos none, if_pos none]
  · rw [if_neg none, if_neg none]

/-- A walk of the root hands out the keys that are learned, and learns from the fault. -/
theorem ends_readRoot (hints : Hints) (hw : w.schemas = R.schemas) :
    R.Ends hints (fun _ => R.required ⊆ handedOut (hints.get []).keys)
      (exec (readRoot (readType (R.depth + 1)) (.declared R.slot) false)
        (rootState (.declared R.slot) R.options R.context hints w)) := by
  refine Ends.onFault ?_ .any
  show R.Ends hints _ (exec (readDeclared (readType R.depth) R.slot (.walk [] false)) _)
  rw [exec_readDeclared, hw, R.declared]
  show R.Ends hints _
    (exec (readFlatten (readType R.depth) R.name R.own R.inner (.walk [] false)) _)
  unfold readFlatten
  rw [exec_bind, exec_ask_root]
  have keys : ((rootState (.declared R.slot) R.options R.context hints w).counted
      R.slot).session.hints.get [] = hints.get [] := rfl
  rw [keys]
  have start : (R.filing hints).Holds ∅
      ((rootState (.declared R.slot) R.options R.context hints w).counted R.slot) :=
    ⟨hw, rfl, nofun, fun name => ⟨nofun, nofun⟩⟩
  have allows : (R.filing hints).Allows (R.own ++ R.fields) (handedOut (hints.get []).keys) :=
    fun name required absent => ⟨required, absent⟩
  have body := runs_readMembers (fun field member => still_plain (R.plain field member) R.depth)
    R.nodup allows (hands_root (hints.get []).keys) ∅
    (fun buffer allowed names => runs_flattened R.inside
      (List.nodup_append.mp (List.map_append ▸ R.nodup)).2.1 allowed R.depth names)
  rw [Set.empty_union] at body
  have ended := ends_of_ended (body _ start)
  generalize hk : (if (hints.get []).keys = [] then Keys.opened false
    else .learned (hints.get []).keys) = chosen at ended ⊢
  have opened : chosen.isOpen = true := by
    rw [← hk]
    split <;> rfl
  show R.Ends hints _ (exec (MapCursor.read (.walk [] false chosen none [])
    (readMembers (readType R.depth) R.own R.inner)) _)
  unfold MapCursor.read
  dsimp only
  rw [if_pos opened]
  exact (ended.onFault .openMap).bind fun p complete =>
    (Filing.runs_still (still_close p.2)).bind fun _ _ => Filing.runs_pure complete

/-- A field that may be missed can be learned. -/
theorem Learns.more (h : R.Learns hints) {hints' : Hints} {more : List String}
    (keys : (hints'.get []).keys = (hints.get []).keys ++ more)
    (missed : ∀ field ∈ more, field ∈ (R.filing hints).missed) : R.Learns hints' := by
  refine ⟨fun key member => ?_, ?_⟩
  · rcases List.mem_append.mp (keys ▸ member) with known | new
    · exact h.required known
    · exact (missed key new).1
  · rw [keys]
    cases known : (hints.get []).keys with
    | cons key keys =>
        have first := h.first
        rwa [known] at first
    | nil =>
        cases more with
        | nil => exact nofun
        | cons field more =>
            have fresh := (missed field List.mem_cons_self).2
            rw [known] at fresh
            intro empty
            exact fresh (by simpa [handedOut] using Option.some.inj empty)

/-- Once all required keys are handed out, the names that are filed are those that are listed. -/
theorem Learns.filed (h : R.Learns hints)
    (complete : R.required ⊆ handedOut (hints.get []).keys) (name : String) :
    name ∈ filedFor (hints.get []).keys ↔ name ∈ listedNames (R.own ++ R.fields) := by
  obtain ⟨required, first⟩ := h
  unfold listedNames
  cases known : (hints.get []).keys with
  | nil =>
      have empty : (requiredNames (R.own ++ R.fields)).all (· = "") := by
        rw [known] at complete
        exact List.all_eq_true.mpr fun other member => by
          simpa [handedOut] using complete member
      rw [if_pos empty]
      rfl
  | cons key keys =>
      rw [known] at required first complete
      have some' : ¬(requiredNames (R.own ++ R.fields)).all (· = "") := fun all =>
        first (congrArg some (of_decide_eq_true
          (List.all_eq_true.mp all key (required List.mem_cons_self))))
      rw [if_neg some']
      exact ⟨fun member => required member, fun member => complete member⟩

/-- The fields that walks of the root come to. -/
theorem walkRoot_lists (walks : Nat) (learns : R.Learns hints) (hw : w.schemas = R.schemas)
    {shape : Shape} {sample : Json} {u : World}
    (run : exec (walkRoot (readType (R.depth + 1)) (.declared R.slot) R.options R.context false
      walks hints) w = (.ok (shape, sample), u)) (name : String) :
    name ∈ shape.fieldNames ↔ name ∈ listedNames (R.own ++ R.fields) := by
  induction walks generalizing hints w with
  | zero => cases (Prod.mk.inj run).1
  | succ walks ih =>
      have ended := ends_readRoot hints hw
      rw [exec_walkRoot] at run
      generalize exec (readRoot _ _ _) _ = x at ended run
      obtain ⟨(fault | _ | _ | _) | _, t⟩ := x
      · obtain ⟨_, schemas, more, keys, missed⟩ := ended
        dsimp only at run
        split at run
        · exact ih (learns.more keys missed) schemas run
        · cases (Prod.mk.inj run).1
      · cases (Prod.mk.inj run).1
      · cases (Prod.mk.inj run).1
      · cases (Prod.mk.inj run).1
      · obtain ⟨complete, holds⟩ := ended
        obtain ⟨rfl, -⟩ := Prod.mk.inj (Except.ok.inj (Prod.mk.inj run).1)
        exact (holds.names name).trans (learns.filed complete name)

end FlattenedRoot

/-- A record with flattened members that is reflected lists the fields of its own and of its members
that may not be absent, and no others; where these have no name but the empty one it lists the one
field that stands for every key. A registered record has the registered shape. -/
theorem reflect_flattened {slot : Slot} {name : String} {own fields : List FieldDecl}
    {inner : List TypeExpr} {w u : World} {shape : Shape}
    (declared : Table.get? w.schemas slot = some (.flatten name own inner))
    (plain : ∀ field ∈ own, field.type.isPlain w.schemas)
    (inside : Flattens w.schemas inner fields)
    (names : ((own ++ fields).map FieldDecl.name).Nodup)
    (options : Options) (context : List (String × Json))
    (uncached : Table.get? w.cache ((TypeExpr.declared slot).ref, options) = none) (depth : Nat)
    (run : exec (reflectWithin depth (.declared slot) options context) w = (.ok shape, u)) :
    (∀ custom, w.registry.documentationOf? (TypeExpr.declared slot).ref = some custom →
      shape.body = custom.body) ∧
    (w.registry.documentationOf? (TypeExpr.declared slot).ref = none →
      ∀ field, field ∈ shape.fieldNames ↔ field ∈ listedNames (own ++ fields)) := by
  unfold reflectWithin at run
  rw [exec_reflectWith, uncached] at run
  refine ⟨fun custom registered => ?_, fun unregistered field => ?_⟩
  · rw [registered] at run
    obtain ⟨body, placeholder⟩ := custom
    cases placeholder with
    | some placeholder =>
        obtain rfl := Except.ok.inj (Prod.mk.inj run).1
        rfl
    | none =>
        dsimp only at run
        generalize exec (walkRoot _ _ _ _ _ _ _) w = x at run
        obtain ⟨_ | ⟨walked, sample⟩, v⟩ := x
        · cases (Prod.mk.inj run).1
        · obtain rfl := Except.ok.inj (Prod.mk.inj run).1
          rfl
  · rw [unregistered] at run
    cases depth with
    | zero =>
        have stopped : exec (walkRoot (readType 0) (.declared slot) options context false maxWalks
            []) w = (.error .depth, w) := rfl
        rw [stopped] at run
        cases (Prod.mk.inj run).1
    | succ depth =>
        let R : FlattenedRoot :=
          ⟨w.schemas, slot, name, own, inner, fields, declared, plain, inside, names, options,
            context, depth⟩
        have learns : R.Learns [] := ⟨List.nil_subset _, nofun⟩
        dsimp only at run
        rcases walks : exec (walkRoot (readType (depth + 1)) (.declared slot) options context false
          maxWalks []) w with ⟨_ | ⟨walked, sample⟩, v⟩ <;> rw [walks] at run
        · cases (Prod.mk.inj run).1
        · obtain rfl := Except.ok.inj (Prod.mk.inj run).1
          exact FlattenedRoot.walkRoot_lists maxWalks learns rfl walks field

namespace Accounts

/-- Records with members that are flattened into them. -/
def account : Slot := ⟨"T0", "api::model::T<0>"⟩
def contact : Slot := ⟨"T1", "api::model::T<1>"⟩
def address : Slot := ⟨"T2", "api::model::T<2>"⟩

def accountFields : List FieldDecl :=
  [⟨"id", .int .u64, false⟩, ⟨"note", .option (.text .string), true⟩]

def contactFields : List FieldDecl :=
  [⟨"mail", .text .string, false⟩, ⟨"phone", .option (.int .u32), true⟩]

def addressFields : List FieldDecl := [⟨"city", .text .string, false⟩, ⟨"floor", .int .i8, true⟩]

def schemas : Schemas :=
  [(account, .flatten "Account" accountFields [.declared contact]),
    (contact, .flatten "Contact" contactFields [.declared address]),
    (address, .record "Address" addressFields false)]

theorem reflect_flattened_account :
    ∃ shape u, exec (reflect (.declared account) {} []) { schemas } = (.ok shape, u) ∧
      ∀ field, field ∈ shape.fieldNames ↔ field ∈ ["id", "mail", "city"] := by
  have ended : (exec (reflect (.declared account) {} []) { schemas }).1 =
      .ok ⟨⟨"api::model::T<0>"⟩, .fields [("city", Shape.leaf TypeExpr.value.ref),
        ("id", Shape.leaf ⟨"u64"⟩), ("mail", Shape.leaf TypeExpr.value.ref)]⟩ := by
    decide +kernel
  have declared : Table.get? schemas account =
      some (.flatten "Account" accountFields [.declared contact]) := by simp [schemas, Table.get?]
  have flattened : Table.get? schemas contact =
      some (.flatten "Contact" contactFields [.declared address]) := by
    simp [schemas, Table.get?, account, contact]
  have record : Table.get? schemas address = some (.record "Address" addressFields false) := by
    simp [schemas, Table.get?, account, contact, address]
  have inside : Flattens schemas [.declared contact]
      (contactFields ++ (addressFields ++ []) ++ []) :=
    .flatten flattened (by decide +kernel) (.record record (by decide +kernel) .nil) .nil
  rcases run : exec (reflect (.declared account) {} []) { schemas } with ⟨result, u⟩
  rw [run] at ended
  obtain rfl := ended
  refine ⟨_, u, rfl, fun field => ?_⟩
  have listed : listedNames (accountFields ++ (contactFields ++ (addressFields ++ []) ++ [])) =
      ["id", "mail", "city"] := by decide +kernel
  rw [← listed]
  exact (reflect_flattened declared (by decide +kernel) inside (by decide +kernel) {} [] rfl
    defaultDepth run).2 rfl field

/-- The same without a member of a member. -/
def flat : Schemas :=
  [(account, .flatten "Account" accountFields [.declared contact]),
    (contact, .record "Contact" contactFields false)]

/-- Fields that may be absent are not listed. -/
theorem absent_fields_unlisted :
    ∃ shape, (exec (reflect (.declared account) {} []) { schemas := flat }).1 = .ok shape ∧
      ¬∀ field, field ∈ shape.fieldNames ↔
        field ∈ (accountFields ++ contactFields).map FieldDecl.name := by
  refine ⟨⟨⟨"api::model::T<0>"⟩, .fields [("id", Shape.leaf ⟨"u64"⟩),
    ("mail", Shape.leaf TypeExpr.value.ref)]⟩, by decide +kernel, fun all => ?_⟩
  have listed : "note" ∈ ["id", "mail"] := (all "note").mpr (by decide)
  exact absurd listed (by decide)

end Accounts
end Walk
end ApiAtlas
