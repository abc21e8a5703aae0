import ApiAtlas.Proofs.Child
import ApiAtlas.Walk.Reader
import Mathlib.Data.List.Forall2

/-!
# What readers keep

The parts of a type are the types that its reader reads, in place or under a key. Every reader
keeps a bond that its parts keep, under keys and in place: this is proved once, reader by reader,
and used for invariants of walks, for the depth allowance, and for walks from different caches.
-/
namespace ApiAtlas

/-- The types inside the payload of a variant. -/
def VariantContent.parts : VariantContent → List TypeExpr
  | unit => []
  | newtype type => [type]
  | tuple types => types
  | record fields => fields.map FieldDecl.type

namespace Schema

mutual

/-- The types that the reader of a schema reads. A sequence without types has units. -/
def parts : Schema → List TypeExpr
  | newtype _ inner => [inner]
  | delegate target => [target]
  | record _ fields _ => fields.map FieldDecl.type
  | anyRecord _ fields => fields.map FieldDecl.type
  | tuple _ types => types
  | seq [] _ => [.unit]
  | seq types _ => types
  | map _ content _ => [content]
  | valueFirst type => [type]
  | enumeration _ variants => variants.flatMap fun variant => variant.2.parts
  | tagged _ _ variants => variants.flatMap fun variant => variant.2.map FieldDecl.type
  | untagged _ variants => variants
  | flatten _ own inner => own.map FieldDecl.type ++ inner
  | context _ cases otherwise => otherwise :: cases.map Prod.snd
  | decoding yes _ => [yes]
  | reflect _ next => [next]
  | nth schemas => partsOfAll schemas
  | _ => []

/-- The types that the readers of schemas read. -/
def partsOfAll : List Schema → List TypeExpr
  | [] => []
  | schema :: rest => schema.parts ++ partsOfAll rest

end

mutual

/-- The types that the reader of a schema reflects from the beginning. -/
def roots : Schema → List TypeExpr
  | reflect root _ => [root]
  | nth schemas => rootsOfAll schemas
  | _ => []

/-- The types that the readers of schemas reflect from the beginning. -/
def rootsOfAll : List Schema → List TypeExpr
  | [] => []
  | schema :: rest => schema.roots ++ rootsOfAll rest

end

mutual

/-- Whether the reader of a schema asks for self-describing data. -/
def asks : Schema → Bool
  | anyRecord _ _ | any _ _ | tagged _ _ _ | untagged _ _ | flatten _ _ _ => true
  | nth schemas => asksOfAll schemas
  | _ => false

/-- Whether the reader of one of some schemas asks for self-describing data. -/
def asksOfAll : List Schema → Bool
  | [] => false
  | schema :: rest => schema.asks || asksOfAll rest

end

/-- Whether every decode of the schema behaves alike. -/
def isSteady : Schema → Bool
  | nth _ => false
  | _ => true

end Schema

namespace TypeExpr

/-- The types that the reader of a type reads. -/
def parts (schemas : Schemas) : TypeExpr → List TypeExpr
  | declared slot => ((Table.get? schemas slot).map Schema.parts).getD []
  | result => [.int .u8, .text .string]
  | duration => [.int .u64, .int .u32]
  | option inner | vec inner | pointer _ inner | map inner | range inner | pair inner
  | one inner => [inner]
  | array length inner => List.replicate length inner
  | withText inner => [inner, .text .string]
  | _ => []

/-- The types that the reader of a type reflects from the beginning. -/
def roots (schemas : Schemas) : TypeExpr → List TypeExpr
  | declared slot => ((Table.get? schemas slot).map Schema.roots).getD []
  | _ => []

/-- Whether the reader of a type asks for self-describing data itself. -/
def asks (schemas : Schemas) : TypeExpr → Bool
  | declared slot => (Table.get? schemas slot).any Schema.asks
  | value => true
  | _ => false

end TypeExpr

namespace Walk
open Decode Reader

/-- What two ways of reading a type keep, in place and under a key. -/
structure Inside {schemas : Schemas} (B : Bond schemas) (read read' : TypeReader)
    (type : TypeExpr) :
    Prop where
  inPlace : ∀ source, Agree B (read type source) (read' type source)
  child : ∀ path muted key, Agree B (readChild path muted key (seedOf read type))
    (readChild path muted key (seedOf read' type))

/-- What two seeds keep. -/
structure Seeded {schemas : Schemas} {α : Type} (B : Bond schemas) (seed seed' : Seed α) :
    Prop where
  data : ∀ origin value, Agree B (seed.run (.data origin value)) (seed'.run (.data origin value))
  child : ∀ path muted key, Agree B (readChild path muted key seed) (readChild path muted key seed')

/-- What a reader may rely on: the types inside are kept, and the values that it reads for itself
are too. -/
structure Relies {schemas : Schemas} (B : Bond schemas) (read read' : TypeReader)
    (types roots : List TypeExpr) : Prop where
  parts : ∀ type ∈ types, Inside B read read' type
  roots : ∀ type ∈ roots, ∀ style,
    Agree B (reflectInside read style type) (reflectInside read' style type)
  text : ∀ path muted key,
    Agree B (readChild path muted key textSeed) (readChild path muted key textSeed)
  value : ∀ path muted key,
    Agree B (readChild path muted key valueSeed) (readChild path muted key valueSeed)
  skip : ∀ path muted key,
    Agree B (readChild path muted key skipSeed) (readChild path muted key skipSeed)

section
variable {schemas : Schemas} {B : Bond schemas} {read read' : TypeReader} {α β : Type}

theorem Inside.seeded {type : TypeExpr} (h : Inside B read read' type) :
    Seeded B (seedOf read type) (seedOf read' type) :=
  ⟨fun _ _ => h.inPlace _, h.child⟩

theorem Relies.mono {types types' roots roots' : List TypeExpr}
    (h : Relies B read read' types roots) (ht : ∀ t ∈ types', t ∈ types)
    (hr : ∀ t ∈ roots', t ∈ roots) : Relies B read read' types' roots' :=
  ⟨fun t m => h.parts t (ht t m), fun t m => h.roots t (hr t m), h.text, h.value, h.skip⟩

theorem agree_refuseVisit (style : Style) (visit : Visit) (expecting : String) :
    Agree B (refuseVisit style visit expecting : Decode α) (refuseVisit style visit expecting) :=
  agree_refuse _ _

theorem agree_walkAnswer (path : Path) (muted : Bool) (request : Request) :
    Agree B (Source.walkAnswer path muted request) (Source.walkAnswer path muted request) := by
  have scalar (v : Json) (visit : Visit) :
      Agree B (setSample v >>= fun _ => pure visit) (setSample v >>= fun _ => pure visit) :=
    (agree_setSample v).bind fun _ => agree_pure visit
  refine agree_session fun session => ?_
  cases request with
  | any => exact (agree_note (.asked _ _)).bind fun _ => agree_pure _
  | option =>
      dsimp only
      split
      · exact scalar _ _
      · exact agree_pure _
  | map =>
      dsimp only
      split
      · exact agree_pure _
      · split <;> exact agree_pure _
  | enumeration title variants =>
      dsimp only
      split
      · exact agree_fail _
      · split
        · exact (agree_modifyNode _ _).bind fun _ => agree_pure _
        · exact agree_pure _
  | newtype => exact agree_pure _
  | seq => exact agree_pure _
  | tuple => exact agree_pure _
  | record => exact agree_pure _
  | _ => exact scalar _ _

theorem agree_ask (source : Source) (request : Request) (expecting : String) :
    Agree B (source.ask request expecting) (source.ask request expecting) := by
  cases source with
  | walk path muted => exact (agree_walkAnswer _ _ _).bind fun _ => agree_pure _
  | data origin value =>
      dsimp only [Source.ask]
      split
      · exact agree_pure _
      · exact agree_fail _
  | name style text => cases request <;> exact agree_pure _
  | replayedKey text =>
      dsimp only [Source.ask]
      split
      · exact agree_pure _
      · exact agree_fail _

/-! ## Cursors -/

theorem Seeded.next? {seed seed' : Seed α} (h : Seeded B seed seed') (cursor : SeqCursor) :
    Agree B (cursor.next? seed) (cursor.next? seed') := by
  cases cursor with
  | walk path muted limit index samples =>
      dsimp only [SeqCursor.next?]
      split
      · exact agree_pure _
      · exact (h.child _ _ _).bind fun _ => agree_takeSample.bind fun _ => agree_pure _
  | data origin total items =>
      cases items with
      | nil => exact agree_pure _
      | cons item rest => exact (h.data _ _).bind fun _ => agree_pure _

theorem agree_closeSeq (cursor : SeqCursor) : Agree B cursor.close cursor.close := by
  cases cursor with
  | walk path muted limit index samples =>
      refine agree_session fun session => ?_
      dsimp only
      split
      · exact (agree_modifyNode _ _).bind fun _ => agree_setSample _
      · exact agree_setSample _
  | data origin total items =>
      cases items with
      | nil => cases origin <;> exact agree_pure _
      | cons item rest =>
          cases origin with
          | replay => exact agree_refuse _ _
          | _ => exact agree_pure _

theorem agree_readSeqCursor {body body' : SeqCursor → Decode (α × SeqCursor)}
    (h : ∀ cursor, Agree B (body cursor) (body' cursor)) (cursor : SeqCursor) :
    Agree B (cursor.read body) (cursor.read body') :=
  (h cursor).bind fun _ => (agree_closeSeq _).bind fun _ => agree_pure _

theorem agree_nextKey? {key key' : Source → Decode α}
    (h : ∀ source, Agree B (key source) (key' source)) (cursor : MapCursor) :
    Agree B (cursor.nextKey? key) (cursor.nextKey? key') := by
  unfold MapCursor.nextKey?
  split
  · exact agree_pure _
  · exact (h _).bind fun _ => agree_pure _
  · exact agree_pure _
  · exact (h _).bind fun _ => agree_pure _
  · exact agree_pure _
  · exact (h _).bind fun _ => agree_takeSample.bind fun _ => agree_pure _
  · exact agree_pure _
  · exact (h _).bind fun _ => agree_pure _

theorem Seeded.nextValue {seed seed' : Seed α} (h : Seeded B seed seed') (cursor : MapCursor) :
    Agree B (cursor.nextValue seed) (cursor.nextValue seed') := by
  unfold MapCursor.nextValue
  split
  · exact agree_fail _
  · exact (h.child _ _ _).bind fun _ => agree_takeSample.bind fun _ => agree_pure _
  · exact agree_refuse _ _
  · exact agree_throw _
  · exact (h.data _ _).bind fun _ => agree_pure _

theorem agree_closeMap (cursor : MapCursor) : Agree B cursor.close cursor.close := by
  unfold MapCursor.close
  split
  · exact agree_setSample _
  · exact agree_refuse _ _
  · exact agree_pure _

theorem agree_readMapCursor {body body' : MapCursor → Decode (α × MapCursor)}
    (h : ∀ cursor, Agree B (body cursor) (body' cursor)) (cursor : MapCursor) :
    Agree B (cursor.read body) (cursor.read body') := by
  have closed : ∀ p : α × MapCursor,
      Agree B (p.2.close >>= fun _ => pure p.1) (p.2.close >>= fun _ => pure p.1) :=
    fun p => (agree_closeMap _).bind fun _ => agree_pure _
  cases cursor with
  | walk path muted keys pending samples =>
      dsimp only [MapCursor.read]
      split
      · exact ((h _).onFault fun _ => agree_revise _ _ _).bind closed
      · exact (h _).bind closed
  | data origin total members pending => exact (h _).bind closed

theorem agree_wrapSample (variant : String) :
    Agree B (VariantCursor.wrapSample variant) (VariantCursor.wrapSample variant) :=
  agree_takeSample.bind fun _ => agree_setSample _

theorem agree_readUnitVariant (cursor : VariantCursor) :
    Agree B cursor.readUnit cursor.readUnit := by
  unfold VariantCursor.readUnit
  split
  · exact agree_setSample _
  · split
    · exact agree_pure _
    · exact agree_refuse _ _
  · exact agree_pure _

theorem Seeded.readNewtype {seed seed' : Seed α} (h : Seeded B seed seed')
    (cursor : VariantCursor) : Agree B (cursor.readNewtype seed) (cursor.readNewtype seed') := by
  unfold VariantCursor.readNewtype
  split
  · exact (h.child _ _ _).bind fun _ => (agree_wrapSample _).bind fun _ => agree_pure _
  · exact h.data _ _
  · exact agree_refuse _ _

theorem agree_readContainer (cursor : VariantCursor) (walked : Path → Visit)
    (replayed : Json → Option Visit) (expected : String) {body body' : Answer → Decode α}
    (h : ∀ answer, Agree B (body answer) (body' answer)) :
    Agree B (cursor.readContainer walked replayed expected body)
      (cursor.readContainer walked replayed expected body') := by
  unfold VariantCursor.readContainer
  split
  · exact (h _).bind fun _ => (agree_wrapSample _).bind fun _ => agree_pure _
  · split
    · exact h _
    · exact agree_refuse _ _
  · exact h _
  · exact agree_refuse _ _

/-! ## Readers without parts -/

theorem agree_finish (answer : Answer) : Agree B (finish answer) (finish answer) := by
  unfold finish
  split
  · exact agree_fail _
  · exact agree_pure _

theorem agree_readText (source : Source) : Agree B (readText source) (readText source) := by
  refine (agree_ask _ _ _).bind fun answer => ?_
  split
  · exact agree_pure _
  · exact agree_refuseVisit _ _ _

theorem agree_readValue (source : Source) : Agree B (readValue source) (readValue source) :=
  (agree_ask _ _ _).bind fun _ => agree_pure _

theorem agree_skipValue (source : Source) : Agree B (skipValue source) (skipValue source) :=
  (agree_ask _ _ _).discard

theorem agree_readBool (source : Source) : Agree B (readBool source) (readBool source) := by
  refine (agree_ask _ _ _).bind fun answer => ?_
  split
  · exact agree_pure _
  · exact agree_refuseVisit _ _ _

theorem agree_readInt (kind : IntKind) (source : Source) :
    Agree B (readInt kind source) (readInt kind source) := by
  refine (agree_ask _ _ _).bind fun answer => ?_
  split
  · split
    · exact agree_finish _
    · exact agree_refuse _ _
  · exact agree_refuseVisit _ _ _

theorem agree_readFloat (kind : FloatKind) (source : Source) :
    Agree B (readFloat kind source) (readFloat kind source) := by
  refine (agree_ask _ _ _).bind fun answer => ?_
  split
  · exact agree_finish _
  · exact agree_finish _
  · exact agree_refuseVisit _ _ _

theorem agree_readNonZero (source : Source) :
    Agree B (readNonZero source) (readNonZero source) := by
  refine (agree_ask _ _ _).bind fun answer => ?_
  split
  · split
    · exact agree_finish _
    · exact agree_refuse _ _
  · exact agree_refuseVisit _ _ _

theorem agree_readChar (source : Source) : Agree B (readChar source) (readChar source) := by
  refine (agree_ask _ _ _).bind fun answer => ?_
  split
  · split
    · exact agree_pure _
    · exact agree_refuse _ _
  · exact agree_refuseVisit _ _ _

theorem agree_readUnit (source : Source) : Agree B (readUnit source) (readUnit source) := by
  refine (agree_ask _ _ _).bind fun answer => ?_
  split
  · exact agree_pure _
  · exact agree_refuseVisit _ _ _

theorem agree_readForm (form : TextForm) (source : Source) :
    Agree B (readForm form source) (readForm form source) := by
  refine (agree_ask _ _ _).bind fun answer => ?_
  split
  · split
    · exact agree_pure _
    · exact agree_refuse _ _
  · exact agree_refuseVisit _ _ _

theorem agree_readAny (accept : List ValueKind) (echo : Bool) (source : Source) :
    Agree B (readAny accept echo source) (readAny accept echo source) := by
  refine (agree_ask _ _ _).bind fun answer => ?_
  split
  · exact agree_refuse _ _
  · split
    · exact agree_pure _
    · exact agree_refuseVisit _ _ _

theorem agree_checkMissing (style : Style) (fields : List FieldDecl) (isRead : Nat → Bool) :
    Agree B (checkMissing style fields isRead) (checkMissing style fields isRead) := by
  unfold checkMissing
  split
  · exact agree_refuse _ _
  · exact agree_pure _

/-! ## Readers of containers -/

theorem agree_readOption {inner inner' : Source → Decode Unit}
    (h : ∀ source, Agree B (inner source) (inner' source)) (source : Source) :
    Agree B (readOption inner source) (readOption inner' source) := by
  refine (agree_ask _ _ _).bind fun answer => ?_
  split
  · exact agree_pure _
  · exact agree_pure _
  · exact h _
  · exact agree_refuseVisit _ _ _

theorem agree_readNewtype {inner inner' : Source → Decode Unit}
    (h : ∀ source, Agree B (inner source) (inner' source)) (name : String) (source : Source) :
    Agree B (readNewtype inner name source) (readNewtype inner' name source) := by
  refine (agree_ask _ _ _).bind fun answer => ?_
  split
  · exact h _
  · exact agree_refuseVisit _ _ _

theorem agree_readElements {seedAt seedAt' : Nat → Seed Unit}
    (h : ∀ i, Seeded B (seedAt i) (seedAt' i)) (more index : Nat) (cursor : SeqCursor) :
    Agree B (readElements seedAt more index cursor) (readElements seedAt' more index cursor) := by
  induction more generalizing index cursor with
  | zero => exact agree_pure _
  | succ more ih =>
      refine ((h index).next? cursor).bind fun found => ?_
      split
      · exact agree_pure _
      · exact ih _ _

theorem agree_readOpen {seedAt seedAt' : Nat → Seed Unit}
    (h : ∀ i, Seeded B (seedAt i) (seedAt' i)) (take : Option Nat) (cursor : SeqCursor) :
    Agree B (readOpen seedAt take cursor) (readOpen seedAt' take cursor) :=
  agree_readSeqCursor (fun _ => (agree_readElements h _ _ _).bind fun _ => agree_pure _) cursor

theorem agree_readSeq {seedAt seedAt' : Nat → Seed Unit}
    (h : ∀ i, Seeded B (seedAt i) (seedAt' i)) (take : Option Nat) (source : Source) :
    Agree B (readSeq seedAt take source) (readSeq seedAt' take source) := by
  refine (agree_ask _ _ _).bind fun answer => ?_
  split
  · exact agree_readOpen h _ _
  · exact agree_refuseVisit _ _ _

theorem agree_readPlaces (style : Style) (expecting : String) {seeds seeds' : List (Seed Unit)}
    (h : List.Forall₂ (Seeded B) seeds seeds') (index : Nat) (cursor : SeqCursor) :
    Agree B (readPlaces style expecting index seeds cursor)
      (readPlaces style expecting index seeds' cursor) := by
  induction h generalizing index cursor with
  | nil => exact agree_pure _
  | cons first _ ih =>
      refine (first.next? cursor).bind fun found => ?_
      split
      · exact agree_refuse _ _
      · exact ih _ _

theorem agree_acceptTuple (expecting : String) {seeds seeds' : List (Seed Unit)}
    (h : List.Forall₂ (Seeded B) seeds seeds') (answer : Answer) :
    Agree B (acceptTuple expecting seeds answer) (acceptTuple expecting seeds' answer) := by
  unfold acceptTuple
  split
  · exact agree_readSeqCursor (agree_readPlaces _ _ h 0) _
  · exact agree_refuseVisit _ _ _

theorem agree_readTuple (expecting : String) {seeds seeds' : List (Seed Unit)}
    (h : List.Forall₂ (Seeded B) seeds seeds') (source : Source) :
    Agree B (readTuple expecting seeds source) (readTuple expecting seeds' source) := by
  unfold readTuple
  rw [h.length_eq]
  exact (agree_ask _ _ _).bind fun _ => agree_acceptTuple _ h _

theorem agree_readEntries {key key' : Source → Decode Unit} {seed seed' : Seed Unit}
    (hk : ∀ source, Agree B (key source) (key' source)) (h : Seeded B seed seed') (more : Nat)
    (cursor : MapCursor) :
    Agree B (readEntries key seed more cursor) (readEntries key' seed' more cursor) := by
  induction more generalizing cursor with
  | zero => exact agree_pure _
  | succ more ih =>
      refine (agree_nextKey? hk cursor).bind fun found => ?_
      split
      · exact agree_pure _
      · exact (h.nextValue _).bind fun _ => ih _

theorem agree_readMap {key key' : Source → Decode Unit} {seed seed' : Seed Unit}
    (hk : ∀ source, Agree B (key source) (key' source)) (h : Seeded B seed seed')
    (take : Option Nat) (source : Source) :
    Agree B (readMap key seed take source) (readMap key' seed' take source) := by
  refine (agree_ask _ _ _).bind fun answer => ?_
  split
  · exact agree_readMapCursor (agree_readEntries hk h _) _
  · exact agree_refuseVisit _ _ _

theorem agree_readValueFirst {seed seed' : Seed Unit} (h : Seeded B seed seed') (source : Source) :
    Agree B (readValueFirst seed source) (readValueFirst seed' source) := by
  refine (agree_ask _ _ _).bind fun answer => ?_
  split
  · exact agree_readMapCursor h.nextValue _
  · exact agree_refuseVisit _ _ _

theorem Relies.drained {types roots : List TypeExpr} (h : Relies B read read' types roots)
    (cursor : SeqCursor) : Agree B (drain cursor) (drain cursor) := by
  refine agree_readOpen (fun _ => ⟨fun _ _ =>
    (agree_readValue _).discard, fun path muted key => ?_⟩)
    none cursor
  exact (readChild_map (fun _ => ()) path muted key valueSeed) ▸ (h.value path muted key).map _

theorem Relies.seedOf {types roots : List TypeExpr} (h : Relies B read read' types roots)
    {type : TypeExpr} (ht : type ∈ types) :
    Seeded B (seedOf read type) (seedOf read' type) :=
  (h.parts type ht).seeded

theorem Relies.seedsOf {types roots : List TypeExpr} (h : Relies B read read' types roots) :
    List.Forall₂ (Seeded B) (types.map (Reader.seedOf read)) (types.map (Reader.seedOf read')) := by
  rw [List.forall₂_map_left_iff, List.forall₂_map_right_iff, List.forall₂_same]
  exact fun type ht => h.seedOf ht

theorem Relies.texts {types roots : List TypeExpr} (h : Relies B read read' types roots) :
    Seeded B textSeed textSeed := ⟨fun _ _ => agree_readText _, h.text⟩

theorem Relies.values {types roots : List TypeExpr} (h : Relies B read read' types roots) :
    Seeded B valueSeed valueSeed := ⟨fun _ _ => agree_readValue _, h.value⟩

theorem Relies.skips {types roots : List TypeExpr} (h : Relies B read read' types roots) :
    Seeded B skipSeed skipSeed := ⟨fun _ _ => agree_skipValue _, h.skip⟩

/-! ## Readers of records -/

theorem findField?_some {fields : List FieldDecl} {name : String} {i : Nat} {field : FieldDecl}
    (h : findField? fields name = some (i, field)) :
    field.name = name ∧ fields[i]? = some field := by
  unfold findField? at h
  obtain ⟨j, hj, hm⟩ := Option.bind_eq_some_iff.mp h
  obtain ⟨found, hf, same⟩ := Option.map_eq_some_iff.mp hm
  obtain ⟨rfl, rfl⟩ := Prod.mk.inj same
  obtain ⟨lt, named, -⟩ := List.findIdx?_eq_some_iff_getElem.mp hj
  refine ⟨?_, hf⟩
  obtain rfl : fields[j] = found := Option.some.inj ((List.getElem?_eq_getElem lt).symm.trans hf)
  exact of_decide_eq_true named

theorem findField?_of_mem {fields : List FieldDecl} (nodup : (fields.map FieldDecl.name).Nodup)
    {i : Nat} {field : FieldDecl} (h : fields[i]? = some field) :
    findField? fields field.name = some (i, field) := by
  obtain ⟨lt, at'⟩ := List.getElem?_eq_some_iff.mp h
  have first : fields.findIdx? (fun f => f.name = field.name) = some i := by
    refine List.findIdx?_eq_some_iff_getElem.mpr ⟨lt, by simp [at'], fun j hj => ?_⟩
    have apart := List.pairwise_iff_getElem.mp nodup j i (by simp; omega) (by simpa using lt) hj
    simpa [at'] using apart
  unfold findField?
  rw [first, Option.bind_some, h, Option.map_some]

theorem findField?_mem {fields : List FieldDecl} {name : String} {i : Nat} {field : FieldDecl}
    (h : findField? fields name = some (i, field)) : field ∈ fields :=
  List.mem_of_getElem? (findField?_some h).2

theorem Relies.readFields {fields : List FieldDecl} {roots : List TypeExpr}
    (h : Relies B read read' (fields.map FieldDecl.type) roots) (style : Style)
    (denyUnknown : Bool) (more : Nat) (done : List Nat) (cursor : MapCursor) :
    Agree B (readFields read style fields denyUnknown more done cursor)
      (readFields read' style fields denyUnknown more done cursor) := by
  induction more generalizing done cursor with
  | zero => exact agree_pure _
  | succ more ih =>
      refine (agree_nextKey? agree_readText cursor).bind fun found => ?_
      split
      · exact agree_pure _
      · next key cursor =>
        split
        · next i field hf =>
          split
          · exact agree_refuse _ _
          · have ht := List.mem_map_of_mem (f := FieldDecl.type) (findField?_mem hf)
            exact ((h.seedOf ht).nextValue _).bind fun _ => ih _ _
        · split
          · exact agree_refuse _ _
          · exact (h.skips.nextValue _).bind fun _ => ih _ _

theorem Relies.acceptRecord {fields : List FieldDecl} {roots : List TypeExpr}
    (h : Relies B read read' (fields.map FieldDecl.type) roots) (expecting : String)
    (denyUnknown : Bool) (answer : Answer) :
    Agree B (acceptRecord read expecting fields denyUnknown answer)
      (acceptRecord read' expecting fields denyUnknown answer) := by
  unfold Reader.acceptRecord
  split
  · exact agree_readMapCursor (fun _ => (h.readFields _ _ _ _ _).bind fun _ =>
      (agree_checkMissing _ _ _).bind fun _ => agree_pure _) _
  · exact agree_refuseVisit _ _ _

theorem Relies.readLibraryRecord {fields : List FieldDecl} {roots : List TypeExpr}
    (h : Relies B read read' (fields.map FieldDecl.type) roots) (expecting : String)
    (source : Source) :
    Agree B (readLibraryRecord read expecting fields source)
      (readLibraryRecord read' expecting fields source) := by
  refine (agree_ask _ _ _).bind fun answer => ?_
  split
  · have seeds := h.seedsOf
    rw [List.map_map, List.map_map] at seeds
    exact agree_acceptTuple _ seeds _
  · exact h.acceptRecord _ _ _

/-! ## Readers of enumerations -/

theorem Relies.readContent {content : VariantContent} {roots : List TypeExpr}
    (h : Relies B read read' content.parts roots) (cursor : VariantCursor) :
    Agree B (readContent read cursor content) (readContent read' cursor content) := by
  cases content with
  | unit => exact agree_readUnitVariant _
  | newtype type => exact (h.seedOf (List.mem_singleton_self type)).readNewtype _
  | tuple types =>
      exact agree_readContainer _ _ _ _ (agree_acceptTuple _ h.seedsOf)
  | record fields => exact agree_readContainer _ _ _ _ (h.acceptRecord _ _)

theorem Relies.readEnumeration {variants : List (String × VariantContent)} {roots : List TypeExpr}
    (h : Relies B read read' (variants.flatMap fun variant => variant.2.parts) roots)
    (name : String) (source : Source) :
    Agree B (readEnumeration read name variants source)
      (readEnumeration read' name variants source) := by
  refine (agree_ask _ _ _).bind fun answer => ?_
  split
  · split
    · next payload hp =>
      refine (h.mono (fun t ht => ?_) fun _ => id).readContent _
      exact List.mem_flatMap.mpr ⟨_, Table.mem_of_get? hp, ht⟩
    · exact agree_refuse _ _
  · exact agree_refuseVisit _ _ _

theorem Relies.readKey {types roots : List TypeExpr} (h : Relies B read read' types roots)
    (kind : KeyKind) (source : Source) :
    Agree B (readKey read kind source) (readKey read' kind source) := by
  cases kind with
  | text => exact (agree_readText _).discard
  | int kind => exact agree_readInt _ _
  | bool => exact agree_readBool _
  | char => exact agree_readChar _
  | optionalText => exact agree_readOption (fun _ => (agree_readText _).discard) _
  | cases =>
      exact (h.mono (by simp [keyCases, VariantContent.parts]) fun _ => id).readEnumeration _ _

/-! ## Readers of kept values -/

theorem Relies.readBuffered {fields : List FieldDecl} {roots : List TypeExpr}
    (h : Relies B read read' (fields.map FieldDecl.type) roots) (style : Style)
    (buffer : List (String × Json)) :
    Agree B (readBuffered read style buffer fields) (readBuffered read' style buffer fields) := by
  induction fields with
  | nil => exact agree_pure _
  | cons field fields ih =>
      have rest := ih (h.mono (fun _ => List.mem_cons_of_mem _) fun _ => id)
      unfold Reader.readBuffered
      split
      · exact ((h.parts _ List.mem_cons_self).inPlace _).bind fun _ => rest
      · split
        · exact rest
        · exact (agree_refuse _ _).bind fun _ => rest

theorem Relies.readTagged {types roots : List TypeExpr} (h : Relies B read read' types roots)
    (style : Style) (tag : String) (variants : List (String × List FieldDecl)) (more : Nat)
    (found : Option (List FieldDecl)) (buffer : List (String × Json)) (cursor : MapCursor) :
    Agree B (readTagged style tag variants more found buffer cursor)
      (readTagged style tag variants more found buffer cursor) := by
  induction more generalizing found buffer cursor with
  | zero => exact agree_pure _
  | succ more ih =>
      refine (agree_nextKey? agree_readText cursor).bind fun next => ?_
      split
      · exact agree_pure _
      · split
        · refine (h.texts.nextValue _).bind fun _ => ?_
          dsimp only
          split
          · exact ih _ _ _
          · exact agree_refuse _ _
        · exact (h.values.nextValue _).bind fun _ => ih _ _ _

/-- The fields that a tag chooses are those of a variant. -/
theorem readTagged_gives (style : Style) (tag : String) (variants : List (String × List FieldDecl))
    (more : Nat) (found : Option (List FieldDecl)) (buffer : List (String × Json))
    (cursor : MapCursor) (h : ∀ fields, found = some fields → ∃ name, (name, fields) ∈ variants) :
    Gives (fun result => ∀ fields, result.1.1 = some fields → ∃ name, (name, fields) ∈ variants)
      (readTagged style tag variants more found buffer cursor) := by
  induction more generalizing found buffer cursor with
  | zero => exact gives_pure h
  | succ more ih =>
      refine gives_bind fun next => ?_
      split
      · exact gives_pure h
      · split
        · refine gives_bind fun read => ?_
          dsimp only
          split
          · next fields hf =>
            refine ih _ _ _ fun chosen hc => ?_
            obtain rfl := Option.some.inj hc
            exact ⟨_, Table.mem_of_get? hf⟩
          · exact gives_throw _
        · exact gives_bind fun read => ih _ _ _ h

theorem Relies.readTaggedEnumeration {variants : List (String × List FieldDecl)}
    {roots : List TypeExpr}
    (h : Relies B read read' (variants.flatMap fun variant => variant.2.map FieldDecl.type) roots)
    (name tag : String) (source : Source) :
    Agree B (readTaggedEnumeration read name tag variants source)
      (readTaggedEnumeration read' name tag variants source) := by
  refine (agree_ask _ _ _).bind fun answer => ?_
  split
  · refine agree_readMapCursor (fun cursor => ?_) _
    refine (h.readTagged _ _ _ _ _ _ _).bindGiven
      (readTagged_gives _ _ _ _ _ _ _ fun _ none => by cases none) fun result hr => ?_
    dsimp only
    split
    · exact agree_refuse _ _
    · next fields hf =>
      obtain ⟨name, hn⟩ := hr fields hf
      refine ((h.mono (fun t ht => ?_) fun _ => id).readBuffered _ _).bind fun _ => agree_pure _
      exact List.mem_flatMap.mpr ⟨_, hn, ht⟩
  · exact agree_refuseVisit _ _ _

theorem Relies.tryEach {types roots : List TypeExpr} (h : Relies B read read' types roots)
    (style : Style) (name : String) (value : Json) :
    Agree B (tryEach read style name value types) (tryEach read' style name value types) := by
  induction types with
  | nil => exact agree_refuse _ _
  | cons type types ih =>
      have rest := ih (h.mono (fun _ => List.mem_cons_of_mem _) fun _ => id)
      refine ((h.parts _ List.mem_cons_self).inPlace _).tryCatch (fun stop => ?_) (fun _ => rfl)
        (fun _ => rfl)
      split
      · exact rest
      · exact agree_throw _

theorem Relies.readFlattened {types roots : List TypeExpr} {own : List FieldDecl}
    (h : Relies B read read' types roots) (ho : ∀ field ∈ own, field.type ∈ types) (more : Nat)
    (done : List Nat) (buffer : List (String × Json)) (cursor : MapCursor) :
    Agree B (readFlattened read own more done buffer cursor)
      (readFlattened read' own more done buffer cursor) := by
  induction more generalizing done buffer cursor with
  | zero => exact agree_pure _
  | succ more ih =>
      refine (agree_nextKey? agree_readText cursor).bind fun next => ?_
      split
      · exact agree_pure _
      · split
        · next i field hf =>
          exact ((h.seedOf (ho field (findField?_mem hf))).nextValue _).bind fun _ => ih _ _ _
        · exact (h.values.nextValue _).bind fun _ => ih _ _ _

theorem Relies.readEach {types roots : List TypeExpr} (h : Relies B read read' types roots)
    (source : Source) :
    Agree B (types.forM fun type => read type source)
      (types.forM fun type => read' type source) := by
  induction types with
  | nil => exact agree_pure _
  | cons type types ih =>
      exact ((h.parts _ List.mem_cons_self).inPlace _).bind fun _ =>
        ih (h.mono (fun _ => List.mem_cons_of_mem _) fun _ => id)

theorem Relies.readFlatten {own : List FieldDecl} {inner roots : List TypeExpr}
    (h : Relies B read read' (own.map FieldDecl.type ++ inner) roots) (name : String)
    (source : Source) :
    Agree B (readFlatten read name own inner source) (readFlatten read' name own inner source) := by
  have fields : ∀ field ∈ own, field.type ∈ own.map FieldDecl.type ++ inner := fun field hf =>
    List.mem_append_left _ (List.mem_map_of_mem hf)
  refine (agree_ask _ _ _).bind fun answer => ?_
  split
  · refine agree_readMapCursor (fun cursor => ?_) _
    refine (h.readFlattened fields _ _ _ _).bind fun _ => ?_
    refine (agree_checkMissing _ _ _).bind fun _ => ?_
    exact ((h.mono (fun _ => List.mem_append_right _) fun _ => id).readEach _).bind fun _ =>
      agree_pure _
  · exact agree_refuseVisit _ _ _

theorem Relies.acceptScalar {types roots : List TypeExpr} (h : Relies B read read' types roots)
    (kind : ScalarKind) (expecting : String) (answer : Answer) :
    Agree B (acceptScalar kind expecting answer) (acceptScalar kind expecting answer) := by
  unfold Reader.acceptScalar
  split
  case h_14 => exact h.drained _
  case h_15 => exact h.drained _
  case h_17 => exact agree_refuseVisit _ _ _
  all_goals exact agree_pure _

theorem Relies.readScalar {types roots : List TypeExpr} (h : Relies B read read' types roots)
    (kind : ScalarKind) (reject : Option String) (source : Source) :
    Agree B (readScalar kind reject source) (readScalar kind reject source) := by
  refine (agree_ask _ _ _).bind fun answer => (h.acceptScalar _ _ _).bind fun _ => ?_
  split
  · exact agree_refuse _ _
  · exact agree_finish _

/-! ## Readers of types -/

theorem repeated_mem_parts (types : List TypeExpr) (take : Option Nat) (i : Nat) :
    types.getD (min i (types.length - 1)) .unit ∈ (Schema.seq types take).parts := by
  cases types with
  | nil => exact List.mem_singleton_self _
  | cons type types =>
      have within : min i ((type :: types).length - 1) < (type :: types).length := by
        simp only [List.length_cons]; omega
      rw [List.getD_eq_getElem?_getD, List.getElem?_eq_getElem within, Option.getD_some]
      exact List.getElem_mem within

mutual

theorem Relies.readSchema {schema : Schema}
    (h : Relies B read read' schema.parts schema.roots) (decode : Nat) (source : Source) :
    Agree B (readSchema read decode schema source) (readSchema read' decode schema source) := by
  cases schema with
  | scalar request reject => exact h.readScalar _ _ _
  | newtype name inner =>
      exact agree_readNewtype (h.parts _ (List.mem_singleton_self _)).inPlace _ _
  | delegate target => exact (h.parts _ (List.mem_singleton_self _)).inPlace _
  | record name fields denyUnknown =>
      exact (agree_ask _ _ _).bind fun _ => h.acceptRecord _ _ _
  | anyRecord name fields => exact (agree_ask _ _ _).bind fun _ => h.acceptRecord _ _ _
  | tuple name types => exact agree_readTuple _ h.seedsOf _
  | seq types take => exact agree_readSeq (fun i => h.seedOf (repeated_mem_parts types take i)) _ _
  | map key content take =>
      exact agree_readMap (h.readKey key) (h.seedOf (List.mem_singleton_self _)) _ _
  | valueFirst type => exact agree_readValueFirst (h.seedOf (List.mem_singleton_self _)) _
  | enumeration name variants => exact h.readEnumeration _ _
  | any accept echo => exact agree_readAny _ _ _
  | tagged name tag variants => exact h.readTaggedEnumeration _ _ _
  | untagged name variants => exact (agree_readValue _).bind fun _ => h.tryEach _ _ _
  | flatten name own inner => exact h.readFlatten _ _
  | context key cases otherwise =>
      refine agree_session fun session => ?_
      dsimp only
      split
      · next value type found =>
        refine (h.parts type (List.mem_cons_of_mem _ ?_)).inPlace _
        exact List.mem_map_of_mem (f := Prod.snd) (List.mem_of_find?_eq_some found)
      · exact (h.parts _ List.mem_cons_self).inPlace _
  | decoding yes no => exact (h.parts _ (List.mem_singleton_self _)).inPlace _
  | reflect root next =>
      exact (h.roots _ (List.mem_singleton_self _) _).bind fun _ =>
        (h.parts _ (List.mem_singleton_self _)).inPlace _
  | nth schemas => exact Relies.readNth h decode _ source
  | fail text => exact agree_refuse _ _
  | missing field => exact agree_refuse _ _
  | unknown variant expected => exact agree_refuse _ _

theorem Relies.readNth {all : List Schema}
    (h : Relies B read read' (Schema.partsOfAll all) (Schema.rootsOfAll all)) (decode skip : Nat)
    (source : Source) :
    Agree B (readSchema.readNth read decode skip all source)
      (readSchema.readNth read' decode skip all source) := by
  have first {schema : Schema} {rest : List Schema}
      (h : Relies B read read' (Schema.partsOfAll (schema :: rest))
        (Schema.rootsOfAll (schema :: rest))) :
      Relies B read read' schema.parts schema.roots :=
    h.mono (fun _ => List.mem_append_left _) fun _ => List.mem_append_left _
  match all, skip with
  | [], _ => exact agree_refuse _ _
  | [schema], 0 => exact (first h).readSchema _ _
  | [schema], skip + 1 => exact (first h).readSchema _ _
  | schema :: next :: rest, 0 => exact (first h).readSchema _ _
  | schema :: next :: rest, skip + 1 =>
      exact Relies.readNth
        (h.mono (fun _ => List.mem_append_right _) fun _ => List.mem_append_right _) decode skip
        source

end

/-- Where a schema behaves alike in every decode, the number of the decode does not matter. -/
theorem readSchema_steady {schema : Schema} (h : schema.isSteady) (read : TypeReader)
    (decode decode' : Nat) (source : Source) :
    readSchema read decode schema source = readSchema read decode' schema source := by
  cases schema with
  | nth => cases h
  | _ => rfl

theorem exec_readDeclared (read : TypeReader) (slot : Slot) (source : Source) (s : State) :
    exec (readDeclared read slot source) s =
      match Table.get? s.world.schemas slot with
      | some schema =>
          exec (readSchema read (s.world.count slot + 1) schema source) (s.counted slot)
      | none =>
          (.error (.fault (source.style.fault (.custom ("undeclared type " ++ slot.label)))),
            s.counted slot) := by
  unfold readDeclared
  simp only [exec_bind, exec_world, exec_modifyWorld]
  cases Table.get? s.world.schemas slot <;> rfl

/-- The reader of a type keeps what its parts keep. -/
theorem Relies.readTypeWith {type : TypeExpr}
    (h : Relies B read read' (type.parts schemas) (type.roots schemas))
    (steady : ∀ slot schema, type = .declared slot → Table.get? schemas slot = some schema →
      schema.isSteady ∨ ∀ s t, B.rel s t → s.world.count slot = t.world.count slot)
    (source : Source) :
    Agree B (readTypeWith read type source) (readTypeWith read' type source) := by
  cases type with
  | declared slot =>
      intro s t hst
      obtain ⟨hs, ht⟩ := B.declared hst
      show Match B (exec (readDeclared read slot source) s)
        (exec (readDeclared read' slot source) t)
      rw [exec_readDeclared, exec_readDeclared, hs, ht]
      have counted := B.counted slot hst
      cases hd : Table.get? schemas slot with
      | none => exact .inr (.inr ⟨rfl, counted⟩)
      | some schema =>
          have inside : Relies B read read' schema.parts schema.roots := by
            simpa [TypeExpr.parts, TypeExpr.roots, hd] using h
          dsimp only
          rcases steady slot schema rfl hd with alike | same
          · rw [readSchema_steady alike read _ (t.world.count slot + 1)]
            exact inside.readSchema _ _ _ _ counted
          · rw [same s t hst]
            exact inside.readSchema _ _ _ _ counted
  | bool => exact agree_readBool _
  | int kind => exact agree_readInt _ _
  | float kind => exact agree_readFloat _ _
  | char => exact agree_readChar _
  | text owner => exact (agree_readText _).discard
  | unit => exact agree_readUnit _
  | phantom => exact agree_readUnit _
  | value => exact (agree_readValue _).discard
  | ignored => exact agree_skipValue _
  | nonZero => exact agree_readNonZero _
  | result => exact h.readEnumeration _ _
  | duration => exact h.readLibraryRecord _ _
  | form form => exact agree_readForm _ _
  | option inner => exact agree_readOption (h.parts _ (List.mem_singleton_self _)).inPlace _
  | vec inner => exact agree_readSeq (fun _ => h.seedOf (List.mem_singleton_self _)) _ _
  | pointer pointer inner => exact (h.parts _ (List.mem_singleton_self _)).inPlace _
  | map inner =>
      have key (source : Source) :
          Agree B (discard (readText source)) (discard (readText source)) :=
        (agree_readText source).discard
      exact agree_readMap key (h.seedOf (List.mem_singleton_self _)) none source
  | range inner =>
      have both : ∀ t ∈ [requiredField "start" inner, requiredField "end" inner].map FieldDecl.type,
          t ∈ [inner] := by simp [requiredField]
      exact (h.mono both fun _ => id).readLibraryRecord _ _
  | array length inner =>
      have seeds := h.seedsOf
      unfold TypeExpr.parts at seeds
      rw [List.map_replicate, List.map_replicate] at seeds
      exact agree_readTuple _ seeds _
  | pair inner =>
      have both : ∀ t ∈ [inner, inner], t ∈ [inner] := by simp
      exact agree_readTuple _ (h.mono both fun _ => id).seedsOf _
  | withText inner => exact agree_readTuple _ h.seedsOf _
  | one inner => exact agree_readTuple _ h.seedsOf _

end
end Walk
end ApiAtlas
