import ApiAtlas.Proofs.Endings
import ApiAtlas.Proofs.Records

/-!
# Replays of any data end

A replay is visited with the value that it reads, or with what is inside of it. So a layout ends on
any data if its inner type ends on the data and its parts end on what is inside. Nothing is said
about whether the data is accepted.

Types that make one request at most, and read nothing inside, end on any data at all; and the data
that a walk of one of them leaves is accepted when it is read again.
-/
namespace ApiAtlas

namespace Json

/-- A value stands inside of another. -/
def Inside (inner : Json) : Json → Prop
  | array items => inner ∈ items
  | object members => ∃ name, (name, inner) ∈ members
  | _ => False

theorem Inside.sizeOf_lt {inner v : Json} (h : inner.Inside v) : sizeOf inner < sizeOf v := by
  cases v with
  | array items =>
      have := List.sizeOf_lt_of_mem h
      simp only [array.sizeOf_spec]
      omega
  | object members =>
      obtain ⟨name, mem⟩ := h
      have := List.sizeOf_lt_of_mem mem
      simp only [object.sizeOf_spec, Prod.mk.sizeOf_spec] at this ⊢
      omega
  | _ => exact h.elim

end Json

namespace Walk
open Decode Reader Filter

/-- A sequence whose items are of a kind. -/
def SeqCursor.Replays (P : Json → Prop) (cursor : SeqCursor) : Prop :=
  ∃ total items, cursor = .data .replay total items ∧ ∀ item ∈ items, P item

/-- An object whose members are of a kind, before a key. -/
def MapCursor.Replays (P : Json → Prop) (cursor : MapCursor) : Prop :=
  ∃ total members, cursor = .data .replay total members none ∧ ∀ member ∈ members, P member.2

/-- An object whose members are of a kind, behind a key. -/
def MapCursor.Due (P : Json → Prop) (cursor : MapCursor) : Prop :=
  ∃ total members value, cursor = .data .replay total members (some value) ∧ P value ∧
    ∀ member ∈ members, P member.2

/-- A visit shows a value, or hands out what is inside of it. -/
def Visit.Shows (v : Json) : Visit → Prop
  | some source | newtype source => source = .data .replay v
  | seq cursor => cursor.Replays (·.Inside v)
  | map cursor => cursor.Replays (·.Inside v)
  | variant cursor => ∃ name content, cursor = .data .replay name content ∧
      ∀ c ∈ content, c.Inside v
  | _ => True

theorem Visit.shows_ofJson (v : Json) : (Visit.ofJson .replay v).Shows v := by
  cases v with
  | number n => cases n <;> trivial
  | array items => exact ⟨_, items, rfl, fun _ h => h⟩
  | object members => exact ⟨_, members, rfl, fun member h => ⟨member.1, h⟩⟩
  | _ => trivial

theorem shows_replayed {v : Json} {request : Request} {visit : Visit}
    (h : Source.replayed? v request = some visit) : visit.Shows v := by
  unfold Source.replayed? at h
  split at h
  · exact Option.some.inj h ▸ Visit.shows_ofJson v
  · exact Option.some.inj h ▸ trivial
  · split at h
    · exact Option.some.inj h ▸ trivial
    · exact Option.some.inj h ▸ rfl
  · exact Option.some.inj h ▸ rfl
  · obtain ⟨-, taken⟩ := Option.ite_none_right_eq_some.mp h
    exact Option.some.inj taken ▸ Visit.shows_ofJson _

theorem shows_replayedVariant {v : Json} {visit : Visit}
    (h : Source.replayedVariant v = .ok visit) : visit.Shows v := by
  unfold Source.replayedVariant at h
  split at h
  · cases h
    exact ⟨_, _, rfl, nofun⟩
  · cases h
    refine ⟨_, _, rfl, ?_⟩
    rintro c ⟨⟩
    exact ⟨_, List.mem_singleton_self _⟩
  · cases h
  · cases h

theorem shows_dataAnswer {v : Json} {request : Request} {expecting : String} {answer : Answer}
    (h : Source.dataAnswer .replay v expecting request = .ok answer) : answer.visit.Shows v := by
  unfold Source.dataAnswer at h
  dsimp only at h
  split at h
  · split at h
    · rename_i visit answered
      cases h
      exact shows_replayedVariant answered
    · cases h
  · split at h
    · rename_i visit answered
      cases h
      exact shows_replayed answered
    · cases h
  · simp_all
  · simp_all
  · simp_all
  · simp_all

namespace Ground
variable {G : Ground} {read : Nat → TypeReader} {v : Json}

theorem runs_ask_data (request : Request) (expecting : String) :
    G.Runs (fun _ => (Source.data .replay v).ask request expecting) fun answer =>
      answer.visit.Shows v :=
  ends_exec fun s hs => by
    unfold Source.ask
    dsimp only
    cases answered : Source.dataAnswer .replay v expecting request with
    | ok answer => exact ⟨hs, shows_dataAnswer answered⟩
    | error fault => exact ⟨nofun, hs.fits⟩

/-! ## Replayed cursors -/

variable {P : Json → Prop} {seed : Nat → Seed Unit}

theorem runs_next?_data {cursor : SeqCursor} (hc : cursor.Replays P)
    (h : ∀ item, P item → G.Runs (fun d => (seed d).run (.data .replay item)) fun _ => True) :
    G.Runs (fun d => cursor.next? (seed d)) fun r => ∀ x ∈ r, x.2.Replays P := by
  obtain ⟨total, items, rfl, all⟩ := hc
  cases items with
  | nil => exact runs_pure nofun
  | cons item rest =>
      refine (h item (all item List.mem_cons_self)).bind fun _ _ => runs_pure ?_
      rintro x ⟨⟩
      exact ⟨total, rest, rfl, fun other ho => all other (List.mem_cons_of_mem _ ho)⟩

theorem runs_readSeqCursor_data {cursor : SeqCursor}
    {body : Nat → SeqCursor → Decode (Unit × SeqCursor)}
    (h : G.Runs (fun d => body d cursor) fun r => r.2.Replays P) :
    G.Runs (fun d => cursor.read (body d)) fun _ => True := by
  refine h.bind fun r hr => ?_
  obtain ⟨⟨⟩, cursor⟩ := r
  obtain ⟨total, items, rfl, -⟩ := hr
  refine Runs.bind (C := fun _ => True) ?_ fun _ _ => runs_pure trivial
  cases items with
  | nil => exact runs_pure trivial
  | cons _ _ => exact runs_refuse _ _

theorem runs_readOpen_data {cursor : SeqCursor} (hc : cursor.Replays P)
    (h : ∀ item, P item → G.Runs (fun d => (seed d).run (.data .replay item)) fun _ => True) :
    G.Runs (fun d => readOpen (fun _ => seed d) none cursor) fun _ => True :=
  runs_readSeqCursor_data ((runs_readElements (K := fun cursor => cursor.Replays P)
    (fun _ _ hc => runs_next?_data hc h) _ 0 cursor hc).bind fun _ hr => runs_pure hr)

theorem runs_acceptTuple_data (expecting : String) (style : Style) {types : List TypeExpr}
    {cursor : SeqCursor} (hc : cursor.Replays P)
    (h : ∀ t ∈ types, ∀ item, P item →
      G.Runs (fun d => read d t (.data .replay item)) fun _ => True) :
    G.Runs (fun d => acceptTuple expecting (types.map (seedOf (read d))) ⟨.seq cursor, style, none⟩)
      fun _ => True :=
  runs_readSeqCursor_data ((runs_readPlaces
    (K := fun rest cursor => cursor.Replays P ∧ rest ⊆ types) style expecting
    (fun t _ _ hc => (runs_next?_data hc.1 (h t (hc.2 List.mem_cons_self))).mono
      fun _ hr x hx => ⟨hr x hx, fun _ hu => hc.2 (List.mem_cons_of_mem _ hu)⟩)
    types 0 cursor ⟨hc, List.Subset.refl _⟩).mono fun _ hr => hr.1)

theorem runs_nextKey?_data {α : Type} {key : Source → Decode α} {cursor : MapCursor}
    (hc : cursor.Replays P)
    (h : ∀ name, G.Runs (fun _ => key (.replayedKey name)) fun _ => True) :
    G.Runs (fun _ => cursor.nextKey? key) fun r => ∀ x ∈ r, x.2.Due P := by
  obtain ⟨total, members, rfl, all⟩ := hc
  cases members with
  | nil => exact runs_pure nofun
  | cons member rest =>
      refine (h member.1).bind fun _ _ => runs_pure ?_
      rintro x ⟨⟩
      exact ⟨total, rest, member.2, rfl, all member List.mem_cons_self,
        fun other ho => all other (List.mem_cons_of_mem _ ho)⟩

theorem runs_nextValue_data {cursor : MapCursor} (hc : cursor.Due P)
    (h : ∀ value, P value → G.Runs (fun d => (seed d).run (.data .replay value)) fun _ => True) :
    G.Runs (fun d => cursor.nextValue (seed d)) fun r => r.2.Replays P := by
  obtain ⟨total, members, value, rfl, hv, all⟩ := hc
  exact (h value hv).bind fun _ _ => runs_pure ⟨total, members, rfl, all⟩

theorem runs_readMapCursor_data {cursor : MapCursor} (hc : cursor.Replays P)
    {body : Nat → MapCursor → Decode (Unit × MapCursor)}
    (h : G.Runs (fun d => body d cursor) fun r => r.2.Replays P) :
    G.Runs (fun d => cursor.read (body d)) fun _ => True := by
  obtain ⟨total, members, rfl, -⟩ := hc
  refine h.bind fun r hr => ?_
  obtain ⟨⟨⟩, cursor⟩ := r
  obtain ⟨total, members, rfl, -⟩ := hr
  refine Runs.bind (C := fun _ => True) ?_ fun _ _ => runs_pure trivial
  cases members with
  | nil => exact runs_pure trivial
  | cons _ _ => exact runs_refuse _ _

theorem runs_readText_key (name : String) :
    G.Runs (fun _ => readText (.replayedKey name)) fun _ => True :=
  ends_exec fun _ hs => ⟨hs, trivial⟩

theorem runs_readRecordMap_data (style : Style) {fields : List FieldDecl} (denyUnknown : Bool)
    {cursor : MapCursor} (hc : cursor.Replays P)
    (h : ∀ field ∈ fields, ∀ value, P value →
      G.Runs (fun d => read d field.type (.data .replay value)) fun _ => True) :
    G.Runs (fun d => readRecordMap (read d) style fields denyUnknown cursor) fun _ => True := by
  have loop (most : Nat) := runs_readFields (G := G) style fields denyUnknown
    (K := fun _ _ cursor => cursor.Replays P) (L := fun _ _ _ cursor => cursor.Due P)
    (F := fun _ cursor => cursor.Replays P)
    (fun _ _ hc => hc)
    (fun _ _ cursor hc => (runs_nextKey?_data hc runs_readText_key).mono
      fun r hr => ⟨fun _ => hc, hr⟩)
    (fun _ _ _ _ i field hc found _ => runs_nextValue_data hc (h field (findField?_mem found)))
    (fun _ _ _ _ hc _ => runs_nextValue_data hc fun _ _ => ends_exec fun _ hs => ⟨hs, trivial⟩)
    most [] cursor hc
  unfold readRecordMap
  exact runs_readMapCursor_data hc ((loop _).bind fun _ hr =>
    (runs_checkMissing _ _ _).bind fun _ _ => runs_pure hr)

/-! ## Replayed layouts -/

/-- What a layout reads from data: in place, and from less data. -/
structure RunsParts (G : Ground) (read : Nat → TypeReader) (layout : Layout) (v : Json) : Prop where
  inner : ∀ t, layout.inner? = some t →
    G.Runs (fun d => read d t (.data .replay v)) fun _ => True
  inside : ∀ t ∈ layout.parts, ∀ item, sizeOf item < sizeOf v →
    G.Runs (fun d => read d t (.data .replay item)) fun _ => True

theorem Shows.seq_replays {cursor : SeqCursor} (h : (Visit.seq cursor).Shows v) :
    cursor.Replays fun item => sizeOf item < sizeOf v := by
  obtain ⟨total, items, rfl, all⟩ := h
  exact ⟨total, items, rfl, fun item hi => (all item hi).sizeOf_lt⟩

theorem Shows.map_replays {cursor : MapCursor} (h : (Visit.map cursor).Shows v) :
    cursor.Replays fun item => sizeOf item < sizeOf v := by
  obtain ⟨total, members, rfl, all⟩ := h
  exact ⟨total, members, rfl, fun member hm => (all member hm).sizeOf_lt⟩

theorem runs_refuseVisit {C : Unit → Prop} (style : Style) (visit : Visit) (expecting : String) :
    G.Runs (fun _ => (refuseVisit style visit expecting : Decode Unit)) C :=
  runs_refuse _ _

theorem runs_acceptRecord_data (expecting : String) {fields : List FieldDecl} (denyUnknown : Bool)
    (answer : Answer) {whole : Json} (shows : answer.visit.Shows whole)
    (h : ∀ field ∈ fields, ∀ value, sizeOf value < sizeOf whole →
      G.Runs (fun d => read d field.type (.data .replay value)) fun _ => True) :
    G.Runs (fun d => acceptRecord (read d) expecting fields denyUnknown answer) fun _ => True := by
  obtain ⟨visit, style, residue⟩ := answer
  cases visit with
  | map cursor => exact runs_readRecordMap_data style denyUnknown (Shows.map_replays shows) h
  | _ => exact runs_refuseVisit _ _ _

theorem runs_acceptSeq_data (expecting : String) {types : List TypeExpr}
    (answer : Answer) {whole : Json} (shows : answer.visit.Shows whole)
    (h : ∀ t ∈ types, ∀ value, sizeOf value < sizeOf whole →
      G.Runs (fun d => read d t (.data .replay value)) fun _ => True) :
    G.Runs (fun d => acceptTuple expecting (types.map (seedOf (read d))) answer) fun _ => True := by
  obtain ⟨visit, style, residue⟩ := answer
  cases visit with
  | seq cursor => exact runs_acceptTuple_data expecting style (Shows.seq_replays shows) h
  | _ => exact runs_refuseVisit _ _ _

theorem runs_readContent_data {variant : String} {inner : Option Json} {content : VariantContent}
    (less : ∀ c ∈ inner, sizeOf c < sizeOf v)
    (h : ∀ t ∈ content.parts, ∀ value, sizeOf value < sizeOf v →
      G.Runs (fun d => read d t (.data .replay value)) fun _ => True) :
    G.Runs (fun d => readContent (read d) (.data .replay variant inner) content) fun _ => True := by
  have within (c : Json) (hc : c ∈ inner) {fields : List TypeExpr} (sub : fields ⊆ content.parts) :
      ∀ t ∈ fields, ∀ value, sizeOf value < sizeOf c →
        G.Runs (fun d => read d t (.data .replay value)) fun _ => True :=
    fun t ht value lt => h t (sub ht) value (lt.trans (less c hc))
  cases inner with
  | none =>
      cases content with
      | unit => exact runs_pure trivial
      | _ => exact runs_refuse _ _
  | some c =>
      cases content with
      | unit =>
          cases c with
          | null => exact runs_pure trivial
          | _ => exact runs_refuse _ _
      | newtype t => exact h t List.mem_cons_self c (less c rfl)
      | tuple types =>
          cases c with
          | array items =>
              cases items with
              | nil => exact runs_refuse _ _
              | cons item rest =>
                  exact runs_acceptSeq_data _
                    ⟨Visit.ofJson .replay (.array (item :: rest)), Origin.style .replay, none⟩
                    (Visit.shows_ofJson _) (within _ rfl (List.Subset.refl _))
          | _ => exact runs_refuse _ _
      | record fields =>
          have inside : ∀ field ∈ fields, ∀ value, sizeOf value < sizeOf c →
              G.Runs (fun d => read d field.type (.data .replay value)) fun _ => True :=
            fun field hf => within c rfl (List.Subset.refl _) _ (List.mem_map_of_mem hf)
          cases c with
          | array items =>
              exact runs_acceptRecord_data ("struct " ++ variant) false
                ⟨Visit.ofJson .replay (.array items), Origin.style .replay, none⟩
                (Visit.shows_ofJson _) inside
          | object members =>
              exact runs_acceptRecord_data ("struct " ++ variant) false
                ⟨Visit.ofJson .replay (.object members), Origin.style .replay, none⟩
                (Visit.shows_ofJson _) inside
          | _ => exact runs_refuse _ _

theorem runs_readNewtype_data {inner : Nat → Source → Decode Unit} (name : String)
    (h : G.Runs (fun d => inner d (.data .replay v)) fun _ => True) :
    G.Runs (fun d => readNewtype (inner d) name (.data .replay v)) fun _ => True := by
  refine (runs_ask_data .newtype _).bind fun answer shows => ?_
  obtain ⟨visit, style, residue⟩ := answer
  cases visit with
  | newtype source =>
      cases shows
      exact h
  | _ => exact runs_refuseVisit _ _ _

theorem runs_readOption_data {inner : Nat → Source → Decode Unit}
    (h : G.Runs (fun d => inner d (.data .replay v)) fun _ => True) :
    G.Runs (fun d => readOption (inner d) (.data .replay v)) fun _ => True := by
  refine (runs_ask_data .option _).bind fun answer shows => ?_
  obtain ⟨visit, style, residue⟩ := answer
  cases visit with
  | unit | none => exact runs_pure trivial
  | some source =>
      cases shows
      exact h
  | _ => exact runs_refuseVisit _ _ _

theorem runs_readLibraryRecord_data (expecting : String) {fields : List FieldDecl}
    (h : ∀ field ∈ fields, ∀ value, sizeOf value < sizeOf v →
      G.Runs (fun d => read d field.type (.data .replay value)) fun _ => True) :
    G.Runs (fun d => readLibraryRecord (read d) expecting fields (.data .replay v))
      fun _ => True := by
  refine (runs_ask_data (recordRequest fields) expecting).bind fun answer shows => ?_
  obtain ⟨visit, style, residue⟩ := answer
  cases visit with
  | seq cursor =>
      have inside : ∀ t ∈ fields.map FieldDecl.type, ∀ value, sizeOf value < sizeOf v →
          G.Runs (fun d => read d t (.data .replay value)) fun _ => True :=
        List.forall_mem_map.mpr h
      have accepted := runs_acceptSeq_data expecting ⟨.seq cursor, style, residue⟩ shows inside
      simp only [List.map_map] at accepted
      exact accepted
  | _ => exact runs_acceptRecord_data expecting true _ shows h

theorem runs_readSeq_data {seed : Nat → Seed Unit}
    (h : ∀ item, sizeOf item < sizeOf v →
      G.Runs (fun d => (seed d).run (.data .replay item)) fun _ => True) :
    G.Runs (fun d => readSeq (fun _ => seed d) none (.data .replay v)) fun _ => True := by
  refine (runs_ask_data .seq _).bind fun answer shows => ?_
  obtain ⟨visit, style, residue⟩ := answer
  cases visit with
  | seq cursor => exact runs_readOpen_data (Shows.seq_replays shows) h
  | _ => exact runs_refuseVisit _ _ _

theorem runs_readTuple_data (expecting : String) {types : List TypeExpr}
    (h : ∀ t ∈ types, ∀ item, sizeOf item < sizeOf v →
      G.Runs (fun d => read d t (.data .replay item)) fun _ => True) :
    G.Runs (fun d => readTuple expecting (types.map (seedOf (read d))) (.data .replay v))
      fun _ => True := by
  have asked : G.Runs (fun d => (Source.data .replay v).ask
      (.tuple (types.map (seedOf (read d))).length) expecting) fun answer =>
        answer.visit.Shows v := by
    simp only [List.length_map]
    exact runs_ask_data _ _
  exact asked.bind fun answer shows => runs_acceptSeq_data expecting answer shows h

theorem runs_readMap_data {seed : Nat → Seed Unit}
    (h : ∀ value, sizeOf value < sizeOf v →
      G.Runs (fun d => (seed d).run (.data .replay value)) fun _ => True) :
    G.Runs (fun d => readMap (fun source => discard (readText source)) (seed d) none
      (.data .replay v)) fun _ => True := by
  refine (runs_ask_data .map _).bind fun answer shows => ?_
  obtain ⟨visit, style, residue⟩ := answer
  cases visit with
  | map cursor =>
      have replays := Shows.map_replays shows
      exact runs_readMapCursor_data replays (runs_readEntries
        (K := fun cursor => cursor.Replays _) (L := fun cursor => cursor.Due _)
        (fun _ hc => runs_nextKey?_data hc fun name =>
          (runs_readText_key name).bind fun _ _ => runs_pure trivial)
        (fun _ hc => runs_nextValue_data hc h) _ cursor replays)
  | _ => exact runs_refuseVisit _ _ _

theorem runs_readEnumeration_data (name : String) {variants : List (String × VariantContent)}
    (h : ∀ variant ∈ variants, ∀ t ∈ variant.2.parts, ∀ value, sizeOf value < sizeOf v →
      G.Runs (fun d => read d t (.data .replay value)) fun _ => True) :
    G.Runs (fun d => readEnumeration (read d) name variants (.data .replay v)) fun _ => True := by
  refine (runs_ask_data (.enumeration name (variants.map Prod.fst)) _).bind fun answer shows => ?_
  obtain ⟨visit, style, residue⟩ := answer
  cases visit with
  | variant cursor =>
      obtain ⟨variant, inner, rfl, all⟩ := shows
      dsimp only [VariantCursor.variant]
      cases chosen : Table.get? variants variant with
      | none => exact runs_refuse _ _
      | some content =>
          exact runs_readContent_data (fun c hc => (all c hc).sizeOf_lt)
            (h _ (Table.mem_of_get? chosen))
  | _ => exact runs_refuseVisit _ _ _

theorem RunsParts.runs {layout : Layout} (h : RunsParts G read layout v) :
    G.Runs (fun d => layout.read (read d) (.data .replay v)) fun _ => True := by
  cases layout with
  | pointer t => exact h.inner t rfl
  | newtype name t => exact runs_readNewtype_data name (h.inner t rfl)
  | option t => exact runs_readOption_data (h.inner t rfl)
  | record expecting fields library denyUnknown =>
      have inside : ∀ field ∈ fields, ∀ value, sizeOf value < sizeOf v →
          G.Runs (fun d => read d field.type (.data .replay value)) fun _ => True :=
        fun field hf => h.inside _ (List.mem_map_of_mem hf)
      cases library with
      | true => exact runs_readLibraryRecord_data expecting inside
      | false =>
          exact (runs_ask_data (recordRequest fields) _).bind fun answer shows =>
            runs_acceptRecord_data expecting denyUnknown answer shows inside
  | seq t => exact runs_readSeq_data (h.inside t List.mem_cons_self)
  | tuple expecting types => exact runs_readTuple_data expecting h.inside
  | map t => exact runs_readMap_data (h.inside t List.mem_cons_self)
  | enumeration name variants =>
      exact runs_readEnumeration_data name fun variant hv t ht =>
        h.inside t (List.mem_flatMap.mpr ⟨variant, hv, ht⟩)

end Ground

/-! ## Types that read nothing inside -/

end Walk

/-- Whether a declared type refuses whatever it is read from. -/
def Schema.Refuses : Schema → Prop
  | scalar _ reject => reject ≠ none
  | fail _ | missing _ | unknown _ _ => True
  | _ => False

/-- Types that make one request at most and read nothing inside. -/
inductive TypeExpr.Leaf (schemas : Schemas) : TypeExpr → Prop
  | scalar {t : TypeExpr} {zero : Json} (h : t.zero? schemas = some zero) : Leaf schemas t
  | value : Leaf schemas .value
  | nonZero : Leaf schemas .nonZero
  | form (form : TextForm) : Leaf schemas (.form form)
  | any {slot : Slot} {accept : List ValueKind} {echo : Bool}
      (h : Table.get? schemas slot = some (.any accept echo)) : Leaf schemas (.declared slot)
  | refusing {slot : Slot} {schema : Schema} (h : Table.get? schemas slot = some schema)
      (refuses : schema.Refuses) : Leaf schemas (.declared slot)

namespace Walk
open Decode Reader Filter

/-- Replays of the data read the type, whatever is read inside. -/
def Reread (schemas : Schemas) (t : TypeExpr) (v : Json) : Prop :=
  ∀ read : TypeReader, Yields schemas (readTypeWith read t (.data .replay v)) ()

theorem accepted_of_reread {schemas : Schemas} {t : TypeExpr} {v : Json} (h : Reread schemas t v) :
    Accepted schemas t v :=
  eventually_succ (.of_forall fun d => h (readType d))

/-- A text that a form admits is read again. -/
theorem reread_form {schemas : Schemas} {form : TextForm} {text : String}
    (admitted : form.refusal? text = none) : Reread schemas (.form form) (.string text) := by
  refine fun read s hs => ⟨s.world.counts, ?_⟩
  have replayed : exec ((Source.data .replay (.string text)).ask .text form.expecting) s =
    (.ok ⟨.text text, .replay "", none⟩, s) := rfl
  show exec (readForm form (.data .replay (.string text))) s = _
  unfold readForm
  rw [exec_bind, replayed]
  dsimp only
  rw [admitted]
  rfl

theorem kind?_ofJson (origin origin' : Origin) (v : Json) :
    (Visit.ofJson origin v).kind? = (Visit.ofJson origin' v).kind? := by
  cases v with
  | number n => cases n <;> rfl
  | _ => rfl

theorem exec_began {schemas : Schemas} {slot : Slot} {schema : Schema}
    (h : Table.get? schemas slot = some schema) (read : TypeReader) (source : Source) {s : State}
    (hs : s.world.schemas = schemas) :
    ∃ count, exec (readTypeWith read (.declared slot) source) s =
      exec (readSchema read count schema source) (s.began (.declared slot)) := by
  refine ⟨s.world.count slot + 1, ?_⟩
  show exec (readDeclared read slot source) s = _
  rw [exec_readDeclared, hs, h]
  rfl

namespace Ground
variable {G : Ground} {read : Nat → TypeReader} {v : Json} {schemas : Schemas} {t : TypeExpr}
variable {path : Path} {muted : Bool}

theorem runs_finish (answer : Answer) : G.Runs (fun _ => finish answer) fun _ => True := by
  unfold finish
  split
  · exact ends_throw nofun fun _ hs => hs.fits
  · exact runs_pure trivial

theorem runs_readValue (v : Json) :
    G.Runs (fun _ => readValue (.data .replay v)) fun _ => True :=
  (runs_ask_data .any _).bind fun _ _ => runs_pure trivial

theorem runs_drain {cursor : SeqCursor} {P : Json → Prop} (hc : cursor.Replays P) :
    G.Runs (fun _ => drain cursor) fun _ => True := by
  have each (item : Json) : G.Runs (fun _ => discard (readValue (.data .replay item)))
      fun _ => True :=
    (runs_readValue item).bind fun _ _ => runs_pure trivial
  exact runs_readOpen_data hc fun item _ => each item

theorem runs_readScalar (kind : ScalarKind) (reject : Option String) :
    G.Runs (fun _ => readScalar kind reject (.data .replay v)) fun _ => True := by
  refine (runs_ask_data (scalarRequest kind) _).bind fun answer shows => ?_
  refine Runs.bind (C := fun _ => True) ?_ fun _ _ => ?_
  · obtain ⟨visit, style, residue⟩ := answer
    cases visit with
    | seq cursor =>
        cases kind with
        | bytes | byteBuf => exact runs_drain (Shows.seq_replays shows)
        | ignoredAny => exact runs_pure trivial
        | _ => exact runs_refuseVisit _ _ _
    | _ => cases kind <;> first | exact runs_pure trivial | exact runs_refuseVisit _ _ _
  · cases reject with
    | some text => exact runs_refuse _ _
    | none => exact runs_finish answer

/-- A declared type that reads nothing inside ends as its schema does. -/
theorem ends_declared {slot : Slot} {schema : Schema} (h : Table.get? schemas slot = some schema)
    (began : ∀ s, G.Holds s → s.world.schemas = schemas ∧ G.Holds (s.began (.declared slot)))
    {source : Source} {Q : Unit → State → Prop}
    (run : Ends G.Holds (fun _ => readSchema (fun _ _ => pure ()) 0 schema source) Q G.fits)
    (same : ∀ read count, readSchema read count schema source =
      readSchema (fun _ _ => pure ()) 0 schema source) :
    Ends G.Holds (fun d => readTypeWith (read d) (.declared slot) source) Q G.fits := by
  intro s hs
  obtain ⟨declared, counted⟩ := began s hs
  obtain ⟨x, run, ended⟩ := run _ counted
  refine ⟨x, run.mono fun d run => ?_, ended⟩
  obtain ⟨count, began⟩ := exec_began h (read d) source declared
  rw [began, same]
  exact run

theorem runs_refusing {schema : Schema} (refuses : schema.Refuses) (v : Json) :
    G.Runs (fun _ => readSchema (fun _ _ => pure ()) 0 schema (.data .replay v)) fun _ => True := by
  cases schema with
  | scalar kind reject => exact runs_readScalar kind reject
  | fail | missing | unknown => exact runs_refuse _ _
  | _ => exact refuses.elim

/-! ## Replayed scalars -/

theorem runs_readBool_data (v : Json) :
    G.Runs (fun _ => readBool (.data .replay v)) fun _ => True := by
  refine (runs_ask_data .bool _).bind fun answer _ => ?_
  split
  · exact runs_pure trivial
  · exact runs_refuseVisit _ _ _

theorem runs_readInt_data (kind : IntKind) (v : Json) :
    G.Runs (fun _ => readInt kind (.data .replay v)) fun _ => True := by
  refine (runs_ask_data (.int kind) _).bind fun answer _ => ?_
  split
  · split
    · exact runs_finish answer
    · exact runs_refuse _ _
  · exact runs_refuseVisit _ _ _

theorem runs_readFloat_data (kind : FloatKind) (v : Json) :
    G.Runs (fun _ => readFloat kind (.data .replay v)) fun _ => True := by
  refine (runs_ask_data (.float kind) _).bind fun answer _ => ?_
  split
  · exact runs_finish answer
  · exact runs_finish answer
  · exact runs_refuseVisit _ _ _

theorem runs_readNonZero_data (v : Json) :
    G.Runs (fun _ => readNonZero (.data .replay v)) fun _ => True := by
  refine (runs_ask_data (.int .u32) _).bind fun answer _ => ?_
  split
  · split
    · exact runs_finish answer
    · exact runs_refuse _ _
  · exact runs_refuseVisit _ _ _

theorem runs_readChar_data (v : Json) :
    G.Runs (fun _ => readChar (.data .replay v)) fun _ => True := by
  refine (runs_ask_data .char _).bind fun answer _ => ?_
  split
  · split
    · exact runs_pure trivial
    · exact runs_refuse _ _
  · exact runs_refuseVisit _ _ _

theorem runs_readText_data (v : Json) :
    G.Runs (fun _ => readText (.data .replay v)) fun _ => True := by
  refine (runs_ask_data .text _).bind fun answer _ => ?_
  split
  · exact runs_pure trivial
  · exact runs_refuse _ _

theorem runs_readUnit_data (v : Json) :
    G.Runs (fun _ => readUnit (.data .replay v)) fun _ => True := by
  refine (runs_ask_data .unit _).bind fun answer _ => ?_
  split
  · exact runs_pure trivial
  · exact runs_refuseVisit _ _ _

theorem runs_readForm_data (form : TextForm) (v : Json) :
    G.Runs (fun _ => readForm form (.data .replay v)) fun _ => True := by
  refine (runs_ask_data .text _).bind fun answer _ => ?_
  split
  · split
    · exact runs_pure trivial
    · exact runs_refuse _ _
  · exact runs_refuseVisit _ _ _

theorem runs_readAny_data (accept : List ValueKind) (echo : Bool) (v : Json) :
    G.Runs (fun _ => readAny accept echo (.data .replay v)) fun _ => True := by
  refine (runs_ask_data .any _).bind fun answer _ => ?_
  split
  · exact runs_refuse _ _
  · split
    · exact runs_pure trivial
    · exact runs_refuseVisit _ _ _

/-- A type with a zero value makes one request, whatever it is asked from. -/
theorem runs_zero_data {zero : Json} (h : t.zero? schemas = some zero)
    (began : ∀ s, G.Holds s → s.world.schemas = schemas ∧ G.Holds (s.began t)) :
    G.Runs (fun d => readTypeWith (read d) t (.data .replay v)) fun _ => True := by
  cases t with
  | declared slot =>
      obtain ⟨kind, hk, -⟩ := Option.map_eq_some_iff.mp h
      obtain ⟨schema, hd, hl⟩ := Option.bind_eq_some_iff.mp hk
      unfold Schema.scalar? at hl
      split at hl <;> cases hl
      exact ends_declared hd began (runs_readScalar kind none) fun _ _ => rfl
  | bool => exact runs_readBool_data v
  | int kind => exact runs_readInt_data kind v
  | float kind => exact runs_readFloat_data kind v
  | char => exact runs_readChar_data v
  | text owner => exact (runs_readText_data v).bind fun _ _ => runs_pure trivial
  | unit | phantom => exact runs_readUnit_data v
  | ignored => exact (runs_ask_data .ignored _).bind fun _ _ => runs_pure trivial
  | _ => cases h

/-- A type that reads nothing inside ends on any data. -/
theorem runs_leaf_data (h : t.Leaf schemas)
    (began : ∀ s, G.Holds s → s.world.schemas = schemas ∧ G.Holds (s.began t)) :
    G.Runs (fun d => readTypeWith (read d) t (.data .replay v)) fun _ => True := by
  cases h with
  | scalar h => exact runs_zero_data h began
  | value => exact (runs_readValue v).bind fun _ _ => runs_pure trivial
  | nonZero => exact runs_readNonZero_data v
  | form form => exact runs_readForm_data form v
  | @any slot accept echo h =>
      exact ends_declared h began (runs_readAny_data accept echo v) fun _ _ => rfl
  | @refusing slot schema h refuses =>
      refine ends_declared h began (runs_refusing refuses v) fun _ _ => ?_
      cases schema with
      | scalar | fail | missing | unknown => rfl
      | _ => exact refuses.elim

/-! ## Walks that read nothing inside -/

theorem Holds.asked {s : State} (h : G.Holds s) (site : Site) (offer : Json) :
    G.Holds (s.inSession (Note.asked site offer).apply) :=
  ⟨h.options, h.occurrences, h.hints, h.fits⟩

theorem reread_scalar {zero : Json} (h : t.zero? schemas = some zero) : Reread schemas t zero := by
  intro read s hs
  obtain ⟨counts, began⟩ := s.began_recount t
  exact ⟨counts, began ▸ scalar_replayed h read hs⟩

/-- Data of a kind that is accepted is accepted again. -/
theorem leaves_readAny {slot : Slot} {accept : List ValueKind} {echo : Bool}
    (h : Table.get? schemas slot = some (.any accept echo)) :
    G.Leaves (fun _ => readAny accept echo (.walk path muted))
      (Reread schemas (.declared slot)) := by
  refine ends_exec fun s hs => ?_
  cases echo with
  | true => exact ⟨nofun, hs.fits⟩
  | false =>
      let offer := s.session.hints.value path.site
      show Ended _ _ (exec (if (Visit.ofJson .hint offer).kind?.any accept.contains then pure ()
        else refuseVisit _ _ _) (s.inSession (Note.asked path.site offer).apply))
      cases accepted : (Visit.ofJson .hint offer).kind?.any accept.contains with
      | false => exact ⟨nofun, hs.fits⟩
      | true =>
          refine ⟨hs.asked _ _, fun read s hs => ?_⟩
          obtain ⟨count, began⟩ := exec_began h read (.data .replay offer) hs
          obtain ⟨counts, recounted⟩ := s.began_recount (.declared slot)
          refine ⟨counts, began.trans ?_⟩
          show exec (if (Visit.ofJson .replay offer).kind?.any accept.contains then pure ()
            else refuseVisit _ _ _) _ = _
          rw [kind?_ofJson .replay .hint, accepted, recounted]
          rfl

/-- A text of a form is read from an empty text, if its form admits that. -/
theorem leaves_readForm (form : TextForm) :
    G.Leaves (fun _ => readForm form (.walk path muted)) (Reread schemas (.form form)) := by
  refine ends_exec fun s hs => ?_
  have walked : exec ((Source.walk path muted).ask .text form.expecting) s =
    (.ok ⟨.text "", .engine, none⟩, s.inSession (Note.sample (.string "")).apply) := rfl
  unfold readForm
  rw [exec_bind, walked]
  dsimp only
  cases refused : form.refusal? "" with
  | some fault => exact ⟨nofun, hs.fits⟩
  | none => exact ⟨hs.sampled _, reread_form refused⟩

/-- A walk of a type that reads nothing inside ends, and its data is accepted when it is read
again. -/
theorem leaves_leaf_walk (h : t.Leaf schemas)
    (began : ∀ s, G.Holds s → s.world.schemas = schemas ∧ G.Holds (s.began t)) :
    G.Leaves (fun d => readTypeWith (read d) t (.walk path muted)) (Reread schemas t) := by
  cases h with
  | @scalar t zero h =>
      intro s hs
      obtain ⟨declared, counted⟩ := began s hs
      exact ⟨_, .of_forall fun d => scalar_walked h _ _ _ declared, counted.sampled zero,
        reread_scalar h⟩
  | value =>
      refine fun s hs => ⟨(.ok (), s.inSession (Note.asked path.site _).apply),
        .of_forall fun d => rfl, hs.asked _ _, fun read s hs => ⟨s.world.counts, rfl⟩⟩
  | nonZero => exact fun s hs => ⟨_, .of_forall fun d => rfl, nofun, hs.fits⟩
  | form form => exact leaves_readForm form
  | any h => exact ends_declared h began (leaves_readAny h) fun _ _ => rfl
  | @refusing slot schema h refuses =>
      refine ends_declared h began (ends_exec fun s hs => ?_) fun _ _ => ?_
      · cases schema with
        | scalar kind reject =>
            cases reject with
            | none => exact absurd rfl refuses
            | some text => cases kind <;> exact ⟨nofun, hs.fits⟩
        | fail | missing | unknown => exact ⟨nofun, hs.fits⟩
        | _ => exact refuses.elim
      · cases schema with
        | scalar | fail | missing | unknown => rfl
        | _ => exact refuses.elim

end Ground
end Walk
end ApiAtlas
