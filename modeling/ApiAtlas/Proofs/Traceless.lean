import ApiAtlas.Proofs.Rereading
import ApiAtlas.Proofs.Scalars

/-!
# Replays and scalars leave no trace

Where a value is read from data that is kept for it, nothing is walked: the session stays as it is,
and of the world only the counts of declared types change. Such data is refused in words, so the
walk that asked for it never learns a key from it. A scalar that is walked hands out data, and
leaves nothing else behind either.
-/
namespace ApiAtlas.Walk
open Decode Reader

/-- But for the data that was handed out, the session and the cache stay as they are, and no field
is missed. -/
def Law.traceless (schemas : Schemas) : Law where
  holds s := s.world.schemas = schemas
  stops stop := ∀ field, stop ≠ .fault (.missingField field)
  rel s t := (∃ v, t.session = { s.session with sample := v }) ∧ t.world.cache = s.world.cache ∧
    t.world.registry = s.world.registry
  refl s := ⟨⟨s.session.sample, rfl⟩, rfl, rfl⟩
  trans := fun ⟨⟨_, session⟩, cache, registry⟩ ⟨⟨v, session'⟩, cache', registry'⟩ =>
    ⟨⟨v, by rw [session', session]⟩, cache'.trans cache, registry'.trans registry⟩

/-- Data that is replayed answers with what it holds, or is refused in words. -/
theorem dataAnswer_replay (v : Json) (expecting : String) (request : Request) :
    (∃ visit : Visit, visit.Shows v ∧
      Source.dataAnswer .replay v expecting request = .ok ⟨visit, .replay "", none⟩) ∨
      ∃ text, Source.dataAnswer .replay v expecting request = .error (.decode text) := by
  cases answered : Source.dataAnswer .replay v expecting request with
  | ok answer =>
      have shows := shows_dataAnswer answered
      unfold Source.dataAnswer at answered
      dsimp only at answered
      split at answered
      · split at answered
        · exact .inl ⟨_, Except.ok.inj answered ▸ shows, by rw [← Except.ok.inj answered]; rfl⟩
        · cases answered
      · split at answered
        · exact .inl ⟨_, Except.ok.inj answered ▸ shows, by rw [← Except.ok.inj answered]; rfl⟩
        · cases answered
      · simp_all
      · simp_all
      · simp_all
      · simp_all
  | error fault =>
      refine .inr ?_
      unfold Source.dataAnswer at answered
      dsimp only at answered
      split at answered
      · split at answered
        · cases answered
        · exact ⟨_, by rw [← Except.error.inj answered]; rfl⟩
      · split at answered
        · cases answered
        · exact ⟨_, by rw [← Except.error.inj answered]; rfl⟩
      · simp_all
      · simp_all
      · simp_all
      · simp_all

namespace Decode
variable {α : Type} {schemas : Schemas} {read : TypeReader} {v : Json}

abbrev Traceless (schemas : Schemas) (m : Decode α) : Prop := Obeys (.traceless schemas) m

theorem traceless_told {fault : Fault} (h : ∀ field, fault ≠ .missingField field) :
    (Law.traceless schemas).stops (.fault fault) :=
  fun field same => h field (Stop.fault.inj same)

/-- What follows a request for a scalar has a plain answer to go on with. -/
theorem traceless_asked {source : Source} {request : Request} (h : request.isPlain)
    (unwalked : request = .any → ∀ path muted, source ≠ .walk path muted) (expecting : String)
    {f : Answer → Decode α} (hf : ∀ answer, answer.Plain → Traceless schemas (f answer)) :
    Traceless schemas (source.ask request expecting >>= f) := by
  cases source with
  | walk path muted =>
      refine obeys_ask_walk (fun s hs => ?_) expecting hf
      have other : request ≠ .any := fun any => unwalked any path muted rfl
      obtain ⟨visit, v, run, unwalked⟩ := walkAnswer_sample h other path muted s
      exact ⟨visit, _, run, hs, ⟨⟨v, rfl⟩, rfl, rfl⟩, unwalked⟩
  | _ => exact obeys_ask (fun _ => traceless_told nofun) h expecting hf nofun

theorem scalars_traceless : Scalars (.traceless schemas) schemas where
  declared hs := hs
  counted {s} _ hs := ⟨hs, ⟨s.session.sample, rfl⟩, rfl, rfl⟩
  depth := nofun
  told := traceless_told
  asked plain unwalked expecting hf := traceless_asked plain unwalked expecting hf

theorem traceless_replay (place : String) (problem : Problem) :
    Traceless schemas (refuse (.replay place) problem : Decode α) :=
  obeys_throw nofun

theorem traceless_ask {request : Request} (expecting : String) {f : Answer → Decode α}
    (hf : ∀ visit : Visit, visit.Shows v → Traceless schemas (f ⟨visit, .replay "", none⟩)) :
    Traceless schemas ((Source.data .replay v).ask request expecting >>= f) := by
  dsimp only [Source.ask]
  rcases dataAnswer_replay v expecting request with ⟨visit, shows, told⟩ | ⟨text, told⟩
  · rw [told]
    exact hf visit shows
  · rw [told]
    exact fun s hs => ((obeys_throw nofun :
      Traceless schemas (fail (.decode text) : Decode Answer)) s hs).stopped

/-! ## Replayed containers -/

section
variable {total : Nat}

theorem traceless_readPlaces {place expecting : String} {seeds : List (Seed Unit)}
    (h : ∀ seed ∈ seeds, ∀ v, Traceless schemas (seed.run (.data .replay v)))
    {f : Unit × SeqCursor → Decode α}
    (hf : ∀ rest, Traceless schemas (f ((), .data .replay total rest))) (index : Nat)
    (items : List Json) :
    Traceless schemas
      (readPlaces (.replay place) expecting index seeds (.data .replay total items) >>= f) := by
  induction seeds generalizing index items with
  | nil => exact hf items
  | cons seed seeds ih =>
      cases items with
      | nil =>
          exact fun s hs => ((traceless_replay place (.invalidLength index expecting) :
            Traceless schemas (_ : Decode (Unit × SeqCursor))) s hs).stopped
      | cons item rest =>
          rw [readPlaces, SeqCursor.next?, bind_assoc, bind_assoc]
          exact (h seed List.mem_cons_self item).bind fun _ =>
            ih (fun other ho => h other (List.mem_cons_of_mem _ ho)) (index + 1) rest

theorem traceless_nextValue {seed : Seed Unit} (h : Traceless schemas (seed.run (.data .replay v)))
    {rest : List (String × Json)} {f : Unit × MapCursor → Decode α}
    (hf : ∀ value, Traceless schemas (f (value, .data .replay total rest none))) :
    Traceless schemas (MapCursor.nextValue (.data .replay total rest (some v)) seed >>= f) := by
  unfold MapCursor.nextValue
  dsimp only
  rw [bind_assoc]
  exact h.bind fun value => hf value

theorem traceless_readEntries {seed : Seed Unit}
    (h : ∀ v, Traceless schemas (seed.run (.data .replay v))) {f : Unit × MapCursor → Decode α}
    (hf : ∀ rest, Traceless schemas (f ((), .data .replay total rest none))) (most : Nat)
    (members : List (String × Json)) :
    Traceless schemas (readEntries (fun source => discard (readText source)) seed most
      (.data .replay total members none) >>= f) := by
  induction most generalizing members with
  | zero => exact hf members
  | succ most ih =>
      cases members with
      | nil => exact hf []
      | cons member rest =>
          obtain ⟨name, value⟩ := member
          have key : MapCursor.nextKey? (.data .replay total ((name, value) :: rest) none)
              (fun source => discard (readText source)) =
              pure (some ((), .data .replay total rest (some value))) := rfl
          rw [readEntries, key, pure_bind]
          dsimp only
          rw [bind_assoc]
          exact traceless_nextValue (h value) fun _ => ih rest

theorem traceless_readFields {place : String} {fields : List FieldDecl} (denyUnknown : Bool)
    (h : ∀ field ∈ fields, ∀ v, Traceless schemas (read field.type (.data .replay v)))
    {f : List Nat × MapCursor → Decode α}
    (hf : ∀ done rest, Traceless schemas (f (done, .data .replay total rest none))) (most : Nat)
    (done : List Nat) (members : List (String × Json)) :
    Traceless schemas (readFields read (.replay place) fields denyUnknown most done
      (.data .replay total members none) >>= f) := by
  have refused (problem : Problem) :
      Traceless schemas ((refuse (.replay place) problem : Decode (List Nat × MapCursor)) >>= f) :=
    fun s hs => (traceless_replay (α := List Nat × MapCursor) place problem s hs).stopped
  induction most generalizing done members with
  | zero => exact hf done members
  | succ most ih =>
      cases members with
      | nil => exact hf done []
      | cons member rest =>
          obtain ⟨name, value⟩ := member
          have key :
              MapCursor.nextKey? (.data .replay total ((name, value) :: rest) none) readText =
              pure (some (name, .data .replay total rest (some value))) := rfl
          rw [readFields, key, pure_bind]
          dsimp only
          cases found : findField? fields name with
          | some entry =>
              obtain ⟨i, field⟩ := entry
              dsimp only
              split
              · exact refused _
              · rw [bind_assoc]
                exact traceless_nextValue (h field (findField?_mem found) value)
                  fun _ => ih (i :: done) rest
          | none =>
              dsimp only
              split
              · exact refused _
              · have skipped : Traceless schemas (skipSeed.run (.data .replay value)) :=
                  scalars_traceless.skipValue
                rw [bind_assoc]
                exact traceless_nextValue skipped fun _ => ih done rest

/-- A cursor over members is closed where its reader left off. -/
theorem traceless_readMapCursor {body : MapCursor → Decode (Unit × MapCursor)}
    {members : List (String × Json)}
    (h : ∀ {f : Unit × MapCursor → Decode Unit},
      (∀ rest, Traceless schemas (f ((), .data .replay total rest none))) →
      Traceless schemas (body (.data .replay total members none) >>= f)) :
    Traceless schemas (MapCursor.read (.data .replay total members none) body) := by
  unfold MapCursor.read
  refine h fun rest => Obeys.bind ?_ fun _ => obeys_pure _
  cases rest with
  | nil => exact obeys_pure _
  | cons member rest => exact obeys_throw nofun

theorem traceless_acceptTuple (expecting : String) {types : List TypeExpr}
    (h : ∀ t ∈ types, ∀ v, Traceless schemas (read t (.data .replay v))) {visit : Visit}
    (shows : visit.Shows v) :
    Traceless schemas
      (acceptTuple expecting (types.map (seedOf read)) ⟨visit, .replay "", none⟩) := by
  cases visit with
  | seq cursor =>
      obtain ⟨total, items, rfl, -⟩ := shows
      unfold acceptTuple SeqCursor.read
      refine traceless_readPlaces (fun seed member v => ?_) (fun rest => ?_) 0 items
      · obtain ⟨t, ht, rfl⟩ := List.mem_map.mp member
        exact h t ht v
      · exact (scalars_traceless.closeSeq .replay total rest).bind fun _ => obeys_pure _
  | _ => exact obeys_throw nofun

theorem traceless_acceptRecord (expecting : String) {fields : List FieldDecl} (denyUnknown : Bool)
    (h : ∀ field ∈ fields, ∀ v, Traceless schemas (read field.type (.data .replay v)))
    {visit : Visit} (shows : visit.Shows v) :
    Traceless schemas
      (acceptRecord read expecting fields denyUnknown ⟨visit, .replay "", none⟩) := by
  cases visit with
  | map cursor =>
      obtain ⟨total, members, rfl, -⟩ := shows
      show Traceless schemas (readRecordMap read _ fields denyUnknown _)
      refine traceless_readMapCursor fun hf => ?_
      rw [bind_assoc]
      refine traceless_readFields denyUnknown h (fun done rest => ?_) _ [] members
      dsimp only
      rw [bind_assoc]
      refine Obeys.bind ?_ fun _ => hf rest
      unfold checkMissing
      split
      · exact obeys_throw nofun
      · exact obeys_pure _
  | _ => exact obeys_throw nofun

end

/-! ## Replayed types -/

/-- A layout without variants is read again without a trace if what it reads inside is. -/
theorem traceless_layout {layout : Layout}
    (single : ∀ name variants, layout ≠ .enumeration name variants)
    (h : ∀ t ∈ layout.parts, ∀ v, Traceless schemas (read t (.data .replay v))) (v : Json) :
    Traceless schemas (layout.read read (.data .replay v)) := by
  cases layout with
  | pointer t => exact h t List.mem_cons_self v
  | newtype name t =>
      refine traceless_ask _ fun visit shows => ?_
      cases visit with
      | newtype source =>
          cases shows
          exact h t List.mem_cons_self v
      | _ => exact obeys_throw nofun
  | option t =>
      refine traceless_ask _ fun visit shows => ?_
      cases visit with
      | unit | none => exact obeys_pure ()
      | some source =>
          cases shows
          exact h t List.mem_cons_self v
      | _ => exact obeys_throw nofun
  | record expecting fields library denyUnknown =>
      have inside : ∀ field ∈ fields, ∀ v, Traceless schemas (read field.type (.data .replay v)) :=
        fun field member => h _ (List.mem_map_of_mem member)
      cases library with
      | false =>
          exact traceless_ask _ fun visit shows => traceless_acceptRecord _ _ inside shows
      | true =>
          refine traceless_ask _ fun visit shows => ?_
          cases visit with
          | seq cursor =>
              have accepted := traceless_acceptTuple expecting
                (List.forall_mem_map.mpr inside) shows
              rw [List.map_map] at accepted
              exact accepted
          | _ => exact traceless_acceptRecord _ _ inside shows
  | seq t =>
      refine traceless_ask _ fun visit shows => ?_
      cases visit with
      | seq cursor =>
          obtain ⟨total, items, rfl, -⟩ := shows
          exact scalars_traceless.readOpen (fun _ item => h t List.mem_cons_self item) total items
      | _ => exact obeys_throw nofun
  | tuple expecting types =>
      exact traceless_ask _ fun visit shows => traceless_acceptTuple expecting h shows
  | map t =>
      refine traceless_ask _ fun visit shows => ?_
      cases visit with
      | map cursor =>
          obtain ⟨total, members, rfl, -⟩ := shows
          exact traceless_readMapCursor fun hf =>
            traceless_readEntries (h t List.mem_cons_self) hf _ members
      | _ => exact obeys_throw nofun
  | enumeration name variants => exact absurd rfl (single name variants)

/-- Types of such layouts and scalars are read again without a trace. -/
theorem traceless_readType {types : TypeExpr → Prop}
    (parts : ∀ {t}, types t → ∀ p ∈ t.parts schemas, types p)
    (kinds : ∀ {t}, types t → t.isScalar schemas ∨ ∃ layout, t.layout? schemas = some layout ∧
      ∀ name variants, layout ≠ .enumeration name variants)
    (depth : Nat) {t : TypeExpr} (member : types t) (v : Json) :
    Traceless schemas (readType depth t (.data .replay v)) := by
  induction depth generalizing t v with
  | zero => exact obeys_throw nofun
  | succ depth ih =>
      rcases kinds member with scalar | ⟨layout, hl, single⟩
      · exact scalars_traceless.readType scalar (depth + 1)
      · intro s hs
        obtain ⟨counts, began⟩ := s.began_recount t
        have read := traceless_layout single
          (fun p hp v => ih (parts member p ((mem_parts_iff hl p).mpr hp)) v) v (s.began t)
          (by rw [began]; exact hs)
        rw [readType, exec_layout hl _ _ hs]
        rw [began] at read ⊢
        exact ⟨read.stops, read.holds, read.rel⟩

end Decode
end ApiAtlas.Walk
