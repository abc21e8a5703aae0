import ApiAtlas.Proofs.Offers
import ApiAtlas.Proofs.Recorded

/-!
# Reading scalars

A scalar is read with one request, and an optional one with two. Wherever its data comes from, such
a decode misses no field, records nothing at the node it was sent to, and teaches nothing about the
root. So of a scalar that is read under a key of the root there remains one field of the root.
-/
namespace ApiAtlas

/-- Whether the reader of a schema asks for a scalar. -/
def Schema.isScalar : Schema → Bool
  | scalar _ _ => true
  | _ => false

namespace TypeExpr

/-- Whether a type is a scalar. -/
def isScalar (schemas : Schemas) : TypeExpr → Bool
  | declared slot => (Table.get? schemas slot).any Schema.isScalar
  | bool | int _ | float _ | char | text _ | unit | phantom | ignored | nonZero | form _ => true
  | _ => false

/-- Whether a type is a scalar or an optional one. -/
def isPlain (schemas : Schemas) : TypeExpr → Bool
  | option inner => inner.isScalar schemas
  | type => type.isScalar schemas

theorem isPlain_cases {schemas : Schemas} {type : TypeExpr} (h : type.isPlain schemas) :
    type.isScalar schemas ∨ ∃ inner, type = option inner ∧ inner.isScalar schemas := by
  cases type with
  | option inner => exact .inr ⟨inner, rfl, h⟩
  | _ => exact .inl h

end TypeExpr

namespace Hints
variable {hints : Hints} {site : Site}

theorem lastKeySite?_eq_some {tag : Site} (h : hints.lastKeySite? site = some tag) :
    ∃ key, tag = site ++ [key] := by
  unfold lastKeySite? at h
  split at h
  · cases h
  · obtain ⟨key, -, rfl⟩ := Option.map_eq_some_iff.mp h
    exact ⟨key, rfl⟩

theorem advance_eq (hints : Hints) (site : Site) :
    ∃ hint : Hint, (hints.advance site).1 = Table.put hints site hint ∧
      hint.keys = (hints.get site).keys := by
  unfold advance
  dsimp only
  split <;> exact ⟨_, rfl, rfl⟩

/-- What a lesson changes: one hint, of the site itself or of a key below it, and of its keys only
that a field that was missed is added. -/
theorem revise_cases (hints : Hints) (site : Site) (kind : SiteKind) (fault : Fault) :
    (hints.revise site kind fault).1 = hints ∨ ∃ tag hint more,
      (hints.revise site kind fault).1 = Table.put hints tag hint ∧
      hint.keys = (hints.get tag).keys ++ more ∧ (tag = site ∨ ∃ key, tag = site ++ [key]) ∧
      ∀ field ∈ more, fault = .missingField field := by
  have advanced (tag : Site) (place : tag = site ∨ ∃ key, tag = site ++ [key]) :
      ∃ tag' hint more, (hints.advance tag).1 = Table.put hints tag' hint ∧
        hint.keys = (hints.get tag').keys ++ more ∧ (tag' = site ∨ ∃ key, tag' = site ++ [key]) ∧
        ∀ field ∈ more, fault = .missingField field := by
    obtain ⟨hint, put, keys⟩ := advance_eq hints tag
    exact ⟨tag, hint, [], put, by rw [keys, List.append_nil], place, nofun⟩
  cases fault with
  | missingField field =>
      refine .inr ⟨site, ?_⟩
      unfold revise
      dsimp only
      split
      · exact ⟨_, [], rfl, by rw [List.append_nil], .inl rfl, nofun⟩
      · exact ⟨_, [field], rfl, rfl, .inl rfl, fun other member => by
          rw [List.mem_singleton.mp member]⟩
  | unknownVariant variant expected =>
      unfold revise
      dsimp only
      split
      · next tag _ known _ =>
        have place := Or.inr (a := tag = site) (lastKeySite?_eq_some known)
        split <;> exact .inr ⟨tag, _, [], rfl, by rw [List.append_nil], place, nofun⟩
      · exact .inl rfl
  | decode text =>
      unfold revise
      dsimp only
      split
      · next tag known => exact .inr (advanced tag (.inr (lastKeySite?_eq_some known)))
      · split
        · exact .inr (advanced site (.inl rfl))
        · exact .inl rfl

/-- What is learned elsewhere leaves the hint of the root as it is. -/
theorem get_revise (h : site ≠ []) (kind : SiteKind) (fault : Fault) :
    (hints.revise site kind fault).1.get [] = hints.get [] := by
  rcases revise_cases hints site kind fault with same | ⟨tag, hint, more, put, -, place, -⟩
  · rw [same]
  · have elsewhere : tag ≠ [] := by
      rcases place with rfl | ⟨key, rfl⟩
      · exact h
      · exact List.append_ne_nil_of_right_ne_nil _ (List.cons_ne_nil _ _)
    rw [put, get_put_of_ne _ _ elsewhere.symm]

/-- A lesson adds nothing to the keys of its site but a field that was missed. -/
theorem keys_revise (hints : Hints) (site : Site) (kind : SiteKind) (fault : Fault) :
    ∃ more, ((hints.revise site kind fault).1.get site).keys = (hints.get site).keys ++ more ∧
      ∀ field ∈ more, fault = .missingField field := by
  rcases revise_cases hints site kind fault with same | ⟨tag, hint, more, put, keys, place, missed⟩
  · exact ⟨[], by rw [same, List.append_nil], nofun⟩
  · rcases place with rfl | ⟨key, rfl⟩
    · exact ⟨more, by rw [put, get_put_self, keys], missed⟩
    · have elsewhere : site ≠ site ++ [key] := by simp
      exact ⟨[], by rw [put, get_put_of_ne _ _ elsewhere, List.append_nil], nofun⟩

end Hints

namespace Walk
open Decode Reader

/-- No field is missed, and of the tree and of what is known of the root nothing changes. -/
def Law.still (schemas : Schemas) : Law where
  holds s := s.world.schemas = schemas
  stops stop := ∀ field, stop ≠ .fault (.missingField field)
  rel s t := t.session.tree = s.session.tree ∧ t.session.hints.get [] = s.session.hints.get []
  refl _ := ⟨rfl, rfl⟩
  trans first second := ⟨second.1.trans first.1, second.2.trans first.2⟩

theorem State.taught_root (s : State) {site : Site} (h : site ≠ []) (stop : Stop) :
    (s.taught site stop).session.hints.get [] = s.session.hints.get [] := by
  cases stop with
  | fault fault =>
      show (s.session.revise site .any fault).hints.get [] = _
      unfold Session.revise
      split
      · rfl
      · exact Hints.get_revise h _ _
  | unrecorded path => rfl
  | valueBeforeKey => rfl
  | depth => rfl

@[simp] theorem State.leaving_hints (s : State) (segment : Segment) :
    (s.leaving segment).session.hints = s.session.hints := by
  show (s.session.leave segment).hints = _
  unfold Session.leave
  split <;> rfl

/-- A state with one more field of the root. -/
abbrev State.filing (s : State) (key : String) (child : Shape) : State :=
  s.inSession (Note.tree (s.session.tree.setField key child)).apply

namespace Decode
variable {α β : Type} {L : Law} {schemas : Schemas} {source : Source}

/-- A problem that is no missing field is told in words, or names a variant. -/
theorem fault_ne_missing (style : Style) {problem : Problem}
    (h : ∀ field, problem ≠ .missingField field) (field : String) :
    style.fault problem ≠ .missingField field := by
  cases style with
  | replay place => exact nofun
  | engine =>
      cases problem with
      | missingField missed => exact absurd rfl (h missed)
      | _ => exact nofun

/-- A law that readers of scalars obey: it lets them be counted and refused, unless a field is
missed, and what they do behind a plain answer decides. No walk is asked for
self-describing data. -/
structure Scalars (L : Law) (schemas : Schemas) : Prop where
  declared : ∀ {s}, L.holds s → s.world.schemas = schemas
  counted : ∀ {s} slot, L.holds s → L.holds (s.counted slot) ∧ L.rel s (s.counted slot)
  depth : L.stops .depth
  told : ∀ {fault : Fault}, (∀ field, fault ≠ .missingField field) → L.stops (.fault fault)
  asked : ∀ {β : Type} {source : Source} {request : Request} {f : Answer → Decode β},
    request.isPlain → (request = .any → ∀ path muted, source ≠ .walk path muted) → ∀ expecting,
    (∀ answer, answer.Plain → Obeys L (f answer)) → Obeys L (source.ask request expecting >>= f)

/-- What follows a request for a scalar to anything but the walk has a plain answer to go on
with. -/
theorem obeys_ask (told : ∀ text, L.stops (.fault (.decode text))) {request : Request}
    (h : request.isPlain) (expecting : String) {f : Answer → Decode α}
    (hf : ∀ answer, answer.Plain → Obeys L (f answer))
    (unwalked : ∀ path muted, source ≠ .walk path muted) :
    Obeys L (source.ask request expecting >>= f) := by
  have failed (text : String) : Obeys L ((fail (.decode text) : Decode Answer) >>= f) :=
    fun s hs => ((obeys_throw (told text) : Obeys L (fail (.decode text) : Decode Answer))
      s hs).stopped
  cases source with
  | walk path muted => exact absurd rfl (unwalked path muted)
  | data origin v =>
      dsimp only [Source.ask]
      rcases Source.dataAnswer_plain h origin v expecting with ⟨answer, given, plain⟩ |
        ⟨text, given⟩
      · rw [given]
        exact hf answer plain
      · rw [given]
        exact failed text
  | name style text =>
      have asked : (Source.name style text).ask request expecting =
          pure ((Source.name style text).visited (.text text)) := by
        cases request <;> first | rfl | cases h
      rw [asked, pure_bind]
      exact hf _ ⟨nofun, nofun⟩
  | replayedKey text =>
      dsimp only [Source.ask]
      rcases Source.replayedKeyAnswer_plain h text expecting with ⟨answer, given, plain⟩ |
        ⟨words, given⟩
      · rw [given]
        exact hf answer plain
      · rw [given]
        exact failed words

/-- What follows a request that a walk answers by steps of the law has a plain answer to go on
with. -/
theorem obeys_ask_walk {path : Path} {muted : Bool} {request : Request}
    (answered : ∀ s, L.holds s → ∃ visit t,
      exec (Source.walkAnswer path muted request) s = (.ok visit, t) ∧ L.holds t ∧ L.rel s t ∧
        ∀ cursor, visit = .seq cursor → ∃ origin total items, cursor = .data origin total items)
    (expecting : String) {f : Answer → Decode α}
    (hf : ∀ answer, answer.Plain → Obeys L (f answer)) :
    Obeys L ((Source.walk path muted).ask request expecting >>= f) := by
  intro s hs
  obtain ⟨visit, t, run, ht, rel, unwalked⟩ := answered s hs
  rw [exec_bind, exec_ask_walk expecting run]
  have later := hf ⟨visit, .engine, none⟩ ⟨nofun, unwalked⟩ t ht
  exact ⟨later.stops, later.holds, L.trans rel later.rel⟩

/-- Reading elements of data that is not walked leaves such data to go on with. -/
theorem obeys_readElements {seedAt : Nat → Seed Unit} {origin : Origin}
    (h : ∀ i item, Obeys L ((seedAt i).run (.data origin item))) {total : Nat}
    {f : Nat × SeqCursor → Decode α} (hf : ∀ n rest, Obeys L (f (n, .data origin total rest)))
    (most index : Nat) (items : List Json) :
    Obeys L (readElements seedAt most index (.data origin total items) >>= f) := by
  induction most generalizing index items with
  | zero => exact hf index items
  | succ most ih =>
      cases items with
      | nil => exact hf index []
      | cons item rest =>
          rw [readElements, SeqCursor.next?, bind_assoc, bind_assoc]
          exact (h index item).bind fun _ => ih (index + 1) rest

/-! ## Readers of scalars -/

namespace Scalars
variable (hL : Scalars L schemas)
include hL

theorem refuse (style : Style) {problem : Problem} (h : ∀ field, problem ≠ .missingField field) :
    Obeys L (refuse style problem : Decode α) :=
  obeys_throw (hL.told (fault_ne_missing style h))

theorem refuseVisit (style : Style) (visit : Visit) (expecting : String) :
    Obeys L (refuseVisit style visit expecting : Decode α) :=
  hL.refuse style nofun

theorem finish {answer : Answer} (h : answer.Plain) : Obeys L (finish answer) := by
  unfold Reader.finish
  split
  · next told =>
    obtain ⟨text, rfl⟩ := h.worded _ told
    exact obeys_throw (hL.told nofun)
  · exact obeys_pure ()

theorem readText : Obeys L (readText source) := by
  refine hL.asked rfl (by nofun) _ fun answer _ => ?_
  split
  · exact obeys_pure _
  · exact hL.refuseVisit _ _ _

theorem readValue (unwalked : ∀ path muted, source ≠ .walk path muted) :
    Obeys L (readValue source) :=
  hL.asked rfl (fun _ => unwalked) _ fun _ _ => obeys_pure _

theorem skipValue : Obeys L (skipValue source) := by
  have asked : Obeys L (source.ask .ignored "anything at all") := by
    rw [← bind_pure (source.ask _ _)]
    exact hL.asked rfl (by nofun) _ fun _ _ => obeys_pure _
  exact asked.map _

theorem readBool : Obeys L (readBool source) := by
  refine hL.asked rfl (by nofun) _ fun answer _ => ?_
  split
  · exact obeys_pure _
  · exact hL.refuseVisit _ _ _

theorem readInt (kind : IntKind) : Obeys L (readInt kind source) := by
  refine hL.asked rfl (by nofun) _ fun answer plain => ?_
  split
  · split
    · exact hL.finish plain
    · exact hL.refuse _ nofun
  · exact hL.refuseVisit _ _ _

theorem readFloat (kind : FloatKind) : Obeys L (readFloat kind source) := by
  refine hL.asked rfl (by nofun) _ fun answer plain => ?_
  split
  · exact hL.finish plain
  · exact hL.finish plain
  · exact hL.refuseVisit _ _ _

theorem readNonZero : Obeys L (readNonZero source) := by
  refine hL.asked rfl (by nofun) _ fun answer plain => ?_
  split
  · split
    · exact hL.finish plain
    · exact hL.refuse _ nofun
  · exact hL.refuseVisit _ _ _

theorem readChar : Obeys L (readChar source) := by
  refine hL.asked rfl (by nofun) _ fun answer _ => ?_
  split
  · split
    · exact obeys_pure _
    · exact hL.refuse _ nofun
  · exact hL.refuseVisit _ _ _

theorem readUnit : Obeys L (Reader.readUnit source) := by
  refine hL.asked rfl (by nofun) _ fun answer _ => ?_
  split
  · exact obeys_pure _
  · exact hL.refuseVisit _ _ _

theorem readForm (form : TextForm) : Obeys L (readForm form source) := by
  refine hL.asked rfl (by nofun) _ fun answer _ => ?_
  split
  · split
    · exact obeys_pure _
    · exact hL.refuse _ nofun
  · exact hL.refuseVisit _ _ _

theorem closeSeq (origin : Origin) (total : Nat) (items : List Json) :
    Obeys L (SeqCursor.data origin total items).close := by
  cases origin with
  | replay =>
      cases items with
      | nil => exact obeys_pure _
      | cons item items => exact hL.refuse _ nofun
  | _ => cases items <;> exact obeys_pure _

/-- Elements of data are read to the end. -/
theorem readOpen {seedAt : Nat → Seed Unit} {origin : Origin}
    (h : ∀ i item, Obeys L ((seedAt i).run (.data origin item))) (total : Nat) (items : List Json) :
    Obeys L (readOpen seedAt none (.data origin total items)) := by
  unfold Reader.readOpen SeqCursor.read
  rw [bind_assoc]
  refine obeys_readElements h (fun n rest => ?_) _ 0 items
  exact (hL.closeSeq origin total rest).bind fun _ => obeys_pure _

theorem acceptScalar (kind : ScalarKind) (expecting : String) {answer : Answer}
    (h : answer.Plain) : Obeys L (acceptScalar kind expecting answer) := by
  have drained {cursor : SeqCursor} (visit : answer.visit = .seq cursor) :
      Obeys L (drain cursor) := by
    obtain ⟨origin, total, items, rfl⟩ := h.unwalked cursor visit
    exact hL.readOpen (fun _ item => (hL.readValue (by nofun)).map _) total items
  unfold Reader.acceptScalar
  split
  all_goals first
    | exact obeys_pure _
    | exact hL.refuseVisit _ _ _
    | next visit => exact drained visit

theorem readScalar (kind : ScalarKind) (reject : Option String) :
    Obeys L (readScalar kind reject source) := by
  refine hL.asked (by cases kind <;> rfl) (fun any => by cases kind <;> cases any) _
    fun answer plain => ?_
  refine (hL.acceptScalar kind _ plain).bind fun _ => ?_
  split
  · exact hL.refuse _ nofun
  · exact hL.finish plain

theorem readDeclared {slot : Slot} (h : (Table.get? schemas slot).any Schema.isScalar)
    (read : TypeReader) : Obeys L (readDeclared read slot source) := by
  intro s holds
  cases declared : Table.get? schemas slot with
  | none => rw [declared] at h; cases h
  | some schema =>
      rw [declared] at h
      cases schema with
      | scalar kind reject =>
          rw [exec_readDeclared, hL.declared holds, declared]
          obtain ⟨counted, rel⟩ := hL.counted slot holds
          have read : Obeyed L (s.counted slot)
              (exec (Reader.readScalar kind reject source) (s.counted slot)) :=
            hL.readScalar kind reject _ counted
          exact ⟨read.stops, read.holds, L.trans rel read.rel⟩
      | _ => cases h

/-- Reading a scalar obeys the law. -/
theorem readType {type : TypeExpr} (h : type.isScalar schemas) (depth : Nat) :
    Obeys L (readType depth type source) := by
  cases depth with
  | zero => exact obeys_throw hL.depth
  | succ depth =>
      cases type with
      | declared slot => exact hL.readDeclared h _
      | bool => exact hL.readBool
      | int kind => exact hL.readInt kind
      | float kind => exact hL.readFloat kind
      | char => exact hL.readChar
      | text owner => exact (hL.readText).map _
      | unit => exact hL.readUnit
      | phantom => exact hL.readUnit
      | ignored => exact hL.skipValue
      | nonZero => exact hL.readNonZero
      | form form => exact hL.readForm form
      | _ => cases h

end Scalars

/-! ## Scalars leave no trace at the root -/

abbrev Still (schemas : Schemas) (m : Decode α) : Prop := Obeys (.still schemas) m

theorem still_setSample (v : Json) : Still schemas (setSample v) :=
  fun _ hs => ⟨nofun, hs, rfl, rfl⟩

theorem still_insertCache (type : TypeRef) (entry : CacheEntry) :
    Still schemas (insertCache type entry) :=
  fun _ hs => ⟨nofun, hs, rfl, rfl⟩

/-- A walk answers such a request, and only hands out data, unless any data is asked for. -/
theorem walkAnswer_sample {request : Request} (h : request.isPlain) (other : request ≠ .any)
    (path : Path) (muted : Bool) (s : State) : ∃ visit v,
    exec (Source.walkAnswer path muted request) s = (.ok visit, s.inSession (Note.sample v).apply) ∧
      ∀ cursor, visit = .seq cursor → ∃ origin total items, cursor = .data origin total items := by
  cases request with
  | any => exact absurd rfl other
  | option =>
      unfold Source.walkAnswer
      rw [exec_bind, exec_session]
      dsimp only
      split
      · exact ⟨_, .null, rfl, nofun⟩
      · exact ⟨_, s.session.sample, rfl, nofun⟩
  | newtype | seq | tuple | map | record | enumeration => cases h
  | _ => exact ⟨_, _, rfl, nofun⟩

/-- A walk answers such a request, and only notes it. -/
theorem walkAnswer_plain {request : Request} (h : request.isPlain) (path : Path) (muted : Bool)
    (s : State) : ∃ visit t, exec (Source.walkAnswer path muted request) s = (.ok visit, t) ∧
      t.world = s.world ∧ t.session.tree = s.session.tree ∧ t.session.hints = s.session.hints ∧
      ∀ cursor, visit = .seq cursor → ∃ origin total items, cursor = .data origin total items := by
  by_cases any : request = .any
  · subst any
    exact ⟨_, _, rfl, rfl, rfl, rfl, fun _ => Visit.unwalked_ofJson⟩
  · obtain ⟨visit, v, run, unwalked⟩ := walkAnswer_sample h any path muted s
    exact ⟨visit, _, run, rfl, rfl, rfl, unwalked⟩

theorem still_told {fault : Fault} (h : ∀ field, fault ≠ .missingField field) :
    (Law.still schemas).stops (.fault fault) :=
  fun field same => h field (Stop.fault.inj same)

/-- What follows a request for a scalar has a plain answer to go on with. -/
theorem still_ask {request : Request} (h : request.isPlain) (expecting : String)
    {f : Answer → Decode α} (hf : ∀ answer, answer.Plain → Still schemas (f answer)) :
    Still schemas (source.ask request expecting >>= f) := by
  cases source with
  | walk path muted =>
      refine obeys_ask_walk (fun s hs => ?_) expecting hf
      obtain ⟨visit, t, run, world, tree, hints, unwalked⟩ := walkAnswer_plain h path muted s
      have here : t.world.schemas = schemas := world ▸ hs
      exact ⟨visit, t, run, here, ⟨tree, by rw [hints]⟩, unwalked⟩
  | _ => exact obeys_ask (fun _ => still_told nofun) h expecting hf nofun

theorem scalars_still : Scalars (.still schemas) schemas where
  declared hs := hs
  counted _ hs := ⟨hs, rfl, rfl⟩
  depth := nofun
  told := still_told
  asked h _ := fun expecting hf => still_ask h expecting hf

theorem still_refuse (style : Style) {problem : Problem}
    (h : ∀ field, problem ≠ .missingField field) :
    Still schemas (refuse style problem : Decode α) :=
  scalars_still.refuse style h

theorem still_readValue (source : Source) : Still schemas (readValue source) :=
  still_ask rfl _ fun _ _ => obeys_pure _

theorem still_skipValue (source : Source) : Still schemas (skipValue source) :=
  scalars_still.skipValue

theorem still_readOption {inner : Source → Decode Unit} (h : ∀ source, Still schemas (inner source))
    (source : Source) : Still schemas (readOption inner source) := by
  refine still_ask rfl _ fun answer _ => ?_
  split
  · exact obeys_pure _
  · exact obeys_pure _
  · exact h _
  · exact scalars_still.refuseVisit _ _ _

theorem still_scalar {type : TypeExpr} (h : type.isScalar schemas) (depth : Nat) (source : Source) :
    Still schemas (readType depth type source) :=
  scalars_still.readType h depth

/-- Reading a scalar or an optional one misses no field and leaves no trace at the root. -/
theorem still_plain {type : TypeExpr} (h : type.isPlain schemas) (depth : Nat) (source : Source) :
    Still schemas (readType depth type source) := by
  rcases TypeExpr.isPlain_cases h with scalar | ⟨inner, rfl, scalar⟩
  · exact still_scalar scalar depth source
  · cases depth with
    | zero => exact obeys_throw nofun
    | succ depth => exact still_readOption (still_scalar scalar depth) source

/-! ## Scalars under keys -/

section
variable {seed : Seed α}

theorem still_replay (h : ∀ source, Still schemas (seed.run source)) (v : Json) :
    Still schemas (replay seed v) := by
  intro s hs
  have first := h (.data .replay v) s hs
  rw [exec_replay]
  generalize exec (seed.run _) s = x at first ⊢
  obtain ⟨stop | a, t⟩ := x
  · refine ⟨fun other same field missed => ?_, first.holds, first.rel⟩
    obtain rfl := Except.error.inj same
    -- a replay rewords what is told in words, and nothing else
    have known : stop = .fault (.missingField field) := by
      rcases stop with (_ | _ | _) | _ | _ | _ <;> first | exact missed | cases missed
    exact first.stops stop rfl field known
  · exact first

theorem still_descend (h : ∀ source, Still schemas (seed.run source)) (parent : Path)
    (muted : Bool) (key : String) : Still schemas (descend parent muted key seed) := by
  intro s hs
  have below : (parent.child key seed.type).site ≠ [] := by simp [Path.site]
  rw [exec_descend]
  dsimp only
  split
  · refine ⟨fun stop same => ?_, hs, State.leaving_tree _ _, ?_⟩
    · obtain rfl := Except.error.inj same
      exact nofun
    · rw [State.leaving_hints]
      rfl
  · have inside := h (.walk (parent.child key seed.type) muted)
      (s.entering ⟨key, seed.type⟩) hs
    have left (t : State) : (Law.still schemas).rel t (t.leaving ⟨key, seed.type⟩) :=
      ⟨State.leaving_tree _ _, by rw [State.leaving_hints]⟩
    generalize exec (seed.run _) _ = x at inside ⊢
    obtain ⟨stop | a, t⟩ := x
    · have taught : (Law.still schemas).rel (t.leaving ⟨key, seed.type⟩)
          ((t.leaving ⟨key, seed.type⟩).taught (parent.child key seed.type).site stop) :=
        ⟨State.taught_tree _ _ _, State.taught_root _ below stop⟩
      refine ⟨fun other same => ?_, ?_,
        (Law.still schemas).trans inside.rel ((Law.still schemas).trans (left t) taught)⟩
      · obtain rfl := Except.error.inj same
        exact inside.stops stop rfl
      · cases stop <;> exact inside.holds
    · have ended : (Law.still schemas).rel s (t.leaving ⟨key, seed.type⟩) :=
        (Law.still schemas).trans inside.rel (left t)
      dsimp only [cacheWalked]
      split
      · split
        · exact ⟨nofun, inside.holds, ended⟩
        · exact ⟨fun other same => by cases same; exact nofun, inside.holds, ended⟩
      · exact ⟨nofun, inside.holds, ended⟩

/-- Under a key of the root a field is recorded, and then nothing more. -/
theorem readChild_files (h : ∀ source, Still schemas (seed.run source)) (key : String) {s : State}
    (hs : s.world.schemas = schemas) (takes : ∀ cases, s.session.tree.body ≠ .cases cases) :
    ∃ child, Obeyed (.still schemas) (s.filing key child)
      (exec (readChild [] false key seed) s) := by
  have recorded (child : Shape) :
      exec (recordField [] key child) s = (.ok true, s.filing key child) := by
    obtain ⟨node, taken⟩ : ∃ node, s.session.tree.setField? key child = some node := by
      unfold Shape.setField?
      cases body : s.session.tree.body with
      | cases cases => exact absurd body (takes cases)
      | plain => exact ⟨_, rfl⟩
      | fields fields => exact ⟨_, rfl⟩
    have root : s.session.tree.at? (Path.keys []) = some s.session.tree := rfl
    unfold State.filing Shape.setField
    rw [exec_recordField, root]
    dsimp only
    rw [taken]
    rfl
  have noted (child : Shape) :
      exec (noteField [] false key child) s = (.ok (), s.filing key child) := by
    show exec (_ <$> recordField [] key child) s = _
    rw [exec_map, recorded]
  rw [exec_readChild]
  split
  · next entry _ =>
    refine ⟨entry.shape, ?_⟩
    unfold serve
    rw [exec_bind, noted]
    exact (still_replay h entry.sample).replaced (still_setSample _) _ hs
  · split
    · next custom _ =>
      refine ⟨⟨seed.type, custom.body⟩, ?_⟩
      rw [readDocumented_eq, exec_bind, noted]
      refine obeys_session.bind (fun before => ?_) _ hs
      have placeholder := Obeys.readPlaceholder (still_replay h) still_setSample
        (still_descend h [] true key) custom
      refine placeholder.bind fun value => obeys_session.bind fun _ => ?_
      split
      · exact (still_insertCache _ _).bind fun _ => obeys_pure _
      · exact obeys_pure _
    · refine ⟨Shape.leaf seed.type, ?_⟩
      show Obeyed _ _ (exec ((! ·) <$> recordField [] key (Shape.leaf seed.type) >>=
        fun refused => descend [] refused key seed) s)
      rw [exec_bind, exec_map, recorded]
      exact still_descend h [] false key _ hs

end

end Decode
end Walk
end ApiAtlas
