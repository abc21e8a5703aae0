import ApiAtlas.Proofs.Offers
import ApiAtlas.Proofs.Verdicts
import Mathlib.Data.List.Nodup

/-!
# Internally tagged enumerations

An internally tagged enumeration is read from a self-describing request at the root. Its walks fail
in a fixed order: for each candidate that is no object, for the tag, for each text that names no
variant, and then for the fields of the variant, each of which is missed once and then offered the
candidates up to the first that it accepts. So the number of walks is known beforehand, and the
enumeration is reflected if it is below the limit.

That a field of a field is missed is told in the same words as that a field is missed. It becomes a
key of the root, where nobody asks for it, and the record that lacks it is offered what it was
offered before: no walk satisfies a variant with such a record.
-/
namespace ApiAtlas
namespace Walk
open Decode Reader

/-! ## Reading what is offered -/

section
variable {read : TypeReader} {name tag : String} {variants : List (String × List FieldDecl)}
variable {fields : List FieldDecl} {members buffer : List (String × Json)}

/-- The members that are buffered, which are all but the tag. -/
def bufferOf (tag : String) (members buffer : List (String × Json)) : List (String × Json) :=
  members.foldl (fun buffer member =>
    if member.1 = tag then buffer else Table.insert buffer member.1 member.2) buffer

theorem bufferOf_cons (member : String × Json) :
    bufferOf tag (member :: members) buffer = bufferOf tag members
      (if member.1 = tag then buffer else Table.insert buffer member.1 member.2) := rfl

theorem get?_bufferOf (nodup : (Table.keys members).Nodup) {key : String} (other : key ≠ tag) :
    Table.get? (bufferOf tag members buffer) key =
      (Table.get? members key).or (Table.get? buffer key) := by
  induction members generalizing buffer with
  | nil => rfl
  | cons member rest ih =>
      obtain ⟨k, v⟩ := member
      obtain ⟨fresh, nodup⟩ := List.nodup_cons.mp nodup
      rw [bufferOf_cons, ih nodup]
      by_cases same : k = key
      · subst same
        simp [Table.get?_eq_none.mpr fresh, Table.get?, other, Table.get?_insert_self]
      · have kept : Table.get? (if k = tag then buffer else Table.insert buffer k v) key =
            Table.get? buffer key := by
          split
          · rfl
          · exact Table.get?_insert_of_ne _ _ (Ne.symm same)
        simp [Table.get?, same, kept]

theorem Visit.content_ofJson (origin : Origin) (v : Json) :
    (Visit.ofJson origin v).content = v := by
  cases v with
  | number number => cases number <;> rfl
  | _ => rfl

/-- What a tag names, if it is among members of which no two have one name. -/
theorem exec_readTagged (style : Style)
    (h : ∀ v, (tag, v) ∈ members →
      ∃ name, v = .string name ∧ Table.get? variants name = some fields)
    (found : Option (List FieldDecl)) (buffer : List (String × Json)) (total : Nat) (s : State) :
    exec (readTagged style tag variants (members.length + 1) found buffer
        (.data .hint total members none)) s =
      (.ok ((if tag ∈ Table.keys members then some fields else found,
        bufferOf tag members buffer), .data .hint total [] none), s) := by
  induction members generalizing found buffer with
  | nil => rfl
  | cons member rest ih =>
      obtain ⟨k, v⟩ := member
      have later := ih fun v member => h v (List.mem_cons_of_mem _ member)
      have next : exec ((MapCursor.data .hint total ((k, v) :: rest) none).nextKey? readText) s =
          (.ok (some (k, .data .hint total rest (some v))), s) := rfl
      rw [List.length_cons, readTagged, exec_bind, next]
      dsimp only
      by_cases tagged : k = tag
      · obtain ⟨named, rfl, chosen⟩ := h v (tagged ▸ List.mem_cons_self)
        have value : exec ((MapCursor.data .hint total rest (some (.string named))).nextValue
            textSeed) s = (.ok (named, .data .hint total rest none), s) := rfl
        rw [if_pos tagged, exec_bind, value]
        dsimp only
        rw [chosen]
        dsimp only
        have known : tag ∈ Table.keys ((k, Json.string named) :: rest) :=
          tagged ▸ List.mem_cons_self
        rw [later, if_pos known, bufferOf_cons, if_pos tagged]
        split <;> rfl
      · have value : exec ((MapCursor.data .hint total rest (some v)).nextValue valueSeed) s =
            (.ok (v, .data .hint total rest none), s) := by
          show exec (valueSeed.run (.data .hint v) >>= _) s = _
          have content : ((Source.data .hint v).visited (Visit.ofJson .hint v)).visit.content = v :=
            Visit.content_ofJson .hint v
          rw [exec_bind]
          show (Except.ok (_, _), s) = _
          rw [content]
        rw [if_neg tagged, exec_bind, value]
        dsimp only
        have known : tag ∈ Table.keys ((k, v) :: rest) ↔ tag ∈ Table.keys rest := by
          simp [Table.keys, Ne.symm tagged]
        simp only [later, known, bufferOf_cons, if_neg tagged]

/-- Read an internally tagged enumeration from what is offered for it. -/
def readOffer (read : TypeReader) (name tag : String) (variants : List (String × List FieldDecl))
    (offer : Json) : Decode Unit :=
  match Visit.ofJson .hint offer with
  | .map cursor =>
      cursor.read fun cursor => do
        let ((found, buffer), cursor) ←
          readTagged .engine tag variants (cursor.left + 1) none [] cursor
        match found with
        | none => refuse .engine (.missingField tag)
        | some fields => do
            readBuffered read .engine buffer fields
            return ((), cursor)
  | visit => refuseVisit .engine visit ("internally tagged enum " ++ name)

/-- A reader of the root is given what is offered there. -/
theorem exec_readTaggedEnumeration (muted : Bool) (s : State) :
    exec (readTaggedEnumeration read name tag variants (.walk [] muted)) s =
      exec (readOffer read name tag variants (s.session.hints.value []))
        (s.inSession (Note.asked [] (s.session.hints.value [])).apply) := rfl

/-- Members with a tag that names a variant are read as its fields. -/
theorem exec_readOffer (h : ∀ v, (tag, v) ∈ members → ∃ name, v = .string name ∧
      Table.get? variants name = some fields) (tagged : tag ∈ Table.keys members) (s : State) :
    exec (readOffer read name tag variants (.object members)) s =
      exec (readBuffered read .engine (bufferOf tag members []) fields) s := by
  rw [readOffer, Visit.ofJson]
  dsimp only [MapCursor.read]
  simp only [exec_bind, MapCursor.left, exec_readTagged .engine h, if_pos tagged]
  rcases exec (readBuffered read .engine (bufferOf tag members []) fields) s with ⟨_ | _, t⟩ <;> rfl

/-- Read one field from buffered values. -/
def readKept (read : TypeReader) (buffer : List (String × Json)) (field : FieldDecl) :
    Decode Unit :=
  match Table.get? buffer field.name with
  | some value => read field.type (.data (.buffered .engine) value)
  | none => if field.mayBeAbsent then pure () else refuse .engine (.missingField field.name)

theorem readBuffered_cons (field : FieldDecl) :
    readBuffered read .engine buffer (field :: fields) =
      (readKept read buffer field >>= fun _ => readBuffered read .engine buffer fields) := by
  rw [readBuffered, readKept]
  cases Table.get? buffer field.name with
  | some value => rfl
  | none => cases field.mayBeAbsent <;> rfl

/-- A decode succeeds and leaves the session and the schemas as they are. -/
def Passes (schemas : Schemas) (m : Decode Unit) : Prop :=
  ∀ s, s.world.schemas = schemas → ∃ t, exec m s = (.ok (), t) ∧ Untouched s t

variable {schemas : Schemas}

/-- Fields that are accepted are passed by. -/
theorem exec_readBuffered_append (before : List FieldDecl) (rest : List FieldDecl)
    (accepted : ∀ field ∈ before, Passes schemas (readKept read buffer field)) {s : State}
    (hs : s.world.schemas = schemas) :
    ∃ t, Untouched s t ∧ exec (readBuffered read .engine buffer (before ++ rest)) s =
      exec (readBuffered read .engine buffer rest) t := by
  induction before generalizing s with
  | nil => exact ⟨s, .refl s, rfl⟩
  | cons field before ih =>
      obtain ⟨t, run, first⟩ := accepted field List.mem_cons_self s hs
      obtain ⟨u, second, later⟩ := ih (fun field member =>
        accepted field (List.mem_cons_of_mem _ member)) (first.schemas.trans hs)
      refine ⟨u, first.trans second, ?_⟩
      rw [List.cons_append, readBuffered_cons, exec_bind, run]
      exact later

end

/-- The fields of the variant that walks settle on: one with an empty name if there is one, and the
first otherwise. -/
def chosenFields? (variants : List (String × List FieldDecl)) : Option (List FieldDecl) :=
  (Table.get? variants "").or (variants.head?.map Prod.snd)

/-- How often a walk fails before the tag names a variant: for five candidates, for the tag, and for
one or two candidates of the tag. -/
def namingWalks (variants : List (String × List FieldDecl)) : Nat :=
  if (Table.get? variants "").isSome then 7 else 8

/-- How often a walk fails before fields are accepted. -/
def refinements (schemas : Schemas) (variants : List (String × List FieldDecl))
    (fields : List FieldDecl) : Nat :=
  namingWalks variants + (fields.map (FieldDecl.walks schemas)).sum

/-- Every field that may not be absent accepts a candidate. -/
def Satisfiable (schemas : Schemas) (fields : List FieldDecl) : Prop :=
  ∀ field ∈ fields, field.mayBeAbsent = false →
    ∃ place, field.type.verdict? schemas = some (.taken place)

/-! ## Walks of the root -/

/-- An internally tagged enumeration that is walked from its root. -/
structure TaggedRoot where
  schemas : Schemas
  slot : Slot
  name : String
  tag : String
  variants : List (String × List FieldDecl)
  declared : Table.get? schemas slot = some (.tagged name tag variants)
  options : Options
  context : List (String × Json)
  muted : Bool
  depth : Nat

namespace TaggedRoot
variable (R : TaggedRoot)

/-- The reader of fields. -/
abbrev read : TypeReader := readType (R.depth + 1)

/-- The reader of the enumeration. -/
abbrev readRoot : Decode Unit := Walk.readRoot (readType (R.depth + 2)) (.declared R.slot) R.muted

/-- The state that a walk starts from. -/
abbrev start (hints : Hints) (w : World) : State :=
  rootState (.declared R.slot) R.options R.context hints w

abbrev readOffer (offer : Json) : Decode Unit :=
  Walk.readOffer R.read R.name R.tag R.variants offer

/-- The state in which something is offered. -/
def offering (hints : Hints) (w : World) : State :=
  ((R.start hints w).counted R.slot).inSession (Note.asked [] (hints.value [])).apply

variable {R} {P Q Q' : Hints → Prop} {n m : Nat} {hints : Hints} {w : World}

theorem exec_readRoot (hw : w.schemas = R.schemas) :
    exec R.readRoot (R.start hints w) =
      match exec (R.readOffer (hints.value [])) (R.offering hints w) with
      | (.error (.fault fault), t) =>
          (.error (.fault fault), t.inSession (Note.lesson [] .any fault).apply)
      | ended => ended := by
  have offered : exec (readDeclared R.read R.slot (.walk [] R.muted)) (R.start hints w) =
      exec (R.readOffer (hints.value [])) (R.offering hints w) := by
    rw [exec_readDeclared, hw, R.declared]
    exact exec_readTaggedEnumeration R.muted ((R.start hints w).counted R.slot)
  show exec (onFault (readDeclared R.read R.slot (.walk [] R.muted)) _) _ = _
  rw [exec_onFault, offered]
  rcases exec (R.readOffer (hints.value [])) (R.offering hints w) with ⟨(_ | _ | _ | _) | _, t⟩ <;>
    rfl

/-- Walks from hints of one kind that fail and leave hints of another. -/
def Leads (R : TaggedRoot) (n : Nat) (P Q : Hints → Prop) : Prop :=
  ∀ hints w, P hints → w.schemas = R.schemas → ∃ hints' w', Q hints' ∧ w'.schemas = R.schemas ∧
    Refines (readType (R.depth + 2)) (.declared R.slot) R.options R.context R.muted n (hints, w)
      (hints', w')

theorem Leads.refl : R.Leads 0 P P := fun hints w h hw => ⟨hints, w, h, hw, .refl _⟩

theorem Leads.trans (first : R.Leads n P Q) (second : R.Leads m Q Q') : R.Leads (n + m) P Q' := by
  intro hints w h hw
  obtain ⟨hints, w, h, hw, before⟩ := first hints w h hw
  obtain ⟨hints, w, h, hw, after⟩ := second hints w h hw
  exact ⟨hints, w, h, hw, before.trans after⟩

/-- A walk that is refused what it offers ends with the fault, and with what it teaches. -/
theorem exec_refused (hw : w.schemas = R.schemas) {fault : Fault} {t : State}
    (run : exec (R.readOffer (hints.value [])) (R.offering hints w) = (.error (.fault fault), t))
    (same : Untouched (R.offering hints w) t) :
    ∃ u, exec R.readRoot (R.start hints w) = (.error (.fault fault), u) ∧ u.world = t.world ∧
      u.session.hints = (hints.revise [] .any fault).1 ∧
      u.session.revised = (hints.revise [] .any fault).2 := by
  have before : t.session.revised = false ∧ t.session.anySites = [[]] ∧
      t.session.hints = hints := by
    rw [same.session]
    exact ⟨rfl, rfl, rfl⟩
  have lesson : Note.apply (.lesson [] .any fault) t.session =
      { t.session with
        hints := (hints.revise [] .any fault).1, revised := (hints.revise [] .any fault).2 } := by
    simp [Note.apply, Session.revise, before]
  refine ⟨t.inSession (Note.lesson [] .any fault).apply, by rw [exec_readRoot hw, run], rfl, ?_, ?_⟩
  · rw [State.inSession_session, lesson]
  · rw [State.inSession_session, lesson]

/-- What is offered is refused, and the fault teaches something. -/
theorem leads_once (h : ∀ hints, P hints → ∀ s : State, s.world.schemas = R.schemas →
      ∃ fault t hints', exec (R.readOffer (hints.value [])) s = (.error (.fault fault), t) ∧
        Untouched s t ∧ hints.revise [] .any fault = (hints', true) ∧ Q hints') :
    R.Leads 1 P Q := by
  intro hints w hp hw
  obtain ⟨fault, t, hints', run, same, revised, hq⟩ := h hints hp (R.offering hints w) hw
  obtain ⟨u, walk, world, learned, taught⟩ := exec_refused hw run same
  rw [revised] at learned taught
  exact ⟨hints', t.world, hq, same.schemas.trans hw, .walk walk taught
    (world ▸ learned ▸ .refl _)⟩

/-! ### The variant -/

/-- Nothing was learned yet but that candidates are refused, up to a place. -/
def Untold (place : Nat) (hints : Hints) : Prop :=
  hints.Learned [] ∧ (hints.get []).candidate = place

/-- The only thing learned so far is what is offered for the tag. -/
abbrev Tagged (R : TaggedRoot) (hint : Hint) (hints : Hints) : Prop := hints.Learned [(R.tag, hint)]

theorem leads_candidate {place : Nat} (few : place < 5) :
    R.Leads 1 (Untold place) (Untold (place + 1)) := by
  refine leads_once fun hints ⟨learned, at_⟩ s _ => ?_
  have refused : ∃ text, exec (R.readOffer (Hint.candidates.getD place .null)) s =
      (.error (.fault (.decode text)), s) := by
    interval_cases place <;> exact ⟨_, rfl⟩
  obtain ⟨text, run⟩ := refused
  obtain ⟨hints', revised, next, counted⟩ := learned.revise_first text
  rw [at_] at revised counted
  have more : decide (place + 1 < Hint.candidates.length) = true :=
    decide_eq_true (Nat.succ_lt_succ few)
  exact ⟨_, s, hints', by rw [learned.value_nil, at_, run], .refl s, more ▸ revised, next, counted⟩

/-- An object without members is the candidate that misses the tag. -/
theorem leads_tag : R.Leads 1 (Untold 5) (R.Tagged {}) := by
  refine leads_once fun hints ⟨learned, at_⟩ s _ => ?_
  have run : exec (R.readOffer (.object [])) s =
      (.error (.fault (.missingField R.tag)), s) := rfl
  obtain ⟨hints', revised, next⟩ := learned.revise_missing List.not_mem_nil .any
  exact ⟨_, s, hints', by rw [learned.value_nil, at_]; exact run, .refl s, revised, next⟩

/-- An object with the tag alone, which is offered next. -/
theorem value_tagged {hint : Hint} (h : R.Tagged hint hints) :
    hints.value [] = .object [(R.tag, hint.offer)] := h.value (List.cons_ne_nil _ _)

theorem exec_readOffer_tag (v : Json) (s : State) :
    exec (R.readOffer (.object [(R.tag, v)])) s =
      match exec (readText (.data .hint v)) s with
      | (.ok name, t) =>
          match Table.get? R.variants name with
          | some fields => exec (readBuffered R.read .engine [] fields) t
          | none => (.error (.fault (.unknownVariant name (R.variants.map Prod.fst))), t)
      | (.error stop, t) => (.error stop, t) := by
  have key : exec ((MapCursor.data .hint 1 [(R.tag, v)] none).nextKey? readText) s =
      (.ok (some (R.tag, .data .hint 1 [] (some v))), s) := rfl
  have value : exec ((MapCursor.data .hint 1 [] (some v)).nextValue textSeed) s =
      match exec (readText (.data .hint v)) s with
      | (.ok name, t) => (.ok (name, .data .hint 1 [] none), t)
      | (.error stop, t) => (.error stop, t) := by
    show exec (readText (.data .hint v) >>= fun name =>
      pure (name, MapCursor.data .hint 1 [] none)) s = _
    rw [exec_bind]
    rcases exec (readText (.data .hint v)) s with ⟨_ | _, t⟩ <;> rfl
  have last (found : Option (List FieldDecl)) (t : State) :
      exec (readTagged .engine R.tag R.variants 1 found [] (.data .hint 1 [] none)) t =
        (.ok ((found, []), .data .hint 1 [] none), t) := rfl
  rw [readOffer, Walk.readOffer, Visit.ofJson]
  dsimp only [MapCursor.read, MapCursor.left, List.length_cons, List.length_nil]
  rw [readTagged]
  simp only [exec_bind, key, if_pos, value]
  rcases exec (readText (.data .hint v)) s with ⟨_ | name, t⟩
  · rfl
  · dsimp only
    cases Table.get? R.variants name with
    | none => rfl
    | some fields =>
        simp only [last, exec_bind]
        rcases exec (readBuffered R.read .engine [] fields) t with ⟨_ | _, u⟩ <;> rfl

theorem leads_text : R.Leads 1 (R.Tagged {}) (R.Tagged { candidate := 1 }) := by
  refine leads_once fun hints learned s _ => ?_
  have run : ∃ text,
      exec (R.readOffer (hints.value [])) s = (.error (.fault (.decode text)), s) := by
    rw [value_tagged learned, exec_readOffer_tag]
    exact ⟨_, rfl⟩
  obtain ⟨text, run⟩ := run
  have alone : hints.Learned ([] ++ [(R.tag, { candidate := 0 })]) := learned
  obtain ⟨hints', revised, next⟩ := alone.revise_decode rfl text .any
  exact ⟨_, s, hints', run, .refl s, revised, next⟩

theorem leads_variant {variant : String} {fields : List FieldDecl}
    {more : List (String × List FieldDecl)} (first : R.variants = (variant, fields) :: more)
    (unnamed : Table.get? R.variants "" = none) :
    R.Leads 1 (R.Tagged { candidate := 1 })
      (R.Tagged { candidate := 1, variant := some variant }) := by
  refine leads_once fun hints learned s _ => ?_
  have run : exec (R.readOffer (hints.value [])) s =
      (.error (.fault (.unknownVariant "" (variant :: more.map Prod.fst))), s) := by
    have empty :
        exec (readText (.data .hint (Hint.offer { candidate := 1 }))) s = (.ok "", s) := rfl
    rw [value_tagged learned, exec_readOffer_tag, empty]
    dsimp only
    rw [unnamed, first]
    rfl
  have alone : hints.Learned ([] ++ [(R.tag, { candidate := 1 })]) := learned
  obtain ⟨hints', revised, next⟩ := alone.revise_variant rfl "" variant (more.map Prod.fst) .any
  exact ⟨_, s, hints', run, .refl s, revised, next⟩

/-- What is offered for the tag names the variant that has the fields. -/
def Names (R : TaggedRoot) (fields : List FieldDecl) (hint : Hint) : Prop :=
  ∃ variant, hint.offer = .string variant ∧ Table.get? R.variants variant = some fields

theorem leads_named {fields : List FieldDecl} (chosen : chosenFields? R.variants = some fields) :
    ∃ hint, R.Names fields hint ∧ R.Leads (namingWalks R.variants) (Untold 0) (R.Tagged hint) := by
  have object : R.Leads 5 (Untold 0) (Untold 5) :=
    (((((leads_candidate (by decide)).trans (leads_candidate (by decide))).trans
      (leads_candidate (by decide))).trans (leads_candidate (by decide))).trans
      (leads_candidate (by decide)))
  have text : R.Leads 7 (Untold 0) (R.Tagged { candidate := 1 }) :=
    (object.trans leads_tag).trans leads_text
  unfold chosenFields? at chosen
  unfold namingWalks
  cases unnamed : Table.get? R.variants "" with
  | some found =>
      rw [unnamed] at chosen
      obtain rfl := Option.some.inj chosen
      exact ⟨_, ⟨"", rfl, unnamed⟩, text⟩
  | none =>
      rw [unnamed, Option.none_or] at chosen
      cases listed : R.variants with
      | nil => rw [listed] at chosen; cases chosen
      | cons first more =>
          rw [listed] at chosen
          obtain rfl := Option.some.inj chosen
          refine ⟨_, ⟨first.1, rfl, ?_⟩, text.trans (leads_variant listed unnamed)⟩
          rw [listed]
          simp [Table.get?]

/-! ### The fields -/

section
variable {answers settled more : List (String × Hint)}
variable {fields before rest behind : List FieldDecl}
variable {field : FieldDecl} {hint : Hint} {key : String} {place : Nat} {verdict : Verdict}

/-- The members that are buffered where keys were learned. -/
def kept (R : TaggedRoot) (answers : List (String × Hint)) : List (String × Json) :=
  bufferOf R.tag (Table.ofList (Hints.offers answers)) []

theorem get?_kept (nodup : (Table.keys answers).Nodup) (other : key ≠ R.tag) :
    Table.get? (R.kept answers) key = (Table.get? answers key).map Hint.offer := by
  rw [kept, get?_bufferOf (Table.ascending_ofList _).nodup other,
    Table.get?_ofList_eq (Hints.keys_offers answers ▸ nodup), Hints.get?_offers]
  exact Option.or_none

/-- Once the tag names a variant, its fields are read from what is offered. -/
theorem exec_readOffer_learned (h : hints.Learned answers) (member : (R.tag, hint) ∈ answers)
    (named : R.Names fields hint) (s : State) :
    exec (R.readOffer (hints.value [])) s =
      exec (readBuffered R.read .engine (R.kept answers) fields) s := by
  have nodup : (Table.keys (Hints.offers answers)).Nodup := Hints.keys_offers answers ▸ h.nodup
  have ordered := (Table.ascending_ofList (Hints.offers answers)).nodup
  have tagged : Table.get? (Table.ofList (Hints.offers answers)) R.tag = some hint.offer := by
    rw [Table.get?_ofList_eq nodup, Hints.get?_offers, Table.get?_of_mem h.nodup member]
    rfl
  rw [h.value (List.ne_nil_of_mem member)]
  refine exec_readOffer (fun v inside => ?_) ?_ s
  · obtain ⟨variant, offer, chosen⟩ := named
    have same : some v = some hint.offer := (Table.get?_of_mem ordered inside).symm.trans tagged
    exact ⟨variant, (Option.some.inj same).trans offer, chosen⟩
  · by_contra absent
    rw [Table.get?_eq_none.mpr absent] at tagged
    cases tagged

/-- The fields that were read have what is offered for them settled, unless they may be absent. -/
structure Settled (R : TaggedRoot) (before : List FieldDecl) (settled : List (String × Hint)) :
    Prop where
  keys : Table.keys settled = (before.filter fun field => !field.mayBeAbsent).map FieldDecl.name
  taken : ∀ field ∈ before, field.mayBeAbsent = false → ∃ place,
    field.type.verdict? R.schemas = some (.taken place) ∧
      (field.name, ({ candidate := place } : Hint)) ∈ settled

/-- A field is read from the candidate that is offered under its name. -/
theorem readKept_of_answer (nodup : (Table.keys answers).Nodup) (other : field.name ≠ R.tag)
    (member : (field.name, ({ candidate := place } : Hint)) ∈ answers) :
    readKept R.read (R.kept answers) field = R.read field.type (candidate place) := by
  rw [readKept, get?_kept nodup other, Table.get?_of_mem nodup member]
  rfl

theorem readKept_of_absent (nodup : (Table.keys answers).Nodup) (other : field.name ≠ R.tag)
    (absent : field.name ∉ Table.keys answers) :
    readKept R.read (R.kept answers) field =
      if field.mayBeAbsent then pure () else refuse .engine (.missingField field.name) := by
  rw [readKept, get?_kept nodup other, Table.get?_eq_none.mpr absent]
  rfl

/-- Settled fields are accepted, whatever is offered for fields behind them. -/
theorem Settled.accepts (h : R.Settled before settled)
    (names : (R.tag :: (before ++ rest).map FieldDecl.name).Nodup)
    (behind : ∀ key ∈ Table.keys more, key ∉ before.map FieldDecl.name)
    (nodup : (Table.keys ((R.tag, hint) :: (settled ++ more))).Nodup) :
    ∀ field ∈ before,
      Passes R.schemas (readKept R.read (R.kept ((R.tag, hint) :: (settled ++ more))) field) := by
  intro field member
  have inside : field.name ∈ (before ++ rest).map FieldDecl.name :=
    List.mem_map_of_mem (List.mem_append_left _ member)
  have other : field.name ≠ R.tag := fun same => (List.nodup_cons.mp names).1 (same ▸ inside)
  cases absent : field.mayBeAbsent with
  | false =>
      obtain ⟨place, known, answer⟩ := h.taken field member absent
      have answer :
          (field.name, ({ candidate := place } : Hint)) ∈ (R.tag, hint) :: (settled ++ more) :=
        List.mem_cons_of_mem _ (List.mem_append_left _ answer)
      rw [readKept_of_answer nodup other answer]
      exact (meets_readType R.depth known).decides
  | true =>
      have apart : (before.map FieldDecl.name).Nodup :=
        (List.nodup_append.mp (List.map_append ▸ (List.nodup_cons.mp names).2)).1
      have unknown : field.name ∉ Table.keys ((R.tag, hint) :: (settled ++ more)) := by
        have keys : Table.keys ((R.tag, hint) :: (settled ++ more)) =
            R.tag :: (Table.keys settled ++ Table.keys more) := by simp [Table.keys]
        rw [keys, h.keys]
        simp only [List.mem_cons, List.mem_append, not_or]
        refine ⟨other, fun known => ?_, fun later => ?_⟩
        · obtain ⟨twin, required, same⟩ := List.mem_map.mp known
          obtain ⟨known, required⟩ := List.mem_filter.mp required
          rw [List.inj_on_of_nodup_map apart known member same, absent] at required
          cases required
        · exact behind _ later (List.mem_map_of_mem member)
      rw [readKept_of_absent nodup other unknown, if_pos absent]
      exact fun s _ => ⟨s, rfl, .refl s⟩

/-- The tag names a variant with fields, of which some are settled, and more may be known of
others. -/
structure Along (R : TaggedRoot) (before rest : List FieldDecl) (hint : Hint)
    (settled : List (String × Hint)) : Prop where
  named : R.Names (before ++ rest) hint
  names : (R.tag :: (before ++ rest).map FieldDecl.name).Nodup
  settled : R.Settled before settled

namespace Along

theorem fresh (h : R.Along before (field :: rest) hint settled) :
    field.name ≠ R.tag ∧ field.name ∉ before.map FieldDecl.name ∧
      field.name ∉ Table.keys ((R.tag, hint) :: settled) := by
  have names := h.names
  simp only [List.map_append, List.map_cons, List.nodup_cons, List.mem_append, List.mem_cons,
    not_or, List.nodup_append] at names
  obtain ⟨⟨_, other, _⟩, _, _, disjoint⟩ := names
  have apart : field.name ∉ before.map FieldDecl.name := fun known =>
    disjoint _ known _ (.inl rfl) rfl
  refine ⟨Ne.symm other, apart, fun known => ?_⟩
  rcases List.mem_cons.mp known with same | earlier
  · exact other same.symm
  · have earlier : field.name ∈ Table.keys settled := earlier
    rw [h.settled.keys] at earlier
    exact apart (List.map_subset _ (List.filter_subset_self _) earlier)

/-- What is offered is read up to the first field that is not settled. -/
theorem exec_readOffer (h : R.Along before rest hint settled)
    (learned : hints.Learned ((R.tag, hint) :: (settled ++ more)))
    (behind : ∀ key ∈ Table.keys more, key ∉ before.map FieldDecl.name) {s : State}
    (hs : s.world.schemas = R.schemas) :
    ∃ t, Untouched s t ∧ exec (R.readOffer (hints.value [])) s =
      exec (readBuffered R.read .engine (R.kept ((R.tag, hint) :: (settled ++ more))) rest) t := by
  rw [exec_readOffer_learned learned List.mem_cons_self h.named]
  exact exec_readBuffered_append before rest
    (h.settled.accepts h.names behind learned.nodup) hs

/-- The next field is missed, unless it may be absent. -/
theorem leads_missed (h : R.Along before (field :: rest) hint settled)
    (required : field.mayBeAbsent = false) :
    R.Leads 1 (·.Learned ((R.tag, hint) :: settled))
      (·.Learned ((R.tag, hint) :: (settled ++ [(field.name, { candidate := 0 })]))) := by
  refine leads_once fun hints learned s hs => ?_
  rw [← List.append_nil settled] at learned
  obtain ⟨t, same, run⟩ := h.exec_readOffer learned nofun hs
  obtain ⟨other, _, fresh⟩ := h.fresh
  rw [List.append_nil] at learned run
  have missed : exec (R.readOffer (hints.value [])) s =
      (.error (.fault (.missingField field.name)), t) := by
    rw [run, readBuffered_cons, readKept_of_absent learned.nodup other fresh, required]
    rfl
  obtain ⟨hints', revised, next⟩ := learned.revise_missing fresh .any
  exact ⟨_, t, hints', missed, same, revised, next⟩

/-- What is offered for the next field, where a candidate was reached. -/
theorem exec_candidate (h : R.Along before (field :: rest) hint settled)
    (learned : hints.Learned
      ((R.tag, hint) :: (settled ++ (field.name, { candidate := place }) :: more)))
    (behind : ∀ key ∈ Table.keys more, key ∉ before.map FieldDecl.name) {s : State}
    (hs : s.world.schemas = R.schemas) :
    ∃ t next, Untouched s t ∧ exec (R.readOffer (hints.value [])) s =
      exec (R.read field.type (candidate place) >>= fun _ => next) t := by
  have all : ∀ key ∈ Table.keys ((field.name, { candidate := place }) :: more),
      key ∉ before.map FieldDecl.name :=
    List.forall_mem_cons.mpr ⟨h.fresh.2.1, behind⟩
  obtain ⟨t, same, run⟩ := h.exec_readOffer learned all hs
  refine ⟨t, readBuffered R.read .engine
    (R.kept ((R.tag, hint) :: (settled ++ (field.name, { candidate := place }) :: more))) rest,
    same, ?_⟩
  have answer : (field.name, { candidate := place }) ∈
      (R.tag, hint) :: (settled ++ (field.name, { candidate := place }) :: more) := by simp
  rw [run, readBuffered_cons, readKept_of_answer learned.nodup h.fresh.1 answer]

/-- A candidate that is refused is followed by the next one. -/
theorem leads_refused (h : R.Along before (field :: rest) hint settled)
    (known : field.type.verdict? R.schemas = some verdict) (early : place < verdict.refusals) :
    R.Leads 1 (·.Learned ((R.tag, hint) :: (settled ++ [(field.name, { candidate := place })])))
      (·.Learned ((R.tag, hint) :: (settled ++ [(field.name, { candidate := place + 1 })]))) := by
  refine leads_once fun hints learned s hs => ?_
  have meets := meets_readType R.depth known
  obtain ⟨t, next, before, run⟩ := h.exec_candidate learned nofun hs
  obtain ⟨text, u, refused, after⟩ := meets.refuses place early t (before.schemas.trans hs)
  have run : exec (R.readOffer (hints.value [])) s = (.error (.fault (.decode text)), u) := by
    rw [run, exec_bind, refused]
  rw [← List.cons_append] at learned
  obtain ⟨hints', revised, advanced⟩ := learned.revise_decode rfl text .any
  have another : place + 1 < Hint.candidates.length := Nat.lt_of_le_of_lt early meets.few
  exact ⟨_, u, hints', run, before.trans after, by rw [revised, decide_eq_true another], advanced⟩

/-- The next field is missed and its candidates are offered up to the one that decides. -/
theorem leads_decided (h : R.Along before (field :: rest) hint settled)
    (required : field.mayBeAbsent = false)
    (known : field.type.verdict? R.schemas = some verdict) :
    R.Leads (1 + verdict.refusals) (·.Learned ((R.tag, hint) :: settled))
      (·.Learned
        ((R.tag, hint) :: (settled ++ [(field.name, { candidate := verdict.refusals })]))) := by
  have upTo (place : Nat) (early : place ≤ verdict.refusals) :
      R.Leads (1 + place) (·.Learned ((R.tag, hint) :: settled))
        (·.Learned ((R.tag, hint) :: (settled ++ [(field.name, { candidate := place })]))) := by
    induction place with
    | zero => exact h.leads_missed required
    | succ place ih => exact (ih (Nat.le_of_lt early)).trans (h.leads_refused known early)
  exact upTo _ (Nat.le_refl _)

theorem skipped (h : R.Along before (field :: rest) hint settled)
    (absent : field.mayBeAbsent = true) : R.Along (before ++ [field]) rest hint settled := by
  have same : before ++ [field] ++ rest = before ++ field :: rest := by simp
  refine ⟨same ▸ h.named, same ▸ h.names, ?_, fun other member required => ?_⟩
  · simp [h.settled.keys, absent]
  · rcases List.mem_append.mp member with earlier | last
    · exact h.settled.taken other earlier required
    · rw [List.mem_singleton.mp last, absent] at required
      cases required

theorem taken (h : R.Along before (field :: rest) hint settled)
    (required : field.mayBeAbsent = false)
    (known : field.type.verdict? R.schemas = some (.taken place)) :
    R.Along (before ++ [field]) rest hint (settled ++ [(field.name, { candidate := place })]) := by
  have same : before ++ [field] ++ rest = before ++ field :: rest := by simp
  refine ⟨same ▸ h.named, same ▸ h.names, ?_, fun other member needed => ?_⟩
  · have keys := h.settled.keys
    simp only [Table.keys] at keys
    simp [Table.keys, keys, required]
  · rcases List.mem_append.mp member with earlier | last
    · obtain ⟨place, verdict, inside⟩ := h.settled.taken other earlier needed
      exact ⟨place, verdict, List.mem_append_left _ inside⟩
    · rw [List.mem_singleton.mp last]
      exact ⟨place, known, by simp⟩

/-- Fields of which a candidate is accepted are settled one after the other. -/
theorem leads_all (h : R.Along before (rest ++ behind) hint settled)
    (satisfiable : Satisfiable R.schemas rest) :
    ∃ settled', R.Along (before ++ rest) behind hint settled' ∧
      R.Leads (rest.map (FieldDecl.walks R.schemas)).sum (·.Learned ((R.tag, hint) :: settled))
        (·.Learned ((R.tag, hint) :: settled')) := by
  induction rest generalizing before settled with
  | nil => exact ⟨settled, by simpa using h, .refl⟩
  | cons field rest ih =>
      have later := fun field member => satisfiable field (List.mem_cons_of_mem _ member)
      rw [List.map_cons, List.sum_cons, FieldDecl.walks]
      cases required : field.mayBeAbsent with
      | true =>
          obtain ⟨settled', along, leads⟩ := ih (h.skipped required) later
          exact ⟨settled', by simpa using along, Leads.refl.trans leads⟩
      | false =>
          obtain ⟨place, known⟩ := satisfiable field List.mem_cons_self required
          obtain ⟨settled', along, leads⟩ := ih (h.taken required known) later
          have decided := h.leads_decided required known
          refine ⟨settled', by simpa using along, ?_⟩
          rw [known]
          exact decided.trans leads

/-- When all fields are settled, the walk succeeds and has recorded nothing. -/
theorem exec_settled (h : R.Along fields [] hint settled)
    (learned : hints.Learned ((R.tag, hint) :: settled)) (hw : w.schemas = R.schemas) :
    ∃ t, exec R.readRoot (R.start hints w) = (.ok (), t) ∧
      t.session.tree = Shape.leaf (TypeExpr.declared R.slot).ref := by
  rw [← List.append_nil settled] at learned
  obtain ⟨t, same, run⟩ := h.exec_readOffer learned nofun (s := R.offering hints w) hw
  refine ⟨t, ?_, by rw [same.session]; rfl⟩
  rw [exec_readRoot hw, run]
  rfl

end Along

/-! ### Fields that accept no candidate -/

/-- Walks from hints of a kind end with a fault, however many there may be. -/
def Fails (R : TaggedRoot) (P : Hints → Prop) : Prop :=
  ∀ walks hints w, P hints → w.schemas = R.schemas → ∃ fault u,
    exec (walkRoot (readType (R.depth + 2)) (.declared R.slot) R.options R.context R.muted walks
      hints) w = (.error (.fault fault), u)

theorem Leads.fails (leads : R.Leads n P Q) (h : R.Fails Q) : R.Fails P := by
  intro walks hints w hp hw
  obtain ⟨hints', w', hq, hw', refines⟩ := leads hints w hp hw
  by_cases few : walks ≤ n
  · exact refines.exhausted few
  · obtain ⟨walks, rfl⟩ : ∃ more, walks = n + more := ⟨walks - n, by omega⟩
    rw [refines.walkRoot]
    exact h walks hints' w' hq hw'

/-- Walks that fail and teach nothing are not repeated. -/
theorem fails_stuck (h : ∀ hints, P hints → ∀ s : State, s.world.schemas = R.schemas →
      ∃ fault t, exec (R.readOffer (hints.value [])) s = (.error (.fault fault), t) ∧
        Untouched s t ∧ (hints.revise [] .any fault).2 = false) :
    R.Fails P := by
  intro walks hints w hp hw
  cases walks with
  | zero => exact ⟨_, _, rfl⟩
  | succ walks =>
      obtain ⟨fault, t, run, same, stuck⟩ := h hints hp (R.offering hints w) hw
      obtain ⟨u, walk, _, _, taught⟩ := exec_refused hw run same
      rw [exec_walkRoot, walk]
      dsimp only
      rw [taught, stuck]
      exact ⟨_, _, rfl⟩

/-- Where no candidate is left for a field that refuses them all, nothing is learned. -/
theorem Along.fails_never (h : R.Along before (field :: rest) hint settled)
    (known : field.type.verdict? R.schemas = some .never) :
    R.Fails (·.Learned ((R.tag, hint) ::
      (settled ++ [(field.name, { candidate := Verdict.never.refusals })]))) := by
  refine fails_stuck fun hints learned s hs => ?_
  obtain ⟨t, next, same, run⟩ := h.exec_candidate learned nofun hs
  obtain ⟨text, u, refused, after⟩ :=
    (meets_readType R.depth known).decides t (same.schemas.trans hs)
  rw [← List.cons_append] at learned
  obtain ⟨hints', revised, _⟩ := learned.revise_decode rfl text .any
  refine ⟨_, u, by rw [run, exec_bind, refused], same.trans after, ?_⟩
  rw [revised]
  rfl

/-- An object without members lacks what the record of the field needs. -/
theorem Along.lacks {name : String} (h : R.Along before (field :: rest) hint settled)
    (known : field.type.verdict? R.schemas = some (.lacking name)) (more : List (String × Hint))
    (behind : ∀ key ∈ Table.keys more, key ∉ before.map FieldDecl.name)
    (learned : hints.Learned
      ((R.tag, hint) :: (settled ++ (field.name, { candidate := 5 }) :: more)))
    {s : State} (hs : s.world.schemas = R.schemas) :
    ∃ t, exec (R.readOffer (hints.value [])) s = (.error (.fault (.missingField name)), t) ∧
      Untouched s t := by
  obtain ⟨t, next, same, run⟩ := h.exec_candidate learned behind hs
  obtain ⟨u, missed, after⟩ := (meets_readType R.depth known).decides t (same.schemas.trans hs)
  have missed : exec (R.read field.type (candidate 5)) t =
    (.error (.fault (.missingField name)), u) := missed
  exact ⟨u, by rw [run, exec_bind, missed], same.trans after⟩

/-- The name is taken for that of a key of the root, and missed again. -/
theorem Along.fails_lacking {name : String} (h : R.Along before (field :: rest) hint settled)
    (known : field.type.verdict? R.schemas = some (.lacking name))
    (clear : ∀ other ∈ before, other.mayBeAbsent = true → other.name ≠ name) :
    R.Fails (·.Learned ((R.tag, hint) :: (settled ++ [(field.name, { candidate := 5 })]))) := by
  by_cases asked : name ∈
      Table.keys ((R.tag, hint) :: (settled ++ [(field.name, { candidate := 5 })]))
  · refine fails_stuck fun hints learned s hs => ?_
    obtain ⟨t, run, same⟩ := h.lacks known [] nofun learned hs
    exact ⟨_, t, run, same, learned.revise_known asked⟩
  · have added : R.Leads 1
        (·.Learned ((R.tag, hint) :: (settled ++ [(field.name, { candidate := 5 })])))
        (·.Learned ((R.tag, hint) ::
          (settled ++ [(field.name, { candidate := 5 }), (name, { candidate := 0 })]))) := by
      refine leads_once fun hints learned s hs => ?_
      obtain ⟨t, run, same⟩ := h.lacks known [] nofun learned hs
      obtain ⟨hints', revised, next⟩ := learned.revise_missing asked .any
      exact ⟨_, t, hints', run, same, revised, by simpa using next⟩
    have behind : name ∉ before.map FieldDecl.name := by
      intro named
      obtain ⟨other, inside, rfl⟩ := List.mem_map.mp named
      cases absent : other.mayBeAbsent with
      | true => exact clear other inside absent rfl
      | false =>
          obtain ⟨place, _, answer⟩ := h.settled.taken other inside absent
          exact asked (List.mem_cons_of_mem _
            (List.mem_map_of_mem (List.mem_append_left _ answer)))
    refine added.fails (fails_stuck fun hints learned s hs => ?_)
    obtain ⟨t, run, same⟩ := h.lacks known [(name, { candidate := 0 })]
      (by simpa [Table.keys] using behind) learned hs
    exact ⟨_, t, run, same, learned.revise_known (by simp [Table.keys])⟩

/-- A field that accepts no candidate is never settled. -/
theorem Along.fails (h : R.Along before (field :: rest) hint settled)
    (required : field.mayBeAbsent = false)
    (known : field.type.verdict? R.schemas = some verdict) (none : ∀ place, verdict ≠ .taken place)
    (clear : ∀ name, verdict = .lacking name →
      ∀ other ∈ before, other.mayBeAbsent = true → other.name ≠ name) :
    R.Fails (·.Learned ((R.tag, hint) :: settled)) := by
  refine (h.leads_decided required known).fails ?_
  cases verdict with
  | taken place => exact absurd rfl (none place)
  | never => exact h.fails_never known
  | lacking name => exact h.fails_lacking known (clear name rfl)

/-! ### All walks -/

theorem Along.start (named : R.Names fields hint)
    (names : (R.tag :: fields.map FieldDecl.name).Nodup) : R.Along [] fields hint [] :=
  ⟨named, names, rfl, nofun⟩

/-- Fields up to the first one that accepts no candidate, if there is one. -/
theorem exists_first {schemas : Schemas} (h : ¬Satisfiable schemas fields) :
    ∃ before field rest, fields = before ++ field :: rest ∧ Satisfiable schemas before ∧
      field.mayBeAbsent = false ∧
      ∀ place, field.type.verdict? schemas ≠ some (.taken place) := by
  induction fields with
  | nil => exact absurd nofun h
  | cons field rest ih =>
      by_cases good : field.mayBeAbsent = false →
          ∃ place, field.type.verdict? schemas = some (.taken place)
      · have later : ¬Satisfiable schemas rest := fun all =>
          h (List.forall_mem_cons.mpr ⟨good, all⟩)
        obtain ⟨before, bad, rest, rfl, satisfiable, needed, refused⟩ := ih later
        exact ⟨field :: before, bad, rest, rfl, List.forall_mem_cons.mpr ⟨good, satisfiable⟩,
          needed, refused⟩
      · obtain ⟨needed, refused⟩ := Classical.not_imp.mp good
        exact ⟨[], field, rest, rfl, nofun, needed, not_exists.mp refused⟩

theorem walks_satisfied (chosen : chosenFields? R.variants = some fields)
    (names : (R.tag :: fields.map FieldDecl.name).Nodup)
    (satisfiable : Satisfiable R.schemas fields) (hw : w.schemas = R.schemas) (walks : Nat) :
    (refinements R.schemas R.variants fields < walks → ∃ sample u,
      exec (walkRoot (readType (R.depth + 2)) (.declared R.slot) R.options R.context R.muted walks
        []) w = (.ok (Shape.leaf (TypeExpr.declared R.slot).ref, sample), u)) ∧
    (walks ≤ refinements R.schemas R.variants fields → ∃ fault u,
      exec (walkRoot (readType (R.depth + 2)) (.declared R.slot) R.options R.context R.muted walks
        []) w = (.error (.fault fault), u)) := by
  obtain ⟨hint, named, toVariant⟩ := leads_named chosen
  have along : R.Along [] (fields ++ []) hint [] :=
    .start (by simpa using named) (by simpa using names)
  obtain ⟨settled, along, toFields⟩ := along.leads_all satisfiable
  obtain ⟨hints, v, learned, hv, refines⟩ :=
    (toVariant.trans toFields) [] w ⟨.nothing, rfl⟩ hw
  refine ⟨fun enough => ?_, fun few => refines.exhausted few⟩
  obtain ⟨more, rfl⟩ : ∃ more, walks = refinements R.schemas R.variants fields + (more + 1) :=
    ⟨walks - refinements R.schemas R.variants fields - 1, by omega⟩
  obtain ⟨t, run, tree⟩ := along.exec_settled learned hv
  rw [refinements, refines.walkRoot, exec_walkRoot, run]
  exact ⟨t.session.sample, t.world, by rw [← tree]⟩

theorem walks_unsatisfied (chosen : chosenFields? R.variants = some fields)
    (names : (R.tag :: fields.map FieldDecl.name).Nodup)
    (judged : ∀ field ∈ fields, field.mayBeAbsent = false →
      (field.type.verdict? R.schemas).isSome)
    (clear : ∀ field ∈ fields, field.mayBeAbsent = false → ∀ name,
      field.type.verdict? R.schemas = some (.lacking name) →
      ∀ other ∈ fields, other.mayBeAbsent = true → other.name ≠ name)
    (unsatisfiable : ¬Satisfiable R.schemas fields) : R.Fails (Untold 0) := by
  obtain ⟨hint, named, toVariant⟩ := leads_named chosen
  obtain ⟨before, field, rest, rfl, satisfiable, required, refused⟩ := exists_first unsatisfiable
  obtain ⟨settled, along, toField⟩ := (Along.start named names).leads_all satisfiable
  have inside : field ∈ before ++ field :: rest := by simp
  obtain ⟨verdict, known⟩ := Option.isSome_iff_exists.mp (judged field inside required)
  refine (toVariant.trans toField).fails (along.fails required known ?_ ?_)
  · rintro place rfl
    exact refused place known
  · rintro name rfl other earlier absent
    exact clear field inside required name known other (List.mem_append_left _ earlier) absent

end
end TaggedRoot

/-- A type that is neither cached nor registered with data is walked, muted if it is registered, and
has the registered shape then. -/
theorem exec_reflectWith_unplaced {read : TypeReader} {type : TypeExpr} {options : Options}
    {context : List (String × Json)} {w : World}
    (uncached : Table.get? w.cache (type.ref, options) = none)
    (unplaced : ∀ custom, w.registry.documentationOf? type.ref = some custom →
      custom.placeholder = none) :
    exec (reflectWith read type options context) w =
      cacheRoot type.ref options
        (fun shape => (w.registry.documentationOf? type.ref).elim shape
          fun custom => ⟨type.ref, custom.body⟩)
        (exec (walkRoot read type options context
          (w.registry.documentationOf? type.ref).isSome maxWalks []) w) := by
  rw [exec_reflectWith, uncached]
  rcases registered : w.registry.documentationOf? type.ref with _ | ⟨body, placeholder⟩
  · rfl
  · obtain rfl : placeholder = none := unplaced _ registered
    rfl

/-- An internally tagged enumeration of which a variant has only scalars, texts, sequences and
records among the fields that may not be absent is reflected if each of these accepts a candidate
and the walks before do not use up the limit, and is not reflected otherwise. A record that lacks a
field in an object without members accepts none: the field is taken for one of the variant. -/
theorem reflect_tagged {slot : Slot} {name tag : String}
    {variants : List (String × List FieldDecl)} {fields : List FieldDecl} {w : World}
    (declared : Table.get? w.schemas slot = some (.tagged name tag variants))
    (chosen : chosenFields? variants = some fields)
    (names : (tag :: fields.map FieldDecl.name).Nodup)
    (judged : ∀ field ∈ fields, field.mayBeAbsent = false →
      (field.type.verdict? w.schemas).isSome)
    (clear : ∀ field ∈ fields, field.mayBeAbsent = false → ∀ missed,
      field.type.verdict? w.schemas = some (.lacking missed) →
      ∀ other ∈ fields, other.mayBeAbsent = true → other.name ≠ missed)
    (options : Options) (context : List (String × Json))
    (uncached : Table.get? w.cache ((TypeExpr.declared slot).ref, options) = none)
    (unplaced : ∀ custom, w.registry.documentationOf? (TypeExpr.declared slot).ref = some custom →
      custom.placeholder = none) (depth : Nat) :
    (Satisfiable w.schemas fields ∧ refinements w.schemas variants fields < maxWalks →
      ∃ u, exec (reflectWithin (depth + 2) (.declared slot) options context) w =
        (.ok ⟨(TypeExpr.declared slot).ref,
          ((w.registry.documentationOf? (TypeExpr.declared slot).ref).map
            CustomDocumentation.body).getD .plain⟩, u)) ∧
    (¬(Satisfiable w.schemas fields ∧ refinements w.schemas variants fields < maxWalks) →
      ∃ fault u, exec (reflectWithin (depth + 2) (.declared slot) options context) w =
        (.error (.fault fault), u)) := by
  have walked (muted : Bool) :
      (Satisfiable w.schemas fields ∧ refinements w.schemas variants fields < maxWalks →
        ∃ sample u, exec (walkRoot (readType (depth + 2)) (.declared slot) options context muted
          maxWalks []) w = (.ok (Shape.leaf (TypeExpr.declared slot).ref, sample), u)) ∧
      (¬(Satisfiable w.schemas fields ∧ refinements w.schemas variants fields < maxWalks) →
        ∃ fault u, exec (walkRoot (readType (depth + 2)) (.declared slot) options context muted
          maxWalks []) w = (.error (.fault fault), u)) := by
    let R : TaggedRoot :=
      ⟨w.schemas, slot, name, tag, variants, declared, options, context, muted, depth⟩
    by_cases satisfiable : Satisfiable w.schemas fields
    · obtain ⟨enough, few⟩ :=
        TaggedRoot.walks_satisfied (R := R) chosen names satisfiable rfl maxWalks
      exact ⟨fun h => enough h.2, fun h => few (Nat.not_lt.mp fun less => h ⟨satisfiable, less⟩)⟩
    · have fails := TaggedRoot.walks_unsatisfied (R := R) chosen names judged clear satisfiable
      exact ⟨fun h => absurd h.1 satisfiable, fun _ => fails maxWalks [] w ⟨.nothing, rfl⟩ rfl⟩
  unfold reflectWithin
  rw [exec_reflectWith_unplaced uncached unplaced]
  refine ⟨fun h => ?_, fun h => ?_⟩
  · obtain ⟨sample, u, run⟩ := (walked _).1 h
    rw [run]
    refine ⟨_, Prod.ext ?_ rfl⟩
    cases w.registry.documentationOf? (TypeExpr.declared slot).ref <;> rfl
  · obtain ⟨fault, u, run⟩ := (walked _).2 h
    rw [run]
    exact ⟨fault, u, rfl⟩

namespace Events

/-- An internally tagged enumeration, and the types of its fields. -/
def event : Slot := ⟨"T0", "api::model::T<0>"⟩
def origin : Slot := ⟨"T1", "api::model::T<1>"⟩

/-- The fields of a variant: a number, a text, a list, a record that needs nothing, and any type
that may be absent. -/
def fields : List FieldDecl :=
  [⟨"id", .int .u64, false⟩, ⟨"title", .text .string, false⟩, ⟨"tags", .vec .bool, false⟩,
    ⟨"origin", .declared origin, false⟩, ⟨"parent", .declared event, true⟩]

def variants : List (String × List FieldDecl) := [("Created", fields), ("Deleted", [])]

def schemas : Schemas :=
  [(event, .tagged "Event" "type" variants),
    (origin, .record "Origin" [⟨"host", .text .string, true⟩] false)]

theorem reflect_tagged_event :
    refinements schemas variants fields = 24 ∧
    ∃ u, exec (reflect (.declared event) {} []) { schemas } =
      (.ok (Shape.leaf ⟨"api::model::T<0>"⟩), u) := by
  have satisfiable : Satisfiable schemas fields := by
    intro field member required
    simp only [fields, List.mem_cons, List.not_mem_nil, or_false] at member
    rcases member with rfl | rfl | rfl | rfl | rfl
    · exact ⟨2, rfl⟩
    · exact ⟨1, rfl⟩
    · exact ⟨4, rfl⟩
    · exact ⟨5, by decide +kernel⟩
    · cases required
  have judged (field : FieldDecl) (member : field ∈ fields) (required : field.mayBeAbsent = false) :
      (field.type.verdict? schemas).isSome := by
    obtain ⟨place, known⟩ := satisfiable field member required
    rw [known]
    rfl
  have clear (field : FieldDecl) (member : field ∈ fields) (required : field.mayBeAbsent = false)
      (missed : String) (lacking : field.type.verdict? schemas = some (.lacking missed)) :
      ∀ other ∈ fields, other.mayBeAbsent = true → other.name ≠ missed := by
    obtain ⟨place, known⟩ := satisfiable field member required
    rw [known] at lacking
    cases lacking
  refine ⟨by decide +kernel, ?_⟩
  have declared : Table.get? (World.schemas { schemas }) event =
      some (.tagged "Event" "type" variants) := by simp [schemas, Table.get?]
  exact (reflect_tagged declared (by decide +kernel) (by decide +kernel) judged clear {} [] rfl
    (fun _ registered => by cases registered) 999998).1 ⟨satisfiable, by decide +kernel⟩

/-- A variant with a record that needs a number. -/
def nested : Schemas :=
  [(event, .tagged "Event" "type" [("Created", [⟨"origin", .declared origin, false⟩])]),
    (origin, .record "Origin" [⟨"port", .int .u8, false⟩] false)]

/-- An object made of the missed names and of candidates is accepted, and never offered. -/
theorem nested_record_refused :
    (exec (readType 3 (.declared event) (.data .hint (.object
      [("origin", .object [("port", .number (.whole 0))]), ("type", .string "Created")])))
      (rootState (.declared event) {} [] [] { schemas := nested })).1 = .ok () ∧
    (exec (reflect (.declared event) {} []) { schemas := nested }).1 =
      .error (.fault (.missingField "port")) := by
  decide +kernel

end Events
end Walk
end ApiAtlas
