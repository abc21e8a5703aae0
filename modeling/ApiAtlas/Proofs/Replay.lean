import ApiAtlas.Proofs.Layout

/-!
# What a replay accepts

Reading data that is not made up changes nothing but how often declared types were read. A replay
of a layout's data succeeds if the replays of the data inside do: arrays are read to their end,
and an object that holds every field once is read field by field, in whatever order the members
stand.
-/
namespace ApiAtlas

namespace Table
variable {α : Type}

theorem perm_insert {table : List (String × α)} {name : String} (value : α)
    (h : name ∉ keys table) : (insert table name value).Perm ((name, value) :: table) := by
  induction table with
  | nil => exact List.Perm.refl _
  | cons entry rest ih =>
      obtain ⟨k, v⟩ := entry
      have hk : name ≠ k := fun same => h (same ▸ List.mem_cons_self)
      have fresh : name ∉ keys rest := fun hr => h (List.mem_cons_of_mem _ hr)
      unfold insert
      rw [if_neg hk]
      split
      · exact List.Perm.refl _
      · exact ((ih fresh).cons _).trans (List.Perm.swap _ _ _)

theorem perm_foldl_insert (table entries : List (String × α))
    (h : (keys (table ++ entries)).Nodup) :
    (entries.foldl (fun table entry => insert table entry.1 entry.2) table).Perm
      (table ++ entries) := by
  induction entries generalizing table with
  | nil => simp
  | cons entry entries ih =>
      obtain ⟨k, v⟩ := entry
      have swapped : (table ++ (k, v) :: entries).Perm ((k, v) :: table ++ entries) :=
        List.perm_middle
      have fresh : k ∉ keys table := by
        have := (swapped.map Prod.fst).nodup_iff.mp h
        intro hk
        refine (List.nodup_cons.mp this).1 ?_
        exact (List.map_append (f := Prod.fst)) ▸ List.mem_append_left _ hk
      have inserted := (perm_insert v fresh).append_right entries
      refine (ih (insert table k v) ?_).trans (inserted.trans swapped.symm)
      exact ((inserted.trans swapped.symm).map Prod.fst).nodup_iff.mpr h

/-- Filing entries with names of their own keeps the entries. -/
theorem ofList_perm {entries : List (String × α)} (h : (keys entries).Nodup) :
    (ofList entries).Perm entries :=
  perm_foldl_insert [] entries h

end Table

namespace Walk
open Decode Reader

/-- A state in which declared types were read some other number of times. -/
def State.recount (s : State) (counts : List (Slot × Nat)) : State :=
  { s with world := { s.world with counts } }

theorem State.began_recount (s : State) (t : TypeExpr) :
    ∃ counts, s.began t = s.recount counts := by
  cases t with
  | declared slot => exact ⟨_, rfl⟩
  | _ => exact ⟨s.world.counts, rfl⟩

/-- The decode ends with a value from every state, and changes nothing but counts. -/
def Yields {α : Type} (schemas : Schemas) (m : Decode α) (a : α) : Prop :=
  ∀ s, s.world.schemas = schemas → ∃ counts, exec m s = (.ok a, s.recount counts)

/-- A decode that yields never stops. -/
theorem yields_iff {α : Type} {schemas : Schemas} {m : Decode α} {a : α} :
    Yields schemas m a ↔ ∀ s, s.world.schemas = schemas → Outcome
      (fun b t => b = a ∧ ∃ counts, t = s.recount counts) (fun _ _ => False) (exec m s) := by
  refine forall₂_congr fun s _ => ⟨fun ⟨counts, run⟩ => run ▸ ⟨rfl, counts, rfl⟩, fun ended => ?_⟩
  generalize exec m s = x at ended ⊢
  obtain ⟨stop | b, t⟩ := x
  · exact ended.elim
  · obtain ⟨rfl, counts, rfl⟩ := ended
    exact ⟨counts, rfl⟩

section
variable {schemas : Schemas} {read : TypeReader} {α β : Type}

theorem yields_pure (a : α) : Yields schemas (pure a) a := fun s _ => ⟨s.world.counts, rfl⟩

theorem Yields.bind {m : Decode α} {a : α} {f : α → Decode β} {b : β} (hm : Yields schemas m a)
    (hf : Yields schemas (f a) b) : Yields schemas (m >>= f) b := by
  refine yields_iff.mpr fun s hs => (yields_iff.mp hm s hs).bind ?_
  rintro _ _ ⟨rfl, counts, rfl⟩
  exact yields_iff.mp hf (s.recount counts) hs

/-! ## Cursors over data -/

theorem yields_next? {seed : Seed α} {origin : Origin} {total : Nat} {item : Json}
    {rest : List Json} {a : α} (h : Yields schemas (seed.run (.data origin item)) a) :
    Yields schemas (SeqCursor.next? (.data origin total (item :: rest)) seed)
      (some (a, .data origin total rest)) :=
  h.bind (yields_pure _)

theorem yields_nextValue {seed : Seed α} {origin : Origin} {total : Nat}
    {members : List (String × Json)} {value : Json} {a : α}
    (h : Yields schemas (seed.run (.data origin value)) a) :
    Yields schemas (MapCursor.nextValue (.data origin total members (some value)) seed)
      (a, .data origin total members none) := by
  cases origin <;> exact h.bind (yields_pure _)

theorem yields_readSeqCursor {body : SeqCursor → Decode (α × SeqCursor)} {cursor : SeqCursor}
    {a : α} {origin : Origin} {total : Nat}
    (h : Yields schemas (body cursor) (a, .data origin total [])) :
    Yields schemas (cursor.read body) a := by
  have closed : Yields schemas (SeqCursor.close (.data origin total [])) () := by
    cases origin <;> exact yields_pure ()
  exact h.bind (closed.bind (yields_pure a))

theorem yields_readMapCursor {body : MapCursor → Decode (α × MapCursor)} {a : α}
    {origin : Origin} {total total' : Nat} {members : List (String × Json)} {pending : Option Json}
    (h : Yields schemas (body (.data origin total members none))
      (a, .data origin total' [] pending)) :
    Yields schemas (MapCursor.read (.data origin total members none) body) a := by
  have closed : Yields schemas (MapCursor.close (.data origin total' [] pending)) () := by
    cases origin <;> exact yields_pure ()
  exact h.bind (closed.bind (yields_pure a))

/-! ## Loops over data -/

theorem yields_readElements {seedAt : Nat → Seed Unit} {origin : Origin} {total : Nat}
    {items : List Json}
    (h : ∀ i, ∀ item ∈ items, Yields schemas ((seedAt i).run (.data origin item)) ())
    {more : Nat} (enough : items.length < more) (index : Nat) :
    Yields schemas (readElements seedAt more index (.data origin total items))
      (index + items.length, .data origin total []) := by
  induction items generalizing more index with
  | nil =>
      obtain ⟨more, rfl⟩ := Nat.exists_eq_succ_of_ne_zero (Nat.ne_of_gt enough)
      exact yields_pure _
  | cons item rest ih =>
      obtain ⟨more, rfl⟩ := Nat.exists_eq_succ_of_ne_zero (Nat.ne_of_gt (Nat.zero_lt_of_lt enough))
      refine (yields_next? (h index item List.mem_cons_self)).bind ?_
      have later := ih (fun i item hi => h i item (List.mem_cons_of_mem _ hi))
        (Nat.lt_of_succ_lt_succ enough) (index + 1)
      rw [List.length_cons, Nat.add_comm rest.length, ← Nat.add_assoc]
      exact later

theorem yields_readOpen {seedAt : Nat → Seed Unit} {origin : Origin} {total : Nat}
    {items : List Json}
    (h : ∀ i, ∀ item ∈ items, Yields schemas ((seedAt i).run (.data origin item)) ()) :
    Yields schemas (readOpen seedAt none (.data origin total items)) () :=
  yields_readSeqCursor ((yields_readElements h (Nat.lt_succ_self _) 0).bind (yields_pure _))

theorem yields_readPlaces {style : Style} {expecting : String} {origin : Origin} {total : Nat}
    {seeds : List (Seed Unit)} {items : List Json}
    (h : List.Forall₂ (fun seed item => Yields schemas (Seed.run seed (.data origin item)) ()) seeds
      items) (index : Nat) :
    Yields schemas (readPlaces style expecting index seeds (.data origin total items))
      ((), .data origin total []) := by
  induction h generalizing index with
  | nil => exact yields_pure _
  | cons first _ ih => exact (yields_next? first).bind (ih _)

theorem yields_readEntries {seed : Seed Unit} {total : Nat} {members : List (String × Json)}
    (h : ∀ member ∈ members, Yields schemas (seed.run (.data .replay member.2)) ()) {more : Nat}
    (enough : members.length < more) :
    Yields schemas
      (readEntries (fun source => discard (readText source)) seed more
        (.data .replay total members none))
      ((), .data .replay total [] none) := by
  induction members generalizing more with
  | nil =>
      obtain ⟨more, rfl⟩ := Nat.exists_eq_succ_of_ne_zero (Nat.ne_of_gt enough)
      exact yields_pure _
  | cons member rest ih =>
      obtain ⟨more, rfl⟩ := Nat.exists_eq_succ_of_ne_zero (Nat.ne_of_gt (Nat.zero_lt_of_lt enough))
      obtain ⟨name, value⟩ := member
      have key : Yields schemas
          (MapCursor.nextKey? (.data .replay total ((name, value) :: rest) none)
            fun source => discard (readText source))
          (some ((), .data .replay total rest (some value))) := yields_pure _
      refine key.bind ((yields_nextValue (h _ List.mem_cons_self)).bind ?_)
      exact ih (fun member hm => h member (List.mem_cons_of_mem _ hm))
        (Nat.lt_of_succ_lt_succ enough)

/-- An object that holds fields of a record, each once and with accepted data, is read to its end;
then each of its fields is done. -/
theorem yields_readFields {style : Style} {fields : List FieldDecl} {denyUnknown : Bool}
    {total : Nat} {members : List (String × Json)}
    (h : ∀ member ∈ members, ∃ i field, findField? fields member.1 = some (i, field) ∧
      Yields schemas (read field.type (.data .replay member.2)) ())
    (nodup : (Table.keys members).Nodup) {more : Nat} (enough : members.length < more)
    {done : List Nat}
    (fresh : ∀ name ∈ Table.keys members, ∀ i field, findField? fields name = some (i, field) →
      i ∉ done) :
    ∃ done', Yields schemas
        (readFields read style fields denyUnknown more done (.data .replay total members none))
        (done', .data .replay total [] none) ∧
      done ⊆ done' ∧
      ∀ name ∈ Table.keys members, ∀ i field, findField? fields name = some (i, field) →
        i ∈ done' := by
  induction members generalizing more done with
  | nil =>
      obtain ⟨more, rfl⟩ := Nat.exists_eq_succ_of_ne_zero (Nat.ne_of_gt enough)
      exact ⟨done, yields_pure _, List.Subset.refl _, by simp [Table.keys]⟩
  | cons member rest ih =>
      obtain ⟨more, rfl⟩ := Nat.exists_eq_succ_of_ne_zero (Nat.ne_of_gt (Nat.zero_lt_of_lt enough))
      obtain ⟨name, value⟩ := member
      obtain ⟨i, field, hf, accepted⟩ := h _ List.mem_cons_self
      obtain ⟨absent, nodup⟩ := List.nodup_cons.mp nodup
      have later : ∀ name' ∈ Table.keys rest, ∀ j field',
          findField? fields name' = some (j, field') → j ∉ i :: done := by
        intro name' hn j field' hj hmem
        rcases List.mem_cons.mp hmem with rfl | hd
        · have named := (findField?_some hf).1
          have named' := (findField?_some hj).1
          have same := (findField?_some hf).2.symm.trans (findField?_some hj).2
          rw [Option.some.inj same, named'] at named
          exact absent (named ▸ hn)
        · exact fresh name' (List.mem_cons_of_mem _ hn) j field' hj hd
      obtain ⟨done', run, sub, all⟩ := ih (fun member hm => h member (List.mem_cons_of_mem _ hm))
        nodup (Nat.lt_of_succ_lt_succ enough) later
      refine ⟨done', ?_, fun j hj => sub (List.mem_cons_of_mem _ hj), ?_⟩
      · have key : Yields schemas
            (MapCursor.nextKey? (.data .replay total ((name, value) :: rest) none) readText)
            (some (name, .data .replay total rest (some value))) := yields_pure _
        refine key.bind ?_
        have unread : done.contains i = false := by
          simpa using fresh name List.mem_cons_self i field hf
        simp only [hf, unread]
        exact (yields_nextValue accepted).bind run
      · intro name' hn j field' hj
        rcases List.mem_cons.mp hn with rfl | hn
        · obtain ⟨rfl, -⟩ := Prod.mk.inj (Option.some.inj (hf.symm.trans hj))
          exact sub List.mem_cons_self
        · exact all name' hn j field' hj

theorem checkMissing_done {style : Style} {fields : List FieldDecl} {isRead : Nat → Bool}
    (h : ∀ i field, fields[i]? = some field → isRead i) :
    checkMissing style fields isRead = pure () := by
  unfold checkMissing
  split
  · next field i found =>
    have read := h i field (List.mem_zipIdx_iff_getElem?.mp (List.mem_of_find?_eq_some found))
    have missing := List.find?_some found
    simp [read] at missing
  · rfl

/-- The members of an object that holds every field of a record once. -/
structure HoldsFields (accepts : TypeExpr → Json → Prop) (fields : List FieldDecl)
    (members : List (String × Json)) : Prop where
  fields_nodup : (fields.map FieldDecl.name).Nodup
  members_nodup : (Table.keys members).Nodup
  accepted : ∀ member ∈ members, ∃ field ∈ fields, field.name = member.1 ∧
    accepts field.type member.2
  complete : ∀ field ∈ fields, field.name ∈ Table.keys members

theorem HoldsFields.ofList {accepts : TypeExpr → Json → Prop} {fields : List FieldDecl}
    {samples : List Json} (nodup : (fields.map FieldDecl.name).Nodup)
    (h : List.Forall₂ (fun field sample => accepts (FieldDecl.type field) sample) fields samples) :
    HoldsFields accepts fields
      (Table.ofList ((fields.map FieldDecl.name).zip samples)) := by
  have keys : Table.keys ((fields.map FieldDecl.name).zip samples) = fields.map FieldDecl.name := by
    rw [Table.keys, List.map_fst_zip (Nat.le_of_eq (by rw [List.length_map, h.length_eq]))]
  have perm := Table.ofList_perm (keys ▸ nodup)
  have permKeys := (perm.map Prod.fst).trans (List.Perm.of_eq keys)
  refine ⟨nodup, permKeys.nodup_iff.mpr nodup, fun member hm => ?_, fun field hf => ?_⟩
  · have hz := perm.mem_iff.mp hm
    clear perm permKeys keys nodup hm
    induction h with
    | nil => cases hz
    | cons first _ ih =>
        rcases List.mem_cons.mp hz with rfl | hz
        · exact ⟨_, List.mem_cons_self, rfl, first⟩
        · obtain ⟨field, hf, named, ha⟩ := ih hz
          exact ⟨field, List.mem_cons_of_mem _ hf, named, ha⟩
  · exact permKeys.mem_iff.mpr (List.mem_map_of_mem hf)

/-- A replay of an object that holds every field of a record reads the record. -/
theorem yields_readRecordMap {style : Style} {fields : List FieldDecl} {denyUnknown : Bool}
    {total : Nat} {members : List (String × Json)}
    (h : HoldsFields (fun type value => Yields schemas (read type (.data .replay value)) ()) fields
      members) :
    Yields schemas (readRecordMap read style fields denyUnknown (.data .replay total members none))
      () := by
  have known : ∀ member ∈ members, ∃ i field, findField? fields member.1 = some (i, field) ∧
      Yields schemas (read field.type (.data .replay member.2)) () := by
    intro member hm
    obtain ⟨field, hf, named, accepted⟩ := h.accepted member hm
    obtain ⟨i, hi⟩ := List.mem_iff_getElem?.mp hf
    exact ⟨i, field, named ▸ findField?_of_mem h.fields_nodup hi, accepted⟩
  obtain ⟨done, run, -, all⟩ := yields_readFields known h.members_nodup (Nat.lt_succ_self _)
    (fun _ _ _ _ _ => List.not_mem_nil)
  have checked : Yields schemas (checkMissing style fields done.contains) () := by
    rw [checkMissing_done fun i field hi => ?_]
    · exact yields_pure ()
    have hn := h.complete field (List.mem_of_getElem? hi)
    simpa using all _ hn i field (findField?_of_mem h.fields_nodup hi)
  exact yields_readMapCursor
    (run.bind (checked.bind (yields_pure ((), MapCursor.data .replay total [] none))))

/-! ## Layouts over data -/

theorem yields_ask {value : Json} {expecting : String} {request : Request} (visit : Visit)
    (h : Source.dataAnswer .replay value expecting request = .ok ⟨visit, .replay "", none⟩) :
    Yields schemas ((Source.data .replay value).ask request expecting)
      ⟨visit, .replay "", none⟩ := by
  unfold Source.ask
  dsimp only
  rw [h]
  exact yields_pure _

theorem seeds_of_types {types : List TypeExpr} {values : List Json}
    (h : List.Forall₂ (fun type value => Yields schemas (read type (.data .replay value)) ()) types
      values) :
    List.Forall₂ (fun seed value => Yields schemas (Seed.run seed (.data .replay value)) ())
      (types.map (seedOf read)) values := by
  rw [List.forall₂_map_left_iff]
  exact h

/-- What the payload of a variant holds, given what types accept. -/
inductive PayloadData (accepts : TypeExpr → Json → Prop) : VariantContent → Json → Prop
  | newtype {type : TypeExpr} {value : Json} (h : accepts type value) :
      PayloadData accepts (.newtype type) value
  | tuple {types : List TypeExpr} {values : List Json} (nonempty : types ≠ [])
      (h : List.Forall₂ accepts types values) : PayloadData accepts (.tuple types) (.array values)
  | record {fields : List FieldDecl} {members : List (String × Json)}
      (h : HoldsFields accepts fields members) :
      PayloadData accepts (.record fields) (.object members)

/-- The data that a layout is read from, given what types accept. -/
inductive LayoutData (accepts : TypeExpr → Json → Prop) : Layout → Json → Prop
  | pointer {inner : TypeExpr} {value : Json} (h : accepts inner value) :
      LayoutData accepts (.pointer inner) value
  | newtype {name : String} {inner : TypeExpr} {value : Json} (h : accepts inner value) :
      LayoutData accepts (.newtype name inner) value
  | none {inner : TypeExpr} : LayoutData accepts (.option inner) .null
  | some {inner : TypeExpr} {value : Json} (h : accepts inner value) :
      LayoutData accepts (.option inner) value
  | record {expecting : String} {fields : List FieldDecl} {library denyUnknown : Bool}
      {members : List (String × Json)} (h : HoldsFields accepts fields members) :
      LayoutData accepts (.record expecting fields library denyUnknown) (.object members)
  | seq {inner : TypeExpr} {values : List Json} (h : ∀ value ∈ values, accepts inner value) :
      LayoutData accepts (.seq inner) (.array values)
  | tuple {expecting : String} {types : List TypeExpr} {values : List Json}
      (h : List.Forall₂ accepts types values) :
      LayoutData accepts (.tuple expecting types) (.array values)
  | map {inner : TypeExpr} {members : List (String × Json)}
      (h : ∀ member ∈ members, accepts inner member.2) :
      LayoutData accepts (.map inner) (.object members)
  | unit {name variant : String} {variants : List (String × VariantContent)}
      (h : Table.get? variants variant = Option.some .unit) :
      LayoutData accepts (.enumeration name variants) (.string variant)
  | payload {name variant : String} {variants : List (String × VariantContent)}
      {content : VariantContent} {value : Json}
      (h : Table.get? variants variant = Option.some content)
      (hv : PayloadData accepts content value) :
      LayoutData accepts (.enumeration name variants) (.object [(variant, value)])

theorem LayoutData.mono {accepts accepts' : TypeExpr → Json → Prop} {layout : Layout}
    {value : Json} (h : LayoutData accepts layout value)
    (all : ∀ t ∈ layout.parts, ∀ v, accepts t v → accepts' t v) :
    LayoutData accepts' layout value := by
  have places {types : List TypeExpr} {values : List Json} (h : List.Forall₂ accepts types values)
      (all : ∀ t ∈ types, ∀ v, accepts t v → accepts' t v) :
      List.Forall₂ accepts' types values := by
    induction h with
    | nil => exact .nil
    | cons first _ ih =>
        exact .cons (all _ List.mem_cons_self _ first)
          (ih fun t ht => all t (List.mem_cons_of_mem _ ht))
  have fields {decls : List FieldDecl} {members : List (String × Json)}
      (h : HoldsFields accepts decls members)
      (all : ∀ t ∈ decls.map FieldDecl.type, ∀ v, accepts t v → accepts' t v) :
      HoldsFields accepts' decls members :=
    { h with
      accepted := fun member hm => by
        obtain ⟨field, hf, named, accepted⟩ := h.accepted member hm
        exact ⟨field, hf, named, all _ (List.mem_map_of_mem hf) _ accepted⟩ }
  cases h with
  | pointer h => exact .pointer (all _ (List.mem_singleton_self _) _ h)
  | newtype h => exact .newtype (all _ (List.mem_singleton_self _) _ h)
  | none => exact .none
  | some h => exact .some (all _ (List.mem_singleton_self _) _ h)
  | record h => exact .record (fields h all)
  | seq h => exact .seq fun v hv => all _ (List.mem_singleton_self _) _ (h v hv)
  | tuple h => exact .tuple (places h all)
  | map h => exact .map fun member hm => all _ (List.mem_singleton_self _) _ (h member hm)
  | unit h => exact .unit h
  | payload h hv =>
      refine .payload h ?_
      have inside := fun t ht => all t (List.mem_flatMap.mpr ⟨_, Table.mem_of_get? h, ht⟩)
      cases hv with
      | newtype h => exact .newtype (inside _ (List.mem_singleton_self _) _ h)
      | tuple nonempty hp => exact .tuple nonempty (places hp inside)
      | record hp => exact .record (fields hp inside)

/-- A replay of a layout's data reads the layout. -/
theorem yields_layout {layout : Layout} {value : Json}
    (h : LayoutData (fun type value => Yields schemas (read type (.data .replay value)) ()) layout
      value) :
    Yields schemas (layout.read read (.data .replay value)) () := by
  cases h with
  | pointer h => exact h
  | newtype h => exact (yields_ask (.newtype (.data .replay value)) rfl).bind h
  | none => exact yields_pure ()
  | some h =>
      cases value with
      | null => exact yields_pure ()
      | _ => exact (yields_ask (.some _) rfl).bind h
  | @record expecting fields library denyUnknown members h =>
      cases library <;>
        exact (yields_ask (.map (.data .replay members.length members none)) rfl).bind
          (yields_readRecordMap h)
  | @seq inner values h =>
      exact (yields_ask (.seq (.data .replay values.length values)) rfl).bind
        (yields_readOpen fun _ value hv => h value hv)
  | @tuple expecting types values h =>
      have items := seeds_of_types h
      exact (yields_ask (.seq (.data .replay values.length values)) rfl).bind
        (yields_readSeqCursor (yields_readPlaces items 0))
  | @map inner members h =>
      exact (yields_ask (.map (.data .replay members.length members none)) rfl).bind
        (yields_readMapCursor (yields_readEntries h (Nat.lt_succ_self _)))
  | @unit name variant variants h =>
      refine (yields_ask (.variant (.data .replay variant none)) rfl).bind ?_
      dsimp only [VariantCursor.variant]
      rw [h]
      exact yields_pure ()
  | @payload name variant variants content value h hv =>
      refine (yields_ask (.variant (.data .replay variant (some value))) rfl).bind ?_
      dsimp only [VariantCursor.variant]
      rw [h]
      cases hv with
      | newtype hp => exact hp
      | @tuple types values nonempty hp =>
          have items := seeds_of_types hp
          cases hp with
          | nil => exact absurd rfl nonempty
          | cons first rest => exact yields_readSeqCursor (yields_readPlaces items 0)
      | record hp => exact yields_readRecordMap hp

end
end Walk
end ApiAtlas
