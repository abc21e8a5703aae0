import ApiAtlas.Proofs.Histories
import Mathlib.Data.List.Nodup

/-!
# Shapes of plain types

The shape of a plain type by recursion on its layers, given the keys that its maps list. After
every history a plain type reflects to this shape, with the keys that its maps list which the
history left cached, and the one key that stands for every key for the other maps. So its shape
does not depend on a history that left no map inside it cached with other keys. A site at which a
self-describing map learned keys may be the site of a plain map, which then lists the same keys.
-/
namespace ApiAtlas

theorem ShapeBody.withFields_fields (all entries : List (String × Shape)) :
    (ShapeBody.fields all).withFields entries =
      .fields (entries.foldl (fun table entry => Table.insert table entry.1 entry.2) all) := by
  induction entries generalizing all with
  | nil => rfl
  | cons entry rest ih => exact ih _

theorem ShapeBody.withFields_plain {entries : List (String × Shape)} (h : entries ≠ []) :
    ShapeBody.plain.withFields entries = .fields (Table.ofList entries) := by
  cases entries with
  | nil => exact absurd rfl h
  | cons entry rest => exact ShapeBody.withFields_fields _ rest

namespace Table
variable {α : Type}

theorem length_ofList {entries : List (String × α)} (h : (keys entries).Nodup) :
    (ofList entries).length = entries.length :=
  (ofList_perm h).length_eq

end Table

namespace Walk
open Decode Reader

/-! ## Shapes by recursion -/

/-- Nodes by place. -/
def places (nodes : List Shape) : List (String × Shape) :=
  nodes.zipIdx.map fun entry => (Decimal.numeral entry.2, entry.1)

/-- The body of a tuple: elements of one type are told once where that is all that may be asked
for. -/
def tupleBody (most : Nat) : List Shape → ShapeBody
  | [] => .plain
  | first :: rest =>
      if most ≤ rest.length + 1 ∧ ∀ node ∈ rest, node = first then
        .fields [(Shape.elementsKey, first)]
      else .fields (Table.ofList (places (first :: rest)))

/-- The body of a plain type of some layers at a node of a type, given the keys that maps under a
node of a type list. -/
def plainBody (schemas : Schemas) (keys : TypeRef → List String) (most : Nat) :
    Nat → TypeRef → TypeExpr → ShapeBody
  | 0, _, _ => .plain
  | n + 1, own, t =>
      let node := fun c : TypeExpr => (⟨c.ref, plainBody schemas keys most n c.ref c⟩ : Shape)
      match t.layout? schemas with
      | none => .plain
      | some (.pointer inner) => plainBody schemas keys most n own inner
      | some (.newtype _ inner) => plainBody schemas keys most n own inner
      | some (.option inner) => plainBody schemas keys most n own inner
      | some (.record _ fields _ _) =>
          ShapeBody.plain.withFields (fields.map fun field => (field.name, node field.type))
      | some (.seq inner) =>
          if most = 0 then .plain else .fields [(Shape.elementsKey, node inner)]
      | some (.tuple _ types) => tupleBody most (types.map node)
      | some (.map inner) => .fields ((keys own).map fun key => (key, node inner))
      | some (.enumeration _ variants) => .cases (variants.map fun v => ⟨none, v.1⟩)

/-- The key that stands for every key. -/
def everyKey : TypeRef → List String := fun _ => ["\x7bany\x7d"]

/-- The keys that the cached shape of a type lists. -/
def World.mapKeys (w : World) (o : Options) (own : TypeRef) : List String :=
  match Table.get? w.cache (own, o) with
  | none => everyKey own
  | some ⟨_, ⟨_, .fields fields⟩⟩ => Table.keys fields
  | some _ => []

/-! ## Sequences and tuples -/

theorem numbered_eq (index : Nat) (pieces : List Piece) :
    Stage.numbered index pieces =
      ((pieces.map Piece.shape).zipIdx index).map fun entry =>
        (Decimal.numeral entry.2, entry.1) := by
  induction pieces generalizing index with
  | nil => rfl
  | cons x rest ih => exact congrArg _ (ih (index + 1))

theorem keys_places_nodup (nodes : List Shape) : (Table.keys (places nodes)).Nodup := by
  have keys : Table.keys (places nodes) = (List.range' 0 nodes.length).map Decimal.numeral := by
    rw [Table.keys, places, List.map_map, ← List.zipIdx_map_snd 0 nodes, List.map_map]
    rfl
  rw [keys]
  exact List.Nodup.map (fun _ _ => Decimal.numeral_inj) List.nodup_range'

theorem closedSequence_places (most : Nat) (nodes : List Shape) :
    closedSequence most nodes.length (ShapeBody.plain.withFields (places nodes)) =
      tupleBody most nodes := by
  cases nodes with
  | nil => rfl
  | cons first rest =>
      have nodup := keys_places_nodup (first :: rest)
      have count : (Table.ofList (places (first :: rest))).length = rest.length + 1 := by
        rw [Table.length_ofList nodup]
        simp [places]
      have found (i : Nat) (h : i < rest.length + 1) :
          Table.get? (Table.ofList (places (first :: rest))) (Decimal.numeral i) =
            some (first :: rest)[i] := by
        refine Table.get?_ofList nodup (List.mem_map.mpr ⟨((first :: rest)[i], i), ?_, rfl⟩)
        exact List.mk_mem_zipIdx_iff_getElem?.mpr (List.getElem?_eq_getElem h)
      have all : ((List.range (rest.length + 1)).all fun i =>
          Table.get? (Table.ofList (places (first :: rest))) (Decimal.numeral i) = some first) =
            decide (∀ node ∈ rest, node = first) := by
        rw [Bool.eq_iff_iff, List.all_eq_true, decide_eq_true_iff]
        constructor
        · intro h node hn
          obtain ⟨i, hi, rfl⟩ := List.mem_iff_getElem.mp hn
          have same := of_decide_eq_true (h (i + 1) (List.mem_range.mpr (by omega)))
          rw [found (i + 1) (by omega)] at same
          exact Option.some.inj same
        · intro h i hi
          have within := List.mem_range.mp hi
          rw [decide_eq_true_iff, found i within]
          cases i with
          | zero => rfl
          | succ i => exact congrArg some (h _ (List.getElem_mem _))
      rw [ShapeBody.withFields_plain (by simp [places]), closedSequence, tupleBody,
        List.length_cons]
      unfold Shape.compress Shape.compress?
      dsimp only
      rw [count, found 0 (Nat.succ_pos _)]
      dsimp only [List.getElem_cons_zero]
      rw [all]
      by_cases alike : ∀ node ∈ rest, node = first
      · by_cases full : most ≤ rest.length + 1
        · rw [if_pos ⟨Nat.succ_pos _, full⟩]
          simp [full, if_pos alike]
        · rw [if_neg fun h => full h.2, if_neg fun h => full h.1]
      · rw [if_neg fun h : _ ∧ _ => alike h.2]
        simp [alike]

theorem tupleBody_replicate (most : Nat) (node : Shape) :
    tupleBody most (List.replicate most node) =
      if most = 0 then .plain else .fields [(Shape.elementsKey, node)] := by
  cases most with
  | zero => rfl
  | succ most =>
      rw [List.replicate_succ, tupleBody, if_neg (Nat.succ_ne_zero _), if_pos]
      exact ⟨by simp, fun _ h => List.eq_of_mem_replicate h⟩

/-! ## Settled bodies -/

section
variable {schemas : Schemas} {registry : Registry} {U : TypeExpr → Prop}
variable {v w : World} {o : Options} {n d : Nat} {t : TypeExpr}

theorem shapes_of_types {node : TypeExpr → Shape} {pieces : List Piece} {types : List TypeExpr}
    (ht : pieces.map Piece.type = types) (h : ∀ x ∈ pieces, x.shape = node x.type) :
    pieces.map Piece.shape = types.map node := by
  rw [← ht, List.map_map]
  exact List.map_congr_left h

theorem eq_of_keys {table : List (String × Shape)} {node : Shape}
    (h : ∀ entry ∈ table, entry.2 = node) :
    (Table.keys table).map (fun key => (key, node)) = table := by
  rw [Table.keys, List.map_map]
  refine (List.map_congr_left fun entry he => ?_).trans (List.map_id _)
  exact Prod.ext rfl (h entry he).symm

/-- The body of a layout, given the keys that its maps list, the nodes of the types under keys and
the bodies of those that are read in place. -/
def Layout.body (keys : List String) (most : Nat) (node : TypeExpr → Shape)
    (inside : TypeExpr → ShapeBody) : Layout → ShapeBody
  | pointer inner | newtype _ inner | option inner => inside inner
  | record _ fields _ _ =>
      ShapeBody.plain.withFields (fields.map fun field => (field.name, node field.type))
  | seq inner => if most = 0 then .plain else .fields [(Shape.elementsKey, node inner)]
  | tuple _ types => tupleBody most (types.map node)
  | map inner => .fields (keys.map fun key => (key, node inner))
  | enumeration _ variants => .cases (variants.map fun v => ⟨none, v.1⟩)

theorem plainBody_layout {layout : Layout} (hl : t.layout? schemas = some layout)
    (keys : TypeRef → List String) (most n : Nat) (own : TypeRef) :
    plainBody schemas keys most (n + 1) own t =
      layout.body (keys own) most (fun c => ⟨c.ref, plainBody schemas keys most n c.ref c⟩)
        (plainBody schemas keys most n own) := by
  rw [plainBody, hl]
  cases layout <;> rfl

/-- The body that is made of a layout is the body of the layout, if what it is made of is. -/
theorem Made.body_eq {made : Bool → Piece → Prop} {inPlace : TypeExpr → ShapeBody → Json → Prop}
    {most : Nat} {layout : Layout} {body : ShapeBody} {sample : Json}
    {learned : Bool} (h : Made made inPlace most false learned false layout body sample)
    {keys : List String}
    {node : TypeExpr → Shape} {inside : TypeExpr → ShapeBody}
    (hm : ∀ x, made false x → x.type ∈ layout.parts → x.shape = node x.type)
    (hi : ∀ t v, inPlace t body v → layout.inner? = some t → body = inside t)
    (listed : ∀ inner fields, layout = .map inner → body = .fields fields →
      keys = Table.keys fields) :
    body = layout.body keys most node inside := by
  have nodes {pieces : List Piece} {types : List TypeExpr} (ht : pieces.map Piece.type = types)
      (parts : ∀ p ∈ types, p ∈ layout.parts) (h : ∀ x ∈ pieces, made false x) :
      pieces.map Piece.shape = types.map node :=
    shapes_of_types ht fun x hx => hm x (h x hx) (parts _ (type_mem ht x hx))
  have repeated {inner : TypeExpr} {count : Nat} (hp : inner ∈ layout.parts) :
      ∀ p ∈ List.replicate count inner, p ∈ layout.parts := fun p h =>
    List.eq_of_mem_replicate h ▸ hp
  cases h with
  | pointer h => exact hi _ _ h rfl
  | newtype h => exact hi _ _ h rfl
  | option _ h => exact hi _ _ h rfl
  | cutOption hc => cases hc
  | record ht h =>
      rw [nodes ht (fun _ => id) h, List.map_map, List.zip_map']
      rfl
  | seq ht h =>
      rw [numbered_eq, ← List.length_map (f := Piece.shape)]
      have same := nodes ht (repeated (List.mem_singleton_self _)) h
      rw [List.map_replicate] at same
      exact (closedSequence_places _ _).trans (same ▸ tupleBody_replicate _ _)
  | tuple ht h =>
      rw [numbered_eq, ← List.length_map (f := Piece.shape)]
      exact (closedSequence_places _ _).trans (by rw [nodes ht (fun _ => id) h]; rfl)
  | @map inner names pieces _ _ nonempty ht h =>
      have same := nodes ht (repeated (List.mem_singleton_self _)) h
      have filled : names.zip (pieces.map Piece.shape) ≠ [] := by
        rw [same, List.map_replicate]
        simpa [List.zip_eq_nil_iff] using nonempty
      rw [ShapeBody.withFields_plain filled] at listed ⊢
      rw [Layout.body, listed _ _ rfl rfl]
      refine congrArg ShapeBody.fields (eq_of_keys fun entry he => ?_).symm
      have value := (List.of_mem_zip (Table.mem_ofList he)).2
      rw [same, List.map_replicate] at value
      exact List.eq_of_mem_replicate value
  | openMap _ h =>
      rw [Layout.body, listed _ _ rfl rfl, hm _ h (List.mem_singleton_self _)]
      rfl
  | cutMap hc => cases hc
  | unit hv => rfl
  | payload hv h => rfl

theorem mapKeys_of_cached {own : TypeRef} {x : Json} {fields : List (String × Shape)}
    (cached : Table.get? w.cache (own, o) = some ⟨x, ⟨own, .fields fields⟩⟩) :
    w.mapKeys o own = Table.keys fields := by
  rw [World.mapKeys, cached]

/-- A map that a walk without hints took into the cache lists the key that stands for every key. -/
theorem PlainGrowth.mapKeys {root : TypeExpr}
    (grown : PlainGrowth schemas registry U o [] root n v w) (member : U t)
    (leads : t.MapOf schemas) {x : Json} {fields : List (String × Shape)}
    (cached : Table.get? w.cache (t.ref, o) = some ⟨x, ⟨t.ref, .fields fields⟩⟩) :
    v.mapKeys o t.ref = Table.keys fields := by
  cases before : Table.get? v.cache (t.ref, o) with
  | none =>
      obtain ⟨node, body⟩ := grown.opened rfl member before cached leads
      cases body
      rw [World.mapKeys, before]
      rfl
  | some entry =>
      obtain rfl := Option.some.inj ((grown.kept before).symm.trans cached)
      exact mapKeys_of_cached before

/-- A settled body is that of the type, with the keys that maps list. -/
theorem Settled.plainBody (fits : PlainWorld schemas registry U w) (good : o.Good)
    (family : Family schemas U) (keys : TypeRef → List String)
    (listed : ∀ {c x fields}, U c → c.MapOf schemas →
      Table.get? w.cache (c.ref, o) = some ⟨x, ⟨c.ref, .fields fields⟩⟩ →
      keys c.ref = Table.keys fields)
    {own : TypeExpr} {body : ShapeBody} {sample x : Json} {m : Nat} (holder : U own)
    (leads : t.MapOf schemas → own.MapOf schemas) (member : U t)
    (plain : Plain schemas registry n t)
    (settled : Settled schemas registry U w o false m t body sample)
    (cached : Table.get? w.cache (own.ref, o) = some ⟨x, ⟨own.ref, body⟩⟩) :
    body = plainBody schemas keys o.maxSequenceLength n own.ref t := by
  induction n generalizing own t body sample x m with
  | zero => exact plain.elim
  | succ n ih =>
      cases m with
      | zero => exact settled.elim
      | succ m =>
          rcases settled with ⟨scalar, rfl⟩ | ⟨layout, hl, sound, made⟩
          · rw [Walk.plainBody, layout?_of_zero scalar]
          have inside {p : TypeExpr} (hp : p ∈ layout.parts) :
              U p ∧ Plain schemas registry n p :=
            have hp := (mem_parts_iff hl p).mpr hp
            ⟨family.parts member p hp, plain.part hp⟩
          rw [plainBody_layout hl]
          refine made.body_eq (fun x hx hp => ?_) (fun p v settled hp => ?_)
            fun inner fields map same => ?_
          · -- what stands under a key is cached, with a body that is settled in turn
            have cached := hx.cached rfl
            obtain ⟨body, m, shape, settled⟩ := fits.entries good hx.member (inside hp).2 cached
            obtain rfl : x.body = body := (Shape.mk.inj shape).2
            exact congrArg _ (ih hx.member id hx.member (inside hp).2 settled cached)
          · have part := inside (mem_parts_of_inner hp)
            exact ih holder (fun map => leads (.inner hl hp map)) part.1 part.2 settled cached
          · exact listed holder (leads (.map (map ▸ hl))) (same ▸ cached)

/-! ## Which keys show -/

/-- The nodes of a plain type that record the keys of a map. -/
def recordedMaps (schemas : Schemas) (most : Nat) : Nat → TypeRef → TypeExpr → List TypeRef
  | 0, _, _ => []
  | n + 1, own, t =>
      let below := fun c : TypeExpr => recordedMaps schemas most n c.ref c
      match t.layout? schemas with
      | none => []
      | some (.pointer inner) => recordedMaps schemas most n own inner
      | some (.newtype _ inner) => recordedMaps schemas most n own inner
      | some (.option inner) => recordedMaps schemas most n own inner
      | some (.record _ fields _ _) => fields.flatMap fun field => below field.type
      | some (.seq inner) => if most = 0 then [] else below inner
      | some (.tuple _ types) => types.flatMap below
      | some (.map inner) => own :: below inner
      | some (.enumeration _ _) => []

/-- Records of different fields are the same if the fields are. -/
theorem withFields_eq_iff {fields : List FieldDecl} (nodup : (fields.map FieldDecl.name).Nodup)
    {f g : FieldDecl → Shape} :
    ShapeBody.plain.withFields (fields.map fun x => (x.name, f x)) =
        ShapeBody.plain.withFields (fields.map fun x => (x.name, g x)) ↔
      ∀ x ∈ fields, f x = g x := by
  constructor
  · intro h x hx
    have filled (f : FieldDecl → Shape) : (fields.map fun x => (x.name, f x)) ≠ [] := fun none => by
      rw [List.map_eq_nil_iff.mp none] at hx
      cases hx
    have found (f : FieldDecl → Shape) :
        Table.get? (Table.ofList (fields.map fun x => (x.name, f x))) x.name = some (f x) := by
      refine Table.get?_ofList ?_ (List.mem_map_of_mem (f := fun x => (x.name, f x)) hx)
      rw [Table.keys, List.map_map]
      exact nodup
    rw [ShapeBody.withFields_plain (filled f), ShapeBody.withFields_plain (filled g)] at h
    have same := found f
    rw [ShapeBody.fields.inj h, found g] at same
    exact (Option.some.inj same).symm
  · exact fun h => congrArg _ (List.map_congr_left fun x hx => Prod.ext rfl (h x hx))

theorem get?_places {nodes : List Shape} {i : Nat} {node : Shape} (h : nodes[i]? = some node) :
    Table.get? (Table.ofList (places nodes)) (Decimal.numeral i) = some node :=
  Table.get?_ofList (keys_places_nodup nodes)
    (List.mem_map.mpr ⟨(node, i), List.mk_mem_zipIdx_iff_getElem?.mpr h, rfl⟩)

theorem numeral_zero_ne : Shape.elementsKey ≠ Decimal.numeral 0 := by
  intro same
  have chars := congrArg String.toList same
  rw [Decimal.numeral, String.toList_ofList, Decimal.digits] at chars
  exact absurd chars (by decide)

/-- Tuples of the same types are the same if the elements are. -/
theorem tupleBody_eq_iff {most : Nat} {types : List TypeExpr} {f g : TypeExpr → Shape} :
    tupleBody most (types.map f) = tupleBody most (types.map g) ↔ ∀ c ∈ types, f c = g c := by
  constructor
  · intro h
    cases types with
    | nil => exact fun _ hc => by cases hc
    | cons first rest =>
        rw [List.map_cons, List.map_cons, tupleBody, tupleBody] at h
        have single (node : Shape) {nodes : List Shape} {other : Shape}
            (he : [(Shape.elementsKey, node)] = Table.ofList (places (other :: nodes))) :
            False := by
          have found : Table.get? (Table.ofList (places (other :: nodes))) (Decimal.numeral 0) =
              some other := get?_places rfl
          rw [← he] at found
          simp [Table.get?, numeral_zero_ne] at found
        split at h <;> split at h
        · next compressed compressed' =>
          have same : f first = g first := by simpa using h
          intro c hc
          rcases List.mem_cons.mp hc with rfl | hc
          · exact same
          · rw [compressed.2 _ (List.mem_map_of_mem hc),
              compressed'.2 _ (List.mem_map_of_mem hc), same]
        · exact (single _ (ShapeBody.fields.inj h)).elim
        · exact (single _ (ShapeBody.fields.inj h).symm).elim
        · intro c hc
          obtain ⟨i, hi⟩ := List.mem_iff_getElem?.mp hc
          have found (f : TypeExpr → Shape) :
              Table.get? (Table.ofList (places (f first :: rest.map f))) (Decimal.numeral i) =
                some (f c) := by
            refine get?_places ?_
            rw [← List.map_cons, List.getElem?_map, hi]
            rfl
          have same := found f
          rw [ShapeBody.fields.inj h, found g] at same
          exact (Option.some.inj same).symm
  · exact fun h => congrArg _ (List.map_congr_left h)

/-- A map under one set of keys is the same as one under the key that stands for every key, if the
keys are and the nodes are. -/
theorem mapBody_eq_iff {keys : List String} {own : TypeRef} {node node' : Shape} :
    ShapeBody.fields (keys.map fun key => (key, node)) =
        .fields ((everyKey own).map fun key => (key, node')) ↔
      keys = everyKey own ∧ node = node' := by
  constructor
  · intro h
    have same := ShapeBody.fields.inj h
    have names : keys = everyKey own := by
      have names := congrArg Table.keys same
      simpa [Table.keys, Function.comp_def] using names
    rw [names] at same
    exact ⟨names, by simpa [everyKey] using same⟩
  · rintro ⟨rfl, rfl⟩
    rfl

/-- The shape of a plain type does not depend on keys that no recorded map lists. -/
theorem plainBody_eq_iff {keys : TypeRef → List String} {most : Nat} {own : TypeRef}
    (plain : Plain schemas registry n t) :
    plainBody schemas keys most n own t = plainBody schemas everyKey most n own t ↔
      ∀ ref ∈ recordedMaps schemas most n own t, keys ref = everyKey ref := by
  induction n generalizing own t with
  | zero => exact plain.elim
  | succ n ih =>
      unfold plainBody recordedMaps
      have parts : ∀ layout, t.layout? schemas = some layout → layout.Sound ∧
          ∀ p ∈ layout.parts, Plain schemas registry n p := by
        intro layout hl
        obtain ⟨-, ⟨zero, scalar⟩ | ⟨layout', hl', sound, parts⟩⟩ := plain
        · cases (layout?_of_zero scalar).symm.trans hl
        · obtain rfl := Option.some.inj (hl.symm.trans hl')
          exact ⟨sound, parts⟩
      have node {c : TypeExpr} (plain : Plain schemas registry n c) :
          ((⟨c.ref, plainBody schemas keys most n c.ref c⟩ : Shape) =
            ⟨c.ref, plainBody schemas everyKey most n c.ref c⟩) ↔
          ∀ ref ∈ recordedMaps schemas most n c.ref c, keys ref = everyKey ref := by
        rw [Shape.mk.injEq, ← ih plain]
        exact and_iff_right rfl
      cases hl : t.layout? schemas with
      | none => simp
      | some layout =>
          obtain ⟨sound, parts⟩ := parts layout hl
          cases layout with
          | pointer inner => exact ih (parts _ (List.mem_singleton_self _))
          | newtype name inner => exact ih (parts _ (List.mem_singleton_self _))
          | option inner => exact ih (parts _ (List.mem_singleton_self _))
          | record expecting fields library denyUnknown =>
              refine (withFields_eq_iff sound).trans (Iff.trans ?_ List.forall_mem_flatMap.symm)
              exact forall₂_congr fun field hf => node (parts _ (List.mem_map_of_mem hf))
          | seq inner =>
              dsimp only
              split
              · simp
              · simpa using node (parts _ (List.mem_singleton_self _))
          | tuple expecting types =>
              refine tupleBody_eq_iff.trans (Iff.trans ?_ List.forall_mem_flatMap.symm)
              exact forall₂_congr fun c hc => node (parts _ hc)
          | map inner =>
              refine mapBody_eq_iff.trans (Iff.trans ?_ List.forall_mem_cons.symm)
              exact and_congr_right fun _ => node (parts _ (List.mem_singleton_self inner))
          | enumeration name variants => simp

/-- After every history, a plain type reflects to its shape with the keys of the maps that the
history left cached, and the key that stands for every key under the other maps. So it reflects to
the shape that does not depend on the history exactly where none of the maps that it records is
cached with other keys. -/
theorem reflect_plain (family : Family schemas U) (member : U t)
    (plain : Plain schemas registry n t) (enough : n ≤ d) (good : o.Good) {w : World}
    (declared : w.schemas = schemas) (registered : w.registry = registry) (empty : w.cache = [])
    {calls : List Call} (members : ∀ call ∈ calls, U call.type)
    (context : List (String × Json)) :
    (exec (reflectWithin d t o context) (w.after d calls)).1 =
        .ok ⟨t.ref, plainBody schemas ((w.after d calls).mapKeys o) o.maxSequenceLength n t.ref t⟩ ∧
      ((exec (reflectWithin d t o context) (w.after d calls)).1 =
          .ok ⟨t.ref, plainBody schemas everyKey o.maxSequenceLength n t.ref t⟩ ↔
        ∀ ref ∈ recordedMaps schemas o.maxSequenceLength n t.ref t,
          (w.after d calls).mapKeys o ref = everyKey ref) := by
  have fits := (plainWorld_of_empty (U := U) declared registered empty).after family d members
  obtain ⟨body, m, sample, u, run, fits', grown, cached, settled⟩ :=
    reflectWithin_plain family good member plain enough context fits
  have same := settled.plainBody fits' good family ((w.after d calls).mapKeys o)
    (fun member leads => grown.mapKeys member leads) member id member plain cached
  rw [run, ← same]
  refine ⟨rfl, ?_⟩
  rw [Except.ok.injEq, Shape.mk.injEq, and_iff_right rfl, same]
  exact plainBody_eq_iff plain

end

/-! ## A plain map that shows learned keys -/

namespace Pollution

/-- The plain map. -/
def bytes : TypeExpr := .map (.int .u8)

def inner : Slot := ⟨"T3", "api::model::T<3>"⟩

def flat : Slot := ⟨"T1", "api::model::T<1>"⟩

def outer : Slot := ⟨"T2", "api::model::T<2>"⟩

/-- A flattened record stands under a field that spells the site of the elements of a sequence of
the plain map, and the plain map under a field that spells a place. -/
def schemas : Schemas :=
  [(inner, .record "Inner" [⟨"x", .int .u8, false⟩] false),
    (flat, .flatten "Flat" [] [.declared inner]),
    (outer, .record "Outer"
      [⟨"[alloc::collections::btree::map::BTreeMap<alloc::string::String, u8>]",
        .declared flat, false⟩,
        ⟨"0", bytes, false⟩] false)]

def types : List TypeExpr :=
  [.declared inner, .declared flat, .declared outer, bytes, .int .u8, .text .string,
    .value, .ignored]

theorem family : Family schemas (· ∈ types) where
  parts := fun h => (by decide +kernel : ∀ t ∈ types, ∀ p ∈ t.parts schemas, p ∈ types) _ h
  roots := fun h => (by decide +kernel : ∀ t ∈ types, ∀ p ∈ t.roots schemas, p ∈ types) _ h
  text := by decide +kernel
  value := by decide +kernel
  ignored := by decide +kernel
  apart := fun {a b} ha hb =>
    (by decide +kernel : ∀ a ∈ types, ∀ b ∈ types, a.ref = b.ref → a = b) a ha b hb

theorem bytes_plain : Plain schemas [] 2 bytes :=
  ⟨rfl, .inr ⟨_, rfl, trivial, fun p hp => by
    obtain rfl := List.mem_singleton.mp hp
    exact ⟨rfl, .inl ⟨_, rfl⟩⟩⟩⟩

/-- What is reflected of the plain map where it is not cached. -/
def opened : Shape := ⟨bytes.ref, .fields [("\x7bany\x7d", Shape.leaf (TypeExpr.int .u8).ref)]⟩

theorem reflect_plain_bytes :
    (exec (reflectWithin 8 bytes {} []) { schemas }).1 = .ok opened ∧
      ((exec (reflectWithin 8 bytes {} [])
          (({ schemas } : World).after 8 [⟨.declared outer, {}, []⟩])).1 =
        .ok ⟨bytes.ref, .fields [("x", Shape.leaf (TypeExpr.int .u8).ref)]⟩) := by
  have after (calls : List Call) (members : ∀ call ∈ calls, call.type ∈ types) :=
    reflect_plain (o := {}) (d := 8) (w := { schemas }) family (by decide +kernel) bytes_plain
      (by decide) ⟨by decide, by decide⟩ rfl rfl rfl members []
  refine ⟨(after [] nofun).2.mpr fun _ _ => rfl, ?_⟩
  rw [(after [⟨.declared outer, {}, []⟩] (by decide +kernel)).1]
  decide +kernel

/-- After the record was reflected, the plain map lists the field of the flattened record. -/
theorem learned_keys_shown :
    (exec (reflect bytes {} [])
        (({ schemas } : World).after defaultDepth [⟨.declared outer, {}, []⟩])).1 ≠
      .ok ⟨bytes.ref, plainBody schemas everyKey 10 2 bytes.ref bytes⟩ := by
  decide +kernel

end Pollution
end Walk
end ApiAtlas
