import ApiAtlas.Proofs.Preorder
import ApiAtlas.Proofs.Recorded
import ApiAtlas.Run

/-!
# Recorded fields are ascending

Every operation on nodes keeps the fields of every node ascending by name: fields are filed in
order, a replaced field stays where it stands, and a collapsed sequence has one field. So from a
world whose cached and registered shapes are of this kind every reflection gives one, and leaves
such a world, and so does every run that registers no others. Runs start from such a world.
-/
namespace ApiAtlas

namespace Table
variable {α : Type}

theorem mem_put {table : List (String × α)} {name : String} {value : α} {entry : String × α}
    (h : entry ∈ put table name value) : entry = (name, value) ∨ entry ∈ table := by
  induction table with
  | nil => exact .inl (List.mem_singleton.mp h)
  | cons first rest ih =>
      obtain ⟨k, v⟩ := first
      rw [put] at h
      split at h
      · next same =>
        rcases List.mem_cons.mp h with rfl | later
        · exact .inl (by rw [same])
        · exact .inr (List.mem_cons_of_mem _ later)
      · rcases List.mem_cons.mp h with rfl | later
        · exact .inr List.mem_cons_self
        · exact (ih later).imp_right (List.mem_cons_of_mem _)

theorem keys_put {table : List (String × α)} {name : String} {old : α}
    (h : get? table name = some old) (value : α) : keys (put table name value) = keys table := by
  induction table with
  | nil => cases h
  | cons first rest ih =>
      obtain ⟨k, v⟩ := first
      rw [get?] at h
      rw [put]
      split at h
      · next same => rw [if_pos same]; rfl
      · next other =>
        rw [if_neg other]
        exact congrArg (k :: ·) (ih h)

theorem ascending_iff_keys {table : List (String × α)} :
    Ascending table ↔ (keys table).Pairwise (· < ·) := List.pairwise_map.symm

theorem Ascending.put {table : List (String × α)} (h : Ascending table) {name : String} {old : α}
    (known : get? table name = some old) (value : α) : Ascending (put table name value) := by
  rw [ascending_iff_keys, keys_put known]
  exact ascending_iff_keys.mp h

end Table

namespace Shape
variable {s child : Shape} {type : TypeRef} {fields : List (String × Shape)}

theorem exists_of_mem_nodesOfFields {node : Shape} (h : node ∈ nodesOfFields fields) :
    ∃ entry ∈ fields, node ∈ entry.2.nodes := by
  induction fields with
  | nil => cases h
  | cons first rest ih =>
      rcases List.mem_append.mp h with here | later
      · exact ⟨first, List.mem_cons_self, here⟩
      · obtain ⟨entry, member, inside⟩ := ih later
        exact ⟨entry, List.mem_cons_of_mem _ member, inside⟩

/-- A node with fields is ordered if these are ascending and what they hold is ordered. -/
theorem ordered_of_fields (ascending : Table.Ascending fields)
    (below : ∀ entry ∈ fields, entry.2.Ordered) : Ordered ⟨type, .fields fields⟩ := by
  intro node member
  rcases List.mem_cons.mp member with rfl | inside
  · intro own same
    obtain rfl := Option.some.inj same
    exact ascending
  · obtain ⟨entry, held, there⟩ := exists_of_mem_nodesOfFields inside
    exact below entry held node there

theorem ordered_plain (type : TypeRef) : Ordered ⟨type, .plain⟩ := by
  intro node member
  obtain rfl := List.mem_singleton.mp member
  exact nofun

theorem ordered_cases (type : TypeRef) (cases : List EnumCase) : Ordered ⟨type, .cases cases⟩ := by
  intro node member
  obtain rfl := List.mem_singleton.mp member
  exact nofun

/-! ## Operations on nodes -/

theorem Ordered.setField? (h : s.Ordered) (hc : child.Ordered) {name : String} {t : Shape}
    (taken : s.setField? name child = some t) : t.Ordered := by
  obtain ⟨type, body⟩ := s
  cases body with
  | cases cases => cases taken
  | plain =>
      obtain rfl := Option.some.inj taken
      refine ordered_of_fields (List.pairwise_singleton _ _) fun entry member => ?_
      obtain rfl := List.mem_singleton.mp member
      exact hc
  | fields fields =>
      obtain rfl := Option.some.inj taken
      refine ordered_of_fields (Table.ascending_insert h.ascending _ _) fun entry member => ?_
      rcases Table.mem_insert member with rfl | before
      · exact hc
      · exact h.child before

theorem Ordered.compress (h : s.Ordered) (count : Nat) : (s.compress count).Ordered := by
  obtain ⟨type, body⟩ := s
  unfold Shape.compress compress?
  cases body with
  | plain => exact h
  | cases cases => exact h
  | fields fields =>
      dsimp only
      split
      · exact h
      · split
        · exact h
        · next first known =>
          have hf : first.Ordered := h.child (Table.mem_of_get? known)
          split
          · refine ordered_of_fields (List.pairwise_singleton _ _) fun entry member => ?_
            obtain rfl := List.mem_singleton.mp member
            exact hf
          · exact h

theorem Ordered.at? {path : List String} {node : Shape} (h : s.Ordered)
    (found : s.at? path = some node) : node.Ordered := by
  induction path generalizing s with
  | nil =>
      obtain rfl := Option.some.inj found
      exact h
  | cons key rest ih =>
      obtain ⟨fields, child, whole, known, there⟩ := at?_cons_some found
      rw [whole] at h
      exact ih (h.child (Table.mem_of_get? known)) there

theorem Ordered.modifyAt? {f : Shape → Shape} (hf : ∀ node, node.Ordered → (f node).Ordered)
    {path : List String} {t : Shape} (h : s.Ordered) (done : modifyAt? f path s = some t) :
    t.Ordered := by
  induction path generalizing s t with
  | nil =>
      obtain rfl := Option.some.inj done
      exact hf s h
  | cons key rest ih =>
      obtain ⟨type, body⟩ := s
      cases body with
      | plain => cases done
      | cases cases => cases done
      | fields fields =>
          simp only [Shape.modifyAt?, fields?] at done
          cases known : Table.get? fields key with
          | none => rw [known] at done; cases done
          | some child =>
              rw [known] at done
              dsimp only at done
              cases changed : Shape.modifyAt? f rest child with
              | none => rw [changed] at done; cases done
              | some child' =>
                  rw [changed] at done
                  obtain rfl := Option.some.inj done
                  have hc : child'.Ordered := ih (h.child (Table.mem_of_get? known)) changed
                  refine ordered_of_fields (h.ascending.put known _) fun entry member => ?_
                  rcases Table.mem_put member with rfl | before
                  · exact hc
                  · exact h.child before

end Shape

/-- Every documentation that is registered has ordered fields. -/
def Registry.Ordered (registry : Registry) : Prop :=
  ∀ t custom, registry.documentation? t = some custom → ∀ type, Shape.Ordered ⟨type, custom.body⟩

/-- A change of one type's capabilities that registers nothing else than ordered fields. -/
theorem Registry.Ordered.update {registry : Registry} (h : registry.Ordered) (t : Identity)
    {f : Capabilities → Capabilities}
    (hf : ∀ capabilities custom, (f capabilities).documentation = some custom →
      capabilities.documentation = some custom ∨ ∀ type, Shape.Ordered ⟨type, custom.body⟩) :
    (registry.update t f).Ordered := by
  intro other custom known
  unfold documentation? Registry.update at known
  by_cases same : other = t
  · subst same
    rw [Table.get?_put_self] at known
    rcases hf _ custom known with before | ordered
    · refine h other custom ?_
      unfold documentation?
      cases there : Table.get? registry other with
      | none => rw [there] at before; cases before
      | some capabilities => rwa [there] at before
    · exact ordered
  · rw [Table.get?_put_of_ne _ _ same] at known
    exact h other custom known

namespace Walk
open Decode Reader

/-- What is cached and what is registered has ordered fields. -/
structure World.Ordered (w : World) : Prop where
  cached : ∀ {key entry}, Table.get? w.cache key = some entry → entry.shape.Ordered
  documented : w.registry.Ordered

theorem World.Ordered.cache {w : World} (h : w.Ordered) (key : TypeRef × Options)
    {entry : CacheEntry} (ordered : entry.shape.Ordered) :
    World.Ordered { w with cache := Table.put w.cache key entry } := by
  refine ⟨fun {other found} known => ?_, h.documented⟩
  by_cases same : other = key
  · subst same
    rw [Table.get?_put_self] at known
    obtain rfl := Option.some.inj known
    exact ordered
  · rw [Table.get?_put_of_ne _ _ same] at known
    exact h.cached known

/-- The fields of what is recorded, cached and registered stay ordered. -/
def Law.ordered : Law where
  holds s := s.session.tree.Ordered ∧ s.world.Ordered
  stops _ := True
  rel _ _ := True
  refl _ := trivial
  trans _ _ := trivial

namespace Decode
variable {α : Type}

/-- The decode keeps fields ordered. -/
abbrev Orderly (m : Decode α) : Prop := Obeys .ordered m

theorem obeyed_ordered {s : State} {x : Except Stop α × State} (tree : x.2.session.tree.Ordered)
    (world : x.2.world.Ordered) : Obeyed .ordered s x :=
  ⟨fun _ _ => trivial, ⟨tree, world⟩, trivial⟩

theorem orderly_note {note : Note} (h : ∀ tree, note ≠ .tree tree) :
    Orderly (modifySession note.apply) := by
  intro s hs
  refine obeyed_ordered ?_ hs.2
  show (note.apply s.session).tree.Ordered
  rw [Note.apply_tree h]
  exact hs.1

theorem orderly_setSample (v : Json) : Orderly (setSample v) :=
  have plain : ∀ tree, Note.sample v ≠ .tree tree := nofun
  orderly_note plain

theorem orderly_insertCache (type : TypeRef) {entry : CacheEntry} (h : entry.shape.Ordered) :
    Orderly (insertCache type entry) :=
  fun _ hs => obeyed_ordered hs.1 (hs.2.cache _ h)

theorem orderly_modifyNode (path : Path) {f : Shape → Shape}
    (hf : ∀ node, node.Ordered → (f node).Ordered) : Orderly (modifyNode path f) := by
  intro s hs
  rw [exec_modifyNode]
  cases done : s.session.tree.modifyAt? f path.keys with
  | none => exact obeyed_ordered hs.1 hs.2
  | some tree => exact obeyed_ordered (hs.1.modifyAt? hf done) hs.2

theorem orderly_recordField (path : Path) (name : String) {child : Shape} (hc : child.Ordered) :
    Orderly (recordField path name child) := by
  intro s hs
  rw [exec_recordField]
  cases found : s.session.tree.at? path.keys with
  | none => exact obeyed_ordered hs.1 hs.2
  | some node =>
      dsimp only
      cases taken : node.setField? name child with
      | none => exact obeyed_ordered hs.1 hs.2
      | some changed =>
          have ordered : changed.Ordered := (hs.1.at? found).setField? hc taken
          dsimp only
          cases done : s.session.tree.modifyAt? (fun _ => changed) path.keys with
          | none => exact obeyed_ordered hs.1 hs.2
          | some tree => exact obeyed_ordered (hs.1.modifyAt? (fun _ _ => ordered) done) hs.2

/-! ## Reading under a key -/

section
variable {parent : Path} {muted : Bool} {key : String} {seed : Seed α}

theorem orderly_noteField {child : Shape} (hc : child.Ordered) :
    Orderly (noteField parent muted key child) := by
  cases muted with
  | true => exact obeys_pure ()
  | false => exact (orderly_recordField parent key hc).map _

theorem orderly_descend
    (hw : Orderly (seed.run (.walk (parent.child key seed.type) muted))) :
    Orderly (descend parent muted key seed) := by
  intro s hs
  rw [exec_descend]
  dsimp only
  split
  · exact obeyed_ordered ((State.leaving_tree _ _).symm ▸ hs.1) hs.2
  · obtain ⟨tree, world⟩ := (hw (s.entering ⟨key, seed.type⟩) hs).holds
    generalize exec (seed.run _) _ = x at tree world ⊢
    obtain ⟨stop | a, t⟩ := x
    · have taught : ((t.leaving ⟨key, seed.type⟩).taught (parent.child key seed.type).site
          stop).session.tree.Ordered := by
        rw [State.taught_tree, State.leaving_tree]
        exact tree
      cases stop <;> exact obeyed_ordered taught world
    · have left : (t.leaving ⟨key, seed.type⟩).session.tree.Ordered := by
        rw [State.leaving_tree]
        exact tree
      dsimp only [cacheWalked]
      split
      · split
        · next shape found => exact obeyed_ordered left (world.cache _ (left.at? found))
        · exact obeyed_ordered left world
      · exact obeyed_ordered left world

/-- What is recorded or cached under a key comes from the cache, from the registry or from a walk
that starts at a leaf. -/
theorem orderly_readChild (hd : ∀ v, Orderly (seed.run (.data .replay v)))
    (hw : ∀ muted', (muted = true → muted' = true) →
      Orderly (seed.run (.walk (parent.child key seed.type) muted'))) :
    Orderly (readChild parent muted key seed) := by
  have replayed (v : Json) : Orderly (replay seed v) := (hd v).replay fun _ => trivial
  intro s hs
  rw [exec_readChild]
  cases found : Table.get? s.world.cache (seed.type, s.session.options) with
  | some entry =>
      exact (orderly_noteField (hs.2.cached found)).bind
        (fun _ => (replayed _).replaced (orderly_setSample _)) s hs
  | none =>
      dsimp only
      cases registered : s.world.registry.documentationOf? seed.type with
      | some custom =>
          have ordered : Shape.Ordered ⟨seed.type, custom.body⟩ :=
            hs.2.documented _ custom registered _
          have placeholder := Obeys.readPlaceholder replayed orderly_setSample
            (orderly_descend (hw true fun _ => rfl)) custom
          dsimp only
          rw [readDocumented_eq]
          refine (orderly_noteField ordered).bind (fun _ => obeys_session.bind fun before =>
            placeholder.bind fun value => obeys_session.bind fun after => ?_) s hs
          split
          · exact (orderly_insertCache _ ordered).bind fun _ => obeys_pure _
          · exact obeys_pure _
      | none =>
          cases muted with
          | true => exact orderly_descend (hw true id) s hs
          | false =>
              have leaf : Orderly ((! ·) <$> recordField parent key (Shape.leaf seed.type)) :=
                (orderly_recordField parent key (Shape.ordered_plain _)).map _
              exact leaf.bind (fun refused => orderly_descend (hw refused nofun)) s hs

end

/-! ## Reflections -/

section
variable {read : TypeReader} {type : TypeExpr} {options : Options} {context : List (String × Json)}

variable (options context) in
theorem ordered_walkRoot {muted : Bool} (h : Orderly (read type (.walk [] muted))) (walks : Nat)
    (hints : Hints) {w : World} (hw : w.Ordered) :
    (∀ shape sample, (exec (walkRoot read type options context muted walks hints) w).1 =
      .ok (shape, sample) → shape.Ordered) ∧
    (exec (walkRoot read type options context muted walks hints) w).2.Ordered := by
  have root : Orderly (readRoot read type muted) :=
    h.onFault fun fault => by
      have lesson : ∀ tree, Note.lesson [] .any fault ≠ .tree tree := nofun
      exact orderly_note lesson
  have ends (hints : Hints) {w : World} (hw : w.Ordered) := root
    (rootState type options context hints w) ⟨Shape.ordered_plain _, hw⟩
  refine walkRoot_ends (P := fun w x => w.Ordered →
      (∀ shape sample, x.1 = .ok (shape, sample) → shape.Ordered) ∧ x.2.Ordered)
    (fun w fault hw => ⟨nofun, hw⟩) (fun hints w hw => ?_)
    (fun hints w x later hw => later (ends hints hw).holds.2) walks hints w hw
  have ended := (ends hints hw).holds
  generalize exec (readRoot read type muted) _ = x at ended ⊢
  obtain ⟨stop | _, t⟩ := x
  · exact ⟨nofun, ended.2⟩
  · refine ⟨fun shape sample same => ?_, ended.2⟩
    obtain ⟨rfl, -⟩ := Prod.mk.inj (Except.ok.inj same)
    exact ended.1

/-- A reflection gives an ordered shape, if walks of its root keep fields ordered. -/
theorem ordered_reflectWith (h : ∀ muted, Orderly (read type (.walk [] muted))) {w : World}
    (hw : w.Ordered) :
    (∀ shape, (exec (reflectWith read type options context) w).1 = .ok shape → shape.Ordered) ∧
    (exec (reflectWith read type options context) w).2.Ordered := by
  have walked (muted : Bool) {shapeOf : Shape → Shape}
      (ordered : ∀ shape, shape.Ordered → (shapeOf shape).Ordered) :
      (∀ shape, (cacheRoot type.ref options shapeOf
        (exec (walkRoot read type options context muted maxWalks []) w)).1 = .ok shape →
          shape.Ordered) ∧
      (cacheRoot type.ref options shapeOf
        (exec (walkRoot read type options context muted maxWalks []) w)).2.Ordered := by
    have ended := ordered_walkRoot options context (h muted) maxWalks [] hw
    generalize exec (walkRoot read type options context muted maxWalks []) w = x at ended ⊢
    obtain ⟨stop | ⟨tree, sample⟩, v⟩ := x
    · exact ⟨nofun, ended.2⟩
    · have recorded := ordered tree (ended.1 tree sample rfl)
      refine ⟨fun shape same => ?_, ended.2.cache _ recorded⟩
      obtain rfl := Except.ok.inj same
      exact recorded
  rw [exec_reflectWith]
  cases found : Table.get? w.cache (type.ref, options) with
  | some entry =>
      refine ⟨fun shape same => ?_, hw⟩
      obtain rfl := Except.ok.inj same
      exact hw.cached found
  | none =>
      dsimp only
      cases registered : w.registry.documentationOf? type.ref with
      | none => exact walked false fun _ => id
      | some custom =>
          have body : Shape.Ordered ⟨type.ref, custom.body⟩ := hw.documented _ custom registered _
          obtain ⟨fields, placeholder⟩ := custom
          cases placeholder with
          | none => exact walked true fun _ _ => body
          | some placeholder =>
              refine ⟨fun shape same => ?_, hw.cache _ body⟩
              obtain rfl := Except.ok.inj same
              exact body

theorem orderly_reflectInside (h : ∀ muted, Orderly (read type (.walk [] muted))) (style : Style) :
    Orderly (reflectInside read style type) := by
  intro s hs
  rw [exec_reflectInside]
  exact obeyed_ordered hs.1 (ordered_reflectWith h hs.2).2

end

theorem upheld_ordered : Upheld .any fun _ => .ordered where
  knows _ := trivial
  stops _ := trivial
  note known := orderly_note known
  count _ _ := fun _ hs => obeyed_ordered hs.1 ⟨hs.2.cached, hs.2.documented⟩
  cases cases _ := orderly_modifyNode _ fun node _ => Shape.ordered_cases node.type cases
  compress count _ := orderly_modifyNode _ fun _ h => h.compress count
  child _ hd hw := orderly_readChild (hd _) hw
  inside _ hr := orderly_reflectInside hr _

end Decode

theorem ordered_reflectWithin (depth : Nat) (type : TypeExpr) (options : Options)
    (context : List (String × Json)) {w : World} (h : w.Ordered) :
    (∀ shape, (exec (reflectWithin depth type options context) w).1 = .ok shape →
      shape.Ordered) ∧
    (exec (reflectWithin depth type options context) w).2.Ordered :=
  ordered_reflectWith (fun muted =>
    upheld_ordered.readType (q := ⟨[], muted⟩) depth type ⟨rfl, id⟩) h

/-! ## Runs -/

end Walk

open Walk

namespace Registry.Ordered
variable {registry : Registry}

theorem document (h : registry.Ordered) (t : Identity) {body : ShapeBody}
    (placeholder : Option Json) (hb : ∀ type, Shape.Ordered ⟨type, body⟩) :
    (registry.document t body placeholder).Ordered := by
  refine h.update t fun _ custom same => .inr ?_
  obtain rfl := Option.some.inj same
  exact hb

theorem wrap (h : registry.Ordered) (t wrapped : Identity) : (registry.wrap t wrapped).Ordered :=
  h.update t fun _ _ => .inl

theorem name (h : registry.Ordered) (t : Identity) (shown : String) :
    (registry.name t shown).Ordered :=
  h.update t fun _ _ => .inl

/-- The types with a text form have no fields to tell of. -/
theorem standard : Registry.standard.Ordered := by
  have registered : ∀ (forms : List TextForm) {registry : Registry}, registry.Ordered →
      Registry.Ordered (forms.foldl (fun registry form => registry.document
        (TypeExpr.form form).ref.identity .plain (some (.string form.placeholder))) registry) := by
    intro forms
    induction forms with
    | nil => exact id
    | cons form rest ih => exact fun h => ih (h.document _ _ Shape.ordered_plain)
  exact registered TextForm.all fun _ _ known => nomatch known

end Registry.Ordered

/-- Nothing is cached at first. -/
theorem Walk.World.Ordered.start : World.Ordered { registry := .standard } :=
  ⟨nofun, .standard⟩

namespace Step

/-- What a step registers has ordered fields. -/
def Ordered : Step → Prop
  | document _ body _ => ∀ type, Shape.Ordered ⟨type, body⟩
  | _ => True

theorem ordered_run {step : Step} (hs : step.Ordered) {w : World} (h : w.Ordered) :
    (∀ shape, (step.run w).1 = some (.ok shape) → shape.Ordered) ∧ (step.run w).2.Ordered := by
  cases step with
  | declare schemas => exact ⟨nofun, h.cached, h.documented⟩
  | document type body placeholder =>
      exact ⟨nofun, h.cached, h.documented.document type placeholder hs⟩
  | wrap type wrapped => exact ⟨nofun, h.cached, h.documented.wrap type wrapped⟩
  | name type shown => exact ⟨nofun, h.cached, h.documented.name type shown⟩
  | clearCache => exact ⟨nofun, nofun, h.documented⟩
  | reflect type options context =>
      obtain ⟨answer, world⟩ := ordered_reflectWithin defaultDepth type options context h
      exact ⟨fun shape same => answer shape (Option.some.inj same), world⟩

/-- Every shape that a run answers has its fields in order, and so has all that it leaves, if what
is known at its start and what it registers has. The objects that are listed of such a shape stand
in the order of their places. -/
theorem answers_ordered {steps : List Step} (hs : ∀ step ∈ steps, step.Ordered) {w : World}
    (h : w.Ordered) :
    (∀ shape, some (.ok shape) ∈ (runAll w steps).1 → shape.Ordered) ∧
    (runAll w steps).2.Ordered := by
  induction steps generalizing w with
  | nil => exact ⟨nofun, h⟩
  | cons step rest ih =>
      obtain ⟨first, world⟩ := ordered_run (hs step List.mem_cons_self) h
      obtain ⟨later, last⟩ :=
        ih (fun other member => hs other (List.mem_cons_of_mem _ member)) world
      refine ⟨fun shape member => ?_, last⟩
      rcases List.mem_cons.mp member with here | there
      · exact first shape here.symm
      · exact later shape there

end Step
end ApiAtlas
