import ApiAtlas.Documentation.Collect
import Mathlib.Logic.Relation

/-!
# What is named is listed

An object that is passed over while objects are listed has an object of its type in front of it. So
the type of every node is listed, and with it the type that a field names, if removing one optional
layer and then following wrappings leads where following wrappings alone does. That holds unless
what the optional holds leads back to the optional.
-/
namespace ApiAtlas

namespace Registry
variable {registry : Registry} {t inner : Identity}

/-- Wrappings lead from a type to another in some number of steps, or in none. -/
def Reaches (registry : Registry) : Identity → Identity → Prop :=
  Relation.ReflTransGen fun t next => registry.wrapped? t = some next

/-- What an optional holds does not lead back to it. -/
def Departs (registry : Registry) (t : Identity) : Prop :=
  t.isOptional → ∀ inner, t.firstType? = some inner → ¬registry.Reaches inner t

/-- Types that hold whatever one of them wraps hold whatever one of them leads to. -/
theorem Reaches.mem {types : List Identity}
    (closed : ∀ a ∈ types, ∀ b, registry.wrapped? a = some b → b ∈ types) {a b : Identity}
    (h : registry.Reaches a b) (ha : a ∈ types) : b ∈ types := by
  induction h with
  | refl => exact ha
  | tail _ step ih => exact closed _ ih _ step

/-- A type that never comes up again may be forgotten. -/
theorem follow_forget (steps : Nat) (met : List Identity) {s : Identity}
    (h : ¬registry.Reaches s t) :
    registry.follow steps (met ++ [t]) s = registry.follow steps met s := by
  induction steps generalizing met s with
  | zero => rfl
  | succ steps ih =>
      unfold follow
      cases hw : registry.wrapped? s with
      | none => rfl
      | some next =>
          have later : ¬registry.Reaches next t := fun back => h (back.head hw)
          have fresh : next ≠ t := fun same => later (same ▸ .refl)
          have known : next ∈ s :: (met ++ [t]) ↔ next ∈ s :: met := by simp [fresh]
          simp only [known]
          split
          · rfl
          · exact ih (s :: met) later

theorem wrappingBound_of_firstType? (h : t.firstType? = some inner) :
    registry.wrappingBound t = registry.wrappingBound inner + 1 := by
  obtain ⟨module, parent, name, parameters, style⟩ := t
  have chain : Identity.chainLength ⟨module, parent, name, parameters, style⟩ =
      inner.chainLength + 1 := by
    unfold Identity.firstType? at h
    split at h
    · next first rest same =>
      obtain rfl := Option.some.inj h
      obtain rfl : parameters = .type first :: rest := same
      rfl
    · cases h
  unfold wrappingBound
  rw [chain]
  induction registry with
  | nil => rfl
  | cons entry rest ih => rw [List.foldr_cons, List.foldr_cons, ih, Nat.add_assoc]

/-- Removing an optional layer first does not change where wrappings lead. -/
theorem leafType_stripOptional (h : registry.Departs t) :
    registry.leafType t.stripOptional = registry.leafType t := by
  unfold Identity.stripOptional
  split
  · next optional =>
    cases hi : t.firstType? with
    | none => rfl
    | some inner =>
        have away := h optional inner hi
        have wraps : registry.wrapped? t = some inner := by
          simp [wrapped?, Identity.isTransparent, optional, hi]
        have other : inner ≠ t := fun same => away (same ▸ .refl)
        show registry.leafType inner = registry.leafType t
        unfold leafType
        rw [wrappingBound_of_firstType? hi, follow, wraps]
        simp only [List.mem_singleton, other, if_false]
        exact (follow_forget _ [] away).symm
  · rfl

end Registry

namespace Shape

mutual

/-- What is below a node is below whatever the node is below. -/
theorem mem_nodes_trans {a b : Shape} : (s : Shape) → a ∈ s.nodes → b ∈ a.nodes → b ∈ s.nodes
  | ⟨_, body⟩, ha, hb => by
      rcases List.mem_cons.mp ha with rfl | below
      · exact hb
      · exact List.mem_cons_of_mem _ (mem_nodesBelow_trans body below hb)

theorem mem_nodesBelow_trans {a b : Shape} : (body : ShapeBody) → a ∈ nodesBelow body →
    b ∈ a.nodes → b ∈ nodesBelow body
  | .plain, ha, _ => absurd ha List.not_mem_nil
  | .cases _, ha, _ => absurd ha List.not_mem_nil
  | .fields fields, ha, hb => mem_nodesOfFields_trans fields ha hb

theorem mem_nodesOfFields_trans {a b : Shape} : (fields : List (String × Shape)) →
    a ∈ nodesOfFields fields → b ∈ a.nodes → b ∈ nodesOfFields fields
  | [], ha, _ => absurd ha List.not_mem_nil
  | (_, child) :: rest, ha, hb => by
      rcases List.mem_append.mp ha with first | later
      · exact List.mem_append_left _ (mem_nodes_trans child first hb)
      · exact List.mem_append_right _ (mem_nodesOfFields_trans rest later hb)

end

theorem nodes_eq (s : Shape) : s.nodes = s :: nodesBelow s.body := by
  obtain ⟨type, body⟩ := s
  rfl

theorem mem_nodes_self (s : Shape) : s ∈ s.nodes := nodes_eq s ▸ List.mem_cons_self

theorem mem_nodesOfFields {fields : List (String × Shape)} {entry : String × Shape}
    (h : entry ∈ fields) : entry.2 ∈ nodesOfFields fields := by
  induction fields with
  | nil => cases h
  | cons first rest ih =>
      rcases List.mem_cons.mp h with rfl | later
      · exact List.mem_append_left _ (mem_nodes_self _)
      · exact List.mem_append_right _ (ih later)

/-- The nodes of a shape are closed under fields. -/
theorem mem_nodes_of_field {s node : Shape} (h : node ∈ s.nodes)
    {fields : List (String × Shape)} (body : node.body = .fields fields) {entry : String × Shape}
    (member : entry ∈ fields) : entry.2 ∈ s.nodes := by
  refine mem_nodes_trans s h ?_
  obtain ⟨type, _⟩ := node
  obtain rfl : _ = ShapeBody.fields fields := body
  exact List.mem_cons_of_mem _ (mem_nodesOfFields member)

end Shape

namespace Object
variable {objects : List Object} {object other : Object}

theorem mem_of_mem_list (h : other ∈ list objects object) : other ∈ objects ∨ other = object := by
  unfold list at h
  split at h
  · exact .inl h
  · simpa using h

theorem prefix_list (objects : List Object) (object : Object) :
    objects <+: list objects object := by
  unfold list
  split
  · exact List.prefix_refl _
  · exact List.prefix_append _ _

/-- An object that is passed over has an object of its type among those listed. -/
theorem type_mem_list (objects : List Object) (object : Object) :
    object.type ∈ (list objects object).map Object.type := by
  unfold list
  split
  · next covered =>
    obtain ⟨listed, member, alike⟩ := List.any_eq_true.mp covered
    have same : listed.type = object.type := by
      simp only [Bool.or_eq_true, Bool.and_eq_true, decide_eq_true_eq] at alike
      exact alike.elim (congrArg Object.type) And.left
    exact same ▸ List.mem_map_of_mem member
  · simp

theorem mem_of_mem_foldl {all : List Object} (h : other ∈ all.foldl list objects) :
    other ∈ objects ∨ other ∈ all := by
  induction all generalizing objects with
  | nil => exact .inl h
  | cons object rest ih =>
      rcases ih h with before | later
      · rcases mem_of_mem_list before with known | rfl
        · exact .inl known
        · exact .inr List.mem_cons_self
      · exact .inr (List.mem_cons_of_mem _ later)

theorem prefix_foldl (all objects : List Object) : objects <+: all.foldl list objects := by
  induction all generalizing objects with
  | nil => exact List.prefix_refl _
  | cons object rest ih => exact (prefix_list objects object).trans (ih _)

theorem type_mem_foldl {all : List Object} (h : object ∈ all) (objects : List Object) :
    object.type ∈ (all.foldl list objects).map Object.type := by
  induction all generalizing objects with
  | nil => cases h
  | cons first rest ih =>
      rcases List.mem_cons.mp h with rfl | later
      · exact ((prefix_foldl rest _).map Object.type).subset (type_mem_list objects object)
      · exact ih later _

section
variable {registry : Registry} {shape node : Shape}

/-- The objects that are listed are objects of nodes. -/
theorem exists_node_of_mem (h : object ∈ ofNodes registry shape) :
    ∃ node ∈ shape.nodes, ofShape registry node = object := by
  rcases mem_of_mem_foldl h with none | made
  · cases none
  · exact List.mem_map.mp made

theorem type_mem_ofNodes (h : node ∈ shape.nodes) :
    (ofShape registry node).type ∈ (ofNodes registry shape).map Object.type :=
  type_mem_foldl (List.mem_map_of_mem h) []

theorem head?_ofNodes (registry : Registry) (shape : Shape) :
    (ofNodes registry shape).head? = some (ofShape registry shape) := by
  obtain ⟨rest, listed⟩ :=
    prefix_foldl ((Shape.nodesBelow shape.body).map (ofShape registry)) [ofShape registry shape]
  unfold ofNodes
  rw [Shape.nodes_eq]
  show (List.foldl list [ofShape registry shape] _).head? = _
  rw [← listed]
  rfl

theorem body_eq_fields {fields : List Field} (h : (ofShape registry node).body = .fields fields) :
    ∃ nodes, node.body = .fields nodes ∧
      fields = nodes.map fun entry => Field.ofShape registry entry.1 entry.2 := by
  obtain ⟨type, body⟩ := node
  cases body with
  | plain => cases h
  | cases list => cases h
  | fields nodes => exact ⟨nodes, rfl, (Body.fields.inj h).symm⟩

theorem type_ofShape (name : String) (h : registry.Departs node.type.identity) :
    (Field.ofShape registry name node).type = (ofShape registry node).type :=
  congrArg (DocumentedType.of registry) (Registry.leafType_stripOptional h)

end

/-- A field of a listed object names the type of a listed object, unless what an optional holds
leads back to the optional. Every node has its type listed, and the root is listed first. -/
theorem field_types_listed {registry : Registry} {shape : Shape}
    (h : ∀ node ∈ shape.nodes, ∀ fields, node.body = .fields fields → ∀ entry ∈ fields,
      registry.Departs entry.2.type.identity) :
    (∀ object ∈ ofNodes registry shape, ∀ fields, object.body = .fields fields →
      ∀ field ∈ fields, ∃ listed ∈ ofNodes registry shape, listed.type = field.type) ∧
    (∀ node ∈ shape.nodes, ∃ listed ∈ ofNodes registry shape,
      listed.type = .of registry (registry.leafType node.type.identity)) ∧
    (ofNodes registry shape).head? = some (ofShape registry shape) := by
  refine ⟨fun object member fields body field named => ?_, fun node member => ?_,
    head?_ofNodes registry shape⟩
  · obtain ⟨node, below, rfl⟩ := exists_node_of_mem member
    obtain ⟨nodes, inside, rfl⟩ := body_eq_fields body
    obtain ⟨entry, child, rfl⟩ := List.mem_map.mp named
    rw [type_ofShape entry.1 (h node below nodes inside entry child)]
    exact List.mem_map.mp (type_mem_ofNodes (Shape.mem_nodes_of_field below inside child))
  · exact List.mem_map.mp (type_mem_ofNodes member)

namespace Loops

/-- A type that is registered as a wrapper of itself. -/
def selfish : Identity := .coloned "api::model" "Selfish" []

/-- Two types that are registered as wrappers of each other. -/
def ping : Identity := .coloned "api::model" "Ping" []
def pong : Identity := .coloned "api::model" "Pong" []

def registry : Registry :=
  (((Registry.wrap [] selfish selfish).wrap ping pong).wrap pong ping).name selfish "itself"

/-- A record with fields of optional types that wrap in circles. -/
def shape : Shape :=
  ⟨⟨"api::model::Mirror"⟩, .fields [
    ("a", .leaf ⟨"core::option::Option<api::model::Selfish>"⟩),
    ("b", .leaf ⟨"core::option::Option<api::model::Ping>"⟩)]⟩

theorem departs_of_held {t inner : Identity} (h : t.firstType? = some inner)
    (known : inner ∈ [selfish, ping, pong]) (other : t ∉ [selfish, ping, pong]) :
    registry.Departs t := by
  intro _ held same back
  obtain rfl := Option.some.inj (h.symm.trans same)
  have closed : ∀ a ∈ [selfish, ping, pong], ∀ b, registry.wrapped? a = some b →
      b ∈ [selfish, ping, pong] := by decide +kernel
  exact other (back.mem closed known)

theorem departs_of_node : ∀ node ∈ shape.nodes, ∀ fields, node.body = .fields fields →
    ∀ entry ∈ fields, registry.Departs entry.2.type.identity := by
  intro node member fields body entry named
  rcases List.mem_cons.mp member with rfl | below
  · obtain rfl := ShapeBody.fields.inj body
    rcases List.mem_cons.mp named with rfl | named
    · exact departs_of_held (show _ = some selfish by decide +kernel) (by simp) (by decide +kernel)
    · obtain rfl := List.mem_singleton.mp named
      exact departs_of_held (show _ = some ping by decide +kernel) (by simp) (by decide +kernel)
  · rcases List.mem_cons.mp below with rfl | last
    · cases body
    · obtain rfl := List.mem_singleton.mp last
      cases body

theorem field_types_listed_circles :
    (∀ node ∈ shape.nodes, ∀ fields, node.body = .fields fields → ∀ entry ∈ fields,
      registry.Departs entry.2.type.identity) ∧
    ∀ object ∈ ofNodes registry shape, ∀ fields, object.body = .fields fields →
      ∀ field ∈ fields, ∃ listed ∈ ofNodes registry shape, listed.type = field.type :=
  ⟨departs_of_node, (field_types_listed departs_of_node).1⟩

end Loops
end Object
end ApiAtlas
