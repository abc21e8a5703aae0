import ApiAtlas.Proofs.Listing
import ApiAtlas.Proofs.RoundTrip
import ApiAtlas.Proofs.Tree
import Mathlib.Data.List.Nodup
import Mathlib.Data.List.Induction
import Mathlib.Tactic.SplitIfs

/-!
# Objects in the order of their places

The objects of a shape are those of the nodes in the order of their places, with the names of
fields compared by their bytes. One is left out if an equal one comes earlier, or if it has no body
and one of its type comes earlier. The list is built by comparing with what is listed so far and not
with all that came earlier; the two agree because an object with a body is left out only for an
equal one, and one without a body for any of its type.
-/
namespace ApiAtlas

/-! Names are kept in the order of their characters, which is that of their bytes. -/

/-- The bytes of a name. -/
def nameBytes (name : String) : List UInt8 := name.toUTF8.data.toList

theorem nameBytes_eq (name : String) :
    nameBytes name = name.toList.flatMap String.utf8EncodeChar := by
  have encoded := String.utf8Encode_toList (b := name)
  rw [nameBytes, String.toUTF8, ← encoded, List.utf8Encode]
  simp

theorem digit_lt {v w : Nat} (h : v < w) :
    v / 64 < w / 64 ∨ v / 64 = w / 64 ∧ v % 64 < w % 64 := by omega

/-- Of two numbers, the first digits to base 64 that differ decide which is smaller. -/
theorem digits_lt {v w : Nat} (h : v < w) :
    v / 262144 < w / 262144 ∨ v / 262144 = w / 262144 ∧
      (v / 4096 % 64 < w / 4096 % 64 ∨ v / 4096 % 64 = w / 4096 % 64 ∧
        (v / 64 % 64 < w / 64 % 64 ∨ v / 64 % 64 = w / 64 % 64 ∧ v % 64 < w % 64)) := by
  have two (n : Nat) : n / 64 / 64 = n / 4096 := Nat.div_div_eq_div_mul n 64 64
  have three (n : Nat) : n / 4096 / 64 = n / 262144 := Nat.div_div_eq_div_mul n 4096 64
  rcases digit_lt h with low | ⟨same, last⟩
  · rcases digit_lt low with high | ⟨same, third⟩
    · rw [two, two] at high
      rcases digit_lt high with first | ⟨same, second⟩
      · exact .inl (by rwa [three, three] at first)
      · exact .inr ⟨by rwa [three, three] at same, .inl second⟩
    · rw [two, two] at same
      exact .inr ⟨by rw [← three, same, three], .inr ⟨by rw [same], .inl third⟩⟩
  · have high : v / 4096 = w / 4096 := by rw [← two, same, two]
    exact .inr ⟨by rw [← three, high, three], .inr ⟨by rw [high], .inr ⟨by rw [same], last⟩⟩⟩

theorem cons_lt_cons_ofNat {a b : Nat} (ha : a < 256) (hb : b < 256) (xs ys : List UInt8) :
    UInt8.ofNat a :: xs < UInt8.ofNat b :: ys ↔ a < b ∨ a = b ∧ xs < ys := by
  rw [List.cons_lt_cons_iff, UInt8.lt_iff_toNat_lt, ← UInt8.toNat_inj]
  simp only [UInt8.toNat_ofNat', Nat.mod_eq_of_lt ha, Nat.mod_eq_of_lt hb]

/-- A smaller character has smaller bytes, whatever follows. -/
theorem utf8EncodeChar_lt {c d : Char} (h : c < d) (xs ys : List UInt8) :
    String.utf8EncodeChar c ++ xs < String.utf8EncodeChar d ++ ys := by
  have less : c.val.toNat < d.val.toNat := h
  have bound : d.val.toNat < 1114112 := by
    rcases d.valid with low | high <;> omega
  have short {n : Nat} (h : n < 1114112) : n / 262144 % 8 = n / 262144 := by omega
  have first := short (Nat.lt_trans less bound)
  have first' := short bound
  have digits := digits_lt less
  unfold String.utf8EncodeChar
  dsimp only
  generalize c.val.toNat = v at *
  generalize d.val.toNat = w at *
  -- a character of fewer bytes starts with a smaller one, of as many its digits decide
  split_ifs <;> simp (disch := omega) only [List.cons_append, List.nil_append, cons_lt_cons_ofNat]
  all_goals omega

theorem nameBytes_lt {a b : String} (h : a < b) : nameBytes a < nameBytes b := by
  have chars : a.toList < b.toList := h
  rw [nameBytes_eq, nameBytes_eq]
  generalize a.toList = left at chars
  generalize b.toList = right at chars
  induction right generalizing left with
  | nil => exact absurd chars (List.not_lt_nil _)
  | cons d ds ih =>
      cases left with
      | nil =>
          obtain ⟨byte, bytes, encoded⟩ :=
            List.exists_cons_of_ne_nil (String.utf8EncodeChar_ne_nil (c := d))
          rw [List.flatMap_cons, encoded]
          exact List.nil_lt_cons _ _
      | cons c cs =>
          rw [List.flatMap_cons, List.flatMap_cons]
          rcases List.cons_lt_cons_iff.mp chars with less | ⟨rfl, rest⟩
          · exact utf8EncodeChar_lt less _ _
          · exact List.append_left_lt (ih _ rest)

namespace Shape

/-- The fields of every node are ascending by name. -/
def Ordered (s : Shape) : Prop :=
  ∀ node ∈ s.nodes, ∀ fields ∈ node.fields?, Table.Ascending fields

instance (s : Shape) : Decidable s.Ordered :=
  inferInstanceAs (Decidable (∀ node ∈ s.nodes, ∀ fields ∈ node.fields?, Table.Ascending fields))

/-- A place is before those below it; otherwise the names at which two places part decide. -/
def Before : List String → List String → Prop :=
  List.Lex fun a b => nameBytes a < nameBytes b

mutual

/-- The places of the nodes, every place before those below it. -/
def places : Shape → List (List String)
  | ⟨_, body⟩ => [] :: placesBelow body

/-- The places below a node. -/
def placesBelow : ShapeBody → List (List String)
  | .plain => []
  | .cases _ => []
  | .fields fields => placesOfFields fields

/-- The places in fields. -/
def placesOfFields : List (String × Shape) → List (List String)
  | [] => []
  | (name, child) :: rest => (places child).map (name :: ·) ++ placesOfFields rest

end

variable {s : Shape}

theorem Ordered.of_mem (h : s.Ordered) {node : Shape} (member : node ∈ s.nodes) : node.Ordered :=
  fun below inside => h below (mem_nodes_trans s member inside)

theorem Ordered.ascending {type : TypeRef} {fields : List (String × Shape)}
    (h : Ordered ⟨type, .fields fields⟩) : Table.Ascending fields :=
  h _ (mem_nodes_self _) fields rfl

theorem Ordered.child {type : TypeRef} {fields : List (String × Shape)}
    (h : Ordered ⟨type, .fields fields⟩) {entry : String × Shape} (member : entry ∈ fields) :
    entry.2.Ordered :=
  h.of_mem (mem_nodes_of_field (mem_nodes_self _) rfl member)

/-! Reading the places one after the other reads the nodes one after the other. -/

mutual

theorem map_at?_places : (s : Shape) → s.Ordered → s.places.map s.at? = s.nodes.map some
  | ⟨type, .plain⟩, _ => rfl
  | ⟨type, .cases _⟩, _ => rfl
  | ⟨type, .fields fields⟩, h => by
      have below := map_at?_placesOfFields type fields fields
        (fun _ member => Table.get?_of_mem h.ascending.nodup member) fun _ member => h.child member
      show _ :: (placesOfFields fields).map _ = _ :: (nodesOfFields fields).map some
      rw [below]
      rfl

theorem map_at?_placesOfFields (type : TypeRef) (all : List (String × Shape)) :
    (fields : List (String × Shape)) →
    (∀ entry ∈ fields, Table.get? all entry.1 = some entry.2) →
    (∀ entry ∈ fields, entry.2.Ordered) →
    (placesOfFields fields).map (at? ⟨type, .fields all⟩) = (nodesOfFields fields).map some
  | [], _, _ => rfl
  | (name, child) :: rest, filed, ordered => by
      have first : ((places child).map (name :: ·)).map (at? ⟨type, .fields all⟩) =
          child.nodes.map some := by
        rw [← map_at?_places child (ordered _ List.mem_cons_self), List.map_map]
        exact List.map_congr_left fun path _ => at?_cons type (filed _ List.mem_cons_self) path
      have later := map_at?_placesOfFields type all rest
        (fun entry member => filed entry (List.mem_cons_of_mem _ member))
        fun entry member => ordered entry (List.mem_cons_of_mem _ member)
      show List.map _ (_ ++ placesOfFields rest) = List.map some (_ ++ nodesOfFields rest)
      rw [List.map_append, List.map_append, first, later]

end

theorem filterMap_at?_places (h : s.Ordered) : s.places.filterMap s.at? = s.nodes := by
  have read := congrArg (List.filterMap id) (map_at?_places s h)
  simpa [List.filterMap_map] using read

theorem mem_placesOfFields {fields : List (String × Shape)} {path : List String} :
    path ∈ placesOfFields fields ↔
      ∃ entry ∈ fields, ∃ rest ∈ places entry.2, path = entry.1 :: rest := by
  induction fields with
  | nil => simp [placesOfFields]
  | cons entry rest ih =>
      obtain ⟨name, child⟩ := entry
      rw [placesOfFields, List.mem_append, ih]
      simp [eq_comm]

/-- Every place that can be read is among the places. -/
theorem mem_places_of_at? {path : List String} {node : Shape} (h : s.at? path = some node) :
    path ∈ s.places := by
  induction path generalizing s with
  | nil =>
      obtain ⟨type, body⟩ := s
      exact List.mem_cons_self
  | cons key rest ih =>
      obtain ⟨fields, child, same, filed, inside⟩ := at?_cons_some h
      rw [same]
      exact List.mem_cons_of_mem _ <| mem_placesOfFields.mpr
        ⟨_, Table.mem_of_get? filed, rest, ih inside, rfl⟩

theorem mem_places (h : s.Ordered) {path : List String} :
    path ∈ s.places ↔ (s.at? path).isSome := by
  constructor
  · intro member
    have read : s.at? path ∈ s.nodes.map some :=
      map_at?_places s h ▸ List.mem_map_of_mem member
    obtain ⟨node, _, same⟩ := List.mem_map.mp read
    exact Option.isSome_iff_exists.mpr ⟨node, same.symm⟩
  · intro read
    obtain ⟨node, same⟩ := Option.isSome_iff_exists.mp read
    exact mem_places_of_at? same

/-! The places come in the order of their names. -/

mutual

theorem pairwise_places : (s : Shape) → s.Ordered → s.places.Pairwise Before
  | ⟨type, .plain⟩, _ => List.pairwise_singleton _ _
  | ⟨type, .cases _⟩, _ => List.pairwise_singleton _ _
  | ⟨type, .fields fields⟩, h => by
      refine List.pairwise_cons.mpr ⟨fun path member => ?_,
        pairwise_placesOfFields fields h.ascending fun _ member => h.child member⟩
      obtain ⟨entry, _, rest, _, rfl⟩ := mem_placesOfFields.mp member
      exact List.Lex.nil

theorem pairwise_placesOfFields : (fields : List (String × Shape)) → Table.Ascending fields →
    (∀ entry ∈ fields, entry.2.Ordered) → (placesOfFields fields).Pairwise Before
  | [], _, _ => List.Pairwise.nil
  | (name, child) :: rest, ascending, ordered => by
      obtain ⟨below, later⟩ := List.pairwise_cons.mp ascending
      refine List.pairwise_append.mpr ⟨?_, pairwise_placesOfFields rest later fun entry member =>
        ordered entry (List.mem_cons_of_mem _ member), ?_⟩
      · exact List.pairwise_map.mpr <|
          (pairwise_places child (ordered _ List.mem_cons_self)).imp List.Lex.cons
      · intro path first other second
        obtain ⟨_, _, rfl⟩ := List.mem_map.mp first
        obtain ⟨entry, member, _, _, rfl⟩ := mem_placesOfFields.mp second
        exact List.Lex.rel (nameBytes_lt (below entry member))

end

end Shape

namespace Object
variable {all objects : List Object} {object : Object}

/-- Whether an object tells anything after others: none of them equals it, and it has a body or none
of them has its type. -/
def IsNew (before : List Object) (object : Object) : Prop :=
  object ∉ before ∧ (object.body ≠ .empty ∨ object.type ∉ before.map Object.type)

instance (before : List Object) (object : Object) : Decidable (object.IsNew before) :=
  inferInstanceAs (Decidable (_ ∧ _))

/-- The objects that tell anything after all that come before them. -/
def newOnes (all : List Object) : List Object :=
  (all.zipIdx.filter fun (object, i) => object.IsNew (all.take i)).map Prod.fst

theorem mem_list_of_body (body : object.body ≠ .empty) (objects : List Object) :
    object ∈ list objects object := by
  unfold list
  split
  · next covered =>
    obtain ⟨listed, member, alike⟩ := List.any_eq_true.mp covered
    simp only [Bool.or_eq_true, Bool.and_eq_true, decide_eq_true_eq, body, and_false,
      or_false] at alike
    exact alike ▸ member
  · simp

theorem mem_foldl_of_body (body : object.body ≠ .empty) (h : object ∈ all) (objects : List Object) :
    object ∈ all.foldl list objects := by
  induction all generalizing objects with
  | nil => cases h
  | cons first rest ih =>
      rcases List.mem_cons.mp h with rfl | later
      · exact (prefix_foldl rest _).subset (mem_list_of_body body objects)
      · exact ih later _

/-- What is listed covers an object if and only if what came before does. -/
theorem isCovered_foldl (all : List Object) (object : Object) :
    object.isCovered (all.foldl list []) ↔ ¬object.IsNew all := by
  rw [isCovered, List.any_eq_true, IsNew]
  constructor
  · rintro ⟨listed, member, alike⟩ ⟨fresh, told⟩
    have before : listed ∈ all := (mem_of_mem_foldl member).resolve_left List.not_mem_nil
    simp only [Bool.or_eq_true, Bool.and_eq_true, decide_eq_true_eq] at alike
    rcases alike with rfl | ⟨same, empty⟩
    · exact fresh before
    · exact told.elim (· empty) (· (same ▸ List.mem_map_of_mem before))
  · intro old
    by_cases empty : object.body = .empty
    · have known : object.type ∈ all.map Object.type := by
        by_contra fresh
        exact old ⟨fun member => fresh (List.mem_map_of_mem member), .inr fresh⟩
      obtain ⟨before, member, same⟩ := List.mem_map.mp known
      obtain ⟨listed, inside, type⟩ := List.mem_map.mp (type_mem_foldl member [])
      exact ⟨listed, inside, by simp [type.trans same, empty]⟩
    · have member : object ∈ all := by
        by_contra fresh
        exact old ⟨fresh, .inl empty⟩
      exact ⟨object, mem_foldl_of_body empty member [], by simp⟩

theorem newOnes_concat (all : List Object) (object : Object) :
    newOnes (all ++ [object]) = newOnes all ++ if object.IsNew all then [object] else [] := by
  have earlier : (all.zipIdx.filter fun (other, i) => other.IsNew ((all ++ [object]).take i)) =
      all.zipIdx.filter fun (other, i) => other.IsNew (all.take i) := by
    refine List.filter_congr fun (other, i) member => ?_
    have inside : i < all.length := List.snd_lt_of_mem_zipIdx member
    simp only [List.take_append_of_le_length (Nat.le_of_lt inside)]
  unfold newOnes
  rw [List.zipIdx_append, List.filter_append, List.map_append, earlier]
  by_cases new : object.IsNew all <;> simp [new]

/-- Listing objects one after the other keeps those that tell anything new. -/
theorem foldl_list (all : List Object) : all.foldl list [] = newOnes all := by
  induction all using List.reverseRecOn with
  | nil => rfl
  | append_singleton before object ih =>
      rw [List.foldl_concat, newOnes_concat, ← ih, list]
      by_cases new : object.IsNew before
      · have open_ : ¬object.isCovered (before.foldl list []) := fun covered =>
          (isCovered_foldl before object).mp covered new
        rw [if_neg open_, if_pos new]
      · rw [if_pos ((isCovered_foldl before object).mpr new), if_neg new, List.append_nil]

theorem nodup_list (h : objects.Nodup) (object : Object) : (list objects object).Nodup := by
  unfold list
  split
  · exact h
  · next fresh =>
    have absent : object ∉ objects := fun member =>
      fresh (List.any_eq_true.mpr ⟨object, member, by simp⟩)
    simpa using h.concat absent

theorem nodup_foldl (h : objects.Nodup) : (all.foldl list objects).Nodup := by
  induction all generalizing objects with
  | nil => exact h
  | cons object rest ih => exact ih (nodup_list h object)

/-- The objects of the nodes of a shape, in the order of their places. -/
def inOrder (registry : Registry) (shape : Shape) : List Object :=
  (shape.places.filterMap shape.at?).map (ofShape registry)

/-- The objects of a shape are, of the objects of its nodes in the order of their places, those that
tell anything new: none is listed twice, and each that has a body is listed. -/
theorem ofNodes_preorder {registry : Registry} {shape : Shape} (h : shape.Ordered) :
    shape.places.Pairwise Shape.Before ∧
    (∀ path, path ∈ shape.places ↔ (shape.at? path).isSome) ∧
    ofNodes registry shape = newOnes (inOrder registry shape) ∧
    (ofNodes registry shape).Nodup ∧
    ∀ object ∈ inOrder registry shape, object.body ≠ .empty → object ∈ ofNodes registry shape := by
  have read : inOrder registry shape = shape.nodes.map (ofShape registry) := by
    rw [inOrder, Shape.filterMap_at?_places h]
  rw [read]
  exact ⟨Shape.pairwise_places shape h, fun _ => Shape.mem_places h, foldl_list _,
    nodup_foldl List.nodup_nil, fun object member body => mem_foldl_of_body body member []⟩

/-- A record that holds its own type, once bare and once behind an optional with fields, and a type
twice, once under a name of more bytes than characters. -/
def mirror : Shape :=
  ⟨⟨"api::Node"⟩, .fields [("a", .leaf ⟨"api::Node"⟩),
    ("b", ⟨⟨"core::option::Option<api::Node>"⟩, .fields [("é", .leaf ⟨"u8"⟩)]⟩),
    ("c", .leaf ⟨"u8"⟩)]⟩

theorem ofNodes_preorder_mirror :
    mirror.Ordered ∧ mirror.places.length = 5 ∧
    ofNodes [] mirror = newOnes (inOrder [] mirror) ∧ (ofNodes [] mirror).length = 3 := by
  have ordered : mirror.Ordered := by decide +kernel
  exact ⟨ordered, by decide +kernel, (ofNodes_preorder ordered).2.2.1, by decide +kernel⟩

end Object
end ApiAtlas
