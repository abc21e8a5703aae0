import ApiAtlas.Proofs.RoundTrip
import Mathlib.Data.List.Nodup
import Mathlib.Data.List.Perm.Subperm

/-!
# Elements that are told once

A node whose fields are the elements of a sequence, all of one shape, is told by that shape and
their number. The number of fields is compared with the number of elements, and each element is
looked up under its numeral. Different elements have different numerals, so as many fields as
elements leave room for no other key: a node is compressed exactly if it holds the elements and
nothing else, and then its fields are found again. Any other node stays as it is.
-/
namespace ApiAtlas

open Decimal (numeral numeral_inj)

/-! ## Numerals as keys -/

/-- The keys of so many elements, in their own order. -/
def numerals (count : Nat) : List String := (List.range count).map numeral

theorem nodup_numerals (count : Nat) : (numerals count).Nodup :=
  List.nodup_range.map fun _ _ same => numeral_inj same

@[simp] theorem length_numerals (count : Nat) : (numerals count).length = count := by
  rw [numerals, List.length_map, List.length_range]

theorem mem_numerals {count : Nat} {key : String} :
    key ∈ numerals count ↔ ∃ i < count, key = numeral i := by
  simp only [numerals, List.mem_map, List.mem_range, eq_comm]

/-- As many keys as elements, among which are those of the elements, are no others. -/
theorem perm_numerals {keys : List String} {count : Nat} (many : keys.length = count)
    (all : ∀ i < count, numeral i ∈ keys) : (numerals count).Perm keys := by
  have among : numerals count ⊆ keys := by
    intro key member
    obtain ⟨i, below, rfl⟩ := mem_numerals.mp member
    exact all i below
  refine (List.subperm_of_subset (nodup_numerals count) among).perm_of_length_le ?_
  exact Nat.le_of_eq (many.trans (length_numerals count).symm)

namespace Table
variable {α : Type}

/-- Ascending tables with the same entries are the same. -/
theorem Ascending.eq_of_mem {a b : List (String × α)} (ha : Ascending a) (hb : Ascending b)
    (same : ∀ entry, entry ∈ a ↔ entry ∈ b) : a = b := by
  have perm : a.Perm b :=
    (List.perm_ext_iff_of_nodup ha.nodup.of_map hb.nodup.of_map).mpr same
  refine perm.eq_of_pairwise (fun x y _ _ less more => ?_) ha hb
  exact absurd more (String.lt_asymm less)

end Table

namespace Shape
variable {s element : Shape} {count : Nat} {fields : List (String × Shape)}

/-- The fields of so many elements of one shape. -/
def elementFields (count : Nat) (element : Shape) : List (String × Shape) :=
  Table.ofList ((numerals count).map fun key => (key, element))

/-- The node in which so many elements stand for the one that tells them. -/
def expand (s : Shape) (count : Nat) : Shape :=
  match s.fields? with
  | some [(_, element)] => { s with body := .fields (elementFields count element) }
  | _ => s

/-- The fields of a node are some elements of one shape, at least one and nothing else. -/
structure Repeats (s : Shape) (count : Nat) (element : Shape) : Prop where
  positive : 0 < count
  fields : ∃ fields, s.fields? = some fields ∧
    (∀ key, key ∈ Table.keys fields ↔ ∃ i < count, key = numeral i) ∧
    ∀ entry ∈ fields, entry.2 = element

theorem fields?_eq_some : s.fields? = some fields ↔ s = ⟨s.type, .fields fields⟩ := by
  obtain ⟨type, body⟩ := s
  cases body <;> simp [fields?]

theorem mem_elementFields {entry : String × Shape} :
    entry ∈ elementFields count element ↔
      (∃ i < count, entry.1 = numeral i) ∧ entry.2 = element := by
  have keys : (Table.keys ((numerals count).map fun key => (key, element))).Nodup := by
    rw [Table.keys, List.map_map]
    exact (List.map_id _).symm ▸ nodup_numerals count
  obtain ⟨key, held⟩ := entry
  constructor
  · intro member
    obtain ⟨name, known, same⟩ := List.mem_map.mp (Table.mem_ofList member)
    obtain ⟨rfl, rfl⟩ := Prod.mk.inj same
    exact ⟨mem_numerals.mp known, rfl⟩
  · rintro ⟨known, rfl⟩
    exact Table.mem_of_get? (Table.get?_ofList keys
      (List.mem_map.mpr ⟨key, mem_numerals.mpr known, rfl⟩))

/-! ## When a node is compressed -/

/-- A node is compressed if it has as many fields as elements, and each of these looks alike. -/
theorem compress?_fields {type : TypeRef} {t : Shape} :
    compress? ⟨type, .fields fields⟩ count = some t ↔ 0 < count ∧ fields.length = count ∧
      ∃ element, (∀ i < count, Table.get? fields (numeral i) = some element) ∧
        t = ⟨type, .fields [(elementsKey, element)]⟩ := by
  unfold compress?
  dsimp only
  split
  · next no =>
      constructor
      · nofun
      · rintro ⟨positive, many, -⟩
        simp [many] at no
        omega
  · next yes =>
      simp only [ne_eq, Bool.or_eq_true, decide_eq_true_eq, not_or, not_not] at yes
      obtain ⟨some, many⟩ := yes
      have positive : 0 < count := Nat.pos_of_ne_zero some
      split
      · next missing =>
          constructor
          · nofun
          · rintro ⟨-, -, element, found, -⟩
            cases missing.symm.trans (found 0 positive)
      · next first known =>
          simp only [List.all_eq_true, List.mem_range, decide_eq_true_eq,
            Option.ite_none_right_eq_some, Option.some.injEq]
          constructor
          · rintro ⟨alike, rfl⟩
            exact ⟨positive, many, first, alike, rfl⟩
          · rintro ⟨-, -, element, found, rfl⟩
            obtain rfl := Option.some.inj (known.symm.trans (found 0 positive))
            exact ⟨found, rfl⟩

/-- It is the same to look up each element, and to know all keys and what all fields hold. -/
theorem repeats_iff {type : TypeRef} (ascending : Table.Ascending fields) :
    Repeats ⟨type, .fields fields⟩ count element ↔ 0 < count ∧ fields.length = count ∧
      ∀ i < count, Table.get? fields (numeral i) = some element := by
  have nodup := ascending.nodup
  have length : (Table.keys fields).length = fields.length := List.length_map _
  constructor
  · rintro ⟨positive, own, same, keys, alike⟩
    obtain rfl := Option.some.inj same
    refine ⟨positive, ?_, fun i below => ?_⟩
    · have perm : (Table.keys fields).Perm (numerals count) :=
        (List.perm_ext_iff_of_nodup nodup (nodup_numerals count)).mpr fun key =>
          (keys key).trans mem_numerals.symm
      rw [← length, perm.length_eq, length_numerals]
    · obtain ⟨⟨key, held⟩, member, rfl⟩ := List.mem_map.mp ((keys (numeral i)).mpr ⟨i, below, rfl⟩)
      obtain rfl := alike _ member
      exact Table.get?_of_mem nodup member
  · rintro ⟨positive, many, found⟩
    have perm := perm_numerals (length.trans many) fun i below =>
      List.mem_map_of_mem (f := Prod.fst) (Table.mem_of_get? (found i below))
    have keys (key : String) : key ∈ Table.keys fields ↔ ∃ i < count, key = numeral i :=
      perm.mem_iff.symm.trans mem_numerals
    refine ⟨positive, fields, rfl, keys, fun entry member => ?_⟩
    obtain ⟨i, below, key⟩ := (keys entry.1).mp (List.mem_map_of_mem member)
    have own : Table.get? fields entry.1 = some entry.2 := Table.get?_of_mem nodup member
    rw [key] at own
    exact Option.some.inj (own.symm.trans (found i below))

theorem compress?_eq_some (ascending : ∀ fields ∈ s.fields?, Table.Ascending fields) {t : Shape} :
    s.compress? count = some t ↔
      ∃ element, s.Repeats count element ∧ t = ⟨s.type, .fields [(elementsKey, element)]⟩ := by
  obtain ⟨type, body⟩ := s
  cases body with
  | plain => exact ⟨nofun, fun ⟨_, ⟨_, _, missing, _⟩, _⟩ => nomatch missing⟩
  | cases cases => exact ⟨nofun, fun ⟨_, ⟨_, _, missing, _⟩, _⟩ => nomatch missing⟩
  | fields fields =>
      rw [compress?_fields]
      simp only [repeats_iff (ascending fields rfl)]
      constructor
      · rintro ⟨positive, many, element, found, same⟩
        exact ⟨element, ⟨positive, many, found⟩, same⟩
      · rintro ⟨element, ⟨positive, many, found⟩, same⟩
        exact ⟨positive, many, element, found, same⟩

/-- A node has one number of elements at most. -/
theorem Repeats.count_eq (ascending : ∀ fields ∈ s.fields?, Table.Ascending fields)
    {other : Nat} {last : Shape} (h : s.Repeats count element) (h' : s.Repeats other last) :
    count = other := by
  obtain ⟨-, fields, own, -⟩ := id h
  rw [fields?_eq_some.mp own, repeats_iff (ascending fields own)] at h h'
  exact h.2.1.symm.trans h'.2.1

theorem repeats_elementFields {type : TypeRef} (positive : 0 < count) :
    Repeats ⟨type, .fields (elementFields count element)⟩ count element := by
  refine ⟨positive, _, rfl, fun key => ?_, fun entry member => (mem_elementFields.mp member).2⟩
  constructor
  · intro known
    obtain ⟨entry, member, rfl⟩ := List.mem_map.mp known
    exact (mem_elementFields.mp member).1
  · intro known
    exact List.mem_map.mpr ⟨(key, element), mem_elementFields.mpr ⟨known, rfl⟩, rfl⟩

/-! ## What is lost -/

/-- The fields of the elements are found again. -/
theorem Repeats.expand (ascending : ∀ fields ∈ s.fields?, Table.Ascending fields)
    (h : s.Repeats count element) :
    Shape.expand ⟨s.type, .fields [(elementsKey, element)]⟩ count = s := by
  obtain ⟨-, fields, own, keys, alike⟩ := h
  have found : elementFields count element = fields := by
    refine (Table.ascending_ofList _).eq_of_mem (ascending fields own) fun entry => ?_
    refine mem_elementFields.trans ?_
    rw [← keys]
    constructor
    · rintro ⟨known, held⟩
      obtain ⟨other, member, key⟩ := List.mem_map.mp known
      have entire : other = entry := Prod.ext key ((alike other member).trans held.symm)
      exact entire ▸ member
    · exact fun member => ⟨List.mem_map_of_mem member, alike entry member⟩
  calc Shape.expand ⟨s.type, .fields [(elementsKey, element)]⟩ count
    _ = ⟨s.type, .fields (elementFields count element)⟩ := rfl
    _ = ⟨s.type, .fields fields⟩ := by rw [found]
    _ = s := (fields?_eq_some.mp own).symm

/-- A node is compressed exactly if its fields are the elements from the first to the last, all of
one shape. What is left is one field that holds this shape, from which, with their number, all
fields are found again. Every other node is left as it is. -/
theorem compress_lossless (ascending : ∀ fields ∈ s.fields?, Table.Ascending fields) (count : Nat) :
    ((s.compress? count).isSome ↔ ∃ element, s.Repeats count element) ∧
    (∀ element, s.Repeats count element →
      s.compress count = ⟨s.type, .fields [(elementsKey, element)]⟩ ∧
        (s.compress count).expand count = s) ∧
    ((∀ element, ¬ s.Repeats count element) → s.compress count = s) := by
  refine ⟨?_, fun element repeats => ?_, fun never => ?_⟩
  · rw [Option.isSome_iff_exists]
    constructor
    · rintro ⟨t, done⟩
      obtain ⟨element, repeats, -⟩ := (compress?_eq_some ascending).mp done
      exact ⟨element, repeats⟩
    · rintro ⟨element, repeats⟩
      exact ⟨_, (compress?_eq_some ascending).mpr ⟨element, repeats, rfl⟩⟩
  · have done := (compress?_eq_some ascending).mpr ⟨element, repeats, rfl⟩
    unfold compress
    rw [done]
    exact ⟨rfl, repeats.expand ascending⟩
  · unfold compress
    cases done : s.compress? count with
    | none => rfl
    | some t =>
        obtain ⟨element, repeats, -⟩ := (compress?_eq_some ascending).mp done
        exact absurd repeats (never element)

namespace Bytes

/-- Eleven numbers. The last of them, the element `10`, stands third in the order of the names. -/
def eleven : Shape := ⟨⟨"[u8; 11]"⟩, .fields (elementFields 11 (leaf ⟨"u8"⟩))⟩

/-- They are told once as eleven, and not as ten. -/
theorem compress_lossless_eleven :
    (∀ fields ∈ eleven.fields?, Table.Ascending fields) ∧
      eleven.compress 11 = ⟨⟨"[u8; 11]"⟩, .fields [(elementsKey, leaf ⟨"u8"⟩)]⟩ ∧
      (eleven.compress 11).expand 11 = eleven ∧ eleven.compress 10 = eleven := by
  have ascending : ∀ fields ∈ eleven.fields?, Table.Ascending fields := by
    rintro fields ⟨⟩
    exact Table.ascending_ofList _
  have repeats : eleven.Repeats 11 (leaf ⟨"u8"⟩) := repeats_elementFields (by decide)
  obtain ⟨told, again⟩ := (compress_lossless ascending 11).2.1 _ repeats
  have other (element : Shape) : ¬ eleven.Repeats 10 element := by
    intro ten
    exact absurd (repeats.count_eq ascending ten) (by decide)
  exact ⟨ascending, told, again, (compress_lossless ascending 10).2.2 other⟩

end Bytes
end Shape
end ApiAtlas
