import ApiAtlas.Proofs.RoundTrip
import ApiAtlas.View
import Mathlib.Data.List.Sort
import Mathlib.Data.String.Basic

/-!
# Endpoints by group

A view holds every endpoint once: those of a group in the group, the others apart. What is shown of
a list is fixed by three things: nothing is lost, keys ascend, and endpoints of one key stand as
they were given. Where no two endpoints of a list have one key the third says nothing, and the view
does not depend on the order in which endpoints were given.
-/
namespace ApiAtlas

namespace Table
variable {α : Type}

theorem mem_keys_ofList (entries : List (String × α)) (key : String) :
    key ∈ keys (ofList entries) ↔ key ∈ entries.map Prod.fst := by
  have filed : ∀ table : List (String × α),
      key ∈ keys (entries.foldl (fun table entry => insert table entry.1 entry.2) table) ↔
        key ∈ keys table ∨ key ∈ entries.map Prod.fst := by
    induction entries with
    | nil => simp
    | cons entry rest ih =>
        intro table
        rw [List.foldl_cons, ih, mem_keys_insert, List.map_cons, List.mem_cons, or_assoc,
          or_left_comm]
  have none : key ∉ keys ([] : List (String × α)) := List.not_mem_nil
  exact (filed []).trans (or_iff_right none)

theorem pairwise_keys {table : List (String × α)} (h : Ascending table) :
    (keys table).Pairwise (· < ·) :=
  List.pairwise_map.mpr h

end Table

/-- A list is brought into the order of its keys, and elements of one key stand as they stood. -/
structure StableSort {α κ : Type} [LinearOrder κ] (key : α → κ) (given sorted : List α) :
    Prop where
  perm : sorted.Perm given
  ascending : sorted.Pairwise fun a b => key a ≤ key b
  stable : ∀ k, sorted.filter (key · = k) = given.filter (key · = k)

section
variable {α κ : Type} [LinearOrder κ] {key : α → κ} {given : List α}

theorem stableSort_mergeSort (key : α → κ) (given : List α) :
    StableSort key given (given.mergeSort fun a b => decide (key a ≤ key b)) := by
  have trans (a b c : α) (hab : decide (key a ≤ key b)) (hbc : decide (key b ≤ key c)) :
      decide (key a ≤ key c) :=
    decide_eq_true ((of_decide_eq_true hab).trans (of_decide_eq_true hbc))
  have total (a b : α) : decide (key a ≤ key b) || decide (key b ≤ key a) := by
    simpa using le_total (key a) (key b)
  have perm := List.mergeSort_perm given fun a b => decide (key a ≤ key b)
  refine ⟨perm, ?_, fun k => ?_⟩
  · exact (List.pairwise_mergeSort trans total given).imp of_decide_eq_true
  · -- elements of one key are ascending as they stand, so the sort keeps them in their order
    have level : (given.filter (key · = k)).Pairwise fun a b => decide (key a ≤ key b) := by
      refine List.pairwise_of_forall_mem_list fun a ha b hb => ?_
      have hka : key a = k := by simpa using (List.mem_filter.mp ha).2
      have hkb : key b = k := by simpa using (List.mem_filter.mp hb).2
      simp [hka, hkb]
    have kept := (List.sublist_mergeSort trans total level List.filter_sublist).filter (key · = k)
    rw [List.filter_filter] at kept
    simp only [Bool.and_self] at kept
    exact (kept.eq_of_length (perm.filter _).length_eq.symm).symm

/-- Without two elements of one key the order of the keys is the only one. -/
theorem StableSort.eq_of_perm {given' sorted sorted' : List α} (h : StableSort key given sorted)
    (h' : StableSort key given' sorted') (same : given'.Perm given)
    (distinct : (given.map key).Nodup) : sorted' = sorted := by
  have perm : sorted'.Perm sorted := h'.perm.trans (same.trans h.perm.symm)
  have keys := List.inj_on_of_nodup_map distinct
  refine List.Perm.eq_of_pairwise (fun a b ha hb hab hba => ?_) h'.ascending h.ascending perm
  exact keys ((perm.trans h.perm).subset ha) (h.perm.subset hb) (le_antisymm hab hba)

end

namespace View

section
variable {κ : Type} [LinearOrder κ] (key : Endpoint → κ) (naming : Naming)

/-- The endpoints of a group, or those without one. -/
def members (endpoints : List Endpoint) (group : Option String) : List Endpoint :=
  endpoints.filter fun e => e.groupName = group

/-- Views show endpoints in the order of their keys. -/
def ShowsSorted (endpoints : List Endpoint) (views : List EndpointView) : Prop :=
  ∃ sorted, StableSort key endpoints sorted ∧ views = sorted.map (EndpointView.of naming)

/-- What a view of endpoints has to show. -/
structure Shows (endpoints : List Endpoint) (view : View) : Prop where
  ascending : (view.groups.map GroupView.name).Pairwise (· < ·)
  /-- The groups are those that endpoints name. -/
  named : ∀ name, name ∈ view.groups.map GroupView.name ↔ ∃ e ∈ endpoints, e.groupName = some name
  numbered : view.groups.map GroupView.id = List.range view.groups.length
  occupied : ∀ group ∈ view.groups, group.endpoints ≠ []
  grouped : ∀ group ∈ view.groups,
    ShowsSorted key naming (members endpoints (some group.name)) group.endpoints
  others : ShowsSorted key naming (members endpoints none) view.others

variable {key naming} {endpoints endpoints' : List Endpoint}

theorem showsSorted_sorted (endpoints : List Endpoint) :
    ShowsSorted key naming endpoints (sorted key naming endpoints) :=
  ⟨_, stableSort_mergeSort key endpoints, rfl⟩

theorem sorted_of_perm (same : endpoints'.Perm endpoints) (distinct : (endpoints.map key).Nodup) :
    sorted key naming endpoints' = sorted key naming endpoints :=
  congrArg (List.map (EndpointView.of naming))
    ((stableSort_mergeSort key endpoints).eq_of_perm (stableSort_mergeSort key endpoints') same
      distinct)

theorem sorted_ne_nil {e : Endpoint} (h : e ∈ endpoints) : sorted key naming endpoints ≠ [] := by
  have member : e ∈ endpoints.mergeSort fun a b => decide (key a ≤ key b) :=
    List.mem_mergeSort.mpr h
  exact List.ne_nil_of_mem (List.mem_map_of_mem member)

theorem mem_groupNames {name : String} :
    name ∈ groupNames endpoints ↔ ∃ e ∈ endpoints, e.groupName = some name := by
  unfold groupNames
  rw [Table.mem_keys_ofList, List.map_map, show Prod.fst ∘ (fun name : String => (name, ())) = id
    from rfl, List.map_id, List.mem_filterMap]

theorem pairwise_groupNames (endpoints : List Endpoint) :
    (groupNames endpoints).Pairwise (· < ·) :=
  Table.pairwise_keys (Table.ascending_ofList _)

theorem groupNames_of_perm (same : endpoints'.Perm endpoints) :
    groupNames endpoints' = groupNames endpoints := by
  refine (pairwise_groupNames _).eq_of_mem_iff (pairwise_groupNames _) fun name => ?_
  simp only [mem_groupNames, same.mem_iff]

theorem names_build (endpoints : List Endpoint) :
    (build key naming endpoints).groups.map GroupView.name = groupNames endpoints := by
  show ((groupNames endpoints).zipIdx.map _).map _ = _
  rw [List.map_map]
  exact List.zipIdx_map_fst 0 _

theorem ids_build (endpoints : List Endpoint) :
    (build key naming endpoints).groups.map GroupView.id =
      List.range (build key naming endpoints).groups.length := by
  show ((groupNames endpoints).zipIdx.map _).map _ = List.range (List.map _ _).length
  rw [List.map_map, List.length_map, List.length_zipIdx, List.range_eq_range']
  exact List.zipIdx_map_snd 0 _

theorem endpoints_build {group : GroupView} (h : group ∈ (build key naming endpoints).groups) :
    group.endpoints = sorted key naming (members endpoints (some group.name)) := by
  obtain ⟨_, -, rfl⟩ := List.mem_map.mp h
  rfl

theorem shows_build (key : Endpoint → κ) (naming : Naming) (endpoints : List Endpoint) :
    Shows key naming endpoints (build key naming endpoints) where
  ascending := by
    rw [names_build]
    exact pairwise_groupNames endpoints
  named name := by
    rw [names_build]
    exact mem_groupNames
  numbered := ids_build endpoints
  occupied group h := by
    have name : group.name ∈ (build key naming endpoints).groups.map GroupView.name :=
      List.mem_map_of_mem h
    rw [names_build] at name
    obtain ⟨e, member, named⟩ := mem_groupNames.mp name
    rw [endpoints_build h]
    exact sorted_ne_nil (List.mem_filter.mpr ⟨member, by simpa using named⟩)
  grouped group h := by
    rw [endpoints_build h]
    exact showsSorted_sorted _
  others := showsSorted_sorted _

/-- A view loses nothing, shows nothing twice and is in order; and where no two endpoints of a
group, nor two without one, have one key, every order of the same endpoints has the same view. -/
theorem build_shows_groups (key : Endpoint → κ) (naming : Naming) (endpoints : List Endpoint) :
    Shows key naming endpoints (build key naming endpoints) ∧
    ∀ endpoints', endpoints'.Perm endpoints →
      (∀ group, ((members endpoints group).map key).Nodup) →
      build key naming endpoints' = build key naming endpoints := by
  refine ⟨shows_build key naming endpoints, fun endpoints' same distinct => ?_⟩
  have shown (group : Option String) :
      sorted key naming (members endpoints' group) = sorted key naming (members endpoints group) :=
    sorted_of_perm (same.filter _) (distinct group)
  have groups : (build key naming endpoints').groups = (build key naming endpoints).groups := by
    show (groupNames endpoints').zipIdx.map _ = (groupNames endpoints).zipIdx.map _
    rw [groupNames_of_perm same]
    exact List.map_congr_left fun numbered _ => by
      show GroupView.mk _ _ (sorted key naming (members endpoints' _)) = _
      rw [shown]
      rfl
  have others : (build key naming endpoints').others = (build key naming endpoints).others :=
    shown none
  exact View.mk.injEq .. ▸ ⟨groups, others⟩

end

namespace Two

/-- Two endpoints of one group, and one without a group. -/
def endpoints : List Endpoint :=
  [{ groupName := some "pets", method := .get, path := "pets" }, { method := .head, path := "" },
    { groupName := some "pets", method := .post, path := "pets" }]

theorem distinct (group : Option String) :
    ((members endpoints group).map Endpoint.sortKey).Nodup := by
  by_cases none : group = none
  · subst none
    decide +kernel
  · by_cases pets : group = some "pets"
    · subst pets
      decide +kernel
    · have empty : members endpoints group = [] := by
        simp [members, endpoints, Ne.symm none, Ne.symm pets]
      rw [empty]
      exact List.nodup_nil

theorem build_shows_groups_reversed :
    endpoints.reverse.Perm endpoints ∧
      (∀ group, ((members endpoints group).map Endpoint.sortKey).Nodup) ∧
      build Endpoint.sortKey none endpoints.reverse = build Endpoint.sortKey none endpoints :=
  ⟨List.reverse_perm _, distinct,
    (build_shows_groups Endpoint.sortKey none endpoints).2 _ (List.reverse_perm _) distinct⟩

end Two
end View
end ApiAtlas
