import ApiAtlas.Shape

/-!
# Laws of recorded trees

A walk records by replacing the node at a path. A replaced node is found where it was put, the
last replacement counts, and replacing a field of a node replaces the node by one with that field.
-/
namespace ApiAtlas

namespace Table
variable {κ α : Type} [DecidableEq κ]

theorem put_put (table : List (κ × α)) (key : κ) (a b : α) :
    put (put table key a) key b = put table key b := by
  induction table with
  | nil => simp [put]
  | cons entry rest ih =>
      obtain ⟨k, v⟩ := entry
      by_cases h : k = key <;> simp [put, h, ih]

theorem put_get? {table : List (κ × α)} {key : κ} {value : α} (h : get? table key = some value) :
    put table key value = table := by
  induction table with
  | nil => cases h
  | cons entry rest ih =>
      obtain ⟨k, v⟩ := entry
      rw [get?] at h
      split at h
      · next hk => cases h; simp [put, hk]
      · next hk => simp [put, hk, ih h]

theorem put_insert (table : List (String × α)) (name : String) (a b : α) :
    put (insert table name a) name b = insert table name b := by
  induction table with
  | nil => simp [insert, put]
  | cons entry rest ih =>
      obtain ⟨k, v⟩ := entry
      by_cases hk : name = k
      · simp [insert, put, hk]
      · by_cases hlt : name < k
        · simp [insert, put, hk, hlt]
        · simp [insert, put, hk, Ne.symm hk, hlt, ih]

theorem erase_put_of_absent {table : List (κ × α)} {key : κ} (value : α)
    (h : get? table key = none) : erase (put table key value) key = table := by
  induction table with
  | nil => simp [put, erase]
  | cons entry rest ih =>
      obtain ⟨k, v⟩ := entry
      rw [get?] at h
      split at h
      · cases h
      · next hk =>
        have rest := ih h
        simp only [erase, ne_eq, decide_not] at rest ⊢
        simp [put, hk, rest]

end Table

namespace Shape

/-- The tree with the node at a path replaced, if there is one. -/
def setAt (tree : Shape) (path : List String) (node : Shape) : Shape :=
  match path with
  | [] => node
  | key :: rest =>
      match tree.body with
      | .fields fields =>
          match Table.get? fields key with
          | some child => ⟨tree.type, .fields (Table.put fields key (child.setAt rest node))⟩
          | none => tree
      | _ => tree

@[simp] theorem setAt_nil (tree node : Shape) : tree.setAt [] node = node := rfl

theorem setAt_cons (type : TypeRef) {fields : List (String × Shape)} {key : String} {child : Shape}
    (h : Table.get? fields key = some child) (rest : List String) (node : Shape) :
    setAt ⟨type, .fields fields⟩ (key :: rest) node =
      ⟨type, .fields (Table.put fields key (child.setAt rest node))⟩ := by
  rw [setAt]
  simp only [h]

theorem at?_cons (type : TypeRef) {fields : List (String × Shape)} {key : String} {child : Shape}
    (h : Table.get? fields key = some child) (rest : List String) :
    at? ⟨type, .fields fields⟩ (key :: rest) = child.at? rest := by
  rw [at?]
  simp only [fields?, h]

/-- Where a path leads on, its first key is that of a field. -/
theorem at?_cons_some {tree node : Shape} {key : String} {rest : List String}
    (h : tree.at? (key :: rest) = some node) :
    ∃ fields child, tree = ⟨tree.type, .fields fields⟩ ∧ Table.get? fields key = some child ∧
      child.at? rest = some node := by
  obtain ⟨type, body⟩ := tree
  rw [at?] at h
  cases body with
  | fields fields =>
      dsimp only [fields?] at h
      cases hg : Table.get? fields key with
      | none => rw [hg] at h; cases h
      | some child => exact ⟨fields, child, rfl, hg, by rw [hg] at h; exact h⟩
  | plain => cases h
  | cases cases => cases h

theorem modifyAt?_eq_setAt (f : Shape → Shape) {tree node : Shape} {path : List String}
    (h : tree.at? path = some node) : tree.modifyAt? f path = some (tree.setAt path (f node)) := by
  induction path generalizing tree with
  | nil => rw [Option.some.inj h, modifyAt?, setAt_nil]
  | cons key rest ih =>
      obtain ⟨fields, child, htree, hg, hn⟩ := at?_cons_some h
      rw [htree, setAt_cons _ hg, modifyAt?]
      simp only [fields?, hg, ih hn]

theorem at?_setAt {tree old : Shape} {path : List String} (h : tree.at? path = some old)
    (node : Shape) : (tree.setAt path node).at? path = some node := by
  induction path generalizing tree with
  | nil => rfl
  | cons key rest ih =>
      obtain ⟨fields, child, htree, hg, hn⟩ := at?_cons_some h
      rw [htree, setAt_cons _ hg, at?_cons _ (Table.get?_put_self _ _ _)]
      exact ih hn

/-- Of two replacements the last counts. -/
theorem setAt_setAt {tree old : Shape} {path : List String} (h : tree.at? path = some old)
    (a b : Shape) : (tree.setAt path a).setAt path b = tree.setAt path b := by
  induction path generalizing tree with
  | nil => rfl
  | cons key rest ih =>
      obtain ⟨fields, child, htree, hg, hn⟩ := at?_cons_some h
      rw [htree, setAt_cons _ hg, setAt_cons _ (Table.get?_put_self _ _ _), setAt_cons _ hg,
        Table.put_put, ih hn]

theorem setAt_self {tree node : Shape} {path : List String} (h : tree.at? path = some node) :
    tree.setAt path node = tree := by
  induction path generalizing tree with
  | nil => exact (Option.some.inj h).symm
  | cons key rest ih =>
      obtain ⟨fields, child, htree, hg, hn⟩ := at?_cons_some h
      rw [htree, setAt_cons _ hg, ih hn, Table.put_get? hg]

theorem at?_child {tree : Shape} {path : List String} {type : TypeRef}
    {fields : List (String × Shape)} (h : tree.at? path = some ⟨type, .fields fields⟩)
    (key : String) : tree.at? (path ++ [key]) = Table.get? fields key := by
  induction path generalizing tree with
  | nil =>
      obtain rfl := Option.some.inj h
      rw [List.nil_append, at?]
      dsimp only [fields?]
      cases Table.get? fields key <;> simp [at?]
  | cons first rest ih =>
      obtain ⟨all, child, htree, hg, hn⟩ := at?_cons_some h
      rw [List.cons_append, htree, at?_cons _ hg, ih hn]

/-- Replacing a field of a node replaces the node. -/
theorem setAt_child {tree : Shape} {path : List String} {type : TypeRef}
    {fields : List (String × Shape)} (h : tree.at? path = some ⟨type, .fields fields⟩)
    {key : String} {old : Shape} (hk : Table.get? fields key = some old) (node : Shape) :
    tree.setAt (path ++ [key]) node =
      tree.setAt path ⟨type, .fields (Table.put fields key node)⟩ := by
  induction path generalizing tree with
  | nil =>
      obtain rfl := Option.some.inj h
      rw [List.nil_append, setAt_cons _ hk, setAt_nil, setAt_nil]
  | cons first rest ih =>
      obtain ⟨all, child, htree, hg, hn⟩ := at?_cons_some h
      rw [List.cons_append, htree, setAt_cons _ hg, setAt_cons _ hg, ih hn]

end Shape
end ApiAtlas
