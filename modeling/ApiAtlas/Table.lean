/-!
# Tables

Finite maps are lists of entries. Two ways of filing are used: `put` keeps the order in which
keys arrived, `insert` keeps names ascending. Names are compared character by character, which
is also the order of their encoded bytes. Both replace the entry that a key already has, so a
table that was built from the empty one holds every key once.
-/
namespace ApiAtlas.Table

variable {κ α : Type}

/-- The value filed under a key; of two entries with one key the first counts. -/
def get? [DecidableEq κ] (table : List (κ × α)) (key : κ) : Option α :=
  match table with
  | [] => none
  | (k, v) :: rest => if k = key then some v else get? rest key

/-- Replace the value of a key where it stands, or file the key last. -/
def put [DecidableEq κ] (table : List (κ × α)) (key : κ) (value : α) : List (κ × α) :=
  match table with
  | [] => [(key, value)]
  | (k, v) :: rest => if k = key then (k, value) :: rest else (k, v) :: put rest key value

/-- Drop every entry of a key. -/
def erase [DecidableEq κ] (table : List (κ × α)) (key : κ) : List (κ × α) :=
  table.filter (fun entry => entry.1 ≠ key)

/-- File a value under its name, before the first greater name. -/
def insert (table : List (String × α)) (name : String) (value : α) : List (String × α) :=
  match table with
  | [] => [(name, value)]
  | (k, v) :: rest =>
      if name = k then (name, value) :: rest
      else if name < k then (name, value) :: (k, v) :: rest
      else (k, v) :: insert rest name value

/-- File entries one after the other; a later one replaces an earlier one of its name. -/
def ofList (entries : List (String × α)) : List (String × α) :=
  entries.foldl (fun table entry => insert table entry.1 entry.2) []

/-- The keys, in the order of the entries. -/
def keys (table : List (κ × α)) : List κ :=
  table.map Prod.fst

@[simp] theorem get?_nil [DecidableEq κ] (key : κ) : get? ([] : List (κ × α)) key = none := rfl

theorem get?_put_self [DecidableEq κ] (table : List (κ × α)) (key : κ) (value : α) :
    get? (put table key value) key = some value := by
  induction table with
  | nil => simp [put, get?]
  | cons entry rest ih =>
      obtain ⟨k, v⟩ := entry
      by_cases h : k = key <;> simp [put, get?, h, ih]

theorem get?_put_of_ne [DecidableEq κ] (table : List (κ × α)) {key other : κ} (value : α)
    (h : other ≠ key) : get? (put table key value) other = get? table other := by
  induction table with
  | nil => simp [put, get?, Ne.symm h]
  | cons entry rest ih =>
      obtain ⟨k, v⟩ := entry
      by_cases hk : k = key
      · subst hk; simp [put, get?, Ne.symm h]
      · simp [put, get?, hk, ih]

theorem get?_insert_self (table : List (String × α)) (name : String) (value : α) :
    get? (insert table name value) name = some value := by
  induction table with
  | nil => simp [insert, get?]
  | cons entry rest ih =>
      obtain ⟨k, v⟩ := entry
      by_cases h : name = k
      · simp [insert, get?, h]
      · by_cases hlt : name < k
        · simp [insert, get?, h, hlt]
        · simp [insert, get?, h, hlt, Ne.symm h, ih]

theorem get?_insert_of_ne (table : List (String × α)) {name other : String} (value : α)
    (h : other ≠ name) : get? (insert table name value) other = get? table other := by
  induction table with
  | nil => simp [insert, get?, Ne.symm h]
  | cons entry rest ih =>
      obtain ⟨k, v⟩ := entry
      by_cases hk : name = k
      · subst hk; simp [insert, get?, Ne.symm h]
      · by_cases hlt : name < k
        · simp [insert, get?, hk, hlt, Ne.symm h]
        · simp [insert, get?, hk, hlt, ih]

theorem mem_insert {table : List (String × α)} {name : String} {value : α} {entry : String × α}
    (h : entry ∈ insert table name value) : entry = (name, value) ∨ entry ∈ table := by
  induction table with
  | nil => simpa [insert] using h
  | cons first rest ih =>
      obtain ⟨k, v⟩ := first
      simp only [insert] at h
      split at h
      · rcases List.mem_cons.mp h with heq | hrest
        · exact .inl heq
        · exact .inr (List.mem_cons_of_mem _ hrest)
      · split at h
        · exact List.mem_cons.mp h
        · rcases List.mem_cons.mp h with heq | hrest
          · exact .inr (heq ▸ List.mem_cons_self)
          · exact (ih hrest).imp_right (List.mem_cons_of_mem _)

/-- Every entry of a filed list was in the list. -/
theorem mem_ofList {entries : List (String × α)} {entry : String × α} (h : entry ∈ ofList entries) :
    entry ∈ entries := by
  have filed : ∀ table : List (String × α),
      entry ∈ entries.foldl (fun table e => insert table e.1 e.2) table →
        entry ∈ table ∨ entry ∈ entries := by
    clear h
    induction entries with
    | nil => exact fun _ h => .inl h
    | cons first rest ih =>
        intro table h
        rcases ih _ h with h | h
        · rcases mem_insert h with rfl | h
          · exact .inr List.mem_cons_self
          · exact .inl h
        · exact .inr (List.mem_cons_of_mem _ h)
  exact (filed [] h).resolve_left List.not_mem_nil

theorem mem_keys_insert (table : List (String × α)) (name : String) (value : α) (key : String) :
    key ∈ keys (insert table name value) ↔ key = name ∨ key ∈ keys table := by
  induction table with
  | nil => simp [insert, keys]
  | cons entry rest ih =>
      obtain ⟨k, v⟩ := entry
      simp only [keys] at ih
      simp only [insert, keys]
      split
      · next same => simp [same]
      · split
        · simp
        · simp only [List.map_cons, List.mem_cons, ih]
          exact or_left_comm

theorem mem_of_get? [DecidableEq κ] {table : List (κ × α)} {key : κ} {value : α}
    (h : get? table key = some value) : (key, value) ∈ table := by
  induction table with
  | nil => cases h
  | cons entry rest ih =>
      obtain ⟨k, v⟩ := entry
      rw [get?] at h
      split at h
      · next hk => cases h; exact hk ▸ List.mem_cons_self
      · exact List.mem_cons_of_mem _ (ih h)

/-- Where no key is filed twice, every entry is found. -/
theorem get?_of_mem [DecidableEq κ] {table : List (κ × α)} {key : κ} {value : α}
    (h : (keys table).Nodup) (member : (key, value) ∈ table) : get? table key = some value := by
  induction table with
  | nil => cases member
  | cons entry rest ih =>
      obtain ⟨fresh, nodup⟩ := List.nodup_cons.mp h
      rcases List.mem_cons.mp member with rfl | later
      · simp [get?]
      · have other : entry.1 ≠ key := fun same => fresh (same ▸ List.mem_map_of_mem later)
        simpa [get?, other] using ih nodup later

theorem get?_eq_none [DecidableEq κ] {table : List (κ × α)} {key : κ} :
    get? table key = none ↔ key ∉ keys table := by
  induction table with
  | nil => simp [keys]
  | cons entry rest ih =>
      obtain ⟨k, v⟩ := entry
      by_cases hk : k = key
      · simp [get?, keys, hk]
      · simpa [get?, keys, hk, Ne.symm hk] using ih

theorem get?_append [DecidableEq κ] (front back : List (κ × α)) (key : κ) :
    get? (front ++ back) key = (get? front key).or (get? back key) := by
  induction front with
  | nil => rfl
  | cons entry rest ih =>
      obtain ⟨k, v⟩ := entry
      by_cases hk : k = key <;> simp [get?, hk, ih]

theorem get?_foldl_insert {table entries : List (String × α)} {name : String}
    (h : name ∉ keys entries) :
    get? (entries.foldl (fun table entry => insert table entry.1 entry.2) table) name =
      get? table name := by
  induction entries generalizing table with
  | nil => rfl
  | cons entry rest ih =>
      have other : name ≠ entry.1 := fun same => h (same ▸ List.mem_cons_self)
      exact (ih fun hr => h (List.mem_cons_of_mem _ hr)).trans (get?_insert_of_ne _ _ other)

/-- Entries with names of their own are found under them. -/
theorem get?_ofList {entries : List (String × α)} (h : (keys entries).Nodup) {name : String}
    {value : α} (he : (name, value) ∈ entries) : get? (ofList entries) name = some value := by
  unfold ofList
  generalize ([] : List (String × α)) = table
  induction entries generalizing table with
  | nil => cases he
  | cons entry rest ih =>
      obtain ⟨fresh, nodup⟩ := List.nodup_cons.mp h
      rcases List.mem_cons.mp he with rfl | he
      · exact (get?_foldl_insert fresh).trans (get?_insert_self _ _ _)
      · exact ih nodup he _

theorem get?_ofList_eq {entries : List (String × α)} (h : (keys entries).Nodup) (name : String) :
    get? (ofList entries) name = get? entries name := by
  cases found : get? entries name with
  | some value => exact get?_ofList h (mem_of_get? found)
  | none => exact get?_foldl_insert (get?_eq_none.mp found)

end ApiAtlas.Table
