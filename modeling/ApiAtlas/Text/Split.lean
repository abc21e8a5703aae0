import ApiAtlas.Text.Ranges

/-!
# Cutting text

A text is cut at every separator, or at the first one only, and blanks or other characters are
taken from both of its ends. Cutting at every separator loses nothing but the separators: the
parts contain none, and joining them gives the text back.
-/
namespace ApiAtlas.Text

/-- The parts of a text between separators. There is always one more part than separators. -/
def parts (separator : Char) : List Char → List (List Char)
  | [] => [[]]
  | c :: rest =>
      if c = separator then [] :: parts separator rest
      else
        match parts separator rest with
        | part :: others => (c :: part) :: others
        | [] => [[c]]

/-- What stands before and after the first separator, if there is one. -/
def cut? (separator : Char) : List Char → Option (List Char × List Char)
  | [] => none
  | c :: rest =>
      if c = separator then some ([], rest)
      else (cut? separator rest).map fun (front, back) => (c :: front, back)

/-- Remove characters of a class from both ends. -/
def strip (drop : Char → Bool) (cs : List Char) : List Char :=
  ((cs.dropWhile drop).reverse.dropWhile drop).reverse

/-- Remove blanks from both ends. -/
def trim (cs : List Char) : List Char := strip isBlank cs

theorem parts_ne_nil (separator : Char) (cs : List Char) : parts separator cs ≠ [] := by
  induction cs with
  | nil => simp [parts]
  | cons c rest ih =>
      by_cases h : c = separator
      · simp [parts, h]
      · cases hp : parts separator rest with
        | nil => exact absurd hp ih
        | cons part others => simp [parts, h, hp]

theorem not_mem_of_mem_parts {separator : Char} {cs part : List Char}
    (h : part ∈ parts separator cs) : separator ∉ part := by
  induction cs generalizing part with
  | nil => simp_all [parts]
  | cons c rest ih =>
      by_cases hc : c = separator
      · simp only [parts, hc, if_true, List.mem_cons] at h
        rcases h with rfl | h
        · simp
        · exact ih h
      · cases hp : parts separator rest with
        | nil => exact absurd hp (parts_ne_nil separator rest)
        | cons first others =>
            simp only [parts, hc, if_false, hp, List.mem_cons] at h
            rcases h with rfl | h
            · have : separator ∉ first := ih (by simp [hp])
              simp [Ne.symm hc, this]
            · exact ih (by simp [hp, h])

theorem cut?_eq_some {separator : Char} {cs front back : List Char}
    (h : cut? separator cs = some (front, back)) :
    cs = front ++ separator :: back ∧ separator ∉ front := by
  induction cs generalizing front with
  | nil => simp [cut?] at h
  | cons c rest ih =>
      by_cases hc : c = separator
      · simp only [cut?, hc, if_true, Option.some.injEq, Prod.mk.injEq] at h
        simp [← h.1, ← h.2, hc]
      · simp only [cut?, hc, if_false, Option.map_eq_some_iff, Prod.mk.injEq, Prod.exists] at h
        obtain ⟨first, _, hrest, rfl, rfl⟩ := h
        obtain ⟨hjoin, hfree⟩ := ih hrest
        simp [hjoin, hfree, Ne.symm hc]

end ApiAtlas.Text
