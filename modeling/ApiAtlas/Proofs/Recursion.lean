import ApiAtlas.Proofs.Made
import Mathlib.Algebra.Order.BigOperators.Group.Finset
import Mathlib.Logic.Relation

/-!
# Recursion on the way down

The steps below a type are the keys under which its walk reads types. On the way down a step to an
optional, a sequence or a map stands no more often than the threshold where the walk goes on below
it. Where two such steps break every cycle through a step, that step repeats no more often than
twice between them: so the bound of repetitions is not reached, and ways are not endless.
-/
namespace ApiAtlas.Walk

/-- A key and the type under it. -/
structure Reference where
  key : String
  type : TypeExpr
  deriving DecidableEq

section
variable (schemas : Schemas) (most : Nat)

/-- What the walk of a type reads under a key, in place or not. No keys were learned. -/
inductive Below : TypeExpr → Reference → Prop
  | under {t : TypeExpr} {layout : Layout} {key : String} {c : TypeExpr}
      (h : t.layout? schemas = some layout) (hc : layout.Under most none key c) : Below t ⟨key, c⟩
  | inner {t p : TypeExpr} {layout : Layout} {x : Reference} (h : t.layout? schemas = some layout)
      (hp : layout.inner? = some p) (hx : Below p x) : Below t x

/-- The walk of a type ends where its step repeats too often: in place, it is an optional, a
sequence or a map. -/
inductive Stops : TypeExpr → Prop
  | option {t p : TypeExpr} (h : t.layout? schemas = some (.option p)) : Stops t
  | seq {t p : TypeExpr} (h : t.layout? schemas = some (.seq p)) : Stops t
  | map {t p : TypeExpr} (h : t.layout? schemas = some (.map p)) : Stops t
  | inner {t p : TypeExpr} {layout : Layout} (h : t.layout? schemas = some layout)
      (hp : layout.inner? = some p) (hs : Stops p) : Stops t

/-- No cycle through a step avoids the steps of a list. -/
def Breaks (F : List Reference) (x : Reference) : Prop :=
  ¬ Relation.TransGen (fun a b => Below schemas most a.type b ∧ b ∉ F) x x

/-- The cycles through any step to one of the types are broken by two steps that end walks. -/
def Guarded (types : List TypeExpr) : Prop :=
  ∀ x : Reference, x.type ∈ types →
    ∃ F : List Reference, F.length ≤ 2 ∧ (∀ f ∈ F, Stops schemas f.type) ∧ Breaks schemas most F x

variable (threshold : Nat) (root : TypeExpr)

/-- A way down from a root, and the type at its end. It goes on below a step that ends walks only
if that step does not repeat too often. -/
inductive Way : List Reference → TypeExpr → Prop
  | nil : Way [] root
  | step {p : List Reference} {a : TypeExpr} {x : Reference} (h : Way p a)
      (hx : Below schemas most a x)
      (open' : Stops schemas a → ∀ y, p.getLast? = some y → p.count y ≤ threshold) :
      Way (p ++ [x]) x.type

end

variable {schemas : Schemas} {most threshold : Nat} {root a : TypeExpr} {p : List Reference}
variable {x y : Reference} {F : List Reference} {types : List TypeExpr}

/-- Two steps guard types if every other step leads to a type of less rank. -/
theorem guarded_of_rank (rank : TypeExpr → Nat) (two : F.length ≤ 2)
    (stops : ∀ f ∈ F, Stops schemas f.type)
    (descends : ∀ t ∈ types, ∀ x, Below schemas most t x →
      x.type ∈ types ∧ (x ∈ F ∨ rank x.type < rank t)) : Guarded schemas most types := by
  have falls {x z : Reference} (hx : x.type ∈ types)
      (h : Relation.TransGen (fun a b => Below schemas most a.type b ∧ b ∉ F) x z) :
      z.type ∈ types ∧ rank z.type < rank x.type := by
    induction h with
    | single h =>
        obtain ⟨member, below⟩ := descends _ hx _ h.1
        exact ⟨member, below.resolve_left h.2⟩
    | tail _ h ih =>
        obtain ⟨member, below⟩ := descends _ ih.1 _ h.1
        exact ⟨member, (below.resolve_left h.2).trans ih.2⟩
  exact fun x hx => ⟨F, two, stops, fun cycle => Nat.lt_irrefl _ (falls hx cycle).2⟩

theorem Way.last (h : Way schemas most threshold root p a) (hy : p.getLast? = some y) :
    y.type = a := by
  cases h with
  | nil => cases hy
  | step => simpa using congrArg Reference.type (Option.some.inj (List.getLast?_concat ▸ hy)).symm

/-- Between two repetitions of a step stands one that breaks its cycles. -/
theorem Way.count_le (h : Way schemas most threshold root p a) (hF : Breaks schemas most F x)
    (hx : x ∉ F) :
    p.count x ≤ p.countP (· ∈ F) ∨ p.count x ≤ p.countP (· ∈ F) + 1 ∧
      ∀ y, p.getLast? = some y → y = x ∨
        Relation.TransGen (fun a b => Below schemas most a.type b ∧ b ∉ F) x y := by
  induction h with
  | nil => exact .inl (Nat.le_refl _)
  | @step p a z h hz _ ih =>
      rw [List.count_append, List.countP_append, List.count_singleton, List.countP_singleton]
      by_cases broken : z ∈ F
      · have other : z ≠ x := fun same => hx (same ▸ broken)
        left
        simp only [broken, other, decide_true, beq_iff_eq, if_true, if_false]
        rcases ih with ih | ⟨ih, -⟩ <;> omega
      · simp only [broken, decide_false, Bool.false_eq_true, if_false]
        rcases ih with ih | ⟨ih, ends⟩
        · by_cases same : z = x
          · refine .inr ⟨by simpa [same] using ih, fun y hy => .inl ?_⟩
            rw [List.getLast?_concat] at hy
            exact (Option.some.inj hy).symm.trans same
          · exact .inl (by simpa [same] using ih)
        · -- the way since the last repetition avoids the breaking steps, so it is no cycle
          have reaches : p ≠ [] → Relation.TransGen
              (fun a b => Below schemas most a.type b ∧ b ∉ F) x z := fun some' => by
            obtain ⟨y, hy⟩ := List.getLast?_isSome.mpr some' |> Option.isSome_iff_exists.mp
            have edge : Below schemas most y.type z ∧ z ∉ F := ⟨h.last hy ▸ hz, broken⟩
            rcases ends y hy with rfl | reached
            · exact .single edge
            · exact reached.tail edge
          cases p with
          | nil =>
              by_cases same : z = x
              · exact .inr ⟨by simp [same], fun y hy => .inl (by simpa [same] using hy.symm)⟩
              · exact .inl (by simp [same])
          | cons first rest =>
              have reached := reaches (List.cons_ne_nil _ _)
              have other : z ≠ x := fun same => hF (same ▸ reached)
              refine .inr ⟨by simpa [other] using ih, fun y hy => .inr ?_⟩
              rw [List.getLast?_concat] at hy
              exact Option.some.inj hy ▸ reached

/-- A step that ends walks stands no more often than the threshold above the end of a way. -/
theorem Way.count_dropLast_le (h : Way schemas most threshold root p a) {f : Reference}
    (hf : Stops schemas f.type) : p.dropLast.count f ≤ threshold := by
  induction h with
  | nil => exact Nat.zero_le _
  | @step p a z h _ open' ih =>
      rw [List.dropLast_concat]
      rcases List.eq_nil_or_concat p with rfl | ⟨front, y, rfl⟩
      · exact Nat.zero_le _
      · rw [List.concat_eq_append] at *
        by_cases same : y = f
        · subst same
          exact open' (h.last List.getLast?_concat ▸ hf) y List.getLast?_concat
        · rw [List.dropLast_concat] at ih
          rw [List.count_append, List.count_singleton]
          simpa [same] using ih

theorem countP_mem_cons_le (p : List Reference) (f : Reference) (F : List Reference) :
    p.countP (· ∈ f :: F) ≤ p.count f + p.countP (· ∈ F) := by
  induction p with
  | nil => simp
  | cons z p ih =>
      rw [List.countP_cons, List.countP_cons, List.count_cons]
      by_cases same : z = f <;> by_cases member : z ∈ F <;> simp [same, member] at ih ⊢ <;> omega

theorem countP_mem_le (p : List Reference) (n : Nat) (h : ∀ f ∈ F, p.count f ≤ n) :
    p.countP (· ∈ F) ≤ F.length * n := by
  induction F with
  | nil => simp
  | cons f F ih =>
      have first := h f List.mem_cons_self
      have rest := ih fun g hg => h g (List.mem_cons_of_mem _ hg)
      have split := countP_mem_cons_le p f F
      rw [List.length_cons, Nat.succ_mul]
      omega

/-- No step stands more often on a way than twice between the two steps that break its cycles, and
once. -/
theorem Way.count_le_runaway (guarded : Guarded schemas most types)
    (h : Way schemas most threshold root p a) (member : ∀ x ∈ p, x.type ∈ types) (y : Reference) :
    p.count y ≤ 2 * threshold + 1 := by
  have atEnd {p : List Reference} {z : Reference} (hz : z.type ∈ types)
      (h : Way schemas most threshold root (p ++ [z]) z.type) :
      (p ++ [z]).count z ≤ 2 * threshold + 1 := by
    obtain ⟨F, two, stops, breaks⟩ := guarded z hz
    have stands : ∀ f ∈ F, p.count f ≤ threshold := fun f hf => by
      have bound := h.count_dropLast_le (stops f hf)
      rwa [List.dropLast_concat] at bound
    by_cases own : z ∈ F
    · have := stands z own
      rw [List.count_append, List.count_singleton]
      simp only [BEq.rfl, if_true]
      omega
    · have bound : (p ++ [z]).count z ≤ (p ++ [z]).countP (· ∈ F) + 1 := by
        rcases h.count_le breaks own with le | ⟨le, -⟩ <;> omega
      have few := countP_mem_le p threshold stands
      have twice : F.length * threshold ≤ 2 * threshold := Nat.mul_le_mul_right _ two
      rw [List.countP_append, List.countP_singleton] at bound
      simp only [own, decide_false, Bool.false_eq_true, if_false] at bound
      omega
  induction h with
  | nil => simp
  | @step p a z h hz open' ih =>
      by_cases same : z = y
      · exact same ▸ atEnd (member z (by simp)) (h.step hz open')
      · rw [List.count_append, List.count_singleton]
        simpa [same] using ih fun x hx => member x (List.mem_append_left _ hx)

theorem length_le_of_count {α : Type} [DecidableEq α] {p all : List α} {n : Nat} (sub : p ⊆ all)
    (h : ∀ y, p.count y ≤ n) : p.length ≤ all.length * n := by
  calc p.length = ∑ y ∈ p.toFinset, p.count y := (List.sum_toFinset_count_eq_length p).symm
    _ ≤ p.toFinset.card * n := Finset.sum_le_card_nsmul _ _ _ fun y _ => h y
    _ ≤ all.length * n := Nat.mul_le_mul_right _ <|
        (Finset.card_le_card fun y hy => by
          simpa using sub (List.mem_toFinset.mp hy)).trans (List.toFinset_card_le all)

end ApiAtlas.Walk
