import ApiAtlas.Proofs.Listing
import Mathlib.Data.List.Chain
import Mathlib.Data.List.Nodup
import Mathlib.Data.List.Perm.Subperm

/-!
# Where wrappings lead

A step from a type to the one that it wraps goes to its first argument, or to a type that some other
type is registered to wrap. So only finitely many types are ever met: the first arguments inside the
type and inside those registered. Following wrappings therefore stops by itself, at the last type of
the longest start of the chain of wrappings in which no type comes up again. Where the chain ends,
every type on it leads to its end.
-/
namespace ApiAtlas

namespace Identity

/-- A type and the types that follow it as first arguments. -/
def firstTypes : Identity → List Identity
  | ⟨module, parent, name, .type inner :: rest, style⟩ =>
      ⟨module, parent, name, .type inner :: rest, style⟩ :: firstTypes inner
  | t => [t]

theorem length_firstTypes : (t : Identity) → t.firstTypes.length = t.chainLength
  | ⟨_, _, _, .type inner :: _, _⟩ => by
      rw [firstTypes, chainLength, List.length_cons, length_firstTypes inner]
  | ⟨_, _, _, .literal _ _ _ :: _, _⟩ => by simp [firstTypes, chainLength]
  | ⟨_, _, _, [], _⟩ => by simp [firstTypes, chainLength]

theorem mem_firstTypes_self (t : Identity) : t ∈ t.firstTypes := by
  unfold firstTypes
  split <;> exact List.mem_cons_self

/-- First arguments are closed under first arguments. -/
theorem mem_firstTypes_of_firstType? {s inner : Identity} (held : s.firstType? = some inner) :
    (t : Identity) → s ∈ t.firstTypes → inner ∈ t.firstTypes
  | ⟨module, parent, name, .type first :: rest, style⟩, h => by
      rw [firstTypes] at h ⊢
      rcases List.mem_cons.mp h with rfl | below
      · obtain rfl : first = inner := Option.some.inj held
        exact List.mem_cons_of_mem _ (mem_firstTypes_self first)
      · exact List.mem_cons_of_mem _ (mem_firstTypes_of_firstType? held first below)
  | ⟨_, _, _, .literal _ _ _ :: _, _⟩, h => by
      obtain rfl : s = _ := by simpa [firstTypes] using h
      cases held
  | ⟨_, _, _, [], _⟩, h => by
      obtain rfl : s = _ := by simpa [firstTypes] using h
      cases held

end Identity

namespace Registry
variable {registry : Registry} {t s a b : Identity}

/-! ## The types that wrappings meet -/

/-- The types that wrappings can lead to from a type. -/
def wrappables (registry : Registry) (t : Identity) : List Identity :=
  t.firstTypes ++
    registry.flatMap fun entry => (entry.2.wrapped.map Identity.firstTypes).getD []

theorem length_wrappables (registry : Registry) (t : Identity) :
    (registry.wrappables t).length = registry.wrappingBound t := by
  induction registry with
  | nil => simp [wrappables, wrappingBound, Identity.length_firstTypes]
  | cons entry rest ih =>
      simp only [wrappables, List.length_append, List.flatMap_cons] at ih ⊢
      rw [wrappingBound, List.foldr_cons, ← wrappingBound, ← ih]
      cases entry.2.wrapped <;> simp [Identity.length_firstTypes, Nat.add_left_comm]

theorem mem_wrappables_of_wrapped? (h : s ∈ registry.wrappables t)
    (step : registry.wrapped? s = some a) : a ∈ registry.wrappables t := by
  unfold wrapped? at step
  split at step
  · rcases List.mem_append.mp h with own | other
    · exact List.mem_append_left _ (Identity.mem_firstTypes_of_firstType? step t own)
    · obtain ⟨entry, member, below⟩ := List.mem_flatMap.mp other
      refine List.mem_append_right _ (List.mem_flatMap.mpr ⟨entry, member, ?_⟩)
      cases hw : entry.2.wrapped with
      | none => simp [hw] at below
      | some target =>
          simp only [hw, Option.map_some, Option.getD_some] at below ⊢
          exact Identity.mem_firstTypes_of_firstType? step target below
  · obtain ⟨capabilities, found, wraps⟩ := Option.bind_eq_some_iff.mp step
    refine List.mem_append_right _ (List.mem_flatMap.mpr ⟨_, Table.mem_of_get? found, ?_⟩)
    simp only [wraps, Option.map_some, Option.getD_some]
    exact Identity.mem_firstTypes_self a

/-! ## Chains of wrappings -/

/-- A start of the chain of wrappings from a type on, in which no type comes up twice. -/
structure Unwraps (registry : Registry) (t : Identity) (chain : List Identity) : Prop where
  starts : chain.head? = some t
  steps : chain.IsChain fun a b => registry.wrapped? a = some b
  distinct : chain.Nodup

/-- All types on a chain lead to its last one. -/
theorem Unwraps.reaches {chain : List Identity} (h : registry.Unwraps t chain)
    (last : chain.getLast? = some a) : ∀ s ∈ chain, registry.Reaches s a := by
  refine h.steps.backwards_induction _ _ (fun x y step below => below.head step) fun nonempty => ?_
  obtain rfl := Option.some.inj ((List.getLast?_eq_some_getLast nonempty).symm.trans last)
  exact .refl

/-- A chain without repetition is a start of every chain that only goes on to types met before. -/
theorem prefix_of_chain {others : List Identity} :
    ∀ met a rest, (a :: rest).IsChain (fun a b => registry.wrapped? a = some b) →
      (a :: others).IsChain (fun a b => registry.wrapped? a = some b) →
      (met ++ a :: others).Nodup →
      (∀ last ∈ (a :: rest).getLast?, ∀ next, registry.wrapped? last = some next →
        next ∈ met ++ a :: rest) →
      others <+: rest := by
  induction others with
  | nil => exact fun _ _ _ _ _ _ _ => List.nil_prefix
  | cons b others ih =>
      intro met a rest chain chain' distinct back
      obtain ⟨step, chain'⟩ := List.isChain_cons_cons.mp chain'
      rw [List.append_cons] at distinct
      cases rest with
      | nil =>
          have again : b ∈ met ++ [a] := back a rfl b step
          exact absurd rfl ((List.nodup_append.mp distinct).2.2 b again b List.mem_cons_self)
      | cons c rest =>
          obtain ⟨step', chain⟩ := List.isChain_cons_cons.mp chain
          obtain rfl := Option.some.inj (step.symm.trans step')
          rw [List.append_cons] at back
          exact (List.prefix_cons_inj b).mpr (ih (met ++ [a]) b rest chain chain' distinct back)

/-- Wrappings are followed to the last type before one comes up again. The types that are met are
distinct and all among the same ones, so the steps never run out. -/
theorem follow_chain {types : List Identity}
    (closed : ∀ a ∈ types, ∀ b, registry.wrapped? a = some b → b ∈ types) (steps : Nat) :
    ∀ met t, (t :: met).Nodup → (∀ s ∈ t :: met, s ∈ types) → types.length ≤ steps + met.length →
      ∃ rest, (t :: rest).IsChain (fun a b => registry.wrapped? a = some b) ∧
        (met.reverse ++ t :: rest).Nodup ∧
        (t :: rest).getLast? = some (registry.follow steps met t) ∧
        ∀ next, registry.wrapped? (registry.follow steps met t) = some next →
          next ∈ met.reverse ++ t :: rest := by
  induction steps with
  | zero =>
      intro met t distinct inside short
      have fits := (distinct.subperm inside).length_le
      rw [List.length_cons] at fits
      omega
  | succ steps ih =>
      intro met t distinct inside short
      have alone : (met.reverse ++ [t]).Nodup := by
        rw [← List.reverse_cons]
        exact List.nodup_reverse.mpr distinct
      unfold follow
      cases step : registry.wrapped? t with
      | none => exact ⟨[], .singleton t, alone, rfl, fun next wraps => by simp [step] at wraps⟩
      | some next =>
          dsimp only
          split
          · next again =>
            refine ⟨[], .singleton t, alone, rfl, fun other wraps => ?_⟩
            obtain rfl := Option.some.inj (step.symm.trans wraps)
            rw [← List.reverse_cons]
            exact List.mem_reverse.mpr again
          · next fresh =>
            obtain ⟨rest, chain, distinct', last, longest⟩ :=
              ih (t :: met) next (List.nodup_cons.mpr ⟨fresh, distinct⟩)
                (List.forall_mem_cons.mpr
                  ⟨closed t (inside t List.mem_cons_self) next step, inside⟩)
                (by rw [List.length_cons]; omega)
            rw [List.reverse_cons, List.append_assoc] at distinct' longest
            exact ⟨next :: rest, .cons_cons step chain, distinct', last, longest⟩

/-- The type where following wrappings ends is the last of a chain that goes on to types met before,
if it goes on. -/
theorem exists_unwraps (registry : Registry) (t : Identity) :
    ∃ rest, registry.Unwraps t (t :: rest) ∧
      (t :: rest).getLast? = some (registry.leafType t) ∧
      (t :: rest).length ≤ registry.wrappingBound t ∧
      ∀ next, registry.wrapped? (registry.leafType t) = some next → next ∈ t :: rest := by
  have inside : t ∈ registry.wrappables t :=
    List.mem_append_left _ (Identity.mem_firstTypes_self t)
  have closed : ∀ a ∈ registry.wrappables t, ∀ b, registry.wrapped? a = some b →
      b ∈ registry.wrappables t := fun a ha b step => mem_wrappables_of_wrapped? ha step
  obtain ⟨rest, chain, distinct, last, back⟩ :=
    follow_chain closed (registry.wrappingBound t) [] t (List.nodup_singleton t)
      (by simpa using inside) (by rw [length_wrappables]; exact Nat.le_add_right _ _)
  refine ⟨rest, ⟨rfl, chain, distinct⟩, last, ?_, back⟩
  have met : ∀ s ∈ t :: rest, s ∈ registry.wrappables t :=
    chain.induction _ _ (fun a b step ha => closed a ha b step) fun _ => inside
  rw [← length_wrappables]
  exact (List.Nodup.subperm distinct met).length_le

/-! ## Circles and ends -/

/-- Wherever a circle of wrappings leads, something is wrapped. -/
theorem wraps_of_circle (circle : Relation.TransGen (fun a b => registry.wrapped? a = some b) a a)
    (h : registry.Reaches a b) : ∃ next, registry.wrapped? b = some next := by
  have around : Relation.TransGen (fun a b => registry.wrapped? a = some b) b b := by
    induction h with
    | refl => exact circle
    | tail _ step ih =>
        obtain ⟨next, step', back⟩ := Relation.TransGen.head'_iff.mp ih
        obtain rfl := Option.some.inj (step.symm.trans step')
        exact .tail' back step
  obtain ⟨next, step, -⟩ := Relation.TransGen.head'_iff.mp around
  exact ⟨next, step⟩

/-- A type that wraps nothing is where all types that lead to it end. -/
theorem leafType_of_reaches (h : registry.Reaches s a) (ends : registry.wrapped? a = none) :
    registry.leafType s = a := by
  obtain ⟨rest, unwraps, last, -, back⟩ := exists_unwraps registry s
  have onward : registry.Reaches s (registry.leafType s) :=
    unwraps.reaches last s List.mem_cons_self
  have unique : Relator.RightUnique fun a b => registry.wrapped? a = some b :=
    fun _ _ _ step step' => Option.some.inj (step.symm.trans step')
  rcases Relation.ReflTransGen.total_of_right_unique unique h onward with beyond | before
  · rcases beyond.cases_head with same | ⟨next, step, -⟩
    · exact same.symm
    · cases ends.symm.trans step
  · rcases before.cases_head with same | ⟨next, step, -⟩
    · exact same
    · -- the last type goes on to one on its chain, so it stands on a circle and never ends
      have circle : Relation.TransGen (fun a b => registry.wrapped? a = some b)
          (registry.leafType s) (registry.leafType s) :=
        .head' step (unwraps.reaches last next (back next step))
      obtain ⟨other, wraps⟩ := wraps_of_circle circle before
      cases ends.symm.trans wraps

/-- Following wrappings ends, whatever is registered: at the last type of the longest start of the
chain of wrappings in which no type comes up again. Either this type wraps nothing, and then it is
where every type on the chain ends, or it wraps one of them. -/
theorem leafType_longest (registry : Registry) (t : Identity) :
    ∃ chain, registry.Unwraps t chain ∧ (∀ other, registry.Unwraps t other → other <+: chain) ∧
      chain.length ≤ registry.wrappingBound t ∧
      chain.getLast? = some (registry.leafType t) ∧
      (∀ next, registry.wrapped? (registry.leafType t) = some next → next ∈ chain) ∧
      (registry.wrapped? (registry.leafType t) = none →
        registry.leafType (registry.leafType t) = registry.leafType t ∧
        ∀ s ∈ chain, registry.leafType s = registry.leafType t) := by
  obtain ⟨rest, unwraps, last, short, back⟩ := exists_unwraps registry t
  refine ⟨t :: rest, unwraps, fun other h => ?_, short, last, back,
    fun ends => ⟨leafType_of_reaches .refl ends, fun s hs => ?_⟩⟩
  · cases other with
    | nil => exact List.nil_prefix
    | cons first others =>
        obtain rfl := Option.some.inj h.starts
        refine (List.prefix_cons_inj first).mpr
          (prefix_of_chain [] first rest unwraps.steps h.steps h.distinct fun final same => ?_)
        obtain rfl := Option.some.inj (last.symm.trans same)
        exact back
  · exact leafType_of_reaches (unwraps.reaches last s hs) ends

end Registry
end ApiAtlas
