import ApiAtlas.Proofs.Reflect
import ApiAtlas.Proofs.RoundTrip

/-!
# What walks learn from their faults

Where keys were learned for the root and only for it, an object with these keys is offered there,
and a fault at the root adds a key, moves the key learned last on to its next candidate, or names
its variant. Nothing else that was learned changes. A walk that taught something is followed by
another, so that any number of them below the limit may be taken for granted.
-/
namespace ApiAtlas

/-- What a hint without keys offers. -/
def Hint.offer (hint : Hint) : Json :=
  match hint.variant with
  | some variant => .string variant
  | none => Hint.candidates.getD hint.candidate .null

namespace Hints
variable {hints : Hints} {answers front : List (String × Hint)} {hint : Hint} {site other : Site}
variable {key field : String} {kind : SiteKind}

theorem get_put (hints : Hints) (site other : Site) (hint : Hint) :
    get (Table.put hints site hint) other = if other = site then hint else hints.get other := by
  unfold get at?
  split
  · next same => rw [same, Table.get?_put_self]; rfl
  · next apart => rw [Table.get?_put_of_ne hints hint apart]

theorem get_put_self (hints : Hints) (site : Site) (hint : Hint) :
    get (Table.put hints site hint) site = hint := by
  rw [get_put, if_pos rfl]

theorem get_put_of_ne (hints : Hints) (hint : Hint) (h : other ≠ site) :
    get (Table.put hints site hint) other = hints.get other := by
  rw [get_put, if_neg h]

theorem at?_of_get (h : hints.get site ≠ {}) : hints.at? site = some (hints.get site) := by
  unfold get at *
  cases found : hints.at? site with
  | none => exact absurd (by rw [found]; rfl) h
  | some hint => rfl

theorem le_foldl_max (lengths : List Nat) (bound : Nat) :
    bound ≤ lengths.foldl max bound ∧ ∀ n ∈ lengths, n ≤ lengths.foldl max bound := by
  induction lengths generalizing bound with
  | nil => exact ⟨Nat.le_refl _, nofun⟩
  | cons first rest ih =>
      obtain ⟨above, all⟩ := ih (max bound first)
      refine ⟨Nat.le_trans (Nat.le_max_left _ _) above, fun n member => ?_⟩
      rcases List.mem_cons.mp member with rfl | later
      · exact Nat.le_trans (Nat.le_max_right _ _) above
      · exact all n later

theorem length_le_longest (h : hints.at? site = some hint) : site.length ≤ hints.longest :=
  (le_foldl_max _ 0).2 _ (List.mem_map_of_mem (Table.mem_of_get? h))

/-- What is offered at a site without keys. -/
theorem valueWithin_flat {depth : Nat} (enough : hints.longest < site.length + depth)
    (flat : (hints.get site).keys = []) :
    hints.valueWithin depth site = (hints.get site).offer := by
  have known : (hints.get site).offer = Json.null ∨ hints.at? site = some (hints.get site) := by
    by_cases empty : hints.get site = {}
    · exact .inl (by rw [empty]; rfl)
    · exact .inr (at?_of_get empty)
  cases found : hints.at? site with
  | none =>
      have null := known.resolve_right fun same => by rw [found] at same; cases same
      rw [null]
      cases depth with
      | zero => rfl
      | succ depth => rw [valueWithin, found]
  | some hint =>
      have same : hints.get site = hint := by rw [get, found]; rfl
      have short := length_le_longest found
      obtain ⟨depth, rfl⟩ : ∃ more, depth = more + 1 := ⟨depth - 1, by omega⟩
      rw [same] at flat ⊢
      rw [valueWithin, found]
      dsimp only
      unfold Hint.offer
      cases hint.variant with
      | some variant => rfl
      | none => simp [flat]

/-- What is offered under keys. -/
def offers (answers : List (String × Hint)) : List (String × Json) :=
  answers.map fun answer => (answer.1, answer.2.offer)

theorem keys_offers (answers : List (String × Hint)) :
    Table.keys (offers answers) = Table.keys answers := by simp [Table.keys, offers]

theorem get?_offers (answers : List (String × Hint)) (key : String) :
    Table.get? (offers answers) key = (Table.get? answers key).map Hint.offer := by
  induction answers with
  | nil => rfl
  | cons answer rest ih =>
      show Table.get? ((answer.1, answer.2.offer) :: offers rest) key = _
      by_cases same : answer.1 = key <;> simp [Table.get?, same, ih]

/-- Keys were learned for the root, with a hint for each of them and nothing below them. -/
structure Learned (hints : Hints) (answers : List (String × Hint)) : Prop where
  keys : (hints.get []).keys = Table.keys answers
  variant : (hints.get []).variant = none
  answered : ∀ key, hints.get [key] = (Table.get? answers key).getD {}
  nodup : (Table.keys answers).Nodup
  flat : ∀ answer ∈ answers, answer.2.keys = []

namespace Learned

theorem nothing : Learned [] [] := ⟨rfl, rfl, fun _ => rfl, List.nodup_nil, nofun⟩

/-- Before a key is learned a candidate is offered. -/
theorem value_nil (h : Learned hints []) :
    hints.value [] = Hint.candidates.getD (hints.get []).candidate .null := by
  rw [value, valueWithin_flat (by simp) h.keys, Hint.offer, h.variant]

/-- Once keys were learned an object with these keys is offered. -/
theorem value (h : Learned hints answers) (some : answers ≠ []) :
    hints.value [] = .object (Table.ofList (offers answers)) := by
  have keyed : (hints.get []).keys ≠ [] := by
    rw [h.keys]
    exact fun none => some (List.map_eq_nil_iff.mp none)
  have found : hints.at? [] = Option.some (hints.get []) := at?_of_get fun empty => by
    rw [empty] at keyed
    exact keyed rfl
  have offered : ∀ answer ∈ answers,
      hints.valueWithin hints.longest [answer.1] = answer.2.offer := by
    intro answer member
    have same : hints.get [answer.1] = answer.2 := by
      rw [h.answered, Table.get?_of_mem h.nodup member, Option.getD_some]
    rw [valueWithin_flat (by simp) (same ▸ h.flat answer member), same]
  rw [Hints.value, List.length_nil, Nat.sub_zero, valueWithin, found]
  dsimp only
  rw [h.variant]
  dsimp only
  rw [if_neg (by simpa using keyed), h.keys, Table.keys, List.map_map, offers]
  congr 2
  exact List.map_congr_left fun answer member => congrArg (Prod.mk _) (offered answer member)

/-- A field that was missed becomes a key. -/
theorem revise_missing (h : Learned hints answers) (fresh : field ∉ Table.keys answers)
    (kind : SiteKind) :
    ∃ hints', hints.revise [] kind (.missingField field) = (hints', true) ∧
      Learned hints' (answers ++ [(field, ({} : Hint))]) := by
  have unknown : ¬(hints.get []).keys.contains field := by simpa [h.keys] using fresh
  refine ⟨_, by rw [revise, if_neg unknown], ?_, ?_, fun key => ?_, ?_, ?_⟩
  · rw [get_put_self, h.keys]
    simp [Table.keys]
  · rw [get_put_self, h.variant]
  · rw [get_put_of_ne _ _ (List.cons_ne_nil _ _), h.answered, Table.get?_append]
    cases Table.get? answers key with
    | some hint => rfl
    | none => by_cases same : field = key <;> simp [Table.get?, same]
  · have keys : Table.keys (answers ++ [(field, ({} : Hint))]) = Table.keys answers ++ [field] := by
      simp [Table.keys]
    rw [keys]
    refine List.nodup_append.mpr ⟨h.nodup, by simp, fun key known other last => ?_⟩
    rw [List.mem_singleton.mp last]
    exact fun same => fresh (same ▸ known)
  · intro answer member
    rcases List.mem_append.mp member with before | last
    · exact h.flat answer before
    · rw [List.mem_singleton.mp last]

/-- A key that is missed again teaches nothing. -/
theorem revise_known (h : Learned hints answers) (known : field ∈ Table.keys answers) :
    (hints.revise [] kind (.missingField field)).2 = false := by
  have known : (hints.get []).keys.contains field := by simpa [h.keys] using known
  rw [revise, if_pos known]

theorem get_last (h : Learned hints (front ++ [(key, hint)])) : hints.get [key] = hint := by
  have member : (key, hint) ∈ front ++ [(key, hint)] := by simp
  rw [h.answered, Table.get?_of_mem h.nodup member, Option.getD_some]

theorem lastKeySite? (h : Learned hints (front ++ [(key, hint)])) :
    hints.lastKeySite? [] = some [key] := by
  have keys : (hints.get []).keys = Table.keys front ++ [key] := by
    rw [h.keys]
    simp [Table.keys]
  have found : hints.at? [] = some (hints.get []) := at?_of_get fun empty => by
    rw [empty] at keys
    simp at keys
  rw [Hints.lastKeySite?, found]
  simp [keys]

/-- The hint of the key learned last may change alone. -/
theorem put_last (h : Learned hints (front ++ [(key, hint)])) {hint' : Hint}
    (flat : hint'.keys = []) :
    Learned (Table.put hints [key] hint') (front ++ [(key, hint')]) := by
  have root : get (Table.put hints [key] hint') [] = hints.get [] :=
    get_put_of_ne _ _ (List.cons_ne_nil _ _).symm
  have keys : Table.keys (front ++ [(key, hint')]) = Table.keys (front ++ [(key, hint)]) := by
    simp [Table.keys]
  refine ⟨by rw [root, h.keys, keys], by rw [root, h.variant], fun other => ?_, keys ▸ h.nodup, ?_⟩
  · have fresh : Table.get? front key = none := by
      refine Table.get?_eq_none.mpr fun member => ?_
      have apart := h.nodup
      simp only [Table.keys, List.map_append, List.nodup_append] at apart
      exact apart.2.2 key member key (by simp) rfl
    by_cases same : other = key
    · rw [same, get_put_self, Table.get?_append, fresh]
      simp [Table.get?]
    · rw [get_put_of_ne _ _ (by simpa using same), h.answered, Table.get?_append,
        Table.get?_append]
      simp [Table.get?, Ne.symm same]
  · intro answer member
    rcases List.mem_append.mp member with before | last
    · exact h.flat answer (List.mem_append_left _ before)
    · rw [List.mem_singleton.mp last]
      exact flat

/-- Another fault moves the key learned last on to its next candidate. -/
theorem revise_decode (h : Learned hints (front ++ [(key, hint)])) (plain : hint.variant = none)
    (text : String) (kind : SiteKind) :
    ∃ hints', hints.revise [] kind (.decode text) =
        (hints', decide (hint.candidate + 1 < Hint.candidates.length)) ∧
      Learned hints' (front ++ [(key, { hint with candidate := hint.candidate + 1 })]) := by
  have flat : hint.keys = [] := h.flat (key, hint) (by simp)
  have unlearned : hint.isLearned = false := by rw [Hint.isLearned, plain, flat]; rfl
  refine ⟨_, ?_, h.put_last (by exact flat)⟩
  rw [revise, h.lastKeySite?]
  dsimp only [advance]
  rw [h.get_last, unlearned]
  rfl

/-- An unknown variant gives the key learned last the first one that is expected. -/
theorem revise_variant (h : Learned hints (front ++ [(key, hint)])) (plain : hint.variant = none)
    (name expected : String) (more : List String) (kind : SiteKind) :
    ∃ hints', hints.revise [] kind (.unknownVariant name (expected :: more)) = (hints', true) ∧
      Learned hints' (front ++ [(key, { hint with variant := some expected })]) := by
  have flat : hint.keys = [] := h.flat (key, hint) (by simp)
  refine ⟨_, ?_, h.put_last (by exact flat)⟩
  rw [revise, h.lastKeySite?]
  dsimp only [List.head?]
  rw [h.get_last, plain]
  rfl

/-- Before a key is learned another fault moves the root on to its next candidate. -/
theorem revise_first (h : Learned hints []) (text : String) :
    ∃ hints', hints.revise [] .any (.decode text) =
        (hints', decide ((hints.get []).candidate + 1 < Hint.candidates.length)) ∧
      Learned hints' [] ∧ (hints'.get []).candidate = (hints.get []).candidate + 1 := by
  have keys : (hints.get []).keys = [] := h.keys
  have last : hints.lastKeySite? [] = none := by
    rw [Hints.lastKeySite?]
    cases found : hints.at? [] with
    | none => rfl
    | some hint =>
        have same : hints.get [] = hint := by rw [get, found]; rfl
        rw [← same]
        simp [keys]
  have unlearned : (hints.get []).isLearned = false := by
    rw [Hint.isLearned, h.variant, keys]
    rfl
  have advanced : hints.revise [] .any (.decode text) =
      (Table.put hints [] { hints.get [] with candidate := (hints.get []).candidate + 1 },
        decide ((hints.get []).candidate + 1 < Hint.candidates.length)) := by
    rw [revise, last]
    dsimp only [advance]
    rw [if_pos rfl, unlearned]
    rfl
  refine ⟨_, advanced, ⟨?_, ?_, fun key => ?_, List.nodup_nil, nofun⟩, ?_⟩
  · rw [get_put_self]
    exact keys
  · rw [get_put_self]
    exact h.variant
  · rw [get_put_of_ne _ _ (List.cons_ne_nil _ _)]
    exact h.answered key
  · rw [get_put_self]

end Learned
end Hints

namespace Walk
open Decode
variable {read : TypeReader} {type : TypeExpr} {options : Options}
variable {context : List (String × Json)} {muted : Bool} {n m walks : Nat}
variable {x y z : Hints × World}

/-- A number of walks of a root that all fail and teach something. -/
inductive Refines (read : TypeReader) (type : TypeExpr) (options : Options)
    (context : List (String × Json)) (muted : Bool) : Nat → Hints × World → Hints × World → Prop
  | refl (x : Hints × World) : Refines read type options context muted 0 x x
  | walk {x y : Hints × World} {n : Nat} {fault : Fault} {t : State}
      (run : exec (readRoot read type muted) (rootState type options context x.1 x.2) =
        (.error (.fault fault), t))
      (revised : t.session.revised = true)
      (rest : Refines read type options context muted n (t.session.hints, t.world) y) :
      Refines read type options context muted (n + 1) x y

namespace Refines

theorem trans (first : Refines read type options context muted n x y)
    (second : Refines read type options context muted m y z) :
    Refines read type options context muted (n + m) x z := by
  induction first with
  | refl => exact (Nat.zero_add m).symm ▸ second
  | @walk x y n _ _ run revised _ ih =>
      have more : n + 1 + m = n + m + 1 := by omega
      exact more ▸ .walk run revised (ih second)

/-- What the walks come to is decided by the walks after those that only taught something. -/
theorem walkRoot (h : Refines read type options context muted n x y) (walks : Nat) :
    exec (Walk.walkRoot read type options context muted (n + walks) x.1) x.2 =
      exec (Walk.walkRoot read type options context muted walks y.1) y.2 := by
  induction h with
  | refl => rw [Nat.zero_add]
  | @walk x y n _ _ run revised _ ih =>
      have more : n + 1 + walks = n + walks + 1 := by omega
      rw [more, exec_walkRoot, run]
      dsimp only
      rw [if_pos revised]
      exact ih

/-- Where all walks only teach something, none is satisfied. -/
theorem exhausted (h : Refines read type options context muted n x y) (few : walks ≤ n) :
    ∃ fault w, exec (Walk.walkRoot read type options context muted walks x.1) x.2 =
      (.error (.fault fault), w) := by
  induction h generalizing walks with
  | refl x =>
      obtain rfl : walks = 0 := by omega
      exact ⟨_, _, rfl⟩
  | @walk x y n _ _ run revised _ ih =>
      cases walks with
      | zero => exact ⟨_, _, rfl⟩
      | succ walks =>
          rw [exec_walkRoot, run]
          dsimp only
          rw [if_pos revised]
          exact ih (Nat.le_of_succ_le_succ few)

end Refines
end Walk
end ApiAtlas
