import ApiAtlas.Proofs.Reflect

/-!
# The depth allowance

An allowance only bounds how deeply types are read inside each other: a decode that does not use
up its allowance ends alike, and in the same state, with any larger one.
-/
namespace ApiAtlas.Walk
open Decode Reader

/-- Equal states, where the first run may use up its allowance. -/
def Bond.allowance (schemas : Schemas) : Bond schemas where
  rel s t := s = t ∧ s.world.schemas = schemas
  first := True
  second := False
  session := fun ⟨same, _⟩ => by rw [same]
  declared := fun ⟨same, h⟩ => ⟨h, same ▸ h⟩
  note := fun _ ⟨same, h⟩ => ⟨by rw [same], h⟩
  counted := fun _ ⟨same, h⟩ => ⟨by rw [same], h⟩

variable {schemas : Schemas} {α : Type}

theorem passage_allowance (parent : Path) (key : String) (type : TypeRef)
    (run run' : Source → Decode α) :
    Passage (Bond.allowance schemas) (Bond.allowance schemas) parent key type run run' where
  cached := fun h => by rw [h.1]
  registered := fun h => by rw [h.1]
  first := id
  second := id
  enter := fun h => ⟨by rw [h.1], h.2⟩
  leave := fun h => ⟨by rw [h.1], h.2⟩
  walked := fun _ _ _ _ _ _ h => ⟨by rw [h.1], h.2⟩
  documented := fun _ _ _ _ h => ⟨by rw [h.1], h.2⟩

/-- Equal worlds. -/
def SameWorld (schemas : Schemas) (w w' : World) : Prop := w = w' ∧ w.schemas = schemas

theorem entry_allowance (read : TypeReader) (type : TypeExpr) (options : Options)
    (context : List (String × Json)) :
    Entry (SameWorld schemas) (SameWorld schemas) (Bond.allowance schemas) read type options
      context where
  cached := fun h => by rw [h.1]
  registered := fun h => by rw [h.1]
  start := fun _ h => ⟨by rw [h.1], h.2⟩
  finish := fun h => ⟨by rw [h.1], h.2⟩
  weaken := id
  walked := fun _ _ _ _ h => ⟨by rw [h.1], h.2⟩
  placed := fun _ _ h _ => ⟨by rw [h.1], h.2⟩
  documented := fun _ _ _ _ h => ⟨by rw [h.1], h.2⟩

/-- A reader agrees on allowances with another if the readers of the types inside do. -/
theorem agree_readTypeWith {read read' : TypeReader}
    (inner : ∀ type source, Agree (Bond.allowance schemas) (read type source) (read' type source))
    (type : TypeExpr) (source : Source) :
    Agree (Bond.allowance schemas) (readTypeWith read type source)
      (readTypeWith read' type source) := by
  have child {α : Type} {run run' : Source → Decode α} {ref : TypeRef}
      (hr : ∀ source, Agree (Bond.allowance schemas) (run source) (run' source))
      (path : Path) (muted : Bool) (key : String) :
      Agree (Bond.allowance schemas) (readChild path muted key ⟨ref, run⟩)
        (readChild path muted key ⟨ref, run'⟩) :=
    (passage_allowance path key ref run run').readChild (fun _ => hr _) (fun _ => hr _) muted
  refine Relies.readTypeWith ⟨fun t _ => ⟨inner t, child (inner t)⟩, fun t _ style => ?_,
    child agree_readText, child agree_readValue, child agree_skipValue⟩
    (fun _ _ _ _ => .inr fun _ _ hst => by rw [hst.1]) source
  refine agree_reflectInside (I := SameWorld schemas) id id (fun {s t} hst => ?_)
    (fun hw => (entry_allowance _ t {} []).reflectWith (fun _ => inner t _) hw) style
  exact ⟨⟨by rw [hst.1], hst.2⟩, fun w w' hw => ⟨by rw [hst.1, hw.1], hw.2⟩⟩

theorem agree_readType {d d' : Nat} (h : d ≤ d') (type : TypeExpr) (source : Source) :
    Agree (Bond.allowance schemas) (readType d type source) (readType d' type source) := by
  induction d generalizing d' type source with
  | zero => exact fun s t _ => .inl ⟨trivial, rfl⟩
  | succ d ih =>
      obtain ⟨d', rfl⟩ := Nat.exists_eq_succ_of_ne_zero
        (Nat.ne_of_gt (Nat.lt_of_lt_of_le d.succ_pos h))
      exact agree_readTypeWith (fun type source =>
        ih (Nat.le_of_succ_le_succ h) type source) type source

/-- Runs that agree on allowances are equal if the first does not use up its own. -/
theorem exec_of_agree {m m' : Decode α} {s : State}
    (h : Agree (Bond.allowance s.world.schemas) m m') (used : (exec m s).1 ≠ .error .depth) :
    exec m' s = exec m s := by
  rcases h s s ⟨rfl, rfl⟩ with ⟨-, ends⟩ | ⟨ends, -⟩ | ⟨same, last, -⟩
  · exact absurd ends used
  · exact ends.elim
  · exact (Prod.ext same last).symm

/-- Reading under a key does not depend on an allowance that is not used up. -/
theorem readChild_mono {d d' : Nat} (h : d ≤ d') (path : Path) (muted : Bool) (key : String)
    (type : TypeExpr) (s : State)
    (used : (exec (readChild path muted key (seedOf (readType d) type)) s).1 ≠ .error .depth) :
    exec (readChild path muted key (seedOf (readType d') type)) s =
      exec (readChild path muted key (seedOf (readType d) type)) s :=
  exec_of_agree ((passage_allowance path key type.ref (readType d type)
    (readType d' type)).readChild (fun _ => agree_readType h type _)
      (fun _ => agree_readType h type _) muted) used

/-- A decode that does not use up its allowance is the same with a larger one. -/
theorem readType_mono {d d' : Nat} (h : d ≤ d') (type : TypeExpr) (source : Source) (s : State)
    (used : (exec (readType d type source) s).1 ≠ .error .depth) :
    exec (readType d' type source) s = exec (readType d type source) s :=
  exec_of_agree (agree_readType h type source) used

/-- Reflections by readers that agree on allowances are equal if the first does not use up its
own. -/
theorem reflectWith_of_agree {read read' : TypeReader} {type : TypeExpr} {options : Options}
    {context : List (String × Json)} {w : World}
    (h : ∀ source, Agree (Bond.allowance w.schemas) (read type source) (read' type source))
    (used : (exec (reflectWith read type options context) w).1 ≠ .error .depth) :
    exec (reflectWith read' type options context) w =
      exec (reflectWith read type options context) w := by
  have same : SameWorld w.schemas w w := ⟨rfl, rfl⟩
  rcases (entry_allowance read type options context).reflectWith (fun _ => h _) same with
    ⟨-, ends⟩ | ⟨ends, -⟩ | ⟨same, last, -⟩
  · exact absurd ends used
  · exact ends.elim
  · exact (Prod.ext same last).symm

/-- A reflection that does not use up its allowance is the same with a larger one. -/
theorem reflectWithin_mono {d d' : Nat} (h : d ≤ d') (type : TypeExpr) (options : Options)
    (context : List (String × Json)) (w : World)
    (used : (exec (reflectWithin d type options context) w).1 ≠ .error .depth) :
    exec (reflectWithin d' type options context) w =
      exec (reflectWithin d type options context) w :=
  reflectWith_of_agree (agree_readType h type) used

end ApiAtlas.Walk
