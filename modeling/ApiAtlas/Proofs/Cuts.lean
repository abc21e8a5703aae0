import ApiAtlas.Proofs.Histories
import ApiAtlas.Proofs.Stability

/-!
# Readers that stop where a value is cut off

A value whose step repeats too often is cut off, and what is left of it may be cached and shown much
later, in a walk that is in no cycle. Whether a type was cut off in a history is told by readers
that stop where one of its values would be: as long as they do not stop, they read the same. So a
reflection that they end otherwise is one that cut the type off.
-/
namespace ApiAtlas.Walk
open Decode Reader

/-- Whether the value at a path is of a watched type, and its step repeats too often. -/
def Session.cuts (watched : Options → TypeRef → Bool) (session : Session) (path : Path) : Bool :=
  match path.getLast? with
  | none => false
  | some segment => watched session.options segment.type &&
      session.options.cycleThreshold < session.occurrencesAt path

/-- Whether a value of a watched type is walked whose step repeats too often. -/
def Source.cuts (watched : Options → TypeRef → Bool) (session : Session) : Source → Bool
  | walk path _ => session.cuts watched path
  | _ => false

/-- Types are read as usual, but the reader stops where a value of a watched type is cut off. -/
def readUncut (watched : Options → TypeRef → Bool) : Nat → TypeReader
  | 0 => fun _ _ => throw .depth
  | depth + 1 => fun type source => do
      let session ← session
      if source.cuts watched session then throw .depth
      else readTypeWith (readUncut watched depth) type source

variable {watched : Options → TypeRef → Bool} {schemas : Schemas}

theorem exec_readUncut (depth : Nat) (type : TypeExpr) (source : Source) (s : State) :
    exec (readUncut watched (depth + 1) type source) s =
      if source.cuts watched s.session then (.error .depth, s)
      else exec (readTypeWith (readUncut watched depth) type source) s := by
  rw [readUncut, exec_bind, exec_session]
  dsimp only
  split <;> rfl

/-- A value in a cycle that is not stopped at is of a type that is not watched. -/
theorem Session.unwatched_of_inCycle {session : Session} {path : Path}
    (goes : session.cuts watched path = false) (cycle : session.inCycle path = true) :
    ∃ segment, path.getLast? = some segment ∧ watched session.options segment.type = false := by
  have often : session.options.cycleThreshold < session.occurrencesAt path :=
    of_decide_eq_true cycle
  unfold Session.cuts at goes
  unfold Session.occurrencesAt at often goes
  cases last : path.getLast? with
  | none =>
      rw [last] at often
      exact absurd often (Nat.not_lt_zero _)
  | some segment =>
      rw [last] at often goes
      exact ⟨segment, rfl, by simpa [often] using goes⟩

/-- Where nothing is watched, nothing stops. -/
theorem readUncut_unwatched (depth : Nat) :
    readUncut (fun _ _ => false) depth = readType depth := by
  induction depth with
  | zero => rfl
  | succ depth ih =>
      funext type source s
      have goes : source.cuts (fun _ _ => false) s.session = false := by
        cases source with
        | walk path muted => cases last : path.getLast? <;> simp [Source.cuts, Session.cuts, last]
        | _ => rfl
      show exec (readUncut _ (depth + 1) type source) s = exec (readTypeWith _ type source) s
      rw [exec_readUncut, goes, if_neg Bool.false_ne_true, ih]

theorem layered_readUncut {c : Scope} : Layered c (readUncut watched) where
  none _ _ _ _ := .throw nofun
  next h q source here := by
    refine ReadsAt.session.bind fun session _ => ?_
    split
    · exact .throw nofun
    · exact h q source here

theorem keeps_readUncut (depth : Nat) (type : TypeExpr) (source : Source) :
    Keeps (readUncut watched depth type source) := by
  obtain ⟨q, here⟩ := source.exists_at
  exact upheld_keeping.obeys
    ((layered_readUncut.sown Scope.covers_any depth trivial).follows q source here)

/-- Stopping where values are cut off is no different where it does not stop. -/
theorem agree_readUncut (depth : Nat) (type : TypeExpr) (source : Source) :
    Agree (Bond.allowance schemas) (readUncut watched depth type source)
      (readType depth type source) := by
  induction depth generalizing type source with
  | zero => exact fun _ _ _ => .inl ⟨trivial, rfl⟩
  | succ depth ih =>
      intro s t h
      show Match _ (exec (readUncut watched (depth + 1) type source) s)
        (exec (readTypeWith (readType depth) type source) t)
      rw [exec_readUncut]
      split
      · exact .inl ⟨trivial, rfl⟩
      · exact agree_readTypeWith ih type source s t h

/-! ## Histories that cut a type off -/

/-- The reflection that is asked for, by readers that stop where values are cut off. -/
def Call.uncut (call : Call) (depth : Nat) (watched : Options → TypeRef → Bool) :
    Reflection Shape :=
  reflectWith (readUncut watched depth) call.type call.options call.context

/-- The reflection that is asked for. -/
def Call.reflect (call : Call) (depth : Nat) : Reflection Shape :=
  reflectWithin depth call.type call.options call.context

/-- One type is watched under some options. -/
def only (o : Options) (ref : TypeRef) : Options → TypeRef → Bool :=
  fun o' ref' => o' = o ∧ ref' = ref

/-- Some reflection of a history cut a type off under some options: its readers do not go on as they
did if they stop there. -/
def CutOff (depth : Nat) (w : World) (calls : List Call) (o : Options) (ref : TypeRef) : Prop :=
  ∃ before call rest, calls = before ++ call :: rest ∧
    exec (call.uncut depth (only o ref)) (w.after depth before) ≠
      exec (call.reflect depth) (w.after depth before)

/-- A reflection that cut the type off is stopped there. -/
theorem CutOff.stops {depth : Nat} {w : World} {calls : List Call} {o : Options} {ref : TypeRef}
    (h : CutOff depth w calls o ref) :
    ∃ before call rest, calls = before ++ call :: rest ∧
      (exec (call.uncut depth (only o ref)) (w.after depth before)).1 = .error .depth := by
  obtain ⟨before, call, rest, same, other⟩ := h
  refine ⟨before, call, rest, same, ?_⟩
  by_contra goes
  exact other (reflectWith_of_agree (agree_readUncut depth call.type) goes).symm

end ApiAtlas.Walk
