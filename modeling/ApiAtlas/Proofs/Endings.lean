import ApiAtlas.Proofs.Replay
import ApiAtlas.Proofs.Child
import Mathlib.Order.Filter.AtTopBot.Basic

/-!
# How late allowances end runs

A run ends if all late allowances end it alike, and not for want of an allowance. A ground fixes
what a run finds in the session and the world, leaves as it was where it succeeds, and keeps of the
world where it stops. Readers that are put together from runs that end, end; so do the loops over a
cursor, whatever it steps through.
-/
namespace ApiAtlas.Walk
open Decode Reader Filter

/-- A run ended with a value and in a state of a kind, or stopped in a world of a kind. -/
def Ended {α : Type} (Q : α → State → Prop) (E : World → Prop) : Except Stop α × State → Prop :=
  Outcome Q fun stop u => stop ≠ .depth ∧ E u.world

/-- From the states of a kind, late allowances end a run alike. -/
def Ends {α : Type} (P : State → Prop) (m : Nat → Decode α) (Q : α → State → Prop)
    (E : World → Prop) : Prop :=
  ∀ s, P s → ∃ x, (∀ᶠ d in atTop, exec (m d) s = x) ∧ Ended Q E x

section
variable {α β : Type} {P P' : State → Prop} {Q Q' : α → State → Prop} {R : β → State → Prop}
variable {E : World → Prop}

/-- A run that no allowance bounds. -/
theorem ends_exec {m : Decode α} (h : Triple P m Q fun stop u => stop ≠ .depth ∧ E u.world) :
    Ends P (fun _ => m) Q E :=
  fun s hs => ⟨exec m s, .of_forall fun _ => rfl, h s hs⟩

theorem Ends.weaken {m : Nat → Decode α} (h : Ends P m Q E) (pre : ∀ s, P' s → P s)
    (post : ∀ a u, Q a u → Q' a u) : Ends P' m Q' E := by
  intro s hs
  obtain ⟨x, run, ended⟩ := h s (pre s hs)
  exact ⟨x, run, ended.mono post fun _ _ stopped => stopped⟩

theorem Ends.bind {m : Nat → Decode α} {f : Nat → α → Decode β} (hm : Ends P m Q E)
    (hf : ∀ a, Ends (Q a) (fun d => f d a) R E) : Ends P (fun d => m d >>= f d) R E := by
  intro s hs
  obtain ⟨⟨stop | a, u⟩, run, ended⟩ := hm s hs
  · refine ⟨(.error stop, u), ?_, ended⟩
    filter_upwards [run] with d run
    rw [exec_bind, run]
  · obtain ⟨y, run', ended'⟩ := hf a u ended
    refine ⟨y, ?_, ended'⟩
    filter_upwards [run, run'] with d run run'
    rw [exec_bind, run]
    exact run'

/-- Looking at a fault changes no world. -/
theorem Ends.onFault {m : Nat → Decode α} {look : Fault → Decode Unit} (h : Ends P m Q E)
    (hl : ∀ fault s, ∃ t, exec (look fault) s = (.ok (), t) ∧ t.world = s.world) :
    Ends P (fun d => onFault (m d) look) Q E := by
  intro s hs
  obtain ⟨⟨stop | a, u⟩, run, ended⟩ := h s hs
  · cases stop with
    | fault fault =>
        obtain ⟨t, looked, kept⟩ := hl fault u
        refine ⟨(.error (.fault fault), t), run.mono fun d run => ?_, ended.1, kept ▸ ended.2⟩
        rw [exec_onFault, run]
        dsimp only
        rw [exec_bind, looked]
        rfl
    | depth => exact absurd rfl ended.1
    | _ =>
        refine ⟨(.error _, u), run.mono fun d run => ?_, ended⟩
        rw [exec_onFault, run]
        rfl
  · refine ⟨_, run.mono fun d run => ?_, ended⟩
    rw [exec_onFault, run]

theorem ends_throw {stop : Stop} (hs : stop ≠ .depth) (h : ∀ s, P s → E s.world) :
    Ends P (fun _ => (throw stop : Decode α)) Q E :=
  ends_exec (.throw fun s hp => ⟨hs, h s hp⟩)

theorem ends_refuse (style : Style) (problem : Problem) (h : ∀ s, P s → E s.world) :
    Ends P (fun _ => (refuse style problem : Decode α)) Q E :=
  ends_throw nofun h

end

/-! ## Grounds -/

/-- What a run finds in the session and the world. -/
structure Ground where
  options : Options
  occurrences : List (Segment × Nat)
  hints : Hints
  fits : World → Prop

namespace Ground

/-- The state is one of the ground. -/
structure Holds (G : Ground) (s : State) : Prop where
  options : s.session.options = G.options
  occurrences : s.session.occurrences = G.occurrences
  hints : s.session.hints = G.hints
  fits : G.fits s.world

/-- A run ends on the ground, with a value of a kind. -/
def Runs {α : Type} (G : Ground) (m : Nat → Decode α) (C : α → Prop) : Prop :=
  Ends G.Holds m (fun a u => G.Holds u ∧ C a) G.fits

/-- A run ends on the ground, and leaves a sample of a kind. -/
def Leaves {α : Type} (G : Ground) (m : Nat → Decode α) (D : Json → Prop) : Prop :=
  Ends G.Holds m (fun _ u => G.Holds u ∧ D u.session.sample) G.fits

variable {G : Ground} {α β : Type} {C : α → Prop} {D : Json → Prop}

theorem runs_pure {a : α} (h : C a) : G.Runs (fun _ => pure a) C :=
  ends_exec (.pure fun _ hs => ⟨hs, h⟩)

theorem Runs.bind {m : Nat → Decode α} {f : Nat → α → Decode β} {C' : β → Prop} (hm : G.Runs m C)
    (hf : ∀ a, C a → G.Runs (fun d => f d a) C') : G.Runs (fun d => m d >>= f d) C' :=
  Ends.bind hm fun a s hs => hf a hs.2 s hs.1

theorem Runs.leaves {m : Nat → Decode α} {f : Nat → α → Decode β} (hm : G.Runs m C)
    (hf : ∀ a, C a → G.Leaves (fun d => f d a) D) : G.Leaves (fun d => m d >>= f d) D :=
  Ends.bind hm fun a s hs => hf a hs.2 s hs.1

theorem Runs.mono {m : Nat → Decode α} {C' : α → Prop} (h : G.Runs m C) (sub : ∀ a, C a → C' a) :
    G.Runs m C' :=
  h.weaken (fun _ hs => hs) fun a _ hu => ⟨hu.1, sub a hu.2⟩

theorem Leaves.mono {m : Nat → Decode α} {D' : Json → Prop} (h : G.Leaves m D)
    (sub : ∀ v, D v → D' v) : G.Leaves m D' :=
  h.weaken (fun _ hs => hs) fun _ _ hu => ⟨hu.1, sub _ hu.2⟩

theorem runs_refuse (style : Style) (problem : Problem) :
    G.Runs (fun _ => (refuse style problem : Decode α)) C :=
  ends_refuse _ _ fun _ hs => hs.fits

theorem leaves_refuse (style : Style) (problem : Problem) :
    G.Leaves (fun _ => (refuse style problem : Decode α)) D :=
  ends_refuse _ _ fun _ hs => hs.fits

/-- A sample, or the recorded tree, is no matter of the ground. -/
theorem Holds.sampled {s : State} (h : G.Holds s) (v : Json) :
    G.Holds (s.inSession (Note.sample v).apply) :=
  ⟨h.options, h.occurrences, h.hints, h.fits⟩

theorem Holds.recorded {s : State} (h : G.Holds s) (tree : Shape) :
    G.Holds (s.inSession (Note.tree tree).apply) :=
  ⟨h.options, h.occurrences, h.hints, h.fits⟩

theorem leaves_setSample {v : Json} (h : D v) : G.Leaves (fun _ => setSample v) D :=
  ends_exec fun _ hs => ⟨hs.sampled v, h⟩

/-- Taking the sample of a run. -/
theorem Leaves.taken {m : Nat → Decode α} {f : Nat → α → Json → Decode β} {C : β → Prop}
    (hm : G.Leaves m D) (hf : ∀ a v, D v → G.Runs (fun d => f d a v) C) :
    G.Runs (fun d => do let a ← m d; let v ← takeSample; f d a v) C :=
  Ends.bind hm fun a => Ends.bind (Q := fun v u => G.Holds u ∧ D v)
    (ends_exec fun _ hs => ⟨hs.1.sampled _, hs.2⟩) fun v s hs => hf a v hs.2 s hs.1

theorem runs_modifyNode (path : Path) (f : Shape → Shape) :
    G.Runs (fun _ => modifyNode path f) fun _ => True :=
  ends_exec fun s hs => by
    rw [exec_modifyNode]
    split
    · exact ⟨hs.recorded _, trivial⟩
    · exact ⟨nofun, hs.fits⟩

theorem runs_recordField (path : Path) (name : String) (child : Shape) :
    G.Runs (fun _ => recordField path name child) fun _ => True :=
  ends_exec fun s hs => by
    rw [exec_recordField]
    split
    · exact ⟨nofun, hs.fits⟩
    · split
      · exact ⟨hs, trivial⟩
      · split
        · exact ⟨nofun, hs.fits⟩
        · exact ⟨hs.recorded _, trivial⟩

theorem runs_noteField (path : Path) (muted : Bool) (key : String) (child : Shape) :
    G.Runs (fun _ => noteField path muted key child) fun _ => True := by
  cases muted with
  | true => exact runs_pure trivial
  | false =>
      exact (runs_recordField path key child).bind fun _ _ => runs_pure trivial

theorem runs_checkMissing (style : Style) (fields : List FieldDecl) (isRead : Nat → Bool) :
    G.Runs (fun _ => checkMissing style fields isRead) fun _ => True := by
  unfold checkMissing
  split
  · exact runs_refuse _ _
  · exact runs_pure trivial

/-! ## Loops -/

theorem runs_readElements {K : SeqCursor → Prop} {seedAt : Nat → Nat → Seed Unit}
    (next : ∀ index cursor, K cursor → G.Runs (fun d => cursor.next? (seedAt d index))
      fun r => ∀ x ∈ r, K x.2) (more : Nat) :
    ∀ index cursor, K cursor →
      G.Runs (fun d => readElements (seedAt d) more index cursor) fun r => K r.2 := by
  induction more with
  | zero => exact fun _ _ hc => runs_pure hc
  | succ more ih =>
      refine fun index cursor hc => (next index cursor hc).bind fun r hr => ?_
      cases r with
      | none => exact runs_pure hc
      | some x => exact ih (index + 1) x.2 (hr x rfl)

/-- A loop over places: what is known of the cursor may depend on the types that are left. -/
theorem runs_readPlaces {read : Nat → TypeReader} {K : List TypeExpr → SeqCursor → Prop}
    (style : Style) (expecting : String)
    (next : ∀ t rest cursor, K (t :: rest) cursor →
      G.Runs (fun d => cursor.next? (seedOf (read d) t)) fun r => ∀ x ∈ r, K rest x.2)
    (types : List TypeExpr) :
    ∀ index cursor, K types cursor →
      G.Runs (fun d => readPlaces style expecting index (types.map (seedOf (read d))) cursor)
        fun r => K [] r.2 := by
  induction types with
  | nil => exact fun _ _ hc => runs_pure hc
  | cons t rest ih =>
      refine fun index cursor hc => (next t rest cursor hc).bind fun r hr => ?_
      cases r with
      | none => exact runs_refuse _ _
      | some x => exact ih (index + 1) x.2 (hr x rfl)

/-- A loop over entries: a key, behind which a value is due, and its value. -/
theorem runs_readEntries {K L : MapCursor → Prop} {key : Source → Decode Unit}
    {seed : Nat → Seed Unit}
    (keys : ∀ cursor, K cursor → G.Runs (fun _ => cursor.nextKey? key) fun r => ∀ x ∈ r, L x.2)
    (values : ∀ cursor, L cursor → G.Runs (fun d => cursor.nextValue (seed d)) fun r => K r.2)
    (more : Nat) :
    ∀ cursor, K cursor → G.Runs (fun d => readEntries key (seed d) more cursor) fun r => K r.2 := by
  induction more with
  | zero => exact fun _ hc => runs_pure hc
  | succ more ih =>
      refine fun cursor hc => (keys cursor hc).bind fun r hr => ?_
      cases r with
      | none => exact runs_pure hc
      | some x => exact (values x.2 (hr x rfl)).bind fun r hr => ih r.2 hr

/-- A loop over the fields of a record, of which some are done, to its end. -/
theorem runs_readFields {read : Nat → TypeReader} {K : Nat → List Nat → MapCursor → Prop}
    {L : Nat → List Nat → String → MapCursor → Prop} {F : List Nat → MapCursor → Prop}
    (style : Style) (fields : List FieldDecl) (denyUnknown : Bool)
    (ends : ∀ done cursor, K 0 done cursor → F done cursor)
    (keys : ∀ more done cursor, K (more + 1) done cursor →
      G.Runs (fun _ => cursor.nextKey? readText) fun r =>
        (r = none → F done cursor) ∧ ∀ x ∈ r, L more done x.1 x.2)
    (values : ∀ more done name cursor i field, L more done name cursor →
      findField? fields name = some (i, field) → i ∉ done →
      G.Runs (fun d => cursor.nextValue (seedOf (read d) field.type))
        fun r => K more (i :: done) r.2)
    (others : ∀ more done name cursor, L more done name cursor → findField? fields name = none →
      G.Runs (fun _ => cursor.nextValue skipSeed) fun r => K more done r.2) (more : Nat) :
    ∀ done cursor, K more done cursor →
      G.Runs (fun d => readFields (read d) style fields denyUnknown more done cursor)
        fun r => F r.1 r.2 := by
  induction more with
  | zero => exact fun done cursor hc => runs_pure (ends done cursor hc)
  | succ more ih =>
      refine fun done cursor hc => (keys more done cursor hc).bind fun r hr => ?_
      cases r with
      | none => exact runs_pure (hr.1 rfl)
      | some x =>
          obtain ⟨name, cursor⟩ := x
          have due := hr.2 (name, cursor) rfl
          dsimp only
          cases found : findField? fields name with
          | some entry =>
              obtain ⟨i, field⟩ := entry
              dsimp only
              cases twice : done.contains i with
              | true => exact runs_refuse _ _
              | false =>
                  exact (values more done name cursor i field due found (by simpa using twice)).bind
                    fun r hr => ih (i :: done) r.2 hr
          | none =>
              cases denyUnknown with
              | true => exact runs_refuse _ _
              | false =>
                  exact (others more done name cursor due found).bind fun r hr => ih done r.2 hr

end Ground
end ApiAtlas.Walk
