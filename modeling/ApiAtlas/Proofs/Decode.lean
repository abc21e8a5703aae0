import ApiAtlas.Walk.Source

/-!
# Runs of decodes

What a decode does from a state: its outcome and the state it reaches, one equation for each way
of putting decodes together. What holds of an outcome is said of values and of stops apart, and the
rules for decodes in a row and for looking at stops are stated here once.

A bond relates the states of two runs. Two decodes agree on it if their runs from related states
end alike and in related states; a bond may excuse either run from that where it uses up its
allowance. A bond of equal states that meet an invariant says that the decode keeps the
invariant, also where it stops.
-/
namespace ApiAtlas.Walk

/-- Change the session of a state. -/
def State.inSession (s : State) (f : Session → Session) : State :=
  { s with session := f s.session }

@[simp] theorem State.inSession_session (s : State) (f : Session → Session) :
    (s.inSession f).session = f s.session := rfl

@[simp] theorem State.inSession_world (s : State) (f : Session → Session) :
    (s.inSession f).world = s.world := rfl

/-- A state in which the reader of a declared type was counted once more. -/
def State.counted (s : State) (slot : Slot) : State :=
  { s with world := { s.world with
    counts := Table.put s.world.counts slot (s.world.count slot + 1) } }

@[simp] theorem State.counted_session (s : State) (slot : Slot) :
    (s.counted slot).session = s.session := rfl

/-- What a reader does to a session outside of descending into a value. -/
inductive Note where
  /-- Data was handed out, or taken. -/
  | sample (v : Json)
  /-- A self-describing request was answered. -/
  | asked (site : Site) (offer : Json)
  /-- A fault surfaced. -/
  | lesson (site : Site) (kind : SiteKind) (fault : Fault)
  /-- The recorded tree changed. -/
  | tree (recorded : Shape)

/-- The session with a note made. -/
def Note.apply : Note → Session → Session
  | .sample v, session => { session with sample := v }
  | .asked site offer, session =>
      { session with
        anySites := if session.anySites.contains site then session.anySites
          else site :: session.anySites
        anyRequests := session.anyRequests + 1
        sample := offer }
  | .lesson site kind fault, session => session.revise site kind fault
  | .tree recorded, session => { session with tree := recorded }

theorem Session.revise_frame (session : Session) (site : Site) (kind : SiteKind) (fault : Fault) :
    (session.revise site kind fault).options = session.options ∧
      (session.revise site kind fault).context = session.context ∧
      (session.revise site kind fault).occurrences = session.occurrences := by
  unfold Session.revise
  split <;> exact ⟨rfl, rfl, rfl⟩

@[simp] theorem Note.apply_options (note : Note) (session : Session) :
    (note.apply session).options = session.options := by
  cases note <;> simp [Note.apply, Session.revise_frame]

@[simp] theorem Note.apply_context (note : Note) (session : Session) :
    (note.apply session).context = session.context := by
  cases note <;> simp [Note.apply, Session.revise_frame]

@[simp] theorem Note.apply_occurrences (note : Note) (session : Session) :
    (note.apply session).occurrences = session.occurrences := by
  cases note <;> simp [Note.apply, Session.revise_frame]

namespace Decode
variable {σ α β : Type}

/-- How a decode, or a reflection, ends from a state, and the state that it reaches. -/
def exec (m : ExceptT Stop (StateM σ) α) (s : σ) : Except Stop α × σ := m.run.run s

theorem exec_bind (m : ExceptT Stop (StateM σ) α) (f : α → ExceptT Stop (StateM σ) β) (s : σ) :
    exec (m >>= f) s = match exec m s with
      | (.ok a, t) => exec (f a) t
      | (.error e, t) => (.error e, t) := by
  rw [exec, ExceptT.run_bind, StateT.run_bind, exec]
  rcases m.run.run s with ⟨r, t⟩
  cases r <;> rfl

theorem exec_tryCatch (m : ExceptT Stop (StateM σ) α) (handle : Stop → ExceptT Stop (StateM σ) α)
    (s : σ) :
    exec (tryCatch m handle) s = match exec m s with
      | (.ok a, t) => (.ok a, t)
      | (.error e, t) => exec (handle e) t := by
  rw [exec, ExceptT.run_tryCatch, StateT.run_bind, exec]
  rcases m.run.run s with ⟨r, t⟩
  cases r <;> rfl

theorem exec_map (f : α → β) (m : ExceptT Stop (StateM σ) α) (s : σ) :
    exec (f <$> m) s = match exec m s with
      | (.ok a, t) => (.ok (f a), t)
      | (.error e, t) => (.error e, t) := by
  rw [exec, ExceptT.run_map, StateT.run_map, exec]
  rcases m.run.run s with ⟨r, t⟩
  cases r <;> rfl

@[simp] theorem exec_pure (a : α) (s : σ) :
    exec (pure a : ExceptT Stop (StateM σ) α) s = (.ok a, s) := rfl

@[simp] theorem exec_throw (stop : Stop) (s : σ) :
    exec (throw stop : ExceptT Stop (StateM σ) α) s = (.error stop, s) := rfl

@[simp] theorem exec_fail (fault : Fault) (s : State) :
    exec (fail fault : Decode α) s = (.error (.fault fault), s) := rfl

@[simp] theorem exec_refuse (style : Style) (problem : Problem) (s : State) :
    exec (refuse style problem : Decode α) s = (.error (.fault (style.fault problem)), s) := rfl

@[simp] theorem exec_get (s : σ) :
    exec (get : ExceptT Stop (StateM σ) σ) s = (.ok s, s) := rfl

@[simp] theorem exec_set (t s : σ) :
    exec (set t : ExceptT Stop (StateM σ) PUnit) s = (.ok (), t) := rfl

@[simp] theorem exec_modify (f : σ → σ) (s : σ) :
    exec (modify f : ExceptT Stop (StateM σ) PUnit) s = (.ok (), f s) := rfl

@[simp] theorem exec_session (s : State) : exec session s = (.ok s.session, s) := rfl

@[simp] theorem exec_world (s : State) : exec world s = (.ok s.world, s) := rfl

@[simp] theorem exec_modifySession (f : Session → Session) (s : State) :
    exec (modifySession f) s = (.ok (), s.inSession f) := rfl

@[simp] theorem exec_modifyWorld (f : World → World) (s : State) :
    exec (modifyWorld f) s = (.ok (), { s with world := f s.world }) := rfl

@[simp] theorem exec_setSample (v : Json) (s : State) :
    exec (setSample v) s = (.ok (), s.inSession (Note.sample v).apply) := rfl

@[simp] theorem exec_takeSample (s : State) :
    exec takeSample s = (.ok s.session.sample, s.inSession (Note.sample .null).apply) := rfl

@[simp] theorem exec_revise (site : Site) (kind : SiteKind) (fault : Fault) (s : State) :
    exec (revise site kind fault) s = (.ok (), s.inSession (Note.lesson site kind fault).apply) :=
  rfl

@[simp] theorem exec_cached? (type : TypeRef) (s : State) :
    exec (cached? type) s = (.ok (Table.get? s.world.cache (type, s.session.options)), s) := rfl

@[simp] theorem exec_insertCache (type : TypeRef) (entry : CacheEntry) (s : State) :
    exec (insertCache type entry) s = (.ok (), { s with world := { s.world with
      cache := Table.put s.world.cache (type, s.session.options) entry } }) := rfl

theorem exec_nodeAt (path : Path) (s : State) :
    exec (nodeAt path) s = match s.session.tree.at? path.keys with
      | some node => (.ok node, s)
      | none => (.error (.unrecorded path), s) := by
  unfold nodeAt
  rw [exec_bind, exec_session]
  dsimp only
  split <;> simp_all

theorem exec_modifyNode (path : Path) (f : Shape → Shape) (s : State) :
    exec (modifyNode path f) s = match s.session.tree.modifyAt? f path.keys with
      | some tree => (.ok (), s.inSession (Note.tree tree).apply)
      | none => (.error (.unrecorded path), s) := by
  unfold modifyNode
  rw [exec_bind, exec_session]
  dsimp only
  cases s.session.tree.modifyAt? f path.keys <;> rfl

theorem exec_onFault (m : Decode α) (look : Fault → Decode Unit) (s : State) :
    exec (onFault m look) s = match exec m s with
      | (.ok a, t) => (.ok a, t)
      | (.error stop, t) => exec (do
          match stop with
          | .fault fault => look fault
          | _ => pure ()
          throw stop) t := by
  unfold onFault
  rw [exec_tryCatch]
  rcases exec m s with ⟨_ | _, t⟩ <;> rfl

theorem ext_exec {m m' : Decode α} (h : ∀ s, exec m s = exec m' s) : m = m' :=
  funext h

theorem exec_ask_walk {path : Path} {muted : Bool} {s t : State} {request : Request} {visit : Visit}
    (expecting : String) (h : exec (Source.walkAnswer path muted request) s = (.ok visit, t)) :
    exec ((Source.walk path muted).ask request expecting) s = (.ok ⟨visit, .engine, none⟩, t) := by
  show exec (Source.walkAnswer path muted request >>= fun visit => pure _) s = _
  rw [exec_bind, h]
  rfl

/-! ## How runs end -/

/-- A run ended with a value and in a state of a kind, or it stopped for a reason and in a state of a
kind. -/
def Outcome (Q : α → σ → Prop) (E : Stop → σ → Prop) : Except Stop α × σ → Prop
  | (.ok a, t) => Q a t
  | (.error stop, t) => E stop t

namespace Outcome
variable {Q Q' : α → σ → Prop} {R : β → σ → Prop} {E E' : Stop → σ → Prop}
variable {m : ExceptT Stop (StateM σ) α} {s : σ} {x : Except Stop α × σ}

theorem mono (h : Outcome Q E x) (values : ∀ a t, Q a t → Q' a t)
    (stops : ∀ stop t, E stop t → E' stop t) : Outcome Q' E' x := by
  obtain ⟨stop | a, t⟩ := x
  · exact stops stop t h
  · exact values a t h

theorem any (x : Except Stop α × σ) : Outcome (fun _ _ => True) (fun _ _ => True) x := by
  obtain ⟨_ | _, _⟩ := x <;> trivial

/-- Runs in a row: what the second does with the value of the first. -/
theorem bind {f : α → ExceptT Stop (StateM σ) β} (h : Outcome Q E (exec m s))
    (hf : ∀ a t, Q a t → Outcome R E (exec (f a) t)) : Outcome R E (exec (m >>= f) s) := by
  rw [exec_bind]
  generalize exec m s = x at h ⊢
  obtain ⟨stop | a, t⟩ := x
  · exact h
  · exact hf a t h

/-- What is done about a stop. -/
theorem tryCatch {handle : Stop → ExceptT Stop (StateM σ) α} (h : Outcome Q E (exec m s))
    (hh : ∀ stop t, E stop t → Outcome Q E' (exec (handle stop) t)) :
    Outcome Q E' (exec (tryCatch m handle) s) := by
  rw [exec_tryCatch]
  generalize exec m s = x at h ⊢
  obtain ⟨stop | a, t⟩ := x
  · exact hh stop t h
  · exact h

end Outcome

/-- A fault is looked at and comes again; other stops are left alone. -/
theorem Outcome.onFault {Q : α → State → Prop} {E E' : Stop → State → Prop} {m : Decode α}
    {look : Fault → Decode Unit} {s : State} (h : Outcome Q E (exec m s))
    (hl : ∀ fault t, E (.fault fault) t →
      Outcome (fun _ => E' (.fault fault)) E' (exec (look fault) t))
    (others : ∀ stop t, (∀ fault, stop ≠ .fault fault) → E stop t → E' stop t) :
    Outcome Q E' (exec (onFault m look) s) := by
  refine h.tryCatch fun stop t ended => ?_
  cases stop with
  | fault fault => exact (hl fault t ended).bind fun _ _ again => again
  | unrecorded path => exact others _ t nofun ended
  | valueBeforeKey => exact others _ t nofun ended
  | depth => exact others _ t nofun ended

/-- From every state of a kind, a run ends in one of these ways. -/
def Triple (P : σ → Prop) (m : ExceptT Stop (StateM σ) α) (Q : α → σ → Prop)
    (E : Stop → σ → Prop) : Prop :=
  ∀ s, P s → Outcome Q E (exec m s)

namespace Triple
variable {P P' : σ → Prop} {Q Q' : α → σ → Prop} {R : β → σ → Prop} {E E' : Stop → σ → Prop}
variable {m : ExceptT Stop (StateM σ) α}

theorem pure {a : α} (h : ∀ s, P s → Q a s) : Triple P (Pure.pure a) Q E := h

theorem throw {stop : Stop} (h : ∀ s, P s → E stop s) :
    Triple P (MonadExcept.throw stop : ExceptT Stop (StateM σ) α) Q E := h

theorem bind {f : α → ExceptT Stop (StateM σ) β} (hm : Triple P m Q E)
    (hf : ∀ a, Triple (Q a) (f a) R E) : Triple P (m >>= f) R E :=
  fun s hs => (hm s hs).bind hf

/-- What holds of a value that a run ended with. -/
theorem value (h : Triple P m Q E) {s t : σ} {a : α} (hs : P s) (run : exec m s = (.ok a, t)) :
    Q a t := by
  have ended := h s hs
  rw [run] at ended
  exact ended

theorem weaken (h : Triple P m Q E) (pre : ∀ s, P' s → P s) (values : ∀ a t, Q a t → Q' a t)
    (stops : ∀ stop t, E stop t → E' stop t) : Triple P' m Q' E' :=
  fun s hs => (h s (pre s hs)).mono values stops

end Triple

/-- Every value that the decode ends with is of a kind. -/
def Gives (P : α → Prop) (m : Decode α) : Prop :=
  Triple (fun _ => True) m (fun a _ => P a) fun _ _ => True

theorem gives_pure {P : α → Prop} {a : α} (h : P a) : Gives P (pure a) := .pure fun _ _ => h

theorem gives_throw {P : α → Prop} (stop : Stop) : Gives P (throw stop) :=
  .throw fun _ _ => trivial

theorem gives_bind {P : β → Prop} {m : Decode α} {f : α → Decode β} (h : ∀ a, Gives P (f a)) :
    Gives P (m >>= f) :=
  Triple.bind (fun _ _ => .any _) h

end Decode

/-- What ties the states of two runs over the same schemas. -/
structure Bond (schemas : Schemas) where
  rel : State → State → Prop
  /-- Whether the first run is excused where it uses up its allowance. -/
  first : Prop
  /-- Whether the second run is. -/
  second : Prop
  session : ∀ {s t}, rel s t → s.session = t.session
  declared : ∀ {s t}, rel s t → s.world.schemas = schemas ∧ t.world.schemas = schemas
  note : ∀ {s t} (note : Note), rel s t → rel (s.inSession note.apply) (t.inSession note.apply)
  counted : ∀ {s t} (slot : Slot), rel s t → rel (s.counted slot) (t.counted slot)

namespace Decode
variable {schemas : Schemas} {B : Bond schemas} {σ α β : Type}

/-- Two runs end alike and in related states, unless one is excused. -/
def Matching (first second : Prop) (rel : σ → σ → Prop) (x y : Except Stop α × σ) : Prop :=
  first ∧ x.1 = .error .depth ∨ second ∧ y.1 = .error .depth ∨ x.1 = y.1 ∧ rel x.2 y.2

/-- Two runs match on a bond. -/
abbrev Match (B : Bond schemas) (x y : Except Stop α × State) : Prop :=
  Matching B.first B.second B.rel x y

/-- The runs of two decodes from related states end alike and in related states. -/
def Agree (B : Bond schemas) (m m' : Decode α) : Prop :=
  ∀ s t, B.rel s t → Match B (exec m s) (exec m' t)

theorem agree_pure (a : α) : Agree B (pure a) (pure a) := fun _ _ h => .inr (.inr ⟨rfl, h⟩)

theorem agree_throw (stop : Stop) : Agree B (throw stop : Decode α) (throw stop) :=
  fun _ _ h => .inr (.inr ⟨rfl, h⟩)

theorem agree_fail (fault : Fault) : Agree B (fail fault : Decode α) (fail fault) :=
  agree_throw _

theorem agree_refuse (style : Style) (problem : Problem) :
    Agree B (refuse style problem : Decode α) (refuse style problem) :=
  agree_throw _

/-- A decode that reads the session, and goes on as the session says. -/
theorem agree_session {f f' : Session → Decode α}
    (h : ∀ session, Agree B (f session) (f' session)) :
    Agree B (session >>= f) (session >>= f') := by
  intro s t hst
  rw [exec_bind, exec_bind, exec_session, exec_session]
  dsimp only
  rw [← B.session hst]
  exact h s.session s t hst

theorem agree_note (note : Note) :
    Agree B (modifySession note.apply) (modifySession note.apply) :=
  fun _ _ h => .inr (.inr ⟨rfl, B.note note h⟩)

theorem agree_setSample (v : Json) : Agree B (setSample v) (setSample v) :=
  agree_note (.sample v)

theorem agree_revise (site : Site) (kind : SiteKind) (fault : Fault) :
    Agree B (revise site kind fault) (revise site kind fault) :=
  agree_note (.lesson site kind fault)

theorem Match.bind {m m' : Decode α} {f f' : α → Decode β} {s t : State}
    (run : Match B (exec m s) (exec m' t))
    (hf : ∀ a s' t', exec m s = (.ok a, s') → exec m' t = (.ok a, t') → B.rel s' t' →
      Match B (exec (f a) s') (exec (f' a) t')) :
    Match B (exec (m >>= f) s) (exec (m' >>= f') t) := by
  rw [exec_bind, exec_bind]
  rcases hx : exec m s with ⟨r, s'⟩
  rcases hy : exec m' t with ⟨r', t'⟩
  rw [hx, hy] at run
  rcases run with ⟨first, rfl⟩ | ⟨second, rfl⟩ | ⟨same, h'⟩
  · exact .inl ⟨first, rfl⟩
  · exact .inr (.inl ⟨second, rfl⟩)
  · obtain rfl : r = r' := same
    cases r with
    | ok a => exact hf a s' t' hx hy h'
    | error stop => exact .inr (.inr ⟨rfl, h'⟩)

theorem Agree.bind {m m' : Decode α} {f f' : α → Decode β} (hm : Agree B m m')
    (hf : ∀ a, Agree B (f a) (f' a)) : Agree B (m >>= f) (m' >>= f') :=
  fun s t h => (hm s t h).bind fun a s' t' _ _ h' => hf a s' t' h'

/-- As `Agree.bind`, knowing something of the value in between. -/
theorem Agree.bindGiven {P : α → Prop} {m m' : Decode α} {f f' : α → Decode β}
    (hm : Agree B m m') (hp : Gives P m) (hf : ∀ a, P a → Agree B (f a) (f' a)) :
    Agree B (m >>= f) (m' >>= f') :=
  fun s t h => (hm s t h).bind fun a s' t' run _ h' => hf a (hp.value trivial run) s' t' h'

theorem Agree.map {m m' : Decode α} (hm : Agree B m m') (f : α → β) :
    Agree B (f <$> m) (f <$> m') := by
  rw [map_eq_pure_bind, map_eq_pure_bind]
  exact hm.bind fun a => agree_pure (f a)

theorem Agree.discard {m m' : Decode α} (hm : Agree B m m') :
    Agree B (discard m) (discard m') :=
  hm.map _

/-- Handlers have to leave an allowance that is used up alone. -/
theorem Agree.tryCatch {m m' : Decode α} {handle handle' : Stop → Decode α} (hm : Agree B m m')
    (hh : ∀ stop, Agree B (handle stop) (handle' stop))
    (hd : ∀ s, (exec (handle .depth) s).1 = .error .depth)
    (hd' : ∀ s, (exec (handle' .depth) s).1 = .error .depth) :
    Agree B (tryCatch m handle) (tryCatch m' handle') := by
  intro s t h
  have run := hm s t h
  rw [exec_tryCatch, exec_tryCatch]
  generalize exec m s = x at run ⊢
  generalize exec m' t = y at run ⊢
  obtain ⟨r, s'⟩ := x
  obtain ⟨r', t'⟩ := y
  rcases run with ⟨first, rfl⟩ | ⟨second, rfl⟩ | ⟨same, h'⟩
  · exact .inl ⟨first, hd s'⟩
  · exact .inr (.inl ⟨second, hd' t'⟩)
  · obtain rfl : r = r' := same
    cases r with
    | ok a => exact .inr (.inr ⟨rfl, h'⟩)
    | error stop => exact hh stop s' t' h'

theorem Agree.onFault {m m' : Decode α} {look : Fault → Decode Unit} (hm : Agree B m m')
    (hl : ∀ fault, Agree B (look fault) (look fault)) :
    Agree B (onFault m look) (onFault m' look) := by
  refine hm.tryCatch (fun stop => ?_) (fun _ => rfl) (fun _ => rfl)
  cases stop with
  | fault fault => exact (hl fault).bind fun _ => agree_throw _
  | _ => exact agree_throw _

theorem agree_takeSample : Agree B takeSample takeSample :=
  agree_session fun _ => (agree_setSample _).bind fun _ => agree_pure _

theorem agree_nodeAt (path : Path) : Agree B (nodeAt path) (nodeAt path) := by
  refine agree_session fun session => ?_
  split
  · exact agree_pure _
  · exact agree_throw _

theorem agree_modifyNode (path : Path) (f : Shape → Shape) :
    Agree B (modifyNode path f) (modifyNode path f) := by
  refine agree_session fun session => ?_
  split
  · exact agree_note (.tree _)
  · exact agree_throw _

theorem agree_recordField (path : Path) (name : String) (child : Shape) :
    Agree B (recordField path name child) (recordField path name child) := by
  refine (agree_nodeAt path).bind fun node => ?_
  split
  · exact agree_pure _
  · exact (agree_modifyNode path _).bind fun _ => agree_pure _

end Decode
end ApiAtlas.Walk
