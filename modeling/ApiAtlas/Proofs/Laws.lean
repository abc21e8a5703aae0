import ApiAtlas.Proofs.Steps

/-!
# Laws that walks obey

A law says what a decode asks of the state it starts from, how it may stop, and what ties the state
it reaches to the first one. Decodes put together from decodes that obey a law obey it. A family of
laws, one for each spot, is upheld if the steps of readers obey it: notes, counts, changes of the
node, reading under a key, and reflecting inside. Every walk of every type then obeys it, if what
the law tells of the world lets its readers reflect what they do.
-/
namespace ApiAtlas.Walk
open Reader

structure Law where
  /-- What holds before and after a decode. -/
  holds : State → Prop
  stops : Stop → Prop
  /-- What ties the states before and after. -/
  rel : State → State → Prop
  refl : ∀ s, rel s s
  trans : ∀ {s t u}, rel s t → rel t u → rel s u

namespace Decode
variable {α β : Type} {L : Law}

/-- How a decode that obeys a law ends. -/
structure Obeyed (L : Law) (s : State) (x : Except Stop α × State) : Prop where
  stops : ∀ stop, x.1 = .error stop → L.stops stop
  holds : L.holds x.2
  rel : L.rel s x.2

def Obeys (L : Law) (m : Decode α) : Prop := ∀ s, L.holds s → Obeyed L s (exec m s)

theorem Obeyed.trans {s : State} {x : Except Stop α × State} {y : Except Stop β × State}
    (first : Obeyed L s x) (second : Obeyed L x.2 y) : Obeyed L s y :=
  ⟨second.stops, second.holds, L.trans first.rel second.rel⟩

/-- A decode that stops keeps what it obeyed, whatever it was to give. -/
theorem Obeyed.stopped {s t : State} {stop : Stop}
    (h : Obeyed L s ((.error stop, t) : Except Stop α × State)) :
    Obeyed L s ((.error stop, t) : Except Stop β × State) := by
  refine ⟨fun other same => ?_, h.holds, h.rel⟩
  obtain rfl := Except.error.inj same
  exact h.stops stop rfl

theorem obeyed_iff {s : State} {x : Except Stop α × State} :
    Obeyed L s x ↔ Outcome (fun _ t => L.holds t ∧ L.rel s t)
      (fun stop t => L.stops stop ∧ L.holds t ∧ L.rel s t) x := by
  obtain ⟨stop | a, t⟩ := x
  · refine ⟨fun h => ⟨h.stops stop rfl, h.holds, h.rel⟩, fun ⟨allowed, holds, rel⟩ => ?_⟩
    exact ⟨fun other same => Except.error.inj same ▸ allowed, holds, rel⟩
  · exact ⟨fun h => ⟨h.holds, h.rel⟩, fun ⟨holds, rel⟩ => ⟨nofun, holds, rel⟩⟩

/-! ## Rules -/

/-- A decode obeys the law, and every value that it ends with is of a kind. -/
def Grants (L : Law) (P : α → Prop) (m : Decode α) : Prop :=
  ∀ s, L.holds s → Outcome (fun a t => P a ∧ L.holds t ∧ L.rel s t)
    (fun stop t => L.stops stop ∧ L.holds t ∧ L.rel s t) (exec m s)

section
variable {P : α → Prop} {Q : β → Prop} {m : Decode α}

theorem Grants.obeys (h : Grants L P m) : Obeys L m :=
  fun s hs => obeyed_iff.mpr ((h s hs).mono (fun _ _ ended => ended.2) fun _ _ ended => ended)

theorem Obeys.grants (h : Obeys L m) : Grants L (fun _ => True) m :=
  fun s hs => (obeyed_iff.mp (h s hs)).mono (fun _ _ ended => ⟨trivial, ended⟩)
    fun _ _ ended => ended

theorem grants_pure {a : α} (h : P a) : Grants L P (pure a) := fun s hs => ⟨h, hs, L.refl s⟩

theorem grants_throw {stop : Stop} (h : L.stops stop) : Grants L P (throw stop : Decode α) :=
  fun s hs => ⟨h, hs, L.refl s⟩

theorem Grants.bind {f : α → Decode β} (hm : Grants L P m) (hf : ∀ a, P a → Grants L Q (f a)) :
    Grants L Q (m >>= f) := by
  refine fun s hs => (hm s hs).bind fun a t ⟨given, holds, rel⟩ => ?_
  exact (hf a given t holds).mono (fun _ _ ⟨value, after, later⟩ => ⟨value, after, L.trans rel later⟩)
    fun _ _ ⟨allowed, after, later⟩ => ⟨allowed, after, L.trans rel later⟩

theorem Grants.tryCatch {handle : Stop → Decode α} (hm : Grants L P m)
    (hh : ∀ stop, L.stops stop → Grants L P (handle stop)) : Grants L P (tryCatch m handle) := by
  refine fun s hs => (hm s hs).tryCatch fun stop t ⟨allowed, holds, rel⟩ => ?_
  exact (hh stop allowed t holds).mono
    (fun _ _ ⟨value, after, later⟩ => ⟨value, after, L.trans rel later⟩)
    fun _ _ ⟨allowed, after, later⟩ => ⟨allowed, after, L.trans rel later⟩

theorem Grants.onFault {look : Fault → Decode Unit} (hm : Grants L P m)
    (hl : ∀ fault, Obeys L (look fault)) : Grants L P (onFault m look) := by
  refine hm.tryCatch fun stop allowed => ?_
  cases stop with
  | fault fault => exact (hl fault).grants.bind fun _ _ => grants_throw allowed
  | unrecorded path => exact grants_throw allowed
  | valueBeforeKey => exact grants_throw allowed
  | depth => exact grants_throw allowed

end

theorem obeys_pure (a : α) : Obeys L (pure a : Decode α) :=
  (grants_pure (P := fun _ => True) trivial).obeys

theorem obeys_throw {stop : Stop} (h : L.stops stop) : Obeys L (throw stop : Decode α) :=
  (grants_throw (P := fun _ => True) h).obeys

theorem obeys_session : Obeys L session := fun s hs => ⟨nofun, hs, L.refl s⟩

theorem Obeys.bind {m : Decode α} {f : α → Decode β} (hm : Obeys L m) (hf : ∀ a, Obeys L (f a)) :
    Obeys L (m >>= f) :=
  (hm.grants.bind fun a _ => (hf a).grants).obeys

theorem Obeys.map {m : Decode α} (hm : Obeys L m) (f : α → β) : Obeys L (f <$> m) := by
  rw [map_eq_pure_bind]
  exact hm.bind fun _ => obeys_pure _

theorem Obeys.tryCatch {m : Decode α} {handle : Stop → Decode α} (hm : Obeys L m)
    (hh : ∀ stop, L.stops stop → Obeys L (handle stop)) : Obeys L (tryCatch m handle) :=
  (hm.grants.tryCatch fun stop allowed => (hh stop allowed).grants).obeys

theorem Obeys.onFault {m : Decode α} {look : Fault → Decode Unit} (hm : Obeys L m)
    (hl : ∀ fault, Obeys L (look fault)) : Obeys L (onFault m look) :=
  (hm.grants.onFault hl).obeys

theorem Obeys.replay (h : ∀ fault, L.stops (.fault fault)) {seed : Seed α} {sample : Json}
    (hs : Obeys L (seed.run (.data .replay sample))) : Obeys L (replay seed sample) := by
  refine hs.tryCatch fun stop allowed => ?_
  split
  · exact obeys_throw (h _)
  · exact obeys_throw allowed

/-- Data that is replayed in the place of a value is handed out. -/
theorem Obeys.replaced {seed : Seed α} {sample : Json} (hr : Obeys L (Decode.replay seed sample))
    (hs : Obeys L (setSample sample)) :
    Obeys L (do
      let value ← Decode.replay seed sample
      setSample sample
      return value) :=
  hr.bind fun _ => hs.bind fun _ => obeys_pure _

theorem Obeys.readPlaceholder {parent : Path} {key : String} {seed : Seed α}
    (hr : ∀ sample, Obeys L (Decode.replay seed sample)) (hs : ∀ sample, Obeys L (setSample sample))
    (walked : Obeys L (descend parent true key seed)) (custom : CustomDocumentation) :
    Obeys L (Decode.readPlaceholder parent key seed custom) := by
  unfold Decode.readPlaceholder
  split
  · exact (hr _).replaced (hs _)
  · exact walked

/-! ## Values under keys -/

/-- A law allows a value to be read from data that is kept for it, and to be recorded under its key
where the walk is not muted. -/
structure Serves (L : Law) (parent : Path) (muted : Bool) (key : String) (seed : Seed α) :
    Prop where
  stops : ∀ fault, L.stops (.fault fault)
  sample : ∀ v, Obeys L (setSample v)
  data : ∀ v, Obeys L (seed.run (.data .replay v))
  record : muted = false → ∀ child, Obeys L (recordField parent key child)

namespace Serves
variable {parent : Path} {muted : Bool} {key : String} {seed : Seed α}

theorem noteField (h : Serves L parent muted key seed) (child : Shape) :
    Obeys L (noteField parent muted key child) := by
  cases muted with
  | true => exact obeys_pure ()
  | false => exact (h.record rfl child).map _

theorem replayed (h : Serves L parent muted key seed) (v : Json) : Obeys L (replay seed v) :=
  (h.data v).replay h.stops

theorem serve (h : Serves L parent muted key seed) (entry : CacheEntry) :
    Obeys L (serve parent muted key seed entry) :=
  (h.noteField _).bind fun _ => (h.replayed _).replaced (h.sample _)

theorem readPlaceholder (h : Serves L parent muted key seed)
    (walked : Obeys L (descend parent true key seed)) (custom : CustomDocumentation) :
    Obeys L (readPlaceholder parent key seed custom) :=
  .readPlaceholder h.replayed h.sample walked custom

theorem readDocumented (h : Serves L parent muted key seed)
    (cache : muted = false → ∀ entry, Obeys L (insertCache seed.type entry))
    (walked : Obeys L (descend parent true key seed)) (custom : CustomDocumentation) :
    Obeys L (readDocumented parent muted key seed custom) := by
  rw [readDocumented_eq]
  refine (h.noteField _).bind fun _ => obeys_session.bind fun before => ?_
  refine (h.readPlaceholder walked custom).bind fun value => obeys_session.bind fun after => ?_
  split
  · next recorded =>
    have loud : muted = false := by
      simp only [Bool.and_eq_true, Bool.not_eq_true'] at recorded
      exact recorded.1
    exact (cache loud _).bind fun _ => obeys_pure _
  · exact obeys_pure _

/-- A law that allows to cache what was recorded is obeyed under the key if the walk obeys it. -/
theorem readChild (h : Serves L parent muted key seed)
    (cache : muted = false → ∀ entry, Obeys L (insertCache seed.type entry))
    (descended : Obeys L (descend parent true key seed))
    (walked : Obeys L (walkChild parent muted key seed)) :
    Obeys L (readChild parent muted key seed) := by
  intro s hs
  rw [exec_readChild]
  split
  · exact h.serve _ s hs
  · split
    · exact h.readDocumented cache descended _ s hs
    · exact walked s hs

end Serves

/-! ## Walks -/

/-- The steps of readers obey the law of the spot where they are taken, and the law tells what is
known of the world. -/
structure Upheld (c : Scope) (law : Spot → Law) : Prop where
  knows : ∀ {q : Spot} {s : State}, (law q).holds s → c.knows s.world
  stops : ∀ {q : Spot} {stop : Stop}, (∀ path, stop ≠ .unrecorded path) → (law q).stops stop
  note : ∀ {q : Spot} {note : Note}, (∀ tree, note ≠ .tree tree) →
    Obeys (law q) (modifySession note.apply)
  count : ∀ {q : Spot} slot n, Obeys (law q)
    (modifyWorld fun world => { world with counts := Table.put world.counts slot n })
  cases : ∀ {q : Spot} cases, q.muted = false →
    Obeys (law q) (modifyNode q.path fun node => node.setCases cases)
  compress : ∀ {q : Spot} count, q.muted = false →
    Obeys (law q) (modifyNode q.path fun node => node.compress count)
  child : ∀ {q : Spot} {α : Type} {muted : Bool} {key : String} {seed : Seed α},
    (q.muted = true → muted = true) →
    (∀ origin value, Obeys (law q) (seed.run (.data origin value))) →
    (∀ muted', (muted = true → muted' = true) →
      Obeys (law ⟨q.path.child key seed.type, muted'⟩)
        (seed.run (.walk (q.path.child key seed.type) muted'))) →
    Obeys (law q) (readChild q.path muted key seed)
  inside : ∀ {q : Spot} {read : TypeReader} {style : Style} {root : TypeExpr}, c.starts read root →
    (∀ muted, Obeys (law ⟨[], muted⟩) (read root (.walk [] muted))) →
    Obeys (law q) (reflectInside read style root)

namespace Upheld
variable {c : Scope} {law : Spot → Law} {q : Spot}

theorem grants (h : Upheld c law) {P : α → Prop} {m : Decode α} (hm : ReadsAt c q P m) :
    Grants (law q) P m := by
  induction hm with
  | pure given => exact grants_pure given
  | throw known => exact grants_throw (h.stops known)
  | bind _ _ hm hf => exact hm.bind hf
  | tryCatch _ _ _ hu hm hh =>
      refine hm.tryCatch fun stop allowed => ?_
      by_cases missing : ∃ path, stop = .unrecorded path
      · obtain ⟨path, rfl⟩ := missing
        rw [hu path]
        exact grants_throw allowed
      · exact hh stop (not_exists.mp missing)
  | taught _ site kind hm =>
      refine hm.onFault fun fault => ?_
      exact show Obeys _ (modifySession (Note.lesson site kind fault).apply) from h.note nofun
  | session => exact obeys_session.grants
  | world => exact fun s hs => ⟨h.knows hs, hs, (law _).refl s⟩
  | note note known => exact (h.note known).grants
  | count slot n => exact (h.count slot n).grants
  | cases unmuted cases => exact (h.cases cases unmuted).grants
  | compress unmuted count => exact (h.compress count unmuted).grants
  | child quiet _ _ _ hd hw =>
      exact (h.child quiet (fun _ _ => (hd _ _ _).obeys) fun _ muted => (hw _ muted).obeys).grants
  | inside starts _ _ hr => exact (h.inside starts fun muted => (hr muted).obeys).grants

theorem obeys (h : Upheld c law) {P : α → Prop} {m : Decode α} (hm : ReadsAt c q P m) :
    Obeys (law q) m :=
  (h.grants hm).obeys

/-- Every walk of every type obeys a law that is upheld, whatever is reflected inside. -/
theorem readType (h : Upheld .any law) (depth : Nat) (type : TypeExpr) {source : Source}
    (here : source.At q) : Obeys (law q) (readType depth type source) :=
  h.obeys (follows_readType Scope.covers_any depth trivial q source here)

end Upheld
end Decode
end ApiAtlas.Walk
