import ApiAtlas.Proofs.Laws
import ApiAtlas.Proofs.Reflect

/-!
# Every node that is asked for is recorded

A reader that may record is sent to a path of the recorded tree, and the path stays in the tree
while it reads: what it reads under a key is recorded under it beforehand, or read muted where the
node does not take it, and a muted reader leaves the tree as it was. The elements of a sequence are
compressed only when they have been read. By induction on the steps of readers no node is ever
missing.
-/
namespace ApiAtlas

/-- Where a path leads on from a node, the node is there. -/
theorem Shape.at?_of_append {tree : Shape} {path rest : List String}
    (h : (tree.at? (path ++ rest)).isSome) : (tree.at? path).isSome := by
  induction path generalizing tree with
  | nil => rfl
  | cons key path ih =>
      obtain ⟨node, hn⟩ := Option.isSome_iff_exists.mp h
      obtain ⟨fields, child, htree, hg, hc⟩ := Shape.at?_cons_some hn
      rw [htree, Shape.at?_cons _ hg]
      exact ih (Option.isSome_iff_exists.mpr ⟨node, hc⟩)

namespace Walk
open Decode Reader

/-- Every step of a path is a field of the recorded tree. -/
def State.Records (s : State) (path : Path) : Prop := (s.session.tree.at? path.keys).isSome

theorem State.Records.parent {s : State} {path : Path} {key : String} {type : TypeRef}
    (h : s.Records (path.child key type)) : s.Records path := by
  have same : (path.child key type).keys = path.keys ++ [key] := by simp [Path.keys]
  unfold State.Records at h
  rw [same] at h
  exact Shape.at?_of_append h

theorem Note.apply_tree {note : Note} (h : ∀ tree, note ≠ .tree tree) (session : Session) :
    (note.apply session).tree = session.tree := by
  cases note with
  | tree recorded => exact absurd rfl (h recorded)
  | sample v => rfl
  | asked site offer => rfl
  | lesson site kind fault =>
      show (session.revise site kind fault).tree = session.tree
      unfold Session.revise
      split <;> rfl

theorem State.taught_tree (s : State) (site : Site) (stop : Stop) :
    (s.taught site stop).session.tree = s.session.tree := by
  cases stop with
  | fault fault =>
      have lesson : ∀ tree, Note.lesson site .any fault ≠ .tree tree := nofun
      exact Note.apply_tree lesson _
  | unrecorded path => rfl
  | valueBeforeKey => rfl
  | depth => rfl

/-- What a spot asks of a state: that its node is there, if it may be recorded to. -/
def State.Holds (s : State) (q : Spot) : Prop := q.muted = false → s.Records q.path

/-- No node is missing, the node of the spot stays, and a muted decode leaves the tree as it is. -/
def Law.recorded (q : Spot) : Law where
  holds s := s.Holds q
  stops stop := ∀ path, stop ≠ .unrecorded path
  rel s t := q.muted = true → t.session.tree = s.session.tree
  refl _ _ := rfl
  trans first second muted := (second muted).trans (first muted)

namespace Decode
variable {α β : Type} {q : Spot} {s : State}

/-- No run of the decode from a state with the node of the spot misses a node. -/
abbrev Safe (q : Spot) (m : Decode α) : Prop := Obeys (.recorded q) m

/-- What comes after a run and leaves the tree as it is. -/
theorem Obeyed.andThen {x : Except Stop α × State} (first : Obeyed (.recorded q) s x)
    {y : Except Stop β × State}
    (stops : ∀ stop, y.1 = .error stop → ∀ path, stop ≠ .unrecorded path)
    (same : y.2.session.tree = x.2.session.tree) : Obeyed (.recorded q) s y := by
  refine first.trans ⟨stops, ?_, fun _ => same⟩
  have holds : x.2.Holds q := first.holds
  show y.2.Holds q
  unfold State.Holds State.Records
  rw [same]
  exact holds

/-- A run that leaves the tree as it is. -/
theorem obeyed_of_tree (hs : s.Holds q) {y : Except Stop β × State}
    (stops : ∀ stop, y.1 = .error stop → ∀ path, stop ≠ .unrecorded path)
    (same : y.2.session.tree = s.session.tree) : Obeyed (.recorded q) s y :=
  (obeys_pure () s hs).andThen stops same

/-- A stop that leaves the tree as it is. -/
theorem obeyed_of_stop (hs : s.Holds q) {stop : Stop} (known : ∀ path, stop ≠ .unrecorded path)
    {t : State} (same : t.session.tree = s.session.tree) :
    Obeyed (.recorded q) s ((.error stop, t) : Except Stop β × State) := by
  refine obeyed_of_tree hs (fun other found => ?_) same
  obtain rfl := Except.error.inj found
  exact known

theorem safe_note {note : Note} (h : ∀ tree, note ≠ .tree tree) :
    Safe q (modifySession note.apply) :=
  fun s hs => obeyed_of_tree hs nofun (Note.apply_tree h s.session)

theorem safe_setSample (v : Json) : Safe q (setSample v) :=
  have plain : ∀ tree, Note.sample v ≠ .tree tree := nofun
  safe_note plain

theorem safe_insertCache (type : TypeRef) (entry : CacheEntry) : Safe q (insertCache type entry) :=
  fun _ hs => obeyed_of_tree hs nofun rfl

theorem safe_modifyNode (unmuted : q.muted = false) (f : Shape → Shape) :
    Safe q (modifyNode q.path f) := by
  intro s hs
  obtain ⟨node, hn⟩ := Option.isSome_iff_exists.mp (hs unmuted)
  rw [exec_modifyNode, Shape.modifyAt?_eq_setAt f hn]
  refine ⟨nofun, fun _ => ?_, fun muted => absurd (unmuted.symm.trans muted) nofun⟩
  exact Option.isSome_iff_exists.mpr ⟨_, Shape.at?_setAt hn _⟩

theorem safe_recordField (unmuted : q.muted = false) (name : String) (child : Shape) :
    Safe q (recordField q.path name child) := by
  have node : Safe q (nodeAt q.path) := by
    intro s hs
    obtain ⟨node, hn⟩ := Option.isSome_iff_exists.mp (hs unmuted)
    rw [exec_nodeAt, hn]
    exact obeyed_of_tree hs nofun rfl
  refine node.bind fun node => ?_
  split
  · exact obeys_pure _
  · exact (safe_modifyNode unmuted _).bind fun _ => obeys_pure _

/-! ## Reading under a key -/

section
variable {muted : Bool} {key : String} {seed : Seed α}

theorem serves_recorded (h : q.muted = true → muted = true)
    (hd : ∀ v, Safe q (seed.run (.data .replay v))) :
    Serves (.recorded q) q.path muted key seed where
  stops _ := nofun
  sample := safe_setSample
  data := hd
  record loud := safe_recordField (unmuted_of h loud) key

theorem safe_descend {parent : Path}
    (h : Safe ⟨parent.child key seed.type, muted⟩
      (seed.run (.walk (parent.child key seed.type) muted))) :
    Safe ⟨parent.child key seed.type, muted⟩ (descend parent muted key seed) := by
  intro s hs
  rw [exec_descend]
  dsimp only
  split
  · exact obeyed_of_stop hs (by nofun) (State.leaving_tree _ _)
  · have entered := h (s.entering ⟨key, seed.type⟩) hs
    have walked : Obeyed (.recorded ⟨parent.child key seed.type, muted⟩) s
        (exec (seed.run _) (s.entering ⟨key, seed.type⟩)) :=
      ⟨entered.stops, entered.holds, entered.rel⟩
    generalize exec (seed.run _) _ = x at walked ⊢
    obtain ⟨stop | a, t⟩ := x
    · exact walked.andThen (walked.stopped (β := α)).stops
        ((State.taught_tree _ _ _).trans (State.leaving_tree t _))
    · dsimp only [cacheWalked]
      split
      · next recorded =>
        have loud : muted = false := by
          simp only [Bool.and_eq_true, Bool.not_eq_true'] at recorded
          exact recorded.1
        obtain ⟨node, hn⟩ := Option.isSome_iff_exists.mp (walked.holds loud)
        rw [State.leaving_tree, hn]
        exact walked.andThen nofun (State.leaving_tree t _)
      · exact walked.andThen nofun (State.leaving_tree t _)

/-- What holds where a child was read holds where its parent is read. -/
theorem Obeyed.parent {x : Except Stop α × State} (h : q.muted = true → muted = true)
    (hs : s.Holds q) {type : TypeRef}
    (below : Obeyed (.recorded ⟨q.path.child key type, muted⟩) s x) : Obeyed (.recorded q) s x := by
  refine ⟨below.stops, fun unmuted => ?_, fun quiet => below.rel (h quiet)⟩
  cases muted with
  | false => exact (below.holds rfl).parent
  | true =>
      have same : x.2.session.tree = s.session.tree := below.rel rfl
      unfold State.Records
      rw [same]
      exact hs unmuted

theorem safe_walkChild (h : q.muted = true → muted = true)
    (hw : ∀ muted', (muted = true → muted' = true) →
      Safe ⟨q.path.child key seed.type, muted'⟩
        (seed.run (.walk (q.path.child key seed.type) muted'))) :
    Safe q (walkChild q.path muted key seed) := by
  unfold walkChild
  cases muted with
  | true =>
      intro s hs
      have child : s.Holds ⟨q.path.child key seed.type, true⟩ := fun loud =>
        absurd loud.symm Bool.false_ne_true
      exact Obeyed.parent (fun _ => rfl) hs (safe_descend (hw true id) s child)
  | false =>
      have unmuted := unmuted_of h rfl
      intro s hs
      have recorded := safe_recordField unmuted key (Shape.leaf seed.type) s hs
      show Obeyed _ s (exec ((! ·) <$> recordField q.path key (Shape.leaf seed.type) >>=
        fun refused => descend q.path refused key seed) s)
      rw [exec_bind, exec_map]
      rcases hx : exec (recordField q.path key (Shape.leaf seed.type)) s with ⟨stop | taken, t⟩ <;>
        rw [hx] at recorded
      · exact recorded.stopped
      · have child : t.Holds ⟨q.path.child key seed.type, !taken⟩ := by
          intro loud
          obtain rfl : taken = true := by simpa using loud
          have leaf := (recordField_taken hx).1
          exact Option.isSome_iff_exists.mpr ⟨_, by simpa [Path.keys] using leaf⟩
        have free : false = true → (!taken) = true := fun muted => absurd muted Bool.false_ne_true
        have below := safe_descend (hw (!taken) free) t child
        have quiet : q.muted = true → (!taken) = true := fun muted =>
          absurd (unmuted.symm.trans muted) Bool.false_ne_true
        exact recorded.trans (below.parent quiet recorded.holds)

theorem safe_readChild (h : q.muted = true → muted = true)
    (hd : ∀ v, Safe q (seed.run (.data .replay v)))
    (hw : ∀ muted', (muted = true → muted' = true) →
      Safe ⟨q.path.child key seed.type, muted'⟩
        (seed.run (.walk (q.path.child key seed.type) muted'))) :
    Safe q (readChild q.path muted key seed) := by
  refine (serves_recorded h hd).readChild (fun _ => safe_insertCache _) ?_ (safe_walkChild h hw)
  exact fun s hs => Obeyed.parent (fun _ => rfl) hs (safe_descend (hw true fun _ => rfl) s nofun)

end

/-! ## Reflections -/

section
variable {read : TypeReader} {type : TypeExpr} {options : Options} {context : List (String × Json)}

theorem found_walkRoot {muted : Bool} (h : Safe ⟨[], muted⟩ (read type (.walk [] muted)))
    (walks : Nat) (hints : Hints) (w : World) (path : Path) :
    (exec (walkRoot read type options context muted walks hints) w).1 ≠
      .error (.unrecorded path) := by
  have root : Safe ⟨[], muted⟩ (readRoot read type muted) := by
    refine h.onFault fun fault => ?_
    exact @safe_note ⟨[], muted⟩ (.lesson [] .any fault) nofun
  refine walkRoot_ends (P := fun _ x => x.1 ≠ .error (.unrecorded path)) (fun _ _ => nofun)
    (fun hints w => ?_) (fun _ _ _ => id) walks hints w
  have found := (root (rootState type options context hints w) fun _ => rfl).stops
  generalize exec (readRoot read type muted) _ = x at found ⊢
  obtain ⟨stop | _, t⟩ := x
  · exact fun same => found stop rfl path (Except.error.inj same)
  · exact nofun

/-- No reflection misses a node, if no walk of its root does. -/
theorem found_reflectWith (h : ∀ muted, Safe ⟨[], muted⟩ (read type (.walk [] muted))) (w : World)
    (path : Path) :
    (exec (reflectWith read type options context) w).1 ≠ .error (.unrecorded path) := by
  have walked (muted : Bool) (shapeOf : Shape → Shape) :
      (cacheRoot type.ref options shapeOf
        (exec (walkRoot read type options context muted maxWalks []) w)).1 ≠
          .error (.unrecorded path) := by
    have found : (exec (walkRoot read type options context muted maxWalks []) w).1 ≠
        .error (.unrecorded path) := found_walkRoot (h muted) _ _ _ _
    generalize exec (walkRoot read type options context muted maxWalks []) w = x at found ⊢
    obtain ⟨stop | ⟨shape, sample⟩, v⟩ := x
    · exact fun same => found (congrArg _ (Except.error.inj same))
    · exact nofun
  rw [exec_reflectWith]
  split
  · exact nofun
  · split
    · exact nofun
    · exact walked true _
    · exact walked false _

theorem safe_reflectInside (h : ∀ muted, Safe ⟨[], muted⟩ (read type (.walk [] muted)))
    (style : Style) : Safe q (reflectInside read style type) := by
  intro s hs
  have found : ∀ path, (exec (reflectWith read type {} []) s.world).1 ≠
      .error (.unrecorded path) := found_reflectWith h _
  rw [exec_reflectInside]
  generalize exec (reflectWith read type {} []) s.world = x at found ⊢
  obtain ⟨(fault | missing | _ | _) | shape, w⟩ := x
  · exact obeyed_of_stop hs (by nofun) rfl
  · exact absurd rfl (found missing)
  · exact obeyed_of_stop hs (by nofun) rfl
  · exact obeyed_of_stop hs (by nofun) rfl
  · exact obeyed_of_tree hs nofun rfl

end

theorem upheld_recorded : Upheld .any Law.recorded where
  knows _ := trivial
  stops known := known
  note known := safe_note known
  count _ _ := fun _ hs => obeyed_of_tree hs nofun rfl
  cases _ unmuted := safe_modifyNode unmuted _
  compress _ unmuted := safe_modifyNode unmuted _
  child quiet hd hw := safe_readChild quiet (hd _) hw
  inside _ hr := safe_reflectInside hr _

end Decode

/-- No reflection ever misses a node: the readers only handle faults, so a node missed anywhere
inside would end it. Where a reader that may record is sent to a recorded node, it ends with the
node still recorded, and where it may not record it leaves the tree as it was. -/
theorem nodes_recorded (depth : Nat) (type : TypeExpr) :
    (∀ options context w path, (exec (reflectWithin depth type options context) w).1 ≠
      .error (.unrecorded path)) ∧
    ∀ q, Obeys (.recorded q) (readType depth type (.walk q.path q.muted)) := by
  have safe (q : Spot) : Safe q (readType depth type (.walk q.path q.muted)) :=
    upheld_recorded.readType depth type ⟨rfl, id⟩
  exact ⟨fun options context => found_reflectWith fun muted => safe ⟨[], muted⟩, safe⟩

example :
    (exec (readType 1 .result (.walk [⟨"a", ⟨"u8"⟩⟩] false)) (rootState .unit {} [] [] {})).1 =
      .error (.unrecorded [⟨"a", ⟨"u8"⟩⟩]) := rfl

end Walk
end ApiAtlas
