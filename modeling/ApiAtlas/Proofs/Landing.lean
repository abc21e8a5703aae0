import Mathlib.Algebra.Group.Nat.Defs
import ApiAtlas.Proofs.Layout
import ApiAtlas.Proofs.Tree

/-!
# Walks that land

A walk of a value lands if it succeeds and leaves the session as it was, except for the node of
the value and the sample: what it left there is a piece. Reading under a key lands if the cached
shape is replayed, or if the value is walked and that walk lands.
-/
namespace ApiAtlas

/-- A body with a field recorded; a list of cases takes none. -/
def ShapeBody.withField : ShapeBody → String → Shape → ShapeBody
  | plain, key, child => fields [(key, child)]
  | fields all, key, child => fields (Table.insert all key child)
  | cases list, _, _ => cases list

/-- A body with fields recorded one after the other. -/
def ShapeBody.withFields (body : ShapeBody) (entries : List (String × Shape)) : ShapeBody :=
  entries.foldl (fun body entry => body.withField entry.1 entry.2) body

/-- The fields of a body. -/
def ShapeBody.entries : ShapeBody → List (String × Shape)
  | fields all => all
  | _ => []

theorem ShapeBody.entries_withField {body : ShapeBody} {key : String} {child : Shape}
    {entry : String × Shape} (h : entry ∈ (body.withField key child).entries) :
    entry = (key, child) ∨ entry ∈ body.entries := by
  cases body with
  | plain => exact .inl (List.mem_singleton.mp h)
  | fields all => exact Table.mem_insert h
  | cases list => exact absurd h List.not_mem_nil

/-- Fields that are told once were told before. -/
theorem Shape.entries_compress {type : TypeRef} {body : ShapeBody} {count : Nat}
    {entry : String × Shape} (h : entry ∈ (compress ⟨type, body⟩ count).body.entries) :
    ∃ key, (key, entry.2) ∈ body.entries := by
  cases body with
  | fields all =>
      unfold compress compress? at h
      dsimp only at h
      split at h
      · exact ⟨entry.1, h⟩
      · split at h
        · exact ⟨entry.1, h⟩
        · next first found =>
          split at h
          · obtain rfl := List.mem_singleton.mp h
            exact ⟨_, Table.mem_of_get? found⟩
          · exact ⟨entry.1, h⟩
  | _ => exact absurd h List.not_mem_nil

/-- Whether a body takes fields. -/
def ShapeBody.IsOpen : ShapeBody → Prop
  | cases _ => False
  | _ => True

theorem ShapeBody.IsOpen.withField {body : ShapeBody} (h : body.IsOpen) (key : String)
    (child : Shape) : (body.withField key child).IsOpen := by
  cases body with
  | cases list => exact h
  | _ => trivial

/-- Recording a field again replaces it. -/
theorem ShapeBody.IsOpen.fields {body : ShapeBody} (h : body.IsOpen) (key : String)
    (child : Shape) :
    ∃ fields, body.withField key child = .fields fields ∧ Table.get? fields key = some child ∧
      ∀ other, body.withField key other = .fields (Table.put fields key other) := by
  cases body with
  | cases list => exact h.elim
  | plain => exact ⟨[(key, child)], rfl, by simp [Table.get?], fun other => by
      simp [ShapeBody.withField, Table.put]⟩
  | fields all =>
      exact ⟨Table.insert all key child, rfl, Table.get?_insert_self _ _ _, fun other => by
        rw [Table.put_insert]; rfl⟩

theorem ShapeBody.withFields_append (body : ShapeBody) (a b : List (String × Shape)) :
    body.withFields (a ++ b) = (body.withFields a).withFields b :=
  List.foldl_append

theorem Shape.setField?_of_open (type : TypeRef) {body : ShapeBody} (h : body.IsOpen) (key : String)
    (child : Shape) :
    setField? ⟨type, body⟩ key child = some ⟨type, body.withField key child⟩ := by
  cases body with
  | cases list => exact h.elim
  | _ => rfl

/-- The child that was recorded under a key. -/
theorem Shape.at?_withField {tree : Shape} {path : List String} {type : TypeRef} {body : ShapeBody}
    (h : tree.at? path = some ⟨type, body⟩) (takes : body.IsOpen) (key : String) (child : Shape) :
    (tree.setAt path ⟨type, body.withField key child⟩).at? (path ++ [key]) = some child := by
  obtain ⟨fields, hf, found, -⟩ := takes.fields key child
  rw [hf, Shape.at?_child (Shape.at?_setAt h _), found]

/-- Replacing what was recorded under a key records the other node. -/
theorem Shape.setAt_withField {tree : Shape} {path : List String} {type : TypeRef}
    {body : ShapeBody} (h : tree.at? path = some ⟨type, body⟩) (takes : body.IsOpen) (key : String)
    (a b : Shape) :
    (tree.setAt path ⟨type, body.withField key a⟩).setAt (path ++ [key]) b =
      tree.setAt path ⟨type, body.withField key b⟩ := by
  obtain ⟨fields, hf, found, replaced⟩ := takes.fields key a
  rw [hf, Shape.setAt_child (Shape.at?_setAt h _) found, replaced]
  exact Shape.setAt_setAt h _ _

namespace Walk
open Decode Reader

/-- The node of a path is recorded, unless the walk is muted. -/
def State.Stands (s : State) (path : Path) (muted : Bool) (node : Shape) : Prop :=
  muted = false → s.session.tree.at? path.keys = some node

/-- A state that a walk landed in. -/
def State.landed (s : State) (path : Path) (muted : Bool) (node : Shape) (sample : Json)
    (w : World) : State :=
  ⟨w, { s.session with
    tree := if muted then s.session.tree else s.session.tree.setAt path.keys node
    sample }⟩

section
variable {s : State} {path : Path} {muted : Bool} {node old : Shape} {sample : Json} {w : World}

@[simp] theorem State.landed_world : (s.landed path muted node sample w).world = w := rfl

@[simp] theorem State.landed_sample :
    (s.landed path muted node sample w).session.sample = sample := rfl

@[simp] theorem State.landed_options :
    (s.landed path muted node sample w).session.options = s.session.options := rfl

@[simp] theorem State.landed_occurrences :
    (s.landed path muted node sample w).session.occurrences = s.session.occurrences := rfl

@[simp] theorem State.landed_hints :
    (s.landed path muted node sample w).session.hints = s.session.hints := rfl

@[simp] theorem State.landed_anyRequests :
    (s.landed path muted node sample w).session.anyRequests = s.session.anyRequests := rfl

theorem State.Stands.landed (h : s.Stands path muted old) (node : Shape) (sample : Json)
    (w : World) : (s.landed path muted node sample w).Stands path muted node := by
  rintro rfl
  exact Shape.at?_setAt (h rfl) node

theorem State.Stands.landed_landed (h : s.Stands path muted old) (a b : Shape) (v v' : Json)
    (w w' : World) :
    (s.landed path muted a v w).landed path muted b v' w' = s.landed path muted b v' w' := by
  unfold State.landed
  cases muted with
  | true => rfl
  | false => simp [Shape.setAt_setAt (h rfl)]

theorem State.Stands.landed_self (h : s.Stands path muted node) :
    s.landed path muted node s.session.sample s.world = s := by
  unfold State.landed
  cases muted with
  | true => rfl
  | false => simp [Shape.setAt_self (h rfl)]

theorem State.Stands.sample_landed (h : s.Stands path muted node) (v : Json) :
    s.inSession (Note.sample v).apply = s.landed path muted node v s.world := by
  unfold State.landed State.inSession Note.apply
  cases muted with
  | true => rfl
  | false => simp [Shape.setAt_self (h rfl)]

theorem State.Stands.modified (h : s.Stands path false old) (f : Shape → Shape) :
    exec (modifyNode path f) s =
      (.ok (), s.landed path false (f old) s.session.sample s.world) := by
  rw [exec_modifyNode, Shape.modifyAt?_eq_setAt f (h rfl)]
  rfl

end

/-! ## Counting steps -/

/-- The bound of repetitions, where it does not exceed a word. -/
theorem Options.runawayLimit_eq {o : Options} (h : o.cycleThreshold < 2 ^ 63) :
    o.runawayLimit = 2 * o.cycleThreshold + 1 := by
  have word : Decimal.wordBound = 2 * 2 ^ 63 := rfl
  unfold Options.runawayLimit
  exact Nat.mod_eq_of_lt (by omega)

/-- The bound of repetitions is odd. -/
theorem Options.one_le_runawayLimit (o : Options) : 1 ≤ o.runawayLimit := by
  have odd : o.runawayLimit = (2 * o.cycleThreshold + 1) % 18446744073709551616 := rfl
  omega

/-- Counts of steps, none of them zero. -/
def Positive (occurrences : List (Segment × Nat)) : Prop :=
  ∀ segment count, Table.get? occurrences segment = some count → 0 < count

theorem positive_nil : Positive [] := fun _ _ found => by cases found

/-- Counts with one step counted once more. -/
def stepped (occurrences : List (Segment × Nat)) (segment : Segment) : List (Segment × Nat) :=
  Table.put occurrences segment ((Table.get? occurrences segment).getD 0 + 1)

@[simp] theorem State.entering_occurrences (s : State) (segment : Segment) :
    (s.entering segment).session.occurrences = stepped s.session.occurrences segment := rfl

theorem Positive.stepped {occurrences : List (Segment × Nat)} (h : Positive occurrences)
    (segment : Segment) : Positive (stepped occurrences segment) := by
  intro other count hc
  unfold Walk.stepped at hc
  by_cases same : other = segment
  · rw [same, Table.get?_put_self] at hc
    exact Option.some.inj hc ▸ Nat.succ_pos _
  · rw [Table.get?_put_of_ne _ _ same] at hc
    exact h other count hc

/-- Leaving a step takes its count back. -/
theorem Positive.left {occurrences : List (Segment × Nat)} (h : Positive occurrences)
    {segment : Segment} {session : Session}
    (hs : session.occurrences = Walk.stepped occurrences segment) :
    session.leave segment = { session with occurrences } := by
  unfold Session.leave
  rw [hs, Walk.stepped, Table.get?_put_self]
  dsimp only
  cases hc : Table.get? occurrences segment with
  | none =>
      simp [Table.erase_put_of_absent _ hc]
  | some count =>
      have := h segment count hc
      rw [if_neg (by simp; omega)]
      simp [Table.put_put, Table.put_get? hc]

/-- How often the last step of a path is counted. -/
def repeatsAt (occurrences : List (Segment × Nat)) (path : Path) : Nat :=
  (path.getLast?.map fun segment => (Table.get? occurrences segment).getD 0).getD 0

theorem Session.occurrencesAt_eq (session : Session) (path : Path) :
    session.occurrencesAt path = repeatsAt session.occurrences path := by
  unfold Session.occurrencesAt repeatsAt
  cases path.getLast? <;> rfl

/-- Which of so many variants is taken at a step that stands so often: the first one, or one in
turn where the step repeats too often. -/
def turn (threshold repeats count : Nat) : Nat :=
  if threshold < repeats then (repeats - threshold) % count else 0

theorem turn_lt (threshold repeats : Nat) {count : Nat} (nonempty : 0 < count) :
    turn threshold repeats count < count := by
  unfold turn
  split
  · exact Nat.mod_lt _ nonempty
  · exact nonempty

theorem Session.occurrencesAt_child (session : Session) (path : Path) (key : String)
    (ref : TypeRef) :
    session.occurrencesAt (path.child key ref) =
      (Table.get? session.occurrences ⟨key, ref⟩).getD 0 := by
  simp [Session.occurrencesAt]

/-- A walk that lands inside a step lands outside of it. -/
theorem State.landed_left {s : State} (h : Positive s.session.occurrences) (segment : Segment)
    (path : Path) (muted : Bool) (node : Shape) (sample : Json) (w : World) :
    ((s.entering segment).landed path muted node sample w).leaving segment =
      s.landed path muted node sample w := by
  have left : ((s.entering segment).landed path muted node sample w).session.leave segment = _ :=
    h.left rfl
  unfold State.leaving State.inSession
  dsimp only
  rw [left]
  rfl

/-! ## Reading under a key -/

section
variable {α : Type} {s : State} {path : Path} {muted : Bool} {key : String} {type : TypeRef}
variable {body : ShapeBody}

theorem State.Stands.recorded (h : s.Stands path false ⟨type, body⟩) (takes : body.IsOpen)
    (key : String) (child : Shape) :
    exec (recordField path key child) s = (.ok true,
      s.landed path false ⟨type, body.withField key child⟩ s.session.sample s.world) := by
  rw [exec_recordField, h rfl]
  dsimp only
  rw [Shape.setField?_of_open type takes]
  dsimp only
  rw [Shape.modifyAt?_eq_setAt _ (h rfl)]
  rfl

/-- A node that lists cases does not take the field. -/
theorem State.Stands.refused {list : List EnumCase} (h : s.Stands path false ⟨type, .cases list⟩)
    (key : String) (child : Shape) : exec (recordField path key child) s = (.ok false, s) := by
  rw [exec_recordField, h rfl]
  rfl

theorem State.Stands.noted (h : s.Stands path muted ⟨type, body⟩) (key : String) (child : Shape) :
    exec (noteField path muted key child) s = (.ok (),
      s.landed path muted ⟨type, body.withField key child⟩ s.session.sample s.world) := by
  unfold noteField
  cases muted with
  | true => rfl
  | false =>
      show exec ((fun _ => ()) <$> recordField path key child) s = _
      cases body with
      | cases list => rw [exec_map, h.refused, ShapeBody.withField, h.landed_self]
      | plain => rw [exec_map, h.recorded trivial]
      | fields all => rw [exec_map, h.recorded trivial]

theorem Path.keys_child (path : Path) (key : String) (ref : TypeRef) :
    (path.child key ref).keys = path.keys ++ [key] := by
  simp [Path.keys]

/-- The child of a recorded node. -/
theorem State.Stands.child (h : s.Stands path muted ⟨type, body⟩) (takes : body.IsOpen)
    (key : String) (ref : TypeRef) (child : Shape) (sample : Json) (w : World) :
    (s.landed path muted ⟨type, body.withField key child⟩ sample w).Stands
      (path.child key ref) muted child := by
  rintro rfl
  rw [Path.keys_child]
  exact Shape.at?_withField (h rfl) takes key child

/-- Where a walk of the child lands, the node of the parent has the field. -/
theorem State.Stands.child_landed (h : s.Stands path muted ⟨type, body⟩) (takes : body.IsOpen)
    (key : String) (ref : TypeRef) (a b : Shape) (v v' : Json) (w w' : World) :
    (s.landed path muted ⟨type, body.withField key a⟩ v w).landed
      (path.child key ref) muted b v' w' =
      s.landed path muted ⟨type, body.withField key b⟩ v' w' := by
  cases muted with
  | true => rfl
  | false =>
      have node := Shape.setAt_withField (h rfl) takes key a b
      unfold State.landed
      rw [Path.keys_child]
      simpa using node

/-- A cached shape is recorded, and its sample is the sample of the value. -/
theorem State.Stands.served (h : s.Stands path muted ⟨type, body⟩) (seed : Seed α)
    {entry : CacheEntry} {a : α} {s' : State}
    (cached : Table.get? s.world.cache (seed.type, s.session.options) = some entry)
    (run : exec (seed.run (.data .replay entry.sample))
      (s.landed path muted ⟨type, body.withField key entry.shape⟩ s.session.sample s.world) =
        (.ok a, s')) :
    exec (readChild path muted key seed) s =
      (.ok a, s'.inSession (Note.sample entry.sample).apply) := by
  rw [exec_readChild, cached]
  dsimp only
  unfold serve
  rw [exec_bind, h.noted]
  dsimp only
  rw [exec_bind, exec_replay, run]
  rfl

/-- What a walk left is cached behind it, unless it was muted. -/
def World.keeping (w : World) (muted : Bool) (type : TypeRef) (options : Options)
    (entry : CacheEntry) : World :=
  if muted then w
  else { w with cache := Table.put w.cache (type, options) entry }

/-- A value is walked if its shape is neither cached nor registered: it is recorded under the key,
and descended into. -/
theorem State.Stands.uncached (h : s.Stands path muted ⟨type, body⟩) (takes : body.IsOpen)
    (key : String) (seed : Seed α)
    (uncached : Table.get? s.world.cache (seed.type, s.session.options) = none)
    (unregistered : s.world.registry.documentationOf? seed.type = none) :
    exec (readChild path muted key seed) s = exec (descend path muted key seed) (s.landed path muted
      ⟨type, body.withField key (Shape.leaf seed.type)⟩ s.session.sample s.world) := by
  rw [exec_readChild, uncached, unregistered]
  dsimp only
  unfold walkChild
  cases muted with
  | true => rfl
  | false =>
      show exec (((! ·) <$> recordField path key (Shape.leaf seed.type)) >>= fun refused =>
        descend path refused key seed) s = _
      rw [exec_bind, exec_map, h.recorded takes]
      rfl

/-- Where the walk lands, reading under the key does. -/
theorem State.Stands.walked (h : s.Stands path muted ⟨type, body⟩) (takes : body.IsOpen)
    (key : String) (seed : Seed α) (positive : Positive s.session.occurrences)
    (uncached : Table.get? s.world.cache (seed.type, s.session.options) = none)
    (unregistered : s.world.registry.documentationOf? seed.type = none)
    (within :
      (Table.get? (stepped s.session.occurrences ⟨key, seed.type⟩) ⟨key, seed.type⟩).getD 0 ≤
        s.session.options.runawayLimit)
    {a : α} {inside : ShapeBody} {sample : Json} {w : World}
    (run : ∀ t : State, t = (s.landed path muted
        ⟨type, body.withField key (Shape.leaf seed.type)⟩ s.session.sample s.world).entering
          ⟨key, seed.type⟩ →
      exec (seed.run (.walk (path.child key seed.type) muted)) t =
        (.ok a, t.landed (path.child key seed.type) muted ⟨seed.type, inside⟩ sample w)) :
    exec (readChild path muted key seed) s = (.ok a,
      s.landed path muted ⟨type, body.withField key ⟨seed.type, inside⟩⟩ sample
        (w.keeping muted seed.type s.session.options ⟨sample, ⟨seed.type, inside⟩⟩)) := by
  rw [h.uncached takes key seed uncached unregistered, exec_descend]
  dsimp only
  rw [run _ rfl, if_neg (by rw [Session.occurrencesAt_child]; exact Nat.not_lt.mpr within)]
  dsimp only
  have counted : Positive (s.landed path muted ⟨type, body.withField key (Shape.leaf seed.type)⟩
    s.session.sample s.world).session.occurrences := positive
  rw [State.landed_left counted, h.child_landed takes]
  unfold cacheWalked
  cases muted with
  | true => rfl
  | false =>
      have found := h.child takes key seed.type ⟨seed.type, inside⟩ sample w rfl
      rw [if_pos (by simp [State.landed, Session.enter]), found]
      rfl

end
end Walk
end ApiAtlas
