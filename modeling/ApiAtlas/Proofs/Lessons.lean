import ApiAtlas.Proofs.Laws
import ApiAtlas.Proofs.Offers

/-!
# What was learned is kept, and learned once

A lesson writes to one hint: to the hint of its site, or to that of the key learned there last. The
hint grows by it, also where the lesson is said to teach nothing, and where it teaches something
one more thing is known. Over every sequence of lessons nothing is lost. A walk only changes what is
known by lessons, and the next walk of its root is only made after one that taught something, so no
two walks of a root are made with the same knowledge.

An offer made of keys is made of the offers below them. Nothing is known of sites that are longer
than all known ones, so there is an end to it.
-/
namespace ApiAtlas

namespace Table
variable {κ α : Type} [DecidableEq κ]

theorem mem_keys_put {table : List (κ × α)} {key other : κ} {value : α} :
    other ∈ keys (put table key value) ↔ other = key ∨ other ∈ keys table := by
  induction table with
  | nil => simp [put, keys]
  | cons entry rest ih =>
      obtain ⟨first, known⟩ := entry
      simp only [keys] at ih
      by_cases same : first = key
      · simp [put, keys, same]
      · simp only [put, keys, same, if_false, List.map_cons, List.mem_cons, ih]
        exact or_left_comm

theorem nodup_keys_put {table : List (κ × α)} {key : κ} {value : α} (h : (keys table).Nodup) :
    (keys (put table key value)).Nodup := by
  induction table with
  | nil => simp [put, keys]
  | cons entry rest ih =>
      obtain ⟨first, known⟩ := entry
      obtain ⟨fresh, nodup⟩ := List.nodup_cons.mp h
      by_cases same : first = key
      · simpa [put, same, keys] using h
      · rw [put, if_neg same]
        refine List.nodup_cons.mpr ⟨fun member => ?_, ih nodup⟩
        exact (mem_keys_put.mp member).elim same fresh

end Table

/-- Keys are added behind those that are known and are none of them, a variant stays, and candidates
move on until something else is learned. -/
structure Hint.Grows (hint hint' : Hint) : Prop where
  keys : ∃ more, hint'.keys = hint.keys ++ more ∧ more.Nodup ∧ ∀ key ∈ more, key ∉ hint.keys
  variant : ∀ variant, hint.variant = some variant → hint'.variant = some variant
  candidate : hint.candidate ≤ hint'.candidate
  settled : hint.isLearned → hint'.candidate = hint.candidate

/-- How much is known: keys, a variant, and candidates that were refused. -/
def Hint.weight (hint : Hint) : Nat :=
  hint.keys.length + hint.variant.toList.length + hint.candidate

namespace Hint
variable {hint hint' hint'' : Hint}

theorem isLearned_iff : hint.isLearned ↔ hint.variant ≠ none ∨ hint.keys ≠ [] := by
  simp [isLearned, Option.isSome_iff_ne_none]

namespace Grows

theorem refl (hint : Hint) : Grows hint hint :=
  ⟨⟨[], (List.append_nil _).symm, List.nodup_nil, nofun⟩, fun _ => id, Nat.le_refl _, fun _ => rfl⟩

theorem isLearned (h : Grows hint hint') (learned : hint.isLearned) : hint'.isLearned := by
  obtain ⟨more, keys, -⟩ := h.keys
  rw [isLearned_iff] at learned ⊢
  refine learned.imp (fun known => ?_) fun known => ?_
  · obtain ⟨variant, found⟩ := Option.ne_none_iff_exists'.mp known
    rw [h.variant variant found]
    exact Option.some_ne_none _
  · rw [keys]
    exact List.append_ne_nil_of_left_ne_nil known _

theorem trans (h : Grows hint hint') (h' : Grows hint' hint'') : Grows hint hint'' := by
  refine ⟨?_, fun variant known => h'.variant _ (h.variant _ known),
    Nat.le_trans h.candidate h'.candidate,
    fun learned => (h'.settled (h.isLearned learned)).trans (h.settled learned)⟩
  obtain ⟨more, keys, nodup, fresh⟩ := h.keys
  obtain ⟨more', keys', nodup', fresh'⟩ := h'.keys
  rw [keys] at keys' fresh'
  refine ⟨more ++ more', by rw [keys', List.append_assoc], ?_, fun key member => ?_⟩
  · refine List.nodup_append.mpr ⟨nodup, nodup', fun key first other second same => ?_⟩
    exact fresh' other second (List.mem_append_right _ (same ▸ first))
  · rcases List.mem_append.mp member with first | second
    · exact fresh key first
    · exact fun known => fresh' key second (List.mem_append_left _ known)

end Grows
end Hint

namespace Hints
variable {hints hints' hints'' : Hints} {site : Site}

/-- How much is known of all sites. -/
def total : Hints → Nat
  | [] => 0
  | (_, hint) :: rest => hint.weight + total rest

/-- What is known grows at every site. -/
def Grows (hints hints' : Hints) : Prop := ∀ site, (hints.get site).Grows (hints'.get site)

theorem Grows.refl (hints : Hints) : Grows hints hints := fun _ => .refl _

theorem Grows.trans (h : Grows hints hints') (h' : Grows hints' hints'') : Grows hints hints'' :=
  fun site => (h site).trans (h' site)

theorem grows_put {hint : Hint} (h : (hints.get site).Grows hint) :
    Grows hints (Table.put hints site hint) := by
  intro other
  rw [get_put]
  split
  · next same => exact same ▸ h
  · exact .refl _

theorem total_put (hints : Hints) (site : Site) (hint : Hint) :
    total (Table.put hints site hint) + (hints.get site).weight = hints.total + hint.weight := by
  induction hints with
  | nil => simp [total, Table.put, get, at?, Hint.weight]
  | cons entry rest ih =>
      obtain ⟨first, known⟩ := entry
      by_cases same : first = site
      · simp only [total, Table.put, get, at?, Table.get?, same, if_true, Option.getD_some]
        omega
      · simp only [total, Table.put, get, at?, Table.get?, same, if_false] at ih ⊢
        omega

/-- What a lesson writes: nothing, or one hint that has grown, by one thing where something was
taught. -/
structure Writes (hints : Hints) (site : Site) (x : Hints × Bool) (tag : Site) (hint : Hint) :
    Prop where
  put : x.1 = Table.put hints tag hint
  place : tag = site ∨ hints.lastKeySite? site = some tag
  grows : (hints.get tag).Grows hint
  weight : (hints.get tag).weight ≤ hint.weight
  taught : x.2 = true → hint.weight = (hints.get tag).weight + 1

theorem writes_same {tag : Site} (place : tag = site ∨ hints.lastKeySite? site = some tag) :
    Writes hints site (Table.put hints tag (hints.get tag), false) tag (hints.get tag) :=
  ⟨rfl, place, .refl _, Nat.le_refl _, nofun⟩

theorem writes_advance {tag : Site} (place : tag = site ∨ hints.lastKeySite? site = some tag) :
    ∃ hint, Writes hints site (hints.advance tag) tag hint := by
  unfold advance
  dsimp only
  split
  · exact ⟨_, writes_same place⟩
  · next unlearned =>
    refine ⟨_, rfl, place, ⟨(Hint.Grows.refl _).keys, fun _ => id, Nat.le_succ _,
      fun learned => absurd learned unlearned⟩, ?_, fun _ => ?_⟩ <;>
        simp only [Hint.weight] <;> omega

theorem revise_writes (hints : Hints) (site : Site) (kind : SiteKind) (fault : Fault) :
    hints.revise site kind fault = (hints, false) ∨
      ∃ tag hint, Writes hints site (hints.revise site kind fault) tag hint := by
  cases fault with
  | missingField field =>
      refine .inr ⟨site, ?_⟩
      unfold revise
      dsimp only
      split
      · exact ⟨_, writes_same (.inl rfl)⟩
      · next unknown =>
        have fresh : field ∉ (hints.get site).keys := by simpa using unknown
        refine ⟨_, rfl, .inl rfl, ⟨⟨[field], rfl, by simp, ?_⟩, fun _ => id,
          Nat.le_refl _, fun _ => rfl⟩, ?_, fun _ => ?_⟩
        · rintro key member
          rwa [List.mem_singleton.mp member]
        · simp only [Hint.weight, List.length_append]
          omega
        · simp only [Hint.weight, List.length_append, List.length_singleton]
          omega
  | unknownVariant variant expected =>
      unfold revise
      dsimp only
      split
      · next tag first last _ =>
        refine .inr ⟨tag, ?_⟩
        split
        · exact ⟨_, writes_same (.inr last)⟩
        · next unknown =>
          have none : (hints.get tag).variant = none := by simpa using unknown
          refine ⟨_, rfl, .inr last, ⟨(Hint.Grows.refl _).keys, fun other known => ?_,
            Nat.le_refl _, fun _ => rfl⟩, ?_, fun _ => ?_⟩
          · rw [none] at known
            cases known
          · simp only [Hint.weight, none, Option.toList_none, Option.toList_some, List.length_nil,
              List.length_singleton]
            omega
          · simp only [Hint.weight, none, Option.toList_none, Option.toList_some, List.length_nil,
              List.length_singleton]
            omega
      · exact .inl rfl
  | decode text =>
      unfold revise
      dsimp only
      split
      · next tag last => exact .inr ⟨tag, writes_advance (.inr last)⟩
      · split
        · exact .inr ⟨site, writes_advance (.inl rfl)⟩
        · exact .inl rfl

/-- Nothing is lost by a lesson. -/
theorem grows_revise (hints : Hints) (site : Site) (kind : SiteKind) (fault : Fault) :
    hints.Grows (hints.revise site kind fault).1 := by
  rcases revise_writes hints site kind fault with same | ⟨tag, hint, written⟩
  · rw [same]
    exact .refl _
  · rw [written.put]
    exact grows_put written.grows

theorem total_le_revise (hints : Hints) (site : Site) (kind : SiteKind) (fault : Fault) :
    hints.total ≤ (hints.revise site kind fault).1.total := by
  rcases revise_writes hints site kind fault with same | ⟨tag, hint, written⟩
  · exact same ▸ Nat.le_refl _
  · have counted := total_put hints tag hint
    have weight := written.weight
    rw [written.put]
    omega

/-- A lesson that teaches something teaches one thing. -/
theorem total_revise {kind : SiteKind} {fault : Fault}
    (taught : (hints.revise site kind fault).2 = true) :
    (hints.revise site kind fault).1.total = hints.total + 1 := by
  rcases revise_writes hints site kind fault with same | ⟨tag, hint, written⟩
  · rw [same] at taught
    cases taught
  · have counted := total_put hints tag hint
    have weight := written.taught taught
    rw [written.put]
    omega

/-- A lesson concerns its site and that of the key learned there last. -/
theorem at?_revise {kind : SiteKind} {fault : Fault} {other : Site} (apart : other ≠ site)
    (above : hints.lastKeySite? site ≠ some other) :
    (hints.revise site kind fault).1.at? other = hints.at? other := by
  rcases revise_writes hints site kind fault with same | ⟨tag, hint, written⟩
  · rw [same]
  · rw [written.put]
    refine Table.get?_put_of_ne _ _ ?_
    rintro rfl
    exact written.place.elim apart above

theorem nodup_revise (h : (Table.keys hints).Nodup) (site : Site) (kind : SiteKind)
    (fault : Fault) :
    (Table.keys (hints.revise site kind fault).1).Nodup := by
  rcases revise_writes hints site kind fault with same | ⟨tag, hint, written⟩
  · rwa [same]
  · rw [written.put]
    exact Table.nodup_keys_put h

/-- What surfaced at a site. -/
structure Lesson where
  site : Site
  kind : SiteKind
  fault : Fault

/-- What is known after lessons. -/
def taught (hints : Hints) (lessons : List Lesson) : Hints :=
  lessons.foldl (fun hints lesson => (hints.revise lesson.site lesson.kind lesson.fault).1) hints

theorem grows_taught (hints : Hints) (lessons : List Lesson) :
    hints.Grows (hints.taught lessons) := by
  induction lessons generalizing hints with
  | nil => exact .refl _
  | cons lesson rest ih =>
      exact (grows_revise hints lesson.site lesson.kind lesson.fault).trans (ih _)

/-- After every lesson each site is filed once, so that the total counts every site. -/
theorem nodup_taught (h : (Table.keys hints).Nodup) (lessons : List Lesson) :
    (Table.keys (hints.taught lessons)).Nodup := by
  induction lessons generalizing hints with
  | nil => exact h
  | cons lesson rest ih => exact ih (nodup_revise h lesson.site lesson.kind lesson.fault)

/-! ## Offers of what is known -/

/-- The offer at a site is made of the offer at a site below it. -/
def Beneath (hints : Hints) (below site : Site) : Prop :=
  ∃ hint key, hints.at? site = some hint ∧ hint.variant = none ∧ key ∈ hint.keys ∧
    below = site ++ [key]

theorem wellFounded_beneath (hints : Hints) : WellFounded hints.Beneath := by
  refine Subrelation.wf (r := (measure fun site : Site => hints.longest + 1 - site.length).rel)
    (fun {below site} => ?_) (measure _).wf
  rintro ⟨hint, key, known, -, -, rfl⟩
  have short := length_le_longest known
  show hints.longest + 1 - (site ++ [key]).length < hints.longest + 1 - site.length
  rw [List.length_append, List.length_singleton]
  omega

theorem value_eq (hints : Hints) (site : Site) :
    hints.value site = match hints.at? site with
      | none => .null
      | some hint =>
          match hint.variant with
          | some variant => .string variant
          | none =>
              if hint.keys.isEmpty then Hint.candidates.getD hint.candidate .null
              else .object (Table.ofList (hint.keys.map fun key =>
                (key, hints.value (site ++ [key])))) := by
  unfold value
  cases known : hints.at? site with
  | none =>
      cases hints.longest + 1 - site.length with
      | zero => rfl
      | succ depth => rw [valueWithin, known]
  | some hint =>
      have short := length_le_longest known
      have left : hints.longest + 1 - site.length = hints.longest - site.length + 1 := by omega
      have below (key : String) :
          hints.longest + 1 - (site ++ [key]).length = hints.longest - site.length := by
        rw [List.length_append, List.length_singleton]
        omega
      rw [left, valueWithin, known]
      cases variant : hint.variant with
      | some _ => simp only [variant]
      | none => simp only [variant, below]

end Hints

namespace Walk
open Decode Reader

/-- What a decode does to what is known: it grows, the total grows by the lesson of the walk, and
after it nothing changes. -/
structure Session.Learns (s t : Session) : Prop where
  grows : s.hints.Grows t.hints
  total : s.hints.total ≤ t.hints.total
  lesson : s.revised = false → t.revised = true → s.hints.total < t.hints.total
  settled : s.revised = true → t.revised = true ∧ t.hints = s.hints

namespace Session.Learns
variable {s t u : Session}

theorem of_eq (hints : t.hints = s.hints) (revised : t.revised = s.revised) : Learns s t := by
  refine ⟨hints ▸ .refl _, hints ▸ Nat.le_refl _, fun before after => ?_, fun h => ?_⟩
  · rw [revised, before] at after
    cases after
  · exact ⟨revised.trans h, hints⟩

theorem trans (h : Learns s t) (h' : Learns t u) : Learns s u := by
  refine ⟨h.grows.trans h'.grows, Nat.le_trans h.total h'.total, fun before after => ?_,
    fun taught => ?_⟩
  · cases between : t.revised with
    | false => exact Nat.lt_of_le_of_lt h.total (h'.lesson between after)
    | true => exact Nat.lt_of_lt_of_le (h.lesson before between) h'.total
  · obtain ⟨still, same⟩ := h.settled taught
    obtain ⟨still', same'⟩ := h'.settled still
    exact ⟨still', same'.trans same⟩

theorem revise (session : Session) (site : Site) (kind : SiteKind) (fault : Fault) :
    Learns session (session.revise site kind fault) := by
  unfold Session.revise
  split
  · exact of_eq rfl rfl
  · next first =>
    have unrevised : session.revised = false := by
      simp only [Bool.or_eq_true, not_or, Bool.not_eq_true] at first
      exact first.1
    refine ⟨Hints.grows_revise _ _ _ _, Hints.total_le_revise _ _ _ _, fun _ taught => ?_,
      fun before => absurd (unrevised.symm.trans before) nofun⟩
    have one := Hints.total_revise taught
    exact one ▸ Nat.lt_succ_self _

theorem noted (note : Note) (session : Session) : Learns session (note.apply session) := by
  cases note with
  | lesson site kind fault => exact revise session site kind fault
  | sample v => exact of_eq rfl rfl
  | asked site offer => exact of_eq rfl rfl
  | tree recorded => exact of_eq rfl rfl

theorem leaving (session : Session) (segment : Segment) :
    Learns session (session.leave segment) := by
  unfold Session.leave
  split <;> exact of_eq rfl rfl

end Session.Learns

/-- A decode only changes what is known by lessons, however it ends. -/
def Law.learning : Law where
  holds _ := True
  stops _ := True
  rel s t := s.session.Learns t.session
  refl _ := .of_eq rfl rfl
  trans := .trans

namespace Decode
variable {α : Type}

theorem learns_of {m : Decode α} (h : ∀ s : State, s.session.Learns (exec m s).2.session) :
    Obeys .learning m :=
  fun s _ => ⟨fun _ _ => trivial, trivial, h s⟩

theorem learns_note (note : Note) : Obeys .learning (modifySession note.apply) :=
  learns_of fun s => .noted note s.session

theorem learns_modifyNode (path : Path) (f : Shape → Shape) :
    Obeys .learning (modifyNode path f) := by
  refine learns_of fun s => ?_
  rw [exec_modifyNode]
  split <;> exact .of_eq rfl rfl

theorem learns_recordField (path : Path) (name : String) (child : Shape) :
    Obeys .learning (recordField path name child) := by
  refine learns_of fun s => ?_
  rw [exec_recordField]
  split
  · exact .of_eq rfl rfl
  · split
    · exact .of_eq rfl rfl
    · split <;> exact .of_eq rfl rfl

theorem learns_insertCache (type : TypeRef) (entry : CacheEntry) :
    Obeys .learning (insertCache type entry) :=
  learns_of fun _ => .of_eq rfl rfl

section
variable {parent : Path} {muted : Bool} {key : String} {seed : Seed α}

theorem serves_learning (hd : ∀ v, Obeys .learning (seed.run (.data .replay v))) :
    Serves .learning parent muted key seed where
  stops _ := trivial
  sample v := learns_note (.sample v)
  data := hd
  record _ := learns_recordField parent key

theorem learns_descend
    (h : Obeys .learning (seed.run (.walk (parent.child key seed.type) muted))) :
    Obeys .learning (descend parent muted key seed) := by
  refine learns_of fun s => ?_
  have entered : s.session.Learns (s.entering ⟨key, seed.type⟩).session := .of_eq rfl rfl
  rw [exec_descend]
  dsimp only
  split
  · exact entered.trans (.leaving _ _)
  · have walked := entered.trans (h (s.entering ⟨key, seed.type⟩) trivial).rel
    generalize exec (seed.run _) _ = x at walked ⊢
    obtain ⟨stop | a, t⟩ := x
    · have left := walked.trans (.leaving _ ⟨key, seed.type⟩)
      cases stop with
      | fault fault => exact left.trans (.noted (.lesson _ .any fault) _)
      | unrecorded path => exact left
      | valueBeforeKey => exact left
      | depth => exact left
    · have left := walked.trans (.leaving _ ⟨key, seed.type⟩)
      dsimp only [cacheWalked]
      split
      · split <;> exact left
      · exact left

theorem learns_walkChild
    (hw : ∀ muted', (muted = true → muted' = true) →
      Obeys .learning (seed.run (.walk (parent.child key seed.type) muted'))) :
    Obeys .learning (walkChild parent muted key seed) := by
  unfold walkChild
  cases muted with
  | true => exact learns_descend (hw true id)
  | false =>
      exact ((learns_recordField parent key (Shape.leaf seed.type)).map (! ·)).bind fun refused =>
        learns_descend (hw refused nofun)

theorem learns_readChild (hd : ∀ v, Obeys .learning (seed.run (.data .replay v)))
    (hw : ∀ muted', (muted = true → muted' = true) →
      Obeys .learning (seed.run (.walk (parent.child key seed.type) muted'))) :
    Obeys .learning (readChild parent muted key seed) :=
  (serves_learning hd).readChild (fun _ => learns_insertCache _)
    (learns_descend (hw true fun _ => rfl)) (learns_walkChild hw)

end

theorem upheld_learning : Upheld .any fun _ => .learning where
  knows _ := trivial
  stops _ := trivial
  note _ := learns_note _
  count _ _ := learns_of fun _ => .of_eq rfl rfl
  cases _ _ := learns_modifyNode _ _
  compress _ _ := learns_modifyNode _ _
  child _ hd hw := learns_readChild (hd _) hw
  inside _ _ := learns_of fun s => by
    rw [exec_reflectInside]
    exact .of_eq rfl rfl

end Decode

namespace Refines
variable {depth i j : Nat} {type : TypeExpr} {options : Options} {context : List (String × Json)}
variable {muted : Bool} {x y z : Hints × World}

/-- A number of walks come to one end. -/
theorem unique {read : TypeReader} (h : Refines read type options context muted i x y)
    (h' : Refines read type options context muted i x z) : y = z := by
  induction h with
  | refl => cases h' with | refl => rfl
  | @walk x y n _ _ run _ _ ih =>
      cases h' with
      | walk run' _ rest' =>
        obtain ⟨-, rfl⟩ := Prod.mk.inj (run.symm.trans run')
        exact ih rest'

/-- Of more walks the first ones are walks of their own. -/
theorem split {read : TypeReader} (h : Refines read type options context muted (i + j) x z) :
    ∃ y, Refines read type options context muted i x y ∧
      Refines read type options context muted j y z := by
  induction i generalizing x with
  | zero => exact ⟨x, .refl x, Nat.zero_add j ▸ h⟩
  | succ i ih =>
      rw [Nat.succ_add] at h
      cases h with
      | walk run revised rest =>
        obtain ⟨y, first, second⟩ := ih rest
        exact ⟨y, .walk run revised first, second⟩

/-- Every walk that is followed by another has taught something. -/
theorem learned (h : Refines (readType depth) type options context muted i x y) :
    x.1.Grows y.1 ∧ x.1.total + i ≤ y.1.total := by
  induction h with
  | refl x => exact ⟨.refl _, Nat.le_refl _⟩
  | @walk x y n fault t run revised _ ih =>
      have root : Obeys .learning (readRoot (readType depth) type muted) := by
        refine Obeys.onFault ?_ fun fault => learns_note (.lesson [] .any fault)
        exact upheld_learning.readType depth type (q := ⟨[], muted⟩) ⟨rfl, id⟩
      have learned := (root (rootState type options context x.1 x.2) trivial).rel
      rw [run] at learned
      have more : x.1.total < t.session.hints.total := learned.lesson rfl revised
      have later : t.session.hints.total + n ≤ y.1.total := ih.2
      exact ⟨learned.grows.trans ih.1, by omega⟩

end Refines

/-- Nothing that was learned is lost, and nothing is learned twice. Over every sequence of lessons
keys are only added, a variant stays, and candidates move on until something else is learned. A
lesson that teaches something teaches one thing, at its site or at that of the key learned there
last. So of the walks of a root, each made with what the walks before it came to, no two are made
with the same knowledge. And at every site the offer is made of offers below it, down to an end. -/
theorem lessons_kept (hints : Hints) :
    (∀ lessons, hints.Grows (hints.taught lessons) ∧
      ((Table.keys hints).Nodup → (Table.keys (hints.taught lessons)).Nodup)) ∧
    (∀ site kind fault,
      ((hints.revise site kind fault).2 = true →
        (hints.revise site kind fault).1.total = hints.total + 1) ∧
      ∀ other, other ≠ site → hints.lastKeySite? site ≠ some other →
        (hints.revise site kind fault).1.at? other = hints.at? other) ∧
    (∀ depth type options context muted w i x,
      Refines (readType depth) type options context muted i (hints, w) x →
      (∀ walks, exec (walkRoot (readType depth) type options context muted (i + walks) hints) w =
        exec (walkRoot (readType depth) type options context muted walks x.1) x.2) ∧
      ∀ j y, Refines (readType depth) type options context muted j (hints, w) y → i < j →
        x.1.Grows y.1 ∧ x.1.total < y.1.total ∧ x.1 ≠ y.1) ∧
    WellFounded hints.Beneath ∧
    ∀ site, hints.value site = match hints.at? site with
      | none => .null
      | some hint =>
          match hint.variant with
          | some variant => .string variant
          | none =>
              if hint.keys.isEmpty then Hint.candidates.getD hint.candidate .null
              else .object (Table.ofList (hint.keys.map fun key =>
                (key, hints.value (site ++ [key])))) := by
  refine ⟨fun lessons => ⟨Hints.grows_taught _ _, fun h => Hints.nodup_taught h lessons⟩,
    fun site kind fault => ⟨Hints.total_revise, fun other => Hints.at?_revise⟩,
    fun depth type options context muted w i x first => ⟨first.walkRoot, fun j y more less => ?_⟩,
    Hints.wellFounded_beneath hints, Hints.value_eq hints⟩
  obtain ⟨further, rfl⟩ : ∃ further, j = i + further := ⟨j - i, by omega⟩
  obtain ⟨z, before, after⟩ := more.split
  obtain rfl := first.unique before
  obtain ⟨grows, total⟩ := after.learned
  refine ⟨grows, by omega, fun same => ?_⟩
  rw [same] at total
  omega

namespace Retries

/-- A record read from self-describing data: one of its fields has to be a number. -/
def point : TypeExpr := .declared ⟨"T0", "api::model::T<0>"⟩

def world : World :=
  { schemas := [(⟨"T0", "api::model::T<0>"⟩, .anyRecord "Point" [⟨"x", .int .u8, false⟩])] }

/-- All candidates before the object were refused. -/
def refused : Hints := [([], { candidate := 5 })]

/-- A walk of the root. -/
def walk (x : Hints × World) : Except Stop Unit × State :=
  exec (readRoot (readType 4) point false) (rootState point {} [] x.1 x.2)

/-- What a walk leaves to the next one. -/
def next (x : Hints × World) : Hints × World := ((walk x).2.session.hints, (walk x).2.world)

/-- The object lacks a field, and the first candidate under its key is refused. -/
theorem lessons_kept_point :
    let one := next (refused, world)
    let two := next one
    one.1 = [([], { candidate := 5, keys := ["x"] })] ∧
    two.1 = [([], { candidate := 5, keys := ["x"] }), (["x"], { candidate := 1 })] ∧
    one.1.Grows two.1 ∧ one.1.total < two.1.total ∧ one.1 ≠ two.1 := by
  intro one two
  have missed : walk (refused, world) =
      (.error (.fault (.missingField "x")), (walk (refused, world)).2) :=
    Prod.ext (by decide +kernel) rfl
  have moved : walk one =
      (.error (.fault (.decode "invalid type: unit value, expected u8")), (walk one).2) :=
    Prod.ext (by decide +kernel) rfl
  have last : Refines (readType 4) point {} [] false 1 one two :=
    .walk moved (by decide +kernel) (.refl two)
  have first : Refines (readType 4) point {} [] false 1 (refused, world) one :=
    .walk missed (by decide +kernel) (.refl one)
  refine ⟨by decide +kernel, by decide +kernel, ?_⟩
  exact ((lessons_kept refused).2.2.1 4 point {} [] false world 1 one first).2 2 two
    (first.trans last) (by decide)

end Retries
end Walk
end ApiAtlas
