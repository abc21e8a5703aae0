import ApiAtlas.Proofs.Grouping
import Mathlib.Data.List.Lex
import Mathlib.Data.Prod.Lex

/-!
# The usual order of endpoints

Endpoints are to be listed by method, four common methods in front and the others by name, and by
path within a method. They are sorted by one text instead, in which the key of the method, a slash
and the path are joined. The text gives the wanted order of two methods exactly if the key of the
one that comes first, with its slash, is the smaller text and no front of the other: then the paths
have no say in it. Names that consist of letters are in order; a name that starts with a digit may
come in front of the common methods, and a hyphen is smaller than the slash.
-/
namespace ApiAtlas

/-! ## Joined texts -/

section
variable {front behind : String}

/-- Nothing that stands behind two texts changes their order. -/
def Precedes (front behind : String) : Prop :=
  front < behind ∧ ¬ front.toList <+: behind.toList

instance (front behind : String) : Decidable (Precedes front behind) :=
  inferInstanceAs (Decidable (_ ∧ _))

theorem lex_append {x y : List Char} (less : x < y) (apart : ¬ x <+: y) (p q : List Char) :
    x ++ p < y ++ q := by
  induction x generalizing y with
  | nil => exact absurd List.nil_prefix apart
  | cons a x ih =>
      cases y with
      | nil => exact absurd less (List.not_lt_nil _)
      | cons b y =>
          rw [List.cons_append, List.cons_append]
          rcases List.cons_lt_cons_iff.mp less with smaller | ⟨rfl, rest⟩
          · exact List.cons_lt_cons_iff.mpr (.inl smaller)
          · refine List.cons_lt_cons_iff.mpr (.inr ⟨rfl, ih rest fun h => apart ?_⟩)
            exact (List.prefix_cons_inj a).mpr h

theorem Precedes.append (h : Precedes front behind) (p q : String) : front ++ p < behind ++ q := by
  rw [String.lt_iff_toList_lt, String.toList_append, String.toList_append]
  exact lex_append (String.lt_iff_toList_lt.mp h.1) h.2 _ _

theorem append_lt_append {p q : String} (less : p < q) (front : String) :
    front ++ p < front ++ q := by
  rw [String.lt_iff_toList_lt] at less ⊢
  rw [String.toList_append, String.toList_append]
  exact List.Lex.append_left (· < ·) less _

/-- Otherwise something can be put behind the first text that makes it the greater one. -/
theorem exists_append_gt (h : ¬ Precedes front behind) : ∃ p, behind < front ++ p := by
  have longer (text : String) : text < text ++ "0" := by
    simpa using append_lt_append (by decide : "" < "0") text
  by_cases less : front < behind
  · have opens : front.toList <+: behind.toList := by
      by_contra apart
      exact h ⟨less, apart⟩
    obtain ⟨rest, eq⟩ := opens
    have whole : behind = front ++ String.ofList rest := by
      rw [← String.toList_inj, String.toList_append, String.toList_ofList, eq]
    refine ⟨String.ofList rest ++ "0", ?_⟩
    rw [← String.append_assoc, ← whole]
    exact longer behind
  · exact ⟨"0", lt_of_le_of_lt (not_lt.mp less) (longer front)⟩

theorem precedes_of_front {c c' : Char} {cs cs' : List Char} (h : front.toList = c :: cs)
    (h' : behind.toList = c' :: cs') (less : c < c') : Precedes front behind := by
  refine ⟨?_, fun opens => ?_⟩
  · rw [String.lt_iff_toList_lt, h, h']
    exact List.cons_lt_cons_iff.mpr (.inl less)
  · rw [h, h'] at opens
    exact absurd (List.cons_prefix_cons.mp opens).1 less.ne

/-- A slash behind two texts keeps their order if it is smaller than what is in the greater one. -/
theorem precedes_slash (less : front < behind) (greater : ∀ c ∈ behind.toList, '/' < c) :
    Precedes (front ++ "/") (behind ++ "/") := by
  have slashed {x y : List Char} (less : x < y) (greater : ∀ c ∈ y, '/' < c) :
      x ++ ['/'] < y ++ ['/'] ∧ ¬ x ++ ['/'] <+: y ++ ['/'] := by
    induction x generalizing y with
    | nil =>
        cases y with
        | nil => exact absurd less (lt_irrefl _)
        | cons b y =>
            have after := greater b List.mem_cons_self
            exact ⟨List.cons_lt_cons_iff.mpr (.inl after),
              fun opens => after.ne (List.cons_prefix_cons.mp opens).1⟩
    | cons a x ih =>
        cases y with
        | nil => exact absurd less (List.not_lt_nil _)
        | cons b y =>
            rcases List.cons_lt_cons_iff.mp less with smaller | ⟨rfl, rest⟩
            · exact ⟨List.cons_lt_cons_iff.mpr (.inl smaller),
                fun opens => smaller.ne (List.cons_prefix_cons.mp opens).1⟩
            · obtain ⟨smaller, apart⟩ := ih rest fun c hc => greater c (List.mem_cons_of_mem _ hc)
              exact ⟨List.cons_lt_cons_iff.mpr (.inr ⟨rfl, smaller⟩),
                fun opens => apart (List.cons_prefix_cons.mp opens).2⟩
  rw [Precedes, String.lt_iff_toList_lt, String.toList_append, String.toList_append]
  exact slashed (String.lt_iff_toList_lt.mp less) greater

end

/-! ## Places -/

namespace Method
variable {m m' : Method}

/-- Four methods come first, in this order, and all others behind them. -/
def bucket : Method → Nat
  | get => 0
  | put => 1
  | post => 2
  | delete => 3
  | _ => 4

/-- The place of a method among methods: its bucket, and then its name. -/
def rank (m : Method) : Nat ×ₗ String := toLex (m.bucket, m.name)

/-- The key of a method with the slash behind it. -/
def keyFront (m : Method) : String := m.sortKey ++ "/"

/-- The sort key is the name, with a digit in front where the bucket has one. -/
theorem sortKey_eq (m : Method) :
    m.sortKey = ["1", "2", "3", "4", ""].getD m.bucket "" ++ m.name := by
  cases m <;> rfl

theorem keyFront_of_rank (same : m.rank = m'.rank) : m.keyFront = m'.keyFront := by
  obtain ⟨bucket, name⟩ := Prod.mk.inj (toLex.injective same)
  rw [keyFront, keyFront, sortKey_eq, sortKey_eq, bucket, name]

/-- The keys of two methods tell in which order they come, whatever the paths. -/
def Discerned (m m' : Method) : Prop := m.rank < m'.rank → Precedes m.keyFront m'.keyFront

instance (m m' : Method) : Decidable (Discerned m m') :=
  inferInstanceAs (Decidable (_ → _))

/-- One of the methods that come first, or a method whose name consists of letters. -/
def Lettered (m : Method) : Prop :=
  m.bucket < 4 ∨ m.bucket = 4 ∧ m.name.toList ≠ [] ∧ ∀ c ∈ m.name.toList, '9' < c

/-- The key of such a method starts with the digit of its bucket, or with a letter. -/
theorem Lettered.front (h : m.Lettered) : ∃ c cs, m.keyFront.toList = c :: cs ∧
    (m.bucket < 4 ∧ c.toNat = '1'.toNat + m.bucket ∨ m.bucket = 4 ∧ '9' < c) := by
  rcases h with common | ⟨last, nonempty, letters⟩
  · cases m with
    | get => exact ⟨'1', _, rfl, .inl (by decide)⟩
    | put => exact ⟨'2', _, rfl, .inl (by decide)⟩
    | post => exact ⟨'3', _, rfl, .inl (by decide)⟩
    | delete => exact ⟨'4', _, rfl, .inl (by decide)⟩
    | _ => exact absurd common (Nat.lt_irrefl 4)
  · obtain ⟨c, cs, eq⟩ := List.exists_cons_of_ne_nil nonempty
    refine ⟨c, cs ++ ['/'], ?_, .inr ⟨last, letters c (eq ▸ List.mem_cons_self)⟩⟩
    rw [keyFront, sortKey_eq, last]
    simp [eq]

theorem eq_of_bucket (common : m.bucket < 4) (same : m.bucket = m'.bucket) : m = m' := by
  cases m <;> cases m' <;> simp_all [bucket]

theorem discerned_of_lettered (h : m.Lettered) (h' : m'.Lettered) : m.Discerned m' := by
  intro less
  rcases Prod.Lex.toLex_lt_toLex.mp less with buckets | ⟨bucket, names⟩
  · obtain ⟨c, cs, eq, front⟩ := h.front
    obtain ⟨c', cs', eq', front'⟩ := h'.front
    refine precedes_of_front eq eq' (UInt32.lt_iff_toNat_lt.mpr ?_)
    show c.toNat < c'.toNat
    have one : '1'.toNat = 49 := rfl
    rcases front' with ⟨common, digit⟩ | ⟨last, letter⟩
    · rcases front with ⟨_, digit'⟩ | ⟨last, -⟩ <;> simp only at buckets <;> omega
    · have nine : 57 < c'.toNat := UInt32.lt_iff_toNat_lt.mp letter
      rcases front with ⟨_, digit'⟩ | ⟨last', -⟩ <;> simp only at buckets <;> omega
  · dsimp only at bucket names
    rcases h' with common | ⟨last, -, letters⟩
    · obtain rfl := eq_of_bucket common bucket.symm
      exact absurd names (lt_irrefl _)
    · rw [keyFront, keyFront, sortKey_eq, sortKey_eq, bucket, last]
      refine precedes_slash (by simpa using names) fun c hc => ?_
      exact lt_trans (by decide : '/' < '9') (letters c (by simpa using hc))

end Method

namespace Endpoint
variable {a b : Endpoint}

/-- The place of an endpoint in the usual order: that of its method, and then its path. -/
def place (e : Endpoint) : (Nat ×ₗ String) ×ₗ String := toLex (e.method.rank, e.path)

theorem sortKey_eq (e : Endpoint) : e.sortKey = e.method.keyFront ++ e.path := rfl

theorem sortKey_lt (h : a.method.Discerned b.method) (less : a.place < b.place) :
    a.sortKey < b.sortKey := by
  rw [sortKey_eq, sortKey_eq]
  rcases Prod.Lex.toLex_lt_toLex.mp less with methods | ⟨same, paths⟩
  · exact (h methods).append _ _
  · rw [Method.keyFront_of_rank same]
    exact append_lt_append paths _

theorem sortKey_of_place (same : a.place = b.place) : a.sortKey = b.sortKey := by
  obtain ⟨methods, paths⟩ := Prod.mk.inj (toLex.injective same)
  rw [sortKey_eq, sortKey_eq, Method.keyFront_of_rank methods, paths]

theorem place_le_iff (h : a.method.Discerned b.method) (h' : b.method.Discerned a.method) :
    a.place ≤ b.place ↔ a.sortKey ≤ b.sortKey := by
  refine ⟨fun le => ?_, fun le => ?_⟩
  · rcases le.lt_or_eq with less | same
    · exact (sortKey_lt h less).le
    · exact (sortKey_of_place same).le
  · by_contra greater
    exact absurd le (not_le.mpr (sortKey_lt h' (not_le.mp greater)))

end Endpoint

/-! ## Lists in order -/

section
variable {α κ κ' : Type} [LinearOrder κ] [LinearOrder κ'] {key : α → κ} {key' : α → κ'}
variable {given sorted : List α}

/-- A list that is in order is sorted. -/
theorem StableSort.of_pairwise (h : given.Pairwise fun a b => key a ≤ key b) :
    StableSort key given given :=
  ⟨.refl _, h, fun _ => rfl⟩

/-- Keys that order the elements alike sort alike. -/
theorem StableSort.congr (h : StableSort key given sorted)
    (alike : ∀ a ∈ given, ∀ b ∈ given, key' a ≤ key' b ↔ key a ≤ key b) :
    StableSort key' given sorted := by
  have same {a b : α} (ha : a ∈ given) (hb : b ∈ given) : key' a = key' b ↔ key a = key b := by
    rw [le_antisymm_iff, le_antisymm_iff, alike a ha b hb, alike b hb a ha]
  refine ⟨h.perm, ?_, fun k => ?_⟩
  · refine h.ascending.imp_of_mem fun ha hb le => ?_
    exact (alike _ (h.perm.subset ha) _ (h.perm.subset hb)).mpr le
  · by_cases found : ∃ e ∈ given, key' e = k
    · obtain ⟨e, member, rfl⟩ := found
      have sub (l : List α) (inside : ∀ a ∈ l, a ∈ given) :
          l.filter (key' · = key' e) = l.filter (key · = key e) :=
        List.filter_congr fun a ha => decide_eq_decide.mpr (same (inside a ha) member)
      rw [sub sorted fun a ha => h.perm.subset ha, sub given fun _ => id, h.stable]
    · have none (l : List α) (inside : ∀ a ∈ l, a ∈ given) : l.filter (key' · = k) = [] :=
        List.filter_eq_nil_iff.mpr fun a ha eq => found ⟨a, inside a ha, of_decide_eq_true eq⟩
      rw [none sorted fun a ha => h.perm.subset ha, none given fun _ => id]

end

namespace View
variable {naming : Naming}

/-- Endpoints without a group are shown in the order of their sort keys. -/
theorem showsSorted_others {endpoints : List Endpoint} (h : ∀ e ∈ endpoints, e.groupName = none) :
    ShowsSorted Endpoint.sortKey naming endpoints
      (build Endpoint.sortKey naming endpoints).others := by
  have shown := (shows_build Endpoint.sortKey naming endpoints).others
  rwa [members, List.filter_eq_self.mpr fun e he => decide_eq_true (h e he)] at shown

theorem others_swapped {a b : Endpoint} (ungrouped : ∀ e ∈ [a, b], e.groupName = none)
    (key : b.sortKey < a.sortKey) :
    (build Endpoint.sortKey naming [a, b]).others = [.of naming b, .of naming a] := by
  have shows : ShowsSorted Endpoint.sortKey naming [a, b] _ := showsSorted_others ungrouped
  obtain ⟨sorted, stable, shown⟩ := shows
  obtain rfl : sorted = [b, a] :=
    (StableSort.of_pairwise (by simpa using key.le)).eq_of_perm stable (.swap _ _ _)
      (by simpa using key.ne)
  exact shown

/-- Where the keys of the methods tell their order, it is the usual one. -/
theorem showsSorted_place {endpoints : List Endpoint} (h : ∀ e ∈ endpoints, e.groupName = none)
    (discerned : ∀ a ∈ endpoints, ∀ b ∈ endpoints, a.method.Discerned b.method) :
    ShowsSorted Endpoint.place naming endpoints
      (build Endpoint.sortKey naming endpoints).others := by
  obtain ⟨sorted, stable, shown⟩ := showsSorted_others h
  exact ⟨sorted, stable.congr fun a ha b hb =>
    Endpoint.place_le_iff (discerned a ha b hb) (discerned b hb a ha), shown⟩

theorem showsSorted_lettered {endpoints : List Endpoint} (h : ∀ e ∈ endpoints, e.groupName = none)
    (lettered : ∀ e ∈ endpoints, e.method.Lettered) :
    ShowsSorted Endpoint.place naming endpoints
      (build Endpoint.sortKey naming endpoints).others :=
  showsSorted_place h fun a ha b hb => Method.discerned_of_lettered (lettered a ha) (lettered b hb)

/-- Lists of endpoints with some methods and without groups are shown by bucket, name and path, all
of them, exactly if the keys of these methods tell their order. -/
theorem others_in_usual_order (methods : List Method) (naming : Naming) :
    (∀ endpoints : List Endpoint, (∀ e ∈ endpoints, e.groupName = none ∧ e.method ∈ methods) →
      ShowsSorted Endpoint.place naming endpoints
        (build Endpoint.sortKey naming endpoints).others) ↔
    ∀ m ∈ methods, ∀ m' ∈ methods, m.Discerned m' := by
  refine ⟨fun listed m hm m' hm' less => ?_, fun discerned endpoints given => ?_⟩
  · by_contra confused
    -- a path that makes the endpoint of the first method the greater one
    obtain ⟨path, greater⟩ := exists_append_gt confused
    let a : Endpoint := { method := m, path }
    let b : Endpoint := { method := m', path := "" }
    have place : a.place < b.place := Prod.Lex.toLex_lt_toLex.mpr (.inl less)
    have key : b.sortKey < a.sortKey := by
      simpa [Endpoint.sortKey_eq, a, b] using greater
    have given : ∀ e ∈ [a, b], e.groupName = none ∧ e.method ∈ methods := by
      simp [a, b, hm, hm']
    obtain ⟨sorted, stable, shown⟩ := listed [a, b] given
    obtain rfl : sorted = [a, b] :=
      (StableSort.of_pairwise (by simpa using place.le)).eq_of_perm stable (.refl _)
        (by simpa using place.ne)
    rw [others_swapped (fun e he => (given e he).1) key] at shown
    have same : m' = m := congrArg EndpointView.method (List.cons.inj shown).1
    exact lt_irrefl _ (same ▸ less)
  · exact showsSorted_place (fun e he => (given e he).1) fun a ha b hb =>
      discerned _ (given a ha).2 _ (given b hb).2

namespace Misplaced

/-- A method that starts with a digit comes in front of the common ones, and one that goes on with a
hyphen in front of the one whose name ends there. -/
theorem order_lost :
    (build Endpoint.sortKey none
      [.of (.ofName "GET") "a", .of (.ofName "0X") "a"]).others.map EndpointView.method =
        [.other "0X", .get] ∧
    (build Endpoint.sortKey none
      [.of (.ofName "M") "a", .of (.ofName "M-SEARCH") "a"]).others.map EndpointView.method =
        [.other "M-SEARCH", .other "M"] := by
  rw [others_swapped (by decide) (by decide +kernel),
    others_swapped (by decide) (by decide +kernel)]
  decide +kernel

end Misplaced

end View
end ApiAtlas
