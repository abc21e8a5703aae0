import ApiAtlas.Proofs.Readers

/-!
# The steps of readers

Whatever a reader does to a walk, it does in a few steps: it looks at the state, notes what it was
handed, lists cases or compresses elements at the node it was sent to, reads values under keys of
that node, and reflects other types from their beginning. It never goes to the node of anything
else, and it never goes to a node at all where it was told to record nothing.

Every reader is shown to be made of these steps once. What each step keeps is then kept by every
walk, by induction on the steps. What is known of the schemas says which types a reader may reflect.
-/
namespace ApiAtlas.Walk
open Decode Reader

/-- Where a reader is sent: a path, and whether nothing may be recorded there. -/
structure Spot where
  path : Path
  muted : Bool

/-- Data that is walked is walked at the spot, and recorded only if the spot allows it. -/
def Source.At (q : Spot) : Source → Prop
  | walk path muted => path = q.path ∧ (q.muted = true → muted = true)
  | _ => True

theorem Source.exists_at (source : Source) : ∃ q, source.At q := by
  cases source with
  | walk path muted => exact ⟨⟨path, muted⟩, rfl, id⟩
  | data origin value => exact ⟨⟨[], true⟩, trivial⟩
  | name style text => exact ⟨⟨[], true⟩, trivial⟩
  | replayedKey text => exact ⟨⟨[], true⟩, trivial⟩

def SeqCursor.At (q : Spot) : SeqCursor → Prop
  | walk path muted _ _ _ => path = q.path ∧ (q.muted = true → muted = true)
  | data _ _ _ => True

def MapCursor.At (q : Spot) : MapCursor → Prop
  | walk path muted _ _ _ => path = q.path ∧ (q.muted = true → muted = true)
  | data _ _ _ _ => True

def VariantCursor.At (q : Spot) : VariantCursor → Prop
  | walk path _ => path = q.path
  | _ => True

def Visit.At (q : Spot) : Visit → Prop
  | some inner => inner.At q
  | newtype inner => inner.At q
  | seq cursor => cursor.At q
  | map cursor => cursor.At q
  | variant cursor => cursor.At q
  | _ => True

/-- What is known of the worlds in which readers run, which types they may reflect from the
beginning, and how, whether they ask for self-describing data, and what is known of the readers that
are sent to a node of their own. -/
structure Scope where
  knows : World → Prop
  starts : TypeReader → TypeExpr → Prop
  asks : Prop
  serves : {α : Type} → Seed α → Prop
  inhabited : ∃ w, knows w
  skips : serves skipSeed
  keeps : asks → serves textSeed ∧ serves valueSeed

/-- Nothing is known, and readers may ask for everything and reflect every type. -/
def Scope.any : Scope where
  knows _ := True
  starts _ _ := True
  asks := True
  serves _ := True
  inhabited := ⟨{}, trivial⟩
  skips := trivial
  keeps _ := ⟨trivial, trivial⟩

namespace Decode
variable {α β : Type} {c : Scope} {q : Spot}

/-- A decode made of the steps that a reader takes at a spot, and what holds of its value. A child
may be read muted at any spot, and data is read alike at every spot. Only readers of self-describing
data go on after a fault. -/
inductive ReadsAt (c : Scope) : Spot → {α : Type} → (α → Prop) → Decode α → Prop
  | pure {q : Spot} {α : Type} {P : α → Prop} {a : α} (h : P a) : ReadsAt c q P (pure a)
  | throw {q : Spot} {α : Type} {P : α → Prop} {stop : Stop} (h : ∀ path, stop ≠ .unrecorded path) :
      ReadsAt c q P (throw stop : Decode α)
  | bind {q : Spot} {α β : Type} {P : α → Prop} {Q : β → Prop} {m : Decode α} {f : α → Decode β}
      (hm : ReadsAt c q P m) (hf : ∀ a, P a → ReadsAt c q Q (f a)) : ReadsAt c q Q (m >>= f)
  | tryCatch {q : Spot} {α : Type} {P : α → Prop} {m : Decode α} {handle : Stop → Decode α}
      (asks : c.asks) (hm : ReadsAt c q P m)
      (hh : ∀ stop, (∀ path, stop ≠ .unrecorded path) → ReadsAt c q P (handle stop))
      (hu : ∀ path, handle (.unrecorded path) = throw (.unrecorded path)) :
      ReadsAt c q P (tryCatch m handle)
  | taught {q : Spot} {α : Type} {P : α → Prop} {m : Decode α} (hm : ReadsAt c q P m) (site : Site)
      (kind : SiteKind) : ReadsAt c q P (onFault m fun fault => revise site kind fault)
  | session {q : Spot} : ReadsAt c q (fun _ => True) session
  | world {q : Spot} : ReadsAt c q c.knows world
  | note {q : Spot} (note : Note) (h : ∀ tree, note ≠ .tree tree)
      (asks : ∀ site offer, note = .asked site offer → c.asks) :
      ReadsAt c q (fun _ => True) (modifySession note.apply)
  | count {q : Spot} (slot : Slot) (n : Nat) :
      ReadsAt c q (fun _ => True)
        (modifyWorld fun world => { world with counts := Table.put world.counts slot n })
  | cases {q : Spot} (h : q.muted = false) (cases : List EnumCase) :
      ReadsAt c q (fun _ => True) (modifyNode q.path fun node => node.setCases cases)
  | compress {q : Spot} (h : q.muted = false) (count : Nat) :
      ReadsAt c q (fun _ => True) (modifyNode q.path fun node => node.compress count)
  | child {q : Spot} {α : Type} {muted : Bool} {key : String} {seed : Seed α}
      (h : q.muted = true → muted = true) (serves : c.serves seed)
      (data : ∀ q' origin value, ReadsAt c q' (fun _ => True) (seed.run (.data origin value)))
      (walk : ∀ muted', (muted = true → muted' = true) →
        ReadsAt c ⟨q.path.child key seed.type, muted'⟩ (fun _ => True)
          (seed.run (.walk (q.path.child key seed.type) muted'))) :
      ReadsAt c q (fun _ => True) (readChild q.path muted key seed)
  | inside {q : Spot} {read : TypeReader} {style : Style} {root : TypeExpr}
      (starts : c.starts read root) (serves : c.serves (seedOf read root))
      (h : ∀ muted, ReadsAt c ⟨[], muted⟩ (fun _ => True) (read root (.walk [] muted))) :
      ReadsAt c q (fun _ => True) (reflectInside read style root)

/-- As `ReadsAt`, of a decode of whose value nothing is said. -/
abbrev Reads (c : Scope) (q : Spot) (m : Decode α) : Prop := ReadsAt c q (fun _ => True) m

/-- A reader takes its steps where it is sent. -/
def Follows (c : Scope) (run : Source → Decode α) : Prop :=
  ∀ q source, Source.At q source → Reads c q (run source)

/-- A seed is sown in a scope if its reader takes its steps where it is sent, and is known for what
the scope tells of readers with a node of their own. -/
structure Sown (c : Scope) (seed : Seed α) : Prop where
  serves : c.serves seed
  follows : Follows c seed.run

namespace ReadsAt
variable {P P' : α → Prop} {m : Decode α}

theorem weaken (h : ReadsAt c q P m) (imp : ∀ a, P a → P' a) : ReadsAt c q P' m := by
  rw [← bind_pure m]
  exact h.bind fun a ha => .pure (imp a ha)

theorem map (h : ReadsAt c q P m) (f : α → β) : Reads c q (f <$> m) := by
  rw [map_eq_pure_bind]
  exact h.bind fun _ _ => .pure trivial

theorem discard (h : ReadsAt c q P m) : Reads c q (discard m) := h.map _

theorem fail (fault : Fault) : ReadsAt c q P (Decode.fail fault) := .throw nofun

theorem refuse (style : Style) (problem : Problem) : ReadsAt c q P (Decode.refuse style problem) :=
  fail _

theorem refuseVisit (style : Style) (visit : Visit) (expecting : String) :
    ReadsAt c q P (Walk.refuseVisit style visit expecting) :=
  refuse _ _

theorem setSample (v : Json) : Reads c q (setSample v) := .note (.sample v) nofun nofun

theorem takeSample : Reads c q takeSample :=
  session.bind fun _ _ => (setSample _).bind fun _ _ => .pure trivial

end ReadsAt

theorem Follows.discard {run : Source → Decode α} (h : Follows c run) :
    Follows c fun source => discard (run source) :=
  fun q source hs => (h q source hs).discard

end Decode

/-- A set of types holds what their readers read and reflect, they may reflect and ask for it, and
they serve if the readers inside are sown. -/
structure Scope.Covers (c : Scope) (read : Nat → TypeReader) (U : TypeExpr → Prop) : Prop where
  parts : ∀ {w t}, c.knows w → U t → ∀ p ∈ TypeExpr.parts w.schemas t, U p
  roots : ∀ {w t}, c.knows w → U t → ∀ root ∈ TypeExpr.roots w.schemas t, U root
  starts : ∀ {w t}, c.knows w → U t → ∀ root ∈ TypeExpr.roots w.schemas t, ∀ depth,
    c.starts (read depth) root
  asks : ∀ {w t}, c.knows w → U t → TypeExpr.asks w.schemas t → c.asks
  serves : ∀ {t depth}, U t → (∀ less < depth, ∀ {p}, U p → Sown c (seedOf (read less) p)) →
    c.serves (seedOf (read depth) t)

theorem Scope.covers_any {read : Nat → TypeReader} : any.Covers read fun _ => True :=
  ⟨fun _ _ _ _ => trivial, fun _ _ _ _ => trivial, fun _ _ _ _ _ => trivial,
    fun _ _ _ => trivial, fun _ _ => trivial⟩

variable {α β : Type} {c : Scope} {q : Spot}

/-! ## Answers -/

theorem unmuted_of {muted : Bool} (h : q.muted = true → muted = true) (loud : muted = false) :
    q.muted = false := by
  cases hq : q.muted with
  | false => rfl
  | true => rw [h hq] at loud; cases loud

/-- What is wrong with an answer is told in words, and a sequence in it is not walked. -/
structure Answer.Plain (answer : Answer) : Prop where
  worded : ∀ fault, answer.residue = some fault → ∃ text, fault = .decode text
  unwalked : ∀ cursor, answer.visit = .seq cursor →
    ∃ origin total items, cursor = .data origin total items

/-- Whether one scalar, an optional or any data is asked for. -/
def Request.isPlain : Request → Bool
  | any | bool | int _ | float _ | char | text | bytes | option | unit | ignored => true
  | _ => false

theorem Visit.unwalked_ofJson {origin : Origin} {v : Json} {cursor : SeqCursor}
    (h : Visit.ofJson origin v = .seq cursor) :
    ∃ origin total items, cursor = .data origin total items := by
  cases v with
  | array items =>
      obtain rfl := Visit.seq.inj h
      exact ⟨_, _, _, rfl⟩
  | number number => cases number <;> cases h
  | _ => cases h

theorem Visit.at_ofJson (origin : Origin) (value : Json) : (Visit.ofJson origin value).At q := by
  cases value with
  | number value => cases value <;> trivial
  | _ => trivial

namespace Source

theorem at_replayed? {value : Json} {request : Request} {visit : Visit}
    (h : replayed? value request = some visit) : visit.At q := by
  cases request with
  | any => obtain rfl := Option.some.inj h; exact Visit.at_ofJson _ _
  | ignored => obtain rfl := Option.some.inj h; trivial
  | newtype => obtain rfl := Option.some.inj h; trivial
  | option => cases value <;> (obtain rfl := Option.some.inj h; trivial)
  | _ =>
      simp only [replayed?, Option.ite_none_right_eq_some, Option.some.injEq] at h
      obtain rfl := h.2
      exact Visit.at_ofJson _ _

theorem at_replayedVariant {value : Json} {visit : Visit}
    (h : replayedVariant value = .ok visit) : visit.At q := by
  unfold replayedVariant at h
  split at h
  · obtain rfl := Except.ok.inj h; trivial
  · obtain rfl := Except.ok.inj h; trivial
  · cases h
  · cases h

theorem at_bufferedVariant (style : Style) (value : Json) : (bufferedVariant style value).At q := by
  unfold bufferedVariant
  split
  · trivial
  · trivial
  · exact Visit.at_ofJson _ _

theorem at_dataAnswer {origin : Origin} {value : Json} {expecting : String} {request : Request}
    {answer : Answer} (h : dataAnswer origin value expecting request = .ok answer) :
    answer.visit.At q := by
  unfold dataAnswer at h
  dsimp only at h
  split at h
  · split at h
    · next told => obtain rfl := Except.ok.inj h; exact at_replayedVariant told
    · cases h
  · split at h
    · next found => obtain rfl := Except.ok.inj h; exact at_replayed? found
    · cases h
  · split at h <;> (obtain rfl := Except.ok.inj h; trivial)
  · obtain rfl := Except.ok.inj h; trivial
  · obtain rfl := Except.ok.inj h; exact at_bufferedVariant _ _
  · obtain rfl := Except.ok.inj h; exact Visit.at_ofJson _ _

theorem at_replayedKeyAnswer {text expecting : String} {request : Request} {answer : Answer}
    (h : replayedKeyAnswer text expecting request = .ok answer) : answer.visit.At q := by
  have number (h : numberOfKey text = .ok answer) : answer.visit.At q := by
    unfold numberOfKey at h
    dsimp only at h
    split at h
    · cases h
    · split at h
      · cases h
      · obtain rfl := Except.ok.inj h; exact Visit.at_ofJson _ _
  cases request with
  | int kind => exact number h
  | float kind => exact number h
  | bool =>
      unfold replayedKeyAnswer at h
      dsimp only at h
      split at h
      · obtain rfl := Except.ok.inj h; trivial
      · split at h
        · obtain rfl := Except.ok.inj h; trivial
        · cases h
  | _ => obtain rfl := Except.ok.inj h; trivial

theorem plain_ofJson (source : Source) (origin : Origin) (v : Json) :
    (source.visited (Visit.ofJson origin v)).Plain :=
  ⟨nofun, fun _ => Visit.unwalked_ofJson⟩

/-- A value that is replayed shows such a request no sequence that is walked. -/
theorem replayed?_unwalked {request : Request} (h : request.isPlain) {v : Json} {visit : Visit}
    (found : replayed? v request = some visit) {cursor : SeqCursor}
    (same : visit = .seq cursor) : ∃ origin total items, cursor = .data origin total items := by
  subst same
  cases request with
  | any => exact Visit.unwalked_ofJson (Option.some.inj found)
  | option => cases v <;> cases found
  | newtype | seq | tuple | map | record | enumeration => cases h
  | ignored => cases found
  | _ =>
      simp only [replayed?, Option.ite_none_right_eq_some, Option.some.injEq] at found
      exact Visit.unwalked_ofJson found.2

/-- Data answers such a request or is refused in words. -/
theorem dataAnswer_plain {request : Request} (h : request.isPlain) (origin : Origin) (v : Json)
    (expecting : String) :
    (∃ answer, dataAnswer origin v expecting request = .ok answer ∧ answer.Plain) ∨
      ∃ text, dataAnswer origin v expecting request = .error (.decode text) := by
  unfold dataAnswer
  dsimp only
  split
  · cases h
  · split
    · next found => exact .inl ⟨_, rfl, nofun, fun _ => replayed?_unwalked h found⟩
    · exact .inr ⟨_, rfl⟩
  · split <;> exact .inl ⟨_, rfl, nofun, nofun⟩
  · cases h
  · cases h
  · exact .inl ⟨_, rfl, plain_ofJson _ _ _⟩

/-- So does the text of a key. -/
theorem replayedKeyAnswer_plain {request : Request} (h : request.isPlain)
    (text expecting : String) :
    (∃ answer, replayedKeyAnswer text expecting request = .ok answer ∧ answer.Plain) ∨
      ∃ words, replayedKeyAnswer text expecting request = .error (.decode words) := by
  have number : (∃ answer, numberOfKey text = .ok answer ∧ answer.Plain) ∨
      ∃ words, numberOfKey text = .error (.decode words) := by
    unfold numberOfKey
    dsimp only
    split
    · exact .inr ⟨_, rfl⟩
    · split
      · exact .inr ⟨_, rfl⟩
      · refine .inl ⟨_, rfl, fun fault told => ?_, fun _ => Visit.unwalked_ofJson⟩
        dsimp only at told
        split at told
        · cases told
        · exact ⟨_, (Option.some.inj told).symm⟩
  cases request with
  | int kind => exact number
  | float kind => exact number
  | bool =>
      unfold replayedKeyAnswer
      dsimp only
      split
      · exact .inl ⟨_, rfl, nofun, nofun⟩
      · split
        · exact .inl ⟨_, rfl, nofun, nofun⟩
        · exact .inr ⟨_, rfl⟩
  | newtype | seq | tuple | map | record | enumeration => cases h
  | _ => exact .inl ⟨_, rfl, nofun, nofun⟩

theorem reads_walkAnswer {path : Path} {muted : Bool} (h : (walk path muted).At q)
    {request : Request} (asks : request = .any → c.asks) :
    ReadsAt c q (Visit.At q) (walkAnswer path muted request) := by
  obtain ⟨rfl, quiet⟩ := h
  have scalar (v : Json) (visit : Visit) (hv : visit.At q) :
      ReadsAt c q (Visit.At q) (setSample v >>= fun _ => pure visit) :=
    (ReadsAt.setSample v).bind fun _ _ => .pure hv
  refine ReadsAt.session.bind fun session _ => ?_
  cases request with
  | any =>
      exact (ReadsAt.note (.asked _ _) nofun fun _ _ _ => asks rfl).bind fun _ _ =>
        .pure (Visit.at_ofJson _ _)
  | option =>
      dsimp only
      split
      · exact scalar _ _ trivial
      · exact .pure ⟨rfl, quiet⟩
  | map =>
      dsimp only
      split
      · exact .pure ⟨rfl, quiet⟩
      · split <;> exact .pure ⟨rfl, quiet⟩
  | enumeration title variants =>
      dsimp only
      split
      · exact .fail _
      · split
        · next loud =>
          have unmuted := unmuted_of quiet (by simpa using loud)
          exact (ReadsAt.cases unmuted _).bind fun _ _ => .pure rfl
        · exact .pure rfl
  | newtype => exact .pure ⟨rfl, quiet⟩
  | seq => exact .pure ⟨rfl, quiet⟩
  | tuple => exact .pure ⟨rfl, quiet⟩
  | record => exact .pure ⟨rfl, quiet⟩
  | _ => exact scalar _ _ trivial

theorem reads_data (origin : Origin) (value : Json) (request : Request) (expecting : String) :
    ReadsAt c q (fun answer => answer.visit.At q) ((data origin value).ask request expecting) := by
  dsimp only [ask]
  split
  · next hd => exact .pure (at_dataAnswer hd)
  · exact .fail _

theorem reads_ask {source : Source} (h : source.At q) {request : Request}
    (asks : request = .any → c.asks) (expecting : String) :
    ReadsAt c q (fun answer => answer.visit.At q) (source.ask request expecting) := by
  cases source with
  | walk path muted => exact (reads_walkAnswer h asks).bind fun _ hv => .pure hv
  | data origin value => exact reads_data origin value request expecting
  | name style text => cases request <;> exact .pure trivial
  | replayedKey text =>
      dsimp only [ask]
      split
      · next hk => exact .pure (at_replayedKeyAnswer hk)
      · exact .fail _

/-- The answer to a request for a scalar shows no sequence that is walked. -/
theorem reads_scalar {source : Source} (kind : ScalarKind) (expecting : String) :
    ReadsAt c q Answer.Plain (source.ask (scalarRequest kind) expecting) := by
  have plain : (scalarRequest kind).isPlain := by cases kind <;> rfl
  cases source with
  | walk path muted =>
      have visits : ReadsAt c q (fun visit => ∀ cursor, visit ≠ .seq cursor)
          (walkAnswer path muted (scalarRequest kind)) := by
        cases kind <;>
          exact ReadsAt.session.bind fun _ _ => (ReadsAt.setSample _).bind fun _ _ => .pure nofun
      exact visits.bind fun _ hv => .pure ⟨nofun, fun cursor same => absurd same (hv cursor)⟩
  | data origin value =>
      dsimp only [ask]
      rcases dataAnswer_plain plain origin value expecting with ⟨answer, told, hp⟩ | ⟨text, told⟩
      · rw [told]
        exact .pure hp
      · rw [told]
        exact .fail _
  | name style text => cases kind <;> exact .pure ⟨nofun, nofun⟩
  | replayedKey text =>
      dsimp only [ask]
      rcases replayedKeyAnswer_plain plain text expecting with ⟨answer, told, hp⟩ | ⟨words, told⟩
      · rw [told]
        exact .pure hp
      · rw [told]
        exact .fail _

end Source

/-! ## Cursors -/

/-- A child of the spot, read with a seed that is sown. -/
theorem reads_child {path : Path} {muted : Bool} (h : (Source.walk path muted).At q) {seed : Seed α}
    (hs : Sown c seed) (key : String) : Reads c q (readChild path muted key seed) := by
  obtain ⟨rfl, quiet⟩ := h
  exact .child quiet hs.serves (fun _ _ _ => hs.follows _ _ trivial) fun _ _ =>
    hs.follows _ _ ⟨rfl, id⟩

namespace SeqCursor

theorem reads_next? {cursor : SeqCursor} (h : cursor.At q) {seed : Seed α}
    (hs : Sown c seed) :
    ReadsAt c q (fun found => ∀ p ∈ found, p.2.At q) (cursor.next? seed) := by
  cases cursor with
  | walk path muted limit index samples =>
      dsimp only [next?]
      split
      · exact .pure nofun
      · refine (reads_child h hs _).bind fun value _ => ReadsAt.takeSample.bind fun sample _ => ?_
        refine .pure fun p hp => ?_
        obtain rfl := Option.some.inj hp
        exact h
  | data origin total items =>
      cases items with
      | nil => exact .pure nofun
      | cons item rest =>
          refine (hs.follows q (.data origin item) trivial).bind fun value _ => .pure fun p hp => ?_
          obtain rfl := Option.some.inj hp
          trivial

theorem reads_close {cursor : SeqCursor} (h : cursor.At q) : Reads c q cursor.close := by
  cases cursor with
  | walk path muted limit index samples =>
      obtain ⟨rfl, quiet⟩ := h
      refine ReadsAt.session.bind fun session _ => ?_
      dsimp only
      split
      · next closes =>
        have loud : muted = false := by
          simp only [Bool.and_eq_true, Bool.not_eq_true'] at closes
          exact closes.1.1
        exact (ReadsAt.compress (unmuted_of quiet loud) index).bind fun _ _ => .setSample _
      · exact .setSample _
  | data origin total items =>
      cases items with
      | nil => cases origin <;> exact .pure trivial
      | cons item rest =>
          cases origin with
          | replay => exact .refuse _ _
          | hint => exact .pure trivial
          | buffered style => exact .pure trivial

theorem reads_read {cursor : SeqCursor} {body : SeqCursor → Decode (α × SeqCursor)}
    (hb : ReadsAt c q (fun p => p.2.At q) (body cursor)) : Reads c q (cursor.read body) :=
  hb.bind fun _ hp => (reads_close hp).bind fun _ _ => .pure trivial

end SeqCursor

namespace MapCursor

theorem reads_nextKey? {cursor : MapCursor} (h : cursor.At q) {key : Source → Decode α}
    (hk : Follows c key) :
    ReadsAt c q (fun found => ∀ p ∈ found, p.2.At q) (cursor.nextKey? key) := by
  have found {a : α} {next : MapCursor} (hn : next.At q) : ∀ p ∈ some (a, next), p.2.At q := by
    rintro p ⟨⟩
    exact hn
  have named (style : Style) (name : String) {next : MapCursor} (hn : next.At q) :
      ReadsAt c q (fun found => ∀ p ∈ found, p.2.At q)
        (key (.name style name) >>= fun a => pure (some (a, next))) :=
    (hk q (.name style name) trivial).bind fun _ _ => .pure (found hn)
  cases cursor with
  | walk path muted keys pending samples =>
      cases keys with
      | declared names =>
          cases names with
          | nil => exact .pure nofun
          | cons name names => exact named _ _ h
      | learned names =>
          cases names with
          | nil => exact .pure nofun
          | cons name names => exact named _ _ h
      | opened yielded =>
          cases yielded with
          | true => exact .pure nofun
          | false =>
              exact (hk q (.walk path true) ⟨h.1, fun _ => rfl⟩).bind fun _ _ =>
                ReadsAt.takeSample.bind fun _ _ => .pure (found h)
  | data origin total members pending =>
      cases members with
      | nil => exact .pure nofun
      | cons member members =>
          cases origin with
          | replay =>
              exact (hk q (.replayedKey member.1) trivial).bind fun _ _ => .pure (found trivial)
          | hint => exact named _ _ trivial
          | buffered style => exact named _ _ trivial

theorem reads_nextValue {cursor : MapCursor} (h : cursor.At q) {seed : Seed α}
    (hs : Sown c seed) : ReadsAt c q (fun p => p.2.At q) (cursor.nextValue seed) := by
  unfold nextValue
  split
  · exact .fail _
  · exact (reads_child h hs _).bind fun _ _ => ReadsAt.takeSample.bind fun _ _ => .pure h
  · exact .refuse _ _
  · exact .throw nofun
  · next origin _ _ value =>
    exact (hs.follows q (.data origin value) trivial).bind fun _ _ => .pure trivial

theorem reads_close (cursor : MapCursor) : Reads c q cursor.close := by
  unfold close
  split
  · exact .setSample _
  · exact .refuse _ _
  · exact .pure trivial

theorem reads_read (cursor : MapCursor) {body : MapCursor → Decode (α × MapCursor)}
    (hb : ReadsAt c q (fun p => p.2.At q) (body cursor)) : Reads c q (cursor.read body) := by
  have closed (p : α × MapCursor) : Reads c q (p.2.close >>= fun _ => pure p.1) :=
    (reads_close p.2).bind fun _ _ => .pure trivial
  cases cursor with
  | walk path muted keys pending samples =>
      dsimp only [read]
      split
      · exact (hb.taught path.site .openMap).bind fun p _ => closed p
      · exact hb.bind fun p _ => closed p
  | data origin total members pending => exact hb.bind fun p _ => closed p

end MapCursor

namespace VariantCursor

theorem reads_wrapSample (variant : String) : Reads c q (wrapSample variant) :=
  ReadsAt.takeSample.bind fun _ _ => .setSample _

theorem reads_readUnit (cursor : VariantCursor) : Reads c q cursor.readUnit := by
  unfold readUnit
  split
  · exact .setSample _
  · split
    · exact .pure trivial
    · exact .refuse _ _
  · exact .pure trivial

theorem reads_readNewtype {cursor : VariantCursor} (h : cursor.At q) {seed : Seed α}
    (hs : Sown c seed) : Reads c q (cursor.readNewtype seed) := by
  unfold readNewtype
  split
  · next path variant =>
    have here : (Source.walk path true).At q := ⟨h, fun _ => rfl⟩
    exact (reads_child here hs _).bind fun _ _ => (reads_wrapSample _).bind fun _ _ => .pure trivial
  · next origin _ content => exact hs.follows q (.data origin content) trivial
  · exact .refuse _ _

theorem reads_readContainer {cursor : VariantCursor} (h : cursor.At q) {walked : Path → Visit}
    (hw : (walked q.path).At q) {replayed : Json → Option Visit}
    (hr : ∀ value visit, replayed value = some visit → visit.At q) (expected : String)
    {body : Answer → Decode α} (hb : ∀ answer, answer.visit.At q → Reads c q (body answer)) :
    Reads c q (cursor.readContainer walked replayed expected body) := by
  unfold readContainer
  split
  · obtain rfl := h
    exact (hb _ hw).bind fun _ _ => (reads_wrapSample _).bind fun _ _ => .pure trivial
  · split
    · next found => exact hb _ (hr _ _ found)
    · exact .refuse _ _
  · exact hb _ (Visit.at_ofJson _ _)
  · exact .refuse _ _

theorem reads_readTuple {cursor : VariantCursor} (h : cursor.At q) (length : Nat)
    {body : Answer → Decode α} (hb : ∀ answer, answer.visit.At q → Reads c q (body answer)) :
    Reads c q (cursor.readTuple length body) := by
  have walked : (Visit.seq (.walk q.path true length 0 [])).At q := ⟨rfl, fun _ => rfl⟩
  refine reads_readContainer h walked (fun value visit found => ?_) _ hb
  split at found
  · obtain rfl := Option.some.inj found; trivial
  · obtain rfl := Option.some.inj found; exact Visit.at_ofJson _ _
  · cases found

theorem reads_readRecord {cursor : VariantCursor} (h : cursor.At q) (fields : List String)
    {body : Answer → Decode α} (hb : ∀ answer, answer.visit.At q → Reads c q (body answer)) :
    Reads c q (cursor.readRecord fields body) := by
  have walked : (Visit.map (.walk q.path true (.declared fields) none [])).At q :=
    ⟨rfl, fun _ => rfl⟩
  refine reads_readContainer h walked (fun value visit found => ?_) _ hb
  split at found
  · obtain rfl := Option.some.inj found; exact Visit.at_ofJson _ _
  · obtain rfl := Option.some.inj found; exact Visit.at_ofJson _ _
  · cases found

end VariantCursor

/-! ## Readers without parts -/

namespace Reader

theorem reads_finish (answer : Answer) : Reads c q (finish answer) := by
  unfold finish
  split
  · exact .fail _
  · exact .pure trivial

theorem follows_readText : Follows c readText := by
  refine fun q source h => (Source.reads_ask h (by nofun) _).bind fun answer _ => ?_
  split
  · exact .pure trivial
  · exact .refuseVisit _ _ _

theorem follows_readValue (asks : c.asks) : Follows c readValue :=
  fun _ _ h => (Source.reads_ask h (fun _ => asks) _).bind fun _ _ => .pure trivial

theorem follows_skipValue : Follows c skipValue :=
  fun _ _ h => (Source.reads_ask h (by nofun) _).discard

theorem sown_text (asks : c.asks) : Sown c textSeed := ⟨(c.keeps asks).1, follows_readText⟩

theorem sown_value (asks : c.asks) : Sown c valueSeed := ⟨(c.keeps asks).2, follows_readValue asks⟩

theorem sown_skip : Sown c skipSeed := ⟨c.skips, follows_skipValue⟩

theorem follows_readBool : Follows c readBool := by
  refine fun q source h => (Source.reads_ask h (by nofun) _).bind fun answer _ => ?_
  split
  · exact .pure trivial
  · exact .refuseVisit _ _ _

theorem follows_readInt (kind : IntKind) : Follows c (readInt kind) := by
  refine fun q source h => (Source.reads_ask h (by nofun) _).bind fun answer _ => ?_
  split
  · split
    · exact reads_finish _
    · exact .refuse _ _
  · exact .refuseVisit _ _ _

theorem follows_readFloat (kind : FloatKind) : Follows c (readFloat kind) := by
  refine fun q source h => (Source.reads_ask h (by nofun) _).bind fun answer _ => ?_
  split
  · exact reads_finish _
  · exact reads_finish _
  · exact .refuseVisit _ _ _

theorem follows_readNonZero : Follows c readNonZero := by
  refine fun q source h => (Source.reads_ask h (by nofun) _).bind fun answer _ => ?_
  split
  · split
    · exact reads_finish _
    · exact .refuse _ _
  · exact .refuseVisit _ _ _

theorem follows_readChar : Follows c readChar := by
  refine fun q source h => (Source.reads_ask h (by nofun) _).bind fun answer _ => ?_
  split
  · split
    · exact .pure trivial
    · exact .refuse _ _
  · exact .refuseVisit _ _ _

theorem follows_readUnit : Follows c Reader.readUnit := by
  refine fun q source h => (Source.reads_ask h (by nofun) _).bind fun answer _ => ?_
  split
  · exact .pure trivial
  · exact .refuseVisit _ _ _

theorem follows_readForm (form : TextForm) : Follows c (readForm form) := by
  refine fun q source h => (Source.reads_ask h (by nofun) _).bind fun answer _ => ?_
  split
  · split
    · exact .pure trivial
    · exact .refuse _ _
  · exact .refuseVisit _ _ _

theorem follows_readAny (asks : c.asks) (accept : List ValueKind) (echo : Bool) :
    Follows c (readAny accept echo) := by
  refine fun q source h => (Source.reads_ask h (fun _ => asks) _).bind fun answer _ => ?_
  split
  · exact .refuse _ _
  · split
    · exact .pure trivial
    · exact .refuseVisit _ _ _

theorem reads_checkMissing (style : Style) (fields : List FieldDecl) (isRead : Nat → Bool) :
    Reads c q (checkMissing style fields isRead) := by
  unfold checkMissing
  split
  · exact .refuse _ _
  · exact .pure trivial

/-! ## Readers of containers -/

theorem follows_readOption {inner : Source → Decode Unit} (hi : Follows c inner) :
    Follows c (readOption inner) := by
  refine fun q source h => (Source.reads_ask h (by nofun) _).bind fun answer ha => ?_
  split
  · exact .pure trivial
  · exact .pure trivial
  · next visit => rw [visit] at ha; exact hi q _ ha
  · exact .refuseVisit _ _ _

theorem follows_readNewtype {inner : Source → Decode Unit} (hi : Follows c inner) (name : String) :
    Follows c (Reader.readNewtype inner name) := by
  refine fun q source h => (Source.reads_ask h (by nofun) _).bind fun answer ha => ?_
  split
  · next visit => rw [visit] at ha; exact hi q _ ha
  · exact .refuseVisit _ _ _

theorem reads_readElements {seedAt : Nat → Seed Unit} (hs : ∀ i, Sown c (seedAt i))
    (more index : Nat) {cursor : SeqCursor} (h : cursor.At q) :
    ReadsAt c q (fun p => p.2.At q) (readElements seedAt more index cursor) := by
  induction more generalizing index cursor with
  | zero => exact .pure h
  | succ more ih =>
      refine (SeqCursor.reads_next? h (hs index)).bind fun found hf => ?_
      split
      · exact .pure h
      · exact ih _ (hf _ rfl)

theorem reads_readOpen {seedAt : Nat → Seed Unit} (hs : ∀ i, Sown c (seedAt i))
    (take : Option Nat) {cursor : SeqCursor} (h : cursor.At q) :
    Reads c q (readOpen seedAt take cursor) :=
  SeqCursor.reads_read <|
    (reads_readElements hs _ 0 h).bind fun _ hp => .pure hp

theorem follows_readSeq {seedAt : Nat → Seed Unit} (hs : ∀ i, Sown c (seedAt i))
    (take : Option Nat) : Follows c (readSeq seedAt take) := by
  refine fun q source h => (Source.reads_ask h (by nofun) _).bind fun answer ha => ?_
  split
  · next visit => rw [visit] at ha; exact reads_readOpen hs take ha
  · exact .refuseVisit _ _ _

theorem reads_readPlaces (style : Style) (expecting : String) {seeds : List (Seed Unit)}
    (hs : ∀ seed ∈ seeds, Sown c seed) (index : Nat) {cursor : SeqCursor} (h : cursor.At q) :
    ReadsAt c q (fun p => p.2.At q) (readPlaces style expecting index seeds cursor) := by
  induction seeds generalizing index cursor with
  | nil => exact .pure h
  | cons seed seeds ih =>
      refine (SeqCursor.reads_next? h (hs _ List.mem_cons_self)).bind fun found hf => ?_
      split
      · exact .refuse _ _
      · exact ih (fun seed member => hs seed (List.mem_cons_of_mem _ member)) _ (hf _ rfl)

theorem reads_acceptTuple (expecting : String) {seeds : List (Seed Unit)}
    (hs : ∀ seed ∈ seeds, Sown c seed) {answer : Answer} (h : answer.visit.At q) :
    Reads c q (acceptTuple expecting seeds answer) := by
  unfold acceptTuple
  split
  · next visit =>
    rw [visit] at h
    exact SeqCursor.reads_read (reads_readPlaces _ _ hs 0 h)
  · exact .refuseVisit _ _ _

theorem follows_readTuple (expecting : String) {seeds : List (Seed Unit)}
    (hs : ∀ seed ∈ seeds, Sown c seed) : Follows c (Reader.readTuple expecting seeds) :=
  fun _ _ h => (Source.reads_ask h (by nofun) _).bind fun _ ha => reads_acceptTuple _ hs ha

theorem reads_readEntries {key : Source → Decode Unit} (hk : Follows c key) {seed : Seed Unit}
    (hs : Sown c seed) (more : Nat) {cursor : MapCursor} (h : cursor.At q) :
    ReadsAt c q (fun p => p.2.At q) (readEntries key seed more cursor) := by
  induction more generalizing cursor with
  | zero => exact .pure h
  | succ more ih =>
      refine (MapCursor.reads_nextKey? h hk).bind fun found hf => ?_
      split
      · exact .pure h
      · exact (MapCursor.reads_nextValue (hf _ rfl) hs).bind fun _ hp => ih hp

theorem follows_readMap {key : Source → Decode Unit} (hk : Follows c key) {seed : Seed Unit}
    (hs : Sown c seed) (take : Option Nat) : Follows c (readMap key seed take) := by
  refine fun q source h => (Source.reads_ask h (by nofun) _).bind fun answer ha => ?_
  split
  · next visit =>
    rw [visit] at ha
    exact MapCursor.reads_read _ (reads_readEntries hk hs _ ha)
  · exact .refuseVisit _ _ _

theorem follows_readValueFirst {seed : Seed Unit} (hs : Sown c seed) :
    Follows c (readValueFirst seed) := by
  refine fun q source h => (Source.reads_ask h (by nofun) _).bind fun answer ha => ?_
  split
  · next visit =>
    rw [visit] at ha
    exact MapCursor.reads_read _ (MapCursor.reads_nextValue ha hs)
  · exact .refuseVisit _ _ _

/-- Elements of data are drained without asking a walk for anything. -/
theorem reads_drain (origin : Origin) (total : Nat) (items : List Json) :
    Reads c q (drain (.data origin total items)) := by
  have elements (more index : Nat) (items : List Json) :
      ReadsAt c q (fun p => p.2.At q) (readElements
        (fun _ => ⟨valueSeed.type, fun source => discard (readValue source)⟩) more index
        (.data origin total items)) := by
    induction more generalizing index items with
    | zero => exact .pure trivial
    | succ more ih =>
        cases items with
        | nil => exact .pure trivial
        | cons item rest =>
            have value : Reads c q (readValue (.data origin item)) :=
              (Source.reads_data _ _ _ _).bind fun _ _ => .pure trivial
            have next : ReadsAt c q (fun found => found = some ((), .data origin total rest))
                (SeqCursor.next? (.data origin total (item :: rest))
                  ⟨valueSeed.type, fun source => discard (readValue source)⟩) :=
              value.discard.bind fun _ _ => .pure rfl
            refine next.bind fun found same => ?_
            subst same
            exact ih _ rest
  unfold drain readOpen
  exact SeqCursor.reads_read ((elements _ 0 items).bind fun _ hp => .pure hp)

theorem follows_readScalar (kind : ScalarKind) (reject : Option String) :
    Follows c (readScalar kind reject) := by
  refine fun q source _ => (Source.reads_scalar kind _).bind fun answer ha => ?_
  have drained (cursor : SeqCursor) (visit : answer.visit = .seq cursor) :
      Reads c q (drain cursor) := by
    obtain ⟨origin, total, items, rfl⟩ := ha.unwalked cursor visit
    exact reads_drain origin total items
  have accepted : Reads c q (acceptScalar kind ("scalar " ++ kind.name) answer) := by
    unfold acceptScalar
    split
    case h_14 cursor visit => exact drained cursor visit
    case h_15 cursor visit => exact drained cursor visit
    case h_17 => exact .refuseVisit _ _ _
    all_goals exact .pure trivial
  refine accepted.bind fun _ _ => ?_
  split
  · exact .refuse _ _
  · exact reads_finish _

/-! ## Readers of records and enumerations -/

section
variable {read : TypeReader}

theorem reads_readFields {fields : List FieldDecl}
    (hr : ∀ type ∈ fields.map FieldDecl.type, Sown c (seedOf read type)) (style : Style)
    (denyUnknown : Bool) (more : Nat) (done : List Nat) {cursor : MapCursor} (h : cursor.At q) :
    ReadsAt c q (fun p => p.2.At q)
      (readFields read style fields denyUnknown more done cursor) := by
  induction more generalizing done cursor with
  | zero => exact .pure h
  | succ more ih =>
      refine (MapCursor.reads_nextKey? h follows_readText).bind fun found hf => ?_
      split
      · exact .pure h
      · have next := hf _ rfl
        split
        · next hf =>
          split
          · exact .refuse _ _
          · have field := hr _ (List.mem_map_of_mem (findField?_mem hf))
            exact (MapCursor.reads_nextValue next field).bind fun _ hp => ih _ hp
        · split
          · exact .refuse _ _
          · exact (MapCursor.reads_nextValue next sown_skip).bind fun _ hp => ih _ hp

theorem reads_acceptRecord {fields : List FieldDecl}
    (hr : ∀ type ∈ fields.map FieldDecl.type, Sown c (seedOf read type)) (expecting : String)
    (denyUnknown : Bool) {answer : Answer} (h : answer.visit.At q) :
    Reads c q (acceptRecord read expecting fields denyUnknown answer) := by
  unfold acceptRecord
  split
  · next visit =>
    rw [visit] at h
    refine MapCursor.reads_read _ ?_
    refine (reads_readFields hr _ _ _ _ h).bind fun _ hp => ?_
    exact (reads_checkMissing _ _ _).bind fun _ _ => .pure hp
  · exact .refuseVisit _ _ _

theorem reads_seeds {types : List TypeExpr} (hr : ∀ type ∈ types, Sown c (seedOf read type)) :
    ∀ seed ∈ types.map (seedOf read), Sown c seed := by
  intro seed member
  obtain ⟨type, inside, rfl⟩ := List.mem_map.mp member
  exact hr type inside

theorem follows_readLibraryRecord {fields : List FieldDecl}
    (hr : ∀ type ∈ fields.map FieldDecl.type, Sown c (seedOf read type)) (expecting : String) :
    Follows c (readLibraryRecord read expecting fields) := by
  refine fun q source h => (Source.reads_ask h (by nofun) _).bind fun answer ha => ?_
  split
  · have seeds := reads_seeds hr
    rw [List.map_map] at seeds
    exact reads_acceptTuple _ seeds ha
  · exact reads_acceptRecord hr _ _ ha

theorem reads_readContent {content : VariantContent}
    (hr : ∀ type ∈ content.parts, Sown c (seedOf read type)) {cursor : VariantCursor}
    (h : cursor.At q) : Reads c q (readContent read cursor content) := by
  cases content with
  | unit => exact VariantCursor.reads_readUnit _
  | newtype type => exact VariantCursor.reads_readNewtype h (hr type (List.mem_singleton_self type))
  | tuple types =>
      exact VariantCursor.reads_readTuple h _ fun _ ha =>
        reads_acceptTuple _ (reads_seeds hr) ha
  | record fields =>
      exact VariantCursor.reads_readRecord h _ fun _ ha => reads_acceptRecord hr _ _ ha

theorem follows_readEnumeration {variants : List (String × VariantContent)}
    (hr : ∀ type ∈ variants.flatMap fun variant => variant.2.parts, Sown c (seedOf read type))
    (name : String) : Follows c (readEnumeration read name variants) := by
  refine fun q source h => (Source.reads_ask h (by nofun) _).bind fun answer ha => ?_
  split
  · next visit =>
    rw [visit] at ha
    split
    · next payload hp =>
      refine reads_readContent (fun type inside => hr type ?_) ha
      exact List.mem_flatMap.mpr ⟨_, Table.mem_of_get? hp, inside⟩
    · exact .refuse _ _
  · exact .refuseVisit _ _ _

theorem follows_readKey (read : TypeReader) (kind : KeyKind) : Follows c (readKey read kind) := by
  cases kind with
  | text => exact follows_readText.discard
  | int kind => exact follows_readInt kind
  | bool => exact follows_readBool
  | char => exact follows_readChar
  | optionalText => exact follows_readOption follows_readText.discard
  | cases => exact follows_readEnumeration (by simp [keyCases, VariantContent.parts]) _

/-! ## Readers of kept values -/

theorem reads_readBuffered {fields : List FieldDecl}
    (hr : ∀ type ∈ fields.map FieldDecl.type, Sown c (seedOf read type)) (style : Style)
    (buffer : List (String × Json)) : Reads c q (readBuffered read style buffer fields) := by
  induction fields with
  | nil => exact .pure trivial
  | cons field fields ih =>
      obtain ⟨first, later⟩ := List.forall_mem_cons.mp hr
      unfold readBuffered
      split
      · next value _ =>
        exact (first.follows q (.data (.buffered style) value) trivial).bind fun _ _ => ih later
      · split
        · exact ih later
        · exact (ReadsAt.refuse (P := fun _ => True) _ _).bind fun _ _ => ih later

/-- The fields that a tag chooses are those of a variant. -/
theorem reads_readTagged (asks : c.asks) (style : Style) (tag : String)
    (variants : List (String × List FieldDecl)) (more : Nat)
    {found : Option (List FieldDecl)} (buffer : List (String × Json)) {cursor : MapCursor}
    (h : cursor.At q)
    (chosen : ∀ fields, found = some fields → ∃ name, (name, fields) ∈ variants) :
    ReadsAt c q
      (fun p => p.2.At q ∧ ∀ fields, p.1.1 = some fields → ∃ name, (name, fields) ∈ variants)
      (readTagged style tag variants more found buffer cursor) := by
  induction more generalizing found buffer cursor with
  | zero => exact .pure ⟨h, chosen⟩
  | succ more ih =>
      refine (MapCursor.reads_nextKey? h follows_readText).bind fun next hn => ?_
      split
      · exact .pure ⟨h, chosen⟩
      · have next := hn _ rfl
        split
        · refine (MapCursor.reads_nextValue next (sown_text asks)).bind fun p hp => ?_
          dsimp only
          split
          · next fields hf =>
            refine ih _ hp fun other same => ?_
            obtain rfl := Option.some.inj same
            exact ⟨_, Table.mem_of_get? hf⟩
          · exact .refuse _ _
        · exact (MapCursor.reads_nextValue next (sown_value asks)).bind fun _ hp => ih _ hp chosen

theorem follows_readTaggedEnumeration (asks : c.asks) {variants : List (String × List FieldDecl)}
    (hr : ∀ type ∈ variants.flatMap fun variant => variant.2.map FieldDecl.type,
      Sown c (seedOf read type)) (name tag : String) :
    Follows c (readTaggedEnumeration read name tag variants) := by
  refine fun q source h => (Source.reads_ask h (fun _ => asks) _).bind fun answer ha => ?_
  split
  · next visit =>
    rw [visit] at ha
    refine MapCursor.reads_read _ ?_
    have none (fields : List FieldDecl) (chosen : none = some fields) :
        ∃ name, (name, fields) ∈ variants := by cases chosen
    refine (reads_readTagged asks _ _ _ _ _ ha none).bind fun result hp => ?_
    obtain ⟨here, chosen⟩ := hp
    dsimp only
    split
    · exact .refuse _ _
    · next fields hf =>
      obtain ⟨name, member⟩ := chosen fields hf
      refine (reads_readBuffered (fun type inside => hr type ?_) _ _).bind fun _ _ => .pure here
      exact List.mem_flatMap.mpr ⟨_, member, inside⟩
  · exact .refuseVisit _ _ _

theorem reads_tryEach (asks : c.asks) {types : List TypeExpr}
    (hr : ∀ type ∈ types, Sown c (seedOf read type)) (style : Style) (name : String)
    (value : Json) :
    Reads c q (tryEach read style name value types) := by
  induction types with
  | nil => exact .refuse _ _
  | cons type types ih =>
      obtain ⟨first, later⟩ := List.forall_mem_cons.mp hr
      refine .tryCatch asks (first.follows q (.data (.buffered style) value) trivial)
        (fun stop hs => ?_) fun _ => rfl
      split
      · exact ih later
      · exact .throw hs

theorem reads_readFlattened (asks : c.asks) {own : List FieldDecl}
    (hr : ∀ type ∈ own.map FieldDecl.type, Sown c (seedOf read type)) (more : Nat)
    (done : List Nat) (buffer : List (String × Json)) {cursor : MapCursor} (h : cursor.At q) :
    ReadsAt c q (fun p => p.2.At q) (readFlattened read own more done buffer cursor) := by
  induction more generalizing done buffer cursor with
  | zero => exact .pure h
  | succ more ih =>
      refine (MapCursor.reads_nextKey? h follows_readText).bind fun next hn => ?_
      split
      · exact .pure h
      · have next := hn _ rfl
        split
        · next hf =>
          have field := hr _ (List.mem_map_of_mem (findField?_mem hf))
          exact (MapCursor.reads_nextValue next field).bind fun _ hp => ih _ _ hp
        · exact (MapCursor.reads_nextValue next (sown_value asks)).bind fun _ hp => ih _ _ hp

theorem reads_readEach {types : List TypeExpr} (hr : ∀ type ∈ types, Sown c (seedOf read type))
    {source : Source} (h : source.At q) :
    Reads c q (types.forM fun type => read type source) := by
  induction types with
  | nil => exact .pure trivial
  | cons type types ih =>
      obtain ⟨first, later⟩ := List.forall_mem_cons.mp hr
      exact (first.follows q source h).bind fun _ _ => ih later

theorem follows_readFlatten (asks : c.asks) {own : List FieldDecl} {inner : List TypeExpr}
    (hr : ∀ type ∈ own.map FieldDecl.type ++ inner, Sown c (seedOf read type)) (name : String) :
    Follows c (readFlatten read name own inner) := by
  obtain ⟨fields, types⟩ := List.forall_mem_append.mp hr
  refine fun q source h => (Source.reads_ask h (by nofun) _).bind fun answer ha => ?_
  split
  · next visit =>
    rw [visit] at ha
    refine MapCursor.reads_read _ ?_
    refine (reads_readFlattened asks fields _ _ _ ha).bind fun _ hp => ?_
    refine (reads_checkMissing _ _ _).bind fun _ _ => ?_
    refine (reads_readEach types ?_).bind fun _ _ => .pure hp
    trivial
  · exact .refuseVisit _ _ _

/-! ## Readers of types -/

/-- Types may be reflected by a reader that takes its steps where it is sent. -/
def StartsAll (c : Scope) (read : TypeReader) (roots : List TypeExpr) : Prop :=
  ∀ root ∈ roots, c.starts read root ∧ Sown c (seedOf read root)

theorem reads_reflectInside {root : TypeExpr} {roots : List TypeExpr}
    (hs : StartsAll c read roots) (member : root ∈ roots) (style : Style) :
    Reads c q (reflectInside read style root) :=
  .inside (hs root member).1 (hs root member).2.serves fun muted =>
    (hs root member).2.follows ⟨[], muted⟩ _ ⟨rfl, id⟩

mutual

theorem follows_readSchema {schema : Schema} (hr : ∀ type ∈ schema.parts, Sown c (seedOf read type))
    (hs : StartsAll c read schema.roots) (ha : schema.asks → c.asks) (decode : Nat) :
    Follows c (readSchema read decode schema) := by
  cases schema with
  | scalar request reject => exact follows_readScalar request reject
  | newtype name inner => exact follows_readNewtype (hr _ (List.mem_singleton_self _)).follows name
  | delegate target => exact (hr _ (List.mem_singleton_self _)).follows
  | record name fields denyUnknown =>
      exact fun _ _ h => (Source.reads_ask h (by nofun) _).bind fun _ ha =>
        reads_acceptRecord hr _ _ ha
  | anyRecord name fields =>
      exact fun _ _ h => (Source.reads_ask h (fun _ => ha rfl) _).bind fun _ ha =>
        reads_acceptRecord hr _ _ ha
  | tuple name types => exact follows_readTuple _ (reads_seeds hr)
  | seq types take =>
      exact follows_readSeq (fun i => hr _ (repeated_mem_parts types take i)) take
  | map key content take =>
      exact follows_readMap (follows_readKey read key) (hr _ (List.mem_singleton_self _)) take
  | valueFirst type => exact follows_readValueFirst (hr _ (List.mem_singleton_self _))
  | enumeration name variants => exact follows_readEnumeration hr name
  | any accept echo => exact follows_readAny (ha rfl) accept echo
  | tagged name tag variants => exact follows_readTaggedEnumeration (ha rfl) hr name tag
  | untagged name types =>
      exact fun q source h =>
        (follows_readValue (ha rfl) q source h).bind fun _ _ => reads_tryEach (ha rfl) hr _ _ _
  | flatten name own inner => exact follows_readFlatten (ha rfl) hr name
  | context key cases otherwise =>
      refine fun q source h => ReadsAt.session.bind fun session _ => ?_
      dsimp only
      split
      · next value type found =>
        refine (hr type (List.mem_cons_of_mem _ ?_)).follows q source h
        exact List.mem_map_of_mem (f := Prod.snd) (List.mem_of_find?_eq_some found)
      · exact (hr _ List.mem_cons_self).follows q source h
  | decoding yes no => exact (hr _ (List.mem_singleton_self _)).follows
  | reflect root next =>
      exact fun q source h =>
        (reads_reflectInside hs (List.mem_singleton_self _) _).bind fun _ _ =>
          (hr _ (List.mem_singleton_self _)).follows q source h
  | nth schemas => exact follows_readNth hr hs ha decode _
  | fail text => exact fun _ _ _ => .refuse _ _
  | missing field => exact fun _ _ _ => .refuse _ _
  | unknown variant expected => exact fun _ _ _ => .refuse _ _

theorem follows_readNth {all : List Schema}
    (hr : ∀ type ∈ Schema.partsOfAll all, Sown c (seedOf read type))
    (hs : StartsAll c read (Schema.rootsOfAll all)) (ha : Schema.asksOfAll all → c.asks)
    (decode skip : Nat) : Follows c (readSchema.readNth read decode skip all) := by
  match all, skip with
  | [], _ => exact fun _ _ _ => .refuse _ _
  | schema :: rest, skip =>
      have first : Follows c (readSchema read decode schema) :=
        follows_readSchema (fun type inside => hr type (List.mem_append_left _ inside))
          (fun root inside => hs root (List.mem_append_left _ inside))
          (fun asks => ha (Bool.or_eq_true_iff.mpr (.inl asks))) decode
      match rest, skip with
      | [], 0 => exact first
      | [], skip + 1 => exact first
      | next :: rest, 0 => exact first
      | next :: rest, skip + 1 =>
          exact follows_readNth (fun type inside => hr type (List.mem_append_right _ inside))
            (fun root inside => hs root (List.mem_append_right _ inside))
            (fun asks => ha (Bool.or_eq_true_iff.mpr (.inr asks))) decode skip

end

theorem follows_readDeclared {slot : Slot}
    (hr : ∀ w, c.knows w → ∀ type ∈ (TypeExpr.declared slot).parts w.schemas,
      Sown c (seedOf read type))
    (hs : ∀ w, c.knows w → StartsAll c read ((TypeExpr.declared slot).roots w.schemas))
    (ha : ∀ w, c.knows w → (TypeExpr.declared slot).asks w.schemas → c.asks) :
    Follows c (readDeclared read slot) := by
  intro q source h
  refine ReadsAt.world.bind fun world _ => (ReadsAt.count slot _).bind fun _ _ => ?_
  refine ReadsAt.world.bind fun world known => ?_
  split
  · next schema found =>
    have parts := hr world known
    have roots := hs world known
    have asks := ha world known
    simp only [TypeExpr.parts, TypeExpr.roots, TypeExpr.asks, found, Option.map_some,
      Option.getD_some, Option.any_some] at parts roots asks
    exact follows_readSchema parts roots asks _ q source h
  · exact .refuse _ _

/-- The reader of a type takes its steps where it is sent, if the readers inside are sown. -/
theorem follows_readTypeWith {type : TypeExpr}
    (hr : ∀ w, c.knows w → ∀ p ∈ type.parts w.schemas, Sown c (seedOf read p))
    (hs : ∀ w, c.knows w → StartsAll c read (type.roots w.schemas))
    (ha : ∀ w, c.knows w → type.asks w.schemas → c.asks) :
    Follows c (readTypeWith read type) := by
  obtain ⟨w, known⟩ := c.inhabited
  have inside := hr w known
  cases type with
  | declared slot => exact follows_readDeclared hr hs ha
  | bool => exact follows_readBool
  | int kind => exact follows_readInt kind
  | float kind => exact follows_readFloat kind
  | char => exact follows_readChar
  | text owner => exact follows_readText.discard
  | unit => exact follows_readUnit
  | phantom => exact follows_readUnit
  | value => exact (follows_readValue (ha w known rfl)).discard
  | ignored => exact follows_skipValue
  | nonZero => exact follows_readNonZero
  | result =>
      refine follows_readEnumeration ?_ _
      exact inside
  | duration =>
      refine follows_readLibraryRecord ?_ _
      exact inside
  | form form => exact follows_readForm form
  | option inner => exact follows_readOption (inside _ (List.mem_singleton_self _)).follows
  | vec inner => exact follows_readSeq (fun _ => inside _ (List.mem_singleton_self _)) none
  | pointer pointer inner => exact (inside _ (List.mem_singleton_self _)).follows
  | map inner =>
      exact follows_readMap follows_readText.discard (inside _ (List.mem_singleton_self _)) none
  | range inner =>
      have both : ∀ t ∈ [requiredField "start" inner, requiredField "end" inner].map FieldDecl.type,
          Sown c (seedOf read t) := by
        simpa [requiredField] using inside inner (List.mem_singleton_self _)
      exact follows_readLibraryRecord both _
  | array length inner =>
      have seeds := reads_seeds inside
      unfold TypeExpr.parts at seeds
      rw [List.map_replicate] at seeds
      exact follows_readTuple _ seeds
  | pair inner =>
      have both : ∀ t ∈ [inner, inner], Sown c (seedOf read t) := by
        simpa using inside inner (List.mem_singleton_self _)
      exact follows_readTuple _ (reads_seeds both)
  | withText inner => exact follows_readTuple _ (reads_seeds inside)
  | one inner => exact follows_readTuple _ (reads_seeds inside)

end
end Reader

/-- Readers take their steps where they are sent, if they do as readers of a smaller allowance let
them. -/
structure Layered (c : Scope) (read : Nat → TypeReader) : Prop where
  none : ∀ type, Follows c (read 0 type)
  next : ∀ {depth type}, Follows c (readTypeWith (read depth) type) →
    Follows c (read (depth + 1) type)

/-- Such a reader of a covered type is sown. -/
theorem Layered.sown {c : Scope} {read : Nat → TypeReader} {U : TypeExpr → Prop}
    (layered : Layered c read) (covers : c.Covers read U) (depth : Nat) {type : TypeExpr}
    (ht : U type) : Sown c (seedOf (read depth) type) := by
  induction depth using Nat.strongRecOn generalizing type with
  | ind depth ih =>
      refine ⟨covers.serves ht fun less below p hp => ih less below hp, ?_⟩
      cases depth with
      | zero => exact layered.none type
      | succ depth =>
          exact layered.next (follows_readTypeWith
            (fun _ known p inside => ih depth (Nat.lt_succ_self _) (covers.parts known ht p inside))
            (fun _ known root member => ⟨covers.starts known ht root member depth,
              ih depth (Nat.lt_succ_self _) (covers.roots known ht root member)⟩)
            fun _ known => covers.asks known ht)

theorem layered_readType {c : Scope} : Layered c readType :=
  ⟨fun _ _ _ _ => .throw nofun, id⟩

/-- Every reader of a covered type takes its steps where it is sent. -/
theorem follows_readType {c : Scope} {U : TypeExpr → Prop} (covers : c.Covers readType U)
    (depth : Nat) {type : TypeExpr} (ht : U type) : Follows c (readType depth type) :=
  (layered_readType.sown covers depth ht).follows

end ApiAtlas.Walk
