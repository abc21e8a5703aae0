import ApiAtlas.Proofs.Made
import ApiAtlas.Proofs.Endings

/-!
# Runs of layouts that end

Where the parts of a layout are read to an end, so is the layout: from a walk, whose sample is then
data of the layout, and from data that is replayed. Nothing is assumed of the data, and a walk may
stop, so this holds in cycles and with a cache of any shapes.
-/
namespace ApiAtlas

namespace Walk
open Decode Reader Filter

/-- No payload is an empty tuple. A replay offers a unit for one, which its reader refuses. -/
def Layout.Full : Layout → Prop
  | enumeration _ variants => ∀ variant ∈ variants, variant.2 ≠ .tuple []
  | _ => True

/-- The keys that are offered are some of a list. -/
def Keys.Within (names : List String) : Keys → Prop
  | declared offered | learned offered => offered ⊆ names
  | opened _ => Shape.anyKey ∈ names

namespace Ground
variable {G : Ground} {read : Nat → TypeReader} {path : Path} {muted : Bool}
variable {A : TypeExpr → Json → Prop} {D : Json → Prop} {C : Unit → Prop}

/-! ## Walked sequences -/

theorem leaves_closeSeq (limit index : Nat) {samples : List Json}
    (h : D (.array samples.reverse)) :
    G.Leaves (fun _ => SeqCursor.close (.walk path muted limit index samples)) D := by
  intro s hs
  have closed : G.Leaves (fun _ => setSample (.array samples.reverse)) D := leaves_setSample h
  unfold SeqCursor.close
  refine Ends.bind (Q := fun _ u => G.Holds u) (ends_exec fun _ hu => hu) (fun session => ?_) s hs
  dsimp only
  split
  · exact (runs_modifyNode path _).leaves fun _ _ => closed
  · exact closed

theorem Leaves.andThen {α β : Type} {m : Nat → Decode α} {b : β} (h : G.Leaves m D) :
    G.Leaves (fun d => do let _ ← m d; return b) D :=
  Ends.bind h fun _ => ends_exec fun _ hs => hs

theorem leaves_readSeqCursor (path : Path) (muted : Bool) {cursor : SeqCursor}
    {body : Nat → SeqCursor → Decode (Unit × SeqCursor)}
    (h : G.Runs (fun d => body d cursor) fun r => ∃ limit index samples,
      r.2 = .walk path muted limit index samples ∧ D (.array samples.reverse)) :
    G.Leaves (fun d => cursor.read (body d)) D := by
  refine h.leaves fun r hr => ?_
  obtain ⟨⟨⟩, cursor⟩ := r
  obtain ⟨limit, index, samples, rfl, holds⟩ := hr
  exact (leaves_closeSeq limit index holds).andThen

/-- The next element is read under its place. -/
theorem runs_next?_walk {limit index : Nat} {samples : List Json} {seed : Nat → Seed Unit}
    (h : index < limit →
      G.Leaves (fun d => readChild path muted (Decimal.numeral index) (seed d)) D) :
    G.Runs (fun d => SeqCursor.next? (.walk path muted limit index samples) (seed d)) fun r =>
      ∀ x ∈ r, index < limit ∧
        ∃ v, D v ∧ x.2 = .walk path muted limit (index + 1) (v :: samples) := by
  by_cases done : limit ≤ index
  · simp only [SeqCursor.next?, if_pos done]
    exact runs_pure nofun
  · simp only [SeqCursor.next?, if_neg done]
    refine (h (by omega)).taken fun _ v hv => runs_pure ?_
    rintro x ⟨⟩
    exact ⟨by omega, v, hv, rfl⟩

theorem leaves_readSeq {inner : TypeExpr}
    (h : ∀ i < G.options.maxSequenceLength,
      G.Leaves (fun d => readChild path muted (Decimal.numeral i) (seedOf (read d) inner))
        (A inner)) :
    G.Leaves (fun d => readSeq (fun _ => seedOf (read d) inner) none (.walk path muted))
      (LayoutData A (.seq inner)) := by
  have asked : G.Runs (fun _ => (Source.walk path muted).ask .seq "a sequence") fun answer =>
      ∃ limit ≤ G.options.maxSequenceLength,
        answer = ⟨.seq (.walk path muted limit 0 []), .engine, none⟩ :=
    ends_exec fun s hs => by
      refine ⟨hs, if s.session.inCycle path then 0 else s.session.options.maxSequenceLength, ?_,
        rfl⟩
      rw [hs.options]
      split <;> omega
  refine asked.leaves fun answer ha => ?_
  obtain ⟨limit, few, rfl⟩ := ha
  let K : SeqCursor → Prop := fun cursor => ∃ index samples,
    cursor = .walk path muted limit index samples ∧ ∀ v ∈ samples, A inner v
  have loop (more : Nat) : G.Runs (fun d => readElements (fun _ => seedOf (read d) inner) more 0
      (.walk path muted limit 0 [])) fun r => K r.2 := by
    refine runs_readElements (K := K)
      (fun index cursor hc => ?_) more 0 _ ⟨0, [], rfl, nofun⟩
    obtain ⟨index, samples, rfl, accepted⟩ := hc
    refine (runs_next?_walk fun more => h index (by omega)).mono fun r hr x hx => ?_
    obtain ⟨-, v, hv, cursor⟩ := hr x hx
    exact ⟨index + 1, v :: samples, cursor, fun u hu => (List.mem_cons.mp hu).elim
      (fun same => same ▸ hv) (accepted u)⟩
  refine leaves_readSeqCursor path muted ((loop _).bind fun r hr => runs_pure ?_)
  obtain ⟨index, samples, cursor, accepted⟩ := hr
  exact ⟨limit, index, samples, cursor, .seq fun v hv => accepted v (List.mem_reverse.mp hv)⟩

theorem leaves_acceptTuple (expecting : String) (style : Style) {types : List TypeExpr}
    (h : ∀ i type, types[i]? = some type →
      G.Leaves (fun d => readChild path muted (Decimal.numeral i) (seedOf (read d) type))
        (A type)) :
    G.Leaves (fun d => acceptTuple expecting (types.map (seedOf (read d)))
      ⟨.seq (.walk path muted types.length 0 []), style, none⟩)
      fun v => ∃ values, v = .array values ∧ List.Forall₂ A types values := by
  let K : List TypeExpr → SeqCursor → Prop := fun rest cursor => ∃ before values,
    types = before ++ rest ∧ cursor = .walk path muted types.length before.length values.reverse ∧
      List.Forall₂ A before values
  have loop := runs_readPlaces (G := G) (K := K) style expecting
    (fun t rest cursor hc => by
      obtain ⟨before, values, split, rfl, accepted⟩ := hc
      have here : types[before.length]? = some t := by simp [split]
      refine (runs_next?_walk fun _ => h before.length t here).mono fun r hr x hx => ?_
      obtain ⟨-, v, hv, cursor⟩ := hr x hx
      refine ⟨before ++ [t], values ++ [v], by simp [split], by simp [cursor], ?_⟩
      exact List.rel_append accepted (.cons hv .nil))
    types 0 (.walk path muted types.length 0 []) ⟨[], [], rfl, rfl, .nil⟩
  refine leaves_readSeqCursor path muted (loop.mono fun r hr => ?_)
  obtain ⟨before, values, split, cursor, accepted⟩ := hr
  rw [List.append_nil] at split
  exact ⟨_, _, _, cursor, values, by simp, split ▸ accepted⟩

theorem leaves_readTuple (expecting : String) {types : List TypeExpr}
    (h : ∀ i type, types[i]? = some type →
      G.Leaves (fun d => readChild path muted (Decimal.numeral i) (seedOf (read d) type))
        (A type)) :
    G.Leaves (fun d => readTuple expecting (types.map (seedOf (read d))) (.walk path muted))
      (LayoutData A (.tuple expecting types)) := by
  have asked : G.Runs (fun d => (Source.walk path muted).ask
      (.tuple (types.map (seedOf (read d))).length) expecting) fun answer =>
        answer = ⟨.seq (.walk path muted types.length 0 []), .engine, none⟩ := by
    refine fun s hs => ⟨(.ok _, s), .of_forall fun d => ?_, hs, rfl⟩
    dsimp only
    rw [List.length_map]
    rfl
  refine asked.leaves fun answer ha => ?_
  subst ha
  refine (leaves_acceptTuple expecting .engine h).mono fun v hv => ?_
  obtain ⟨values, rfl, all⟩ := hv
  exact .tuple all

/-! ## Walked maps -/

theorem leaves_readMapCursor {cursor : MapCursor}
    {body : Nat → MapCursor → Decode (Unit × MapCursor)}
    (walked : ∃ keys, cursor = .walk path muted keys none [])
    (h : G.Runs (fun d => body d cursor) fun r => ∃ keys pending samples,
      r.2 = .walk path muted keys pending samples ∧ D (.object samples)) :
    G.Leaves (fun d => cursor.read (body d)) D := by
  obtain ⟨keys, rfl⟩ := walked
  have looked : G.Runs (fun d => if keys.isOpen then
      onFault (body d (.walk path muted keys none [])) fun fault =>
        revise path.site .openMap fault
      else body d (.walk path muted keys none [])) fun r => ∃ keys pending samples,
      r.2 = .walk path muted keys pending samples ∧ D (.object samples) := by
    cases keys.isOpen with
    | false => exact h
    | true => exact Ends.onFault h fun fault s => ⟨_, exec_revise .., rfl⟩
  have closed := looked.leaves (f := fun _ r => do r.2.close; return r.1) (D := D) fun r hr => by
    obtain ⟨⟨⟩, cursor⟩ := r
    obtain ⟨keys, pending, samples, rfl, holds⟩ := hr
    exact Leaves.andThen (leaves_setSample holds)
  intro s hs
  obtain ⟨x, run, ended⟩ := closed s hs
  refine ⟨x, run.mono fun d run => ?_, ended⟩
  rw [← run]
  unfold MapCursor.read
  dsimp only
  cases keys.isOpen <;> rfl

/-- The value of a key is read under it. -/
theorem runs_nextValue_walk {keys : Keys} {key sampleKey : String}
    {samples : List (String × Json)} {seed : Nat → Seed Unit}
    (h : G.Leaves (fun d => readChild path muted key (seed d)) D) :
    G.Runs (fun d => MapCursor.nextValue (.walk path muted keys (some (key, sampleKey)) samples)
      (seed d)) fun r => ∃ v, D v ∧
        r.2 = .walk path muted keys none (Table.insert samples sampleKey v) :=
  Leaves.taken (f := fun _ value sample => pure
      (value, MapCursor.walk path muted keys none (Table.insert samples sampleKey sample)))
    h fun _ v hv => runs_pure ⟨v, hv, rfl⟩

theorem runs_ask_map :
    G.Runs (fun _ => (Source.walk path muted).ask .map "a map") fun answer =>
      ∃ keys : Keys, keys.Within ((G.hints.keys? path.site).getD [Shape.anyKey]) ∧
        answer = ⟨.map (.walk path muted keys none []), .engine, none⟩ :=
  ends_exec fun s hs => by
    rw [exec_ask_walk _ (exec_walkAnswer_map s path muted), hs.hints]
    refine ⟨hs, _, ?_, rfl⟩
    split
    · exact List.nil_subset _
    · split <;> rename_i found <;> rw [found]
      · exact List.Subset.refl _
      · exact List.mem_singleton_self _

/-- Whichever keys are offered, the next one is among the names. -/
theorem runs_nextKey?_walk {keys : Keys} {names : List String} {samples : List (String × Json)}
    (within : keys.Within names) :
    G.Runs (fun _ => MapCursor.nextKey? (.walk path muted keys none samples)
      fun source => discard (readText source)) fun r => ∀ x ∈ r, ∃ keys key sampleKey,
        x.2 = .walk path muted keys (some (key, sampleKey)) samples ∧ key ∈ names ∧
          Keys.Within names keys := by
  refine ends_exec fun s hs => ?_
  cases keys with
  | declared offered =>
      cases offered with
      | nil => exact ⟨hs, nofun⟩
      | cons name rest =>
          refine ⟨hs, ?_⟩
          rintro x ⟨⟩
          exact ⟨_, _, _, rfl, within List.mem_cons_self,
            fun _ hn => within (List.mem_cons_of_mem _ hn)⟩
  | learned offered =>
      cases offered with
      | nil => exact ⟨hs, nofun⟩
      | cons name rest =>
          refine ⟨hs, ?_⟩
          rintro x ⟨⟩
          exact ⟨_, _, _, rfl, within List.mem_cons_self,
            fun _ hn => within (List.mem_cons_of_mem _ hn)⟩
  | opened yielded =>
      cases yielded with
      | true => exact ⟨hs, nofun⟩
      | false =>
          refine ⟨(hs.sampled (.string "")).sampled .null, ?_⟩
          rintro x ⟨⟩
          exact ⟨_, _, _, rfl, within, within⟩

/-- Keys of a list are offered, and data of the values was made up under those offered before. -/
def Offering (A : TypeExpr → Json → Prop) (path : Path) (muted : Bool) (names : List String)
    (inner : TypeExpr) (pending : Option (String × String)) (cursor : MapCursor) : Prop :=
  ∃ keys samples, cursor = .walk path muted keys pending samples ∧ Keys.Within names keys ∧
    ∀ member ∈ samples, A inner member.2

theorem leaves_readMap {inner : TypeExpr}
    (h : ∀ key ∈ (G.hints.keys? path.site).getD [Shape.anyKey],
      G.Leaves (fun d => readChild path muted key (seedOf (read d) inner)) (A inner)) :
    G.Leaves (fun d => readMap (fun source => discard (readText source)) (seedOf (read d) inner)
      none (.walk path muted)) (LayoutData A (.map inner)) := by
  refine runs_ask_map.leaves fun answer ha => ?_
  obtain ⟨keys, within, rfl⟩ := ha
  have loop (most : Nat) : G.Runs (fun d => readEntries (fun source => discard (readText source))
      (seedOf (read d) inner) most (.walk path muted keys none [])) fun r =>
        Offering A path muted ((G.hints.keys? path.site).getD [Shape.anyKey]) inner none r.2 := by
    refine runs_readEntries
      (L := fun cursor => ∃ key sampleKey, key ∈ (G.hints.keys? path.site).getD [Shape.anyKey] ∧
        Offering A path muted ((G.hints.keys? path.site).getD [Shape.anyKey]) inner
          (some (key, sampleKey)) cursor)
      (fun cursor hc => ?_) (fun cursor hc => ?_) most _ ⟨keys, [], rfl, within, nofun⟩
    · obtain ⟨keys, samples, rfl, within, accepted⟩ := hc
      refine (runs_nextKey?_walk within).mono fun r hr x hx => ?_
      obtain ⟨keys, key, sampleKey, cursor, hk, within⟩ := hr x hx
      exact ⟨key, sampleKey, hk, keys, samples, cursor, within, accepted⟩
    · obtain ⟨key, sampleKey, hk, keys, samples, rfl, within, accepted⟩ := hc
      refine (runs_nextValue_walk (h key hk)).mono fun r hr => ?_
      obtain ⟨v, hv, cursor⟩ := hr
      refine ⟨keys, _, cursor, within, fun member hm => ?_⟩
      rcases Table.mem_insert hm with rfl | hm
      · exact hv
      · exact accepted member hm
  refine leaves_readMapCursor ⟨keys, rfl⟩ ((loop _).mono fun r hr => ?_)
  obtain ⟨keys, samples, cursor, -, accepted⟩ := hr
  exact ⟨keys, none, samples, cursor, .map accepted⟩

/-! ## Walked records and payloads -/

/-- The first field of a name that is not among the first fields. -/
theorem findField?_append {before rest : List FieldDecl} {field found : FieldDecl} {i : Nat}
    (h : findField? (before ++ field :: rest) field.name = some (i, found))
    (later : before.length ≤ i) :
    i = before.length ∧ found = field ∧ field.name ∉ before.map FieldDecl.name := by
  obtain ⟨j, first, there⟩ := Option.bind_eq_some_iff.mp h
  obtain ⟨here, there, same⟩ := Option.map_eq_some_iff.mp there
  obtain ⟨rfl, rfl⟩ := Prod.mk.inj same
  obtain ⟨bound, -, none⟩ := List.findIdx?_eq_some_iff_getElem.mp first
  have notAfter : j ≤ before.length := by
    by_contra beyond
    have := none before.length (by omega)
    simp at this
  obtain rfl : j = before.length := by omega
  refine ⟨rfl, by simpa using there.symm, fun mem => ?_⟩
  obtain ⟨other, ho, same⟩ := List.mem_map.mp mem
  obtain ⟨k, hk, rfl⟩ := List.getElem_of_mem ho
  have := none k (by omega)
  simp [List.getElem_append_left, hk, same] at this

theorem findField?_ne_none {fields : List FieldDecl} {field : FieldDecl} (mem : field ∈ fields) :
    findField? fields field.name ≠ none := by
  obtain ⟨i, hi⟩ : ∃ i, fields.findIdx? (fun f => f.name = field.name) = some i :=
    Option.isSome_iff_exists.mp (List.findIdx?_isSome.trans
      (List.any_eq_true.mpr ⟨field, mem, decide_eq_true rfl⟩))
  obtain ⟨bound, -⟩ := List.findIdx?_eq_some_iff_getElem.mp hi
  simp [findField?, hi, bound]

/-- The first fields were read, each the first of its name, and left values. -/
structure FieldsRead (A : TypeExpr → Json → Prop) (before : List FieldDecl) (values : List Json)
    (done : List Nat) : Prop where
  accepted : List.Forall₂ (fun field v => A field.type v) before values
  nodup : (before.map FieldDecl.name).Nodup
  isDone : ∀ j < before.length, j ∈ done

theorem FieldsRead.snoc {before : List FieldDecl} {values : List Json} {done : List Nat}
    {field : FieldDecl} {v : Json} (h : FieldsRead A before values done) (hv : A field.type v)
    (new : field.name ∉ before.map FieldDecl.name) :
    FieldsRead A (before ++ [field]) (values ++ [v]) (before.length :: done) where
  accepted := List.rel_append h.accepted (.cons hv .nil)
  nodup := by
    rw [List.map_append, List.map_singleton, List.nodup_append]
    refine ⟨h.nodup, List.pairwise_singleton _ _, fun a ha b hb same => new ?_⟩
    rwa [same, List.mem_singleton.mp hb] at ha
  isDone := fun j hj => by
    rw [List.length_append, List.length_singleton] at hj
    rcases Nat.lt_succ_iff_lt_or_eq.mp hj with hj | rfl
    · exact List.mem_cons_of_mem _ (h.isDone j hj)
    · exact List.mem_cons_self

/-- Values under the names of fields. -/
def filed (fields : List FieldDecl) (values : List Json) : List (String × Json) :=
  Table.ofList ((fields.map FieldDecl.name).zip values)

theorem filed_snoc {before : List FieldDecl} {values : List Json} (field : FieldDecl) (v : Json)
    (lengths : before.length = values.length) :
    filed (before ++ [field]) (values ++ [v]) =
      Table.insert (filed before values) field.name v := by
  unfold filed
  rw [List.map_append, List.zip_append (by simpa using lengths)]
  simp [Table.ofList]

/-- The cursor of a record stands behind the fields that were read. -/
def Between (A : TypeExpr → Json → Prop) (path : Path) (muted : Bool) (fields : List FieldDecl)
    (more : Nat) (done : List Nat) (cursor : MapCursor) : Prop :=
  ∃ before after values, fields = before ++ after ∧ after.length < more ∧
    FieldsRead A before values done ∧
    cursor = .walk path muted (.declared (after.map FieldDecl.name)) none (filed before values)

/-- The cursor of a record stands at the value of the next field. -/
def AtField (A : TypeExpr → Json → Prop) (path : Path) (muted : Bool) (fields : List FieldDecl)
    (more : Nat) (done : List Nat) (name : String) (cursor : MapCursor) : Prop :=
  ∃ before field after values, fields = before ++ field :: after ∧ after.length < more ∧
    FieldsRead A before values done ∧ name = field.name ∧
    cursor = .walk path muted (.declared (after.map FieldDecl.name)) (some (name, name))
      (filed before values)

/-- All fields of a record were read. -/
def AllRead (A : TypeExpr → Json → Prop) (path : Path) (muted : Bool) (fields : List FieldDecl)
    (done : List Nat) (cursor : MapCursor) : Prop :=
  ∃ values, FieldsRead A fields values done ∧
    cursor = .walk path muted (.declared []) none (filed fields values)

variable {fields : List FieldDecl} {more : Nat} {done : List Nat} {cursor : MapCursor}

theorem Between.runs_nextKey? (h : Between A path muted fields (more + 1) done cursor) :
    G.Runs (fun _ => cursor.nextKey? readText) fun r =>
      (r = none → AllRead A path muted fields done cursor) ∧
        ∀ x ∈ r, AtField A path muted fields more done x.1 x.2 := by
  obtain ⟨before, after, values, split, few, all, rfl⟩ := h
  refine ends_exec fun s hs => ?_
  cases after with
  | nil =>
      rw [List.append_nil] at split
      subst split
      exact ⟨hs, fun _ => ⟨values, all, rfl⟩, nofun⟩
  | cons field after =>
      refine ⟨hs, nofun, ?_⟩
      rintro x ⟨⟩
      exact ⟨before, field, after, values, split, Nat.lt_of_succ_lt_succ few, all, rfl, rfl⟩

/-- The field that is found is the one the cursor stands at, since those before it are done. -/
theorem AtField.runs_nextValue {name : String} {i : Nat} {found : FieldDecl}
    (at' : AtField A path muted fields more done name cursor)
    (first : findField? fields name = some (i, found)) (fresh : i ∉ done)
    (h : G.Leaves (fun d => readChild path muted found.name (seedOf (read d) found.type))
      (A found.type)) :
    G.Runs (fun d => cursor.nextValue (seedOf (read d) found.type))
      fun r => Between A path muted fields more (i :: done) r.2 := by
  obtain ⟨before, field, after, values, split, few, all, rfl, rfl⟩ := at'
  rw [split] at first
  obtain ⟨rfl, rfl, new⟩ := findField?_append first
    (Nat.le_of_not_lt fun early => fresh (all.isDone i early))
  refine (runs_nextValue_walk h).mono fun r hr => ?_
  obtain ⟨v, hv, cursor⟩ := hr
  exact ⟨before ++ [found], after, values ++ [v], by simp [split], few, all.snoc hv new,
    by rw [cursor, filed_snoc found v all.accepted.length_eq]⟩

theorem AtField.found {name : String} (h : AtField A path muted fields more done name cursor) :
    findField? fields name ≠ none := by
  obtain ⟨before, field, after, values, rfl, -, -, rfl, -⟩ := h
  exact findField?_ne_none (List.mem_append_right _ List.mem_cons_self)

theorem leaves_acceptRecord (expecting : String) (style : Style) {fields : List FieldDecl}
    (denyUnknown : Bool)
    (h : ∀ field ∈ fields,
      G.Leaves (fun d => readChild path muted field.name (seedOf (read d) field.type))
        (A field.type)) :
    G.Leaves (fun d => acceptRecord (read d) expecting fields denyUnknown
      ⟨.map (.walk path muted (.declared (fields.map FieldDecl.name)) none []), style, none⟩)
      fun v => ∃ members, v = .object members ∧ HoldsFields A fields members := by
  have loop (most : Nat) (enough : fields.length < most) := runs_readFields (G := G) style fields
    denyUnknown (K := Between A path muted fields) (L := AtField A path muted fields)
    (F := AllRead A path muted fields)
    (fun done cursor hc => by
      obtain ⟨_, _, _, _, few, _⟩ := hc
      cases few)
    (fun more done cursor hc => hc.runs_nextKey?)
    (fun more done name cursor i found hc first fresh =>
      hc.runs_nextValue first fresh (h found (findField?_mem first)))
    (fun more done name cursor hc missing => absurd missing hc.found)
    most [] (.walk path muted (.declared (fields.map FieldDecl.name)) none [])
    ⟨[], fields, [], rfl, enough, ⟨.nil, .nil, nofun⟩, rfl⟩
  show G.Leaves (fun d => readRecordMap (read d) style fields denyUnknown _) _
  unfold readRecordMap
  refine leaves_readMapCursor ⟨_, rfl⟩ ((loop _ ?_).bind fun r hr => ?_)
  · simp [MapCursor.left]
  · obtain ⟨values, all, cursor⟩ := hr
    exact (runs_checkMissing _ _ _).bind fun _ _ => runs_pure
      ⟨_, _, _, cursor, _, rfl, HoldsFields.ofList all.nodup all.accepted⟩

/-- The data of a payload is put under the name of its variant. -/
theorem Leaves.wrapped {m : Nat → Decode Unit} (h : G.Leaves m D) (variant : String) :
    G.Leaves (fun d => do let value ← m d; VariantCursor.wrapSample variant; return value)
      fun v => ∃ x, v = .object [(variant, x)] ∧ D x :=
  Ends.bind h fun _ => Ends.bind
    (Q := fun _ u => G.Holds u ∧ ∃ x, u.session.sample = .object [(variant, x)] ∧ D x)
    (ends_exec fun _ hs => ⟨(hs.1.sampled _).sampled _, _, rfl, hs.2⟩) fun _ =>
      ends_exec fun _ hs => hs

/-- What a variant leaves: its name, or its name above the data of its payload. A payload that is
an empty tuple leaves an empty array, which is no data of it. -/
def VariantData (A : TypeExpr → Json → Prop) (variant : String) (content : VariantContent)
    (v : Json) : Prop :=
  content ≠ .tuple [] →
    content = .unit ∧ v = .string variant ∨
      ∃ x, v = .object [(variant, x)] ∧ PayloadData A content x

theorem leaves_readContent {variant : String} {content : VariantContent}
    (h : ∀ key t, content.Under variant key t →
      G.Leaves (fun d => readChild path true key (seedOf (read d) t)) (A t)) :
    G.Leaves (fun d => readContent (read d) (.walk path variant) content)
      (VariantData A variant content) := by
  cases content with
  | unit => exact leaves_setSample fun _ => .inl ⟨rfl, rfl⟩
  | newtype t =>
      refine (Leaves.wrapped (h variant t ⟨rfl, rfl⟩) variant).mono fun v hv _ => ?_
      obtain ⟨x, rfl, hx⟩ := hv
      exact .inr ⟨x, rfl, .newtype hx⟩
  | tuple types =>
      refine (Leaves.wrapped (leaves_acceptTuple ("a tuple of " ++ Decimal.numeral types.length)
        .engine fun i t ht => h _ t ⟨i, ht, rfl⟩) variant).mono fun v hv full => ?_
      obtain ⟨-, rfl, values, rfl, all⟩ := hv
      exact .inr ⟨_, rfl, .tuple (fun empty => full (congrArg _ empty)) all⟩
  | record fields =>
      refine (Leaves.wrapped (leaves_acceptRecord ("struct " ++ variant) .engine false
        fun field hf => h _ _ ⟨field, hf, rfl, rfl⟩) variant).mono fun v hv _ => ?_
      obtain ⟨-, rfl, members, rfl, holds⟩ := hv
      exact .inr ⟨_, rfl, .record holds⟩

/-- Which of so many variants is taken at a path. -/
def turn (G : Ground) (path : Path) (count : Nat) : Nat :=
  Walk.turn G.options.cycleThreshold (repeatsAt G.occurrences path) count

theorem runs_ask_enumeration (name : String) (names : List String) (expecting : String) :
    G.Runs (fun _ => (Source.walk path muted).ask (.enumeration name names) expecting)
      fun answer => ∃ variant, names[G.turn path names.length]? = some variant ∧
        answer = ⟨.variant (.walk path variant), .engine, none⟩ := by
  have walked : G.Runs (fun _ => Source.walkAnswer path muted (.enumeration name names))
      fun visit => ∃ variant, names[G.turn path names.length]? = some variant ∧
        visit = .variant (.walk path variant) := by
    refine Runs.bind (m := fun _ => session)
      (C := fun session => Walk.turn session.options.cycleThreshold (session.occurrencesAt path)
        names.length = G.turn path names.length)
      (ends_exec fun s hs => ⟨hs, ?_⟩) fun session same => ?_
    · show Walk.turn s.session.options.cycleThreshold (s.session.occurrencesAt path)
        names.length = _
      rw [Session.occurrencesAt_eq, hs.options, hs.occurrences]
      rfl
    · dsimp only
      split
      · exact ends_throw nofun fun _ hs => hs.fits
      · next some' =>
        have few : G.turn path names.length < names.length :=
          turn_lt _ _ (List.length_pos_iff.mpr fun empty => some' (by rw [empty]; rfl))
        have taken : ∃ variant, names[G.turn path names.length]? = some variant ∧
            Visit.variant (.walk path (names.getD (Walk.turn session.options.cycleThreshold
              (session.occurrencesAt path) names.length) "")) = .variant (.walk path variant) := by
          refine ⟨_, List.getElem?_eq_getElem few, ?_⟩
          rw [same, List.getD_eq_getElem?_getD, List.getElem?_eq_getElem few]
          rfl
        cases muted with
        | true => exact runs_pure taken
        | false => exact (runs_modifyNode path _).bind fun _ _ => runs_pure taken
  refine walked.bind fun visit hv => runs_pure ?_
  obtain ⟨variant, taken, rfl⟩ := hv
  exact ⟨variant, taken, rfl⟩

/-- An enumeration leaves what the variant in turn leaves. -/
theorem leaves_readEnumeration {name : String} {variants : List (String × VariantContent)}
    (h : ∀ variant content, (variants.map Prod.fst)[G.turn path variants.length]? = some variant →
      Table.get? variants variant = some content → ∀ key t, content.Under variant key t →
      G.Leaves (fun d => readChild path true key (seedOf (read d) t)) (A t)) :
    G.Leaves (fun d => readEnumeration (read d) name variants (.walk path muted))
      fun v => ∃ variant content,
        (variants.map Prod.fst)[G.turn path variants.length]? = some variant ∧
        Table.get? variants variant = some content ∧ VariantData A variant content v := by
  refine (runs_ask_enumeration name _ _).leaves fun answer ha => ?_
  obtain ⟨variant, taken, rfl⟩ := ha
  rw [List.length_map] at taken
  dsimp only [VariantCursor.variant]
  cases chosen : Table.get? variants variant with
  | none => exact leaves_refuse _ _
  | some content =>
      exact (leaves_readContent (h variant content taken chosen)).mono fun v data =>
        ⟨variant, content, taken, chosen, data⟩

/-! ## Walked layouts -/

theorem leaves_readOption {inner : TypeExpr}
    (h : G.Leaves (fun d => read d inner (.walk path muted)) (A inner)) :
    G.Leaves (fun d => readOption (read d inner) (.walk path muted))
      (LayoutData A (.option inner)) := by
  intro s hs
  have answer := exec_walkAnswer_option s path muted
  unfold readOption
  cases cut : s.session.inCycle path with
  | true =>
      rw [cut, if_pos rfl] at answer
      refine ⟨(.ok (), s.inSession (Note.sample .null).apply), .of_forall fun d => ?_,
        hs.sampled .null, .none⟩
      rw [exec_bind, exec_ask_walk _ answer]
      rfl
  | false =>
      rw [cut, if_neg Bool.false_ne_true] at answer
      obtain ⟨x, run, ended⟩ := h.mono (fun _ hv => LayoutData.some hv) s hs
      refine ⟨x, run.mono fun d run => ?_, ended⟩
      rw [exec_bind, exec_ask_walk _ answer]
      exact run

/-- What a layout reads at a path: in place, under keys of the path, or under the name of a variant
and muted. -/
structure LeavesParts (G : Ground) (read : Nat → TypeReader) (A : TypeExpr → Json → Prop)
    (path : Path) (muted : Bool) (layout : Layout) : Prop where
  inner : ∀ t, layout.inner? = some t → G.Leaves (fun d => read d t (.walk path muted)) (A t)
  under : ∀ key t,
    layout.Under G.options.maxSequenceLength (G.hints.keys? path.site) key t →
    G.Leaves (fun d => readChild path muted key (seedOf (read d) t)) (A t)
  payload : ∀ name variants, layout = .enumeration name variants → ∀ variant ∈ variants, ∀ key t,
    variant.2.Under variant.1 key t →
    G.Leaves (fun d => readChild path true key (seedOf (read d) t)) (A t)

theorem LeavesParts.leaves {layout : Layout} (h : LeavesParts G read A path muted layout) :
    G.Leaves (fun d => layout.read (read d) (.walk path muted))
      fun v => layout.Full → LayoutData A layout v := by
  cases layout with
  | pointer t => exact (h.inner t rfl).mono fun _ hv _ => .pointer hv
  | newtype name t => exact (h.inner t rfl).mono fun _ hv _ => .newtype hv
  | option t => exact (leaves_readOption (h.inner t rfl)).mono fun _ hv _ => hv
  | record expecting fields library denyUnknown =>
      have accepted (deny : Bool) :
          G.Leaves (fun d => acceptRecord (read d) expecting fields deny _) fun v =>
            (Layout.record expecting fields library denyUnknown).Full →
            LayoutData A (.record expecting fields library denyUnknown) v :=
        (leaves_acceptRecord expecting .engine deny fun field hf =>
          h.under _ _ ⟨field, hf, rfl, rfl⟩).mono fun v hv _ => by
            obtain ⟨members, rfl, holds⟩ := hv
            exact .record holds
      cases library with
      | true => exact accepted true
      | false => exact accepted denyUnknown
  | seq t =>
      exact (leaves_readSeq fun i hi => h.under _ t ⟨rfl, i, hi, rfl⟩).mono fun _ hv _ => hv
  | tuple expecting types =>
      exact (leaves_readTuple expecting fun i t ht => h.under _ t ⟨i, ht, rfl⟩).mono
        fun _ hv _ => hv
  | map t => exact (leaves_readMap fun key hk => h.under key t ⟨rfl, hk⟩).mono fun _ hv _ => hv
  | enumeration name variants =>
      refine (leaves_readEnumeration fun variant content _ chosen key t under =>
        h.payload name variants rfl (variant, content) (Table.mem_of_get? chosen) key t under).mono
          fun v left full => ?_
      obtain ⟨variant, content, -, chosen, data⟩ := left
      rcases data (full _ (Table.mem_of_get? chosen)) with ⟨rfl, rfl⟩ | ⟨x, rfl, payload⟩
      · exact .unit chosen
      · exact .payload chosen payload

end Ground
end Walk
end ApiAtlas
