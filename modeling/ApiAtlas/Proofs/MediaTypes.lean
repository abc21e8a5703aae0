import ApiAtlas.Proofs.RoundTrip
import Mathlib.Data.List.TakeWhile

/-!
# Media types read back

A media type that was read is written without the quotes that stood around its values. Its text is
always read again, as the same type, subtype and parameter names; each value is freed once more of
blanks and quotes at its ends. So the same media type comes back exactly if no value begins or ends
with a blank. Such values exist: quotes keep the blanks inside them, and they are not written.
-/
namespace ApiAtlas

namespace Text

variable {drop : Char → Bool} {cs front back : List Char} {separator : Char}

/-! ## What is stripped -/

/-- Neither end is of a class of characters. -/
structure Bare (drop : Char → Bool) (cs : List Char) : Prop where
  first : ∀ c ∈ cs.head?, drop c = false
  last : ∀ c ∈ cs.getLast?, drop c = false

theorem dropWhile_eq_self (h : ∀ c ∈ cs.head?, drop c = false) : cs.dropWhile drop = cs := by
  cases cs with
  | nil => rfl
  | cons c cs => simp [h c rfl]

theorem head?_dropWhile (drop : Char → Bool) (cs : List Char) :
    ∀ c ∈ (cs.dropWhile drop).head?, drop c = false := by
  intro c hc
  have front := List.head?_dropWhile_not drop cs
  rw [Option.mem_def.mp hc] at front
  simpa using front

/-- What stands between two runs of a class is what stripping leaves. -/
theorem strip_between (before : ∀ c ∈ front, drop c) (h : Bare drop cs)
    (after : ∀ c ∈ back, drop c) : strip drop (front ++ cs ++ back) = cs := by
  unfold strip
  rw [List.append_assoc, List.dropWhile_append_of_pos before]
  cases cs with
  | nil =>
      have none : back.dropWhile drop = [] := List.dropWhile_eq_nil_iff.mpr after
      simp [none]
  | cons c cs =>
      have opens : (c :: cs ++ back).dropWhile drop = c :: cs ++ back :=
        dropWhile_eq_self (by simpa using h.first)
      have closes : (c :: cs).reverse.dropWhile drop = (c :: cs).reverse :=
        dropWhile_eq_self fun d hd => h.last d (List.head?_reverse ▸ hd)
      rw [opens, List.reverse_append, List.dropWhile_append_of_pos (by simpa using after), closes,
        List.reverse_reverse]

/-- Stripping takes a run from each end. -/
theorem exists_strip (drop : Char → Bool) (cs : List Char) :
    ∃ front back, cs = front ++ strip drop cs ++ back ∧ (∀ c ∈ front, drop c) ∧
      Bare drop (strip drop cs) ∧ ∀ c ∈ back, drop c := by
  have left := List.takeWhile_append_dropWhile (p := drop) (l := cs)
  have middle : cs.dropWhile drop =
      strip drop cs ++ ((cs.dropWhile drop).reverse.takeWhile drop).reverse := by
    unfold strip
    rw [← List.reverse_append, List.takeWhile_append_dropWhile, List.reverse_reverse]
  refine ⟨cs.takeWhile drop, ((cs.dropWhile drop).reverse.takeWhile drop).reverse, ?_,
    fun c hc => List.mem_takeWhile_imp hc, ⟨fun c hc => ?_, fun c hc => ?_⟩,
    fun c hc => List.mem_takeWhile_imp (List.mem_reverse.mp hc)⟩
  · rw [List.append_assoc, ← middle, left]
  · refine head?_dropWhile drop cs c ?_
    rw [middle, List.head?_append, Option.mem_def.mp hc]
    rfl
  · refine head?_dropWhile drop (cs.dropWhile drop).reverse c ?_
    simpa [strip] using hc

theorem bare_strip (drop : Char → Bool) (cs : List Char) : Bare drop (strip drop cs) := by
  obtain ⟨_, _, -, -, bare, -⟩ := exists_strip drop cs
  exact bare

theorem Bare.strip_eq (h : Bare drop cs) : strip drop cs = cs := by
  have between : strip drop ([] ++ cs ++ []) = cs := strip_between nofun h nofun
  simpa using between

theorem mem_of_mem_strip {c : Char} (h : c ∈ strip drop cs) : c ∈ cs := by
  obtain ⟨front, back, eq, -⟩ := exists_strip drop cs
  rw [eq]
  exact List.mem_append_left _ (List.mem_append_right _ h)

/-- A run behind is stripped with the rest. -/
theorem strip_append (after : ∀ c ∈ back, drop c) : strip drop (cs ++ back) = strip drop cs := by
  obtain ⟨front, tail, eq, before, bare, others⟩ := exists_strip drop cs
  have whole : cs ++ back = front ++ strip drop cs ++ (tail ++ back) := by
    rw [← List.append_assoc, ← eq]
  rw [whole]
  exact strip_between before bare fun c hc => (List.mem_append.mp hc).elim (others c) (after c)

theorem length_strip_le (drop : Char → Bool) (cs : List Char) :
    (strip drop cs).length ≤ cs.length := by
  obtain ⟨front, back, eq, -⟩ := exists_strip drop cs
  have := congrArg List.length eq
  simp only [List.length_append] at this
  omega

/-- What is not shortened is not changed. -/
theorem strip_eq_of_length (h : cs.length ≤ (strip drop cs).length) : strip drop cs = cs := by
  obtain ⟨front, back, eq, -⟩ := exists_strip drop cs
  have lengths := congrArg List.length eq
  simp only [List.length_append] at lengths
  have nothing : front = [] := List.length_eq_zero_iff.mp (by omega)
  have nothing' : back = [] := List.length_eq_zero_iff.mp (by omega)
  rw [nothing, nothing', List.nil_append, List.append_nil] at eq
  exact eq.symm

/-- The run at the end is as long as can be. -/
theorem exists_end (drop : Char → Bool) (cs : List Char) :
    ∃ front back, cs = front ++ back ∧ (∀ c ∈ front.getLast?, drop c = false) ∧
      ∀ c ∈ back, drop c := by
  refine ⟨(cs.reverse.dropWhile drop).reverse, (cs.reverse.takeWhile drop).reverse, ?_,
    fun c hc => head?_dropWhile drop cs.reverse c (List.getLast?_reverse ▸ hc),
    fun c hc => List.mem_takeWhile_imp (List.mem_reverse.mp hc)⟩
  rw [← List.reverse_append, List.takeWhile_append_dropWhile, List.reverse_reverse]

/-! ## What is cut -/

theorem parts_eq (h : separator ∉ front) : parts separator front = [front] := by
  induction front with
  | nil => rfl
  | cons c front ih =>
      obtain ⟨other, rest⟩ := not_or.mp (List.mem_cons.not.mp h)
      simp [parts, Ne.symm other, ih rest]

theorem parts_append (h : separator ∉ front) (cs : List Char) :
    parts separator (front ++ separator :: cs) = front :: parts separator cs := by
  induction front with
  | nil => simp [parts]
  | cons c front ih =>
      obtain ⟨other, rest⟩ := not_or.mp (List.mem_cons.not.mp h)
      simp [parts, Ne.symm other, ih rest]

/-- A text is cut where it was joined. -/
theorem parts_joined {pieces : List (List Char)} (h : separator ∉ front)
    (hp : ∀ piece ∈ pieces, separator ∉ piece) :
    parts separator (front ++ pieces.flatMap (separator :: ·)) = front :: pieces := by
  induction pieces generalizing front with
  | nil => rw [List.flatMap_nil, List.append_nil, parts_eq h]
  | cons piece pieces ih =>
      rw [List.flatMap_cons, List.cons_append, parts_append h,
        ih (hp piece List.mem_cons_self) fun p hp' => hp p (List.mem_cons_of_mem _ hp')]

theorem cut?_append (h : separator ∉ front) (back : List Char) :
    cut? separator (front ++ separator :: back) = some (front, back) := by
  induction front with
  | nil => simp [cut?]
  | cons c front ih =>
      obtain ⟨other, rest⟩ := not_or.mp (List.mem_cons.not.mp h)
      simp [cut?, Ne.symm other, ih rest]

/-! ## Small letters -/

/-- A character keeps its place or goes from one of the large letters to a small one. -/
theorem toLower_cases (c : Char) :
    c.toLower = c ∨ 65 ≤ c.toNat ∧ c.toNat ≤ 90 ∧ c.toLower.toNat = c.toNat + 32 := by
  unfold Char.toLower
  split
  · next large =>
      have upper : c.toNat ≤ 90 := UInt32.le_iff_toNat_le.mp large.2
      refine .inr ⟨UInt32.le_iff_toNat_le.mp large.1, upper, ?_⟩
      show (c.val + 32).toNat = c.val.toNat + 32
      rw [UInt32.toNat_add]
      simp
      omega
  · exact .inl rfl

theorem toLower_toLower (c : Char) : c.toLower.toLower = c.toLower := by
  rcases toLower_cases c with same | ⟨_, _, raised⟩
  · rw [same, same]
  · rcases toLower_cases c.toLower with same | ⟨_, high, _⟩
    · exact same
    · omega

theorem isBlank_toLower (c : Char) : isBlank c.toLower = isBlank c := by
  rcases toLower_cases c with same | ⟨low, high, raised⟩
  · rw [same]
  · have letter : isBlank c = false := by
      simp [isBlank]
      omega
    have small : isBlank c.toLower = false := by
      simp [isBlank]
      omega
    rw [letter, small]

/-- Only a letter becomes another character, and that is a letter too. -/
theorem toLower_eq {c d : Char} (h : c.toLower = d) (sign : d.toNat < 97 ∨ 122 < d.toNat) :
    c = d := by
  rcases toLower_cases c with same | ⟨_, _, raised⟩
  · exact same.symm.trans h
  · rw [h] at raised
    omega

end Text

namespace MediaType

open Text (Bare isBlank strip trim)

/-! ## What is left by the reader -/

/-- A parameter as the reader leaves it. -/
structure ReadParameter (p : String × String) : Prop where
  nonempty : p.1.toList ≠ []
  bareName : Bare isBlank p.1.toList
  small : lowerText p.1.toList = p.1
  nameEnds : '=' ∉ p.1.toList
  nameWhole : ';' ∉ p.1.toList
  bareValue : Bare (· = '"') p.2.toList
  valueWhole : ';' ∉ p.2.toList

/-- A type or a subtype as the reader leaves it. -/
structure ReadToken (token : String) : Prop where
  isToken : isToken token.toList
  small : lowerText token.toList = token
  whole : ';' ∉ token.toList

/-- A media type as the reader leaves it. -/
structure WasRead (m : MediaType) : Prop where
  type : ReadToken m.type
  typeEnds : '/' ∉ m.type.toList
  subtype : ReadToken m.subtype
  parameters : ∀ p ∈ m.parameters, ReadParameter p
  ascending : Table.Ascending m.parameters

section
variable {cs : List Char}

theorem lowerText_lowerText (cs : List Char) : lowerText (lowerText cs).toList = lowerText cs := by
  simp only [lowerText, String.toList_ofList, List.map_map, Function.comp_def, Text.toLower_toLower]

theorem not_mem_lowerText {sign : Char} (h : sign ∉ cs)
    (other : sign.toNat < 97 ∨ 122 < sign.toNat) : sign ∉ (lowerText cs).toList := by
  intro member
  obtain ⟨c, hc, same⟩ := List.mem_map.mp (String.toList_ofList ▸ member)
  exact h (Text.toLower_eq same other ▸ hc)

theorem isToken_lowerText (h : isToken cs) : isToken (lowerText cs).toList := by
  simp only [isToken, Bool.and_eq_true, Bool.not_eq_true'] at h ⊢
  simpa [lowerText, Text.isBlank_toLower, Function.comp_def] using h

theorem bare_lowerText (h : Bare isBlank cs) : Bare isBlank (lowerText cs).toList := by
  refine ⟨fun c hc => ?_, fun c hc => ?_⟩
  · rw [lowerText, String.toList_ofList, List.head?_map] at hc
    obtain ⟨d, hd, rfl⟩ := Option.map_eq_some_iff.mp hc
    rw [Text.isBlank_toLower]
    exact h.first d hd
  · rw [lowerText, String.toList_ofList, List.getLast?_map] at hc
    obtain ⟨d, hd, rfl⟩ := Option.map_eq_some_iff.mp hc
    rw [Text.isBlank_toLower]
    exact h.last d hd

theorem readToken_lowerText (token : isToken cs) (whole : ';' ∉ cs) : ReadToken (lowerText cs) :=
  ⟨isToken_lowerText token, lowerText_lowerText cs, not_mem_lowerText whole (by decide)⟩

/-- A part that is read as a parameter. -/
theorem readParameter_of {p : String × String} (h : parameter? cs = some p) (whole : ';' ∉ cs) :
    ReadParameter p := by
  obtain ⟨⟨name, value⟩, cut, h⟩ := Option.bind_eq_some_iff.mp h
  obtain ⟨eq, ends⟩ := Text.cut?_eq_some cut
  rw [eq, List.mem_append, List.mem_cons, not_or, not_or] at whole
  dsimp only at h
  split at h
  · cases h
  · next nonempty =>
    obtain rfl := Option.some.inj h
    have plain {sign : Char} (h : sign ∉ name) : sign ∉ trim name :=
      fun member => h (Text.mem_of_mem_strip member)
    refine ⟨?_, bare_lowerText (Text.bare_strip _ _), lowerText_lowerText _,
      not_mem_lowerText (plain ends) (by decide), not_mem_lowerText (plain whole.1) (by decide),
      ?_, ?_⟩
    · simpa [lowerText] using nonempty
    · rw [String.toList_ofList]
      exact Text.bare_strip _ _
    · rw [String.toList_ofList]
      exact fun member => whole.2.2 (Text.mem_of_mem_strip (Text.mem_of_mem_strip member))

theorem mem_of_mapM {α β : Type} {f : α → Option β} {xs : List α} {ys : List β}
    (h : xs.mapM f = some ys) {y : β} (member : y ∈ ys) : ∃ x ∈ xs, f x = some y := by
  induction xs generalizing ys with
  | nil =>
      cases h
      cases member
  | cons x xs ih =>
      rw [List.mapM_cons] at h
      obtain ⟨first, head, h⟩ := Option.bind_eq_some_iff.mp h
      obtain ⟨others, tail, h⟩ := Option.bind_eq_some_iff.mp h
      obtain rfl := Option.some.inj h
      rcases List.mem_cons.mp member with rfl | member
      · exact ⟨x, List.mem_cons_self, head⟩
      · obtain ⟨z, hz, read⟩ := ih tail member
        exact ⟨z, List.mem_cons_of_mem _ hz, read⟩

theorem wasRead_ofText? {text : String} {m : MediaType} (h : ofText? text = some m) :
    m.WasRead := by
  unfold ofText? at h
  split at h
  · cases h
  · next front rest cut =>
    have whole {part : List Char} (member : part ∈ front :: rest) : ';' ∉ part :=
      Text.not_mem_of_mem_parts (cut ▸ member)
    obtain ⟨⟨type, subtype⟩, essence, h⟩ := Option.bind_eq_some_iff.mp h
    obtain ⟨parameters, filed, h⟩ := Option.bind_eq_some_iff.mp h
    obtain rfl := Option.some.inj h
    obtain ⟨⟨front', back⟩, slash, tokens⟩ := Option.bind_eq_some_iff.mp essence
    obtain ⟨eq, ends⟩ := Text.cut?_eq_some slash
    have unspoilt : ';' ∉ trim front :=
      fun member => whole List.mem_cons_self (Text.mem_of_mem_strip member)
    rw [eq, List.mem_append, List.mem_cons, not_or, not_or] at unspoilt
    dsimp only at tokens
    split at tokens
    · next both =>
      obtain ⟨rfl, rfl⟩ := Prod.mk.inj (Option.some.inj tokens)
      obtain ⟨first, second⟩ := Bool.and_eq_true_iff.mp both
      obtain ⟨entries, read, rfl⟩ := Option.map_eq_some_iff.mp filed
      refine ⟨readToken_lowerText first unspoilt.1, not_mem_lowerText ends (by decide),
        readToken_lowerText second unspoilt.2.2, fun p member => ?_, Table.ascending_ofList entries⟩
      obtain ⟨part, partMember, readPart⟩ := mem_of_mapM read (Table.mem_ofList member)
      obtain ⟨trimmed, -⟩ := List.mem_filter.mp partMember
      obtain ⟨raw, rawMember, rfl⟩ := List.mem_map.mp trimmed
      exact readParameter_of readPart fun member =>
        whole (List.mem_cons_of_mem _ rawMember) (Text.mem_of_mem_strip member)
    · cases tokens

end

/-! ## What is read again -/

/-- A value that is read again. -/
def unquoted (value : String) : String :=
  String.ofList (strip (· = '"') (trim value.toList))

/-- A media type with every value read again. -/
def reread (m : MediaType) : MediaType :=
  { m with parameters := m.parameters.map fun p => (p.1, unquoted p.2) }

/-- A parameter as it is written, behind its semicolon. -/
def parameterText (p : String × String) : List Char :=
  ' ' :: (p.1.toList ++ '=' :: p.2.toList)

theorem toList_text (m : MediaType) :
    m.text.toList = (m.type.toList ++ '/' :: m.subtype.toList) ++
      (m.parameters.map parameterText).flatMap (';' :: ·) := by
  simp [text, parameterText, List.flatMap_map]

variable {p : String × String}

/-- The blanks behind a value are dropped with those around the parameter. -/
theorem ReadParameter.trim_text (h : ReadParameter p) : ∃ value,
    trim (parameterText p) = p.1.toList ++ '=' :: value ∧ trim value = trim p.2.toList := by
  obtain ⟨value, blanks, eq, last, blank⟩ := Text.exists_end isBlank p.2.toList
  have bare : Bare isBlank (p.1.toList ++ '=' :: value) := by
    refine ⟨fun c hc => h.bareName.first c ?_, fun c hc => ?_⟩
    · obtain ⟨first, name, eq⟩ := List.exists_cons_of_ne_nil h.nonempty
      rw [eq] at hc ⊢
      exact hc
    · rw [List.getLast?_append, List.getLast?_cons] at hc
      cases ending : value.getLast? with
      | none =>
          rw [ending] at hc
          obtain rfl : '=' = c := Option.some.inj hc
          decide
      | some d =>
          rw [ending] at hc
          exact Option.some.inj hc ▸ last d ending
  refine ⟨value, ?_, ?_⟩
  · have whole : parameterText p = [' '] ++ (p.1.toList ++ '=' :: value) ++ blanks := by
      simp [parameterText, eq]
    have space : ∀ c ∈ [' '], isBlank c := List.forall_mem_singleton.mpr (by decide)
    rw [whole]
    exact Text.strip_between space bare blank
  · rw [eq]
    exact (Text.strip_append blank).symm

theorem ReadParameter.parameter? (h : ReadParameter p) :
    MediaType.parameter? (trim (parameterText p)) = some (p.1, unquoted p.2) := by
  obtain ⟨value, eq, same⟩ := h.trim_text
  have name : trim p.1.toList = p.1.toList := h.bareName.strip_eq
  simp [MediaType.parameter?, eq, Text.cut?_append h.nameEnds, name, h.nonempty, h.small, same,
    unquoted]

theorem parameters?_text {parameters : List (String × String)}
    (h : ∀ p ∈ parameters, ReadParameter p) (ascending : Table.Ascending parameters) :
    parameters? (parameters.map parameterText) =
      some (parameters.map fun p => (p.1, unquoted p.2)) := by
  have present : ((parameters.map parameterText).map trim).filter (!·.isEmpty) =
      (parameters.map parameterText).map trim := by
    refine List.filter_eq_self.mpr fun part member => ?_
    rw [List.map_map] at member
    obtain ⟨p, hp, rfl⟩ := List.mem_map.mp member
    obtain ⟨value, eq, -⟩ := (h p hp).trim_text
    simp [eq]
  have read : ((parameters.map parameterText).map trim).mapM parameter? =
      some (parameters.map fun p => (p.1, unquoted p.2)) := by
    clear present ascending
    induction parameters with
    | nil => rfl
    | cons p parameters ih =>
        have first := (h p List.mem_cons_self).parameter?
        have others := ih fun q hq => h q (List.mem_cons_of_mem _ hq)
        simp only [List.map_cons, List.mapM_cons, first, others]
        rfl
  have filed : Table.Ascending (parameters.map fun p => (p.1, unquoted p.2)) :=
    List.pairwise_map.mpr ascending
  rw [parameters?, present, read, Option.map_some, Table.ofList_ascending filed]

/-- No blank stands in a token, so none is taken from its ends. -/
theorem not_isBlank_of_isToken {cs : List Char} (h : isToken cs) : ∀ c ∈ cs, isBlank c = false := by
  simpa [isToken] using (Bool.and_eq_true_iff.mp h).2

theorem WasRead.essence? {m : MediaType} (h : m.WasRead) :
    MediaType.essence? (m.type.toList ++ '/' :: m.subtype.toList) = some (m.type, m.subtype) := by
  have plain : ∀ c ∈ m.type.toList ++ '/' :: m.subtype.toList, isBlank c = false := by
    intro c hc
    rcases List.mem_append.mp hc with hc | hc
    · exact not_isBlank_of_isToken h.type.isToken c hc
    · rcases List.mem_cons.mp hc with rfl | hc
      · decide
      · exact not_isBlank_of_isToken h.subtype.isToken c hc
  have whole : trim (m.type.toList ++ '/' :: m.subtype.toList) =
      m.type.toList ++ '/' :: m.subtype.toList :=
    Bare.strip_eq ⟨fun c hc => plain c (List.mem_of_head? hc),
      fun c hc => plain c (List.mem_of_getLast? hc)⟩
  simp [MediaType.essence?, whole, Text.cut?_append h.typeEnds, h.type.isToken, h.subtype.isToken,
    h.type.small, h.subtype.small]

/-- A written media type is read again, with its values read again. -/
theorem WasRead.ofText? {m : MediaType} (h : m.WasRead) :
    MediaType.ofText? m.text = some m.reread := by
  have front : ';' ∉ m.type.toList ++ '/' :: m.subtype.toList := by
    simp [h.type.whole, h.subtype.whole]
  have pieces : ∀ piece ∈ m.parameters.map parameterText, ';' ∉ piece := by
    intro piece member
    obtain ⟨p, hp, rfl⟩ := List.mem_map.mp member
    simp [parameterText, (h.parameters p hp).nameWhole, (h.parameters p hp).valueWhole]
  unfold MediaType.ofText?
  rw [toList_text, Text.parts_joined front pieces]
  simp [h.essence?, parameters?_text h.parameters h.ascending, reread]

/-- A value that was read is read as the same one if nothing is taken from it. -/
theorem ReadParameter.unquoted_eq_iff (h : ReadParameter p) :
    unquoted p.2 = p.2 ↔ trim p.2.toList = p.2.toList := by
  refine ⟨fun same => ?_, fun same => ?_⟩
  · have kept : strip (· = '"') (trim p.2.toList) = p.2.toList := by
      simpa [unquoted] using congrArg String.toList same
    have shorter := Text.length_strip_le (· = '"') (trim p.2.toList)
    rw [kept] at shorter
    exact Text.strip_eq_of_length shorter
  · rw [unquoted, same, h.bareValue.strip_eq, String.ofList_toList]

/-- The text of a media type that was read is read again, as a media type that differs only in that
its values were freed of blanks and quotes once more. It is the same one exactly if no value begins
or ends with a blank. -/
theorem ofText?_text {text : String} {m : MediaType} (h : ofText? text = some m) :
    ofText? m.text = some m.reread ∧
      (ofText? m.text = some m ↔ ∀ p ∈ m.parameters, trim p.2.toList = p.2.toList) := by
  have read := wasRead_ofText? h
  refine ⟨read.ofText?, ?_⟩
  rw [read.ofText?, Option.some.injEq]
  have same : m.reread = m ↔ ∀ p ∈ m.parameters, (p.1, unquoted p.2) = id p := by
    rw [← List.map_inj_left, List.map_id]
    exact ⟨congrArg parameters, fun kept => congrArg (MediaType.mk m.type m.subtype) kept⟩
  rw [same]
  refine forall₂_congr fun p hp => ?_
  rw [← (read.parameters p hp).unquoted_eq_iff, Prod.ext_iff]
  simp

namespace Padded

/-- Quotes around a text that begins and ends with blanks. -/
def note : MediaType := ⟨"text", "plain", [("charset", "utf-8"), ("note", " a ")]⟩

theorem ofText?_text_note :
    ofText? "Text/plain ; note=\" a \"; Charset=utf-8" = some note ∧
      ofText? note.text = some note.reread ∧
      (ofText? note.text = some note ↔ ∀ p ∈ note.parameters, trim p.2.toList = p.2.toList) := by
  have reads : ofText? "Text/plain ; note=\" a \"; Charset=utf-8" = some note := by decide +kernel
  exact ⟨reads, ofText?_text reads⟩

/-- The blanks that the quotes kept are lost when the text is read again. -/
theorem padding_lost : ¬ ∀ (text : String) (m : MediaType), ofText? text = some m →
    ofText? m.text = some m := by
  intro same
  have read := same "text/plain; note=\" a \"" ⟨"text", "plain", [("note", " a ")]⟩
    (by decide +kernel)
  exact absurd read (by decide +kernel)

end Padded

end MediaType
end ApiAtlas
