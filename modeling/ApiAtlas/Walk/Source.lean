import ApiAtlas.Walk.State
import ApiAtlas.Json.Numeric

/-!
# Where readers get their data from

A reader sends a request to a source and is visited with an answer. There are four kinds of
sources: the walk, which makes data up and records what it is asked for; a JSON value, be it
offered at a self-describing site, replayed from a sample, or buffered by a reader; a name; and
a key of a replayed object, whose text may spell a number or a truth value.

Containers are visited as cursors, which the reader steps through and which are closed when the
reader is done: then the walk takes stock of the samples, and replayed data checks that nothing
is left.
-/
namespace ApiAtlas.Walk

open Decimal (Binary64)

/-- Where a JSON value comes from. -/
inductive Origin where
  /-- Offered at a self-describing site. -/
  | hint
  /-- A sample or placeholder. -/
  | replay
  /-- Kept by a reader, told about in the style of the data it was read from. -/
  | buffered (style : Style)
  deriving DecidableEq, Repr

/-- How problems with data of an origin are told. -/
def Origin.style : Origin → Style
  | hint => .engine
  | replay => .replay ""
  | buffered style => style

/-- A source of data. -/
inductive Source where
  /-- Made-up data at a path; a muted walk records nothing. -/
  | walk (path : Path) (muted : Bool)
  | data (origin : Origin) (value : Json)
  | name (style : Style) (text : String)
  | replayedKey (text : String)

/-- How problems with data of a source are told. -/
def Source.style : Source → Style
  | walk _ _ => .engine
  | data origin _ => origin.style
  | name style _ => style
  | replayedKey _ => .replay ""

/-- What a reader asks for. -/
inductive Request where
  | any
  | bool
  | int (kind : IntKind)
  | float (kind : FloatKind)
  | char
  | text
  | bytes
  | option
  | unit
  | newtype
  | seq
  | tuple (length : Nat)
  | map
  | record (fields : List String)
  | enumeration (name : String) (variants : List String)
  | ignored
  deriving DecidableEq, Repr

/-- Where the keys of a walked map come from. -/
inductive Keys where
  /-- Declared names, or none at all in a cycle. -/
  | declared (names : List String)
  /-- Names that were missed in earlier walks. -/
  | learned (names : List String)
  /-- One key that stands for every key, read by the reader itself. -/
  | opened (yielded : Bool)
  deriving DecidableEq, Repr

/-- Whether the reader of the map chooses its keys. -/
def Keys.isOpen : Keys → Bool
  | declared _ => false
  | _ => true

/-- A sequence that is being read. -/
inductive SeqCursor where
  /-- A walked sequence: how many elements it may have, how many were read, and their samples,
  the last one first. -/
  | walk (path : Path) (muted : Bool) (limit index : Nat) (samples : List Json)
  | data (origin : Origin) (total : Nat) (items : List Json)

/-- A bound on the elements that are left. -/
def SeqCursor.left : SeqCursor → Nat
  | walk _ _ limit index _ => limit - index
  | data _ _ items => items.length

/-- A map that is being read. -/
inductive MapCursor where
  /-- A walked map: where its keys come from, the recorded key and the sample key of the value
  that is due, and the samples so far. -/
  | walk (path : Path) (muted : Bool) (keys : Keys) (pending : Option (String × String))
      (samples : List (String × Json))
  | data (origin : Origin) (total : Nat) (members : List (String × Json)) (pending : Option Json)

/-- A bound on the entries that are left. -/
def MapCursor.left : MapCursor → Nat
  | walk _ _ (.declared names) _ _ => names.length
  | walk _ _ (.learned names) _ _ => names.length
  | walk _ _ (.opened yielded) _ _ => if yielded then 0 else 1
  | data _ _ members _ => members.length

/-- A variant that was chosen, and what follows its name. -/
inductive VariantCursor where
  | walk (path : Path) (variant : String)
  | data (origin : Origin) (variant : String) (content : Option Json)
  | name (style : Style) (variant : String)

def VariantCursor.variant : VariantCursor → String
  | walk _ variant => variant
  | data _ variant _ => variant
  | name _ variant => variant

/-- What a reader is visited with. -/
inductive Visit where
  | bool (value : Bool)
  | integer (value : Int)
  | floating (value : Binary64)
  | text (value : String)
  | bytes
  | unit
  | none
  | some (inner : Source)
  | newtype (inner : Source)
  | seq (cursor : SeqCursor)
  | map (cursor : MapCursor)
  | variant (cursor : VariantCursor)

namespace Visit

/-- What a reader that refuses the visit says it was given. -/
def given : Visit → Given
  | bool value => .bool value
  | integer value => .integer value
  | floating value => .floating value
  | text value => .text value
  | bytes => .bytes
  | unit => .unit
  | none => .option
  | some _ => .option
  | newtype _ => .newtype
  | seq _ => .sequence
  | map _ => .map
  | variant _ => .enumeration

/-- The value of self-describing data. -/
def content : Visit → Json
  | bool value => .bool value
  | integer value => .number (.whole value)
  | floating value => .number (.floating value)
  | text value => .string value
  | seq (.data _ _ items) => .array items
  | map (.data _ _ members _) => .object members
  | _ => .null

/-- The kind of self-describing data. -/
def kind? : Visit → Option ValueKind
  | bool _ => Option.some .bool
  | integer _ => Option.some .number
  | floating _ => Option.some .number
  | text _ => Option.some .string
  | unit => Option.some .null
  | none => Option.some .null
  | seq _ => Option.some .seq
  | map _ => Option.some .map
  | _ => Option.none

end Visit

/-- A visit, how problems with it are told, and what is wrong with the data even if the visit is
accepted. -/
structure Answer where
  visit : Visit
  style : Style
  residue : Option Fault := none

/-- A reader of a type, as a source sees it. -/
structure Seed (α : Type) where
  type : TypeRef
  run : Source → Decode α

namespace Decode

def refuse {α : Type} (style : Style) (problem : Problem) : Decode α := fail (style.fault problem)

/-- Read data that a type was decoded from before, or that is registered for it. -/
def replay {α : Type} (seed : Seed α) (sample : Json) : Decode α :=
  tryCatch (seed.run (.data .replay sample)) fun stop =>
    match stop with
    | .fault (.decode text) =>
        fail (.decode ("placeholder of " ++ seed.type.name ++ " was rejected: " ++ text))
    | stop => throw stop

/-- Walk the value under a key of the node at a path. The shape is cached if it was recorded and
no self-describing request was made for it. -/
def descend {α : Type} (parent : Path) (muted : Bool) (key : String) (seed : Seed α) :
    Decode α := do
  let segment : Segment := ⟨key, seed.type⟩
  let path := parent ++ [segment]
  modifySession fun session => session.enter segment
  let entered ← session
  if entered.options.runawayLimit < entered.occurrencesAt path then do
    modifySession fun session => session.leave segment
    fail (.decode (seed.type.name ++ " recurses at '" ++ path.text ++
      "' without an optional, sequence, map or enum in between"))
  else do
    let value ← tryCatch (seed.run (.walk path muted)) fun stop => do
      modifySession fun session => session.leave segment
      match stop with
      | .fault fault => revise path.site .any fault
      | _ => pure ()
      throw stop
    modifySession fun session => session.leave segment
    let left ← session
    if !muted && left.anyRequests = entered.anyRequests then do
      let shape ← nodeAt path
      insertCache seed.type ⟨left.sample, shape⟩
    return value

/-- Read a type with registered documentation, from its placeholder if it has one. -/
def readDocumented {α : Type} (parent : Path) (muted : Bool) (key : String) (seed : Seed α)
    (custom : CustomDocumentation) : Decode α := do
  let shape : Shape := ⟨seed.type, custom.body⟩
  if !muted then discard (recordField parent key shape)
  let before := (← session).anyRequests
  let value ← match custom.placeholder with
    | some placeholder => do
        let value ← replay seed placeholder
        setSample placeholder
        pure value
    | none => descend parent true key seed
  let after ← session
  if !muted && after.anyRequests = before then insertCache seed.type ⟨after.sample, shape⟩
  return value

/-- Read the value under a key of the node at a path: from the cache, as registered, or by walking
it. -/
def readChild {α : Type} (parent : Path) (muted : Bool) (key : String) (seed : Seed α) :
    Decode α := do
  match ← cached? seed.type with
  | some entry => do
      if !muted then discard (recordField parent key entry.shape)
      let value ← replay seed entry.sample
      setSample entry.sample
      return value
  | none =>
      match (← world).registry.documentationOf? seed.type with
      | some custom => readDocumented parent muted key seed custom
      | none => do
          let refused ← if muted then pure true
            else (! ·) <$> recordField parent key (Shape.leaf seed.type)
          descend parent refused key seed

end Decode

/-- The visit of a value by its own kind. -/
def Visit.ofJson (origin : Origin) : Json → Visit
  | .null => .unit
  | .bool value => .bool value
  | .number (.whole value) => .integer value
  | .number (.floating value) => .floating value
  | .string value => .text value
  | .array items => .seq (.data origin items.length items)
  | .object members => .map (.data origin members.length members Option.none)

namespace Source

/-- An answer of a source in its own style. -/
def visited (source : Source) (visit : Visit) : Answer := ⟨visit, source.style, none⟩

/-- What a replayed value answers to a request, if its kind matches. -/
def replayed? (value : Json) : Request → Option Visit
  | .any => some (Visit.ofJson .replay value)
  | .ignored => some .unit
  | .option =>
      match value with
      | .null => some .none
      | value => some (.some (.data .replay value))
  | .newtype => some (.newtype (.data .replay value))
  | request =>
      let matching := match request, value with
        | .bool, .bool _ => true
        | .int _, .number _ => true
        | .float _, .number _ => true
        | .char, .string _ => true
        | .text, .string _ => true
        | .bytes, .string _ => true
        | .bytes, .array _ => true
        | .unit, .null => true
        | .seq, .array _ => true
        | .tuple _, .array _ => true
        | .map, .object _ => true
        | .record _, .array _ => true
        | .record _, .object _ => true
        | _, _ => false
      if matching then some (Visit.ofJson .replay value) else none

/-- What a replayed value answers to a request for an enumeration. -/
def replayedVariant (value : Json) : Except Problem Visit :=
  match value with
  | .string variant => .ok (.variant (.data .replay variant none))
  | .object [(variant, content)] => .ok (.variant (.data .replay variant (some content)))
  | .object _ => .error (.invalidValue .map "map with a single key")
  | value => .error (.invalidType (Visit.ofJson .replay value).given "string or map")

/-- What a buffered value answers to a request for an enumeration. -/
def bufferedVariant (style : Style) (value : Json) : Visit :=
  let origin := Origin.buffered style
  match value with
  | .string variant => .variant (.data origin variant (some .null))
  | .object [(variant, content)] => .variant (.data origin variant (some content))
  | value => Visit.ofJson origin value

/-- The place behind characters of a key, as it stands in a message. -/
def placeBehind (text : List Char) (rest : List Char) (fault : Option Json.NumberFault) : String :=
  let column := Identity.utf8Size text - Identity.utf8Size rest
  let (line, column) := match fault, rest with
    | some .invalid, '\n' :: _ => (2, 0)
    | some .invalid, _ :: _ => (1, column + 1)
    | _, _ => (1, column)
  " at line " ++ Decimal.numeral line ++ " column " ++ Decimal.numeral column

/-- A key that has to spell a number. -/
def numberKeyFault : Fault := .decode "invalid value: expected key to be a number in quotes"

/-- What a replayed key answers to a request for a number. -/
def numberOfKey (text : String) : Except Fault Answer :=
  let cs := text.toList
  if !cs.head?.any fun c => Decimal.isDigit c || c = '-' then .error numberKeyFault
  else
    match Json.readNumber cs with
    | .error (fault, rest) =>
        .error (.decode (fault.message ++ placeBehind cs rest (some fault)))
    | .ok (number, rest) =>
        .ok {
          visit := Visit.ofJson .replay (.number number)
          style := .replay (placeBehind cs rest none)
          residue := if rest.isEmpty then none else some numberKeyFault }

/-- What a replayed key answers to a request, given what the reader expects. -/
def replayedKeyAnswer (text : String) (expecting : String) (request : Request) :
    Except Fault Answer :=
  let source := replayedKey text
  match request with
  | .int _ => numberOfKey text
  | .float _ => numberOfKey text
  | .bool =>
      if text = "true" then .ok (source.visited (.bool true))
      else if text = "false" then .ok (source.visited (.bool false))
      else .error (source.style.fault (.invalidType (.text text) expecting))
  | .option => .ok (source.visited (.some source))
  | .newtype => .ok (source.visited (.newtype source))
  | .enumeration _ _ => .ok (source.visited (.variant (.name source.style text)))
  | _ => .ok (source.visited (.text text))

/-- What a value that is not made up answers to a request, given what the reader expects. -/
def dataAnswer (origin : Origin) (value : Json) (expecting : String) (request : Request) :
    Except Fault Answer :=
  let source := data origin value
  let plain := fun (visit : Visit) => Except.ok (source.visited visit)
  let told := fun (result : Except Problem Visit) => match result with
    | .ok visit => plain visit
    | .error problem => .error (origin.style.fault problem)
  match origin, request with
  | .replay, .enumeration _ _ => told (replayedVariant value)
  | .replay, request =>
      match replayed? value request with
      | some visit => plain visit
      | none => told (.error (.invalidType (Visit.ofJson origin value).given expecting))
  | _, .option =>
      match value with
      | .null => plain .none
      | _ => plain (.some source)
  | _, .newtype => plain (.newtype source)
  | .buffered style, .enumeration _ _ => plain (bufferedVariant style value)
  | origin, _ => plain (Visit.ofJson origin value)

/-- What the walk answers to a request at a path. -/
def walkAnswer (path : Path) (muted : Bool) (request : Request) : Decode Visit := do
  let session ← Decode.session
  let scalar := fun (sample : Json) (visit : Visit) => (do
    Decode.setSample sample
    return visit : Decode Visit)
  let sequence := fun (limit : Nat) => Visit.seq (.walk path muted limit 0 [])
  let keyed := fun (keys : Keys) => Visit.map (.walk path muted keys none [])
  match request with
  | .any => do
      let site := path.site
      let offer := session.hints.value site
      Decode.modifySession fun session => { session with
        anySites := if session.anySites.contains site then session.anySites
          else site :: session.anySites
        anyRequests := session.anyRequests + 1
        sample := offer }
      return Visit.ofJson .hint offer
  | .bool => scalar (.bool false) (.bool false)
  | .int _ => scalar (Json.ofNat 0) (.integer 0)
  | .float _ => scalar Json.zeroPointZero (.floating ⟨0⟩)
  | .char => scalar (.string "\x00") (.text "\x00")
  | .text => scalar (.string "") (.text "")
  | .bytes => scalar (.array []) .bytes
  | .unit => scalar .null .unit
  | .ignored => scalar .null .unit
  | .option =>
      if session.inCycle path then scalar .null .none
      else return .some (.walk path muted)
  | .newtype => return .newtype (.walk path muted)
  | .seq =>
      return sequence (if session.inCycle path then 0 else session.options.maxSequenceLength)
  | .tuple length => return sequence length
  | .map =>
      if session.inCycle path then return keyed (.declared [])
      else
        match session.hints.keys? path.site with
        | some keys => return keyed (.learned keys)
        | none => return keyed (.opened false)
  | .record fields => return keyed (.declared fields)
  | .enumeration title variants =>
      if variants.isEmpty then Decode.fail (.decode ("enum " ++ title ++ " has no variants"))
      else do
        if !muted then
          Decode.modifyNode path fun node => node.setCases (variants.map fun v => ⟨none, v⟩)
        let occurrences := session.occurrencesAt path
        let threshold := session.options.cycleThreshold
        let index := if threshold < occurrences then (occurrences - threshold) % variants.length
          else 0
        return .variant (.walk path (variants.getD index ""))

/-- Send a request, with what the reader expects. -/
def ask (source : Source) (request : Request) (expecting : String) : Decode Answer :=
  match source with
  | walk path muted => do return source.visited (← walkAnswer path muted request)
  | data origin value =>
      match dataAnswer origin value expecting request with
      | .ok answer => return answer
      | .error fault => Decode.fail fault
  | name style text =>
      match request with
      | .enumeration _ _ => return source.visited (.variant (.name style text))
      | _ => return source.visited (.text text)
  | replayedKey text =>
      match replayedKeyAnswer text expecting request with
      | .ok answer => return answer
      | .error fault => Decode.fail fault

end Source

namespace SeqCursor

/-- Read the next element, if there is one. -/
def next? {α : Type} (cursor : SeqCursor) (seed : Seed α) : Decode (Option (α × SeqCursor)) :=
  match cursor with
  | walk path muted limit index samples =>
      if limit ≤ index then return none
      else do
        let value ← Decode.readChild path muted (Decimal.numeral index) seed
        let sample ← Decode.takeSample
        return some (value, walk path muted limit (index + 1) (sample :: samples))
  | data origin total items =>
      match items with
      | [] => return none
      | item :: rest => do
          let value ← seed.run (.data origin item)
          return some (value, data origin total rest)

/-- Close a sequence that was read as far as its reader wanted. -/
def close (cursor : SeqCursor) : Decode Unit :=
  match cursor with
  | walk path muted _ index samples => do
      let options := (← Decode.session).options
      if !muted && decide (0 < index) && decide (options.maxSequenceLength ≤ index) then
        Decode.modifyNode path fun node => node.compress index
      Decode.setSample (.array samples.reverse)
  | data .replay total (_ :: _) =>
      Decode.refuse (Origin.style .replay) (.invalidLength total "fewer elements in array")
  | data _ _ _ => return ()

/-- Let a reader step through a sequence and close it. -/
def read {α : Type} (cursor : SeqCursor) (body : SeqCursor → Decode (α × SeqCursor)) :
    Decode α := do
  let (value, cursor) ← body cursor
  cursor.close
  return value

end SeqCursor

/-- The text of a key that was read from a sample. -/
def sampleKey : Json → String
  | .string key => key
  | .null => ""
  | sample => sample.compact

namespace MapCursor

/-- Read the next key, if there is one. -/
def nextKey? {α : Type} (cursor : MapCursor) (read : Source → Decode α) :
    Decode (Option (α × MapCursor)) :=
  match cursor with
  | walk _ _ (.declared []) _ _ => return none
  | walk path muted (.declared (name :: names)) _ samples => do
      let key ← read (.name .engine name)
      return some (key, walk path muted (.declared names) (some (name, name)) samples)
  | walk _ _ (.learned []) _ _ => return none
  | walk path muted (.learned (name :: names)) _ samples => do
      let key ← read (.name .engine name)
      return some (key, walk path muted (.learned names) (some (name, name)) samples)
  | walk _ _ (.opened true) _ _ => return none
  | walk path muted (.opened false) _ samples => do
      let key ← read (.walk path true)
      let sample ← Decode.takeSample
      return some (key,
        walk path muted (.opened true) (some (Shape.anyKey, sampleKey sample)) samples)
  | data _ _ [] _ => return none
  | data origin total ((name, value) :: members) _ => do
      let key ← read (match origin with
        | .replay => .replayedKey name
        | origin => .name origin.style name)
      return some (key, data origin total members (some value))

/-- Read the value of the key that was read last. -/
def nextValue {α : Type} (cursor : MapCursor) (seed : Seed α) : Decode (α × MapCursor) :=
  match cursor with
  | walk _ _ _ none _ => Decode.fail (.decode "map value requested before its key")
  | walk path muted keys (some (key, sampleKey)) samples => do
      let value ← Decode.readChild path muted key seed
      let sample ← Decode.takeSample
      return (value, walk path muted keys none (Table.insert samples sampleKey sample))
  | data .replay _ _ none => Decode.refuse (Origin.style .replay) (.custom "value is missing")
  | data _ _ _ none => throw .valueBeforeKey
  | data origin total members (some value) => do
      let result ← seed.run (.data origin value)
      return (result, data origin total members none)

/-- Close a map that was read as far as its reader wanted. -/
def close (cursor : MapCursor) : Decode Unit :=
  match cursor with
  | walk _ _ _ _ samples => Decode.setSample (.object samples)
  | data .replay total (_ :: _) _ =>
      Decode.refuse (Origin.style .replay) (.invalidLength total "fewer elements in map")
  | data _ _ _ _ => return ()

/-- Let a reader step through a map and close it. A fault inside a walked map whose reader chooses
the keys teaches something about them. -/
def read {α : Type} (cursor : MapCursor) (body : MapCursor → Decode (α × MapCursor)) :
    Decode α := do
  let (value, cursor) ← match cursor with
    | walk path _ keys _ _ =>
        if keys.isOpen then
          Decode.onFault (body cursor) fun fault => Decode.revise path.site .openMap fault
        else body cursor
    | data _ _ _ _ => body cursor
  cursor.close
  return value

end MapCursor

namespace VariantCursor

/-- How problems with the variant are told. -/
def style : VariantCursor → Style
  | walk _ _ => .engine
  | data origin _ _ => origin.style
  | name style _ => style

/-- Put the sample of a payload under the name of its variant. -/
def wrapSample (variant : String) : Decode Unit := do
  let content ← Decode.takeSample
  Decode.setSample (.object [(variant, content)])

/-- Refuse a variant without a payload. -/
def refuseUnit {α : Type} (cursor : VariantCursor) (expected : String) : Decode α :=
  Decode.refuse cursor.style (.invalidType .unitVariant expected)

/-- Read a variant that has no payload. -/
def readUnit (cursor : VariantCursor) : Decode Unit :=
  match cursor with
  | walk _ variant => Decode.setSample (.string variant)
  | data .replay _ (some content) =>
      match content with
      | .null => return ()
      | content =>
          Decode.refuse (Origin.style .replay)
            (.invalidType (Visit.ofJson .replay content).given "unit")
  | _ => return ()

/-- Read the payload of a variant as one value. -/
def readNewtype {α : Type} (cursor : VariantCursor) (seed : Seed α) : Decode α :=
  match cursor with
  | walk path variant => do
      let value ← Decode.readChild path true variant seed
      wrapSample variant
      return value
  | data origin _ (some content) => seed.run (.data origin content)
  | cursor => cursor.refuseUnit "newtype variant"

/-- Read the payload of a variant as a container: the walk hands out a muted cursor, a value is
visited by its kind if the kind is one of those allowed in a replay. -/
def readContainer {α : Type} (cursor : VariantCursor) (walked : Path → Visit)
    (replayed : Json → Option Visit) (expected : String) (body : Answer → Decode α) : Decode α :=
  match cursor with
  | walk path variant => do
      let value ← body ⟨walked path, .engine, none⟩
      wrapSample variant
      return value
  | data .replay _ (some content) =>
      match replayed content with
      | some visit => body ⟨visit, Origin.style .replay, none⟩
      | none =>
          Decode.refuse (Origin.style .replay)
            (.invalidType (Visit.ofJson .replay content).given expected)
  | data origin _ (some content) => body ⟨Visit.ofJson origin content, origin.style, none⟩
  | cursor => cursor.refuseUnit expected

/-- Read the payload of a variant as a tuple. An empty array is visited as a unit in a replay. -/
def readTuple {α : Type} (cursor : VariantCursor) (length : Nat) (body : Answer → Decode α) :
    Decode α :=
  cursor.readContainer (fun path => .seq (.walk path true length 0 []))
    (fun content => match content with
      | .array [] => some .unit
      | .array items => some (Visit.ofJson .replay (.array items))
      | _ => none)
    "tuple variant" body

/-- Read the payload of a variant as a record. -/
def readRecord {α : Type} (cursor : VariantCursor) (fields : List String)
    (body : Answer → Decode α) : Decode α :=
  cursor.readContainer (fun path => .map (.walk path true (.declared fields) none []))
    (fun content => match content with
      | .array items => some (Visit.ofJson .replay (.array items))
      | .object members => some (Visit.ofJson .replay (.object members))
      | _ => none)
    "struct variant" body

end VariantCursor
end ApiAtlas.Walk
