import ApiAtlas.Walk.Reflect

/-!
# Reading types

How each type is read: which request it makes, which visits it accepts, and what it reads inside.
Everything is written over a reader of the types inside, and only `readType` ties the knot; its
allowance bounds how deeply types are read inside each other.
-/
namespace ApiAtlas.Walk

open Decode (refuse)

def refuseVisit {α : Type} (style : Style) (visit : Visit) (expecting : String) : Decode α :=
  refuse style (.invalidType visit.given expecting)

namespace Reader

def finish (answer : Answer) : Decode Unit :=
  match answer.residue with
  | some fault => Decode.fail fault
  | none => return ()

def seedOf (read : TypeReader) (type : TypeExpr) : Seed Unit := ⟨type.ref, read type⟩

def readText (source : Source) : Decode String := do
  let answer ← source.ask .text "a string"
  match answer.visit with
  | .text value => return value
  | visit => refuseVisit answer.style visit "a string"

/-- Read any value. -/
def readValue (source : Source) : Decode Json := do
  let answer ← source.ask .any "any valid JSON value"
  return answer.visit.content

def skipValue (source : Source) : Decode Unit := do
  discard (source.ask .ignored "anything at all")

def textSeed : Seed String := ⟨(TypeExpr.text .string).ref, readText⟩

def valueSeed : Seed Json := ⟨TypeExpr.value.ref, readValue⟩

/-- The seed of a dropped value. -/
def skipSeed : Seed Unit := ⟨TypeExpr.ignored.ref, skipValue⟩

def readBool (source : Source) : Decode Unit := do
  let answer ← source.ask .bool "a boolean"
  match answer.visit with
  | .bool _ => return ()
  | visit => refuseVisit answer.style visit "a boolean"

/-- Read an integer in the range of its type. -/
def readInt (kind : IntKind) (source : Source) : Decode Unit := do
  let answer ← source.ask (.int kind) kind.name
  match answer.visit with
  | .integer value =>
      if kind.holds value then finish answer
      else refuse answer.style (.invalidValue (.integer value) kind.name)
  | visit => refuseVisit answer.style visit kind.name

/-- Read a floating number; integers are taken for one. -/
def readFloat (kind : FloatKind) (source : Source) : Decode Unit := do
  let answer ← source.ask (.float kind) kind.name
  match answer.visit with
  | .integer _ => finish answer
  | .floating _ => finish answer
  | visit => refuseVisit answer.style visit kind.name

/-- Read a number of 32 bits that is not zero. -/
def readNonZero (source : Source) : Decode Unit := do
  let expecting := "a nonzero u32"
  let answer ← source.ask (.int .u32) expecting
  match answer.visit with
  | .integer value =>
      if IntKind.u32.holds value && value ≠ 0 then finish answer
      else refuse answer.style (.invalidValue (.integer value) expecting)
  | visit => refuseVisit answer.style visit expecting

def readChar (source : Source) : Decode Unit := do
  let answer ← source.ask .char "a character"
  match answer.visit with
  | .text value =>
      if value.toList.length = 1 then return ()
      else refuse answer.style (.invalidValue (.text value) "a character")
  | visit => refuseVisit answer.style visit "a character"

def readUnit (source : Source) : Decode Unit := do
  let answer ← source.ask .unit "unit"
  match answer.visit with
  | .unit => return ()
  | visit => refuseVisit answer.style visit "unit"

def readForm (form : TextForm) (source : Source) : Decode Unit := do
  let answer ← source.ask .text form.expecting
  match answer.visit with
  | .text value =>
      match form.refusal? value with
      | none => return ()
      | some fault => refuse answer.style (.custom fault)
  | visit => refuseVisit answer.style visit form.expecting

def readOption (inner : Source → Decode Unit) (source : Source) : Decode Unit := do
  let answer ← source.ask .option "option"
  match answer.visit with
  | .unit => return ()
  | .none => return ()
  | .some source => inner source
  | visit => refuseVisit answer.style visit "option"

/-- Read elements until the end or up to a number of them, each with the seed of its place. -/
def readElements (seedAt : Nat → Seed Unit) : Nat → Nat → SeqCursor → Decode (Nat × SeqCursor)
  | 0, index, cursor => return (index, cursor)
  | more + 1, index, cursor => do
      match ← cursor.next? (seedAt index) with
      | none => return (index, cursor)
      | some ((), cursor) => readElements seedAt more (index + 1) cursor

/-- Read elements until the end, or as many as are taken. -/
def readOpen (seedAt : Nat → Seed Unit) (take : Option Nat) (cursor : SeqCursor) : Decode Unit :=
  cursor.read fun cursor => do
    let most := match take with
      | some most => min most (cursor.left + 1)
      | none => cursor.left + 1
    let (_, cursor) ← readElements seedAt most 0 cursor
    return ((), cursor)

def readSeq (seedAt : Nat → Seed Unit) (take : Option Nat) (source : Source) : Decode Unit := do
  let answer ← source.ask .seq "a sequence"
  match answer.visit with
  | .seq cursor => readOpen seedAt take cursor
  | visit => refuseVisit answer.style visit "a sequence"

def readPlaces (style : Style) (expecting : String) :
    Nat → List (Seed Unit) → SeqCursor → Decode (Unit × SeqCursor)
  | _, [], cursor => return ((), cursor)
  | index, seed :: seeds, cursor => do
      match ← cursor.next? seed with
      | none => refuse style (.invalidLength index expecting)
      | some ((), cursor) => readPlaces style expecting (index + 1) seeds cursor

/-- Accept a sequence of one element of each type. -/
def acceptTuple (expecting : String) (seeds : List (Seed Unit)) (answer : Answer) : Decode Unit :=
  match answer.visit with
  | .seq cursor => cursor.read (readPlaces answer.style expecting 0 seeds)
  | visit => refuseVisit answer.style visit expecting

def readTuple (expecting : String) (seeds : List (Seed Unit)) (source : Source) : Decode Unit := do
  let answer ← source.ask (.tuple seeds.length) expecting
  acceptTuple expecting seeds answer

/-- Read entries until the end or up to a number of them. -/
def readEntries (key : Source → Decode Unit) (seed : Seed Unit) :
    Nat → MapCursor → Decode (Unit × MapCursor)
  | 0, cursor => return ((), cursor)
  | more + 1, cursor => do
      match ← cursor.nextKey? key with
      | none => return ((), cursor)
      | some ((), cursor) => do
          let ((), cursor) ← cursor.nextValue seed
          readEntries key seed more cursor

def readMap (key : Source → Decode Unit) (seed : Seed Unit) (take : Option Nat)
    (source : Source) : Decode Unit := do
  let answer ← source.ask .map "a map"
  match answer.visit with
  | .map cursor =>
      let most := match take with
        | some most => min most (cursor.left + 1)
        | none => cursor.left + 1
      cursor.read (readEntries key seed most)
  | visit => refuseVisit answer.style visit "a map"

/-- The first field of a name, with its place. -/
def findField? (fields : List FieldDecl) (name : String) : Option (Nat × FieldDecl) :=
  (fields.findIdx? fun field => field.name = name).bind fun i => fields[i]?.map fun f => (i, f)

/-- Report the first field that was not read and may not be absent. -/
def checkMissing (style : Style) (fields : List FieldDecl) (isRead : Nat → Bool) : Decode Unit :=
  match fields.zipIdx.find? fun (field, i) => !isRead i && !field.mayBeAbsent with
  | some (field, _) => refuse style (.missingField field.name)
  | none => return ()

/-- Read the entries of a record: each field once, and other values as told. -/
def readFields (read : TypeReader) (style : Style) (fields : List FieldDecl) (denyUnknown : Bool) :
    Nat → List Nat → MapCursor → Decode (List Nat × MapCursor)
  | 0, done, cursor => return (done, cursor)
  | more + 1, done, cursor => do
      match ← cursor.nextKey? readText with
      | none => return (done, cursor)
      | some (key, cursor) =>
          match findField? fields key with
          | some (i, field) =>
              if done.contains i then refuse style (.duplicateField key)
              else do
                let ((), cursor) ← cursor.nextValue (seedOf read field.type)
                readFields read style fields denyUnknown more (i :: done) cursor
          | none =>
              if denyUnknown then
                refuse style (.unknownField key (fields.map FieldDecl.name))
              else do
                let ((), cursor) ← cursor.nextValue skipSeed
                readFields read style fields denyUnknown more done cursor

def readRecordMap (read : TypeReader) (style : Style) (fields : List FieldDecl)
    (denyUnknown : Bool) (cursor : MapCursor) : Decode Unit :=
  cursor.read fun cursor => do
    let (done, cursor) ← readFields read style fields denyUnknown (cursor.left + 1) [] cursor
    checkMissing style fields done.contains
    return ((), cursor)

/-- Accept a map as a record. -/
def acceptRecord (read : TypeReader) (expecting : String) (fields : List FieldDecl)
    (denyUnknown : Bool) (answer : Answer) : Decode Unit :=
  match answer.visit with
  | .map cursor => readRecordMap read answer.style fields denyUnknown cursor
  | visit => refuseVisit answer.style visit expecting

def recordRequest (fields : List FieldDecl) : Request := .record (fields.map FieldDecl.name)

/-- Read a library record, which is a map or a sequence of all fields in order. -/
def readLibraryRecord (read : TypeReader) (expecting : String) (fields : List FieldDecl)
    (source : Source) : Decode Unit := do
  let answer ← source.ask (recordRequest fields) expecting
  match answer.visit with
  | .seq _ => acceptTuple expecting (fields.map fun field => seedOf read field.type) answer
  | _ => acceptRecord read expecting fields true answer

/-- A field that has to be there. -/
def requiredField (name : String) (type : TypeExpr) : FieldDecl := ⟨name, type, false⟩

def readContent (read : TypeReader) (cursor : VariantCursor) : VariantContent → Decode Unit
  | .unit => cursor.readUnit
  | .newtype type => cursor.readNewtype (seedOf read type)
  | .tuple types =>
      cursor.readTuple types.length
        (acceptTuple ("a tuple of " ++ Decimal.numeral types.length) (types.map (seedOf read)))
  | .record fields =>
      cursor.readRecord (fields.map FieldDecl.name)
        (acceptRecord read ("struct " ++ cursor.variant) fields false)

def readEnumeration (read : TypeReader) (name : String) (variants : List (String × VariantContent))
    (source : Source) : Decode Unit := do
  let names := variants.map Prod.fst
  let expecting := "enum " ++ name
  let answer ← source.ask (.enumeration name names) expecting
  match answer.visit with
  | .variant cursor =>
      match Table.get? variants cursor.variant with
      | some payload => readContent read cursor payload
      | none => refuse cursor.style (.unknownVariant cursor.variant names)
  | visit => refuseVisit answer.style visit expecting

/-- The variants that a key may name. -/
def keyCases : List (String × VariantContent) := [("first", .unit), ("second", .unit)]

/-- Read a key of a map. -/
def readKey (read : TypeReader) (kind : KeyKind) (source : Source) : Decode Unit :=
  match kind with
  | .text => discard (readText source)
  | .int kind => readInt kind source
  | .bool => readBool source
  | .char => readChar source
  | .optionalText => readOption (fun source => discard (readText source)) source
  | .cases => readEnumeration read "KeyEnum" keyCases source

def scalarRequest : ScalarKind → Request
  | .bool => .bool
  | .int kind => .int kind
  | .float kind => .float kind
  | .char => .char
  | .str => .text
  | .string => .text
  | .identifier => .text
  | .unit => .unit
  | .unitStruct => .unit
  | .bytes => .bytes
  | .byteBuf => .bytes
  | .ignoredAny => .ignored

/-- Read the elements of a sequence as values. -/
def drain (cursor : SeqCursor) : Decode Unit :=
  readOpen (fun _ => ⟨valueSeed.type, fun source => discard (readValue source)⟩) none cursor

/-- Accept the visits of a scalar's class. -/
def acceptScalar (kind : ScalarKind) (expecting : String) (answer : Answer) : Decode Unit :=
  match kind, answer.visit with
  | .bool, .bool _ => return ()
  | .int _, .integer _ => return ()
  | .int _, .floating _ => return ()
  | .float _, .integer _ => return ()
  | .float _, .floating _ => return ()
  | .char, .text _ => return ()
  | .str, .text _ => return ()
  | .string, .text _ => return ()
  | .identifier, .text _ => return ()
  | .unit, .unit => return ()
  | .unitStruct, .unit => return ()
  | .bytes, .bytes => return ()
  | .byteBuf, .bytes => return ()
  | .bytes, .seq cursor => drain cursor
  | .byteBuf, .seq cursor => drain cursor
  | .ignoredAny, _ => return ()
  | _, visit => refuseVisit answer.style visit expecting

/-- Read a scalar, and refuse it afterwards if there is a text to do so. -/
def readScalar (kind : ScalarKind) (reject : Option String) (source : Source) : Decode Unit := do
  let expecting := "scalar " ++ kind.name
  let answer ← source.ask (scalarRequest kind) expecting
  acceptScalar kind expecting answer
  match reject with
  | some text => refuse answer.style (.custom text)
  | none => finish answer

def readNewtype (inner : Source → Decode Unit) (name : String) (source : Source) : Decode Unit := do
  let expecting := "newtype " ++ name
  let answer ← source.ask .newtype expecting
  match answer.visit with
  | .newtype source => inner source
  | visit => refuseVisit answer.style visit expecting

/-- Read a value before any key. -/
def readValueFirst (seed : Seed Unit) (source : Source) : Decode Unit := do
  let answer ← source.ask .map "a map"
  match answer.visit with
  | .map cursor => cursor.read fun cursor => cursor.nextValue seed
  | visit => refuseVisit answer.style visit "a map"

def readAny (accept : List ValueKind) (echo : Bool) (source : Source) : Decode Unit := do
  let expecting := "any of [" ++ ",".intercalate (accept.map ValueKind.name) ++ "]"
  let answer ← source.ask .any expecting
  if echo then refuse answer.style (.custom ("received " ++ answer.visit.content.compact))
  else if answer.visit.kind?.any accept.contains then return ()
  else refuseVisit answer.style answer.visit expecting

/-- Read fields from buffered values. -/
def readBuffered (read : TypeReader) (style : Style) (buffer : List (String × Json)) :
    List FieldDecl → Decode Unit
  | [] => return ()
  | field :: fields => do
      match Table.get? buffer field.name with
      | some value => read field.type (.data (.buffered style) value)
      | none =>
          if field.mayBeAbsent then pure () else refuse style (.missingField field.name)
      readBuffered read style buffer fields

/-- Read the entries of an internally tagged enumeration: the tag at once, and other values into a
buffer. -/
def readTagged (style : Style) (tag : String) (variants : List (String × List FieldDecl)) :
    Nat → Option (List FieldDecl) → List (String × Json) → MapCursor →
      Decode ((Option (List FieldDecl) × List (String × Json)) × MapCursor)
  | 0, found, buffer, cursor => return ((found, buffer), cursor)
  | more + 1, found, buffer, cursor => do
      match ← cursor.nextKey? readText with
      | none => return ((found, buffer), cursor)
      | some (key, cursor) =>
          if key = tag then do
            let (name, cursor) ← cursor.nextValue textSeed
            match Table.get? variants name with
            | some fields => readTagged style tag variants more (some fields) buffer cursor
            | none => refuse style (.unknownVariant name (variants.map Prod.fst))
          else do
            let (value, cursor) ← cursor.nextValue valueSeed
            readTagged style tag variants more found (Table.insert buffer key value) cursor

def readTaggedEnumeration (read : TypeReader) (name tag : String)
    (variants : List (String × List FieldDecl)) (source : Source) : Decode Unit := do
  let expecting := "internally tagged enum " ++ name
  let answer ← source.ask .any expecting
  match answer.visit with
  | .map cursor =>
      cursor.read fun cursor => do
        let ((found, buffer), cursor) ←
          readTagged answer.style tag variants (cursor.left + 1) none [] cursor
        match found with
        | none => refuse answer.style (.missingField tag)
        | some fields => do
            readBuffered read answer.style buffer fields
            return ((), cursor)
  | visit => refuseVisit answer.style visit expecting

/-- Try types on a kept value; the first that accepts it is read. -/
def tryEach (read : TypeReader) (style : Style) (name : String) (value : Json) :
    List TypeExpr → Decode Unit
  | [] => refuse style (.custom ("data did not match any variant of untagged enum " ++ name))
  | type :: types =>
      tryCatch (read type (.data (.buffered style) value)) fun stop =>
        match stop with
        | .fault _ => tryEach read style name value types
        | stop => throw stop

/-- Read the entries of a record with flattened members: own fields, and other values into a
buffer. -/
def readFlattened (read : TypeReader) (own : List FieldDecl) :
    Nat → List Nat → List (String × Json) → MapCursor →
      Decode ((List Nat × List (String × Json)) × MapCursor)
  | 0, done, buffer, cursor => return ((done, buffer), cursor)
  | more + 1, done, buffer, cursor => do
      match ← cursor.nextKey? readText with
      | none => return ((done, buffer), cursor)
      | some (key, cursor) =>
          match findField? own key with
          | some (i, field) => do
              let ((), cursor) ← cursor.nextValue (seedOf read field.type)
              readFlattened read own more (i :: done) buffer cursor
          | none => do
              let (value, cursor) ← cursor.nextValue valueSeed
              readFlattened read own more done (Table.insert buffer key value) cursor

def readFlatten (read : TypeReader) (name : String) (own : List FieldDecl)
    (inner : List TypeExpr) (source : Source) : Decode Unit := do
  let expecting := "struct " ++ name
  let answer ← source.ask .map expecting
  match answer.visit with
  | .map cursor =>
      cursor.read fun cursor => do
        let ((done, buffer), cursor) ← readFlattened read own (cursor.left + 1) [] [] cursor
        checkMissing answer.style own done.contains
        inner.forM fun type => read type (.data (.buffered answer.style) (.object buffer))
        return ((), cursor)
  | visit => refuseVisit answer.style visit expecting

/-- Reflect a type from the beginning while another is being read. -/
def reflectInside (read : TypeReader) (style : Style) (root : TypeExpr) : Decode Unit := do
  let state ← get
  let (result, world) := (reflectWith read root {} []).run state.world
  set { state with world }
  match result with
  | .ok _ => return ()
  | .error (.fault fault) => refuse style (.custom fault.message)
  | .error stop => throw stop

/-- Read a declared type as its schema says, in its decode of the given number. -/
def readSchema (read : TypeReader) (decode : Nat) : Schema → Source → Decode Unit
  | .scalar request reject, source => readScalar request reject source
  | .newtype name inner, source => readNewtype (read inner) name source
  | .delegate type, source => read type source
  | .record name fields denyUnknown, source => do
      let expecting := "struct " ++ name
      let answer ← source.ask (recordRequest fields) expecting
      acceptRecord read expecting fields denyUnknown answer
  | .anyRecord name fields, source => do
      let expecting := "struct " ++ name
      let answer ← source.ask .any expecting
      acceptRecord read expecting fields false answer
  | .tuple _ types, source =>
      readTuple ("a tuple of " ++ Decimal.numeral types.length) (types.map (seedOf read)) source
  | .seq types take, source =>
      readSeq (fun i => seedOf read (types.getD (min i (types.length - 1)) .unit)) take source
  | .map key content take, source => readMap (readKey read key) (seedOf read content) take source
  | .valueFirst type, source => readValueFirst (seedOf read type) source
  | .enumeration name variants, source => readEnumeration read name variants source
  | .any accept echo, source => readAny accept echo source
  | .tagged name tag variants, source => readTaggedEnumeration read name tag variants source
  | .untagged name types, source => do
      let value ← readValue source
      tryEach read source.style name value types
  | .flatten name own inner, source => readFlatten read name own inner source
  | .context key cases otherwise, source => do
      let found := Table.get? (← Decode.session).context key
      match cases.find? fun (value, _) => found.any (Json.same value) with
      | some (_, type) => read type source
      | none => read otherwise source
  | .decoding yes _, source => read yes source
  | .reflect root next, source => do
      reflectInside read source.style root
      read next source
  | .nth schemas, source => readNth read decode (decode - 1) schemas source
  | .fail text, source => refuse source.style (.custom text)
  | .missing field, source => refuse source.style (.missingField field)
  | .unknown variant expected, source => refuse source.style (.unknownVariant variant expected)
where
  /-- The behaviour after skipping some; the last one stays. -/
  readNth (read : TypeReader) (decode : Nat) : Nat → List Schema → Source → Decode Unit
    | _, [], source => refuse source.style (.custom "no behaviour is declared")
    | _, [schema], source => readSchema read decode schema source
    | 0, schema :: _, source => readSchema read decode schema source
    | skip + 1, _ :: schemas, source => readNth read decode skip schemas source

/-- Count a decode of a declared type, and read the type as its schema says. -/
def readDeclared (read : TypeReader) (slot : Slot) (source : Source) : Decode Unit := do
  let count := (← Decode.world).count slot + 1
  Decode.modifyWorld fun world => { world with counts := Table.put world.counts slot count }
  match Table.get? (← Decode.world).schemas slot with
  | some schema => readSchema read count schema source
  | none => refuse source.style (.custom ("undeclared type " ++ slot.label))

/-- Read a type, given how the types inside it are read. -/
def readTypeWith (read : TypeReader) : TypeReader
  | .declared slot, source => readDeclared read slot source
  | .bool, source => readBool source
  | .int kind, source => readInt kind source
  | .float kind, source => readFloat kind source
  | .char, source => readChar source
  | .text _, source => discard (readText source)
  | .unit, source => readUnit source
  | .phantom, source => readUnit source
  | .value, source => discard (readValue source)
  | .ignored, source => skipValue source
  | .nonZero, source => readNonZero source
  | .result, source =>
      readEnumeration read "Result"
        [("Ok", .newtype (.int .u8)), ("Err", .newtype (.text .string))] source
  | .duration, source =>
      readLibraryRecord read "struct Duration"
        [requiredField "secs" (.int .u64), requiredField "nanos" (.int .u32)] source
  | .form form, source => readForm form source
  | .option inner, source => readOption (read inner) source
  | .vec inner, source => readSeq (fun _ => seedOf read inner) none source
  | .pointer _ inner, source => read inner source
  | .map inner, source =>
      readMap (fun source => discard (readText source)) (seedOf read inner) none source
  | .range inner, source =>
      readLibraryRecord read "struct Range"
        [requiredField "start" inner, requiredField "end" inner] source
  | .array length inner, source =>
      readTuple ("an array of length " ++ Decimal.numeral length)
        (List.replicate length (seedOf read inner)) source
  | .pair inner, source =>
      readTuple "a tuple of size 2" [seedOf read inner, seedOf read inner] source
  | .withText inner, source =>
      readTuple "a tuple of size 2" [seedOf read inner, seedOf read (.text .string)] source
  | .one inner, source => readTuple "a tuple of size 1" [seedOf read inner] source

end Reader

/-- Read a type whose inner types are nested within an allowance. -/
def readType : Nat → TypeReader
  | 0 => fun _ _ => throw .depth
  | depth + 1 => Reader.readTypeWith (readType depth)

/-- The shape of a type, found within a depth allowance. -/
def reflectWithin (depth : Nat) (type : TypeExpr) (options : Options)
    (context : List (String × Json)) : Reflection Shape :=
  reflectWith (readType depth) type options context

/-- An allowance that types without endless nesting do not use up. -/
def defaultDepth : Nat := 1000000

def reflect (type : TypeExpr) (options : Options) (context : List (String × Json)) :
    Reflection Shape :=
  reflectWithin defaultDepth type options context

end ApiAtlas.Walk
