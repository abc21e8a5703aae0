import ApiAtlas.Documentation.Wire

/-!
# Documentation read back

Written documentation is read back as it was. A record is read by the names of its members, so each
record's law follows from those of its members; lists and values that may be null lift the law of
what they hold. An identity holds identities, and the depth of its JSON value is allowance enough to
read them all.

Two things can be written that are not read back as they were: a method of its own under the name of
a known one, and parameters of a media type that do not ascend by name. Neither is ever made from a
name or from a table.
-/
namespace ApiAtlas

namespace Table

variable {α : Type}

/-- No name is filed twice, and smaller names come first. -/
def Ascending (table : List (String × α)) : Prop :=
  table.Pairwise fun a b => a.1 < b.1

instance (table : List (String × α)) : Decidable (Ascending table) :=
  inferInstanceAs (Decidable (table.Pairwise fun a b => a.1 < b.1))

theorem Ascending.nodup {table : List (String × α)} (h : Ascending table) : (keys table).Nodup := by
  have less : table.Pairwise fun a b => a.1 < b.1 := h
  refine List.pairwise_map.mpr (less.imp ?_)
  intro a b below same
  exact String.lt_irrefl _ (same ▸ below)

theorem insert_last {table : List (String × α)} {name : String} (value : α)
    (h : ∀ entry ∈ table, entry.1 < name) :
    insert table name value = table ++ [(name, value)] := by
  induction table with
  | nil => rfl
  | cons entry rest ih =>
      obtain ⟨k, v⟩ := entry
      have hk : k < name := h _ List.mem_cons_self
      have hrest := ih fun entry hentry => h entry (List.mem_cons_of_mem _ hentry)
      have hne : name ≠ k := fun heq => String.lt_irrefl k (heq ▸ hk)
      simp [insert, hrest, hne, String.lt_asymm hk]

theorem foldl_insert {front entries : List (String × α)} (h : Ascending (front ++ entries)) :
    entries.foldl (fun table entry => insert table entry.1 entry.2) front = front ++ entries := by
  induction entries generalizing front with
  | nil => simp
  | cons entry rest ih =>
      have hlast : ∀ e ∈ front, e.1 < entry.1 := fun e he =>
        (List.pairwise_append.mp h).2.2 e he entry List.mem_cons_self
      have hnext : Ascending ((front ++ [entry]) ++ rest) := by simpa using h
      rw [List.foldl_cons, insert_last _ hlast, ih hnext]
      simp

theorem ofList_ascending {table : List (String × α)} (h : Ascending table) :
    ofList table = table := by
  have hfront : Ascending ([] ++ table) := h
  exact foldl_insert hfront

theorem ascending_insert {table : List (String × α)} (h : Ascending table) (name : String)
    (value : α) : Ascending (insert table name value) := by
  induction table with
  | nil => simp [insert, Ascending]
  | cons first rest ih =>
      obtain ⟨k, v⟩ := first
      obtain ⟨hfirst, hrest⟩ := List.pairwise_cons.mp h
      simp only [insert]
      split
      · next heq =>
          subst heq
          exact List.pairwise_cons.mpr ⟨hfirst, hrest⟩
      · next hne =>
          split
          · next hlt =>
              refine List.pairwise_cons.mpr ⟨fun entry hentry => ?_, h⟩
              rcases List.mem_cons.mp hentry with rfl | hentry
              · exact hlt
              · exact String.lt_trans hlt (hfirst _ hentry)
          · next hnlt =>
              have hlt : k < name := by
                have hle : k ≤ name := String.not_lt.mp hnlt
                have hnle : ¬ name ≤ k := fun hge => hne (String.le_antisymm hge hle)
                exact String.not_le.mp hnle
              refine List.pairwise_cons.mpr ⟨fun entry hentry => ?_, ih hrest⟩
              rcases mem_insert hentry with rfl | hentry
              · exact hlt
              · exact hfirst _ hentry

theorem ascending_ofList (entries : List (String × α)) : Ascending (ofList entries) := by
  have hfold : ∀ front : List (String × α), Ascending front →
      Ascending (entries.foldl (fun table entry => insert table entry.1 entry.2) front) := by
    induction entries with
    | nil => exact fun _ hfront => hfront
    | cons entry rest ih => exact fun _ hfront => ih _ (ascending_insert hfront _ _)
  exact hfold [] List.Pairwise.nil

end Table

namespace Json

theorem depth_le_of_mem {members : List (String × Json)} {name : String} {value : Json}
    (h : (name, value) ∈ members) : value.depth ≤ depthOfMembers members := by
  induction members with
  | nil => cases h
  | cons member rest ih =>
      obtain ⟨k, v⟩ := member
      simp only [depthOfMembers]
      rcases List.mem_cons.mp h with heq | hrest
      · cases heq
        omega
      · have := ih hrest
        omega

end Json

namespace Outline

@[simp] theorem itemsToJson_eq (items : List Outline) : itemsToJson items = items.map toJson := by
  induction items with
  | nil => rfl
  | cons item rest ih => simp [itemsToJson, ih]

@[simp] theorem membersToJson_eq (members : List (String × Outline)) :
    membersToJson members = members.map fun m => (m.1, m.2.toJson) := by
  induction members with
  | nil => rfl
  | cons member rest ih => simp [membersToJson, ih]

/-- What a member holds is one less deep than the record. -/
theorem depth_member {members : List (String × Outline)} {name : String} {written : Outline}
    {depth : Nat} (hdepth : (record members).toJson.depth ≤ depth + 1)
    (h : (name, written) ∈ members) : written.toJson.depth ≤ depth := by
  have hmember : (name, written.toJson) ∈ members.map fun m => (m.1, m.2.toJson) :=
    List.mem_map.mpr ⟨_, h, rfl⟩
  have hle := Json.depth_le_of_mem hmember
  simp only [toJson, membersToJson_eq, Json.depth] at hdepth
  omega

end Outline

namespace Wire

variable {α : Type}

/-- A reader takes what was written for a value back to the value. -/
def Restores (read : Reader α) (written : Outline) (value : α) : Prop :=
  read written.toJson = .ok value

theorem restores_text (value : String) : Restores text (.text value) value := rfl

theorem restores_flag (value : Bool) : Restores flag (.flag value) value := rfl

theorem restores_word (value : UInt64) : Restores word (.count value.toNat) value := by
  have hlt : value.toNat < 2 ^ 64 := value.toNat_lt
  have hbound : (0 : Int) ≤ value.toNat ∧ (value.toNat : Int) < Decimal.wordBound := by
    have : Decimal.wordBound = 2 ^ 64 := rfl
    omega
  simp [Restores, Outline.toJson, Json.ofNat, word, hbound]

/-- What may be null is read back, if nothing that is there is written as null. -/
theorem restores_optional {read : Reader α} {write : α → Outline} {value : Option α}
    (h : ∀ a ∈ value, Restores read (write a) a) (hnull : ∀ a, (write a).toJson ≠ .null) :
    Restores (nullable read) (.optional (value.map write)) value := by
  cases value with
  | none => rfl
  | some a =>
      have ha : read (write a).toJson = .ok a := h a rfl
      simp only [Restores, Option.map_some, Outline.optional]
      unfold nullable
      split
      · next hn => exact absurd hn (hnull a)
      · simp [ha, Except.map]

theorem restores_text? (value : Option String) :
    Restores (nullable text) (.text? value) value := by
  cases value <;> rfl

theorem restores_list {read : Reader α} {write : α → Outline} {values : List α}
    (h : ∀ a ∈ values, Restores read (write a) a) :
    Restores (listOf read) (.list (values.map write)) values := by
  simp only [Restores, Outline.toJson, Outline.itemsToJson_eq, listOf]
  induction values with
  | nil => rfl
  | cons a rest ih =>
      have ha : read (write a).toJson = .ok a := h a List.mem_cons_self
      have hrest := ih fun b hb => h b (List.mem_cons_of_mem _ hb)
      rw [List.map_cons, List.map_cons, List.mapM_cons, ha, hrest]
      rfl

/-- The fields of a written record are its members. -/
theorem fields_record {names : List String} {needed : Nat} {members : List (String × Outline)}
    (h : ∀ member ∈ members, member.1 ∈ names) :
    Fields.of names needed (Outline.record members).toJson =
      .ok ⟨members.map fun m => (m.1, m.2.toJson), false⟩ := by
  have hall : (members.map fun m => (m.1, m.2.toJson)).filter (fun m => names.contains m.1) =
      members.map fun m => (m.1, m.2.toJson) := by
    rw [List.filter_eq_self]
    intro m hm
    obtain ⟨member, hmember, rfl⟩ := List.mem_map.mp hm
    simpa using h member hmember
  simp only [Outline.toJson, Outline.membersToJson_eq, Fields.of, hall]

/-! A record whose members are all restored is read without a fault. -/

@[simp] theorem ok_bind {β : Type} (a : α) (next : α → Except Fault β) :
    (Except.ok a >>= next) = next a := rfl

@[simp] theorem map_ok {β : Type} (f : α → β) (a : α) :
    (Except.ok a : Except Fault α).map f = .ok (f a) := rfl

@[simp] theorem fmap_ok {β : Type} (f : α → β) (a : α) :
    f <$> (Except.ok a : Except Fault α) = .ok (f a) := rfl

@[simp] theorem required_some (a : α) : required (.ok (some a)) = .ok a := rfl

@[simp] theorem withDefault_ok (a : α) (value : Option α) :
    withDefault a (.ok value) = .ok (value.getD a) := rfl

namespace Fields

@[simp] theorem faultOf_ok (name : String) (a : α) : faultOf name (.ok a) = [] := rfl

@[simp] theorem get?_of_listed (name : String) (value : Json) (rest : List (String × Json))
    (misfit : Bool) (read : Reader α) :
    get? ⟨(name, value) :: rest, misfit⟩ name read = (read value).map some := by
  simp [get?, Table.get?]

@[simp] theorem get?_of_ne {name other : String} (h : other ≠ name) (value : Json)
    (rest : List (String × Json)) (misfit : Bool) (read : Reader α) :
    get? ⟨(other, value) :: rest, misfit⟩ name read = get? ⟨rest, misfit⟩ name read := by
  simp [get?, Table.get?, h]

@[simp] theorem get?_nil (name : String) (misfit : Bool) (read : Reader α) :
    get? ⟨[], misfit⟩ name read = .ok none := rfl

@[simp] theorem check_nil (entries : List (String × Json)) :
    check ⟨entries, false⟩ [] = .ok () := by
  have hnone : entries.findSome? (fun _ => (none : Option Fault)) = none := by
    simp [List.findSome?_eq_none_iff]
  simp [check, hnone]

end Fields
end Wire

open Wire

/-! ## Identities -/

theorem restores_style (style : PathStyle) : Restores PathStyle.ofJson style.outline style := by
  cases style <;> rfl

namespace Identity

theorem restores_module (module : String) :
    Restores (nullable text) (.text module) (some module) := rfl

/-- A written identity, read by a reader that restores its parts. -/
theorem restores_with {read : Reader Identity} {module name : String} {parent : Option Identity}
    {parameters : List Parameter} {style : PathStyle}
    (hparent : ∀ t ∈ parent, Restores read t.outline t)
    (hparameters : Restores (listOf (readParameter read)) (.list (parameterOutlines parameters))
      parameters) :
    Restores (readWith read) (outline ⟨module, parent, name, parameters, style⟩)
      ⟨module, parent, name, parameters, style⟩ := by
  have hmodule := restores_module module
  have hname := restores_text name
  have hstyle := restores_style style
  have hnull : ∀ t : Identity, t.outline.toJson ≠ .null := by
    rintro ⟨_, _, _, _, _⟩
    simp [outline, Outline.toJson]
  have hnested := restores_optional hparent hnull
  unfold Restores at *
  have hlisted : ∀ member ∈ [("module", Outline.text module)] ++ parentMember parent ++
      [("name", Outline.text name), ("generic_parameters", .list (parameterOutlines parameters))] ++
      (if style = .dotted then [] else [("path_style", style.outline)]), member.1 ∈ fieldNames := by
    cases parent <;> cases style <;> simp [parentMember, fieldNames]
  rw [outline, readWith, fields_record hlisted]
  cases parent with
  | none => cases style <;> simp [parentMember, hmodule, hname, hstyle, hparameters]
  | some parent =>
      have hparent : nullable read parent.outline.toJson = .ok (some parent) := hnested
      cases style <;> simp [parentMember, hmodule, hname, hstyle, hparameters, hparent]

/-- The parts of an identity are less deep than the identity. -/
theorem depth_parts {module name : String} {parent : Option Identity}
    {parameters : List Parameter} {style : PathStyle} {depth : Nat}
    (h : (toJson ⟨module, parent, name, parameters, style⟩).depth ≤ depth + 1) :
    (∀ t ∈ parent, t.toJson.depth ≤ depth) ∧
      Json.depthOfItems ((parameterOutlines parameters).map Outline.toJson) ≤ depth := by
  rw [toJson, outline] at h
  constructor
  · rintro t rfl
    apply Outline.depth_member h
    exact List.mem_append_left _
      (List.mem_append_left _ (List.mem_append_right _ List.mem_cons_self))
  · have hlist : (Outline.list (parameterOutlines parameters)).toJson.depth ≤ depth := by
      apply Outline.depth_member h
      exact List.mem_append_left _
        (List.mem_append_right _ (List.mem_cons_of_mem _ List.mem_cons_self))
    simp only [Outline.toJson, Outline.itemsToJson_eq, Json.depth] at hlist
    omega

mutual

/-- Any allowance that covers the depth of the written value will do. -/
theorem restores_within : (t : Identity) → (depth : Nat) → t.toJson.depth ≤ depth →
    Restores (readWithin depth) t.outline t
  | ⟨module, parent, name, parameters, style⟩, 0, hdepth => by
      simp [toJson, outline, Outline.toJson, Json.depth] at hdepth
  | ⟨module, parent, name, parameters, style⟩, depth + 1, hdepth => by
      obtain ⟨hparent, hparameters⟩ := depth_parts hdepth
      exact restores_with (restores_parent parent depth hparent)
        (restores_parameters parameters depth hparameters)

theorem restores_parent : (parent : Option Identity) → (depth : Nat) →
    (∀ t ∈ parent, t.toJson.depth ≤ depth) →
    ∀ t ∈ parent, Restores (readWithin depth) t.outline t
  | none, _, _ => by simp
  | some parent, depth, hdepth => by
      rintro t ⟨⟩
      exact restores_within parent depth (hdepth parent rfl)

theorem restores_parameters : (parameters : List Parameter) → (depth : Nat) →
    Json.depthOfItems ((parameterOutlines parameters).map Outline.toJson) ≤ depth →
    Restores (listOf (readParameter (readWithin depth))) (.list (parameterOutlines parameters))
      parameters
  | [], _, _ => rfl
  | parameter :: rest, depth, hdepth => by
      simp only [parameterOutlines, List.map_cons, Json.depthOfItems] at hdepth
      have hparameter := restores_parameter parameter depth (by omega)
      have hrest := restores_parameters rest depth (by omega)
      simp only [Restores, Outline.toJson, Outline.itemsToJson_eq, listOf, parameterOutlines,
        List.map_cons, List.mapM_cons] at hparameter hrest ⊢
      rw [hparameter, hrest]
      rfl

theorem restores_parameter : (parameter : Parameter) → (depth : Nat) →
    (parameterOutline parameter).toJson.depth ≤ depth →
    Restores (readParameter (readWithin depth)) (parameterOutline parameter) parameter
  | .type identity, depth, hdepth => by
      simp only [parameterOutline, Outline.toJson, Json.depth, Json.depthOfMembers] at hdepth
      have hidentity := restores_within identity depth (by unfold toJson; omega)
      unfold Restores at *
      simp [parameterOutline, Outline.toJson, readParameter, hidentity]
  | .literal label value valueType, depth, hdepth => by
      simp only [parameterOutline, Outline.toJson, Outline.membersToJson, Json.depth,
        Json.depthOfMembers] at hdepth
      have htype := restores_within valueType depth (by unfold toJson; omega)
      have hlabel := restores_text? label
      have hvalue := restores_word value
      unfold Restores at *
      rw [parameterOutline, Outline.toJson, readParameter, if_neg (by simp), if_pos rfl,
        readLiteral, fields_record (by simp [literalFieldNames])]
      simp [htype, hlabel, hvalue]

end

theorem restores_identity (t : Identity) : Restores Identity.ofJson t.outline t :=
  restores_within t _ (Nat.le_refl _)

end Identity

/-! ## Documentation -/

theorem restores_documentedType (t : DocumentedType) :
    Restores DocumentedType.ofJson t.outline t := by
  have hidentity := Identity.restores_identity t.identity
  have hname := restores_text? t.customName
  unfold Restores at *
  rw [DocumentedType.outline, DocumentedType.ofJson, fields_record (by simp)]
  simp [hidentity, hname]

theorem restores_field (field : Field) : Restores Field.ofJson field.outline field := by
  have hname := restores_text field.name
  have htype := restores_documentedType field.type
  have hoptional := restores_flag field.isOptional
  unfold Restores at *
  rw [Field.outline, Field.ofJson, fields_record (by simp)]
  simp [hname, htype, hoptional]

theorem restores_case (case : EnumCase) : Restores EnumCase.ofJson case.outline case := by
  have hname := restores_text? case.name
  have hvalue := restores_text case.value
  unfold Restores at *
  rw [EnumCase.outline, EnumCase.ofJson, fields_record (by simp)]
  simp [hname, hvalue]

theorem restores_members {isEmpty : Bool} {fields : Option (List Field)}
    {cases : Option (List EnumCase)} {body : Body}
    (h : Body.ofMembers isEmpty fields cases = .ok body) :
    Restores Body.ofJson (bodyOutline isEmpty (fields.map (List.map Field.outline))
      (cases.map (List.map EnumCase.outline))) body := by
  have hempty := restores_flag isEmpty
  have hfields : Restores (nullable (listOf Field.ofJson))
      (.optional (fields.map (.list ∘ List.map Field.outline))) fields :=
    restores_optional (fun _ _ => restores_list fun field _ => restores_field field)
      (by simp [Outline.toJson])
  have hcases : Restores (nullable (listOf EnumCase.ofJson))
      (.optional (cases.map (.list ∘ List.map EnumCase.outline))) cases :=
    restores_optional (fun _ _ => restores_list fun case _ => restores_case case)
      (by simp [Outline.toJson])
  unfold Restores at *
  rw [bodyOutline, Body.ofJson, fields_record (by simp)]
  simp [hempty, hfields, hcases, h]

theorem restores_body (body : Body) : Restores Body.ofJson body.outline body := by
  cases body with
  | empty =>
      have h : Body.ofMembers true none none = .ok .empty := rfl
      simpa [Body.outline] using restores_members h
  | fields list =>
      have h : Body.ofMembers false (some list) none = .ok (.fields list) := rfl
      simpa [Body.outline] using restores_members h
  | cases list =>
      have h : Body.ofMembers false none (some list) = .ok (.cases list) := rfl
      simpa [Body.outline] using restores_members h

theorem restores_object (object : Object) : Restores Object.ofJson object.outline object := by
  have htype := restores_documentedType object.type
  have hbody := restores_body object.body
  unfold Restores at *
  rw [Object.outline, Object.ofJson, fields_record (by simp)]
  simp [htype, hbody]

namespace MediaType

theorem readTexts_texts (texts : List (String × String)) :
    readTexts (texts.map fun t => (t.1, .string t.2)) = .ok texts := by
  induction texts with
  | nil => rfl
  | cons entry rest ih =>
      obtain ⟨name, value⟩ := entry
      simp only [List.map_cons, readTexts, Wire.text, ih]
      rfl

theorem restores_parameters {parameters : List (String × String)}
    (h : Table.Ascending parameters) :
    Restores readParameters
      (.record (parameters.map fun parameter => (parameter.1, .text parameter.2))) parameters := by
  simp only [Restores, Outline.toJson, Outline.membersToJson_eq, readParameters, List.map_map,
    Function.comp_def]
  rw [readTexts_texts, map_ok, Table.ofList_ascending h]

theorem restores_mediaType {m : MediaType} (h : Table.Ascending m.parameters) :
    Restores MediaType.ofJson m.outline m := by
  have htype := restores_text m.type
  have hsubtype := restores_text m.subtype
  have hparameters := restores_parameters h
  unfold Restores at *
  rw [MediaType.outline, MediaType.ofJson, fields_record (by simp [fieldNames])]
  simp [htype, hsubtype, hparameters]

theorem ascending_withParameter {m : MediaType} (h : Table.Ascending m.parameters)
    (name value : String) : Table.Ascending (m.withParameter name value).parameters :=
  Table.ascending_insert h name value

theorem ascending_ofText? {text : String} {m : MediaType} (h : ofText? text = some m) :
    Table.Ascending m.parameters := by
  unfold ofText? at h
  split at h
  · cases h
  · next rest _ =>
      obtain ⟨_, _, h⟩ := Option.bind_eq_some_iff.mp h
      obtain ⟨parameters, hparameters, h⟩ := Option.bind_eq_some_iff.mp h
      obtain ⟨entries, _, rfl⟩ := Option.map_eq_some_iff.mp hparameters
      cases h
      exact Table.ascending_ofList entries

end MediaType

namespace Method

theorem ofName_name (name : String) : ofName (ofName name).name = ofName name := by
  cases hfind : known.find? fun method => method.name = upperName name with
  | none =>
      have hother : ofName name = other name := by simp [ofName, hfind]
      rw [hother]
      exact hother
  | some method =>
      have hknown : ofName name = method := by simp [ofName, hfind]
      rw [hknown]
      exact ofName_name_of_mem_known (List.mem_of_find?_eq_some hfind)

theorem restores_method {method : Method} (h : ∃ name, method = ofName name) :
    Restores Method.ofJson method.outline method := by
  obtain ⟨name, rfl⟩ := h
  have hname := restores_text (ofName name).name
  unfold Restores at *
  rw [outline, Method.ofJson, hname, map_ok, ofName_name]

example : Method.ofJson (other "get").outline.toJson = .ok get := rfl

end Method

theorem restores_payload {payload : Payload} (h : Table.Ascending payload.mediaType.parameters) :
    Restores Payload.ofJson payload.outline payload := by
  have hmedia := MediaType.restores_mediaType h
  have hobjects := restores_list fun object (_ : object ∈ payload.objects) => restores_object object
  unfold Restores at *
  rw [Payload.outline, Payload.ofJson, fields_record (by simp)]
  simp [hmedia, hobjects]

namespace Endpoint

/-- The method was made from a name, and the parameters of the media types are tables. -/
structure Proper (endpoint : Endpoint) : Prop where
  method : ∃ name, endpoint.method = Method.ofName name
  query : ∀ payload ∈ endpoint.query, Table.Ascending payload.mediaType.parameters
  request : ∀ payload ∈ endpoint.request, Table.Ascending payload.mediaType.parameters
  response : ∀ payload ∈ endpoint.response, Table.Ascending payload.mediaType.parameters

theorem restores_payloads {payload : Option Payload}
    (h : ∀ p ∈ payload, Table.Ascending (Payload.mediaType p).parameters) :
    Restores (nullable Payload.ofJson) (.optional (payload.map Payload.outline)) payload :=
  restores_optional (fun p hp => restores_payload (h p hp))
    (by simp [Payload.outline, Outline.toJson])

theorem ofJson_outline {endpoint : Endpoint} (h : endpoint.Proper) :
    ofJson endpoint.outline.toJson = .ok endpoint := by
  have hgroup := restores_text? endpoint.groupName
  have hmethod := Method.restores_method h.method
  have hpath := restores_text endpoint.path
  have hquery := restores_payloads h.query
  have hrequest := restores_payloads h.request
  have hresponse := restores_payloads h.response
  have hauthorization := restores_list fun name (_ : name ∈ endpoint.requiredAuthorization) =>
    restores_text name
  unfold Restores at *
  rw [outline, ofJson, fields_record (by simp [fieldNames])]
  simp [hgroup, hmethod, hpath, hquery, hrequest, hresponse, hauthorization]

namespace Nested

/-- An argument with a label, the largest number and a type with a parent. -/
def buffer : Identity :=
  let owner : Identity := ⟨"", some (Identity.root "core"), "Owner", [], .dotted⟩
  ⟨"alloc::ring", some owner, "Buffer",
    [.literal (some "N") (UInt64.ofNat (Nat.pow 2 64 - 1)) owner, .type owner], .coloned⟩

/-- The whole inside is nested, and lists of every kind are empty. -/
def endpoint : Endpoint where
  groupName := some ""
  method := Method.ofName "report"
  path := "rings//latest"
  query := some ⟨⟨"text", "plain", [("boundary", "a;b"), ("charset", "")]⟩, []⟩
  response := some ⟨MediaType.json, [⟨⟨buffer, some "Ring"⟩, .fields [⟨"", ⟨buffer, none⟩, true⟩]⟩,
    ⟨⟨buffer, none⟩, .fields []⟩, ⟨⟨buffer, none⟩, .cases []⟩, ⟨⟨buffer, none⟩, .empty⟩]⟩
  requiredAuthorization := ["session", ""]

theorem ofJson_outline_endpoint :
    endpoint.Proper ∧ ofJson endpoint.outline.toJson = .ok endpoint := by
  have proper : endpoint.Proper :=
    ⟨⟨"report", rfl⟩, by decide +kernel, by decide +kernel, by decide +kernel⟩
  exact ⟨proper, ofJson_outline proper⟩

end Nested
end Endpoint
end ApiAtlas
