import Leta.Http.ApiSpec
import Leta.Verification.Determinacy

/-! # The server is as its description says

Every response has a status and a body that the description gives for the operation that was asked
for, and what is accepted is a request as the description has it. -/

namespace Leta

open Httplib Json Ondemand

/-! ## Answers -/

theorem isInteger_countData (count : ℕ) : Schema.integer.Validates (countData count) :=
  .integer (.inl le_rfl)

theorem mem_uidCharacters (b : UInt8) : b ∈ uidCharacters ↔ isUidCharacter b := by
  have hall : ∀ n < 256, (UInt8.ofNat n ∈ uidCharacters ↔ isUidCharacter (UInt8.ofNat n)) := by
    decide +kernel
  rw [← @UInt8.ofNat_toNat b]
  exact hall b.toNat b.toNat_lt

theorem indexUidSchema_iff (text : Bytes) :
    indexUidSchema.Validates (.string text) ↔ HasUidForm text := by
  constructor
  · rintro (_ | _ | _ | _ | _ | ⟨hleast, hmost, hcharacters⟩)
    exact ⟨⟨List.ne_nil_of_length_pos hleast, hmost⟩,
      List.all_eq_true.mpr fun b hb => (mem_uidCharacters b).mp (hcharacters b hb)⟩
  · rintro ⟨⟨hne, hlength⟩, hcharacters⟩
    exact .pattern (List.length_pos_iff.mpr hne) hlength fun b hb =>
      (mem_uidCharacters b).mpr (List.all_eq_true.mp hcharacters b hb)

theorem errorSchema_errorData (error : Error) : errorSchema.Validates (errorData error) := by
  apply Schema.Validates.members
  · change ∀ name ∈ [ascii "code", ascii "message", ascii "type"],
      name ∈ [ascii "code", ascii "message", ascii "type"]
    exact fun _ hname => hname
  · decide
  · simp only [List.forall_mem_cons]
    refine ⟨⟨_, .head _, .string _⟩, ⟨_, .tail _ (.head _), .string _⟩,
      ⟨_, .tail _ (.tail _ (.head _)), .enum ?_⟩, by simp⟩
    cases error.code <;> decide

theorem indexSchema_indexData (index : IndexMetadata) (hcreated : InWireYears index.createdAt)
    (hupdated : InWireYears index.updatedAt) : indexSchema.Validates
      (indexData index.uid.value index.primaryKey (dateTimeOf index.createdAt)
        (dateTimeOf index.updatedAt)) := by
  apply Schema.Validates.members
  · change ∀ name ∈ [ascii "uid", ascii "primaryKey", ascii "createdAt", ascii "updatedAt"],
      name ∈ [ascii "uid", ascii "primaryKey", ascii "createdAt", ascii "updatedAt"]
    exact fun _ hname => hname
  · decide
  · simp only [List.forall_mem_cons]
    refine ⟨⟨_, .head _, (indexUidSchema_iff _).mpr index.uid.form⟩,
      ⟨_, .tail _ (.head _), ?_⟩,
      ⟨_, .tail _ (.tail _ (.head _)), .dateTime (dateTime_dateTimeOf hcreated)⟩,
      ⟨_, .tail _ (.tail _ (.tail _ (.head _))), .dateTime (dateTime_dateTimeOf hupdated)⟩,
      by simp⟩
    cases index.primaryKey with
    | some primaryKey => exact .first (.string _)
    | none => exact .second .null

theorem ingestResultSchema_ingestData (received indexed elapsed : ℕ) (primaryKey : Option Bytes) :
    ingestResultSchema.Validates (ingestData received indexed primaryKey elapsed) := by
  apply Schema.Validates.members
  · cases primaryKey with
    | none =>
        change ∀ name ∈ [ascii "received", ascii "indexed", ascii "processingTimeMs"],
          name ∈ [ascii "received", ascii "indexed", ascii "processingTimeMs"]
        exact fun _ hname => hname
    | some primaryKey =>
        change ∀ name ∈ [ascii "received", ascii "indexed", ascii "processingTimeMs"],
          name ∈ [ascii "received", ascii "indexed", ascii "primaryKey", ascii "processingTimeMs"]
        decide
  · decide
  · simp only [List.forall_mem_append, List.forall_mem_cons]
    refine ⟨⟨⟨⟨_, .head _, isInteger_countData _⟩, ⟨_, .tail _ (.head _), isInteger_countData _⟩,
      by simp⟩, ?_⟩, ⟨⟨_, .tail _ (.tail _ (.tail _ (.tail _ (.head _)))), .number _⟩, by simp⟩⟩
    cases primaryKey with
    | none => simp
    | some primaryKey =>
        simp only [Option.map_some, Option.toList_some, List.forall_mem_cons]
        exact ⟨⟨_, .tail _ (.tail _ (.tail _ (.head _))), .string _⟩, by simp⟩

/-! ## Requests -/

/-- The body of a request for an index, as it is described, no member of it twice. -/
def DescribesIndex (body : Bytes) : Prop :=
  ValidUtf8 (dropByteOrderMark body) ∧ ∃ members,
    Denotes (dropByteOrderMark body) (.object members) ∧ (members.map Prod.fst).Nodup ∧
      createIndexSchema.Validates (.object members)

theorem exists_indexUid {data : Data} (h : indexUidSchema.Validates data) :
    ∃ uid : IndexUid, data = .string uid.value := by
  cases h with
  | @pattern _ text _ _ hleast hmost hcharacters =>
      have hform := (indexUidSchema_iff text).mp (.pattern hleast hmost hcharacters)
      exact ⟨⟨text, hform⟩, rfl⟩

theorem nodup_fields (data data' : Data) :
    ([(uidField, data), (primaryKeyField, data')].map Prod.fst).Nodup := by
  change [uidField, primaryKeyField].Nodup
  decide

theorem createIndexSchema_of_names {members : List (Bytes × Data)} {uid : IndexUid}
    {primaryKey : Option Bytes} (h : Names members uid.value primaryKey) :
    (members.map Prod.fst).Nodup ∧ createIndexSchema.Validates (.object members) := by
  have huid := (indexUidSchema_iff uid.value).mpr uid.form
  have hboth : ∀ data, (Schema.either .string .null).Validates data →
      members.Perm [(uidField, .string uid.value), (primaryKeyField, data)] →
      (members.map Prod.fst).Nodup ∧ createIndexSchema.Validates (.object members) := by
    intro data hdata hperm
    refine ⟨(hperm.map Prod.fst).nodup_iff.mpr (nodup_fields _ _), .of_perm hperm ?_⟩
    apply Schema.Validates.members
    · change ∀ name ∈ [uidField], name ∈ [uidField, primaryKeyField]
      decide
    · decide
    · simp only [List.forall_mem_cons]
      exact ⟨⟨_, .head _, huid⟩, ⟨_, .tail _ (.head _), hdata⟩, by simp⟩
  have hone : members.Perm [(uidField, .string uid.value)] →
      (members.map Prod.fst).Nodup ∧ createIndexSchema.Validates (.object members) := by
    intro hperm
    refine ⟨(hperm.map Prod.fst).nodup_iff.mpr (List.nodup_singleton _), .of_perm hperm ?_⟩
    apply Schema.Validates.members
    · change ∀ name ∈ [uidField], name ∈ [uidField]
      decide
    · decide
    · simp only [List.forall_mem_cons]
      exact ⟨⟨_, .head _, huid⟩, by simp⟩
  cases primaryKey with
  | some key => exact hboth _ (.first (.string key)) h
  | none =>
      rcases h with hperm | hperm
      · exact hone hperm
      · exact hboth _ (.second .null) hperm

theorem names_of_createIndexSchema {members : List (Bytes × Data)}
    (hnodup : (members.map Prod.fst).Nodup)
    (h : createIndexSchema.Validates (.object members)) :
    ∃ (uid : IndexUid) (primaryKey : Option Bytes), Names members uid.value primaryKey := by
  cases h with
  | object hrequired hproperties hclosed =>
      obtain ⟨⟨_, data⟩, huid, rfl⟩ := List.mem_map.mp (hrequired _ (.head _))
      obtain ⟨uid, rfl⟩ := exists_indexUid (hproperties _ huid _ (.head _) rfl)
      have hnames : ∀ member ∈ members, member.1 ∈ [uidField, primaryKeyField] := hclosed rfl
      by_cases hkey : primaryKeyField ∈ members.map Prod.fst
      · obtain ⟨⟨_, data⟩, hkey, rfl⟩ := List.mem_map.mp hkey
        have hperm : members.Perm [(uidField, .string uid.value), (primaryKeyField, data)] := by
          apply perm_of_names hnodup (nodup_fields _ _) hnames
          simp only [List.forall_mem_cons]
          exact ⟨huid, hkey, by simp⟩
        have hdata := hproperties _ hkey _ (.tail _ (.head _)) rfl
        cases hdata with
        | first hstring =>
            cases hstring with
            | string key => exact ⟨uid, some key, hperm⟩
        | second hnull =>
            cases hnull
            exact ⟨uid, none, .inr hperm⟩
      · refine ⟨uid, none, .inl ?_⟩
        have htarget : ([(uidField, Data.string uid.value)].map Prod.fst).Nodup :=
          List.nodup_singleton _
        apply perm_of_names hnodup htarget
        · intro member hmember
          rcases List.mem_pair.mp (hnames member hmember) with hname | hname
          · rw [hname]
            exact .head _
          · rw [← hname] at hkey
            exact absurd (List.mem_map_of_mem hmember) hkey
        · simp only [List.forall_mem_cons]
          exact ⟨huid, by simp⟩

theorem describesIndex_iff (body : Bytes) :
    DescribesIndex body ↔ ∃ (uid : IndexUid) (primaryKey : Option Bytes),
      IsCreateIndex body uid.value primaryKey := by
  constructor
  · rintro ⟨hutf8, members, hdenotes, hnodup, hvalid⟩
    obtain ⟨uid, primaryKey, hnames⟩ := names_of_createIndexSchema hnodup hvalid
    exact ⟨uid, primaryKey, hutf8, members, hdenotes, hnames⟩
  · rintro ⟨uid, primaryKey, hutf8, members, hdenotes, hnames⟩
    exact ⟨hutf8, members, hdenotes, createIndexSchema_of_names hnames⟩

theorem exists_members {v : Json.Value} (h : v.isObject) (hreadable : v.Readable) :
    ∃ members, v.decode = some (.object members) := by
  cases v with
  | emptyObject => exact ⟨[], rfl⟩
  | object before members =>
      obtain ⟨decoded, hdecoded⟩ := Option.isSome_iff_exists.mp (members.isSome_decode hreadable)
      exact ⟨decoded, by rw [Value.decode, hdecoded, Option.map_some]⟩
  | null | bool | number | string | emptyArray | array => cases h

theorem exists_documents : ∀ (items : Items), (∀ v ∈ items.values, v.isObject ∧ v.Readable) →
    ∃ elements, items.decode = some elements ∧ elements.length = items.values.length ∧
      ∀ element ∈ elements, ∃ members, element = .object members
  | .last v _, h => by
      obtain ⟨hobject, hreadable⟩ := h v (.head _)
      obtain ⟨members, hmembers⟩ := exists_members hobject hreadable
      exact ⟨[.object members], by simp [Items.decode, hmembers], rfl, by simp⟩
  | .cons v _ _ rest, h => by
      obtain ⟨hobject, hreadable⟩ := h v (.head _)
      obtain ⟨members, hmembers⟩ := exists_members hobject hreadable
      obtain ⟨elements, hdecode, hlength, hobjects⟩ :=
        exists_documents rest fun other hother => h other (.tail _ hother)
      refine ⟨.object members :: elements, by simp [Items.decode, hmembers, hdecode], ?_, ?_⟩
      · rw [List.length_cons, hlength]
        rfl
      · exact List.forall_mem_cons.mpr ⟨⟨members, rfl⟩, hobjects⟩

theorem documentsSchema_of_isBatch {body : Bytes} {before : Ws} {batch : Json.Value} {after : Ws}
    (h : IsBatch body before batch after) : ∃ data, Denotes (dropByteOrderMark body) data ∧
      documentsSchema.Validates data := by
  have htext := h.text
  cases batch with
  | array inner items =>
      obtain ⟨elements, hdecode, hlength, hobjects⟩ := exists_documents items fun v hv =>
        ⟨(h.documents v hv).1, (h.documents v hv).2.1⟩
      refine ⟨.array elements, ⟨before, after, _, htext, ?_⟩, .array ?_ ?_ ?_⟩
      · rw [Value.decode, hdecode, Option.map_some]
      · rw [hlength]
        exact List.length_pos_iff.mpr h.nonempty
      · rw [hlength]
        exact h.size
      · intro element helement
        obtain ⟨members, rfl⟩ := hobjects element helement
        exact .object (by simp) (by simp) (by simp)
  | emptyArray => exact absurd rfl h.nonempty
  | null | bool | number | string | emptyObject | object => cases h.array

/-! ## One message -/

/-- The description has the status for what the message asks, with a body that means the data.
What asks for nothing described, or is refused by the library, gets an error. -/
inductive Described (library : Library) (message : Message) : ℕ → Data → Prop where
  | operation {operation status schema data} : Asks library message operation →
      (status, schema) ∈ operation.route.responses → schema.Validates data →
      Described library message status data
  | notFound {data} : (∀ operation, ¬ Asks library message operation) →
      errorSchema.Validates data → Described library message 404 data
  | refused {rejection data} : library.Refuses message rejection → errorSchema.Validates data →
      Described library message
        (wireError (errorForLibraryStatus rejection.response.status).code).status data

/-- The message asks for the operation as the description has it. -/
structure IsRequestFor (library : Library) (message : Message) (operation : Operation) :
    Prop where
  asks : Asks library message operation
  uid : ∀ uid, operation = .addDocuments uid → indexUidSchema.Validates (.string uid)
  json : operation ≠ .health → NamesJson (headerValue message.headers contentTypeHeader)
  body : ∀ schema, operation.route.requestBody = some schema →
    ValidUtf8 (dropByteOrderMark message.body) ∧
      ∃ data, Denotes (dropByteOrderMark message.body) data ∧ schema.Validates data

theorem described_handles {library : Library} {message : Message} {now : Timestamp}
    {operation : Operation} {catalogue catalogue' : Catalogue} {answer : Answer}
    (hasks : Asks library message operation) (hyears : InWireYears now)
    (h : Handles message.body now operation catalogue answer catalogue') (elapsed : ℕ) :
    Described library message answer.status (answer.data elapsed) := by
  have hfailed : ∀ error, (Answer.failed error).status = 400 → operation ≠ .health →
      Described library message (Answer.failed error).status (errorData error) := by
    intro error hstatus hoperation
    rw [hstatus]
    refine .operation hasks ?_ (errorSchema_errorData error)
    cases operation with
    | health => exact absurd rfl hoperation
    | createIndex => exact .tail _ (.head _)
    | addDocuments uid => exact .tail _ (.head _)
  cases h with
  | @created _ uid primaryKey _ _ =>
      exact .operation hasks (.head _)
        (indexSchema_indexData (indexCreatedAt now uid primaryKey) hyears hyears)
  | taken _ _ =>
      exact .operation hasks (.tail _ (.tail _ (.head _))) (errorSchema_errorData _)
  | badIndex _ herror => exact hfailed _ (status_badIndex herror) Operation.noConfusion
  | badUid _ => exact hfailed _ rfl Operation.noConfusion
  | badBatch _ herror => exact hfailed _ (status_malformed herror) Operation.noConfusion
  | ingested _ => exact .operation hasks (.head _) (ingestResultSchema_ingestData _ _ _ _)

theorem ApiStep.described {library : Library} {catalogue catalogue' : Catalogue} {call : ApiCall}
    (h : ApiStep library catalogue call catalogue') (hyears : InWireYears call.now)
    (elapsed : ℕ) :
    Described library call.message call.answer.status (call.answer.data elapsed) := by
  cases h with
  | refused hrefuses => exact .refused hrefuses (errorSchema_errorData _)
  | notFound hnone => exact .notFound hnone (errorSchema_errorData _)
  | health hasks =>
      refine .operation hasks (.head _) (.members (by simp) (List.nodup_singleton _) ?_)
      intro member hmember
      obtain rfl := List.mem_singleton.mp hmember
      exact ⟨_, .head _, .enum (.head _)⟩
  | @notJson _ _ operation hasks hoperation _ =>
      refine .operation hasks ?_ (errorSchema_errorData nonJsonBodyError)
      cases operation with
      | health => exact absurd rfl hoperation
      | createIndex => exact .tail _ (.head _)
      | addDocuments uid => exact .tail _ (.head _)
  | handled hasks _ hhandles => exact described_handles hasks hyears hhandles elapsed

/-- What is accepted is a request as the description has it. -/
theorem ApiStep.isRequestFor {library : Library} {catalogue catalogue' : Catalogue}
    {call : ApiCall} (h : ApiStep library catalogue call catalogue')
    (hstatus : call.answer.status < 400) :
    ∃ operation, IsRequestFor library call.message operation := by
  have hfailed : ∀ error, ¬ (Answer.failed error).status < 400 :=
    fun error => (status_errorResponse error).not_gt
  cases h with
  | refused _ => exact absurd hstatus (hfailed _)
  | notFound _ => exact absurd hstatus (hfailed _)
  | health hasks =>
      refine ⟨.health, hasks, fun _ huid => ?_, fun hhealth => absurd rfl hhealth, ?_⟩
      · cases huid
      · intro schema hschema
        cases hschema
  | notJson _ _ _ => exact absurd hstatus (hfailed _)
  | handled hasks hjson hhandles =>
      cases hhandles with
      | created hcreate _ =>
          refine ⟨.createIndex, hasks, fun _ huid => Operation.noConfusion huid, fun _ => hjson, ?_⟩
          intro schema hschema
          cases hschema
          obtain ⟨hutf8, members, hdenotes, hnames⟩ := hcreate
          exact ⟨hutf8, _, hdenotes, (createIndexSchema_of_names hnames).2⟩
      | taken _ _ => exact absurd hstatus (hfailed _)
      | badIndex _ _ => exact absurd hstatus (hfailed _)
      | badUid _ => exact absurd hstatus (hfailed _)
      | badBatch _ _ => exact absurd hstatus (hfailed _)
      | @ingested _ uid _ _ _ hbatch =>
          refine ⟨.addDocuments uid.value, hasks, ?_, fun _ => hjson, ?_⟩
          · intro other hother
            cases hother
            exact (indexUidSchema_iff _).mpr uid.form
          · intro schema hschema
            cases hschema
            exact ⟨hbatch.utf8, documentsSchema_of_isBatch hbatch⟩

/-- A request for an index gets the status of a bad request exactly when its body is not as
described. -/
theorem ApiStep.bad_iff {library : Library} {catalogue catalogue' : Catalogue} {call : ApiCall}
    (h : ApiStep library catalogue call catalogue') (hpasses : Library.Passes library call.message)
    (hasks : Asks library call.message .createIndex)
    (hjson : NamesJson (headerValue call.message.headers contentTypeHeader)) :
    call.answer.status = 400 ↔ ¬ DescribesIndex call.message.body := by
  rw [describesIndex_iff]
  cases h with
  | refused hrefuses => exact absurd hrefuses (hpasses _)
  | notFound hnone => exact absurd hasks (hnone _)
  | health hasks' => exact Operation.noConfusion (hasks.unique hasks')
  | notJson hasks' _ hnotJson => exact absurd hjson hnotJson
  | handled hasks' _ hhandles =>
      obtain rfl := hasks.unique hasks'
      cases hhandles with
      | @created _ uid primaryKey hcreate _ =>
          exact iff_of_false (Nat.ne_of_beq_eq_false rfl) (not_not_intro ⟨uid, primaryKey, hcreate⟩)
      | @taken _ uid primaryKey hcreate _ =>
          exact iff_of_false (Nat.ne_of_beq_eq_false rfl) (not_not_intro ⟨uid, primaryKey, hcreate⟩)
      | badIndex hnone herror =>
          refine iff_of_true (status_badIndex herror) ?_
          rintro ⟨uid, primaryKey, hcreate⟩
          exact hnone uid primaryKey hcreate

/-! ## The server -/

/-- The exchange is one that the description has. -/
structure Conforms (library : Library) (exchange : Exchange) : Prop where
  response : ∃ (status : ℕ) (data : Data), exchange.response.status = status ∧
    Denotes exchange.response.body data ∧ Described library exchange.message status data
  utf8 : ValidUtf8 exchange.response.body
  typed : IsJsonTyped exchange.response
  id : ∃ id, Carries exchange.response id
  accepted : exchange.response.status < 400 →
    ∃ operation, IsRequestFor library exchange.message operation
  bad : Library.Passes library exchange.message → Asks library exchange.message .createIndex →
    NamesJson (headerValue exchange.message.headers contentTypeHeader) →
    (exchange.response.status = 400 ↔ ¬ DescribesIndex exchange.message.body)

theorem ApiStep.conforms {library : Library} {catalogue catalogue' : Catalogue}
    {call : ApiCall} {exchange : Exchange}
    (h : ApiStep library catalogue call catalogue') (hsaid : Says exchange call)
    (hyears : InWireYears exchange.now) : Conforms library exchange where
  response := by
    refine ⟨_, _, hsaid.status, hsaid.body, ?_⟩
    rw [hsaid.message]
    exact h.described (hsaid.now ▸ hyears) _
  utf8 := hsaid.utf8
  typed := hsaid.typed
  id := hsaid.id.imp fun _ hid => hid.1
  accepted hstatus := by
    rw [hsaid.message]
    rw [hsaid.status] at hstatus
    exact h.isRequestFor (by exact_mod_cast hstatus)
  bad hpasses hasks hjson := by
    rw [hsaid.message] at *
    rw [hsaid.status, ← h.bad_iff hpasses hasks hjson]
    norm_cast

variable {S : Ondemand} {library : Library} {ε : Type} {draw : ε → UInt64 × ε}

/-- In any run, what is answered while the clock shows a year of four digits conforms. -/
theorem server_conforms (laws : library.Lawful) (parser : S.Lawful) {exchanges : List Exchange}
    {state : ServerState ε} (h : (server S library draw).Run exchanges state) :
    ∀ exchange ∈ exchanges, InWireYears exchange.now → Conforms library exchange := by
  intro exchange hexchange hyears
  obtain ⟨calls, catalogue, hsaid, hrun, -⟩ := (server_simulates_api laws parser).run h
  obtain ⟨call, hcall, hsays⟩ := exists_mem_of_forall₂ hsaid.flip hexchange
  obtain ⟨before, after, hstep⟩ := hrun.exists_step hcall
  exact ApiStep.conforms hstep hsays hyears

theorem inWireYears_lettersSent : ∀ s ∈ lettersSent, InWireYears s.2.1 := by
  have hall : ∀ s ∈ lettersSent, 0 ≤ s.2.1 ∧ s.2.1 < 10 := by decide
  intro s hs
  obtain ⟨hlow, hhigh⟩ := hall s hs
  constructor
  · exact le_trans (by decide) hlow
  · exact hhigh.trans (by decide)

theorem server_conforms_letters : ∃ exchanges state,
    exchanges.map Exchange.sent = lettersSent ∧
      (server reference (referenceLibrary 100) fun engine : UInt64 => (engine, engine)).Run
        exchanges state ∧
      ∀ exchange ∈ exchanges, Conforms (referenceLibrary 100) exchange := by
  obtain ⟨exchanges, state, hsent, hrun⟩ :=
    run_letters (fun engine : UInt64 => (engine, engine)) 7 100
  refine ⟨exchanges, state, hsent, hrun, fun exchange hexchange => ?_⟩
  have hmem : exchange.sent ∈ lettersSent := hsent ▸ List.mem_map_of_mem hexchange
  exact server_conforms (referenceLibrary_lawful 100) reference_lawful hrun exchange hexchange
    (inWireYears_lettersSent _ hmem)

end Leta
