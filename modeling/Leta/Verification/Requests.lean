import Leta.Json.Arrays
import Leta.Verification.Responses

/-! # Requests and their effect

What one request does to the repository, what its response says of it, and what any run of
requests leaves behind. -/

namespace Leta

open Json Ondemand

variable {S : Ondemand}

/-! ## One request -/

/-- Creating an index: refused by the parser, refused because it exists, or done. -/
theorem createIndexResponse_cases (now : Timestamp) (body : Bytes)
    (repository : InMemoryIndexRepository) :
    (∃ error, parseCreateIndexRequest S body = .error error ∧
      createIndexResponse S now body repository = (errorResponse error, repository)) ∨
    (∃ command stored, parseCreateIndexRequest S body = .ok command ∧
      repository.indexes[command.uid.value]? = some stored ∧
      createIndexResponse S now body repository = (errorResponse ⟨.indexAlreadyExists,
        InMemoryIndexRepository.alreadyExistsMessage command.uid⟩, repository)) ∨
    ∃ command, parseCreateIndexRequest S body = .ok command ∧
      repository.indexes[command.uid.value]? = none ∧
      let index := indexCreatedAt now command.uid command.primaryKey
      createIndexResponse S now body repository = (⟨createdStatus, indexJson index⟩,
        { indexes := repository.indexes.insert command.uid.value ⟨index, .empty⟩ }) := by
  cases hparse : parseCreateIndexRequest S body with
  | error error => exact .inl ⟨error, rfl, by simp [createIndexResponse, hparse]⟩
  | ok command =>
      cases hstored : repository.indexes[command.uid.value]? with
      | some stored =>
          have hadd := InMemoryIndexRepository.add_present
            (indexCreatedAt now command.uid command.primaryKey) hstored
          refine .inr (.inl ⟨command, stored, rfl, hstored, ?_⟩)
          simp only [createIndexResponse, hparse, exec_createIndex, hadd, Except.map]
          rfl
      | none =>
          have hadd := InMemoryIndexRepository.add_missing
            (indexCreatedAt now command.uid command.primaryKey) hstored
          refine .inr (.inr ⟨command, rfl, hstored, ?_⟩)
          simp only [createIndexResponse, hparse, exec_createIndex, hadd, Except.map]
          rfl

/-- Adding documents: refused for the uid, refused for the body, or done. -/
theorem addDocumentsResponse_cases (now : Timestamp) (elapsed : ℕ) (uid body : Bytes)
    (repository : InMemoryIndexRepository) :
    (¬ HasUidForm uid ∧ addDocumentsResponse S now elapsed uid body repository =
      (errorResponse invalidIndexUid, repository)) ∨
    (∃ error, HasUidForm uid ∧ parseDocumentBatch S body = .error error ∧
      addDocumentsResponse S now elapsed uid body repository =
        (errorResponse error, repository)) ∨
    ∃ indexUid documents, indexUid.value = uid ∧ parseDocumentBatch S body = .ok documents ∧
      addDocumentsResponse S now elapsed uid body repository =
        (⟨okStatus, ingestResultJson documents.length ⟨documents.length,
          (storedOrNew repository now indexUid).metadata.primaryKey⟩ elapsed⟩,
          ((addDocuments now ⟨indexUid, documents⟩).exec repository).2) := by
  by_cases hform : HasUidForm uid
  · have huid : IndexUid.parse uid = .ok ⟨uid, hform⟩ := IndexUid.parse_eq_ok.mpr rfl
    cases hparse : parseDocumentBatch S body with
    | error error =>
        refine .inr (.inl ⟨error, hform, rfl, ?_⟩)
        simp only [addDocumentsResponse, huid, hparse]
    | ok documents =>
        have hreply := (exec_addDocuments_eq now ⟨⟨uid, hform⟩, documents⟩ repository).1
        refine .inr (.inr ⟨⟨uid, hform⟩, documents, rfl, rfl, ?_⟩)
        simp only [addDocumentsResponse, huid, hparse]
        rw [← Prod.mk.eta (p := (addDocuments _ _).exec repository), hreply]
  · have huid : IndexUid.parse uid = .error invalidIndexUid :=
      IndexUid.parse_eq_error.mpr ⟨hform, rfl⟩
    exact .inl ⟨hform, by simp only [addDocumentsResponse, huid]⟩

/-- What a response to a create request says of the repository. -/
def CreateAgrees (now : Timestamp) (repository : InMemoryIndexRepository)
    (outcome : HttpResponse × InMemoryIndexRepository) : Prop :=
  (400 ≤ outcome.1.status ∧ outcome.2 = repository) ∨
    (outcome.1.status = 201 ∧ ∃ (index : IndexMetadata) (createdAt updatedAt : Bytes),
      repository.indexes[index.uid.value]? = none ∧
      outcome.2.indexes = repository.indexes.insert index.uid.value ⟨index, .empty⟩ ∧
      Denotes outcome.1.body (indexData index.uid.value index.primaryKey createdAt updatedAt) ∧
      (InWireYears now → DateTime createdAt index.createdAt ∧ DateTime updatedAt index.updatedAt))

/-- What a response to an ingest request says of the repository. A missing index counts as a new
one, without a primary key. -/
def IngestAgrees (now : Timestamp) (elapsed : ℕ) (segment body : Bytes)
    (repository : InMemoryIndexRepository) (outcome : HttpResponse × InMemoryIndexRepository) :
    Prop :=
  (400 ≤ outcome.1.status ∧ outcome.2 = repository) ∨
    (outcome.1.status = 200 ∧ ∃ (uid : IndexUid) (before : Ws) (batch : Json.Value) (after : Ws),
      uid.value = segment ∧ IsBatch body before batch after ∧
      let stored := storedOrNew repository now uid
      let documents := batch.elements.map documentOf
      (∀ key, outcome.2.indexes[key]? = if key = segment then
          some ⟨stored.metadata, stored.documents.addAll documents⟩
        else repository.indexes[key]?) ∧
      (stored.documents.addAll documents).sources =
        stored.documents.sources ++ documents.map Document.source ∧
      Denotes outcome.1.body (ingestData batch.elements.length batch.elements.length
        stored.metadata.primaryKey elapsed))

/-- The response tells what happened to the repository. -/
theorem responses_agree (laws : S.Lawful) (now : Timestamp) (elapsed : ℕ) (segment body : Bytes)
    (repository : InMemoryIndexRepository) :
    CreateAgrees now repository (createIndexResponse S now body repository) ∧
    IngestAgrees now elapsed segment body repository
      (addDocumentsResponse S now elapsed segment body repository) ∧
    (¬ HasUidForm segment → (addDocumentsResponse S now elapsed segment body repository).1 =
      errorResponse invalidIndexUid) := by
  refine ⟨?_, ?_, fun hform => ?_⟩
  · rcases createIndexResponse_cases (S := S) now body repository with
      ⟨error, -, hcase⟩ | ⟨command, stored, -, -, hcase⟩ | ⟨command, -, hfree, hcase⟩ <;> rw [hcase]
    · exact .inl ⟨status_errorResponse _, rfl⟩
    · exact .inl ⟨status_errorResponse _, rfl⟩
    · refine .inr ⟨rfl, _, _, _, hfree, rfl, denotes_indexJson _, fun hyears => ?_⟩
      exact ⟨dateTime_dateTimeOf hyears, dateTime_dateTimeOf hyears⟩
  · rcases addDocumentsResponse_cases (S := S) now elapsed segment body repository with
      ⟨-, hcase⟩ | ⟨error, -, -, hcase⟩ | ⟨uid, documents, rfl, hparse, hcase⟩ <;> rw [hcase]
    · exact .inl ⟨status_errorResponse _, rfl⟩
    · exact .inl ⟨status_errorResponse _, rfl⟩
    · obtain ⟨before, batch, after, hbatch, rfl⟩ := (parseDocumentBatch_eq_ok laws).mp hparse
      refine .inr ⟨rfl, uid, before, batch, after, rfl, hbatch,
        (exec_addDocuments_eq now ⟨uid, _⟩ repository).2, ?_, ?_⟩
      · exact ExactMatchIndex.sources_addAll _ _
      · rw [List.length_map]
        exact denotes_ingestResultJson _ _ _
  · rcases addDocumentsResponse_cases (S := S) now elapsed segment body repository with
      ⟨-, hcase⟩ | ⟨error, hform', -, -⟩ | ⟨uid, documents, rfl, -, -⟩
    · rw [hcase]
    · exact absurd hform' hform
    · exact absurd uid.form hform

/-- A bad uid, and a body that could be a batch, over the empty repository. -/
theorem responses_agree_reference :
    (addDocumentsResponse reference 0 0 (ascii "a b") (ascii "[\x7b\x7d]") .empty).1 =
      errorResponse invalidIndexUid ∧
    IngestAgrees 0 0 (ascii "a") (ascii "[\x7b\x7d]") .empty
      (addDocumentsResponse reference 0 0 (ascii "a") (ascii "[\x7b\x7d]") .empty) :=
  ⟨(responses_agree reference_lawful 0 0 (ascii "a b") (ascii "[\x7b\x7d]") .empty).2.2 (by decide),
    (responses_agree reference_lawful 0 0 (ascii "a") (ascii "[\x7b\x7d]") .empty).2.1⟩

/-! ## Runs -/

inductive Request where
  | createIndex (now : Timestamp) (body : Bytes)
  | addDocuments (now : Timestamp) (elapsed : ℕ) (uid body : Bytes)

def Request.respond (S : Ondemand) (request : Request) (repository : InMemoryIndexRepository) :
    HttpResponse × InMemoryIndexRepository :=
  match request with
  | .createIndex now body => createIndexResponse S now body repository
  | .addDocuments now elapsed uid body => addDocumentsResponse S now elapsed uid body repository

/-- The responses to requests, one after the other, and the repository that they reach. -/
def serveAll (S : Ondemand) (requests : List Request) :
    List (Request × HttpResponse) × InMemoryIndexRepository :=
  requests.foldl (fun (exchanges, repository) request =>
    let (response, repository) := request.respond S repository
    (exchanges ++ [(request, response)], repository)) ([], .empty)

theorem serveAll_append (requests : List Request) (request : Request) :
    serveAll S (requests ++ [request]) =
      let (exchanges, repository) := serveAll S requests
      let (response, repository) := request.respond S repository
      (exchanges ++ [(request, response)], repository) :=
  List.foldl_append

/-- The call that a request comes to, when its parts are as required. -/
def Request.call (S : Ondemand) : Request → Option (Call × Timestamp)
  | .createIndex now body =>
      match parseCreateIndexRequest S body with
      | .ok command => some (.create command, now)
      | .error _ => none
  | .addDocuments now _ uid body =>
      match IndexUid.parse uid, parseDocumentBatch S body with
      | .ok uid, .ok documents => some (.ingest ⟨uid, documents⟩, now)
      | _, _ => none

theorem respond_eq (request : Request) (repository : InMemoryIndexRepository) :
    (request.respond S repository).2 = match request.call S with
      | some (call, now) => (call.run now repository).2
      | none => repository := by
  cases request with
  | createIndex now body =>
      rcases createIndexResponse_cases (S := S) now body repository with
        ⟨error, hparse, hcase⟩ | ⟨command, stored, hparse, hstored, hcase⟩ |
          ⟨command, hparse, hfree, hcase⟩ <;>
        simp only [Request.respond, Request.call, hcase, hparse]
      · rw [run_create_taken hstored]
      · rw [run_create_free hfree]
  | addDocuments now elapsed uid body =>
      rcases addDocumentsResponse_cases (S := S) now elapsed uid body repository with
        ⟨hform, hcase⟩ | ⟨error, hform, hparse, hcase⟩ | ⟨uid, documents, rfl, hparse, hcase⟩
      · simp only [Request.respond, Request.call, hcase,
          IndexUid.parse_eq_error.mpr ⟨hform, rfl⟩]
      · simp only [Request.respond, Request.call, hcase, hparse]
        cases IndexUid.parse uid <;> rfl
      · simp only [Request.respond, Request.call, hcase, hparse, IndexUid.parse_value]
        rfl

/-- A run of requests does what its calls do. -/
theorem serveAll_eq (requests : List Request) :
    (serveAll S requests).2 = runCalls (requests.filterMap (Request.call S)) .empty := by
  induction requests using List.reverseRecOn with
  | nil => rfl
  | append_singleton requests request ih =>
      rw [serveAll_append, List.filterMap_append, runCalls_append, ← ih]
      dsimp only
      rw [respond_eq]
      cases hcall : request.call S <;> simp [hcall, runCalls]

/-! ## Text that clients send is UTF-8 -/

theorem exists_mem_of_forall₂ {α β : Type} {R : α → β → Prop} {front : List α} {back : List β}
    (h : List.Forall₂ R front back) {b : β} (hb : b ∈ back) : ∃ a ∈ front, R a b := by
  induction h with
  | nil => simp at hb
  | cons hab _ ih =>
      rcases List.mem_cons.mp hb with rfl | hb
      · exact ⟨_, List.mem_cons_self, hab⟩
      · obtain ⟨a, ha, hr⟩ := ih hb
        exact ⟨a, List.mem_cons_of_mem _ ha, hr⟩

/-- A string member of a valid text is valid. -/
theorem validUtf8_member (key : Bytes) {text value : Bytes} {members : List (Bytes × Data)}
    (hvalid : ValidUtf8 text) (h : Denotes text (.object members))
    (hmember : (key, .string value) ∈ members) : ValidUtf8 value := by
  obtain ⟨before, after, v, rfl, hv⟩ := h
  obtain ⟨-, hfields⟩ := Value.decode_eq_object.mp hv
  obtain ⟨field, hfield, -, hvalue⟩ := exists_mem_of_forall₂ hfields hmember
  obtain ⟨s, hs, htext⟩ := Value.decode_eq_string.mp hvalue
  obtain ⟨front, back, hrender⟩ := Value.exists_field_context hfield
  refine StringLiteral.validUtf8_text (before.1 ++ front) (back ++ after.1) htext ?_
  rw [hs, Value.render] at hrender
  rw [hrender] at hvalid
  simpa using hvalid

theorem validUtf8_primaryKey {body uid : Bytes} {primaryKey : Option Bytes}
    (h : IsCreateIndex body uid primaryKey) : ∀ key ∈ primaryKey, ValidUtf8 key := by
  rintro key ⟨⟩
  obtain ⟨hvalid, members, hmembers, hnames⟩ := h
  exact validUtf8_member primaryKeyField hvalid hmembers (hnames.mem_iff.mpr (by simp))

theorem validUtf8_unknownKey {body name : Bytes} (h : HasUnknownKey body name) :
    ValidUtf8 name := by
  obtain ⟨hvalid, before, inner, hbody, key, colon, rest, fields, hkey, -, -, hreached⟩ := h
  obtain ⟨_, lead, -, hinner, -⟩ := hreached
  rw [hbody, hinner] at hvalid
  exact StringLiteral.validUtf8_text (before.1 ++ 0x7b :: lead) _ hkey (by simpa using hvalid)

theorem IsMalformed.validUtf8 {error : Error} (h : IsMalformed error) : ValidUtf8 error.message :=
  .of_isAscii h.message

theorem validUtf8_createIndexError (laws : S.Lawful) {body : Bytes} {error : Error}
    (h : parseCreateIndexRequest S body = .error error) : ValidUtf8 error.message := by
  rcases parseCreateIndexRequest_eq_error laws h with hmalformed | ⟨name, hname, rfl⟩ | ⟨-, rfl⟩
  · exact hmalformed.validUtf8
  · have hfront : ValidUtf8 (ascii "Unknown field `") := .of_all (by decide)
    exact (hfront.append
      (validUtf8_unknownKey hname)).append (.of_all (by decide))
  · exact .of_all (by decide)

theorem validUtf8_alreadyExists (uid : IndexUid) :
    ValidUtf8 (InMemoryIndexRepository.alreadyExistsMessage uid) := by
  have hfront : ValidUtf8 (ascii "Index `") := .of_all (by decide)
  exact (hfront.append (validUtf8_uid uid)).append (.of_all (by decide))

/-- Every stored primary key is UTF-8. -/
def KeysValid (repository : InMemoryIndexRepository) : Prop :=
  ∀ (uid : Bytes) (stored : StoredIndex), repository.indexes[uid]? = some stored →
    ∀ key ∈ stored.metadata.primaryKey, ValidUtf8 key

theorem keysValid_serveAll (laws : S.Lawful) (requests : List Request) :
    KeysValid (serveAll S requests).2 := by
  intro uid stored hstored key hkey
  rw [serveAll_eq, getElem?_runCalls] at hstored
  obtain ⟨⟨call, now⟩, hfirst, rfl⟩ := Option.map_eq_some_iff.mp hstored
  obtain ⟨request, -, hcall⟩ := List.mem_filterMap.mp (List.mem_of_find?_eq_some hfirst)
  cases request with
  | createIndex now' body =>
      rw [Request.call] at hcall
      cases hparse : parseCreateIndexRequest S body with
      | error error => simp [hparse] at hcall
      | ok command =>
          rw [hparse] at hcall
          cases hcall
          exact validUtf8_primaryKey ((parseCreateIndexRequest_eq_ok laws).mp hparse) key hkey
  | addDocuments now' elapsed segment body =>
      rw [Request.call] at hcall
      split at hcall
      · cases hcall
        simp [metadataOf, indexCreatedAt] at hkey
      · cases hcall

/-! ## What the responses decode to -/

/-- The response says the error, no more and no less. -/
structure SaysError (response : HttpResponse) (error : Error) : Prop where
  status : response.status = (wireError error.code).status
  body : Denotes response.body (errorData error)
  message : ValidUtf8 error.message

theorem saysError_errorResponse {error : Error} (h : ValidUtf8 error.message) :
    SaysError (errorResponse error) error :=
  ⟨rfl, denotes_errorResponse error, h⟩

/-- The response to a create request: the stored index with the client's values, or an error. -/
def CreateSays (S : Ondemand) (now : Timestamp) (body : Bytes)
    (repository : InMemoryIndexRepository) (outcome : HttpResponse × InMemoryIndexRepository) :
    Prop :=
  ValidUtf8 outcome.1.body ∧
  ((outcome.1.status = 201 ∧ ∃ uid primaryKey createdAt updatedAt stored,
      IsCreateIndex body uid primaryKey ∧ outcome.2.indexes[uid]? = some stored ∧
      stored.metadata.primaryKey = primaryKey ∧
      Denotes outcome.1.body (indexData uid primaryKey createdAt updatedAt) ∧
      DateTime createdAt stored.metadata.createdAt ∧
      DateTime updatedAt stored.metadata.updatedAt) ∨
    ∃ error, SaysError outcome.1 error ∧ (parseCreateIndexRequest S body = .error error ∨
      ∃ command, parseCreateIndexRequest S body = .ok command ∧
        ((createIndex now command).exec repository).1 = .error error))

/-- The response to an ingest request: the size of the batch and the stored primary key, or an
error. -/
def IngestSays (S : Ondemand) (elapsed : ℕ) (segment body : Bytes)
    (outcome : HttpResponse × InMemoryIndexRepository) : Prop :=
  ValidUtf8 outcome.1.body ∧
  ((outcome.1.status = 200 ∧ ∃ documents stored, parseDocumentBatch S body = .ok documents ∧
      outcome.2.indexes[segment]? = some stored ∧
      Denotes outcome.1.body (ingestData documents.length documents.length
        stored.metadata.primaryKey elapsed)) ∨
    ∃ error, SaysError outcome.1 error ∧ (IndexUid.parse segment = .error error ∨
      HasUidForm segment ∧ parseDocumentBatch S body = .error error))

/-- Every response body is valid UTF-8 and decodes to the intended values. -/
theorem responses_say (laws : S.Lawful) (requests : List Request) (now : Timestamp)
    (hyears : InWireYears now) (elapsed : ℕ) (segment body : Bytes) :
    let repository := (serveAll S requests).2
    CreateSays S now body repository (createIndexResponse S now body repository) ∧
      IngestSays S elapsed segment body
        (addDocumentsResponse S now elapsed segment body repository) := by
  intro repository
  refine ⟨?_, ?_⟩
  · rcases createIndexResponse_cases (S := S) now body repository with
      ⟨error, hparse, hcase⟩ | ⟨command, stored, hparse, hstored, hcase⟩ |
        ⟨command, hparse, hfree, hcase⟩ <;> rw [hcase]
    · have hmessage := validUtf8_createIndexError laws hparse
      exact ⟨validUtf8_errorResponse hmessage,
        .inr ⟨error, saysError_errorResponse hmessage, .inl hparse⟩⟩
    · have hmessage := validUtf8_alreadyExists command.uid
      refine ⟨validUtf8_errorResponse hmessage, .inr ⟨_, saysError_errorResponse hmessage,
        .inr ⟨command, hparse, ?_⟩⟩⟩
      have hrun := run_create_taken hstored now
      exact Reply.created.inj (congrArg Prod.fst hrun)
    · have hcreate := (parseCreateIndexRequest_eq_ok laws).mp hparse
      refine ⟨validUtf8_indexJson (validUtf8_primaryKey hcreate), .inl ⟨rfl, _, _, _, _,
        ⟨indexCreatedAt now command.uid command.primaryKey, .empty⟩, hcreate, ?_, rfl,
        denotes_indexJson _, dateTime_dateTimeOf hyears, dateTime_dateTimeOf hyears⟩⟩
      rw [getElem?_insert, if_pos rfl]
  · rcases addDocumentsResponse_cases (S := S) now elapsed segment body repository with
      ⟨hform, hcase⟩ | ⟨error, hform, hparse, hcase⟩ | ⟨uid, documents, rfl, hparse, hcase⟩ <;>
      rw [hcase]
    · have hmessage : ValidUtf8 invalidIndexUid.message := .of_all (by decide)
      exact ⟨validUtf8_errorResponse hmessage, .inr ⟨_, saysError_errorResponse hmessage,
        .inl (IndexUid.parse_eq_error.mpr ⟨hform, rfl⟩)⟩⟩
    · have hmessage := (parseDocumentBatch_eq_error laws hparse).validUtf8
      exact ⟨validUtf8_errorResponse hmessage,
        .inr ⟨error, saysError_errorResponse hmessage, .inr ⟨hform, hparse⟩⟩⟩
    · have hkeys : ∀ key ∈ (storedOrNew repository now uid).metadata.primaryKey, ValidUtf8 key := by
        intro key hkey
        rw [storedOrNew] at hkey
        cases hstored : repository.indexes[uid.value]? with
        | some stored =>
            rw [hstored] at hkey
            exact keysValid_serveAll laws requests uid.value stored hstored key hkey
        | none =>
            rw [hstored] at hkey
            simp [indexCreatedAt] at hkey
      have hstored := (exec_addDocuments_eq now ⟨uid, documents⟩ repository).2 uid.value
      rw [if_pos rfl] at hstored
      exact ⟨validUtf8_ingestResultJson hkeys, .inl ⟨rfl, documents, _, hparse, hstored,
        denotes_ingestResultJson _ _ _⟩⟩

/-- A key with a quote and an escaped NUL, sent at the epoch. -/
theorem responses_say_reference :
    CreateSays reference 0 (ascii "\x7b\"\\\"\\u0000\":1\x7d") .empty
      (createIndexResponse reference 0 (ascii "\x7b\"\\\"\\u0000\":1\x7d") .empty) :=
  (responses_say reference_lawful [] 0 ⟨by decide, by decide⟩ 0 [] _).1

end Leta
