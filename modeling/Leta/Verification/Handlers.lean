import Leta.Http.Handlers
import Leta.Verification.Api

/-! # The handlers implement the API

What a handler answers by itself is what the API answers whatever the catalogue. Otherwise its one
access does to the repository what the API does to the catalogue. -/

namespace Leta

open Httplib Json Ondemand

variable {S : Ondemand}

/-! ## Steps -/

/-- The steps of a handler, one after the other, are the handler. -/
theorem respond_eq_begin (now : Timestamp) (elapsed : ℕ) (route : MainRoute)
    (request : HttpRequest) (application : Application) :
    route.respond S now elapsed request application =
      match route.begin S request with
      | .answered answer => (answer, application)
      | .shared .readiness => (healthResponse application.readiness, application)
      | .shared (.service call) =>
          let (reply, indexes) := call.run now application.indexes
          (reply.response (documentsOf call).length elapsed, { application with indexes }) := by
  cases route with
  | health => rfl
  | createIndex =>
      simp only [MainRoute.respond, MainRoute.begin, createIndexResponse]
      cases parseCreateIndexRequest S request.body with
      | error error => rfl
      | ok command =>
          dsimp only [Call.run]
          rcases (createIndex now command).exec application.indexes with ⟨_ | _, _⟩ <;> rfl
  | addDocuments =>
      simp only [MainRoute.respond, MainRoute.begin, addDocumentsResponse]
      cases IndexUid.parse (pathParameter request uidParameter) with
      | error error => rfl
      | ok uid =>
          cases parseDocumentBatch S request.body with
          | error error => rfl
          | ok documents =>
              dsimp only [Call.run]
              rcases (addDocuments now ⟨uid, documents⟩).exec application.indexes with
                ⟨_ | _, _⟩ <;> rfl

theorem begin_eq_readiness {operation : Operation} {request : HttpRequest} :
    operation.route.begin S request = .shared .readiness ↔ operation = .health := by
  cases operation with
  | health => exact iff_of_true rfl rfl
  | createIndex =>
      simp only [Operation.route, MainRoute.begin]
      cases parseCreateIndexRequest S request.body <;> simp
  | addDocuments uid =>
      simp only [Operation.route, MainRoute.begin]
      cases IndexUid.parse (pathParameter request uidParameter) with
      | error error => simp
      | ok uid => cases parseDocumentBatch S request.body <;> simp

/-! ## The repository and the catalogue -/

/-- The repository holds the catalogue, whose primary keys are UTF-8. -/
structure Implements (repository : InMemoryIndexRepository) (catalogue : Catalogue) : Prop where
  represents : Represents repository catalogue
  keys : ∀ uid entry, catalogue uid = some entry → ∀ key ∈ entry.1.primaryKey, ValidUtf8 key

theorem keys_extend {catalogue : Catalogue} {index : IndexMetadata}
    (h : ∀ uid entry, catalogue uid = some entry → ∀ key ∈ entry.1.primaryKey, ValidUtf8 key)
    (hindex : ∀ key ∈ index.primaryKey, ValidUtf8 key) (documents : List Document) :
    ∀ uid entry, catalogue.extend index documents uid = some entry →
      ∀ key ∈ entry.1.primaryKey, ValidUtf8 key := by
  intro uid entry hentry
  rw [Catalogue.extend, Function.update_apply] at hentry
  split_ifs at hentry
  · cases hstored : catalogue index.uid.value with
    | none =>
        rw [hstored] at hentry
        cases hentry
        exact hindex
    | some stored =>
        rw [hstored] at hentry
        cases hentry
        exact h index.uid.value stored hstored
  · exact h _ _ hentry

/-! ## Answers -/

variable {elapsed : ℕ}

theorem saysAnswer_errorResponse {error : Error} (h : ValidUtf8 error.message) :
    SaysAnswer elapsed (errorResponse error) (.failed error) :=
  ⟨rfl, denotes_errorResponse error, validUtf8_errorResponse h⟩

theorem saysAnswer_health :
    SaysAnswer elapsed (healthResponse .available) .available where
  written := rfl
  body := by
    have hbody : (healthResponse .available).body =
        0x7b :: (fieldsJson [stringField "status" (ascii "available")] ++ [0x7d]) := by decide
    rw [hbody]
    exact denotes_fieldsJson (.cons (means_stringField _ _) .nil)
  utf8 := .of_all (by decide)

/-- The request asks for the operation's index. -/
def Operation.IsNamed (operation : Operation) (request : HttpRequest) : Prop :=
  ∀ uid, operation = .addDocuments uid → pathParameter request uidParameter = uid

theorem isNamed_neutralRequest {library : Library} (laws : library.Lawful) {message : Message}
    {now : Timestamp} {faults : Faults} {operation : Operation}
    (hasks : Asks library message operation) {params : List (Bytes × Bytes)}
    (htakes : Takes library message (operation.route.route S now elapsed faults) params)
    (id : Bytes) : operation.IsNamed (neutralRequest
      (operation.route.route S now elapsed faults) (message.request params) id) := by
  rintro uid rfl
  exact pathParameter_uid laws hasks htakes

/-- What a handler answers by itself is an error of the request. -/
theorem handles_answered (laws : S.Lawful) {operation : Operation} {request : HttpRequest}
    (hnamed : operation.IsNamed request) {answer : HttpResponse}
    (h : operation.route.begin S request = .answered answer) :
    ∃ error, answer = errorResponse error ∧ ValidUtf8 error.message ∧ ∀ now catalogue,
      Handles request.body now operation catalogue (.failed error) catalogue := by
  cases operation with
  | health => cases h
  | createIndex =>
      simp only [Operation.route, MainRoute.begin] at h
      cases hparse : parseCreateIndexRequest S request.body with
      | ok command =>
          rw [hparse] at h
          cases h
      | error error =>
          rw [hparse] at h
          cases h
          refine ⟨error, rfl, validUtf8_createIndexError laws hparse, fun now catalogue =>
            .badIndex (fun uid primaryKey hcreate => ?_)
              (parseCreateIndexRequest_eq_error laws hparse)⟩
          have hok :=
            (@parseCreateIndexRequest_eq_ok S laws request.body ⟨uid, primaryKey⟩).mpr hcreate
          rw [hok] at hparse
          cases hparse
  | addDocuments segment =>
      simp only [Operation.route, MainRoute.begin, hnamed segment rfl] at h
      cases huid : IndexUid.parse segment with
      | error error =>
          rw [huid] at h
          cases h
          obtain ⟨hform, rfl⟩ := IndexUid.parse_eq_error.mp huid
          exact ⟨_, rfl, .of_all (by decide), fun now catalogue => .badUid hform⟩
      | ok uid =>
          obtain rfl := IndexUid.parse_eq_ok.mp huid
          cases hparse : parseDocumentBatch S request.body with
          | ok documents =>
              rw [huid, hparse] at h
              cases h
          | error error =>
              rw [huid, hparse] at h
              cases h
              have hmalformed := parseDocumentBatch_eq_error laws hparse
              refine ⟨error, rfl, hmalformed.validUtf8, fun now catalogue =>
                .badBatch (fun before batch after hbatch => ?_) hmalformed⟩
              rw [parseDocumentBatch_complete laws hbatch] at hparse
              cases hparse

/-- The call that an operation comes to. -/
inductive Operation.Starts (body : Bytes) : Operation → Call → Prop where
  | create {uid : IndexUid} {primaryKey} : IsCreateIndex body uid.value primaryKey →
      Starts body .createIndex (.create ⟨uid, primaryKey⟩)
  | ingest {uid : IndexUid} {before batch after} : IsBatch body before batch after →
      Starts body (.addDocuments uid.value) (.ingest ⟨uid, batch.elements.map documentOf⟩)

theorem starts_of_begin (laws : S.Lawful) {operation : Operation} {request : HttpRequest}
    (hnamed : operation.IsNamed request) {call : Call}
    (hbegin : operation.route.begin S request = .shared (.service call)) :
    operation.Starts request.body call := by
  cases operation with
  | health => cases hbegin
  | createIndex =>
      simp only [Operation.route, MainRoute.begin] at hbegin
      cases hparse : parseCreateIndexRequest S request.body with
      | error error =>
          rw [hparse] at hbegin
          cases hbegin
      | ok command =>
          rw [hparse] at hbegin
          cases hbegin
          exact .create ((parseCreateIndexRequest_eq_ok laws).mp hparse)
  | addDocuments segment =>
      simp only [Operation.route, MainRoute.begin, hnamed segment rfl] at hbegin
      cases huid : IndexUid.parse segment with
      | error error =>
          rw [huid] at hbegin
          cases hbegin
      | ok uid =>
          obtain rfl := IndexUid.parse_eq_ok.mp huid
          cases hparse : parseDocumentBatch S request.body with
          | error error =>
              rw [huid, hparse] at hbegin
              cases hbegin
          | ok documents =>
              rw [huid, hparse] at hbegin
              cases hbegin
              obtain ⟨before, batch, after, hbatch, rfl⟩ :=
                (parseDocumentBatch_eq_ok laws).mp hparse
              exact .ingest hbatch

theorem begin_of_starts (laws : S.Lawful) {operation : Operation} {request : HttpRequest}
    (hnamed : operation.IsNamed request) {call : Call}
    (hstarts : operation.Starts request.body call) :
    operation.route.begin S request = .shared (.service call) := by
  generalize hbody : request.body = body at hstarts
  subst hbody
  cases hstarts with
  | @create uid primaryKey hcreate =>
      have hparse :=
        (@parseCreateIndexRequest_eq_ok S laws request.body ⟨uid, primaryKey⟩).mpr hcreate
      simp only [Operation.route, MainRoute.begin, hparse]
  | @ingest uid before batch after hbatch =>
      have huid := IndexUid.parse_eq_ok.mpr (rfl : uid.value = uid.value)
      simp only [Operation.route, MainRoute.begin, hnamed uid.value rfl, huid,
        parseDocumentBatch_complete laws hbatch]

theorem handles_create {body : Bytes} {uid : IndexUid} {primaryKey : Option Bytes}
    (hcreate : IsCreateIndex body uid.value primaryKey) {repository : InMemoryIndexRepository}
    {catalogue : Catalogue} (h : Implements repository catalogue) (now : Timestamp) :
    ∃ answer catalogue', Handles body now .createIndex catalogue answer catalogue' ∧
      (∀ received elapsed, SaysAnswer elapsed
        (((Call.create ⟨uid, primaryKey⟩).run now repository).1.response received elapsed)
        answer) ∧
      Implements ((Call.create ⟨uid, primaryKey⟩).run now repository).2 catalogue' := by
  have huid := h.represents uid.value
  cases hcatalogue : catalogue uid.value with
  | some entry =>
      rw [hcatalogue] at huid
      rw [run_create_taken huid]
      refine ⟨_, catalogue, .taken hcreate (by simp [hcatalogue]), fun received elapsed => ?_, h⟩
      exact saysAnswer_errorResponse (validUtf8_alreadyExists uid)
  | none =>
      rw [hcatalogue] at huid
      have hkeys := validUtf8_primaryKey hcreate
      have hafter := (represents_run h.represents (.create ⟨uid, primaryKey⟩) now).2
      rw [run_create_free huid] at hafter ⊢
      refine ⟨_, _, .created hcreate hcatalogue, fun received elapsed => ?_, hafter,
        keys_extend h.keys hkeys []⟩
      exact ⟨rfl, denotes_indexJson _, validUtf8_indexJson hkeys⟩

theorem handles_ingest {body : Bytes} {before : Ws} {batch : Json.Value} {after : Ws}
    (hbatch : IsBatch body before batch after) (uid : IndexUid)
    {repository : InMemoryIndexRepository} {catalogue : Catalogue}
    (h : Implements repository catalogue) (now : Timestamp) :
    let documents := batch.elements.map documentOf
    ∃ answer catalogue', Handles body now (.addDocuments uid.value) catalogue answer catalogue' ∧
      (∀ elapsed, SaysAnswer elapsed (((Call.ingest ⟨uid, documents⟩).run now
        repository).1.response documents.length elapsed) answer) ∧
      Implements ((Call.ingest ⟨uid, documents⟩).run now repository).2 catalogue' := by
  intro documents
  have hafter := (represents_run h.represents (.ingest ⟨uid, documents⟩) now).2
  have hprimaryKey : (storedOrNew repository now uid).metadata.primaryKey =
      (catalogue uid.value).bind fun entry => entry.1.primaryKey := by
    rw [storedOrNew, h.represents]
    cases catalogue uid.value <;> rfl
  refine ⟨_, _, .ingested hbatch, fun elapsed => ?_, hafter,
    keys_extend h.keys (by simp [indexCreatedAt]) _⟩
  rw [run_ingest_reply, hprimaryKey]
  have hlength : documents.length = batch.elements.length := List.length_map _
  dsimp only [Reply.response]
  rw [hlength]
  refine ⟨rfl, ?_, ?_⟩
  · exact denotes_ingestResultJson _ _ _
  · apply validUtf8_ingestResultJson
    intro key hkey
    obtain ⟨entry, hentry, hkey⟩ := Option.bind_eq_some_iff.mp hkey
    exact h.keys _ _ hentry key hkey

/-- A service's call does to the repository what the API does to the catalogue. -/
theorem handles_call {body : Bytes} {operation : Operation} {call : Call}
    (hstarts : operation.Starts body call) {repository : InMemoryIndexRepository}
    {catalogue : Catalogue} (h : Implements repository catalogue) (now : Timestamp) :
    ∃ answer catalogue', Handles body now operation catalogue answer catalogue' ∧
      (∀ elapsed, SaysAnswer elapsed
        ((call.run now repository).1.response (documentsOf call).length elapsed) answer) ∧
      Implements (call.run now repository).2 catalogue' := by
  cases hstarts with
  | create hcreate =>
      obtain ⟨answer, catalogue', hhandles, hsaid, hafter⟩ := handles_create hcreate h now
      exact ⟨answer, catalogue', hhandles, hsaid _, hafter⟩
  | ingest hbatch => exact handles_ingest hbatch _ h now

end Leta
