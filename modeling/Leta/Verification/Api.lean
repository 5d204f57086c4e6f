import Leta.Foundation.Machine
import Leta.Http.Dispatch
import Leta.Verification.Errors
import Leta.Verification.Routing

/-! # The API

A machine over catalogues: which messages ask for what, what is answered and what becomes of the
catalogue. -/

namespace Leta

open Httplib Json Ondemand

/-! ## The API -/

inductive Operation where
  | health
  | createIndex
  | addDocuments (uid : Bytes)

/-- The method and the path of the message ask for the operation. -/
inductive Asks (library : Library) (message : Message) : Operation → Prop where
  | health : library.lookedUpAs message.method = some .get → message.path = ascii "/health" →
      Asks library message .health
  | createIndex : library.lookedUpAs message.method = some .post →
      message.path = ascii "/indexes" → Asks library message .createIndex
  | addDocuments {uid} : library.lookedUpAs message.method = some .post → 0x2f ∉ uid →
      message.path = ascii "/indexes/" ++ uid ++ ascii "/documents" →
      Asks library message (.addDocuments uid)

inductive Answer where
  | available
  | created (index : IndexMetadata)
  | ingested (count : ℕ) (primaryKey : Option Bytes)
  | failed (error : Error)

/-- What a message got, and when. -/
structure ApiCall where
  message : Message
  now : Timestamp
  answer : Answer

/-- What an operation does with the body of a message. -/
inductive Handles (body : Bytes) (now : Timestamp) :
    Operation → Catalogue → Answer → Catalogue → Prop where
  | created {catalogue : Catalogue} {uid : IndexUid} {primaryKey} :
      IsCreateIndex body uid.value primaryKey → catalogue uid.value = none →
      Handles body now .createIndex catalogue (.created (indexCreatedAt now uid primaryKey))
        (catalogue.extend (indexCreatedAt now uid primaryKey) [])
  | taken {catalogue : Catalogue} {uid : IndexUid} {primaryKey} :
      IsCreateIndex body uid.value primaryKey → (catalogue uid.value).isSome →
      Handles body now .createIndex catalogue (.failed
        ⟨.indexAlreadyExists, InMemoryIndexRepository.alreadyExistsMessage uid⟩) catalogue
  | badIndex {catalogue error} :
      (∀ (uid : IndexUid) primaryKey, ¬ IsCreateIndex body uid.value primaryKey) →
      (IsMalformed error ∨ (∃ name, HasUnknownKey body name ∧ error = unknownField name) ∨
        (∃ uid primaryKey, IsCreateIndex body uid primaryKey ∧ ¬ HasUidForm uid) ∧
          error = invalidIndexUid) →
      Handles body now .createIndex catalogue (.failed error) catalogue
  | badUid {catalogue uid} : ¬ HasUidForm uid →
      Handles body now (.addDocuments uid) catalogue (.failed invalidIndexUid) catalogue
  | badBatch {catalogue error} {uid : IndexUid} :
      (∀ before batch after, ¬ IsBatch body before batch after) → IsMalformed error →
      Handles body now (.addDocuments uid.value) catalogue (.failed error) catalogue
  | ingested {catalogue : Catalogue} {uid : IndexUid} {before batch after} :
      IsBatch body before batch after →
      Handles body now (.addDocuments uid.value) catalogue (.ingested batch.elements.length
          ((catalogue uid.value).bind fun entry => entry.1.primaryKey))
        (catalogue.extend (indexCreatedAt now uid none) (batch.elements.map documentOf))

/-- What one message comes to. -/
inductive ApiStep (library : Library) : Catalogue → ApiCall → Catalogue → Prop where
  | refused {catalogue message now rejection} : library.Refuses message rejection →
      ApiStep library catalogue
        ⟨message, now, .failed (errorForLibraryStatus rejection.response.status)⟩ catalogue
  | notFound {catalogue message now} : (∀ operation, ¬ Asks library message operation) →
      ApiStep library catalogue
        ⟨message, now, .failed (errorForLibraryStatus 404)⟩ catalogue
  | health {catalogue message now} : Asks library message .health →
      ApiStep library catalogue ⟨message, now, .available⟩ catalogue
  | notJson {catalogue message now operation} : Asks library message operation →
      operation ≠ .health → ¬ NamesJson (headerValue message.headers contentTypeHeader) →
      ApiStep library catalogue ⟨message, now, .failed nonJsonBodyError⟩ catalogue
  | handled {catalogue message now operation answer catalogue'} :
      Asks library message operation →
      NamesJson (headerValue message.headers contentTypeHeader) →
      Handles message.body now operation catalogue answer catalogue' →
      ApiStep library catalogue ⟨message, now, answer⟩ catalogue'

/-- The API over catalogues, from the empty one. -/
def api (library : Library) : Machine Catalogue ApiCall where
  Initial catalogue := catalogue = fun _ => none
  Step := ApiStep library

/-! ## On the wire -/

namespace Answer

def status : Answer → ℕ
  | .available => 200
  | .created _ => 201
  | .ingested _ _ => 200
  | .failed error => (wireError error.code).status

/-- What the body of an answer says. -/
def data (elapsed : ℕ) : Answer → Data
  | .available => .object [(ascii "status", .string (ascii "available"))]
  | .created index => indexData index.uid.value index.primaryKey (dateTimeOf index.createdAt)
      (dateTimeOf index.updatedAt)
  | .ingested count primaryKey => ingestData count count primaryKey elapsed
  | .failed error => errorData error

/-- How it is written. -/
def response (elapsed : ℕ) : Answer → HttpResponse
  | .available => healthResponse .available
  | .created index => ⟨createdStatus, indexJson index⟩
  | .ingested count primaryKey =>
      ⟨okStatus, ingestResultJson count ⟨count, primaryKey⟩ elapsed⟩
  | .failed error => errorResponse error

theorem status_response (answer : Answer) (elapsed : ℕ) :
    (answer.response elapsed).status = answer.status := by
  cases answer <;> rfl

end Answer

/-- A handler's response says the answer. -/
structure SaysAnswer (elapsed : ℕ) (response : HttpResponse) (answer : Answer) : Prop where
  written : response = answer.response elapsed
  body : Denotes response.body (answer.data elapsed)
  utf8 : ValidUtf8 response.body

/-- The exchange is the call, and its response says the call's answer. -/
structure Says (exchange : Exchange) (call : ApiCall) : Prop where
  message : exchange.message = call.message
  now : exchange.now = call.now
  status : exchange.response.status = call.answer.status
  written : exchange.response.body = (call.answer.response exchange.elapsed).body
  body : Denotes exchange.response.body (call.answer.data exchange.elapsed)
  utf8 : ValidUtf8 exchange.response.body
  typed : IsJsonTyped exchange.response
  id : ∃ id, Carries exchange.response id ∧ IsRequestId (exchange.message.request []) id

/-! ## Bodies -/

theorem isCreateIndex_unique {body : Bytes} {uid uid' : IndexUid} {primaryKey primaryKey'}
    (h : IsCreateIndex body uid.value primaryKey)
    (h' : IsCreateIndex body uid'.value primaryKey') : uid = uid' ∧ primaryKey = primaryKey' := by
  have hparse := (@parseCreateIndexRequest_eq_ok _ reference_lawful body ⟨uid, primaryKey⟩).mpr h
  have hparse' :=
    (@parseCreateIndexRequest_eq_ok _ reference_lawful body ⟨uid', primaryKey'⟩).mpr h'
  rw [hparse, Except.ok.injEq, CreateIndexCommand.mk.injEq] at hparse'
  exact hparse'

theorem IsBatch.unique {body : Bytes} {before before' : Ws} {batch batch' : Json.Value}
    {after after' : Ws} (h : IsBatch body before batch after)
    (h' : IsBatch body before' batch' after') : batch = batch' :=
  (text_unique (h.text.symm.trans h'.text)).2.1

/-- A request for an index that is not there creates it. -/
theorem Handles.creates {body : Bytes} {now : Timestamp} {catalogue after : Catalogue}
    {answer : Answer} (h : Handles body now .createIndex catalogue answer after) {uid : IndexUid}
    {primaryKey : Option Bytes} (hcreate : IsCreateIndex body uid.value primaryKey)
    (hfree : catalogue uid.value = none) :
    answer = .created (indexCreatedAt now uid primaryKey) ∧
      after = catalogue.extend (indexCreatedAt now uid primaryKey) [] := by
  cases h with
  | created hcreate' _ =>
      obtain ⟨rfl, rfl⟩ := isCreateIndex_unique hcreate hcreate'
      exact ⟨rfl, rfl⟩
  | taken hcreate' htaken =>
      obtain ⟨rfl, -⟩ := isCreateIndex_unique hcreate hcreate'
      simp [hfree] at htaken
  | badIndex hnone _ => exact absurd hcreate (hnone _ _)

/-- A batch is ingested. -/
theorem Handles.ingests {body : Bytes} {now : Timestamp} {uid : IndexUid}
    {catalogue after : Catalogue} {answer : Answer}
    (h : Handles body now (.addDocuments uid.value) catalogue answer after) {front : Ws}
    {batch : Json.Value} {back : Ws} (hbatch : IsBatch body front batch back) :
    answer = .ingested batch.elements.length
        ((catalogue uid.value).bind fun entry => entry.1.primaryKey) ∧
      after = catalogue.extend (indexCreatedAt now uid none) (batch.elements.map documentOf) := by
  generalize hvalue : uid.value = segment at h ⊢
  cases h with
  | badUid hform => exact absurd (hvalue ▸ uid.form) hform
  | badBatch hnone _ => exact absurd hbatch (hnone _ _ _)
  | ingested hbatch' =>
      obtain rfl := IndexUid.ext hvalue
      obtain rfl := hbatch.unique hbatch'
      exact ⟨rfl, rfl⟩

/-! ## Paths -/

/-- The route that an operation asks for. -/
def Operation.route : Operation → MainRoute
  | .health => .health
  | .createIndex => .createIndex
  | .addDocuments _ => .addDocuments

theorem fits_health (path : Bytes) : MainRoute.health.path.Fits path ↔ path = ascii "/health" := by
  rw [fits_iff_eq (by decide)]
  rfl

theorem fits_createIndex (path : Bytes) :
    MainRoute.createIndex.path.Fits path ↔ path = ascii "/indexes" := by
  rw [fits_iff_eq (by decide)]
  rfl

theorem not_mem_of_mem_splitOn {text part : Bytes} {separator : UInt8}
    (h : part ∈ text.splitOn separator) : separator ∉ part := by
  induction text generalizing part with
  | nil =>
      obtain rfl : part = [] := by simpa using h
      exact List.not_mem_nil
  | cons b text ih =>
      rw [List.splitOn_cons_eq_if_modifyHead] at h
      split_ifs at h with hb
      · rcases List.mem_cons.mp h with rfl | h
        · exact List.not_mem_nil
        · exact ih h
      · cases hsplit : text.splitOn separator with
        | nil => exact absurd hsplit (List.splitOn_ne_nil _ _)
        | cons first parts =>
            rw [hsplit, List.modifyHead_cons] at h
            rw [hsplit] at ih
            rcases List.mem_cons.mp h with rfl | h
            · rw [List.mem_cons, not_or]
              refine ⟨fun heq => hb ?_, ih List.mem_cons_self⟩
              simp [heq]
            · exact ih (List.mem_cons_of_mem _ h)

theorem fits_addDocuments (path : Bytes) : MainRoute.addDocuments.path.Fits path ↔
    ∃ uid, 0x2f ∉ uid ∧ path.splitOn 0x2f = [[], ascii "indexes", uid, ascii "documents"] := by
  rw [RoutePath.Fits]
  constructor
  · intro h
    generalize hparts : path.splitOn 0x2f = parts at h
    cases h with | cons hempty h =>
    cases h with | cons hindexes h =>
    cases h with | @cons _ uid _ _ _ h =>
    cases h with | cons hdocuments h =>
    cases h
    refine ⟨uid, not_mem_of_mem_splitOn (?_ : uid ∈ path.splitOn 0x2f), ?_⟩
    · simp [hparts]
    · rw [hempty, hindexes, hdocuments]
  · rintro ⟨uid, -, hsplit⟩
    rw [hsplit]
    exact .cons rfl (.cons rfl (.cons trivial (.cons rfl .nil)))

theorem splitOn_documentsPath {uid : Bytes} (h : 0x2f ∉ uid) (path : Bytes) :
    path.splitOn 0x2f = [[], ascii "indexes", uid, ascii "documents"] ↔
      path = ascii "/indexes/" ++ uid ++ ascii "/documents" := by
  have htext : ([0x2f] : Bytes).intercalate [[], ascii "indexes", uid, ascii "documents"] =
      ascii "/indexes/" ++ uid ++ ascii "/documents" := by
    simp [List.intercalate, ascii]
  rw [← htext]
  constructor
  · intro hsplit
    rw [← hsplit, List.intercalate_splitOn]
  · rintro rfl
    apply splitOn_of_segments _ (List.cons_ne_nil _ _)
    simp [h, ascii]

/-! ## Dispatch -/

variable {S : Ondemand} {library : Library} {message : Message} {now : Timestamp} {elapsed : ℕ}
  {faults : Faults}

variable (S now elapsed faults) in
/-- Every route that main registers is matched as the port promises. -/
theorem matchedExactly_route (laws : library.Lawful) (route : MainRoute) :
    MatchedExactly library.matching route.path
      (toLibraryPattern (route.route S now elapsed faults).path) := by
  rw [MainRoute.path_text]
  exact matchedExactly_of_isPlain laws.matching route.isPlain

theorem takes_route_iff (laws : library.Lawful) (route : MainRoute) :
    (∃ params, Takes library message (route.route S now elapsed faults) params) ↔
      library.lookedUpAs message.method = some route.method ∧ route.path.Fits message.path := by
  have hmethod : (route.route S now elapsed faults).method = route.method := by cases route <;> rfl
  have hmatched := (matchedExactly_route S now elapsed faults laws route).matched message.path
  rw [← hmatched, ← hmethod]
  constructor
  · rintro ⟨params, htakes⟩
    exact ⟨htakes.method, params, htakes.path⟩
  · rintro ⟨hmethod, params, hpath⟩
    exact ⟨params, hmethod, hpath⟩

theorem asks_iff (operation : Operation) : Asks library message operation ↔
    library.lookedUpAs message.method = some operation.route.method ∧
      match operation with
      | .health => message.path = ascii "/health"
      | .createIndex => message.path = ascii "/indexes"
      | .addDocuments uid => 0x2f ∉ uid ∧
          message.path = ascii "/indexes/" ++ uid ++ ascii "/documents" := by
  constructor
  · rintro (⟨hmethod, hpath⟩ | ⟨hmethod, hpath⟩ | ⟨hmethod, huid, hpath⟩)
    · exact ⟨hmethod, hpath⟩
    · exact ⟨hmethod, hpath⟩
    · exact ⟨hmethod, huid, hpath⟩
  · cases operation with
    | health => exact fun h => .health h.1 h.2
    | createIndex => exact fun h => .createIndex h.1 h.2
    | addDocuments uid => exact fun h => .addDocuments h.1 h.2.1 h.2.2

/-- A route takes the messages that ask for one of its operations. -/
theorem takes_iff_asks (laws : library.Lawful) (route : MainRoute) :
    (∃ params, Takes library message (route.route S now elapsed faults) params) ↔
      ∃ operation, Asks library message operation ∧ operation.route = route := by
  rw [takes_route_iff laws]
  constructor
  · rintro ⟨hmethod, hfits⟩
    cases route with
    | health => exact ⟨.health, .health hmethod ((fits_health _).mp hfits), rfl⟩
    | createIndex => exact ⟨.createIndex, .createIndex hmethod ((fits_createIndex _).mp hfits), rfl⟩
    | addDocuments =>
        obtain ⟨uid, huid, hsplit⟩ := (fits_addDocuments _).mp hfits
        exact ⟨.addDocuments uid,
          .addDocuments hmethod huid ((splitOn_documentsPath huid _).mp hsplit), rfl⟩
  · rintro ⟨operation, hasks, rfl⟩
    obtain ⟨hmethod, hpath⟩ := (asks_iff operation).mp hasks
    refine ⟨hmethod, ?_⟩
    cases operation with
    | health => exact (fits_health _).mpr hpath
    | createIndex => exact (fits_createIndex _).mpr hpath
    | addDocuments uid =>
        exact (fits_addDocuments _).mpr
          ⟨uid, hpath.1, (splitOn_documentsPath hpath.1 _).mpr hpath.2⟩

/-- A message asks for one operation at most. -/
theorem Asks.unique {operation operation' : Operation} (h : Asks library message operation)
    (h' : Asks library message operation') : operation = operation' := by
  obtain ⟨hmethod, hpath⟩ := (asks_iff operation).mp h
  obtain ⟨hmethod', hpath'⟩ := (asks_iff operation').mp h'
  rw [hmethod, Option.some.injEq] at hmethod'
  have hlonger : ∀ uid, ascii "/indexes" ≠ ascii "/indexes/" ++ uid ++ ascii "/documents" := by
    intro uid heq
    have hlength := congrArg List.length heq
    simp [ascii] at hlength
  cases operation with
  | health =>
      cases operation' with
      | health => rfl
      | createIndex => cases hmethod'
      | addDocuments uid => cases hmethod'
  | createIndex =>
      cases operation' with
      | health => cases hmethod'
      | createIndex => rfl
      | addDocuments uid => exact absurd (hpath.symm.trans hpath'.2) (hlonger uid)
  | addDocuments uid =>
      cases operation' with
      | health => cases hmethod'
      | createIndex => exact absurd (hpath'.symm.trans hpath.2) (hlonger uid)
      | addDocuments uid' =>
          have huid := List.append_cancel_right (hpath.2.symm.trans hpath'.2)
          rw [List.append_cancel_left huid]

/-- The library does not refuse the message. -/
def Library.Passes (library : Library) (message : Message) : Prop :=
  ∀ rejection, ¬ library.Refuses message rejection

/-- What is let through, asks for an operation and is JSON, is handled. -/
theorem ApiStep.handles {operation : Operation} {catalogue after : Catalogue} {answer : Answer}
    (h : ApiStep library catalogue ⟨message, now, answer⟩ after)
    (hpasses : Library.Passes library message) (hasks : Asks library message operation)
    (hoperation : operation ≠ .health)
    (hjson : NamesJson (headerValue message.headers contentTypeHeader)) :
    Handles message.body now operation catalogue answer after := by
  cases h with
  | refused hrefuses => exact absurd hrefuses (hpasses _)
  | notFound hnone => exact absurd hasks (hnone _)
  | health hasks' => exact absurd (hasks.unique hasks') hoperation
  | notJson _ _ hjson' => exact absurd hjson hjson'
  | handled hasks' _ hhandles =>
      obtain rfl := hasks.unique hasks'
      exact hhandles

/-- The parameter that the handler reads is the uid that the message asks for. -/
theorem pathParameter_uid (laws : library.Lawful) {uid id : Bytes} {params : List (Bytes × Bytes)}
    (hasks : Asks library message (.addDocuments uid))
    (htakes : Takes library message (MainRoute.addDocuments.route S now elapsed faults) params) :
    pathParameter (neutralRequest (MainRoute.addDocuments.route S now elapsed faults)
      (message.request params) id) uidParameter = uid := by
  obtain ⟨-, huid, hpath⟩ := (asks_iff _).mp hasks
  have hmatched := matchedExactly_route S now elapsed faults laws .addDocuments
  apply hmatched.read message.path params htakes.path ⟨uidParameter, rfl⟩ uid _
    (message.request params) _ rfl rfl
  rw [(splitOn_documentsPath huid _).mpr hpath]
  simp [MainRoute.path]

end Leta
