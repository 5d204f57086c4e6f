import Leta.Http.Routes
import Leta.Verification.RequestIds
import Leta.Verification.Requests

/-! # Errors on the wire

Every error that leaves the server has the documented body, whoever wrote it. -/

namespace Leta

open Httplib Json Ondemand

variable {library : Library}

/-! ## The error response -/

/-- The response has one content type, which is JSON's. -/
def IsJsonTyped (response : Httplib.Response) : Prop :=
  response.headers.filter (isNamed contentTypeHeader) = [(contentTypeHeader, jsonMediaType)]

/-- The response is an error of the documented form. -/
structure IsErrorResponse (response : Httplib.Response) : Prop where
  typed : IsJsonTyped response
  body : ∃ error : Error, response.status = (wireError error.code).status ∧
    Denotes response.body (errorData error) ∧ ValidUtf8 error.message

theorem isJsonTyped_writeResponse (laws : library.Lawful) (out : Httplib.Response)
    (answer : HttpResponse) : IsJsonTyped (writeResponse library out answer) :=
  (sets_writeResponse library laws out answer).named

theorem isErrorResponse_writeResponse (laws : library.Lawful) (out : Httplib.Response)
    {error : Error} (h : ValidUtf8 error.message) :
    IsErrorResponse (writeResponse library out (errorResponse error)) where
  typed := isJsonTyped_writeResponse laws _ _
  body := by
    refine ⟨error, status_writeResponse laws _ _, ?_, h⟩
    rw [body_writeResponse laws]
    exact denotes_errorResponse error

/-- A response of the documented form keeps it when it gets its request id. -/
theorem IsErrorResponse.setHeader (laws : library.Lawful) {response : Httplib.Response}
    (h : IsErrorResponse response)
    (hnone : response.headers.filter (isNamed requestIdHeader) = []) {id : Bytes}
    (hid : HasRequestIdForm id) :
    IsErrorResponse (library.setHeader response requestIdHeader id) := by
  have hsets := laws.setHeader_sets hnone hid.isFieldText
  constructor
  · exact (hsets.filter_other fun _ => not_isNamed_requestId).trans h.typed
  · rw [hsets.status, hsets.body]
    exact h.body

/-! ## The library's statuses -/

theorem validUtf8_errorForLibraryStatus (status : ℤ) :
    ValidUtf8 (errorForLibraryStatus status).message := by
  rw [errorForLibraryStatus]
  split_ifs <;> exact .of_all (by decide)

/-- A status keeps its class. -/
theorem status_errorForLibraryStatus {status : ℤ} (h : 400 ≤ status) :
    let answer := errorResponse (errorForLibraryStatus status)
    (status < 500 → 400 ≤ answer.status ∧ answer.status < 500) ∧
      (500 ≤ status → answer.status = 500) := by
  rw [errorForLibraryStatus]
  split_ifs with hnotFound htooLarge hinternal <;> simp [errorResponse, wireError] <;> omega

/-! ## The handlers -/

/-- An answer has a body, and is the response of an error when its status says so. -/
structure AnswersErrors (answer : HttpResponse) : Prop where
  body : answer.body ≠ []
  error : 400 ≤ answer.status → ∃ error : Error,
    answer = errorResponse error ∧ ValidUtf8 error.message

theorem answersErrors_errorResponse {error : Error} (h : ValidUtf8 error.message) :
    AnswersErrors (errorResponse error) :=
  ⟨body_errorResponse_ne_nil error, fun _ => ⟨error, rfl, h⟩⟩

variable {S : Ondemand}

theorem answersErrors_createIndexResponse (laws : S.Lawful) (now : Timestamp) (body : Bytes)
    (repository : InMemoryIndexRepository) :
    AnswersErrors (createIndexResponse S now body repository).1 := by
  rcases createIndexResponse_cases (S := S) now body repository with
    ⟨error, hparse, hcase⟩ | ⟨command, stored, -, -, hcase⟩ | ⟨command, -, -, hcase⟩ <;> rw [hcase]
  · exact answersErrors_errorResponse (validUtf8_createIndexError laws hparse)
  · exact answersErrors_errorResponse (validUtf8_alreadyExists command.uid)
  · refine ⟨?_, fun h => absurd h (by simp [createdStatus])⟩
    dsimp only
    rw [body_indexJson]
    exact List.cons_ne_nil _ _

theorem answersErrors_addDocumentsResponse (laws : S.Lawful) (now : Timestamp) (elapsed : ℕ)
    (uid body : Bytes) (repository : InMemoryIndexRepository) :
    AnswersErrors (addDocumentsResponse S now elapsed uid body repository).1 := by
  rcases addDocumentsResponse_cases (S := S) now elapsed uid body repository with
    ⟨-, hcase⟩ | ⟨error, -, hparse, hcase⟩ | ⟨uid, documents, -, -, hcase⟩ <;> rw [hcase]
  · exact answersErrors_errorResponse (.of_all (by decide))
  · exact answersErrors_errorResponse (parseDocumentBatch_eq_error laws hparse).validUtf8
  · refine ⟨?_, fun h => absurd h (by simp [okStatus])⟩
    dsimp only
    rw [body_ingestResultJson]
    exact List.cons_ne_nil _ _

/-- The health route's own answer while the process starts. -/
def startingResponse : HttpResponse := ⟨unavailableStatus, startingBody⟩

theorem respond_cases (laws : S.Lawful) (now : Timestamp) (elapsed : ℕ) (route : MainRoute)
    (request : HttpRequest) (application : Application) :
    (route = .health ∧ (route.respond S now elapsed request application).1 = startingResponse) ∨
      AnswersErrors (route.respond S now elapsed request application).1 := by
  cases route with
  | health =>
      change (_ ∧ healthResponse application.readiness = _) ∨
        AnswersErrors (healthResponse application.readiness)
      cases application.readiness with
      | starting => exact .inl ⟨rfl, rfl⟩
      | available => exact .inr ⟨by decide, fun h => absurd h (by decide)⟩
  | createIndex => exact .inr (answersErrors_createIndexResponse laws _ _ _)
  | addDocuments => exact .inr (answersErrors_addDocumentsResponse laws _ _ _ _ _)

/-! ## Requests -/

variable {ε : Type} {draw : ε → UInt64 × ε}

/-- A refusal of the content type and a handler's exception are errors of ours. -/
theorem isErrorResponse_routeResponse (laws : library.Lawful) (id : Bytes) {error : Error}
    (h : ValidUtf8 error.message) :
    IsErrorResponse (routeResponse library id (errorResponse error)) :=
  isErrorResponse_writeResponse laws _ h

/-- What becomes of a status of 400 or more that the library sets without a body. -/
structure AnswersStatus (library : Library) (status : ℤ) (response : Httplib.Response) : Prop where
  error : IsErrorResponse response
  below : status < 500 → 400 ≤ response.status ∧ response.status < 500
  above : 500 ≤ status → response.status = 500
  settled : fillLibraryError library response = (.unhandled, response)

theorem answersStatus_applyError (laws : library.Lawful) {response : Httplib.Response}
    (hstatus : 400 ≤ response.status) (hbody : response.body = []) :
    AnswersStatus library response.status
      ((installHooks library draw).applyError response) := by
  obtain ⟨hbelow, habove⟩ := status_errorForLibraryStatus hstatus
  rw [applyError_of_empty hstatus hbody]
  refine ⟨isErrorResponse_writeResponse laws _ (validUtf8_errorForLibraryStatus _),
    fun hlt => ?_, fun hge => ?_, fillLibraryError_of_body ?_⟩
  · rw [status_writeResponse laws]
    exact_mod_cast hbelow hlt
  · rw [status_writeResponse laws]
    exact_mod_cast habove hge
  · rw [body_writeResponse laws]
    exact body_errorResponse_ne_nil _

/-- It stays what it is when it gets its request id. -/
theorem AnswersStatus.setHeader (laws : library.Lawful) {status : ℤ} {response : Httplib.Response}
    (h : AnswersStatus library status response)
    (hnone : response.headers.filter (isNamed requestIdHeader) = []) {id : Bytes}
    (hid : HasRequestIdForm id) :
    AnswersStatus library status (library.setHeader response requestIdHeader id) := by
  have hsets := laws.setHeader_sets hnone hid.isFieldText
  refine ⟨h.error.setHeader laws hnone hid, ?_, ?_, fillLibraryError_of_body ?_⟩
  · rw [hsets.status]
    exact h.below
  · rw [hsets.status]
    exact h.above
  · rw [hsets.body]
    intro hempty
    have hsettled := h.settled
    rw [fillLibraryError, if_neg (by simp [hempty])] at hsettled
    cases (Prod.ext_iff.mp hsettled).1

/-- What a client learns of an exception. -/
def exceptionResponse : HttpResponse := errorResponse ⟨.internal, ascii "Internal error."⟩

/-- What a route of main answers. An error that it wrote itself is left as it is, and so is a
success, unless the library makes a status of its own of it. -/
structure AnswersAsRoute (S : Ondemand) (library : Library) (now : Timestamp) (elapsed : ℕ)
    (faults : Faults) (route : MainRoute) (request : Httplib.Request) (application : Application)
    (served : Served ε Application) (id : Bytes) : Prop where
  error : 400 ≤ served.response.status → IsErrorResponse served.response ∨
    (route = .health ∧ served.response.status = 503 ∧ served.response.body = startingBody)
  unchanged : Admits (route.route S now elapsed faults) request → ∀ answer after,
    (route.route S now elapsed faults).handler
      (neutralRequest (route.route S now elapsed faults) request id) application =
        (.ok answer, after) →
    400 ≤ answer.status ∨ library.amends request (routeResponse library id answer) =
      routeResponse library id answer →
    served.response = routeResponse library id answer
  amended : Admits (route.route S now elapsed faults) request → ∀ answer after,
    (route.route S now elapsed faults).handler
      (neutralRequest (route.route S now elapsed faults) request id) application =
        (.ok answer, after) →
    library.amends request (routeResponse library id answer) ≠ routeResponse library id answer →
    AnswersStatus library (library.amends request (routeResponse library id answer)).status
      served.response
  refused : ¬ Admits (route.route S now elapsed faults) request →
    served.response = routeResponse library id (errorResponse nonJsonBodyError)
  threw : Admits (route.route S now elapsed faults) request → ∀ exception after,
    (route.route S now elapsed faults).handler
      (neutralRequest (route.route S now elapsed faults) request id) application =
        (.error exception, after) →
    served.response = routeResponse library id exceptionResponse

theorem handler_route (now : Timestamp) (elapsed : ℕ) (faults : Faults) (route : MainRoute) :
    (route.route S now elapsed faults).handler =
      interrupted faults (route.respond S now elapsed) := by
  cases route <;> rfl

theorem respond_of_returned {faults : Faults}
    {respond : HttpRequest → Application → HttpResponse × Application} {request : HttpRequest}
    {application after : Application} {answer : HttpResponse}
    (h : interrupted faults respond request application = (.ok answer, after)) :
    answer = (respond request application).1 := by
  rw [interrupted] at h
  split at h
  · cases h
  · cases h
    rfl

variable (draw) in
/-- What an answer becomes on its way to the client. -/
theorem applyError_amends (laws : library.Lawful) (id : Bytes) (request : Httplib.Request)
    {answer : HttpResponse} (hbody : answer.body ≠ []) :
    (library.amends request (routeResponse library id answer) = routeResponse library id answer ∧
      (installHooks library draw).applyError
        (library.amends request (routeResponse library id answer)) =
          routeResponse library id answer) ∨
    ¬ 400 ≤ answer.status ∧
      AnswersStatus library (library.amends request (routeResponse library id answer)).status
        ((installHooks library draw).applyError
          (library.amends request (routeResponse library id answer))) := by
  rcases laws.amends_cases request (routeResponse library id answer) with
    hsame | ⟨⟨-, hsuccess⟩, status, hstatus, hamended⟩
  · refine .inl ⟨hsame, ?_⟩
    rw [hsame, applyError_of_body (by rwa [body_routeResponse laws])]
  · refine .inr ⟨?_, answersStatus_applyError laws ?_ ?_⟩
    · rw [status_routeResponse laws] at hsuccess
      omega
    · rw [hamended]
      exact hstatus
    · rw [hamended]

variable (draw) in
theorem answersAsRoute (laws : S.Lawful) (libraryLaws : library.Lawful) (now : Timestamp)
    (elapsed : ℕ) (faults : Faults) (route : MainRoute) (request : Httplib.Request) (engine : ε)
    (application : Application) :
    AnswersAsRoute S library now elapsed faults route request application
      (processRequest library draw (.route (route.route S now elapsed faults)) request engine
        application)
      (resolveRequestId library draw request engine).1 := by
  by_cases hadmits : Admits (route.route S now elapsed faults) request
  · rcases hrun : (route.route S now elapsed faults).handler
      (neutralRequest (route.route S now elapsed faults) request
        (resolveRequestId library draw request engine).1) application with
      ⟨exception | answer, after⟩
    · rw [processRequest_threw libraryLaws hadmits hrun]
      refine ⟨fun _ => .inl ?_, fun _ answer after' hanswer => ?_,
        fun _ answer after' hanswer => ?_,
        fun h => absurd hadmits h, fun _ _ _ _ => rfl⟩
      · exact isErrorResponse_routeResponse libraryLaws _ (.of_all (by decide))
      · rw [hrun] at hanswer
        cases hanswer
      · rw [hrun] at hanswer
        cases hanswer
    · rw [processRequest_returned libraryLaws hadmits hrun]
      have hanswer := hrun
      rw [handler_route] at hanswer
      have hrespond := respond_cases laws now elapsed route (neutralRequest
        (route.route S now elapsed faults) request
          (resolveRequestId library draw request engine).1) application
      rw [← respond_of_returned hanswer] at hrespond
      have hbody : answer.body ≠ [] := by
        rcases hrespond with ⟨-, rfl⟩ | h
        · decide
        · exact h.body
      have hsent := applyError_amends draw libraryLaws
        (resolveRequestId library draw request engine).1 request hbody
      refine ⟨fun hstatus => ?_, fun _ answer' after' hanswer' hleft => ?_,
        fun _ answer' after' hanswer' hamended => ?_, fun h => absurd hadmits h,
        fun _ exception after' hthrew => ?_⟩
      · rcases hsent with ⟨-, hunchanged⟩ | ⟨-, hstatus'⟩
        · dsimp only at hstatus ⊢
          rw [hunchanged] at hstatus ⊢
          rw [status_routeResponse libraryLaws] at hstatus ⊢
          rw [body_routeResponse libraryLaws]
          rcases hrespond with ⟨rfl, rfl⟩ | h
          · exact .inr ⟨rfl, rfl, rfl⟩
          · obtain ⟨error, rfl, hvalid⟩ := h.error (by exact_mod_cast hstatus)
            exact .inl (isErrorResponse_routeResponse libraryLaws _ hvalid)
        · exact .inl hstatus'.error
      · rw [hrun] at hanswer'
        cases hanswer'
        rcases hsent with ⟨-, hunchanged⟩ | ⟨hsuccess, hstatus'⟩
        · exact hunchanged
        · have hsame := hleft.resolve_left hsuccess
          dsimp only
          rw [hsame, applyError_of_body (by rwa [body_routeResponse libraryLaws])]
      · rw [hrun] at hanswer'
        cases hanswer'
        exact (hsent.resolve_left fun h => hamended h.1).2
      · rw [hrun] at hthrew
        cases hthrew
  · rw [processRequest_refused libraryLaws hadmits]
    exact ⟨fun _ => .inl (isErrorResponse_routeResponse libraryLaws _ (.of_all (by decide))),
      fun h => absurd h hadmits, fun h => absurd h hadmits, fun _ => rfl,
      fun h => absurd h hadmits⟩

/-- The library refused the request with a status of 400 or more and wrote no body. -/
structure IsEmptyError (rejection : Rejection) : Prop where
  status : 400 ≤ rejection.response.status
  body : rejection.response.body = []

theorem answersStatus_rejected (laws : library.Lawful) {rejection : Rejection}
    (h : IsEmptyError rejection) (request : Httplib.Request) (engine : ε)
    (application : Application) :
    AnswersStatus library rejection.response.status
      (processRequest library draw (.rejected rejection) request engine application).response := by
  have hid := (isRequestId_resolveRequestId draw laws request engine).hasRequestIdForm
  rw [processRequest_rejected laws]
  exact (answersStatus_applyError laws h.status h.body).setHeader laws
    ((filter_applyError laws _).trans rejection.noRequestId) hid

/-- The route's handler ran and threw. -/
def Threw (library : Library) (draw : ε → UInt64 × ε) (route : Route Application)
    (request : Httplib.Request) (engine : ε) (application : Application) : Prop :=
  Admits route request ∧ ∃ exception after, route.handler
    (neutralRequest route request (resolveRequestId library draw request engine).1) application =
      (.error exception, after)

theorem response_of_threw (laws : library.Lawful) {route : Route Application}
    {request : Httplib.Request} {engine : ε} {application : Application}
    (h : Threw library draw route request engine application) :
    (processRequest library draw (.route route) request engine application).response =
      routeResponse library (resolveRequestId library draw request engine).1
        exceptionResponse := by
  obtain ⟨hadmits, exception, after, hthrew⟩ := h
  rw [processRequest_threw laws hadmits hthrew]
  rfl

/-- Two responses to a request are the same, except for the ids that were generated for them. -/
structure AgreeUpToId (request : Httplib.Request) (first second : Httplib.Response) : Prop where
  status : first.status = second.status
  body : first.body = second.body
  headers : (first.headers.filter fun header => !isNamed requestIdHeader header) =
    second.headers.filter fun header => !isNamed requestIdHeader header
  echoed : HasRequestIdForm (headerValue request.headers requestIdHeader) → first = second

/-- Besides its request id, a route's response has the content type alone. -/
theorem filter_routeResponse (laws : library.Lawful) {id : Bytes} (hid : HasRequestIdForm id)
    (answer : HttpResponse) :
    ((routeResponse library id answer).headers.filter fun header =>
      !isNamed requestIdHeader header) = [(contentTypeHeader, jsonMediaType)] := by
  have hid : SetsHeader Response.fresh requestIdHeader id
      (library.setHeader Response.fresh requestIdHeader id) :=
    laws.setHeader_sets rfl hid.isFieldText
  have hwritten := sets_writeResponse library laws
    (library.setHeader Response.fresh requestIdHeader id) answer
  rw [← hwritten.named]
  apply List.filter_congr
  intro header hmem
  cases htype : isNamed contentTypeHeader header with
  | true => simp [not_isNamed_requestId htype]
  | false =>
      -- The header was there before the body was written, when there was only the id.
      have hkept : header ∈ (routeResponse library id answer).headers.filter
          (fun header => !isNamed contentTypeHeader header) :=
        List.mem_filter.mpr ⟨hmem, by simp [htype]⟩
      rw [routeResponse, hwritten.others] at hkept
      by_contra hnamed
      have hother : header ∈ (library.setHeader Response.fresh requestIdHeader id).headers.filter
          (fun header => !isNamed requestIdHeader header) :=
        List.mem_filter.mpr ⟨(List.mem_filter.mp hkept).1, by simpa using hnamed⟩
      rw [hid.others] at hother
      cases hother

theorem agreeUpToId_routeResponse (laws : library.Lawful) {request : Httplib.Request}
    {first second : Bytes} (hfirst : IsRequestId request first)
    (hsecond : IsRequestId request second) (answer : HttpResponse) :
    AgreeUpToId request (routeResponse library first answer)
      (routeResponse library second answer) where
  status := by rw [status_routeResponse laws, status_routeResponse laws]
  body := by rw [body_routeResponse laws, body_routeResponse laws]
  headers := by
    rw [filter_routeResponse laws hfirst.hasRequestIdForm,
      filter_routeResponse laws hsecond.hasRequestIdForm]
  echoed hform := by rw [hfirst.echoed hform, hsecond.echoed hform]

/-- Whichever way a request to main's server ends, an error is of the documented form, and nothing
of an exception is in it. -/
theorem errors_served (laws : S.Lawful) (libraryLaws : library.Lawful) (draw : ε → UInt64 × ε)
    (now : Timestamp) (elapsed : ℕ) (request : Httplib.Request) :
    (∀ faults route engine application,
      AnswersAsRoute S library now elapsed faults route request application
        (processRequest library draw (.route (route.route S now elapsed faults)) request engine
          application)
        (resolveRequestId library draw request engine).1) ∧
    (∀ rejection engine (application : Application), IsEmptyError rejection →
      AnswersStatus library rejection.response.status
        (processRequest library draw (.rejected rejection) request engine
          application).response) ∧
    ∀ (route : MainRoute) (faults faults' : Faults) (engine engine' : ε)
      (application application' : Application),
      let first := route.route S now elapsed faults
      let second := route.route S now elapsed faults'
      Threw library draw first request engine application →
      Threw library draw second request engine' application' →
        AgreeUpToId request
          (processRequest library draw (.route first) request engine application).response
          (processRequest library draw (.route second) request engine'
            application').response := by
  refine ⟨?_, ?_, ?_⟩
  · intro faults route engine application
    exact answersAsRoute draw laws libraryLaws now elapsed faults route request engine application
  · intro rejection engine application hempty
    exact answersStatus_rejected libraryLaws hempty request engine application
  · intro route faults faults' engine engine' application application' first second hfirst hsecond
    rw [response_of_threw libraryLaws hfirst, response_of_threw libraryLaws hsecond]
    exact agreeUpToId_routeResponse libraryLaws (isRequestId_resolveRequestId draw libraryLaws _ _)
      (isRequestId_resolveRequestId draw libraryLaws _ _) _

/-- The library's 404, and two exceptions in the health route. -/
theorem errors_served_reference :
    AnswersStatus (referenceLibrary 100) 404
      (processRequest (referenceLibrary 100) (fun _ => (0, ())) (.rejected ⟨⟨404, [], []⟩, rfl⟩)
        ⟨ascii "/", [], [], []⟩ () (⟨.available, .empty⟩ : Application)).response ∧
    AgreeUpToId ⟨ascii "/health", [], [], []⟩
      (processRequest (referenceLibrary 100) (fun _ => (1, ())) (.route (MainRoute.route reference
        0 0 (fun _ application => some (.other, application)) .health))
        ⟨ascii "/health", [], [], []⟩ () ⟨.available, .empty⟩).response
      (processRequest (referenceLibrary 100) (fun _ => (1, ())) (.route (MainRoute.route reference
        0 0 (fun _ application => some (.standard (ascii "secret"), application)) .health))
        ⟨ascii "/health", [], [], []⟩ () ⟨.available, .empty⟩).response := by
  have hrejected := (errors_served reference_lawful (referenceLibrary_lawful 100)
    (fun _ : Unit => (0, ())) 0 0 ⟨ascii "/", [], [], []⟩).2.1
  have hthrew := (errors_served reference_lawful (referenceLibrary_lawful 100)
    (fun _ : Unit => (1, ())) 0 0 ⟨ascii "/health", [], [], []⟩).2.2
  constructor
  · exact hrejected ⟨⟨404, [], []⟩, rfl⟩ _ _ ⟨by decide, rfl⟩
  · exact hthrew .health _ _ _ _ _ _ ⟨.inl rfl, _, _, rfl⟩ ⟨.inl rfl, _, _, rfl⟩

end Leta
