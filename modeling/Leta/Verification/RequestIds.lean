import Leta.Http.Server
import Leta.Verification.Responses

/-! # Request ids

Every response carries one id, the one that the handler saw and the log names. -/

namespace Leta

open Httplib Json

variable {ε σ : Type} {library : Library} {draw : ε → UInt64 × ε}

/-! ## The header -/

/-- The response has one request id. -/
def Carries (response : Httplib.Response) (id : Bytes) : Prop :=
  response.headers.filter (isNamed requestIdHeader) = [(requestIdHeader, id)]

theorem Carries.value (laws : library.Lawful) {response : Httplib.Response} {id : Bytes}
    (h : Carries response id) : library.getHeaderValue response.headers requestIdHeader = id := by
  rw [laws.getHeaderValue_eq, headerValue, h]
  rfl

theorem Carries.hasHeader (laws : library.Lawful) {response : Httplib.Response} {id : Bytes}
    (h : Carries response id) : library.hasHeader response.headers requestIdHeader = true := by
  rw [laws.hasHeader_iff, h]
  exact List.cons_ne_nil _ _

/-- The two headers that are written have different names. -/
theorem not_isNamed_requestId {header : Bytes × Bytes} (h : isNamed contentTypeHeader header) :
    isNamed requestIdHeader header = false := by
  rw [isNamed, equalsIgnoringAsciiCase_iff] at h
  rw [isNamed, equalsIgnoringAsciiCase, h]
  decide

theorem not_isNamed_contentType {header : Bytes × Bytes} (h : isNamed requestIdHeader header) :
    isNamed contentTypeHeader header = false := by
  rw [isNamed, equalsIgnoringAsciiCase_iff] at h
  rw [isNamed, equalsIgnoringAsciiCase, h]
  decide

/-- What a header is set to leaves the headers of another name alone. -/
theorem Httplib.SetsHeader.filter_other {before after : Httplib.Response}
    {name value other : Bytes} (h : SetsHeader before name value after)
    (hother : ∀ header, isNamed other header → isNamed name header = false) :
    after.headers.filter (isNamed other) = before.headers.filter (isNamed other) := by
  have hothers := congrArg (List.filter (isNamed other)) h.others
  rw [List.filter_filter, List.filter_filter] at hothers
  have hsame : ∀ header : Bytes × Bytes,
      (isNamed other header && !isNamed name header) = isNamed other header := by
    intro header
    cases hnamed : isNamed other header with
    | true => simp [hother header hnamed]
    | false => rfl
  simpa only [hsame] using hothers

theorem isFieldText_jsonMediaType : IsFieldText jsonMediaType := by
  have hall : jsonMediaType.all fun b => 0x20 < b && b < 0x7f := by decide
  simpa [IsFieldText] using hall

variable (library) in
/-- What is written is the status, the body and the content type. -/
theorem sets_writeResponse (laws : library.Lawful) (out : Httplib.Response)
    (response : HttpResponse) :
    SetsHeader ⟨response.status, out.headers, response.body⟩ contentTypeHeader jsonMediaType
      (writeResponse library out response) :=
  @Library.Lawful.setContent_sets library laws { out with status := response.status } response.body
    jsonMediaType isFieldText_jsonMediaType

theorem status_writeResponse (laws : library.Lawful) (out : Httplib.Response)
    (response : HttpResponse) : (writeResponse library out response).status = response.status :=
  (sets_writeResponse library laws out response).status

theorem body_writeResponse (laws : library.Lawful) (out : Httplib.Response)
    (response : HttpResponse) : (writeResponse library out response).body = response.body :=
  (sets_writeResponse library laws out response).body

/-- Writing a body leaves the request id alone. -/
theorem filter_writeResponse (laws : library.Lawful) (out : Httplib.Response)
    (response : HttpResponse) :
    (writeResponse library out response).headers.filter (isNamed requestIdHeader) =
      out.headers.filter (isNamed requestIdHeader) :=
  (sets_writeResponse library laws out response).filter_other fun _ => not_isNamed_contentType

theorem Carries.writeResponse (laws : library.Lawful) {out : Httplib.Response} {id : Bytes}
    (h : Carries out id) (response : HttpResponse) :
    Carries (writeResponse library out response) id :=
  (filter_writeResponse laws out response).trans h

theorem filter_fillLibraryError (laws : library.Lawful) (response : Httplib.Response) :
    (fillLibraryError library response).2.headers.filter (isNamed requestIdHeader) =
      response.headers.filter (isNamed requestIdHeader) := by
  rw [fillLibraryError]
  split_ifs
  · rfl
  · exact filter_writeResponse laws _ _

/-! ## The id -/

/-- The id that the request brought when it may be echoed, and a generated one otherwise. -/
structure IsRequestId (request : Httplib.Request) (id : Bytes) : Prop where
  echoed : HasRequestIdForm (headerValue request.headers requestIdHeader) →
    id = headerValue request.headers requestIdHeader
  generated : ¬ HasRequestIdForm (headerValue request.headers requestIdHeader) → IsGenerated id

theorem IsRequestId.hasRequestIdForm {request : Httplib.Request} {id : Bytes}
    (h : IsRequestId request id) : HasRequestIdForm id := by
  by_cases hform : HasRequestIdForm (headerValue request.headers requestIdHeader)
  · rwa [h.echoed hform]
  · exact (h.generated hform).hasRequestIdForm

variable (draw) in
theorem isRequestId_resolveRequestId (laws : library.Lawful) (request : Httplib.Request)
    (engine : ε) : IsRequestId request (resolveRequestId library draw request engine).1 := by
  rw [resolveRequestId, laws.getHeaderValue_eq]
  constructor
  · intro hform
    rw [if_pos ((isAcceptableRequestId_iff _).mpr hform)]
  · intro hform
    rw [if_neg fun haccept => hform ((isAcceptableRequestId_iff _).mp haccept)]
    exact isGenerated_formatRequestId _ _

theorem HasRequestIdForm.isFieldText {id : Bytes} (h : HasRequestIdForm id) : IsFieldText id := by
  have hall : (ascii "ABCDEFGHIJKLMNOPQRSTUVWXYZabcdefghijklmnopqrstuvwxyz0123456789._-").all
      fun b => 0x20 < b && b < 0x7f := by decide
  intro b hb
  simpa using List.all_eq_true.mp hall b (h.2.2 b hb)

theorem carries_setHeader (laws : library.Lawful) {response : Httplib.Response} {id : Bytes}
    (hnone : response.headers.filter (isNamed requestIdHeader) = []) (h : HasRequestIdForm id) :
    Carries (library.setHeader response requestIdHeader id) id :=
  (laws.setHeader_sets hnone h.isFieldText).named

theorem carries_fresh (laws : library.Lawful) {id : Bytes} (h : HasRequestIdForm id) :
    Carries (library.setHeader Response.fresh requestIdHeader id) id :=
  carries_setHeader laws rfl h

/-! ## The hooks -/

/-- A log line starts with text that cannot be cut off or broken by the id. -/
theorem fputs_append {front : Bytes} (h : ∀ b ∈ front, b ≠ 0) (back : Bytes) :
    fputs (front ++ back) = front ++ fputs back := by
  rw [fputs, List.takeWhile_append_of_pos (by simpa using h)]
  rfl

theorem HasRequestIdForm.noNul {id : Bytes} (h : HasRequestIdForm id) : ∀ b ∈ id, b ≠ 0 := by
  rintro b hb rfl
  exact absurd ((isRequestIdCharacter_iff 0).mpr (h.2.2 0 hb)) (by decide)

/-- What a handler that throws leaves in the log. -/
def logLine (id : Bytes) (exception : Exception) : Bytes :=
  ascii "leta: unhandled exception in request " ++ id ++ ascii ": " ++
    fputs (describe exception ++ ascii "\n")

theorem reportHandlerException_log (laws : library.Lawful) {response : Httplib.Response}
    {id : Bytes} (h : Carries response id) (hform : HasRequestIdForm id) (exception : Exception) :
    (reportHandlerException library response exception).2 = logLine id exception := by
  have hfront : ∀ b ∈ ascii "leta: unhandled exception in request " ++ id ++ ascii ": ",
      b ≠ 0 := by
    have hopening : (ascii "leta: unhandled exception in request ").all (· != 0) := by decide
    have hcolon : (ascii ": ").all (· != 0) := by decide
    simp only [List.all_eq_true, bne_iff_ne] at hopening hcolon
    simp only [List.forall_mem_append]
    exact ⟨⟨hopening, hform.noNul⟩, hcolon⟩
  rw [reportHandlerException, h.value laws, List.append_assoc _ (describe exception), logLine]
  exact fputs_append hfront _

theorem body_errorResponse_ne_nil (error : Error) : (errorResponse error).body ≠ [] := by
  rw [body_errorResponse]
  exact List.cons_ne_nil _ _

/-- A response that has a body passes the error hook. -/
theorem fillLibraryError_of_body {response : Httplib.Response} (h : response.body ≠ []) :
    fillLibraryError library response = (.unhandled, response) := by
  rw [fillLibraryError, if_pos (by simpa using h)]

theorem applyError_of_body {response : Httplib.Response} (h : response.body ≠ []) :
    (installHooks library draw).applyError response = response := by
  have herror : (installHooks library draw).error = fillLibraryError library := rfl
  rw [Hooks.applyError, herror, fillLibraryError_of_body h]
  split_ifs <;> rfl

/-- A status of the library gets a body. -/
theorem applyError_of_empty {response : Httplib.Response} (hstatus : 400 ≤ response.status)
    (hbody : response.body = []) : (installHooks library draw).applyError response =
      writeResponse library response
        (errorResponse (errorForLibraryStatus response.status)) := by
  have herror : (installHooks library draw).error = fillLibraryError library := rfl
  rw [Hooks.applyError, if_pos hstatus, herror, fillLibraryError, if_neg (by simp [hbody])]

theorem filter_applyError (laws : library.Lawful) (response : Httplib.Response) :
    ((installHooks library draw).applyError response).headers.filter (isNamed requestIdHeader) =
      response.headers.filter (isNamed requestIdHeader) := by
  rw [Hooks.applyError]
  split_ifs
  · exact filter_fillLibraryError laws response
  · rfl

/-- The last hook leaves an id alone. -/
theorem close_of_carries (laws : library.Lawful) {response : Httplib.Response} {id : Bytes}
    (h : Carries response id) (request : Httplib.Request) (engine : ε) (log : Bytes) :
    (installHooks library draw).close request response engine log =
      ⟨(installHooks library draw).applyError response, engine, log⟩ := by
  have hcarries : Carries ((installHooks library draw).applyError response) id :=
    (filter_applyError laws response).trans h
  have hpost : (installHooks library draw).postRouting = ensureRequestId library draw := rfl
  rw [Hooks.close, hpost, ensureRequestId, hcarries.hasHeader laws]
  rfl

/-- It gives one to a response without. -/
theorem close_of_none (laws : library.Lawful) {response : Httplib.Response}
    (h : response.headers.filter (isNamed requestIdHeader) = []) (request : Httplib.Request)
    (engine : ε) (log : Bytes) :
    (installHooks library draw).close request response engine log =
      let (id, engine) := resolveRequestId library draw request engine
      ⟨library.setHeader ((installHooks library draw).applyError response) requestIdHeader id,
        engine, log⟩ := by
  have hnone : library.hasHeader
      ((installHooks library draw).applyError response).headers requestIdHeader = false := by
    rw [Bool.eq_false_iff, ne_eq, laws.hasHeader_iff, filter_applyError laws, h]
    simp
  have hpost : (installHooks library draw).postRouting = ensureRequestId library draw := rfl
  rw [Hooks.close, hpost, ensureRequestId, hnone]
  rfl

/-! ## Routes -/

/-- The request that a route's handler is given. -/
def neutralRequest (route : Route σ) (request : Httplib.Request) (id : Bytes) : HttpRequest :=
  ⟨route.method, request.path, pathParametersOf request, request.body, id⟩

/-- The route accepts the request's content type: its method needs none, or it names JSON. -/
def Admits (route : Route σ) (request : Httplib.Request) : Prop :=
  route.method = .get ∨ NamesJson (headerValue request.headers contentTypeHeader)

theorem admits_iff (laws : library.Lawful) (route : Route σ) (request : Httplib.Request) :
    Admits route request ↔ (expectsJsonBody route.method &&
      !isJsonContentType (library.getHeaderValue request.headers contentTypeHeader)) = false := by
  rw [Admits, ← isJsonContentType_iff, laws.getHeaderValue_eq]
  cases route.method <;> simp [expectsJsonBody]

variable (library) in
/-- The response that a route writes. -/
def routeResponse (id : Bytes) (answer : HttpResponse) : Httplib.Response :=
  writeResponse library (library.setHeader Response.fresh requestIdHeader id) answer

theorem carries_routeResponse (laws : library.Lawful) {id : Bytes} (h : HasRequestIdForm id)
    (answer : HttpResponse) : Carries (routeResponse library id answer) id :=
  (carries_fresh laws h).writeResponse laws answer

theorem status_routeResponse (laws : library.Lawful) (id : Bytes) (answer : HttpResponse) :
    (routeResponse library id answer).status = answer.status :=
  status_writeResponse laws _ _

theorem body_routeResponse (laws : library.Lawful) (id : Bytes) (answer : HttpResponse) :
    (routeResponse library id answer).body = answer.body :=
  body_writeResponse laws _ _

/-- A route that refuses the content type. -/
theorem adapt_refused (laws : library.Lawful) {route : Route σ} {request : Httplib.Request}
    (h : ¬ Admits route request) (engine : ε) (state : σ) :
    adapt library draw route.method route.handler request engine state =
      let (id, engine) := resolveRequestId library draw request engine
      ⟨.returned (routeResponse library id (errorResponse nonJsonBodyError)), engine, state,
        none⟩ := by
  rw [admits_iff laws, Bool.not_eq_false] at h
  rw [adapt, h]
  rfl

/-- A route whose handler runs. -/
theorem adapt_admitted (laws : library.Lawful) {route : Route σ} {request : Httplib.Request}
    (h : Admits route request) (engine : ε) (state : σ) :
    adapt library draw route.method route.handler request engine state =
      let (id, engine) := resolveRequestId library draw request engine
      let neutral := neutralRequest route request id
      match route.handler neutral state with
      | (.ok answer, state) =>
          ⟨.returned (routeResponse library id answer), engine, state, some neutral⟩
      | (.error exception, state) =>
          ⟨.threw (library.setHeader Response.fresh requestIdHeader id) exception, engine, state,
            some neutral⟩ := by
  rw [admits_iff laws] at h
  rw [adapt, h]
  rfl

/-! ## Endings -/

/-- What is no success is sent as it is. -/
theorem amends_of_not_success (laws : library.Lawful) {response : Httplib.Response}
    (h : ¬ (200 ≤ response.status ∧ response.status < 300)) (request : Httplib.Request) :
    library.amends request response = response :=
  (laws.amends_cases request response).resolve_right fun hamended => h hamended.1

theorem carries_amends (laws : library.Lawful) {response : Httplib.Response} {id : Bytes}
    (h : Carries response id) (request : Httplib.Request) :
    Carries (library.amends request response) id := by
  rcases laws.amends_cases request response with hsame | ⟨-, status, -, hamended⟩
  · rwa [hsame]
  · rw [hamended]
    exact h

theorem finish_of_carries (laws : library.Lawful) {response : Httplib.Response} {id : Bytes}
    (h : Carries response id) (request : Httplib.Request) (engine : ε) :
    library.finish (installHooks library draw) request (.returned response) engine =
      ⟨(installHooks library draw).applyError (library.amends request response), engine, []⟩ := by
  rw [laws.finish_returned, close_of_carries laws (carries_amends laws h request)]

/-- An error that is written is sent unchanged. -/
theorem finish_of_error (laws : library.Lawful) {id : Bytes} (hid : HasRequestIdForm id)
    {answer : HttpResponse} (hstatus : ¬ (200 ≤ answer.status ∧ answer.status < 300))
    (hbody : answer.body ≠ []) (request : Httplib.Request) (engine : ε) :
    library.finish (installHooks library draw) request
      (.returned (routeResponse library id answer)) engine =
        ⟨routeResponse library id answer, engine, []⟩ := by
  rw [finish_of_carries laws (carries_routeResponse laws hid answer), amends_of_not_success laws,
    applyError_of_body]
  · rwa [body_routeResponse laws]
  · rw [status_routeResponse laws]
    exact_mod_cast hstatus

theorem finish_of_threw (laws : library.Lawful) {id : Bytes} (hid : HasRequestIdForm id)
    (exception : Exception) (request : Httplib.Request) (engine : ε) :
    library.finish (installHooks library draw) request
      (.threw (library.setHeader Response.fresh requestIdHeader id) exception) engine =
        ⟨routeResponse library id (errorResponse ⟨.internal, ascii "Internal error."⟩), engine,
          logLine id exception⟩ := by
  have hcarries := carries_fresh laws hid
  rw [laws.finish_threw]
  have hreport : (installHooks library draw).exception = reportHandlerException library := rfl
  rw [hreport, reportHandlerException_log laws hcarries hid]
  change (installHooks library draw).close request (routeResponse library id
    (errorResponse ⟨.internal, ascii "Internal error."⟩)) engine _ = _
  rw [close_of_carries laws (carries_routeResponse laws hid _), applyError_of_body]
  rw [body_routeResponse laws]
  exact body_errorResponse_ne_nil _

theorem finish_of_rejected (laws : library.Lawful) (rejection : Rejection)
    (request : Httplib.Request) (engine : ε) :
    library.finish (installHooks library draw) request (.rejected rejection) engine =
      let (id, engine) := resolveRequestId library draw request engine
      ⟨library.setHeader ((installHooks library draw).applyError rejection.response)
        requestIdHeader id, engine, []⟩ := by
  rw [laws.finish_rejected, close_of_none laws rejection.noRequestId]

/-! ## One request -/

variable {route : Route σ} {request : Httplib.Request}

theorem not_success_errorResponse (error : Error) :
    ¬ (200 ≤ (errorResponse error).status ∧ (errorResponse error).status < 300) := by
  have hstatus := status_errorResponse error
  omega

theorem processRequest_refused (laws : library.Lawful) (h : ¬ Admits route request) (engine : ε)
    (state : σ) : processRequest library draw (.route route) request engine state =
      let (id, engine) := resolveRequestId library draw request engine
      ⟨routeResponse library id (errorResponse nonJsonBodyError), engine, state, none, []⟩ := by
  have hid := (isRequestId_resolveRequestId draw laws request engine).hasRequestIdForm
  rw [processRequest, Routed.finish]
  dsimp only
  rw [adapt_refused laws h]
  dsimp only
  rw [finish_of_error laws hid (not_success_errorResponse _) (body_errorResponse_ne_nil _)]

theorem processRequest_threw (laws : library.Lawful) (h : Admits route request) {engine : ε}
    {state after : σ} {exception : Exception}
    (hthrew : route.handler
      (neutralRequest route request (resolveRequestId library draw request engine).1) state =
        (.error exception, after)) :
    processRequest library draw (.route route) request engine state =
      let (id, engine) := resolveRequestId library draw request engine
      ⟨routeResponse library id (errorResponse ⟨.internal, ascii "Internal error."⟩), engine,
        after, some (neutralRequest route request id), logLine id exception⟩ := by
  have hid := (isRequestId_resolveRequestId draw laws request engine).hasRequestIdForm
  rw [processRequest, Routed.finish]
  dsimp only
  rw [adapt_admitted laws h]
  dsimp only
  rw [hthrew]
  dsimp only
  rw [finish_of_threw laws hid]

theorem processRequest_returned (laws : library.Lawful) (h : Admits route request) {engine : ε}
    {state after : σ} {answer : HttpResponse}
    (hreturned : route.handler
      (neutralRequest route request (resolveRequestId library draw request engine).1) state =
        (.ok answer, after)) :
    processRequest library draw (.route route) request engine state =
      let (id, engine) := resolveRequestId library draw request engine
      ⟨(installHooks library draw).applyError
          (library.amends request (routeResponse library id answer)),
        engine, after, some (neutralRequest route request id), []⟩ := by
  have hid := (isRequestId_resolveRequestId draw laws request engine).hasRequestIdForm
  rw [processRequest, Routed.finish]
  dsimp only
  rw [adapt_admitted laws h]
  dsimp only
  rw [hreturned]
  dsimp only
  rw [finish_of_carries laws (carries_routeResponse laws hid answer)]

theorem processRequest_rejected (laws : library.Lawful) (rejection : Rejection)
    (request : Httplib.Request) (engine : ε) (state : σ) :
    processRequest library draw (.rejected rejection) request engine state =
      let (id, engine) := resolveRequestId library draw request engine
      ⟨library.setHeader ((installHooks library draw).applyError rejection.response)
        requestIdHeader id, engine, state, none, []⟩ := by
  rw [processRequest, Routed.finish]
  dsimp only
  rw [finish_of_rejected laws]

/-- A route runs its handler on the request, or refuses the request without a trace. -/
structure RunsRoute (route : Route σ) (request : Httplib.Request) (state : σ)
    (served : Served ε σ) (id : Bytes) : Prop where
  runs : Admits route request → served.given = some (neutralRequest route request id)
  leaves : Admits route request →
    served.state = (route.handler (neutralRequest route request id) state).2
  returned : Admits route request → ∀ answer,
    (route.handler (neutralRequest route request id) state).1 = .ok answer → served.log = []
  threw : Admits route request → ∀ exception,
    (route.handler (neutralRequest route request id) state).1 = .error exception →
      served.log = logLine id exception
  refused : ¬ Admits route request → served.given = none ∧ served.state = state ∧
    served.log = [] ∧ served.response.status = 400 ∧
    Denotes served.response.body (errorData nonJsonBodyError)

variable (draw) in
theorem runsRoute (laws : library.Lawful) (route : Route σ) (request : Httplib.Request)
    (engine : ε) (state : σ) :
    RunsRoute route request state (processRequest library draw (.route route) request engine state)
      (resolveRequestId library draw request engine).1 := by
  by_cases hadmits : Admits route request
  · rcases hrun : route.handler (neutralRequest route request
      (resolveRequestId library draw request engine).1) state with ⟨exception | answer, after⟩
    · rw [processRequest_threw laws hadmits hrun]
      constructor <;> simp [hadmits, hrun]
    · rw [processRequest_returned laws hadmits hrun]
      constructor <;> simp [hadmits, hrun]
  · rw [processRequest_refused laws hadmits]
    refine ⟨fun h => absurd h hadmits, fun h => absurd h hadmits, fun h => absurd h hadmits,
      fun h => absurd h hadmits, fun _ => ⟨rfl, rfl, rfl, ?_, ?_⟩⟩
    · rw [status_routeResponse laws]
      rfl
    · rw [body_routeResponse laws]
      exact denotes_errorResponse nonJsonBodyError

variable (draw) in
theorem carries_processRequest (laws : library.Lawful) (dispatch : Dispatch σ)
    (request : Httplib.Request) (engine : ε) (state : σ) :
    Carries (processRequest library draw dispatch request engine state).response
      (resolveRequestId library draw request engine).1 := by
  have hid := (isRequestId_resolveRequestId draw laws request engine).hasRequestIdForm
  cases dispatch with
  | rejected rejection =>
      rw [processRequest_rejected laws]
      exact carries_setHeader laws
        ((filter_applyError laws rejection.response).trans rejection.noRequestId) hid
  | route route =>
      by_cases hadmits : Admits route request
      · rcases hrun : route.handler (neutralRequest route request
          (resolveRequestId library draw request engine).1) state with ⟨exception | answer, after⟩
        · rw [processRequest_threw laws hadmits hrun]
          exact carries_routeResponse laws hid _
        · rw [processRequest_returned laws hadmits hrun]
          exact (filter_applyError laws _).trans
            (carries_amends laws (carries_routeResponse laws hid answer) request)
      · rw [processRequest_refused laws hadmits]
        exact carries_routeResponse laws hid _

/-- The response has one id: the request's own or a generated one, which the handler sees, the
log names and the next request may bring. -/
structure KeepsId (library : Library) (draw : ε → UInt64 × ε) (dispatch : Dispatch σ)
    (request : Httplib.Request) (state : σ) (served : Served ε σ) (id : Bytes) : Prop where
  carries : Carries served.response id
  isRequestId : IsRequestId request id
  echoed : ∀ (dispatch : Dispatch σ) (request : Httplib.Request) (engine : ε) (state : σ),
    headerValue request.headers requestIdHeader = id →
      Carries (processRequest library draw dispatch request engine state).response id
  given : ∀ given ∈ served.given, given.requestId = id
  route : ∀ route, dispatch = .route route → RunsRoute route request state served id
  rejected : ∀ rejection, dispatch = .rejected rejection →
    served.given = none ∧ served.state = state ∧ served.log = []

/-- Every request keeps one id, however it ends, and a route runs exactly when it may. -/
theorem request_ids (laws : library.Lawful) (draw : ε → UInt64 × ε) (dispatch : Dispatch σ)
    (request : Httplib.Request) (engine : ε) (state : σ) :
    ∃ id, KeepsId library draw dispatch request state
      (processRequest library draw dispatch request engine state) id := by
  have hid := isRequestId_resolveRequestId draw laws request engine
  refine ⟨(resolveRequestId library draw request engine).1,
    carries_processRequest draw laws _ _ _ _,
    hid, ?_, ?_, ?_, ?_⟩
  · intro dispatch' request' engine' state' hsent
    have hsame := (isRequestId_resolveRequestId draw laws request' engine').echoed
      (hsent ▸ hid.hasRequestIdForm)
    rw [← hsent, ← hsame]
    exact carries_processRequest draw laws _ _ _ _
  · intro given hgiven
    cases dispatch with
    | rejected rejection =>
        rw [processRequest_rejected laws] at hgiven
        cases hgiven
    | route route =>
        have hroute := runsRoute draw laws route request engine state
        by_cases hadmits : Admits route request
        · rw [hroute.runs hadmits] at hgiven
          cases hgiven
          rfl
        · rw [(hroute.refused hadmits).1] at hgiven
          cases hgiven
  · rintro route rfl
    exact runsRoute draw laws route request engine state
  · rintro rejection rfl
    rw [processRequest_rejected laws]
    exact ⟨rfl, rfl, rfl⟩

/-- A request with an id of its own, in a header of another case. -/
def taggedRequest : Httplib.Request where
  path := ascii "/indexes"
  headers := [(ascii "content-type", ascii "Application/JSON ; charset=utf-8"),
    (ascii "x-request-id", ascii "a-1"), (ascii "X-Request-Id", ascii "b-2")]
  pathParams := []
  body := []

/-- A handler that throws. -/
theorem request_ids_tagged : KeepsId (referenceLibrary 100)
    (fun engine : UInt64 => (engine, engine))
    (.route ⟨.post, ascii "/indexes", fun _ state => (.error .other, state)⟩) taggedRequest ()
    (processRequest (referenceLibrary 100) (fun engine : UInt64 => (engine, engine))
      (.route ⟨.post, ascii "/indexes", fun _ state => (.error .other, state)⟩) taggedRequest 7 ())
    (ascii "a-1") := by
  obtain ⟨id, h⟩ := request_ids (referenceLibrary_lawful 100)
    (fun engine : UInt64 => (engine, engine))
    (.route ⟨.post, ascii "/indexes", fun _ state => (.error .other, state)⟩) taggedRequest 7 ()
  have hbrought : headerValue taggedRequest.headers requestIdHeader = ascii "a-1" := by decide
  have hform : HasRequestIdForm (headerValue taggedRequest.headers requestIdHeader) := by
    rw [← isAcceptableRequestId_iff, hbrought]
    decide
  obtain rfl : id = ascii "a-1" := (h.isRequestId.echoed hform).trans hbrought
  exact h

end Leta
