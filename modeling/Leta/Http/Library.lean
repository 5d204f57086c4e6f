import Leta.Foundation.Regex
import Leta.Http.Headers

/-! # The HTTP library

What the adapter relies on of cpp-httplib: how it reads and writes headers, finds a route for a
message, and calls the hooks that are installed. -/

namespace Leta

inductive HttpMethod where
  | get | post
  deriving DecidableEq, Repr

/-- What a handler may throw: a `std::exception` with its `what()`, or anything else. -/
inductive Exception where
  | standard (what : Bytes)
  | other

namespace Httplib

/-! ## Messages -/

/-- A request as far as the library parsed it. -/
structure Request where
  path : Bytes
  headers : Headers
  pathParams : List (Bytes × Bytes)
  body : Bytes

/-- A message as it came in, before a route is found for it. -/
structure Message where
  method : Bytes
  path : Bytes
  headers : Headers
  body : Bytes

/-- What a route is given of the message. -/
def Message.request (message : Message) (params : List (Bytes × Bytes)) : Request :=
  ⟨message.path, message.headers, params, message.body⟩

structure Response where
  status : ℤ
  headers : Headers
  body : Bytes

/-- A response before anything was written. -/
def Response.fresh : Response := ⟨-1, [], []⟩

/-- A response that the library writes before any route runs. It has no request id of its own. -/
structure Rejection where
  response : Response
  noRequestId : response.headers.filter (isNamed requestIdHeader) = []

/-- The header is set, and nothing else is changed. -/
structure SetsHeader (before : Response) (name value : Bytes) (after : Response) : Prop where
  status : after.status = before.status
  body : after.body = before.body
  named : after.headers.filter (isNamed name) = [(name, value)]
  others : (after.headers.filter fun header => !isNamed name header) =
    before.headers.filter fun header => !isNamed name header

/-! ## Paths -/

/-- How the library matches paths. `Accepts pattern path params` says that a request for the
path matches, and with which path parameters, in the order they are stored in. -/
structure PathMatching where
  Accepts : Bytes → Bytes → List (Bytes × Bytes) → Prop

/-- The patterns that hold this are matched segment by segment. -/
def marker : Bytes := ascii "/:"

def isCapture (segment : Bytes) : Bool := segment.head? == some 0x3a

/-- A segment behind a slash, and a text it may face. -/
def MatchesSegment (segment text : Bytes) : Prop := isCapture segment ∨ segment = text

/-- The first segment has no slash before it that could make it a `:name`. -/
def MatchesSegments : List Bytes → List Bytes → Prop
  | first :: segments, text :: texts => first = text ∧ List.Forall₂ MatchesSegment segments texts
  | _, _ => False

/-- Each name and the text it faces. -/
def captures (segments texts : List Bytes) : List (Bytes × Bytes) :=
  (segments.tail.zip texts.tail).filterMap fun (segment, text) =>
    if isCapture segment then some (segment.tail, text) else none

/-- What is documented of the library. Every other pattern is an ECMAScript regular
expression that the whole path has to match. -/
structure PathMatching.Lawful (library : PathMatching) : Prop where
  segments_iff : ∀ {pattern path}, marker <:+: pattern →
    ((∃ params, library.Accepts pattern path params) ↔
      MatchesSegments (pattern.splitOn 0x2f) (path.splitOn 0x2f))
  segments_params : ∀ {pattern path params}, marker <:+: pattern →
    ((captures (pattern.splitOn 0x2f) (path.splitOn 0x2f)).map Prod.fst).Nodup →
    library.Accepts pattern path params →
    params.Perm (captures (pattern.splitOn 0x2f) (path.splitOn 0x2f))
  regex_iff : ∀ {pattern path}, ¬ marker <:+: pattern → IsRegex pattern →
    ((∃ params, library.Accepts pattern path params) ↔ RegexMatch pattern path)
  regex_params : ∀ {pattern path params}, ¬ marker <:+: pattern →
    library.Accepts pattern path params → params = []

/-! ## Hooks -/

inductive HandlerResponse where
  | handled | unhandled
  deriving DecidableEq

/-- What is installed for the end of a request. An exception is also logged, and what is called
last draws from an engine. -/
structure Hooks (ε : Type) where
  exception : Response → Exception → Response × Bytes
  error : Response → HandlerResponse × Response
  postRouting : Request → Response → ε → Response × ε

/-- How a request came to a response: a route returned or threw, or none ran. -/
inductive Ending where
  | returned (response : Response)
  | threw (response : Response) (exception : Exception)
  | rejected (rejection : Rejection)

/-- What is sent for a request, and logged. -/
structure Finished (ε : Type) where
  response : Response
  engine : ε
  log : Bytes

/-- The error hook is for a status of 400 or more. -/
def Hooks.applyError {ε : Type} (hooks : Hooks ε) (response : Response) : Response :=
  if 400 ≤ response.status then (hooks.error response).2 else response

/-- The error hook, and then the post-routing hook. -/
def Hooks.close {ε : Type} (hooks : Hooks ε) (request : Request) (response : Response)
    (engine : ε) (log : Bytes) : Finished ε :=
  let (response, engine) := hooks.postRouting request (hooks.applyError response) engine
  ⟨response, engine, log⟩

/-! ## The library -/

structure Library where
  getHeaderValue : Headers → Bytes → Bytes
  hasHeader : Headers → Bytes → Bool
  setHeader : Response → Bytes → Bytes → Response
  setContent : Response → Bytes → Bytes → Response
  matching : PathMatching
  /-- The routes among which a message's method is looked up. -/
  lookedUpAs : Bytes → Option HttpMethod
  /-- The messages that are refused before a route is looked for. -/
  Refuses : Message → Rejection → Prop
  /-- What is made of a response that a route returned. -/
  amends : Request → Response → Response
  finish : ∀ {ε : Type}, Hooks ε → Request → Ending → ε → Finished ε

/-- What is documented of the library. -/
structure Library.Lawful (library : Library) : Prop where
  getHeaderValue_eq : ∀ headers name,
    library.getHeaderValue headers name = headerValue headers name
  hasHeader_iff : ∀ headers name,
    library.hasHeader headers name ↔ headers.filter (isNamed name) ≠ []
  setHeader_sets : ∀ {response name value}, response.headers.filter (isNamed name) = [] →
    IsFieldText value → SetsHeader response name value (library.setHeader response name value)
  /-- The content type replaces the ones before. -/
  setContent_sets : ∀ {response body contentType}, IsFieldText contentType →
    SetsHeader { response with body } contentTypeHeader contentType
      (library.setContent response body contentType)
  matching : library.matching.Lawful
  /-- A refusal has a status of its own and no body. -/
  refuses_status : ∀ {message rejection}, library.Refuses message rejection →
    400 ≤ rejection.response.status
  refuses_body : ∀ {message rejection}, library.Refuses message rejection →
    rejection.response.body = []
  /-- A success may turn out to be an error after all. -/
  amends_cases : ∀ request response, library.amends request response = response ∨
    (200 ≤ response.status ∧ response.status < 300) ∧ ∃ status, 400 ≤ status ∧
      library.amends request response = ⟨status, response.headers, []⟩
  finish_returned : ∀ {ε : Type} (hooks : Hooks ε) request response engine,
    library.finish hooks request (.returned response) engine =
      hooks.close request (library.amends request response) engine []
  finish_threw : ∀ {ε : Type} (hooks : Hooks ε) request response exception engine,
    library.finish hooks request (.threw response exception) engine =
      hooks.close request (hooks.exception response exception).1 engine
        (hooks.exception response exception).2
  finish_rejected : ∀ {ε : Type} (hooks : Hooks ε) request rejection engine,
    library.finish hooks request (.rejected rejection) engine =
      hooks.close request rejection.response engine []

/-- What a route returns for the request is sent as it is. -/
def Library.Leaves (library : Library) (request : Request) : Prop :=
  ∀ response, library.amends request response = response

/-! ## A library -/

/-- A library that stores the parameters from the last to the first. -/
def referenceMatching : PathMatching where
  Accepts pattern path params :=
    if marker <:+: pattern then
      MatchesSegments (pattern.splitOn 0x2f) (path.splitOn 0x2f) ∧
        params = (captures (pattern.splitOn 0x2f) (path.splitOn 0x2f)).reverse
    else RegexMatch pattern path ∧ params = []

theorem referenceMatching_lawful : referenceMatching.Lawful where
  segments_iff hmarker := by simp [referenceMatching, hmarker]
  segments_params hmarker _ h := by
    simp only [referenceMatching, if_pos hmarker] at h
    rw [h.2]
    exact List.reverse_perm _
  regex_iff hmarker _ := by simp [referenceMatching, hmarker]
  regex_params hmarker h := by
    simp only [referenceMatching, if_neg hmarker] at h
    exact h.2

def rangeHeader : Bytes := ascii "Range"

/-- A range of what a route returned cannot be satisfied. -/
def refuseRange (request : Request) (response : Response) : Response :=
  if 200 ≤ response.status ∧ response.status < 300 ∧ request.headers.any (isNamed rangeHeader)
  then ⟨416, response.headers, []⟩
  else response

/-- A library that refuses bodies beyond a limit, and every range. -/
def referenceLibrary (limit : ℕ) : Library where
  getHeaderValue := headerValue
  hasHeader headers name := headers.any (isNamed name)
  setHeader response name value :=
    { response with headers := response.headers ++ [(name, value)] }
  setContent response body contentType :=
    { response with
      headers := response.headers.filter (fun header => !isNamed contentTypeHeader header) ++
        [(contentTypeHeader, contentType)]
      body }
  matching := referenceMatching
  lookedUpAs method :=
    if method = ascii "GET" then some .get
    else if method = ascii "POST" then some .post
    else none
  Refuses message rejection := limit < message.body.length ∧ rejection = ⟨⟨413, [], []⟩, rfl⟩
  amends := refuseRange
  finish hooks request ending engine := match ending with
    | .returned response => hooks.close request (refuseRange request response) engine []
    | .threw response exception =>
        hooks.close request (hooks.exception response exception).1 engine
          (hooks.exception response exception).2
    | .rejected rejection => hooks.close request rejection.response engine []

theorem referenceLibrary_lawful (limit : ℕ) : (referenceLibrary limit).Lawful where
  getHeaderValue_eq _ _ := rfl
  hasHeader_iff headers name := by simp [referenceLibrary, List.filter_eq_nil_iff]
  setHeader_sets {response name value} hnone _ := by
    refine ⟨rfl, rfl, ?_, ?_⟩
    · simp [referenceLibrary, hnone, isNamed_self]
    · simp [referenceLibrary, isNamed_self]
  setContent_sets _ := by
    refine ⟨rfl, rfl, ?_, ?_⟩
    · simp [referenceLibrary, isNamed_self]
    · simp [referenceLibrary, isNamed_self]
  matching := referenceMatching_lawful
  refuses_status h := by
    rw [h.2]
    decide
  refuses_body h := by rw [h.2]
  amends_cases request response := by
    dsimp only [referenceLibrary, refuseRange]
    split_ifs with h
    · exact .inr ⟨⟨h.1, h.2.1⟩, 416, by decide, rfl⟩
    · exact .inl rfl
  finish_returned _ _ _ _ := rfl
  finish_threw _ _ _ _ _ := rfl
  finish_rejected _ _ _ _ := rfl

theorem leaves_referenceLibrary (limit : ℕ) {request : Request}
    (h : request.headers.all fun header => !isNamed rangeHeader header) :
    (referenceLibrary limit).Leaves request := by
  intro response
  have hnone : request.headers.any (isNamed rangeHeader) = false := by
    simpa using h
  simp [referenceLibrary, refuseRange, hnone]

end Httplib

end Leta
