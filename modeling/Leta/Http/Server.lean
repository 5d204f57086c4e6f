import Leta.Http.Library

/-! # The HTTP server

The routes and hooks that are installed into cpp-httplib. -/

namespace Leta

/-! ## The port -/

structure PathParameter where
  name : Bytes
  value : Bytes
  deriving DecidableEq, Repr

structure HttpRequest where
  method : HttpMethod
  path : Bytes
  pathParameters : List PathParameter
  body : Bytes
  requestId : Bytes
  deriving DecidableEq, Repr

/-- The text of the parameter, empty when the route declares none of that name. -/
def pathParameter (request : HttpRequest) (name : Bytes) : Bytes :=
  ((request.pathParameters.find? fun parameter => parameter.name == name).map
    PathParameter.value).getD []

/-- A handler works on a state, which is kept as it left it when it throws. -/
abbrev HttpHandler (σ : Type) := HttpRequest → σ → Except Exception HttpResponse × σ

open Httplib

/-! ## Hooks -/

variable {ε σ : Type} (library : Library) (draw : ε → UInt64 × ε)

def writeResponse (out : Httplib.Response) (response : HttpResponse) : Httplib.Response :=
  library.setContent { out with status := response.status } response.body jsonMediaType

def resolveRequestId (request : Httplib.Request) (engine : ε) : Bytes × ε :=
  let inbound := library.getHeaderValue request.headers requestIdHeader
  if isAcceptableRequestId inbound then (inbound, engine) else generateRequestId draw engine

def expectsJsonBody : HttpMethod → Bool
  | .get => false
  | .post => true

def nonJsonBodyError : Error where
  code := .malformedRequest
  message := ascii "The request body must be JSON, sent with Content-Type: application/json."

def pathParametersOf (request : Httplib.Request) : List PathParameter :=
  request.pathParams.map fun (name, value) => ⟨name, value⟩

def errorForLibraryStatus (status : ℤ) : Error :=
  if status = 404 then ⟨.routeNotFound, ascii "No route matches this method and path."⟩
  else if status = 413 then ⟨.payloadTooLarge, ascii "The request exceeds a size limit."⟩
  else if 500 ≤ status then ⟨.internal, ascii "Internal error."⟩
  else ⟨.malformedRequest, ascii "The request could not be parsed."⟩

/-- The error hook. -/
def fillLibraryError (response : Httplib.Response) : HandlerResponse × Httplib.Response :=
  if !response.body.isEmpty then (.unhandled, response)
  else
    (.handled, writeResponse library response
      (errorResponse (errorForLibraryStatus response.status)))

def describe : Exception → Bytes
  | .standard what => what
  | .other => ascii "an exception not derived from std::exception"

/-- What `std::fputs` writes: the text up to its first NUL. -/
def fputs (text : Bytes) : Bytes := text.takeWhile (· != 0)

/-- The exception hook, and what it writes to the log. -/
def reportHandlerException (response : Httplib.Response) (exception : Exception) :
    Httplib.Response × Bytes :=
  let line := ascii "leta: unhandled exception in request " ++
    library.getHeaderValue response.headers requestIdHeader ++ ascii ": " ++
    describe exception ++ ascii "\n"
  (writeResponse library response (errorResponse ⟨.internal, ascii "Internal error."⟩),
    fputs line)

/-- The post-routing hook. -/
def ensureRequestId (request : Httplib.Request) (response : Httplib.Response) (engine : ε) :
    Httplib.Response × ε :=
  if !library.hasHeader response.headers requestIdHeader then
    let (id, engine) := resolveRequestId library draw request engine
    (library.setHeader response requestIdHeader id, engine)
  else (response, engine)

def installHooks : Hooks ε where
  exception := reportHandlerException library
  error := fillLibraryError library
  postRouting := ensureRequestId library draw

/-! ## Routes -/

structure Route (σ : Type) where
  method : HttpMethod
  path : Bytes
  handler : HttpHandler σ

/-- How a route ended, and the request that its handler was given. -/
structure Routed (ε σ : Type) where
  ending : Ending
  engine : ε
  state : σ
  given : Option HttpRequest

def adapt (method : HttpMethod) (handler : HttpHandler σ) (request : Httplib.Request) (engine : ε)
    (state : σ) : Routed ε σ :=
  let (requestId, engine) := resolveRequestId library draw request engine
  let response := library.setHeader Httplib.Response.fresh requestIdHeader requestId
  if expectsJsonBody method &&
      !isJsonContentType (library.getHeaderValue request.headers contentTypeHeader) then
    ⟨.returned (writeResponse library response (errorResponse nonJsonBodyError)), engine, state,
      none⟩
  else
    let neutral : HttpRequest :=
      ⟨method, request.path, pathParametersOf request, request.body, requestId⟩
    match handler neutral state with
    | (.ok answer, state) =>
        ⟨.returned (writeResponse library response answer), engine, state, some neutral⟩
    | (.error exception, state) => ⟨.threw response exception, engine, state, some neutral⟩

/-! ## One request -/

/-- What the library makes of a request. -/
inductive Dispatch (σ : Type) where
  | route (route : Route σ)
  | rejected (rejection : Rejection)

/-- What comes out of one request. -/
structure Served (ε σ : Type) where
  response : Httplib.Response
  engine : ε
  state : σ
  given : Option HttpRequest
  log : Bytes

/-- The library ends the request with the hooks. -/
def Routed.finish (request : Httplib.Request) (routed : Routed ε σ) : Served ε σ :=
  let finished := library.finish (installHooks library draw) request routed.ending routed.engine
  ⟨finished.response, finished.engine, routed.state, routed.given, finished.log⟩

def processRequest (dispatch : Dispatch σ) (request : Httplib.Request) (engine : ε) (state : σ) :
    Served ε σ :=
  Routed.finish library draw request <| match dispatch with
    | .route route => adapt library draw route.method route.handler request engine state
    | .rejected rejection => ⟨.rejected rejection, engine, state, none⟩

end Leta
