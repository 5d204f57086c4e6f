import Leta.Http.Server

/-! # The routes that main registers -/

namespace Leta

/-! ## Health -/

inductive Readiness where
  | starting | available
  deriving DecidableEq

def unavailableStatus : ℕ := 503

def startingBody : Bytes := ascii "\x7b\"status\":\"starting\"\x7d"

def healthResponse : Readiness → HttpResponse
  | .available => ⟨okStatus, ascii "\x7b\"status\":\"available\"\x7d"⟩
  | .starting => ⟨unavailableStatus, startingBody⟩

/-! ## Routes -/

/-- What the handlers of the process share. -/
structure Application where
  readiness : Readiness
  indexes : InMemoryIndexRepository

/-- Where a handler throws, what, and with what left behind. -/
abbrev Faults := HttpRequest → Application → Option (Exception × Application)

/-- A handler that may throw wherever `faults` says so. -/
def interrupted (faults : Faults)
    (respond : HttpRequest → Application → HttpResponse × Application) :
    HttpHandler Application := fun request application =>
  match faults request application with
  | some (exception, application) => (.error exception, application)
  | none =>
      let (answer, application) := respond request application
      (.ok answer, application)

def uidParameter : Bytes := ascii "uid"

inductive MainRoute where
  | health | createIndex | addDocuments
  deriving DecidableEq

variable (S : Ondemand) (now : Timestamp) (elapsed : ℕ)

def MainRoute.respond (route : MainRoute) (request : HttpRequest) (application : Application) :
    HttpResponse × Application :=
  match route with
  | .health => (healthResponse application.readiness, application)
  | .createIndex =>
      let (answer, indexes) := createIndexResponse S now request.body application.indexes
      (answer, { application with indexes })
  | .addDocuments =>
      let (answer, indexes) := addDocumentsResponse S now elapsed
        (pathParameter request uidParameter) request.body application.indexes
      (answer, { application with indexes })

/-- The routes of `register_system_routes`, `register_index_routes` and
`register_document_routes`. -/
def MainRoute.route (faults : Faults) (route : MainRoute) : Route Application :=
  match route with
  | .health => ⟨.get, ascii "/health", interrupted faults (route.respond S now elapsed)⟩
  | .createIndex => ⟨.post, ascii "/indexes", interrupted faults (route.respond S now elapsed)⟩
  | .addDocuments =>
      ⟨.post, ascii "/indexes/\x7buid\x7d/documents",
        interrupted faults (route.respond S now elapsed)⟩

end Leta
