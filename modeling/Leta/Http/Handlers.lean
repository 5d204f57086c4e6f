import Leta.Http.Routes
import Leta.Verification.Catalogue

/-! # Handlers in steps

A handler reads its request, then uses what the workers share, and then writes its answer. -/

namespace Leta

/-- What a handler uses of what is shared. -/
inductive Access where
  | readiness
  | service (call : Call)

/-- What a handler has come to when it has read its request. -/
inductive Work where
  | answered (answer : HttpResponse)
  | shared (access : Access)

def MainRoute.begin (S : Ondemand) (route : MainRoute) (request : HttpRequest) : Work :=
  match route with
  | .health => .shared .readiness
  | .createIndex =>
      match parseCreateIndexRequest S request.body with
      | .error error => .answered (errorResponse error)
      | .ok command => .shared (.service (.create command))
  | .addDocuments =>
      match IndexUid.parse (pathParameter request uidParameter) with
      | .error error => .answered (errorResponse error)
      | .ok uid =>
          match parseDocumentBatch S request.body with
          | .error error => .answered (errorResponse error)
          | .ok documents => .shared (.service (.ingest ⟨uid, documents⟩))

/-- What a handler answers with a service's reply. -/
def Reply.response (received elapsed : ℕ) : Reply → HttpResponse
  | .created (.ok index) => ⟨createdStatus, indexJson index⟩
  | .created (.error error) => errorResponse error
  | .ingested (.ok outcome) => ⟨okStatus, ingestResultJson received outcome elapsed⟩
  | .ingested (.error error) => errorResponse error

end Leta
