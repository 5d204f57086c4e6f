import Leta.Foundation.Calendar
import Leta.Http.DocumentParser
import Leta.Http.IndexParser
import Leta.Storage.Repository

/-! # Writing responses

Bodies are built by appending to a string. A response function is modelled for a request in
which nothing throws. -/

namespace Leta

/-! ## Strings -/

def hexDigits : Bytes := ascii "0123456789abcdef"

def appendUnicodeEscape (out : Bytes) (byte : UInt8) : Bytes :=
  out ++ ascii "\\u00" ++
    [hexDigits.getD (byte >>> 4).toNat 0, hexDigits.getD (byte &&& 0x0f).toNat 0]

def appendEscaped (out : Bytes) (character : UInt8) : Bytes :=
  if character = 0x22 then out ++ ascii "\\\""
  else if character = 0x5c then out ++ ascii "\\\\"
  else if character = 0x08 then out ++ ascii "\\b"
  else if character = 0x0c then out ++ ascii "\\f"
  else if character = 0x0a then out ++ ascii "\\n"
  else if character = 0x0d then out ++ ascii "\\r"
  else if character = 0x09 then out ++ ascii "\\t"
  else if character < 0x20 then appendUnicodeEscape out character
  else out ++ [character]

def appendJsonString (out value : Bytes) : Bytes :=
  value.foldl appendEscaped (out ++ [0x22]) ++ [0x22]

/-! ## Timestamps -/

def millisecondsPerDay : ℤ := 86400000

def appendZeroPadded (out : Bytes) (value width : ℕ) : Bytes :=
  let digits := decimal value
  (if digits.length < width then out ++ List.replicate (width - digits.length) 0x30 else out) ++
    digits

/-- `static_cast<unsigned>` of an `int`. -/
def toUnsigned (value : ℤ) : ℕ := (value % 2 ^ 32).toNat

def appendJsonTimestamp (out : Bytes) (timestamp : Timestamp) : Bytes :=
  -- The quotient is the floor, before 1970 too.
  let day := timestamp / millisecondsPerDay
  let date := Date.ofDayNumber day
  let time := (timestamp - day * millisecondsPerDay).toNat
  let out := appendZeroPadded (out ++ [0x22]) (toUnsigned date.year) 4
  let out := appendZeroPadded (out ++ ascii "-") date.month 2
  let out := appendZeroPadded (out ++ ascii "-") date.day 2
  let out := appendZeroPadded (out ++ ascii "T") (time / 3600000) 2
  let out := appendZeroPadded (out ++ ascii ":") (time / 60000 % 60) 2
  let out := appendZeroPadded (out ++ ascii ":") (time / 1000 % 60) 2
  let out := appendZeroPadded (out ++ ascii ".") (time % 1000) 3
  out ++ ascii "Z\""

/-! ## Errors -/

structure HttpResponse where
  status : ℕ
  body : Bytes

structure WireError where
  code : Bytes
  status : ℕ

def wireError : ErrorCode → WireError
  | .malformedRequest => ⟨ascii "malformed_request", 400⟩
  | .payloadTooLarge => ⟨ascii "payload_too_large", 413⟩
  | .invalidIndexUid => ⟨ascii "invalid_index_uid", 400⟩
  | .unknownField => ⟨ascii "unknown_field", 400⟩
  | .indexAlreadyExists => ⟨ascii "index_already_exists", 409⟩
  | .routeNotFound => ⟨ascii "route_not_found", 404⟩
  | .internal => ⟨ascii "internal", 500⟩

def wireType : ErrorType → Bytes
  | .invalidRequest => ascii "invalid_request"
  | .auth => ascii "auth"
  | .notFound => ascii "not_found"
  | .internal => ascii "internal"

def errorResponse (error : Error) : HttpResponse :=
  let wire := wireError error.code
  let body := ascii "\x7b\"code\":\""
  let body := body ++ wire.code ++ ascii "\",\"message\":"
  let body := appendJsonString body error.message
  let body := body ++ ascii ",\"type\":\"" ++ wireType (errorType error.code) ++ ascii "\"\x7d"
  ⟨wire.status, body⟩

/-! ## `POST /indexes` -/

def createdStatus : ℕ := 201

def indexJson (index : IndexMetadata) : Bytes :=
  let body := ascii "\x7b\"uid\":"
  let body := appendJsonString body index.uid.value
  let body := body ++ ascii ",\"primaryKey\":"
  let body := match index.primaryKey with
    | some primaryKey => appendJsonString body primaryKey
    | none => body ++ ascii "null"
  let body := body ++ ascii ",\"createdAt\":"
  let body := appendJsonTimestamp body index.createdAt
  let body := body ++ ascii ",\"updatedAt\":"
  let body := appendJsonTimestamp body index.updatedAt
  body ++ ascii "\x7d"

variable (S : Ondemand)

/-- `now` is the service's clock reading. -/
def createIndexResponse (now : Timestamp) (body : Bytes) (repository : InMemoryIndexRepository) :
    HttpResponse × InMemoryIndexRepository :=
  match parseCreateIndexRequest S body with
  | .error error => (errorResponse error, repository)
  | .ok command =>
      match (createIndex now command).exec repository with
      | (.error error, repository) => (errorResponse error, repository)
      | (.ok index, repository) => (⟨createdStatus, indexJson index⟩, repository)

/-! ## `POST /indexes/{uid}/documents` -/

def okStatus : ℕ := 200

def ingestResultJson (received : ℕ) (outcome : AddDocumentsOutcome) (processingTime : ℕ) : Bytes :=
  let body := ascii "\x7b\"received\":"
  let body := body ++ decimal received ++ ascii ",\"indexed\":" ++ decimal outcome.indexed
  let body := match outcome.primaryKey with
    | some primaryKey => appendJsonString (body ++ ascii ",\"primaryKey\":") primaryKey
    | none => body
  body ++ ascii ",\"processingTimeMs\":" ++ decimal processingTime ++ ascii "\x7d"

/-- `elapsed` is the difference of the two readings of the steady clock, in milliseconds. -/
def addDocumentsResponse (now : Timestamp) (elapsed : ℕ) (uid body : Bytes)
    (repository : InMemoryIndexRepository) : HttpResponse × InMemoryIndexRepository :=
  match IndexUid.parse uid with
  | .error error => (errorResponse error, repository)
  | .ok indexUid =>
      match parseDocumentBatch S body with
      | .error error => (errorResponse error, repository)
      | .ok documents =>
          let received := documents.length
          match (addDocuments now ⟨indexUid, documents⟩).exec repository with
          | (.error error, repository) => (errorResponse error, repository)
          | (.ok outcome, repository) =>
              (⟨okStatus, ingestResultJson received outcome elapsed⟩, repository)

end Leta
