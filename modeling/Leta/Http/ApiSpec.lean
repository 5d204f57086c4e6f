import Leta.Http.Dispatch
import Leta.Json.Schema

/-! # The description of the API

The operations that main registers, as `docs/02-api-spec.yaml` describes them. -/

namespace Leta

open Json

/-! ## Components -/

def uidCharacters : Bytes :=
  ascii "abcdefghijklmnopqrstuvwxyzABCDEFGHIJKLMNOPQRSTUVWXYZ0123456789_-"

def indexUidSchema : Schema := .pattern uidCharacters 1 64

def indexSchema : Schema :=
  .object [ascii "uid", ascii "primaryKey", ascii "createdAt", ascii "updatedAt"]
    [(ascii "uid", indexUidSchema), (ascii "primaryKey", .either .string .null),
      (ascii "createdAt", .dateTime), (ascii "updatedAt", .dateTime)] true

def ingestResultSchema : Schema :=
  .object [ascii "received", ascii "indexed", ascii "processingTimeMs"]
    [(ascii "received", .integer), (ascii "indexed", .integer), (ascii "replaced", .integer),
      (ascii "primaryKey", .string), (ascii "processingTimeMs", .number)] true

def errorSchema : Schema :=
  .object [ascii "code", ascii "message", ascii "type"]
    [(ascii "code", .string), (ascii "message", .string),
      (ascii "type", .enum [ascii "invalid_request", ascii "auth", ascii "not_found",
        ascii "internal"])] true

def statusSchema (status : Bytes) : Schema :=
  .object [] [(ascii "status", .enum [status])] true

/-! ## Operations -/

/-- The fields of a request are all described: any other is rejected. -/
def createIndexSchema : Schema :=
  .object [ascii "uid"] [(ascii "uid", indexUidSchema),
    (ascii "primaryKey", .either .string .null)] false

def documentsSchema : Schema := .array (.object [] [] true) 1 10000

def MainRoute.requestBody : MainRoute → Option Schema
  | .health => none
  | .createIndex => some createIndexSchema
  | .addDocuments => some documentsSchema

def MainRoute.responses : MainRoute → List (ℕ × Schema)
  | .health => [(200, statusSchema (ascii "available")), (503, statusSchema (ascii "starting"))]
  | .createIndex => [(201, indexSchema), (400, errorSchema), (409, errorSchema)]
  | .addDocuments => [(200, ingestResultSchema), (400, errorSchema), (413, errorSchema)]

end Leta
