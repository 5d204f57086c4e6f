import Leta.Core.Types
import Leta.Ondemand.Loops

/-! # Reading a batch of documents

The parser of `POST /indexes/{uid}/documents`. The cursor's state is passed along, and every
function that fails says with which error. `fuel` bounds the items one range-based loop may
visit, so that the loops are functions for a parser that never finishes too. -/

namespace Leta

variable (S : Ondemand)

def maxBatchDocuments : ℕ := 10000

def maxNestingDepth : ℕ := 128

def notAnObject (index : ℕ) : Error :=
  malformed (ascii "The batch's element at index " ++ decimal index ++
    ascii " is not a JSON object.")

def tooManyDocuments : Error :=
  malformed (ascii "A batch holds at most " ++ decimal maxBatchDocuments ++ ascii " documents.")

def nestedTooDeeply : Error :=
  malformed (ascii "A document nests more than " ++ decimal maxNestingDepth ++
    ascii " levels deep.")

/-- `json.find_last_not_of(" \t\n\r")`: the position of the last byte that is none of these. -/
def findLastNotWs (json : Bytes) : Option ℕ :=
  json.reverse.findIdx? (fun b => !Json.isWs b) |>.map fun trailing => json.length - 1 - trailing

def withoutTrailingWhitespace (json : Bytes) : Bytes :=
  match findLastNotWs json with
  | none => []
  | some last => json.take (last + 1)

/-- Reads a scalar of the given type. The state behind it stands for `true`. -/
def readsAsScalar (value : S.Value) (type : JsonType) (st : S.State) : Option S.State :=
  match type with
  | .number => S.getDouble value st
  | .string => (S.getString value st).map Prod.snd
  | .boolean => (S.getBool value st).map Prod.snd
  | .null =>
      match S.isNull value st with
      | some (true, st) => some st
      | _ => none
  | .array | .object | .unknown => none

/-- `validate_array`, with the call that validates an element. -/
def validateArray (fuel : ℕ) (validateElement : S.Value → S.State → Result S.State)
    (value : S.Value) (st : S.State) : Result S.State := do
  let (array, st) ← succeeds (S.getArray value st) notJson
  let (_, st) ← forEach (S.arrayNext array) (fun item _ st => do
      let element ← succeeds item notJson
      let st ← validateElement element st
      return ((), st)) outOfFuel fuel (S.arrayBegin array st) ()
  return st

/-- `validate_object`, with the call that validates a field's value. -/
def validateObject (fuel : ℕ) (validateFieldValue : S.Value → S.State → Result S.State)
    (value : S.Value) (st : S.State) : Result S.State := do
  let (object, st) ← succeeds (S.getObject value st) notJson
  let (_, st) ← forEach (S.objectNext object) (fun item _ st => do
      let field ← succeeds item notJson
      let (_, st) ← succeeds (S.unescapedKey field st) notJson
      let st ← validateFieldValue (S.fieldValue field) st
      return ((), st)) outOfFuel fuel (S.objectBegin object st) ()
  return st

/-- The recursion ends where the depth check refuses. -/
def validateValue (fuel : ℕ) (value : S.Value) (depth : ℕ) (st : S.State) : Result S.State :=
  if depth > maxNestingDepth then .error nestedTooDeeply
  else do
    let type ← succeeds (S.type value st) notJson
    if type = .array then
      validateArray S fuel (fun element => validateValue fuel element (depth + 1)) value st
    else if type = .object then
      validateObject S fuel (fun fieldValue => validateValue fuel fieldValue (depth + 1)) value st
    else succeeds (readsAsScalar S value type st) notJson
termination_by maxNestingDepth + 1 - depth

/-- The field pass over one document, from `object.begin()` on. -/
def readSearchableText (fuel : ℕ) (object : S.Object) (st : S.State) :
    Result (List Bytes × S.State) :=
  forEach (S.objectNext object) (fun item searchableText st => do
      let field ← succeeds item notJson
      let (_, st) ← succeeds (S.unescapedKey field st) notJson
      let type ← succeeds (S.type (S.fieldValue field) st) notJson
      if type ≠ .string then
        let st ← validateValue S fuel (S.fieldValue field) 1 st
        return (searchableText, st)
      else
        let (text, st) ← succeeds (S.getString (S.fieldValue field) st) notJson
        return (searchableText ++ [text], st)) outOfFuel fuel (S.objectBegin object st) []

def readDocument (fuel : ℕ) (element : S.Value) (index : ℕ) (st : S.State) :
    Result (Document × S.State) := do
  let (object, st) ← succeeds (S.getObject element st) (notAnObject index)
  let (source, st) ← succeeds (S.rawJson object st) notJson
  let (_, st) ← succeeds (S.reset object st) notJson
  let (searchableText, st) ← readSearchableText S fuel object st
  return (⟨withoutTrailingWhitespace source, searchableText⟩, st)

def readDocuments (fuel : ℕ) (array : S.Array) (st : S.State) :
    Result (List Document × S.State) := do
  let (documents, st) ← forEach (S.arrayNext array) (fun item documents st => do
      if documents.length = maxBatchDocuments then .error tooManyDocuments
      else
        let element ← succeeds item notJson
        let (document, st) ← readDocument S fuel element documents.length st
        return (documents ++ [document], st)) outOfFuel fuel (S.arrayBegin array st) []
  if documents = [] then .error (malformed (ascii "A batch holds at least one document."))
  else return (documents, st)

def parseDocumentBatch (body : Bytes) : Result (List Document) := do
  let st ← succeeds (S.iterate body) notJson
  let (array, st) ← succeeds (S.documentGetArray st)
    (malformed (ascii "The request body must be a JSON array of documents."))
  let (documents, st) ← readDocuments S (body.length + 1) array st
  if S.atEnd st then return documents else .error notJson

end Leta
