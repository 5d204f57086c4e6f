import Leta.Http.DocumentParser
import Leta.Http.IndexParser
import Leta.Ondemand.Traces

/-! # The parsers with a log

The functions of the two parsers once more, with a log of the tokens they read, the arrays and
objects they open and the activations of `validateValue`. Without its log each is the function
it is named after. -/

namespace Leta

open Json Ondemand Logged

variable (S : Ondemand)

/-! ## Calls that read -/

def getStringLogged (value : S.Value) (error : Error) (st : S.State) :
    Logged LogEntry Error (Bytes × S.State) :=
  noted (.read (.string (S.location st))) (succeeds (S.getString value st) error)

def unescapedKeyLogged (field : S.Field) (st : S.State) : Logged LogEntry Error (Bytes × S.State) :=
  noted (.read (.string (S.keyLocation field))) (succeeds (S.unescapedKey field st) notJson)

def getDoubleLogged (value : S.Value) (st : S.State) : Logged LogEntry Error S.State :=
  noted (.read (.atom (S.location st))) (succeeds (S.getDouble value st) notJson)

def getBoolLogged (value : S.Value) (st : S.State) : Logged LogEntry Error (Bool × S.State) :=
  noted (.read (.atom (S.location st))) (succeeds (S.getBool value st) notJson)

/-- A value that is not null has not been read when `is_null()` has answered. -/
def isNullLogged (value : S.Value) (error : Error) (st : S.State) :
    Logged LogEntry Error (Bool × S.State) :=
  match S.isNull value st with
  | some (true, st') => noted (.read (.atom (S.location st))) (.ok (true, st'))
  | some (false, st') => quiet (.ok (false, st'))
  | none => quiet (.error error)

def readsAsScalarLogged (value : S.Value) (type : JsonType) (st : S.State) :
    Logged LogEntry Error S.State :=
  match type with
  | .number => getDoubleLogged S value st
  | .string => do
      let (_, st) ← getStringLogged S value notJson st
      return st
  | .boolean => do
      let (_, st) ← getBoolLogged S value st
      return st
  | .null => do
      let (isNull, st) ← isNullLogged S value notJson st
      if isNull then return st else quiet (.error notJson)
  | .array | .object | .unknown => quiet (.error notJson)

/-! ## The batch of documents -/

def validateArrayLogged (fuel depth : ℕ)
    (validateElement : S.Value → S.State → Logged LogEntry Error S.State) (value : S.Value)
    (st : S.State) : Logged LogEntry Error S.State := do
  let (array, st) ← noted (.opened depth) (succeeds (S.getArray value st) notJson)
  let (_, st) ← Logged.forEach (S.arrayNext array) (fun item _ st => do
      let element ← quiet (succeeds item notJson)
      let st ← validateElement element st
      return ((), st)) outOfFuel fuel (S.arrayBegin array st) ()
  return st

def validateObjectLogged (fuel depth : ℕ)
    (validateFieldValue : S.Value → S.State → Logged LogEntry Error S.State) (value : S.Value)
    (st : S.State) : Logged LogEntry Error S.State := do
  let (object, st) ← noted (.opened depth) (succeeds (S.getObject value st) notJson)
  let (_, st) ← Logged.forEach (S.objectNext object) (fun item _ st => do
      let field ← quiet (succeeds item notJson)
      let (_, st) ← unescapedKeyLogged S field st
      let st ← validateFieldValue (S.fieldValue field) st
      return ((), st)) outOfFuel fuel (S.objectBegin object st) ()
  return st

def validateValueLogged (fuel : ℕ) (value : S.Value) (depth : ℕ) (st : S.State) :
    Logged LogEntry Error S.State :=
  between .entered .left <|
    if depth > maxNestingDepth then quiet (.error nestedTooDeeply)
    else do
      let type ← quiet (succeeds (S.type value st) notJson)
      if type = .array then
        validateArrayLogged S fuel depth
          (fun element => validateValueLogged fuel element (depth + 1)) value st
      else if type = .object then
        validateObjectLogged S fuel depth
          (fun fieldValue => validateValueLogged fuel fieldValue (depth + 1)) value st
      else readsAsScalarLogged S value type st
termination_by maxNestingDepth + 1 - depth

def readSearchableTextLogged (fuel : ℕ) (object : S.Object) (st : S.State) :
    Logged LogEntry Error (List Bytes × S.State) :=
  Logged.forEach (S.objectNext object) (fun item searchableText st => do
      let field ← quiet (succeeds item notJson)
      let (_, st) ← unescapedKeyLogged S field st
      let type ← quiet (succeeds (S.type (S.fieldValue field) st) notJson)
      if type ≠ .string then
        let st ← validateValueLogged S fuel (S.fieldValue field) 1 st
        return (searchableText, st)
      else
        let (text, st) ← getStringLogged S (S.fieldValue field) notJson st
        return (searchableText ++ [text], st)) outOfFuel fuel (S.objectBegin object st) []

def readDocumentLogged (fuel : ℕ) (element : S.Value) (index : ℕ) (st : S.State) :
    Logged LogEntry Error (Document × S.State) := do
  let (object, st) ← quiet (succeeds (S.getObject element st) (notAnObject index))
  let (source, st) ← quiet (succeeds (S.rawJson object st) notJson)
  let (_, st) ← quiet (succeeds (S.reset object st) notJson)
  let (searchableText, st) ← readSearchableTextLogged S fuel object st
  return (⟨withoutTrailingWhitespace source, searchableText⟩, st)

def readDocumentsLogged (fuel : ℕ) (array : S.Array) (st : S.State) :
    Logged LogEntry Error (List Document × S.State) := do
  let (documents, st) ← Logged.forEach (S.arrayNext array) (fun item documents st => do
      if documents.length = maxBatchDocuments then quiet (.error tooManyDocuments)
      else
        let element ← quiet (succeeds item notJson)
        let (document, st) ← readDocumentLogged S fuel element documents.length st
        return (documents ++ [document], st)) outOfFuel fuel (S.arrayBegin array st) []
  if documents = [] then quiet (.error (malformed (ascii "A batch holds at least one document.")))
  else return (documents, st)

def parseDocumentBatchLogged (body : Bytes) : Logged LogEntry Error (List Document) := do
  let st ← quiet (succeeds (S.iterate body) notJson)
  let (array, st) ← quiet (succeeds (S.documentGetArray st)
    (malformed (ascii "The request body must be a JSON array of documents.")))
  let (documents, st) ← readDocumentsLogged S (body.length + 1) array st
  if S.atEnd st then return documents else quiet (.error notJson)

/-! ## The create-index request -/

def readUidLogged (value : S.Value) (fields : CreateIndexFields) (st : S.State) :
    Logged LogEntry Error (CreateIndexFields × S.State) :=
  if fields.uid.isSome then quiet (.error (appearsMoreThanOnce uidField))
  else do
    let (uid, st) ← getStringLogged S value (fieldMustBe uidField (ascii "a string")) st
    return ({ fields with uid := some uid }, st)

def readPrimaryKeyLogged (value : S.Value) (fields : CreateIndexFields) (st : S.State) :
    Logged LogEntry Error (CreateIndexFields × S.State) :=
  if fields.hasPrimaryKey then quiet (.error (appearsMoreThanOnce primaryKeyField))
  else do
    let fields := { fields with hasPrimaryKey := true }
    let (isNull, st) ← isNullLogged S value
      (fieldMustBe primaryKeyField (ascii "a string or null")) st
    if isNull then return (fields, st)
    else
      let (primaryKey, st) ← getStringLogged S value
        (fieldMustBe primaryKeyField (ascii "a string or null")) st
      return ({ fields with primaryKey := some primaryKey }, st)

def readFieldLogged (field : S.Field) (fields : CreateIndexFields) (st : S.State) :
    Logged LogEntry Error (CreateIndexFields × S.State) := do
  let (key, st) ← unescapedKeyLogged S field st
  if key = uidField then readUidLogged S (S.fieldValue field) fields st
  else if key = primaryKeyField then readPrimaryKeyLogged S (S.fieldValue field) fields st
  else quiet (.error (unknownField key))

def readFieldsLogged (fuel : ℕ) (object : S.Object) (st : S.State) :
    Logged LogEntry Error (CreateIndexFields × S.State) :=
  Logged.forEach (S.objectNext object) (fun item fields st => do
      let field ← quiet (succeeds item notJson)
      readFieldLogged S field fields st) outOfFuel fuel (S.objectBegin object st) {}

def parseCreateIndexRequestLogged (body : Bytes) : Logged LogEntry Error CreateIndexCommand := do
  let st ← quiet (succeeds (S.iterate body) notJson)
  let (object, st) ← quiet (succeeds (S.documentGetObject st)
    (malformed (ascii "The request body must be a JSON object.")))
  let (fields, st) ← readFieldsLogged S (body.length + 1) object st
  if S.atEnd st then quiet (toCommand fields) else quiet (.error notJson)

/-! ## Without the log -/

@[simp] theorem result_getStringLogged (value : S.Value) (error : Error) (st : S.State) :
    (getStringLogged S value error st).result = succeeds (S.getString value st) error := rfl

@[simp] theorem result_unescapedKeyLogged (field : S.Field) (st : S.State) :
    (unescapedKeyLogged S field st).result = succeeds (S.unescapedKey field st) notJson := rfl

@[simp] theorem result_isNullLogged (value : S.Value) (error : Error) (st : S.State) :
    (isNullLogged S value error st).result = succeeds (S.isNull value st) error := by
  rw [isNullLogged]
  split <;> simp [*, succeeds]

@[simp] theorem result_readsAsScalarLogged (value : S.Value) (type : JsonType) (st : S.State) :
    (readsAsScalarLogged S value type st).result =
      succeeds (readsAsScalar S value type st) notJson := by
  cases type with
  | number | array | object | unknown => rfl
  | string =>
      simp only [readsAsScalarLogged, readsAsScalar, result_bind, result_getStringLogged]
      cases S.getString value st <;> rfl
  | boolean =>
      simp only [readsAsScalarLogged, readsAsScalar, result_bind, getBoolLogged, result_noted]
      cases S.getBool value st <;> rfl
  | null =>
      simp only [readsAsScalarLogged, readsAsScalar, result_bind, result_isNullLogged]
      rcases S.isNull value st with _ | ⟨_ | _, st'⟩ <;> rfl

@[simp] theorem result_validateArrayLogged (fuel depth : ℕ)
    (validate : S.Value → S.State → Logged LogEntry Error S.State) (value : S.Value)
    (st : S.State) :
    (validateArrayLogged S fuel depth validate value st).result =
      validateArray S fuel (fun element st => (validate element st).result) value st := by
  simp only [validateArrayLogged, validateArray, result_bind, result_noted, result_forEach,
    result_quiet, result_pure]

@[simp] theorem result_validateObjectLogged (fuel depth : ℕ)
    (validate : S.Value → S.State → Logged LogEntry Error S.State) (value : S.Value)
    (st : S.State) :
    (validateObjectLogged S fuel depth validate value st).result =
      validateObject S fuel (fun fieldValue st => (validate fieldValue st).result) value st := by
  simp only [validateObjectLogged, validateObject, result_bind, result_noted, result_forEach,
    result_quiet, result_pure, result_unescapedKeyLogged]

/-- By induction on the levels left above the nesting bound. -/
@[simp] theorem result_validateValueLogged (fuel : ℕ) (value : S.Value) (depth : ℕ) (st : S.State) :
    (validateValueLogged S fuel value depth st).result = validateValue S fuel value depth st := by
  induction hlevels : maxNestingDepth + 1 - depth generalizing value depth st with
  | zero =>
      have hdeep : depth > maxNestingDepth := by omega
      rw [validateValueLogged, validateValue, result_between, if_pos hdeep, if_pos hdeep]
      rfl
  | succ levels ih =>
      have hshallow : ¬ depth > maxNestingDepth := by omega
      have hnested := fun value st => ih value (depth + 1) st (by omega)
      rw [validateValueLogged, validateValue, result_between, if_neg hshallow, if_neg hshallow]
      simp only [result_bind, result_quiet, result_ite, result_validateArrayLogged,
        result_validateObjectLogged, result_readsAsScalarLogged, hnested]

@[simp] theorem result_readSearchableTextLogged (fuel : ℕ) (object : S.Object) (st : S.State) :
    (readSearchableTextLogged S fuel object st).result = readSearchableText S fuel object st := by
  simp only [readSearchableTextLogged, readSearchableText, result_forEach, result_bind,
    result_quiet, result_unescapedKeyLogged, result_ite, result_validateValueLogged,
    result_getStringLogged, result_pure]

@[simp] theorem result_readDocumentLogged (fuel : ℕ) (element : S.Value) (index : ℕ)
    (st : S.State) :
    (readDocumentLogged S fuel element index st).result = readDocument S fuel element index st := by
  simp only [readDocumentLogged, readDocument, result_bind, result_quiet,
    result_readSearchableTextLogged, result_pure]

@[simp] theorem result_readDocumentsLogged (fuel : ℕ) (array : S.Array) (st : S.State) :
    (readDocumentsLogged S fuel array st).result = readDocuments S fuel array st := by
  simp only [readDocumentsLogged, readDocuments, result_bind, result_forEach, result_ite,
    result_quiet, result_readDocumentLogged, result_pure]

theorem result_parseDocumentBatchLogged (body : Bytes) :
    (parseDocumentBatchLogged S body).result = parseDocumentBatch S body := by
  simp only [parseDocumentBatchLogged, parseDocumentBatch, result_bind, result_quiet,
    result_readDocumentsLogged, result_ite, result_pure]

@[simp] theorem result_readUidLogged (value : S.Value) (fields : CreateIndexFields) (st : S.State) :
    (readUidLogged S value fields st).result = readUid S value fields st := by
  simp only [readUidLogged, readUid, result_ite, result_quiet, result_bind, result_getStringLogged,
    result_pure]

@[simp] theorem result_readPrimaryKeyLogged (value : S.Value) (fields : CreateIndexFields)
    (st : S.State) :
    (readPrimaryKeyLogged S value fields st).result = readPrimaryKey S value fields st := by
  simp only [readPrimaryKeyLogged, readPrimaryKey, result_ite, result_quiet, result_bind,
    result_isNullLogged, result_getStringLogged, result_pure]

@[simp] theorem result_readFieldLogged (field : S.Field) (fields : CreateIndexFields)
    (st : S.State) :
    (readFieldLogged S field fields st).result = readField S field fields st := by
  simp only [readFieldLogged, readField, result_bind, result_unescapedKeyLogged, result_ite,
    result_readUidLogged, result_readPrimaryKeyLogged, result_quiet]

@[simp] theorem result_readFieldsLogged (fuel : ℕ) (object : S.Object) (st : S.State) :
    (readFieldsLogged S fuel object st).result = readFields S fuel object st := by
  simp only [readFieldsLogged, readFields, result_forEach, result_bind, result_quiet,
    result_readFieldLogged]

theorem result_parseCreateIndexRequestLogged (body : Bytes) :
    (parseCreateIndexRequestLogged S body).result = parseCreateIndexRequest S body := by
  simp only [parseCreateIndexRequestLogged, parseCreateIndexRequest, result_bind, result_quiet,
    result_readFieldsLogged, result_ite]

end Leta
