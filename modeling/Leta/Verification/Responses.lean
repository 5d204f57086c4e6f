import Leta.Verification.Batches
import Leta.Verification.Catalogue
import Leta.Verification.IndexParser
import Leta.Verification.Writing

/-! # What the bodies of responses say

Every body is a JSON object of the documented members, whatever text the client sent. -/

namespace Leta

open Json

/-! ## Members -/

def stringField (key : String) (value : Bytes) : StringLiteral × Json.Value :=
  (literalOf (ascii key), .string (literalOf value))

def countField (key : String) (count : ℕ) : StringLiteral × Json.Value :=
  (literalOf (ascii key), .number (.ofNat count))

def nullField (key : String) : StringLiteral × Json.Value := (literalOf (ascii key), .null)

/-- The number a count is. -/
def countData (count : ℕ) : Data := .number ⟨false, count, 0⟩

theorem means_stringField (key : String) (value : Bytes) :
    FieldMeans (stringField key value) (ascii key, .string value) :=
  ⟨text_literalOf _, Value.decode_eq_string.mpr ⟨_, rfl, text_literalOf value⟩⟩

theorem means_countField (key : String) (count : ℕ) :
    FieldMeans (countField key count) (ascii key, countData count) :=
  ⟨text_literalOf _, rfl⟩

theorem means_nullField (key : String) : FieldMeans (nullField key) (ascii key, .null) :=
  ⟨text_literalOf _, rfl⟩

/-! ## Errors -/

/-- What the body of an error says. -/
def errorData (error : Error) : Data := .object [
  (ascii "code", .string (wireError error.code).code),
  (ascii "message", .string error.message),
  (ascii "type", .string (wireType (errorType error.code)))]

theorem render_wireCode (code : ErrorCode) :
    (literalOf (wireError code).code).render = 0x22 :: ((wireError code).code ++ [0x22]) := by
  cases code <;> rfl

theorem render_wireType (type : ErrorType) :
    (literalOf (wireType type)).render = 0x22 :: (wireType type ++ [0x22]) := by
  cases type <;> rfl

theorem body_errorResponse (error : Error) :
    (errorResponse error).body = 0x7b :: (fieldsJson [
      stringField "code" (wireError error.code).code, stringField "message" error.message,
      stringField "type" (wireType (errorType error.code))] ++ [0x7d]) := by
  have hcode : ascii "\x7b\"code\":\"" =
      0x7b :: ((literalOf (ascii "code")).render ++ [0x3a, 0x22]) := by decide
  have hmessage : ascii "\",\"message\":" =
      0x22 :: 0x2c :: ((literalOf (ascii "message")).render ++ [0x3a]) := by decide
  have htype : ascii ",\"type\":\"" =
      0x2c :: ((literalOf (ascii "type")).render ++ [0x3a, 0x22]) := by decide
  have hclose : ascii "\"\x7d" = [0x22, 0x7d] := by decide
  simp only [errorResponse, appendJsonString_literalOf, fieldsJson, fieldJson, stringField,
    Value.render, render_wireCode, render_wireType, hcode, hmessage, htype, hclose]
  simp

theorem denotes_errorResponse (error : Error) :
    Denotes (errorResponse error).body (errorData error) := by
  rw [body_errorResponse]
  exact denotes_fieldsJson (.cons (means_stringField _ _) (.cons (means_stringField _ _)
    (.cons (means_stringField _ _) .nil)))

theorem isAscii_wireCode (code : ErrorCode) : ∀ b ∈ (wireError code).code, isAscii b := by
  cases code <;> exact List.all_eq_true.mp (by decide)

theorem isAscii_wireType (type : ErrorType) : ∀ b ∈ wireType type, isAscii b := by
  cases type <;> exact List.all_eq_true.mp (by decide)

theorem validUtf8_errorResponse {error : Error} (h : ValidUtf8 error.message) :
    ValidUtf8 (errorResponse error).body := by
  simp only [errorResponse, appendJsonString_literalOf]
  have hfront : ValidUtf8 (ascii "\x7b\"code\":\"") := .of_all (by decide)
  have hthen : ValidUtf8 (ascii "\",\"message\":") := .of_all (by decide)
  have hlast : ValidUtf8 (ascii ",\"type\":\"") := .of_all (by decide)
  have hcode := hfront.append
    (.of_isAscii (isAscii_wireCode error.code))
  have hmessage := (hcode.append hthen).append
    (validUtf8_literalOf h)
  have htype := (hmessage.append hlast).append
    (.of_isAscii (isAscii_wireType (errorType error.code)))
  exact htype.append (.of_all (by decide))

/-- Every error is answered with a status of 400 or more. -/
theorem status_errorResponse (error : Error) : 400 ≤ (errorResponse error).status := by
  change 400 ≤ (wireError error.code).status
  cases error.code <;> decide

/-! ## Indexes -/

/-- The primary key member of an index, which is null without one. -/
def primaryKeyOrNull : Option Bytes → StringLiteral × Json.Value
  | some primaryKey => stringField "primaryKey" primaryKey
  | none => nullField "primaryKey"

def primaryKeyData : Option Bytes → Data
  | some primaryKey => .string primaryKey
  | none => .null

theorem body_indexJson (index : IndexMetadata) :
    indexJson index = 0x7b :: (fieldsJson [stringField "uid" index.uid.value,
      primaryKeyOrNull index.primaryKey, stringField "createdAt" (dateTimeOf index.createdAt),
      stringField "updatedAt" (dateTimeOf index.updatedAt)] ++ [0x7d]) := by
  have huid : ascii "\x7b\"uid\":" = 0x7b :: ((literalOf (ascii "uid")).render ++ [0x3a]) := by
    decide
  have hprimaryKey : ascii ",\"primaryKey\":" =
      0x2c :: ((literalOf (ascii "primaryKey")).render ++ [0x3a]) := by decide
  have hcreatedAt : ascii ",\"createdAt\":" =
      0x2c :: ((literalOf (ascii "createdAt")).render ++ [0x3a]) := by decide
  have hupdatedAt : ascii ",\"updatedAt\":" =
      0x2c :: ((literalOf (ascii "updatedAt")).render ++ [0x3a]) := by decide
  have hclose : ascii "\x7d" = [0x7d] := by decide
  cases h : index.primaryKey <;>
    simp [indexJson, h, appendJsonString_literalOf, appendJsonTimestamp_literalOf, fieldsJson,
      fieldJson, stringField, nullField, primaryKeyOrNull, Value.render, huid, hprimaryKey,
      hcreatedAt, hupdatedAt, hclose]

/-- What the body of a created index says. -/
def indexData (uid : Bytes) (primaryKey : Option Bytes) (createdAt updatedAt : Bytes) : Data :=
  .object [(ascii "uid", .string uid), (ascii "primaryKey", primaryKeyData primaryKey),
    (ascii "createdAt", .string createdAt), (ascii "updatedAt", .string updatedAt)]

theorem denotes_indexJson (index : IndexMetadata) :
    Denotes (indexJson index) (indexData index.uid.value index.primaryKey
      (dateTimeOf index.createdAt) (dateTimeOf index.updatedAt)) := by
  have hprimaryKey : FieldMeans (primaryKeyOrNull index.primaryKey)
      (ascii "primaryKey", primaryKeyData index.primaryKey) := by
    cases index.primaryKey with
    | some primaryKey => exact means_stringField _ _
    | none => exact means_nullField _
  rw [body_indexJson]
  exact denotes_fieldsJson (.cons (means_stringField _ _) (.cons hprimaryKey
    (.cons (means_stringField _ _) (.cons (means_stringField _ _) .nil))))

theorem validUtf8_uid (uid : IndexUid) : ValidUtf8 uid.value := by
  refine .of_isAscii fun b hb => ?_
  have := (isUidCharacter_plain (List.all_eq_true.mp uid.form.2 b hb)).2.1
  simpa [isAscii] using this

theorem validUtf8_indexJson {index : IndexMetadata}
    (h : ∀ primaryKey ∈ index.primaryKey, ValidUtf8 primaryKey) : ValidUtf8 (indexJson index) := by
  simp only [indexJson, appendJsonString_literalOf, appendJsonTimestamp_literalOf]
  have hfront : ValidUtf8 (ascii "\x7b\"uid\":") := .of_all (by decide)
  have hthen : ValidUtf8 (ascii ",\"primaryKey\":") := .of_all (by decide)
  have huid := hfront.append (validUtf8_literalOf (validUtf8_uid index.uid))
  have hname := huid.append hthen
  refine .append (.append (.append (.append (.append ?_ (.of_all (by decide)))
    (validUtf8_literalOf (validUtf8_dateTimeOf _))) (.of_all (by decide)))
    (validUtf8_literalOf (validUtf8_dateTimeOf _))) (.of_all (by decide))
  cases hprimaryKey : index.primaryKey with
  | some primaryKey => exact hname.append (validUtf8_literalOf (h primaryKey hprimaryKey))
  | none => exact hname.append (.of_all (by decide))

/-! ## Batches -/

/-- What the body of an accepted batch says. The primary key is there when the index has one. -/
def ingestData (received indexed : ℕ) (primaryKey : Option Bytes) (processingTime : ℕ) : Data :=
  .object ([(ascii "received", countData received), (ascii "indexed", countData indexed)] ++
    (primaryKey.map fun primaryKey => (ascii "primaryKey", Data.string primaryKey)).toList ++
    [(ascii "processingTimeMs", countData processingTime)])

theorem body_ingestResultJson (received : ℕ) (outcome : AddDocumentsOutcome)
    (processingTime : ℕ) : ingestResultJson received outcome processingTime =
      0x7b :: (fieldsJson ([countField "received" received, countField "indexed" outcome.indexed] ++
        (outcome.primaryKey.map (stringField "primaryKey")).toList ++
        [countField "processingTimeMs" processingTime]) ++ [0x7d]) := by
  have hreceived : ascii "\x7b\"received\":" =
      0x7b :: ((literalOf (ascii "received")).render ++ [0x3a]) := by decide
  have hindexed : ascii ",\"indexed\":" =
      0x2c :: ((literalOf (ascii "indexed")).render ++ [0x3a]) := by decide
  have hprimaryKey : ascii ",\"primaryKey\":" =
      0x2c :: ((literalOf (ascii "primaryKey")).render ++ [0x3a]) := by decide
  have htime : ascii ",\"processingTimeMs\":" =
      0x2c :: ((literalOf (ascii "processingTimeMs")).render ++ [0x3a]) := by decide
  have hclose : ascii "\x7d" = [0x7d] := by decide
  cases h : outcome.primaryKey <;>
    simp [ingestResultJson, h, appendJsonString_literalOf, fieldsJson, fieldJson, stringField,
      countField, NumberLiteral.ofNat, Value.render, hreceived, hindexed, hprimaryKey, htime,
      hclose]

theorem denotes_ingestResultJson (received : ℕ) (outcome : AddDocumentsOutcome)
    (processingTime : ℕ) : Denotes (ingestResultJson received outcome processingTime)
      (ingestData received outcome.indexed outcome.primaryKey processingTime) := by
  rw [body_ingestResultJson, ingestData]
  cases outcome.primaryKey with
  | some primaryKey =>
      exact denotes_fieldsJson (.cons (means_countField _ _) (.cons (means_countField _ _)
        (.cons (means_stringField _ _) (.cons (means_countField _ _) .nil))))
  | none =>
      exact denotes_fieldsJson (.cons (means_countField _ _) (.cons (means_countField _ _)
        (.cons (means_countField _ _) .nil)))

theorem validUtf8_ingestResultJson {received : ℕ} {outcome : AddDocumentsOutcome}
    {processingTime : ℕ} (h : ∀ primaryKey ∈ outcome.primaryKey, ValidUtf8 primaryKey) :
    ValidUtf8 (ingestResultJson received outcome processingTime) := by
  have hdecimal : ∀ n, ValidUtf8 (decimal n) := fun n => .of_isAscii isAscii_of_mem_decimal
  have hfront : ValidUtf8 (ascii "\x7b\"received\":") := .of_all (by decide)
  have hthen : ValidUtf8 (ascii ",\"indexed\":") := .of_all (by decide)
  have hcounts :=
    ((hfront.append (hdecimal received)).append hthen).append (hdecimal outcome.indexed)
  simp only [ingestResultJson, appendJsonString_literalOf]
  refine .append (.append (.append ?_ (.of_all (by decide))) (hdecimal _))
    (.of_all (by decide))
  cases hprimaryKey : outcome.primaryKey with
  | some primaryKey =>
      exact (hcounts.append (.of_all (by decide))).append
        (validUtf8_literalOf (h primaryKey hprimaryKey))
  | none => exact hcounts

end Leta
