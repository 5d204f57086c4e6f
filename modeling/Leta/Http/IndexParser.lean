import Leta.Core.Types
import Leta.Ondemand.Loops

/-! # Reading a create-index request

The parser of `POST /indexes`. Fields arrive in any order, so whether `uid` is present is
decided after the last one. -/

namespace Leta

variable (S : Ondemand)

def uidField : Bytes := ascii "uid"

def primaryKeyField : Bytes := ascii "primaryKey"

/-- The body as read so far. No primary key with `hasPrimaryKey`: the client sent null. -/
structure CreateIndexFields where
  uid : Option Bytes := none
  hasPrimaryKey : Bool := false
  primaryKey : Option Bytes := none

def fieldMustBe (fieldName expectation : Bytes) : Error :=
  malformed (ascii "Field `" ++ fieldName ++ ascii "` must be " ++ expectation ++ ascii ".")

def appearsMoreThanOnce (fieldName : Bytes) : Error :=
  malformed (ascii "Field `" ++ fieldName ++ ascii "` appears more than once.")

def unknownField (fieldName : Bytes) : Error :=
  ⟨.unknownField, ascii "Unknown field `" ++ fieldName ++ ascii "`."⟩

def readUid (value : S.Value) (fields : CreateIndexFields) (st : S.State) :
    Result (CreateIndexFields × S.State) :=
  if fields.uid.isSome then .error (appearsMoreThanOnce uidField)
  else do
    let (uid, st) ← succeeds (S.getString value st) (fieldMustBe uidField (ascii "a string"))
    return ({ fields with uid := some uid }, st)

def readPrimaryKey (value : S.Value) (fields : CreateIndexFields) (st : S.State) :
    Result (CreateIndexFields × S.State) :=
  if fields.hasPrimaryKey then .error (appearsMoreThanOnce primaryKeyField)
  else do
    let fields := { fields with hasPrimaryKey := true }
    let (isNull, st) ← succeeds (S.isNull value st)
      (fieldMustBe primaryKeyField (ascii "a string or null"))
    if isNull then return (fields, st)
    else
      let (primaryKey, st) ← succeeds (S.getString value st)
        (fieldMustBe primaryKeyField (ascii "a string or null"))
      return ({ fields with primaryKey := some primaryKey }, st)

def readField (field : S.Field) (fields : CreateIndexFields) (st : S.State) :
    Result (CreateIndexFields × S.State) := do
  let (key, st) ← succeeds (S.unescapedKey field st) notJson
  if key = uidField then readUid S (S.fieldValue field) fields st
  else if key = primaryKeyField then readPrimaryKey S (S.fieldValue field) fields st
  else .error (unknownField key)

def readFields (fuel : ℕ) (object : S.Object) (st : S.State) :
    Result (CreateIndexFields × S.State) :=
  forEach (S.objectNext object) (fun item fields st => do
      let field ← succeeds item notJson
      readField S field fields st) outOfFuel fuel (S.objectBegin object st) {}

def toCommand (fields : CreateIndexFields) : Result CreateIndexCommand := do
  let text ← succeeds fields.uid (malformed (ascii "Field `uid` is required."))
  let uid ← IndexUid.parse text
  return ⟨uid, fields.primaryKey⟩

def parseCreateIndexRequest (body : Bytes) : Result CreateIndexCommand := do
  let st ← succeeds (S.iterate body) notJson
  let (object, st) ← succeeds (S.documentGetObject st)
    (malformed (ascii "The request body must be a JSON object."))
  let (fields, st) ← readFields S (body.length + 1) object st
  if S.atEnd st then toCommand fields else .error notJson

end Leta
