import Leta.Foundation.RangeFor
import Leta.Json.Scan

/-! # The JSON parser the routes call

simdjson's On-Demand API as a parameter: the calls the routes make and the documented
behaviour they rely on. A cursor moves forward over one text, and a handle (a value, an
array, an object, a field) is good for reading only while the cursor stands at it. -/

namespace Leta

open Json

/-- simdjson's `json_type`. -/
inductive JsonType where
  | array | object | number | string | boolean | null | unknown
  deriving DecidableEq, Repr

/-- The part of the On-Demand API in use. `none` stands for every error code but `SUCCESS`. -/
structure Ondemand where
  /-- The document with its parser: the position over the text and the string buffer. -/
  State : Type
  Value : Type
  Array : Type
  Object : Type
  Field : Type
  iterate : Bytes → Option State
  documentGetArray : State → Option (Array × State)
  documentGetObject : State → Option (Object × State)
  atEnd : State → Bool
  arrayBegin : Array → State → Step State Value
  arrayNext : Array → State → Step State Value
  objectBegin : Object → State → Step State Field
  objectNext : Object → State → Step State Field
  unescapedKey : Field → State → Option (Bytes × State)
  fieldValue : Field → Value
  type : Value → State → Option JsonType
  getArray : Value → State → Option (Array × State)
  getObject : Value → State → Option (Object × State)
  /-- The double itself is used nowhere. -/
  getDouble : Value → State → Option State
  getString : Value → State → Option (Bytes × State)
  getBool : Value → State → Option (Bool × State)
  isNull : Value → State → Option (Bool × State)
  rawJson : Object → State → Option (Bytes × State)
  reset : Object → State → Option (Bool × State)
  /-- `current_location()`: the text from the next token on. -/
  location : State → Bytes
  /-- `current_depth()`. -/
  depth : State → ℕ
  /-- Where a value's first token is, and at what depth. -/
  start : Value → Bytes × ℕ
  /-- The text from a field's key on. -/
  keyLocation : Field → Bytes
  arrayDepth : Array → ℕ
  objectDepth : Object → ℕ

namespace Ondemand

variable (S : Ondemand)

/-! ## Where the cursor stands -/

def Stands (st : S.State) (text : Bytes) (depth : ℕ) : Prop :=
  S.location st = text ∧ S.depth st = depth

/-- The cursor stands at the value, of which nothing has been read. -/
def At (v : S.Value) (st : S.State) : Prop :=
  S.start v = (S.location st, S.depth st)

def Finishes {Item : Type} (step : Step S.State Item) (text : Bytes) (depth : ℕ) : Prop :=
  ∃ st, step = .finished st ∧ S.Stands st text depth

def Fails {Item : Type} (step : Step S.State Item) : Prop :=
  ∃ st, step = .yielded none st

def YieldsValue (step : Step S.State S.Value) (text : Bytes) (depth : ℕ) : Prop :=
  ∃ v st, step = .yielded (some v) st ∧ S.Stands st text depth ∧ S.At v st

/-- The field just reached has this key, and the cursor stands at its value. -/
structure FieldAt (f : S.Field) (key : StringLiteral) (text : Bytes) (depth : ℕ)
    (st : S.State) : Prop where
  stands : S.Stands st text depth
  at_value : S.At (S.fieldValue f) st
  key_sound : ∀ {k st'}, S.unescapedKey f st = some (k, st') →
    key.text = some k ∧ S.Stands st' text depth ∧ S.At (S.fieldValue f) st'
  key_complete : ∀ {k}, key.text = some k → ∃ st', S.unescapedKey f st = some (k, st')

/-- A step that reads a key and a colon where `text` starts, or fails for want of them. -/
structure StepsToField (step : Step S.State S.Field) (text : Bytes) (depth : ℕ) : Prop where
  field : ∀ (key : StringLiteral) (w : Ws) inner, text = key.render ++ (w.1 ++ 0x3a :: inner) →
    ∃ f st, step = .yielded (some f) st ∧ S.keyLocation f = text ∧
      S.FieldAt f key (skipWs inner) depth st
  malformed : (∀ (key : StringLiteral) (w : Ws) inner,
    text ≠ key.render ++ (w.1 ++ 0x3a :: inner)) → S.Fails step

/-- The array's range may begin: `inner` is the text behind its bracket. -/
structure OpensArray (a : S.Array) (inner : Bytes) (depth : ℕ) (st : S.State) : Prop where
  depth_eq : S.arrayDepth a = depth
  empty : ∀ {rest}, skipWs inner = 0x5d :: rest →
    S.Finishes (S.arrayBegin a st) (skipWs rest) (depth - 1)
  first : (∀ rest, skipWs inner ≠ 0x5d :: rest) →
    S.YieldsValue (S.arrayBegin a st) (skipWs inner) (depth + 1)

structure OpensObject (o : S.Object) (inner : Bytes) (depth : ℕ) (st : S.State) : Prop where
  depth_eq : S.objectDepth o = depth
  empty : ∀ {rest}, skipWs inner = 0x7d :: rest →
    S.Finishes (S.objectBegin o st) (skipWs rest) (depth - 1)
  first : (∀ rest, skipWs inner ≠ 0x7d :: rest) →
    S.StepsToField (S.objectBegin o st) (skipWs inner) (depth + 1)

/-- The type a value's first byte announces. -/
def announcedType (text : Bytes) : Option JsonType :=
  match text with
  | [] => none
  | b :: _ =>
      if b = 0x5b then some .array
      else if b = 0x7b then some .object
      else if b = 0x22 then some .string
      else if b = 0x74 ∨ b = 0x66 then some .boolean
      else if b = 0x6e then some .null
      else if b = 0x2d ∨ isDigit b then some .number
      else none

/-- The type of a well-formed value. -/
def typeOf : Json.Value → JsonType
  | .null => .null
  | .bool _ => .boolean
  | .number _ => .number
  | .string _ => .string
  | .emptyArray _ | .array _ _ => .array
  | .emptyObject _ | .object _ _ => .object

theorem announcedType_render (v : Json.Value) (rest : Bytes) :
    announcedType (v.render ++ rest) = some (typeOf v) := by
  cases v with
  | bool b => cases b <;> rfl
  | number n =>
      obtain ⟨b, tail, hhead, hb⟩ := n.exists_head
      rw [Value.render, hhead, List.cons_append]
      rcases hb with rfl | hb
      · rfl
      · have hne : ∀ c : UInt8, isDigit c = false → b ≠ c := by
          rintro c hc rfl
          exact absurd (hb.symm.trans hc) (by decide)
        simp [announcedType, typeOf, hb, hne 0x5b rfl, hne 0x7b rfl, hne 0x22 rfl, hne 0x74 rfl,
          hne 0x66 rfl, hne 0x6e rfl]
  | null | string | emptyArray | array | emptyObject | object => rfl

/-! ## Documented behaviour -/

/-- What simdjson documents of these calls. A `sound` law says what a success means, a
`complete` law when success is certain; tokens are separated by whitespace only. -/
structure Lawful : Prop where
  iterate_sound : ∀ {body st}, S.iterate body = some st →
    ValidUtf8 (dropByteOrderMark body) ∧ S.Stands st (skipWs (dropByteOrderMark body)) 1
  iterate_complete : ∀ {body}, ValidUtf8 (dropByteOrderMark body) →
    skipWs (dropByteOrderMark body) ≠ [] → stringsClosed false (dropByteOrderMark body) →
    ∃ st, S.iterate body = some st
  documentGetArray_sound : ∀ {body st a st'}, S.iterate body = some st →
    S.documentGetArray st = some (a, st') →
    ∃ inner, S.location st = 0x5b :: inner ∧ S.OpensArray a inner 1 st'
  /-- The first and the last token of the document are looked at. -/
  documentGetArray_complete : ∀ {body st inner} {w : Ws}, S.iterate body = some st →
    S.location st = 0x5b :: (inner ++ 0x5d :: w.1) → ∃ a st', S.documentGetArray st = some (a, st')
  documentGetObject_sound : ∀ {body st o st'}, S.iterate body = some st →
    S.documentGetObject st = some (o, st') →
    ∃ inner, S.location st = 0x7b :: inner ∧ S.OpensObject o inner 1 st'
  documentGetObject_complete : ∀ {body st inner} {w : Ws}, S.iterate body = some st →
    S.location st = 0x7b :: (inner ++ 0x7d :: w.1) → ∃ o st', S.documentGetObject st = some (o, st')
  atEnd_iff : ∀ st, S.atEnd st ↔ S.location st = []
  arrayNext_comma : ∀ {a st rest}, S.depth st = S.arrayDepth a → S.location st = 0x2c :: rest →
    S.YieldsValue (S.arrayNext a st) (skipWs rest) (S.arrayDepth a + 1)
  arrayNext_close : ∀ {a st rest}, S.depth st = S.arrayDepth a → S.location st = 0x5d :: rest →
    S.Finishes (S.arrayNext a st) (skipWs rest) (S.arrayDepth a - 1)
  arrayNext_other : ∀ {a st}, S.depth st = S.arrayDepth a → (∀ rest, S.location st ≠ 0x2c :: rest) →
    (∀ rest, S.location st ≠ 0x5d :: rest) → S.Fails (S.arrayNext a st)
  objectNext_comma : ∀ {o st rest}, S.depth st = S.objectDepth o → S.location st = 0x2c :: rest →
    S.StepsToField (S.objectNext o st) (skipWs rest) (S.objectDepth o + 1)
  objectNext_close : ∀ {o st rest}, S.depth st = S.objectDepth o → S.location st = 0x7d :: rest →
    S.Finishes (S.objectNext o st) (skipWs rest) (S.objectDepth o - 1)
  objectNext_other : ∀ {o st}, S.depth st = S.objectDepth o →
    (∀ rest, S.location st ≠ 0x2c :: rest) → (∀ rest, S.location st ≠ 0x7d :: rest) →
    S.Fails (S.objectNext o st)
  type_complete : ∀ {v st t}, S.At v st → announcedType (S.location st) = some t →
    S.type v st = some t
  getArray_sound : ∀ {v st a st'}, S.At v st → S.getArray v st = some (a, st') →
    ∃ inner, S.location st = 0x5b :: inner ∧ S.OpensArray a inner (S.depth st) st'
  getArray_complete : ∀ {v st inner}, S.At v st → S.location st = 0x5b :: inner →
    ∃ a st', S.getArray v st = some (a, st')
  getObject_sound : ∀ {v st o st'}, S.At v st → S.getObject v st = some (o, st') →
    ∃ inner, S.location st = 0x7b :: inner ∧ S.OpensObject o inner (S.depth st) st'
  getObject_complete : ∀ {v st inner}, S.At v st → S.location st = 0x7b :: inner →
    ∃ o st', S.getObject v st = some (o, st')
  getDouble_sound : ∀ {v st st'}, S.At v st → S.getDouble v st = some st' →
    ∃ (n : NumberLiteral) (rest : Bytes), S.location st = n.lexeme ++ rest ∧
      n.value.InDoubleRange ∧ S.Stands st' (skipWs rest) (S.depth st - 1)
  getDouble_complete : ∀ {v st rest} {n : NumberLiteral}, S.At v st →
    S.location st = n.lexeme ++ rest → Delimited rest → n.value.InDoubleRange →
    ∃ st', S.getDouble v st = some st' ∧ S.Stands st' (skipWs rest) (S.depth st - 1)
  getString_sound : ∀ {v st text st'}, S.At v st → S.getString v st = some (text, st') →
    ∃ (s : StringLiteral) (rest : Bytes), S.location st = s.render ++ rest ∧
      s.text = some text ∧ S.Stands st' (skipWs rest) (S.depth st - 1)
  getString_complete : ∀ {v st text rest} {s : StringLiteral}, S.At v st →
    S.location st = s.render ++ rest → s.text = some text →
    ∃ st', S.getString v st = some (text, st') ∧ S.Stands st' (skipWs rest) (S.depth st - 1)
  getBool_sound : ∀ {v st b st'}, S.At v st → S.getBool v st = some (b, st') →
    ∃ rest, S.location st = (Value.bool b).render ++ rest ∧
      S.Stands st' (skipWs rest) (S.depth st - 1)
  getBool_complete : ∀ {v st b rest}, S.At v st → S.location st = (Value.bool b).render ++ rest →
    Delimited rest →
    ∃ st', S.getBool v st = some (b, st') ∧ S.Stands st' (skipWs rest) (S.depth st - 1)
  isNull_sound : ∀ {v st st'}, S.At v st → S.isNull v st = some (true, st') →
    ∃ rest, S.location st = Value.null.render ++ rest ∧ S.Stands st' (skipWs rest) (S.depth st - 1)
  isNull_complete : ∀ {v st rest}, S.At v st → S.location st = Value.null.render ++ rest →
    Delimited rest →
    ∃ st', S.isNull v st = some (true, st') ∧ S.Stands st' (skipWs rest) (S.depth st - 1)
  /-- Asking leaves a value that is not null unread. -/
  isNull_unread : ∀ {v st st'}, S.At v st → S.isNull v st = some (false, st') →
    S.At v st' ∧ S.Stands st' (S.location st) (S.depth st)
  isNull_string : ∀ {v st rest}, S.At v st → S.location st = 0x22 :: rest →
    ∃ st', S.isNull v st = some (false, st')
  /-- The slice of a well-formed object ends where the next token starts. -/
  rawJson_complete : ∀ {v st o st' rest} {w : Json.Value}, S.At v st →
    S.getObject v st = some (o, st') → S.location st = w.render ++ rest → w.isObject →
    ∃ st'', S.rawJson o st' = some (w.render ++ (leadingWs rest).1, st'')
  reset_sound : ∀ {v st o st' inner raw st'' hasFields st'''}, S.At v st →
    S.getObject v st = some (o, st') → S.location st = 0x7b :: inner →
    S.rawJson o st' = some (raw, st'') → S.reset o st'' = some (hasFields, st''') →
    S.OpensObject o inner (S.depth st) st'''
  reset_complete : ∀ {v st o st' raw st''}, S.At v st → S.getObject v st = some (o, st') →
    S.rawJson o st' = some (raw, st'') → ∃ hasFields st''', S.reset o st'' = some (hasFields, st''')

/-- A number is read as a whole: the byte behind it, if there is one, must end it. -/
def ReadsWholeNumbers : Prop := ∀ {v st st'}, S.At v st → S.getDouble v st = some st' →
  ∃ (n : NumberLiteral) (rest : Bytes), S.location st = n.lexeme ++ rest ∧
    (∀ b ∈ rest.head?, isDelimiter b) ∧ n.value.InDoubleRange ∧
    S.Stands st' (skipWs rest) (S.depth st - 1)

/-- What is left of a body when it has been opened. -/
theorem Lawful.length_location_le {S : Ondemand} (laws : S.Lawful) {body : Bytes} {st : S.State}
    (h : S.iterate body = some st) : (S.location st).length ≤ body.length := by
  rw [(laws.iterate_sound h).2.1]
  exact (length_skipWs_le _).trans (length_dropByteOrderMark_le body)

end Ondemand

end Leta
