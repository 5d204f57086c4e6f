import Leta.Json.Syntax

/-! # Objects written without whitespace -/

namespace Leta.Json

/-- The text of a field, without whitespace. -/
def fieldJson (field : StringLiteral × Value) : Bytes :=
  field.1.render ++ 0x3a :: field.2.render

/-- The text of fields, with commas in between. -/
def fieldsJson : List (StringLiteral × Value) → Bytes
  | [] => []
  | [field] => fieldJson field
  | field :: next :: fields => fieldJson field ++ 0x2c :: fieldsJson (next :: fields)

theorem exists_members (field : StringLiteral × Value) (fields : List (StringLiteral × Value)) :
    ∃ members : Members, members.render = fieldsJson (field :: fields) ∧
      members.fields = field :: fields := by
  induction fields generalizing field with
  | nil =>
      refine ⟨.last field.1 Ws.none Ws.none field.2 Ws.none, ?_, rfl⟩
      simp [Members.render, fieldsJson, fieldJson, Ws.none]
  | cons next fields ih =>
      obtain ⟨members, hrender, hfields⟩ := ih next
      refine ⟨.cons field.1 Ws.none Ws.none field.2 Ws.none Ws.none members, ?_, ?_⟩
      · simp [Members.render, fieldsJson, fieldJson, Ws.none, hrender]
      · rw [Members.fields, hfields]

/-- The text of an object that has fields. -/
theorem denotes_fieldsJson {field : StringLiteral × Value} {fields : List (StringLiteral × Value)}
    {members : List (Bytes × Data)} (h : List.Forall₂ FieldMeans (field :: fields) members) :
    Denotes (0x7b :: (fieldsJson (field :: fields) ++ [0x7d])) (.object members) := by
  obtain ⟨written, hrender, hfields⟩ := exists_members field fields
  refine ⟨Ws.none, Ws.none, .object Ws.none written, ?_, ?_⟩
  · simp [Value.render, Ws.none, hrender]
  · rw [Value.decode_eq_object]
    exact ⟨rfl, by rwa [Value.fields, hfields]⟩

end Leta.Json
