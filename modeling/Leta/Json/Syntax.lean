import Leta.Json.Numbers
import Leta.Json.Strings

/-! # Concrete syntax of JSON texts

A syntax tree keeps every byte of the text it stands for, whitespace included, so a text
is a JSON text when it is `render` of some tree. -/

namespace Leta.Json

mutual

/-- A JSON value, from its first byte to its last. -/
inductive Value where
  | null
  | bool (b : Bool)
  | number (n : NumberLiteral)
  | string (s : StringLiteral)
  | emptyArray (inner : Ws)
  | array (before : Ws) (items : Items)
  | emptyObject (inner : Ws)
  | object (before : Ws) (members : Members)

/-- The elements of an array, from the first byte of the first to the closing bracket. -/
inductive Items where
  | last (v : Value) (after : Ws)
  | cons (v : Value) (after before : Ws) (rest : Items)

/-- The members of an object, from the first quote to the closing brace. -/
inductive Members where
  | last (key : StringLiteral) (beforeColon afterColon : Ws) (v : Value) (after : Ws)
  | cons (key : StringLiteral) (beforeColon afterColon : Ws) (v : Value) (after before : Ws)
      (rest : Members)

end

/-! ## Text -/

mutual

def Value.render : Value → Bytes
  | .null => ascii "null"
  | .bool true => ascii "true"
  | .bool false => ascii "false"
  | .number n => n.lexeme
  | .string s => s.render
  | .emptyArray inner => 0x5b :: inner.1 ++ [0x5d]
  | .array before items => 0x5b :: before.1 ++ items.render ++ [0x5d]
  | .emptyObject inner => 0x7b :: inner.1 ++ [0x7d]
  | .object before members => 0x7b :: before.1 ++ members.render ++ [0x7d]

def Items.render : Items → Bytes
  | .last v after => v.render ++ after.1
  | .cons v after before rest => v.render ++ after.1 ++ 0x2c :: before.1 ++ rest.render

def Members.render : Members → Bytes
  | .last key beforeColon afterColon v after =>
      key.render ++ beforeColon.1 ++ 0x3a :: afterColon.1 ++ v.render ++ after.1
  | .cons key beforeColon afterColon v after before rest =>
      key.render ++ beforeColon.1 ++ 0x3a :: afterColon.1 ++ v.render ++ after.1 ++
        0x2c :: before.1 ++ rest.render

end

/-! ## Content -/

def Items.values : Items → List Value
  | .last v _ => [v]
  | .cons v _ _ rest => v :: rest.values

def Members.fields : Members → List (StringLiteral × Value)
  | .last key _ _ v _ => [(key, v)]
  | .cons key _ _ v _ _ rest => (key, v) :: rest.fields

/-- The elements of an array, none for any other value. -/
def Value.elements : Value → List Value
  | .array _ items => items.values
  | _ => []

/-- The members of an object, none for any other value. -/
def Value.fields : Value → List (StringLiteral × Value)
  | .object _ members => members.fields
  | _ => []

def Value.isArray : Value → Bool
  | .emptyArray _ | .array _ _ => true
  | _ => false

def Value.isObject : Value → Bool
  | .emptyObject _ | .object _ _ => true
  | _ => false

mutual

/-- How many levels below the value its deepest nested value lies. -/
def Value.height : Value → ℕ
  | .array _ items => items.height + 1
  | .object _ members => members.height + 1
  | _ => 0

def Items.height : Items → ℕ
  | .last v _ => v.height
  | .cons v _ _ rest => max v.height rest.height

def Members.height : Members → ℕ
  | .last _ _ _ v _ => v.height
  | .cons _ _ _ v _ _ rest => max v.height rest.height

end

mutual

/-- Every key and string stands for a text and every number is within the range of a double. -/
def Value.Readable : Value → Prop
  | .number n => n.value.InDoubleRange
  | .string s => s.text.isSome
  | .array _ items => items.Readable
  | .object _ members => members.Readable
  | _ => True

def Items.Readable : Items → Prop
  | .last v _ => v.Readable
  | .cons v _ _ rest => v.Readable ∧ rest.Readable

def Members.Readable : Members → Prop
  | .last key _ _ v _ => key.text.isSome ∧ v.Readable
  | .cons key _ _ v _ _ rest => key.text.isSome ∧ v.Readable ∧ rest.Readable

end

/-! Both follow from the elements or the fields. -/

theorem Items.readable_iff : ∀ items : Items, items.Readable ↔ ∀ v ∈ items.values, v.Readable
  | .last v _ => by simp [Items.Readable, Items.values]
  | .cons v _ _ rest => by simp [Items.Readable, Items.values, rest.readable_iff]

theorem Items.height_le_iff (bound : ℕ) :
    ∀ items : Items, items.height ≤ bound ↔ ∀ v ∈ items.values, v.height ≤ bound
  | .last v _ => by simp [Items.height, Items.values]
  | .cons v _ _ rest => by simp [Items.height, Items.values, Items.height_le_iff bound rest]

theorem Members.readable_iff : ∀ members : Members,
    members.Readable ↔ ∀ field ∈ members.fields, field.1.text.isSome ∧ field.2.Readable
  | .last key _ _ v _ => by simp [Members.Readable, Members.fields]
  | .cons key _ _ v _ _ rest => by
      simp [Members.Readable, Members.fields, rest.readable_iff, and_assoc]

theorem Members.height_le_iff (bound : ℕ) : ∀ members : Members,
    members.height ≤ bound ↔ ∀ field ∈ members.fields, field.2.height ≤ bound
  | .last key _ _ v _ => by simp [Members.height, Members.fields]
  | .cons key _ _ v _ _ rest => by
      simp [Members.height, Members.fields, Members.height_le_iff bound rest]

theorem Value.readable_array {v : Value} (h : v.isArray) :
    v.Readable ↔ ∀ element ∈ v.elements, element.Readable := by
  cases v with
  | emptyArray => simp [Value.Readable, Value.elements]
  | array before items => exact items.readable_iff
  | null | bool | number | string | emptyObject | object => simp [Value.isArray] at h

theorem Value.readable_object {v : Value} (h : v.isObject) :
    v.Readable ↔ ∀ field ∈ v.fields, field.1.text.isSome ∧ field.2.Readable := by
  cases v with
  | emptyObject => simp [Value.Readable, Value.fields]
  | object before members => exact members.readable_iff
  | null | bool | number | string | emptyArray | array => simp [Value.isObject] at h

theorem Items.values_ne_nil (items : Items) : items.values ≠ [] := by
  cases items <;> simp [Items.values]

theorem Members.fields_ne_nil (members : Members) : members.fields ≠ [] := by
  cases members <;> simp [Members.fields]

theorem Value.height_array {v : Value} (h : v.isArray) {depth bound : ℕ} :
    depth + v.height ≤ bound ↔
      depth ≤ bound ∧ ∀ element ∈ v.elements, depth + 1 + element.height ≤ bound := by
  cases v with
  | emptyArray => simp [Value.height, Value.elements]
  | array before items =>
      obtain ⟨first, hfirst⟩ := List.exists_mem_of_ne_nil _ items.values_ne_nil
      have hiff := Items.height_le_iff (bound - (depth + 1)) items
      simp only [Value.height, Value.elements]
      refine ⟨fun hle => ⟨by omega, fun element helement => ?_⟩, fun ⟨_, hall⟩ => ?_⟩
      · have := hiff.mp (by omega) element helement
        omega
      · have hheight := hiff.mpr fun element helement => by
          have := hall element helement
          omega
        have := hall first hfirst
        omega
  | null | bool | number | string | emptyObject | object => simp [Value.isArray] at h

theorem Value.height_object {v : Value} (h : v.isObject) {depth bound : ℕ} :
    depth + v.height ≤ bound ↔
      depth ≤ bound ∧ ∀ field ∈ v.fields, depth + 1 + field.2.height ≤ bound := by
  cases v with
  | emptyObject => simp [Value.height, Value.fields]
  | object before members =>
      obtain ⟨first, hfirst⟩ := List.exists_mem_of_ne_nil _ members.fields_ne_nil
      have hiff := Members.height_le_iff (bound - (depth + 1)) members
      simp only [Value.height, Value.fields]
      refine ⟨fun hle => ⟨by omega, fun field hfield => ?_⟩, fun ⟨_, hall⟩ => ?_⟩
      · have := hiff.mp (by omega) field hfield
        omega
      · have hheight := hiff.mpr fun field hfield => by
          have := hall field hfield
          omega
        have := hall first hfirst
        omega
  | null | bool | number | string | emptyArray | array => simp [Value.isObject] at h

/-- What a JSON value means, apart from how it is written. -/
inductive Data where
  | null
  | bool (b : Bool)
  | number (d : Decimal)
  | string (text : Bytes)
  | array (elements : List Data)
  | object (members : List (Bytes × Data))

mutual

def Value.decode : Value → Option Data
  | .null => some .null
  | .bool b => some (.bool b)
  | .number n => some (.number n.value)
  | .string s => s.text.map .string
  | .emptyArray _ => some (.array [])
  | .array _ items => items.decode.map .array
  | .emptyObject _ => some (.object [])
  | .object _ members => members.decode.map .object

def Items.decode : Items → Option (List Data)
  | .last v _ => do return [← v.decode]
  | .cons v _ _ rest => do return (← v.decode) :: (← rest.decode)

def Members.decode : Members → Option (List (Bytes × Data))
  | .last key _ _ v _ => do return [(← key.text, ← v.decode)]
  | .cons key _ _ v _ _ rest => do return (← key.text, ← v.decode) :: (← rest.decode)

end

/-- The text is a JSON text, with whitespace around it, that means `data`. -/
def Denotes (text : Bytes) (data : Data) : Prop :=
  ∃ (before after : Ws) (v : Value), text = before.1 ++ (v.render ++ after.1) ∧
    v.decode = some data

/-- The member that a field stands for. -/
def FieldMeans (field : StringLiteral × Value) (member : Bytes × Data) : Prop :=
  field.1.text = some member.1 ∧ field.2.decode = some member.2

theorem Members.decode_eq_some : ∀ {members : Members} {decoded : List (Bytes × Data)},
    members.decode = some decoded ↔ List.Forall₂ FieldMeans members.fields decoded
  | .last key _ _ v _, decoded => by
      simp only [Members.decode, Members.fields, Option.bind_eq_bind, Option.bind_eq_some_iff,
        List.forall₂_cons_left_iff, List.forall₂_nil_left_iff, Option.pure_def, Option.some.injEq]
      constructor
      · rintro ⟨name, hname, data, hdata, rfl⟩
        exact ⟨_, _, ⟨hname, hdata⟩, rfl, rfl⟩
      · rintro ⟨⟨name, data⟩, _, ⟨hname, hdata⟩, rfl, rfl⟩
        exact ⟨name, hname, data, hdata, rfl⟩
  | .cons key _ _ v _ _ rest, decoded => by
      simp only [Members.decode, Members.fields, Option.bind_eq_bind, Option.bind_eq_some_iff,
        List.forall₂_cons_left_iff, Option.pure_def, Option.some.injEq, ← rest.decode_eq_some]
      constructor
      · rintro ⟨name, hname, data, hdata, others, hothers, rfl⟩
        exact ⟨_, _, ⟨hname, hdata⟩, hothers, rfl⟩
      · rintro ⟨⟨name, data⟩, others, ⟨hname, hdata⟩, hothers, rfl⟩
        exact ⟨name, hname, data, hdata, others, hothers, rfl⟩

theorem Value.decode_eq_object {v : Value} {decoded : List (Bytes × Data)} :
    v.decode = some (.object decoded) ↔
      v.isObject ∧ List.Forall₂ FieldMeans v.fields decoded := by
  cases v with
  | object before members =>
      simp [Value.decode, Value.isObject, Value.fields, Members.decode_eq_some]
  | emptyObject inner => simp [Value.decode, Value.isObject, Value.fields, eq_comm]
  | null | bool | number | string | emptyArray | array => simp [Value.decode, Value.isObject]

theorem Value.decode_eq_string {v : Value} {text : Bytes} :
    v.decode = some (.string text) ↔ ∃ s, v = .string s ∧ s.text = some text := by
  cases v <;> simp [Value.decode]

theorem Value.decode_eq_null {v : Value} : v.decode = some .null ↔ v = .null := by
  cases v <;> simp [Value.decode]

/-! ## First bytes -/

theorem isWs_digit {b : UInt8} (h : isDigit b) : isWs b = false := by
  have := (isNumberByte_plain (isNumberByte_of_isDigit h)).1
  simp only [isDelimiter, Bool.or_eq_false_iff] at this
  exact this.1

/-- A value starts with a byte that is neither whitespace nor a closing bracket. -/
theorem Value.exists_head (v : Value) :
    ∃ b rest, v.render = b :: rest ∧ isWs b = false ∧ b ≠ 0x5d ∧ b ≠ 0x7d := by
  cases v with
  | null => exact ⟨0x6e, ascii "ull", rfl, by decide⟩
  | bool b =>
      cases b
      · exact ⟨0x66, ascii "alse", rfl, by decide⟩
      · exact ⟨0x74, ascii "rue", rfl, by decide⟩
  | number n =>
      obtain ⟨b, rest, h, hb⟩ := n.exists_head
      refine ⟨b, rest, by rw [render, h], ?_⟩
      rcases hb with rfl | hb
      · decide
      · refine ⟨isWs_digit hb, ?_, ?_⟩ <;> rintro rfl <;> exact absurd hb (by decide)
  | string s => exact ⟨0x22, s.body ++ [0x22], rfl, by decide⟩
  | emptyArray inner => exact ⟨0x5b, inner.1 ++ [0x5d], rfl, by decide⟩
  | array before items => exact ⟨0x5b, before.1 ++ items.render ++ [0x5d], rfl, by decide⟩
  | emptyObject inner => exact ⟨0x7b, inner.1 ++ [0x7d], rfl, by decide⟩
  | object before members => exact ⟨0x7b, before.1 ++ members.render ++ [0x7d], rfl, by decide⟩

theorem Value.skipWs_render (v : Value) (rest : Bytes) :
    skipWs (v.render ++ rest) = v.render ++ rest := by
  obtain ⟨b, tail, h, hb, -⟩ := v.exists_head
  rw [h, List.cons_append, skipWs_cons hb]

theorem Value.exists_array_head {v : Value} (h : v.isArray) :
    ∃ inner, v.render = 0x5b :: (inner ++ [0x5d]) := by
  cases v with
  | emptyArray inner => exact ⟨inner.1, rfl⟩
  | array before items => exact ⟨before.1 ++ items.render, rfl⟩
  | null | bool | number | string | emptyObject | object => simp [Value.isArray] at h

theorem Value.exists_object_head {v : Value} (h : v.isObject) :
    ∃ inner, v.render = 0x7b :: (inner ++ [0x7d]) := by
  cases v with
  | emptyObject inner => exact ⟨inner.1, rfl⟩
  | object before members => exact ⟨before.1 ++ members.render, rfl⟩
  | null | bool | number | string | emptyArray | array => simp [Value.isObject] at h

theorem Items.exists_head (items : Items) :
    ∃ b rest, items.render = b :: rest ∧ isWs b = false ∧ b ≠ 0x5d := by
  cases items with
  | last v after | cons v after before rest =>
      obtain ⟨b, tail, h, hb, hclose, -⟩ := v.exists_head
      exact ⟨b, _, by rw [Items.render, h]; rfl, hb, hclose⟩

theorem Members.exists_head (members : Members) :
    ∃ rest, members.render = 0x22 :: rest := by
  cases members with
  | last | cons => exact ⟨_, rfl⟩

end Leta.Json
