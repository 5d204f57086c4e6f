import Leta.Foundation.DateTime
import Leta.Json.Syntax

/-! # Schemas

As much of JSON Schema as the description of the API needs. -/

namespace Leta.Json

/-- The number is an integer, however it is written. -/
def Decimal.IsInteger (d : Decimal) : Prop :=
  0 ≤ d.exponent ∨ 10 ^ d.exponent.natAbs ∣ d.mantissa

inductive Schema where
  | null
  | string
  | integer
  | number
  | enum (texts : List Bytes)
  /-- `^[characters]{least,most}$` -/
  | pattern (characters : Bytes) (least most : ℕ)
  /-- The `date-time`s that are in UTC and to the millisecond. -/
  | dateTime
  | either (first second : Schema)
  | array (items : Schema) (minItems maxItems : ℕ)
  | object (required : List Bytes) (properties : List (Bytes × Schema)) (additional : Bool)

/-- The value is as the schema describes it. -/
inductive Schema.Validates : Schema → Data → Prop where
  | null : Validates .null .null
  | string (text) : Validates .string (.string text)
  | integer {d : Decimal} : d.IsInteger → Validates .integer (.number d)
  | number (d) : Validates .number (.number d)
  | enum {texts text} : text ∈ texts → Validates (.enum texts) (.string text)
  | pattern {characters text least most} : least ≤ text.length → text.length ≤ most →
      (∀ character ∈ text, character ∈ characters) →
      Validates (.pattern characters least most) (.string text)
  | dateTime {text instant} : DateTime text instant → Validates .dateTime (.string text)
  | first {first second data} : Validates first data → Validates (.either first second) data
  | second {first second data} : Validates second data → Validates (.either first second) data
  | array {items elements minItems maxItems} : minItems ≤ elements.length →
      elements.length ≤ maxItems → (∀ element ∈ elements, Validates items element) →
      Validates (.array items minItems maxItems) (.array elements)
  | object {required properties additional members} :
      (∀ name ∈ required, name ∈ members.map Prod.fst) →
      (∀ member ∈ members, ∀ property ∈ properties, property.1 = member.1 →
        Validates property.2 member.2) →
      (additional = false → ∀ member ∈ members, member.1 ∈ properties.map Prod.fst) →
      Validates (.object required properties additional) (.object members)

/-- Members that are all described, each by one schema. -/
theorem Schema.Validates.members {required : List Bytes} {properties : List (Bytes × Schema)}
    {additional : Bool} {members : List (Bytes × Data)}
    (hrequired : ∀ name ∈ required, name ∈ members.map Prod.fst)
    (hproperties : (properties.map Prod.fst).Nodup)
    (hmembers : ∀ member ∈ members, ∃ schema, (member.1, schema) ∈ properties ∧
      schema.Validates member.2) :
    (Schema.object required properties additional).Validates (.object members) := by
  refine .object hrequired ?_ ?_
  · intro member hmember property hproperty hname
    obtain ⟨schema, hschema, hvalid⟩ := hmembers member hmember
    have hsame : property = (member.1, schema) :=
      List.inj_on_of_nodup_map hproperties hproperty hschema hname
    rw [hsame]
    exact hvalid
  · intro _ member hmember
    obtain ⟨schema, hschema, -⟩ := hmembers member hmember
    exact List.mem_map_of_mem (f := Prod.fst) hschema

/-- The order of the members does not matter. -/
theorem Schema.Validates.of_perm {required : List Bytes} {properties : List (Bytes × Schema)}
    {additional : Bool} {members members' : List (Bytes × Data)} (hperm : members.Perm members')
    (h : (Schema.object required properties additional).Validates (.object members')) :
    (Schema.object required properties additional).Validates (.object members) := by
  cases h with
  | object hrequired hproperties hadditional =>
      refine .object ?_ ?_ ?_
      · exact fun name hname => (hperm.map Prod.fst).mem_iff.mpr (hrequired name hname)
      · exact fun member hmember => hproperties member (hperm.mem_iff.mp hmember)
      · exact fun hclosed member hmember => hadditional hclosed member (hperm.mem_iff.mp hmember)

/-- Members with these names and no others, none of them twice. -/
theorem perm_of_names {members target : List (Bytes × Data)}
    (hnodup : (members.map Prod.fst).Nodup) (htarget : (target.map Prod.fst).Nodup)
    (hmembers : ∀ member ∈ members, member.1 ∈ target.map Prod.fst)
    (hhas : ∀ member ∈ target, member ∈ members) : members.Perm target := by
  rw [List.perm_ext_iff_of_nodup hnodup.of_map htarget.of_map]
  intro member
  constructor
  · intro hmember
    obtain ⟨other, hother, hname⟩ := List.mem_map.mp (hmembers member hmember)
    have hsame := List.inj_on_of_nodup_map hnodup (hhas other hother) hmember hname
    rwa [← hsame]
  · exact hhas member

/-! ## Readable values mean something -/

mutual

theorem Value.isSome_decode : ∀ {v : Value}, v.Readable → v.decode.isSome
  | .null, _ | .bool _, _ | .number _, _ | .emptyArray _, _ | .emptyObject _, _ => rfl
  | .string s, h => by
      rw [Value.decode, Option.isSome_map]
      exact h
  | .array _ items, h => by
      rw [Value.decode, Option.isSome_map]
      exact items.isSome_decode h
  | .object _ members, h => by
      rw [Value.decode, Option.isSome_map]
      exact members.isSome_decode h

theorem Items.isSome_decode : ∀ (items : Items), items.Readable → items.decode.isSome
  | .last v _, h => by
      obtain ⟨data, hdata⟩ := Option.isSome_iff_exists.mp (Value.isSome_decode h)
      simp [Items.decode, hdata]
  | .cons v _ _ rest, h => by
      obtain ⟨data, hdata⟩ := Option.isSome_iff_exists.mp (Value.isSome_decode h.1)
      obtain ⟨others, hothers⟩ := Option.isSome_iff_exists.mp (rest.isSome_decode h.2)
      simp [Items.decode, hdata, hothers]

theorem Members.isSome_decode : ∀ (members : Members), members.Readable → members.decode.isSome
  | .last key _ _ v _, h => by
      obtain ⟨name, hname⟩ := Option.isSome_iff_exists.mp h.1
      obtain ⟨data, hdata⟩ := Option.isSome_iff_exists.mp (Value.isSome_decode h.2)
      simp [Members.decode, hname, hdata]
  | .cons key _ _ v _ _ rest, h => by
      obtain ⟨name, hname⟩ := Option.isSome_iff_exists.mp h.1
      obtain ⟨data, hdata⟩ := Option.isSome_iff_exists.mp (Value.isSome_decode h.2.1)
      obtain ⟨others, hothers⟩ := Option.isSome_iff_exists.mp (rest.isSome_decode h.2.2)
      simp [Members.decode, hname, hdata, hothers]

end

end Leta.Json
