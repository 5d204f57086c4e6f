import Leta.Json.Syntax

/-! # Arrays put together from their elements -/

namespace Leta.Json

/-- Something with the whitespace on either side of it. -/
structure Spaced (α : Type) where
  before : Ws
  item : α
  after : Ws

def Spaced.map {α β : Type} (f : α → β) (s : Spaced α) : Spaced β := ⟨s.before, f s.item, s.after⟩

def Spaced.text (s : Spaced Bytes) : Bytes := s.before.1 ++ (s.item ++ s.after.1)

/-- The texts between brackets, with commas between them. -/
def arrayText (elements : List (Spaced Bytes)) : Bytes :=
  0x5b :: ([0x2c].intercalate (elements.map Spaced.text) ++ [0x5d])

/-- The elements as they stand, `before` being the whitespace in front of the first. -/
def Items.layout (before : Ws) : Items → List (Spaced Value)
  | .last v after => [⟨before, v, after⟩]
  | .cons v after next rest => ⟨before, v, after⟩ :: rest.layout next

theorem Items.layout_ne_nil (before : Ws) (items : Items) : items.layout before ≠ [] := by
  cases items <;> simp [Items.layout]

theorem Items.map_layout : ∀ (before : Ws) (items : Items),
    (items.layout before).map Spaced.item = items.values
  | _, .last _ _ => rfl
  | _, .cons v _ next rest => by simp [Items.layout, Items.values, rest.map_layout next]

theorem Items.text_layout : ∀ (before : Ws) (items : Items),
    [0x2c].intercalate ((items.layout before).map fun s => (s.map Value.render).text) =
      before.1 ++ items.render
  | before, .last v after => by simp [Items.layout, Items.render, Spaced.text, Spaced.map]
  | before, .cons v after next rest => by
      have hne : (rest.layout next).map (fun s => (s.map Value.render).text) ≠ [] := by
        simpa using rest.layout_ne_nil next
      rw [Items.layout, List.map_cons, List.intercalate_cons_of_ne_nil hne, rest.text_layout next]
      simp [Items.render, Spaced.text, Spaced.map]

theorem Value.exists_layout {v : Value} (h : v.isArray) (hne : v.elements ≠ []) :
    ∃ layout : List (Spaced Value), layout.map Spaced.item = v.elements ∧
      v.render = arrayText (layout.map (Spaced.map Value.render)) := by
  cases v with
  | emptyArray => exact absurd rfl hne
  | array before items =>
      refine ⟨items.layout before, items.map_layout before, ?_⟩
      have := items.text_layout before
      simp [arrayText, Function.comp_def, this, Value.render]
  | null | bool | number | string | emptyObject | object => simp [Value.isArray] at h

theorem exists_items_of_layout {layout : List (Spaced Value)} (hne : layout ≠ []) :
    ∃ (before : Ws) (items : Items), items.layout before = layout := by
  induction layout with
  | nil => exact absurd rfl hne
  | cons s layout ih =>
      cases layout with
      | nil => exact ⟨s.before, .last s.item s.after, rfl⟩
      | cons s' layout =>
          obtain ⟨next, rest, hrest⟩ := ih (by simp)
          exact ⟨s.before, .cons s.item s.after next rest, by rw [Items.layout, hrest]⟩

/-- Any values may be put together. -/
theorem exists_array_of_layout {layout : List (Spaced Value)} (hne : layout ≠ []) :
    ∃ v : Value, v.isArray ∧ v.elements = layout.map Spaced.item ∧
      v.render = arrayText (layout.map (Spaced.map Value.render)) := by
  obtain ⟨before, items, rfl⟩ := exists_items_of_layout hne
  refine ⟨.array before items, rfl, (items.map_layout before).symm, ?_⟩
  have := items.text_layout before
  simp [arrayText, Function.comp_def, this, Value.render]

/-! ## UTF-8 -/

theorem isAscii_of_isWs {b : UInt8} (h : isWs b) : isAscii b := by
  simp only [isWs, Bool.or_eq_true, beq_iff_eq] at h
  rcases h with ((rfl | rfl) | rfl) | rfl <;> decide

theorem validUtf8_ws (w : Ws) : ValidUtf8 w.1 :=
  .of_isAscii fun b hb => isAscii_of_isWs (w.2 b hb)

theorem validUtf8_arrayText {elements : List (Spaced Bytes)}
    (h : ∀ s ∈ elements, ValidUtf8 s.item) : ValidUtf8 (arrayText elements) := by
  have hinner : ValidUtf8 ([0x2c].intercalate (elements.map Spaced.text)) := by
    induction elements with
    | nil => exact .nil
    | cons s elements ih =>
        simp only [List.forall_mem_cons] at h
        have hs : ValidUtf8 s.text := ((validUtf8_ws _).append (h.1.append (validUtf8_ws _)))
        by_cases hne : elements = []
        · simpa [hne] using hs
        · rw [List.map_cons, List.intercalate_cons_of_ne_nil (by simpa using hne)]
          exact (hs.append (.cons (by decide) .nil)).append (ih h.2)
  exact .cons (by decide) (hinner.append (.cons (by decide) .nil))

/-- Every element of an array stands somewhere in its text. -/
theorem exists_context {elements : List (Spaced Bytes)} {s : Spaced Bytes} (h : s ∈ elements) :
    ∃ before after, arrayText elements = before ++ (s.item ++ after) := by
  have hinner : ∃ before after,
      [0x2c].intercalate (elements.map Spaced.text) = before ++ (s.item ++ after) := by
    induction elements with
    | nil => simp at h
    | cons s' elements ih =>
        rcases List.mem_cons.mp h with rfl | hmem
        · by_cases hne : elements = []
          · exact ⟨s.before.1, s.after.1, by simp [hne, Spaced.text]⟩
          · rw [List.map_cons, List.intercalate_cons_of_ne_nil (by simpa using hne)]
            exact ⟨s.before.1, s.after.1 ++ [0x2c] ++ [0x2c].intercalate (elements.map Spaced.text),
              by simp [Spaced.text]⟩
        · obtain ⟨before, after, hih⟩ := ih hmem
          rw [List.map_cons, List.intercalate_cons_of_ne_nil (by
            simpa using List.ne_nil_of_mem hmem), hih]
          exact ⟨s'.text ++ [0x2c] ++ before, after, by simp⟩
  obtain ⟨before, after, hinner⟩ := hinner
  exact ⟨0x5b :: before, after ++ [0x5d], by simp [arrayText, hinner]⟩

/-- An object may be cut out of a valid text: its braces are ASCII. -/
theorem Value.validUtf8_object {v : Value} (h : v.isObject) (before after : Bytes)
    (hvalid : ValidUtf8 (before ++ (v.render ++ after))) : ValidUtf8 v.render := by
  obtain ⟨inner, hrender⟩ := Value.exists_object_head h
  rw [hrender, List.cons_append, List.append_assoc, List.singleton_append] at hvalid
  have hinner := (ValidUtf8.split (by decide) (hvalid.split (by decide)).2).1
  rw [hrender]
  exact .cons (by decide) (hinner.append (.cons (by decide) .nil))

/-- The value of a field stands in the text of its object. -/
theorem Members.exists_context : ∀ {members : Members} {field : StringLiteral × Value},
    field ∈ members.fields → ∃ front back, members.render = front ++ (field.2.render ++ back)
  | .last key beforeColon afterColon v after, field, h => by
      obtain rfl := List.mem_singleton.mp h
      refine ⟨key.render ++ beforeColon.1 ++ 0x3a :: afterColon.1, after.1, ?_⟩
      simp [Members.render]
  | .cons key beforeColon afterColon v after before rest, field, h => by
      rcases List.mem_cons.mp h with rfl | h
      · refine ⟨key.render ++ beforeColon.1 ++ 0x3a :: afterColon.1,
          after.1 ++ 0x2c :: (before.1 ++ rest.render), ?_⟩
        simp [Members.render]
      · obtain ⟨front, back, hrest⟩ := Members.exists_context h
        refine ⟨key.render ++ beforeColon.1 ++ 0x3a :: afterColon.1 ++ v.render ++ after.1 ++
          0x2c :: (before.1 ++ front), back, ?_⟩
        simp [Members.render, hrest]

theorem Value.exists_field_context {v : Value} {field : StringLiteral × Value}
    (h : field ∈ v.fields) : ∃ front back, v.render = front ++ (field.2.render ++ back) := by
  cases v with
  | object before members =>
      obtain ⟨front, back, hmembers⟩ := Members.exists_context h
      refine ⟨0x7b :: (before.1 ++ front), back ++ [0x7d], ?_⟩
      simp [Value.render, hmembers]
  | null | bool | number | string | emptyArray | array | emptyObject => simp [Value.fields] at h

end Leta.Json
