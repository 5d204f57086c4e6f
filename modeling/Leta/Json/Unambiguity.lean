import Leta.Json.Syntax

/-! # A text has one reading

The grammar is unambiguous: the bytes of a value determine its syntax tree and where the
value ends. -/

namespace Leta.Json

/-- Nothing that could prolong a number or a literal follows. -/
def EndsScalar (rest : Bytes) : Prop := ∀ b ∈ rest.head?, isDelimiter b

theorem endsScalar_cons {b : UInt8} (h : isDelimiter b) (rest : Bytes) :
    EndsScalar (b :: rest) := by
  simpa [EndsScalar] using h

theorem endsScalar_ws (w : Ws) : EndsScalar w.1 := by
  intro b hb
  simp [isDelimiter, w.2 b (List.mem_of_mem_head? hb)]

theorem endsScalar_ws_cons (w : Ws) {b : UInt8} (h : isDelimiter b) (rest : Bytes) :
    EndsScalar (w.1 ++ b :: rest) := by
  intro c hc
  cases hw : w.1 with
  | nil =>
      rw [hw] at hc
      exact endsScalar_cons h rest c hc
  | cons d tail =>
      have hd : isWs d := w.2 d (by simp [hw])
      rw [hw] at hc
      obtain rfl : d = c := by simpa using hc
      simp [isDelimiter, hd]

theorem ws_append_inj {w w' : Ws} {b b' : UInt8} {rest rest' : Bytes} (hb : isWs b = false)
    (hb' : isWs b' = false) (h : w.1 ++ b :: rest = w'.1 ++ b' :: rest') :
    w = w' ∧ b = b' ∧ rest = rest' := by
  have hrest := congrArg skipWs h
  rw [skipWs_ws_cons w hb, skipWs_ws_cons w' hb', List.cons.injEq] at hrest
  obtain ⟨rfl, rfl⟩ := hrest
  exact ⟨Subtype.ext (List.append_cancel_right h), rfl, rfl⟩

/-- A number literal is the longest run of bytes that are not delimiters. -/
theorem NumberLiteral.append_inj {n m : NumberLiteral} {rest rest' : Bytes}
    (hrest : EndsScalar rest) (hrest' : EndsScalar rest')
    (h : n.lexeme ++ rest = m.lexeme ++ rest') : n = m ∧ rest = rest' := by
  have hspan : ∀ (n : NumberLiteral) (rest : Bytes), EndsScalar rest →
      (n.lexeme ++ rest).takeWhile (fun b => !isDelimiter b) = n.lexeme := by
    intro n rest hrest
    rw [List.takeWhile_append_of_pos]
    · cases rest with
      | nil => simp
      | cons b rest =>
          have hb : isDelimiter b := hrest b (by simp)
          simp [hb]
    · intro b hb
      simp [(isNumberByte_plain (n.isNumberByte_of_mem b hb)).1]
  have hlexeme : n.lexeme = m.lexeme := by
    rw [← hspan n rest hrest, h, hspan m rest' hrest']
  rw [hlexeme] at h
  refine ⟨?_, List.append_cancel_left h⟩
  obtain ⟨lexeme, value, hreads⟩ := n
  obtain ⟨lexeme', value', hreads'⟩ := m
  obtain rfl : lexeme = lexeme' := hlexeme
  obtain rfl : value = value' := Option.some.inj (hreads.symm.trans hreads')
  rfl

/-! ## First bytes tell the kinds of values apart -/

/-- The kinds of values that a first byte tells apart. -/
inductive Shape where
  | null | true | false | number | string | array | object
  deriving DecidableEq

def Shape.ofByte (b : UInt8) : Shape :=
  if b = 0x6e then .null
  else if b = 0x74 then .true
  else if b = 0x66 then .false
  else if b = 0x22 then .string
  else if b = 0x5b then .array
  else if b = 0x7b then .object
  else .number

def Value.shape : Value → Shape
  | .null => .null
  | .bool true => .true
  | .bool false => .false
  | .number _ => .number
  | .string _ => .string
  | .emptyArray _ | .array _ _ => .array
  | .emptyObject _ | .object _ _ => .object

/-- The values of a shape. -/
def Shape.Has : Shape → Value → Prop
  | .null, v => v = .null
  | .true, v => v = .bool Bool.true
  | .false, v => v = .bool Bool.false
  | .number, v => ∃ n, v = .number n
  | .string, v => ∃ s, v = .string s
  | .array, v => (∃ inner, v = .emptyArray inner) ∨ ∃ before items, v = .array before items
  | .object, v => (∃ inner, v = .emptyObject inner) ∨ ∃ before members, v = .object before members

theorem Value.shape_has (v : Value) : v.shape.Has v := by
  cases v with
  | null => rfl
  | bool b => cases b <;> rfl
  | number n => exact ⟨n, rfl⟩
  | string s => exact ⟨s, rfl⟩
  | emptyArray inner => exact .inl ⟨inner, rfl⟩
  | array before items => exact .inr ⟨before, items, rfl⟩
  | emptyObject inner => exact .inl ⟨inner, rfl⟩
  | object before members => exact .inr ⟨before, members, rfl⟩

theorem Value.exists_shape (v : Value) :
    ∃ b rest, v.render = b :: rest ∧ Shape.ofByte b = v.shape := by
  cases v with
  | null => exact ⟨0x6e, ascii "ull", rfl, rfl⟩
  | bool b =>
      cases b
      · exact ⟨0x66, ascii "alse", rfl, rfl⟩
      · exact ⟨0x74, ascii "rue", rfl, rfl⟩
  | number n =>
      obtain ⟨b, rest, h, hb⟩ := n.exists_head
      refine ⟨b, rest, by rw [render, h], ?_⟩
      rcases hb with rfl | hb
      · rfl
      · simp only [Shape.ofByte]
        split_ifs with h1 h2 h3 h4 h5 h6
        all_goals first | rfl | (subst b; exact absurd hb (by decide))
  | string s => exact ⟨_, _, rfl, rfl⟩
  | emptyArray inner => exact ⟨_, _, rfl, rfl⟩
  | array before items => exact ⟨_, _, rfl, rfl⟩
  | emptyObject inner => exact ⟨_, _, rfl, rfl⟩
  | object before members => exact ⟨_, _, rfl, rfl⟩

theorem Value.shape_eq {v w : Value} {rest rest' : Bytes}
    (h : v.render ++ rest = w.render ++ rest') : v.shape = w.shape := by
  obtain ⟨b, tail, hv, hb⟩ := v.exists_shape
  obtain ⟨b', tail', hw, hb'⟩ := w.exists_shape
  rw [hv, hw, List.cons_append, List.cons_append, List.cons.injEq] at h
  rw [← hb, ← hb', h.1]

/-- A value in the place of another one is of its kind. -/
theorem Value.has_of_append_eq {v w : Value} {rest rest' : Bytes}
    (h : v.render ++ rest = w.render ++ rest') : v.shape.Has w := by
  rw [Value.shape_eq h]
  exact w.shape_has

/-- An empty container is not a container with elements. -/
theorem ws_closing_ne_items {w before : Ws} {items : Items} {rest rest' : Bytes} :
    w.1 ++ 0x5d :: rest ≠ before.1 ++ (items.render ++ rest') := by
  intro h
  obtain ⟨b, tail, hitems, hb, hclose⟩ := items.exists_head
  rw [hitems, List.cons_append] at h
  exact hclose (ws_append_inj (by decide) hb h).2.1.symm

theorem ws_closing_ne_members {w before : Ws} {members : Members} {rest rest' : Bytes} :
    w.1 ++ 0x7d :: rest ≠ before.1 ++ (members.render ++ rest') := by
  intro h
  obtain ⟨tail, hmembers⟩ := members.exists_head
  rw [hmembers, List.cons_append] at h
  exact absurd (ws_append_inj (by decide) (by decide) h).2.1 (by decide)

theorem before_items_inj {before before' : Ws} {items items' : Items} {rest rest' : Bytes}
    (h : before.1 ++ (items.render ++ rest) = before'.1 ++ (items'.render ++ rest')) :
    before = before' ∧ items.render ++ rest = items'.render ++ rest' := by
  obtain ⟨b, tail, hitems, hb, -⟩ := items.exists_head
  obtain ⟨b', tail', hitems', hb', -⟩ := items'.exists_head
  rw [hitems, hitems', List.cons_append, List.cons_append] at h ⊢
  obtain ⟨rfl, rfl, htail⟩ := ws_append_inj hb hb' h
  exact ⟨rfl, by rw [htail]⟩

theorem before_members_inj {before before' : Ws} {members members' : Members}
    {rest rest' : Bytes}
    (h : before.1 ++ (members.render ++ rest) = before'.1 ++ (members'.render ++ rest')) :
    before = before' ∧ members.render ++ rest = members'.render ++ rest' := by
  obtain ⟨tail, hmembers⟩ := members.exists_head
  obtain ⟨tail', hmembers'⟩ := members'.exists_head
  rw [hmembers, hmembers', List.cons_append, List.cons_append] at h ⊢
  obtain ⟨rfl, -, htail⟩ := ws_append_inj (by decide) (by decide) h
  exact ⟨rfl, by rw [htail]⟩

theorem before_value_inj {before before' : Ws} {v w : Value} {rest rest' : Bytes}
    (h : before.1 ++ (v.render ++ rest) = before'.1 ++ (w.render ++ rest')) :
    before = before' ∧ v.render ++ rest = w.render ++ rest' := by
  obtain ⟨b, tail, hv, hb, -⟩ := v.exists_head
  obtain ⟨b', tail', hw, hb', -⟩ := w.exists_head
  rw [hv, hw, List.cons_append, List.cons_append] at h ⊢
  obtain ⟨rfl, rfl, htail⟩ := ws_append_inj hb hb' h
  exact ⟨rfl, by rw [htail]⟩

/-- A key, its colon and the whitespace up to the value. -/
theorem key_inj {key key' : StringLiteral} {c c' d d' : Ws} {v w : Value} {rest rest' : Bytes}
    (h : key.render ++ (c.1 ++ 0x3a :: (d.1 ++ (v.render ++ rest))) =
      key'.render ++ (c'.1 ++ 0x3a :: (d'.1 ++ (w.render ++ rest')))) :
    key = key' ∧ c = c' ∧ d = d' ∧ v.render ++ rest = w.render ++ rest' := by
  obtain ⟨hkey, hcolon⟩ := StringLiteral.render_append_inj h
  obtain ⟨hc, -, hvalue⟩ := ws_append_inj (by decide) (by decide) hcolon
  exact ⟨hkey, hc, before_value_inj hvalue⟩

/-- A value and the separator or bracket behind it, given that values are unambiguous. -/
theorem value_after_inj {v w : Value} {after after' : Ws} {b b' : UInt8} {rest rest' : Bytes}
    (hv : ∀ {rest rest' : Bytes}, (v.shape = .number → EndsScalar rest ∧ EndsScalar rest') →
      v.render ++ rest = w.render ++ rest' → v = w ∧ rest = rest')
    (hb : isStructural b ∧ isWs b = false) (hb' : isStructural b' ∧ isWs b' = false)
    (h : v.render ++ (after.1 ++ b :: rest) = w.render ++ (after'.1 ++ b' :: rest')) :
    v = w ∧ after = after' ∧ b = b' ∧ rest = rest' := by
  obtain ⟨hvalue, hafter⟩ := hv
    (fun _ => ⟨endsScalar_ws_cons after (by simp [isDelimiter, hb.1]) rest,
      endsScalar_ws_cons after' (by simp [isDelimiter, hb'.1]) rest'⟩) h
  exact ⟨hvalue, ws_append_inj hb.2 hb'.2 hafter⟩

/-! ## Whole values -/

mutual

/-- Only a number needs something behind it that ends it. -/
theorem Value.render_append_inj : ∀ (v w : Value) {rest rest' : Bytes},
    (v.shape = .number → EndsScalar rest ∧ EndsScalar rest') →
    v.render ++ rest = w.render ++ rest' → v = w ∧ rest = rest'
  | .null, w, rest, rest', _, h => by
      obtain rfl : w = .null := Value.has_of_append_eq h
      exact ⟨rfl, List.append_cancel_left h⟩
  | .bool true, w, rest, rest', _, h => by
      obtain rfl : w = .bool true := Value.has_of_append_eq h
      exact ⟨rfl, List.append_cancel_left h⟩
  | .bool false, w, rest, rest', _, h => by
      obtain rfl : w = .bool false := Value.has_of_append_eq h
      exact ⟨rfl, List.append_cancel_left h⟩
  | .number n, w, rest, rest', hends, h => by
      obtain ⟨hrest, hrest'⟩ := hends rfl
      obtain ⟨m, rfl⟩ : ∃ m, w = .number m := Value.has_of_append_eq h
      obtain ⟨rfl, rfl⟩ := NumberLiteral.append_inj hrest hrest' h
      exact ⟨rfl, rfl⟩
  | .string s, w, rest, rest', _, h => by
      obtain ⟨t, rfl⟩ : ∃ t, w = .string t := Value.has_of_append_eq h
      obtain ⟨rfl, rfl⟩ := StringLiteral.render_append_inj h
      exact ⟨rfl, rfl⟩
  | .emptyArray inner, w, rest, rest', _, h => by
      obtain ⟨inner', rfl⟩ | ⟨before, items, rfl⟩ : Shape.Has .array w := Value.has_of_append_eq h
      · simp only [Value.render, List.cons_append, List.append_assoc, List.nil_append,
          List.cons.injEq, true_and] at h
        obtain ⟨rfl, -, rfl⟩ := ws_append_inj (by decide) (by decide) h
        exact ⟨rfl, rfl⟩
      · simp only [Value.render, List.cons_append, List.append_assoc, List.nil_append,
          List.cons.injEq, true_and] at h
        exact absurd h ws_closing_ne_items
  | .array before items, w, rest, rest', _, h => by
      obtain ⟨inner, rfl⟩ | ⟨before', items', rfl⟩ : Shape.Has .array w := Value.has_of_append_eq h
      · simp only [Value.render, List.cons_append, List.append_assoc, List.nil_append,
          List.cons.injEq, true_and] at h
        exact absurd h.symm ws_closing_ne_items
      · simp only [Value.render, List.cons_append, List.append_assoc, List.nil_append,
          List.cons.injEq, true_and] at h
        obtain ⟨rfl, hitems⟩ := before_items_inj h
        obtain ⟨rfl, rfl⟩ := Items.render_append_inj items items' hitems
        exact ⟨rfl, rfl⟩
  | .emptyObject inner, w, rest, rest', _, h => by
      obtain ⟨inner', rfl⟩ | ⟨before, members, rfl⟩ : Shape.Has .object w :=
        Value.has_of_append_eq h
      · simp only [Value.render, List.cons_append, List.append_assoc, List.nil_append,
          List.cons.injEq, true_and] at h
        obtain ⟨rfl, -, rfl⟩ := ws_append_inj (by decide) (by decide) h
        exact ⟨rfl, rfl⟩
      · simp only [Value.render, List.cons_append, List.append_assoc, List.nil_append,
          List.cons.injEq, true_and] at h
        exact absurd h ws_closing_ne_members
  | .object before members, w, rest, rest', _, h => by
      obtain ⟨inner, rfl⟩ | ⟨before', members', rfl⟩ : Shape.Has .object w :=
        Value.has_of_append_eq h
      · simp only [Value.render, List.cons_append, List.append_assoc, List.nil_append,
          List.cons.injEq, true_and] at h
        exact absurd h.symm ws_closing_ne_members
      · simp only [Value.render, List.cons_append, List.append_assoc, List.nil_append,
          List.cons.injEq, true_and] at h
        obtain ⟨rfl, hmembers⟩ := before_members_inj h
        obtain ⟨rfl, rfl⟩ := Members.render_append_inj members members' hmembers
        exact ⟨rfl, rfl⟩

theorem Items.render_append_inj : ∀ (xs ys : Items) {rest rest' : Bytes},
    xs.render ++ 0x5d :: rest = ys.render ++ 0x5d :: rest' → xs = ys ∧ rest = rest'
  | .last v after, ys, rest, rest', h => by
      cases ys with
      | last w after' =>
          simp only [Items.render, List.append_assoc] at h
          obtain ⟨rfl, rfl, -, rfl⟩ :=
            value_after_inj (Value.render_append_inj v w) (by decide) (by decide) h
          exact ⟨rfl, rfl⟩
      | cons w after' before ys =>
          simp only [Items.render, List.append_assoc, List.cons_append] at h
          obtain ⟨-, -, hclose, -⟩ :=
            value_after_inj (Value.render_append_inj v w) (by decide) (by decide) h
          exact absurd hclose (by decide)
  | .cons v after before xs, ys, rest, rest', h => by
      cases ys with
      | last w after' =>
          simp only [Items.render, List.append_assoc, List.cons_append] at h
          obtain ⟨-, -, hclose, -⟩ :=
            value_after_inj (Value.render_append_inj v w) (by decide) (by decide) h
          exact absurd hclose (by decide)
      | cons w after' before' ys =>
          simp only [Items.render, List.append_assoc, List.cons_append] at h
          obtain ⟨rfl, rfl, -, htail⟩ :=
            value_after_inj (Value.render_append_inj v w) (by decide) (by decide) h
          obtain ⟨rfl, hitems⟩ := before_items_inj htail
          obtain ⟨rfl, rfl⟩ := Items.render_append_inj xs ys hitems
          exact ⟨rfl, rfl⟩

theorem Members.render_append_inj : ∀ (xs ys : Members) {rest rest' : Bytes},
    xs.render ++ 0x7d :: rest = ys.render ++ 0x7d :: rest' → xs = ys ∧ rest = rest'
  | .last key c d v after, ys, rest, rest', h => by
      cases ys with
      | last key' c' d' w after' =>
          simp only [Members.render, List.append_assoc, List.cons_append] at h
          obtain ⟨rfl, rfl, rfl, hvalue⟩ := key_inj h
          obtain ⟨rfl, rfl, -, rfl⟩ :=
            value_after_inj (Value.render_append_inj v w) (by decide) (by decide) hvalue
          exact ⟨rfl, rfl⟩
      | cons key' c' d' w after' before ys =>
          simp only [Members.render, List.append_assoc, List.cons_append] at h
          obtain ⟨-, -, -, hvalue⟩ := key_inj h
          obtain ⟨-, -, hclose, -⟩ :=
            value_after_inj (Value.render_append_inj v w) (by decide) (by decide) hvalue
          exact absurd hclose (by decide)
  | .cons key c d v after before xs, ys, rest, rest', h => by
      cases ys with
      | last key' c' d' w after' =>
          simp only [Members.render, List.append_assoc, List.cons_append] at h
          obtain ⟨-, -, -, hvalue⟩ := key_inj h
          obtain ⟨-, -, hclose, -⟩ :=
            value_after_inj (Value.render_append_inj v w) (by decide) (by decide) hvalue
          exact absurd hclose (by decide)
      | cons key' c' d' w after' before' ys =>
          simp only [Members.render, List.append_assoc, List.cons_append] at h
          obtain ⟨rfl, rfl, rfl, hvalue⟩ := key_inj h
          obtain ⟨rfl, rfl, -, htail⟩ :=
            value_after_inj (Value.render_append_inj v w) (by decide) (by decide) hvalue
          obtain ⟨rfl, hmembers⟩ := before_members_inj htail
          obtain ⟨rfl, rfl⟩ := Members.render_append_inj xs ys hmembers
          exact ⟨rfl, rfl⟩

end

/-- A JSON text, whitespace around it included, has one syntax tree. -/
theorem text_unique {before before' after after' : Ws} {v w : Value}
    (h : before.1 ++ (v.render ++ after.1) = before'.1 ++ (w.render ++ after'.1)) :
    before = before' ∧ v = w ∧ after = after' := by
  obtain ⟨hbefore, hvalue⟩ := before_value_inj h
  obtain ⟨hv, hafter⟩ :=
    Value.render_append_inj v w (fun _ => ⟨endsScalar_ws after, endsScalar_ws after'⟩) hvalue
  exact ⟨hbefore, hv, Subtype.ext hafter⟩

/-- A text means one thing. -/
theorem Denotes.unique {text : Bytes} {data data' : Data} (h : Denotes text data)
    (h' : Denotes text data') : data = data' := by
  obtain ⟨before, after, v, rfl, hv⟩ := h
  obtain ⟨before', after', w, htext, hw⟩ := h'
  obtain ⟨-, rfl, -⟩ := text_unique htext
  exact Option.some.inj (hv.symm.trans hw)

end Leta.Json
