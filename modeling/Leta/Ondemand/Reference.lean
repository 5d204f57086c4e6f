import Leta.Ondemand.Api

/-! # A cursor that behaves as documented

One implementation of the parameter, over plain texts. It reads a token where the cursor
stands and skips to the next one, and it finds the end of an object by counting brackets. -/

namespace Leta

open Json

namespace Reference

/-- A position: the text from the next token on, and the depth. -/
abbrev Mark := Bytes × ℕ

/-! ## Tokens -/

/-- What follows the byte `b`, when the text starts with it. -/
def behind (b : UInt8) (text : Bytes) : Option Bytes :=
  match text with
  | [] => none
  | c :: rest => if c = b then some rest else none

/-- The bytes up to the next delimiter, and the rest, which must start with one. -/
def scalarToken (text : Bytes) : Option (Bytes × Bytes) :=
  let rest := text.dropWhile fun b => !isDelimiter b
  if rest = [] then none else some (text.takeWhile fun b => !isDelimiter b, rest)

/-- The raw body of the string the text starts with, and what follows it. -/
def stringToken (text : Bytes) : Option (Bytes × Bytes) := do splitBody (← behind 0x22 text)

/-- The last token of the document is the closing bracket. -/
def endsWith (closing : UInt8) (text : Bytes) : Bool :=
  (text.reverse.dropWhile isWs).head? == some closing

theorem behind_eq_some {b : UInt8} {text rest : Bytes} :
    behind b text = some rest ↔ text = b :: rest := by
  cases text with
  | nil => simp [behind]
  | cons c text =>
      simp only [behind]
      split_ifs with h
      · simp [h]
      · simp [h]

theorem behind_eq_none {b : UInt8} {text : Bytes} :
    behind b text = none ↔ ∀ rest, text ≠ b :: rest := by
  rw [Option.eq_none_iff_forall_ne_some]
  exact forall_congr' fun rest => not_congr behind_eq_some

@[simp] theorem behind_cons (b : UInt8) (rest : Bytes) : behind b (b :: rest) = some rest :=
  behind_eq_some.mpr rfl

theorem scalarToken_eq_some {text token rest : Bytes} (h : scalarToken text = some (token, rest)) :
    text = token ++ rest ∧ Delimited rest := by
  simp only [scalarToken] at h
  split_ifs at h with hrest
  simp only [Option.some.injEq, Prod.mk.injEq] at h
  obtain ⟨rfl, rfl⟩ := h
  refine ⟨List.takeWhile_append_dropWhile.symm, ?_⟩
  have hhead := List.head_dropWhile_not (fun b => !isDelimiter b) hrest
  exact ⟨_, _, (List.cons_head_tail hrest).symm, by simpa using hhead⟩

theorem scalarToken_append {token rest : Bytes} (htoken : ∀ b ∈ token, isDelimiter b = false)
    (hrest : Delimited rest) : scalarToken (token ++ rest) = some (token, rest) := by
  obtain ⟨b, rest, rfl, hb⟩ := hrest
  have hall : ∀ b ∈ token, (!isDelimiter b) = true := by
    intro b hb
    simp [htoken b hb]
  simp only [scalarToken, List.dropWhile_append_of_pos hall, List.takeWhile_append_of_pos hall]
  simp [hb]

theorem stringToken_render (s : StringLiteral) (rest : Bytes) :
    stringToken (s.render ++ rest) = some (s.body, rest) := by
  rw [StringLiteral.render_append, stringToken, behind_cons]
  exact splitBody_append s.closed rest

theorem stringToken_eq_some {text body rest : Bytes} (h : stringToken text = some (body, rest)) :
    ∃ s : StringLiteral, s.body = body ∧ text = s.render ++ rest := by
  simp only [stringToken, Option.bind_eq_bind, Option.bind_eq_some_iff, behind_eq_some] at h
  obtain ⟨quoted, rfl, hbody⟩ := h
  obtain ⟨rfl, hclosed⟩ := splitBody_eq_some hbody
  exact ⟨⟨body, hclosed⟩, rfl, by rw [StringLiteral.render_append]⟩

theorem endsWith_closing {closing : UInt8} (hclosing : isWs closing = false) (inner : Bytes)
    (w : Ws) : endsWith closing (inner ++ closing :: w.1) := by
  have hw : ∀ b ∈ w.1.reverse, isWs b := fun b hb => w.2 b (List.mem_reverse.mp hb)
  rw [endsWith, List.reverse_append, List.reverse_cons, List.append_assoc,
    List.dropWhile_append_of_pos hw]
  simp [hclosing]

/-! ## Operations -/

def iterate (body : Bytes) : Option Mark :=
  let text := dropByteOrderMark body
  if ValidUtf8 text ∧ skipWs text ≠ [] ∧ stringsClosed false text then some (skipWs text, 1)
  else none

/-- The text behind an opening bracket, and the cursor at the next token. -/
def openBracket (opening : UInt8) (mark : Mark) : Option (Mark × Mark) := do
  let inner ← behind opening mark.1
  return ((inner, mark.2), (skipWs inner, mark.2))

def openDocument (opening closing : UInt8) (mark : Mark) : Option (Mark × Mark) :=
  if endsWith closing mark.1 then openBracket opening mark else none

/-- A field that has been stepped to: where its key is, its raw key and its value. -/
structure Field where
  keyLocation : Bytes
  key : Bytes
  value : Mark

def fieldAt (text : Bytes) (depth : ℕ) : Option Field := do
  let (key, rest) ← stringToken text
  let inner ← behind 0x3a (skipWs rest)
  return ⟨text, key, (skipWs inner, depth)⟩

def readField (text : Bytes) (depth : ℕ) : Step Mark Field :=
  .yielded (fieldAt text depth) (((fieldAt text depth).map Field.value).getD (text, depth))

def readElement (text : Bytes) (depth : ℕ) : Step Mark Mark :=
  .yielded (some (text, depth)) (text, depth)

def beginRange {Item : Type} (closing : UInt8) (read : Bytes → ℕ → Step Mark Item) (depth : ℕ)
    (text : Bytes) : Step Mark Item :=
  match behind closing text with
  | some rest => .finished (skipWs rest, depth - 1)
  | none => read text (depth + 1)

def nextInRange {Item : Type} (closing : UInt8) (read : Bytes → ℕ → Step Mark Item) (depth : ℕ)
    (text : Bytes) : Step Mark Item :=
  match behind 0x2c text with
  | some rest => read (skipWs rest) (depth + 1)
  | none =>
      match behind closing text with
      | some rest => .finished (skipWs rest, depth - 1)
      | none => .yielded none (text, depth)

def getDouble (mark : Mark) : Option Mark := do
  let token ← scalarToken mark.1
  let number ← readNumber token.1
  if number.InDoubleRange then some (skipWs token.2, mark.2 - 1) else none

def getString (mark : Mark) : Option (Bytes × Mark) := do
  let token ← stringToken mark.1
  let text ← unescape token.1
  return (text, (skipWs token.2, mark.2 - 1))

def getBool (mark : Mark) : Option (Bool × Mark) := do
  let token ← scalarToken mark.1
  if token.1 = (Value.bool true).render then some (true, (skipWs token.2, mark.2 - 1))
  else if token.1 = (Value.bool false).render then some (false, (skipWs token.2, mark.2 - 1))
  else none

def isNull (mark : Mark) : Option (Bool × Mark) :=
  if (behind 0x6e mark.1).isNone then some (false, mark)
  else do
    let token ← scalarToken mark.1
    if token.1 = Value.null.render then some (true, (skipWs token.2, mark.2 - 1)) else none

/-- The object's text up to the next token behind it. -/
def rawJson (object : Mark) : Option (Bytes × Mark) := do
  let rest ← closeBracket 1 false object.1
  let text := 0x7b :: object.1
  return (text.take (text.length - (skipWs rest).length), (skipWs rest, object.2 - 1))

def reset (object : Mark) : Option (Bool × Mark) :=
  some ((behind 0x7d (skipWs object.1)).isNone, (skipWs object.1, object.2))

end Reference

/-- The reference cursor. -/
def reference : Ondemand where
  State := Reference.Mark
  Value := Reference.Mark
  Array := Reference.Mark
  Object := Reference.Mark
  Field := Reference.Field
  iterate := Reference.iterate
  documentGetArray := Reference.openDocument 0x5b 0x5d
  documentGetObject := Reference.openDocument 0x7b 0x7d
  atEnd st := st.1.isEmpty
  arrayBegin array st := Reference.beginRange 0x5d Reference.readElement array.2 st.1
  arrayNext array st := Reference.nextInRange 0x5d Reference.readElement array.2 st.1
  objectBegin object st := Reference.beginRange 0x7d Reference.readField object.2 st.1
  objectNext object st := Reference.nextInRange 0x7d Reference.readField object.2 st.1
  unescapedKey field st := (unescape field.key).map fun key => (key, st)
  fieldValue := Reference.Field.value
  type value _ := Ondemand.announcedType value.1
  getArray value _ := Reference.openBracket 0x5b value
  getObject value _ := Reference.openBracket 0x7b value
  getDouble value _ := Reference.getDouble value
  getString value _ := Reference.getString value
  getBool value _ := Reference.getBool value
  isNull value _ := Reference.isNull value
  rawJson object _ := Reference.rawJson object
  reset object _ := Reference.reset object
  location := Prod.fst
  depth := Prod.snd
  start := id
  keyLocation := Reference.Field.keyLocation
  arrayDepth := Prod.snd
  objectDepth := Prod.snd

namespace Reference

/-! ## What the operations do -/

theorem iterate_eq_some {body : Bytes} {st : Mark} (h : iterate body = some st) :
    ValidUtf8 (dropByteOrderMark body) ∧ st = (skipWs (dropByteOrderMark body), 1) := by
  simp only [iterate] at h
  split_ifs at h with hvalid
  exact ⟨hvalid.1, (Option.some.inj h).symm⟩

theorem openBracket_eq_some {opening : UInt8} {mark object st : Mark}
    (h : openBracket opening mark = some (object, st)) :
    ∃ inner, mark.1 = opening :: inner ∧ object = (inner, mark.2) ∧
      st = (skipWs inner, mark.2) := by
  simp only [openBracket, Option.bind_eq_bind, Option.bind_eq_some_iff, behind_eq_some] at h
  obtain ⟨inner, hinner, h⟩ := h
  obtain ⟨rfl, rfl⟩ := Prod.mk.inj (Option.some.inj h)
  exact ⟨inner, hinner, rfl, rfl⟩

theorem openBracket_of_eq {opening : UInt8} {mark : Mark} {inner : Bytes}
    (h : mark.1 = opening :: inner) :
    openBracket opening mark = some ((inner, mark.2), (skipWs inner, mark.2)) := by
  rw [openBracket, h, behind_cons]
  rfl

theorem openDocument_eq_some {opening closing : UInt8} {mark : Mark} {result : Mark × Mark}
    (h : openDocument opening closing mark = some result) :
    openBracket opening mark = some result := by
  rw [openDocument] at h
  split_ifs at h
  exact h

theorem openDocument_of_eq {opening closing : UInt8} (hclosing : isWs closing = false)
    {mark : Mark} {inner : Bytes} {w : Ws} (h : mark.1 = opening :: (inner ++ closing :: w.1)) :
    ∃ object st, openDocument opening closing mark = some (object, st) := by
  have hlast : endsWith closing mark.1 := by
    rw [h, ← List.cons_append]
    exact endsWith_closing hclosing _ w
  rw [openDocument, if_pos hlast, openBracket_of_eq h]
  exact ⟨_, _, rfl⟩

section Ranges

variable {Item : Type} {closing : UInt8} {read : Bytes → ℕ → Step Mark Item} {depth : ℕ}
  {text rest : Bytes}

theorem beginRange_closing :
    beginRange closing read depth (closing :: rest) = .finished (skipWs rest, depth - 1) := by
  simp [beginRange]

theorem beginRange_of_ne (h : ∀ rest, text ≠ closing :: rest) :
    beginRange closing read depth text = read text (depth + 1) := by
  rw [beginRange, behind_eq_none.mpr h]

theorem nextInRange_comma :
    nextInRange closing read depth (0x2c :: rest) = read (skipWs rest) (depth + 1) := by
  simp [nextInRange]

theorem nextInRange_closing (h : closing ≠ 0x2c) :
    nextInRange closing read depth (closing :: rest) = .finished (skipWs rest, depth - 1) := by
  simp [nextInRange, behind, h]

theorem nextInRange_other (hcomma : ∀ rest, text ≠ 0x2c :: rest)
    (hclosing : ∀ rest, text ≠ closing :: rest) :
    nextInRange closing read depth text = .yielded none (text, depth) := by
  rw [nextInRange, behind_eq_none.mpr hcomma, behind_eq_none.mpr hclosing]

end Ranges

theorem fieldAt_key (key : StringLiteral) (w : Ws) (inner : Bytes) (depth : ℕ) :
    fieldAt (key.render ++ (w.1 ++ 0x3a :: inner)) depth =
      some ⟨key.render ++ (w.1 ++ 0x3a :: inner), key.body, (skipWs inner, depth)⟩ := by
  have hcolon : skipWs (w.1 ++ 0x3a :: inner) = 0x3a :: inner := skipWs_ws_cons w (by decide) inner
  simp only [fieldAt, stringToken_render, Option.bind_eq_bind, Option.bind_some, hcolon,
    behind_cons]
  rfl

theorem fieldAt_eq_some {text : Bytes} {depth : ℕ} {field : Field}
    (h : fieldAt text depth = some field) :
    ∃ (key : StringLiteral) (w : Ws) (inner : Bytes),
      text = key.render ++ (w.1 ++ 0x3a :: inner) := by
  simp only [fieldAt, Option.bind_eq_bind, Option.bind_eq_some_iff, behind_eq_some] at h
  obtain ⟨token, htoken, inner, hinner, -⟩ := h
  obtain ⟨key, -, rfl⟩ := stringToken_eq_some htoken
  exact ⟨key, leadingWs token.2, inner, by rw [← hinner, leadingWs_append_skipWs]⟩

theorem getDouble_eq_some {mark st : Mark} (h : getDouble mark = some st) :
    ∃ (n : NumberLiteral) (rest : Bytes), mark.1 = n.lexeme ++ rest ∧ Delimited rest ∧
      n.value.InDoubleRange ∧ st = (skipWs rest, mark.2 - 1) := by
  simp only [getDouble, Option.bind_eq_bind, Option.bind_eq_some_iff] at h
  obtain ⟨token, htoken, value, hvalue, h⟩ := h
  split_ifs at h with hrange
  obtain ⟨hlocation, hrest⟩ := scalarToken_eq_some htoken
  exact ⟨⟨token.1, value, hvalue⟩, token.2, hlocation, hrest, hrange, (Option.some.inj h).symm⟩

theorem getDouble_number {mark : Mark} {n : NumberLiteral} {rest : Bytes}
    (h : mark.1 = n.lexeme ++ rest) (hrest : Delimited rest) (hrange : n.value.InDoubleRange) :
    getDouble mark = some (skipWs rest, mark.2 - 1) := by
  have htoken := scalarToken_append
    (fun b hb => (isNumberByte_plain (n.isNumberByte_of_mem b hb)).1) hrest
  simp only [getDouble, h, htoken, Option.bind_eq_bind, Option.bind_some, n.reads,
    if_pos hrange]

theorem getString_eq_some {mark st : Mark} {text : Bytes} (h : getString mark = some (text, st)) :
    ∃ (s : StringLiteral) (rest : Bytes), mark.1 = s.render ++ rest ∧ s.text = some text ∧
      st = (skipWs rest, mark.2 - 1) := by
  simp only [getString, Option.bind_eq_bind, Option.bind_eq_some_iff] at h
  obtain ⟨token, htoken, t, ht, h⟩ := h
  obtain ⟨rfl, rfl⟩ := Prod.mk.inj (Option.some.inj h)
  obtain ⟨s, hbody, htext⟩ := stringToken_eq_some htoken
  exact ⟨s, token.2, htext, by rw [StringLiteral.text, hbody, ht], rfl⟩

theorem getString_string {mark : Mark} {s : StringLiteral} {text rest : Bytes}
    (h : mark.1 = s.render ++ rest) (htext : s.text = some text) :
    getString mark = some (text, (skipWs rest, mark.2 - 1)) := by
  have hread : unescape s.body = some text := htext
  simp only [getString, h, stringToken_render, Option.bind_eq_bind, Option.bind_some, hread]
  rfl

theorem getBool_eq_some {mark st : Mark} {b : Bool} (h : getBool mark = some (b, st)) :
    ∃ rest, mark.1 = (Value.bool b).render ++ rest ∧ st = (skipWs rest, mark.2 - 1) := by
  simp only [getBool, Option.bind_eq_bind, Option.bind_eq_some_iff] at h
  obtain ⟨token, htoken, h⟩ := h
  have htext := (scalarToken_eq_some htoken).1
  split_ifs at h with htrue hfalse
  · obtain ⟨rfl, rfl⟩ := Prod.mk.inj (Option.some.inj h)
    exact ⟨token.2, by rw [← htrue, ← htext], rfl⟩
  · obtain ⟨rfl, rfl⟩ := Prod.mk.inj (Option.some.inj h)
    exact ⟨token.2, by rw [← hfalse, ← htext], rfl⟩

theorem getBool_bool {mark : Mark} {b : Bool} {rest : Bytes}
    (h : mark.1 = (Value.bool b).render ++ rest) (hrest : Delimited rest) :
    getBool mark = some (b, (skipWs rest, mark.2 - 1)) := by
  have hplain : ∀ c ∈ (Value.bool b).render, isDelimiter c = false := by
    have hall : (Value.bool b).render.all fun c => !isDelimiter c := by cases b <;> decide
    simpa using hall
  have htoken := scalarToken_append hplain hrest
  simp only [getBool, h, htoken, Option.bind_eq_bind, Option.bind_some]
  cases b <;> rfl

theorem isNull_true {mark st : Mark} (h : isNull mark = some (true, st)) :
    ∃ rest, mark.1 = Value.null.render ++ rest ∧ st = (skipWs rest, mark.2 - 1) := by
  simp only [isNull] at h
  split_ifs at h with hn
  · simp at h
  · simp only [Option.bind_eq_bind, Option.bind_eq_some_iff] at h
    obtain ⟨token, htoken, h⟩ := h
    split_ifs at h with hnull
    obtain ⟨-, rfl⟩ := Prod.mk.inj (Option.some.inj h)
    exact ⟨token.2, by rw [← hnull, ← (scalarToken_eq_some htoken).1], rfl⟩

theorem isNull_false {mark st : Mark} (h : isNull mark = some (false, st)) : st = mark := by
  simp only [isNull] at h
  split_ifs at h with hn
  · exact (Prod.mk.inj (Option.some.inj h)).2.symm
  · simp only [Option.bind_eq_bind, Option.bind_eq_some_iff] at h
    obtain ⟨token, -, h⟩ := h
    split_ifs at h
    simp at h

theorem isNull_null {mark : Mark} {rest : Bytes} (h : mark.1 = Value.null.render ++ rest)
    (hrest : Delimited rest) : isNull mark = some (true, (skipWs rest, mark.2 - 1)) := by
  have hplain : ∀ c ∈ Value.null.render, isDelimiter c = false := by
    have hall : Value.null.render.all fun c => !isDelimiter c := by decide
    simpa using hall
  have htoken := scalarToken_append hplain hrest
  have hn : behind 0x6e (Value.null.render ++ rest) = some (ascii "ull" ++ rest) := rfl
  simp [isNull, h, htoken, hn]

theorem isNull_string {mark : Mark} {rest : Bytes} (h : mark.1 = 0x22 :: rest) :
    isNull mark = some (false, mark) := by
  simp [isNull, h, behind]

/-- The slice that is cut out when the object is well formed. -/
theorem rawJson_object {w : Json.Value} (hw : w.isObject) {inner rest : Bytes} {depth : ℕ}
    (h : w.render ++ rest = 0x7b :: inner) :
    rawJson (inner, depth) = some (w.render ++ (leadingWs rest).1, (skipWs rest, depth - 1)) := by
  obtain ⟨text, htext, hclose⟩ := closeBracket_object hw rest
  obtain rfl : inner = text := (List.cons.inj (h.symm.trans htext)).2
  have hslice : (w.render ++ rest).take ((w.render ++ rest).length - (skipWs rest).length) =
      w.render ++ (leadingWs rest).1 := by
    conv_lhs => rw [← leadingWs_append_skipWs rest]
    rw [← List.append_assoc, List.take_left']
    simp only [List.length_append, skipWs_append, skipWs_skipWs]
    omega
  simp only [rawJson, hclose, Option.bind_eq_bind, Option.bind_some, ← h, hslice]
  rfl

/-! ## The laws -/

theorem yieldsValue_readElement (text : Bytes) (depth : ℕ) :
    reference.YieldsValue (readElement text depth) text depth :=
  ⟨(text, depth), (text, depth), rfl, ⟨rfl, rfl⟩, rfl⟩

theorem stepsToField_readField (text : Bytes) (depth : ℕ) :
    reference.StepsToField (readField text depth) text depth where
  field key w inner h := by
    refine ⟨⟨text, key.body, (skipWs inner, depth)⟩, (skipWs inner, depth), ?_, rfl, ?_⟩
    · change readField text depth = _
      rw [readField, h, fieldAt_key]
      rfl
    · refine ⟨⟨rfl, rfl⟩, rfl, ?_, ?_⟩
      · intro k st' hk
        obtain ⟨k', hk', heq⟩ := Option.map_eq_some_iff.mp hk
        obtain ⟨rfl, rfl⟩ := Prod.mk.inj heq
        exact ⟨hk', ⟨rfl, rfl⟩, rfl⟩
      · intro k hk
        exact ⟨(skipWs inner, depth), Option.map_eq_some_iff.mpr ⟨k, hk, rfl⟩⟩
  malformed h := by
    have hnone : fieldAt text depth = none := by
      cases hfield : fieldAt text depth with
      | none => rfl
      | some field =>
          obtain ⟨key, w, inner, htext⟩ := fieldAt_eq_some hfield
          exact absurd htext (h key w inner)
    refine ⟨(text, depth), ?_⟩
    change readField text depth = _
    rw [readField, hnone]
    rfl

theorem yieldsValue_of_eq {step : Step Mark Mark} {text : Bytes} {depth : ℕ}
    (h : step = readElement text depth) : reference.YieldsValue step text depth :=
  h ▸ yieldsValue_readElement text depth

theorem stepsToField_of_eq {step : Step Mark Field} {text : Bytes} {depth : ℕ}
    (h : step = readField text depth) : reference.StepsToField step text depth :=
  h ▸ stepsToField_readField text depth

theorem opensArray (inner : Bytes) (depth : ℕ) :
    reference.OpensArray (inner, depth) inner depth (skipWs inner, depth) where
  depth_eq := rfl
  empty {rest} h := by
    refine ⟨(skipWs rest, depth - 1), ?_, rfl, rfl⟩
    change beginRange 0x5d readElement depth (skipWs inner) = _
    rw [h, beginRange_closing]
    rfl
  first h := yieldsValue_of_eq (beginRange_of_ne h)

theorem opensObject (inner : Bytes) (depth : ℕ) :
    reference.OpensObject (inner, depth) inner depth (skipWs inner, depth) where
  depth_eq := rfl
  empty {rest} h := by
    refine ⟨(skipWs rest, depth - 1), ?_, rfl, rfl⟩
    change beginRange 0x7d readField depth (skipWs inner) = _
    rw [h, beginRange_closing]
    rfl
  first h := stepsToField_of_eq (beginRange_of_ne h)

end Reference

open Reference in
/-- The reference cursor obeys every law. -/
theorem reference_lawful : reference.Lawful where
  iterate_sound {body st} h := by
    obtain ⟨hvalid, rfl⟩ := iterate_eq_some h
    exact ⟨hvalid, rfl, rfl⟩
  iterate_complete {body} hvalid hne hclosed :=
    ⟨(skipWs (dropByteOrderMark body), 1), if_pos ⟨hvalid, hne, hclosed⟩⟩
  documentGetArray_sound {body st a st'} hiterate h := by
    obtain ⟨-, rfl⟩ := iterate_eq_some hiterate
    obtain ⟨inner, hinner, rfl, rfl⟩ := openBracket_eq_some (openDocument_eq_some h)
    exact ⟨inner, hinner, opensArray inner 1⟩
  documentGetArray_complete _ h := openDocument_of_eq (by decide) h
  documentGetObject_sound {body st o st'} hiterate h := by
    obtain ⟨-, rfl⟩ := iterate_eq_some hiterate
    obtain ⟨inner, hinner, rfl, rfl⟩ := openBracket_eq_some (openDocument_eq_some h)
    exact ⟨inner, hinner, opensObject inner 1⟩
  documentGetObject_complete _ h := openDocument_of_eq (by decide) h
  atEnd_iff _ := List.isEmpty_iff
  arrayNext_comma {a st rest} _ h := by
    have hstep : nextInRange 0x5d readElement a.2 st.1 =
        readElement (skipWs rest) (a.2 + 1) := by
      rw [show st.1 = 0x2c :: rest from h, nextInRange_comma]
    exact yieldsValue_of_eq hstep
  arrayNext_close {a st rest} _ h := by
    refine ⟨(skipWs rest, a.2 - 1), ?_, rfl, rfl⟩
    change nextInRange 0x5d readElement a.2 st.1 = _
    rw [show st.1 = 0x5d :: rest from h, nextInRange_closing (by decide)]
    rfl
  arrayNext_other _ hcomma hclose := ⟨_, nextInRange_other hcomma hclose⟩
  objectNext_comma {o st rest} _ h := by
    have hstep : nextInRange 0x7d Reference.readField o.2 st.1 =
        Reference.readField (skipWs rest) (o.2 + 1) := by
      rw [show st.1 = 0x2c :: rest from h, nextInRange_comma]
    exact stepsToField_of_eq hstep
  objectNext_close {o st rest} _ h := by
    refine ⟨(skipWs rest, o.2 - 1), ?_, rfl, rfl⟩
    change nextInRange 0x7d Reference.readField o.2 st.1 = _
    rw [show st.1 = 0x7d :: rest from h, nextInRange_closing (by decide)]
    rfl
  objectNext_other _ hcomma hclose := ⟨_, nextInRange_other hcomma hclose⟩
  type_complete {v st t} hat h := by
    obtain rfl : v = st := hat
    exact h
  getArray_sound {v st a st'} hat h := by
    obtain rfl : v = st := hat
    obtain ⟨inner, hinner, rfl, rfl⟩ := openBracket_eq_some h
    exact ⟨inner, hinner, opensArray inner v.2⟩
  getArray_complete {v st inner} hat h := by
    obtain rfl : v = st := hat
    exact ⟨_, _, openBracket_of_eq h⟩
  getObject_sound {v st o st'} hat h := by
    obtain rfl : v = st := hat
    obtain ⟨inner, hinner, rfl, rfl⟩ := openBracket_eq_some h
    exact ⟨inner, hinner, opensObject inner v.2⟩
  getObject_complete {v st inner} hat h := by
    obtain rfl : v = st := hat
    exact ⟨_, _, openBracket_of_eq h⟩
  getDouble_sound {v st st'} hat h := by
    obtain rfl : v = st := hat
    obtain ⟨n, rest, hlocation, -, hrange, rfl⟩ := Reference.getDouble_eq_some h
    exact ⟨n, rest, hlocation, hrange, rfl, rfl⟩
  getDouble_complete {v st rest n} hat h hrest hrange := by
    obtain rfl : v = st := hat
    exact ⟨_, getDouble_number h hrest hrange, rfl, rfl⟩
  getString_sound {v st text st'} hat h := by
    obtain rfl : v = st := hat
    obtain ⟨s, rest, hlocation, htext, rfl⟩ := getString_eq_some h
    exact ⟨s, rest, hlocation, htext, rfl, rfl⟩
  getString_complete {v st text rest s} hat h htext := by
    obtain rfl : v = st := hat
    exact ⟨_, getString_string h htext, rfl, rfl⟩
  getBool_sound {v st b st'} hat h := by
    obtain rfl : v = st := hat
    obtain ⟨rest, hlocation, rfl⟩ := getBool_eq_some h
    exact ⟨rest, hlocation, rfl, rfl⟩
  getBool_complete {v st b rest} hat h hrest := by
    obtain rfl : v = st := hat
    exact ⟨_, getBool_bool h hrest, rfl, rfl⟩
  isNull_sound {v st st'} hat h := by
    obtain rfl : v = st := hat
    obtain ⟨rest, hlocation, rfl⟩ := isNull_true h
    exact ⟨rest, hlocation, rfl, rfl⟩
  isNull_complete {v st rest} hat h hrest := by
    obtain rfl : v = st := hat
    exact ⟨_, isNull_null h hrest, rfl, rfl⟩
  isNull_unread {v st st'} hat h := by
    obtain rfl : v = st := hat
    obtain rfl := isNull_false h
    exact ⟨rfl, rfl, rfl⟩
  isNull_string {v st rest} hat h := by
    obtain rfl : v = st := hat
    exact ⟨_, Reference.isNull_string h⟩
  rawJson_complete {v st o st' rest w} hat hobject h hw := by
    obtain rfl : v = st := hat
    obtain ⟨inner, hinner, rfl, -⟩ := openBracket_eq_some hobject
    exact ⟨_, rawJson_object hw ((show v.1 = w.render ++ rest from h).symm.trans hinner)⟩
  reset_sound {v st o st' inner raw st'' hasFields st'''} hat hobject h _ hreset := by
    obtain rfl : v = st := hat
    obtain ⟨inner', hinner', rfl, -⟩ := openBracket_eq_some hobject
    obtain rfl : inner = inner' :=
      (List.cons.inj ((show v.1 = 0x7b :: inner from h).symm.trans hinner')).2
    obtain ⟨-, rfl⟩ := Prod.mk.inj (Option.some.inj hreset)
    exact opensObject inner v.2
  reset_complete _ _ _ := ⟨_, _, rfl⟩

theorem reference_readsWholeNumbers : reference.ReadsWholeNumbers := by
  intro v st st' hat h
  obtain rfl : v = st := hat
  obtain ⟨n, rest, hlocation, ⟨b, tail, rfl, hb⟩, hrange, rfl⟩ := Reference.getDouble_eq_some h
  refine ⟨n, b :: tail, hlocation, ?_, hrange, rfl, rfl⟩
  simpa using hb

end Leta
