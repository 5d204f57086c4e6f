import Leta.Json.Syntax

/-! # Scanning a text without parsing it

What a first pass over a text sees: quotes and brackets. It finds where strings end and
where brackets close, and a well-formed value takes it back to where it started. -/

namespace Leta.Json

/-- A byte that neither opens nor closes anything. -/
def isPlain (b : UInt8) : Bool :=
  b != 0x22 && b != 0x5c && b != 0x5b && b != 0x5d && b != 0x7b && b != 0x7d

/-- `F` reads a text at a nesting depth, by its strings and brackets only. -/
structure ScansBrackets {β : Type*} (F : ℕ → Bytes → β) : Prop where
  plain : ∀ d b rest, isPlain b → F d (b :: rest) = F d rest
  string : ∀ d (s : StringLiteral) rest, F d (s.render ++ rest) = F d rest
  opening : ∀ d b rest, b = 0x5b ∨ b = 0x7b → F d (b :: rest) = F (d + 1) rest
  closing : ∀ d b rest, b = 0x5d ∨ b = 0x7d → F (d + 2) (b :: rest) = F (d + 1) rest

namespace ScansBrackets

variable {β : Type*} {F : ℕ → Bytes → β} (hF : ScansBrackets F)

include hF

theorem plains {text : Bytes} (h : ∀ b ∈ text, isPlain b) (d : ℕ) (rest : Bytes) :
    F d (text ++ rest) = F d rest := by
  induction text with
  | nil => rfl
  | cons b text ih =>
      simp only [List.forall_mem_cons] at h
      rw [List.cons_append, hF.plain d b _ h.1, ih h.2]

theorem ws (w : Ws) (d : ℕ) (rest : Bytes) : F d (w.1 ++ rest) = F d rest := by
  refine hF.plains (fun b hb => ?_) d rest
  have := w.2 b hb
  simp only [isWs, Bool.or_eq_true, beq_iff_eq] at this
  rcases this with ((rfl | rfl) | rfl) | rfl <;> decide

theorem number (n : NumberLiteral) (d : ℕ) (rest : Bytes) :
    F d (n.lexeme ++ rest) = F d rest := by
  refine hF.plains (fun b hb => ?_) d rest
  obtain ⟨hdelim, hquote, hslash, -⟩ := isNumberByte_plain (n.isNumberByte_of_mem b hb)
  simp only [isDelimiter, isStructural, Bool.or_eq_false_iff, beq_eq_false_iff_ne] at hdelim
  simp only [isPlain, Bool.and_eq_true, bne_iff_ne]
  tauto

mutual

/-- Scanning a value inside some bracket leads back to the same depth. -/
theorem value : ∀ (v : Value) (d : ℕ) (rest : Bytes), F (d + 1) (v.render ++ rest) = F (d + 1) rest
  | .null, d, rest => hF.plains (List.all_eq_true.mp (by decide)) (d + 1) rest
  | .bool true, d, rest => hF.plains (List.all_eq_true.mp (by decide)) (d + 1) rest
  | .bool false, d, rest => hF.plains (List.all_eq_true.mp (by decide)) (d + 1) rest
  | .number n, d, rest => hF.number n (d + 1) rest
  | .string s, d, rest => hF.string (d + 1) s rest
  | .emptyArray inner, d, rest => by
      simp only [Value.render, List.cons_append, List.append_assoc, List.nil_append]
      rw [hF.opening _ _ _ (Or.inl rfl), hF.ws, hF.closing _ _ _ (Or.inl rfl)]
  | .array before list, d, rest => by
      simp only [Value.render, List.cons_append, List.append_assoc, List.nil_append]
      rw [hF.opening _ _ _ (Or.inl rfl), hF.ws, items list, hF.closing _ _ _ (Or.inl rfl)]
  | .emptyObject inner, d, rest => by
      simp only [Value.render, List.cons_append, List.append_assoc, List.nil_append]
      rw [hF.opening _ _ _ (Or.inr rfl), hF.ws, hF.closing _ _ _ (Or.inr rfl)]
  | .object before list, d, rest => by
      simp only [Value.render, List.cons_append, List.append_assoc, List.nil_append]
      rw [hF.opening _ _ _ (Or.inr rfl), hF.ws, members list, hF.closing _ _ _ (Or.inr rfl)]

theorem items : ∀ (list : Items) (d : ℕ) (rest : Bytes),
    F (d + 1) (list.render ++ rest) = F (d + 1) rest
  | .last v after, d, rest => by
      rw [Items.render, List.append_assoc, value v, hF.ws]
  | .cons v after before list, d, rest => by
      simp only [Items.render, List.cons_append, List.append_assoc]
      rw [value v, hF.ws, hF.plain _ _ _ (by decide), hF.ws, items list]

theorem members : ∀ (list : Members) (d : ℕ) (rest : Bytes),
    F (d + 1) (list.render ++ rest) = F (d + 1) rest
  | .last key beforeColon afterColon v after, d, rest => by
      simp only [Members.render, List.cons_append, List.append_assoc]
      rw [hF.string, hF.ws, hF.plain _ _ _ (by decide), hF.ws, value v, hF.ws]
  | .cons key beforeColon afterColon v after before list, d, rest => by
      simp only [Members.render, List.cons_append, List.append_assoc]
      rw [hF.string, hF.ws, hF.plain _ _ _ (by decide), hF.ws, value v, hF.ws,
        hF.plain _ _ _ (by decide), hF.ws, members list]

end

end ScansBrackets

/-! ## Strings that end -/

/-- Every string ends, holds no control character, and no backslash stands outside one. -/
def stringsClosed (inString : Bool) (text : Bytes) : Bool :=
  match text with
  | [] => !inString
  | b :: rest =>
      if inString then
        if b = 0x5c then
          match rest with
          | [] => false
          | letter :: rest => 0x20 ≤ letter && stringsClosed true rest
        else if b = 0x22 then stringsClosed false rest
        else 0x20 ≤ b && stringsClosed true rest
      else b != 0x5c && stringsClosed (b == 0x22) rest

theorem stringsClosed_body {body : Bytes} (h : isStringBody body) (rest : Bytes) :
    stringsClosed true (body ++ 0x22 :: rest) = stringsClosed false rest := by
  induction body using isStringBody.induct with
  | case1 =>
      rw [List.nil_append, stringsClosed.eq_def]
      simp
  | case2 => simp [isStringBody] at h
  | case3 letter body ih =>
      rw [isStringBody.eq_def] at h
      simp only [reduceIte, Bool.and_eq_true, decide_eq_true_eq] at h
      rw [List.cons_append, List.cons_append, stringsClosed.eq_def]
      simp [h.1, ih h.2]
  | case4 b body hslash ih =>
      rw [isStringBody.eq_def] at h
      simp only [hslash, if_false, Bool.and_eq_true, bne_iff_ne, ne_eq, decide_eq_true_eq] at h
      rw [List.cons_append, stringsClosed.eq_def]
      simp [hslash, h.1.1, h.1.2, ih h.2]

theorem stringsClosed_plain {b : UInt8} (rest : Bytes) (hquote : b ≠ 0x22) (hslash : b ≠ 0x5c) :
    stringsClosed false (b :: rest) = stringsClosed false rest := by
  rw [stringsClosed.eq_def]
  simp [beq_false_of_ne hquote, bne_iff_ne.mpr hslash]

theorem scansBrackets_stringsClosed : ScansBrackets fun _ text => stringsClosed false text where
  plain _ b rest h := by
    simp only [isPlain, Bool.and_eq_true, bne_iff_ne] at h
    exact stringsClosed_plain rest h.1.1.1.1.1 h.1.1.1.1.2
  string _ s rest := by
    rw [StringLiteral.render_append, stringsClosed.eq_def]
    simpa using stringsClosed_body s.closed rest
  opening _ b rest h := by
    rcases h with rfl | rfl <;> exact stringsClosed_plain rest (by decide) (by decide)
  closing _ b rest h := by
    rcases h with rfl | rfl <;> exact stringsClosed_plain rest (by decide) (by decide)

/-- Every string of a JSON text ends. -/
theorem stringsClosed_text (before after : Ws) (v : Value) :
    stringsClosed false (before.1 ++ (v.render ++ after.1)) := by
  have hF := scansBrackets_stringsClosed
  have hafter : stringsClosed false after.1 = stringsClosed false [] := by
    simpa using hF.ws after 0 []
  calc stringsClosed false (before.1 ++ (v.render ++ after.1))
      = stringsClosed false (v.render ++ after.1) := hF.ws before 0 _
    _ = stringsClosed false after.1 := hF.value v 0 _
    _ = true := hafter

/-! ## Brackets that close -/

/-- What follows the bracket that closes `depth` open ones, whatever their kinds. -/
def closeBracket (depth : ℕ) (inString : Bool) (text : Bytes) : Option Bytes :=
  match text with
  | [] => none
  | b :: rest =>
      if inString then
        if b = 0x5c then
          match rest with
          | [] => none
          | _ :: rest => closeBracket depth true rest
        else closeBracket depth (b != 0x22) rest
      else if b = 0x5d ∨ b = 0x7d then
        if depth ≤ 1 then some rest else closeBracket (depth - 1) false rest
      else if b = 0x5b ∨ b = 0x7b then closeBracket (depth + 1) false rest
      else closeBracket depth (b == 0x22) rest

theorem closeBracket_body {body : Bytes} (h : isStringBody body) (depth : ℕ) (rest : Bytes) :
    closeBracket depth true (body ++ 0x22 :: rest) = closeBracket depth false rest := by
  induction body using isStringBody.induct with
  | case1 =>
      rw [List.nil_append, closeBracket.eq_def]
      simp
  | case2 => simp [isStringBody] at h
  | case3 letter body ih =>
      rw [isStringBody.eq_def] at h
      simp only [reduceIte, Bool.and_eq_true, decide_eq_true_eq] at h
      rw [List.cons_append, List.cons_append, closeBracket.eq_def]
      simp [ih h.2]
  | case4 b body hslash ih =>
      rw [isStringBody.eq_def] at h
      simp only [hslash, if_false, Bool.and_eq_true, bne_iff_ne, ne_eq, decide_eq_true_eq] at h
      rw [List.cons_append, closeBracket.eq_def]
      simp [hslash, bne_iff_ne.mpr h.1.1, ih h.2]

theorem scansBrackets_closeBracket : ScansBrackets fun d text => closeBracket d false text where
  plain d b rest h := by
    simp only [isPlain, Bool.and_eq_true, bne_iff_ne] at h
    obtain ⟨⟨⟨⟨⟨hquote, -⟩, hopen⟩, hclose⟩, hopen'⟩, hclose'⟩ := h
    rw [closeBracket.eq_def]
    simp [beq_false_of_ne hquote, hopen, hclose, hopen', hclose']
  string d s rest := by
    rw [StringLiteral.render_append, closeBracket.eq_def]
    simpa using closeBracket_body s.closed d rest
  opening d b rest h := by
    rw [closeBracket.eq_def]
    rcases h with rfl | rfl <;> simp
  closing d b rest h := by
    rw [closeBracket.eq_def]
    rcases h with rfl | rfl <;> simp

theorem closeBracket_closing (b : UInt8) (rest : Bytes) (h : b = 0x5d ∨ b = 0x7d) :
    closeBracket 1 false (b :: rest) = some rest := by
  rw [closeBracket.eq_def]
  simp [h]

/-- Counting brackets finds the end of an object. -/
theorem closeBracket_object {v : Value} (h : v.isObject) (rest : Bytes) :
    ∃ text, v.render ++ rest = 0x7b :: text ∧ closeBracket 1 false text = some rest := by
  have hF := scansBrackets_closeBracket
  cases v with
  | emptyObject inner =>
      refine ⟨inner.1 ++ 0x7d :: rest, by simp [Value.render], ?_⟩
      rw [hF.ws inner 1, closeBracket_closing _ _ (Or.inr rfl)]
  | object before members =>
      refine ⟨before.1 ++ (members.render ++ 0x7d :: rest), by simp [Value.render], ?_⟩
      rw [hF.ws before 1, hF.members members 0, closeBracket_closing _ _ (Or.inr rfl)]
  | _ => simp [Value.isObject] at h

end Leta.Json
