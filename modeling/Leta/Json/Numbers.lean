import Leta.Json.Lexeme

/-! # The bytes of a number literal -/

namespace Leta.Json

/-- The bytes that occur in number literals: digits, `-`, `+`, `.`, `e` and `E`. -/
def isNumberByte (b : UInt8) : Bool :=
  isDigit b || b == 0x2d || b == 0x2b || b == 0x2e || b == 0x65 || b == 0x45

theorem isNumberByte_of_isDigit {b : UInt8} (h : isDigit b) : isNumberByte b := by
  simp [isNumberByte, h]

/-- A number byte neither ends a token nor opens a string. -/
theorem isNumberByte_plain {b : UInt8} (h : isNumberByte b) :
    isDelimiter b = false ∧ b ≠ 0x22 ∧ b ≠ 0x5c ∧ isAscii b := by
  simp only [isNumberByte, Bool.or_eq_true, isDigit_iff, beq_iff_eq] at h
  rcases h with ((((h | rfl) | rfl) | rfl) | rfl) | rfl
  · refine ⟨?_, ?_, ?_, ?_⟩
    · simp only [isDelimiter, isWs, isStructural, Bool.or_eq_false_iff, beq_eq_false_iff_ne]
      refine ⟨⟨⟨⟨?_, ?_⟩, ?_⟩, ?_⟩, ⟨⟨⟨⟨?_, ?_⟩, ?_⟩, ?_⟩, ?_⟩, ?_⟩ <;> rintro rfl <;> simp at h
    · rintro rfl
      simp at h
    · rintro rfl
      simp at h
    · rw [isAscii_iff]
      omega
  all_goals decide

theorem readFraction_eq_some {text fraction rest : Bytes}
    (h : readFraction text = some (fraction, rest)) :
    (text = rest ∧ fraction = []) ∨
      (text = 0x2e :: (fraction ++ rest) ∧ ∀ b ∈ fraction, isDigit b) := by
  cases text with
  | nil =>
      simp only [readFraction, Option.some.injEq, Prod.mk.injEq] at h
      exact Or.inl ⟨h.2, h.1.symm⟩
  | cons b text =>
      simp only [readFraction] at h
      split_ifs at h with hb hdigits
      · simp only [Option.some.injEq, Prod.mk.injEq] at h
        obtain ⟨rfl, rfl⟩ := h
        refine Or.inr ⟨by rw [hb, List.takeWhile_append_dropWhile], ?_⟩
        exact fun _ h => List.mem_takeWhile_imp h
      · simp only [Option.some.injEq, Prod.mk.injEq] at h
        exact Or.inl ⟨h.2, h.1.symm⟩

theorem mem_of_readSign {text : Bytes} {b : UInt8} (hb : b ∈ text) :
    b ∈ (readSign text).2 ∨ b = 0x2d ∨ b = 0x2b := by
  cases text with
  | nil => simp at hb
  | cons c text =>
      simp only [readSign]
      split_ifs with h1 h2
      · simpa [h1, or_comm, or_assoc, or_left_comm] using
          (List.mem_cons.mp hb).imp_right (Or.inl (b := b = 0x2b))
      · rcases List.mem_cons.mp hb with rfl | hb
        · exact Or.inr (Or.inr h2)
        · exact Or.inl hb
      · exact Or.inl hb

theorem isNumberByte_of_readExponent {text : Bytes} {e : ℤ} (h : readExponent text = some e) :
    ∀ b ∈ text, isNumberByte b := by
  cases text with
  | nil => simp
  | cons c text =>
      obtain ⟨hc, hdigits⟩ : (c = 0x65 ∨ c = 0x45) ∧ (readSign text).2.all isDigit := by
        simp only [readExponent] at h
        split_ifs at h with hc hdigits
        all_goals exact ⟨hc, hdigits.2⟩
      intro b hb
      rcases List.mem_cons.mp hb with rfl | hb
      · rcases hc with rfl | rfl <;> decide
      · rcases mem_of_readSign hb with hb | rfl | rfl
        · exact isNumberByte_of_isDigit (List.all_eq_true.mp hdigits b hb)
        · decide
        · decide

theorem readUnsigned_eq_some {negative : Bool} {text : Bytes} {d : Decimal}
    (h : readUnsigned negative text = some d) :
    (∃ b rest, text = b :: rest ∧ isDigit b) ∧ ∀ b ∈ text, isNumberByte b := by
  simp only [readUnsigned] at h
  split_ifs at h with hint
  simp only [Option.bind_eq_bind, Option.bind_eq_some_iff] at h
  obtain ⟨⟨fraction, rest⟩, hfraction, e, hexponent, -⟩ := h
  constructor
  · cases text with
    | nil => simp [isInteger] at hint
    | cons b text =>
        refine ⟨b, text, rfl, ?_⟩
        by_contra hb
        rw [List.takeWhile_cons_of_neg hb] at hint
        simp [isInteger] at hint
  · intro b hb
    rw [← List.takeWhile_append_dropWhile (p := isDigit) (l := text), List.mem_append] at hb
    rcases hb with hb | hb
    · exact isNumberByte_of_isDigit (List.mem_takeWhile_imp hb)
    · have hrest := isNumberByte_of_readExponent hexponent
      rcases readFraction_eq_some hfraction with ⟨htext, -⟩ | ⟨htext, hdigits⟩
      · exact hrest b (htext ▸ hb)
      · rw [htext, List.mem_cons, List.mem_append] at hb
        rcases hb with rfl | hb | hb
        · decide
        · exact isNumberByte_of_isDigit (hdigits b hb)
        · exact hrest b hb

/-- A number literal starts with a digit or a minus sign and holds number bytes only. -/
theorem readNumber_eq_some {lexeme : Bytes} {d : Decimal} (h : readNumber lexeme = some d) :
    (∃ b rest, lexeme = b :: rest ∧ (b = 0x2d ∨ isDigit b)) ∧ ∀ b ∈ lexeme, isNumberByte b := by
  cases lexeme with
  | nil => simp [readNumber] at h
  | cons b rest =>
      simp only [readNumber] at h
      split_ifs at h with hb
      · obtain ⟨-, hall⟩ := readUnsigned_eq_some h
        refine ⟨⟨b, rest, rfl, Or.inl hb⟩, ?_⟩
        simp only [List.forall_mem_cons]
        exact ⟨by rw [hb]; decide, hall⟩
      · obtain ⟨⟨c, tail, hc, hdigit⟩, hall⟩ := readUnsigned_eq_some h
        exact ⟨⟨c, tail, hc, Or.inr hdigit⟩, hall⟩

namespace NumberLiteral

theorem exists_head (n : NumberLiteral) :
    ∃ b rest, n.lexeme = b :: rest ∧ (b = 0x2d ∨ isDigit b) :=
  (readNumber_eq_some n.reads).1

theorem isNumberByte_of_mem (n : NumberLiteral) : ∀ b ∈ n.lexeme, isNumberByte b :=
  (readNumber_eq_some n.reads).2

end NumberLiteral

/-! ## Writing natural numbers -/

theorem takeWhile_isDigit_decimal (n : ℕ) : (decimal n).takeWhile isDigit = decimal n :=
  List.takeWhile_eq_self_iff.mpr isDigit_of_mem_decimal

theorem dropWhile_isDigit_decimal (n : ℕ) : (decimal n).dropWhile isDigit = [] :=
  List.dropWhile_eq_nil_iff.mpr isDigit_of_mem_decimal

theorem isInteger_decimal (n : ℕ) : isInteger (decimal n) := by
  cases h : decimal n with
  | nil => exact absurd h (decimal_ne_nil n)
  | cons b ds =>
      have hb : isDigit b := isDigit_of_mem_decimal b (h ▸ List.mem_cons_self)
      simp only [isInteger, hb, Bool.true_and, Bool.or_eq_true, bne_iff_ne, List.isEmpty_iff]
      by_cases hzero : b = 0x30
      · exact Or.inr (decimal_head_zero (n := n) (by rw [h, hzero]; rfl))
      · exact Or.inl hzero

theorem readUnsigned_decimal (negative : Bool) (n : ℕ) :
    readUnsigned negative (decimal n) = some ⟨negative, n, 0⟩ := by
  simp [readUnsigned, takeWhile_isDigit_decimal, dropWhile_isDigit_decimal, isInteger_decimal,
    readFraction, readExponent, digitsValue_decimal]

/-- `std::to_string` of a count is the number literal of that count. -/
theorem readNumber_decimal (n : ℕ) : readNumber (decimal n) = some ⟨false, n, 0⟩ := by
  cases h : decimal n with
  | nil => exact absurd h (decimal_ne_nil n)
  | cons b ds =>
      have hb : isDigit b := isDigit_of_mem_decimal b (h ▸ List.mem_cons_self)
      have hne : b ≠ 0x2d := by
        rintro rfl
        exact absurd hb (by decide)
      rw [readNumber, if_neg hne, ← h, readUnsigned_decimal]

def NumberLiteral.ofNat (n : ℕ) : NumberLiteral := ⟨decimal n, ⟨false, n, 0⟩, readNumber_decimal n⟩

end Leta.Json
