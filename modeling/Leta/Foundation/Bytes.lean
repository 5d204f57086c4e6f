import Mathlib.Tactic
import Mathlib.Data.Nat.Digits.Lemmas

/-! # Byte strings -/

namespace Leta

/-- A `std::string` or `std::string_view`: bytes, not characters. -/
abbrev Bytes := List UInt8

/-- The bytes of an ASCII literal. -/
def ascii (literal : String) : Bytes :=
  literal.toList.map fun character => character.toNat.toUInt8

/-! ## Decimal digits -/

def digit (n : ℕ) : UInt8 := UInt8.ofNat (0x30 + n)

/-- The decimal digits of `n`, as `std::to_string` writes them. -/
def decimal (n : ℕ) : Bytes :=
  if n = 0 then [digit 0] else (Nat.digits 10 n).reverse.map digit

def isDigit (b : UInt8) : Bool := 0x30 ≤ b && b ≤ 0x39

def digitValue (b : UInt8) : ℕ := b.toNat - 0x30

/-- The number a run of decimal digits writes. -/
def digitsValue (digits : Bytes) : ℕ :=
  digits.foldl (fun value b => 10 * value + digitValue b) 0

theorem digit_toNat {n : ℕ} (h : n < 10) : (digit n).toNat = 0x30 + n := by
  simp only [digit, UInt8.toNat_ofNat']
  omega

theorem isDigit_iff (b : UInt8) : isDigit b ↔ 0x30 ≤ b.toNat ∧ b.toNat ≤ 0x39 := by
  simp [isDigit, UInt8.le_iff_toNat_le]

theorem isDigit_digit {n : ℕ} (h : n < 10) : isDigit (digit n) := by
  rw [isDigit_iff, digit_toNat h]
  omega

theorem digitValue_digit {n : ℕ} (h : n < 10) : digitValue (digit n) = n := by
  simp [digitValue, digit_toNat h]

theorem digitsValue_append_singleton (ds : Bytes) (b : UInt8) :
    digitsValue (ds ++ [b]) = 10 * digitsValue ds + digitValue b := by
  simp [digitsValue]

/-- Digits read most significant first undo Mathlib's least-significant-first list. -/
theorem digitsValue_reverse_map_digit {ds : List ℕ} (h : ∀ d ∈ ds, d < 10) :
    digitsValue (ds.reverse.map digit) = Nat.ofDigits 10 ds := by
  induction ds with
  | nil => rfl
  | cons d ds ih =>
      simp only [List.forall_mem_cons] at h
      rw [List.reverse_cons, List.map_append, List.map_singleton,
        digitsValue_append_singleton, ih h.2, digitValue_digit h.1, Nat.ofDigits_cons]
      ring

theorem digits_lt_ten (n : ℕ) : ∀ d ∈ Nat.digits 10 n, d < 10 :=
  fun _ hd => Nat.digits_lt_base (by norm_num) hd

theorem digitsValue_decimal (n : ℕ) : digitsValue (decimal n) = n := by
  by_cases h : n = 0
  · subst h
    rfl
  · rw [decimal, if_neg h, digitsValue_reverse_map_digit (digits_lt_ten n),
      Nat.ofDigits_digits]

theorem isDigit_of_mem_decimal {n : ℕ} : ∀ b ∈ decimal n, isDigit b := by
  intro b hb
  by_cases h : n = 0
  · rw [decimal, if_pos h, List.mem_singleton] at hb
    exact hb ▸ isDigit_digit (by norm_num)
  · rw [decimal, if_neg h, List.mem_map] at hb
    obtain ⟨d, hd, rfl⟩ := hb
    exact isDigit_digit (digits_lt_ten n d (List.mem_reverse.mp hd))

theorem decimal_ne_nil (n : ℕ) : decimal n ≠ [] := by
  by_cases h : n = 0
  · simp [decimal, h]
  · simpa [decimal, h] using Nat.digits_ne_nil_iff_ne_zero.mpr h

/-- `std::to_string` writes no leading zero, except for zero itself. -/
theorem decimal_head_zero {n : ℕ} {ds : Bytes} (h : decimal n = digit 0 :: ds) :
    ds = [] := by
  by_cases hn : n = 0
  · rw [decimal, if_pos hn] at h
    exact (List.cons.inj h).2.symm
  · exfalso
    have hne : Nat.digits 10 n ≠ [] := Nat.digits_ne_nil_iff_ne_zero.mpr hn
    have hlt := digits_lt_ten n _ (List.getLast_mem hne)
    have hhead : digit ((Nat.digits 10 n).getLast hne) = digit 0 := by
      have := congrArg List.head? h
      simpa [decimal, hn, List.getLast?_eq_some_getLast hne] using this
    have := congrArg UInt8.toNat hhead
    rw [digit_toNat hlt, digit_toNat (by norm_num)] at this
    exact Nat.getLast_digit_ne_zero 10 hn (by omega)

/-! ### The order of numbers -/

theorem foldl_digits (ds : Bytes) (value : ℕ) :
    ds.foldl (fun value b => 10 * value + digitValue b) value =
      value * 10 ^ ds.length + digitsValue ds := by
  induction ds using List.reverseRecOn with
  | nil => simp [digitsValue]
  | append_singleton ds d ih =>
      rw [List.foldl_append, ih, digitsValue_append_singleton, List.length_append]
      simp only [List.foldl_cons, List.foldl_nil, List.length_singleton]
      ring

theorem digitsValue_cons (d : UInt8) (ds : Bytes) :
    digitsValue (d :: ds) = digitValue d * 10 ^ ds.length + digitsValue ds := by
  rw [digitsValue, List.foldl_cons, foldl_digits, Nat.mul_zero, Nat.zero_add]

theorem digitsValue_lt {ds : Bytes} (h : ∀ d ∈ ds, isDigit d) :
    digitsValue ds < 10 ^ ds.length := by
  induction ds with
  | nil => simp [digitsValue]
  | cons d ds ih =>
      simp only [List.forall_mem_cons] at h
      have hdigit := (isDigit_iff d).mp h.1
      have hvalue : digitValue d ≤ 9 := by
        rw [digitValue]
        omega
      have := ih h.2
      rw [digitsValue_cons, List.length_cons, pow_succ]
      nlinarith

/-- Digits of one length are ordered as the numbers that they write. -/
theorem digitsValue_lt_of_lt {front back : Bytes} (hlength : front.length = back.length)
    (hfront : ∀ d ∈ front, isDigit d) (hback : ∀ d ∈ back, isDigit d) (h : front < back) :
    digitsValue front < digitsValue back := by
  induction front generalizing back with
  | nil =>
      cases back with
      | nil => simp at h
      | cons => simp at hlength
  | cons d front ih =>
      cases back with
      | nil => simp at hlength
      | cons e back =>
          simp only [List.forall_mem_cons] at hfront hback
          have hlength' : front.length = back.length := by simpa using hlength
          rw [digitsValue_cons, digitsValue_cons, hlength']
          rcases List.cons_lt_cons_iff.mp h with hlt | ⟨rfl, hlt⟩
          · have hd := (isDigit_iff d).mp hfront.1
            have he := (isDigit_iff e).mp hback.1
            rw [UInt8.lt_iff_toNat_lt] at hlt
            have hvalue : digitValue d + 1 ≤ digitValue e := by
              rw [digitValue, digitValue]
              omega
            have := digitsValue_lt hfront.2
            rw [hlength'] at this
            nlinarith
          · exact Nat.add_lt_add_left (ih hlength' hfront.2 hback.2 hlt) _
end Leta
