import Leta.Foundation.Utf8
import Mathlib.Data.List.TakeWhile

/-! # Lexemes of JSON: whitespace, numbers and strings

The lexical grammar of RFC 8259 over bytes. Texts are kept as they stand: a string
literal is its raw body and a number its digits, next to what they denote. -/

namespace Leta.Json

/-! ## Whitespace and delimiters -/

/-- RFC 8259's four kinds of whitespace. -/
def isWs (b : UInt8) : Bool := b == 0x20 || b == 0x09 || b == 0x0a || b == 0x0d

def skipWs (text : Bytes) : Bytes := text.dropWhile isWs

/-- A run of whitespace, possibly empty. -/
abbrev Ws := {w : Bytes // ∀ b ∈ w, isWs b}

def Ws.none : Ws := ⟨[], by simp⟩

/-- `[ ] { } : ,` -/
def isStructural (b : UInt8) : Bool :=
  b == 0x5b || b == 0x5d || b == 0x7b || b == 0x7d || b == 0x3a || b == 0x2c

def isDelimiter (b : UInt8) : Bool := isWs b || isStructural b

/-- A scalar that ends here is followed by whitespace or a structural character. -/
def Delimited (text : Bytes) : Prop := ∃ b rest, text = b :: rest ∧ isDelimiter b

theorem skipWs_append (w : Ws) (text : Bytes) : skipWs (w.1 ++ text) = skipWs text :=
  List.dropWhile_append_of_pos w.2

theorem skipWs_cons {b : UInt8} (h : isWs b = false) (text : Bytes) :
    skipWs (b :: text) = b :: text := by
  simp [skipWs, h]

theorem skipWs_ws_cons (w : Ws) {b : UInt8} (h : isWs b = false) (text : Bytes) :
    skipWs (w.1 ++ b :: text) = b :: text := by
  rw [skipWs_append, skipWs_cons h]

theorem skipWs_skipWs (text : Bytes) : skipWs (skipWs text) = skipWs text := by
  induction text with
  | nil => rfl
  | cons b text ih =>
      cases hb : isWs b with
      | true => simpa [skipWs, hb] using ih
      | false => rw [skipWs_cons hb, skipWs_cons hb]

theorem length_skipWs_le (text : Bytes) : (skipWs text).length ≤ text.length :=
  List.length_dropWhile_le _ _

/-- The whitespace that `skipWs` passes over. -/
def leadingWs (text : Bytes) : Ws := ⟨text.takeWhile isWs, fun _ h => List.mem_takeWhile_imp h⟩

theorem leadingWs_append_skipWs (text : Bytes) : (leadingWs text).1 ++ skipWs text = text :=
  List.takeWhile_append_dropWhile

theorem leadingWs_of_skipWs_eq_nil {text : Bytes} (h : skipWs text = []) :
    (leadingWs text).1 = text := by
  simpa [h] using leadingWs_append_skipWs text

theorem skipWs_ws (w : Ws) : skipWs w.1 = [] := by
  simpa [skipWs] using w.2

theorem delimited_cons {b : UInt8} (h : isDelimiter b) (text : Bytes) : Delimited (b :: text) :=
  ⟨b, text, rfl, h⟩

theorem delimited_ws_append (w : Ws) {text : Bytes} (h : Delimited text) :
    Delimited (w.1 ++ text) := by
  obtain ⟨w, hw⟩ := w
  cases w with
  | nil => exact h
  | cons b w => exact delimited_cons (by simp [isDelimiter, hw b (by simp)]) _

/-! ## Numbers -/

/-- `(-1)^negative * mantissa * 10^exponent` -/
structure Decimal where
  negative : Bool
  mantissa : ℕ
  exponent : ℤ
  deriving DecidableEq, Repr

/-- `int = zero / ( digit1-9 *DIGIT )` -/
def isInteger (digits : Bytes) : Bool :=
  match digits with
  | [] => false
  | b :: rest => isDigit b && (b != 0x30 || rest.isEmpty)

/-- `frac = decimal-point 1*DIGIT`, or nothing: the digits and the rest. -/
def readFraction (text : Bytes) : Option (Bytes × Bytes) :=
  match text with
  | [] => some ([], [])
  | b :: rest =>
      if b = 0x2e then
        if rest.takeWhile isDigit = [] then none
        else some (rest.takeWhile isDigit, rest.dropWhile isDigit)
      else some ([], text)

/-- The sign an exponent may start with: whether it is a minus, and the rest. -/
def readSign (text : Bytes) : Bool × Bytes :=
  match text with
  | [] => (false, [])
  | b :: rest =>
      if b = 0x2d then (true, rest) else if b = 0x2b then (false, rest) else (false, text)

/-- `exp = e [ minus / plus ] 1*DIGIT`, or nothing, up to the end of the text. -/
def readExponent (text : Bytes) : Option ℤ :=
  match text with
  | [] => some 0
  | b :: rest =>
      if b = 0x65 ∨ b = 0x45 then
        let (negative, digits) := readSign rest
        if digits ≠ [] ∧ digits.all isDigit then
          some (if negative then -(digitsValue digits : ℤ) else digitsValue digits)
        else none
      else none

/-- What a number without its minus sign denotes. -/
def readUnsigned (negative : Bool) (text : Bytes) : Option Decimal :=
  if isInteger (text.takeWhile isDigit) then do
    let (fraction, rest) ← readFraction (text.dropWhile isDigit)
    let exponent ← readExponent rest
    return {
      negative
      mantissa := digitsValue (text.takeWhile isDigit ++ fraction)
      exponent := exponent - fraction.length }
  else none

/-- The number a literal denotes, when it is one: `number = [ minus ] int [ frac ] [ exp ]`. -/
def readNumber (lexeme : Bytes) : Option Decimal :=
  match lexeme with
  | [] => none
  | b :: rest => if b = 0x2d then readUnsigned true rest else readUnsigned false lexeme

/-- Rounding to the nearest double gives a finite one: the magnitude is below the middle
between the largest double and the power of two after it. -/
def Decimal.InDoubleRange (d : Decimal) : Prop :=
  d.mantissa * 10 ^ d.exponent.toNat < (2 ^ 1024 - 2 ^ 970) * 10 ^ (-d.exponent).toNat

instance (d : Decimal) : Decidable d.InDoubleRange := Nat.decLt _ _

/-- A number literal and what it denotes. -/
structure NumberLiteral where
  lexeme : Bytes
  value : Decimal
  reads : readNumber lexeme = some value

/-! ## Strings -/

/-- The raw bytes between the quotes of a string: no control character, and a quote or a
backslash only behind a backslash. Which escapes mean something is for `unescape` to say. -/
def isStringBody (body : Bytes) : Bool :=
  match body with
  | [] => true
  | b :: rest =>
      if b = 0x5c then
        match rest with
        | [] => false
        | escaped :: rest => 0x20 ≤ escaped && isStringBody rest
      else b != 0x22 && 0x20 ≤ b && isStringBody rest

/-- What the one-letter escapes stand for. -/
def shortEscape (letter : UInt8) : Option UInt8 :=
  if letter = 0x22 then some 0x22
  else if letter = 0x5c then some 0x5c
  else if letter = 0x2f then some 0x2f
  else if letter = 0x62 then some 0x08
  else if letter = 0x66 then some 0x0c
  else if letter = 0x6e then some 0x0a
  else if letter = 0x72 then some 0x0d
  else if letter = 0x74 then some 0x09
  else none

def hexValue (b : UInt8) : Option ℕ :=
  if isDigit b then some (digitValue b)
  else if 0x61 ≤ b ∧ b ≤ 0x66 then some (b.toNat - 0x61 + 10)
  else if 0x41 ≤ b ∧ b ≤ 0x46 then some (b.toNat - 0x41 + 10)
  else none

/-- The UTF-16 code unit that four hexadecimal digits write. -/
def codeUnit (a b c d : UInt8) : Option ℕ := do
  return 0x1000 * (← hexValue a) + 0x100 * (← hexValue b) + 0x10 * (← hexValue c) + (← hexValue d)

/-- The UTF-8 bytes of a code point; surrogates have none. -/
def encodeCodePoint (n : ℕ) : Option Bytes :=
  if h : n.isValidChar then some (String.utf8EncodeChar (Char.ofNatAux n h)) else none

/-- The text a string's raw body stands for. A bad escape or a surrogate without its
partner makes it unreadable. -/
def unescape (body : Bytes) : Option Bytes :=
  match body with
  | [] => some []
  | b :: rest =>
      if b = 0x5c then
        match rest with
        | [] => none
        | letter :: rest =>
            if letter = 0x75 then
              match rest with
              | h1 :: h2 :: h3 :: h4 :: rest =>
                  match codeUnit h1 h2 h3 h4 with
                  | none => none
                  | some unit =>
                      if 0xd800 ≤ unit ∧ unit < 0xdc00 then
                        match rest with
                        | backslash :: u :: l1 :: l2 :: l3 :: l4 :: rest =>
                            match codeUnit l1 l2 l3 l4 with
                            | none => none
                            | some low =>
                                if backslash = 0x5c ∧ u = 0x75 ∧ 0xdc00 ≤ low ∧ low < 0xe000 then do
                                  let point := 0x10000 + (unit - 0xd800) * 0x400 + (low - 0xdc00)
                                  return (← encodeCodePoint point) ++ (← unescape rest)
                                else none
                        | _ => none
                      else do return (← encodeCodePoint unit) ++ (← unescape rest)
              | _ => none
            else do return (← shortEscape letter) :: (← unescape rest)
      else if b = 0x22 ∨ b < 0x20 then none
      else do return b :: (← unescape rest)

/-- A string literal, by its raw body. -/
structure StringLiteral where
  body : Bytes
  closed : isStringBody body

namespace StringLiteral

def render (s : StringLiteral) : Bytes := 0x22 :: s.body ++ [0x22]

/-- The text the literal stands for. -/
def text (s : StringLiteral) : Option Bytes := unescape s.body

end StringLiteral

end Leta.Json
