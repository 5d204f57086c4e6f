import Leta.Core.Tokenizer
import Leta.Foundation.Utf8

/-! # What the tokenizer returns

The words of a text are its maximal runs without whitespace, also with positions of 64 bits. -/

namespace Leta

/-! ## Sizes of 64 bits -/

/-- `std::string_view::npos` -/
def npos : ℕ := 2 ^ 64 - 1

/-- A position as a `size_t`. -/
def sizeOf (position : Option ℕ) : ℕ := position.getD npos

/-- A search from a position that may be past the end, or `npos` itself. -/
def findFrom (p : UInt8 → Bool) (text : Bytes) (start : ℕ) : ℕ :=
  match (text.drop start).findIdx? p with
  | some i => start + i
  | none => npos

/-- The difference of two `size_t`, which wraps. -/
def sizeDifference (a b : ℕ) : ℕ := (a + 2 ^ 64 - b) % 2 ^ 64

/-- `text.substr(start, count)`, with the count clamped to the rest of the text. -/
def substrCount (text : Bytes) (start count : ℕ) : Bytes :=
  (text.drop start).take (min count (text.length - start))

/-- The loop of `split_on_whitespace` with its `size_t` positions. It gives up after `fuel`
turns. -/
def splitSizedFrom (text : Bytes) : ℕ → ℕ → Option (List Bytes)
  | 0, _ => none
  | fuel + 1, start =>
      if start = npos then some []
      else
        let stop := findFrom isAsciiWhitespace text start
        let word := substrCount text start (sizeDifference stop start)
        let next := findFrom (fun b => !isAsciiWhitespace b) text stop
        (splitSizedFrom text fuel next).map (word :: ·)

def splitSized (text : Bytes) (fuel : ℕ) : Option (List Bytes) :=
  splitSizedFrom text fuel (findFrom (fun b => !isAsciiWhitespace b) text 0)

/-- Below `npos` no position is mistaken for it. -/
theorem findFrom_sizeOf {text : Bytes} (h : text.length < npos) (p : UInt8 → Bool)
    (start : Option ℕ) : findFrom p text (sizeOf start) = sizeOf (findFirst p text start) := by
  cases start with
  | none =>
      have hdrop : text.drop npos = [] := List.drop_eq_nil_of_le h.le
      simp [findFrom, sizeOf, findFirst, hdrop]
  | some start =>
      simp only [findFrom, sizeOf, findFirst, Option.getD_some, Option.bind_some]
      cases (text.drop start).findIdx? p <;> rfl

theorem substrCount_sizeOf {text : Bytes} (h : text.length < npos) {start : ℕ}
    (hstart : start < text.length) {stop : Option ℕ}
    (hstop : ∀ found, stop = some found → start ≤ found ∧ found < text.length) :
    substrCount text start (sizeDifference (sizeOf stop) start) = substr text start stop := by
  have hnpos : npos + 1 = 2 ^ 64 := by decide
  cases stop with
  | none =>
      -- `npos - start` is clamped to the rest of the text.
      have hcount : sizeDifference (sizeOf none) start = npos - start := by
        simp only [sizeDifference, sizeOf, Option.getD_none]
        omega
      rw [substrCount, hcount, substr, min_eq_right (by omega), List.take_of_length_le]
      rw [List.length_drop]
  | some found =>
      obtain ⟨hle, hlt⟩ := hstop found rfl
      have hcount : sizeDifference (sizeOf (some found)) start = found - start := by
        simp only [sizeDifference, sizeOf, Option.getD_some]
        omega
      rw [substrCount, hcount, substr, min_eq_left (by omega)]

/-- Each turn moves the start on, so that the rest of the text bounds the turns. -/
theorem splitSizedFrom_eq {text : Bytes} (h : text.length < npos) (start : Option ℕ)
    (hstart : ∀ found, start = some found → found < text.length) {fuel : ℕ}
    (hfuel : start.elim 1 (fun start => text.length - start + 1) ≤ fuel) :
    splitSizedFrom text fuel (sizeOf start) = some (splitFrom text start) := by
  fun_induction splitFrom text start generalizing fuel with
  | case1 =>
      obtain ⟨fuel, rfl⟩ : ∃ n, fuel = n + 1 := ⟨fuel - 1, by simp at hfuel; omega⟩
      simp [splitSizedFrom, sizeOf]
  | case2 start stop next =>
      rename_i ih
      have hlt := hstart start rfl
      rw [Option.elim_some] at hfuel
      obtain ⟨fuel, rfl⟩ : ∃ n, fuel = n + 1 := ⟨fuel - 1, by omega⟩
      have hne : sizeOf (some start) ≠ npos := by
        rw [sizeOf, Option.getD_some]
        omega
      have hstop : ∀ found, stop = some found → start ≤ found ∧ found < text.length := by
        intro found hfound
        obtain ⟨hle, hfound, -⟩ := findFirst_eq_some hfound
        exact ⟨hle, hfound⟩
      have hnext : ∀ found, next = some found → start < found ∧ found < text.length :=
        fun found hfound => start_lt_next hfound
      have hrest : splitSizedFrom text fuel (sizeOf next) = some (splitFrom text next) := by
        refine ih (fun found hfound => (hnext found hfound).2) ?_
        cases hcase : next with
        | none =>
            rw [Option.elim_none]
            omega
        | some found =>
            have := hnext found hcase
            rw [Option.elim_some]
            omega
      have hfind : findFrom isAsciiWhitespace text (sizeOf (some start)) = sizeOf stop :=
        findFrom_sizeOf h _ _
      have hfind' : findFrom (fun b => !isAsciiWhitespace b) text (sizeOf stop) = sizeOf next :=
        findFrom_sizeOf h _ _
      rw [splitSizedFrom, if_neg hne]
      dsimp only
      rw [hfind, hfind', hrest]
      exact congrArg (fun word => some (word :: splitFrom text next))
        (substrCount_sizeOf h hlt hstop)

/-- The loop ends within one turn more than the text has bytes. -/
theorem splitSized_eq {text : Bytes} (h : text.length < npos) {fuel : ℕ}
    (hfuel : text.length + 1 ≤ fuel) : splitSized text fuel = some (splitOnWhitespace text) := by
  have hfind : findFrom (fun b => !isAsciiWhitespace b) text (sizeOf (some 0)) =
      sizeOf (findFirstNotOf text (some 0)) := findFrom_sizeOf h _ _
  have hstart : ∀ found, findFirstNotOf text (some 0) = some found → found < text.length := by
    intro found hfound
    obtain ⟨hlt, -⟩ := findFirstNotOf_found hfound
    exact hlt
  rw [splitSized, splitOnWhitespace]
  refine (congrArg (splitSizedFrom text fuel) hfind).trans (splitSizedFrom_eq h _ hstart ?_)
  cases findFirstNotOf text (some 0) with
  | none =>
      rw [Option.elim_none]
      omega
  | some start =>
      rw [Option.elim_some]
      omega

/-! ## Words -/

theorem isAscii_of_isAsciiWhitespace {b : UInt8} (h : isAsciiWhitespace b) : isAscii b := by
  simp only [isAsciiWhitespace, Bool.or_eq_true, beq_iff_eq] at h
  rcases h with ((((rfl | rfl) | rfl) | rfl) | rfl) | rfl <;> decide

/-- Whitespace is ASCII, so that no character is cut. -/
theorem validUtf8_of_isMaximalRun {text word : Bytes} (hvalid : ValidUtf8 text)
    (h : IsMaximalRun isAsciiWhitespace text word) : ValidUtf8 word := by
  obtain ⟨-, -, before, after, rfl, hbefore, hafter⟩ := h
  have hback : ValidUtf8 (word ++ after) := by
    rcases List.eq_nil_or_concat before with rfl | ⟨front, separator, rfl⟩
    · exact hvalid
    · have hseparator := isAscii_of_isAsciiWhitespace (hbefore separator (by simp))
      simp only [List.concat_eq_append, List.append_assoc, List.singleton_append] at hvalid
      exact (ValidUtf8.split hseparator hvalid).2
  cases after with
  | nil => simpa using hback
  | cons separator after =>
      exact (ValidUtf8.split (isAscii_of_isAsciiWhitespace (hafter separator rfl)) hback).1

/-- `split_on_whitespace` ends with the maximal runs of the text, in order, with all that follows
from it. -/
structure SplitsWords (text : Bytes) : Prop where
  sized : text.length < npos → ∀ fuel, text.length + 1 ≤ fuel →
    splitSized text fuel = some (splitOnWhitespace text)
  runs : ∀ pieces, Runs isAsciiWhitespace text pieces ↔ pieces = splitOnWhitespace text
  maximal : ∀ word, word ∈ splitOnWhitespace text ↔ IsMaximalRun isAsciiWhitespace text word
  flatten : (splitOnWhitespace text).flatten = text.filter fun b => !isAsciiWhitespace b
  append : ∀ gap back, gap ≠ [] → (∀ b ∈ gap, isAsciiWhitespace b) →
    splitOnWhitespace (text ++ gap ++ back) = splitOnWhitespace text ++ splitOnWhitespace back
  rejoin : splitOnWhitespace (List.intercalate (ascii " ") (splitOnWhitespace text)) =
    splitOnWhitespace text
  validUtf8 : ValidUtf8 text → ∀ word ∈ splitOnWhitespace text, ValidUtf8 word

theorem splitsWords (text : Bytes) : SplitsWords text where
  sized h _ hfuel := splitSized_eq h hfuel
  runs pieces := by rw [splitOnWhitespace_eq_words, runs_iff]
  maximal word := by rw [splitOnWhitespace_eq_words, mem_words_iff]
  flatten := by rw [splitOnWhitespace_eq_words, flatten_words]
  append gap back hne hgap := by
    simp only [splitOnWhitespace_eq_words]
    exact words_append_separators _ _ hne hgap
  rejoin := by
    simp only [splitOnWhitespace_eq_words]
    have hspace : isAsciiWhitespace 0x20 := by decide
    refine words_intercalate hspace fun word hword => ?_
    obtain ⟨hne, hinside, -⟩ := isMaximalRun_of_mem_words hword
    exact ⟨hne, hinside⟩
  validUtf8 hvalid word hword := by
    rw [splitOnWhitespace_eq_words, mem_words_iff] at hword
    exact validUtf8_of_isMaximalRun hvalid hword

end Leta
