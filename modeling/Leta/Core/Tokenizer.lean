import Leta.Foundation.Bytes
import Leta.Foundation.Words

/-! # Splitting on whitespace

A position is `none` where the source has `npos`. -/

namespace Leta

/-- `" \t\n\v\f\r"` -/
def isAsciiWhitespace (b : UInt8) : Bool :=
  b == 0x20 || b == 0x09 || b == 0x0a || b == 0x0b || b == 0x0c || b == 0x0d

/-- The first position from `start` on whose byte satisfies `p`: `find_first_of` and
`find_first_not_of`. -/
def findFirst (p : UInt8 → Bool) (text : Bytes) (start : Option ℕ) : Option ℕ :=
  start.bind fun start => ((text.drop start).findIdx? p).map fun i => start + i

def findFirstOf (text : Bytes) : Option ℕ → Option ℕ := findFirst isAsciiWhitespace text

def findFirstNotOf (text : Bytes) : Option ℕ → Option ℕ :=
  findFirst (fun b => !isAsciiWhitespace b) text

/-- `text.substr(start, stop - start)`, which is clamped to the rest of the text. -/
def substr (text : Bytes) (start : ℕ) (stop : Option ℕ) : Bytes :=
  match stop with
  | none => text.drop start
  | some stop => (text.drop start).take (stop - start)

theorem findFirst_eq_some {p : UInt8 → Bool} {text : Bytes} {start found : ℕ}
    (h : findFirst p text (some start) = some found) :
    start ≤ found ∧ ∃ hlt : found < text.length, p text[found] := by
  simp only [findFirst, Option.bind_some, Option.map_eq_some_iff] at h
  obtain ⟨i, hi, rfl⟩ := h
  obtain ⟨hlt, hp, -⟩ := List.findIdx?_eq_some_iff_getElem.mp hi
  rw [List.length_drop] at hlt
  exact ⟨by omega, by omega, by simpa using hp⟩

/-- The words' loop makes progress: one of two neighbouring searches moves on. -/
theorem start_lt_next {text : Bytes} {start next : ℕ}
    (h : findFirstNotOf text (findFirstOf text (some start)) = some next) :
    start < next ∧ next < text.length := by
  cases hstop : findFirstOf text (some start) with
  | none => simp [hstop, findFirstNotOf, findFirst] at h
  | some stop =>
      rw [hstop] at h
      obtain ⟨hle, hlt, hspace⟩ := findFirst_eq_some hstop
      obtain ⟨hle', hlt', hword⟩ := findFirst_eq_some h
      refine ⟨Nat.lt_of_le_of_ne (hle.trans hle') ?_, hlt'⟩
      rintro rfl
      obtain rfl : stop = start := by omega
      simp [hspace] at hword

/-- The loop of `split_on_whitespace`, from the start of a word on. -/
def splitFrom (text : Bytes) (start : Option ℕ) : List Bytes :=
  match start with
  | none => []
  | some start =>
      let stop := findFirstOf text (some start)
      let next := findFirstNotOf text stop
      substr text start stop :: splitFrom text next
termination_by start.elim 0 fun start => text.length - start + 1
decreasing_by
  cases hnext : findFirstNotOf text (findFirstOf text (some start)) with
  | none => exact Nat.succ_pos _
  | some next =>
      obtain ⟨hlt, hlt'⟩ := start_lt_next hnext
      simp only [Option.elim_some]
      omega

def splitOnWhitespace (text : Bytes) : List Bytes :=
  splitFrom text (findFirstNotOf text (some 0))

/-! ## Words -/

/-- What a search passes is what stands before the first byte that satisfies `p`. -/
theorem substr_findFirst (p : UInt8 → Bool) (text : Bytes) (start : ℕ) :
    substr text start (findFirst p text (some start)) =
      (text.drop start).takeWhile fun b => !p b := by
  cases hstop : findFirst p text (some start) with
  | none =>
      simp only [findFirst, Option.bind_some, Option.map_eq_none_iff,
        List.findIdx?_eq_none_iff] at hstop
      rw [substr, List.takeWhile_eq_self_iff.mpr (by simpa using hstop)]
  | some stop =>
      simp only [findFirst, Option.bind_some, Option.map_eq_some_iff] at hstop
      obtain ⟨i, hi, rfl⟩ := hstop
      rw [substr, List.takeWhile_eq_take_findIdx_not]
      simp [(List.findIdx?_eq_some_iff_findIdx_eq.mp hi).2]

/-- Where a search ends is what is left after dropping the bytes it passes. -/
theorem drop_findFirst (p : UInt8 → Bool) (text : Bytes) (start : ℕ) :
    ((findFirst p text (some start)).elim [] fun found => text.drop found) =
      (text.drop start).dropWhile fun b => !p b := by
  rw [List.dropWhile_eq_drop_findIdx_not]
  simp only [findFirst, Option.bind_some, Bool.not_not]
  cases hi : (text.drop start).findIdx? p with
  | none =>
      rw [List.findIdx?_eq_none_iff_findIdx_eq] at hi
      simp only [hi, Option.map_none, Option.elim_none, List.drop_length]
  | some i => simp [(List.findIdx?_eq_some_iff_findIdx_eq.mp hi).2, List.drop_drop]

theorem words_findFirstNotOf (text : Bytes) (start : Option ℕ) :
    words isAsciiWhitespace
        ((findFirstNotOf text start).elim [] fun found => text.drop found) =
      words isAsciiWhitespace (start.elim [] fun found => text.drop found) := by
  cases start with
  | none => rfl
  | some start =>
      rw [findFirstNotOf, drop_findFirst]
      simp only [Bool.not_not, words_dropWhile, Option.elim_some]

theorem findFirstNotOf_found {text : Bytes} {start : Option ℕ} {found : ℕ}
    (h : findFirstNotOf text start = some found) :
    ∃ hlt : found < text.length, isAsciiWhitespace text[found] = false := by
  cases start with
  | none => simp [findFirstNotOf, findFirst] at h
  | some start => simpa using (findFirst_eq_some h).2

/-- The loop's invariant: it starts inside a word, or past the last one. -/
theorem splitFrom_eq_words (text : Bytes) (start : Option ℕ)
    (h : ∀ found, start = some found →
      ∃ hlt : found < text.length, isAsciiWhitespace text[found] = false) :
    splitFrom text start =
      words isAsciiWhitespace (start.elim [] fun found => text.drop found) := by
  fun_induction splitFrom text start with
  | case1 => simp
  | case2 start stop next ih =>
      obtain ⟨hlt, hword⟩ := h start rfl
      have hstop : (stop.elim [] fun found => text.drop found) =
          (text.drop start).dropWhile fun b => !isAsciiWhitespace b := drop_findFirst _ text start
      have hsubstr : substr text start stop =
          (text.drop start).takeWhile fun b => !isAsciiWhitespace b := substr_findFirst _ text start
      rw [ih fun found hfound => findFirstNotOf_found hfound, words_findFirstNotOf, hstop,
        hsubstr, Option.elim_some, List.drop_eq_getElem_cons hlt, words_takeWhile hword]

/-- The loop ends with the words of the text. -/
theorem splitOnWhitespace_eq_words (text : Bytes) :
    splitOnWhitespace text = words isAsciiWhitespace text := by
  rw [splitOnWhitespace, splitFrom_eq_words text _ fun found hfound => findFirstNotOf_found hfound,
    words_findFirstNotOf]
  rfl

end Leta
