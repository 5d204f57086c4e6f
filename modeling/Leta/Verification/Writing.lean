import Leta.Foundation.DateTime
import Leta.Http.Responses
import Leta.Json.Writing

/-! # What the writers of strings and timestamps write -/

namespace Leta

open Json

/-! ## Strings -/

/-- The escaped form of one byte. -/
def escaped (character : UInt8) : Bytes := appendEscaped [] character

theorem appendEscaped_eq (out : Bytes) (character : UInt8) :
    appendEscaped out character = out ++ escaped character := by
  simp only [escaped, appendEscaped, appendUnicodeEscape]
  split_ifs <;> simp

theorem appendJsonString_eq (out value : Bytes) :
    appendJsonString out value = out ++ 0x22 :: (value.flatMap escaped ++ [0x22]) := by
  have hfold : ∀ (value out : Bytes),
      value.foldl appendEscaped out = out ++ value.flatMap escaped := by
    intro value
    induction value with
    | nil => simp
    | cons b value ih =>
        intro out
        rw [List.foldl_cons, ih, appendEscaped_eq, List.flatMap_cons, List.append_assoc]
  rw [appendJsonString, hfold]
  simp

/-- A byte that is copied. -/
structure Plain (b : UInt8) : Prop where
  notQuote : b ≠ 0x22
  notBackslash : b ≠ 0x5c
  notControl : 0x20 ≤ b

theorem escaped_plain {b : UInt8} (h : Plain b) : escaped b = [b] := by
  have hcontrol : ∀ c, c < 0x20 → b ≠ c := fun c hc heq =>
    absurd (heq ▸ h.notControl) (UInt8.not_le.mpr hc)
  simp only [escaped, appendEscaped, h.notQuote, h.notBackslash, hcontrol 0x08 (by decide),
    hcontrol 0x0c (by decide), hcontrol 0x0a (by decide), hcontrol 0x0d (by decide),
    hcontrol 0x09 (by decide), UInt8.not_lt.mpr h.notControl, if_false, List.nil_append]

theorem encodeCodePoint_ascii {b : UInt8} (h : isAscii b) : encodeCodePoint b.toNat = some [b] := by
  have hb := (isAscii_iff b).mp h
  have hvalid : b.toNat.isValidChar := .inl (by omega)
  rw [encodeCodePoint, dif_pos hvalid]
  congr 1
  rw [utf8EncodeChar_of_lt (by exact hb)]
  exact congrArg (fun c => [c]) (UInt8.ofNat_toNat)

/-- Two hexadecimal digits write a control character. -/
theorem codeUnit_control : ∀ n < 0x20,
    codeUnit 0x30 0x30 (hexDigits.getD (UInt8.ofNat n >>> 4).toNat 0)
      (hexDigits.getD (UInt8.ofNat n &&& 0x0f).toNat 0) = some n := by
  decide

theorem unescapes_escaped (b : UInt8) {rest text : Bytes} (h : Unescapes rest text) :
    Unescapes (escaped b ++ rest) (b :: text) := by
  simp only [escaped, appendEscaped, appendUnicodeEscape]
  split_ifs with hquote hslash h08 h0c h0a h0d h09 hcontrol
  · exact .short (by decide) (by rw [hquote]; rfl) h
  · exact .short (by decide) (by rw [hslash]; rfl) h
  · exact .short (by decide) (by rw [h08]; rfl) h
  · exact .short (by decide) (by rw [h0c]; rfl) h
  · exact .short (by decide) (by rw [h0a]; rfl) h
  · exact .short (by decide) (by rw [h0d]; rfl) h
  · exact .short (by decide) (by rw [h09]; rfl) h
  · have hlow : b.toNat < 0x20 := hcontrol
    have hunit := codeUnit_control b.toNat hlow
    rw [UInt8.ofNat_toNat] at hunit
    exact .unicode hunit (by omega) (encodeCodePoint_ascii ((isAscii_iff b).mpr (by omega))) h
  · exact .plain hslash hquote (UInt8.not_lt.mp hcontrol) h

theorem unescapes_flatMap_escaped (value : Bytes) : Unescapes (value.flatMap escaped) value := by
  induction value with
  | nil => exact .nil
  | cons b value ih =>
      rw [List.flatMap_cons]
      exact unescapes_escaped b ih

/-- The literal that is written for a text. -/
def literalOf (value : Bytes) : StringLiteral where
  body := value.flatMap escaped
  closed := (unescapes_flatMap_escaped value).isStringBody

/-- Reading what was written gives the text back. -/
theorem text_literalOf (value : Bytes) : (literalOf value).text = some value :=
  (unescapes_flatMap_escaped value).unescape_eq

theorem appendJsonString_literalOf (out value : Bytes) :
    appendJsonString out value = out ++ (literalOf value).render :=
  appendJsonString_eq out value

/-- Text of plain bytes is quoted and otherwise unchanged. -/
theorem render_literalOf_plain {value : Bytes} (h : ∀ b ∈ value, Plain b) :
    (literalOf value).render = 0x22 :: (value ++ [0x22]) := by
  have hbody : value.flatMap escaped = value := by
    induction value with
    | nil => rfl
    | cons b value ih =>
        simp only [List.forall_mem_cons] at h
        rw [List.flatMap_cons, escaped_plain h.1, ih h.2, List.singleton_append]
  change 0x22 :: (value.flatMap escaped ++ [0x22]) = _
  rw [hbody]

theorem isAscii_of_mem_escaped {b : UInt8} (hb : isAscii b) : ∀ c ∈ escaped b, isAscii c := by
  by_cases hcontrol : b < 0x20
  · have hcontrols : ∀ n < 0x20, (escaped (UInt8.ofNat n)).all isAscii := by decide
    have hlow : b.toNat < 0x20 := hcontrol
    simpa using hcontrols b.toNat hlow
  · by_cases hquote : b = 0x22
    · rw [hquote]
      exact List.all_eq_true.mp (by decide)
    · by_cases hslash : b = 0x5c
      · rw [hslash]
        exact List.all_eq_true.mp (by decide)
      · rw [escaped_plain ⟨hquote, hslash, UInt8.not_lt.mp hcontrol⟩]
        simpa using hb

/-- An escaped character is UTF-8 still: ASCII becomes ASCII, and all else is copied. -/
theorem validUtf8_escaped (c : Char) : ValidUtf8 ((String.utf8EncodeChar c).flatMap escaped) := by
  rcases Nat.lt_or_ge c.toNat 0x80 with hc | hc
  · rw [utf8EncodeChar_of_lt hc, List.flatMap_singleton]
    refine .of_isAscii (isAscii_of_mem_escaped ((isAscii_iff _).mpr ?_))
    simp only [Nat.toUInt8_eq, UInt8.toNat_ofNat']
    omega
  · have hcopied : ∀ b ∈ String.utf8EncodeChar c, escaped b = [b] := by
      intro b hb
      have hhigh := not_isAscii_of_mem_utf8EncodeChar hc b hb
      rw [isAscii_iff, not_lt] at hhigh
      refine escaped_plain ⟨?_, ?_, UInt8.le_iff_toNat_le.mpr (by simp; omega)⟩
      · rintro rfl
        exact absurd hhigh (by decide)
      · rintro rfl
        exact absurd hhigh (by decide)
    rw [List.flatMap_congr hcopied, List.flatMap_singleton']
    exact .encode c

theorem validUtf8_literalOf {value : Bytes} (h : ValidUtf8 value) :
    ValidUtf8 (literalOf value).render := by
  obtain ⟨characters, rfl⟩ := h
  have hbody : ValidUtf8 ((characters.flatMap String.utf8EncodeChar).flatMap escaped) := by
    rw [List.flatMap_assoc]
    induction characters with
    | nil => exact .nil
    | cons c characters ih =>
        rw [List.flatMap_cons]
        exact .append (validUtf8_escaped c) ih
  exact .cons (by decide) (.append hbody (.of_all (by decide)))

/-! ## Timestamps -/

def zeroPadded (value width : ℕ) : Bytes := appendZeroPadded [] value width

theorem appendZeroPadded_eq (out : Bytes) (value width : ℕ) :
    appendZeroPadded out value width = out ++ zeroPadded value width := by
  simp only [zeroPadded, appendZeroPadded]
  split_ifs <;> simp

theorem zeroPadded_eq (value width : ℕ) : zeroPadded value width =
    List.replicate (width - (decimal value).length) 0x30 ++ decimal value := by
  simp only [zeroPadded, appendZeroPadded]
  split_ifs with h
  · rfl
  · rw [Nat.sub_eq_zero_of_le (not_lt.mp h)]
    rfl

/-- Leading zeros change no number. -/
theorem digitsValue_replicate_append (count : ℕ) (digits : Bytes) :
    digitsValue (List.replicate count 0x30 ++ digits) = digitsValue digits := by
  induction count with
  | zero => rfl
  | succ count ih =>
      rw [← ih, List.replicate_succ, List.cons_append]
      rfl

theorem length_decimal_le {value width : ℕ} (h : value < 10 ^ width) (hwidth : 0 < width) :
    (decimal value).length ≤ width := by
  rw [decimal]
  split_ifs with hzero
  · exact hwidth
  · rw [List.length_map, List.length_reverse]
    exact (Nat.digits_length_le_iff (by norm_num) value).mpr h

theorem digits_zeroPadded (value width : ℕ) (h : value < 10 ^ width) (hwidth : 0 < width) :
    Digits width (zeroPadded value width) ∧ digitsValue (zeroPadded value width) = value := by
  have hlength := length_decimal_le h hwidth
  rw [zeroPadded_eq]
  refine ⟨⟨?_, fun b hb => ?_⟩, ?_⟩
  · rw [List.length_append, List.length_replicate]
    omega
  · rcases List.mem_append.mp hb with hb | hb
    · rw [List.eq_of_mem_replicate hb]
      decide
    · exact isDigit_of_mem_decimal b hb
  · rw [digitsValue_replicate_append, digitsValue_decimal]

/-- The date-time between the quotes. -/
def dateTimeOf (timestamp : ℤ) : Bytes :=
  let day := timestamp / millisecondsPerDay
  let date := Date.ofDayNumber day
  let time := (timestamp - day * millisecondsPerDay).toNat
  zeroPadded (toUnsigned date.year) 4 ++ 0x2d :: (zeroPadded date.month 2 ++
    0x2d :: (zeroPadded date.day 2 ++ 0x54 :: (zeroPadded (time / 3600000) 2 ++
      0x3a :: (zeroPadded (time / 60000 % 60) 2 ++ 0x3a :: (zeroPadded (time / 1000 % 60) 2 ++
        0x2e :: (zeroPadded (time % 1000) 3 ++ [0x5a]))))))

theorem appendJsonTimestamp_eq (out : Bytes) (timestamp : Timestamp) :
    appendJsonTimestamp out timestamp = out ++ 0x22 :: (dateTimeOf timestamp ++ [0x22]) := by
  simp only [appendJsonTimestamp, appendZeroPadded_eq, dateTimeOf, List.append_assoc,
    List.cons_append, List.nil_append]
  rfl

/-- The years 0000 to 9999, which RFC 3339 can write. -/
def InWireYears (timestamp : ℤ) : Prop :=
  millisecondsPerDay * Date.dayNumber ⟨0, 1, 1⟩ ≤ timestamp ∧
    timestamp < millisecondsPerDay * Date.dayNumber ⟨10000, 1, 1⟩

theorem dateTime_dateTimeOf {timestamp : ℤ} (h : InWireYears timestamp) :
    DateTime (dateTimeOf timestamp) timestamp := by
  obtain ⟨hfirst, hlast⟩ := h
  rw [dateTimeOf]
  generalize hday : timestamp / millisecondsPerDay = day
  generalize htime : (timestamp - day * millisecondsPerDay).toNat = time
  have hvalid := Date.valid_ofDayNumber day
  have hnumber := Date.dayNumber_ofDayNumber day
  generalize Date.ofDayNumber day = date at hvalid hnumber ⊢
  rw [millisecondsPerDay] at hfirst hlast hday htime
  have hyear : 0 ≤ date.year := hvalid.year_le (by omega)
  have hyear' : date.year < 10000 := hvalid.lt_year (by omega)
  have hunsigned : (toUnsigned date.year : ℤ) = date.year := by
    rw [toUnsigned]
    omega
  have hmonth := hvalid.month
  have hdayOfMonth : date.day ≤ 31 := hvalid.day.2.trans (Date.daysInMonth_le _ _)
  have hsplit : timestamp = 86400000 * day + time := by omega
  have hbound : time < 86400000 := by omega
  obtain ⟨hyears, hyearsValue⟩ := digits_zeroPadded (toUnsigned date.year) 4
    (by omega) (by norm_num)
  obtain ⟨hmonths, hmonthsValue⟩ := digits_zeroPadded date.month 2
    (by omega) (by norm_num)
  obtain ⟨hdays, hdaysValue⟩ := digits_zeroPadded date.day 2
    (by omega) (by norm_num)
  obtain ⟨hhours, hhoursValue⟩ := digits_zeroPadded (time / 3600000) 2
    (by omega) (by norm_num)
  obtain ⟨hminutes, hminutesValue⟩ := digits_zeroPadded (time / 60000 % 60) 2
    (by omega) (by norm_num)
  obtain ⟨hseconds, hsecondsValue⟩ := digits_zeroPadded (time / 1000 % 60) 2
    (by omega) (by norm_num)
  obtain ⟨hmillis, hmillisValue⟩ := digits_zeroPadded (time % 1000) 3
    (by omega) (by norm_num)
  have hdate : date = ⟨digitsValue (zeroPadded (toUnsigned date.year) 4),
      digitsValue (zeroPadded date.month 2), digitsValue (zeroPadded date.day 2)⟩ := by
    rw [hyearsValue, hmonthsValue, hdaysValue, hunsigned]
  refine .intro rfl hyears hmonths hdays hhours hminutes hseconds hmillis hdate hvalid ?_ ?_ ?_ ?_
  · omega
  · omega
  · omega
  · rw [hnumber, hsplit, hhoursValue, hminutesValue, hsecondsValue, hmillisValue]
    omega

theorem isDigit_of_mem_zeroPadded {value width : ℕ} : ∀ b ∈ zeroPadded value width, isDigit b := by
  intro b hb
  rw [zeroPadded_eq] at hb
  rcases List.mem_append.mp hb with hb | hb
  · rw [List.eq_of_mem_replicate hb]
    decide
  · exact isDigit_of_mem_decimal b hb

/-- A date-time holds digits, `-`, `T`, `:`, `.` and `Z`. -/
theorem mem_dateTimeOf (timestamp : ℤ) :
    ∀ b ∈ dateTimeOf timestamp, isDigit b ∨ b ∈ [0x2d, 0x54, 0x3a, 0x2e, 0x5a] := by
  have hdigits : ∀ value width, ∀ b ∈ zeroPadded value width,
      isDigit b ∨ b ∈ [0x2d, 0x54, 0x3a, 0x2e, 0x5a] :=
    fun _ _ b hb => .inl (isDigit_of_mem_zeroPadded b hb)
  simp only [dateTimeOf, List.forall_mem_append, List.forall_mem_cons]
  exact ⟨hdigits _ _, by decide, hdigits _ _, by decide, hdigits _ _, by decide, hdigits _ _,
    by decide, hdigits _ _, by decide, hdigits _ _, by decide, hdigits _ _, by decide, by simp⟩

theorem plain_of_isDigit {b : UInt8} (h : isDigit b) : Plain b := by
  have hb := (isDigit_iff b).mp h
  refine ⟨?_, ?_, UInt8.le_iff_toNat_le.mpr (by simp; omega)⟩ <;> rintro rfl <;>
    exact absurd h (by decide)

theorem plain_of_mem_dateTimeOf (timestamp : ℤ) : ∀ b ∈ dateTimeOf timestamp, Plain b := by
  intro b hb
  rcases mem_dateTimeOf timestamp b hb with hdigit | hother
  · exact plain_of_isDigit hdigit
  · simp only [List.mem_cons, List.not_mem_nil, or_false] at hother
    rcases hother with rfl | rfl | rfl | rfl | rfl <;> exact ⟨by decide, by decide, by decide⟩

theorem validUtf8_dateTimeOf (timestamp : ℤ) : ValidUtf8 (dateTimeOf timestamp) := by
  refine .of_isAscii fun b hb => ?_
  rcases mem_dateTimeOf timestamp b hb with hdigit | hother
  · have := (isDigit_iff b).mp hdigit
    rw [isAscii_iff]
    omega
  · simp only [List.mem_cons, List.not_mem_nil, or_false] at hother
    rcases hother with rfl | rfl | rfl | rfl | rfl <;> decide

theorem appendJsonTimestamp_literalOf (out : Bytes) (timestamp : Timestamp) :
    appendJsonTimestamp out timestamp = out ++ (literalOf (dateTimeOf timestamp)).render := by
  rw [appendJsonTimestamp_eq, render_literalOf_plain (plain_of_mem_dateTimeOf timestamp)]

end Leta
