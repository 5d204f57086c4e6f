import Leta.Foundation.Bytes
import Leta.Foundation.Calendar

/-! # RFC 3339 date-times, in UTC and to the millisecond -/

namespace Leta

/-- Exactly so many decimal digits. -/
structure Digits (width : ℕ) (text : Bytes) : Prop where
  length : text.length = width
  digits : ∀ b ∈ text, isDigit b

/-- The text writes the instant, in milliseconds since 1970-01-01T00:00:00Z. -/
inductive DateTime (text : Bytes) (instant : ℤ) : Prop where
  | intro {year month day hour minute second millisecond : Bytes} {date : Date} :
      text = year ++ 0x2d :: (month ++ 0x2d :: (day ++ 0x54 :: (hour ++ 0x3a :: (minute ++
        0x3a :: (second ++ 0x2e :: (millisecond ++ [0x5a])))))) →
      Digits 4 year → Digits 2 month → Digits 2 day → Digits 2 hour → Digits 2 minute →
      Digits 2 second → Digits 3 millisecond →
      date = ⟨digitsValue year, digitsValue month, digitsValue day⟩ → date.Valid →
      digitsValue hour < 24 → digitsValue minute < 60 → digitsValue second < 60 →
      instant = 86400000 * date.dayNumber + 3600000 * digitsValue hour +
        60000 * digitsValue minute + 1000 * digitsValue second + digitsValue millisecond →
      DateTime text instant

theorem Digits.append_inj {width : ℕ} {front front' : Bytes} {b : UInt8} {rest rest' : Bytes}
    (h : Digits width front) (h' : Digits width front')
    (heq : front ++ b :: rest = front' ++ b :: rest') : front = front' ∧ rest = rest' := by
  obtain ⟨hfront, hrest⟩ := List.append_inj heq (h.length.trans h'.length.symm)
  exact ⟨hfront, (List.cons.inj hrest).2⟩

/-- A text writes one instant. -/
theorem DateTime.unique {text : Bytes} {instant instant' : ℤ} (h : DateTime text instant)
    (h' : DateTime text instant') : instant = instant' := by
  obtain ⟨htext', hyear, hmonth, hday, hhour, hminute, hsecond, hmillisecond, hdate, -, -, -, -,
    hinstant⟩ := h
  obtain ⟨htext, hyear', hmonth', hday', hhour', hminute', hsecond', hmillisecond', hdate', -, -,
    -, -, hinstant'⟩ := h'
  have htext := htext'.symm.trans htext
  obtain ⟨rfl, htext₁⟩ := hyear.append_inj hyear' htext
  obtain ⟨rfl, htext₂⟩ := hmonth.append_inj hmonth' htext₁
  obtain ⟨rfl, htext₃⟩ := hday.append_inj hday' htext₂
  obtain ⟨rfl, htext₄⟩ := hhour.append_inj hhour' htext₃
  obtain ⟨rfl, htext₅⟩ := hminute.append_inj hminute' htext₄
  obtain ⟨rfl, htext₆⟩ := hsecond.append_inj hsecond' htext₅
  obtain ⟨rfl, -⟩ := hmillisecond.append_inj hmillisecond' htext₆
  rw [hinstant, hinstant', hdate, hdate']

/-! ## The order of texts -/

theorem append_lt_append {front front' rest rest' : Bytes} (hlength : front.length = front'.length)
    (h : front ++ rest < front' ++ rest') : front < front' ∨ front = front' ∧ rest < rest' := by
  induction front generalizing front' with
  | nil =>
      obtain rfl := List.length_eq_zero_iff.mp hlength.symm
      exact .inr ⟨rfl, h⟩
  | cons b front ih =>
      cases front' with
      | nil => simp at hlength
      | cons b' front' =>
          rcases List.cons_lt_cons_iff.mp h with hlt | ⟨rfl, hlt⟩
          · exact .inl (List.cons_lt_cons_iff.mpr (.inl hlt))
          · rcases ih (by simpa using hlength) hlt with hfront | ⟨rfl, hrest⟩
            · exact .inl (List.cons_lt_cons_iff.mpr (.inr ⟨rfl, hfront⟩))
            · exact .inr ⟨rfl, hrest⟩

/-- The first field that differs decides. -/
theorem Digits.lt_cases {width : ℕ} {front front' : Bytes} {b : UInt8} {rest rest' : Bytes}
    (h : Digits width front) (h' : Digits width front')
    (hlt : front ++ b :: rest < front' ++ b :: rest') :
    digitsValue front < digitsValue front' ∨ front = front' ∧ rest < rest' := by
  have hlength : front.length = front'.length := h.length.trans h'.length.symm
  rcases append_lt_append hlength hlt with hfront | ⟨rfl, hback⟩
  · exact .inl (digitsValue_lt_of_lt hlength h.digits h'.digits hfront)
  · rcases List.cons_lt_cons_iff.mp hback with hself | ⟨-, hrest⟩
    · exact absurd hself (UInt8.lt_irrefl b)
    · exact .inr ⟨rfl, hrest⟩

theorem Digits.lt {width : ℕ} {text : Bytes} (h : Digits width text) :
    digitsValue text < 10 ^ width :=
  h.length ▸ digitsValue_lt h.digits

/-- The lesser text writes the earlier instant. -/
theorem DateTime.lt_of_lt {text text' : Bytes} {instant instant' : ℤ} (h : DateTime text instant)
    (h' : DateTime text' instant') (hlt : text < text') : instant < instant' := by
  obtain ⟨rfl, hyear, hmonth, hday, hhour, hminute, hsecond, hmillisecond, rfl, hvalid, hhours,
    hminutes, hseconds, rfl⟩ := h
  obtain ⟨rfl, hyear', hmonth', hday', hhour', hminute', hsecond', hmillisecond', rfl, hvalid',
    hhours', hminutes', hseconds', rfl⟩ := h'
  have hmillis := hmillisecond.lt
  have hmillis' := hmillisecond'.lt
  have hdate := hvalid.dayNumber_lt hvalid'
  dsimp only at hdate
  rcases hyear.lt_cases hyear' hlt with hyears | ⟨rfl, hlt₁⟩
  · have := hdate (.inl (by exact_mod_cast hyears))
    omega
  rcases hmonth.lt_cases hmonth' hlt₁ with hmonths | ⟨rfl, hlt₂⟩
  · have := hdate (.inr ⟨rfl, .inl hmonths⟩)
    omega
  rcases hday.lt_cases hday' hlt₂ with hdays | ⟨rfl, hlt₃⟩
  · have := hdate (.inr ⟨rfl, .inr ⟨rfl, hdays⟩⟩)
    omega
  rcases hhour.lt_cases hhour' hlt₃ with hless | ⟨rfl, hlt₄⟩
  · omega
  rcases hminute.lt_cases hminute' hlt₄ with hless | ⟨rfl, hlt₅⟩
  · omega
  rcases hsecond.lt_cases hsecond' hlt₅ with hless | ⟨rfl, hlt₆⟩
  · omega
  rcases hmillisecond.lt_cases hmillisecond' hlt₆ with hless | ⟨rfl, hlt₇⟩
  · omega
  · exact absurd hlt₇ (List.lt_irrefl _)

/-- Texts are totally ordered, so that it is enough to know what follows from their order. -/
theorem lt_iff_of_imp {text text' : Bytes} {instant instant' : ℤ}
    (hlt : text < text' → instant < instant') (hgt : text' < text → instant' < instant)
    (heq : text' = text → instant' = instant) : text < text' ↔ instant < instant' := by
  refine ⟨hlt, fun hless => ?_⟩
  by_contra hle
  rcases List.le_iff_lt_or_eq.mp (List.not_lt.mp hle) with hmore | hsame
  · exact absurd (hgt hmore) (not_lt.mpr hless.le)
  · exact absurd (heq hsame) hless.ne'

theorem DateTime.length {text : Bytes} {instant : ℤ} (h : DateTime text instant) :
    text.length = 24 := by
  obtain ⟨rfl, hyear, hmonth, hday, hhour, hminute, hsecond, hmillisecond, -⟩ := h
  simp [hyear.length, hmonth.length, hday.length, hhour.length, hminute.length, hsecond.length,
    hmillisecond.length]

end Leta
