import Leta.Json.Lexeme

/-! # Reading string literals -/

namespace Leta.Json

/-! ## Escapes -/

theorem shortEscape_eq_some {letter b : UInt8} (h : shortEscape letter = some b) :
    isAscii letter ∧ 0x20 ≤ letter ∧ isAscii b := by
  simp only [shortEscape] at h
  split_ifs at h with h1 h2 h3 h4 h5 h6 h7 h8
  all_goals
    obtain rfl := Option.some.inj h
    subst letter
    decide

theorem hexValue_eq_some {b : UInt8} {v : ℕ} (h : hexValue b = some v) :
    isAscii b ∧ 0x20 ≤ b ∧ b ≠ 0x22 ∧ b ≠ 0x5c := by
  simp only [hexValue] at h
  have hrange : 0x30 ≤ b.toNat ∧ b.toNat < 0x5c ∨ 0x5c < b.toNat ∧ b.toNat < 0x80 := by
    split_ifs at h with h1 h2 h3
    · rw [isDigit_iff] at h1
      omega
    · simp only [UInt8.le_iff_toNat_le, UInt8.reduceToNat] at h2
      omega
    · simp only [UInt8.le_iff_toNat_le, UInt8.reduceToNat] at h3
      omega
  refine ⟨(isAscii_iff b).mpr (by omega), ?_, ?_, ?_⟩
  · simp only [UInt8.le_iff_toNat_le, UInt8.reduceToNat]
    omega
  · rintro rfl
    simp at hrange
  · rintro rfl
    simp at hrange

theorem codeUnit_eq_some {a b c d : UInt8} {unit : ℕ} (h : codeUnit a b c d = some unit) :
    ∀ x ∈ [a, b, c, d], isAscii x ∧ 0x20 ≤ x ∧ x ≠ 0x22 ∧ x ≠ 0x5c := by
  simp only [codeUnit, Option.bind_eq_bind, Option.bind_eq_some_iff] at h
  obtain ⟨va, ha, vb, hb, vc, hc, vd, hd, -⟩ := h
  simp only [List.forall_mem_cons]
  exact ⟨hexValue_eq_some ha, hexValue_eq_some hb, hexValue_eq_some hc, hexValue_eq_some hd,
    by simp⟩

theorem encodeCodePoint_eq_some {n : ℕ} {text : Bytes} (h : encodeCodePoint n = some text) :
    ∃ c, String.utf8EncodeChar c = text := by
  by_cases hvalid : n.isValidChar
  · rw [encodeCodePoint, dif_pos hvalid] at h
    exact ⟨_, Option.some.inj h⟩
  · rw [encodeCodePoint, dif_neg hvalid] at h
    cases h

theorem validUtf8_of_encodeCodePoint {n : ℕ} {text : Bytes} (h : encodeCodePoint n = some text) :
    ValidUtf8 text := by
  obtain ⟨c, rfl⟩ := encodeCodePoint_eq_some h
  exact ValidUtf8.encode c

/-! ## The units of a body -/

/-- A raw body, cut into plain bytes and escapes, and the text it stands for. -/
inductive Unescapes : Bytes → Bytes → Prop where
  | nil : Unescapes [] []
  | plain {b : UInt8} {rest text : Bytes} : b ≠ 0x5c → b ≠ 0x22 → 0x20 ≤ b →
      Unescapes rest text → Unescapes (b :: rest) (b :: text)
  | short {letter b : UInt8} {rest text : Bytes} : letter ≠ 0x75 → shortEscape letter = some b →
      Unescapes rest text → Unescapes (0x5c :: letter :: rest) (b :: text)
  | unicode {a b c d : UInt8} {unit : ℕ} {encoded rest text : Bytes} :
      codeUnit a b c d = some unit → ¬ (0xd800 ≤ unit ∧ unit < 0xdc00) →
      encodeCodePoint unit = some encoded → Unescapes rest text →
      Unescapes (0x5c :: 0x75 :: a :: b :: c :: d :: rest) (encoded ++ text)
  | surrogates {a b c d e f g h : UInt8} {high low : ℕ} {encoded rest text : Bytes} :
      codeUnit a b c d = some high → 0xd800 ≤ high ∧ high < 0xdc00 →
      codeUnit e f g h = some low → 0xdc00 ≤ low ∧ low < 0xe000 →
      encodeCodePoint (0x10000 + (high - 0xd800) * 0x400 + (low - 0xdc00)) = some encoded →
      Unescapes rest text →
      Unescapes (0x5c :: 0x75 :: a :: b :: c :: d :: 0x5c :: 0x75 :: e :: f :: g :: h :: rest)
        (encoded ++ text)

theorem Unescapes.unescape_eq {body text : Bytes} (h : Unescapes body text) :
    unescape body = some text := by
  induction h with
  | nil => rfl
  | plain hslash hquote hcontrol _ ih =>
      rw [unescape.eq_def]
      simp [hslash, hquote, ih, UInt8.not_lt.mpr hcontrol]
  | short hletter hshort _ ih =>
      rw [unescape.eq_def]
      simp [hletter, hshort, ih]
  | unicode hunit hsurrogate hencoded _ ih =>
      rw [unescape.eq_def]
      simp [hunit, hsurrogate, hencoded, ih]
  | surrogates hhigh hrange hlow hrange' hencoded _ ih =>
      rw [unescape.eq_def]
      simp [hhigh, hrange, hlow, hrange', hencoded, ih]

theorem unescapes_of_unescape {body text : Bytes} (h : unescape body = some text) :
    Unescapes body text := by
  induction body using unescape.induct generalizing text with
  | case1 =>
      rw [unescape, Option.some.injEq] at h
      exact h ▸ .nil
  | case5 a b c d high hhigh hrange slash u e f g i rest low hlow hpair ih =>
      obtain ⟨rfl, rfl, hrange'⟩ := hpair
      rw [unescape.eq_def] at h
      simp only [reduceIte, hhigh, hlow, hrange, hrange', and_self, Option.bind_eq_bind,
        Option.bind_eq_some_iff] at h
      obtain ⟨encoded, hencoded, rest', hrest, htext⟩ := h
      exact Option.some.inj htext ▸ .surrogates hhigh hrange hlow hrange' hencoded (ih hrest)
  | case8 a b c d rest unit hunit hrange ih =>
      rw [unescape.eq_def] at h
      simp only [reduceIte, hunit, hrange, Option.bind_eq_bind, Option.bind_eq_some_iff] at h
      obtain ⟨encoded, hencoded, rest', hrest, htext⟩ := h
      exact Option.some.inj htext ▸ .unicode hunit hrange hencoded (ih hrest)
  | case10 letter rest hletter ih =>
      rw [unescape.eq_def] at h
      simp only [reduceIte, hletter, Option.bind_eq_bind, Option.bind_eq_some_iff] at h
      obtain ⟨b, hb, rest', hrest, htext⟩ := h
      exact Option.some.inj htext ▸ .short hletter hb (ih hrest)
  | case12 b rest hslash hplain ih =>
      rw [unescape.eq_def] at h
      simp only [hslash, hplain, if_false, Option.bind_eq_bind, Option.bind_eq_some_iff] at h
      obtain ⟨rest', hrest, htext⟩ := h
      simp only [not_or, UInt8.not_lt] at hplain
      exact Option.some.inj htext ▸ .plain hslash hplain.1 hplain.2 (ih hrest)
  | case6 a b c d high hhigh hrange slash u e f g i rest low hlow hpair =>
      rw [unescape.eq_def] at h
      simp [hhigh, hlow, hrange, hpair] at h
  | _ =>
      rw [unescape.eq_def] at h
      simp_all

theorem unescape_eq_some_iff (body text : Bytes) :
    unescape body = some text ↔ Unescapes body text :=
  ⟨unescapes_of_unescape, Unescapes.unescape_eq⟩

/-! ## What a readable body looks like -/

theorem isStringBody_cons {b : UInt8} {rest : Bytes} (hslash : b ≠ 0x5c) (hquote : b ≠ 0x22)
    (hcontrol : 0x20 ≤ b) : isStringBody (b :: rest) = isStringBody rest := by
  rw [isStringBody.eq_def]
  simp [hslash, hquote, hcontrol]

theorem isStringBody_escape {letter : UInt8} {rest : Bytes} (h : 0x20 ≤ letter) :
    isStringBody (0x5c :: letter :: rest) = isStringBody rest := by
  rw [isStringBody.eq_def]
  simp [h]

theorem isStringBody_codeUnit {a b c d : UInt8} {unit : ℕ} {rest : Bytes}
    (h : codeUnit a b c d = some unit) :
    isStringBody (0x5c :: 0x75 :: a :: b :: c :: d :: rest) = isStringBody rest := by
  have hplain := codeUnit_eq_some h
  simp only [List.forall_mem_cons] at hplain
  obtain ⟨⟨-, ha, ha', ha''⟩, ⟨-, hb, hb', hb''⟩, ⟨-, hc, hc', hc''⟩, ⟨-, hd, hd', hd''⟩, -⟩ :=
    hplain
  rw [isStringBody_escape (by decide), isStringBody_cons ha'' ha' ha,
    isStringBody_cons hb'' hb' hb, isStringBody_cons hc'' hc' hc, isStringBody_cons hd'' hd' hd]

theorem Unescapes.isStringBody {body text : Bytes} (h : Unescapes body text) :
    isStringBody body := by
  induction h with
  | nil => rfl
  | plain hslash hquote hcontrol _ ih => rw [isStringBody_cons hslash hquote hcontrol, ih]
  | short _ hshort _ ih => rw [isStringBody_escape (shortEscape_eq_some hshort).2.1, ih]
  | unicode hunit _ _ _ ih => rw [isStringBody_codeUnit hunit, ih]
  | surrogates hhigh _ hlow _ _ _ ih =>
      rw [isStringBody_codeUnit hhigh, isStringBody_codeUnit hlow, ih]

theorem length_encodeCodePoint_le {n : ℕ} {text : Bytes} (h : encodeCodePoint n = some text) :
    text.length ≤ 4 := by
  obtain ⟨c, rfl⟩ := encodeCodePoint_eq_some h
  rw [String.length_utf8EncodeChar]
  exact c.utf8Size_le_four

/-- Unescaping makes no text longer. -/
theorem Unescapes.length_le {body text : Bytes} (h : Unescapes body text) :
    text.length ≤ body.length := by
  induction h with
  | nil => simp
  | plain _ _ _ _ ih | short _ _ _ ih =>
      simp only [List.length_cons]
      omega
  | unicode _ _ hencoded _ ih | surrogates _ _ _ _ hencoded _ ih =>
      have := length_encodeCodePoint_le hencoded
      simp only [List.length_cons, List.length_append]
      omega

/-- Reading a string keeps the text UTF-8. The induction carries the bytes `front` of a
character whose end has not been reached, because plain bytes are copied one by one. -/
theorem Unescapes.validUtf8 {body text : Bytes} (h : Unescapes body text) :
    ∀ front, ValidUtf8 (front ++ body) → ValidUtf8 (front ++ text) := by
  induction h with
  | nil => exact fun _ h => h
  | @plain b rest text _ _ _ _ ih =>
      intro front hvalid
      have := ih (front ++ [b]) (by simpa using hvalid)
      simpa using this
  | short hletter hshort _ ih =>
      intro front hvalid
      obtain ⟨hfront, hrest⟩ := ValidUtf8.split (by decide) hvalid
      obtain ⟨hascii, -, hb⟩ := shortEscape_eq_some hshort
      have := ih [] (hrest.tail hascii)
      exact hfront.append (this.cons hb)
  | unicode hunit _ hencoded _ ih =>
      intro front hvalid
      obtain ⟨hfront, hrest⟩ := ValidUtf8.split (by decide) hvalid
      have hrest := ValidUtf8.drop_ascii (a := [_, _, _, _])
        (fun x hx => (codeUnit_eq_some hunit x hx).1) (hrest.tail (by decide))
      exact hfront.append ((validUtf8_of_encodeCodePoint hencoded).append (ih [] hrest))
  | surrogates hhigh _ hlow _ hencoded _ ih =>
      intro front hvalid
      obtain ⟨hfront, hrest⟩ := ValidUtf8.split (by decide) hvalid
      have hrest := ValidUtf8.drop_ascii (a := [_, _, _, _])
        (fun x hx => (codeUnit_eq_some hhigh x hx).1) (hrest.tail (by decide))
      have hrest := ValidUtf8.drop_ascii (a := [_, _, _, _])
        (fun x hx => (codeUnit_eq_some hlow x hx).1) ((hrest.tail (by decide)).tail (by decide))
      exact hfront.append ((validUtf8_of_encodeCodePoint hencoded).append (ih [] hrest))

theorem validUtf8_of_unescape {body text : Bytes} (h : unescape body = some text)
    (hvalid : ValidUtf8 body) : ValidUtf8 text :=
  (unescapes_of_unescape h).validUtf8 [] hvalid

/-! ## Where a literal ends -/

/-- The body of the string whose opening quote has just been passed, and what follows its
closing quote. -/
def splitBody (text : Bytes) : Option (Bytes × Bytes) :=
  match text with
  | [] => none
  | b :: rest =>
      if b = 0x5c then
        match rest with
        | [] => none
        | letter :: rest =>
            if 0x20 ≤ letter then
              (splitBody rest).map fun (body, rest) => (b :: letter :: body, rest)
            else none
      else if b = 0x22 then some ([], rest)
      else if 0x20 ≤ b then (splitBody rest).map fun (body, rest) => (b :: body, rest)
      else none

theorem splitBody_append {body : Bytes} (h : isStringBody body) (rest : Bytes) :
    splitBody (body ++ 0x22 :: rest) = some (body, rest) := by
  induction body using isStringBody.induct with
  | case1 =>
      rw [List.nil_append, splitBody.eq_def]
      simp
  | case2 => simp [isStringBody] at h
  | case3 letter body ih =>
      have hletter : 0x20 ≤ letter := by
        simp only [isStringBody, reduceIte, Bool.and_eq_true, decide_eq_true_eq] at h
        exact h.1
      rw [isStringBody_escape hletter] at h
      rw [List.cons_append, List.cons_append, splitBody.eq_def]
      simp [hletter, ih h]
  | case4 b body hslash ih =>
      rw [isStringBody.eq_def] at h
      simp only [hslash, if_false, Bool.and_eq_true, bne_iff_ne, ne_eq, decide_eq_true_eq] at h
      rw [List.cons_append, splitBody.eq_def]
      simp [hslash, h.1.1, h.1.2, ih h.2]

theorem splitBody_eq_some {text body rest : Bytes} (h : splitBody text = some (body, rest)) :
    text = body ++ 0x22 :: rest ∧ isStringBody body := by
  induction text using splitBody.induct generalizing body with
  | case3 letter text hletter ih =>
      rw [splitBody.eq_def] at h
      simp only [reduceIte, hletter, Option.map_eq_some_iff, Prod.exists, Prod.mk.injEq] at h
      obtain ⟨body', rest', h, rfl, rfl⟩ := h
      obtain ⟨rfl, hbody⟩ := ih h
      exact ⟨rfl, by rw [isStringBody_escape hletter, hbody]⟩
  | case5 text hslash =>
      rw [splitBody.eq_def] at h
      simp only [hslash, if_false, reduceIte, Option.some.injEq, Prod.mk.injEq] at h
      obtain ⟨rfl, rfl⟩ := h
      exact ⟨rfl, rfl⟩
  | case6 b text hslash hquote hcontrol ih =>
      rw [splitBody.eq_def] at h
      simp only [hslash, hquote, hcontrol, if_false, reduceIte, Option.map_eq_some_iff,
        Prod.exists, Prod.mk.injEq] at h
      obtain ⟨body', rest', h, rfl, rfl⟩ := h
      obtain ⟨rfl, hbody⟩ := ih h
      exact ⟨rfl, by rw [isStringBody_cons hslash hquote hcontrol, hbody]⟩
  | case4 letter text hletter =>
      rw [splitBody.eq_def] at h
      simp only [reduceIte, hletter, reduceCtorEq] at h
  | case7 b text hslash hquote hcontrol =>
      rw [splitBody.eq_def] at h
      simp only [hslash, hquote, hcontrol, if_false, reduceCtorEq] at h
  | case1 | case2 =>
      rw [splitBody.eq_def] at h
      simp at h

namespace StringLiteral

theorem render_append (s : StringLiteral) (rest : Bytes) :
    s.render ++ rest = 0x22 :: (s.body ++ 0x22 :: rest) := by
  simp [render]

/-- A text starts with at most one string literal. -/
theorem render_append_inj {s t : StringLiteral} {rest rest' : Bytes}
    (h : s.render ++ rest = t.render ++ rest') : s = t ∧ rest = rest' := by
  rw [render_append, render_append] at h
  have hs := splitBody_append s.closed rest
  rw [(List.cons.inj h).2, splitBody_append t.closed, Option.some.injEq, Prod.mk.injEq] at hs
  cases s
  cases t
  exact ⟨by simpa using hs.1.symm, hs.2.symm⟩

/-- The text of a literal that stands in valid UTF-8 is valid UTF-8. -/
theorem validUtf8_text {s : StringLiteral} (front rest : Bytes) {text : Bytes}
    (h : s.text = some text)
    (hvalid : ValidUtf8 (front ++ (s.render ++ rest))) : ValidUtf8 text := by
  rw [render_append] at hvalid
  obtain ⟨-, hbody⟩ := ValidUtf8.split (by decide) hvalid
  exact validUtf8_of_unescape h (ValidUtf8.split (by decide) hbody).1

end StringLiteral

end Leta.Json
