import Leta.Verification.Writing

/-! # String tokens

What `append_json_string` writes is a token that reads back as the string, whether plain char is
signed or not. -/

namespace Leta

open Json

/-! ## Signed and unsigned char -/

/-- The value of a plain char, which is signed on some platforms. -/
def charValue (isSigned : Bool) (b : UInt8) : ℤ :=
  if isSigned && 0x80 ≤ b then b.toNat - 256 else b.toNat

/-- `static_cast<unsigned char>`, and the byte that a char is stored as. -/
def unsignedChar (character : ℤ) : UInt8 := UInt8.ofNat (character % 256).toNat

/-- `append_escaped` on the values of chars. -/
def appendEscapedChar (out : Bytes) (character : ℤ) : Bytes :=
  if character = 0x22 then out ++ ascii "\\\""
  else if character = 0x5c then out ++ ascii "\\\\"
  else if character = 0x08 then out ++ ascii "\\b"
  else if character = 0x0c then out ++ ascii "\\f"
  else if character = 0x0a then out ++ ascii "\\n"
  else if character = 0x0d then out ++ ascii "\\r"
  else if character = 0x09 then out ++ ascii "\\t"
  else
    let byte := unsignedChar character
    if byte < 0x20 then appendUnicodeEscape out byte else out ++ [unsignedChar character]

def appendJsonStringChar (isSigned : Bool) (out value : Bytes) : Bytes :=
  (value.map (charValue isSigned)).foldl appendEscapedChar (out ++ [0x22]) ++ [0x22]

theorem unsignedChar_charValue (isSigned : Bool) (b : UInt8) :
    unsignedChar (charValue isSigned b) = b := by
  have hb := b.toNat_lt
  have hmod : (charValue isSigned b % 256).toNat = b.toNat := by
    rw [charValue]
    split_ifs <;> omega
  rw [unsignedChar, hmod, UInt8.ofNat_toNat]

/-- An ASCII character has one value. -/
theorem charValue_eq_iff (isSigned : Bool) (b : UInt8) {n : ℕ} (h : n < 0x80) :
    charValue isSigned b = n ↔ b = UInt8.ofNat n := by
  have hb := b.toNat_lt
  rw [← UInt8.toNat_inj, UInt8.toNat_ofNat', Nat.mod_eq_of_lt (by omega), charValue]
  split_ifs with hhigh
  · simp only [Bool.and_eq_true, decide_eq_true_eq, UInt8.le_iff_toNat_le] at hhigh
    have := hhigh.2
    simp only [UInt8.reduceToNat] at this
    omega
  · omega

theorem appendEscapedChar_charValue (isSigned : Bool) (out : Bytes) (b : UInt8) :
    appendEscapedChar out (charValue isSigned b) = appendEscaped out b := by
  have hliteral : ∀ n < 0x80, (charValue isSigned b = (n : ℕ)) = (b = UInt8.ofNat n) :=
    fun n h => propext (charValue_eq_iff isSigned b h)
  simp only [appendEscapedChar, appendEscaped, unsignedChar_charValue]
  have hquote := hliteral 0x22 (by omega)
  have hslash := hliteral 0x5c (by omega)
  have h08 := hliteral 0x08 (by omega)
  have h0c := hliteral 0x0c (by omega)
  have h0a := hliteral 0x0a (by omega)
  have h0d := hliteral 0x0d (by omega)
  have h09 := hliteral 0x09 (by omega)
  push_cast at hquote hslash h08 h0c h0a h0d h09
  simp only [hquote, hslash, h08, h0c, h0a, h0d, h09]

/-- The token does not depend on the platform. -/
theorem appendJsonStringChar_eq (isSigned : Bool) (out value : Bytes) :
    appendJsonStringChar isSigned out value = appendJsonString out value := by
  have hfold : ∀ out, (value.map (charValue isSigned)).foldl appendEscapedChar out =
      value.foldl appendEscaped out := by
    intro out
    rw [List.foldl_map]
    congr 1
    funext out b
    exact appendEscapedChar_charValue isSigned out b
  rw [appendJsonStringChar, appendJsonString, hfold]

/-! ## The token -/

/-- The bytes of a string body are no control characters. -/
theorem notControl_of_isStringBody {body : Bytes} (h : isStringBody body) :
    ∀ b ∈ body, 0x20 ≤ b := by
  induction body using isStringBody.induct with
  | case1 => simp
  | case2 => simp [isStringBody] at h
  | case3 letter body ih =>
      simp only [isStringBody, reduceIte, Bool.and_eq_true, decide_eq_true_eq] at h
      simp only [List.forall_mem_cons]
      exact ⟨by decide, h.1, ih h.2⟩
  | case4 b body hslash ih =>
      rw [isStringBody.eq_def] at h
      simp only [hslash, if_false, Bool.and_eq_true, decide_eq_true_eq] at h
      simp only [List.forall_mem_cons]
      exact ⟨h.1.2, ih h.2⟩

/-- The token is a quoted body, without control characters and without a quote or a backslash that
is not part of an escape, and the body stands for the value. -/
structure IsTokenFor (token value : Bytes) : Prop where
  form : ∃ body, token = 0x22 :: (body ++ [0x22]) ∧ isStringBody body ∧ (∀ b ∈ body, 0x20 ≤ b) ∧
    unescape body = some value
  valid : ValidUtf8 token

theorem IsTokenFor.validUtf8 {token value : Bytes} (h : IsTokenFor token value) :
    ValidUtf8 value := by
  obtain ⟨body, rfl, -, -, hvalue⟩ := h.form
  exact validUtf8_of_unescape hvalue (ValidUtf8.split (by decide) (h.valid.tail (by decide))).1

/-- A token stands for one value. -/
theorem IsTokenFor.unique {token value value' : Bytes} (h : IsTokenFor token value)
    (h' : IsTokenFor token value') : value = value' := by
  obtain ⟨body, rfl, -, -, hvalue⟩ := h.form
  obtain ⟨body', htoken, -, -, hvalue'⟩ := h'.form
  obtain rfl : body = body' := by simpa using htoken
  rw [hvalue] at hvalue'
  exact Option.some.inj hvalue'

theorem isTokenFor_literalOf {value : Bytes} (h : ValidUtf8 value) :
    IsTokenFor (literalOf value).render value where
  form := ⟨(literalOf value).body, rfl, (literalOf value).closed,
    notControl_of_isStringBody (literalOf value).closed, text_literalOf value⟩
  valid := validUtf8_literalOf h

/-- What is appended to `out` for `value`. -/
structure WritesToken (isSigned : Bool) (out value : Bytes) : Prop where
  token : ∃ token, appendJsonStringChar isSigned out value = out ++ token ∧ IsTokenFor token value
  distinct : ∀ value', ValidUtf8 value' →
    appendJsonStringChar isSigned out value = appendJsonStringChar isSigned out value' →
      value = value'
  sameOnAll : ∀ isSigned', appendJsonStringChar isSigned' out value =
    appendJsonStringChar isSigned out value
  verbatim : ∀ b, 0x80 ≤ b → appendEscapedChar out (charValue isSigned b) = out ++ [b]

theorem writesToken (isSigned : Bool) (out : Bytes) {value : Bytes} (h : ValidUtf8 value) :
    WritesToken isSigned out value where
  token := by
    refine ⟨(literalOf value).render, ?_, isTokenFor_literalOf h⟩
    rw [appendJsonStringChar_eq, appendJsonString_literalOf]
  distinct := by
    intro value' hvalue' hsame
    simp only [appendJsonStringChar_eq, appendJsonString_literalOf] at hsame
    rw [List.append_cancel_left_eq] at hsame
    exact (isTokenFor_literalOf h).unique (hsame ▸ isTokenFor_literalOf hvalue')
  sameOnAll := by
    intro isSigned'
    rw [appendJsonStringChar_eq, appendJsonStringChar_eq]
  verbatim := by
    intro b hb
    have hne : ∀ c, c < 0x80 → b ≠ c := fun c hc heq => absurd (heq ▸ hb) (UInt8.not_le.mpr hc)
    rw [appendEscapedChar_charValue, appendEscaped_eq, escaped_plain
      ⟨hne _ (by decide), hne _ (by decide), le_trans (b := 0x80) (by decide) hb⟩]

/-- `append_json_string` appends a token of the value, also of a value that was read from another
token. -/
theorem writes_tokens (isSigned : Bool) (out value : Bytes) :
    (ValidUtf8 value → WritesToken isSigned out value) ∧
      ∀ token, IsTokenFor token value → WritesToken isSigned out value :=
  ⟨writesToken isSigned out, fun _ h => writesToken isSigned out h.validUtf8⟩

/-- A quote, a control character and two bytes of UTF-8. -/
theorem writes_tokens_sample :
    WritesToken true (ascii "out") (ascii "\"\u0001" ++ [0xc3, 0xa9]) :=
  (writes_tokens true _ _).1 (by decide)

end Leta
