import Leta.Foundation.Bytes

/-! # UTF-8 validity, split at ASCII bytes -/

namespace Leta

/-- The text is the UTF-8 encoding of some characters. -/
def ValidUtf8 (text : Bytes) : Prop :=
  ∃ characters : List Char, text = characters.flatMap String.utf8EncodeChar

def isAscii (b : UInt8) : Bool := b < 0x80

theorem isAscii_iff (b : UInt8) : isAscii b ↔ b.toNat < 0x80 := by
  simp [isAscii, UInt8.lt_iff_toNat_lt]

theorem isAscii_of_mem_decimal {n : ℕ} : ∀ b ∈ decimal n, isAscii b := by
  intro b hb
  have := (isDigit_iff b).mp (isDigit_of_mem_decimal b hb)
  rw [isAscii_iff]
  omega

/-! ## One character -/

theorem utf8EncodeChar_of_lt {c : Char} (h : c.toNat < 0x80) :
    String.utf8EncodeChar c = [c.toNat.toUInt8] := by
  have h' : c.val.toNat ≤ 127 := by
    have : c.val.toNat = c.toNat := rfl
    omega
  rw [String.utf8EncodeChar, if_pos h']
  rfl

/-- Every byte of a character outside ASCII has its high bit set. -/
theorem not_isAscii_of_mem_utf8EncodeChar {c : Char} (h : 0x80 ≤ c.toNat) :
    ∀ b ∈ String.utf8EncodeChar c, ¬ isAscii b := by
  have h' : ¬ c.val.toNat ≤ 127 := by
    have : c.val.toNat = c.toNat := rfl
    omega
  intro b hb
  rw [isAscii_iff]
  simp only [String.utf8EncodeChar, h', if_false] at hb
  split at hb
  · simp only [List.mem_cons, List.not_mem_nil, or_false] at hb
    rcases hb with rfl | rfl <;> simp only [UInt8.toNat_ofNat'] <;> omega
  · split at hb
    · simp only [List.mem_cons, List.not_mem_nil, or_false] at hb
      rcases hb with rfl | rfl | rfl <;> simp only [UInt8.toNat_ofNat'] <;> omega
    · simp only [List.mem_cons, List.not_mem_nil, or_false] at hb
      rcases hb with rfl | rfl | rfl | rfl <;> simp only [UInt8.toNat_ofNat'] <;> omega

/-- An ASCII byte is the whole encoding of its character. -/
theorem exists_char_of_isAscii {b : UInt8} (h : isAscii b) :
    ∃ c : Char, String.utf8EncodeChar c = [b] := by
  have hb := (isAscii_iff b).mp h
  have hc : (Char.ofUInt8 b).toNat = b.toNat := rfl
  refine ⟨(Char.ofUInt8 b), ?_⟩
  rw [utf8EncodeChar_of_lt (by omega), hc]
  simp

/-! ## Texts -/

namespace ValidUtf8

theorem nil : ValidUtf8 [] := ⟨[], rfl⟩

theorem encode (c : Char) : ValidUtf8 (String.utf8EncodeChar c) := ⟨[c], by simp⟩

theorem append {a b : Bytes} : ValidUtf8 a → ValidUtf8 b → ValidUtf8 (a ++ b) := by
  rintro ⟨cs, rfl⟩ ⟨ds, rfl⟩
  exact ⟨cs ++ ds, by simp⟩

theorem cons {b : UInt8} {text : Bytes} (hb : isAscii b) (h : ValidUtf8 text) :
    ValidUtf8 (b :: text) := by
  obtain ⟨c, hc⟩ := exists_char_of_isAscii hb
  exact append (a := [b]) (hc ▸ encode c) h

theorem of_isAscii {text : Bytes} (h : ∀ b ∈ text, isAscii b) : ValidUtf8 text := by
  induction text with
  | nil => exact nil
  | cons b text ih =>
      simp only [List.forall_mem_cons] at h
      exact cons h.1 (ih h.2)

theorem of_all {text : Bytes} (h : text.all isAscii) : ValidUtf8 text :=
  of_isAscii (List.all_eq_true.mp h)

/-- An ASCII byte is never inside another character, so a text may be cut there. -/
theorem split {a rest : Bytes} {b : UInt8} (hb : isAscii b)
    (h : ValidUtf8 (a ++ b :: rest)) : ValidUtf8 a ∧ ValidUtf8 rest := by
  obtain ⟨cs, hcs⟩ := h
  induction cs generalizing a with
  | nil => simp at hcs
  | cons c cs ih =>
      rw [List.flatMap_cons] at hcs
      rcases List.append_eq_append_iff.mp hcs with ⟨front, hc, hrest⟩ | ⟨back, ha, hrest⟩
      · cases front with
        | nil =>
            obtain ⟨-, h2⟩ := ih (a := []) hrest
            rw [List.append_nil] at hc
            exact ⟨hc ▸ encode c, h2⟩
        | cons x front =>
            obtain ⟨rfl, hrest⟩ := List.cons.inj hrest
            -- The character holds an ASCII byte, so it is that byte alone.
            rcases Nat.lt_or_ge c.toNat 0x80 with hlt | hge
            · rw [utf8EncodeChar_of_lt hlt] at hc
              obtain ⟨rfl, rfl⟩ : a = [] ∧ front = [] := by
                have := congrArg List.length hc
                simp only [List.length_cons, List.length_nil, List.length_append] at this
                exact ⟨List.length_eq_zero_iff.mp (by omega),
                  List.length_eq_zero_iff.mp (by omega)⟩
              exact ⟨nil, cs, (List.cons.inj hrest).2⟩
            · exact absurd hb (not_isAscii_of_mem_utf8EncodeChar hge b (by simp [hc]))
      · subst ha
        obtain ⟨h1, h2⟩ := ih hrest.symm
        exact ⟨append (encode c) h1, h2⟩

theorem tail {b : UInt8} {text : Bytes} (hb : isAscii b) (h : ValidUtf8 (b :: text)) :
    ValidUtf8 text :=
  (split (a := []) hb h).2

/-- ASCII text may be taken off the front. -/
theorem drop_ascii {a text : Bytes} (ha : ∀ b ∈ a, isAscii b) (h : ValidUtf8 (a ++ text)) :
    ValidUtf8 text := by
  induction a with
  | nil => exact h
  | cons b a ih =>
      simp only [List.forall_mem_cons] at ha
      exact ih ha.2 (tail ha.1 h)

end ValidUtf8

instance (text : Bytes) : Decidable (ValidUtf8 text) :=
  decidable_of_iff text.toByteArray.IsValidUTF8 <| by
    constructor
    · rintro ⟨cs, hcs⟩
      exact ⟨cs, List.toByteArray_inj.mp hcs⟩
    · rintro ⟨cs, rfl⟩
      exact ⟨cs, rfl⟩

/-! ## The byte-order mark -/

/-- U+FEFF, encoded. -/
def byteOrderMark : Bytes := [0xef, 0xbb, 0xbf]

/-- A text without the byte-order mark it may start with. -/
def dropByteOrderMark (text : Bytes) : Bytes :=
  if byteOrderMark.isPrefixOf text then text.drop 3 else text

theorem dropByteOrderMark_suffix (text : Bytes) : dropByteOrderMark text <:+ text := by
  rw [dropByteOrderMark]
  split_ifs
  · exact List.drop_suffix 3 text
  · exact List.suffix_rfl

theorem length_dropByteOrderMark_le (text : Bytes) :
    (dropByteOrderMark text).length ≤ text.length := (dropByteOrderMark_suffix text).length_le

/-- The mark that was dropped, if there was one. -/
theorem exists_byteOrderMark (text : Bytes) : ∃ mark, (mark = [] ∨ mark = byteOrderMark) ∧
    text = mark ++ dropByteOrderMark text := by
  rw [dropByteOrderMark]
  split_ifs with h
  · obtain ⟨rest, hrest⟩ := List.isPrefixOf_iff_prefix.mp h
    exact ⟨byteOrderMark, .inr rfl, by rw [← hrest]; rfl⟩
  · exact ⟨[], .inl rfl, rfl⟩

theorem dropByteOrderMark_of_head {text rest : Bytes} {b : UInt8} (h : text = b :: rest)
    (hb : b ≠ 0xef) : dropByteOrderMark text = text := by
  subst h
  simp [dropByteOrderMark, byteOrderMark, List.isPrefixOf, Ne.symm hb]

end Leta
