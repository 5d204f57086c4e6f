import Leta.Core.Tokenizer
import Leta.Http.Responses

/-! # Request headers

The headers of a message are a multimap whose names are compared without case. -/

namespace Leta

/-! ## Text without case -/

def toAsciiLower (character : UInt8) : UInt8 :=
  if 0x41 ≤ character && character ≤ 0x5a then character - 0x41 + 0x61 else character

def equalsIgnoringAsciiCase (left right : Bytes) : Bool :=
  left.map toAsciiLower == right.map toAsciiLower

theorem equalsIgnoringAsciiCase_iff {left right : Bytes} :
    equalsIgnoringAsciiCase left right ↔ left.map toAsciiLower = right.map toAsciiLower :=
  beq_iff_eq

/-! ## Names and values -/

abbrev Headers := List (Bytes × Bytes)

def isNamed (name : Bytes) (header : Bytes × Bytes) : Bool :=
  equalsIgnoringAsciiCase header.1 name

/-- The first value under the name, or nothing. -/
def headerValue (headers : Headers) (name : Bytes) : Bytes :=
  ((headers.filter (isNamed name)).head?.map Prod.snd).getD []

/-- What a value may be written of without being quoted or folded. -/
def IsFieldText (value : Bytes) : Prop := ∀ b ∈ value, 0x20 < b ∧ b < 0x7f

theorem isNamed_self (name value : Bytes) : isNamed name (name, value) :=
  equalsIgnoringAsciiCase_iff.mpr rfl

/-! ## Request ids -/

def requestIdHeader : Bytes := ascii "X-Request-Id"

def maxRequestIdLength : ℕ := 128

def isRequestIdCharacter (character : UInt8) : Bool :=
  let isLower := 0x61 ≤ character && character ≤ 0x7a
  let isUpper := 0x41 ≤ character && character ≤ 0x5a
  let isDigit := 0x30 ≤ character && character ≤ 0x39
  isLower || isUpper || isDigit || character == 0x2d || character == 0x5f || character == 0x2e

def isAcceptableRequestId (candidate : Bytes) : Bool :=
  !candidate.isEmpty && candidate.length ≤ maxRequestIdLength &&
    candidate.all isRequestIdCharacter

def bitsPerHexDigit : ℕ := 4

def hexDigitsPerWord : ℕ := 16

def appendHexWord (out : Bytes) (word : UInt64) : Bytes :=
  (List.range hexDigitsPerWord).foldl (fun out position =>
    let shift := (hexDigitsPerWord - 1 - position) * bitsPerHexDigit
    out ++ [hexDigits.getD ((word >>> UInt64.ofNat shift) &&& 0xf).toNat 0]) out

def formatRequestId (high low : UInt64) : Bytes :=
  appendHexWord (appendHexWord [] high) low

/-- `draw` is the call of the thread's random engine. -/
def generateRequestId {ε : Type} (draw : ε → UInt64 × ε) (engine : ε) : Bytes × ε :=
  let (high, engine) := draw engine
  let (low, engine) := draw engine
  (formatRequestId high low, engine)

/-- One digit is appended for each place of the word. -/
theorem appendHexWord_eq (out : Bytes) (word : UInt64) :
    appendHexWord out word = out ++ (List.range hexDigitsPerWord).map fun position =>
      hexDigits.getD ((word >>> UInt64.ofNat ((hexDigitsPerWord - 1 - position) *
        bitsPerHexDigit)) &&& 0xf).toNat 0 := by
  rw [appendHexWord]
  generalize List.range hexDigitsPerWord = positions
  induction positions generalizing out with
  | nil => simp
  | cons position positions ih =>
      rw [List.foldl_cons, ih, List.map_cons, List.append_assoc, List.singleton_append]

theorem mem_hexDigits {n : ℕ} (h : n < 16) : hexDigits.getD n 0 ∈ hexDigits := by
  have hlength : n < hexDigits.length := h
  rw [List.getD_eq_getElem?_getD, List.getElem?_eq_getElem hlength]
  exact List.getElem_mem hlength

theorem length_appendHexWord (out : Bytes) (word : UInt64) :
    (appendHexWord out word).length = out.length + 16 := by
  rw [appendHexWord_eq, List.length_append, List.length_map, List.length_range]
  rfl

theorem mem_hexDigits_of_mem_appendHexWord {out : Bytes} {word : UInt64} {b : UInt8}
    (h : b ∈ appendHexWord out word) : b ∈ out ∨ b ∈ hexDigits := by
  rw [appendHexWord_eq, List.mem_append, List.mem_map] at h
  rcases h with h | ⟨position, -, rfl⟩
  · exact .inl h
  · refine .inr (mem_hexDigits ?_)
    have : ((word >>> UInt64.ofNat ((hexDigitsPerWord - 1 - position) * bitsPerHexDigit)) &&&
        0xf).toNat ≤ 15 := Nat.and_le_right
    omega

/-- 32 lowercase hexadecimal digits. -/
def IsGenerated (id : Bytes) : Prop := id.length = 32 ∧ ∀ b ∈ id, b ∈ hexDigits

theorem isGenerated_formatRequestId (high low : UInt64) :
    IsGenerated (formatRequestId high low) := by
  refine ⟨by simp [formatRequestId, length_appendHexWord], fun b hb => ?_⟩
  rcases mem_hexDigits_of_mem_appendHexWord hb with hb | hb
  · rcases mem_hexDigits_of_mem_appendHexWord hb with hb | hb
    · simp at hb
    · exact hb
  · exact hb

/-- `[A-Za-z0-9._-]{1,128}` -/
def HasRequestIdForm (id : Bytes) : Prop :=
  0 < id.length ∧ id.length ≤ 128 ∧ ∀ b ∈ id,
    b ∈ ascii "ABCDEFGHIJKLMNOPQRSTUVWXYZabcdefghijklmnopqrstuvwxyz0123456789._-"

theorem isRequestIdCharacter_iff (b : UInt8) : isRequestIdCharacter b ↔
    b ∈ ascii "ABCDEFGHIJKLMNOPQRSTUVWXYZabcdefghijklmnopqrstuvwxyz0123456789._-" := by
  have halphabet :
      ascii "ABCDEFGHIJKLMNOPQRSTUVWXYZabcdefghijklmnopqrstuvwxyz0123456789._-" =
        (List.range' 0x41 26).map UInt8.ofNat ++ (List.range' 0x61 26).map UInt8.ofNat ++
          (List.range' 0x30 10).map UInt8.ofNat ++ [0x2e, 0x5f, 0x2d] := by decide
  have hrange : ∀ start count, start + count ≤ 256 →
      (b ∈ (List.range' start count).map UInt8.ofNat ↔
        start ≤ b.toNat ∧ b.toNat < start + count) := by
    intro start count hle
    rw [List.mem_map]
    constructor
    · rintro ⟨n, hn, rfl⟩
      rw [List.mem_range'_1] at hn
      rw [UInt8.toNat_ofNat', Nat.mod_eq_of_lt (by omega)]
      exact hn
    · intro hb
      exact ⟨b.toNat, List.mem_range'_1.mpr hb, UInt8.ofNat_toNat⟩
  rw [halphabet]
  simp only [List.mem_append, hrange _ _ (by omega : 0x41 + 26 ≤ 256),
    hrange _ _ (by omega : 0x61 + 26 ≤ 256), hrange _ _ (by omega : 0x30 + 10 ≤ 256)]
  simp only [isRequestIdCharacter, Bool.or_eq_true, Bool.and_eq_true, decide_eq_true_eq,
    UInt8.le_iff_toNat_le, beq_iff_eq, List.mem_cons, List.not_mem_nil, ← UInt8.toNat_inj]
  simp
  omega

theorem isAcceptableRequestId_iff (id : Bytes) :
    isAcceptableRequestId id ↔ HasRequestIdForm id := by
  have hlength : decide (id.length ≤ maxRequestIdLength) = true ↔ id.length ≤ 128 :=
    decide_eq_true_iff
  simp [isAcceptableRequestId, HasRequestIdForm, hlength, isRequestIdCharacter_iff,
    List.length_pos_iff, and_assoc]

/-- A generated id is one that would be echoed. -/
theorem IsGenerated.hasRequestIdForm {id : Bytes} (h : IsGenerated id) : HasRequestIdForm id := by
  refine ⟨by simp [h.1], by simp [h.1], fun b hb => ?_⟩
  have hdigits : ∀ b ∈ hexDigits, isRequestIdCharacter b := List.all_eq_true.mp (by decide)
  exact (isRequestIdCharacter_iff b).mp (hdigits b (h.2 b hb))

/-! ## The content type -/

def contentTypeHeader : Bytes := ascii "Content-Type"

def jsonMediaType : Bytes := ascii "application/json"

/-- A space or a tab. -/
def isOptionalWhitespace (b : UInt8) : Bool := b == 0x20 || b == 0x09

/-- The last position whose byte satisfies `p`: `find_last_not_of`. -/
def findLast (p : UInt8 → Bool) (text : Bytes) : Option ℕ :=
  (text.reverse.findIdx? p).map fun i => text.length - 1 - i

def trimWhitespace (text : Bytes) : Bytes :=
  match findFirst (fun b => !isOptionalWhitespace b) text (some 0) with
  | none => []
  | some first =>
      substr text first ((findLast (fun b => !isOptionalWhitespace b) text).map (· + 1))

def isJsonContentType (header : Bytes) : Bool :=
  let mediaType := trimWhitespace (substr header 0 (findFirst (· == 0x3b) header (some 0)))
  equalsIgnoringAsciiCase mediaType jsonMediaType

/-- What is left of a text between optional whitespace. -/
theorem trimWhitespace_append {lead core trail : Bytes} (hne : core ≠ [])
    (hlead : ∀ b ∈ lead, isOptionalWhitespace b) (htrail : ∀ b ∈ trail, isOptionalWhitespace b)
    (hfirst : isOptionalWhitespace (core.head hne) = false)
    (hlast : isOptionalWhitespace (core.getLast hne) = false) :
    trimWhitespace (lead ++ (core ++ trail)) = core := by
  have hfirst' : findFirst (fun b => !isOptionalWhitespace b) (lead ++ (core ++ trail)) (some 0) =
      some lead.length := by
    have hnone : lead.findIdx? (fun b => !isOptionalWhitespace b) = none := by
      simpa [List.findIdx?_eq_none_iff] using hlead
    cases core with
    | nil => exact absurd rfl hne
    | cons c core =>
        rw [List.head_cons] at hfirst
        simp [findFirst, List.findIdx?_append, List.findIdx?_cons, hnone, hfirst]
  have hlast' : findLast (fun b => !isOptionalWhitespace b) (lead ++ (core ++ trail)) =
      some (lead.length + core.length - 1) := by
    have hnone : trail.reverse.findIdx? (fun b => !isOptionalWhitespace b) = none := by
      simpa [List.findIdx?_eq_none_iff] using htrail
    rcases List.eq_nil_or_concat core with rfl | ⟨front, c, rfl⟩
    · exact absurd rfl hne
    · simp only [List.concat_eq_append, List.getLast_concat] at hlast
      simp only [findLast, List.concat_eq_append, List.reverse_append, List.findIdx?_append, hnone]
      simp [List.findIdx?_cons, hlast]
      omega
  have hlength : 0 < core.length := List.length_pos_iff.mpr hne
  rw [trimWhitespace, hfirst', hlast']
  simp only [Option.map_some, substr, List.drop_left]
  rw [show lead.length + core.length - 1 + 1 - lead.length = core.length by omega, List.take_left]

theorem trimWhitespace_whitespace {text : Bytes} (h : ∀ b ∈ text, isOptionalWhitespace b) :
    trimWhitespace text = [] := by
  have hnone : text.findIdx? (fun b => !isOptionalWhitespace b) = none := by
    simpa [List.findIdx?_eq_none_iff] using h
  simp [trimWhitespace, findFirst, hnone]

/-- The part before the first `;`, without the spaces and tabs around it, is `application/json`
in any case. -/
def NamesJson (header : Bytes) : Prop :=
  ∃ lead core trail rest, header = lead ++ (core ++ trail) ++ rest ∧
    0x3b ∉ lead ++ (core ++ trail) ∧ (rest = [] ∨ rest.head? = some 0x3b) ∧
    (∀ b ∈ lead, isOptionalWhitespace b) ∧ (∀ b ∈ trail, isOptionalWhitespace b) ∧
    core.map toAsciiLower = ascii "application/json"

theorem exists_trimmed (text : Bytes) : (∀ b ∈ text, isOptionalWhitespace b) ∨
    ∃ lead core trail, ∃ hne : core ≠ [], text = lead ++ (core ++ trail) ∧
      (∀ b ∈ lead, isOptionalWhitespace b) ∧ (∀ b ∈ trail, isOptionalWhitespace b) ∧
      isOptionalWhitespace (core.head hne) = false ∧
      isOptionalWhitespace (core.getLast hne) = false := by
  induction text with
  | nil => exact .inl (by simp)
  | cons b text ih =>
      cases hb : isOptionalWhitespace b with
      | true =>
          rcases ih with ih | ⟨lead, core, trail, hne, rfl, hlead, hrest⟩
          · exact .inl (by simpa [hb] using ih)
          · exact .inr ⟨b :: lead, core, trail, hne, rfl, by simpa [hb] using hlead, hrest⟩
      | false =>
          rcases ih with ih | ⟨lead, core, trail, hne, rfl, -, htrail, -, hlast⟩
          · exact .inr ⟨[], [b], text, by simp, rfl, by simp, ih, hb, hb⟩
          · refine .inr ⟨[], b :: (lead ++ core), trail, by simp, by simp, by simp, htrail, hb, ?_⟩
            rwa [List.getLast_cons (by simp [hne]), List.getLast_append_of_ne_nil _ hne]

theorem not_whitespace_of_jsonMediaType {core : Bytes}
    (h : core.map toAsciiLower = ascii "application/json") :
    ∀ b ∈ core, isOptionalWhitespace b = false := by
  intro b hb
  have hmem : toAsciiLower b ∈ ascii "application/json" := h ▸ List.mem_map_of_mem hb
  by_contra hspace
  have hcases : b = 0x20 ∨ b = 0x09 := by
    rw [Bool.not_eq_false] at hspace
    simpa [isOptionalWhitespace] using hspace
  rcases hcases with rfl | rfl <;> exact absurd hmem (by decide)

theorem isJsonContentType_iff (header : Bytes) : isJsonContentType header ↔ NamesJson header := by
  have hmediaType : substr header 0 (findFirst (· == 0x3b) header (some 0)) =
      header.takeWhile fun b => !(b == 0x3b) := substr_findFirst _ _ _
  rw [isJsonContentType, equalsIgnoringAsciiCase_iff, hmediaType]
  constructor
  · intro h
    rcases exists_trimmed (header.takeWhile fun b => !(b == 0x3b)) with hspace |
      ⟨lead, core, trail, hne, htext, hlead, htrail, hfirst, hlast⟩
    · rw [trimWhitespace_whitespace hspace] at h
      exact absurd h (by decide)
    · rw [htext, trimWhitespace_append hne hlead htrail hfirst hlast] at h
      refine ⟨lead, core, trail, header.dropWhile fun b => !(b == 0x3b), ?_, ?_, ?_, hlead, htrail,
        h⟩
      · rw [← htext, List.takeWhile_append_dropWhile]
      · rw [← htext]
        intro hmem
        simpa using List.mem_takeWhile_imp hmem
      · cases hrest : header.dropWhile fun b => !(b == 0x3b) with
        | nil => exact .inl rfl
        | cons b rest =>
            have := List.head_dropWhile_not (fun b => !(b == 0x3b)) (l := header) (by simp [hrest])
            exact .inr (by simpa [hrest] using this)
  · rintro ⟨lead, core, trail, rest, rfl, hmem, hrest, hlead, htrail, hcore⟩
    have htake : (lead ++ (core ++ trail) ++ rest).takeWhile (fun b => !(b == 0x3b)) =
        lead ++ (core ++ trail) := by
      rw [List.takeWhile_append_of_pos fun b hb => by
        simpa using fun heq : b = 0x3b => hmem (heq ▸ hb)]
      rcases hrest with rfl | hrest
      · simp
      · cases rest with
        | nil => simp at hrest
        | cons b rest =>
            obtain rfl : b = 0x3b := by simpa using hrest
            simp
    have hinside := not_whitespace_of_jsonMediaType hcore
    have hne : core ≠ [] := by
      rintro rfl
      exact absurd hcore (by decide)
    rw [htake, trimWhitespace_append hne hlead htrail (hinside _ (List.head_mem hne))
      (hinside _ (List.getLast_mem hne)), hcore]
    rfl

end Leta
