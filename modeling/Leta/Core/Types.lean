import Leta.Foundation.Utf8

/-! # Errors, uids, documents and index metadata -/

namespace Leta

/-! ## Errors -/

inductive ErrorCode where
  | malformedRequest | payloadTooLarge | invalidIndexUid | unknownField | indexAlreadyExists
  | routeNotFound | internal
  deriving DecidableEq, Repr

inductive ErrorType where
  | invalidRequest | auth | notFound | internal
  deriving DecidableEq, Repr

structure Error where
  code : ErrorCode
  message : Bytes
  deriving DecidableEq, Repr

def errorType : ErrorCode → ErrorType
  | .malformedRequest | .payloadTooLarge | .invalidIndexUid | .unknownField
  | .indexAlreadyExists => .invalidRequest
  | .routeNotFound => .notFound
  | .internal => .internal

/-- `core::Result` -/
abbrev Result := Except Error

def malformed (message : Bytes) : Error := ⟨.malformedRequest, message⟩

/-- The error is a `malformed`, whose message is ASCII text. -/
structure IsMalformed (e : Error) : Prop where
  code : e.code = .malformedRequest
  message : ∀ b ∈ e.message, isAscii b

def notJson : Error := malformed (ascii "The request body is not valid JSON.")

theorem isMalformed_malformed {message : Bytes} (h : message.all isAscii) :
    IsMalformed (malformed message) := ⟨rfl, List.all_eq_true.mp h⟩

theorem isMalformed_notJson : IsMalformed notJson := isMalformed_malformed (by decide)

/-- A message with an ASCII part in the middle. -/
theorem isMalformed_append {front middle back : Bytes} (hfront : front.all isAscii)
    (hmiddle : ∀ b ∈ middle, isAscii b) (hback : back.all isAscii) :
    IsMalformed (malformed (front ++ middle ++ back)) where
  code := rfl
  message := by
    simp only [malformed, List.forall_mem_append]
    exact ⟨⟨List.all_eq_true.mp hfront, hmiddle⟩, List.all_eq_true.mp hback⟩

/-- What a loop that outruns its fuel answers. No loop over a lawful parser does. -/
def outOfFuel : Error := ⟨.internal, ascii "Out of fuel."⟩

/-! ## Index uids -/

def maxUidLength : ℕ := 64

def isUidCharacter (b : UInt8) : Bool :=
  (0x61 ≤ b && b ≤ 0x7a) || (0x41 ≤ b && b ≤ 0x5a) || (0x30 ≤ b && b ≤ 0x39) || b == 0x5f ||
    b == 0x2d

/-- `[a-zA-Z0-9_-]{1,64}` -/
def HasUidForm (text : Bytes) : Prop :=
  (text ≠ [] ∧ text.length ≤ maxUidLength) ∧ text.all isUidCharacter

instance (text : Bytes) : Decidable (HasUidForm text) :=
  inferInstanceAs (Decidable ((_ ∧ _) ∧ _))

/-- A uid has its form by construction. -/
@[ext]
structure IndexUid where
  value : Bytes
  form : HasUidForm value
  deriving DecidableEq

def invalidIndexUid : Error where
  code := .invalidIndexUid
  message := ascii
    "An index uid is 1 to 64 characters, each an ASCII letter, digit, `_` or `-`."

def IndexUid.parse (text : Bytes) : Result IndexUid :=
  if h : HasUidForm text then .ok ⟨text, h⟩ else .error invalidIndexUid

theorem IndexUid.parse_eq_ok {text : Bytes} {uid : IndexUid} :
    IndexUid.parse text = .ok uid ↔ uid.value = text := by
  rw [IndexUid.parse]
  split_ifs with h
  · rw [Except.ok.injEq, IndexUid.mk.injEq, eq_comm]
  · simp only [false_iff]
    rintro rfl
    exact h uid.form

theorem IndexUid.parse_value (uid : IndexUid) : IndexUid.parse uid.value = .ok uid :=
  IndexUid.parse_eq_ok.mpr rfl

theorem IndexUid.parse_eq_error {text : Bytes} {e : Error} :
    IndexUid.parse text = .error e ↔ ¬ HasUidForm text ∧ e = invalidIndexUid := by
  rw [IndexUid.parse]
  split_ifs with h
  · simp [h]
  · simp [h, eq_comm]

/-- Every character of a uid is printable ASCII, and none needs escaping. -/
theorem isUidCharacter_plain {b : UInt8} (h : isUidCharacter b) :
    0x20 ≤ b ∧ b < 0x80 ∧ b ≠ 0x22 ∧ b ≠ 0x5c := by
  simp [isUidCharacter, UInt8.le_iff_toNat_le, UInt8.lt_iff_toNat_lt, ← UInt8.toNat_inj] at h ⊢
  omega

/-! ## Documents and metadata -/

/-- A document: the exact bytes the client sent, and the text to make searchable. -/
structure Document where
  source : Bytes
  searchableText : List Bytes
  deriving DecidableEq, Repr

/-- Milliseconds since 1970-01-01T00:00:00Z. -/
abbrev Timestamp := ℤ

structure IndexMetadata where
  uid : IndexUid
  primaryKey : Option Bytes
  createdAt : Timestamp
  updatedAt : Timestamp
  deriving DecidableEq

/-- `DocId`, a 32-bit number. -/
abbrev DocId := UInt32

/-! ## Commands -/

structure CreateIndexCommand where
  uid : IndexUid
  primaryKey : Option Bytes
  deriving DecidableEq

structure AddDocumentsCommand where
  uid : IndexUid
  documents : List Document

structure AddDocumentsOutcome where
  indexed : ℕ
  primaryKey : Option Bytes

end Leta
