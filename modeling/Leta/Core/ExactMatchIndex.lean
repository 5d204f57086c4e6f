import Leta.Core.Tokenizer
import Leta.Core.Types
import Leta.Foundation.Allocation
import Std.Data.ExtTreeMap

/-! # The exact-match index -/

namespace Leta

open Allocating

/-- The stored sources, in the order of their ids, and for every term the ids of its documents. -/
structure ExactMatchIndex where
  sources : List Bytes
  postings : Std.ExtTreeMap Bytes (List DocId)

namespace ExactMatchIndex

def empty : ExactMatchIndex := ⟨[], ∅⟩

/-- The postings of a term. The copy of the term, the map's node and the vector's growth
allocate. -/
def record (term : Bytes) (documentId : DocId) : Allocating ExactMatchIndex Unit := do
  allocate
  let index ← getState
  if term ∉ index.postings then
    allocate
    modifyState fun index => { index with postings := index.postings.insert term [] }
  let index ← getState
  let documents := index.postings.getD term []
  if documents = [] ∨ documents.getLast? ≠ some documentId then
    allocate
    modifyState fun index =>
      { index with postings := index.postings.insert term (documents ++ [documentId]) }

/-- Splitting allocates as the vector of words grows. -/
def splitting (text : Bytes) : Allocating ExactMatchIndex (List Bytes) := do
  (splitOnWhitespace text).forM fun _ => allocate
  return splitOnWhitespace text

/-- The inner loop of `add`. -/
def recordText (documentId : DocId) (text : Bytes) : Allocating ExactMatchIndex Unit := do
  let words ← splitting text
  words.forM fun word => record word documentId

def add (document : Document) : Allocating ExactMatchIndex DocId := do
  let index ← getState
  let documentId := UInt32.ofNat index.sources.length
  document.searchableText.forM (recordText documentId)
  allocate
  modifyState fun index => { index with sources := index.sources ++ [document.source] }
  return documentId

def documentCount (index : ExactMatchIndex) : ℕ := index.sources.length

def documentsContaining (index : ExactMatchIndex) (term : Bytes) : List DocId :=
  index.postings.getD term []

/-- `none` stands for the exception that `at` throws. -/
def source (index : ExactMatchIndex) (documentId : DocId) : Option Bytes :=
  index.sources[documentId.toNat]?

end ExactMatchIndex

end Leta
