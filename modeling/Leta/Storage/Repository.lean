import Leta.Core.ExactMatchIndex

/-! # The in-memory repository and the services over it

Every operation of the repository runs under its one mutex. A service reads the clock
before it calls the repository, so the reading is a parameter. -/

namespace Leta

open Allocating

/-! ## The repository -/

structure StoredIndex where
  metadata : IndexMetadata
  documents : ExactMatchIndex

structure InMemoryIndexRepository where
  indexes : Std.ExtTreeMap Bytes StoredIndex

namespace InMemoryIndexRepository

def empty : InMemoryIndexRepository := ⟨∅⟩

def alreadyExistsMessage (uid : IndexUid) : Bytes :=
  ascii "Index `" ++ uid.value ++ ascii "` already exists."

/-- Copying metadata allocates for its uid, and for its primary key when it has one. -/
def copyMetadata (index : IndexMetadata) : Allocating InMemoryIndexRepository IndexMetadata := do
  allocate
  if index.primaryKey.isSome then
    allocate
  return index

/-- `indexes_.try_emplace`: the index under the key, and whether it is new. -/
def tryEmplace (key : Bytes) (index : StoredIndex) :
    Allocating InMemoryIndexRepository (StoredIndex × Bool) := do
  let repository ← getState
  match repository.indexes[key]? with
  | some stored => return (stored, false)
  | none =>
      allocate
      modifyState fun repository => { indexes := repository.indexes.insert key index }
      return (index, true)

def add (index : IndexMetadata) : Allocating InMemoryIndexRepository (Result Unit) := do
  allocate
  let metadata ← copyMetadata index
  let (_, isNew) ← tryEmplace index.uid.value ⟨metadata, .empty⟩
  if isNew then return .ok ()
  else
    allocate
    return .error ⟨.indexAlreadyExists, alreadyExistsMessage index.uid⟩

/-- The documents stored under a key. -/
def documentsAt (key : Bytes) (repository : InMemoryIndexRepository) : ExactMatchIndex :=
  match repository.indexes[key]? with
  | some stored => stored.documents
  | none => .empty

def setDocumentsAt (key : Bytes) (documents : ExactMatchIndex)
    (repository : InMemoryIndexRepository) : InMemoryIndexRepository where
  indexes := repository.indexes.modify key fun stored => { stored with documents }

/-- `stored.documents.add(…)` -/
def addAt (key : Bytes) (document : Document) : Allocating InMemoryIndexRepository Unit := do
  let _ ← zoom (documentsAt key) (setDocumentsAt key) (ExactMatchIndex.add document)
  return

def addDocuments (indexIfMissing : IndexMetadata) (documents : List Document) :
    Allocating InMemoryIndexRepository (Result IndexMetadata) := do
  allocate
  let metadata ← copyMetadata indexIfMissing
  let (stored, _) ← tryEmplace indexIfMissing.uid.value ⟨metadata, .empty⟩
  documents.forM (addAt indexIfMissing.uid.value)
  let metadata ← copyMetadata stored.metadata
  return .ok metadata

end InMemoryIndexRepository

/-! ## The services -/

/-- An index created at `now`. -/
def indexCreatedAt (now : Timestamp) (uid : IndexUid) (primaryKey : Option Bytes) : IndexMetadata :=
  { uid, primaryKey, createdAt := now, updatedAt := now }

def createIndex (now : Timestamp) (command : CreateIndexCommand) :
    Allocating InMemoryIndexRepository (Result IndexMetadata) := do
  let index := indexCreatedAt now command.uid command.primaryKey
  let added ← InMemoryIndexRepository.add index
  return added.map fun _ => index

def addDocuments (now : Timestamp) (command : AddDocumentsCommand) :
    Allocating InMemoryIndexRepository (Result AddDocumentsOutcome) := do
  let batchSize := command.documents.length
  let indexIfMissing := indexCreatedAt now command.uid none
  let stored ← InMemoryIndexRepository.addDocuments indexIfMissing command.documents
  return stored.map fun metadata => ⟨batchSize, metadata.primaryKey⟩

end Leta
