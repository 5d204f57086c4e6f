import Leta.Storage.Repository
import Leta.Verification.ExactMatchIndex

/-! # The repository refines a catalogue

A catalogue maps a uid to metadata and a list of documents. Each call does to the
repository what it does to the catalogue, and gives the answer that the catalogue gives. -/

namespace Leta

open Allocating

/-! ## Calls -/

/-- A call of one of the two services. -/
inductive Call where
  | create (command : CreateIndexCommand)
  | ingest (command : AddDocumentsCommand)

inductive Reply where
  | created (result : Result IndexMetadata)
  | ingested (result : Result AddDocumentsOutcome)

def Call.uid : Call → IndexUid
  | .create command => command.uid
  | .ingest command => command.uid

/-- The call on the repository, with its clock reading, when no allocation throws. -/
def Call.run (call : Call) (now : Timestamp) (repository : InMemoryIndexRepository) :
    Reply × InMemoryIndexRepository :=
  match call with
  | .create command =>
      let (result, repository) := (createIndex now command).exec repository
      (.created result, repository)
  | .ingest command =>
      let (result, repository) := (addDocuments now command).exec repository
      (.ingested result, repository)

/-- The calls one at a time, with their clock readings. -/
def runCalls (history : List (Call × Timestamp)) (repository : InMemoryIndexRepository) :
    InMemoryIndexRepository :=
  history.foldl (fun repository entry => (entry.1.run entry.2 repository).2) repository

theorem runCalls_append (front back : List (Call × Timestamp))
    (repository : InMemoryIndexRepository) :
    runCalls (front ++ back) repository = runCalls back (runCalls front repository) :=
  List.foldl_append

/-! ## Catalogues -/

abbrev Catalogue := Bytes → Option (IndexMetadata × List Document)

/-- The metadata of an index that the call creates. -/
def metadataOf (entry : Call × Timestamp) : IndexMetadata :=
  match entry.1 with
  | .create command => indexCreatedAt entry.2 command.uid command.primaryKey
  | .ingest command => indexCreatedAt entry.2 command.uid none

/-- The documents that the call adds. -/
def documentsOf : Call → List Document
  | .create _ => []
  | .ingest command => command.documents

/-- The catalogue with more documents in an index, which is created if it is missing. -/
def Catalogue.extend (catalogue : Catalogue) (indexIfMissing : IndexMetadata)
    (documents : List Document) : Catalogue :=
  Function.update catalogue indexIfMissing.uid.value
    (match catalogue indexIfMissing.uid.value with
      | some (metadata, stored) => some (metadata, stored ++ documents)
      | none => some (indexIfMissing, documents))

/-- What a call does to a catalogue. -/
def Catalogue.after (catalogue : Catalogue) (entry : Call × Timestamp) : Catalogue :=
  catalogue.extend (metadataOf entry) (documentsOf entry.1)

@[simp] theorem uid_metadataOf (entry : Call × Timestamp) :
    (metadataOf entry).uid = entry.1.uid := by
  obtain ⟨_ | _, now⟩ := entry <;> rfl

/-- What a call answers over a catalogue. -/
def Catalogue.reply (catalogue : Catalogue) (entry : Call × Timestamp) : Reply :=
  match entry.1, catalogue entry.1.uid.value with
  | .create command, some _ => .created (.error
      ⟨.indexAlreadyExists, InMemoryIndexRepository.alreadyExistsMessage command.uid⟩)
  | .create _, none => .created (.ok (metadataOf entry))
  | .ingest command, some (metadata, _) =>
      .ingested (.ok ⟨command.documents.length, metadata.primaryKey⟩)
  | .ingest command, none => .ingested (.ok ⟨command.documents.length, none⟩)

namespace ExactMatchIndex

/-- The index after adding documents one by one. -/
def addAll (index : ExactMatchIndex) (documents : List Document) : ExactMatchIndex :=
  documents.foldl (fun index document => (add document index).state) index

def ofDocuments (documents : List Document) : ExactMatchIndex := empty.addAll documents

theorem addAll_append (index : ExactMatchIndex) (front back : List Document) :
    index.addAll (front ++ back) = (index.addAll front).addAll back :=
  List.foldl_append

theorem ofDocuments_append (front back : List Document) :
    ofDocuments (front ++ back) = (ofDocuments front).addAll back :=
  addAll_append empty front back

theorem sources_addAll (index : ExactMatchIndex) (documents : List Document) :
    (index.addAll documents).sources = index.sources ++ documents.map Document.source := by
  induction documents using List.reverseRecOn with
  | nil => simp [addAll]
  | append_singleton documents document ih =>
      rw [addAll_append, List.map_append, ← List.append_assoc, ← ih]
      exact (sources_add document _).1

theorem sources_ofDocuments (documents : List Document) :
    (ofDocuments documents).sources = documents.map Document.source :=
  sources_addAll empty documents

/-- The ids of 32 bits suffice for 2^32 documents. -/
theorem holds_addAll {index : ExactMatchIndex} {stored documents : List Document}
    (h : index.Holds stored) (hroom : (stored ++ documents).length ≤ 2 ^ 32) :
    (index.addAll documents).Holds (stored ++ documents) := by
  induction documents using List.reverseRecOn with
  | nil =>
      rw [List.append_nil]
      exact h
  | append_singleton documents document ih =>
      rw [← List.append_assoc, List.length_append, List.length_singleton] at hroom
      rw [addAll_append, ← List.append_assoc]
      exact (holds_add (ih (by omega)) (by omega) document).1

theorem holds_ofDocuments {documents : List Document} (h : documents.length ≤ 2 ^ 32) :
    (ofDocuments documents).Holds documents :=
  holds_addAll holds_empty h

end ExactMatchIndex

/-- The repository holds the indexes of the catalogue and no others. -/
def Represents (repository : InMemoryIndexRepository) (catalogue : Catalogue) : Prop :=
  ∀ uid, repository.indexes[uid]? = (catalogue uid).map fun entry =>
    ⟨entry.1, .ofDocuments entry.2⟩

theorem represents_empty : Represents .empty fun _ => none := fun _ =>
  Std.ExtTreeMap.getElem?_empty

/-! ## The operations of the repository -/

namespace InMemoryIndexRepository

/-- How many allocations copying the metadata makes. -/
def copies (index : IndexMetadata) : ℕ := if index.primaryKey.isSome then 2 else 1

theorem copyMetadata_eq (index : IndexMetadata) (repository : InMemoryIndexRepository) :
    copyMetadata index repository =
      ⟨List.replicate (copies index) repository, index, repository⟩ := by
  by_cases h : index.primaryKey.isSome <;> simp [copyMetadata, copies, bind, allocate, h]

theorem tryEmplace_present {key : Bytes} {index stored : StoredIndex}
    {repository : InMemoryIndexRepository} (h : repository.indexes[key]? = some stored) :
    tryEmplace key index repository = ⟨[], (stored, false), repository⟩ := by
  simp [tryEmplace, bind, getState, h]

theorem tryEmplace_missing {key : Bytes} {index : StoredIndex}
    {repository : InMemoryIndexRepository} (h : repository.indexes[key]? = none) :
    tryEmplace key index repository =
      ⟨[repository], (index, true), { indexes := repository.indexes.insert key index }⟩ := by
  simp [tryEmplace, bind, getState, allocate, modifyState, h]

theorem replicate_one_add {α : Type} (a : α) (n : ℕ) (rest : List α) :
    List.replicate (1 + n) a ++ rest = a :: (List.replicate n a ++ rest) := by
  rw [Nat.add_comm, List.replicate_succ, List.cons_append]

theorem replicate_two_add {α : Type} (a : α) (n : ℕ) (rest : List α) :
    List.replicate (2 + n) a ++ rest = a :: (List.replicate n a ++ a :: rest) := by
  rw [Nat.add_comm, List.replicate_succ, List.replicate_succ']
  simp

theorem add_present (index : IndexMetadata) {repository : InMemoryIndexRepository}
    {stored : StoredIndex} (h : repository.indexes[index.uid.value]? = some stored) :
    add index repository = ⟨List.replicate (2 + copies index) repository ++ [],
      .error ⟨.indexAlreadyExists, alreadyExistsMessage index.uid⟩, repository⟩ := by
  rw [replicate_two_add]
  simp [add, bind, allocate, copyMetadata_eq, tryEmplace_present h]

theorem add_missing (index : IndexMetadata) {repository : InMemoryIndexRepository}
    (h : repository.indexes[index.uid.value]? = none) :
    add index repository = ⟨List.replicate (2 + copies index) repository ++ [], .ok (),
      { indexes := repository.indexes.insert index.uid.value ⟨index, .empty⟩ }⟩ := by
  rw [replicate_two_add]
  simp [add, bind, allocate, copyMetadata_eq, tryEmplace_missing h]

theorem getElem?_setDocumentsAt (uid key : Bytes) (documents : ExactMatchIndex)
    (repository : InMemoryIndexRepository) :
    (setDocumentsAt uid documents repository).indexes[key]? =
      if key = uid then repository.indexes[uid]?.map fun stored => { stored with documents }
      else repository.indexes[key]? := by
  rw [setDocumentsAt, Std.ExtTreeMap.getElem?_modify]
  exact if_congr (by rw [Std.LawfulEqCmp.compare_eq_iff_eq, eq_comm]) rfl rfl

/-- The loop over a batch adds its documents to the index and touches no other. -/
theorem getElem?_forM_addAt {uid : Bytes} {repository : InMemoryIndexRepository}
    {stored : StoredIndex} (h : repository.indexes[uid]? = some stored) (documents : List Document)
    (key : Bytes) :
    (documents.forM (addAt uid) repository).state.indexes[key]? =
      if key = uid then some { stored with documents := stored.documents.addAll documents }
      else repository.indexes[key]? := by
  induction documents generalizing repository stored with
  | nil =>
      split_ifs with hkey
      · rw [hkey]
        exact h
      · rfl
  | cons document documents ih =>
      have hat : documentsAt uid repository = stored.documents := by rw [documentsAt, h]
      have hnext : (addAt uid document repository).state.indexes[uid]? =
          some { stored with
            documents := (ExactMatchIndex.add document stored.documents).state } := by
        change (setDocumentsAt _ _ _).indexes[uid]? = _
        rw [getElem?_setDocumentsAt, if_pos rfl, h, hat]
        rfl
      rw [forM_cons]
      refine (ih hnext).trans ?_
      split_ifs with hkey
      · rfl
      · change (setDocumentsAt _ _ _).indexes[key]? = _
        rw [getElem?_setDocumentsAt, if_neg hkey]

theorem addDocuments_present (index : IndexMetadata) {repository : InMemoryIndexRepository}
    {stored : StoredIndex} (h : repository.indexes[index.uid.value]? = some stored)
    (documents : List Document) :
    addDocuments index documents repository =
      let added := documents.forM (addAt index.uid.value) repository
      ⟨List.replicate (1 + copies index) repository ++
        (added.points ++ List.replicate (copies stored.metadata) added.state),
        .ok stored.metadata, added.state⟩ := by
  simp [addDocuments, bind, allocate, copyMetadata_eq, tryEmplace_present h, replicate_one_add]

theorem addDocuments_missing (index : IndexMetadata) {repository : InMemoryIndexRepository}
    (h : repository.indexes[index.uid.value]? = none) (documents : List Document) :
    addDocuments index documents repository =
      let added := documents.forM (addAt index.uid.value)
        { indexes := repository.indexes.insert index.uid.value ⟨index, .empty⟩ }
      ⟨List.replicate (2 + copies index) repository ++
        (added.points ++ List.replicate (copies index) added.state), .ok index, added.state⟩ := by
  simp [addDocuments, bind, allocate, copyMetadata_eq, tryEmplace_missing h, replicate_two_add]

end InMemoryIndexRepository

/-! ## Refinement -/

open InMemoryIndexRepository

theorem exec_createIndex (now : Timestamp) (command : CreateIndexCommand)
    (repository : InMemoryIndexRepository) :
    (createIndex now command).exec repository =
      let index := indexCreatedAt now command.uid command.primaryKey
      ((InMemoryIndexRepository.add index repository).value.map fun _ => index,
        (InMemoryIndexRepository.add index repository).state) := rfl

theorem exec_addDocuments (now : Timestamp) (command : AddDocumentsCommand)
    (repository : InMemoryIndexRepository) :
    (addDocuments now command).exec repository =
      let stored := InMemoryIndexRepository.addDocuments (indexCreatedAt now command.uid none)
        command.documents repository
      (stored.value.map fun metadata => ⟨command.documents.length, metadata.primaryKey⟩,
        stored.state) := rfl

theorem run_create_taken {command : CreateIndexCommand} {repository : InMemoryIndexRepository}
    {stored : StoredIndex} (h : repository.indexes[command.uid.value]? = some stored)
    (now : Timestamp) : (Call.create command).run now repository =
      (.created (.error ⟨.indexAlreadyExists, alreadyExistsMessage command.uid⟩), repository) := by
  simp only [Call.run, exec_createIndex,
    add_present (indexCreatedAt now command.uid command.primaryKey) h]
  rfl

theorem run_create_free {command : CreateIndexCommand} {repository : InMemoryIndexRepository}
    (h : repository.indexes[command.uid.value]? = none) (now : Timestamp) :
    (Call.create command).run now repository =
      let index := indexCreatedAt now command.uid command.primaryKey
      (.created (.ok index),
        { indexes := repository.indexes.insert command.uid.value ⟨index, .empty⟩ }) := by
  simp only [Call.run, exec_createIndex,
    add_missing (indexCreatedAt now command.uid command.primaryKey) h]
  rfl

/-- The index that documents for a uid go to, which is new if it is missing. -/
def storedOrNew (repository : InMemoryIndexRepository) (now : Timestamp) (uid : IndexUid) :
    StoredIndex :=
  (repository.indexes[uid.value]?).getD ⟨indexCreatedAt now uid none, .empty⟩

/-- Adding documents touches their index only, and answers with its primary key. -/
theorem exec_addDocuments_eq (now : Timestamp) (command : AddDocumentsCommand)
    (repository : InMemoryIndexRepository) :
    let stored := storedOrNew repository now command.uid
    ((addDocuments now command).exec repository).1 =
      .ok ⟨command.documents.length, stored.metadata.primaryKey⟩ ∧
    ∀ key, ((addDocuments now command).exec repository).2.indexes[key]? =
      if key = command.uid.value then
        some ⟨stored.metadata, stored.documents.addAll command.documents⟩
      else repository.indexes[key]? := by
  rw [exec_addDocuments, storedOrNew]
  cases h : repository.indexes[command.uid.value]? with
  | some stored =>
      rw [addDocuments_present (indexCreatedAt now command.uid none) h]
      exact ⟨rfl, getElem?_forM_addAt h command.documents⟩
  | none =>
      rw [addDocuments_missing (indexCreatedAt now command.uid none) h]
      refine ⟨rfl, fun key => ?_⟩
      refine (getElem?_forM_addAt (by rw [getElem?_insert, if_pos rfl]) command.documents
        key).trans ?_
      change (if key = command.uid.value then _ else _) = if key = command.uid.value then _ else _
      split_ifs with hkey
      · rfl
      · rw [getElem?_insert]
        exact if_neg hkey

theorem run_ingest_reply (command : AddDocumentsCommand) (now : Timestamp)
    (repository : InMemoryIndexRepository) :
    ((Call.ingest command).run now repository).1 = .ingested (.ok ⟨command.documents.length,
      (storedOrNew repository now command.uid).metadata.primaryKey⟩) :=
  congrArg Reply.ingested (exec_addDocuments_eq now command repository).1

/-- One call: the same answer, and the catalogue is represented again. -/
theorem represents_run {repository : InMemoryIndexRepository} {catalogue : Catalogue}
    (h : Represents repository catalogue) (call : Call) (now : Timestamp) :
    (call.run now repository).1 = catalogue.reply (call, now) ∧
      Represents (call.run now repository).2 (catalogue.after (call, now)) := by
  have huid := h call.uid.value
  have hafter : ∀ uid, catalogue.after (call, now) uid = if uid = call.uid.value then
      (match catalogue call.uid.value with
        | some (metadata, documents) => some (metadata, documents ++ documentsOf call)
        | none => some (metadataOf (call, now), documentsOf call))
      else catalogue uid := fun uid => by
    rw [Catalogue.after, Catalogue.extend, Function.update_apply, uid_metadataOf]
  cases call with
  | create command =>
      cases hentry : catalogue command.uid.value with
      | some entry =>
          rw [Call.uid, hentry] at huid
          rw [run_create_taken huid]
          refine ⟨by simp [Catalogue.reply, Call.uid, hentry], fun uid => ?_⟩
          rw [hafter, Call.uid, hentry, h]
          split_ifs with hkey
          · simp [hkey, hentry, documentsOf]
          · rfl
      | none =>
          rw [Call.uid, hentry] at huid
          rw [run_create_free huid]
          refine ⟨by simp [Catalogue.reply, Call.uid, hentry, metadataOf], fun uid => ?_⟩
          rw [hafter, Call.uid, hentry, getElem?_insert]
          split_ifs with hkey
          · rfl
          · exact h uid
  | ingest command =>
      rw [Call.uid] at huid
      constructor
      · rw [run_ingest_reply, storedOrNew, huid]
        cases hentry : catalogue command.uid.value with
        | some entry => simp [Catalogue.reply, Call.uid, hentry]
        | none => simp [Catalogue.reply, Call.uid, hentry, indexCreatedAt]
      · intro uid
        refine ((exec_addDocuments_eq now command repository).2 uid).trans ?_
        rw [storedOrNew, huid, hafter, Call.uid]
        split_ifs with hkey
        · cases hentry : catalogue command.uid.value with
          | some entry => simp [documentsOf, ExactMatchIndex.ofDocuments_append]
          | none => rfl
        · exact h uid

/-! ## Runs -/

/-- The catalogue that a history of calls makes, from nothing. -/
def catalogueOf (history : List (Call × Timestamp)) : Catalogue :=
  history.foldl Catalogue.after fun _ => none

theorem represents_runCalls (history : List (Call × Timestamp)) :
    Represents (runCalls history .empty) (catalogueOf history) := by
  induction history using List.reverseRecOn with
  | nil => exact represents_empty
  | append_singleton history entry ih =>
      rw [runCalls, catalogueOf, List.foldl_append, List.foldl_append]
      exact (represents_run ih entry.1 entry.2).2

/-- The entry's call is for the uid. -/
def IsFor (uid : Bytes) (entry : Call × Timestamp) : Bool := entry.1.uid.value == uid

/-- All documents of the calls for the uid, batch after batch. -/
def batchesFor (uid : Bytes) (history : List (Call × Timestamp)) : List Document :=
  (history.filter (IsFor uid)).flatMap fun entry => documentsOf entry.1

/-- The first call for a uid makes the index, and every call for it adds its documents. -/
theorem catalogueOf_eq (history : List (Call × Timestamp)) (uid : Bytes) :
    catalogueOf history uid =
      (history.find? (IsFor uid)).map fun entry => (metadataOf entry, batchesFor uid history) := by
  induction history using List.reverseRecOn with
  | nil => rfl
  | append_singleton history entry ih =>
      rw [catalogueOf, List.foldl_append, List.foldl_cons, List.foldl_nil, ← catalogueOf,
        Catalogue.after, Catalogue.extend, Function.update_apply, uid_metadataOf,
        List.find?_append, batchesFor, List.filter_append, List.flatMap_append, ← batchesFor]
      split_ifs with hkey
      · have hfor : IsFor uid entry := by simp [IsFor, hkey]
        rw [← hkey, ih]
        cases hfirst : history.find? (IsFor uid) with
        | some first => simp [hfor]
        | none =>
            have hnone : batchesFor uid history = [] := by
              rw [batchesFor, List.filter_eq_nil_iff.mpr (by simpa using hfirst)]
              rfl
            simp [hfor, hnone]
      · have hfor : IsFor uid entry = false := by simp [IsFor, Ne.symm hkey]
        rw [ih]
        simp [hfor]

/-- What a history of calls leaves behind. -/
theorem getElem?_runCalls (history : List (Call × Timestamp)) (uid : Bytes) :
    (runCalls history .empty).indexes[uid]? = (history.find? (IsFor uid)).map fun entry =>
      ⟨metadataOf entry, .ofDocuments (batchesFor uid history)⟩ := by
  rw [represents_runCalls history uid, catalogueOf_eq, Option.map_map]
  rfl

end Leta
