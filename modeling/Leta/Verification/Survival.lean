import Leta.Verification.Marks

/-! # What survives

Whatever allocations of whatever operations on the repository fail: a document that was stored
stays stored, and is found by each of its words. -/

namespace Leta

open Allocating

namespace InMemoryIndexRepository

open ExactMatchIndex (AddEvent calls Extends)

/-- How an operation on an index ended. -/
inductive RepositoryEvent where
  | added (index : IndexMetadata)
  | addThrew (index : IndexMetadata)
  | ingested (indexIfMissing : IndexMetadata) (documents : List Document)
  | ingestThrew (indexIfMissing : IndexMetadata) (documents : List Document)

namespace RepositoryEvent

def index : RepositoryEvent → IndexMetadata
  | .added index | .addThrew index | .ingested index _ | .ingestThrew index _ => index

def uid (event : RepositoryEvent) : Bytes := event.index.uid.value

def Threw : RepositoryEvent → Prop
  | .addThrew _ | .ingestThrew _ _ => True
  | .added _ | .ingested _ _ => False

end RepositoryEvent

/-- Operations from the empty repository. Any of their allocations may throw. -/
def operations : Machine InMemoryIndexRepository RepositoryEvent where
  Initial repository := repository = empty
  Step repository event after := match event with
    | .added index => ∃ failure result, (add index).run repository failure = .returned result after
    | .addThrew index => ∃ k, (add index).run repository (some k) = .thrown after
    | .ingested index documents => ∃ failure result,
        (addDocuments index documents).run repository failure = .returned result after
    | .ingestThrew index documents => ∃ k,
        (addDocuments index documents).run repository (some k) = .thrown after

/-- What an operation does to the documents of its index: a batch that throws adds its first
documents, and may break off within the next one. -/
inductive Does : RepositoryEvent → List AddEvent → Prop where
  | added (index) : Does (.added index) []
  | addThrew (index) : Does (.addThrew index) []
  | ingested (index documents) : Does (.ingested index documents) (documents.map .returned)
  | between (index) {documents front} : front <+: documents →
      Does (.ingestThrew index documents) (front.map .returned)
  | within (index) {documents front document} : front ++ [document] <+: documents →
      Does (.ingestThrew index documents) (front.map .returned ++ [.threw document])

/-- What an operation does to its index, which it may create. -/
inductive Affects (event : RepositoryEvent) : Option StoredIndex → Option StoredIndex → Prop where
  | nothing : Does event [] → event.Threw → Affects event none none
  | created {part documents} : Does event part → calls.Path .empty part documents →
      Affects event none (some ⟨event.index, documents⟩)
  | extended {stored part documents} : Does event part →
      calls.Path stored.documents part documents →
      Affects event (some stored) (some { stored with documents })

/-! ## One operation -/

theorem path_addAll (index : ExactMatchIndex) (documents : List Document) :
    calls.Path index (documents.map .returned) (index.addAll documents) := by
  induction documents using List.reverseRecOn with
  | nil => exact .refl
  | append_singleton documents document ih =>
      rw [List.map_append, ExactMatchIndex.addAll_append]
      exact ih.step ⟨none, _, rfl⟩

/-- An operation that leaves the repository alone. -/
theorem affects_unchanged {event : RepositoryEvent} (hdoes : Does event [])
    (hthrew : event.Threw) (before : Option StoredIndex) : Affects event before before := by
  cases before with
  | none => exact .nothing hdoes hthrew
  | some stored => exact .extended hdoes .refl

/-- The points of the loop over a batch. -/
theorem loop_points {uid : Bytes} {repository after : InMemoryIndexRepository}
    {stored : StoredIndex} (h : repository.indexes[uid]? = some stored)
    {documents : List Document}
    (hafter : after ∈ (documents.forM (addAt uid) repository).points) :
    ∃ front document documents', front ++ [document] <+: documents ∧
      calls.Path stored.documents (front.map .returned ++ [.threw document]) documents' ∧
      ∀ key, after.indexes[key]? = if key = uid then some { stored with documents := documents' }
        else repository.indexes[key]? := by
  obtain ⟨front, document, rest, rfl, hpoint⟩ := mem_points_forM hafter
  have hfront := getElem?_forM_addAt h front
  have hstored := (hfront uid).trans (if_pos rfl)
  rw [points_addAt, documentsAt_eq hstored] at hpoint
  obtain ⟨documents', hdocuments, rfl⟩ := List.mem_map.mp hpoint
  obtain ⟨k, hk⟩ := List.mem_iff_getElem?.mp hdocuments
  refine ⟨front, document, documents', ⟨rest, by simp⟩, ?_, fun key => ?_⟩
  · exact (path_addAll stored.documents front).step ⟨k, run_eq_thrown.mpr hk⟩
  · rw [getElem?_setDocumentsAt, hfront, hfront, if_pos rfl]
    split_ifs <;> rfl

/-- A batch that throws in an index that is there, or that it has created. -/
theorem batch_points {uid : Bytes} (repository : InMemoryIndexRepository)
    {after : InMemoryIndexRepository} {stored : StoredIndex}
    (h : repository.indexes[uid]? = some stored) (index : IndexMetadata)
    {documents : List Document} {copied : ℕ}
    (hafter : after ∈ (documents.forM (addAt uid) repository).points ++
      List.replicate copied (documents.forM (addAt uid) repository).state) :
    ∃ part documents', Does (.ingestThrew index documents) part ∧
      calls.Path stored.documents part documents' ∧
      ∀ key, after.indexes[key]? = if key = uid then some { stored with documents := documents' }
        else repository.indexes[key]? := by
  rcases List.mem_append.mp hafter with hafter | hafter
  · obtain ⟨front, document, documents', hfront, hpath, hkeys⟩ := loop_points h hafter
    exact ⟨_, documents', .within index hfront, hpath, hkeys⟩
  · rw [List.eq_of_mem_replicate hafter]
    exact ⟨_, _, .between index List.prefix_rfl, path_addAll stored.documents documents,
      getElem?_forM_addAt h documents⟩

/-- The operation affects its own index and no other. -/
def AffectsOnly (event : RepositoryEvent) (repository after : InMemoryIndexRepository) : Prop :=
  Affects event repository.indexes[event.uid]? after.indexes[event.uid]? ∧
    ∀ key ≠ event.uid, after.indexes[key]? = repository.indexes[key]?

theorem affectsOnly_unchanged (repository : InMemoryIndexRepository) {event : RepositoryEvent}
    (hdoes : Does event []) (hthrew : event.Threw) : AffectsOnly event repository repository :=
  ⟨affects_unchanged hdoes hthrew _, fun _ _ => rfl⟩

/-- An operation on an index that is there. -/
theorem affectsOnly_extended {repository after : InMemoryIndexRepository} {event : RepositoryEvent}
    {stored : StoredIndex} {part : List AddEvent} {documents : ExactMatchIndex}
    (hstored : repository.indexes[event.uid]? = some stored) (hdoes : Does event part)
    (hpath : calls.Path stored.documents part documents)
    (hkeys : ∀ key, after.indexes[key]? = if key = event.uid
      then some { stored with documents } else repository.indexes[key]?) :
    AffectsOnly event repository after := by
  constructor
  · rw [hstored, hkeys, if_pos rfl]
    exact .extended hdoes hpath
  · intro key hkey
    rw [hkeys, if_neg hkey]

/-- An operation that creates its index. -/
theorem affectsOnly_created {repository after : InMemoryIndexRepository} {event : RepositoryEvent}
    {part : List AddEvent} {documents : ExactMatchIndex}
    (hmissing : repository.indexes[event.uid]? = none) (hdoes : Does event part)
    (hpath : calls.Path .empty part documents)
    (hkeys : ∀ key, after.indexes[key]? = if key = event.uid
      then some ⟨event.index, documents⟩
      else (repository.indexes.insert event.uid ⟨event.index, .empty⟩)[key]?) :
    AffectsOnly event repository after := by
  constructor
  · rw [hmissing, hkeys, if_pos rfl]
    exact .created hdoes hpath
  · intro key hkey
    rw [hkeys, if_neg hkey, getElem?_insert, if_neg hkey]

/-- What adding a batch starts from. -/
theorem getElem?_created (repository : InMemoryIndexRepository) (index : IndexMetadata) :
    (repository.indexes.insert index.uid.value ⟨index, .empty⟩)[index.uid.value]? =
      some ⟨index, .empty⟩ :=
  (getElem?_insert _ _ _ _).trans (if_pos rfl)

theorem affects_added (repository : InMemoryIndexRepository) (index : IndexMetadata) :
    AffectsOnly (.added index) repository (add index repository).state := by
  cases hstored : repository.indexes[index.uid.value]? with
  | some stored =>
      rw [add_present _ hstored]
      apply affectsOnly_extended hstored (.added index) .refl
      intro key
      split_ifs with hkey
      · rw [hkey]
        exact hstored
      · rfl
  | none =>
      rw [add_missing _ hstored]
      apply affectsOnly_created hstored (.added index) .refl
      intro key
      split_ifs with hkey
      · rw [hkey]
        exact getElem?_created repository index
      · rfl

theorem affects_ingested (repository : InMemoryIndexRepository) (index : IndexMetadata)
    (documents : List Document) : AffectsOnly (.ingested index documents) repository
      (addDocuments index documents repository).state := by
  cases hstored : repository.indexes[index.uid.value]? with
  | some stored =>
      rw [addDocuments_present _ hstored]
      exact affectsOnly_extended hstored (.ingested index documents) (path_addAll _ _)
        (getElem?_forM_addAt hstored documents)
  | none =>
      rw [addDocuments_missing _ hstored]
      exact affectsOnly_created hstored (.ingested index documents) (path_addAll _ _)
        (getElem?_forM_addAt (getElem?_created repository index) documents)

theorem affects_ingestThrew {repository after : InMemoryIndexRepository} {index : IndexMetadata}
    {documents : List Document} (h : after ∈ (addDocuments index documents repository).points) :
    AffectsOnly (.ingestThrew index documents) repository after := by
  have hbefore : Does (.ingestThrew index documents) [] := .between index List.nil_prefix
  cases hstored : repository.indexes[index.uid.value]? with
  | some stored =>
      rw [addDocuments_present _ hstored] at h
      rcases List.mem_append.mp h with h | h
      · rw [List.eq_of_mem_replicate h]
        exact affectsOnly_unchanged repository hbefore trivial
      · obtain ⟨part, documents', hdoes, hpath, hkeys⟩ := batch_points _ hstored index h
        exact affectsOnly_extended hstored hdoes hpath hkeys
  | none =>
      rw [addDocuments_missing _ hstored] at h
      rcases List.mem_append.mp h with h | h
      · rw [List.eq_of_mem_replicate h]
        exact affectsOnly_unchanged repository hbefore trivial
      · obtain ⟨part, documents', hdoes, hpath, hkeys⟩ := batch_points
          ⟨repository.indexes.insert index.uid.value ⟨index, .empty⟩⟩
          (getElem?_created repository index) index h
        exact affectsOnly_created hstored hdoes hpath hkeys

theorem affects_step {repository after : InMemoryIndexRepository} {event : RepositoryEvent}
    (h : operations.Step repository event after) : AffectsOnly event repository after := by
  cases event with
  | added index =>
      obtain ⟨failure, result, hrun⟩ := h
      rw [(run_eq_returned hrun).2]
      exact affects_added repository index
  | addThrew index =>
      obtain ⟨k, hrun⟩ := h
      rw [points_add (List.mem_of_getElem? (run_eq_thrown.mp hrun))]
      exact affectsOnly_unchanged repository (.addThrew index) trivial
  | ingested index documents =>
      obtain ⟨failure, result, hrun⟩ := h
      rw [(run_eq_returned hrun).2]
      exact affects_ingested repository index documents
  | ingestThrew index documents =>
      obtain ⟨k, hrun⟩ := h
      exact affects_ingestThrew (List.mem_of_getElem? (run_eq_thrown.mp hrun))

/-! ## Runs -/

def eventsFor (uid : Bytes) (events : List RepositoryEvent) : List RepositoryEvent :=
  events.filter fun event => event.uid = uid

/-- What the operations on an index have come to. -/
inductive Amounts (events : List RepositoryEvent) (parts : List (List AddEvent)) :
    Option StoredIndex → Prop where
  | missing : parts.flatten = [] → (∀ event ∈ events, event.Threw) → Amounts events parts none
  | present {stored} : calls.Run parts.flatten stored.documents →
      (∃ event ∈ events, event.index = stored.metadata) → Amounts events parts (some stored)

theorem amounts_affects {events : List RepositoryEvent} {parts : List (List AddEvent)}
    {event : RepositoryEvent} {before after : Option StoredIndex}
    (hdoes : List.Forall₂ Does events parts) (h : Amounts events parts before)
    (haffects : Affects event before after) :
    ∃ parts', List.Forall₂ Does (events ++ [event]) parts' ∧
      Amounts (events ++ [event]) parts' after := by
  cases haffects with
  | nothing hevent hthrew =>
      cases h with
      | missing hparts hall =>
          refine ⟨parts ++ [[]], List.rel_append hdoes (.cons hevent .nil), .missing ?_ ?_⟩
          · simp [hparts]
          · intro other hother
            rcases List.mem_append.mp hother with hother | hother
            · exact hall other hother
            · rw [List.mem_singleton.mp hother]
              exact hthrew
  | @created part documents hevent hpath =>
      cases h with
      | missing hparts hall =>
          refine ⟨parts ++ [part], List.rel_append hdoes (.cons hevent .nil), .present ?_
            ⟨event, by simp, rfl⟩⟩
          rw [List.flatten_append, hparts, List.nil_append, List.flatten_singleton]
          exact Machine.Run.append (.start rfl) hpath
  | @extended stored part documents hevent hpath =>
      cases h with
      | present hrun hmetadata =>
          obtain ⟨other, hother, hindex⟩ := hmetadata
          refine ⟨parts ++ [part], List.rel_append hdoes (.cons hevent .nil), .present ?_
            ⟨other, List.mem_append_left _ hother, hindex⟩⟩
          rw [List.flatten_append, List.flatten_singleton]
          exact hrun.append hpath

theorem amounts_run {events : List RepositoryEvent} {repository : InMemoryIndexRepository}
    (h : operations.Run events repository) (uid : Bytes) :
    ∃ parts, List.Forall₂ Does (eventsFor uid events) parts ∧
      Amounts (eventsFor uid events) parts repository.indexes[uid]? := by
  induction h with
  | start hinitial =>
      rw [hinitial]
      exact ⟨[], .nil, by
        rw [empty, Std.ExtTreeMap.getElem?_empty]
        exact .missing rfl (by simp [eventsFor])⟩
  | @step events repository event after _ hstep ih =>
      obtain ⟨parts, hdoes, hamounts⟩ := ih
      obtain ⟨haffects, hothers⟩ := affects_step hstep
      by_cases huid : event.uid = uid
      · have hevents : eventsFor uid (events ++ [event]) = eventsFor uid events ++ [event] := by
          simp [eventsFor, huid]
        rw [hevents]
        rw [huid] at haffects
        exact amounts_affects hdoes hamounts haffects
      · have hevents : eventsFor uid (events ++ [event]) = eventsFor uid events := by
          simp [eventsFor, huid]
        rw [hevents, hothers uid (Ne.symm huid)]
        exact ⟨parts, hdoes, hamounts⟩

/-- An index that is there stays there, with its metadata and at least its documents. -/
theorem kept_path {repository after : InMemoryIndexRepository} {events : List RepositoryEvent}
    (h : operations.Path repository events after) {uid : Bytes} {stored : StoredIndex}
    (hstored : repository.indexes[uid]? = some stored) :
    ∃ stored', after.indexes[uid]? = some stored' ∧ stored'.metadata = stored.metadata ∧
      Extends stored.documents stored'.documents := by
  induction h with
  | refl => exact ⟨stored, hstored, rfl, .refl _⟩
  | @step events before event after _ hstep ih =>
      obtain ⟨stored', hstored', hmetadata, hextends⟩ := ih
      obtain ⟨haffects, hothers⟩ := affects_step hstep
      by_cases huid : uid = event.uid
      · subst huid
        rw [hstored'] at haffects
        generalize hafter : after.indexes[event.uid]? = found at haffects
        cases haffects with
        | extended hdoes hpath =>
            exact ⟨_, rfl, hmetadata, hextends.trans (ExactMatchIndex.extends_path hpath)⟩
      · rw [hothers uid huid]
        exact ⟨stored', hstored', hmetadata, hextends⟩

/-- What an index holds after a run, given what its operations did: the documents that were added,
each found by each of its words, and perhaps words of documents whose adding threw. -/
structure StaysStored (events : List RepositoryEvent) (stored : StoredIndex)
    (parts : List (List AddEvent)) : Prop where
  does : List.Forall₂ Does events parts
  metadata : ∃ event ∈ events, event.index = stored.metadata
  sources : stored.documents.sources =
    (ExactMatchIndex.stored parts.flatten).map Document.source
  found : ∀ i (hi : i < (ExactMatchIndex.stored parts.flatten).length) term,
    (ExactMatchIndex.stored parts.flatten)[i].HasWord term →
    UInt32.ofNat i ∈ stored.documents.documentsContaining term
  recorded : ∀ term, ∀ id ∈ stored.documents.documentsContaining term,
    ∃ before event after, parts.flatten = before ++ event :: after ∧
      id = UInt32.ofNat (ExactMatchIndex.stored before).length ∧ event.document.HasWord term

/-- Whatever allocations of whatever operations throw: what was stored stays stored, and is found
by its words. -/
theorem survives_out_of_memory {events : List RepositoryEvent}
    {repository : InMemoryIndexRepository} (h : operations.Run events repository) (uid : Bytes) :
    (repository.indexes[uid]? = none → ∀ event ∈ eventsFor uid events, event.Threw) ∧
    ∀ stored, repository.indexes[uid]? = some stored →
      (∃ parts, StaysStored (eventsFor uid events) stored parts) ∧
      ∀ more after, operations.Path repository more after →
        ∃ stored', after.indexes[uid]? = some stored' ∧ stored'.metadata = stored.metadata ∧
          Extends stored.documents stored'.documents := by
  obtain ⟨parts, hdoes, hamounts⟩ := amounts_run h uid
  constructor
  · intro hnone
    rw [hnone] at hamounts
    cases hamounts with
    | missing _ hthrew => exact hthrew
  · intro stored hstored
    refine ⟨?_, fun more after hpath => kept_path hpath hstored⟩
    rw [hstored] at hamounts
    cases hamounts with
    | present hrun hmetadata =>
        obtain ⟨marks, hmarks⟩ := ExactMatchIndex.exists_isMarked hrun
        refine ⟨parts, hdoes, hmetadata, hmarks.sources, fun i hi term hword => ?_,
          fun term id hid => ?_⟩
        · rw [hmarks.postings, mem_destutter]
          exact hmarks.calls.mem_of_stored i hi hword
        · rw [hmarks.postings, mem_destutter] at hid
          exact hmarks.calls.exists_call hid

/-- Two documents that share a word. -/
def wordsBatch : List Document :=
  [⟨ascii "\x7b\"k\":\"b c\"\x7d", [ascii "b c"]⟩,
    ⟨ascii "\x7b\"k\":\"c d\"\x7d", [ascii "c d"]⟩]

/-- The allocation of the second document's second word. Its first word is recorded by then. -/
theorem exists_wordsBatch_threw : ∃ failed,
    (addDocuments lettersIndex wordsBatch).run empty (some 17) = .thrown failed := by
  have hpoints : 17 < (addDocuments lettersIndex wordsBatch empty).points.length := by
    decide +kernel
  exact ⟨_, run_eq_thrown.mpr (List.getElem?_eq_getElem hpoints)⟩

/-- A batch throws at its second document, and is sent again. -/
theorem survives_out_of_memory_retried : ∃ repository stored parts,
    operations.Run [.ingestThrew lettersIndex wordsBatch, .ingested lettersIndex wordsBatch]
      repository ∧
    repository.indexes[ascii "a"]? = some stored ∧
    StaysStored [.ingestThrew lettersIndex wordsBatch, .ingested lettersIndex wordsBatch] stored
      parts := by
  have hstart : operations.Run [] empty := .start rfl
  obtain ⟨failed, hfailed⟩ := exists_wordsBatch_threw
  have hthrew : operations.Step empty (.ingestThrew lettersIndex wordsBatch) failed :=
    ⟨17, hfailed⟩
  have hreturned : operations.Step failed (.ingested lettersIndex wordsBatch)
      (addDocuments lettersIndex wordsBatch failed).state := ⟨none, _, rfl⟩
  have hrun := (hstart.step hthrew).step hreturned
  have hevents : eventsFor (ascii "a") ([] ++ [.ingestThrew lettersIndex wordsBatch] ++
      [.ingested lettersIndex wordsBatch]) =
        [.ingestThrew lettersIndex wordsBatch, .ingested lettersIndex wordsBatch] := rfl
  obtain ⟨hnone, hsome⟩ := survives_out_of_memory hrun (ascii "a")
  rw [hevents] at hnone hsome
  cases hstored : (addDocuments lettersIndex wordsBatch failed).state.indexes[ascii "a"]? with
  | none => exact absurd (hnone hstored (.ingested lettersIndex wordsBatch) (by simp)) id
  | some stored =>
      obtain ⟨⟨parts, hparts⟩, -⟩ := hsome stored hstored
      exact ⟨_, stored, parts, hrun, hstored, hparts⟩

end InMemoryIndexRepository

end Leta
