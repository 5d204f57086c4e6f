import Leta.Http.Interruptions
import Leta.Verification.Determinacy
import Leta.Verification.Survival

/-! # What the server has acknowledged

Any handler may run out of memory, at any allocation. What a response has said stays true all the
same. -/

namespace Leta

open Allocating Httplib Json Ondemand

/-! ## What an index stores -/

namespace ExactMatchIndex

/-- The document stands at a position, and is found there by each of its words. -/
def StoresAt (index : ExactMatchIndex) (position : ℕ) (document : Document) : Prop :=
  index.sources[position]? = some document.source ∧
    ∀ term, document.HasWord term → UInt32.ofNat position ∈ index.documentsContaining term

theorem Extends.storesAt {before after : ExactMatchIndex} (h : Extends before after)
    {position : ℕ} {document : Document} (hstores : before.StoresAt position document) :
    after.StoresAt position document := by
  constructor
  · obtain ⟨rest, hrest⟩ := h.sources
    rw [← hrest, List.getElem?_append_left (List.getElem?_eq_some_iff.mp hstores.1).1]
    exact hstores.1
  · intro term hword
    exact (h.postings term).subset (hstores.2 term hword)

theorem storesAt_add (document : Document) (index : ExactMatchIndex) :
    (add document index).state.StoresAt index.sources.length document := by
  obtain ⟨⟨marked, hmarked, hstate⟩, -⟩ := marked_add document index
  rw [hstate]
  constructor
  · simp [hmarked.sources]
  · intro term hword
    change _ ∈ marked.documentsContaining term
    rw [hmarked.documentsContaining, if_pos (mem_wordsOf.mpr hword), mem_endWith]
    exact .inr rfl

theorem storesAt_addAll (index : ExactMatchIndex) (documents : List Document) (i : ℕ)
    (hi : i < documents.length) :
    (index.addAll documents).StoresAt (index.sources.length + i) documents[i] := by
  induction documents using List.reverseRecOn with
  | nil => simp at hi
  | append_singleton documents document ih =>
      rw [addAll_append]
      change StoresAt (add document (index.addAll documents)).state _ _
      have hstep : calls.Step (index.addAll documents) (.returned document)
          (add document (index.addAll documents)).state := ⟨none, _, rfl⟩
      have hlast := storesAt_add document (index.addAll documents)
      rw [List.length_append, List.length_singleton] at hi
      by_cases hlt : i < documents.length
      · rw [List.getElem_append_left hlt]
        exact (extends_step hstep).storesAt (ih hlt)
      · obtain rfl : i = documents.length := by omega
        rw [List.getElem_append_right le_rfl]
        rw [sources_addAll, List.length_append, List.length_map] at hlast
        simpa using hlast

theorem sources_path {index after : ExactMatchIndex} {events : List AddEvent}
    (h : calls.Path index events after) :
    after.sources = index.sources ++ (stored events).map Document.source := by
  induction h with
  | refl => simp [stored]
  | @step events middle event after _ hstep ih =>
      cases event with
      | returned document =>
          obtain ⟨failure, documentId, hrun⟩ := hstep
          obtain ⟨-, rfl⟩ := run_eq_returned hrun
          rw [(sources_add document middle).1, ih]
          simp [stored]
      | threw document =>
          obtain ⟨k, hrun⟩ := hstep
          obtain ⟨done, -, hmarked⟩ :=
            (marked_add document middle).2 after (List.mem_of_getElem? (run_eq_thrown.mp hrun))
          rw [hmarked.sources, ih]
          simp [stored]

end ExactMatchIndex

namespace InMemoryIndexRepository

open ExactMatchIndex (AddEvent)

/-- How many documents are stored under the uid. -/
def count (repository : InMemoryIndexRepository) (uid : Bytes) : ℕ :=
  (documentsAt uid repository).sources.length

theorem count_of_stored {repository : InMemoryIndexRepository} {uid : Bytes} {stored : StoredIndex}
    (h : repository.indexes[uid]? = some stored) :
    repository.count uid = stored.documents.sources.length := by
  rw [count, documentsAt, h]

theorem count_eq_storedOrNew (repository : InMemoryIndexRepository) (now : Timestamp)
    (uid : IndexUid) :
    repository.count uid.value = (storedOrNew repository now uid).documents.sources.length := by
  rw [count, documentsAt, storedOrNew]
  cases repository.indexes[uid.value]? <;> rfl

def RepositoryEvent.documents : RepositoryEvent → List Document
  | .added _ | .addThrew _ => []
  | .ingested _ documents | .ingestThrew _ documents => documents

theorem Does.stored_subset {event : RepositoryEvent} {part : List AddEvent} (h : Does event part) :
    ExactMatchIndex.stored part ⊆ event.documents := by
  have hreturned : ∀ documents : List Document,
      ExactMatchIndex.stored (documents.map .returned) = documents :=
    ExactMatchIndex.stored_returned
  cases h with
  | added _ | addThrew _ => exact List.Subset.refl _
  | ingested _ documents =>
      rw [hreturned]
      exact List.Subset.refl _
  | between _ hfront =>
      rw [hreturned]
      exact hfront.subset
  | @within _ documents front document hfront =>
      have hstored : ExactMatchIndex.stored (front.map .returned ++ [.threw document]) = front := by
        rw [← hreturned front]
        simp [ExactMatchIndex.stored]
      rw [hstored]
      exact fun document hdocument => hfront.subset (List.mem_append_left _ hdocument)

/-- What an operation stores is what was there, and documents of its own. -/
theorem sources_step {repository after : InMemoryIndexRepository} {event : RepositoryEvent}
    (h : operations.Step repository event after) {uid : Bytes} {stored' : StoredIndex}
    (hstored' : after.indexes[uid]? = some stored') :
    ∀ source ∈ stored'.documents.sources,
      (∃ stored, repository.indexes[uid]? = some stored ∧ source ∈ stored.documents.sources) ∨
      event.uid = uid ∧ ∃ document ∈ event.documents, document.source = source := by
  intro source hsource
  obtain ⟨haffects, hothers⟩ := affects_step h
  by_cases huid : uid = event.uid
  · subst huid
    rw [hstored'] at haffects
    generalize hbefore : repository.indexes[event.uid]? = before at haffects
    cases haffects with
    | created hdoes hpath =>
        rw [ExactMatchIndex.sources_path hpath] at hsource
        obtain ⟨document, hdocument, hsource⟩ := List.mem_map.mp hsource
        exact .inr ⟨rfl, document, hdoes.stored_subset hdocument, hsource⟩
    | @extended stored part documents hdoes hpath =>
        rw [ExactMatchIndex.sources_path hpath] at hsource
        rcases List.mem_append.mp hsource with hsource | hsource
        · exact .inl ⟨stored, rfl, hsource⟩
        · obtain ⟨document, hdocument, hsource⟩ := List.mem_map.mp hsource
          exact .inr ⟨rfl, document, hdoes.stored_subset hdocument, hsource⟩
  · rw [hothers uid huid] at hstored'
    exact .inl ⟨stored', hstored', hsource⟩

end InMemoryIndexRepository

/-! ## Calls that may throw -/

namespace Call

open InMemoryIndexRepository (RepositoryEvent operations)

def returned (call : Call) (now : Timestamp) : RepositoryEvent :=
  match call with
  | .create _ => .added (metadataOf (call, now))
  | .ingest command => .ingested (metadataOf (call, now)) command.documents

def threw (call : Call) (now : Timestamp) : RepositoryEvent :=
  match call with
  | .create _ => .addThrew (metadataOf (call, now))
  | .ingest command => .ingestThrew (metadataOf (call, now)) command.documents

theorem step_returned (call : Call) (now : Timestamp) (repository : InMemoryIndexRepository) :
    operations.Step repository (call.returned now) (call.run now repository).2 := by
  cases call with
  | create command => exact ⟨none, _, rfl⟩
  | ingest command => exact ⟨none, _, rfl⟩

theorem step_threw (call : Call) {now : Timestamp} {repository after : InMemoryIndexRepository}
    (h : after ∈ call.points now repository) :
    operations.Step repository (call.threw now) after := by
  cases call with
  | create command =>
      change after ∈ (InMemoryIndexRepository.add _ repository).points ++ [] at h
      rw [List.append_nil] at h
      obtain ⟨k, hk⟩ := List.mem_iff_getElem?.mp h
      exact ⟨k, run_eq_thrown.mpr hk⟩
  | ingest command =>
      change after ∈ (InMemoryIndexRepository.addDocuments _ _ repository).points ++ [] at h
      rw [List.append_nil] at h
      obtain ⟨k, hk⟩ := List.mem_iff_getElem?.mp h
      exact ⟨k, run_eq_thrown.mpr hk⟩

end Call

/-! ## One message -/

variable {S : Ondemand} {library : Library} {ε : Type} {draw : ε → UInt64 × ε}

theorem Reply.body_ne_nil (reply : Reply) (received elapsed : ℕ) :
    (reply.response received elapsed).body ≠ [] := by
  cases reply with
  | created result =>
      cases result with
      | ok index =>
          change indexJson index ≠ []
          rw [body_indexJson]
          exact List.cons_ne_nil _ _
      | error error => exact body_errorResponse_ne_nil error
  | ingested result =>
      cases result with
      | ok outcome =>
          change ingestResultJson received outcome elapsed ≠ []
          rw [body_ingestResultJson]
          exact List.cons_ne_nil _ _
      | error error => exact body_errorResponse_ne_nil error

theorem body_health_ne_nil : (healthResponse .available).body ≠ [] := by decide

/-- What a message comes to: the status of the response, and what becomes of the repository. -/
inductive Comes (library : Library) (message : Message) (now : Timestamp)
    (before : InMemoryIndexRepository) : ℤ → InMemoryIndexRepository → Prop where
  | refused {status} : 400 ≤ status → Comes library message now before status before
  | health : Asks library message .health → Comes library message now before 200 before
  | replied {operation call received elapsed} : Asks library message operation →
      operation.Starts message.body call →
      Comes library message now before ((call.run now before).1.response received elapsed).status
        (call.run now before).2
  | threw {operation call after} : Asks library message operation →
      operation.Starts message.body call →
      after ∈ call.points now before ∨ after = (call.run now before).2 →
      Comes library message now before 500 after

theorem comes_of_error (message : Message) (now : Timestamp) (repository : InMemoryIndexRepository)
    (error : Error) :
    Comes library message now repository ((errorResponse error).status : ℤ) repository :=
  .refused (by exact_mod_cast status_errorResponse error)

/-- A handler that does not throw. -/
theorem comes_of_respond (parser : S.Lawful) {message : Message} {operation : Operation}
    (hasks : Asks library message operation) (now : Timestamp) (elapsed : ℕ)
    {request : HttpRequest} (hnamed : operation.IsNamed request)
    (hbody : request.body = message.body)
    (repository : InMemoryIndexRepository) :
    let responded := operation.route.respond S now elapsed request ⟨.available, repository⟩
    responded.1.body ≠ [] ∧ responded.2.readiness = .available ∧
      Comes library message now repository responded.1.status responded.2.indexes := by
  rw [respond_eq_begin]
  cases hbegin : operation.route.begin S request with
  | answered answer =>
      obtain ⟨error, rfl, -, -⟩ := handles_answered parser hnamed hbegin
      exact ⟨body_errorResponse_ne_nil error, rfl, comes_of_error _ _ _ error⟩
  | shared access =>
      cases access with
      | readiness =>
          obtain rfl := begin_eq_readiness.mp hbegin
          exact ⟨body_health_ne_nil, rfl, .health hasks⟩
      | service call =>
          have hstarts := starts_of_begin parser hnamed hbegin
          rw [hbody] at hstarts
          exact ⟨Reply.body_ne_nil _ _ _, rfl, .replied hasks hstarts⟩

/-- A handler that throws. -/
theorem comes_of_leavesBehind (parser : S.Lawful) {message : Message} {operation : Operation}
    (hasks : Asks library message operation) {now : Timestamp} {request : HttpRequest}
    (hnamed : operation.IsNamed request) (hbody : request.body = message.body)
    {repository : InMemoryIndexRepository} {after : Application}
    (h : operation.route.LeavesBehind S now request ⟨.available, repository⟩ after) :
    after.readiness = .available ∧ Comes library message now repository 500 after.indexes := by
  have hstarts : ∀ {call}, operation.route.begin S request = .shared (.service call) →
      operation.Starts message.body call := by
    intro call hbegin
    rw [← hbody]
    exact starts_of_begin parser hnamed hbegin
  cases h with
  | reading => exact ⟨rfl, comes_of_error _ _ _ ⟨.internal, ascii "Internal error."⟩⟩
  | calling hbegin hpoint => exact ⟨rfl, .threw hasks (hstarts hbegin) (.inl hpoint)⟩
  | writing hbegin => exact ⟨rfl, .threw hasks (hstarts hbegin) (.inr rfl)⟩

theorem comes_of_routed (laws : library.Lawful) (parser : S.Lawful) {message : Message}
    {operation : Operation} (hasks : Asks library message operation) {now : Timestamp}
    {elapsed : ℕ} {faults : Faults} {params : List (Bytes × Bytes)}
    (htakes : Takes library message (operation.route.route S now elapsed faults) params)
    (hfaults : faults.AreAllocations S now operation.route)
    (hleaves : library.Leaves (message.request params))
    (repository : InMemoryIndexRepository) (engine : ε) :
    let served := processRequest library draw
      (.route (operation.route.route S now elapsed faults)) (message.request params) engine
      ⟨.available, repository⟩
    served.state.readiness = .available ∧
      Comes library message now repository served.response.status served.state.indexes := by
  intro served
  by_cases hadmits : Admits (operation.route.route S now elapsed faults) (message.request params)
  · let neutral := neutralRequest (operation.route.route S now elapsed faults)
      (message.request params) (resolveRequestId library draw (message.request params) engine).1
    have hnamed : operation.IsNamed neutral := isNamed_neutralRequest laws hasks htakes _
    cases hfault : faults neutral ⟨.available, repository⟩ with
    | some fault =>
        obtain ⟨exception, after⟩ := fault
        have hrun : (operation.route.route S now elapsed faults).handler neutral
            ⟨.available, repository⟩ = (.error exception, after) := by
          rw [handler_route, interrupted, hfault]
        have hserved : served = _ := processRequest_threw laws hadmits hrun
        rw [hserved, status_routeResponse laws]
        exact comes_of_leavesBehind parser hasks hnamed rfl
          (hfaults neutral _ exception after hfault)
    | none =>
        obtain ⟨hbody, hready, hcomes⟩ :=
          comes_of_respond parser hasks now elapsed hnamed rfl repository
        have hserved : served = _ :=
          processRequest_respond laws hadmits hleaves engine _ hfault hbody
        rw [hserved, status_routeResponse laws]
        exact ⟨hready, hcomes⟩
  · have hserved : served = _ := processRequest_refused laws hadmits engine _
    rw [hserved, status_routeResponse laws]
    exact ⟨rfl, comes_of_error _ _ _ nonJsonBodyError⟩

theorem comes_of_serves (laws : library.Lawful) (parser : S.Lawful) {state state' : ServerState ε}
    {exchange : Exchange} (h : ServesOrThrows S library draw state exchange state')
    (hready : state.application.readiness = .available) :
    state'.application.readiness = .available ∧
      Comes library exchange.message exchange.now state.application.indexes
        exchange.response.status state'.application.indexes := by
  obtain ⟨⟨readiness, repository⟩, engine⟩ := state
  obtain rfl : readiness = .available := hready
  cases h with
  | @rejected message now elapsed params rejection served hdispatch hserved =>
      subst hserved
      obtain ⟨hstatus, hbody, -⟩ := api_rejected laws hdispatch
      have hsaid : Says ⟨message, now, elapsed, (processRequest library draw (.rejected rejection)
          (message.request params) engine (⟨.available, repository⟩ : Application)).response⟩
          ⟨message, now, .failed (errorForLibraryStatus rejection.response.status)⟩ :=
        says_rejected laws hstatus hbody params engine _
      have herror : 400 ≤ (Answer.failed
          (errorForLibraryStatus rejection.response.status)).status := status_errorResponse _
      rw [hsaid.status, processRequest_rejected laws]
      exact ⟨rfl, .refused (by exact_mod_cast herror)⟩
  | @routed message now elapsed params faults served route hdispatch hfaults hleaves hserved =>
      subst hserved
      obtain ⟨operation, hasks, hroute, htakes⟩ := asks_of_dispatches laws hdispatch
      obtain ⟨other, hother, rfl⟩ := (takes_iff_asks laws route).mp ⟨params, htakes⟩
      exact comes_of_routed laws parser hother htakes hfaults hleaves repository engine

/-- A 500 says that the error is internal. -/
theorem internal_of_serves (laws : library.Lawful) (parser : S.Lawful)
    {state state' : ServerState ε} {exchange : Exchange}
    (h : ServesOrThrows S library draw state exchange state')
    (hstatus : exchange.response.status = 500) : ∃ error : Error, error.code = .internal ∧
      Denotes exchange.response.body (errorData error) := by
  have herror : IsErrorResponse exchange.response := by
    cases h with
    | @rejected message now elapsed params rejection served hdispatch hserved =>
        subst hserved
        obtain ⟨hrejected, hbody, -⟩ := api_rejected laws hdispatch
        exact (answersStatus_rejected laws ⟨hrejected, hbody⟩ _ _ _).error
    | @routed message now elapsed params faults served route hdispatch hfaults hleaves hserved =>
        subst hserved
        have hanswers := (answersAsRoute draw parser laws now elapsed faults route
          (message.request params) state.engine state.application).error
        dsimp only at hstatus ⊢
        rcases hanswers (by omega) with herror | ⟨-, hstarting, -⟩
        · exact herror
        · omega
  obtain ⟨error, hcode, hdenotes, -⟩ := herror.body
  refine ⟨error, ?_, hdenotes⟩
  rw [hstatus] at hcode
  cases herrorCode : error.code <;> rw [herrorCode] at hcode <;> first | rfl | cases hcode

/-! ## What a message does -/

section Comes

open InMemoryIndexRepository

variable {message : Message} {now : Timestamp} {before after : InMemoryIndexRepository}
  {status : ℤ}

/-- A message does no more than one operation on the repository. -/
theorem Comes.step (h : Comes library message now before status after) :
    after = before ∨ ∃ operation call event, Asks library message operation ∧
      operation.Starts message.body call ∧ (event = call.returned now ∨ event = call.threw now) ∧
      InMemoryIndexRepository.operations.Step before event after := by
  cases h with
  | refused _ | health _ => exact .inl rfl
  | @replied operation call _ _ hasks hstarts =>
      exact .inr ⟨operation, call, _, hasks, hstarts, .inl rfl, call.step_returned now before⟩
  | @threw operation call after hasks hstarts hafter =>
      right
      rcases hafter with hpoint | rfl
      · exact ⟨operation, call, _, hasks, hstarts, .inr rfl, call.step_threw hpoint⟩
      · exact ⟨operation, call, _, hasks, hstarts, .inl rfl, call.step_returned now before⟩

theorem Comes.kept (h : Comes library message now before status after) {uid : Bytes}
    {stored : StoredIndex} (hstored : before.indexes[uid]? = some stored) :
    ∃ stored', after.indexes[uid]? = some stored' ∧ stored'.metadata = stored.metadata ∧
      ExactMatchIndex.Extends stored.documents stored'.documents := by
  rcases h.step with rfl | ⟨operation, call, event, -, -, -, hstep⟩
  · exact ⟨stored, hstored, rfl, .refl _⟩
  · exact InMemoryIndexRepository.kept_path (.step .refl hstep) hstored

theorem Comes.created (h : Comes library message now before 201 after) :
    ∃ (uid : IndexUid) (primaryKey : Option Bytes),
      IsCreateIndex message.body uid.value primaryKey ∧ before.indexes[uid.value]? = none ∧
      after.indexes[uid.value]? = some ⟨indexCreatedAt now uid primaryKey, .empty⟩ := by
  generalize hstatus : (201 : ℤ) = status at h
  cases h with
  | refused herror => omega
  | health _ => omega
  | threw _ _ _ => omega
  | replied _ hstarts =>
      cases hstarts with
      | ingest _ =>
          rw [run_ingest_reply] at hstatus
          cases hstatus
      | @create uid primaryKey hcreate =>
          cases hfound : before.indexes[uid.value]? with
          | some stored =>
              rw [run_create_taken hfound] at hstatus
              cases hstatus
          | none =>
              refine ⟨uid, primaryKey, hcreate, hfound, ?_⟩
              rw [run_create_free hfound]
              exact (getElem?_insert _ _ _ _).trans (if_pos rfl)

theorem Comes.ingested (h : Comes library message now before 200 after) {uid : Bytes}
    (hasks : Asks library message (.addDocuments uid)) :
    ∃ (front : Ws) (batch : Json.Value) (back : Ws) (stored : StoredIndex),
      IsBatch message.body front batch back ∧ after.indexes[uid]? = some stored ∧
      ∀ i (hi : i < batch.elements.length),
        stored.documents.StoresAt (before.count uid + i) (documentOf batch.elements[i]) := by
  generalize hstatus : (200 : ℤ) = status at h
  cases h with
  | refused herror => omega
  | health hasks' => cases hasks.unique hasks'
  | threw _ _ _ => omega
  | @replied operation call _ _ hasks' hstarts =>
      obtain rfl := hasks.unique hasks'
      generalize hoperation : Operation.addDocuments uid = operation at hstarts
      cases hstarts with
      | create _ => cases hoperation
      | @ingest uid' front batch back hbatch =>
          cases hoperation
          have hstored := (exec_addDocuments_eq now
            ⟨uid', batch.elements.map documentOf⟩ before).2 uid'.value
          rw [if_pos rfl] at hstored
          refine ⟨front, batch, back, _, hbatch, hstored, fun i hi => ?_⟩
          have hadded := ExactMatchIndex.storesAt_addAll (storedOrNew before now uid').documents
            (batch.elements.map documentOf) i (by simpa using hi)
          rwa [List.getElem_map, ← count_eq_storedOrNew] at hadded

theorem Comes.sent (h : Comes library message now before status after) {uid : Bytes}
    {stored' : StoredIndex} (hstored' : after.indexes[uid]? = some stored') :
    ∀ source ∈ stored'.documents.sources,
      (∃ stored, before.indexes[uid]? = some stored ∧ source ∈ stored.documents.sources) ∨
      Asks library message (.addDocuments uid) ∧ ∃ front batch back,
        IsBatch message.body front batch back ∧ source ∈ batch.elements.map Json.Value.render := by
  intro source hsource
  rcases h.step with rfl | ⟨operation, call, event, hasks, hstarts, hevent, hstep⟩
  · exact .inl ⟨stored', hstored', hsource⟩
  · rcases InMemoryIndexRepository.sources_step hstep hstored' source hsource with
      hearlier | ⟨rfl, document, hdocument, rfl⟩
    · exact .inl hearlier
    · right
      cases hstarts with
      | create _ =>
          rcases hevent with rfl | rfl <;> cases hdocument
      | @ingest uid front batch back hbatch =>
          have hdocuments : document ∈ batch.elements.map documentOf := by
            rcases hevent with rfl | rfl <;> exact hdocument
          have huid : event.uid = uid.value := by
            rcases hevent with rfl | rfl <;> rfl
          obtain ⟨v, hv, rfl⟩ := List.mem_map.mp hdocuments
          rw [huid]
          exact ⟨hasks, front, batch, back, hbatch, List.mem_map.mpr ⟨v, hv, rfl⟩⟩

end Comes

/-! ## The ledger -/

/-- A message, the status that it came to, and how many documents each index had before. -/
structure Entry where
  message : Message
  now : Timestamp
  status : ℤ
  first : Bytes → ℕ

/-- The entry is what the message came to. -/
structure Enters (library : Library) (before : InMemoryIndexRepository) (entry : Entry)
    (after : InMemoryIndexRepository) : Prop where
  comes : Comes library entry.message entry.now before entry.status after
  first : entry.first = before.count

/-- What messages come to, one after the other. -/
def ledger (library : Library) : Machine InMemoryIndexRepository Entry where
  Initial repository := repository = .empty
  Step := Enters library

/-- What has been acknowledged is true of the repository, which holds nothing else. The documents of
a batch are where the index ended before, and no later message finds it shorter. -/
structure Honours (library : Library) (entries : List Entry)
    (repository : InMemoryIndexRepository) : Prop where
  created : ∀ entry ∈ entries, entry.status = 201 →
    ∃ (uid : IndexUid) (primaryKey : Option Bytes) (stored : StoredIndex),
      IsCreateIndex entry.message.body uid.value primaryKey ∧
      repository.indexes[uid.value]? = some stored ∧
      stored.metadata = indexCreatedAt entry.now uid primaryKey
  once : entries.Pairwise fun entry entry' =>
    entry.status = 201 → entry'.status = 201 →
    ∀ (uid : IndexUid) (primaryKey primaryKey' : Option Bytes),
      IsCreateIndex entry.message.body uid.value primaryKey →
      ¬ IsCreateIndex entry'.message.body uid.value primaryKey'
  ingested : ∀ entry ∈ entries, ∀ uid, Asks library entry.message (.addDocuments uid) →
    entry.status = 200 →
    ∃ (before : Ws) (batch : Json.Value) (after : Ws) (stored : StoredIndex),
      IsBatch entry.message.body before batch after ∧
      repository.indexes[uid]? = some stored ∧
      ∀ i (hi : i < batch.elements.length),
        stored.documents.StoresAt (entry.first uid + i) (documentOf batch.elements[i])
  apart : entries.Pairwise fun entry entry' =>
    ∀ uid, Asks library entry.message (.addDocuments uid) → entry.status = 200 →
    ∀ (before : Ws) (batch : Json.Value) (after : Ws),
      IsBatch entry.message.body before batch after →
      entry.first uid + batch.elements.length ≤ entry'.first uid
  sent : ∀ uid stored, repository.indexes[uid]? = some stored →
    ∀ source ∈ stored.documents.sources, ∃ entry ∈ entries,
      Asks library entry.message (.addDocuments uid) ∧
      ∃ before batch after, IsBatch entry.message.body before batch after ∧
        source ∈ batch.elements.map Json.Value.render

/-- An accepted batch is among the documents that are counted. -/
theorem Honours.count {entries : List Entry} {repository : InMemoryIndexRepository}
    (h : Honours library entries repository) {entry : Entry} (hentry : entry ∈ entries)
    {uid : Bytes} (hasks : Asks library entry.message (.addDocuments uid))
    (hstatus : entry.status = 200) {before : Ws} {batch : Json.Value} {after : Ws}
    (hbatch : IsBatch entry.message.body before batch after) :
    entry.first uid + batch.elements.length ≤ repository.count uid := by
  obtain ⟨front, batch', back, stored, hbatch', hstored, hstores⟩ :=
    h.ingested entry hentry uid hasks hstatus
  obtain rfl := hbatch.unique hbatch'
  have hpositive : 0 < batch.elements.length := List.length_pos_iff.mpr hbatch.nonempty
  obtain ⟨hlast, -⟩ := hstores (batch.elements.length - 1) (by omega)
  obtain ⟨hlength, -⟩ := List.getElem?_eq_some_iff.mp hlast
  rw [InMemoryIndexRepository.count_of_stored hstored]
  omega

theorem Honours.step {entries : List Entry} {before after : InMemoryIndexRepository}
    (h : Honours library entries before) {entry : Entry}
    (henters : Enters library before entry after) :
    Honours library (entries ++ [entry]) after where
  created other hother hstatus := by
    rcases List.mem_append.mp hother with hother | hother
    · obtain ⟨uid, primaryKey, stored, hcreate, hstored, hmetadata⟩ :=
        h.created other hother hstatus
      obtain ⟨stored', hstored', hkept, -⟩ := henters.comes.kept hstored
      exact ⟨uid, primaryKey, stored', hcreate, hstored', hkept.trans hmetadata⟩
    · obtain rfl := List.mem_singleton.mp hother
      have hcomes := henters.comes
      rw [hstatus] at hcomes
      obtain ⟨uid, primaryKey, hcreate, -, hstored⟩ := hcomes.created
      exact ⟨uid, primaryKey, _, hcreate, hstored, rfl⟩
  once := by
    refine List.pairwise_append.mpr ⟨h.once, List.pairwise_singleton _ _, ?_⟩
    intro earlier hearlier other hother hstatus hstatus' uid primaryKey primaryKey' hcreate hcreate'
    obtain rfl := List.mem_singleton.mp hother
    have hcomes := henters.comes
    rw [hstatus'] at hcomes
    obtain ⟨uid', primaryKey'', hcreated, hfree, -⟩ := hcomes.created
    obtain ⟨uid'', _, stored, hcreated', hstored, -⟩ := h.created earlier hearlier hstatus
    obtain ⟨rfl, -⟩ := isCreateIndex_unique hcreate' hcreated
    obtain ⟨rfl, -⟩ := isCreateIndex_unique hcreate hcreated'
    rw [hfree] at hstored
    cases hstored
  ingested other hother uid hasks hstatus := by
    rcases List.mem_append.mp hother with hother | hother
    · obtain ⟨front, batch, back, stored, hbatch, hstored, hstores⟩ :=
        h.ingested other hother uid hasks hstatus
      obtain ⟨stored', hstored', -, hextends⟩ := henters.comes.kept hstored
      exact ⟨front, batch, back, stored', hbatch, hstored',
        fun i hi => hextends.storesAt (hstores i hi)⟩
    · obtain rfl := List.mem_singleton.mp hother
      have hcomes := henters.comes
      rw [hstatus] at hcomes
      rw [henters.first]
      exact hcomes.ingested hasks
  apart := by
    refine List.pairwise_append.mpr ⟨h.apart, List.pairwise_singleton _ _, ?_⟩
    intro earlier hearlier other hother uid hasks hstatus front batch back hbatch
    obtain rfl := List.mem_singleton.mp hother
    rw [henters.first]
    exact h.count hearlier hasks hstatus hbatch
  sent uid stored hstored source hsource := by
    rcases henters.comes.sent hstored source hsource with
      ⟨earlier, hearlier, hsource⟩ | ⟨hasks, hbatch⟩
    · obtain ⟨other, hother, hsent⟩ := h.sent uid earlier hearlier source hsource
      exact ⟨other, List.mem_append_left _ hother, hsent⟩
    · exact ⟨entry, by simp, hasks, hbatch⟩

theorem keeps_honours (library : Library) : (ledger library).Keeps (Honours library) where
  start repository hinitial := by
    rw [hinitial]
    refine ⟨by simp, .nil, by simp, .nil, ?_⟩
    intro uid stored hstored
    have hnone : InMemoryIndexRepository.empty.indexes[uid]? = none :=
      Std.ExtTreeMap.getElem?_empty
    rw [hnone] at hstored
    cases hstored
  step _ _ _ _ hkept henters := hkept.step henters

/-! ## The server -/

/-- The server that main starts. Any allocation of its handlers may throw. -/
def interruptedServer (S : Ondemand) (library : Library) (draw : ε → UInt64 × ε) :
    Machine (ServerState ε) Exchange where
  Initial state := state.application = ⟨.available, .empty⟩
  Step := ServesOrThrows S library draw

/-- The entry is about the exchange. -/
structure Records (exchange : Exchange) (entry : Entry) : Prop where
  message : entry.message = exchange.message
  now : entry.now = exchange.now
  status : entry.status = exchange.response.status

theorem server_simulates_ledger (laws : library.Lawful) (parser : S.Lawful) :
    (interruptedServer S library draw).Simulates (ledger library)
      (fun state repository => state.application = ⟨.available, repository⟩) Records where
  start _ hinitial := ⟨.empty, rfl, hinitial⟩
  step state repository exchange state' hrelated hstep := by
    obtain ⟨hready, hcomes⟩ := comes_of_serves laws parser hstep (by rw [hrelated])
    rw [hrelated] at hcomes
    refine ⟨⟨exchange.message, exchange.now, exchange.response.status, repository.count⟩, _,
      ⟨rfl, rfl, rfl⟩, ⟨hcomes, rfl⟩, ?_⟩
    rw [← hready]

/-- What has been answered stays true, however the run goes on. -/
structure KeepsFaith (S : Ondemand) (library : Library) (draw : ε → UInt64 × ε)
    (exchanges : List Exchange) (state : ServerState ε) (entries : List Entry) : Prop where
  records : List.Forall₂ Records exchanges entries
  honours : Honours library entries state.application.indexes
  later : ∀ {more state'}, (interruptedServer S library draw).Path state more state' →
    ∃ later, List.Forall₂ Records more later ∧
      Honours library (entries ++ later) state'.application.indexes
  internal : ∀ exchange ∈ exchanges, exchange.response.status = 500 →
    ∃ error : Error, error.code = .internal ∧ Denotes exchange.response.body (errorData error)

/-- Whatever allocations of its handlers throw, the server keeps what it has acknowledged: an index
is created once, and every document of a batch that was accepted stays where it was put and is
found there. -/
theorem server_honours (laws : library.Lawful) (parser : S.Lawful) {exchanges : List Exchange}
    {state : ServerState ε} (h : (interruptedServer S library draw).Run exchanges state) :
    ∃ entries, KeepsFaith S library draw exchanges state entries := by
  have hsimulates := @server_simulates_ledger S library ε draw laws parser
  obtain ⟨entries, repository, hrecords, hrun, hrelated⟩ := hsimulates.run h
  have hstored : ∀ {state : ServerState ε} {repository},
      state.application = ⟨.available, repository⟩ → state.application.indexes = repository :=
    fun hrelated => congrArg Application.indexes hrelated
  refine ⟨entries, hrecords, ?_, fun hpath => ?_, fun exchange hexchange hstatus => ?_⟩
  · rw [hstored hrelated]
    exact (keeps_honours library).run hrun
  · obtain ⟨later, repository', hlater, hpath', hrelated'⟩ := hsimulates.path hrelated hpath
    refine ⟨later, hlater, ?_⟩
    rw [hstored hrelated']
    exact (keeps_honours library).run (hrun.append hpath')
  · obtain ⟨before, after, hstep⟩ := h.exists_step hexchange
    exact internal_of_serves laws parser hstep hstatus

/-! ## What may happen -/

section Possible

variable {message : Message} {operation : Operation} {call : Call}

/-- What is JSON is admitted. -/
theorem admits_of_namesJson (hjson : NamesJson (headerValue message.headers contentTypeHeader))
    (now : Timestamp) (elapsed : ℕ) (faults : Faults) (route : MainRoute)
    (params : List (Bytes × Bytes)) :
    Admits (route.route S now elapsed faults) (message.request params) :=
  .inr hjson

/-- The call that a message asks for may be carried out. -/
theorem exists_serves_call (draw : ε → UInt64 × ε) (laws : library.Lawful) (parser : S.Lawful)
    (hasks : Asks library message operation)
    (hjson : NamesJson (headerValue message.headers contentTypeHeader))
    (hleaves : ∀ params, library.Leaves (message.request params))
    (hstarts : operation.Starts message.body call) (now : Timestamp) (elapsed : ℕ)
    (repository : InMemoryIndexRepository) (engine : ε) :
    ∃ exchange state', exchange.sent = ⟨message, now, elapsed⟩ ∧ exchange.response.status =
        (((call.run now repository).1.response (documentsOf call).length elapsed).status : ℤ) ∧
      state'.application = ⟨.available, (call.run now repository).2⟩ ∧
      (interruptedServer S library draw).Step ⟨⟨.available, repository⟩, engine⟩ exchange
        state' := by
  obtain ⟨params, hdispatch⟩ : ∃ params, Dispatches library (mainRoutes S now elapsed noFaults)
      message params (.route (operation.route.route S now elapsed noFaults)) :=
    dispatches_of_asks laws hasks
  obtain ⟨other, hother, hroute, htakes⟩ := asks_of_dispatches laws hdispatch
  let request := message.request params
  let id := (resolveRequestId library draw request engine).1
  have hbegin : operation.route.begin S
      (neutralRequest (operation.route.route S now elapsed noFaults) request id) =
        .shared (.service call) :=
    begin_of_starts parser (isNamed_neutralRequest laws hasks htakes id) hstarts
  have hrespond : operation.route.respond S now elapsed
      (neutralRequest (operation.route.route S now elapsed noFaults) request id)
      ⟨.available, repository⟩ =
        ((call.run now repository).1.response (documentsOf call).length elapsed,
          ⟨.available, (call.run now repository).2⟩) := by
    rw [respond_eq_begin, hbegin]
  have hserved := @processRequest_respond S library now elapsed noFaults ε draw laws _ _
    (admits_of_namesJson hjson now elapsed noFaults operation.route params) (hleaves params) engine
    ⟨.available, repository⟩ rfl (by
      rw [hrespond]
      exact Reply.body_ne_nil _ _ _)
  rw [hrespond] at hserved
  have hstep : ServesOrThrows S library draw ⟨⟨.available, repository⟩, engine⟩ _ _ :=
    .routed hdispatch (areAllocations_noFaults S now operation.route) (hleaves params) rfl
  rw [hserved] at hstep
  exact ⟨_, _, rfl, status_routeResponse laws _ _, rfl, hstep⟩

/-- Any of its allocations may throw. -/
theorem exists_serves_threw (draw : ε → UInt64 × ε) (laws : library.Lawful) (parser : S.Lawful)
    (hasks : Asks library message operation)
    (hjson : NamesJson (headerValue message.headers contentTypeHeader))
    (hleaves : ∀ params, library.Leaves (message.request params))
    (hstarts : operation.Starts message.body call) (now : Timestamp) (elapsed : ℕ)
    {repository indexes : InMemoryIndexRepository} (hpoint : indexes ∈ call.points now repository)
    (engine : ε) :
    ∃ exchange state', exchange.sent = ⟨message, now, elapsed⟩ ∧ exchange.response.status = 500 ∧
      state'.application = ⟨.available, indexes⟩ ∧
      (interruptedServer S library draw).Step ⟨⟨.available, repository⟩, engine⟩ exchange
        state' := by
  obtain ⟨k, hk⟩ := List.mem_iff_getElem?.mp hpoint
  let faults := Faults.atAllocation S now operation.route k
  obtain ⟨params, hdispatch⟩ : ∃ params, Dispatches library (mainRoutes S now elapsed faults)
      message params (.route (operation.route.route S now elapsed faults)) :=
    dispatches_of_asks laws hasks
  obtain ⟨other, hother, hroute, htakes⟩ := asks_of_dispatches laws hdispatch
  let request := message.request params
  let id := (resolveRequestId library draw request engine).1
  let neutral := neutralRequest (operation.route.route S now elapsed faults) request id
  have hbegin : operation.route.begin S neutral = .shared (.service call) :=
    begin_of_starts parser (isNamed_neutralRequest laws hasks htakes id) hstarts
  have hrun : (operation.route.route S now elapsed faults).handler neutral
      ⟨.available, repository⟩ =
        (.error (.standard (ascii "std::bad_alloc")), ⟨.available, indexes⟩) := by
    have hfault : faults neutral ⟨.available, repository⟩ =
        some (.standard (ascii "std::bad_alloc"), ⟨.available, indexes⟩) := by
      simp only [faults, Faults.atAllocation, hbegin, hk, Option.map_some]
    rw [handler_route, interrupted, hfault]
  have hserved := processRequest_threw laws
    (admits_of_namesJson hjson now elapsed faults operation.route params) hrun
  have hstep : ServesOrThrows S library draw ⟨⟨.available, repository⟩, engine⟩ _ _ :=
    .routed hdispatch (areAllocations_atAllocation S now operation.route k) (hleaves params) rfl
  rw [hserved] at hstep
  exact ⟨_, _, rfl, status_routeResponse laws _ _, rfl, hstep⟩

end Possible

/-- The documents are sent twice. -/
def retriedSent : List (Message × Timestamp × ℕ) :=
  [⟨createLetters, 0, 2⟩, ⟨postLetters mixedBody, 1, 3⟩, ⟨postLetters mixedBody, 4, 2⟩]

def createdLetters : InMemoryIndexRepository :=
  ((Call.create ⟨letters, none⟩).run 0 .empty).2

def ingestMixed : Call := .ingest ⟨letters, [mixedDocument, emptyDocument]⟩

theorem starts_ingestMixed :
    (Operation.addDocuments letters.value).Starts mixedBody ingestMixed := by
  obtain ⟨front, batch, back, hbatch, hdocuments⟩ := exists_isBatch_mixedBody
  rw [ingestMixed, ← hdocuments]
  exact .ingest hbatch

/-- An allocation while the second document is stored. -/
theorem exists_point_ingestMixed : ∃ indexes, indexes ∈ ingestMixed.points 1 createdLetters := by
  have hpoints : 20 < (ingestMixed.points 1 createdLetters).length := by decide +kernel
  exact ⟨_, List.getElem_mem hpoints⟩

/-- An index is created. The first batch for it throws, and the second is stored. -/
theorem run_retried (draw : Unit → UInt64 × Unit) : ∃ exchanges state,
    exchanges.map Exchange.sent = retriedSent ∧
      exchanges.map (fun exchange => exchange.response.status) = [201, 500, 200] ∧
      (interruptedServer reference (referenceLibrary 100) draw).Run exchanges state := by
  have hlaws := referenceLibrary_lawful 100
  have hleaves : ∀ s ∈ retriedSent, ∀ params,
      (referenceLibrary 100).Leaves (s.1.request params) := by
    have hranges : ∀ s ∈ retriedSent,
        s.1.headers.all fun header => !isNamed rangeHeader header := by decide
    exact fun s hs params => leaves_referenceLibrary 100 (hranges s hs)
  have hcreated : IsCreateIndex createLetters.body letters.value none :=
    isCreateIndex_createLetters
  have hposted : ∀ params, (referenceLibrary 100).Leaves ((postLetters mixedBody).request params) :=
    hleaves ⟨postLetters mixedBody, 1, 3⟩ (by simp [retriedSent])
  obtain ⟨indexes, hpoint⟩ := exists_point_ingestMixed
  obtain ⟨first, state, hfirst, hcode, happ, hstep⟩ := exists_serves_call draw hlaws
    reference_lawful (asks_createLetters 100) namesJson_jsonMediaType
    (hleaves ⟨createLetters, 0, 2⟩ (by simp [retriedSent])) (.create hcreated) 0 2 .empty ()
  obtain ⟨application, engine⟩ := state
  obtain rfl : application = ⟨.available, createdLetters⟩ := happ
  obtain ⟨second, state', hsecond, hcode', happ', hstep'⟩ := exists_serves_threw draw hlaws
    reference_lawful (asks_postLetters 100 mixedBody) namesJson_jsonMediaType hposted
    starts_ingestMixed 1 3 hpoint engine
  obtain ⟨application, engine'⟩ := state'
  obtain rfl : application = ⟨.available, indexes⟩ := happ'
  obtain ⟨third, state'', hthird, hcode'', -, hstep''⟩ := exists_serves_call draw hlaws
    reference_lawful (asks_postLetters 100 mixedBody) namesJson_jsonMediaType hposted
    starts_ingestMixed 4 2 indexes engine'
  have hstart : (interruptedServer reference (referenceLibrary 100) draw).Run []
      ⟨⟨.available, .empty⟩, ()⟩ := .start rfl
  refine ⟨[first, second, third], state'', ?_, ?_,
    ((hstart.step hstep).step hstep').step hstep''⟩
  · simp [hfirst, hsecond, hthird, retriedSent]
  · have hempty : InMemoryIndexRepository.empty.indexes[letters.value]? = none :=
      Std.ExtTreeMap.getElem?_empty
    have hok : ∀ repository now received elapsed,
        ((ingestMixed.run now repository).1.response received elapsed).status = 200 := by
      intro repository now received elapsed
      rw [ingestMixed, run_ingest_reply]
      rfl
    rw [@run_create_free ⟨letters, none⟩ _ hempty] at hcode
    rw [hok] at hcode''
    simp only [List.map_cons, List.map_nil, hcode, hcode', hcode'']
    rfl

theorem server_honours_retried : ∃ exchanges state entries,
    exchanges.map Exchange.sent = retriedSent ∧
      exchanges.map (fun exchange => exchange.response.status) = [201, 500, 200] ∧
      (interruptedServer reference (referenceLibrary 100) fun engine : Unit => (0, engine)).Run
        exchanges state ∧
      KeepsFaith reference (referenceLibrary 100) (fun engine : Unit => (0, engine)) exchanges state
        entries := by
  obtain ⟨exchanges, state, hsent, hstatuses, hrun⟩ := run_retried fun engine => (0, engine)
  obtain ⟨entries, hkeeps⟩ := server_honours (referenceLibrary_lawful 100) reference_lawful hrun
  exact ⟨exchanges, state, entries, hsent, hstatuses, hrun, hkeeps⟩

end Leta
