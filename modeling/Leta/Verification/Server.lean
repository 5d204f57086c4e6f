import Leta.Verification.Batches
import Leta.Verification.Handlers

/-! # The server implements the API

The server with its routes, hooks, handlers and repository does what the API says and nothing
else. -/

namespace Leta

open Httplib Json Ondemand

variable {S : Ondemand} {library : Library} {message : Message} {now : Timestamp} {elapsed : ℕ}
  {faults : Faults}

/-! ## One message -/

variable {ε : Type} {draw : ε → UInt64 × ε}

theorem says_routeResponse (laws : library.Lawful) {id : Bytes} {answer : Answer}
    {response : HttpResponse} (hid : IsRequestId (message.request []) id)
    (h : SaysAnswer elapsed response answer) :
    Says ⟨message, now, elapsed, routeResponse library id response⟩ ⟨message, now, answer⟩ where
  message := rfl
  now := rfl
  status := by
    rw [status_routeResponse laws, h.written, Answer.status_response]
  written := by
    rw [body_routeResponse laws, h.written]
  body := by
    rw [body_routeResponse laws]
    exact h.body
  utf8 := by
    rw [body_routeResponse laws]
    exact h.utf8
  typed := isJsonTyped_writeResponse laws _ _
  id := ⟨id, carries_routeResponse laws hid.hasRequestIdForm response, hid⟩

/-- A refusal of the library, or a message that no route takes. -/
theorem says_rejected (laws : library.Lawful) {rejection : Rejection}
    (hstatus : 400 ≤ rejection.response.status) (hbody : rejection.response.body = [])
    (params : List (Bytes × Bytes)) {σ : Type} (engine : ε) (state : σ) :
    Says ⟨message, now, elapsed, (processRequest library draw (.rejected rejection)
        (message.request params) engine state).response⟩
      ⟨message, now, .failed (errorForLibraryStatus rejection.response.status)⟩ := by
  let error := errorForLibraryStatus rejection.response.status
  have hid := isRequestId_resolveRequestId draw laws (message.request params) engine
  have hcarries := carries_processRequest draw laws (.rejected rejection)
    (message.request params) engine state
  rw [processRequest_rejected laws] at hcarries ⊢
  dsimp only at hcarries ⊢
  rw [applyError_of_empty hstatus hbody] at hcarries ⊢
  have hnone : (writeResponse library rejection.response (errorResponse error)).headers.filter
      (isNamed requestIdHeader) = [] :=
    (filter_writeResponse laws _ _).trans rejection.noRequestId
  have hsets := laws.setHeader_sets hnone hid.hasRequestIdForm.isFieldText
  have hwritten := hsets.body.trans (body_writeResponse laws _ _)
  refine ⟨rfl, rfl, ?_, hwritten, ?_, ?_, ?_, _, hcarries, hid.echoed, hid.generated⟩
  · rw [hsets.status, status_writeResponse laws]
    rfl
  · rw [hwritten]
    exact denotes_errorResponse error
  · rw [hwritten]
    exact validUtf8_errorResponse (validUtf8_errorForLibraryStatus _)
  · exact (hsets.filter_other fun _ => not_isNamed_requestId).trans
      (isJsonTyped_writeResponse laws _ _)

theorem api_rejected (laws : library.Lawful) {params : List (Bytes × Bytes)}
    {rejection : Rejection} (h : Dispatches library (mainRoutes S now elapsed faults) message params
      (.rejected rejection)) :
    400 ≤ rejection.response.status ∧ rejection.response.body = [] ∧ ∀ now catalogue,
      ApiStep library catalogue
        ⟨message, now, .failed (errorForLibraryStatus rejection.response.status)⟩ catalogue := by
  cases h with
  | refused hrefuses =>
      exact ⟨laws.refuses_status hrefuses, laws.refuses_body hrefuses,
        fun _ catalogue => .refused hrefuses⟩
  | unrouted hnone =>
      refine ⟨by decide, rfl, fun _ catalogue => .notFound fun operation hasks => ?_⟩
      obtain ⟨params, htakes⟩ : ∃ params,
          Takes library message (operation.route.route S now elapsed faults) params :=
        (takes_iff_asks laws operation.route).mpr ⟨operation, hasks, rfl⟩
      refine hnone _ ?_ params htakes
      cases operation.route <;> simp [mainRoutes]

/-- A message is dispatched to the route of what it asks for. -/
theorem asks_of_dispatches (laws : library.Lawful) {params : List (Bytes × Bytes)}
    {route : Route Application}
    (h : Dispatches library (mainRoutes S now elapsed faults) message params (.route route)) :
    ∃ operation, Asks library message operation ∧
      route = operation.route.route S now elapsed faults ∧ Takes library message route params := by
  cases h with
  | @routed before route after _ hroutes hbefore htakes =>
      obtain ⟨mainRoute, -, rfl⟩ : ∃ mainRoute,
          mainRoute ∈ [MainRoute.health, .createIndex, .addDocuments] ∧
            mainRoute.route S now elapsed faults = route :=
        List.mem_map.mp (show route ∈ mainRoutes S now elapsed faults by simp [hroutes])
      obtain ⟨operation, hasks, rfl⟩ := (takes_iff_asks laws mainRoute).mp ⟨params, htakes⟩
      exact ⟨operation, hasks, rfl, htakes⟩

/-- What posts a body says that it is JSON. -/
theorem namesJson_of_admits {operation : Operation} {params : List (Bytes × Bytes)}
    (hadmits : Admits (operation.route.route S now elapsed faults) (message.request params))
    (hoperation : operation ≠ .health) :
    NamesJson (headerValue message.headers contentTypeHeader) := by
  refine hadmits.resolve_left fun hget => hoperation ?_
  cases operation with
  | health => rfl
  | createIndex => cases hget
  | addDocuments uid => cases hget

/-- What a route's handler answers is an answer of the API. -/
theorem api_respond (laws : library.Lawful) (parser : S.Lawful) {operation : Operation}
    (hasks : Asks library message operation) {params : List (Bytes × Bytes)}
    (htakes : Takes library message (operation.route.route S now elapsed faults) params)
    (hadmits : Admits (operation.route.route S now elapsed faults) (message.request params))
    {repository : InMemoryIndexRepository} {catalogue : Catalogue}
    (h : Implements repository catalogue) (id : Bytes) :
    ∃ answer catalogue', ApiStep library catalogue ⟨message, now, answer⟩ catalogue' ∧
      let neutral := neutralRequest (operation.route.route S now elapsed faults)
        (message.request params) id
      let responded := operation.route.respond S now elapsed neutral ⟨.available, repository⟩
      SaysAnswer elapsed responded.1 answer ∧ responded.2.readiness = .available ∧
        Implements responded.2.indexes catalogue' := by
  have hnamed := isNamed_neutralRequest laws hasks htakes id
  dsimp only
  rw [respond_eq_begin]
  cases hbegin : operation.route.begin S
      (neutralRequest (operation.route.route S now elapsed faults) (message.request params) id) with
  | answered answer =>
      obtain ⟨error, rfl, hutf8, hhandles⟩ := handles_answered parser hnamed hbegin
      have hoperation : operation ≠ .health := by
        rintro rfl
        cases hbegin
      exact ⟨_, catalogue, .handled hasks (namesJson_of_admits hadmits hoperation)
        (hhandles now catalogue),
        saysAnswer_errorResponse hutf8, rfl, h⟩
  | shared access =>
      cases access with
      | readiness =>
          obtain rfl := begin_eq_readiness.mp hbegin
          exact ⟨.available, catalogue, .health hasks, saysAnswer_health, rfl, h⟩
      | service call =>
          have hoperation : operation ≠ .health := by
            rintro rfl
            cases hbegin
          obtain ⟨answer, catalogue', hhandles, hsaid, hafter⟩ :=
            handles_call (starts_of_begin parser hnamed hbegin) h now
          exact ⟨answer, catalogue',
            .handled hasks (namesJson_of_admits hadmits hoperation) hhandles,
            hsaid elapsed, rfl, hafter⟩

theorem SaysAnswer.body_ne_nil {response : HttpResponse} {answer : Answer}
    (h : SaysAnswer elapsed response answer) : response.body ≠ [] := by
  obtain ⟨before, after, value, hbody, -⟩ := h.body
  obtain ⟨b, rest, hhead, -⟩ := value.exists_head
  rw [hbody, hhead]
  simp

/-- A handler's response leaves as it is. -/
theorem processRequest_respond (laws : library.Lawful) {route : MainRoute}
    {request : Httplib.Request} (hadmits : Admits (route.route S now elapsed faults) request)
    (hleaves : library.Leaves request) (engine : ε) (application : Application) :
    let id := (resolveRequestId library draw request engine).1
    let neutral := neutralRequest (route.route S now elapsed faults) request id
    let responded := route.respond S now elapsed neutral application
    faults neutral application = none → responded.1.body ≠ [] →
    processRequest library draw (.route (route.route S now elapsed faults)) request engine
        application =
      ⟨routeResponse library id responded.1, (resolveRequestId library draw request engine).2,
        responded.2, some neutral, []⟩ := by
  intro id neutral responded hnone hbody
  have hrun : (route.route S now elapsed faults).handler neutral application =
      (.ok responded.1, responded.2) := by
    rw [handler_route, interrupted, hnone]
  rw [processRequest_returned laws hadmits hrun]
  dsimp only
  rw [hleaves, applyError_of_body (by rwa [body_routeResponse laws])]

/-- What a route makes of a message is a step of the API. -/
theorem api_routed (laws : library.Lawful) (parser : S.Lawful) {operation : Operation}
    (hasks : Asks library message operation) {params : List (Bytes × Bytes)}
    (htakes : Takes library message (operation.route.route S now elapsed noFaults) params)
    (hleaves : library.Leaves (message.request params))
    {repository : InMemoryIndexRepository} {catalogue : Catalogue}
    (h : Implements repository catalogue) (engine : ε) :
    ∃ answer catalogue', ApiStep library catalogue ⟨message, now, answer⟩ catalogue' ∧
      let served := processRequest library draw
        (.route (operation.route.route S now elapsed noFaults)) (message.request params) engine
        ⟨.available, repository⟩
      Says ⟨message, now, elapsed, served.response⟩ ⟨message, now, answer⟩ ∧
        served.state.readiness = .available ∧ Implements served.state.indexes catalogue' := by
  have hid : IsRequestId (message.request [])
      (resolveRequestId library draw (message.request params) engine).1 :=
    have hid := isRequestId_resolveRequestId draw laws (message.request params) engine
    ⟨hid.echoed, hid.generated⟩
  by_cases hadmits : Admits (operation.route.route S now elapsed noFaults)
    (message.request params)
  · obtain ⟨answer, catalogue', hstep, hsaid, hready, hafter⟩ :=
      api_respond laws parser hasks htakes hadmits h
        (resolveRequestId library draw (message.request params) engine).1
    refine ⟨answer, catalogue', hstep, ?_⟩
    rw [processRequest_respond laws hadmits hleaves _ _ rfl hsaid.body_ne_nil]
    exact ⟨says_routeResponse laws hid hsaid, hready, hafter⟩
  · have hoperation : operation ≠ .health := by
      rintro rfl
      exact hadmits (.inl rfl)
    refine ⟨_, catalogue, .notJson hasks hoperation fun hjson => hadmits (.inr hjson), ?_⟩
    rw [processRequest_refused laws hadmits]
    exact ⟨says_routeResponse laws hid (saysAnswer_errorResponse (.of_all (by decide))), rfl, h⟩

/-! ## The server -/

/-- The server that main starts, with any engine behind its ids. -/
def server (S : Ondemand) (library : Library) (draw : ε → UInt64 × ε) :
    Machine (ServerState ε) Exchange where
  Initial state := state.application = ⟨.available, .empty⟩
  Step := Serves S library draw

theorem server_simulates_api (laws : library.Lawful) (parser : S.Lawful) :
    (server S library draw).Simulates (api library)
      (fun state catalogue => state.application.readiness = .available ∧
        Implements state.application.indexes catalogue) Says where
  start state hstart := by
    refine ⟨fun _ => none, rfl, ?_⟩
    rw [hstart]
    exact ⟨rfl, represents_empty, by simp⟩
  step state catalogue exchange state' hrelated hstep := by
    obtain ⟨⟨readiness, repository⟩, engine⟩ := state
    obtain ⟨rfl, himplements⟩ := hrelated
    cases hstep with
    | @served message now elapsed params dispatch served hdispatch hleaves hserved =>
        subst hserved
        cases dispatch with
        | rejected rejection =>
            obtain ⟨hstatus, hbody, happ⟩ := api_rejected laws hdispatch
            refine ⟨_, catalogue, says_rejected laws hstatus hbody params engine _, happ _ _, ?_⟩
            rw [processRequest_rejected laws]
            exact ⟨rfl, himplements⟩
        | route route =>
            obtain ⟨operation, hasks, rfl, htakes⟩ := asks_of_dispatches laws hdispatch
            obtain ⟨answer, catalogue', happ, hsaid, hready, hafter⟩ :=
              api_routed laws parser hasks htakes hleaves himplements engine
            exact ⟨_, catalogue', hsaid, happ, hready, hafter⟩

/-- Any run of the server is a run of the API: every response says the API's answer, and the
repository represents the API's catalogue. -/
theorem server_refines_api (laws : library.Lawful) (parser : S.Lawful)
    {exchanges : List Exchange} {state : ServerState ε}
    (h : (server S library draw).Run exchanges state) :
    ∃ calls catalogue, (api library).Run calls catalogue ∧ List.Forall₂ Says exchanges calls ∧
      Represents state.application.indexes catalogue := by
  obtain ⟨calls, catalogue, hsaid, hrun, -, himplements⟩ :=
    (server_simulates_api laws parser).run h
  exact ⟨calls, catalogue, hrun, hsaid, himplements.represents⟩

/-- The route of what a message asks for is the first that takes it. -/
theorem dispatches_of_asks (laws : library.Lawful) {operation : Operation}
    (hasks : Asks library message operation) :
    ∃ params, Dispatches library (mainRoutes S now elapsed faults) message params
      (.route (operation.route.route S now elapsed faults)) := by
  obtain ⟨params, htakes⟩ : ∃ params,
      Takes library message (operation.route.route S now elapsed faults) params :=
    (takes_iff_asks laws operation.route).mpr ⟨operation, hasks, rfl⟩
  have hothers : ∀ route, route ≠ operation.route → ∀ params,
      ¬ Takes library message (route.route S now elapsed faults) params := by
    intro route hroute params htakes
    obtain ⟨other, hother, rfl⟩ := (takes_iff_asks laws route).mp ⟨params, htakes⟩
    rw [hasks.unique hother] at hroute
    exact hroute rfl
  cases operation with
  | health => exact ⟨params, .routed (List.nil_append _).symm (by simp) htakes⟩
  | createIndex =>
      refine ⟨params, .routed (List.singleton_append (x := MainRoute.health.route _ _ _ _)).symm ?_
        htakes⟩
      intro earlier hearlier
      obtain rfl := List.mem_singleton.mp hearlier
      exact hothers .health (by decide)
  | addDocuments uid =>
      have hroutes : mainRoutes S now elapsed faults =
          [MainRoute.health.route S now elapsed faults,
            MainRoute.createIndex.route S now elapsed faults] ++
              [MainRoute.addDocuments.route S now elapsed faults] := rfl
      refine ⟨params, .routed hroutes ?_ htakes⟩
      intro earlier hearlier
      rcases List.mem_pair.mp hearlier with rfl | rfl
      · exact hothers .health (by simp [Operation.route])
      · exact hothers .createIndex (by simp [Operation.route])

/-- The message, and what the clocks read while it is served. -/
def Exchange.sent (exchange : Exchange) : Message × Timestamp × ℕ :=
  ⟨exchange.message, exchange.now, exchange.elapsed⟩

theorem map_calls {exchanges : List Exchange} {calls : List ApiCall}
    (h : List.Forall₂ Says exchanges calls) :
    calls.map (fun call => (call.message, call.now)) =
      (exchanges.map Exchange.sent).map fun sent => (sent.1, sent.2.1) := by
  rw [List.map_map, ← List.forall₂_eq_eq_eq, List.forall₂_map_left_iff,
    List.forall₂_map_right_iff]
  refine h.flip.imp fun call exchange hsaid => ?_
  rw [← hsaid.message, ← hsaid.now]
  rfl

/-- The server answers whatever asks for an operation. -/
theorem exists_serves (draw : ε → UInt64 × ε) (laws : library.Lawful) {operation : Operation}
    (hasks : Asks library message operation)
    (hleaves : ∀ params, library.Leaves (message.request params)) (now : Timestamp) (elapsed : ℕ)
    (state : ServerState ε) : ∃ exchange state', exchange.sent = ⟨message, now, elapsed⟩ ∧
      (server S library draw).Step state exchange state' := by
  obtain ⟨params, hdispatch⟩ : ∃ params, Dispatches library (mainRoutes S now elapsed noFaults)
      message params (.route (operation.route.route S now elapsed noFaults)) :=
    dispatches_of_asks laws hasks
  have hserves : Serves S library draw state _ _ := .served hdispatch (hleaves params) rfl
  exact ⟨_, _, rfl, hserves⟩

/-- Whatever asks for operations can be sent, one message after the other. -/
theorem exists_run (S : Ondemand) (draw : ε → UInt64 × ε) (laws : library.Lawful) (engine : ε)
    {sent : List (Message × Timestamp × ℕ)}
    (hasks : ∀ s ∈ sent, ∃ operation, Asks library s.1 operation)
    (hleaves : ∀ s ∈ sent, ∀ params, library.Leaves (s.1.request params)) :
    ∃ exchanges state, exchanges.map Exchange.sent = sent ∧
      (server S library draw).Run exchanges state := by
  induction sent using List.reverseRecOn with
  | nil => exact ⟨[], ⟨⟨.available, .empty⟩, engine⟩, rfl, .start rfl⟩
  | append_singleton sent s ih =>
      rw [List.forall_mem_append, List.forall_mem_singleton] at hasks hleaves
      obtain ⟨exchanges, state, hsent, hrun⟩ := ih hasks.1 hleaves.1
      obtain ⟨operation, hasks⟩ := hasks.2
      obtain ⟨exchange, state', hlast, hstep⟩ :=
        exists_serves (S := S) draw laws hasks hleaves.2 s.2.1 s.2.2 state
      refine ⟨exchanges ++ [exchange], state', ?_, hrun.step hstep⟩
      rw [List.map_append, hsent, List.map_singleton, hlast]

theorem hasUidForm_letters : HasUidForm (ascii "a") := by decide

/-- The uid `a`. -/
def letters : IndexUid := ⟨ascii "a", hasUidForm_letters⟩

/-- A request for an index `a`. -/
def createLetters : Message where
  method := ascii "POST"
  path := ascii "/indexes"
  headers := [(contentTypeHeader, jsonMediaType)]
  body := ascii "\x7b\"uid\":\"a\"\x7d"

theorem isCreateIndex_createLetters : IsCreateIndex createLetters.body (ascii "a") none := by
  refine ⟨.of_all (by decide), [(uidField, .string (ascii "a"))], ?_, .inl (.refl _)⟩
  have hbody : dropByteOrderMark createLetters.body =
      0x7b :: (fieldsJson [stringField "uid" (ascii "a")] ++ [0x7d]) := by decide
  rw [hbody]
  exact denotes_fieldsJson (.cons (means_stringField _ _) .nil)

/-- A request to add documents to it. -/
def postLetters (body : Bytes) : Message where
  method := ascii "POST"
  path := ascii "/indexes/a/documents"
  headers := [(contentTypeHeader, jsonMediaType)]
  body

theorem asks_createLetters (limit : ℕ) : Asks (referenceLibrary limit) createLetters .createIndex :=
  .createIndex rfl rfl

theorem asks_postLetters (limit : ℕ) (body : Bytes) :
    Asks (referenceLibrary limit) (postLetters body) (.addDocuments letters.value) := by
  have hpath : ascii "/indexes/a/documents" =
      ascii "/indexes/" ++ letters.value ++ ascii "/documents" := by decide
  exact .addDocuments rfl (by decide) hpath

theorem namesJson_jsonMediaType : NamesJson jsonMediaType :=
  (isJsonContentType_iff _).mp (by decide)

theorem exists_isBatch_mixedBody : ∃ front batch back, IsBatch mixedBody front batch back ∧
      batch.elements.map documentOf = [mixedDocument, emptyDocument] := by
  obtain ⟨front, batch, back, hbatch, hdocuments⟩ :=
    (parseDocumentBatch_eq_ok reference_lawful).mp parse_mixedBody
  exact ⟨front, batch, back, hbatch, hdocuments.symm⟩

/-- The index is created, and then the documents are sent. -/
def lettersSent : List (Message × Timestamp × ℕ) :=
  [⟨createLetters, 0, 2⟩, ⟨postLetters mixedBody, 1, 3⟩]

theorem passes_lettersSent {limit : ℕ} (hlimit : 100 ≤ limit) :
    ∀ s ∈ lettersSent, Library.Passes (referenceLibrary limit) s.1 := by
  have hlength : ∀ s ∈ lettersSent, s.1.body.length ≤ 100 := by decide
  intro s hs rejection hrefuses
  have hlonger := hrefuses.1
  have hshort := hlength s hs
  omega

theorem run_letters (draw : ε → UInt64 × ε) (engine : ε) (limit : ℕ) :
    ∃ exchanges state, exchanges.map Exchange.sent = lettersSent ∧
      (server reference (referenceLibrary limit) draw).Run exchanges state := by
  apply exists_run reference draw (referenceLibrary_lawful limit) engine
  · intro s hs
    rcases List.mem_pair.mp hs with rfl | rfl
    · exact ⟨_, asks_createLetters limit⟩
    · exact ⟨_, asks_postLetters limit _⟩
  · intro s hs params
    have hranges : ∀ s ∈ lettersSent,
        s.1.headers.all fun header => !isNamed rangeHeader header := by decide
    exact leaves_referenceLibrary limit (hranges s hs)

/-- The API creates the index and takes the documents. -/
theorem answers_letters {limit : ℕ} (hlimit : 100 ≤ limit) {calls : List ApiCall}
    {catalogue : Catalogue} (h : (api (referenceLibrary limit)).Run calls catalogue)
    (hsent : calls.map (fun call => (call.message, call.now)) =
      [(createLetters, 0), (postLetters mixedBody, 1)]) :
    calls.map ApiCall.answer = [.created (indexCreatedAt 0 letters none), .ingested 2 none] ∧
      catalogue letters.value =
        some (indexCreatedAt 0 letters none, [mixedDocument, emptyDocument]) := by
  obtain ⟨⟨message, now, answer⟩, rest, rfl, hfirst, hrest⟩ := List.map_eq_cons_iff.mp hsent
  obtain ⟨⟨message', now', answer'⟩, rest, rfl, hsecond, hrest⟩ := List.map_eq_cons_iff.mp hrest
  obtain rfl := List.map_eq_nil_iff.mp hrest
  obtain ⟨rfl, rfl⟩ := Prod.mk.inj hfirst
  obtain ⟨rfl, rfl⟩ := Prod.mk.inj hsecond
  obtain ⟨middle, hrun, hingest⟩ := @Machine.Run.exists_last _ _ _ [_] _ _ h
  obtain ⟨start, hstart, hcreate⟩ := @Machine.Run.exists_last _ _ _ [] _ _ hrun
  obtain rfl : start = fun _ => none := hstart.initial
  have hpasses := passes_lettersSent hlimit
  have hcreated : IsCreateIndex createLetters.body letters.value none :=
    isCreateIndex_createLetters
  obtain ⟨rfl, rfl⟩ := (ApiStep.handles hcreate (hpasses _ List.mem_cons_self)
    (asks_createLetters limit) (by simp) namesJson_jsonMediaType).creates hcreated rfl
  obtain ⟨front, batch, back, hbatch, hdocuments⟩ := exists_isBatch_mixedBody
  obtain ⟨rfl, rfl⟩ := (ApiStep.handles hingest
    (hpasses _ (List.mem_cons_of_mem _ List.mem_cons_self)) (asks_postLetters limit _) (by simp)
    namesJson_jsonMediaType).ingests hbatch
  have hlength : batch.elements.length = 2 := by
    have hlengths := congrArg List.length hdocuments
    rwa [List.length_map] at hlengths
  rw [hlength, hdocuments]
  exact ⟨rfl, rfl⟩

/-- An index and a batch of documents with words. -/
theorem server_refines_api_letters : ∃ exchanges state calls catalogue,
    exchanges.map Exchange.sent = lettersSent ∧
      (server reference (referenceLibrary 100) fun engine : UInt64 => (engine, engine)).Run
        exchanges state ∧
      (api (referenceLibrary 100)).Run calls catalogue ∧ List.Forall₂ Says exchanges calls ∧
      Represents state.application.indexes catalogue ∧
      calls.map ApiCall.answer = [.created (indexCreatedAt 0 letters none), .ingested 2 none] := by
  obtain ⟨exchanges, state, hsent, hrun⟩ :=
    run_letters (fun engine : UInt64 => (engine, engine)) 7 100
  obtain ⟨calls, catalogue, happ, hsaid, hrepresents⟩ :=
    server_refines_api (referenceLibrary_lawful 100) reference_lawful hrun
  have hanswers := answers_letters le_rfl happ <| by
    rw [map_calls hsaid, hsent]
    rfl
  exact ⟨exchanges, state, calls, catalogue, hsent, hrun, happ, hsaid, hrepresents, hanswers.1⟩

end Leta
