import Leta.Verification.Server
import Leta.Verification.Turns

/-! # The pool of workers implements the API

Whatever the workers do at the same time, each message takes effect at one step, and what the
clients get is what the API answers to their messages one at a time, in the order of these steps. -/

namespace Leta

open Httplib Json Ondemand

variable {τ ι κ ω ε : Type} [DecidableEq ι] [DecidableEq ω] {S : Ondemand} {library : Library}
  {draw : ε → UInt64 × ε} {threads : Threads τ ι κ ω}

/-! ## What is promised to a message -/

/-- The message has come on a connection, in a run whose labels have the pool's events in them. -/
def Arrived {ℓ : Type} (label : PoolEvent ι κ ω → ℓ) (labels : List ℓ) (i : ι)
    (message : Message) : Prop :=
  ∃ connection, label (.arrive i connection message) ∈ labels

/-- The answer is one for which the clocks are read. -/
def Answer.ReadsClocks : Answer → Prop
  | .available | .failed _ => False
  | .created _ | .ingested _ _ => True

/-- The response says the answer, with what this message's steps read of the clocks. -/
def Settled (events : List (PoolEvent ι κ ω)) (i : ι) (message : Message)
    (response : Httplib.Response) (call : ApiCall) : Prop :=
  ∃ elapsed, Says ⟨message, call.now, elapsed, response⟩ call ∧
    (call.answer.ReadsClocks → .readClock i call.now ∈ events ∧ .write i elapsed ∈ events)

/-- The response so far is empty, but for its id. -/
def Task.IsFresh (library : Library) (task : Task ω) : Prop :=
  ∃ id, task.response = library.setHeader Response.fresh requestIdHeader id ∧
    IsRequestId (task.message.request []) id

/-- The task's handler has come to an access. -/
structure Begun (S : Ondemand) (library : Library) (task : Task ω) (access : Access)
    (operation : Operation) (request : HttpRequest) : Prop where
  asks : Asks library task.message operation
  named : operation.IsNamed request
  body : request.body = task.message.body
  json : operation ≠ .health → NamesJson (headerValue task.message.headers contentTypeHeader)
  begin : operation.route.begin S request = .shared access
  fresh : task.IsFresh library
  leaves : library.Leaves task.request

variable (S library draw) in
/-- What holds of a message, given the calls that have taken effect. -/
def Promised (events : List (PoolEvent ι κ ω)) (calls : List (ι × ApiCall)) (i : ι) :
    Progress ω → Prop
  | .absent => True
  | .queued message => Arrived id events i message
  | .begun task access => Arrived id events i task.message ∧
      ∃ operation request, Begun S library task access operation request
  | .stamped task call now => Arrived id events i task.message ∧ .readClock i now ∈ events ∧
      ∃ operation request, Begun S library task (.service call) operation request
  | .replied task received reply => task.IsFresh library ∧ library.Leaves task.request ∧
      ∃ call, (i, call) ∈ calls ∧ call.message = task.message ∧ .readClock i call.now ∈ events ∧
        ∀ elapsed, SaysAnswer elapsed (reply.response received elapsed) call.answer
  | .answered task ending => ∃ call, (i, call) ∈ calls ∧
      ∀ engine : ε, Settled events i task.message
        (library.finish (installHooks library draw) task.request ending engine).response call
  | .sent message response => ∃ call, (i, call) ∈ calls ∧ Settled events i message response call

omit [DecidableEq ι] [DecidableEq ω] in
theorem Arrived.append {ℓ : Type} {label : PoolEvent ι κ ω → ℓ} {labels : List ℓ} {i : ι}
    {message : Message} (h : Arrived label labels i message) (more : List ℓ) :
    Arrived label (labels ++ more) i message := by
  obtain ⟨connection, harrived⟩ := h
  exact ⟨connection, List.mem_append_left _ harrived⟩

omit [DecidableEq ι] [DecidableEq ω] in
theorem Settled.mono {events more : List (PoolEvent ι κ ω)} {i : ι} {message : Message}
    {response : Httplib.Response} {call : ApiCall} (h : Settled events i message response call) :
    Settled (events ++ more) i message response call := by
  obtain ⟨elapsed, hsaid, hclocks⟩ := h
  exact ⟨elapsed, hsaid, fun hreads => ⟨List.mem_append_left _ (hclocks hreads).1,
    List.mem_append_left _ (hclocks hreads).2⟩⟩

omit [DecidableEq ι] [DecidableEq ω] in
/-- Promises are kept. -/
theorem Promised.mono {events more : List (PoolEvent ι κ ω)} {calls later : List (ι × ApiCall)}
    {i : ι} {progress : Progress ω} (h : Promised S library draw events calls i progress) :
    Promised S library draw (events ++ more) (calls ++ later) i progress := by
  cases progress with
  | absent => trivial
  | queued message => exact Arrived.append h more
  | begun task access => exact ⟨h.1.append more, h.2⟩
  | stamped task call now => exact ⟨h.1.append more, List.mem_append_left _ h.2.1, h.2.2⟩
  | replied task received reply =>
      obtain ⟨hfresh, hleaves, call, hcall, hmessage, hclock, hsaid⟩ := h
      exact ⟨hfresh, hleaves, call, List.mem_append_left _ hcall, hmessage,
        List.mem_append_left _ hclock, hsaid⟩
  | answered task ending =>
      obtain ⟨call, hcall, hsettled⟩ := h
      exact ⟨call, List.mem_append_left _ hcall, fun engine => (hsettled engine).mono⟩
  | sent message response =>
      obtain ⟨call, hcall, hsettled⟩ := h
      exact ⟨call, List.mem_append_left _ hcall, hsettled.mono⟩

/-! ## The invariant -/

variable (S library draw) in
/-- The books of the pool. -/
def poolBooks : Bookkeeping ι (PoolEvent ι κ ω) ApiCall (Progress ω) where
  Recorded events i call := Arrived id events i call.message
  Promised := Promised S library draw
  recorded_append h label := h.append [label]
  promised_append h _ _ := h.mono

/-- The calls that have taken effect are a run of the API, and explain the pool. -/
structure Explains (S : Ondemand) (library : Library) (draw : ε → UInt64 × ε)
    (events : List (PoolEvent ι κ ω)) (pool : Pool τ ι ω ε) (calls : List (ι × ApiCall))
    (catalogue : Catalogue) : Prop where
  books : (poolBooks S library draw).Balances (api library) PoolEvent.moments events pool.progress
    calls catalogue
  ready : pool.application.readiness = .available
  implements : Implements pool.application.indexes catalogue

omit [DecidableEq ω] in
/-- A step without effect. -/
theorem Explains.silent {events : List (PoolEvent ι κ ω)} {event : PoolEvent ι κ ω}
    {pool pool' : Pool τ ι ω ε} {calls : List (ι × ApiCall)} {catalogue : Catalogue}
    (h : Explains S library draw events pool calls catalogue)
    (hevent : effects event.moments = []) (happlication : pool'.application = pool.application)
    {i : ι} {next : Progress ω} (hprogress : pool'.progress = Function.update pool.progress i next)
    (hnext : Promised S library draw (events ++ [event]) calls i next) :
    Explains S library draw (events ++ [event]) pool' calls catalogue where
  books := h.books.silent hevent hprogress hnext
  ready := happlication ▸ h.ready
  implements := happlication ▸ h.implements

omit [DecidableEq ι] [DecidableEq ω] in
/-- A step of the library alone. -/
theorem Explains.idle {events : List (PoolEvent ι κ ω)} {event : PoolEvent ι κ ω}
    {pool pool' : Pool τ ι ω ε} {calls : List (ι × ApiCall)} {catalogue : Catalogue}
    (h : Explains S library draw events pool calls catalogue)
    (hevent : effects event.moments = []) (happlication : pool'.application = pool.application)
    (hprogress : pool'.progress = pool.progress) :
    Explains S library draw (events ++ [event]) pool' calls catalogue where
  books := by
    rw [hprogress]
    exact h.books.idle hevent
  ready := happlication ▸ h.ready
  implements := happlication ▸ h.implements

omit [DecidableEq ω] in
/-- A step at which a message takes effect. -/
theorem Explains.effective {events : List (PoolEvent ι κ ω)} {event : PoolEvent ι κ ω}
    {pool pool' : Pool τ ι ω ε} {calls : List (ι × ApiCall)} {catalogue catalogue' : Catalogue}
    (h : Explains S library draw events pool calls catalogue) {i : ι}
    (hevent : effects event.moments = [i]) {call : ApiCall}
    (happ : ApiStep library catalogue call catalogue') (harrived : Arrived id events i call.message)
    (hready : pool'.application.readiness = .available)
    (himplements : Implements pool'.application.indexes catalogue')
    {next : Progress ω} (hprogress : pool'.progress = Function.update pool.progress i next)
    (hnext : Promised S library draw (events ++ [event]) (calls ++ [(i, call)]) i next) :
    Explains S library draw (events ++ [event]) pool' (calls ++ [(i, call)]) catalogue' where
  books := h.books.effective hevent happ harrived hprogress hnext
  ready := hready
  implements := himplements

/-! ## Steps -/

omit [DecidableEq ι] [DecidableEq ω] in
/-- What is written over a fresh response is sent as it is. -/
theorem finish_write (draw : ε → UInt64 × ε) (laws : library.Lawful) {task : Task ω} {id : Bytes}
    (hresponse : task.response = library.setHeader Response.fresh requestIdHeader id)
    (hid : IsRequestId (task.message.request []) id) (hleaves : library.Leaves task.request)
    {response : HttpResponse} (hbody : response.body ≠ []) (engine : ε) :
    library.finish (installHooks library draw) task.request (task.write library response) engine =
      ⟨routeResponse library id response, engine, []⟩ := by
  have hcarries := carries_routeResponse laws hid.hasRequestIdForm response
  have hwritten : task.write library response =
      .returned (routeResponse library id response) := by
    rw [Task.write, hresponse]
    rfl
  rw [hwritten, finish_of_carries laws hcarries, hleaves,
    applyError_of_body (by rwa [body_routeResponse laws])]

omit [DecidableEq ι] [DecidableEq ω] in
/-- An answer that is written over a fresh response leaves as it is. -/
theorem says_answered (laws : library.Lawful) {task : Task ω} (hfresh : task.IsFresh library)
    (hleaves : library.Leaves task.request) {elapsed : ℕ} {response : HttpResponse}
    {answer : Answer} (h : SaysAnswer elapsed response answer) (now : Timestamp) (engine : ε) :
    Says ⟨task.message, now, elapsed, (library.finish (installHooks library draw) task.request
      (task.write library response) engine).response⟩ ⟨task.message, now, answer⟩ := by
  obtain ⟨id, hresponse, hid⟩ := hfresh
  rw [finish_write draw laws hresponse hid hleaves h.body_ne_nil]
  exact says_routeResponse laws hid h

omit [DecidableEq ι] [DecidableEq ω] in
/-- A call that reads no clock is settled by what is said. -/
theorem settled_of_said {events : List (PoolEvent ι κ ω)} {i : ι} {message : Message}
    {response : Httplib.Response} {call : ApiCall} (elapsed : ℕ)
    (h : Says ⟨message, call.now, elapsed, response⟩ call) (hreads : ¬ call.answer.ReadsClocks) :
    Settled events i message response call :=
  ⟨elapsed, h, fun hclocks => absurd hclocks hreads⟩

theorem method_route {now : Timestamp} {elapsed : ℕ} {faults : Faults} (route : MainRoute) :
    (route.route S now elapsed faults).method = route.method := by
  cases route <;> rfl

section Begin

variable {message : Message} {now : Timestamp} {elapsed : ℕ} {params : List (Bytes × Bytes)}
  {route : MainRoute} {engine engine' : ε} {response : Httplib.Response} {work : Work}

omit [DecidableEq ω] in
/-- A route's response starts with its id. -/
theorem isFresh_adaptBegin (laws : library.Lawful) (worker : ω)
    (h : adaptBegin S library draw route (message.request params) engine =
      (response, engine', work)) :
    Task.IsFresh library ⟨worker, message, params, response⟩ := by
  have hid := isRequestId_resolveRequestId draw laws (message.request params) engine
  refine ⟨_, ?_, hid.echoed, hid.generated⟩
  simp only [adaptBegin] at h
  split_ifs at h
  · exact (Prod.mk.inj h).1.symm
  · exact (Prod.mk.inj h).1.symm

omit [DecidableEq ω] in
/-- What a route comes to with a message, before its access. -/
theorem adaptBegin_cases (laws : library.Lawful) (parser : S.Lawful)
    (hdispatch : Dispatches library (mainRoutes S now elapsed noFaults) message params
      (.route (route.route S now elapsed noFaults)))
    (hleaves : library.Leaves (message.request params)) (worker : ω)
    (h : adaptBegin S library draw route (message.request params) engine =
      (response, engine', work)) :
    match work with
      | .answered answer => ∃ error, answer = errorResponse error ∧ ValidUtf8 error.message ∧
          ∀ now catalogue, ApiStep library catalogue ⟨message, now, .failed error⟩ catalogue
      | .shared access => ∃ operation request,
          Begun S library ⟨worker, message, params, response⟩ access operation request := by
  obtain ⟨operation, hasks, hroute, htakes⟩ := asks_of_dispatches laws hdispatch
  obtain ⟨other, hother, rfl⟩ := (takes_iff_asks laws route).mp ⟨params, htakes⟩
  obtain rfl := hother.unique hasks
  have hfresh := isFresh_adaptBegin laws worker h
  by_cases hadmits : Admits (other.route.route S now elapsed noFaults) (message.request params)
  · have hgate := (admits_iff laws _ _).mp hadmits
    have hnamed := isNamed_neutralRequest laws hother htakes
      (resolveRequestId library draw (message.request params) engine).1
    have hjson : other ≠ .health →
        NamesJson (headerValue message.headers contentTypeHeader) := namesJson_of_admits hadmits
    rw [method_route] at hgate
    simp only [adaptBegin, hgate, Bool.false_eq_true, if_false, Prod.mk.injEq] at h
    obtain ⟨-, -, hbegin⟩ := h
    rw [neutralRequest, method_route] at hnamed
    cases work with
    | answered answer =>
        obtain ⟨error, rfl, hutf8, hhandles⟩ := handles_answered parser hnamed hbegin
        refine ⟨error, rfl, hutf8, fun now catalogue =>
          .handled hother (hjson ?_) (hhandles now catalogue)⟩
        rintro rfl
        cases hbegin
    | shared access => exact ⟨other, _, hother, hnamed, rfl, hjson, hbegin, hfresh, hleaves⟩
  · have hgate := mt (admits_iff laws _ _).mpr hadmits
    rw [method_route, Bool.not_eq_false] at hgate
    simp only [adaptBegin, hgate, if_true, Prod.mk.injEq] at h
    obtain ⟨-, -, rfl⟩ := h
    refine ⟨_, rfl, .of_all (by decide), fun now catalogue => .notJson hother ?_ ?_⟩
    · rintro rfl
      exact hadmits (.inl rfl)
    · exact fun hjson => hadmits (.inr hjson)

end Begin

variable {events : List (PoolEvent ι κ ω)} {pool pool' : Pool τ ι ω ε}

omit [DecidableEq ι] [DecidableEq ω] in
/-- What a worker is called for has arrived. -/
theorem Explains.arrived_of_call {calls : List (ι × ApiCall)} {catalogue : Catalogue}
    (h : Explains S library draw events pool calls catalogue) (turns : threads.Lawful)
    (htracks : Tracks threads (events.filterMap PoolEvent.thread?) pool) {i : ι} {worker : ω}
    {message : Message} {s : τ} (hcall : threads.Step pool.threads (.call i worker message) s) :
    Arrived id events i message := by
  have hpromised : Promised S library draw events calls i (pool.progress i) := h.books.promised i
  rw [htracks.queued_of_call turns hcall] at hpromised
  exact hpromised

theorem Explains.step (laws : library.Lawful) (parser : S.Lawful) (turns : threads.Lawful)
    {calls : List (ι × ApiCall)} {catalogue : Catalogue}
    (h : Explains S library draw events pool calls catalogue)
    (htracks : Tracks threads (events.filterMap PoolEvent.thread?) pool)
    {event : PoolEvent ι κ ω} (hstep : PoolStep S library draw threads pool event pool') :
    ∃ calls' catalogue', Explains S library draw (events ++ [event]) pool' calls' catalogue' := by
  have hpromised : ∀ i, Promised S library draw events calls i (pool.progress i) :=
    h.books.promised
  cases hstep with
  | @arrive i connection message s _ =>
      exact ⟨calls, catalogue, h.silent rfl rfl rfl
        ⟨connection, List.mem_append_right _ List.mem_cons_self⟩⟩
  | internal _ => exact ⟨calls, catalogue, h.idle rfl rfl rfl⟩
  | @reject i message worker now elapsed params rejection s hcall hdispatch =>
      obtain ⟨hstatus, hbody, happ⟩ := api_rejected laws hdispatch
      refine ⟨_, catalogue, h.effective rfl (happ 0 catalogue)
        (h.arrived_of_call turns htracks hcall) h.ready h.implements rfl
        ⟨_, List.mem_append_right _ List.mem_cons_self, fun engine => ?_⟩⟩
      exact settled_of_said 0
        (says_rejected laws hstatus hbody params engine ()) (by simp [Answer.ReadsClocks])
  | @answer i message worker now elapsed params response engine answer s route hcall hdispatch
      hleaves hbegin =>
      obtain ⟨error, rfl, hutf8, happ⟩ :=
        adaptBegin_cases laws parser hdispatch hleaves worker hbegin
      refine ⟨_, catalogue, h.effective rfl (happ 0 catalogue)
        (h.arrived_of_call turns htracks hcall) h.ready h.implements rfl
        ⟨_, List.mem_append_right _ List.mem_cons_self, fun engine => ?_⟩⟩
      exact settled_of_said 0
        (says_answered laws (isFresh_adaptBegin laws worker hbegin) hleaves
          (saysAnswer_errorResponse hutf8) 0 engine) (by simp [Answer.ReadsClocks])
  | @begin i message worker now elapsed params response engine access s route hcall hdispatch
      hleaves hbegin =>
      have hbegun := adaptBegin_cases laws parser hdispatch hleaves worker hbegin
      exact ⟨calls, catalogue, h.silent rfl rfl rfl
        ⟨(h.arrived_of_call turns htracks hcall).append _, hbegun⟩⟩
  | @loadReadiness i task hi =>
      have hbegun := hpromised i
      rw [hi] at hbegun
      obtain ⟨harrived, operation, request, hbegun⟩ := hbegun
      obtain rfl := begin_eq_readiness.mp hbegun.begin
      have happ : ApiStep library catalogue ⟨task.message, 0, .available⟩ catalogue :=
        .health hbegun.asks
      refine ⟨_, catalogue, h.effective rfl happ harrived h.ready h.implements rfl
        ⟨_, List.mem_append_right _ List.mem_cons_self, fun engine => ?_⟩⟩
      rw [h.ready]
      exact settled_of_said 0
        (says_answered laws hbegun.fresh hbegun.leaves saysAnswer_health 0 engine)
        (by simp [Answer.ReadsClocks])
  | @readClock i task call now hi =>
      have hbegun := hpromised i
      rw [hi] at hbegun
      exact ⟨calls, catalogue, h.silent rfl rfl rfl ⟨hbegun.1.append _,
        List.mem_append_right _ List.mem_cons_self, hbegun.2⟩⟩
  | @commit i task call now replied hi hreplied =>
      subst hreplied
      have hstamped := hpromised i
      rw [hi] at hstamped
      obtain ⟨harrived, hclock, operation, request, hbegun⟩ := hstamped
      obtain ⟨answer, catalogue', hhandles, hsaid, hafter⟩ :=
        handles_call (starts_of_begin parser hbegun.named hbegun.begin) h.implements now
      rw [hbegun.body] at hhandles
      have hoperation : operation ≠ .health := by
        rintro rfl
        cases hhandles
      exact ⟨_, catalogue', h.effective rfl
        (.handled hbegun.asks (hbegun.json hoperation) hhandles) harrived h.ready hafter rfl
        ⟨hbegun.fresh, hbegun.leaves, _, List.mem_append_right _ List.mem_cons_self, rfl,
          List.mem_append_left _ hclock, hsaid⟩⟩
  | @write i task received reply elapsed hi =>
      have hreplied := hpromised i
      rw [hi] at hreplied
      obtain ⟨hfresh, hleaves, ⟨message, now, answer⟩, hcall, rfl, hclock, hsaid⟩ := hreplied
      refine ⟨calls, catalogue, h.silent rfl rfl rfl ⟨_, hcall, fun engine => ?_⟩⟩
      exact ⟨elapsed, says_answered laws hfresh hleaves (hsaid elapsed) now engine, fun _ =>
        ⟨List.mem_append_left _ hclock, List.mem_append_right _ List.mem_cons_self⟩⟩
  | @send i task ending finished s hi hfinished _ =>
      subst hfinished
      have hanswered := hpromised i
      rw [hi] at hanswered
      obtain ⟨call, hcall, hsettled⟩ := hanswered
      exact ⟨calls, catalogue, h.silent rfl rfl rfl ⟨call, hcall, (hsettled _).mono⟩⟩

theorem exists_explains (laws : library.Lawful) (parser : S.Lawful) (turns : threads.Lawful)
    (h : (workerPool S library draw threads).Run events pool) :
    ∃ calls catalogue, Explains S library draw events pool calls catalogue := by
  induction h with
  | @start pool hstart =>
      obtain ⟨-, happlication, habsent⟩ := hstart
      refine ⟨[], fun _ => none, ⟨.start rfl, rfl, by simp, fun i => ?_⟩, ?_, ?_⟩
      · rw [habsent i]
        trivial
      · rw [happlication]
      · rw [happlication]
        exact ⟨represents_empty, by simp⟩
  | step hrun hstep ih =>
      obtain ⟨calls, catalogue, hexplains⟩ := ih
      exact hexplains.step laws parser turns (tracks_workers turns hrun) hstep

/-! ## The order -/

/-- The calls, in the order in which they took effect, are a run of the API that explains the
responses and the repository, that never contradicts real time, and in which the messages of a
connection come one after the other. -/
structure LinearizesPool (library : Library) (events : List (PoolEvent ι κ ω))
    (pool : Pool τ ι ω ε) (calls : List (ι × ApiCall)) (catalogue : Catalogue) : Prop where
  run : (api library).Run (calls.map Prod.snd) catalogue
  represents : Represents pool.application.indexes catalogue
  nodup : (calls.map Prod.fst).Nodup
  arrived : ∀ i call, (i, call) ∈ calls → Arrived id events i call.message
  sent : ∀ i message response, pool.progress i = .sent message response →
    ∃ call, (i, call) ∈ calls ∧ Settled events i message response call
  realTime : ∀ i j connection message before between after,
    events = before ++ .send i :: between ++ .arrive j connection message :: after →
    j ∈ calls.map Prod.fst → [i, j].Sublist (calls.map Prod.fst)
  inTurn : ∀ i j connection message message',
    [.arrive i connection message, .arrive j connection message'].Sublist events →
    j ∈ calls.map Prod.fst → [i, j].Sublist (calls.map Prod.fst)

/-- Any run of the pool is linearizable: it is a run of the API, in an order of its messages that
agrees with real time and with their connections. -/
theorem workers_linearize (laws : library.Lawful) (parser : S.Lawful) (turns : threads.Lawful)
    (h : (workerPool S library draw threads).Run events pool) :
    ∃ calls catalogue, LinearizesPool library events pool calls catalogue := by
  obtain ⟨calls, catalogue, hexplains⟩ := exists_explains laws parser turns h
  have horderly := (staged_workers turns).orderly h
  refine ⟨calls, catalogue, hexplains.books.run, hexplains.implements.represents,
    hexplains.books.nodup horderly, hexplains.books.recorded, ?_, ?_, ?_⟩
  · intro i message response hprogress
    have hpromised : Promised S library draw events calls i (pool.progress i) :=
      hexplains.books.promised i
    rwa [hprogress] at hpromised
  · intro i j connection message before between after hevents hj
    exact hexplains.books.real_time horderly hevents rfl rfl hj
  · intro i j connection message message' harrived hj
    rw [hexplains.books.order] at hj ⊢
    exact in_turn_workers turns h harrived hj

/-! ## Two connections -/

/-- A worker that is called for a message comes to its call. -/
theorem exists_begin (draw : ε → UInt64 × ε) (laws : library.Lawful) (parser : S.Lawful) {i : ι}
    {worker : ω} {message : Message} {s : τ}
    (hcall : threads.Step pool.threads (.call i worker message) s) {operation : Operation}
    (hasks : Asks library message operation)
    (hjson : NamesJson (headerValue message.headers contentTypeHeader))
    (hleaves : ∀ params, library.Leaves (message.request params)) {call : Call}
    (hstarts : operation.Starts message.body call) : ∃ params response engine,
      PoolStep S library draw threads pool (.begin i worker message)
        (((pool.setThreads s).setEngine worker engine).setProgress i
          (.begun ⟨worker, message, params, response⟩ (.service call))) := by
  obtain ⟨params, hdispatch⟩ : ∃ params, Dispatches library (mainRoutes S 0 0 noFaults) message
      params (.route (operation.route.route S 0 0 noFaults)) := dispatches_of_asks laws hasks
  obtain ⟨other, -, -, htakes⟩ := asks_of_dispatches laws hdispatch
  have hadmits : Admits (operation.route.route S 0 0 noFaults) (message.request params) :=
    .inr hjson
  have hgate := (admits_iff laws _ _).mp hadmits
  have hbegin := begin_of_starts parser (isNamed_neutralRequest laws hasks htakes
    (resolveRequestId library draw (message.request params) (pool.engines worker)).1) hstarts
  rw [neutralRequest, method_route] at hbegin
  rw [method_route] at hgate
  have hwork : (adaptBegin S library draw operation.route (message.request params)
      (pool.engines worker)).2.2 = .shared (.service call) := by
    simp only [adaptBegin, hgate, Bool.false_eq_true, if_false, hbegin]
  rcases hcome : adaptBegin S library draw operation.route (message.request params)
    (pool.engines worker) with ⟨response, engine, work⟩
  rw [hcome] at hwork
  obtain rfl : work = .shared (.service call) := hwork
  exact ⟨params, response, engine, .begin hcall hdispatch (hleaves params) hcome⟩

theorem run_begin (laws : library.Lawful) (parser : S.Lawful)
    (h : (workerPool S library draw threads).Run events pool) {i : ι} {worker : ω}
    {message : Message} {s : τ} (hcall : threads.Step pool.threads (.call i worker message) s)
    {operation : Operation} (hasks : Asks library message operation)
    (hjson : NamesJson (headerValue message.headers contentTypeHeader))
    (hleaves : ∀ params, library.Leaves (message.request params)) {call : Call}
    (hstarts : operation.Starts message.body call) : ∃ params response engine,
      (workerPool S library draw threads).Run (events ++ [.begin i worker message])
        (((pool.setThreads s).setEngine worker engine).setProgress i
          (.begun ⟨worker, message, params, response⟩ (.service call))) := by
  obtain ⟨params, response, engine, hstep⟩ :=
    exists_begin draw laws parser hcall hasks hjson hleaves hstarts
  exact ⟨params, response, engine, h.step hstep⟩

theorem leaves_createLetters (params : List (Bytes × Bytes)) :
    (referenceLibrary 100).Leaves (createLetters.request params) := by
  have hranges : createLetters.headers.all fun header => !isNamed rangeHeader header := by decide
  exact leaves_referenceLibrary 100 hranges

theorem leaves_postLetters (body : Bytes) (params : List (Bytes × Bytes)) :
    (referenceLibrary 100).Leaves ((postLetters body).request params) := by
  have hranges : [(contentTypeHeader, jsonMediaType)].all fun header =>
      !isNamed rangeHeader header := by decide
  exact leaves_referenceLibrary 100 hranges

/-- Two clients create the same index, and the first sends documents behind its request. The
message that is begun first commits last. -/
def lettersRace : List (PoolEvent ℕ Bool Bool) :=
  [.internal, .internal, .internal, .internal, .arrive 0 true createLetters,
    .arrive 1 false createLetters, .arrive 2 true (postLetters mixedBody),
    .begin 0 true createLetters, .begin 1 false createLetters, .readClock 1 2, .readClock 0 1,
    .commit 1, .commit 0, .write 0 3, .write 1 4, .send 0,
    .begin 2 true (postLetters mixedBody), .readClock 2 5, .commit 2, .write 2 6, .send 1, .send 2]

/-- The race on a pool of the reference library. -/
theorem run_lettersRace (draw : Unit → UInt64 × Unit) : ∃ pool first second third,
    pool.progress 0 = .sent createLetters first ∧ pool.progress 1 = .sent createLetters second ∧
    pool.progress 2 = .sent (postLetters mixedBody) third ∧
    (workerPool reference (referenceLibrary 100) draw
      (keepAlive : Threads (Connections ℕ Bool Bool) ℕ Bool Bool)).Run lettersRace pool := by
  have hlaws := referenceLibrary_lawful 100
  have hcreated : IsCreateIndex createLetters.body letters.value none :=
    isCreateIndex_createLetters
  obtain ⟨front, batch, back, hbatch, -⟩ := exists_isBatch_mixedBody
  let M := workerPool reference (referenceLibrary 100) draw
    (keepAlive : Threads (Connections ℕ Bool Bool) ℕ Bool Bool)
  have hrun : M.Run [] ⟨⟨[], fun _ => none, fun _ => [], fun _ => none, []⟩,
      ⟨.available, .empty⟩, fun _ => (), fun _ => .absent⟩ := .start ⟨rfl, rfl, fun _ => rfl⟩
  have hrun := hrun.step (PoolStep.internal (.accept true (by decide) (by decide)))
  have hrun := hrun.step (PoolStep.internal (.accept false (by decide) (by decide)))
  have hrun := hrun.step (PoolStep.internal (.hold true rfl rfl))
  have hrun := hrun.step (PoolStep.internal (.hold false rfl rfl))
  have hrun := hrun.step (PoolStep.arrive (i := 0) (.arrive true createLetters (by decide)))
  have hrun := hrun.step (PoolStep.arrive (i := 1) (.arrive false createLetters (by decide)))
  have hrun := hrun.step (PoolStep.arrive (i := 2)
    (.arrive true (postLetters mixedBody) (by decide)))
  obtain ⟨params, response, engine, hrun⟩ := run_begin hlaws reference_lawful hrun
    (i := 0) (.call true rfl rfl rfl) (asks_createLetters 100) namesJson_jsonMediaType
    leaves_createLetters (.create hcreated)
  obtain ⟨params, response, engine, hrun⟩ := run_begin hlaws reference_lawful hrun
    (i := 1) (.call false rfl rfl rfl) (asks_createLetters 100) namesJson_jsonMediaType
    leaves_createLetters (.create hcreated)
  have hrun := hrun.step (PoolStep.readClock (i := 1) 2 rfl)
  have hrun := hrun.step (PoolStep.readClock (i := 0) 1 rfl)
  have hrun := hrun.step (PoolStep.commit (i := 1) rfl rfl)
  have hrun := hrun.step (PoolStep.commit (i := 0) rfl rfl)
  have hrun := hrun.step (PoolStep.write (i := 0) 3 rfl)
  have hrun := hrun.step (PoolStep.write (i := 1) 4 rfl)
  have hrun := hrun.step (PoolStep.send (i := 0) rfl rfl (.send true rfl))
  obtain ⟨params, response, engine, hrun⟩ := run_begin hlaws reference_lawful hrun
    (i := 2) (.call true rfl rfl rfl) (asks_postLetters 100 mixedBody) namesJson_jsonMediaType
    (leaves_postLetters _) (.ingest hbatch)
  have hrun := hrun.step (PoolStep.readClock (i := 2) 5 rfl)
  have hrun := hrun.step (PoolStep.commit (i := 2) rfl rfl)
  have hrun := hrun.step (PoolStep.write (i := 2) 6 rfl)
  have hrun := hrun.step (PoolStep.send (i := 1) rfl rfl (.send false rfl))
  have hrun := hrun.step (PoolStep.send (i := 2) rfl rfl (.send true rfl))
  exact ⟨_, _, _, _, rfl, rfl, rfl, hrun⟩

theorem workers_linearize_lettersRace : ∃ pool first second third calls catalogue,
    pool.progress 0 = .sent createLetters first ∧ pool.progress 1 = .sent createLetters second ∧
    pool.progress 2 = .sent (postLetters mixedBody) third ∧
    (workerPool reference (referenceLibrary 100) (fun engine : Unit => (0, engine))
      (keepAlive : Threads (Connections ℕ Bool Bool) ℕ Bool Bool)).Run lettersRace pool ∧
    LinearizesPool (referenceLibrary 100) lettersRace pool calls catalogue := by
  obtain ⟨pool, first, second, third, hfirst, hsecond, hthird, hrun⟩ :=
    run_lettersRace fun engine => (0, engine)
  obtain ⟨calls, catalogue, hlinearizes⟩ := workers_linearize (referenceLibrary_lawful 100)
    reference_lawful Connections.keepAlive_lawful hrun
  exact ⟨pool, first, second, third, calls, catalogue, hfirst, hsecond, hthird, hrun, hlinearizes⟩

end Leta
