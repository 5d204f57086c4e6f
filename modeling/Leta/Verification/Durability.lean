import Leta.Verification.Footprint
import Leta.Verification.Workers

/-! # What the pool has acknowledged

Whatever the workers do at the same time, and whatever their handlers throw: the pool keeps a
ledger, in which each message stands where it took effect. -/

namespace Leta

open Httplib Json Ondemand

variable {τ ι κ ω ε : Type} [DecidableEq ι] [DecidableEq ω] {S : Ondemand} {library : Library}
  {draw : ε → UInt64 × ε} {threads : Threads τ ι κ ω}

/-! ## What is owed to a message -/

/-- The status is the one that the message came to, unless its handler threw afterwards. -/
def Tells (entry : Entry) (status : ℤ) : Prop := status = entry.status ∨ status = 500

variable (S library draw) in
/-- What holds of a message, given the ledger. -/
def Owed (events : List (PoolEvent ι κ ω ⊕ PoolFault ι ω)) (entries : List (ι × Entry)) (i : ι) :
    Progress ω → Prop
  | .absent => True
  | .queued message => Arrived Sum.inl events i message
  | .begun task access => Arrived Sum.inl events i task.message ∧
      ∃ operation request, Begun S library task access operation request
  | .stamped task call now => Arrived Sum.inl events i task.message ∧
      .inl (.readClock i now) ∈ events ∧
      ∃ operation request, Begun S library task (.service call) operation request
  | .replied task received reply => task.IsFresh library ∧ library.Leaves task.request ∧
      ∃ entry, (i, entry) ∈ entries ∧ entry.message = task.message ∧
        ∀ elapsed, (reply.response received elapsed).status = entry.status
  | .answered task ending => ∃ entry, (i, entry) ∈ entries ∧ entry.message = task.message ∧
      ∀ engine : ε, Tells entry (library.finish (installHooks library draw) task.request ending
        engine).response.status
  | .sent message response => ∃ entry, (i, entry) ∈ entries ∧ entry.message = message ∧
      Tells entry response.status

omit [DecidableEq ι] [DecidableEq ω] in
theorem Owed.mono {events more : List (PoolEvent ι κ ω ⊕ PoolFault ι ω)}
    {entries later : List (ι × Entry)} {i : ι} {progress : Progress ω}
    (h : Owed S library draw events entries i progress) :
    Owed S library draw (events ++ more) (entries ++ later) i progress := by
  cases progress with
  | absent => trivial
  | queued message => exact Arrived.append h more
  | begun task access => exact ⟨h.1.append more, h.2⟩
  | stamped task call now => exact ⟨h.1.append more, List.mem_append_left _ h.2.1, h.2.2⟩
  | replied task received reply =>
      obtain ⟨hfresh, hleaves, entry, hentry, hreply⟩ := h
      exact ⟨hfresh, hleaves, entry, List.mem_append_left _ hentry, hreply⟩
  | answered task ending =>
      obtain ⟨entry, hentry, htold⟩ := h
      exact ⟨entry, List.mem_append_left _ hentry, htold⟩
  | sent message response =>
      obtain ⟨entry, hentry, htold⟩ := h
      exact ⟨entry, List.mem_append_left _ hentry, htold⟩

/-! ## The invariant -/

variable (S library draw) in
/-- The books of the pool. -/
def interruptedBooks : Bookkeeping ι (PoolEvent ι κ ω ⊕ PoolFault ι ω) Entry (Progress ω) where
  Recorded events i entry := Arrived Sum.inl events i entry.message ∧
    (entry.status = 201 → .inl (.readClock i entry.now) ∈ events)
  Promised := Owed S library draw
  recorded_append h label := ⟨h.1.append [label], fun hcreated =>
    List.mem_append_left _ (h.2 hcreated)⟩
  promised_append h _ _ := h.mono

/-- The messages that have taken effect make a ledger, which explains the pool. -/
structure Accounts (S : Ondemand) (library : Library) (draw : ε → UInt64 × ε)
    (events : List (PoolEvent ι κ ω ⊕ PoolFault ι ω)) (pool : Pool τ ι ω ε)
    (entries : List (ι × Entry)) : Prop where
  books : (interruptedBooks S library draw).Balances (ledger library) interruptedMoments events
    pool.progress entries pool.application.indexes
  ready : pool.application.readiness = .available

variable {events more : List (PoolEvent ι κ ω ⊕ PoolFault ι ω)}
  {event : PoolEvent ι κ ω ⊕ PoolFault ι ω} {pool pool' : Pool τ ι ω ε}
  {entries : List (ι × Entry)}

/-- The accounts go on. -/
def Accounts.GoOn (S : Ondemand) (library : Library) (draw : ε → UInt64 × ε)
    (events : List (PoolEvent ι κ ω ⊕ PoolFault ι ω)) (pool : Pool τ ι ω ε)
    (entries : List (ι × Entry)) : Prop :=
  ∃ entries', entries <+: entries' ∧ Accounts S library draw events pool entries'

omit [DecidableEq ω] in
/-- A step without effect. -/
theorem Accounts.silent (h : Accounts S library draw events pool entries)
    (hevent : effects (interruptedMoments event) = [])
    (happlication : pool'.application = pool.application) {i : ι} {next : Progress ω}
    (hprogress : pool'.progress = Function.update pool.progress i next)
    (hnext : Owed S library draw (events ++ [event]) entries i next) :
    Accounts.GoOn S library draw (events ++ [event]) pool' entries := by
  refine ⟨entries, List.prefix_rfl, ?_, happlication ▸ h.ready⟩
  rw [happlication]
  exact h.books.silent hevent hprogress hnext

omit [DecidableEq ι] [DecidableEq ω] in
/-- A step of the library alone. -/
theorem Accounts.idle (h : Accounts S library draw events pool entries)
    (hevent : effects (interruptedMoments event) = [])
    (happlication : pool'.application = pool.application)
    (hprogress : pool'.progress = pool.progress) :
    Accounts.GoOn S library draw (events ++ [event]) pool' entries := by
  refine ⟨entries, List.prefix_rfl, ?_, happlication ▸ h.ready⟩
  rw [happlication, hprogress]
  exact h.books.idle hevent

omit [DecidableEq ω] in
/-- A step at which a message takes effect. -/
theorem Accounts.effective (h : Accounts S library draw events pool entries) {i : ι}
    (hevent : effects (interruptedMoments event) = [i]) {entry : Entry}
    (henters : Enters library pool.application.indexes entry pool'.application.indexes)
    (hready : pool'.application.readiness = .available)
    (harrived : Arrived Sum.inl events i entry.message)
    (hclocks : entry.status = 201 → .inl (.readClock i entry.now) ∈ events)
    {next : Progress ω} (hprogress : pool'.progress = Function.update pool.progress i next)
    (hnext : Owed S library draw (events ++ [event]) (entries ++ [(i, entry)]) i next) :
    Accounts.GoOn S library draw (events ++ [event]) pool' entries :=
  ⟨entries ++ [(i, entry)], List.prefix_append _ _,
    h.books.effective hevent henters ⟨harrived, hclocks⟩ hprogress hnext, hready⟩

omit [DecidableEq ω] in
/-- A step at which a message gets an error, and nothing else happens. -/
theorem Accounts.refused (h : Accounts S library draw events pool entries) {i : ι}
    (hevent : effects (interruptedMoments event) = [i]) {message : Message} (error : Error)
    (happlication : pool'.application = pool.application)
    (harrived : Arrived Sum.inl events i message) {next : Progress ω}
    (hprogress : pool'.progress = Function.update pool.progress i next)
    (hnext : ∀ entries' first,
      (i, (⟨message, 0, (errorResponse error).status, first⟩ : Entry)) ∈ entries' →
        Owed S library draw (events ++ [event]) entries' i next) :
    Accounts.GoOn S library draw (events ++ [event]) pool' entries := by
  have hcomes : Comes library message 0 pool.application.indexes (errorResponse error).status
      pool'.application.indexes := by
    rw [happlication]
    exact comes_of_error message 0 _ error
  refine h.effective hevent ⟨hcomes, rfl⟩ ?_ harrived ?_ hprogress
    (hnext _ _ (List.mem_append_right _ List.mem_cons_self))
  · rw [happlication]
    exact h.ready
  · intro hcreated
    have herror := status_errorResponse error
    dsimp only at hcreated
    omega

/-! ## Steps -/

omit [DecidableEq ι] [DecidableEq ω] in
/-- What is written over a fresh response leaves with its own status. -/
theorem status_written (laws : library.Lawful) {task : Task ω} (hfresh : task.IsFresh library)
    (hleaves : library.Leaves task.request) {response : HttpResponse} (hbody : response.body ≠ [])
    (engine : ε) : (library.finish (installHooks library draw) task.request
      (task.write library response) engine).response.status = response.status := by
  obtain ⟨id, hresponse, hid⟩ := hfresh
  rw [finish_write draw laws hresponse hid hleaves hbody, status_routeResponse laws]

omit [DecidableEq ι] [DecidableEq ω] in
theorem status_throw (laws : library.Lawful) {task : Task ω} (hfresh : task.IsFresh library)
    (exception : Exception) (engine : ε) : (library.finish (installHooks library draw)
      task.request (task.throw exception) engine).response.status = 500 := by
  obtain ⟨id, hresponse, hid⟩ := hfresh
  rw [Task.throw, hresponse, finish_of_threw laws hid.hasRequestIdForm,
    status_routeResponse laws]
  rfl

theorem Reply.status_response (reply : Reply) (received elapsed elapsed' : ℕ) :
    (reply.response received elapsed).status = (reply.response received elapsed').status := by
  cases reply with
  | created result => cases result <;> rfl
  | ingested result => cases result <;> rfl

omit [DecidableEq ι] [DecidableEq ω] in
/-- What a worker is called for has arrived. -/
theorem Accounts.arrived_of_call (h : Accounts S library draw events pool entries)
    (turns : threads.Lawful) (htracks : Tracks threads (events.filterMap interruptedThread?) pool)
    {i : ι} {worker : ω} {message : Message} {s : τ}
    (hcall : threads.Step pool.threads (.call i worker message) s) :
    Arrived Sum.inl events i message := by
  have howed : Owed S library draw events entries i (pool.progress i) := h.books.promised i
  rw [htracks.queued_of_call turns hcall] at howed
  exact howed

/-- A step of a worker whose handler does not throw. -/
theorem Accounts.step (laws : library.Lawful) (parser : S.Lawful) (turns : threads.Lawful)
    (h : Accounts S library draw events pool entries)
    (htracks : Tracks threads (events.filterMap interruptedThread?) pool)
    {event : PoolEvent ι κ ω} (hstep : PoolStep S library draw threads pool event pool') :
    Accounts.GoOn S library draw (events ++ [.inl event]) pool' entries := by
  have howed : ∀ i, Owed S library draw events entries i (pool.progress i) := h.books.promised
  cases hstep with
  | @arrive i connection message s _ =>
      exact h.silent rfl rfl rfl ⟨connection, List.mem_append_right _ List.mem_cons_self⟩
  | internal _ => exact h.idle rfl rfl rfl
  | @reject i message worker now elapsed params rejection s hcall hdispatch =>
      obtain ⟨hstatus, hbody, -⟩ := api_rejected laws hdispatch
      have hsaid : ∀ engine : ε, Says ⟨message, 0, 0, (processRequest library draw
          (.rejected rejection) (message.request params) engine ()).response⟩
          ⟨message, 0, .failed (errorForLibraryStatus rejection.response.status)⟩ :=
        fun engine => says_rejected laws hstatus hbody params engine ()
      exact h.refused rfl (errorForLibraryStatus rejection.response.status) rfl
        (h.arrived_of_call turns htracks hcall) rfl fun entries' first hentry =>
          ⟨_, hentry, rfl, fun engine => .inl (hsaid engine).status⟩
  | @answer i message worker now elapsed params response engine answer s route hcall hdispatch
      hleaves hbegin =>
      have hfresh := isFresh_adaptBegin laws worker hbegin
      obtain ⟨error, rfl, -, -⟩ := adaptBegin_cases laws parser hdispatch hleaves worker hbegin
      exact h.refused rfl error rfl (h.arrived_of_call turns htracks hcall) rfl
        fun entries' first hentry => ⟨_, hentry, rfl, fun engine =>
          .inl (status_written laws hfresh hleaves (body_errorResponse_ne_nil error) engine)⟩
  | @begin i message worker now elapsed params response engine access s route hcall hdispatch
      hleaves hbegin =>
      have hbegun := adaptBegin_cases laws parser hdispatch hleaves worker hbegin
      exact h.silent rfl rfl rfl ⟨(h.arrived_of_call turns htracks hcall).append _, hbegun⟩
  | @loadReadiness i task hi =>
      have hbegun := howed i
      rw [hi] at hbegun
      obtain ⟨harrived, operation, request, hbegun⟩ := hbegun
      obtain rfl := begin_eq_readiness.mp hbegun.begin
      let entry : Entry := ⟨task.message, 0, 200, pool.application.indexes.count⟩
      have henters : Enters library pool.application.indexes entry pool.application.indexes :=
        ⟨.health hbegun.asks, rfl⟩
      refine h.effective rfl henters h.ready harrived (fun hcreated => by cases hcreated)
        rfl ⟨_, List.mem_append_right _ List.mem_cons_self, rfl, fun engine => .inl ?_⟩
      rw [h.ready]
      exact status_written laws hbegun.fresh hbegun.leaves body_health_ne_nil engine
  | @readClock i task call now hi =>
      have hbegun := howed i
      rw [hi] at hbegun
      exact h.silent rfl rfl rfl ⟨hbegun.1.append _,
        List.mem_append_right _ List.mem_cons_self, hbegun.2⟩
  | @commit i task call now replied hi hreplied =>
      subst hreplied
      have hstamped := howed i
      rw [hi] at hstamped
      obtain ⟨harrived, hclock, operation, request, hbegun⟩ := hstamped
      have hstarts := starts_of_begin parser hbegun.named hbegun.begin
      rw [hbegun.body] at hstarts
      let entry : Entry := ⟨task.message, now, ((call.run now pool.application.indexes).1.response
        (documentsOf call).length 0).status, pool.application.indexes.count⟩
      have henters : Enters library pool.application.indexes entry
          (call.run now pool.application.indexes).2 := ⟨.replied hbegun.asks hstarts, rfl⟩
      refine h.effective rfl henters h.ready harrived (fun _ => hclock) rfl
        ⟨hbegun.fresh, hbegun.leaves, _, List.mem_append_right _ List.mem_cons_self, rfl,
          fun elapsed => ?_⟩
      rw [Reply.status_response _ _ elapsed 0]
  | @write i task received reply elapsed hi =>
      have hreplied := howed i
      rw [hi] at hreplied
      obtain ⟨hfresh, hleaves, entry, hentry, hmessage, hstatus⟩ := hreplied
      refine h.silent rfl rfl rfl ⟨entry, hentry, hmessage, fun engine => .inl ?_⟩
      rw [← hstatus elapsed]
      exact status_written laws hfresh hleaves (reply.body_ne_nil received elapsed) engine
  | @send i task ending finished s hi hfinished _ =>
      subst hfinished
      have hanswered := howed i
      rw [hi] at hanswered
      obtain ⟨entry, hentry, hmessage, htold⟩ := hanswered
      exact h.silent rfl rfl rfl ⟨entry, hentry, hmessage, htold _⟩

/-- A step of a worker whose handler throws. -/
theorem Accounts.throw (laws : library.Lawful) (parser : S.Lawful) (turns : threads.Lawful)
    (h : Accounts S library draw events pool entries)
    (htracks : Tracks threads (events.filterMap interruptedThread?) pool)
    {fault : PoolFault ι ω} (hstep : ThrowStep S library draw threads pool fault pool') :
    Accounts.GoOn S library draw (events ++ [.inr fault]) pool' entries := by
  have howed : ∀ i, Owed S library draw events entries i (pool.progress i) := h.books.promised
  -- A handler that throws before it comes to the repository leaves it alone.
  let internalError : Error := ⟨.internal, ascii "Internal error."⟩
  cases hstep with
  | @read i message worker now elapsed params response engine work s route exception hcall _ _
      hbegin =>
      have hfresh := isFresh_adaptBegin laws worker hbegin
      exact h.refused rfl internalError rfl (h.arrived_of_call turns htracks hcall) rfl
        fun entries' first hentry =>
          ⟨_, hentry, rfl, fun engine => .inr (status_throw laws hfresh exception engine)⟩
  | @access i task access exception hi =>
      have hbegun := howed i
      rw [hi] at hbegun
      obtain ⟨harrived, operation, request, hbegun⟩ := hbegun
      exact h.refused rfl internalError rfl harrived rfl fun entries' first hentry =>
        ⟨_, hentry, rfl, fun engine => .inr (status_throw laws hbegun.fresh exception engine)⟩
  | @commit i task call now indexes exception hi hindexes =>
      have hstamped := howed i
      rw [hi] at hstamped
      obtain ⟨harrived, -, operation, request, hbegun⟩ := hstamped
      have hstarts := starts_of_begin parser hbegun.named hbegun.begin
      rw [hbegun.body] at hstarts
      let entry : Entry := ⟨task.message, now, 500, pool.application.indexes.count⟩
      have henters : Enters library pool.application.indexes entry indexes :=
        ⟨.threw hbegun.asks hstarts (.inl hindexes), rfl⟩
      refine h.effective rfl henters h.ready harrived (fun hcreated => by cases hcreated)
        rfl ⟨_, List.mem_append_right _ List.mem_cons_self, rfl, fun engine => .inr ?_⟩
      exact status_throw laws hbegun.fresh exception engine
  | @write i task received reply exception hi =>
      have hreplied := howed i
      rw [hi] at hreplied
      obtain ⟨hfresh, hleaves, entry, hentry, hmessage, -⟩ := hreplied
      refine h.silent rfl rfl rfl ⟨entry, hentry, hmessage, fun engine => .inr ?_⟩
      exact status_throw laws hfresh exception engine

theorem Accounts.path (laws : library.Lawful) (parser : S.Lawful) (turns : threads.Lawful)
    (hrun : (interruptedPool S library draw threads).Run events pool)
    (h : Accounts S library draw events pool entries)
    (hpath : (interruptedPool S library draw threads).Path pool more pool') :
    Accounts.GoOn S library draw (events ++ more) pool' entries := by
  induction hpath with
  | refl =>
      rw [List.append_nil]
      exact ⟨entries, List.prefix_rfl, h⟩
  | @step more middle event pool' hpath hstep ih =>
      obtain ⟨entries', hprefix, haccounts⟩ := ih
      have htracks := (keeps_tracks turns).run (hrun.append hpath)
      rw [← List.append_assoc]
      obtain ⟨entries'', hprefix', haccounts'⟩ : Accounts.GoOn S library draw
          (events ++ more ++ [event]) pool' entries' := by
        cases event with
        | inl event => exact haccounts.step laws parser turns htracks hstep
        | inr fault => exact haccounts.throw laws parser turns htracks hstep
      exact ⟨entries'', hprefix.trans hprefix', haccounts'⟩

theorem accounts_start {pool : Pool τ ι ω ε}
    (hstart : (interruptedPool S library draw threads).Initial pool) :
    Accounts S library draw ([] : List (PoolEvent ι κ ω ⊕ PoolFault ι ω)) pool [] := by
  obtain ⟨-, happlication, habsent⟩ := hstart
  refine ⟨⟨.start ?_, rfl, by simp, fun i => ?_⟩, ?_⟩
  · rw [happlication]
    rfl
  · rw [habsent i]
    trivial
  · rw [happlication]

/-! ## Runs -/

/-- What the clients have been told is true of the repository, in an order of the messages that
agrees with real time and with their connections, and the repository holds no more than they
sent. -/
structure HonoursPool (library : Library) (events : List (PoolEvent ι κ ω ⊕ PoolFault ι ω))
    (pool : Pool τ ι ω ε) (entries : List (ι × Entry)) : Prop where
  honours : Honours library (entries.map Prod.snd) pool.application.indexes
  size : pool.application.indexes.size ≤ ((entries.map Prod.snd).map Entry.brought).sum
  nodup : (entries.map Prod.fst).Nodup
  arrived : ∀ i entry, (i, entry) ∈ entries → Arrived Sum.inl events i entry.message
  clocks : ∀ i entry, (i, entry) ∈ entries → entry.status = 201 →
    .inl (.readClock i entry.now) ∈ events
  told : ∀ i message response, pool.progress i = .sent message response →
    ∃ entry, (i, entry) ∈ entries ∧ entry.message = message ∧ Tells entry response.status
  realTime : ∀ i j connection message before between after,
    events = before ++ .inl (.send i) :: between ++
      .inl (.arrive j connection message) :: after →
    j ∈ entries.map Prod.fst → [i, j].Sublist (entries.map Prod.fst)
  inTurn : ∀ i j connection message message',
    [.inl (.arrive i connection message), .inl (.arrive j connection message')].Sublist events →
    j ∈ entries.map Prod.fst → [i, j].Sublist (entries.map Prod.fst)

theorem Accounts.honoursPool (turns : threads.Lawful)
    (hrun : (interruptedPool S library draw threads).Run events pool)
    (h : Accounts S library draw events pool entries) :
    HonoursPool library events pool entries := by
  have horderly := (staged_interrupted turns).orderly hrun
  refine ⟨(keeps_honours library).run h.books.run, (keeps_size_le library).run h.books.run,
    h.books.nodup horderly, fun i entry hentry => (h.books.recorded i entry hentry).1,
    fun i entry hentry => (h.books.recorded i entry hentry).2, ?_, ?_, ?_⟩
  · intro i message response hprogress
    have howed : Owed S library draw events entries i (pool.progress i) := h.books.promised i
    rwa [hprogress] at howed
  · intro i j connection message before between after hevents hj
    exact h.books.real_time horderly hevents rfl rfl hj
  · intro i j connection message message' harrived hj
    rw [h.books.order] at hj ⊢
    exact in_turn turns hrun harrived hj

/-- However the workers interleave and whatever their handlers throw, what has been acknowledged
is kept, also when the run goes on. -/
theorem workers_honour (laws : library.Lawful) (parser : S.Lawful) (turns : threads.Lawful)
    (h : (interruptedPool S library draw threads).Run events pool) :
    ∃ entries, HonoursPool library events pool entries ∧
      ∀ {more pool'}, (interruptedPool S library draw threads).Path pool more pool' →
        ∃ entries', entries <+: entries' ∧ HonoursPool library (events ++ more) pool' entries' := by
  obtain ⟨start, hstart, hpath⟩ := h.exists_path
  obtain ⟨entries, -, haccounts⟩ :=
    (accounts_start hstart).path laws parser turns (.start hstart) hpath
  refine ⟨entries, haccounts.honoursPool turns h, fun hpath' => ?_⟩
  obtain ⟨entries', hprefix, haccounts'⟩ := haccounts.path laws parser turns h hpath'
  exact ⟨entries', hprefix, haccounts'.honoursPool turns (h.append hpath')⟩

/-! ## Two connections -/

theorem run_interruptedBegin (laws : library.Lawful) (parser : S.Lawful)
    (h : (interruptedPool S library draw threads).Run events pool) {i : ι} {worker : ω}
    {message : Message} {s : τ} (hcall : threads.Step pool.threads (.call i worker message) s)
    {operation : Operation} (hasks : Asks library message operation)
    (hjson : NamesJson (headerValue message.headers contentTypeHeader))
    (hleaves : ∀ params, library.Leaves (message.request params)) {call : Call}
    (hstarts : operation.Starts message.body call) : ∃ params response engine,
      (interruptedPool S library draw threads).Run (events ++ [.inl (.begin i worker message)])
        (((pool.setThreads s).setEngine worker engine).setProgress i
          (.begun ⟨worker, message, params, response⟩ (.service call))) := by
  obtain ⟨params, response, engine, hstep⟩ :=
    exists_begin draw laws parser hcall hasks hjson hleaves hstarts
  exact ⟨params, response, engine, run_inl h hstep⟩

/-- An index is created, and the handler throws afterwards. Another client sends documents to it
twice, and the first time the handler throws in between. -/
def lettersCrash : List (PoolEvent ℕ Bool Bool ⊕ PoolFault ℕ Bool) :=
  [.inl .internal, .inl .internal, .inl .internal, .inl .internal,
    .inl (.arrive 0 true createLetters), .inl (.arrive 1 false (postLetters mixedBody)),
    .inl (.arrive 2 false (postLetters mixedBody)), .inl (.begin 0 true createLetters),
    .inl (.begin 1 false (postLetters mixedBody)), .inl (.readClock 0 0), .inl (.commit 0),
    .inl (.readClock 1 1), .inr (.commit 1), .inr (.write 0), .inl (.send 0), .inl (.send 1),
    .inl (.begin 2 false (postLetters mixedBody)), .inl (.readClock 2 2), .inl (.commit 2),
    .inl (.write 2 3), .inl (.send 2)]

theorem run_lettersCrash (draw : Unit → UInt64 × Unit) : ∃ pool first second third,
    pool.progress 0 = .sent createLetters first ∧
    pool.progress 1 = .sent (postLetters mixedBody) second ∧
    pool.progress 2 = .sent (postLetters mixedBody) third ∧
    (interruptedPool reference (referenceLibrary 100) draw
      (keepAlive : Threads (Connections ℕ Bool Bool) ℕ Bool Bool)).Run lettersCrash pool := by
  have hlaws := referenceLibrary_lawful 100
  have hcreated : IsCreateIndex createLetters.body letters.value none :=
    isCreateIndex_createLetters
  obtain ⟨indexes, hpoint⟩ := exists_point_ingestMixed
  let M := interruptedPool reference (referenceLibrary 100) draw
    (keepAlive : Threads (Connections ℕ Bool Bool) ℕ Bool Bool)
  have hrun : M.Run [] ⟨⟨[], fun _ => none, fun _ => [], fun _ => none, []⟩,
      ⟨.available, .empty⟩, fun _ => (), fun _ => .absent⟩ := .start ⟨rfl, rfl, fun _ => rfl⟩
  have hrun := run_inl hrun (.internal (.accept true (by decide) (by decide)))
  have hrun := run_inl hrun (.internal (.accept false (by decide) (by decide)))
  have hrun := run_inl hrun (.internal (.hold true rfl rfl))
  have hrun := run_inl hrun (.internal (.hold false rfl rfl))
  have hrun := run_inl hrun (PoolStep.arrive (i := 0) (.arrive true createLetters (by decide)))
  have hrun := run_inl hrun (PoolStep.arrive (i := 1)
    (.arrive false (postLetters mixedBody) (by decide)))
  have hrun := run_inl hrun (PoolStep.arrive (i := 2)
    (.arrive false (postLetters mixedBody) (by decide)))
  obtain ⟨params, response, engine, hrun⟩ := run_interruptedBegin hlaws reference_lawful hrun
    (i := 0) (.call true rfl rfl rfl) (asks_createLetters 100) namesJson_jsonMediaType
    leaves_createLetters (.create hcreated)
  obtain ⟨params, response, engine, hrun⟩ := run_interruptedBegin hlaws reference_lawful hrun
    (i := 1) (.call false rfl rfl rfl) (asks_postLetters 100 mixedBody) namesJson_jsonMediaType
    (leaves_postLetters _) starts_ingestMixed
  have hrun := run_inl hrun (PoolStep.readClock (i := 0) 0 rfl)
  have hrun := run_inl hrun (PoolStep.commit (i := 0) rfl rfl)
  have hrun := run_inl hrun (PoolStep.readClock (i := 1) 1 rfl)
  have hrun := run_inr hrun (ThrowStep.commit (i := 1) .other rfl hpoint)
  have hrun := run_inr hrun (ThrowStep.write (i := 0) .other rfl)
  have hrun := run_inl hrun (PoolStep.send (i := 0) rfl rfl (.send true rfl))
  have hrun := run_inl hrun (PoolStep.send (i := 1) rfl rfl (.send false rfl))
  obtain ⟨params, response, engine, hrun⟩ := run_interruptedBegin hlaws reference_lawful hrun
    (i := 2) (.call false rfl rfl rfl) (asks_postLetters 100 mixedBody) namesJson_jsonMediaType
    (leaves_postLetters _) starts_ingestMixed
  have hrun := run_inl hrun (PoolStep.readClock (i := 2) 2 rfl)
  have hrun := run_inl hrun (PoolStep.commit (i := 2) rfl rfl)
  have hrun := run_inl hrun (PoolStep.write (i := 2) 3 rfl)
  have hrun := run_inl hrun (PoolStep.send (i := 2) rfl rfl (.send false rfl))
  exact ⟨_, _, _, _, rfl, rfl, rfl, hrun⟩

theorem workers_honour_lettersCrash : ∃ pool first second third entries,
    pool.progress 0 = .sent createLetters first ∧
    pool.progress 1 = .sent (postLetters mixedBody) second ∧
    pool.progress 2 = .sent (postLetters mixedBody) third ∧
    (interruptedPool reference (referenceLibrary 100) (fun engine : Unit => (0, engine))
      (keepAlive : Threads (Connections ℕ Bool Bool) ℕ Bool Bool)).Run lettersCrash pool ∧
    HonoursPool (referenceLibrary 100) lettersCrash pool entries := by
  obtain ⟨pool, first, second, third, hfirst, hsecond, hthird, hrun⟩ :=
    run_lettersCrash fun engine => (0, engine)
  obtain ⟨entries, hhonours, -⟩ := workers_honour (referenceLibrary_lawful 100)
    reference_lawful Connections.keepAlive_lawful hrun
  exact ⟨pool, first, second, third, entries, hfirst, hsecond, hthird, hrun, hhonours⟩

end Leta
