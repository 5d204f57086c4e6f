import Leta.Http.Dispatch
import Leta.Http.Handlers
import Leta.Http.Threads

/-! # Worker threads

The library serves each message on one of its threads. The threads share the application, and each
draws request ids from an engine of its own. One step is what a thread does up to its next access
to what is shared. -/

namespace Leta

open Httplib

variable {τ ι κ ω ε : Type}

/-- A message on a worker, and the response so far. -/
structure Task (ω : Type) where
  worker : ω
  message : Message
  params : List (Bytes × Bytes)
  response : Httplib.Response

def Task.request (task : Task ω) : Httplib.Request := task.message.request task.params

/-- How far the server has come with a message. -/
inductive Progress (ω : Type) where
  | absent
  /-- The client has sent it. -/
  | queued (message : Message)
  | begun (task : Task ω) (access : Access)
  /-- The service has read its clock. -/
  | stamped (task : Task ω) (call : Call) (now : Timestamp)
  /-- The repository has replied. -/
  | replied (task : Task ω) (received : ℕ) (reply : Reply)
  /-- What is installed has returned or thrown. -/
  | answered (task : Task ω) (ending : Ending)
  | sent (message : Message) (response : Httplib.Response)

structure Pool (τ ι ω ε : Type) where
  threads : τ
  application : Application
  engines : ω → ε
  progress : ι → Progress ω

inductive PoolEvent (ι κ ω : Type) where
  | arrive (i : ι) (connection : κ) (message : Message)
  | internal
  /-- A worker reads a message and answers it by itself. -/
  | answer (i : ι) (worker : ω) (message : Message)
  /-- A worker reads a message, and comes to an access. -/
  | begin (i : ι) (worker : ω) (message : Message)
  | loadReadiness (i : ι)
  | readClock (i : ι) (now : Timestamp)
  | commit (i : ι)
  | write (i : ι) (elapsed : ℕ)
  | send (i : ι)

/-- What the library's threads have a part in. -/
def PoolEvent.thread? : PoolEvent ι κ ω → Option (ThreadEvent ι κ ω)
  | .arrive i connection message => some (.arrive i connection message)
  | .internal => some .internal
  | .answer i worker message | .begin i worker message => some (.call i worker message)
  | .loadReadiness _ | .readClock _ _ | .commit _ | .write _ _ => none
  | .send i => some (.send i)

variable (S : Ondemand) (library : Library) (draw : ε → UInt64 × ε) (threads : Threads τ ι κ ω)

def Task.write (task : Task ω) (answer : HttpResponse) : Ending :=
  .returned (writeResponse library task.response answer)

/-- The part of `adapt` before the handler's access. -/
def adaptBegin (route : MainRoute) (request : Httplib.Request) (engine : ε) :
    Httplib.Response × ε × Work :=
  let (requestId, engine) := resolveRequestId library draw request engine
  let response := library.setHeader Response.fresh requestIdHeader requestId
  if expectsJsonBody route.method &&
      !isJsonContentType (library.getHeaderValue request.headers contentTypeHeader) then
    (response, engine, .answered (errorResponse nonJsonBodyError))
  else
    let neutral : HttpRequest :=
      ⟨route.method, request.path, pathParametersOf request, request.body, requestId⟩
    (response, engine, route.begin S neutral)

namespace Pool

variable (pool : Pool τ ι ω ε)

def setThreads (threads : τ) : Pool τ ι ω ε := { pool with threads }

def setProgress [DecidableEq ι] (i : ι) (progress : Progress ω) : Pool τ ι ω ε :=
  { pool with progress := Function.update pool.progress i progress }

def setEngine [DecidableEq ω] (worker : ω) (engine : ε) : Pool τ ι ω ε :=
  { pool with engines := Function.update pool.engines worker engine }

def setIndexes (indexes : InMemoryIndexRepository) : Pool τ ι ω ε :=
  { pool with application := { pool.application with indexes } }

end Pool

variable [DecidableEq ι] [DecidableEq ω]

/-- One step of the pool. The clocks may read anything, no handler throws, and what a route returns
is sent as it is. -/
inductive PoolStep : Pool τ ι ω ε → PoolEvent ι κ ω → Pool τ ι ω ε → Prop where
  | arrive {pool : Pool τ ι ω ε} {i connection message s} :
      threads.Step pool.threads (.arrive i connection message) s →
      PoolStep pool (.arrive i connection message)
        ((pool.setThreads s).setProgress i (.queued message))
  | internal {pool : Pool τ ι ω ε} {s} : threads.Step pool.threads .internal s →
      PoolStep pool .internal (pool.setThreads s)
  | reject {pool : Pool τ ι ω ε} {i message worker now elapsed params rejection s} :
      threads.Step pool.threads (.call i worker message) s →
      Dispatches library (mainRoutes S now elapsed noFaults) message params
        (.rejected rejection) →
      PoolStep pool (.answer i worker message) ((pool.setThreads s).setProgress i
        (.answered ⟨worker, message, params, .fresh⟩ (.rejected rejection)))
  | answer {pool : Pool τ ι ω ε} {i message worker now elapsed params response engine answer s}
      {route : MainRoute} :
      threads.Step pool.threads (.call i worker message) s →
      Dispatches library (mainRoutes S now elapsed noFaults) message params
        (.route (route.route S now elapsed noFaults)) →
      library.Leaves (message.request params) →
      adaptBegin S library draw route (message.request params) (pool.engines worker) =
        (response, engine, .answered answer) →
      PoolStep pool (.answer i worker message)
        (((pool.setThreads s).setEngine worker engine).setProgress i
          (.answered ⟨worker, message, params, response⟩
            (Task.write library ⟨worker, message, params, response⟩ answer)))
  | begin {pool : Pool τ ι ω ε} {i message worker now elapsed params response engine access s}
      {route : MainRoute} :
      threads.Step pool.threads (.call i worker message) s →
      Dispatches library (mainRoutes S now elapsed noFaults) message params
        (.route (route.route S now elapsed noFaults)) →
      library.Leaves (message.request params) →
      adaptBegin S library draw route (message.request params) (pool.engines worker) =
        (response, engine, .shared access) →
      PoolStep pool (.begin i worker message)
        (((pool.setThreads s).setEngine worker engine).setProgress i
          (.begun ⟨worker, message, params, response⟩ access))
  | loadReadiness {pool : Pool τ ι ω ε} {i task} : pool.progress i = .begun task .readiness →
      PoolStep pool (.loadReadiness i) (pool.setProgress i
        (.answered task (task.write library (healthResponse pool.application.readiness))))
  | readClock {pool : Pool τ ι ω ε} {i task call} (now) :
      pool.progress i = .begun task (.service call) →
      PoolStep pool (.readClock i now) (pool.setProgress i (.stamped task call now))
  | commit {pool : Pool τ ι ω ε} {i task call now replied} :
      pool.progress i = .stamped task call now →
      replied = call.run now pool.application.indexes →
      PoolStep pool (.commit i) ((pool.setIndexes replied.2).setProgress i
        (.replied task (documentsOf call).length replied.1))
  | write {pool : Pool τ ι ω ε} {i task received reply} (elapsed) :
      pool.progress i = .replied task received reply →
      PoolStep pool (.write i elapsed) (pool.setProgress i
        (.answered task (task.write library (reply.response received elapsed))))
  | send {pool : Pool τ ι ω ε} {i task ending finished s} :
      pool.progress i = .answered task ending →
      finished = library.finish (installHooks library draw) task.request ending
        (pool.engines task.worker) →
      threads.Step pool.threads (.send i) s →
      PoolStep pool (.send i)
        (((pool.setThreads s).setEngine task.worker finished.engine).setProgress i
          (.sent task.message finished.response))

/-- The pool that main starts, with any engines behind its ids. -/
def workerPool : Machine (Pool τ ι ω ε) (PoolEvent ι κ ω) where
  Initial pool := threads.Initial pool.threads ∧ pool.application = ⟨.available, .empty⟩ ∧
    ∀ i, pool.progress i = .absent
  Step := PoolStep S library draw threads

end Leta
