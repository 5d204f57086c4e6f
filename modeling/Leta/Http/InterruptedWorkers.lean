import Leta.Http.Interruptions
import Leta.Http.Workers

/-! # Workers that run out of memory

A handler that throws leaves behind what its worker has done up to there. The exception hook
answers, and the worker goes on with the next message. -/

namespace Leta

open Httplib

variable {τ ι κ ω ε : Type}

/-- Where a handler throws. -/
inductive PoolFault (ι ω : Type) where
  /-- A worker reads a message, and its handler throws before its access. -/
  | read (i : ι) (worker : ω) (message : Message)
  | access (i : ι)
  | commit (i : ι)
  | write (i : ι)

def PoolFault.thread? : PoolFault ι ω → Option (ThreadEvent ι κ ω)
  | .read i worker message => some (.call i worker message)
  | .access _ | .commit _ | .write _ => none

def Task.throw (task : Task ω) (exception : Exception) : Ending :=
  .threw task.response exception

variable (S : Ondemand) (library : Library) (draw : ε → UInt64 × ε) (threads : Threads τ ι κ ω)
  [DecidableEq ι] [DecidableEq ω]

inductive ThrowStep : Pool τ ι ω ε → PoolFault ι ω → Pool τ ι ω ε → Prop where
  | read {pool : Pool τ ι ω ε} {i message worker now elapsed params response engine work s}
      {route : MainRoute} (exception) :
      threads.Step pool.threads (.call i worker message) s →
      Dispatches library (mainRoutes S now elapsed noFaults) message params
        (.route (route.route S now elapsed noFaults)) →
      -- The handler runs only if the content type is let through.
      (expectsJsonBody route.method && !isJsonContentType
        (library.getHeaderValue message.headers contentTypeHeader)) = false →
      adaptBegin S library draw route (message.request params) (pool.engines worker) =
        (response, engine, work) →
      ThrowStep pool (.read i worker message)
        (((pool.setThreads s).setEngine worker engine).setProgress i
          (.answered ⟨worker, message, params, response⟩
            (Task.throw ⟨worker, message, params, response⟩ exception)))
  | access {pool : Pool τ ι ω ε} {i task access} (exception) :
      pool.progress i = .begun task access →
      ThrowStep pool (.access i)
        (pool.setProgress i (.answered task (task.throw exception)))
  /-- The repository is left as it was at the allocation that threw. -/
  | commit {pool : Pool τ ι ω ε} {i task call now indexes} (exception) :
      pool.progress i = .stamped task call now →
      indexes ∈ call.points now pool.application.indexes →
      ThrowStep pool (.commit i) ((pool.setIndexes indexes).setProgress i
        (.answered task (task.throw exception)))
  | write {pool : Pool τ ι ω ε} {i task received reply} (exception) :
      pool.progress i = .replied task received reply →
      ThrowStep pool (.write i) (pool.setProgress i (.answered task (task.throw exception)))

/-- The pool that main starts. Any allocation of its handlers may throw. -/
def interruptedPool : Machine (Pool τ ι ω ε) (PoolEvent ι κ ω ⊕ PoolFault ι ω) where
  Initial := (workerPool S library draw threads).Initial
  Step pool event pool' := match event with
    | .inl event => PoolStep S library draw threads pool event pool'
    | .inr fault => ThrowStep S library draw threads pool fault pool'

variable {S library draw threads} {pool pool' : Pool τ ι ω ε}
  {events : List (PoolEvent ι κ ω ⊕ PoolFault ι ω)}

theorem run_inl {event : PoolEvent ι κ ω}
    (h : (interruptedPool S library draw threads).Run events pool)
    (hstep : PoolStep S library draw threads pool event pool') :
    (interruptedPool S library draw threads).Run (events ++ [.inl event]) pool' :=
  h.step hstep

theorem run_inr {fault : PoolFault ι ω}
    (h : (interruptedPool S library draw threads).Run events pool)
    (hstep : ThrowStep S library draw threads pool fault pool') :
    (interruptedPool S library draw threads).Run (events ++ [.inr fault]) pool' :=
  h.step hstep

end Leta
