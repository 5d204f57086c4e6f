import Leta.Http.Dispatch
import Leta.Http.Handlers

/-! # Handlers that run out of memory

Any allocation of a handler may throw: while it reads its request, in the call of a service, or
while it writes its answer. -/

namespace Leta

open Httplib

/-- The repositories that a call leaves behind when one of its allocations throws. -/
def Call.points (call : Call) (now : Timestamp) (repository : InMemoryIndexRepository) :
    List InMemoryIndexRepository :=
  match call with
  | .create command => (createIndex now command repository).points
  | .ingest command => (addDocuments now command repository).points

/-- What a handler that throws leaves behind. -/
inductive MainRoute.LeavesBehind (S : Ondemand) (now : Timestamp) (route : MainRoute)
    (request : HttpRequest) (application : Application) : Application → Prop where
  /-- It has not come to its access. -/
  | reading : LeavesBehind S now route request application application
  | calling {call indexes} : route.begin S request = .shared (.service call) →
      indexes ∈ call.points now application.indexes →
      LeavesBehind S now route request application { application with indexes }
  | writing {call} : route.begin S request = .shared (.service call) →
      LeavesBehind S now route request application
        { application with indexes := (call.run now application.indexes).2 }

/-- The faults are those of a handler's allocations. -/
def Faults.AreAllocations (S : Ondemand) (now : Timestamp) (route : MainRoute) (faults : Faults) :
    Prop :=
  ∀ request application exception after, faults request application = some (exception, after) →
    route.LeavesBehind S now request application after

/-- The allocation of that number in the handler's call throws. -/
def Faults.atAllocation (S : Ondemand) (now : Timestamp) (route : MainRoute) (k : ℕ) : Faults :=
  fun request application => match route.begin S request with
  | .shared (.service call) => (call.points now application.indexes)[k]?.map fun indexes =>
      (.standard (ascii "std::bad_alloc"), { application with indexes })
  | _ => none

theorem areAllocations_atAllocation (S : Ondemand) (now : Timestamp) (route : MainRoute) (k : ℕ) :
    (Faults.atAllocation S now route k).AreAllocations S now route := by
  intro request application exception after h
  rw [Faults.atAllocation] at h
  split at h
  · rename_i call hbegin
    obtain ⟨indexes, hindexes, heq⟩ := Option.map_eq_some_iff.mp h
    obtain ⟨-, rfl⟩ := Prod.mk.inj heq
    exact .calling hbegin (List.mem_of_getElem? hindexes)
  · cases h

theorem areAllocations_noFaults (S : Ondemand) (now : Timestamp) (route : MainRoute) :
    noFaults.AreAllocations S now route := by
  intro request application exception after h
  cases h

variable {ε : Type}

/-- The exchange takes the server from one state to the next. Its handler may throw, and what a
route returns is sent as it is. -/
inductive ServesOrThrows (S : Ondemand) (library : Library) (draw : ε → UInt64 × ε) :
    ServerState ε → Exchange → ServerState ε → Prop where
  | rejected {state : ServerState ε} {message now elapsed params rejection served} :
      Dispatches library (mainRoutes S now elapsed noFaults) message params
        (.rejected rejection) →
      served = processRequest library draw (.rejected rejection) (message.request params)
        state.engine state.application →
      ServesOrThrows S library draw state ⟨message, now, elapsed, served.response⟩
        ⟨served.state, served.engine⟩
  | routed {state : ServerState ε} {message now elapsed params faults served}
      {route : MainRoute} :
      Dispatches library (mainRoutes S now elapsed faults) message params
        (.route (route.route S now elapsed faults)) →
      faults.AreAllocations S now route → library.Leaves (message.request params) →
      served = processRequest library draw (.route (route.route S now elapsed faults))
        (message.request params) state.engine state.application →
      ServesOrThrows S library draw state ⟨message, now, elapsed, served.response⟩
        ⟨served.state, served.engine⟩

end Leta
