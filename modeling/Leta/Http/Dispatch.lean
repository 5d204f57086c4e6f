import Leta.Http.Routes
import Leta.Http.Routing

/-! # From a message to a route

The library refuses a message by itself, or looks for a route among those registered for the
message's method, in the order of their registration. -/

namespace Leta

namespace Httplib

/-- What the library answers when no route takes a message. -/
def notFound : Rejection := ⟨⟨404, [], []⟩, rfl⟩

variable {σ : Type} (library : Library)

/-- The route is registered for the message's method, and its pattern matches the path. -/
structure Takes (message : Message) (route : Route σ) (params : List (Bytes × Bytes)) : Prop where
  method : library.lookedUpAs message.method = some route.method
  path : library.matching.Accepts (toLibraryPattern route.path) message.path params

/-- Where a message ends up, and with which path parameters. -/
inductive Dispatches (routes : List (Route σ)) (message : Message) :
    List (Bytes × Bytes) → Dispatch σ → Prop where
  | refused {rejection} : library.Refuses message rejection →
      Dispatches routes message [] (.rejected rejection)
  | routed {before route after params} : routes = before ++ route :: after →
      (∀ earlier ∈ before, ∀ params, ¬ Takes library message earlier params) →
      Takes library message route params → Dispatches routes message params (.route route)
  | unrouted : (∀ route ∈ routes, ∀ params, ¬ Takes library message route params) →
      Dispatches routes message [] (.rejected notFound)

end Httplib

open Httplib

/-! ## The server of main -/

/-- No handler throws. -/
def noFaults : Faults := fun _ _ => none

def MainRoute.method : MainRoute → HttpMethod
  | .health => .get
  | .createIndex | .addDocuments => .post

/-- The routes in the order in which main registers them. -/
def mainRoutes (S : Ondemand) (now : Timestamp) (elapsed : ℕ) (faults : Faults) :
    List (Route Application) :=
  [MainRoute.health, .createIndex, .addDocuments].map (MainRoute.route S now elapsed faults)

/-- A message with the readings of the clocks while it was served, and what was answered. -/
structure Exchange where
  message : Message
  now : Timestamp
  elapsed : ℕ
  response : Httplib.Response

/-- The server between two messages, and the engine that draws request ids. -/
structure ServerState (ε : Type) where
  application : Application
  engine : ε

variable {ε : Type}

/-- The exchange takes the server from one state to the next. No handler throws, and what a route
returns is sent as it is. -/
inductive Serves (S : Ondemand) (library : Library) (draw : ε → UInt64 × ε) :
    ServerState ε → Exchange → ServerState ε → Prop where
  | served {state : ServerState ε} {message now elapsed params dispatch served} :
      Dispatches library (mainRoutes S now elapsed noFaults) message params dispatch →
      library.Leaves (message.request params) →
      served = processRequest library draw dispatch (message.request params) state.engine
        state.application →
      Serves S library draw state ⟨message, now, elapsed, served.response⟩
        ⟨served.state, served.engine⟩

end Leta
