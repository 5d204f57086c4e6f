import Leta.Http.Server

/-! # Routes and the patterns of the library

`add_route` writes a path as a pattern of cpp-httplib, which then decides by that pattern
which requests the route gets. -/

namespace Leta

open Httplib

/-- The port writes a parameter `{uid}`, the library `:uid`. -/
def toLibraryPattern (path : Bytes) : Bytes :=
  path.filterMap fun character =>
    if character = 0x7b then some 0x3a
    else if character ≠ 0x7d then some character
    else none

/-- What is registered with the library's `Get` or `Post`. -/
structure Registration (ε σ : Type) where
  method : HttpMethod
  pattern : Bytes
  handler : Httplib.Request → ε → σ → Routed ε σ

def addRoute {ε σ : Type} (library : Library) (draw : ε → UInt64 × ε) (route : Route σ) :
    Registration ε σ where
  method := route.method
  pattern := toLibraryPattern route.path
  handler := adapt library draw route.method route.handler

end Leta
