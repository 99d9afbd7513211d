import ApiContract.Route.Basic
import ApiContract.Route.Template
import ApiContract.Url.Percent
/-!
# Looking up a route

The index holds one entry for each template, with the operations under it. Templates with fewer
placeholders come first, and of equally many the one that was declared first. A template that
matches the path but not the method does not hide a later one that matches both.
-/

namespace ApiContract

/-- A template with its operations, by method. -/
structure PathEntry where
  template : String
  pattern : PathPattern
  operations : Assoc Route
deriving DecidableEq, Repr

/-- The entries of all templates, in the order in which they are tried. -/
structure RouteIndex where
  entries : List PathEntry
deriving DecidableEq, Repr

/-- What looking up a route gives. -/
inductive Lookup where
  /-- The route, and the parameters taken from the path. -/
  | matched (route : Route) (params : Assoc String)
  /-- The path is declared, but not for the method. -/
  | methodNotAllowed (template : String)
  /-- The path is not declared. -/
  | unmanaged
deriving DecidableEq, Repr

namespace RouteIndex

/-- Add an operation to the entry of its template, or as a new entry at the end. -/
def addRoute : List PathEntry → Route → List PathEntry
  | [], route =>
    [⟨route.template, .ofTemplate route.template, [(route.method.name, route)]⟩]
  | e :: es, route =>
    if e.template = route.template then
      { e with operations := e.operations.insert route.method.name route } :: es
    else e :: addRoute es route

/-- Put an entry before the first that has more placeholders. -/
def place (entry : PathEntry) : List PathEntry → List PathEntry
  | [] => [entry]
  | e :: es =>
    if entry.pattern.names.length ≤ e.pattern.names.length then entry :: e :: es
    else e :: place entry es

/-- Order entries by the number of their placeholders; equal ones keep their order. -/
def byPlaceholders (entries : List PathEntry) : List PathEntry := entries.foldr place []

/-- Index a list of routes. -/
def ofRoutes (routes : List Route) : RouteIndex :=
  ⟨byPlaceholders (routes.foldl addRoute [])⟩

/-- The path parameters of an entry, without escapes; of two with one name the later stays. -/
def paramsOf (entry : PathEntry) (fillers : List (List Char)) : Assoc String :=
  .ofList ((entry.pattern.names.zip fillers).map fun e =>
    (e.1, String.ofList (Percent.decodeText e.2)))

/-- Look a path up among entries; `first` is the template of an earlier one that matched it. -/
def lookupIn (method : Method) (path : List Char) : Option String → List PathEntry → Lookup
  | none, [] => .unmanaged
  | some template, [] => .methodNotAllowed template
  | first, e :: es =>
    match e.pattern.fill? path with
    | none => lookupIn method path first es
    | some fillers =>
      match e.operations.get? method.name with
      | some route => .matched route (paramsOf e fillers)
      | none => lookupIn method path (some (first.getD e.template)) es

/-- Look up the route of a request. A query on the path does not count. -/
def lookup (x : RouteIndex) (method : Method) (path : String) : Lookup :=
  lookupIn method (Text.before (· = '?') path.toList) none x.entries

/-- How many operations are indexed. -/
def size (x : RouteIndex) : Nat := (x.entries.flatMap (·.operations)).length

def isEmpty (x : RouteIndex) : Bool := x.entries.isEmpty

/-- Put a route in its place among routes ordered by template and method. -/
def insertRoute (route : Route) : List Route → List Route
  | [] => [route]
  | r :: rs =>
    if route.template < r.template ||
        (route.template = r.template && route.method.name < r.method.name) then route :: r :: rs
    else r :: insertRoute route rs

/-- All operations, ordered by template and then by method. -/
def routes (x : RouteIndex) : List Route :=
  (x.entries.flatMap fun e => e.operations.map (·.2)).foldr insertRoute []

end RouteIndex

end ApiContract
