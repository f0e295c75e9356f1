import TableParsing.Service.Target

/-!
# Routes

Where a request goes. An endpoint has one path and takes one method. Besides, files are looked for
under the path `/static/`; the service has none, but it knows which methods a file would take.
Every route can be asked for its options, and one that is read can be asked for without its body.

A path with needless slashes is not served. If it names a route without them, the client is sent
there.
-/

namespace TableParsing.Service

/-- What is offered under a path. -/
inductive Endpoint where
  /-- The sample grammars. -/
  | samples
  /-- The productions and symbols of a grammar. -/
  | grammar
  /-- The FIRST and FOLLOW sets. -/
  | sets
  /-- A parsing table, with the states that belong to it. -/
  | table
  /-- A simulated parse. -/
  | simulate
deriving DecidableEq, Repr

namespace Endpoint

/-- All endpoints. -/
def all : List Endpoint := [.samples, .grammar, .sets, .table, .simulate]

/-- The path of an endpoint. -/
def path : Endpoint → String
  | .samples => "/samples"
  | .grammar => "/grammar"
  | .sets => "/first-follow"
  | .table => "/table"
  | .simulate => "/simulate"

/-- The method by which an endpoint is asked. -/
def method : Endpoint → String
  | .samples => "GET"
  | _ => "POST"

end Endpoint

/-- What a path leads to. -/
inductive Route where
  /-- To an endpoint. -/
  | endpoint (endpoint : Endpoint)
  /-- To the place where a file would be. -/
  | file
deriving DecidableEq, Repr

namespace Route

/-- The path under which files are looked for. -/
def filesPath : String := "/static/"

/-- Whether a path names a file: it goes on behind the path of the files, with anything but a
slash, and it holds no line feed further on. -/
def isFilePath (path : List UInt8) : Bool :=
  let files := filesPath.toUTF8.toList
  files.isPrefixOf path &&
    match path.drop files.length with
    | [] => false
    | first :: rest => first ≠ Target.slash && !rest.contains 0x0A

/-- The route of a path. -/
def ofPath? (path : List UInt8) : Option Route :=
  match Endpoint.all.find? fun offered => offered.path.toUTF8.toList = path with
  | some offered => some (.endpoint offered)
  | none => if isFilePath path then some .file else none

/-- The method by which a route is asked. -/
def method : Route → String
  | .endpoint asked => asked.method
  | .file => "GET"

/-- Whether a route takes a method. -/
def takes (route : Route) (method : String) : Bool :=
  method = route.method || method = "OPTIONS" || (method = "HEAD" && route.method = "GET")

/-- Puts one slash for each pair of slashes, from the front on. -/
def mergeSlashes : List UInt8 → List UInt8
  | a :: b :: rest =>
    if a = Target.slash && b = Target.slash then Target.slash :: mergeSlashes rest
    else a :: mergeSlashes (b :: rest)
  | path => path

end Route

/-- What is to be done about a request. -/
inductive Dispatch where
  /-- An endpoint is to handle it. -/
  | handle (endpoint : Endpoint)
  /-- It is answered without a body. -/
  | acknowledge
  /-- The client is sent to another path. -/
  | redirect
  /-- Nothing is there. -/
  | missing
  /-- The route does not take the method. -/
  | refuse
deriving DecidableEq, Repr

namespace Dispatch

/-- What is to be done where a route has been found that takes the method. -/
def ofRoute (method : String) : Route → Dispatch
  | .endpoint endpoint => if method = endpoint.method then .handle endpoint else .acknowledge
  | .file => if method = "OPTIONS" then .acknowledge else .missing

/-- What is to be done about a request with a method and a target. -/
def ofRequest (method target : String) : Dispatch :=
  let path := Target.path target
  match Route.ofPath? path with
  | some route => if route.takes method then ofRoute method route else .refuse
  | none =>
    match Route.ofPath? (Route.mergeSlashes path) with
    | some route => if route.takes method then .redirect else .refuse
    | none => .missing

/-- The status of a response without a body. -/
def status : Dispatch → Nat
  | .handle _ | .acknowledge => 200
  | .redirect => 308
  | .missing => 404
  | .refuse => 405

end Dispatch

end TableParsing.Service
