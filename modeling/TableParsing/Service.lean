import TableParsing.Grammar.Samples
import TableParsing.Json.Encoding
import TableParsing.Report.Analysis
import TableParsing.Service.Route

/-!
# The service

A JSON service over the analyses. A request names a path and a method and may carry a JSON object
with the grammar text in its field `grammar`; the response has a status and, as a rule, a JSON
body. What is wrong with a request is answered with status 400, and a request is checked in a
fixed order: the body, the grammar field, the grammar text, the input, the algorithm. Status 500
is kept for failures that are not the client's: a step limit that is not a number.
-/

namespace TableParsing.Service

/-! ## Settings -/

/-- What is configured. -/
structure Settings where
  /-- The permitted number of steps of a simulation, as it was given. -/
  maxSteps : Json

namespace Settings

/-- The settings that hold where nothing else is configured. -/
def standard : Settings := ⟨.int RunOptions.standard.maxSteps⟩

/-- The name of the setting of the number of steps. -/
def maxStepsName : String := "MAX_STEPS"

/-- The settings as a JSON object. -/
def toJson (settings : Settings) : Json := .obj [(maxStepsName, settings.maxSteps)]

/-- The standard settings, changed by the text of an environment variable, which is read as JSON
if it can be, and then by an object of overrides. -/
def load (environment : Option String) (overrides : Json) : Settings :=
  let fromEnvironment :=
    match environment with
    | some text => ⟨(Json.parse? text).getD (.str text)⟩
    | none => standard
  match overrides.field? maxStepsName with
  | some value => ⟨value⟩
  | none => fromEnvironment

end Settings

/-! ## Errors -/

/-- Why a request is not answered. -/
inductive Error where
  /-- The request is at fault. -/
  | request (message : String)
  /-- The service is at fault. -/
  | service (message : String)
deriving DecidableEq, Repr

namespace Error

/-- How a failure of the library is answered. -/
def ofFailure : Failure → Error
  | .noSuchProduction => .service Failure.noSuchProduction.message
  | .dotOutsideBody => .service Failure.dotOutsideBody.message
  | .noFollowSet symbol => .service (Failure.noFollowSet symbol).message
  | failure => .request failure.message

/-- The status of the response. -/
def status : Error → Nat
  | .request _ => 400
  | .service _ => 500

/-- The body of the response. -/
def body : Error → Json
  | .request message => .obj [("error", .str message)]
  | .service message => .obj [("error", .str ("Unexpected server error: " ++ message))]

end Error

/-- The complaint about a setting of a type that holds no number. -/
def notANumber (type : String) : String :=
  "int() argument must be a string, a bytes-like object or a real number, not '" ++ type ++ "'"

/-- The complaint about a setting whose text is not an integer. Of a long text only the beginning
is shown. -/
def notAnInteger (text : String) : Text.IntegerFault → String
  | .malformed =>
    "invalid literal for int() with base 10: " ++
      String.ofList ((Text.quoted text).toList.take 200)
  | .tooLong digits =>
    "Exceeds the limit (" ++ toString Text.digitLimit ++
      " digits) for integer string conversion: value has " ++ toString digits ++
      " digits; use sys.set_int_max_str_digits() to increase the limit"

/-- Reads the permitted number of steps out of a setting: a number without its fraction, a truth
value as one or zero, or a text that is an integer. -/
def stepLimit : Json → Except Error Int
  | .num (.int n) => .ok n
  | .num (.decimal negative size) =>
    .ok (if negative then -(size.wholePart : Int) else size.wholePart)
  | .num .undefined => .error (.request "cannot convert float NaN to integer")
  | .num (.infinity _) => .error (.service "cannot convert float infinity to integer")
  | .bool b => .ok (if b then 1 else 0)
  | .str s =>
    match Text.integer s with
    | .ok n => .ok n
    | .error fault => .error (.request (notAnInteger s fault))
  | .null => .error (.service (notANumber "NoneType"))
  | .arr _ => .error (.service (notANumber "list"))
  | .obj _ => .error (.service (notANumber "dict"))

/-! ## Requests and responses -/

/-- What comes with a request. -/
structure Payload where
  /-- The declared type of the content. -/
  contentType : String
  /-- The content. -/
  content : List UInt8

/-- A request. -/
structure Request where
  method : String
  /-- The address that is asked, or the part of it from the path on. -/
  target : String
  payload? : Option Payload

/-- A response. -/
structure Response where
  status : Nat
  /-- The JSON body, if the response has one. -/
  body? : Option Json
  /-- What has been reported while the request was handled. -/
  notices : List Notice

/-- The white space that may stand around the parts of a header: spaces and tabs, and no other. -/
def isHeaderSpace (c : Char) : Bool := c = ' ' || c = '\t'

/-- The name of a content type without its parameters, in lower case. -/
def mediaType (contentType : String) : List Char :=
  let name := (contentType.toList.takeWhile (· ≠ ';')).dropWhile isHeaderSpace
  (name.reverse.dropWhile isHeaderSpace).reverse.map Char.toLower

/-- Whether a content type is that of JSON. -/
def isJsonType (contentType : String) : Bool :=
  let name := mediaType contentType
  name = "application/json".toList ||
    ("application/".toList.isPrefixOf name && "+json".toList.isSuffixOf name)

/-- The JSON value that comes with a request. Content that is not JSON counts as no content. -/
def Request.json? (request : Request) : Option Json :=
  match request.payload? with
  | some payload => if isJsonType payload.contentType then Json.ofBytes? payload.content else none
  | none => none

/-- The object that comes with a request; no value and the null value count as an empty one. -/
def objectOf : Option Json → Except Error Json
  | none => .ok (.obj [])
  | some .null => .ok (.obj [])
  | some (.obj fields) => .ok (.obj fields)
  | some _ => .error (.request "Request body must be a JSON object")

/-- The grammar text of a request. -/
def grammarText (data : Json) : Except Error String :=
  match data.field? "grammar" with
  | none => .error (.request "No grammar provided")
  | some value =>
    if value.isGiven then
      match value with
      | .str text => .ok text
      | _ => .error (.request "Grammar must be a string")
    else .error (.request "No grammar provided")

/-- The tokens of a request. -/
def inputTokens (data : Json) : Except Error (List Symbol) :=
  match data.field? "input" with
  | none => .error (.request "No input string provided")
  | some (.str s) => .ok (tokensOf (.str s))
  | some (.arr elements) => .ok (tokensOf (.arr elements))
  | some _ => .error (.request "Input must be a token string or a list of tokens")

/-- The algorithm of a request. -/
def algorithmOf (standard : Algorithm) (data : Json) : Except Error Algorithm :=
  match data.field? "algorithm" with
  | none => .ok standard
  | some name => (Algorithm.resolve name).mapError Error.ofFailure

/-! ## Handlers -/

/-- The sample grammars by name. -/
def samplesJson : Json :=
  .obj [("samples", .obj (Grammar.samples.map fun sample => (sample.1, .str sample.2)))]

/-- Puts an answer of an analysis into the form of a response body. -/
def reply (answered : Except Failure Analysis.Answer × Analysis) :
    Except Error Json × List Notice :=
  ((answered.1.map Analysis.Answer.toJson).mapError Error.ofFailure, answered.2.notices)

/-- The parsing table of a request. -/
def tableReply (data : Json) (a : Analysis) : Except Error Json × List Notice :=
  match algorithmOf .ll1 data with
  | .error error => (.error error, a.notices)
  | .ok .ll1 =>
    let built := a.predictive
    (.ok (.obj [("algorithm", .str Algorithm.ll1.name), ("table", built.1.toJson)]),
      built.2.notices)
  | .ok algorithm =>
    let built := a.collection algorithm
    ((built.1.map Collection.toJson).mapError Error.ofFailure, built.2.notices)

/-- The simulated parse of a request. -/
def simulateReply (settings : Settings) (data : Json) (a : Analysis) :
    Except Error Json × List Notice :=
  match inputTokens data with
  | .error error => (.error error, a.notices)
  | .ok tokens =>
    match algorithmOf .lr1 data with
    | .error error => (.error error, a.notices)
    | .ok algorithm =>
      match stepLimit settings.maxSteps with
      | .error error => (.error error, a.notices)
      | .ok limit =>
        let run := a.simulate algorithm tokens { RunOptions.standard with maxSteps := limit }
        ((run.1.map ParseResult.toJson).mapError Error.ofFailure, run.2.notices)

/-- Handles a request whose grammar has been read. -/
def handleGrammar (settings : Settings) (endpoint : Endpoint) (data : Json) (a : Analysis) :
    Except Error Json × List Notice :=
  match endpoint with
  | .samples => (.ok samplesJson, [])
  | .grammar => reply (a.answer .grammar)
  | .sets => reply (a.answer .sets)
  | .table => tableReply data a
  | .simulate => simulateReply settings data a

/-- Handles the JSON value of a request, if it has one. -/
def handle (settings : Settings) (endpoint : Endpoint) (json? : Option Json) :
    Except Error Json × List Notice :=
  if endpoint = .samples then (.ok samplesJson, [])
  else
    match objectOf json? with
    | .error error => (.error error, [])
    | .ok data =>
      match grammarText data with
      | .error error => (.error error, [])
      | .ok text =>
        match Analysis.read text with
        | .error failure => (.error (.ofFailure failure), Notice.ofReading text)
        | .ok a => handleGrammar settings endpoint data a

/-- The response to a handled request. -/
def Response.ofHandled (handled : Except Error Json × List Notice) : Response :=
  match handled.1 with
  | .ok body => ⟨200, some body, handled.2⟩
  | .error error => ⟨error.status, some error.body, handled.2⟩

/-- Responds to a request. -/
def respond (settings : Settings) (request : Request) : Response :=
  match Dispatch.ofRequest request.method.toUpper request.target with
  | .handle endpoint => .ofHandled (handle settings endpoint request.json?)
  | dispatch => ⟨dispatch.status, none, []⟩

end TableParsing.Service
