import TableParsing.Proofs.Analysis.Lookups
import TableParsing.Service

/-!
# The status of a response

Where the step limit is an integer, an endpoint that is posted to answers a value with status 200
or refuses it with status 400, and does nothing else. `Refused` says which values are refused,
without the order in which they are checked, and `Response.Answers` what is promised of the
response. `respond_status` promises it twice: of the response to any value that has been found in a
request, or to none, whatever has found it there; and of the response to a posted request, with the
value that is read out of its content here.

A check blames the request exactly if there is a reason to (`Checked`). The checks are passed one
after the other, and where all have been passed, nothing is left that could fail: every algorithm
has a collection or a table (`grounded`), so the failures that would be the service's fault do not
occur.
-/

namespace TableParsing.Service

/-! ## What is refused -/

/-- The value that a request brings. No value and the null value count as an object without
fields. -/
def carried : Option Json → Json
  | none | some .null => .obj []
  | some value => value

/-- The grammar is missing, or it does not count as given, or it is not a text. -/
def LacksGrammar (data : Json) : Prop :=
  ∀ value, data.field? "grammar" = some value →
    value.isGiven = false ∨ ∀ text, value ≠ .str text

/-- The input is missing, or it is neither a text nor a list. -/
def LacksInput (data : Json) : Prop :=
  ∀ value, data.field? "input" = some value →
    (∀ text, value ≠ .str text) ∧ ∀ elements, value ≠ .arr elements

/-- An algorithm is given, but there is none of that name. -/
def NamesNoAlgorithm (data : Json) : Prop :=
  ∃ name, data.field? "algorithm" = some name ∧ Algorithm.ofJson? name = none

/-- Why an endpoint refuses a value. -/
inductive Refused (endpoint : Endpoint) (data : Json) : Prop
  /-- It is not an object. -/
  | form (h : ∀ fields, data ≠ .obj fields)
  /-- It has no grammar text. -/
  | grammar (h : LacksGrammar data)
  /-- The grammar text has no rules. -/
  | rules {text : String} (h : data.field? "grammar" = some (.str text))
      (hrules : Grammar.rulesOf text = [])
  /-- It has no input to run a parser on. -/
  | input (he : endpoint = .simulate) (h : LacksInput data)
  /-- It asks for an unknown algorithm. -/
  | algorithm (he : endpoint = .table ∨ endpoint = .simulate) (h : NamesNoAlgorithm data)

/-- What is not refused has a grammar. -/
theorem exists_read_of_not_refused {endpoint : Endpoint} {data : Json}
    (h : ¬ Refused endpoint data) :
    ∃ text g, data.field? "grammar" = some (.str text) ∧ Grammar.read text = .ok g := by
  have hgrammar : ¬ LacksGrammar data := fun hlacks => h (.grammar hlacks)
  unfold LacksGrammar at hgrammar
  push Not at hgrammar
  obtain ⟨_, hfield, -, text, rfl⟩ := hgrammar
  have hrules : Grammar.rulesOf text ≠ [] := fun hnone => h (.rules hfield hnone)
  exact ⟨text, _, hfield, dif_neg hrules⟩

/-! ## Checks -/

/-- A check fails exactly if there is a reason, and then the request is at fault. -/
inductive Checked {α : Type} (reason : Prop) : Except Error α → Prop
  | fails (h : reason) (message : String) : Checked reason (.error (.request message))
  | passes (h : ¬ reason) (value : α) : Checked reason (.ok value)

variable {α : Type} {reason reason' : Prop} {result : Except Error α}

/-- The reason may be put in other words. -/
theorem Checked.congr (hreason : reason ↔ reason') (h : Checked reason result) :
    Checked reason' result := by
  cases h with
  | fails h message => exact .fails (hreason.mp h) message
  | passes h value => exact .passes (fun h' => h (hreason.mpr h')) value

/-- The value has to be an object. -/
theorem checked_objectOf (json? : Option Json) :
    Checked (∀ fields, carried json? ≠ .obj fields) (objectOf json?) := by
  rcases json? with _ | value
  · exact .passes (fun h => h [] rfl) _
  · cases value with
    | null => exact .passes (fun h => h [] rfl) _
    | obj fields => exact .passes (fun h => h fields rfl) _
    | bool | num | str | arr => exact .fails (fun _ => Json.noConfusion) _

/-- The object is the value that the request brings. -/
theorem eq_carried_of_objectOf {json? : Option Json} {data : Json} (h : objectOf json? = .ok data) :
    data = carried json? := by
  rcases json? with _ | value
  · cases h
    rfl
  · cases value with
    | null | obj =>
        cases h
        rfl
    | bool | num | str | arr => cases h

/-- There has to be a grammar text. -/
theorem checked_grammarText (data : Json) : Checked (LacksGrammar data) (grammarText data) := by
  unfold grammarText LacksGrammar
  cases data.field? "grammar" with
  | none => exact .fails nofun _
  | some value =>
      simp only [Option.some.injEq, forall_eq']
      split
      · next hgiven =>
          cases value with
          | str text => exact .passes (fun h => by simp [hgiven] at h) _
          | null | bool | num | arr | obj => exact .fails (Or.inr fun _ => Json.noConfusion) _
      · next hgiven => exact .fails (Or.inl (Bool.eq_false_iff.mpr hgiven)) _

/-- The grammar text is the one in the field. -/
theorem field?_of_grammarText {data : Json} {text : String} (h : grammarText data = .ok text) :
    data.field? "grammar" = some (.str text) := by
  unfold grammarText at h
  split at h
  · cases h
  · next value hfield =>
      split at h
      · split at h
        · cases h
          exact hfield
        · cases h
      · cases h

/-- There has to be an input. -/
theorem checked_inputTokens (data : Json) : Checked (LacksInput data) (inputTokens data) := by
  unfold inputTokens LacksInput
  cases data.field? "input" with
  | none => exact .fails nofun _
  | some value =>
      simp only [Option.some.injEq, forall_eq']
      cases value with
      | str text => exact .passes (fun h => h.1 text rfl) _
      | arr elements => exact .passes (fun h => h.2 elements rfl) _
      | null | bool | num | obj =>
          exact .fails ⟨fun _ => Json.noConfusion, fun _ => Json.noConfusion⟩ _

/-- An algorithm that is given has to be known. -/
theorem checked_algorithmOf (standard : Algorithm) (data : Json) :
    Checked (NamesNoAlgorithm data) (algorithmOf standard data) := by
  unfold algorithmOf NamesNoAlgorithm
  cases data.field? "algorithm" with
  | none => exact .passes nofun _
  | some name =>
      simp only [Option.some.injEq, exists_eq_left']
      unfold Algorithm.resolve
      cases Algorithm.ofJson? name with
      | none => exact .fails rfl _
      | some algorithm => exact .passes nofun _

/-- The grammar text has to have rules. -/
theorem read_cases (text : String) :
    (Grammar.rulesOf text = [] ∧ Analysis.read text = .error .noProduction) ∨
      (Grammar.rulesOf text ≠ [] ∧ ∃ a, Analysis.read text = .ok a) := by
  unfold Analysis.read Grammar.read
  split
  · next hnone => exact Or.inl ⟨hnone, rfl⟩
  · next hrules => exact Or.inr ⟨hrules, _, rfl⟩

/-! ## Handlers -/

variable {g : Grammar} {a : Analysis} {settings : Settings} {n : Int} {endpoint : Endpoint}

/-- The parsing table of a request. -/
theorem checked_tableReply (h : a.Faithful g) (data : Json) :
    Checked (NamesNoAlgorithm data) (tableReply data a).1 := by
  have hreply : ∀ algorithm ∈ Algorithm.shiftReduce, ¬ NamesNoAlgorithm data →
      Checked (NamesNoAlgorithm data)
        (((a.collection algorithm).1.map Collection.toJson).mapError Error.ofFailure) := by
    intro algorithm halgorithm hknown
    obtain ⟨collection, hbuild, -⟩ := (grounded g).items algorithm halgorithm
    rw [(Analysis.transparent_collection h algorithm).result, hbuild]
    exact .passes hknown _
  have halgorithm := checked_algorithmOf .ll1 data
  unfold tableReply
  generalize algorithmOf .ll1 data = algorithm at halgorithm ⊢
  cases halgorithm with
  | fails h message => exact .fails h message
  | passes hknown algorithm =>
      cases algorithm with
      | ll1 => exact .passes hknown _
      | lr0 => exact hreply .lr0 (by decide) hknown
      | slr1 => exact hreply .slr1 (by decide) hknown
      | lr1 => exact hreply .lr1 (by decide) hknown

/-- The simulated parse of a request. -/
theorem checked_simulateReply (hlimit : settings.maxSteps = .int n) (h : a.Faithful g)
    (data : Json) :
    Checked (LacksInput data ∨ NamesNoAlgorithm data) (simulateReply settings data a).1 := by
  have hinput := checked_inputTokens data
  have halgorithm := checked_algorithmOf .lr1 data
  have hsteps : stepLimit settings.maxSteps = .ok n := by rw [hlimit]; rfl
  unfold simulateReply
  simp only [hsteps]
  generalize inputTokens data = input at hinput ⊢
  generalize algorithmOf .lr1 data = algorithm at halgorithm ⊢
  cases hinput with
  | fails h message => exact .fails (Or.inl h) message
  | passes hgiven tokens =>
      cases halgorithm with
      | fails h message => exact .fails (Or.inr h) message
      | passes hknown algorithm =>
          obtain ⟨result, hrun⟩ := Analysis.exists_directRun g algorithm tokens
            { RunOptions.standard with maxSteps := n }
          simp only [(Analysis.transparent_simulate h algorithm tokens _).result, hrun]
          exact .passes (not_or.mpr ⟨hgiven, hknown⟩) _

/-- What an endpoint asks for besides the grammar. -/
theorem checked_handleGrammar (hlimit : settings.maxSteps = .int n)
    (hpost : endpoint.method = "POST") (h : a.Faithful g) (data : Json) :
    Checked ((endpoint = .simulate ∧ LacksInput data) ∨
        ((endpoint = .table ∨ endpoint = .simulate) ∧ NamesNoAlgorithm data))
      (handleGrammar settings endpoint data a).1 := by
  cases endpoint with
  | samples => exact absurd hpost (by decide)
  | grammar => exact .passes (by simp) _
  | sets => exact .passes (by simp) _
  | table => exact (checked_tableReply h data).congr (by simp)
  | simulate => exact (checked_simulateReply hlimit h data).congr (by simp)

/-- A value is refused exactly if there is a reason to. -/
theorem checked_handle (hlimit : settings.maxSteps = .int n) (hpost : endpoint.method = "POST")
    (json? : Option Json) :
    Checked (Refused endpoint (carried json?)) (handle settings endpoint json?).1 := by
  have hne : endpoint ≠ .samples := by
    rintro rfl
    exact absurd hpost (by decide)
  unfold handle
  rw [if_neg hne]
  have hobject := checked_objectOf json?
  generalize hdata : objectOf json? = object at hobject ⊢
  cases hobject with
  | fails h message => exact .fails (.form h) message
  | passes hform data =>
      obtain rfl := eq_carried_of_objectOf hdata
      simp only
      have hgrammar := checked_grammarText (carried json?)
      generalize htext : grammarText (carried json?) = found at hgrammar ⊢
      cases hgrammar with
      | fails h message => exact .fails (.grammar h) message
      | passes hgrammar text =>
          have hfield := field?_of_grammarText htext
          simp only
          rcases read_cases text with ⟨hnone, hread⟩ | ⟨hrules, a, hread⟩
          · rw [hread]
            exact .fails (.rules hfield hnone) _
          · rw [hread]
            have hfaithful := Analysis.faithful_of_read hread
            refine (checked_handleGrammar hlimit hpost hfaithful (carried json?)).congr ?_
            constructor
            · rintro (⟨he, h⟩ | ⟨he, h⟩)
              · exact .input he h
              · exact .algorithm he h
            · rintro (h | h | ⟨h, hnone⟩ | ⟨he, h⟩ | ⟨he, h⟩)
              · exact absurd h hform
              · exact absurd h hgrammar
              · rw [hfield] at h
                cases h
                exact absurd hnone hrules
              · exact Or.inl ⟨he, h⟩
              · exact Or.inr ⟨he, h⟩

/-! ## Responses -/

/-- What is promised of the response of an endpoint to a value. -/
structure Response.Answers (response : Response) (endpoint : Endpoint) (data : Json) : Prop where
  /-- It is an answer or a refusal. -/
  status : response.status = 200 ∨ response.status = 400
  /-- It is a refusal exactly if there is a reason to refuse the value. -/
  refused : response.status = 400 ↔ Refused endpoint data
  /-- A refusal says what is wrong and nothing else. -/
  message : response.status = 400 →
    ∃ message, response.body? = some (.obj [("error", .str message)])
  /-- An answer is about a grammar in the value, and nothing that was looked up for it was
  missing. -/
  grounded : response.status = 200 → ∃ text g,
    data.field? "grammar" = some (.str text) ∧ Grammar.read text = .ok g ∧ Grounded g

/-- The response to what has been checked is a refusal if there was a reason, and an answer
otherwise. -/
theorem Checked.answers {data : Json} {handled : Except Error Json × List Notice}
    (h : Checked (Refused endpoint data) handled.1) :
    (Response.ofHandled handled).Answers endpoint data := by
  unfold Response.ofHandled
  generalize handled.1 = result at h
  cases h with
  | fails hrefused message =>
      have hstatus : (Error.request message).status = 400 := rfl
      exact
        { status := Or.inr hstatus
          refused := iff_of_true hstatus hrefused
          message := fun _ => ⟨message, rfl⟩
          grounded := fun hok => absurd (hstatus.symm.trans hok) (by decide) }
  | passes haccepted body =>
      obtain ⟨text, g, hfield, hread⟩ := exists_read_of_not_refused haccepted
      have hne : 200 ≠ 400 := by decide
      exact
        { status := Or.inl rfl
          refused := iff_of_false hne haccepted
          message := fun hbad => absurd hbad hne
          grounded := fun _ => ⟨text, g, hfield, hread, grounded g⟩ }

/-- The response to any value, or to none. It does not depend on how a request carries the
value. -/
theorem handle_answers (hlimit : settings.maxSteps = .int n) (hpost : endpoint.method = "POST")
    (json? : Option Json) :
    (Response.ofHandled (handle settings endpoint json?)).Answers endpoint (carried json?) :=
  (checked_handle hlimit hpost json?).answers

/-- A request that is posted to an endpoint. -/
structure Posted (endpoint : Endpoint) (request : Request) : Prop where
  /-- The endpoint is asked by posting. -/
  takes : endpoint.method = "POST"
  /-- The request is posted. -/
  method : request.method.toUpper = "POST"
  /-- The request names the path of the endpoint. -/
  path : Target.path request.target = endpoint.path.toUTF8.toList

/-- The path of an endpoint leads to it. -/
theorem ofPath?_path (endpoint : Endpoint) :
    Route.ofPath? endpoint.path.toUTF8.toList = some (.endpoint endpoint) := by
  cases endpoint <;> decide +kernel

/-- A posted request is handled by its endpoint. -/
theorem respond_of_posted (settings : Settings) {request : Request}
    (h : Posted endpoint request) :
    respond settings request = .ofHandled (handle settings endpoint request.json?) := by
  have hdispatch : Dispatch.ofRequest request.method.toUpper request.target =
      .handle endpoint := by
    have htakes : (Route.endpoint endpoint).takes "POST" = true := by
      simp [Route.takes, Route.method, h.takes]
    simp only [Dispatch.ofRequest, h.method, h.path, ofPath?_path, htakes, if_true,
      Dispatch.ofRoute, h.takes]
  unfold respond
  rw [hdispatch]

/-- The step limit is configured as an integer. Then an endpoint that is posted to answers every
value with status 200 or 400, and with status 400 exactly if it refuses the value, and it answers
every request that is posted to it as it answers the value in the content of the request. -/
theorem respond_status (hlimit : settings.maxSteps = .int n) (hpost : endpoint.method = "POST") :
    (∀ json? : Option Json,
      (Response.ofHandled (handle settings endpoint json?)).Answers endpoint (carried json?)) ∧
    ∀ request : Request, Posted endpoint request →
      (respond settings request).Answers endpoint (carried request.json?) := by
  refine ⟨handle_answers hlimit hpost, fun request hposted => ?_⟩
  rw [respond_of_posted settings hposted]
  exact handle_answers hlimit hpost request.json?

/-- A list is refused in place of an object. Posted with an input, the nested brackets are answered;
a request without content is refused, since it has no grammar. -/
theorem respond_status_nested :
    let brackets : Request := ⟨"POST", "/simulate", some ⟨"application/json",
      "\x7b\"grammar\": \"S -> a S b |\", \"input\": [\"a\", \"b\"]\x7d".toUTF8.toList⟩⟩
    let nothing : Request := { brackets with payload? := none }
    Endpoint.simulate.method = "POST" ∧ Settings.standard.maxSteps = .int 1000 ∧
      Refused .simulate (.arr []) ∧
      (Response.ofHandled (handle .standard .simulate (some (.arr [])))).status = 400 ∧
      Posted .simulate brackets ∧ Posted .simulate nothing ∧
      (respond .standard brackets).status = 200 ∧ ¬ Refused .simulate (carried brackets.json?) ∧
      Refused .simulate (carried nothing.json?) ∧ (respond .standard nothing).status = 400 := by
  intro brackets nothing
  have hpost : Endpoint.simulate.method = "POST" := rfl
  have hlimit : Settings.standard.maxSteps = .int 1000 := rfl
  have hlist : Refused .simulate (.arr []) := .form fun _ => Json.noConfusion
  have hbrackets : Posted .simulate brackets :=
    ⟨rfl, by decide +kernel, by decide +kernel⟩
  have hnothing : Posted .simulate nothing := ⟨rfl, by decide +kernel, by decide +kernel⟩
  have hstatus : (respond .standard brackets).status = 200 := by decide +kernel
  have hrefused : Refused .simulate (carried nothing.json?) := .grammar nofun
  obtain ⟨hvalues, hrequests⟩ := respond_status hlimit hpost
  refine ⟨hpost, hlimit, hlist, (hvalues (some (.arr []))).refused.mpr hlist, hbrackets, hnothing,
    hstatus, fun h => ?_, hrefused, (hrequests nothing hnothing).refused.mpr hrefused⟩
  have hbad := (hrequests brackets hbrackets).refused.mpr h
  rw [hstatus] at hbad
  exact absurd hbad (by decide)

end TableParsing.Service
