import AmlExchange.Document.Drafting
import AmlExchange.Request.Action
import AmlExchange.Template.Substitution

/-!
# Requests

A request consists of template fragments, the parameters that fill them, and
the action that the server is asked for.  Several fragments are sent as the
content of one `AML` element.
-/

namespace AmlExchange

open Template (Substitution)

/-- A request to the server. -/
structure Request where
  fragments : List String
  substitution : Substitution
  action : Action
  /-- An action that has no constructor of its own. -/
  customAction : Option String
  /-- The media type of the answer that is asked for. -/
  mediaType : String

namespace Request

/-- The request without fragments. -/
def empty : Request :=
  ⟨[], .new, .applyItem, none, "text/xml"⟩

/-- A request with one fragment in place of all others. -/
def setAml (request : Request) (aml : String) : Request :=
  { request with fragments := [aml] }

/-- A request with a further fragment. -/
def addAml (request : Request) (aml : String) : Request :=
  { request with fragments := request.fragments ++ [aml] }

/-- A request without its fragments. -/
def clearAml (request : Request) : Request :=
  { request with fragments := [] }

/-- The request of one fragment. -/
def ofAml (aml : String) : Request :=
  empty.setAml aml

/-- A request with an action. -/
def setAction (request : Request) (action : Action) : Request :=
  { request with action, customAction := none }

/-- A request with the action of a name.  A name that is not known stands for
itself. -/
def setActionName (request : Request) (name : String) : Request :=
  match Action.read name with
  | .ok action => request.setAction action
  | .error _ => { request with customAction := some name }

/-- The name of the action of a request. -/
def actionName (request : Request) : String :=
  request.customAction.getD request.action.name

/-- A request with parameters numbered from zero. -/
def setArguments (request : Request) (values : List Value) : Request :=
  { request with substitution := request.substitution.bindIndexed values }

/-- A request with a named parameter. -/
def setParameter (request : Request) (name : String) (value : Value) :
    Request :=
  { request with substitution := request.substitution.bind name value }

/-- Texts within one `AML` element. -/
def wrapped (fragments : List String) : String :=
  "<AML>" ++ String.join fragments ++ "</AML>"

/-- The template of a request. -/
def aml? (request : Request) : Option String :=
  match request.fragments with
  | [] => none
  | [fragment] => some fragment
  | fragments => some (wrapped fragments)

/-- The template of a request, empty if it has no fragments. -/
def aml (request : Request) : String :=
  request.aml?.getD ""

/-- The request that an element of a document makes.  An `AML` element with
several children asks for its content to be applied. -/
def ofNode (document : Document) (id : Document.NodeId) :
    Except Fault Request := do
  let request := ofAml (← document.toAml false id)
  if document.name id = "AML" ∧ 1 < (document.children id).length then
    .ok { request with action := .applyAml }
  else .ok request

/-- The request that several elements of a document make. -/
def ofNodes (document : Document) (ids : List Document.NodeId) :
    Except Fault Request := do
  let fragments ← ids.mapM (document.toAml false)
  .ok ((ofAml (wrapped fragments)).setAction .applyAml)

/-- Whether a template has to be filled: there are parameters, or it may hold
a date range. -/
def needsFilling (request : Request) (aml : String) : Bool :=
  !request.substitution.parameters.isEmpty ||
    Text.contains AttributeName.origDateRange.toList aml.toList

/-- The refusal of output for which there is no room. -/
def full : Fault :=
  .refused "failed to write command"

/-- The template of a request filled, with the request that remembers the
items of the template. -/
def normalize (request : Request) (locale : Locale) (room : Option Nat) :
    Request × Substitution.Filled :=
  let aml := request.aml
  if request.needsFilling aml then
    let (substitution, filled) := request.substitution.fill locale room aml
    ({ request with substitution }, filled)
  else if Markup.Writer.fits room "" aml then (request, ⟨.ok (), aml, []⟩)
  else (request, ⟨.error full, "", []⟩)

end Request

end AmlExchange
