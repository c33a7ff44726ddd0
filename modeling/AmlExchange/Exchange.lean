import AmlExchange.Request.Basic
import AmlExchange.Response.Envelope

/-!
# Exchanges with a server

A request is filled, sent, and its answer read.  How it is sent is not fixed:
a transport answers the name of an action and a body with a text, or fails.
-/

namespace AmlExchange

/-- A way to send the body of a request for an action and to get the answer. -/
abbrev Transport :=
  String → String → Except Fault String

namespace Exchange

/-- What the body of every request begins with. -/
def declaration : String :=
  "<?xml version=\"1.0\" encoding=\"utf-8\"?>"

/-- What an exchange has come to. -/
structure Outcome where
  /-- The request, which remembers the items of its template. -/
  request : Request
  /-- The names of the parameters looked up, in order. -/
  lookups : List String
  /-- The action and the body that were sent, if it came to that. -/
  sent : Option (String × String)
  result : Except Fault Response

/-- The response in the answer to a query. -/
def readAnswer (locale : Locale) (query answer : String) :
    Except Fault Response :=
  (Response.read locale answer).map fun response =>
    response.withDetails none (some query)

/-- A request filled, sent, and its answer read. -/
def execute (transport : Transport) (request : Request) (locale : Locale) :
    Outcome :=
  let (request, filled) := request.normalize locale none
  match filled.text with
  | .error fault => ⟨request, filled.lookups, none, .error fault⟩
  | .ok query =>
      let action := request.actionName
      let body := declaration ++ query
      let result := (transport action body).bind (readAnswer locale query)
      ⟨request, filled.lookups, some (action, body), result⟩

end Exchange

end AmlExchange
