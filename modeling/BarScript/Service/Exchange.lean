import BarScript.Service.Endpoint
import BarScript.Service.MediaType

/-!
# Exchanges

An exchange is a request with the reply to it.  A path that leads nowhere only because of slashes at
its end is redirected to the path without them.  Every path that a request is led to leaves an entry
in the log; only a failure of the service leaves none.  The method `HEAD` asks for a reply without
its document.
-/

namespace BarScript

/-- A request. -/
structure Request where
  /-- The method, in upper or lower case. -/
  method : String
  target : String
  headers : List (String × String)
  /-- The text of the body, empty if there is none. -/
  text : String

/-- What comes back, and what stays in the log. -/
structure Exchange where
  reply : Reply
  /-- The identifier that the reply carries. -/
  requestId : Option String
  log : List LogRecord

namespace Request

/-- The value of a header, whose name is the same in either case. -/
def header? (r : Request) (name : String) : Option String :=
  (r.headers.find? fun h => h.1.map Char.toLower == name.map Char.toLower).map (·.2)

/-- The identifier that comes with a request. -/
def id? (r : Request) : Option String := r.header? "X-Request-ID"

/-- The body with what the request says of it. -/
def body (r : Request) : Body := ⟨r.text, (r.header? "Content-Type").any MediaType.isJson⟩

/-- The method in upper case. -/
def verb (r : Request) : String := r.method.map Char.toUpper

end Request

namespace Exchange

/-- The logger of requests. -/
def logger : String := "efinance_signals.request"

/-- The entry for one path that was asked for. -/
def entry (r : Request) (path : List Char) (status : Nat) : LogRecord :=
  ⟨logger, LogRecord.info, "HTTP request",
    [("correlation_id", Json.ofOption .string r.id?), ("method", .string r.verb),
      ("path", .string (Path.shown path)), ("status_code", .int status)], none⟩

/-- The response of a route to a request. -/
def respond (settings : Settings) (r : Request) (route : Route) : Response :=
  if r.verb = route.method then
    Endpoint.respond ⟨settings, Json.ofOption .string r.id?⟩ r.body route
  else .silent (.detail 405 "Method Not Allowed")

/-- The reply as it is sent: without a document if only the head is asked for. -/
def sent (r : Request) : Reply → Reply
  | .document status body => .document status (if r.verb = "HEAD" then .null else body)
  | reply => reply

/-- The exchange whose last path had a response, after some other entries. -/
def finish (r : Request) (before : List LogRecord) (path : List Char) (response : Response) :
    Exchange :=
  match response.reply with
  | .failure => ⟨.failure, none, []⟩
  | reply => ⟨sent r reply, r.id?, before ++ response.log ++ [entry r path reply.status]⟩

/-- The path that a path which leads nowhere is redirected to: that of the target for the path
without the slashes at its end, if that leads somewhere. -/
def redirect? (path : List Char) : Option (List Char) :=
  let short := Path.dropSlashes path
  if short ≠ path ∧ (Route.ofPath? short).isSome then some (Path.ofTarget (Path.escaped short))
  else none

/-- How many redirections are followed at most. -/
def maxRedirects : Nat := 20

/-- The exchange that goes on at a path after some entries, with so many redirections left. -/
def goOn (settings : Settings) (r : Request) : Nat → List LogRecord → List Char → Exchange
  | redirects, before, path =>
    match Route.ofPath? path with
    | some route => finish r before path (respond settings r route)
    | none =>
      match redirects, redirect? path with
      | redirects + 1, some next => goOn settings r redirects (before ++ [entry r path 307]) next
      | _, _ => finish r before path (.silent (.detail 404 "Not Found"))

/-- Answers a request. -/
def answer (settings : Settings) (r : Request) : Exchange :=
  goOn settings r maxRedirects [] (Path.ofTarget r.target.toList)

end Exchange

end BarScript
