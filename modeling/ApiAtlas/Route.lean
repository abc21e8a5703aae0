import ApiAtlas.View

/-!
# Routes

A route has a path, a method and the name of its handler, and other components attach values to
it under keys. The documentation of a route is the value attached under one agreed key, if
it is documentation at all; attaching another value there takes it away.
-/
namespace ApiAtlas

/-- A value attached to a route. -/
inductive Attachment where
  | endpoint (endpoint : Endpoint)
  | text (text : String)
  deriving DecidableEq

namespace Attachment

def text? : Attachment → Option String
  | text value => some value
  | endpoint _ => none

def endpoint? : Attachment → Option Endpoint
  | endpoint value => some value
  | text _ => none

end Attachment

/-- A registered route; the attachments ascend by key. -/
structure Route where
  path : String
  method : Method
  handler : String
  attachments : List (String × Attachment) := []
  deriving DecidableEq

namespace Route

/-- The key under which documentation is attached. -/
def documentationKey : String := "endpoint_documentation"

/-- Attach a value, in place of the one that the key has. -/
def attach (route : Route) (key : String) (value : Attachment) : Route :=
  { route with attachments := Table.insert route.attachments key value }

def attachment? (route : Route) (key : String) : Option Attachment :=
  Table.get? route.attachments key

def document (route : Route) (endpoint : Endpoint) : Route :=
  route.attach documentationKey (.endpoint endpoint)

def documentation? (route : Route) : Option Endpoint :=
  (route.attachment? documentationKey).bind Attachment.endpoint?

/-- The endpoint that a route serves, with nothing told of it. -/
def endpoint (route : Route) : Endpoint := .of route.method route.path

/-- A summary of a route: what it serves, and the keys of its attachments. -/
def summary (route : Route) : String :=
  "RouteInfo \x7b path: " ++ Text.quoted route.path ++ ", method: " ++ route.method.label ++
    ", handler_name: " ++ Text.quoted route.handler ++ ", user_info: [" ++
    ", ".intercalate ((Table.keys route.attachments).map Text.quoted) ++ "] \x7d"

end Route

namespace View

/-- Show the routes that are documented. -/
def ofRoutes (routes : List Route) : View := ofEndpoints (routes.filterMap Route.documentation?)

end View
end ApiAtlas
