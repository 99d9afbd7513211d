import ApiContract.Http.Method
import ApiContract.Parameter.Directive
import ApiContract.Url.Query
/-!
# Requests

A request as its host sees it. The names of its headers are in lower case. Its query is first the
one of its target, which the host may replace by its own reading.
-/

namespace ApiContract

/-- A request. -/
structure Request where
  method : Method
  /-- The target with its query. -/
  target : String
  headers : Assoc Json
  query : Assoc Json
  params : Assoc Json
  cookies : Option (Assoc Json)
  signedCookies : Option (Assoc Json)
  body : Option Json
deriving DecidableEq, Repr

namespace Request

/-- A request without headers, parameters, cookies and body. -/
def ofTarget (method : Method) (target : String) : Request where
  method
  target
  headers := []
  query := Query.parse target
  params := []
  cookies := none
  signedCookies := none
  body := none

/-- Add a header, whose name is taken in lower case. -/
def withHeader (r : Request) (name value : String) : Request :=
  { r with headers := r.headers.insert (Text.lowerString name) (.string value) }

def withParam (r : Request) (name value : String) : Request :=
  { r with params := r.params.insert name (.string value) }

def withCookie (r : Request) (name value : String) : Request :=
  { r with cookies := some ((r.cookies.getD []).insert name (.string value)) }

def withSignedCookie (r : Request) (name value : String) : Request :=
  { r with signedCookies := some ((r.signedCookies.getD []).insert name (.string value)) }

/-- The path of the target. -/
def path (r : Request) : String := Query.path r.target

/-- The values of a location; there are none for cookies when the request has no cookie map. -/
def values? (r : Request) : Location → Option (Assoc Json)
  | .query => some r.query
  | .header => some r.headers
  | .path => some r.params
  | .cookie => r.cookies

/-- Change the values of a location, if there are any. -/
def modifyValues (r : Request) (f : Assoc Json → Assoc Json) : Location → Request
  | .query => { r with query := f r.query }
  | .header => { r with headers := f r.headers }
  | .path => { r with params := f r.params }
  | .cookie => { r with cookies := r.cookies.map f }

end Request

end ApiContract
