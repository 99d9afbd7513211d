/-!
# Where parameters are

A parameter is in the path, the query, a header or a cookie. `PerLocation` holds one value for each
location.
-/

namespace ApiContract

/-- Where a parameter is carried. -/
inductive Location where
  | path
  | query
  | header
  | cookie
deriving DecidableEq, Repr

/-- How the value of a parameter is written. -/
inductive Style where
  | matrix
  | label
  | form
  | simple
  | spaceDelimited
  | pipeDelimited
  | deepObject
deriving DecidableEq, Repr

namespace Style

def all : List Style :=
  [matrix, label, form, simple, spaceDelimited, pipeDelimited, deepObject]

def name : Style → String
  | matrix => "matrix"
  | label => "label"
  | form => "form"
  | simple => "simple"
  | spaceDelimited => "spaceDelimited"
  | pipeDelimited => "pipeDelimited"
  | deepObject => "deepObject"

/-- The style of a name. -/
def ofName? (name : String) : Option Style := all.find? (·.name == name)

/-- What separates the items of an array in one value. -/
def delimiter? : Style → Option Char
  | form | simple => some ','
  | spaceDelimited => some ' '
  | pipeDelimited => some '|'
  | matrix | label | deepObject => none

end Style

namespace Location

def all : List Location := [path, query, header, cookie]

def name : Location → String
  | path => "path"
  | query => "query"
  | header => "header"
  | cookie => "cookie"

/-- The location of a name. -/
def ofName? (name : String) : Option Location := all.find? (·.name == name)

/-- The member of a request that holds the parameters of a location. -/
def field : Location → String
  | path => "params"
  | query => "query"
  | header => "headers"
  | cookie => "cookies"

/-- The style of a parameter that declares none. -/
def defaultStyle : Location → Style
  | query | cookie => .form
  | path | header => .simple

end Location

/-- One value for each location. -/
structure PerLocation (α : Type) where
  query : α
  headers : α
  params : α
  cookies : α
deriving DecidableEq, Repr

namespace PerLocation

variable {α β : Type}

def get (x : PerLocation α) : Location → α
  | .query => x.query
  | .header => x.headers
  | .path => x.params
  | .cookie => x.cookies

/-- Change the value of one location. -/
def modify (x : PerLocation α) (f : α → α) : Location → PerLocation α
  | .query => { x with query := f x.query }
  | .header => { x with headers := f x.headers }
  | .path => { x with params := f x.params }
  | .cookie => { x with cookies := f x.cookies }

/-- Combine the values of each location. -/
def zipWith {γ : Type} (f : α → β → γ) (x : PerLocation α) (y : PerLocation β) : PerLocation γ :=
  ⟨f x.query y.query, f x.headers y.headers, f x.params y.params, f x.cookies y.cookies⟩

theorem get_modify (x : PerLocation α) (f : α → α) (l k : Location) :
    (x.modify f l).get k = if l = k then f (x.get k) else x.get k := by
  cases l <;> cases k <;> rfl

@[simp] theorem get_zipWith {γ : Type} (f : α → β → γ) (x : PerLocation α) (y : PerLocation β)
    (l : Location) : (zipWith f x y).get l = f (x.get l) (y.get l) := by
  cases l <;> rfl

end PerLocation

end ApiContract
