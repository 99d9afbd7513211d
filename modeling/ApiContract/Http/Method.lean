/-!
# Request methods

A method is a token: one or more letters, digits and marks that do not separate. Its case counts.
-/

namespace ApiContract

/-- A character of a token. -/
def isTokenChar (c : Char) : Bool := c.isAlphanum || "!#$%&'*+-.^_\x60|~".toList.contains c

/-- A text of at least one character of a token. -/
def isToken (s : String) : Bool := !s.toList.isEmpty && s.toList.all isTokenChar

/-- A request method. -/
structure Method where
  name : String
  isToken_name : isToken name = true
deriving DecidableEq, Repr

namespace Method

/-- The method of a name. -/
def ofName? (name : String) : Option Method :=
  if h : isToken name = true then some ⟨name, h⟩ else none

def get : Method := ⟨"GET", rfl⟩

instance : Inhabited Method := ⟨get⟩

@[simp] theorem ofName?_name (m : Method) : ofName? m.name = some m := by
  simp [ofName?, m.isToken_name]

end Method

end ApiContract
