import ApiContract.Http.Method
import ApiContract.Media.ContentType
/-!
# Storing what was built

Plans and validators are built once for each method, route and content type, and kept under a key in
text. The store only grows: what is stored stays and is what every later request for the key gets.
A failed build stores nothing. A store that is switched off builds anew every time.
-/

namespace ApiContract

/-- What identifies something built. -/
structure StoreKey where
  method : Method
  template : String
  /-- The bucket of the content type. -/
  bucket : String
deriving DecidableEq, Repr

namespace StoreKey

def of (method : Method) (template : String) (contentType : ContentType) : StoreKey :=
  ⟨method, template, contentType.bucket⟩

/-- The key in text. -/
def render (k : StoreKey) : String := k.method.name ++ "-" ++ k.template ++ "-" ++ k.bucket

end StoreKey

/-- What was built, under keys in text. -/
structure Store (β : Type) where
  enabled : Bool
  entries : Assoc β
deriving DecidableEq, Repr

namespace Store

variable {β ε : Type}

def empty (enabled : Bool) : Store β := ⟨enabled, []⟩

/-- How many things are stored. -/
def size (s : Store β) : Nat := s.entries.length

/-- What is stored under a key. -/
def get? (s : Store β) (k : StoreKey) : Option β := s.entries.get? k.render

/-- What is stored under a key, or else what a build gives, which is then stored if it succeeds. -/
def getOrBuild (s : Store β) (k : StoreKey) (build : Unit → Except ε β) :
    Except ε β × Store β :=
  if s.enabled then
    match s.get? k with
    | some x => (.ok x, s)
    | none =>
      match build () with
      | .ok x => (.ok x, { s with entries := s.entries.insert k.render x })
      | .error e => (.error e, s)
  else (build (), s)

/-- The store in one line. -/
def describe (s : Store β) : String :=
  "ValidatorCache \x7b enabled: " ++ (if s.enabled then "true" else "false") ++ ", size: " ++
    toString s.size ++ " \x7d"

/-! ## Small facts -/

theorem getOrBuild_of_get? {s : Store β} {k : StoreKey} {x : β} (build : Unit → Except ε β)
    (h : s.enabled = true) (hx : s.get? k = some x) : s.getOrBuild k build = (.ok x, s) := by
  simp [getOrBuild, h, hx]

theorem getOrBuild_of_disabled {s : Store β} (k : StoreKey) (build : Unit → Except ε β)
    (h : s.enabled = false) : s.getOrBuild k build = (build (), s) := by
  simp [getOrBuild, h]

@[simp] theorem enabled_getOrBuild (s : Store β) (k : StoreKey) (build : Unit → Except ε β) :
    (s.getOrBuild k build).2.enabled = s.enabled := by
  unfold getOrBuild
  split
  · split
    · rfl
    · split <;> rfl
  · rfl

end Store

end ApiContract
