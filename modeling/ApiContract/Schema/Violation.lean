import ApiContract.Json.Pointer
import ApiContract.Json.Printer
import ApiContract.Schema.Basic
/-!
# What is wrong with a value

A violation names the part of the value, the keyword that is violated, and the cause. The part and
the keyword are paths, outermost segment first. `Cause.message` words a cause.
-/

namespace ApiContract

namespace Schema

/-- Why a keyword is violated. -/
inductive Cause where
  | wrongKind (kinds : List Kind)
  | notListed (values : List Json)
  | notConstant (value : Json)
  | beyond (bound : Bound) (limit : Number)
  | wrongSize (measure : Measure) (upper : Bool) (limit : Nat)
  | notMultiple (divisor : Number)
  | noMatch (pattern : String)
  | badFormat (name : String)
  | missing (name : String)
  | unexpectedProperties (names : List String)
  | unexpectedItems (items : List Json)
  /-- The schema accepts nothing. -/
  | refused
  /-- None of the branches under a keyword accepts. -/
  | noBranch (word : String)
  /-- More than one branch accepts. -/
  | severalBranches
  /-- The schema of this text accepts. -/
  | forbidden (schema : Json)
  | notContained
  | repeated
  | unevaluatedProperties (names : List String)
  | unevaluatedItems (items : List Json)
  /-- The name of a property is wrong. -/
  | badName (name : String) (cause : Cause)
deriving Repr, DecidableEq

namespace Cause

/-- Texts in double quotes, in a row. -/
def quotedNames (names : List String) : String :=
  String.intercalate ", " (names.map fun s => "\"" ++ s ++ "\"")

/-- Texts in single quotes with the verb that fits their number. -/
def unexpectedText (texts : List String) : String :=
  String.intercalate ", " (texts.map fun s => "'" ++ s ++ "'") ++
    (if texts.length = 1 then " was unexpected" else " were unexpected")

/-- Up to three values, or the first two and the number of the others. -/
def alternatives : List Json → String
  | [] => ""
  | [a] => a.compress
  | [a, b] => a.compress ++ " or " ++ b.compress
  | [a, b, c] => a.compress ++ ", " ++ b.compress ++ " or " ++ c.compress
  | a :: b :: more =>
    a.compress ++ ", " ++ b.compress ++ " or " ++ toString more.length ++ " other candidates"

/-- A divisor is written positionally, without a superfluous fraction. -/
def divisorLayout : FloatLayout where
  positional := none
  pointZero := false
  plusSign := false
  tieUp := true

/-- The relation of a number to a bound that it breaks. -/
def relation : Bound → String
  | .minimum => " is less than the minimum of "
  | .maximum => " is greater than the maximum of "
  | .exclusiveMinimum => " is less than or equal to the minimum of "
  | .exclusiveMaximum => " is greater than or equal to the maximum of "

/-- What is wrong with a value, in words. -/
def message (v : Json) : Cause → String
  | wrongKind [kind] => v.compress ++ " is not of type \"" ++ kind.name ++ "\""
  | wrongKind kinds =>
    v.compress ++ " is not of types " ++
      quotedNames ((Kind.all.filter kinds.contains).map Kind.name)
  | notListed values => v.compress ++ " is not one of " ++ alternatives values
  | notConstant value => value.compress ++ " was expected"
  | beyond bound limit => v.compress ++ relation bound ++ limit.render
  | wrongSize .characters upper limit =>
    v.compress ++ (if upper then " is longer than " else " is shorter than ") ++
      Measure.amount limit .characters
  | wrongSize measure upper limit =>
    v.compress ++ (if upper then " has more than " else " has less than ") ++
      Measure.amount limit measure
  | notMultiple divisor =>
    v.compress ++ " is not a multiple of " ++ divisor.toBinary64.render divisorLayout
  | noMatch pattern => v.compress ++ " does not match \"" ++ pattern ++ "\""
  | badFormat name => v.compress ++ " is not a \"" ++ name ++ "\""
  | missing name => Json.quote name ++ " is a required property"
  | unexpectedProperties names =>
    "Additional properties are not allowed (" ++ unexpectedText names ++ ")"
  | unexpectedItems items =>
    "Additional items are not allowed (" ++
      String.intercalate ", " (items.map Json.compress) ++
      (if items.length = 1 then " was unexpected)" else " were unexpected)")
  | refused => "False schema does not allow " ++ v.compress
  | noBranch word =>
    v.compress ++ " is not valid under any of the schemas listed in the '" ++ word ++ "' keyword"
  | severalBranches =>
    v.compress ++ " is valid under more than one of the schemas listed in the 'oneOf' keyword"
  | forbidden schema => schema.compress ++ " is not allowed for " ++ v.compress
  | notContained => "None of " ++ v.compress ++ " are valid under the given schema"
  | repeated => v.compress ++ " has non-unique elements"
  | unevaluatedProperties names =>
    "Unevaluated properties are not allowed (" ++ unexpectedText names ++ ")"
  | unevaluatedItems items =>
    "Unevaluated items are not allowed (" ++ unexpectedText (items.map Json.compress) ++ ")"
  | badName name cause => cause.message (.string name)

end Cause

/-- A place in a value and the place in the schema that judges it. -/
structure Place where
  value : List String
  schema : List String
deriving DecidableEq, Repr

namespace Place

def root : Place := ⟨[], []⟩

/-- One step into the value. -/
def into (p : Place) (segment : String) : Place := { p with value := p.value ++ [segment] }

/-- One step into the schema. -/
def under (p : Place) (word : String) : Place := { p with schema := p.schema ++ [word] }

end Place

/-- A violation. -/
structure Violation where
  place : Place
  /-- The part of the value that is wrong. -/
  value : Json
  cause : Cause
deriving DecidableEq, Repr

namespace Violation

def message (x : Violation) : String := x.cause.message x.value

end Violation

end Schema

end ApiContract
