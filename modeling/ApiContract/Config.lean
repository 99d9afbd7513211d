import ApiContract.Assoc
import ApiContract.Text.Split
/-!
# Switches

The switches of a validator, with their defaults. A variable of the environment overrides the
switch it names, if its value is a flag.
-/

namespace ApiContract

/-- The switches of a validator. -/
structure Config where
  validateRequests : Bool := true
  validateResponses : Bool := false
  allowUnknownQueryParameters : Bool := false
  coerceTypes : Bool := true
  validateFormats : Bool := true
  schemaCache : Bool := true
deriving DecidableEq, Repr, Inhabited

/-- The variables of the environment. -/
abbrev Environment := Assoc String

namespace Config

/-- A flag as it is written in the environment, whatever its case. -/
def readFlag? (value : String) : Option Bool :=
  let word := Text.lowerString (Text.trimString value)
  if ["true", "on", "1", "yes"].contains word then some true
  else if ["false", "off", "0", "no"].contains word then some false
  else none

/-- The variable that overrides the switch of a name. -/
def variableOf (name : String) : String := "BRRTR_" ++ Text.upperString name

/-- The flag of the variable for a switch, or the current one when that is unset or no flag. -/
def flagOf (env : Environment) (name : String) (current : Bool) : Bool :=
  ((env.get? (variableOf name)).bind readFlag?).getD current

/-- Override switches by the environment. -/
def override (c : Config) (env : Environment) : Config where
  validateRequests := flagOf env "validate_requests" c.validateRequests
  validateResponses := flagOf env "validate_responses" c.validateResponses
  allowUnknownQueryParameters :=
    flagOf env "allow_unknown_query_parameters" c.allowUnknownQueryParameters
  coerceTypes := flagOf env "coerce_types" c.coerceTypes
  validateFormats := flagOf env "validate_formats" c.validateFormats
  schemaCache := flagOf env "schema_cache" c.schemaCache

/-- The switches that the environment sets. -/
def ofEnvironment (env : Environment) : Config := ({} : Config).override env

/-- Set the switch of a name; an unknown name changes nothing. -/
def set (c : Config) (name : String) (value : Bool) : Config :=
  if name = "validate_requests" then { c with validateRequests := value }
  else if name = "validate_responses" then { c with validateResponses := value }
  else if name = "allow_unknown_query_parameters" then
    { c with allowUnknownQueryParameters := value }
  else if name = "coerce_types" then { c with coerceTypes := value }
  else if name = "validate_formats" then { c with validateFormats := value }
  else if name = "schema_cache" then { c with schemaCache := value }
  else c

/-- The switches by name. -/
def toList (c : Config) : List (String × Bool) :=
  [("validate_requests", c.validateRequests), ("validate_responses", c.validateResponses),
   ("allow_unknown_query_parameters", c.allowUnknownQueryParameters),
   ("coerce_types", c.coerceTypes), ("validate_formats", c.validateFormats),
   ("schema_cache", c.schemaCache)]

/-- The names of the switches. -/
def names : List String := ({} : Config).toList.map (·.1)

end Config

end ApiContract
