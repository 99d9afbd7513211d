import ApiContract.Config
/-!
# Logging settings

How a host logs, as its environment says. Logging is set up once; a second set-up fails and leaves
the first in force.
-/

namespace ApiContract

/-- The form of log records. -/
inductive LogFormat where
  | json
  | pretty
deriving DecidableEq, Repr

namespace LogFormat

def name : LogFormat → String
  | json => "Json"
  | pretty => "Pretty"

/-- Read a format, whatever its case; an unknown one is JSON. -/
def read (s : String) : LogFormat := if Text.lowerString s = "pretty" then .pretty else .json

end LogFormat

/-- How a host logs. -/
structure LogSettings where
  level : String
  format : LogFormat
  /-- More filters, between commas. -/
  targetFilter : Option String
  /-- Whether a record says where in the program it was made. -/
  includeLocation : Bool
deriving DecidableEq, Repr

namespace LogSettings

/-- The settings of an environment. -/
def ofEnvironment (env : Environment) : LogSettings where
  level := (env.get? "BRRTR_LOG_LEVEL").getD "info"
  format := LogFormat.read ((env.get? "BRRTR_LOG_FORMAT").getD "json")
  targetFilter := env.get? "BRRTR_LOG_TARGET_FILTER"
  includeLocation := env.get? "BRRTR_LOG_INCLUDE_LOCATION" = some "true"

/-- The settings for development. -/
def development : LogSettings where
  level := "debug"
  format := .pretty
  targetFilter := none
  includeLocation := true

end LogSettings

/-- The settings in force, once logging is set up. -/
abbrev Logging := Option LogSettings

/-- Why logging cannot be set up. -/
inductive LoggingError where
  | alreadySetUp
deriving DecidableEq, Repr

namespace LoggingError

def message : LoggingError → String
  | alreadySetUp => "Failed to initialize logging"

end LoggingError

namespace Logging

/-- Set logging up, unless it is. -/
def setUp (current : Logging) (settings : LogSettings) : Except LoggingError Logging :=
  match current with
  | none => .ok (some settings)
  | some _ => .error .alreadySetUp

end Logging

end ApiContract
