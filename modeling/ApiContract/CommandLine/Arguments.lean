import ApiContract.Numeral.Decimal
import ApiContract.Text.Split
/-!
# Arguments

The arguments of the command line make a command. An option is written `--name value`,
`--name=value`, or by its letter as `-n value`, `-nvalue` or `-n=value`; a value of its own never
starts with a hyphen, unless it is one. An option whose value is awaited is completed by what
follows: the value is checked when the next option begins, or at the end.
-/

namespace ApiContract

namespace CommandLine

/-! ## Commands -/

/-- Where the body of a message comes from. -/
inductive BodySource where
  | inline (text : String)
  | file (path : String)
  | standardInput
deriving DecidableEq, Repr

/-- What is asked for. -/
inductive Command where
  /-- List the operations of a contract. -/
  | routes (spec : String)
  /-- Validate a request. -/
  | request (spec method url : String) (headers : List String) (contentType : Option String)
      (body : Option BodySource) (allowUnknownQuery : Bool)
  /-- Validate the body of a response. -/
  | response (spec method url : String) (status : Nat) (body : Option BodySource)
deriving DecidableEq, Repr

/-- Why arguments make no command. -/
inductive UsageError where
  /-- Help was asked for. -/
  | help
  /-- There are no arguments. -/
  | helpForNothing
  | unknownCommand
  /-- A word that is neither an option nor the value of one. -/
  | unknownArgument
  | missingArgument
  /-- An option without a value, or a path that is empty. -/
  | missingValue
  /-- A flag with a value. -/
  | superfluousValue
  | badStatus
  /-- An option that occurs twice, or two that exclude each other. -/
  | conflict
deriving DecidableEq, Repr

namespace UsageError

/-- The name of the kind of an error. -/
def kind : UsageError → String
  | help => "DisplayHelp"
  | helpForNothing => "DisplayHelpOnMissingArgumentOrSubcommand"
  | unknownCommand => "InvalidSubcommand"
  | unknownArgument => "UnknownArgument"
  | missingArgument => "MissingRequiredArgument"
  | missingValue => "InvalidValue"
  | superfluousValue => "TooManyValues"
  | badStatus => "ValueValidation"
  | conflict => "ArgumentConflict"

/-- Whether help is the answer that was asked for. -/
def isHelp (e : UsageError) : Bool := e = help

end UsageError

/-! ## Options -/

/-- The names of the commands. -/
inductive CommandName where
  | routes
  | request
  | response
deriving DecidableEq, Repr

namespace CommandName

def name : CommandName → String
  | routes => "routes"
  | request => "request"
  | response => "response"

/-- The command of a name. -/
def ofName? (s : String) : Option CommandName := [routes, request, response].find? (·.name == s)

end CommandName

/-- An option. -/
inductive Switch where
  | spec
  | method
  | url
  | header
  | contentType
  | body
  | data
  | status
  | allowUnknownQuery
  | help
deriving DecidableEq, Repr

namespace Switch

/-- The long name. -/
def long : Switch → String
  | spec => "spec"
  | method => "method"
  | url => "url"
  | header => "header"
  | contentType => "content-type"
  | body => "body"
  | data => "data"
  | status => "status"
  | allowUnknownQuery => "allow-unknown-query"
  | help => "help"

/-- The letter, if it has one. -/
def letter? : Switch → Option Char
  | spec => some 's'
  | method => some 'm'
  | url => some 'u'
  | header => some 'H'
  | data => some 'd'
  | help => some 'h'
  | contentType | body | status | allowUnknownQuery => none

def takesValue : Switch → Bool
  | allowUnknownQuery | help => false
  | _ => true

/-- Whether it may occur more than once. -/
def isRepeatable (s : Switch) : Bool := s = header

/-- The options of a command. -/
def ofCommand : CommandName → List Switch
  | .routes => [spec, help]
  | .request =>
    [spec, method, url, header, contentType, body, data, allowUnknownQuery, help]
  | .response => [spec, method, url, status, body, data, help]

end Switch

/-- How an argument is written. -/
inductive Word where
  /-- Two hyphens alone: no options follow. -/
  | separator
  | long (name : String) (value : Option String)
  | short (letter : Char) (value : Option String)
  | plain (text : String)
deriving DecidableEq, Repr

namespace Word

/-- What is attached to a letter; an equals sign before it does not count. -/
def attached : List Char → Option String
  | [] => none
  | '=' :: cs => some (String.ofList cs)
  | cs => some (String.ofList cs)

/-- Read an argument. -/
def read (s : String) : Word :=
  match s.toList with
  | ['-', '-'] => .separator
  | '-' :: '-' :: cs =>
    match Text.splitOnce? '=' cs with
    | some (name, value) => .long (String.ofList name) (some (String.ofList value))
    | none => .long (String.ofList cs) none
  | '-' :: c :: cs => .short c (attached cs)
  | _ => .plain s

end Word

/-! ## Reading options -/

/-- The options so far, in order, and the one that is not completed. -/
structure Progress where
  given : List (Switch × String) := []
  /-- An option with its value, if that has come. -/
  pending : Option (Switch × Option String) := none
deriving DecidableEq, Repr

namespace Progress

/-- The number of a status: at most 16 bits. -/
def readStatus? (s : String) : Option Nat := do
  let n ← Decimal.readInt? s.toList
  if 0 ≤ n && n < pow2 16 then some n.toNat else none

/-- Take an option with its value. -/
def accept (p : Progress) (s : Switch) (value : String) : Except UsageError Progress :=
  if !s.isRepeatable && p.given.any (·.1 == s) then .error .conflict
  else if (s = .spec || s = .body) && value.isEmpty then .error .missingValue
  else if s = .status && (readStatus? value).isNone then .error .badStatus
  else .ok { p with given := p.given ++ [(s, value)] }

/-- Complete what is pending. -/
def complete (p : Progress) : Except UsageError Progress :=
  match p.pending with
  | none => .ok p
  | some (_, none) => .error .missingValue
  | some (s, some value) => accept { p with pending := none } s value

/-- Begin an option, perhaps with its value. -/
def begin (p : Progress) (s : Switch) (value : Option String) : Except UsageError Progress :=
  if s.takesValue then do
    let p ← p.complete
    match value with
    | some value => p.accept s value
    | none => return { p with pending := some (s, none) }
  else if value.isSome then .error .superfluousValue
  else do
    let p ← p.complete
    if s = .help then .error .help else p.accept s ""

/-- Begin an option by its letter. What is attached to the letter of a flag are more letters. -/
def beginShort (p : Progress) (s : Switch) (value : Option String) : Except UsageError Progress :=
  if s.takesValue then p.begin s value else p.begin s none

/-- Read the arguments behind the name of a command. -/
def read (switches : List Switch) (p : Progress) : List String → Except UsageError Progress
  | [] => p.complete
  | arg :: rest =>
    match Word.read arg with
    | .separator => if rest.isEmpty then p.complete else .error .unknownArgument
    | .long name value =>
      match switches.find? (·.long == name) with
      | some s => do read switches (← p.begin s value) rest
      | none => .error .unknownArgument
    | .short letter value =>
      match switches.find? (·.letter? == some letter) with
      | some s => do read switches (← p.beginShort s value) rest
      | none => .error .unknownArgument
    | .plain text =>
      match p.pending with
      | some (s, none) => read switches { p with pending := some (s, some text) } rest
      | _ => .error .unknownArgument

/-- The value of an option. -/
def value? (p : Progress) (s : Switch) : Option String := (p.given.find? (·.1 == s)).map (·.2)

/-- The value of an option that must be there. -/
def required (p : Progress) (s : Switch) : Except UsageError String :=
  match p.value? s with
  | some value => .ok value
  | none => .error .missingArgument

/-- Where the body comes from. -/
def body? (p : Progress) : Option BodySource :=
  match p.value? .data, p.value? .body with
  | some text, _ => some (.inline text)
  | none, some path => some (if path = "-" then .standardInput else .file path)
  | none, none => none

/-- The command that options make. -/
def toCommand (p : Progress) (name : CommandName) : Except UsageError Command := do
  if (p.value? .body).isSome && (p.value? .data).isSome then .error .conflict
  let spec ← p.required .spec
  let method := (p.value? .method).getD "GET"
  match name with
  | .routes => return .routes spec
  | .request =>
    let headers := (p.given.filter (·.1 == .header)).map (·.2)
    return .request spec method (← p.required .url) headers (p.value? .contentType) p.body?
      (p.value? .allowUnknownQuery).isSome
  | .response =>
    let status := ((p.value? .status).bind readStatus?).getD 200
    return .response spec method (← p.required .url) status p.body?

end Progress

/-! ## Reading a command -/

/-- What becomes of a call for help, given what it names. -/
def readHelp : List String → UsageError
  | [] => .help
  | [name] =>
    if name = "help" || (CommandName.ofName? name).isSome then .help else .unknownCommand
  | _ => .unknownCommand

/-- What becomes of arguments behind a separator: there can be no command. -/
def readSeparated : List String → UsageError
  | [] => .helpForNothing
  | name :: _ =>
    if name = "help" || (CommandName.ofName? name).isSome then .unknownArgument
    else .unknownCommand

/-- Read the arguments of the command line. -/
def Command.read : List String → Except UsageError Command
  | [] => .error .helpForNothing
  | arg :: rest =>
    match CommandName.ofName? arg with
    | some name => do (← Progress.read (Switch.ofCommand name) {} rest).toCommand name
    | none =>
      if arg = "help" then .error (readHelp rest)
      else match Word.read arg with
        | .separator => .error (readSeparated rest)
        | .long name value =>
          if name = Switch.help.long then
            .error (if value.isSome then .superfluousValue else .help)
          else .error .unknownArgument
        | .short letter _ =>
          .error (if some letter = Switch.help.letter? then .help else .unknownArgument)
        | .plain _ => .error .unknownCommand

end CommandLine

end ApiContract
