import ApiContract.CommandLine.Run
/-!
# The program

The command line: it reads the arguments and what the command needs, prints the report, and tells by
its exit code whether the message keeps its contract.
-/

namespace ApiContract

namespace CommandLine

/-- The variables of the environment that set switches. -/
def readEnvironment : IO Environment := do
  let mut env : Environment := []
  for name in Config.names do
    let key := Config.variableOf name
    if let some value ← IO.getEnv key then
      env := env.insert key value
  return env

/-- What a file holds, if it can be read and is text. -/
def readFile? (path : String) : IO (Option String) := do
  try
    return some (← IO.FS.readFile path)
  catch _ =>
    return none

/-- The standard input, if it is text. -/
def readInput? : IO (Option String) := do
  try
    return String.fromUTF8? (← (← IO.getStdin).readBinToEnd)
  catch _ =>
    return none

/-- What a command finds around it: only the files that it reads are looked at. -/
def readSurroundings (command : Command) : IO Surroundings := do
  let mut files : Assoc String := []
  for path in command.files do
    if let some text ← readFile? path then
      files := files.insert path text
  let input ← if command.readsInput then readInput? else pure none
  return { environment := ← readEnvironment, fileText := files.get?, input }

end CommandLine

end ApiContract

open ApiContract CommandLine

def main (args : List String) : IO UInt32 := do
  match Command.read args with
  | .error e =>
    IO.eprintln e.kind
    return if e.isHelp then 0 else 2
  | .ok command =>
    match command.run (← readSurroundings command) with
    | .error e =>
      IO.eprintln ("error: " ++ e.message)
      return 2
    | .ok report =>
      IO.print report.text
      return if report.valid then 0 else 1
