import ApiContract.Contract.Basic
import ApiContract.Json.Parser
import ApiContract.Yaml.Reader
/-!
# Loading a contract

A contract is read from text in YAML, of which JSON is a part. A file whose name ends in `.json`
must be JSON.
-/

namespace ApiContract

/-- Why no contract can be loaded from a file. -/
inductive FileError where
  /-- The file cannot be read. -/
  | unreadable (path : String)
  /-- The file should be JSON and is not. -/
  | malformed (path : String)
  /-- The file holds JSON that is no contract. -/
  | noContract (error : LoadError)
  /-- The file holds YAML that is malformed or no contract. -/
  | notLoaded (path : String) (error : LoadError)
deriving DecidableEq, Repr

namespace FileError

def message : FileError → String
  | unreadable path => "failed to read OpenAPI document " ++ path
  | malformed path => "failed to parse " ++ path
  | noContract error => error.message
  | notLoaded path _ => "failed to load " ++ path

end FileError

namespace Contract

/-- The contract of a text. -/
def ofText (text : String) : Except LoadError Contract :=
  match Yaml.read? text with
  | none => .error .malformed
  | some tree =>
    match tree.toJson with
    | .ok v => ofJson v
    | .error key => .error (.unsupportedKey key.describe)

/-- Whether the name of a file says that it holds JSON: it has the extension `json`, in any case,
behind at least one character. -/
def isJsonPath (path : String) : Bool :=
  let name := path.toList.reverse.takeWhile (· ≠ '/')
  match Text.strip? "nosj.".toList (name.map Char.toLower) with
  | some rest => !rest.isEmpty
  | none => false

/-- The contract of a file; `content` is what it holds, if it can be read. -/
def ofFile (path : String) (content : Option String) : Except FileError Contract :=
  match content with
  | none => .error (.unreadable path)
  | some text =>
    if isJsonPath path then
      match Json.parse? text with
      | none => .error (.malformed path)
      | some v => (ofJson v).mapError .noContract
    else (ofText text).mapError (.notLoaded path)

end Contract

end ApiContract
