import ApiContract.Config
import ApiContract.Yaml.Reader
/-!
# Loading switches

The switches of a validator in YAML: a mapping of their names to flags, alone or as the section
`validation` in the settings of a service. What is not mentioned has its default, and a name that
is no switch does not matter.
-/

namespace ApiContract

/-- Why no switches can be loaded. -/
inductive ConfigError where
  /-- The text is not well formed. -/
  | malformed
  /-- There is a section, and it is no mapping of switches. -/
  | inSection
  /-- The document is no mapping of switches. -/
  | inDocument
deriving DecidableEq, Repr

namespace ConfigError

def message : ConfigError → String
  | malformed => "failed to parse validator config"
  | inSection => "invalid 'validation' section"
  | inDocument => "invalid validator config"

end ConfigError

namespace Config

open Yaml (Tree)

/-- The entries of a mapping by name; a key that is no text has no name. -/
def membersOf? (entries : List (Tree × Tree)) : Option (List (String × Tree)) :=
  entries.mapM fun e =>
    match e.1.untagged with
    | .text name => some (name, e.2.untagged)
    | _ => none

/-- The switches among members; each is a flag and occurs once. -/
def ofMembers? (members : List (String × Tree)) : Option Config :=
  let switches := members.filter fun m => names.contains m.1
  if (switches.map (·.1)).Nodup then
    switches.foldlM (fun c m =>
      match m.2 with
      | .bool value => some (c.set m.1 value)
      | _ => none) {}
  else none

/-- The switches of a tree: null for none, or a mapping. -/
def ofTree? : Tree → Option Config
  | .null => some {}
  | .mapping entries => (membersOf? entries).bind ofMembers?
  | _ => none

/-- The section with the switches. -/
def sectionName : String := "validation"

/-- The switches in the section of a mapping. -/
def ofSection? (entries : List (Tree × Tree)) : Option Config := do
  match (← membersOf? entries).filter (·.1 == sectionName) with
  | [(_, content)] => ofTree? content
  | _ => none

/-- The switches of a tree, in its section if it has one. -/
def ofDocument (t : Tree) : Except ConfigError Config :=
  match t.untagged with
  | .mapping entries =>
    if entries.any fun e => e.1.same (.text sectionName) then
      (ofSection? entries).elim (.error .inSection) .ok
    else (ofTree? (.mapping entries)).elim (.error .inDocument) .ok
  | t => (ofTree? t).elim (.error .inDocument) .ok

/-- The switches of a text. -/
def ofText (text : String) : Except ConfigError Config :=
  match Yaml.read? text with
  | none => .error .malformed
  | some t => ofDocument t

end Config

end ApiContract
