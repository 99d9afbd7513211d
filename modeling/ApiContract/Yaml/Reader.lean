import ApiContract.Yaml.Lexer
import ApiContract.Yaml.Node
/-!
# From tokens to a tree

The reader makes the nodes of a document from its tokens. A text holds one document at most; one
that holds none is null. Anchors are numbered by how many names are known when one is set. A name
that is set anew so takes the number of the next new name, and an alias means the last node with
its number.
-/

namespace ApiContract

namespace Yaml

/-- What is left to read, and the anchors so far with their numbers. -/
structure Reading where
  tokens : List Token
  anchors : Assoc Nat := []

/-- A computation that reads tokens. -/
abbrev Reader := StateT Reading Option

/-- What the handles of tags mean. -/
abbrev Handles := List (String × String)

namespace Reader

/-- The next token. -/
def peek : Reader (Option Token) := return (← get).tokens.head?

/-- Go over the next token. -/
def skip : Reader Unit := modify fun s => { s with tokens := s.tokens.tail }

/-- Whether the next token is one of several. -/
def isNext (ts : List Token) : Reader Bool :=
  return ((← peek).map ts.contains).getD false

/-- Go over a token that must be next. -/
def expect (t : Token) : Reader Unit := do
  if ← isNext [t] then skip else failure

/-! ## Properties -/

/-- Set an anchor, and get its number. -/
def setAnchor (name : String) : Reader Nat := do
  let s ← get
  let n := s.anchors.length
  set { s with anchors := s.anchors.insert name n }
  return n

/-- The number of an anchor that was set. -/
def anchorOf (name : String) : Reader Nat := do
  match (← get).anchors.get? name with
  | some n => return n
  | none => failure

/-- The tag of a name. -/
def tagOf (handles : Handles) (t : TagName) : Option String :=
  if t.handle.isEmpty then some t.suffix
  else (handles.lookup t.handle).map (· ++ t.suffix)

/-- Read an anchor, if one is next. -/
def readAnchor : Reader (Option String) := do
  match ← peek with
  | some (.anchor name) => skip; return some name
  | _ => return none

/-- Read a tag, if one is next. -/
def readTag (handles : Handles) : Reader (Option String) := do
  match ← peek with
  | some (.tag t) => skip; return some (← tagOf handles t)
  | _ => return none

/-- Read the properties of a node: an anchor and a tag, in either order. -/
def readProperties (handles : Handles) : Reader Properties := do
  let before ← readAnchor
  let tag ← readTag handles
  let behind ← if before.isNone && tag.isSome then readAnchor else pure none
  match before.or behind with
  | some name => return { anchor := some (← setAnchor name), tag }
  | none => return { tag }

/-- The properties of a scalar: a lone mark for a tag says nothing. -/
def ofScalar (p : Properties) : Properties := if p.tag = some "!" then { p with tag := none } else p

/-! ## Nodes -/

mutual

/-- Read a node. `block` says whether block collections may start, `indentless` whether the items
of a sequence may stand without indentation of their own. -/
def readNode (handles : Handles) (block indentless : Bool) : Nat → Reader Node
  | 0 => failure
  | fuel + 1 => do
    match ← peek with
    | some (.alias name) => skip; return .alias (← anchorOf name)
    | _ => readContent handles block indentless (← readProperties handles) fuel

/-- Read the content of a node, which may be left out behind properties. -/
def readContent (handles : Handles) (block indentless : Bool) (p : Properties) :
    Nat → Reader Node
  | 0 => failure
  | fuel + 1 => do
    match ← peek with
    | some (.scalar isPlain text) => skip; return .scalar (ofScalar p) isPlain text
    | some .flowSequenceStart => skip; return .sequence p (← readFlowItems handles true fuel)
    | some .flowMappingStart => skip; return .mapping p (← readFlowEntries handles true fuel)
    | some .blockEntry =>
      if indentless then return .sequence p (← readIndentless handles fuel)
      else if p.isEmpty then failure else return .empty p
    | some .blockSequenceStart => do
      if block then skip; return .sequence p (← readItems handles fuel)
      else failure
    | some .blockMappingStart => do
      if block then skip; return .mapping p (← readEntries handles fuel)
      else failure
    | _ => if p.isEmpty then failure else return .empty p

/-- Read a node, unless one of the given tokens is next. -/
def readUnless (handles : Handles) (block indentless : Bool) (ts : List Token) :
    Nat → Reader Node
  | 0 => failure
  | fuel + 1 => do
    if ← isNext ts then return .empty {} else readNode handles block indentless fuel

/-- Read the items of a block sequence. -/
def readItems (handles : Handles) : Nat → Reader (List Node)
  | 0 => failure
  | fuel + 1 => do
    match ← peek with
    | some .blockEntry =>
      skip
      let item ← readUnless handles true false [.blockEntry, .blockEnd] fuel
      return item :: (← readItems handles fuel)
    | some .blockEnd => skip; return []
    | _ => failure

/-- Read the items of a block sequence without indentation of its own. -/
def readIndentless (handles : Handles) : Nat → Reader (List Node)
  | 0 => failure
  | fuel + 1 => do
    match ← peek with
    | some .blockEntry =>
      skip
      let item ← readUnless handles true false [.blockEntry, .key, .value, .blockEnd] fuel
      return item :: (← readIndentless handles fuel)
    | _ => return []

/-- Read the entries of a block mapping. -/
def readEntries (handles : Handles) : Nat → Reader (List (Node × Node))
  | 0 => failure
  | fuel + 1 => do
    match ← peek with
    | some .key =>
      skip
      let key ← readUnless handles true true [.key, .value, .blockEnd] fuel
      let value ← readValue handles true [.key, .value, .blockEnd] fuel
      return (key, value) :: (← readEntries handles fuel)
    | some .blockEnd => skip; return []
    | _ => failure

/-- Read the value of an entry, which may be left out with its mark or behind it. -/
def readValue (handles : Handles) (block : Bool) (ts : List Token) : Nat → Reader Node
  | 0 => failure
  | fuel + 1 => do
    match ← peek with
    | some .value => skip; readUnless handles block block ts fuel
    | _ => return .empty {}

/-- Read the items of a flow sequence; behind the first a comma comes before each. -/
def readFlowItems (handles : Handles) (first : Bool) : Nat → Reader (List Node)
  | 0 => failure
  | fuel + 1 => do
    if ← isNext [.flowSequenceEnd] then skip; return []
    else
      if !first then expect .flowEntry
      match ← peek with
      | some .flowSequenceEnd => skip; return []
      | some .key =>
        skip
        let entry ← readSingle handles fuel
        return .mapping {} [entry] :: (← readFlowItems handles false fuel)
      | _ =>
        let item ← readNode handles false false fuel
        return item :: (← readFlowItems handles false fuel)

/-- Read the only entry of a mapping that stands without braces in a flow sequence. Where its key is
left out, the mark behind it does not count. -/
def readSingle (handles : Handles) : Nat → Reader (Node × Node)
  | 0 => failure
  | fuel + 1 => do
    let key ←
      if ← isNext [.value, .flowEntry, .flowSequenceEnd] then
        skip
        pure (.empty {})
      else readNode handles false false fuel
    return (key, ← readValue handles false [.flowEntry, .flowSequenceEnd] fuel)

/-- Read the entries of a flow mapping; behind the first a comma comes before each. -/
def readFlowEntries (handles : Handles) (first : Bool) : Nat → Reader (List (Node × Node))
  | 0 => failure
  | fuel + 1 => do
    if ← isNext [.flowMappingEnd] then skip; return []
    else
      if !first then expect .flowEntry
      match ← peek with
      | some .flowMappingEnd => skip; return []
      | some .key =>
        skip
        let key ← readUnless handles false false [.value, .flowEntry, .flowMappingEnd] fuel
        let value ← readValue handles false [.flowEntry, .flowMappingEnd] fuel
        return (key, value) :: (← readFlowEntries handles false fuel)
      | _ =>
        let key ← readNode handles false false fuel
        return (key, .empty {}) :: (← readFlowEntries handles false fuel)

end

/-! ## Documents -/

/-- The handles that need no directive. -/
def defaultHandles : Handles := [("!", "!"), ("!!", Scalar.coreTag)]

/-- Add a directive to those before it. Neither the version nor a handle is given twice. -/
def addDirective? (before : Option (Nat × Nat) × Handles) :
    Directive → Option (Option (Nat × Nat) × Handles)
  | .version major minor =>
    if before.1.isNone && major = 1 && (minor = 1 || minor = 2) then
      some (some (major, minor), before.2)
    else none
  | .handle handle meaning =>
    if (before.2.lookup handle).isSome then none
    else some (before.1, before.2 ++ [(handle, meaning)])

/-- The directives at the start of tokens. -/
def directivesOf (ts : List Token) : List Directive :=
  (ts.takeWhile fun | .directive _ => true | _ => false).filterMap fun
    | .directive d => some d
    | _ => none

/-- Read the content of a document behind its start. -/
def readBehindStart (handles : Handles) (fuel : Nat) : Reader Node := do
  match ← peek with
  | none | some .documentStart | some .documentEnd | some (.directive _) => return .empty {}
  | _ => readNode handles true false fuel

/-- Read a document. Directives, and the mark for its start, may come before its content. -/
def readDocument (fuel : Nat) : Reader Node := do
  let directives := directivesOf (← get).tokens
  let some (_, handles) := directives.foldlM addDirective? (none, []) | failure
  modify fun s => { s with tokens := s.tokens.drop directives.length }
  let handles := handles ++ defaultHandles
  if ← isNext [.documentStart] then skip; readBehindStart handles fuel
  else if directives.isEmpty then readNode handles true false fuel
  else failure

end Reader

/-- The document of tokens, with nothing behind it but marks for its end. -/
def Node.ofTokens? (ts : List Token) : Option Node := do
  if ts.isEmpty then return .empty {}
  let (v, s) ← (Reader.readDocument (4 * (ts.length + 2))).run ⟨ts, []⟩
  if s.tokens.all (· == .documentEnd) then return v else none

/-- The tree of a text. -/
def read? (text : String) : Option Tree := do
  (← Node.ofTokens? (← tokens? text)).toTree?

end Yaml

end ApiContract
