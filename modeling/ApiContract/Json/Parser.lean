import ApiContract.Json.Lexer
/-!
# Reading a JSON text

The parser takes one token at a time and keeps the containers that are open. A text whose
containers nest too deeply is refused; the bound is `maxDepth`.
-/

namespace ApiContract

namespace Json

namespace Parser

/-- A container that is open: an array with its items in reverse, or an object with its members so
far and the key whose value is awaited. -/
inductive Frame where
  | array (rev : List Json)
  | object (members : Assoc Json) (key : String)

/-- What may come next. -/
inductive Expect where
  /-- A value. -/
  | value
  /-- A value, or the end of an array that has no item yet. -/
  | itemOrClose
  /-- A comma or the end of the innermost container. -/
  | commaOrClose
  /-- A key, or the end of an object that has no member yet. -/
  | keyOrClose
  /-- A key. -/
  | key
  /-- The colon after a key. -/
  | colon
  /-- Nothing: the value is complete. -/
  | nothing (v : Json)

/-- The open containers, innermost first, and what may come next. -/
structure State where
  frames : List Frame
  expect : Expect

/-- How deeply containers may nest. -/
def maxDepth : Nat := 127

/-- Put a complete value where it belongs. -/
def deliver (frames : List Frame) (v : Json) : State :=
  match frames with
  | [] => ⟨[], .nothing v⟩
  | .array rev :: rest => ⟨.array (v :: rev) :: rest, .commaOrClose⟩
  | .object members key :: rest => ⟨.object (members.insert key v) key :: rest, .commaOrClose⟩

/-- Open a container. -/
def push (frames : List Frame) (f : Frame) (expect : Expect) : Option State :=
  if frames.length < maxDepth then some ⟨f :: frames, expect⟩ else none

/-- The start of a value. -/
def startValue (frames : List Frame) : Token → Option State
  | .scalar v => some (deliver frames v)
  | .text s => some (deliver frames (.string s))
  | .openArray => push frames (.array []) .itemOrClose
  | .openObject => push frames (.object [] "") .keyOrClose
  | _ => none

/-- The end of an array. -/
def closeArray : List Frame → Option State
  | .array rev :: rest => some (deliver rest (.array rev.reverse))
  | _ => none

/-- The end of an object. -/
def closeObject : List Frame → Option State
  | .object members _ :: rest => some (deliver rest (.object members))
  | _ => none

/-- A key. -/
def startMember : List Frame → Token → Option State
  | .object members _ :: rest, .text k => some ⟨.object members k :: rest, .colon⟩
  | _, _ => none

/-- Take one token. -/
def step (s : State) (t : Token) : Option State :=
  match s.expect, t with
  | .value, t => startValue s.frames t
  | .itemOrClose, .closeArray => closeArray s.frames
  | .itemOrClose, t => startValue s.frames t
  | .commaOrClose, .closeArray => closeArray s.frames
  | .commaOrClose, .closeObject => closeObject s.frames
  | .commaOrClose, .comma =>
    match s.frames with
    | .array _ :: _ => some ⟨s.frames, .value⟩
    | .object _ _ :: _ => some ⟨s.frames, .key⟩
    | [] => none
  | .keyOrClose, .closeObject => closeObject s.frames
  | .keyOrClose, t => startMember s.frames t
  | .key, t => startMember s.frames t
  | .colon, .colon => some ⟨s.frames, .value⟩
  | _, _ => none

end Parser

/-- Read a JSON text. -/
def parse? (text : String) : Option Json := do
  let tokens ← Lexer.tokens? text.toList
  let s ← tokens.foldlM Parser.step ⟨[], .value⟩
  match s.expect with
  | .nothing v => some v
  | _ => none

end Json

end ApiContract
