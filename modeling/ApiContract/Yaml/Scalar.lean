import ApiContract.Text.Digit
import ApiContract.Yaml.Tree
/-!
# Plain scalars

What a scalar without quotes and tag means: null, a flag, an integer in one of four bases, a double,
or a text. A number with a superfluous leading zero is a text. Integers that need more than 64 but
not more than 128 bits cannot be held, and refuse the document.
-/

namespace ApiContract

namespace Yaml

namespace Scalar

/-- What a scalar stands for. -/
inductive Meaning where
  | tree (t : Tree)
  /-- An integer that is too large. -/
  | tooLarge
  /-- Nothing but its text. -/
  | words

def isNull (s : String) : Bool := ["null", "Null", "NULL", "~"].contains s

def bool? (s : String) : Option Bool :=
  if ["true", "True", "TRUE"].contains s then some true
  else if ["false", "False", "FALSE"].contains s then some false
  else none

/-- Whether digits have a superfluous leading zero. -/
def hasLeadingZero (cs : List Char) : Bool :=
  match (Decimal.splitSign cs).2 with
  | '0' :: d :: ds => (d :: ds).all Char.isDigit
  | _ => false

/-- The number behind a sign: in the base that its start names, or decimal. -/
def magnitude? (cs : List Char) : Option Nat :=
  match cs with
  | '0' :: 'x' :: ds => Text.number? 16 ds
  | '0' :: 'o' :: ds => Text.number? 8 ds
  | '0' :: 'b' :: ds => Text.number? 2 ds
  | ds => if hasLeadingZero ds then none else Text.number? 10 ds

/-- The integer of a scalar. -/
def int? (cs : List Char) : Meaning :=
  match cs with
  | '-' :: ds =>
    match magnitude? ds with
    | some n =>
      if n ≤ pow2 63 then .tree (.int (-n)) else if n ≤ pow2 127 then .tooLarge else .words
    | none => .words
  | cs =>
    let ds := match cs with
      | '+' :: ds => ds
      | ds => ds
    match magnitude? ds with
    | some n => if n < pow2 64 then .tree (.int n) else if n < pow2 128 then .tooLarge else .words
    | none => .words

/-- The double of a scalar. -/
def real? (s : String) : Option Tree :=
  let cs := s.toList
  let signed := match cs with
    | '+' :: ds => ds
    | ds => ds
  if [".inf", ".Inf", ".INF"].contains (String.ofList signed) then some (.infinity false)
  else if ["-.inf", "-.Inf", "-.INF"].contains s then some (.infinity true)
  else if [".nan", ".NaN", ".NAN"].contains s then some .notANumber
  else if cs.head? = some '+' && (signed.head? = some '+' || signed.head? = some '-') then none
  else ((Decimal.read? signed).bind Decimal.toBinary64).map .real

/-- What a plain scalar means. -/
def plain (s : String) : Meaning :=
  if s.isEmpty || isNull s then .tree .null
  else match bool? s with
    | some b => .tree (.bool b)
    | none =>
      match int? s.toList with
      | .words =>
        if hasLeadingZero s.toList then .words
        else match real? s with
          | some t => .tree t
          | none => .words
      | meaning => meaning

/-- The tree of a scalar whose meaning is known. -/
def Meaning.toTree? (s : String) : Meaning → Option Tree
  | .tree t => some t
  | .tooLarge => none
  | .words => some (.text s)

/-- Where the tags of the core types start. -/
def coreTag : String := "tag:yaml.org,2002:"

/-- The name in a tag that a document makes up for itself. -/
def localName? (tag : String) : Option String :=
  match tag.toList with
  | ['!'] => some "!"
  | '!' :: name => some (String.ofList name)
  | _ => none

/-- The tree of a scalar without a tag; one that is not plain is a text. -/
def untagged? (isPlain : Bool) (s : String) : Option Tree :=
  if isPlain then (plain s).toTree? s else some (.text s)

/-- The tree of a scalar with a tag of the core types, or nothing when the scalar does not fit. A
scalar with any other tag is a text. -/
def core? (tag : String) (s : String) : Option Tree :=
  if tag = coreTag ++ "bool" then (bool? s).map .bool
  else if tag = coreTag ++ "int" then
    match int? s.toList with
    | .tree t => some t
    | _ => none
  else if tag = coreTag ++ "float" then real? s
  else if tag = coreTag ++ "null" then if isNull s then some .null else none
  else some (.text s)

end Scalar

end Yaml

end ApiContract
