import ApiContract.Json.Printer
import ApiContract.Text.Shown
/-!
# YAML trees

A document as a tree of nodes. Mappings keep their entries in order, and any node can be a key.
`Tree.toJson` makes a JSON value of a tree: keys become texts where they are scalars, tags are
dropped, and numbers that are not finite become null.
-/

namespace ApiContract

namespace Yaml

/-- A node of a document. -/
inductive Tree where
  | null
  | bool (value : Bool)
  | int (value : Int)
  | real (value : Binary64)
  | infinity (negative : Bool)
  | notANumber
  | text (value : String)
  | sequence (items : List Tree)
  | mapping (entries : List (Tree × Tree))
  | tagged (tag : String) (content : Tree)
deriving Repr

namespace Tree

instance : Inhabited Tree := ⟨.null⟩

/-! ## Comparison -/

/-- Whether two doubles are one key: the sign of zero does not count. -/
def sameReal (x y : Binary64) : Bool := x = y || (x.isZero && y.isZero)

mutual

/-- Whether two nodes are one key. -/
def same : Tree → Tree → Bool
  | .null, .null => true
  | .bool a, .bool b => a == b
  | .int a, .int b => a == b
  | .real a, .real b => sameReal a b
  | .infinity a, .infinity b => a == b
  | .notANumber, .notANumber => true
  | .text a, .text b => a == b
  | .sequence as, .sequence bs => sameItems as bs
  | .mapping as, .mapping bs => sameEntries as bs
  | .tagged s a, .tagged t b => s == t && same a b
  | _, _ => false

def sameItems : List Tree → List Tree → Bool
  | [], [] => true
  | a :: as, b :: bs => same a b && sameItems as bs
  | _, _ => false

def sameEntries : List (Tree × Tree) → List (Tree × Tree) → Bool
  | [], [] => true
  | (a, v) :: as, (b, w) :: bs => same a b && same v w && sameEntries as bs
  | _, _ => false

end

/-! ## Keys -/

/-- A double in a key has the fewest digits that identify it, and no plus sign in its exponent. -/
def keyLayout : FloatLayout where
  positional := some (-5, 16)
  pointZero := true
  plusSign := false
  tieUp := false

def infinityText (negative : Bool) : String := if negative then "-.inf" else ".inf"

def intText (n : Int) : String := (Number.int n).render

/-- The text of a key that is a scalar other than null. -/
def keyText? : Tree → Option String
  | .bool b => some (if b then "true" else "false")
  | .int n => some (intText n)
  | .real x => some (x.render keyLayout)
  | .infinity negative => some (infinityText negative)
  | .notANumber => some ".nan"
  | .text s => some s
  | _ => none

/-! ## Descriptions -/

mutual

/-- A node in words. -/
def describe : Tree → String
  | .null => "Null"
  | .bool b => "Bool(" ++ (if b then "true" else "false") ++ ")"
  | .int n => "Number(" ++ intText n ++ ")"
  | .real x => "Number(" ++ x.render keyLayout ++ ")"
  | .infinity negative => "Number(" ++ infinityText negative ++ ")"
  | .notANumber => "Number(.nan)"
  | .text s => "String(" ++ Text.shown s ++ ")"
  | .sequence items => "Sequence [" ++ String.intercalate ", " (describeItems items) ++ "]"
  | .mapping entries =>
    "Mapping \x7b" ++ String.intercalate ", " (describeEntries entries) ++ "\x7d"
  | .tagged tag content =>
    "TaggedValue \x7b tag: !" ++ tag ++ ", value: " ++ describe content ++ " \x7d"

def describeItems : List Tree → List String
  | [] => []
  | v :: vs => describe v :: describeItems vs

def describeEntries : List (Tree × Tree) → List String
  | [] => []
  | (k, v) :: rest =>
    let key := match k with
      | .text s => Text.shown s
      | .bool b => if b then "true" else "false"
      | k => (keyText? k).getD (describe k)
    (key ++ ": " ++ describe v) :: describeEntries rest

end

/-! ## Conversion -/

mutual

/-- The JSON value of a tree, or the first key that is no text, number or flag. Of two entries whose
keys have one text the later stays. -/
def toJson : Tree → Except Tree Json
  | .null => .ok .null
  | .bool b => .ok (.bool b)
  | .int n => .ok (.int n)
  | .real x => .ok (.number (.real x))
  | .infinity _ => .ok .null
  | .notANumber => .ok .null
  | .text s => .ok (.string s)
  | .sequence items => do return .array (← itemsToJson items)
  | .mapping entries => do return .object (← entriesToJson [] entries)
  | .tagged _ content => toJson content

def itemsToJson : List Tree → Except Tree (List Json)
  | [] => .ok []
  | v :: vs => do
    let w ← toJson v
    return w :: (← itemsToJson vs)

/-- Add the entries of a mapping to members. -/
def entriesToJson (members : Assoc Json) : List (Tree × Tree) → Except Tree (Assoc Json)
  | [] => .ok members
  | (k, v) :: rest =>
    match keyText? k with
    | none => .error k
    | some key => do
      let w ← toJson v
      entriesToJson (members.insert key w) rest

end

/-- The tree without its tags. -/
def untagged : Tree → Tree
  | .tagged _ content => untagged content
  | v => v

end Tree

end Yaml

end ApiContract
