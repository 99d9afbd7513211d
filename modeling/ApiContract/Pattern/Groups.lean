import ApiContract.Pattern.Reader
/-!
# The groups of a pattern

A parenthesis opens a group whose match is told, unless it is escaped, stands in a class, or has a
question mark behind it that is not that of a name.
-/

namespace ApiContract

namespace Pattern

/-- Whether the match of a group is told, by what stands behind its parenthesis. -/
def isTold : List Char → Bool
  | '?' :: 'P' :: '<' :: _ => true
  | '?' :: '<' :: c :: _ => c ≠ '=' && c ≠ '!'
  | '?' :: _ => false
  | _ => true

/-- Count the groups whose match is told. `fuel` bounds the steps, each of which takes a character. -/
def countGroups : Nat → List Char → Nat
  | 0, _ => 0
  | _ + 1, [] => 0
  | fuel + 1, c :: cs =>
    if c = '\\' then countGroups fuel (cs.drop 1)
    else if c = '[' then
      match Reader.class? fuel cs with
      | some (_, rest) => countGroups fuel rest
      | none => 0
    else if c = '(' && isTold cs then countGroups fuel cs + 1
    else countGroups fuel cs

/-- How many groups of a pattern have their match told. -/
def groups (text : String) : Nat := countGroups text.length text.toList

end Pattern

end ApiContract
