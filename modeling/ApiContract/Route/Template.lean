import ApiContract.Text.Split
/-!
# Path templates

A template is literal text with placeholders in braces. A path matches when it is the template,
without the slashes at its end, with every placeholder filled by at least one character other than
a slash; one slash more at the end does not matter. The root matches itself alone. Of several ways
to fill the placeholders the earlier ones take as much as they can.
-/

namespace ApiContract

/-- A part of a template. -/
inductive TemplatePart where
  | literal (c : Char)
  | placeholder (name : String)
deriving DecidableEq, Repr

namespace Template

/-! ## The names in a template -/

mutual

/-- The names in braces, in order. A brace that is not closed names nothing. -/
def names : List Char → List String
  | [] => []
  | c :: cs => if c = '\x7b' then namesInside [] cs else names cs

/-- The names from inside a brace on, given the characters of the first in reverse. -/
def namesInside (rev : List Char) : List Char → List String
  | [] => []
  | c :: cs =>
    if c = '\x7d' then String.ofList rev.reverse :: names cs else namesInside (c :: rev) cs

end

/-! ## The parts of a template -/

mutual

/-- The parts of a template. A brace that is not closed stands for itself. -/
def parts : List Char → List TemplatePart
  | [] => []
  | c :: cs =>
    if c = '\x7b' && cs.contains '\x7d' then partsInside [] cs else .literal c :: parts cs

/-- The parts from inside a placeholder on, given the characters of its name in reverse. -/
def partsInside (rev : List Char) : List Char → List TemplatePart
  | [] => []
  | c :: cs =>
    if c = '\x7d' then .placeholder (String.ofList rev.reverse) :: parts cs
    else partsInside (c :: rev) cs

end

/-- The names of the placeholders among parts. -/
def placeholders (ps : List TemplatePart) : List String :=
  ps.filterMap fun
    | .placeholder name => some name
    | .literal _ => none

/-! ## Matching -/

/-- Fill a placeholder with the most characters, at most `n`, for which the rest matches. -/
def fillMost (rest : List Char → Option (List (List Char))) (cs : List Char) :
    Nat → Option (List (List Char))
  | 0 => none
  | n + 1 =>
    match rest (cs.drop (n + 1)) with
    | some fillers => some (cs.take (n + 1) :: fillers)
    | none => fillMost rest cs n

/-- The fillers of the placeholders, if a path matches the parts. -/
def fill? : List TemplatePart → List Char → Option (List (List Char))
  | [], cs => if cs = [] || cs = ['/'] then some [] else none
  | .literal _ :: _, [] => none
  | .literal c :: ps, d :: cs => if c = d then fill? ps cs else none
  | .placeholder _ :: ps, cs => fillMost (fill? ps) cs (cs.takeWhile (· ≠ '/')).length

end Template

/-- A template ready for matching: the root, or parts. -/
inductive PathPattern where
  | root
  | parts (parts : List TemplatePart)
deriving DecidableEq, Repr

namespace PathPattern

/-- Make a template ready; the empty template is the root. -/
def ofTemplate (template : String) : PathPattern :=
  if template = "/" || template = "" then .root
  else .parts (Template.parts (Text.dropEnd (· = '/') template.toList))

/-- The names of the placeholders. -/
def names : PathPattern → List String
  | .root => []
  | .parts ps => Template.placeholders ps

/-- The fillers of the placeholders, if a path matches. -/
def fill? : PathPattern → List Char → Option (List (List Char))
  | .root, path => if path = ['/'] then some [] else none
  | .parts ps, path => Template.fill? ps path

end PathPattern

end ApiContract
