import ApiContract.Route.Template
/-!
# The expression of a template

What a path must look like to match a template, as a regular expression: literal text is escaped where it
would mean something else, and a placeholder is a group of at least one character other than a slash.
-/

namespace ApiContract

/-- The characters that mean something in a regular expression. -/
def metaCharacters : List Char :=
  ['\\', '.', '+', '*', '?', '(', ')', '|', '[', ']', '\x7b', '\x7d', '^', '$', '#', '&', '-', '~']

/-- What a part of a template is written as. -/
def TemplatePart.expression : TemplatePart → List Char
  | .literal c => if metaCharacters.contains c then ['\\', c] else [c]
  | .placeholder _ => "([^/]+)".toList

namespace TemplatePart

theorem expression_escaped {c : Char} (h : c ∈ metaCharacters) :
    (literal c).expression = ['\\', c] :=
  if_pos (List.contains_iff_mem.mpr h)

theorem expression_plain {c : Char} (h : c ∉ metaCharacters) : (literal c).expression = [c] :=
  if_neg (mt List.contains_iff_mem.mp h)

end TemplatePart

/-- The regular expression of a template, from the start of a path to its end. -/
def PathPattern.expression : PathPattern → String
  | .root => "^/$"
  | .parts ps => String.ofList ('^' :: (ps.flatMap TemplatePart.expression ++ "/?$".toList))

theorem PathPattern.toList_expression (ps : List TemplatePart) : (parts ps).expression.toList =
    '^' :: (ps.flatMap TemplatePart.expression ++ "/?$".toList) := String.toList_ofList

end ApiContract
