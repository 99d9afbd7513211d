/-!
# Patterns and where they match

A pattern is a regular expression with assertions. What a pattern matches from a position in a
text is the set of positions where a match can end; the set of every part determines the set of
the whole, so matching needs no backtracking and ends after finitely many steps.

Letters beyond ASCII have neither case nor part in words here: a pattern that ignores case does so
for ASCII letters, and a word is made of ASCII letters, digits and underscores. An engine with the
Unicode tables folds and joins more, so a text in another script may match otherwise there where a
pattern ignores case or asks for the edge of a word.
-/

namespace ApiContract

/-- A set of characters. -/
inductive CharClass where
  | none
  | range (low high : Nat)
  | union (a b : CharClass)
  | inter (a b : CharClass)
  | compl (a : CharClass)
deriving DecidableEq, Repr, Inhabited

namespace CharClass

/-- Whether a code point is in the class. -/
def holds : CharClass → Nat → Bool
  | .none, _ => false
  | .range low high, n => low ≤ n && n ≤ high
  | .union a b, n => a.holds n || b.holds n
  | .inter a b, n => a.holds n && b.holds n
  | .compl a, n => !a.holds n

def single (c : Char) : CharClass := .range c.toNat c.toNat

/-- The class of a list of ranges. -/
def ofRanges (ranges : List (Nat × Nat)) : CharClass :=
  ranges.foldr (fun r a => .union (.range r.1 r.2) a) .none

def digit : CharClass := .range 48 57

def word : CharClass := ofRanges [(48, 57), (65, 90), (95, 95), (97, 122)]

/-- The blanks of a pattern: the ASCII ones and a few others. -/
def blank : CharClass :=
  ofRanges [(9, 13), (32, 32), (0xA0, 0xA0), (0x2003, 0x2003), (0x2029, 0x2029), (0xFEFF, 0xFEFF)]

/-- Every character, as it is or in the other ASCII case. Other letters have no other case. -/
def holdsFolded (a : CharClass) (n : Nat) : Bool :=
  a.holds n || (65 ≤ n && n ≤ 90 && a.holds (n + 32)) || (97 ≤ n && n ≤ 122 && a.holds (n - 32))

end CharClass

/-- A pattern. -/
inductive Pattern where
  /-- The empty text. -/
  | empty
  /-- One character of a class; `fold` ignores ASCII case. -/
  | one (chars : CharClass) (fold : Bool)
  | seq (a b : Pattern)
  | alt (a b : Pattern)
  /-- So many repetitions, without an upper bound for `none`. -/
  | rep (a : Pattern) (least : Nat) (most : Option Nat)
  /-- The start of the text, or of a line. -/
  | atStart (line : Bool)
  /-- The end of the text, or of a line. -/
  | atEnd (line : Bool)
  /-- A place where a word starts or ends, or one where none does. -/
  | wordEdge (negated : Bool)
  /-- What follows matches, or does not. -/
  | ahead (negated : Bool) (a : Pattern)
  /-- What precedes matches, or does not. -/
  | behind (negated : Bool) (a : Pattern)
deriving DecidableEq, Repr, Inhabited

namespace Pattern

/-- The members of the second list that the first lacks, each once. -/
def fresh (seen : List Nat) : List Nat → List Nat
  | [] => []
  | p :: ps => if seen.contains p then fresh seen ps else p :: fresh (p :: seen) ps

/-- The positions reachable by at most so many steps, given those found and those found last. -/
def reach (step : Nat → List Nat) : Nat → List Nat → List Nat → List Nat
  | 0, seen, _ => seen
  | n + 1, seen, last =>
    match fresh seen (last.flatMap step) with
    | [] => seen
    | next => reach step n (seen ++ next) next

/-- The positions after exactly so many steps. -/
def iterate (step : Nat → List Nat) : Nat → List Nat → List Nat
  | 0, ps => ps
  | n + 1, ps => if ps.isEmpty then [] else iterate step n (fresh [] (ps.flatMap step))

def isWordAt (text : Array Char) (i : Nat) : Bool :=
  match text[i]? with
  | some c => CharClass.word.holds c.toNat
  | none => false

/-- Whether a word, in ASCII, starts or ends at a position. -/
def edgeAt (text : Array Char) (i : Nat) : Bool :=
  (i != 0 && isWordAt text (i - 1)) != isWordAt text i

/-- The positions where a match from a position can end, each once. -/
def ends (text : Array Char) : Pattern → Nat → List Nat
  | .empty, i => [i]
  | .one chars fold, i =>
    match text[i]? with
    | some c =>
      if (if fold then chars.holdsFolded c.toNat else chars.holds c.toNat) then [i + 1] else []
    | none => []
  | .seq a b, i => fresh [] ((ends text a i).flatMap (ends text b))
  | .alt a b, i => fresh [] (ends text a i ++ ends text b i)
  | .rep a least most, i =>
    let first := iterate (ends text a) least [i]
    match most with
    | none => reach (ends text a) (text.size + 1) first first
    | some most => reach (ends text a) (most - least) first first
  | .atStart line, i => if i = 0 || (line && text[i - 1]? == some '\n') then [i] else []
  | .atEnd line, i => if i = text.size || (line && text[i]? == some '\n') then [i] else []
  | .wordEdge negated, i => if edgeAt text i != negated then [i] else []
  | .ahead negated a, i => if (ends text a i).isEmpty == negated then [i] else []
  | .behind negated a, i =>
    if ((List.range (i + 1)).any fun j => (ends text a j).contains i) != negated then [i] else []

/-- Whether a pattern matches somewhere in a text. -/
def occursIn (a : Pattern) (text : String) : Bool :=
  let cs := text.toList.toArray
  (List.range (cs.size + 1)).any fun i => !(ends cs a i).isEmpty

end Pattern

end ApiContract
