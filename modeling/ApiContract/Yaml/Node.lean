import ApiContract.Yaml.Scalar
/-!
# Nodes

A document as it is written: nodes with anchors and tags, and aliases in the place of nodes that
stand elsewhere. `Node.toTree?` puts the nodes in the place of their aliases, gives scalars their
meaning, and refuses a key that occurs twice in a mapping.

Aliases can make a small document grow without bound. So a tree may nest only so deeply, and the
number of aliases followed is bounded by the size of the document.
-/

namespace ApiContract

namespace Yaml

/-- What is said of a node before its content. -/
structure Properties where
  /-- The number of its anchor. -/
  anchor : Option Nat := none
  tag : Option String := none
deriving DecidableEq, Repr

namespace Properties

def isEmpty (p : Properties) : Bool := p.anchor.isNone && p.tag.isNone

end Properties

/-- A part of a document as it is written. -/
inductive Node where
  /-- The node with the anchor of a number. -/
  | alias (anchor : Nat)
  | scalar (p : Properties) (isPlain : Bool) (text : String)
  | sequence (p : Properties) (items : List Node)
  | mapping (p : Properties) (entries : List (Node × Node))
deriving Repr

namespace Node

instance : Inhabited Node := ⟨.alias 0⟩

/-- A node that is left out. -/
def empty (p : Properties) : Node := .scalar p true ""

/-! ## Anchors -/

mutual

/-- The nodes with anchors, in the order in which they start. -/
def anchored : Node → List (Nat × Node)
  | .alias _ => []
  | .scalar p isPlain text => p.anchor.toList.map (·, .scalar p isPlain text)
  | .sequence p items => p.anchor.toList.map (·, .sequence p items) ++ anchoredItems items
  | .mapping p entries => p.anchor.toList.map (·, .mapping p entries) ++ anchoredEntries entries

def anchoredItems : List Node → List (Nat × Node)
  | [] => []
  | v :: vs => anchored v ++ anchoredItems vs

def anchoredEntries : List (Node × Node) → List (Nat × Node)
  | [] => []
  | (k, v) :: rest => anchored k ++ anchored v ++ anchoredEntries rest

end

mutual

/-- The size of a node: collections count for their start and their end. -/
def size : Node → Nat
  | .alias _ => 1
  | .scalar .. => 1
  | .sequence _ items => sizeOfItems items + 2
  | .mapping _ entries => sizeOfEntries entries + 2

def sizeOfItems : List Node → Nat
  | [] => 0
  | v :: vs => size v + sizeOfItems vs

def sizeOfEntries : List (Node × Node) → Nat
  | [] => 0
  | (k, v) :: rest => size k + size v + sizeOfEntries rest

end

/-! ## Trees -/

/-- How deeply a tree may nest. -/
def maxDepth : Nat := 128

/-- How many aliases may be followed for each unit of size. -/
def aliasesPerSize : Nat := 100

/-- A computation that may follow only so many aliases. -/
abbrev Bounded := StateT Nat Option

/-- Follow one alias more. -/
def countAlias : Bounded Unit := do
  match ← get with
  | 0 => failure
  | n + 1 => set n

/-- The tree of a scalar. -/
def scalarTree? (p : Properties) (isPlain : Bool) (text : String) : Option Tree :=
  match p.tag with
  | none => Scalar.untagged? isPlain text
  | some tag =>
    match Scalar.localName? tag with
    | some name => (Scalar.untagged? isPlain text).map (.tagged name)
    | none => Scalar.core? tag text

/-- A tree with the tag of its node. Of the tags of collections only a document's own count. -/
def withTag (p : Properties) (t : Tree) : Tree :=
  match p.tag.bind Scalar.localName? with
  | some name => .tagged name t
  | none => t

/-- Add an entry to those of a mapping; its key must be new. -/
def addEntry? (entries : List (Tree × Tree)) (key value : Tree) : Option (List (Tree × Tree)) :=
  if entries.any fun e => e.1.same key then none else some (entries ++ [(key, value)])

/-- The tree of a node, given the nodes with anchors, the last one first. `depth` is how deeply it
may nest; `fuel` bounds the steps to a leaf, of which each level takes at most two. -/
def build (anchors : List (Nat × Node)) : Nat → Nat → Node → Bounded Tree
  | 0, _, _ => failure
  | fuel + 1, depth, .alias anchor => do
    countAlias
    match anchors.find? (·.1 == anchor) with
    | some (_, v) => build anchors fuel depth v
    | none => failure
  | _ + 1, _, .scalar p isPlain text => scalarTree? p isPlain text
  | fuel + 1, depth, .sequence p items => do
    match depth with
    | 0 => failure
    | depth + 1 => return withTag p (.sequence (← items.mapM (build anchors fuel depth)))
  | fuel + 1, depth, .mapping p entries => do
    match depth with
    | 0 => failure
    | depth + 1 =>
      let entries ← entries.foldlM (fun done e => do
        let key ← build anchors fuel depth e.1
        let value ← build anchors fuel depth e.2
        addEntry? done key value) []
      return withTag p (.mapping entries)

/-- The tree of a document. -/
def toTree? (v : Node) : Option Tree :=
  ((build v.anchored.reverse (2 * maxDepth + 3) maxDepth v).run (aliasesPerSize * v.size)).map (·.1)

end Node

end Yaml

end ApiContract
