import ApiContract.Yaml.Folding
import ApiContract.Yaml.Tag
/-!
# Tokens

The words of a document. Layout is told by tokens of its own: where a block collection starts, where
one ends, and where the key of a pair begins.
-/

namespace ApiContract

namespace Yaml

/-- A word of a document. -/
inductive Token where
  | directive (d : Directive)
  | documentStart
  | documentEnd
  | blockSequenceStart
  | blockMappingStart
  | blockEnd
  | flowSequenceStart
  | flowSequenceEnd
  | flowMappingStart
  | flowMappingEnd
  /-- What separates the items of a flow collection. -/
  | flowEntry
  /-- What introduces an item of a block sequence. -/
  | blockEntry
  | key
  | value
  | alias (name : String)
  | anchor (name : String)
  | tag (t : TagName)
  /-- A text; `isPlain` says that it has neither quotes nor a block of its own. -/
  | scalar (isPlain : Bool) (text : String)
deriving DecidableEq, Repr

end Yaml

end ApiContract
