import ApiContract.Json.Basic
import ApiContract.Text.Split
/-!
# Content types

Clients differ in how they write the parameters of a content type, so a header is reduced to a
short list of equivalents, which are looked up in order among the media types of a contract. The
first equivalent also names the bucket of the validator store.
-/

namespace ApiContract

/-- The parts of a content type header that names one. -/
structure MediaHeader where
  /-- The header without blanks at its ends. -/
  raw : String
  /-- The header without its boundary. -/
  withoutBoundary : String
  /-- What stands before the first semicolon. -/
  mediaType : String
  /-- The first parameter, if it is not empty. -/
  charset : Option String
deriving DecidableEq, Repr

/-- The content type of a message, if it names one. -/
abbrev ContentType := Option MediaHeader

namespace ContentType

/-- Drop the first parameter called `boundary`, from its semicolon to the end of the line that its
name stands on. The white space before the name may hold ends of lines too. -/
def cutBoundary : List Char → List Char
  | [] => []
  | c :: cs =>
    if c = ';' && (Text.strip? "boundary".toList (cs.dropWhile Text.isWhite)).isSome then
      (cs.dropWhile Text.isWhite).dropWhile (· ≠ '\n')
    else c :: cutBoundary cs

/-- The parts of a header that is not empty. -/
def partsOf (raw : List Char) : MediaHeader :=
  let bare := cutBoundary raw
  let pieces := Text.splitOn ';' bare
  let piece (n : Nat) := String.ofList (Text.trim (pieces[n]?.getD []))
  { raw := String.ofList raw
    withoutBoundary := String.ofList bare
    mediaType := piece 0
    charset := if (piece 1).isEmpty then none else some (piece 1) }

/-- Read a header; one that is blank names no content type. -/
def parse (header : Option String) : ContentType :=
  match header.map fun h => Text.trim h.toList with
  | some (c :: cs) => some (partsOf (c :: cs))
  | _ => none

/-- The content type among headers whose names are in lower case. -/
def ofHeaders (headers : Assoc Json) : ContentType :=
  parse ((headers.get? "content-type").bind Json.asString?)

/-- The keys under which a contract may declare the content type, in order. -/
def equivalents : ContentType → List String
  | none => []
  | some h =>
    match h.charset with
    | some charset => [h.mediaType, h.mediaType ++ "; " ++ charset]
    | none => [h.withoutBoundary, h.mediaType ++ "; charset=utf-8"]

/-- The bucket of messages without a content type. -/
def notProvided : String := "not_provided"

/-- The bucket of the content type: its first equivalent. -/
def bucket (t : ContentType) : String := t.equivalents.head?.getD notProvided

end ContentType

namespace MediaType

/-- Whether a media type carries JSON, by its subtype or the suffix of its subtype. -/
def isJson (mediaType : String) : Bool :=
  let essence := Text.trim (Text.before (· = ';') mediaType.toList)
  match Text.splitOnce? '/' essence with
  | none => false
  | some (_, subtype) =>
    let subtype := subtype.map Char.toLower
    subtype = "json".toList || "+json".toList.isSuffixOf subtype

/-- The entry for a content type: under one of its equivalents, or else under the wildcard of its
family, or else under the wildcard of all. -/
def select? (content : Assoc Json) (h : MediaHeader) : Option Json :=
  match (ContentType.equivalents (some h)).findSome? content.get? with
  | some entry => some entry
  | none =>
    let family := String.ofList (Text.before (· = '/') h.mediaType.toList)
    match content.get? (family ++ "/*") with
    | some entry => some entry
    | none => content.get? "*/*"

end MediaType

end ApiContract
