import ApiContract.Format.Calendar
import ApiContract.Format.Resource
import ApiContract.Pattern.Reader
import ApiContract.Schema.Kind
/-!
# Named formats

A format is a set of texts with a name. A dialect knows some of the names; a name it does not know
demands nothing.
-/

namespace ApiContract

namespace Format

/-- The formats that both dialects know. -/
def shared : List (String × (List Char → Bool)) :=
  [("date", isDate), ("date-time", isDateTime), ("email", isEmail), ("hostname", isHostname),
   ("idn-email", isWideEmail), ("ipv4", isIpv4), ("ipv6", isIpv6),
   ("regex", fun cs => (Pattern.read? (String.ofList cs)).isSome), ("time", isTime),
   ("uri", isUri false)]

/-- The formats that only the newer dialect knows. -/
def recent : List (String × (List Char → Bool)) :=
  [("duration", isDuration), ("idn-hostname", isWideHostname), ("iri", isUri true),
   ("iri-reference", isUriReference true), ("json-pointer", isPointer),
   ("relative-json-pointer", isRelativePointer), ("uri-reference", isUriReference false),
   ("uri-template", isTemplate), ("uuid", isUuid)]

/-- The texts of a format, if the dialect knows its name. -/
def find? (dialect : Dialect) (name : String) : Option (List Char → Bool) :=
  let known := match dialect with
    | .draft4 => shared
    | .draft2020 => shared ++ recent
  (known.find? (·.1 == name)).map (·.2)

/-- Whether a text has the format of a name; every text has one that is unknown. -/
def holds (dialect : Dialect) (name : String) (text : String) : Bool :=
  match find? dialect name with
  | some accepts => accepts text.toList
  | none => true

end Format

end ApiContract
