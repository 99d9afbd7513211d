import ApiContract.Format.Basic
import ApiContract.Schema.Violation
/-!
# Judging a value by a schema

A verdict holds the violations, depth first in the order of the keywords, and what of the value the
keywords covered: the properties and items that a later `unevaluated` keyword has no say about.

Judging is by recursion on the schema. What a reference means is given from outside, once for
references met at the value itself and once for those met further inside it.
-/

namespace ApiContract

namespace Schema

/-- The properties and the items of a value that were covered. -/
structure Coverage where
  properties : List String := []
  items : List Nat := []
deriving DecidableEq, Repr

namespace Coverage

def append (a b : Coverage) : Coverage := ⟨a.properties ++ b.properties, a.items ++ b.items⟩

instance : Append Coverage := ⟨append⟩

end Coverage

/-- The outcome of judging a value. -/
structure Verdict where
  violations : List Violation := []
  coverage : Coverage := {}
deriving DecidableEq, Repr

namespace Verdict

/-- Whether there is no violation. -/
def accepted (x : Verdict) : Bool := x.violations.isEmpty

/-- A single violation unless a condition holds. -/
def check (ok : Bool) (p : Place) (v : Json) (cause : Cause) : Verdict :=
  if ok then {} else { violations := [⟨p, v, cause⟩] }

/-- The verdict of a schema that is applied in place: it covers nothing unless it accepts. -/
def inPlace (x : Verdict) : Verdict := if x.accepted then x else { x with coverage := {} }

def append (x y : Verdict) : Verdict := ⟨x.violations ++ y.violations, x.coverage ++ y.coverage⟩

instance : Append Verdict := ⟨append⟩

/-- Several verdicts as one. -/
def join (xs : List Verdict) : Verdict := xs.foldr append {}

/-- The violations alone: what is covered inside a part of a value covers nothing of the value. -/
def ofPart (x : Verdict) : Verdict := { violations := x.violations }

end Verdict

/-- What references mean. -/
structure Meaning where
  dialect : Dialect
  /-- The verdict of a reference at the value that is judged. -/
  here : String → Place → Json → Verdict
  /-- The verdict of a reference at a part of it. -/
  below : String → Place → Json → Verdict

/-- The meaning inside a part. -/
def Meaning.inside (m : Meaning) : Meaning := { m with here := m.below }

/-- Whether a number is a multiple of another. A whole divisor has whole multiples; for any other
the quotient, rounded to a double, may exceed a whole number by less than the spacing at one. -/
def isMultiple (n divisor : Number) : Bool :=
  let x := n.toBinary64
  let d := divisor.toBinary64
  if d.isIntegral then
    x.isIntegral && !d.isZero && (x.ratio.1 / x.ratio.2) % (d.ratio.1 / d.ratio.2) == 0
  else match x.div d with
    | some q => q.negative || q.fraction.1 * pow2 52 < q.fraction.2
    | none =>
      -- the quotient is out of range: compare the shortest decimals exactly
      let (a, i) := x.shortest true
      let (b, j) := d.shortest true
      (a * pow10 (i - j).toNat) % (b * pow10 (j - i).toNat) == 0

/-- Whether no two values of a list are equal. -/
def allDistinct : List Json → Bool
  | [] => true
  | v :: vs => !vs.any (Json.equal v) && allDistinct vs

/-- Judge the number of items that were accepted; a bound that is given names the violation. -/
def judgeCount (p : Place) (v : Json) (found : Nat) : Option Nat → Option Nat → Verdict
  | none, none => .check (found != 0) (p.under "contains") v .notContained
  | some least, none => .check (least ≤ found) (p.under "minContains") v .notContained
  | none, some most => .check (found != 0 && found ≤ most) (p.under "maxContains") v .notContained
  | some least, some most =>
    if most < found then .check false (p.under "maxContains") v .notContained
    else .check (least ≤ found) (p.under "minContains") v .notContained

/-- A violation of the name of a property is one of the object. -/
def Violation.ofName (p : Place) (v : Json) (name : String) (x : Violation) : Violation :=
  ⟨⟨p.value, x.place.schema⟩, v, .badName name x.cause⟩

/-- The members of an object; other values have none. -/
def membersOf (v : Json) : Assoc Json := v.asObject?.getD []

/-- The items of an array with their indices; other values have none. -/
def itemsOf (v : Json) : List (Json × Nat) := (v.asArray?.getD []).zipIdx

/-- Cover the properties of the names given. -/
def coverNames (names : List String) : Verdict := { coverage := { properties := names } }

/-- Cover the items of the indices given. -/
def coverItems (indices : List Nat) : Verdict := { coverage := { items := indices } }

mutual

/-- Judge a value by a schema. -/
def judge (m : Meaning) (p : Place) (v : Json) : Schema → Verdict
  | .always => {}
  | .never => .check false p v .refused
  | .node keywords => judgeAll m p v {} keywords

/-- Judge by keywords one after the other, given what those before them covered. -/
def judgeAll (m : Meaning) (p : Place) (v : Json) (covered : Coverage) : List Keyword → Verdict
  | [] => {}
  | k :: ks =>
    let x := judgeKeyword m p v covered k
    x ++ judgeAll m p v (covered ++ x.coverage) ks

/-- Judge by a keyword. -/
def judgeKeyword (m : Meaning) (p : Place) (v : Json) (covered : Coverage) : Keyword → Verdict
  | .reference target => (m.here target (p.under "$ref") v).inPlace
  | .kind kinds => .check (kinds.any (·.has m.dialect v)) (p.under "type") v (.wrongKind kinds)
  | .oneOfValues values =>
    .check (values.any (Json.equal v)) (p.under "enum") v (.notListed values)
  | .constant value => .check (Json.equal v value) (p.under "const") v (.notConstant value)
  | .bound bound limit =>
    match v with
    | .number n => .check (bound.admits limit n) (p.under bound.word) v (.beyond bound limit)
    | _ => {}
  | .size measure upper limit =>
    match measure.of? v with
    | some n =>
      .check (if upper then n ≤ limit else limit ≤ n) (p.under (measure.word upper)) v
        (.wrongSize measure upper limit)
    | none => {}
  | .multipleOf divisor =>
    match v with
    | .number n => .check (isMultiple n divisor) (p.under "multipleOf") v (.notMultiple divisor)
    | _ => {}
  | .pattern named =>
    match v with
    | .string s => .check (named.pattern.occursIn s) (p.under "pattern") v (.noMatch named.text)
    | _ => {}
  | .format name =>
    match v with
    | .string s => .check (Format.holds m.dialect name s) (p.under "format") v (.badFormat name)
    | _ => {}
  | .required names =>
    match v with
    | .object members =>
      .join (names.map fun k =>
        .check (Assoc.contains members k) (p.under "required") v (.missing k))
    | _ => {}
  | .uniqueItems =>
    match v with
    | .array items => .check (allDistinct items) (p.under "uniqueItems") v .repeated
    | _ => {}
  | .properties declared => judgeProperties m p (membersOf v) declared
  | .patternProperties matching => judgePatterns m p (membersOf v) matching
  | .partition declared matching others =>
    .join ((membersOf v).map fun e =>
      let matched := judgeMatches m p e.1 e.2 matching
      let own := match judgeNamed m p e.1 e.2 declared with
        | some x => x ++ Verdict.join matched
        | none =>
          if matched.isEmpty then
            judge m.inside ((p.into e.1).under "additionalProperties") e.2 others
          else Verdict.join matched
      own.ofPart ++ coverNames [e.1])
  | .closed declared matching =>
    let told := (membersOf v).map fun e =>
      let matched := judgeMatches m p e.1 e.2 matching
      match judgeNamed m p e.1 e.2 declared with
      | some x => (e.1, some (x ++ Verdict.join matched))
      | none => (e.1, if matched.isEmpty then none else some (Verdict.join matched))
    let unexpected := told.filterMap fun t => if t.2.isNone then some t.1 else none
    .join (told.map fun t => ((t.2.getD {}).ofPart ++ coverNames [t.1])) ++
      .check unexpected.isEmpty (p.under "additionalProperties") v
        (.unexpectedProperties unexpected)
  | .noProperties =>
    match membersOf v with
    | [] => {}
    | (_, first) :: _ => .check false (p.under "additionalProperties") first .refused
  | .propertyNames names =>
    .join ((membersOf v).map fun e =>
      let x := judge m.inside (p.under "propertyNames") (.string e.1) names
      { violations := x.violations.map (Violation.ofName p v e.1) })
  | .noPropertyNames => .check (membersOf v).isEmpty (p.under "propertyNames") v .refused
  | .items start each =>
    .join (((itemsOf v).drop start).map fun e =>
      (judge m.inside ((p.into (toString e.2)).under "items") e.1 each).ofPart ++ coverItems [e.2])
  | .tuple word schemas => judgeTuple m (p.under word) (itemsOf v) schemas
  | .additionalItems start each =>
    .join (((itemsOf v).drop start).map fun e =>
      (judge m.inside ((p.into (toString e.2)).under "additionalItems") e.1 each).ofPart ++
        coverItems [e.2])
  | .noAdditionalItems start =>
    let rest := ((itemsOf v).drop start).map (·.1)
    .check rest.isEmpty (p.under "additionalItems") v (.unexpectedItems rest)
  | .contains each least most =>
    match v with
    | .array _ =>
      let found := (itemsOf v).filter fun e =>
        (judge m.inside ((p.into (toString e.2)).under "contains") e.1 each).accepted
      judgeCount p v found.length least most ++ coverItems (found.map (·.2))
    | _ => {}
  | .allOf branches => .join ((judgeBranches m (p.under "allOf") v 0 branches).map Verdict.inPlace)
  | .anyOf branches =>
    let xs := (judgeBranches m (p.under "anyOf") v 0 branches).filter Verdict.accepted
    .check (!xs.isEmpty) (p.under "anyOf") v (.noBranch "anyOf") ++ .join xs
  | .oneOf branches =>
    match (judgeBranches m (p.under "oneOf") v 0 branches).filter Verdict.accepted with
    | [] => .check false (p.under "oneOf") v (.noBranch "oneOf")
    | [x] => x
    | _ => .check false (p.under "oneOf") v .severalBranches
  | .not text schema =>
    .check (!(judge m (p.under "not") v schema).accepted) (p.under "not") v (.forbidden text)
  | .conditional condition consequence alternative =>
    let x := judge m (p.under "if") v condition
    if x.accepted then x ++ (judge m (p.under "then") v consequence).inPlace
    else (judge m (p.under "else") v alternative).inPlace
  | .dependentNames word property names =>
    match v with
    | .object members =>
      if Assoc.contains members property then
        .join (names.map fun k => .check (Assoc.contains members k) (p.under word) v (.missing k))
      else {}
    | _ => {}
  | .dependentSchema word property schema =>
    if (membersOf v).contains property then
      (judge m ((p.under word).under property) v schema).inPlace
    else {}
  | .unevaluatedItems each =>
    let rest := (itemsOf v).filter fun e =>
      !covered.items.contains e.2 &&
        !(judge m.inside ((p.into (toString e.2)).under "unevaluatedItems") e.1 each).accepted
    .check rest.isEmpty (p.under "unevaluatedItems") v (.unevaluatedItems (rest.map (·.1))) ++
      coverItems ((itemsOf v).map (·.2))
  | .unevaluatedProperties each =>
    let rest := (membersOf v).filter fun e =>
      !covered.properties.contains e.1 &&
        !(judge m.inside ((p.into e.1).under "unevaluatedProperties") e.2 each).accepted
    .check rest.isEmpty (p.under "unevaluatedProperties") v
        (.unevaluatedProperties (rest.map (·.1))) ++
      coverNames ((membersOf v).map (·.1))

/-- Judge a value by each of some branches. -/
def judgeBranches (m : Meaning) (p : Place) (v : Json) (n : Nat) : List Schema → List Verdict
  | [] => []
  | s :: ss => judge m (p.under (toString n)) v s :: judgeBranches m p v (n + 1) ss

/-- Judge items by the schemas of a tuple, as far as both go. -/
def judgeTuple (m : Meaning) (p : Place) : List (Json × Nat) → List Schema → Verdict
  | e :: es, s :: ss =>
    (judge m.inside ((p.into (toString e.2)).under (toString e.2)) e.1 s).ofPart ++
      coverItems [e.2] ++ judgeTuple m p es ss
  | _, _ => {}

/-- Judge the members of an object that are declared, in the order of the declarations. -/
def judgeProperties (m : Meaning) (p : Place) (members : Assoc Json) :
    List (String × Schema) → Verdict
  | [] => {}
  | (k, s) :: rest =>
    (match members.get? k with
      | some w =>
        (judge m.inside (((p.into k).under "properties").under k) w s).ofPart ++ coverNames [k]
      | none => {}) ++ judgeProperties m p members rest

/-- Judge the members of an object whose names match, pattern by pattern. -/
def judgePatterns (m : Meaning) (p : Place) (members : Assoc Json) :
    List (NamedPattern × Schema) → Verdict
  | [] => {}
  | (r, s) :: rest =>
    .join ((members.filter (r.pattern.occursIn ·.1)).map fun e =>
      (judge m.inside (((p.into e.1).under "patternProperties").under r.text) e.2 s).ofPart ++
        coverNames [e.1]) ++
      judgePatterns m p members rest

/-- Judge one member by the declaration of its name, if there is one. -/
def judgeNamed (m : Meaning) (p : Place) (name : String) (w : Json) :
    List (String × Schema) → Option Verdict
  | [] => none
  | (k, s) :: rest =>
    if k = name then some (judge m.inside (((p.into k).under "properties").under k) w s)
    else judgeNamed m p name w rest

/-- Judge one member by each pattern that its name matches. -/
def judgeMatches (m : Meaning) (p : Place) (name : String) (w : Json) :
    List (NamedPattern × Schema) → List Verdict
  | [] => []
  | (r, s) :: rest =>
    if r.pattern.occursIn name then
      judge m.inside (((p.into name).under "patternProperties").under r.text) w s ::
        judgeMatches m p name w rest
    else judgeMatches m p name w rest

end

end Schema

end ApiContract
