import ApiContract.Proofs.Parameter.Coercion
import ApiContract.Proofs.Request.DeclaredOnce
import ApiContract.Proofs.Request.Document
import ApiContract.Proofs.Request.WriteBack
import ApiContract.Proofs.Url.Query
/-!
# Arrays in a query

The items of an array are written into a target as the style of its parameter says: each as a value
of its own, or all in one value with a delimiter between them. Validation reads them back: what is
judged, and handed to the host, is the array of the items as coercion converts them. So texts arrive
as they were sent exactly where no item converts, and whole numbers as numbers exactly where the
kinds of the items say so. These are the kinds of the schema that the reference of the items leads
to: what stands next to a reference is not read, though the items are judged by it.
-/

namespace ApiContract

/-! ## Writing an array -/

/-- How the items of an array are written as the raw values of a query parameter. -/
inductive ParameterDefinition.Writes (d : ParameterDefinition) (items : List String) :
    List String → Prop
  /-- Each item is a value of its own. -/
  | exploded (h : d.explodesIn .query = true) : Writes d items items
  /-- The items are joined by a delimiter that none of them contains. -/
  | joined (h : d.explodesIn .query = false) (delimiter : Char)
      (hd : (d.styleIn .query).bind Style.delimiter? = some delimiter)
      (hfree : ∀ s ∈ items, delimiter ∉ s.toList) :
      Writes d items [String.ofList ([delimiter].intercalate (items.map String.toList))]

/-- Whether the target of a request carries the items of an array under a name. -/
def Request.CarriesArray (r : Request) (d : ParameterDefinition) (name : String)
    (items : List String) : Prop :=
  ∃ pairs, Query.Carries r.target pairs ∧ d.Writes items (Query.valuesUnder name pairs)

/-- Whether a route declares an array in its query, once, by a schema of its own that has no branch
for objects. -/
structure Route.DeclaresArray (route : Route) (c : Contract) (name : String)
    (d : ParameterDefinition) (schema : Json) : Prop where
  once : route.DeclaresOnce c name d
  direct : d.directSchema? = some schema
  array : Synthesis.declaresKind schema "array" = true
  plain : Synthesis.hasObject schema = false

/-! ## Reading it -/

theorem ParameterDefinition.source_of_directSchema? {d : ParameterDefinition} {schema : Json}
    (h : d.directSchema? = some schema) : d.source = some (.direct schema) := by
  unfold directSchema? at h
  split at h
  · next hsource => rw [hsource, Option.some.inj h]
  · cases h

namespace Reshape

/-- Wrapping leaves an array of its items, however many there are. -/
theorem wrapSingle_reshaped {items : List String} {v : Json} (hne : items ≠ [""])
    (hv : Query.gathered items = some v) : wrapSingle.reshaped v = .array (items.map .string) := by
  match items with
  | [] => cases hv
  | [s] =>
    obtain rfl := Option.some.inj hv
    have hs : s.isEmpty = false := by
      cases he : s.isEmpty with
      | false => rfl
      | true => exact absurd (String.isEmpty_iff.mp he) fun h => hne (congrArg (fun s => [s]) h)
    simp [reshaped, Directive.isPresent, hs, convert?]
  | _ :: _ :: _ =>
    obtain rfl := Option.some.inj hv
    rfl

/-- Splitting undoes joining. -/
theorem splitArray_reshaped {items : List String} {delimiter : Char} (hne : items ≠ [])
    (hne' : items ≠ [""]) (hfree : ∀ s ∈ items, delimiter ∉ s.toList) :
    (splitArray delimiter).reshaped
        (.string (String.ofList ([delimiter].intercalate (items.map String.toList)))) =
      .array (items.map .string) := by
  have hsplit : Text.splitOn delimiter ([delimiter].intercalate (items.map String.toList)) =
      items.map String.toList :=
    Text.splitOn_intercalate (by simpa using hne) (by rwa [List.forall_mem_map])
  have hpresent : (String.ofList ([delimiter].intercalate (items.map String.toList))).isEmpty =
      false := by
    rw [Bool.eq_false_iff]
    intro hempty
    have hnil : [delimiter].intercalate (items.map String.toList) = [] :=
      String.ofList_eq_empty_iff.mp (String.isEmpty_iff.mp hempty)
    -- the empty text is the one empty item
    rw [hnil, Text.splitOn_nil] at hsplit
    obtain ⟨s, hs, hitem⟩ := List.map_eq_singleton_iff.mp hsplit.symm
    exact hne' (by rw [hs, String.toList_eq_nil_iff.mp hitem])
  simp only [reshaped, Directive.isPresent, hpresent, Bool.not_false, if_true, convert?, split,
    String.toList_ofList, hsplit, Option.getD_some, List.map_map]
  refine congrArg Json.array (List.map_congr_left fun s _ => ?_)
  simp only [Function.comp, String.ofList_toList]

end Reshape

/-- **What is gathered from a target is reshaped to the array that was written.** -/
theorem Synthesis.exists_gathered_of_writes {d : ParameterDefinition} {source : SchemaSource}
    {schema : Json} {route : String} {xs : List Reshape} {items raws : List String}
    (hsource : d.source = some source) (hxs : reshapes d source .query route = .ok xs)
    (hdirect : d.directSchema? = some schema) (harray : declaresKind schema "array" = true)
    (hplain : hasObject schema = false) (hwrites : d.Writes items raws) (hne : items ≠ [])
    (hne' : items ≠ [""]) :
    ∃ v, Query.gathered raws = some v ∧ Reshape.reshapedBy xs v = .array (items.map .string) := by
  obtain rfl : source = .direct schema :=
    Option.some.inj (hsource.symm.trans (ParameterDefinition.source_of_directSchema? hdirect))
  obtain ⟨x, hx, rfl⟩ : ∃ x, arrayReshape d .query route = .ok x ∧ xs = [x] := by
    obtain ⟨ys, rfl, ⟨_, x, -, -, hx, rfl⟩ | ⟨hno, -⟩⟩ := reshapes_eq_ok_iff.mp hxs
    · exact ⟨x, hx, by simp [isEncoded, hplain]⟩
    · exact absurd harray (by simp [hno schema hdirect])
  cases hwrites with
  | exploded hexplodes =>
    obtain ⟨-, rfl⟩ | ⟨hno, -⟩ := arrayReshape_eq_ok_iff.mp hx
    · obtain ⟨v, hv⟩ : ∃ v, Query.gathered items = some v := by
        match items with
        | [] => exact absurd rfl hne
        | [s] => exact ⟨_, rfl⟩
        | _ :: _ :: _ => exact ⟨_, rfl⟩
      exact ⟨v, hv, Reshape.wrapSingle_reshaped hne' hv⟩
    · exact absurd hexplodes (by simp [hno])
  | joined hexplodes delimiter hdelimiter hfree =>
    obtain ⟨hno, -⟩ | ⟨-, delimiter', hdelimiter', rfl⟩ := arrayReshape_eq_ok_iff.mp hx
    · exact absurd hexplodes (by simp [hno])
    · obtain rfl := Option.some.inj (hdelimiter.symm.trans hdelimiter')
      exact ⟨_, rfl, Reshape.splitArray_reshaped hne hne' hfree⟩

namespace Validator

variable {x : Validator} {s : Stores} {r : Request} {m : Matching} {name : String}
  {d : ParameterDefinition} {schema : Json} {items : List String}

/-- **What is judged of an array in a query**: its items, coerced if types are. -/
theorem judged_array (hplan : ∃ contentType,
      RequestPlan.build x.contract x.compiler m.route contentType = .ok m.plan)
    (hdeclares : m.route.DeclaresArray x.contract name d schema)
    (hcarries : r.CarriesArray d name items) (hne : items ≠ []) (hne' : items ≠ [""]) :
    (m.plan.schema.location .query).declares name = true ∧
      ((x.judged m r).get .query).get? name = some (if x.config.coerceTypes then
        Coercion.value x.contract (.array (items.map .string)) schema
        else .array (items.map .string)) := by
  obtain ⟨contentType, hplan⟩ := hplan
  obtain ⟨source, hsource, hxs, hget⟩ :=
    RequestSchema.exists_of_declaresOnce (RequestPlan.build_eq_ok_iff.mp hplan).1 hdeclares.once
  obtain ⟨pairs, hpairs, hwrites⟩ := hcarries
  obtain ⟨v, hv, hreshaped⟩ := Synthesis.exists_gathered_of_writes hsource hxs hdeclares.direct
    hdeclares.array hdeclares.plain hwrites hne hne'
  obtain rfl : source = .direct schema := Option.some.inj
    (hsource.symm.trans (ParameterDefinition.source_of_directSchema? hdeclares.direct))
  rw [SchemaSource.schema] at hget
  constructor
  · rw [LocationSchema.declares, Assoc.contains_eq, hget]
    rfl
  · rw [judged, RequestValidator.get?_prepare_query, Query.get?_parse_of_carries hpairs, hv,
      Option.map_some, RequestValidator.treated, RequestSchema.reshapeAll_directives, hreshaped,
      Coercion.member, hget]
    rfl

/--
**What becomes of an array in a query.** Let a request be checked against a plan of its route, and
let its target carry the items of an array that the route declares. A value is judged for it, and
handed to the host if the request is accepted. It is the array of the items as they were sent
exactly if types are not coerced or no item converts, as it is for items of a type that admits
texts. Of whole numbers of 64 bits in decimal it is the array exactly if types are coerced and the
kinds of the items convert integers, as they do for items of a type that admits integers but no
texts. The kinds are those that coercion reads, which is the same where no reference stands at the
schema or at that of the items.
-/
theorem array_in_query_iff (x : Validator) (s : Stores) (r : Request) {m : Matching} {name : String}
    {d : ParameterDefinition} {schema : Json} {items : List String}
    (hm : x.matching? s r = some m)
    (hplan : ∃ contentType,
      RequestPlan.build x.contract x.compiler m.route contentType = .ok m.plan)
    (hdeclares : m.route.DeclaresArray x.contract name d schema)
    (hcarries : r.CarriesArray d name items) (hne : items ≠ []) (hne' : items ≠ [""]) :
    ∃ v, ((RequestValidator.instanceOf (x.judged m r) r.body).member? "query").bind
        (Json.member? · name) = some v ∧
      (∀ template, (x.validateRequest s r).1 = .ok (.validated template) →
        (x.validateRequest s r).2.1.query.get? name = some v) ∧
      (v = .array (items.map .string) ↔ x.config.coerceTypes = false ∨
        ∀ s ∈ items, (Coercion.itemKinds? x.contract schema).bind (Coercion.scalar? s) = none) ∧
      (Coercion.ItemsAre schema "string" → v = .array (items.map .string)) ∧
      ∀ ns : List Int, items = ns.map toString → (∀ n ∈ ns, Coercion.Fits n) →
        (v = .array (ns.map Json.int) ↔ x.config.coerceTypes = true ∧ ∃ kinds,
          Coercion.itemKinds? x.contract schema = some kinds ∧
            Coercion.ConvertsIntegers kinds) ∧
        (Coercion.ItemsAre schema "integer" → ¬ Coercion.ItemsAre schema "string" →
          x.config.coerceTypes = true → v = .array (ns.map Json.int)) := by
  obtain ⟨hdeclared, hjudged⟩ := judged_array hplan hdeclares hcarries hne hne'
  generalize hv : (if x.config.coerceTypes then
    Coercion.value x.contract (.array (items.map .string)) schema
    else .array (items.map .string)) = v at hjudged
  refine ⟨v, ?_, ?_, ?_, ?_, ?_⟩
  · obtain ⟨members, hinstance, hlocation, -⟩ :=
      RequestValidator.exists_instanceOf (x.judged m r) r.body
    have hquery : members.get? "query" = some (.object ((x.judged m r).get .query)) :=
      hlocation .query
    simp only [hinstance, Json.member?, Json.asObject?, Option.bind_some, hquery, hjudged]
  · intro template hvalidated
    obtain ⟨m', hm', -, -, hr⟩ := exists_matching_of_validated hvalidated
    obtain rfl := Option.some.inj (hm.symm.trans hm')
    have hwritten : (RequestValidator.writeBack m.plan.schema (x.judged m r)
        (x.requests.prepare m.plan m.params r).2).value? .query name = some v := by
      rw [RequestValidator.value?_writeBack _ hdeclared, if_neg (by simp), hjudged, Option.some_or]
    rw [hr]
    exact hwritten
  · rw [← hv]
    cases x.config.coerceTypes with
    | false => simp
    | true => simp [Coercion.value_texts_eq_iff]
  · intro hstring
    rw [← hv]
    split
    · refine (Coercion.value_texts_eq_iff x.contract items schema).mpr fun s _ => ?_
      exact Coercion.bind_scalar?_of_itemsAre_string hdeclares.array hstring s
    · rfl
  · rintro ns rfl hfits
    have hns : ns ≠ [] := by simpa using hne
    have hiff := Coercion.value_texts_eq_ints_iff x.contract hns hfits schema
    rw [← hv]
    cases x.config.coerceTypes with
    | false =>
      rw [if_neg (by simp)]
      refine ⟨iff_of_false (Coercion.texts_ne_ints hns) (by simp), fun _ _ hcoerce => ?_⟩
      exact absurd hcoerce Bool.false_ne_true
    | true =>
      rw [if_pos rfl]
      refine ⟨hiff.trans ⟨fun h => ⟨rfl, h⟩, And.right⟩, fun hinteger hno _ => hiff.mpr ?_⟩
      exact Coercion.convertsIntegers_of_itemsAre hdeclares.array hinteger hno

end Validator

/-! ## Items with a reference beside their type -/

/-- The schema of texts that refers to one that may be null. -/
def referringTexts : Json := .object [
  ("items", .object [
    ("$ref", .string "#/components/schemas/E"),
    ("type", .string "string")]),
  ("type", .string "array")]

/-- The schema of whole numbers. -/
def wholeNumbers : Json := .object [
  ("items", .object [("type", .string "integer")]),
  ("type", .string "array")]

def textsParameter : Json := .object [
  ("in", .string "query"), ("name", .string "m"), ("schema", referringTexts)]

def numbersParameter : Json := .object [
  ("explode", .bool false), ("in", .string "query"), ("name", .string "n"),
  ("schema", wholeNumbers), ("style", .string "pipeDelimited")]

/-- A contract with `GET /a`, whose query may hold texts under `m` and whole numbers under `n`. -/
def listed : Contract where
  root := [
    ("components", .object [("schemas", .object [
      ("E", .object [("nullable", .bool true)])])]),
    ("openapi", .string "3.1.0"),
    ("paths", .object [("/a", .object [("get", .object [
      ("parameters", .array [textsParameter, numbersParameter]),
      ("responses", .object [])])])])]
  version := "3.1.0"

def listedValidator : Validator :=
  ⟨listed, .ofRoutes (listed.routes.toOption.getD []), {}⟩

theorem declaresArray_m {route : Route}
    (h : route.parameters = [textsParameter, numbersParameter]) :
    route.DeclaresArray listed "m"
      ⟨"m", "query", false, some (.direct referringTexts), none, none⟩ referringTexts := by
  refine ⟨⟨[], textsParameter, [numbersParameter], textsParameter, h, rfl, ⟨rfl, rfl⟩, rfl, ?_⟩,
    rfl, by decide, by decide⟩
  intro other hother
  obtain rfl := List.mem_singleton.mp hother
  exact Contract.not_writesInQuery rfl (by decide)

theorem declaresArray_n {route : Route}
    (h : route.parameters = [textsParameter, numbersParameter]) :
    route.DeclaresArray listed "n"
      ⟨"n", "query", false, some (.direct wholeNumbers), some "pipeDelimited", some false⟩
      wholeNumbers := by
  refine ⟨⟨[textsParameter], numbersParameter, [], numbersParameter, h, rfl, ⟨rfl, rfl⟩, rfl, ?_⟩,
    rfl, by decide, by decide⟩
  intro other hother
  obtain rfl := List.mem_singleton.mp hother
  exact Contract.not_writesInQuery rfl (by decide)

/-- What a validator that has built nothing checks a request against is built for the route. -/
theorem Validator.build_of_matching?_stores {x : Validator} {r : Request} {m : Matching}
    (h : x.matching? x.stores r = some m) : ∃ contentType,
      RequestPlan.build x.contract x.compiler m.route contentType = .ok m.plan := by
  unfold matching? at h
  split at h
  · rcases RequestValidator.plan_of_matching? h with hstored | hbuilt
    · cases hstored
    · exact ⟨_, hbuilt⟩
  · cases h

set_option maxRecDepth 10000 in
/-- Whole numbers arrive. -/
theorem array_in_query_iff_numbers :
    (listedValidator.validateRequest listedValidator.stores
        (.ofTarget Method.get "/a?n=1%7C-2")).2.1.query.get? "n" =
      some (.array [Json.int 1, Json.int (-2)]) := by
  have h : (listedValidator.matching? listedValidator.stores
      (.ofTarget Method.get "/a?n=1%7C-2")).map (·.route.parameters) =
        some [textsParameter, numbersParameter] := by decide +kernel
  obtain ⟨m, hm, hparameters⟩ := Option.map_eq_some_iff.mp h
  have hcarries : Request.CarriesArray (.ofTarget Method.get "/a?n=1%7C-2")
      ⟨"n", "query", false, some (.direct wholeNumbers), some "pipeDelimited", some false⟩ "n"
      ["1", "-2"] := by
    refine ⟨[("n", "1|-2")], ⟨"/a".toList, [], by decide, by simp, by decide +kernel⟩, ?_⟩
    exact .joined rfl '|' rfl (by decide)
  obtain ⟨v, -, hvalidated, -, -, hnumbers⟩ := Validator.array_in_query_iff listedValidator
    listedValidator.stores _ hm (Validator.build_of_matching?_stores hm)
    (declaresArray_n hparameters) hcarries (by decide) (by decide)
  have hv : v = .array [Json.int 1, Json.int (-2)] :=
    ((hnumbers [1, -2] (by decide) (by decide)).1).mpr
      ⟨rfl, ["integer"], by decide +kernel, by decide⟩
  rw [hvalidated "/a" (by decide +kernel), hv]

set_option maxRecDepth 10000 in
/-- Texts do not, where what their schema refers to may be null: the empty text is judged as null,
and refused as no text. -/
theorem array_in_query_referring_ne :
    Validator.ofContract listed {} = .ok listedValidator ∧
      ∃ m d, listedValidator.matching? listedValidator.stores
          (.ofTarget Method.get "/a?m=&m=a") = some m ∧
        m.route.DeclaresArray listed "m" d referringTexts ∧
        ((referringTexts.member? "items").bind (·.member? "type")) = some (.string "string") ∧
        Request.CarriesArray (.ofTarget Method.get "/a?m=&m=a") d "m" ["", "a"] ∧
        ((listedValidator.judged m (.ofTarget Method.get "/a?m=&m=a")).get .query).get? "m" =
          some (.array [.null, .string "a"]) ∧
        (listedValidator.validateRequest listedValidator.stores
          (.ofTarget Method.get "/a?m=&m=a")).1 = .error (.schemaValidation
            [⟨".query.m[0]", "null is not of type \"string\"",
              some "type.openapi.validation"⟩]) := by
  have h : (listedValidator.matching? listedValidator.stores
      (.ofTarget Method.get "/a?m=&m=a")).map (fun m => (m.route.parameters,
        (listedValidator.judged m (.ofTarget Method.get "/a?m=&m=a")).query)) =
      some ([textsParameter, numbersParameter], [("m", .array [.null, .string "a"])]) := by
    decide +kernel
  obtain ⟨m, hm, heq⟩ := Option.map_eq_some_iff.mp h
  obtain ⟨hparameters, hjudged⟩ := Prod.mk.inj heq
  refine ⟨rfl, m, _, hm, declaresArray_m hparameters, by decide, ?_, ?_, by decide +kernel⟩
  · refine ⟨[("m", ""), ("m", "a")], ⟨"/a".toList, [], by decide, by simp, by decide +kernel⟩, ?_⟩
    exact .exploded rfl
  · rw [PerLocation.get, hjudged]
    rfl

end ApiContract
