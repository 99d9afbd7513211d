import ApiContract.Proofs.Contract.Agreeing
import ApiContract.Proofs.Request.Conjunction
import ApiContract.Proofs.Request.Frame
import ApiContract.Proofs.Response.Blame
import ApiContract.Proofs.Response.Declared
import ApiContract.Proofs.Response.Document
import ApiContract.Proofs.Schema.Located
/-!
# Where the problems of a message are

A request is judged as one document that has a member for each location and one for the body, and a
response as a document that has the body for its only member. The document asks for its members and
nothing else, so each problem leads into one of them. Before a document is judged nothing is told of
schemas: a plan that cannot be built, or a route that is not found, fails for other reasons.
-/

open ApiContract.Except (FailsOnly)

namespace ApiContract

/-! ## Failures before anything is judged -/

/-- Whether a failure tells no problems of a schema. -/
def Failure.Unjudged : Failure → Prop
  | schemaValidation _ | responseValidation _ => False
  | _ => True

open Failure (Unjudged)

theorem Contract.failsOnly_resolve (c : Contract) (v : Json) : FailsOnly Unjudged (c.resolve v) := by
  intro f h
  obtain ⟨path, fault, rfl⟩ := exists_of_resolve_error h
  trivial

theorem Compiler.failsOnly_compile (x : Compiler) (schema : Json) (route : String) :
    FailsOnly Unjudged (x.compile schema route) := by
  intro f h
  obtain ⟨text, rfl⟩ := exists_of_compile_error h
  trivial

theorem ParameterDefinition.failsOnly_ofJson (v : Json) (route : String) :
    FailsOnly Unjudged (ofJson v route) := by
  unfold ofJson
  split
  · split
    · exact .error trivial
    · refine .bind ?_ fun _ => .ok _
      unfold readSource
      split
      · exact .ok _
      · split
        · exact .ok _
        · exact .ok _
        · exact .error trivial
  · exact .error trivial

namespace Synthesis

theorem failsOnly_arrayReshape (d : ParameterDefinition) (location : Location) (route : String) :
    FailsOnly Unjudged (arrayReshape d location route) := by
  unfold arrayReshape
  extract_lets style
  split
  · exact .ok _
  · split
    · exact .ok _
    · exact .error trivial

theorem failsOnly_reshapes (d : ParameterDefinition) (source : SchemaSource) (location : Location)
    (route : String) : FailsOnly Unjudged (reshapes d source location route) := by
  unfold reshapes
  extract_lets decode
  split
  · split
    · exact .bind (failsOnly_arrayReshape d location route) fun _ => .ok _
    · exact .ok _
  · exact .ok _

theorem failsOnly_addRaw (c : Contract) (route : String) (x : Declared) (raw : Json) :
    FailsOnly Unjudged (addRaw c route x raw) := by
  unfold addRaw
  refine .bind (c.failsOnly_resolve raw) fun v => .bind (ParameterDefinition.failsOnly_ofJson v route)
    fun d => ?_
  unfold addParameter
  split
  · split
    · exact .bind (failsOnly_reshapes d _ _ route) fun _ => .ok _
    · exact .error trivial
  · exact .error trivial

theorem failsOnly_relaxed (c : Contract) (schema : Json) : FailsOnly Unjudged (relaxed c schema) := by
  unfold relaxed
  split
  · exact .bind (c.failsOnly_resolve schema) fun _ => .ok _
  · exact .ok _

theorem failsOnly_bodySchema (c : Contract) (route : String) (content : Assoc Json)
    (contentType : ContentType) : FailsOnly Unjudged (bodySchema c route content contentType) := by
  rw [bodySchema_eq_bind]
  refine .bind ?_ fun media => ?_
  · unfold mediaOf
    split
    · split
      · exact .ok _
      · exact .error trivial
    · exact .ok _
  · split
    · exact failsOnly_relaxed c _
    · exact .ok _

theorem failsOnly_body (c : Contract) (route : Route) (contentType : ContentType) :
    FailsOnly Unjudged (body c route contentType) := by
  unfold body
  split
  · exact .ok _
  · refine .bind (c.failsOnly_resolve _) fun requestBody => ?_
    split
    · exact .ok _
    · exact .bind (failsOnly_bodySchema c _ _ contentType) fun _ => .ok _

end Synthesis

/-- **A plan that cannot be built fails for another reason than a problem of a schema.** -/
theorem RequestPlan.failsOnly_build (c : Contract) (compiler : Compiler) (route : Route)
    (contentType : ContentType) : FailsOnly Unjudged (build c compiler route contentType) := by
  have hsynthesize : FailsOnly Unjudged (RequestSchema.synthesize c route contentType) :=
    .bind (.foldlM (Synthesis.failsOnly_addRaw c route.template) _ _) fun _ =>
      .bind (Synthesis.failsOnly_body c route contentType) fun _ => .ok _
  exact .bind hsynthesize fun _ => .bind (compiler.failsOnly_compile _ _) fun _ => .ok _

theorem ResponseValidators.failsOnly_build (c : Contract) (compiler : Compiler) (route : Route) :
    FailsOnly Unjudged (build c compiler route) := by
  intro f h
  obtain ⟨e, -, he⟩ := build_eq_error_iff.mp h
  rcases buildOne_eq_error he with he | ⟨-, text, rfl⟩
  · exact c.failsOnly_resolve e.2 f he
  · trivial

/-- A store fails where a build does. -/
theorem Store.failsOnly_getOrBuild {ε β : Type} {P : ε → Prop} (s : Store β) (key : StoreKey)
    {build : Unit → Except ε β} (h : FailsOnly P (build ())) :
    FailsOnly P (s.getOrBuild key build).1 := by
  unfold getOrBuild
  split
  · split
    · exact .ok _
    · split
      · exact .ok _
      · next e he => exact .error (h e he)
  · exact h

/-! ## Problems of a plain document -/

section

variable {x : Compiler} {whole : Json} {route : String} {c : Schema.Compiled}
  {declared members : Assoc Json} {required : Option (List String)} {typed : Bool}
  {names : List String} {a : Problem}

open Schema Problem in
/-- **The problems of a plain document lead into its members.** -/
theorem Compiler.located_of_mem_problems (hc : x.compile whole route = .ok c)
    (hwhole : normalize whole = .object (plainMembers declared required typed))
    (hindex : ∀ name ∈ names, Pointer.isIndex name.toList = false)
    (hdeclared : ∀ d ∈ declared, d.1 ∈ names) (hrequired : ∀ k ∈ required.getD [], k ∈ names)
    (ha : a ∈ c.problems (.object members)) : a.Located names := by
  obtain ⟨violation, hviolation, rfl⟩ := List.mem_map.mp ha
  refine ⟨?_, _, rfl⟩
  change violation ∈ (judge (c.meaning (c.followBound (.object members))) .root (.object members)
    c.schema).violations at hviolation
  rw [schema_of_compile hc, reading, hwhole, read_plain, mem_violations_judge_plain] at hviolation
  rcases hviolation with ⟨f, hf, w, -, hmem⟩ | ⟨k, hk, -, rfl⟩
  · obtain ⟨d, hd, rfl⟩ := List.mem_map.mp hf
    obtain ⟨q, hq⟩ := exists_place_of_mem_judge (c.placeless_meaning _).inside hmem
    have hplace : violation.place.value = d.1 :: q.value := by
      rw [hq]
      rfl
    exact ⟨d.1, hdeclared d hd, leadsInto_of_place hplace (hindex _ (hdeclared d hd))⟩
  · let missing : Violation := ⟨Place.root.under "required", .object members, .missing k⟩
    exact ⟨k, hrequired k hk, show LeadsInto k (pathOf missing) from leadsInto_of_missing rfl rfl⟩

end

/-! ## Requests -/

namespace RequestSchema

open Schema

/-- The document of a request schema has no other members than the locations and the body. -/
theorem fst_mem_of_mem_normalized {schema : RequestSchema} {d : String × Json}
    (hd : d ∈ normalizeMembers schema.properties) :
    d.1 ∈ ["query", "headers", "params", "cookies", "body"] := by
  rw [normalizeMembers_eq_map] at hd
  obtain ⟨e, he, rfl⟩ := List.mem_map.mp hd
  rcases schema.mem_properties.mp he with rfl | ⟨l, rfl⟩
  · simp
  · cases l <;> simp [Location.field]

theorem mem_of_mem_listed {schema : RequestSchema} {k : String} (hk : k ∈ schema.listed) :
    k ∈ ["query", "headers", "params", "cookies", "body"] := by
  unfold listed at hk
  revert k
  cases schema.bodyRequired <;> decide

end RequestSchema

namespace RequestValidator

variable {x : RequestValidator} {store : Store RequestPlan} {r : Request}

/-- A call that comes to no plan tells no problems of a schema. -/
theorem failsOnly_of_matching?_none (h : x.matching? store r = none) :
    FailsOnly Failure.Unjudged (x.validate store r).1 := by
  unfold matching? at h
  unfold validate
  cases hl : x.index.lookup r.method r.path with
  | methodNotAllowed template => exact .error trivial
  | unmanaged => exact .ok _
  | matched route params =>
    have hfind : FailsOnly Failure.Unjudged (x.findPlan store route r).1 :=
      Store.failsOnly_getOrBuild _ _ (RequestPlan.failsOnly_build _ _ _ _)
    simp only [hl] at h ⊢
    split at h
    · cases h
    · next f store' hf =>
      rw [hf] at hfind ⊢
      exact .error (hfind f rfl)

end RequestValidator

namespace Validator

variable {x : Validator} {calls : List Call} {r : Request} {problems : List Problem}

theorem failsOnly_of_matching?_none {s : Stores} (h : x.matching? s r = none) :
    FailsOnly Failure.Unjudged (x.validateRequest s r).1 := by
  unfold matching? at h
  unfold validateRequest
  split at h
  · next hv =>
    rw [if_pos hv]
    exact RequestValidator.failsOnly_of_matching?_none h
  · next hv =>
    rw [if_neg hv]
    exact .ok _

/-- The problems of a request are those that its plan finds in the document of the request. -/
theorem located_of_request (h : (x.validateRequest (x.storesAfter calls) r).1 =
      .error (.schemaValidation problems)) {a : Problem} (ha : a ∈ problems) :
    a.Located ["query", "headers", "params", "cookies", "body"] := by
  cases hm : x.matching? (x.storesAfter calls) r with
  | none => exact (failsOnly_of_matching?_none hm _ h).elim
  | some m =>
    obtain ⟨route, contentType, hbuild⟩ := exists_build_of_matching? hm
    rw [(validateRequest_of_matching? hm).1] at h
    rcases x.requests.check_cases m.plan m.route.template m.params r with
      ⟨key, -, hc⟩ | ⟨-, found, -, hp, hc⟩ | ⟨-, -, hc⟩ <;> rw [hc] at h
    · cases h
    · obtain rfl := Failure.schemaValidation.inj (Except.error.inj h)
      obtain ⟨members, hinstance, -⟩ := RequestValidator.exists_instanceOf
        (x.requests.prepare m.plan m.params r).1 (x.requests.prepare m.plan m.params r).2.body
      rw [← hp, hinstance] at ha
      exact Compiler.located_of_mem_problems (RequestPlan.compile_of_build hbuild)
        m.plan.schema.normalize_toSchema (by decide)
        (fun _ => RequestSchema.fst_mem_of_mem_normalized)
        (fun _ => RequestSchema.mem_of_mem_listed) ha
    · cases h

end Validator

/-! ## Responses -/

namespace ResponseValidators

variable {c : Contract} {compiler : Compiler} {route : Route} {validators : ResponseValidators}

/-- What is selected for a status was compiled from a schema that holds the body. -/
theorem exists_compile_of_select? (h : build c compiler route = .ok validators) {status : Nat}
    {name : String} {validator : Schema.Compiled}
    (hs : validators.select? status = some (name, some validator)) :
    ∃ schema, compiler.compile (wrap schema) route.template = .ok validator := by
  have hselect := select?_of_build h status
  cases hresponse : route.responseFor? status with
  | none =>
    rw [hresponse] at hselect
    rw [hselect] at hs
    cases hs
  | some response =>
    rw [hresponse] at hselect
    obtain ⟨name', built, hselect, hbuilt⟩ := hselect
    obtain ⟨rfl, rfl⟩ := Prod.mk.inj (Option.some.inj (hselect.symm.trans hs))
    obtain ⟨resolved, -, hcases⟩ := buildOne_cases hbuilt
    cases hschema : schemaOf? resolved with
    | none =>
      rw [hschema] at hcases
      cases hcases
    | some schema =>
      rw [hschema] at hcases
      obtain ⟨compiled, hcompiled, heq⟩ := hcases
      obtain rfl := Option.some.inj heq
      exact ⟨schema, hcompiled⟩

end ResponseValidators

namespace Validator

variable {x : Validator} {calls : List Call} {r : Request} {problems : List Problem}

theorem exists_build_of_responseDemand? {call : Call} {d : Demand Failure ResponseValidators}
    (h : x.responseDemand? call = some d) :
    ∃ route, d.built = ResponseValidators.build x.contract x.compiler route := by
  unfold responseDemand? at h
  split at h
  · cases h
  · split at h
    · unfold ResponseValidator.demand? at h
      split at h
      · obtain rfl := Option.some.inj h
        exact ⟨_, rfl⟩
      · cases h
    · cases h

/-- After any session, the validators that are found were built for some route. -/
theorem exists_build_of_findValidators {route : Route} {validators : ResponseValidators}
    (h : (x.responses.findValidators (x.storesAfter calls).responses route r).1 = .ok validators) :
    ∃ route, ResponseValidators.build x.contract x.compiler route = .ok validators := by
  rcases Store.get?_or_built h with hstored | hbuilt
  · rw [storesAfter_eq] at hstored
    obtain ⟨d, hd, -, hbuilt⟩ := Store.exists_of_get?_foldl_meet hstored
    obtain ⟨call, -, hcall⟩ := List.mem_map.mp hd
    obtain ⟨route, hd⟩ := exists_build_of_responseDemand? hcall
    exact ⟨route, hd.symm.trans hbuilt⟩
  · exact ⟨route, hbuilt⟩

theorem located_of_response {status : Nat} {body : Json}
    (h : (x.validateResponse (x.storesAfter calls) r status body).1 =
      .error (.responseValidation problems)) {a : Problem} (ha : a ∈ problems) :
    a.Located ["response"] := by
  have hvalidate : (x.responses.validate (x.storesAfter calls).responses r status body).1 =
      .error (.responseValidation problems) := by
    unfold validateResponse at h
    split at h
    · exact h
    · cases h
  obtain ⟨route, params, -, hfails⟩ := ResponseValidator.exists_matched_of_validate_error hvalidate
  rcases hfails with hfails | ⟨validators, hfound, hcheck⟩
  · have hfind : FailsOnly Failure.Unjudged
        (x.responses.findValidators (x.storesAfter calls).responses route r).1 :=
      Store.failsOnly_getOrBuild _ _ (ResponseValidators.failsOnly_build _ _ _)
    exact (hfind _ hfails).elim
  · obtain ⟨route', hbuild⟩ := exists_build_of_findValidators hfound
    unfold ResponseValidator.check at hcheck
    split at hcheck
    · cases hcheck
    · cases hcheck
    · next name validator hselect =>
      obtain ⟨schema, hcompiled⟩ := ResponseValidators.exists_compile_of_select? hbuild hselect
      split at hcheck
      · cases hcheck
      · obtain rfl := Failure.responseValidation.inj (Except.error.inj hcheck)
        exact Compiler.located_of_mem_problems hcompiled (ResponseValidators.normalize_wrap schema)
          (by decide) (by simp) (by simp) ha

/--
**Every problem of a message says where it is.** After any session, the path of each problem of a
request leads into its query, headers, path parameters, cookies or body, and that of each problem of a
response into the body; and each has the code of a keyword.
-/
theorem problems_located (x : Validator) (calls : List Call) (r : Request) :
    (∀ problems, (x.validateRequest (x.storesAfter calls) r).1 =
        .error (.schemaValidation problems) →
      ∀ a ∈ problems, a.Located ["query", "headers", "params", "cookies", "body"]) ∧
    ∀ status body problems, (x.validateResponse (x.storesAfter calls) r status body).1 =
        .error (.responseValidation problems) →
      ∀ a ∈ problems, a.Located ["response"] :=
  ⟨fun _ h _ ha => located_of_request h ha, fun _ _ _ h _ ha => located_of_response h ha⟩

end Validator

/-! ## Items, and members that are missing -/

/-- A contract with `GET /a`, which takes integers in the query and needs a body, and is answered
with objects that have a member `n`. -/
def listing : Contract where
  root := [
    ("openapi", .string "3.0.3"),
    ("paths", .object [("/a", .object [("get", .object [
      ("parameters", .array [.object [
        ("explode", .bool false),
        ("in", .string "query"),
        ("name", .string "ids"),
        ("schema", .object [
          ("items", .object [("type", .string "integer")]),
          ("type", .string "array")])]]),
      ("requestBody", .object [
        ("content", .object [("application/json", .object [])]),
        ("required", .bool true)]),
      ("responses", .object [("200", .object [("content", .object [
        ("application/json", .object [("schema", .object [
          ("items", .object [("required", .array [.string "n"])])])])])])])])])])]
  version := "3.0.3"

def listingValidator : Validator :=
  ⟨listing, .ofRoutes (listing.routes.toOption.getD []), { validateResponses := true }⟩

/-- A request without a body, whose second integer is none. -/
def lettered : Request := .ofTarget Method.get "/a?ids=1,x"

/-- A request and a response that came before. -/
def listingCalls : List Call := [.request lettered, .response lettered 200 .null]

set_option maxRecDepth 10000 in
/-- A problem inside of a member, one of a member that is missing, and one of both kinds. -/
theorem problems_located_listing :
    (∃ problems, (listingValidator.validateRequest (listingValidator.storesAfter listingCalls)
        lettered).1 = .error (.schemaValidation problems) ∧
      problems.map Problem.path = [".query.ids[1]", ".body"] ∧
      ∀ a ∈ problems, a.Located ["query", "headers", "params", "cookies", "body"]) ∧
    ∃ problems, (listingValidator.validateResponse (listingValidator.storesAfter listingCalls)
        lettered 200 (.array [.object []])).1 = .error (.responseValidation problems) ∧
      problems.map Problem.path = [".response[0].n"] ∧ ∀ a ∈ problems, a.Located ["response"] := by
  have hrequest : (listingValidator.validateRequest (listingValidator.storesAfter listingCalls)
      lettered).1 = .error (.schemaValidation [
        .ofKeyword ".query.ids[1]" "\"x\" is not of type \"integer\"" "type",
        .ofKeyword ".body" "\"body\" is a required property" "required"]) := by decide +kernel
  have hresponse : (listingValidator.validateResponse (listingValidator.storesAfter listingCalls)
      lettered 200 (.array [.object []])).1 = .error (.responseValidation [
        .ofKeyword ".response[0].n" "\"n\" is a required property" "required"]) := by decide +kernel
  obtain ⟨hlocated, hlocated'⟩ :=
    Validator.problems_located listingValidator listingCalls lettered
  exact ⟨⟨_, hrequest, rfl, hlocated _ hrequest⟩, ⟨_, hresponse, rfl, hlocated' _ _ _ hresponse⟩⟩

end ApiContract
