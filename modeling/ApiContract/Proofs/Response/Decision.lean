import ApiContract.Proofs.Request.Conjunction
import ApiContract.Proofs.Response.Declared
import ApiContract.Proofs.Response.Document
/-!
# What validating a response comes to

A response is told to be undeclared, is accepted as it is, or is judged by the schema that the
contract has for its status. What is accepted is handed back unchanged.
-/

namespace ApiContract

/-- Whether a result is the failure of a body that breaks its schema, with at least one problem. -/
def ResponseValidator.TellsProblems (result : Except Failure Json) : Prop :=
  ∃ problems, problems ≠ [] ∧ result = .error (.responseValidation problems)

/-- Whether a result is what becomes of a body under a declared response. Without a schema under its
least JSON media type the body is accepted. With one it is accepted exactly if the schema accepts it
where it stands in its document; on its own, if all references lead into the components. A body that
is not accepted is told its problems. -/
def Contract.DecidesBody (c : Contract) (compiler : Compiler) (template : String)
    (response body : Json) (result : Except Failure Json) : Prop :=
  ∃ resolved, c.resolve response = .ok resolved ∧
    ((∀ schema : Json, ¬ schema.IsResponseSchema resolved) → result = .ok body) ∧
    ∀ schema : Json, schema.IsResponseSchema resolved →
      ∃ compiled, compiler.compile (ResponseValidators.wrap schema) template = .ok compiled ∧
        (result = .ok body ↔
          compiler.AcceptsWithin (ResponseValidators.wrap schema) schema template body) ∧
        (compiled.StaysInComponents →
          (result = .ok body ↔ compiler.Accepts schema template body)) ∧
        (result = .ok body ∨ ResponseValidator.TellsProblems result)

namespace ResponseValidator

variable {validators : ResponseValidators} {status : Nat} {target : String} {body : Json}

/-! ## Checking -/

/-- A check that succeeds hands back what it was given. -/
theorem eq_of_check {handed : Json} (h : check validators target status body = .ok handed) :
    handed = body := by
  unfold check at h
  split at h
  · cases h
  · exact (Except.ok.inj h).symm
  · split at h
    · exact (Except.ok.inj h).symm
    · cases h

/-- A body is judged, and accepted or told its problems. -/
theorem check_of_validator {name : String} {compiled : Schema.Compiled}
    (h : validators.select? status = some (name, some compiled)) (target : String) (body : Json) :
    (check validators target status body = .ok body ↔
      compiled.accepts (.object [("response", body)]) = true) ∧
    (check validators target status body = .ok body ∨
      TellsProblems (check validators target status body)) := by
  rw [← Schema.Compiled.problems_eq_nil_iff]
  unfold check
  simp only [h]
  cases compiled.problems (.object [("response", body)]) with
  | nil => exact ⟨⟨fun _ => rfl, fun _ => rfl⟩, Or.inl rfl⟩
  | cons p ps => exact ⟨⟨nofun, nofun⟩, Or.inr ⟨p :: ps, List.cons_ne_nil _ _, rfl⟩⟩

/-- **A check against the validators of a route is decided by what the route declares.** -/
theorem check_of_build {c : Contract} (hc : c.document.isOrdered = true) {compiler : Compiler}
    {o : Operation} (ho : o.StandsIn c)
    (h : ResponseValidators.build c compiler (o.route c) = .ok validators) :
    match (o.route c).responseFor? status with
    | none => check validators target status body = .error (.noSchemaForStatus target status)
    | some response => c.DecidesBody compiler (o.route c).template response body
        (check validators target status body) := by
  have hselect := ResponseValidators.select?_of_build h status
  cases hresponse : (o.route c).responseFor? status with
  | none =>
    rw [hresponse] at hselect
    unfold check
    rw [hselect]
  | some response =>
    rw [hresponse] at hselect
    obtain ⟨name, built, hselect, hbuilt⟩ := hselect
    obtain ⟨resolved, hresolved, hcases⟩ := ResponseValidators.buildOne_cases hbuilt
    have hordered : resolved.isOrdered = true := by
      rw [ResponseValidators.responseFor?_eq] at hresponse
      obtain ⟨name, -, hname⟩ := List.exists_of_findSome?_eq_some hresponse
      exact c.isOrdered_of_resolve hc (Operation.isOrdered_of_responses hc ho hname) hresolved
    refine ⟨resolved, hresolved, fun hno => ?_, fun schema hschema => ?_⟩
    · cases hs : ResponseValidators.schemaOf? resolved with
      | some schema =>
        exact absurd ((ResponseValidators.schemaOf?_eq_some_iff hordered).mp hs) (hno schema)
      | none =>
        rw [hs] at hcases
        unfold check
        rw [hselect, hcases]
    · rw [(ResponseValidators.schemaOf?_eq_some_iff hordered).mpr hschema] at hcases
      obtain ⟨compiled, hcompiled, rfl⟩ := hcases
      obtain ⟨hok, htells⟩ := check_of_validator hselect target body
      have hwithin := hok.trans (ResponseValidators.accepts_wrapped_iff hcompiled body)
      exact ⟨compiled, hcompiled, hwithin, fun hinto => hwithin.trans
        (ResponseValidators.acceptsWithin_wrap_iff hcompiled hinto body), htells⟩

/-- Without a store the validators are built. -/
theorem validate_of_disabled {x : ResponseValidator} {store : Store ResponseValidators}
    (h : store.enabled = false) (r : Request) :
    (x.validate store r status body).1 =
      match x.index.lookup r.method r.path with
      | .matched route _ =>
        match ResponseValidators.build x.contract x.compiler route with
        | .ok validators => check validators r.target status body
        | .error failure => .error failure
      | _ => .ok body := by
  unfold validate
  cases x.index.lookup r.method r.path with
  | matched route params =>
    simp only [findValidators, Store.getOrBuild_of_disabled _ _ h]
    cases ResponseValidators.build x.contract x.compiler route <;> rfl
  | _ => rfl

end ResponseValidator

namespace Validator

/--
**The body of a response is accepted exactly if the schema for its status accepts it.** The
contract is ordered, as loading leaves it. Responses are validated, nothing is stored, and the
validators of the route that a request matches can be built. Where no route is matched the body is
handed back. Otherwise the declared response is the one under the exact code, or else under its
class, or else the default. If there is none the failure tells the status, and else the response
decides. Whatever is accepted is handed back as it is.
-/
theorem validateResponse_decides {contract : Contract} {config : Config} {x : Validator}
    (hx : ofContract contract config = .ok x) (hordered : contract.document.isOrdered = true)
    (calls : List Call) (r : Request) (status : Nat) (body : Json)
    (hvalidates : config.validateResponses = true) (hcache : config.schemaCache = false)
    (hbuild : ∀ route params, x.index.lookup r.method r.path = .matched route params →
      ∃ validators, ResponseValidators.build contract x.compiler route = .ok validators) :
    let result := (x.validateResponse (x.storesAfter calls) r status body).1
    (∀ handed, result = .ok handed → handed = body) ∧
    match x.index.lookup r.method r.path with
    | .matched route _ =>
      match route.responseFor? status with
      | none => result = .error (.noSchemaForStatus r.target status)
      | some response => contract.DecidesBody x.compiler route.template response body result
    | _ => result = .ok body := by
  intro result
  obtain ⟨rfl, rfl, -⟩ := parts_of_ofContract hx
  have hdisabled : (x.storesAfter calls).responses.enabled = false :=
    (x.enabled_storesAfter calls).2.trans hcache
  have hresult : result = (x.responses.validate (x.storesAfter calls).responses r status body).1 :=
    by
    show (x.validateResponse (x.storesAfter calls) r status body).1 = _
    unfold validateResponse
    rw [if_pos hvalidates]
  rw [ResponseValidator.validate_of_disabled hdisabled, show x.responses.index = x.index from rfl]
    at hresult
  clear_value result
  cases hl : x.index.lookup r.method r.path with
  | matched route params =>
    obtain ⟨validators, hvalidators⟩ := hbuild route params hl
    obtain ⟨o, ho, rfl⟩ := exists_operation_of_matched hx hl
    rw [hl] at hresult
    simp only [show ResponseValidators.build x.responses.contract x.responses.compiler _ = _ from
      hvalidators] at hresult
    subst hresult
    exact ⟨fun handed => ResponseValidator.eq_of_check,
      ResponseValidator.check_of_build hordered ho hvalidators⟩
  | methodNotAllowed _ =>
    rw [hl] at hresult
    subst hresult
    exact ⟨fun handed h => (Except.ok.inj h).symm, rfl⟩
  | unmanaged =>
    rw [hl] at hresult
    subst hresult
    exact ⟨fun handed h => (Except.ok.inj h).symm, rfl⟩

end Validator

/-! ## A response that is declared for a class -/

/-- A contract with `GET /a`, whose success is declared by class and by reference as an integer. -/
def answering : Contract where
  root := [
    ("components", .object [("responses", .object [("Count", .object [
      ("content", .object [
        ("application/json", .object [("schema", .object [("type", .string "integer")])]),
        ("text/plain", .object [("schema", .object [("type", .string "string")])])]),
      ("description", .string "how many")])])]),
    ("openapi", .string "3.0.3"),
    ("paths", .object [("/a", .object [("get", .object [("responses", .object [
      ("2XX", .object [("$ref", .string "#/components/responses/Count")]),
      ("default", .object [("description", .string "no luck")])])])])])]
  version := "3.0.3"

def answeringConfig : Config := { schemaCache := false, validateResponses := true }

def answeringValidator : Validator :=
  ⟨answering, .ofRoutes (answering.routes.toOption.getD []), answeringConfig⟩

def answeredRequest : Request := Request.ofTarget Method.get "/a"

set_option maxRecDepth 10000 in
/-- The schema of the class decides for an integer under one of its statuses. -/
theorem validateResponse_decides_answering :
    Validator.ofContract answering answeringConfig = .ok answeringValidator ∧
      answering.document.isOrdered = true ∧
      ∃ (route : Route) (response : Json), route.responseFor? 201 = some response ∧
        answering.DecidesBody answeringValidator.compiler route.template response (.int 7)
          (.ok (.int 7)) := by
  have hx : Validator.ofContract answering answeringConfig = .ok answeringValidator := rfl
  have hordered : answering.document.isOrdered = true := by decide +kernel
  have hresult : (answeringValidator.validateResponse (answeringValidator.storesAfter [])
      answeredRequest 201 (.int 7)).1 = .ok (.int 7) := by decide +kernel
  have hdeclared : ∃ route ∈ answering.routes.toOption.getD [],
      answeringValidator.index.lookup answeredRequest.method answeredRequest.path =
        .matched route [] ∧ (route.responseFor? 201).isSome = true ∧
      (ResponseValidators.build answering answeringValidator.compiler route).toOption.isSome =
        true := by decide +kernel
  obtain ⟨route, -, hl, hresponse, hbuilt⟩ := hdeclared
  obtain ⟨response, hresponse⟩ := Option.isSome_iff_exists.mp hresponse
  have hbuild : ∃ validators, ResponseValidators.build answering answeringValidator.compiler route =
      .ok validators := by
    cases hb : ResponseValidators.build answering answeringValidator.compiler route with
    | ok validators => exact ⟨validators, rfl⟩
    | error f => rw [hb] at hbuilt; cases hbuilt
  have hdecides := (Validator.validateResponse_decides hx hordered [] answeredRequest 201 (.int 7)
    rfl rfl fun route' params hl' => by
      obtain ⟨rfl, -⟩ := Lookup.matched.inj (hl.symm.trans hl')
      exact hbuild).2
  simp only [hl, hresult, hresponse] at hdecides
  exact ⟨hx, hordered, route, response, hresponse, hdecides⟩

end ApiContract
