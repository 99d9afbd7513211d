import ApiContract.Proofs.Assoc.Ascending
import ApiContract.Proofs.Request.Conjunction
import ApiContract.Proofs.Request.Declared
import ApiContract.Proofs.Url.Query
/-!
# Keys that a query may not hold

A query is refused exactly if it holds a key that its operation neither declares nor is secured by,
and then the least such key is told. A validator that allows such keys refuses no query; where
nothing is refused the two kinds of validators give the same.
-/

namespace ApiContract

/-! ## The keys of a query -/

/-- Whether a request holds a key in its query that an operation does not admit. -/
def Operation.IsUnknownIn (o : Operation) (c : Contract) (r : Request) (key : String) : Prop :=
  (Query.parse r.target).contains key = true ∧
    ¬ o.DeclaresInQuery c key ∧ ¬ o.IsSecuredInQuery c key

/-- **The plan of an operation admits what the operation declares or is secured by.** -/
theorem RequestPlan.admits_iff {c : Contract} {compiler : Compiler} {o : Operation}
    {contentType : ContentType} {plan : RequestPlan}
    (h : build c compiler (o.route c) contentType = .ok plan) {key : String} :
    plan.admits key = true ↔ o.DeclaresInQuery c key ∨ o.IsSecuredInQuery c key := by
  obtain ⟨hschema, -, hsecurity⟩ := build_eq_ok_iff.mp h
  unfold admits
  rw [Bool.or_eq_true, RequestSchema.declares_iff hschema, List.contains_iff_mem, ← hsecurity,
    Route.mem_securityQueryParameters_iff]
  rfl

/-! ## Refusing -/

namespace RequestValidator

variable {plan : RequestPlan} {r : Request} {key : String}

/-- A check tells a key exactly if it refuses it. -/
theorem check_eq_unknown_iff {x : RequestValidator} {template : String} {params : Assoc String} :
    (x.check plan template params r).1 = .error (.unknownQueryParameter key) ↔
      x.refusedKey? plan r = some key := by
  rcases x.check_cases plan template params r with
    ⟨refused, hrefused, hc⟩ | ⟨hnone, problems, -, -, hc⟩ | ⟨hnone, -, hc⟩ <;> rw [hc]
  · rw [hrefused]
    simp
  · simp [hnone]
  · simp [hnone]

variable {c : Contract} {o : Operation}

/-- The key that is found is the least of the unknown ones. -/
theorem unknownKey?_eq_some_iff
    (hadmits : ∀ key, plan.admits key = true ↔ o.DeclaresInQuery c key ∨ o.IsSecuredInQuery c key) :
    unknownKey? plan (Query.parse r.target) = some key ↔ Text.IsLeast (o.IsUnknownIn c r) key := by
  have hunknown : o.IsUnknownIn c r = fun key =>
      (Query.parse r.target).contains key = true ∧ (!plan.admits key) = true := by
    funext key
    rw [Operation.IsUnknownIn, ← not_or, ← hadmits, Bool.not_eq_true', Bool.not_eq_true]
  rw [hunknown]
  exact (Query.ascending_parse r.target).find?_keys_eq_some_iff

/-- A key is found if there is an unknown one. -/
theorem isSome_unknownKey?_iff
    (hadmits : ∀ key, plan.admits key = true ↔ o.DeclaresInQuery c key ∨ o.IsSecuredInQuery c key) :
    (unknownKey? plan (Query.parse r.target)).isSome = true ↔ ∃ key, o.IsUnknownIn c r key := by
  unfold unknownKey?
  rw [List.find?_isSome]
  refine exists_congr fun key => ?_
  rw [Operation.IsUnknownIn, ← not_or, ← hadmits, ← Assoc.contains_iff_mem_keys,
    Bool.not_eq_true', Bool.not_eq_true]

end RequestValidator

namespace Validator

/-- The validator that allows unknown query parameters, or the one that does not. -/
def allowing (x : Validator) (allow : Bool) : Validator :=
  { x with config := { x.config with allowUnknownQueryParameters := allow } }

/-- Where nothing is refused, both check a request alike. -/
theorem check_allowing {x : Validator} {plan : RequestPlan} {r : Request}
    (h : (x.allowing false).requests.refusedKey? plan r = none) (template : String)
    (params : Assoc String) :
    (x.allowing true).requests.check plan template params r =
      (x.allowing false).requests.check plan template params r := by
  unfold RequestValidator.check
  rw [h]
  rfl

/--
**A query is refused exactly if it holds an unknown key.** Requests are validated, nothing is
stored, and a plan can be built for the route that a request matches. The route is that of an
operation of the contract. If unknown query parameters are not allowed, the request is refused for
one if and only if its query holds a key that neither the operation nor its path declares and that
no security requirement in force asks for; the failure names the least such key in the order of
bytes. If they are allowed it never is, and a request that is not refused otherwise gets the same
result and is handed back the same, whatever was asked of the two validators before.
-/
theorem refuses_unknown_iff {contract : Contract} {config : Config} {x : Validator}
    (hx : ofContract contract config = .ok x) (calls calls' : List Call) (r : Request)
    (m : Matching) (hvalidates : config.validateRequests = true)
    (hcache : config.schemaCache = false)
    (hlookup : x.index.lookup r.method r.path = .matched m.route m.params)
    (hbuild : RequestPlan.build x.contract x.compiler m.route (ContentType.ofHeaders r.headers) =
      .ok m.plan) :
    let strict := (x.allowing false).validateRequest ((x.allowing false).storesAfter calls) r
    let lenient := (x.allowing true).validateRequest ((x.allowing true).storesAfter calls') r
    ∃ o : Operation, o.StandsIn contract ∧ o.route contract = m.route ∧
      ((∃ key, strict.1 = .error (.unknownQueryParameter key)) ↔
        ∃ key, o.IsUnknownIn contract r key) ∧
      (∀ key, strict.1 = .error (.unknownQueryParameter key) ↔
        Text.IsLeast (o.IsUnknownIn contract r) key) ∧
      (∀ key, lenient.1 ≠ .error (.unknownQueryParameter key)) ∧
      ((∀ key, strict.1 ≠ .error (.unknownQueryParameter key)) →
        lenient.1 = strict.1 ∧ lenient.2.1 = strict.2.1) := by
  intro strict lenient
  obtain ⟨o, ho, hroute⟩ := exists_operation_of_matched hx hlookup
  obtain ⟨rfl, rfl, -⟩ := parts_of_ofContract hx
  have hadmits : ∀ key, m.plan.admits key = true ↔
      o.DeclaresInQuery x.contract key ∨ o.IsSecuredInQuery x.contract key := fun key => by
    rw [← hroute] at hbuild
    exact RequestPlan.admits_iff hbuild
  -- both validators check the request against the same plan
  have hmatching : ∀ allow calls, (x.allowing allow).matching?
      ((x.allowing allow).storesAfter calls) r = some m := fun allow calls =>
    (matching?_eq_some_iff (x := x.allowing allow) calls hvalidates hcache).mpr ⟨hlookup, hbuild⟩
  obtain ⟨hstrict, hstrict'⟩ := validateRequest_of_matching? (hmatching false calls)
  obtain ⟨hlenient, hlenient'⟩ := validateRequest_of_matching? (hmatching true calls')
  change strict.1 = _ at hstrict
  change strict.2.1 = _ at hstrict'
  change lenient.1 = _ at hlenient
  change lenient.2.1 = _ at hlenient'
  clear_value strict lenient
  have htold : ∀ key, strict.1 = .error (.unknownQueryParameter key) ↔
      RequestValidator.unknownKey? m.plan (Query.parse r.target) = some key := fun key => by
    rw [hstrict, RequestValidator.check_eq_unknown_iff]
    rfl
  refine ⟨o, ho, hroute, ?_, fun key => ?_, fun key hkey => ?_, fun hno => ?_⟩
  · rw [← RequestValidator.isSome_unknownKey?_iff hadmits, Option.isSome_iff_exists]
    exact exists_congr htold
  · rw [htold, RequestValidator.unknownKey?_eq_some_iff hadmits]
  · rw [hlenient, RequestValidator.check_eq_unknown_iff] at hkey
    exact absurd hkey nofun
  · have hnone : (x.allowing false).requests.refusedKey? m.plan r = none :=
      Option.eq_none_iff_forall_ne_some.mpr fun key hkey => hno key ((htold key).mpr hkey)
    rw [hlenient, hlenient', hstrict, hstrict', check_allowing hnone]
    exact ⟨rfl, rfl⟩

end Validator

/-! ## A query with a key that is secured and others that are not -/

/-- A contract with `GET /a`, whose path declares `n` in the query and whose security asks for
`key`. -/
def secured : Contract where
  root := [
    ("components", .object [("securitySchemes", .object [("byKey", .object [
      ("in", .string "query"),
      ("name", .string "key"),
      ("type", .string "apiKey")])])]),
    ("openapi", .string "3.0.3"),
    ("paths", .object [("/a", .object [
      ("get", .object [("responses", .object [])]),
      ("parameters", .array [.object [
        ("in", .string "query"),
        ("name", .string "n"),
        ("schema", .object [("type", .string "integer")])]])])]),
    ("security", .array [.object [("byKey", .array [])]])]
  version := "3.0.3"

def securedValidator : Validator :=
  ⟨secured, .ofRoutes (secured.routes.toOption.getD []), { schemaCache := false }⟩

/-- A request for `/a` with what may stand in its query and with two keys more. -/
def overfullRequest : Request := Request.ofTarget Method.get "/a?z=1&key=k&n=1&b=2"

set_option maxRecDepth 10000 in
/-- Of the two keys the lesser is told, and a validator that allows both accepts the request. -/
theorem refuses_unknown_iff_secured :
    Validator.ofContract secured { schemaCache := false } = .ok securedValidator ∧
      ∃ o : Operation, o.StandsIn secured ∧
        Text.IsLeast (o.IsUnknownIn secured overfullRequest) "b" := by
  have htold : ((securedValidator.allowing false).validateRequest
      ((securedValidator.allowing false).storesAfter []) overfullRequest).1 =
        .error (.unknownQueryParameter "b") := by decide +kernel
  have h : (securedValidator.matching? (securedValidator.storesAfter [])
      overfullRequest).isSome = true := by decide +kernel
  obtain ⟨m, hm⟩ := Option.isSome_iff_exists.mp h
  obtain ⟨hlookup, hbuild⟩ := (Validator.matching?_eq_some_iff [] rfl rfl).mp hm
  have hx : Validator.ofContract secured { schemaCache := false } = .ok securedValidator := rfl
  obtain ⟨o, ho, -, -, hleast, -⟩ := Validator.refuses_unknown_iff hx [] [] overfullRequest m rfl
    rfl hlookup hbuild
  exact ⟨hx, o, ho, (hleast "b").mp htold⟩

end ApiContract
