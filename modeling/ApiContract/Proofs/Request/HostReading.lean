import ApiContract.Proofs.Request.Prepared
import ApiContract.Proofs.Route.Operations
/-!
# What a verdict does not depend on

The query is judged as the target has it, and the parameters in the path as the route finds them.
How the host has read the two does not matter: directives look at the query of the host, but nothing
of it reaches the values that are judged. So two requests that were sent alike get one verdict.
-/

namespace ApiContract

namespace Request

/-- Two requests that were sent alike: they differ at most in how their hosts have read the query
and the path. -/
structure SentAlike (r r' : Request) : Prop where
  method : r.method = r'.method
  target : r.target = r'.target
  headers : r.headers = r'.headers
  cookies : r.cookies = r'.cookies
  signedCookies : r.signedCookies = r'.signedCookies
  body : r.body = r'.body

/-- Two requests that differ at most in how their hosts have read the query. -/
structure AlikeBesidesQuery (r r' : Request) : Prop extends SentAlike r r' where
  params : r.params = r'.params

end Request

namespace RequestValidator

variable {r r' : Request}

/-! ## Until the values are judged -/

/-- Parameters in the path replace those that the hosts have read. -/
theorem alikeBesidesQuery_takeParams (h : r.SentAlike r') {params : Assoc String}
    (hparams : r.params = r'.params ∨ params ≠ []) :
    (takeParams r params).AlikeBesidesQuery (takeParams r' params) := by
  unfold takeParams
  split
  · next hempty =>
    rw [List.isEmpty_iff] at hempty
    exact ⟨h, hparams.resolve_right (absurd hempty)⟩
  · exact ⟨⟨h.method, h.target, h.headers, h.cookies, h.signedCookies, h.body⟩, rfl⟩

/-- **Directives keep apart what only the query of the host has.** -/
theorem alikeBesidesQuery_applyDirectives (h : r.AlikeBesidesQuery r') (ds : List Directive)
    (query : Assoc Json) :
    (applyDirectives ds query r).2.AlikeBesidesQuery (applyDirectives ds query r').2 := by
  have hframe := sameFrame_applyDirectives query r ds
  have hframe' := sameFrame_applyDirectives query r' ds
  have hvalues : ∀ l : Location, l ≠ .query → r.values? l = r'.values? l →
      (applyDirectives ds query r).2.values? l = (applyDirectives ds query r').2.values? l := by
    intro l hl heq
    rw [values?_applyDirectives query r ds hl, values?_applyDirectives query r' ds hl, heq]
  refine ⟨⟨?_, ?_, ?_, ?_, ?_, ?_⟩, ?_⟩
  · rw [hframe.method, hframe'.method, h.method]
  · rw [hframe.target, hframe'.target, h.target]
  · exact Option.some.inj (hvalues .header (by simp) (congrArg some h.headers))
  · exact hvalues .cookie (by simp) h.cookies
  · rw [hframe.signedCookies, hframe'.signedCookies, h.signedCookies]
  · rw [hframe.body, hframe'.body, h.body]
  · exact Option.some.inj (hvalues .path (by simp) (congrArg some h.params))

theorem prepare_of_sentAlike (x : RequestValidator) (plan : RequestPlan) (h : r.SentAlike r')
    {params : Assoc String} (hparams : r.params = r'.params ∨ params ≠ []) :
    (x.prepare plan params r).1 = (x.prepare plan params r').1 ∧
      (x.prepare plan params r).2.AlikeBesidesQuery (x.prepare plan params r').2 := by
  have htake := alikeBesidesQuery_takeParams h hparams
  constructor
  · rw [prepare_fst, prepare_fst]
    unfold reshapedValues
    rw [h.target, h.headers, h.cookies, h.signedCookies, htake.params]
  · unfold prepare
    rw [← h.target]
    exact alikeBesidesQuery_applyDirectives htake plan.schema.directives _

/-! ## Verdicts -/

/-- A check gives the two requests one verdict, and hands them back alike. -/
theorem check_of_sentAlike (x : RequestValidator) (plan : RequestPlan) (template : String)
    (h : r.SentAlike r') {params : Assoc String} (hparams : r.params = r'.params ∨ params ≠ []) :
    (x.check plan template params r).1 = (x.check plan template params r').1 ∧
      (x.check plan template params r).2.SentAlike (x.check plan template params r').2 ∧
      ((x.check plan template params r).1 = .ok (.validated template) →
        (x.check plan template params r).2.params =
          (x.check plan template params r').2.params) := by
  obtain ⟨hvalues, halike⟩ := x.prepare_of_sentAlike plan h hparams
  unfold check
  rw [show x.refusedKey? plan r' = x.refusedKey? plan r by unfold refusedKey?; rw [h.target]]
  cases x.refusedKey? plan r with
  | some key => exact ⟨rfl, h, nofun⟩
  | none =>
    generalize x.prepare plan params r = p at hvalues halike
    generalize x.prepare plan params r' = p' at hvalues halike
    obtain ⟨values, r₁⟩ := p
    obtain ⟨values', r₁'⟩ := p'
    simp only at hvalues halike ⊢
    subst hvalues
    rw [← halike.body]
    cases plan.validator.problems (instanceOf values r₁.body) with
    | cons p ps => exact ⟨rfl, halike.toSentAlike, nofun⟩
    | nil =>
      refine ⟨rfl, ⟨halike.method, halike.target, ?_, ?_, halike.signedCookies, halike.body⟩,
        fun _ => ?_⟩
      · simp only [writeBack, halike.headers]
      · simp only [writeBack, halike.cookies]
      · simp only [writeBack, halike.params]

/-- The two requests find one plan, so they are told apart neither before it nor after. -/
theorem validate_of_sentAlike (x : RequestValidator) (store : Store RequestPlan)
    (h : r.SentAlike r') (hparams : r.params = r'.params ∨ ∀ route params,
      x.index.lookup r.method r.path = .matched route params → params ≠ []) :
    (x.validate store r).1 = (x.validate store r').1 ∧
      (x.validate store r).2.2 = (x.validate store r').2.2 ∧
      (x.validate store r).2.1.SentAlike (x.validate store r').2.1 ∧
      ∀ template, (x.validate store r).1 = .ok (.validated template) →
        (x.validate store r).2.1.params = (x.validate store r').2.1.params := by
  have hpath : r'.path = r.path := by unfold Request.path; rw [h.target]
  have hfind : ∀ route, x.findPlan store route r' = x.findPlan store route r := by
    intro route
    unfold findPlan
    rw [h.method, h.headers]
  unfold validate
  rw [hpath, ← h.method]
  cases hl : x.index.lookup r.method r.path with
  | unmanaged => exact ⟨rfl, rfl, h, nofun⟩
  | methodNotAllowed _ => exact ⟨rfl, rfl, h, nofun⟩
  | matched route params =>
    simp only [hfind]
    cases x.findPlan store route r with
    | mk found store =>
      cases found with
      | error failure => exact ⟨rfl, rfl, h, nofun⟩
      | ok plan =>
        obtain ⟨hresult, halike, hjudged⟩ := x.check_of_sentAlike plan route.template h
          (hparams.imp_right fun hne => hne route params hl)
        refine ⟨hresult, rfl, halike, fun template hvalidated => hjudged ?_⟩
        -- a check can only tell the template that it was given
        rcases x.check_cases plan route.template params r with
          ⟨key, -, hc⟩ | ⟨-, problems, -, -, hc⟩ | ⟨-, -, hc⟩ <;> simp only [hc] at hvalidated ⊢
        · exact absurd hvalidated nofun
        · exact absurd hvalidated nofun

end RequestValidator

namespace Validator

/-- Whether the template that a request matches has a placeholder. -/
def FillsPlaceholder (x : Validator) (r : Request) : Prop :=
  ∃ route params, x.index.lookup r.method r.path = .matched route params ∧
    (PathPattern.ofTemplate route.template).names ≠ []

/--
**A verdict does not depend on how the host has read the request.** Two requests were sent alike;
their hosts may have read different queries, and different parameters in the path if the template
that matches has a placeholder. Then a validator, whatever it has stored, gives both the same result
and is left with the same stores. It hands both requests back alike, with the same parameters in the
path if they are validated.
-/
theorem validateRequest_of_sentAlike {contract : Contract} {config : Config} {x : Validator}
    (hx : ofContract contract config = .ok x) (s : Stores) {r r' : Request} (h : r.SentAlike r')
    (hparams : r.params = r'.params ∨ x.FillsPlaceholder r) :
    (x.validateRequest s r).1 = (x.validateRequest s r').1 ∧
      (x.validateRequest s r).2.2 = (x.validateRequest s r').2.2 ∧
      (x.validateRequest s r).2.1.SentAlike (x.validateRequest s r').2.1 ∧
      ∀ template, (x.validateRequest s r).1 = .ok (.validated template) →
        (x.validateRequest s r).2.1.params = (x.validateRequest s r').2.1.params := by
  obtain ⟨-, -, routes, -, hindex⟩ := parts_of_ofContract hx
  have hparams' : r.params = r'.params ∨ ∀ route params,
      x.requests.index.lookup r.method r.path = .matched route params → params ≠ [] := by
    refine hparams.imp_right ?_
    rintro ⟨route, params, hl, hnames⟩ route' params' hl'
    obtain ⟨rfl, rfl⟩ := Lookup.matched.inj (hl.symm.trans hl')
    rw [hindex] at hl
    exact (RouteIndex.mem_and_params_of_matched hl).2.2 hnames
  unfold validateRequest
  split
  · obtain ⟨hresult, hstore, halike, hjudged⟩ :=
      x.requests.validate_of_sentAlike s.requests h hparams'
    exact ⟨hresult, by simp only [hstore], halike, hjudged⟩
  · exact ⟨rfl, rfl, h, nofun⟩

end Validator

/-! ## Two readings of one request -/

/-- A contract with `GET /a/\x7bid\x7d`, whose `id` is an integer and whose query may hold several
`tag`. -/
def tagged : Contract where
  root := [
    ("openapi", .string "3.0.3"),
    ("paths", .object [("/a/\x7bid\x7d", .object [("get", .object [
      ("parameters", .array [
        .object [
          ("in", .string "path"),
          ("name", .string "id"),
          ("required", .bool true),
          ("schema", .object [("type", .string "integer")])],
        .object [
          ("in", .string "query"),
          ("name", .string "tag"),
          ("schema", .object [("type", .string "array")])]]),
      ("responses", .object [])])])])]
  version := "3.0.3"

def taggedValidator : Validator :=
  ⟨tagged, .ofRoutes (tagged.routes.toOption.getD []), {}⟩

/-- A request for the `id` 7 with one `tag`, as a host has read it. -/
def taggedRequest (tag id : Json) : Request :=
  { Request.ofTarget Method.get "/a/7?tag=x" with query := [("tag", tag)], params := [("id", id)] }

set_option maxRecDepth 10000 in
/-- A host that reads the request as it is and one that reads something else get the same. -/
theorem validateRequest_of_sentAlike_tagged :
    Validator.ofContract tagged {} = .ok taggedValidator ∧
      (taggedRequest (.string "x") (.string "7")).SentAlike (taggedRequest .null (.bool true)) ∧
      taggedValidator.FillsPlaceholder (taggedRequest (.string "x") (.string "7")) ∧
      (taggedValidator.validateRequest taggedValidator.stores
        (taggedRequest .null (.bool true))).1 = .ok (.validated "/a/\x7bid\x7d") ∧
      (taggedValidator.validateRequest taggedValidator.stores
        (taggedRequest .null (.bool true))).2.1.params = [("id", .int 7)] := by
  have halike : (taggedRequest (.string "x") (.string "7")).SentAlike
      (taggedRequest .null (.bool true)) := ⟨rfl, rfl, rfl, rfl, rfl, rfl⟩
  have hfills : taggedValidator.FillsPlaceholder (taggedRequest (.string "x") (.string "7")) := by
    have h : ∃ route ∈ tagged.routes.toOption.getD [],
        taggedValidator.index.lookup .get "/a/7" = .matched route [("id", "7")] ∧
          (PathPattern.ofTemplate route.template).names ≠ [] := by decide +kernel
    obtain ⟨route, -, hl, hnames⟩ := h
    exact ⟨route, _, hl, hnames⟩
  have hresult : (taggedValidator.validateRequest taggedValidator.stores
      (taggedRequest (.string "x") (.string "7"))).1 = .ok (.validated "/a/\x7bid\x7d") := by
    decide +kernel
  have hparams : (taggedValidator.validateRequest taggedValidator.stores
      (taggedRequest (.string "x") (.string "7"))).2.1.params = [("id", .int 7)] := by
    decide +kernel
  obtain ⟨hsame, -, -, hjudged⟩ := Validator.validateRequest_of_sentAlike
    (show Validator.ofContract tagged {} = .ok taggedValidator from rfl) taggedValidator.stores
    halike (Or.inr hfills)
  exact ⟨rfl, halike, hfills, hsame ▸ hresult, (hjudged _ hresult).symm.trans hparams⟩

end ApiContract
