import ApiContract.Proofs.Assoc.Ascending
import ApiContract.Proofs.Request.Prepared
/-!
# Signed cookies

Cookies are judged together, the plain ones and over them the signed ones. But directives reshape
only the plain ones. So signing a cookie makes no difference to a verdict as long as no directive
changes its value; else the schema is asked about the value as it was sent.
-/

namespace ApiContract

namespace Request

/-- Two requests that differ at most in their cookies: the first has no signed ones, and the second
has some of the cookies of the first among the signed ones. -/
structure SignsCookies (signed : String → Bool) (r r' : Request) : Prop where
  method : r.method = r'.method
  target : r.target = r'.target
  headers : r.headers = r'.headers
  query : r.query = r'.query
  params : r.params = r'.params
  body : r.body = r'.body
  unsigned : r.signedCookies.getD [] = []
  kept : r'.cookies.getD [] = (r.cookies.getD []).filter fun e => !signed e.1
  moved : r'.signedCookies.getD [] = (r.cookies.getD []).filter fun e => signed e.1

end Request

namespace RequestValidator

variable {signed : String → Bool} {r r' : Request}

/-! ## The cookies that are judged -/

/-- What directives make of cookies some of which are signed. -/
def reshapedCookies (ds : List Directive) (signed : String → Bool) (cookies : Assoc Json) :
    Assoc Json :=
  cookies.map fun e =>
    (e.1, if signed e.1 then e.2 else Directive.reshapeAll (directivesOf ds .cookie) e.1 e.2)

theorem get?_reshapedCookies (ds : List Directive) (signed : String → Bool) (cookies : Assoc Json)
    (name : String) :
    (reshapedCookies ds signed cookies).get? name = (cookies.get? name).map fun v =>
      if signed name then v else Directive.reshapeAll (directivesOf ds .cookie) name v :=
  Assoc.get?_mapValues cookies
    (fun name v => if signed name then v
      else Directive.reshapeAll (directivesOf ds .cookie) name v) name

theorem ascending_reshapedCookies {cookies : Assoc Json} (h : cookies.Ascending)
    (ds : List Directive) (signed : String → Bool) :
    (reshapedCookies ds signed cookies).Ascending := by
  have hkeys : (reshapedCookies ds signed cookies).keys = cookies.keys := by
    simp [Assoc.keys, reshapedCookies, Function.comp_def]
  unfold Assoc.Ascending
  rw [hkeys]
  exact h

theorem ascending_applyIn {values : Assoc Json} (h : values.Ascending) (d : Directive) :
    (d.applyIn values).Ascending := by
  unfold Directive.applyIn
  split
  · exact h
  · split
    · split
      · exact h.insert _ _
      · exact h
    · exact h

theorem ascending_applyAll {values : Assoc Json} (h : values.Ascending) (ds : List Directive) :
    (Directive.applyAll ds values).Ascending := by
  induction ds generalizing values with
  | nil => exact h
  | cons d ds ih => exact ih (ascending_applyIn h d)

/-- Without cookies there is nothing to reshape. -/
theorem getD_map_applyAll (ds : List Directive) (cookies : Option (Assoc Json)) :
    (cookies.map (Directive.applyAll ds)).getD [] = Directive.applyAll ds (cookies.getD []) := by
  cases cookies with
  | some cookies => rfl
  | none =>
    induction ds with
    | nil => rfl
    | cons d ds ih => exact ih

/-- **Only the plain cookies are reshaped.** -/
theorem reshapedValues_cookies (h : r.SignsCookies signed r')
    (hcookies : (r.cookies.getD []).Ascending) (plan : RequestPlan) (params : Assoc String) :
    (reshapedValues plan params r').cookies =
      reshapedCookies plan.schema.directives signed (r.cookies.getD []) := by
  unfold reshapedValues
  rw [getD_map_applyAll, h.kept, h.moved]
  refine ((ascending_applyAll (hcookies.filter _) _).insertAll _).ext
    (ascending_reshapedCookies hcookies _ signed) fun name => ?_
  rw [Assoc.get?_insertAll _ (hcookies.filter _).nodup, Directive.get?_applyAll,
    Assoc.get?_filter_key _ signed, Assoc.get?_filter_key _ (fun name => !signed name),
    get?_reshapedCookies]
  cases signed name <;> cases (r.cookies.getD []).get? name <;> simp

/-- The values of a request that are judged if some of its cookies are signed. -/
def judgedSigned (x : RequestValidator) (plan : RequestPlan) (params : Assoc String)
    (signed : String → Bool) (r : Request) : PerLocation (Assoc Json) :=
  let (query, prepared) :=
    applyDirectives plan.schema.directives (Query.parse r.target) (takeParams r params)
  x.coerced plan.schema { valuesOf query prepared with
    cookies := reshapedCookies plan.schema.directives signed (r.cookies.getD []) }

/-- **What is judged differs in the values of the signed cookies alone.** -/
theorem prepare_of_signsCookies (h : r.SignsCookies signed r')
    (hcookies : (r.cookies.getD []).Ascending) (x : RequestValidator) (plan : RequestPlan)
    (params : Assoc String) :
    (x.prepare plan params r').1 = x.judgedSigned plan params signed r := by
  have hparams : (takeParams r' params).params = (takeParams r params).params := by
    unfold takeParams
    split
    · exact h.params.symm
    · rfl
  have hreshaped : reshapedValues plan params r' = { reshapedValues plan params r with
      cookies := reshapedCookies plan.schema.directives signed (r.cookies.getD []) } := by
    rw [← reshapedValues_cookies h hcookies plan params]
    simp only [reshapedValues, ← h.target, ← h.headers, hparams]
  rw [prepare_fst, hreshaped, ← valuesOf_applyDirectives]
  rfl

theorem prepare_of_unsigned (hunsigned : r.signedCookies.getD [] = [])
    (hcookies : (r.cookies.getD []).Ascending) (x : RequestValidator) (plan : RequestPlan)
    (params : Assoc String) :
    (x.prepare plan params r).1 = x.judgedSigned plan params (fun _ => false) r :=
  prepare_of_signsCookies ⟨rfl, rfl, rfl, rfl, rfl, rfl, hunsigned,
    (List.filter_eq_self.mpr fun _ _ => rfl).symm, by simp [hunsigned]⟩ hcookies x plan params

end RequestValidator

namespace Validator

variable {x : Validator} {s : Stores} {signed : String → Bool} {r r' : Request}

/-- Whether the problems of a request stay the same when some of its cookies are signed. -/
def SameProblems (x : Validator) (m : Matching) (signed : String → Bool) (r : Request) : Prop :=
  m.plan.validator.problems (RequestValidator.instanceOf
      (x.requests.judgedSigned m.plan m.params signed r) r.body) =
    m.plan.validator.problems (RequestValidator.instanceOf
      (x.requests.judgedSigned m.plan m.params (fun _ => false) r) r.body)

theorem validateRequest_of_sameHead (hmethod : r.method = r'.method)
    (htarget : r.target = r'.target) (hheaders : r.headers = r'.headers) :
    x.matching? s r' = x.matching? s r ∧
      (x.validateRequest s r').2.2 = (x.validateRequest s r).2.2 ∧
      (x.matching? s r = none → (x.validateRequest s r').1 = (x.validateRequest s r).1) :=
  validateRequest_of_samePath hmethod (congrArg Query.path htarget) hheaders

/-- Cookies that no directive changes are judged as if none were signed. -/
theorem judgedSigned_of_unchanged {m : Matching} (h : ∀ name v, signed name = true →
      (r.cookies.getD []).get? name = some v → Directive.reshapeAll
        (RequestValidator.directivesOf m.plan.schema.directives .cookie) name v = v)
    (hcookies : (r.cookies.getD []).Ascending) :
    x.requests.judgedSigned m.plan m.params signed r =
      x.requests.judgedSigned m.plan m.params (fun _ => false) r := by
  have hsame : RequestValidator.reshapedCookies m.plan.schema.directives signed
      (r.cookies.getD []) = RequestValidator.reshapedCookies m.plan.schema.directives
        (fun _ => false) (r.cookies.getD []) := by
    refine (RequestValidator.ascending_reshapedCookies hcookies _ _).ext
      (RequestValidator.ascending_reshapedCookies hcookies _ _) fun name => ?_
    rw [RequestValidator.get?_reshapedCookies, RequestValidator.get?_reshapedCookies]
    cases hv : (r.cookies.getD []).get? name with
    | none => rfl
    | some v =>
      cases hs : signed name with
      | false => simp
      | true => simp [h name v hs hv]
  unfold RequestValidator.judgedSigned
  rw [hsame]

/--
**When signing cookies does not show.** Some cookies of a request that has no signed ones are moved
among the signed ones. It gets the same result exactly if it comes to no plan, or is refused for a
key of its query, or has the same problems with the values of the signed cookies as they were sent.
It has those where no directive of the plan changes a cookie that is signed. Storing is the same
in any case.
-/
theorem validateRequest_signsCookies_iff (x : Validator) (s : Stores)
    (h : r.SignsCookies signed r') (hcookies : (r.cookies.getD []).Ascending) :
    ((x.validateRequest s r').1 = (x.validateRequest s r).1 ↔
        ∀ m, x.matching? s r = some m → x.requests.refusedKey? m.plan r = none →
          x.SameProblems m signed r) ∧
      (∀ m, x.matching? s r = some m → (∀ name v, signed name = true →
          (r.cookies.getD []).get? name = some v → Directive.reshapeAll
            (RequestValidator.directivesOf m.plan.schema.directives .cookie) name v = v) →
        x.SameProblems m signed r) ∧
      (x.validateRequest s r').2.2 = (x.validateRequest s r).2.2 := by
  obtain ⟨hmatching, hstores, hnone⟩ :=
    validateRequest_of_sameHead (x := x) (s := s) h.method h.target h.headers
  refine ⟨?_, fun m _ hunchanged => ?_, hstores⟩
  · cases hm : x.matching? s r with
    | none => exact ⟨fun _ => nofun, fun _ => hnone hm⟩
    | some m =>
      have hrefused : x.requests.refusedKey? m.plan r' = x.requests.refusedKey? m.plan r := by
        unfold RequestValidator.refusedKey?
        rw [h.target]
      have hresult := (validateRequest_of_matching? hm).1
      have hresult' := (validateRequest_of_matching? (hmatching.trans hm)).1
      rw [RequestValidator.check_fst] at hresult hresult'
      rw [RequestValidator.prepare_of_unsigned h.unsigned hcookies] at hresult
      rw [RequestValidator.prepare_of_signsCookies h hcookies, hrefused, ← h.body] at hresult'
      rw [hresult, hresult']
      cases hkey : x.requests.refusedKey? m.plan r with
      | some key => simp [hkey]
      | none =>
        constructor
        · intro hverdict m' hm' _
          obtain rfl := Option.some.inj hm'
          exact RequestValidator.verdict_inj hverdict
        · intro hsame
          exact congrArg (RequestValidator.verdict m.route.template) (hsame m rfl hkey)
  · unfold SameProblems
    rw [judgedSigned_of_unchanged hunchanged hcookies]

end Validator

/-! ## A cookie that holds an array -/

/-- A contract with `GET /a`, whose cookie `c` is an array of texts and whose cookie `n` is an
integer. -/
def baked : Contract where
  root := [
    ("openapi", .string "3.0.3"),
    ("paths", .object [("/a", .object [("get", .object [
      ("parameters", .array [
        .object [
          ("in", .string "cookie"),
          ("name", .string "c"),
          ("schema", .object [("items", .object [("type", .string "string")]),
            ("type", .string "array")])],
        .object [
          ("in", .string "cookie"),
          ("name", .string "n"),
          ("schema", .object [("type", .string "integer")])]]),
      ("responses", .object [])])])])]
  version := "3.0.3"

def bakedValidator : Validator :=
  ⟨baked, .ofRoutes (baked.routes.toOption.getD []), {}⟩

/-- A request with one plain cookie, and one with it signed. -/
def plainCookie (name value : String) : Request :=
  (Request.ofTarget Method.get "/a").withCookie name value

def signedCookie (name value : String) : Request :=
  (Request.ofTarget Method.get "/a").withSignedCookie name value

theorem signsCookies_signedCookie (name value : String) :
    (plainCookie name value).SignsCookies (fun _ => true) (signedCookie name value) :=
  ⟨rfl, rfl, rfl, rfl, rfl, rfl, rfl, rfl, rfl⟩

set_option maxRecDepth 10000 in
/-- An integer in a cookie may be signed. -/
theorem validateRequest_signsCookies_iff_integer :
    (plainCookie "n" "1").SignsCookies (fun _ => true) (signedCookie "n" "1") ∧
      (bakedValidator.validateRequest bakedValidator.stores (signedCookie "n" "1")).1 =
        .ok (.validated "/a") := by
  have hsigns := signsCookies_signedCookie "n" "1"
  have hplain : (bakedValidator.validateRequest bakedValidator.stores (plainCookie "n" "1")).1 =
      .ok (.validated "/a") := by decide +kernel
  obtain ⟨hiff, hunchanged, -⟩ := Validator.validateRequest_signsCookies_iff bakedValidator
    bakedValidator.stores hsigns (by decide)
  have hdirectives : (bakedValidator.matching? bakedValidator.stores (plainCookie "n" "1")).map
      (·.plan.schema.directives) = some [⟨.wrapSingle, "c", .cookie⟩] := by decide +kernel
  refine ⟨hsigns, (hiff.mpr fun m hm _ => hunchanged m hm fun name v _ hv => ?_).trans hplain⟩
  rw [hm, Option.map_some, Option.some.injEq] at hdirectives
  have hmem : (name, v) ∈ [("n", Json.string "1")] := Assoc.mem_of_get? hv
  obtain ⟨rfl, rfl⟩ := Prod.mk.inj (List.mem_singleton.mp hmem)
  rw [hdirectives]
  rfl

set_option maxRecDepth 10000 in
/-- An array in a cookie may not: it is split and wrapped only where it is plain. -/
theorem validateRequest_signsCookies_ne :
    Validator.ofContract baked {} = .ok bakedValidator ∧
      (plainCookie "c" "x").SignsCookies (fun _ => true) (signedCookie "c" "x") ∧
      (bakedValidator.validateRequest bakedValidator.stores (plainCookie "c" "x")).1 =
        .ok (.validated "/a") ∧
      (bakedValidator.validateRequest bakedValidator.stores (signedCookie "c" "x")).1 ≠
        .ok (.validated "/a") :=
  ⟨rfl, signsCookies_signedCookie "c" "x", by decide +kernel, by decide +kernel⟩

end ApiContract
