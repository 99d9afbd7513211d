import ApiContract.Proofs.Request.Directives
import ApiContract.Proofs.Request.Stages
/-!
# The values that are judged

`prepare` gives the values that are judged and leaves a request behind. Coercion changes values but
no names. So the names that are judged are those of the target for the query, and those that the
host holds everywhere else; the signed cookies come on top.
-/

namespace ApiContract

/-! ## Coercion -/

/-- What coercion makes of the value of a name, in view of what is declared. -/
def Coercion.member (c : Contract) (declared : Assoc Json) (name : String) (v : Json) : Json :=
  match declared.get? name with
  | some schema => Coercion.value c v schema
  | none => v

theorem Coercion.get?_members (c : Contract) (values declared : Assoc Json) (name : String) :
    (Coercion.members c values declared).get? name =
      (values.get? name).map (Coercion.member c declared name) := by
  rw [← Assoc.get?_mapValues]
  refine congrArg (Assoc.get? · name) (List.map_congr_left fun e _ => ?_)
  unfold Coercion.member
  cases declared.get? e.1 <;> rfl

namespace RequestValidator

variable (x : RequestValidator) (plan : RequestPlan) (params : Assoc String) (r : Request)

theorem contains_coerced (schema : RequestSchema) (values : PerLocation (Assoc Json))
    (l : Location) (name : String) :
    ((x.coerced schema values).get l).contains name = (values.get l).contains name := by
  unfold coerced
  split
  · rw [PerLocation.get_zipWith, Assoc.contains_eq, Coercion.get?_members, Option.isSome_map]
    rfl
  · rfl

/-! ## Path parameters -/

theorem sameFrame_takeParams : (takeParams r params).SameFrame r := by
  unfold takeParams
  split
  · exact Request.SameFrame.refl r
  · exact Request.SameFrame.modifyValues r (fun _ => params.map fun e => (e.1, .string e.2)) .path

theorem values?_takeParams {l : Location} (hl : l ≠ .path) :
    (takeParams r params).values? l = r.values? l := by
  unfold takeParams
  split
  · rfl
  · cases l with
    | path => exact absurd rfl hl
    | _ => rfl

theorem value?_takeParams {l : Location} (hl : l ≠ .path) (name : String) :
    (takeParams r params).value? l name = r.value? l name := by
  unfold Request.value?
  rw [values?_takeParams params r hl]

/-! ## The request that is left behind -/

/-- Before the verdict a request is changed in the values of parameters alone. -/
theorem sameFrame_prepare : (x.prepare plan params r).2.SameFrame r :=
  (sameFrame_applyDirectives _ _ _).trans (sameFrame_takeParams params r)

/-- What the host holds when the values are judged, up to the signs of zeros. -/
theorem value?_prepare (l : Location) (name : String) :
    Json.SameEntry ((x.prepare plan params r).2.value? l name)
      (((takeParams r params).value? l name).map
        (Directive.reshapeAll (directivesOf plan.schema.directives l) name)) :=
  value?_applyDirectives _ _ _ l name

theorem isSome_value?_prepare {l : Location} (hl : l ≠ .path) (name : String) :
    ((x.prepare plan params r).2.value? l name).isSome = (r.value? l name).isSome := by
  rw [(x.value?_prepare plan params r l name).isSome_eq, Option.isSome_map,
    value?_takeParams params r hl]

/-! ## The values that are judged -/

/-- What the directives of a plan make of the values to judge: the query as the target has it, the
others as the host holds them, and over the plain cookies the signed ones as they are. -/
def reshapedValues : PerLocation (Assoc Json) where
  query := Directive.applyAll (directivesOf plan.schema.directives .query) (Query.parse r.target)
  headers := Directive.applyAll (directivesOf plan.schema.directives .header) r.headers
  params :=
    Directive.applyAll (directivesOf plan.schema.directives .path) (takeParams r params).params
  cookies :=
    ((r.cookies.map
      (Directive.applyAll (directivesOf plan.schema.directives .cookie))).getD []).insertAll
        (r.signedCookies.getD [])

theorem valuesOf_applyDirectives :
    let state :=
      applyDirectives plan.schema.directives (Query.parse r.target) (takeParams r params)
    valuesOf state.1 state.2 = reshapedValues plan params r := by
  intro state
  have hsigned : state.2.signedCookies = r.signedCookies :=
    ((sameFrame_applyDirectives _ _ _).trans (sameFrame_takeParams params r)).signedCookies
  have hvalues : ∀ l : Location, l ≠ .query → state.2.values? l =
      ((takeParams r params).values? l).map
        (Directive.applyAll (directivesOf plan.schema.directives l)) :=
    fun l hl => values?_applyDirectives _ _ _ hl
  have hheaders := hvalues .header (by simp)
  have hparams := hvalues .path (by simp)
  have hcookies := hvalues .cookie (by simp)
  rw [values?_takeParams params r (by simp)] at hheaders hcookies
  simp only [Request.values?, Option.map_some, Option.some.injEq] at hheaders hparams hcookies
  rw [valuesOf, cookiesOf, hheaders, hparams, hcookies, hsigned, applyDirectives_fst]
  rfl

/-- **What is judged**: the values as the directives leave them, coerced. -/
theorem prepare_fst :
    (x.prepare plan params r).1 = x.coerced plan.schema (reshapedValues plan params r) :=
  congrArg (x.coerced plan.schema) (valuesOf_applyDirectives plan params r)

/-- The query is judged under the names of the target. -/
theorem contains_prepare_query (name : String) :
    ((x.prepare plan params r).1.get .query).contains name =
      (Query.parse r.target).contains name := by
  rw [prepare_fst, contains_coerced]
  exact Directive.contains_applyAll _ _ name

/-- What is made of the raw value of a name in the query: it is reshaped, and coerced if it is
declared. -/
def treated (name : String) (v : Json) : Json :=
  let reshaped := Directive.reshapeAll (directivesOf plan.schema.directives .query) name v
  if x.coerceTypes then
    Coercion.member x.contract (plan.schema.location .query).properties name reshaped
  else reshaped

/-- The value of a name in the query is judged as it is treated. -/
theorem get?_prepare_query (name : String) :
    ((x.prepare plan params r).1.get .query).get? name =
      ((Query.parse r.target).get? name).map (x.treated plan name) := by
  have hreshaped : ((reshapedValues plan params r).get .query).get? name =
      ((Query.parse r.target).get? name).map
        (Directive.reshapeAll (directivesOf plan.schema.directives .query) name) :=
    Directive.get?_applyAll _ _ name
  rw [prepare_fst]
  unfold coerced treated
  split
  · rw [PerLocation.get_zipWith, Coercion.get?_members, hreshaped, Option.map_map]
    rfl
  · exact hreshaped

/-- Everywhere else a name that the host holds is judged. -/
theorem contains_prepare_of_value? {l : Location} (hl : l ≠ .query) {name : String}
    (h : ((x.prepare plan params r).2.value? l name).isSome = true) :
    ((x.prepare plan params r).1.get l).contains name = true := by
  simp only [prepare, contains_coerced] at h ⊢
  generalize applyDirectives plan.schema.directives (Query.parse r.target) (takeParams r params) = p
    at h
  cases l with
  | query => exact absurd rfl hl
  | path => exact h
  | header => exact h
  | cookie =>
    simp only [valuesOf, PerLocation.get, cookiesOf, Assoc.contains_insertAll, Bool.or_eq_true]
    refine Or.inl ?_
    simp only [Request.value?, Request.values?] at h
    cases hc : p.2.cookies with
    | none => simp [hc] at h
    | some cookies => simpa [hc, Assoc.contains_eq] using h

/-! ## Verdicts -/

/-- The result of a check that finds these problems. -/
def verdict (template : String) : List Problem → Except Failure Outcome
  | [] => .ok (.validated template)
  | problems => .error (.schemaValidation problems)

theorem verdict_inj {template : String} {problems problems' : List Problem}
    (h : verdict template problems = verdict template problems') : problems = problems' := by
  cases problems <;> cases problems' <;> simp_all [verdict]

theorem check_fst (x : RequestValidator) (plan : RequestPlan) (template : String)
    (params : Assoc String) (r : Request) :
    (x.check plan template params r).1 = match x.refusedKey? plan r with
      | some key => .error (.unknownQueryParameter key)
      | none => verdict template
          (plan.validator.problems (instanceOf (x.prepare plan params r).1 r.body)) := by
  have hbody : (x.prepare plan params r).2.body = r.body := (x.sameFrame_prepare plan params r).body
  rcases x.check_cases plan template params r with
    ⟨key, hkey, hc⟩ | ⟨hkey, problems, hne, hproblems, hc⟩ | ⟨hkey, hproblems, hc⟩ <;>
    rw [hc, hkey]
  · rw [← hbody, hproblems]
    cases problems with
    | nil => exact absurd rfl hne
    | cons p ps => rfl
  · rw [← hbody, hproblems]
    rfl

end RequestValidator

namespace Validator

variable {x : Validator} {s : Stores} {r : Request}

/-- A request that comes to a plan keeps its contract if no key of its query is refused and what is
judged has no problems. -/
theorem validateRequest_eq_validated_iff {m : Matching} (h : x.matching? s r = some m) :
    (x.validateRequest s r).1 = .ok (.validated m.route.template) ↔
      x.requests.refusedKey? m.plan r = none ∧
        m.plan.validator.problems (RequestValidator.instanceOf (x.judged m r) r.body) = [] := by
  rw [(validateRequest_of_matching? h).1, RequestValidator.check_fst]
  cases x.requests.refusedKey? m.plan r with
  | some key => simp
  | none =>
    show RequestValidator.verdict m.route.template
      (m.plan.validator.problems (RequestValidator.instanceOf (x.judged m r) r.body)) = _ ↔ _
    generalize m.plan.validator.problems
      (RequestValidator.instanceOf (x.judged m r) r.body) = problems
    cases problems <;> simp [RequestValidator.verdict]

end Validator

end ApiContract
