import ApiContract.Proofs.Request.Prepared
import ApiContract.Proofs.Request.Stages
/-!
# Requests that are rejected

A failure before the values are judged hands the request back as it came. One that the schema finds
does not: by then the path parameters are taken over and the directives are applied, and nothing
undoes it. What the host gets back is then what it gave exactly if there was nothing to change.
-/

namespace ApiContract

namespace Request

/-- Two requests whose parts are the same, values being compared up to the signs of zeros. -/
structure Same (r r' : Request) : Prop where
  frame : r.SameFrame r'
  value? : ∀ l name, Json.SameEntry (r.value? l name) (r'.value? l name)

theorem Same.refl (r : Request) : Same r r := ⟨.refl r, fun _ _ => .refl _⟩

end Request

/-- What a plan's directives, and the parameters in the path, leave as the host has it. -/
structure Matching.LeavesHost (m : Matching) (r : Request) : Prop where
  /-- No directive changes a value of the query, the headers or the cookies of the host. -/
  idle : ∀ d ∈ m.plan.schema.directives, d.location ≠ .path →
    ∀ v, r.value? d.location d.name = some v → d.reshaped v = v
  /-- The parameters in the path, as the directives leave them, are those of the host. -/
  params : ∀ name, Json.SameEntry
    (((RequestValidator.takeParams r m.params).value? .path name).map
      (Directive.reshapeAll (RequestValidator.directivesOf m.plan.schema.directives .path) name))
    (r.value? .path name)

namespace RequestValidator

variable (x : RequestValidator) (m : Matching) (r : Request)

/-- Directives leave an entry as it is exactly if none of them changes its value. -/
theorem sameEntry_map_reshapeAll (ds : List Directive) (name : String) (entry : Option Json) :
    Json.SameEntry (entry.map (Directive.reshapeAll ds name)) entry ↔
      ∀ v, entry = some v → ∀ d ∈ ds, d.name = name → d.reshaped v = v := by
  cases entry with
  | none => exact ⟨fun _ _ h => by simp at h, fun _ => .none⟩
  | some v =>
    simp only [Option.map_some, Option.some.injEq, forall_eq']
    rw [← Directive.reshapeAll_same_iff]
    exact ⟨fun h => by cases h with | some h => exact h, fun h => .some h⟩

/-- **When preparing a request changes nothing.** -/
theorem same_prepare_iff : (x.prepare m.plan m.params r).2.Same r ↔ m.LeavesHost r := by
  have key : ∀ l name, Json.SameEntry ((x.prepare m.plan m.params r).2.value? l name)
      (r.value? l name) ↔ Json.SameEntry (((takeParams r m.params).value? l name).map
        (Directive.reshapeAll (directivesOf m.plan.schema.directives l) name))
        (r.value? l name) := fun l name =>
    ⟨(x.value?_prepare m.plan m.params r l name).symm.trans,
      (x.value?_prepare m.plan m.params r l name).trans⟩
  constructor
  · intro h
    refine ⟨fun d hd hl v hv => ?_, fun name => (key .path name).mp (h.value? .path name)⟩
    have he := (key d.location d.name).mp (h.value? d.location d.name)
    rw [value?_takeParams m.params r hl, sameEntry_map_reshapeAll] at he
    exact he v hv d (by simp [directivesOf, hd]) rfl
  · intro h
    refine ⟨x.sameFrame_prepare m.plan m.params r, fun l name => (key l name).mpr ?_⟩
    by_cases hl : l = .path
    · subst hl
      exact h.params name
    · rw [value?_takeParams m.params r hl, sameEntry_map_reshapeAll]
      intro v hv d hd hn
      simp only [directivesOf, List.mem_filter, decide_eq_true_eq] at hd
      obtain ⟨hd, rfl⟩ := hd
      exact h.idle d hd hl v (by rw [hn]; exact hv)

end RequestValidator

namespace Validator

/--
**What a rejected request is handed back as.** It is the request that came exactly if it was not
rejected by the schema, or there was nothing for the plan to change.
-/
theorem rejected_same_iff (x : Validator) (s : Stores) (r : Request) {f : Failure}
    (h : (x.validateRequest s r).1 = .error f) :
    (x.validateRequest s r).2.1.Same r ↔
      ∀ m problems, x.matching? s r = some m → f = .schemaValidation problems → m.LeavesHost r := by
  cases hm : x.matching? s r with
  | none =>
    rw [(validateRequest_of_matching?_none hm).1]
    exact ⟨fun _ m problems hm' => by simp at hm', fun _ => .refl r⟩
  | some m =>
    obtain ⟨hresult, hrequest⟩ := validateRequest_of_matching? hm
    rw [h] at hresult
    rw [hrequest]
    -- a request that is accepted got no failure
    rcases x.requests.check_cases m.plan m.route.template m.params r with
      ⟨key, -, hc⟩ | ⟨-, problems, -, -, hc⟩ | ⟨-, -, hc⟩ <;> rw [hc] at hresult ⊢ <;>
        simp only [Except.error.injEq, reduceCtorEq] at hresult
    · -- a key that is not declared is refused before anything is changed
      subst hresult
      exact ⟨fun _ _ _ _ hf => by simp at hf, fun _ => .refl r⟩
    · subst hresult
      simp only [RequestValidator.same_prepare_iff]
      constructor
      · rintro hleaves m' problems' hm' -
        cases hm'
        exact hleaves
      · intro hleaves
        exact hleaves m problems rfl rfl

end Validator

/-! ## A path parameter that stays -/

/-- A contract with `GET /a/\x7bid\x7d`, whose `id` is an integer. -/
def identified : Contract where
  root := [
    ("openapi", .string "3.0.3"),
    ("paths", .object [("/a/\x7bid\x7d", .object [("get", .object [
      ("parameters", .array [.object [
        ("in", .string "path"),
        ("name", .string "id"),
        ("required", .bool true),
        ("schema", .object [("type", .string "integer")])]]),
      ("responses", .object [])])])])]
  version := "3.0.3"

def identifiedValidator : Validator :=
  ⟨identified, .ofRoutes (identified.routes.toOption.getD []), {}⟩

/-- A request for an `id` that is no integer. -/
def misidentified : Request := Request.ofTarget Method.get "/a/x"

/-- Why it is rejected. -/
def misidentifiedFailure : Failure :=
  .schemaValidation
    [⟨".params.id", "\"x\" is not of type \"integer\"", some "type.openapi.validation"⟩]

set_option maxRecDepth 10000 in
/-- A host that has already read the path as it is gets its request back. -/
theorem rejected_same_iff_withParam :
    (identifiedValidator.validateRequest identifiedValidator.stores
        (misidentified.withParam "id" "x")).1 = .error misidentifiedFailure ∧
      (identifiedValidator.validateRequest identifiedValidator.stores
        (misidentified.withParam "id" "x")).2.1.Same (misidentified.withParam "id" "x") := by
  have h : (identifiedValidator.validateRequest identifiedValidator.stores
      (misidentified.withParam "id" "x")).1 = .error misidentifiedFailure := by decide +kernel
  refine ⟨h, (Validator.rejected_same_iff _ _ _ h).mpr ?_⟩
  intro m problems hm _
  have hval : (identifiedValidator.matching? identifiedValidator.stores
      (misidentified.withParam "id" "x")).map (fun m => (m.plan.schema.directives, m.params)) =
      some ([], [("id", "x")]) := by decide +kernel
  rw [hm, Option.map_some, Option.some.injEq, Prod.mk.injEq] at hval
  obtain ⟨hds, hparams⟩ := hval
  have htake : RequestValidator.takeParams (misidentified.withParam "id" "x") [("id", "x")] =
      misidentified.withParam "id" "x" := by decide +kernel
  refine ⟨by simp [hds], fun name => .of_eq ?_⟩
  rw [hds, hparams, htake]
  cases (misidentified.withParam "id" "x").value? .path name <;> rfl

set_option maxRecDepth 10000 in
/-- Any other host is left with the path parameter. -/
theorem not_same_misidentified :
    Validator.ofContract identified {} = .ok identifiedValidator ∧
      (identifiedValidator.validateRequest identifiedValidator.stores misidentified).1 =
        .error misidentifiedFailure ∧
      ¬ (identifiedValidator.validateRequest identifiedValidator.stores
        misidentified).2.1.Same misidentified := by
  refine ⟨rfl, by decide +kernel, fun h => ?_⟩
  have hsome := (h.value? .path "id").isSome_eq
  revert hsome
  decide +kernel

end ApiContract
