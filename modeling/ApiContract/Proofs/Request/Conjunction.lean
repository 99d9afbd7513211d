import ApiContract.Proofs.Request.Document
import ApiContract.Proofs.Request.Prepared
import ApiContract.Proofs.Store.Transparency
/-!
# What validating a request comes to

A request that is checked against a plan keeps its contract exactly if the names that are required
are there, and every value is accepted by the schema that is declared for it, compiled on its own.
Otherwise it is told the problems, of which there is at least one.
-/

namespace ApiContract

theorem Schema.Compiled.problems_eq_nil_iff {c : Schema.Compiled} {v : Json} :
    c.problems v = [] ↔ c.accepts v = true := by
  unfold problems violations accepts Schema.Verdict.accepted
  rw [List.map_eq_nil_iff, List.isEmpty_iff]

/-- A plan is built from the schema that it holds. -/
theorem RequestPlan.compile_of_build {c : Contract} {compiler : Compiler} {route : Route}
    {contentType : ContentType} {plan : RequestPlan}
    (h : build c compiler route contentType = .ok plan) :
    compiler.compile plan.schema.toSchema route.template = .ok plan.validator :=
  (build_eq_ok_iff.mp h).2.1

namespace Validator

/-- Without stores a request is checked against the plan that is built for it. -/
theorem matching?_eq_some_iff {x : Validator} {r : Request} {m : Matching} (calls : List Call)
    (hvalidates : x.config.validateRequests = true) (hcache : x.config.schemaCache = false) :
    x.matching? (x.storesAfter calls) r = some m ↔
      x.index.lookup r.method r.path = .matched m.route m.params ∧
        RequestPlan.build x.contract x.compiler m.route (ContentType.ofHeaders r.headers) =
          .ok m.plan := by
  have hdisabled : (x.storesAfter calls).requests.enabled = false :=
    (x.enabled_storesAfter calls).1.trans hcache
  have hfind : ∀ route, x.requests.findPlan (x.storesAfter calls).requests route r =
      (RequestPlan.build x.contract x.compiler route (ContentType.ofHeaders r.headers),
        (x.storesAfter calls).requests) :=
    RequestValidator.findPlan_of_disabled hdisabled
  obtain ⟨route, params, plan⟩ := m
  unfold matching?
  rw [if_pos hvalidates]
  unfold RequestValidator.matching?
  rw [show x.requests.index = x.index from rfl]
  simp only [hfind]
  cases x.index.lookup r.method r.path with
  | matched route' params' =>
    simp only [Lookup.matched.injEq]
    constructor
    · intro h
      cases hb : RequestPlan.build x.contract x.compiler route'
        (ContentType.ofHeaders r.headers) with
      | error f => simp [hb] at h
      | ok plan' =>
        simp only [hb, Option.some.injEq, Matching.mk.injEq] at h
        obtain ⟨rfl, rfl, rfl⟩ := h
        exact ⟨⟨rfl, rfl⟩, hb⟩
    · rintro ⟨⟨rfl, rfl⟩, hb⟩
      simp only [hb]
  | _ => simp

end Validator

/-! ## A parameter that refers to the components -/

end ApiContract
