import ApiContract.Proofs.Request.Prepared
import ApiContract.Proofs.Request.Stages
/-!
# What handlers observe

After a request is accepted, the judged values of the declared names stand in the maps of the host.
This covers every declared name that was judged. The query is judged as the target has it, so a name
that only the host has keeps a value which nothing judged: handlers observe judged values alone
exactly if the host holds no such name.
-/

namespace ApiContract

namespace RequestValidator

variable {judged : PerLocation (Assoc Json)} {schema : RequestSchema}

/-! ## Writing one location -/

theorem get?_overwriteOne (judged host : Assoc Json) (name key : String) :
    (overwriteOne judged host name).get? key =
      if name = key then (judged.get? key).or (host.get? key) else host.get? key := by
  unfold overwriteOne
  by_cases hk : name = key
  · subst hk
    cases hj : judged.get? name <;> simp
  · rw [if_neg hk]
    split
    · exact Assoc.get?_insert_of_ne _ _ hk
    · rfl

/-- Writing several names: a name among them gets its judged value, if it has one. -/
theorem get?_foldl_overwriteOne (judged : Assoc Json) (names : List String) (host : Assoc Json)
    (key : String) :
    (names.foldl (overwriteOne judged) host).get? key =
      if key ∈ names then (judged.get? key).or (host.get? key) else host.get? key := by
  induction names generalizing host with
  | nil => simp
  | cons name names ih =>
    rw [List.foldl_cons, ih, get?_overwriteOne]
    by_cases hk : name = key
    · subst hk
      cases judged.get? name <;> simp
    · simp [hk, Ne.symm hk]

theorem get?_overwrite (declared : LocationSchema) (judged host : Assoc Json) (key : String) :
    (overwrite declared judged host).get? key =
      if declared.declares key = true then (judged.get? key).or (host.get? key)
      else host.get? key := by
  unfold overwrite
  rw [get?_foldl_overwriteOne]
  simp only [LocationSchema.declares, Assoc.contains_iff_mem_keys]

/-! ## Writing all locations -/

/-- What the host holds under a declared name once the judged values are written: the judged value,
except that a cookie is only replaced. -/
theorem value?_writeBack (r : Request) {l : Location} {name : String}
    (hd : (schema.location l).declares name = true) :
    (writeBack schema judged r).value? l name =
      if l = .cookie ∧ r.value? l name = none then none
      else ((judged.get l).get? name).or (r.value? l name) := by
  unfold RequestSchema.location at hd
  cases l with
  | cookie =>
    simp only [Request.value?, Request.values?, writeBack, PerLocation.get, true_and] at hd ⊢
    cases r.cookies with
    | none => simp
    | some host =>
      simp only [Option.map_some, Option.bind_some, get?_overwrite]
      rw [if_pos hd, Assoc.get?_filter_key, Assoc.contains_eq]
      cases hh : host.get? name <;> simp
  | _ =>
    rw [if_neg (by simp)]
    simp only [Request.value?, Request.values?, writeBack, PerLocation.get, Option.bind_some,
      get?_overwrite] at hd ⊢
    rw [if_pos hd]

/-- Under a declared name that was judged, the host holds the judged value or nothing. -/
theorem value?_writeBack_of_contains (r : Request) {l : Location} {name : String} {v : Json}
    (hd : (schema.location l).declares name = true)
    (hj : (judged.get l).contains name = true)
    (hv : (writeBack schema judged r).value? l name = some v) :
    (judged.get l).get? name = some v := by
  rw [value?_writeBack r hd] at hv
  split at hv
  · simp at hv
  · obtain ⟨w, hw⟩ := Option.isSome_iff_exists.mp hj
    rw [hw] at hv ⊢
    simpa using hv

/-- Under a declared name that was not judged, the host holds what it held. -/
theorem value?_writeBack_of_not_contains (r : Request) {l : Location} {name : String}
    (hd : (schema.location l).declares name = true) (hj : (judged.get l).contains name = false) :
    (writeBack schema judged r).value? l name = r.value? l name := by
  rw [value?_writeBack r hd]
  have hn : (judged.get l).get? name = none := by simpa [Assoc.contains_eq] using hj
  split
  · next h => exact h.2.symm
  · simp [hn]

end RequestValidator

/-- Whether the values that a host holds under declared names are those that were judged. -/
def Request.ShowsJudged (r : Request) (schema : RequestSchema)
    (judged : PerLocation (Assoc Json)) : Prop :=
  ∀ l name v, (schema.location l).declares name = true → r.value? l name = some v →
    (judged.get l).get? name = some v

namespace RequestValidator

variable (x : RequestValidator) (plan : RequestPlan) (params : Assoc String) (r : Request)

/-- The written request shows judged values alone exactly if each declared name in the query of the
host is one of the target. -/
theorem showsJudged_writeBack_iff :
    (writeBack plan.schema (x.prepare plan params r).1 (x.prepare plan params r).2).ShowsJudged
        plan.schema (x.prepare plan params r).1 ↔
      ∀ name, (plan.schema.location .query).declares name = true →
        r.query.contains name = true → (Query.parse r.target).contains name = true := by
  constructor
  · intro h name hd hq
    rw [← x.contains_prepare_query plan params r name]
    cases hj : ((x.prepare plan params r).1.get .query).contains name with
    | true => rfl
    | false =>
      -- the host would keep a value that was not judged
      have hsome : ((x.prepare plan params r).2.value? .query name).isSome = true := by
        rw [x.isSome_value?_prepare plan params r (by simp)]
        exact hq
      obtain ⟨v, hv⟩ := Option.isSome_iff_exists.mp hsome
      have hget := h .query name v hd (by rw [value?_writeBack_of_not_contains _ hd hj, hv])
      rw [Assoc.contains_eq, hget] at hj
      exact hj.symm
  · intro h l name v hd hv
    refine value?_writeBack_of_contains _ hd ?_ hv
    by_cases hj : ((x.prepare plan params r).1.get l).contains name = true
    · exact hj
    · have hv' := hv
      rw [value?_writeBack_of_not_contains _ hd (by simpa using hj)] at hv'
      have hsome := Option.isSome_iff_exists.mpr ⟨v, hv'⟩
      by_cases hl : l = .query
      · subst hl
        rw [x.contains_prepare_query plan params r name]
        rw [x.isSome_value?_prepare plan params r (by simp)] at hsome
        exact h name hd hsome
      · exact x.contains_prepare_of_value? plan params r hl hsome

end RequestValidator

/-! ## Accepted requests -/

namespace Validator

/--
**What handlers observe of an accepted request.** Its values were judged and no problem was found.
The declared values that it is handed back with are the judged ones exactly if each declared name in
the query of the host is also one of the target.
-/
theorem validated_showsJudged_iff (x : Validator) (s : Stores) (r : Request) {template : String}
    (h : (x.validateRequest s r).1 = .ok (.validated template)) :
    ∃ m, x.matching? s r = some m ∧
      m.plan.validator.problems (RequestValidator.instanceOf (x.judged m r) r.body) = [] ∧
      ((x.validateRequest s r).2.1.ShowsJudged m.plan.schema (x.judged m r) ↔
        ∀ name, (m.plan.schema.location .query).declares name = true →
          r.query.contains name = true → (Query.parse r.target).contains name = true) := by
  obtain ⟨m, hm, -, hp, hr⟩ := exists_matching_of_validated h
  refine ⟨m, hm, ?_, ?_⟩
  · rw [(x.requests.sameFrame_prepare m.plan m.params r).body] at hp
    exact hp
  · rw [hr]
    exact x.requests.showsJudged_writeBack_iff m.plan m.params r

end Validator

/-! ## A value that nothing judged -/

/-- A contract with `GET /a`, whose query may hold an integer `n`. -/
def numbered : Contract where
  root := [
    ("openapi", .string "3.0.3"),
    ("paths", .object [("/a", .object [("get", .object [
      ("parameters", .array [.object [
        ("in", .string "query"),
        ("name", .string "n"),
        ("schema", .object [("type", .string "integer")])]]),
      ("responses", .object [])])])])]
  version := "3.0.3"

def numberedValidator : Validator :=
  ⟨numbered, .ofRoutes (numbered.routes.toOption.getD []), {}⟩

/-- A request whose host reads `n` as a text, whatever the target says. -/
def misread (target : String) : Request :=
  { Request.ofTarget Method.get target with query := [("n", .string "x")] }

set_option maxRecDepth 10000 in
/-- With `n` in the target, the host is handed back the number that was judged. -/
theorem validated_showsJudged_iff_misread :
    (numberedValidator.validateRequest numberedValidator.stores (misread "/a?n=1")).1 =
        .ok (.validated "/a") ∧
      ∃ m, numberedValidator.matching? numberedValidator.stores (misread "/a?n=1") = some m ∧
        (numberedValidator.validateRequest numberedValidator.stores
          (misread "/a?n=1")).2.1.ShowsJudged m.plan.schema
            (numberedValidator.judged m (misread "/a?n=1")) := by
  have h : (numberedValidator.validateRequest numberedValidator.stores (misread "/a?n=1")).1 =
      .ok (.validated "/a") := by decide +kernel
  obtain ⟨m, hm, -, hiff⟩ := Validator.validated_showsJudged_iff _ _ _ h
  refine ⟨h, m, hm, hiff.mpr fun name _ hq => ?_⟩
  have hn : "n" = name := by
    simpa [misread, Assoc.contains, Assoc.get?_cons] using hq
  subst hn
  decide +kernel

set_option maxRecDepth 10000 in
/-- Without it, the text stays, though only numbers are accepted. -/
theorem not_showsJudged_misread :
    Validator.ofContract numbered {} = .ok numberedValidator ∧
      (numberedValidator.validateRequest numberedValidator.stores (misread "/a")).1 =
        .ok (.validated "/a") ∧
      ∃ m, numberedValidator.matching? numberedValidator.stores (misread "/a") = some m ∧
        ¬ (numberedValidator.validateRequest numberedValidator.stores
          (misread "/a")).2.1.ShowsJudged m.plan.schema
            (numberedValidator.judged m (misread "/a")) := by
  have h : ((numberedValidator.matching? numberedValidator.stores (misread "/a")).map fun m =>
      ((m.plan.schema.location .query).declares "n",
        (numberedValidator.judged m (misread "/a")).query)) = some (true, []) := by decide +kernel
  obtain ⟨m, hm, hj⟩ := Option.map_eq_some_iff.mp h
  refine ⟨rfl, by decide +kernel, m, hm, fun hshows => ?_⟩
  simp only [Prod.mk.injEq] at hj
  have hn := hshows .query "n" (.string "x") hj.1 (by decide +kernel)
  rw [PerLocation.get, hj.2] at hn
  simp at hn

end ApiContract
