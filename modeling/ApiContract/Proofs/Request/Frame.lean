import ApiContract.Proofs.Request.Declared
import ApiContract.Proofs.Request.WriteBack
import ApiContract.Proofs.Store.Transparency
/-!
# What validating a request leaves alone

Three passes change the request of a host: the path parameters are taken over, the directives
reshape values, and the judged values are written back. None of them touches the method, the target,
the signed cookies or the body, or takes a name away; and each changes the values of declared names
alone. That is so for every plan that a route has, and a store hands out no other.
-/

namespace ApiContract

/-- Whether a request came of another by changes to declared parameters alone. Path parameters are
left out, as the route replaces them. -/
structure Request.ChangedWithin (schema : RequestSchema) (r' r : Request) : Prop where
  frame : r'.SameFrame r
  /-- Headers and cookies keep their names. -/
  names : ∀ l name, l = .header ∨ l = .cookie →
    (r'.value? l name).isSome = (r.value? l name).isSome
  /-- A query loses no name. -/
  query : ∀ name, (r.value? .query name).isSome = true → (r'.value? .query name).isSome = true
  undeclared : ∀ l name, l ≠ .path → (schema.location l).declares name = false →
    r'.value? l name = r.value? l name

namespace Request.ChangedWithin

variable {schema : RequestSchema} {r r' r'' : Request}

/-- Where no value is changed, nothing is. -/
theorem of_value? (hframe : r'.SameFrame r)
    (h : ∀ l name, l ≠ .path → r'.value? l name = r.value? l name) : ChangedWithin schema r' r where
  frame := hframe
  names l name hl := by
    have hpath : l ≠ .path := by rcases hl with rfl | rfl <;> decide
    rw [h l name hpath]
  query name hname := by rwa [h .query name (by decide)]
  undeclared l name hl _ := h l name hl

theorem refl (schema : RequestSchema) (r : Request) : ChangedWithin schema r r :=
  of_value? (.refl r) fun _ _ _ => rfl

theorem trans (h : ChangedWithin schema r r') (h' : ChangedWithin schema r' r'') :
    ChangedWithin schema r r'' where
  frame := h.frame.trans h'.frame
  names l name hl := (h.names l name hl).trans (h'.names l name hl)
  query name hname := h.query name (h'.query name hname)
  undeclared l name hl hd := (h.undeclared l name hl hd).trans (h'.undeclared l name hl hd)

end Request.ChangedWithin

/-! ## Directives -/

namespace Synthesis

/-- Whether every directive is for a name that is declared in its location. -/
def Declared.Covers (x : Declared) : Prop :=
  ∀ d ∈ x.directives, (x.locations.get d.location).declares d.name = true

/-- A parameter that is added is declared, and no other is forgotten. -/
theorem Declared.Covers.addRaw {c : Contract} {route : String} {x y : Declared} {raw : Json}
    (hx : x.Covers) (h : addRaw c route x raw = .ok y) : y.Covers := by
  obtain ⟨v, -, h⟩ := Except.bind_eq_ok_iff.mp h
  obtain ⟨p, -, h⟩ := Except.bind_eq_ok_iff.mp h
  obtain ⟨location, source, rs, -, -, -, rfl⟩ := addParameter_eq_ok h
  intro d hd
  rw [PerLocation.get_modify]
  rcases List.mem_append.mp hd with hd | hd
  · split
    · rw [LocationSchema.declares_declare, hx d hd, Bool.or_true]
    · exact hx d hd
  · obtain ⟨_, -, rfl⟩ := List.mem_map.mp hd
    rw [if_pos rfl, LocationSchema.declares_declare, decide_eq_true rfl, Bool.true_or]

end Synthesis

/-- Whether the directives of a schema are for parameters that it declares. -/
def RequestSchema.DirectsDeclared (x : RequestSchema) : Prop :=
  ∀ d ∈ x.directives, (x.location d.location).declares d.name = true

/-- **A schema reshapes declared parameters alone.** -/
theorem RequestSchema.directsDeclared_of_synthesize {c : Contract} {route : Route}
    {contentType : ContentType} {schema : RequestSchema}
    (h : synthesize c route contentType = .ok schema) : schema.DirectsDeclared := by
  obtain ⟨declared, hdeclared, h⟩ := Except.bind_eq_ok_iff.mp h
  obtain ⟨⟨body, bodyRequired⟩, -, h⟩ := Except.bind_eq_ok_iff.mp h
  obtain rfl := Except.ok.inj h
  have hnone : Synthesis.Declared.none.Covers := nofun
  intro d hd
  refine Except.foldlM_invariant (fun _ _ _ h hx => hx.addRaw h) hdeclared hnone d ?_
  simp only [Directive.inOrder, List.mem_append, List.mem_filter] at hd
  rcases hd with (⟨hd, -⟩ | ⟨hd, -⟩) | ⟨hd, -⟩ <;> exact hd

namespace RequestValidator

variable (query : Assoc Json) (r : Request)

/-- A directive leaves the values of other names. -/
theorem value?_applyDirective_of_ne {d : Directive} {l : Location} {name : String}
    (h : d.location = l → d.name ≠ name) :
    (applyDirective (query, r) d).2.value? l name = r.value? l name := by
  rcases applyDirective_cases query r d with
    heq | ⟨hl, v, w, -, -, -, -, ⟨x, -, heq⟩ | ⟨-, heq⟩⟩ <;> rw [heq]
  · unfold Request.value?
    rw [Request.values?_modifyValues]
    split
    · next hl =>
      cases r.values? l with
      | none => rfl
      | some values => exact (Directive.get?_applyIn d values name).trans (if_neg (h hl))
    · rfl
  · cases l with
    | query => exact Assoc.get?_insert_of_ne _ _ (h hl)
    | _ => rfl

theorem value?_applyDirectives_of_ne {ds : List Directive} {l : Location} {name : String}
    (h : ∀ d ∈ ds, d.location = l → d.name ≠ name) :
    (applyDirectives ds query r).2.value? l name = r.value? l name := by
  induction ds generalizing query r with
  | nil => rfl
  | cons d ds ih =>
    obtain ⟨hd, hds⟩ := List.forall_mem_cons.mp h
    rw [applyDirectives_cons, ih _ _ hds, value?_applyDirective_of_ne query r hd]

/-- Directives for declared parameters change those alone. -/
theorem changedWithin_applyDirectives {schema : RequestSchema} (h : schema.DirectsDeclared) :
    (applyDirectives schema.directives query r).2.ChangedWithin schema r where
  frame := sameFrame_applyDirectives query r _
  names l name _ := by
    rw [(value?_applyDirectives query r schema.directives l name).isSome_eq, Option.isSome_map]
  query name hname := by
    rwa [(value?_applyDirectives query r schema.directives .query name).isSome_eq,
      Option.isSome_map]
  undeclared l name _ hd := by
    refine value?_applyDirectives_of_ne query r fun d hmem hl hname => ?_
    have hdeclared := h d hmem
    rw [hl, hname, hd] at hdeclared
    cases hdeclared

/-! ## The other passes -/

variable (x : RequestValidator) (plan : RequestPlan) (params : Assoc String)

theorem changedWithin_prepare (h : plan.schema.DirectsDeclared) :
    (x.prepare plan params r).2.ChangedWithin plan.schema r :=
  (changedWithin_applyDirectives _ _ h).trans
    (.of_value? (sameFrame_takeParams params r) fun _ name hl => value?_takeParams params r hl name)

/-- The headers that are judged are those of the host. -/
theorem contains_prepare_header (name : String) :
    ((x.prepare plan params r).1.get .header).contains name =
      ((x.prepare plan params r).2.value? .header name).isSome := by
  simp only [prepare, contains_coerced]
  rfl

/-- Writing back leaves what is not declared. -/
theorem value?_writeBack_of_not_declares {schema : RequestSchema}
    {judged : PerLocation (Assoc Json)} {l : Location} {name : String}
    (hd : (schema.location l).declares name = false) :
    (writeBack schema judged r).value? l name = r.value? l name := by
  have hno : ¬ (schema.location l).declares name = true := by simp [hd]
  unfold RequestSchema.location at hno
  cases l with
  | cookie =>
    simp only [Request.value?, Request.values?, writeBack, PerLocation.get] at hno ⊢
    cases r.cookies with
    | none => rfl
    | some host =>
      simp only [Option.map_some, Option.bind_some, get?_overwrite]
      rw [if_neg hno]
  | _ =>
    simp only [Request.value?, Request.values?, writeBack, PerLocation.get, Option.bind_some,
      get?_overwrite] at hno ⊢
    rw [if_neg hno]

/-- Writing judged headers back to a host that has them changes declared parameters alone. -/
theorem changedWithin_writeBack {schema : RequestSchema} {judged : PerLocation (Assoc Json)}
    (hheaders : ∀ name, (judged.get .header).contains name = true →
      (r.value? .header name).isSome = true) :
    (writeBack schema judged r).ChangedWithin schema r where
  frame := ⟨rfl, rfl, rfl, rfl, by simp [writeBack]⟩
  names l name hl := by
    cases hd : (schema.location l).declares name with
    | false => rw [value?_writeBack_of_not_declares r hd]
    | true =>
      rw [value?_writeBack r hd]
      rcases hl with rfl | rfl
      · have hname := hheaders name
        rw [if_neg (by simp), Option.isSome_or]
        rw [Assoc.contains_eq] at hname
        cases hjudged : ((judged.get .header).get? name).isSome with
        | false => rfl
        | true => rw [Bool.true_or, hname hjudged]
      · split
        · next hnone => rw [hnone.2]
        · next hsome =>
          rw [not_and, ← ne_eq, ← Option.isSome_iff_ne_none] at hsome
          rw [Option.isSome_or, hsome rfl, Bool.or_true]
  query name hname := by
    cases hd : (schema.location .query).declares name with
    | false => rwa [value?_writeBack_of_not_declares r hd]
    | true => rw [value?_writeBack r hd, if_neg (by simp), Option.isSome_or, hname, Bool.or_true]
  undeclared l name _ hd := value?_writeBack_of_not_declares r hd

/-- **A check changes declared parameters alone**, whatever its result. -/
theorem changedWithin_check (h : plan.schema.DirectsDeclared) (template : String) :
    (x.check plan template params r).2.ChangedWithin plan.schema r := by
  rcases x.check_cases plan template params r with
    ⟨_, -, hc⟩ | ⟨-, _, -, -, hc⟩ | ⟨-, -, hc⟩ <;> rw [hc]
  · exact .refl plan.schema r
  · exact changedWithin_prepare r x plan params h
  · refine (changedWithin_writeBack _ fun name hname => ?_).trans
      (changedWithin_prepare r x plan params h)
    rwa [contains_prepare_header] at hname

end RequestValidator

/-! ## Plans -/

namespace Validator

variable {x : Validator} {calls : List Call} {r : Request} {m : Matching}

theorem exists_build_of_planDemand? {call : Call} {d : Demand Failure RequestPlan}
    (h : x.planDemand? call = some d) :
    ∃ route contentType, d.built = RequestPlan.build x.contract x.compiler route contentType := by
  unfold planDemand? at h
  split at h
  · split at h
    · unfold RequestValidator.demand? at h
      split at h
      · obtain rfl := Option.some.inj h
        exact ⟨_, _, rfl⟩
      · cases h
    · cases h
  · cases h

/-- After any session, a request is checked against a plan of some route. -/
theorem exists_build_of_matching? (h : x.matching? (x.storesAfter calls) r = some m) :
    ∃ route contentType,
      RequestPlan.build x.contract x.compiler route contentType = .ok m.plan := by
  unfold matching? at h
  split at h
  · rcases RequestValidator.plan_of_matching? h with hstored | hbuilt
    · rw [storesAfter_eq] at hstored
      obtain ⟨d, hd, -, hbuilt⟩ := Store.exists_of_get?_foldl_meet hstored
      obtain ⟨call, -, hcall⟩ := List.mem_map.mp hd
      obtain ⟨route, contentType, hd⟩ := exists_build_of_planDemand? hcall
      exact ⟨route, contentType, hd.symm.trans hbuilt⟩
    · exact ⟨_, _, hbuilt⟩
  · cases h

theorem directsDeclared_of_matching? (h : x.matching? (x.storesAfter calls) r = some m) :
    m.plan.schema.DirectsDeclared := by
  obtain ⟨route, contentType, hplan⟩ := exists_build_of_matching? h
  exact RequestSchema.directsDeclared_of_synthesize (RequestPlan.build_eq_ok_iff.mp hplan).1

/--
**What validating a request leaves alone**, after any session and whatever the result. The method,
the target, the signed cookies and the body stay, and there are cookies exactly if there were. The
headers and the cookies keep their names, and the query loses none. A name that the plan of the call
does not declare keeps its value, at every location but the path; without a plan every name does. A
request that is not managed, not validated, or of a method that is not allowed is handed back as it
came.
-/
theorem validateRequest_frame (x : Validator) (calls : List Call) (r : Request) :
    let s := x.storesAfter calls
    let result := (x.validateRequest s r).1
    let r' := (x.validateRequest s r).2.1
    (r'.method = r.method ∧ r'.target = r.target ∧ r'.signedCookies = r.signedCookies ∧
      r'.body = r.body ∧ (r'.cookies = none ↔ r.cookies = none)) ∧
    (∀ l name, l = .header ∨ l = .cookie →
      (r'.value? l name).isSome = (r.value? l name).isSome) ∧
    (∀ name, r.query.contains name = true → r'.query.contains name = true) ∧
    (∀ l name, l ≠ .path →
      (∀ m, x.matching? s r = some m → (m.plan.schema.location l).declares name = false) →
        r'.value? l name = r.value? l name) ∧
    (result = .ok .unmanaged ∨ result = .ok .skipped ∨
      (∃ path method, result = .error (.methodNotAllowed path method)) → r' = r) := by
  intro s result r'
  cases hm : x.matching? s r with
  | none =>
    have hr : r' = r := (validateRequest_of_matching?_none hm).1
    rw [hr]
    exact ⟨⟨rfl, rfl, rfl, rfl, Iff.rfl⟩, fun _ _ _ => rfl, fun _ h => h, fun _ _ _ _ => rfl,
      fun _ => rfl⟩
  | some m =>
    obtain ⟨hresult, hr⟩ := validateRequest_of_matching? hm
    have hchanged : r'.ChangedWithin m.plan.schema r := by
      rw [show r' = _ from hr]
      exact RequestValidator.changedWithin_check r x.requests m.plan m.params
        (directsDeclared_of_matching? hm) m.route.template
    have hframe := hchanged.frame
    refine ⟨⟨hframe.method, hframe.target, hframe.signedCookies, hframe.body, ?_⟩,
      hchanged.names, hchanged.query, fun l name hl hd => ?_, fun houtcome => ?_⟩
    · rw [← Option.isNone_iff_eq_none, ← Option.isNone_iff_eq_none, ← Option.not_isSome,
        ← Option.not_isSome, hframe.cookies]
    · exact hchanged.undeclared l name hl (hd m rfl)
    · -- a request that is checked gets another result
      have hother : result = (x.requests.check m.plan m.route.template m.params r).1 := hresult
      rw [hother] at houtcome
      rcases x.requests.check_cases m.plan m.route.template m.params r with
        ⟨_, -, hc⟩ | ⟨-, _, -, -, hc⟩ | ⟨-, -, hc⟩ <;> rw [hc] at houtcome <;> simp at houtcome

end Validator

end ApiContract
