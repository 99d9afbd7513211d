import ApiContract.Proofs.Request.WriteBack
import ApiContract.Proofs.Url.Reordering
/-!
# Fragments that are read

The path of a target ends at the first question mark or number sign, so a fragment is never part of
it. The query is looked for from the first question mark on, wherever that stands. A target with a
question mark keeps its query when a fragment is put behind it; one without has none, and is read as
if the fragment were a target of its own.
-/

namespace ApiContract

namespace Query

/-! ## Targets with a fragment -/

theorem pathOf_append_fragment (target fragment : List Char) :
    pathOf (target ++ '#' :: fragment) = pathOf target := by
  induction target with
  | nil => rfl
  | cons c cs ih =>
    unfold pathOf Text.before at ih ⊢
    rw [List.cons_append, List.takeWhile_cons, List.takeWhile_cons, ih]

/-- A query stays what it is, whatever fragment is put behind it. -/
theorem IsQueryOf.append_fragment {target query : List Char} (h : IsQueryOf target query)
    (hmem : '?' ∈ target) (fragment : List Char) :
    IsQueryOf (target ++ '#' :: fragment) query := by
  obtain ⟨hnone, -⟩ | ⟨path, behind, hpath, hquery, hbehind, rfl⟩ := h
  · exact absurd hmem hnone
  · refine Or.inr ⟨path, behind ++ '#' :: fragment, hpath, hquery, ?_, by simp⟩
    cases behind with
    | nil => simp
    | cons d behind => simpa using hbehind

/-- Behind a target without a question mark, the query of the fragment is that of the whole. -/
theorem IsQueryOf.of_fragment {fragment query : List Char} (h : IsQueryOf fragment query)
    {target : List Char} (hnone : '?' ∉ target) :
    IsQueryOf (target ++ '#' :: fragment) query := by
  obtain ⟨hnone', rfl⟩ | ⟨path, behind, hpath, hquery, hbehind, rfl⟩ := h
  · exact Or.inl ⟨by simp [hnone, hnone'], rfl⟩
  · exact Or.inr ⟨target ++ '#' :: path, behind, by simp [hnone, hpath], hquery, hbehind, by simp⟩

variable {target fragment : String}

theorem path_append_fragment (target fragment : String) :
    path (target ++ "#" ++ fragment) = path target := by
  simp only [path, String.toList_append, List.append_assoc]
  exact congrArg String.ofList (pathOf_append_fragment _ _)

theorem parse_append_fragment (hmem : '?' ∈ target.toList) (fragment : String) :
    parse (target ++ "#" ++ fragment) = parse target := by
  have hquery : IsQueryOf (target.toList ++ '#' :: fragment.toList) (queryOf target.toList) :=
    (isQueryOf_iff.mpr rfl).append_fragment hmem fragment.toList
  unfold parse
  simp only [String.toList_append, List.append_assoc]
  exact congrArg (fun query => (decodeForm query).foldl collect []) (isQueryOf_iff.mp hquery)

theorem parse_of_fragment (hnone : '?' ∉ target.toList) (fragment : String) :
    parse (target ++ "#" ++ fragment) = parse fragment := by
  have hquery : IsQueryOf (target.toList ++ '#' :: fragment.toList) (queryOf fragment.toList) :=
    (isQueryOf_iff.mpr rfl).of_fragment hnone
  unfold parse
  simp only [String.toList_append, List.append_assoc]
  exact congrArg (fun query => (decodeForm query).foldl collect []) (isQueryOf_iff.mp hquery)

/-! ## Targets without parameters -/

/-- Whether a target has a query without pairs, or none. -/
def IsBare (target : String) : Prop :=
  ∃ query, IsQueryOf target.toList query ∧ ∀ c ∈ query, c = '&'

/-- No parameters are read of a target exactly if it is bare. -/
theorem parse_eq_nil_iff : parse target = [] ↔ IsBare target := by
  have hbare : IsBare target ↔ decodeForm (queryOf target.toList) = [] := by
    simp only [IsBare, isQueryOf_iff, exists_eq_left', decodeForm_eq_nil_iff]
  rw [hbare]
  constructor
  · intro h
    rw [List.eq_nil_iff_forall_not_mem]
    rintro ⟨name, value⟩ hpair
    have hkey : name ∈ (parse target).keys := mem_keys_parse_iff.mpr ⟨value, hpair⟩
    rw [h] at hkey
    exact List.not_mem_nil hkey
  · intro h
    rw [parse, h]
    rfl

theorem isBare_of_not_mem (hnone : '?' ∉ target.toList) : IsBare target :=
  ⟨[], Or.inl ⟨hnone, rfl⟩, List.forall_mem_nil _⟩

/-- **A fragment adds no parameters exactly if it stands behind a question mark, or is bare.** -/
theorem parse_append_fragment_iff :
    parse (target ++ "#" ++ fragment) = parse target ↔
      '?' ∈ target.toList ∨ IsBare fragment := by
  by_cases hmem : '?' ∈ target.toList
  · exact iff_of_true (parse_append_fragment hmem fragment) (Or.inl hmem)
  · rw [parse_of_fragment hmem, parse_eq_nil_iff.mpr (isBare_of_not_mem hmem), parse_eq_nil_iff]
    exact (or_iff_right hmem).symm

end Query

namespace Request

/-- Two requests that differ at most in how their hosts have read the query, and in a fragment that
the target of the second has behind that of the first. -/
structure AddsFragment (fragment : String) (r r' : Request) : Prop where
  target : r'.target = r.target ++ "#" ++ fragment
  method : r'.method = r.method
  headers : r'.headers = r.headers
  params : r'.params = r.params
  cookies : r'.cookies = r.cookies
  signedCookies : r'.signedCookies = r.signedCookies
  body : r'.body = r.body

theorem AddsFragment.path {fragment : String} {r r' : Request} (h : r.AddsFragment fragment r') :
    r'.path = r.path := by
  unfold Request.path
  rw [h.target]
  exact Query.path_append_fragment r.target fragment

end Request

namespace RequestValidator

variable {fragment : String} {r r' : Request}

/-- A check sees no more of a fragment than the parameters that are read of it. -/
theorem check_of_addsFragment (x : RequestValidator) (plan : RequestPlan) (template : String)
    (params : Assoc String) (h : r.AddsFragment fragment r')
    (hquery : Query.parse r'.target = Query.parse r.target) :
    (x.check plan template params r').1 = (x.check plan template params r).1 := by
  have hrefused : x.refusedKey? plan r' = x.refusedKey? plan r := by
    unfold refusedKey?
    rw [hquery]
  have hparams : (takeParams r' params).params = (takeParams r params).params := by
    unfold takeParams
    split
    · exact h.params
    · rfl
  have hreshaped : reshapedValues plan params r' = reshapedValues plan params r := by
    unfold reshapedValues
    rw [hquery, h.headers, hparams, h.cookies, h.signedCookies]
  rw [check_fst, check_fst, hrefused, prepare_fst, prepare_fst, hreshaped, h.body]

/-- No key is refused where no parameters are read. -/
theorem refusedKey?_of_parse_eq_nil (x : RequestValidator) (plan : RequestPlan)
    (h : Query.parse r.target = []) : x.refusedKey? plan r = none := by
  unfold refusedKey? unknownKey?
  rw [h]
  exact ite_self none

/-- Two checks end alike if the first refuses nothing: then the second has to refuse nothing
either, and to find the same problems. -/
theorem check_fst_eq_iff {x : RequestValidator} {plan : RequestPlan} {template : String}
    {params : Assoc String} (hnone : x.refusedKey? plan r = none) :
    (x.check plan template params r').1 = (x.check plan template params r).1 ↔
      x.refusedKey? plan r' = none ∧
        plan.validator.problems (instanceOf (x.prepare plan params r').1 r'.body) =
          plan.validator.problems (instanceOf (x.prepare plan params r).1 r.body) := by
  rw [check_fst, check_fst, hnone]
  cases x.refusedKey? plan r' with
  | none => simp only [true_and]; exact ⟨verdict_inj, congrArg (verdict template)⟩
  | some key =>
    refine iff_of_false ?_ (fun h => nomatch h.1)
    simp only
    generalize plan.validator.problems (instanceOf (x.prepare plan params r).1 r.body) = problems
    cases problems <;> simp [verdict]

end RequestValidator

namespace Validator

/--
**When a fragment is no data.** A fragment is put behind the target of a request. The path stays.
The parameters stay exactly if there is a question mark in the target or the fragment is bare: a
target without a question mark has none, and is then given those that stand in the fragment. The
verdict stays exactly if there is a question mark in the target, or if under the plan of the request
none of the parameters in the fragment is refused and what is judged with them has the problems that
were there without. In any case the stores are left the same.
-/
theorem validateRequest_addsFragment_iff (x : Validator) (s : Stores) {fragment : String}
    {r r' : Request} (h : r.AddsFragment fragment r') :
    r'.path = r.path ∧
      (Query.parse r'.target = Query.parse r.target ↔
        '?' ∈ r.target.toList ∨ Query.IsBare fragment) ∧
      ('?' ∉ r.target.toList →
        Query.parse r.target = [] ∧ Query.parse r'.target = Query.parse fragment) ∧
      ((x.validateRequest s r').1 = (x.validateRequest s r).1 ↔
        '?' ∈ r.target.toList ∨ ∀ m, x.matching? s r = some m →
          x.requests.refusedKey? m.plan r' = none ∧
            m.plan.validator.problems (RequestValidator.instanceOf (x.judged m r') r'.body) =
              m.plan.validator.problems (RequestValidator.instanceOf (x.judged m r) r.body)) ∧
      (x.validateRequest s r').2.2 = (x.validateRequest s r).2.2 := by
  have hparse : Query.parse r'.target = Query.parse r.target ↔
      '?' ∈ r.target.toList ∨ Query.IsBare fragment := by
    rw [h.target]
    exact Query.parse_append_fragment_iff
  have hwithout : '?' ∉ r.target.toList → Query.parse r.target = [] :=
    fun hnone => Query.parse_eq_nil_iff.mpr (Query.isBare_of_not_mem hnone)
  obtain ⟨hmatching, hstores, hresult⟩ :=
    validateRequest_of_samePath (x := x) (s := s) h.method.symm h.path.symm h.headers.symm
  refine ⟨h.path, hparse, fun hnone => ⟨hwithout hnone, ?_⟩, ?_, hstores⟩
  · rw [h.target]
    exact Query.parse_of_fragment hnone fragment
  · cases hm : x.matching? s r with
    | none => exact iff_of_true (hresult hm) (Or.inr nofun)
    | some m =>
      rw [(validateRequest_of_matching? hm).1, (validateRequest_of_matching? (hmatching.trans hm)).1]
      simp only [Option.some.injEq, forall_eq']
      by_cases hmem : '?' ∈ r.target.toList
      · exact iff_of_true (x.requests.check_of_addsFragment m.plan m.route.template m.params h
          (hparse.mpr (Or.inl hmem))) (Or.inl hmem)
      · rw [or_iff_right hmem]
        exact RequestValidator.check_fst_eq_iff
          (x.requests.refusedKey?_of_parse_eq_nil m.plan (hwithout hmem))

end Validator

set_option maxRecDepth 10000 in
/-- A number that is read of a fragment is judged, and as it is a number nothing changes. -/
theorem validateRequest_addsFragment_iff_numbered :
    (Request.ofTarget Method.get "/a").AddsFragment "?n=1"
        (Request.ofTarget Method.get "/a#?n=1") ∧
      Query.parse "/a#?n=1" = [("n", .string "1")] ∧
      (numberedValidator.validateRequest numberedValidator.stores
        (Request.ofTarget Method.get "/a#?n=1")).1 = .ok (.validated "/a") := by
  have hadds : (Request.ofTarget Method.get "/a").AddsFragment "?n=1"
      (Request.ofTarget Method.get "/a#?n=1") := ⟨by decide, rfl, rfl, rfl, rfl, rfl, rfl⟩
  have hvalidated : (numberedValidator.validateRequest numberedValidator.stores
      (Request.ofTarget Method.get "/a")).1 = .ok (.validated "/a") := by decide +kernel
  obtain ⟨-, -, hread, hiff, -⟩ :=
    Validator.validateRequest_addsFragment_iff numberedValidator numberedValidator.stores hadds
  have hjudged : (numberedValidator.matching? numberedValidator.stores
      (Request.ofTarget Method.get "/a")).all fun m =>
        (numberedValidator.requests.refusedKey? m.plan
          (Request.ofTarget Method.get "/a#?n=1")).isNone &&
        (m.plan.validator.problems (RequestValidator.instanceOf
          (numberedValidator.judged m (Request.ofTarget Method.get "/a#?n=1")) none) ==
        m.plan.validator.problems (RequestValidator.instanceOf
          (numberedValidator.judged m (Request.ofTarget Method.get "/a")) none)) := by
    decide +kernel
  refine ⟨hadds, ?_, ?_⟩
  · exact (hread (by decide)).2.trans (by decide +kernel)
  · refine (hiff.mpr (Or.inr fun m hm => ?_)).trans hvalidated
    simp only [hm, Option.all_some, Bool.and_eq_true, Option.isNone_iff_eq_none, beq_iff_eq]
      at hjudged
    exact hjudged

set_option maxRecDepth 10000 in
/-- A key in the fragment is refused, though the target without it is accepted. -/
theorem refused_for_fragment :
    Validator.ofContract numbered {} = .ok numberedValidator ∧
      '#' ∉ "/a".toList ∧
      Query.parse ("/a" ++ "#" ++ "?m=1") ≠ Query.parse "/a" ∧
      (numberedValidator.validateRequest numberedValidator.stores
        (Request.ofTarget Method.get "/a")).1 = .ok (.validated "/a") ∧
      (numberedValidator.validateRequest numberedValidator.stores
        (Request.ofTarget Method.get ("/a" ++ "#" ++ "?m=1"))).1 =
          .error (.unknownQueryParameter "m") :=
  ⟨rfl, by decide, by decide +kernel, by decide +kernel, by decide +kernel⟩

end ApiContract
