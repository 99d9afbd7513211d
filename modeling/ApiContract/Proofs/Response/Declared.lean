import ApiContract.Proofs.Json.Ordered
import ApiContract.Proofs.Route.Operations
/-!
# The responses that a route declares

For a status there is at most one declared response to check against, and a response has at most one
schema to check by. Both are told here by what stands in the contract, and the validators of a route
are those of its responses.
-/

namespace ApiContract

/-- The response that a route declares for a status: under the exact code, or else under its class
in upper or in lower case, or else the default. -/
def Route.responseFor? (r : Route) (status : Nat) : Option Json :=
  (((r.responses.get? (toString status)).or
    (r.responses.get? (toString (status / 100) ++ "XX"))).or
    (r.responses.get? (toString (status / 100) ++ "xx"))).or
    (r.responses.get? "default")

/-- Whether a schema stands under the least JSON media type of a response. -/
def Json.IsResponseSchema (schema response : Json) : Prop :=
  ∃ (content : Assoc Json) (mediaType : String) (media : Json),
    response.member? "content" = some (.object content) ∧
    Text.IsLeast (fun key => content.contains key = true ∧ MediaType.isJson key = true) mediaType ∧
    content.get? mediaType = some media ∧ media.member? "schema" = some schema

/-- The responses of an operation are ordered as the contract is. -/
theorem Operation.isOrdered_of_responses {c : Contract} (hc : c.document.isOrdered = true)
    {o : Operation} (ho : o.StandsIn c) {name : String} {response : Json}
    (h : o.responses.get? name = some response) : response.isOrdered = true := by
  have hpart : ∀ {members parts : Assoc Json} {key : String},
      (Json.object members).isOrdered = true → (members.get? key).bind Json.asObject? = some parts →
        (Json.object parts).isOrdered = true := by
    intro members parts key hmembers hparts
    obtain ⟨v, hv, hobject⟩ := Option.bind_eq_some_iff.mp hparts
    have hordered := Json.isOrdered_of_get? hmembers hv
    cases v <;> cases hobject
    exact hordered
  obtain ⟨hpath, key, -, hmember⟩ := ho
  cases hpaths : c.paths? with
  | none => simp [hpaths] at hpath
  | some paths =>
    rw [hpaths, Option.getD_some] at hpath
    have hitem := (Json.isOrdered_object_iff.mp (hpart hc hpaths)).2 _ hpath
    have hmembers := Json.isOrdered_of_get? hitem hmember
    unfold Operation.responses at h
    cases hresponses : (o.members.get? "responses").bind Json.asObject? with
    | none => simp [hresponses] at h
    | some responses =>
      rw [hresponses] at h
      exact Json.isOrdered_of_get? (hpart hmembers hresponses) h

namespace ResponseValidators

variable {c : Contract} {compiler : Compiler} {r : Route} {validators : ResponseValidators}

theorem schemaOf?_eq_some_iff {response schema : Json} (h : response.isOrdered = true) :
    schemaOf? response = some schema ↔ schema.IsResponseSchema response := by
  unfold schemaOf? Json.IsResponseSchema
  cases hv : response.member? "content" with
  | none => simp
  | some v =>
    cases v with
    | object content =>
      have hascending : Assoc.Ascending content :=
        (Json.isOrdered_object_iff.mp (Json.isOrdered_of_member? h hv)).1
      simp only [Json.asObject?, Option.bind_eq_bind, Option.bind_some, Option.bind_eq_some_iff,
        Option.some.injEq, Json.object.injEq, exists_and_left, exists_eq_left']
      constructor
      · rintro ⟨⟨mediaType, media⟩, hfind, hschema⟩
        obtain ⟨hleast, hmedia⟩ := hascending.find?_eq_some_iff.mp hfind
        exact ⟨mediaType, hleast, media, hmedia, hschema⟩
      · rintro ⟨mediaType, hleast, media, hmedia, hschema⟩
        exact ⟨(mediaType, media), hascending.find?_eq_some_iff.mpr ⟨hleast, hmedia⟩, hschema⟩
    | _ => simp [Json.asObject?]

/-- The validator of a response is that of its schema, if it has one. -/
theorem buildOne_cases {template : String} {response : Json} {built : Option Schema.Compiled}
    (h : buildOne c compiler template response = .ok built) :
    ∃ resolved, c.resolve response = .ok resolved ∧
      match schemaOf? resolved with
      | none => built = none
      | some schema => ∃ compiled, compiler.compile (wrap schema) template = .ok compiled ∧
          built = some compiled := by
  obtain ⟨resolved, hresolved, h⟩ := Except.bind_eq_ok_iff.mp h
  refine ⟨resolved, hresolved, ?_⟩
  cases hs : schemaOf? resolved with
  | none =>
    rw [hs] at h
    exact (Except.ok.inj h).symm
  | some schema =>
    rw [hs] at h
    obtain ⟨compiled, hcompiled, h⟩ := Except.bind_eq_ok_iff.mp h
    exact ⟨compiled, hcompiled, (Except.ok.inj h).symm⟩

/-- Every declared response has its entry. -/
theorem entries_of_build (h : build c compiler r = .ok validators) (name : String) :
    (r.responses.get? name).mapM (buildOne c compiler r.template) =
      .ok (validators.entries.get? name) := by
  obtain ⟨entries, hentries, h⟩ := Except.bind_eq_ok_iff.mp h
  obtain rfl := Except.ok.inj h
  exact Assoc.mapM_get? hentries name

/-- Of several names the first that is declared is found. -/
theorem findSome?_entries_of_build (h : build c compiler r = .ok validators) (names : List String) :
    match names.findSome? r.responses.get? with
    | none => (names.findSome? fun name => (validators.entries.get? name).map (name, ·)) = none
    | some response => ∃ name built,
        (names.findSome? fun name => (validators.entries.get? name).map (name, ·)) =
          some (name, built) ∧ buildOne c compiler r.template response = .ok built := by
  induction names with
  | nil => rfl
  | cons name names ih =>
    have hentry := entries_of_build h name
    rw [List.findSome?_cons, List.findSome?_cons]
    cases hresponse : r.responses.get? name with
    | none =>
      rw [hresponse] at hentry
      rw [← Except.ok.inj hentry]
      exact ih
    | some response =>
      rw [hresponse, Option.mapM_some] at hentry
      obtain ⟨built, hbuilt, hentry⟩ := Except.bind_eq_ok_iff.mp hentry
      rw [← Except.ok.inj hentry]
      exact ⟨name, built, rfl, hbuilt⟩

theorem responseFor?_eq (r : Route) (status : Nat) :
    r.responseFor? status = (namesOf status).findSome? r.responses.get? := by
  unfold Route.responseFor? namesOf
  simp only [List.findSome?_cons, List.findSome?_nil]
  cases r.responses.get? (toString status) <;>
    cases r.responses.get? (toString (status / 100) ++ "XX") <;>
    cases r.responses.get? (toString (status / 100) ++ "xx") <;>
    cases r.responses.get? "default" <;> rfl

/-- **A status selects the validator of the response that is declared for it.** -/
theorem select?_of_build (h : build c compiler r = .ok validators) (status : Nat) :
    match r.responseFor? status with
    | none => validators.select? status = none
    | some response => ∃ name built, validators.select? status = some (name, built) ∧
        buildOne c compiler r.template response = .ok built := by
  rw [responseFor?_eq]
  exact findSome?_entries_of_build h (namesOf status)

end ResponseValidators

end ApiContract
