import ApiContract.Proofs.Failing
import ApiContract.Proofs.Route.Parameters
import ApiContract.Validator
/-!
# The operations of a contract

Every operation of a contract has a route, and every route is that of an operation. What a route
holds stands in the contract under the operation and under its path.
-/

namespace ApiContract

/-- An operation, with the path item that it stands in. -/
structure Operation where
  path : String
  item : Assoc Json
  method : Method
  members : Assoc Json

namespace Operation

/-- Whether it is one of the operations of its path item. -/
def IsMember (o : Operation) : Prop :=
  ∃ key, (key, o.method) ∈ Contract.operationKeys ∧ o.item.get? key = some (.object o.members)

/-- Whether an operation stands in a contract. -/
structure StandsIn (o : Operation) (c : Contract) : Prop where
  path : (o.path, .object o.item) ∈ c.paths?.getD []
  member : o.IsMember

/-- The parameters that are written under a path or an operation. -/
def written (members : Assoc Json) : List Json :=
  ((members.get? "parameters").bind Json.asArray?).getD []

/-- The declared responses. -/
def responses (o : Operation) : Assoc Json :=
  ((o.members.get? "responses").bind Json.asObject?).getD []

/-- The security requirements in force: those of the operation, if it has a list of its own, and
else those of the contract. -/
def requirements (o : Operation) (c : Contract) : List Json :=
  ((o.members.get? "security").bind Json.asArray?).getD c.security

/-- The route of an operation. -/
def route (o : Operation) (c : Contract) : Route where
  method := o.method
  template := c.basePath ++ o.path
  operationId := (o.members.get? "operationId").bind Json.asString?
  placeholders := Template.names (c.basePath ++ o.path).toList
  parameters := c.mergeParameters (written o.item) (written o.members)
  requestBody := o.members.get? "requestBody"
  responses := o.responses
  security := (o.members.get? "security").bind Json.asArray?

end Operation

namespace Contract

open Operation

variable {c : Contract}

theorem fst_readParameters (location : String) (members : Assoc Json) :
    (readParameters location (members.get? "parameters")).1 = written members := by
  unfold readParameters written
  cases h : members.get? "parameters" with
  | none => rfl
  | some v => cases v <;> rfl

theorem fst_readResponses (location : String) (o : Operation) :
    (readResponses location (o.members.get? "responses")).1 = o.responses := by
  unfold readResponses Operation.responses
  cases h : o.members.get? "responses" with
  | none => rfl
  | some v => cases v <;> rfl

/-- An operation is read into its route. -/
theorem fst_readOperation (c : Contract) (location : String) (o : Operation) :
    (readOperation c (c.basePath ++ o.path) location (written o.item) o.method o.members).1 =
      o.route c := by
  unfold readOperation
  simp only [fst_readParameters, fst_readResponses]
  rfl

theorem mem_readOperations {path : String} {item : Assoc Json} {r : Route} :
    r ∈ (readOperations c (c.basePath ++ path) path (written item) item).1 ↔
      ∃ o : Operation, o.path = path ∧ o.item = item ∧ o.IsMember ∧ o.route c = r := by
  simp only [readOperations, List.flatMap_map, List.mem_flatMap]
  constructor
  · rintro ⟨⟨key, method⟩, hkey, hr⟩
    cases hv : item.get? key with
    | none => simp [hv] at hr
    | some v =>
      cases v with
      | object members =>
        simp only [hv, List.mem_singleton] at hr
        exact ⟨⟨path, item, method, members⟩, rfl, rfl, ⟨key, hkey, hv⟩,
          (hr.trans (fst_readOperation c _ ⟨path, item, method, members⟩)).symm⟩
      | _ => simp [hv] at hr
  · rintro ⟨o, rfl, rfl, ⟨key, hkey, hv⟩, rfl⟩
    refine ⟨(key, o.method), hkey, ?_⟩
    simp only [hv, List.mem_singleton]
    exact (fst_readOperation c _ o).symm

theorem mem_readPath {path : String} {v : Json} {r : Route} :
    r ∈ (readPath c c.basePath path v).1 ↔
      ∃ o : Operation, o.path = path ∧ .object o.item = v ∧ o.IsMember ∧ o.route c = r := by
  cases v with
  | object item => simp only [readPath, fst_readParameters, mem_readOperations, Json.object.injEq]
  | _ => simp [readPath]

/-- **The routes of a contract are those of its operations.** -/
theorem mem_routes_iff {routes : List Route} (h : c.routes = .ok routes) {r : Route} :
    r ∈ routes ↔ ∃ o : Operation, o.StandsIn c ∧ o.route c = r := by
  have hroutes : routes =
      ((c.paths?.getD []).map fun e => readPath c c.basePath e.1 e.2).flatMap (·.1) := by
    obtain ⟨_, -, h⟩ := Except.bind_eq_ok_iff.mp h
    exact (Except.ok.inj h).symm
  rw [hroutes, List.flatMap_map, List.mem_flatMap]
  simp only [mem_readPath]
  constructor
  · rintro ⟨⟨_, _⟩, he, o, rfl, rfl, hmember, hr⟩
    exact ⟨o, ⟨he, hmember⟩, hr⟩
  · rintro ⟨o, ho, hr⟩
    exact ⟨_, ho.path, o, rfl, rfl, ho.member, hr⟩

end Contract

/-! ## The validator of a contract -/

namespace Validator

variable {contract : Contract} {config : Config} {x : Validator}

/-- What a validator is made of. -/
theorem parts_of_ofContract (hx : ofContract contract config = .ok x) :
    x.contract = contract ∧ x.config = config ∧
      ∃ routes, contract.routes = .ok routes ∧ x.index = .ofRoutes routes := by
  obtain ⟨routes, hroutes, hx⟩ := Except.bind_eq_ok_iff.mp hx
  obtain rfl := Except.ok.inj hx
  exact ⟨rfl, rfl, routes, hroutes, rfl⟩

/-- What a request matches is the route of an operation in the contract. -/
theorem exists_operation_of_matched (hx : ofContract contract config = .ok x) {method : Method}
    {path : String} {route : Route} {params : Assoc String}
    (h : x.index.lookup method path = .matched route params) :
    ∃ o : Operation, o.StandsIn contract ∧ o.route contract = route := by
  obtain ⟨-, -, routes, hroutes, hindex⟩ := parts_of_ofContract hx
  rw [hindex] at h
  exact (Contract.mem_routes_iff hroutes).mp (RouteIndex.mem_and_params_of_matched h).1

end Validator

end ApiContract
