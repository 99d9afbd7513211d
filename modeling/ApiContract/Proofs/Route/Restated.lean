import ApiContract.Proofs.Assoc.Related
import ApiContract.Proofs.Request.Restated
import ApiContract.Route.Index
import ApiContract.Route.Table
/-!
# Contracts with parameters by reference

A contract is restated when the schemas of some parameters are replaced by references to components
that are the same schemas, where parameters are written down: under a path, under an operation, or
behind a reference. A restated contract has the same issues or the same routes, which are looked up
alike.
-/

namespace ApiContract

open Schema

/-! ## Restated contracts -/

/-- Whether two values are related objects, or one value that is no object. -/
inductive Json.ObjectRel (R : Assoc Json → Assoc Json → Prop) : Json → Json → Prop
  | object {members members' : Assoc Json} (h : R members members') :
      ObjectRel R (.object members) (.object members')
  | other (v : Json) (h : v.asObject? = none) : ObjectRel R v v

/-- Whether two members are related arrays, or one that is no array or not there. -/
inductive Json.ArrayRel (R : Json → Json → Prop) : Option Json → Option Json → Prop
  | array {items items' : List Json} (h : List.Forall₂ R items items') :
      ArrayRel R (some (.array items)) (some (.array items'))
  | other (v : Option Json) (h : v.bind asArray? = none) : ArrayRel R v v

theorem Json.ObjectRel.eq_or {R : Assoc Json → Assoc Json → Prop} {v v' : Json}
    (h : ObjectRel R v v') :
    (∃ members members', v = .object members ∧ v' = .object members' ∧ R members members') ∨
      (v' = v ∧ v.asObject? = none) := by
  cases h with
  | object h => exact Or.inl ⟨_, _, rfl, rfl, h⟩
  | other _ h => exact Or.inr ⟨rfl, h⟩

namespace Contract

section

variable (c c' : Contract) (x : Compiler) (scope : String → Prop)

/-- Whether what a parameter is resolved to is restated; it may itself be written down elsewhere. -/
def RestatesRaw (raw raw' : Json) : Prop :=
  Except.Rel (c.RestatesParameter x scope) (c.resolve raw) (c'.resolve raw')

/-- Whether an operation is another with restated parameters. -/
structure RestatesOperation (operation operation' : Assoc Json) : Prop where
  parameters : Json.ArrayRel (RestatesRaw c c' x scope) (operation.get? "parameters")
    (operation'.get? "parameters")
  same : SameBut "parameters" operation operation'
  refers : ∀ raw ∈ operation.get? "requestBody", ∀ t ∈ refs raw, scope t

/-- Whether a path is another with restated parameters, its own or those of its operations. -/
structure RestatesPath (item item' : Assoc Json) : Prop where
  parameters : Json.ArrayRel (RestatesRaw c c' x scope) (item.get? "parameters")
    (item'.get? "parameters")
  operations : ∀ k ∈ operationKeys, Option.Rel
    (Json.ObjectRel (RestatesOperation c c' x scope)) (item.get? k.1) (item'.get? k.1)

end

/-- Whether a contract is another with restated parameters, which references of the scope do not see:
these are all other references in parameters, bodies and security schemes, and in what they lead to,
and they lead to the same parts of both contracts, and not into the schema of a request. -/
structure Restated (c c' : Contract) (formats : Bool) (scope : String → Prop) : Prop where
  agree : c.Agree c' scope
  compiled : (Compiler.ofContract c formats).Agree (.ofContract c' formats) scope
  security : c.SameSecurity c' scope
  server : c'.serverUrl? = c.serverUrl?
  paths : Assoc.Rel (Json.ObjectRel (RestatesPath c c' (.ofContract c formats) scope))
    (c.paths?.getD []) (c'.paths?.getD [])

/-- References into components that stay are not affected by what is restated outside of them. -/
theorem restated_of_components {c c' : Contract} {formats : Bool}
    (hroot : SameBut "paths" c.root c'.root) (hversion : c'.version = c.version)
    (hrefs : ∀ t ∈ refs c.document, IntoComponents t)
    (hpaths : Assoc.Rel (Json.ObjectRel (RestatesPath c c' (.ofContract c formats) IntoComponents))
      (c.paths?.getD []) (c'.paths?.getD [])) :
    c.Restated c' formats IntoComponents := by
  have hmember : ∀ key, key ≠ "paths" → c'.root.get? key = c.root.get? key :=
    fun key hkey => (hroot key hkey).symm
  have hc : c'.components? = c.components? := hmember "components" (by decide)
  have hcompiler : Compiler.ofContract c' formats = .ofContract c formats := by
    unfold Compiler.ofContract dialect isRecent
    rw [hc, hversion]
  have houtside : ∀ t, IntoComponents t → (Compiler.ofContract c formats).LeadsOutside t :=
    fun t ht => Compiler.leadsOutside_of_leadsIntoComponents ht.2
  refine ⟨agree_of_components hc hrefs, ?_, sameSecurity_of_components hc ?_ hrefs, ?_, hpaths⟩
  · rw [hcompiler]
    refine ⟨rfl, rfl, houtside, houtside, fun _ _ => rfl, fun t v _ hv u hu => ?_⟩
    have hu := Schema.refs_subset_of_resolveReference hv u hu
    unfold Compiler.alone Compiler.ofContract withComponents at hu
    cases hcomponents : c.components? with
    | none =>
      rw [hcomponents] at hu
      exact absurd hu List.not_mem_nil
    | some components =>
      rw [hcomponents] at hu
      have hu : u ∈ refs (normalize components) := by
        simpa [refs, refsOfMembers, Assoc.insert] using hu
      rw [refs_normalize] at hu
      exact hrefs u (refs_subset_of_mem_members (Assoc.mem_of_get? hcomponents) u hu)
  · unfold security
    rw [hmember "security" (by decide)]
  · unfold serverUrl?
    rw [hmember "servers" (by decide)]

section

variable {c c' : Contract} {x : Compiler} {scope : String → Prop}

/-! ## Parameters of a route -/

/-- A restated parameter keeps its name and its location. -/
theorem parameterKey?_eq {raw raw' : Json} (h : RestatesRaw c c' x scope raw raw') :
    c'.parameterKey? raw' = c.parameterKey? raw := by
  unfold parameterKey?
  rcases h.eq_or with ⟨f, hf, hf'⟩ | ⟨v, v', hv, hv', hr⟩
  · rw [hf, hf']
  · rw [hv, hv']
    cases hr with
    | same _ _ => rfl
    | @reference target schema members ht _ hschema _ =>
      have hmember : ∀ key, key ≠ "schema" →
          (Json.object (members.insert "schema" (Schema.reference target))).member? key =
            (Json.object members).member? key := fun key hkey =>
        Assoc.get?_insert_of_ne _ _ (Ne.symm hkey)
      simp only [Except.toOption, Option.bind_eq_bind, Option.bind_some,
        hmember _ (show "name" ≠ "schema" by decide), hmember _ (show "in" ≠ "schema" by decide)]

/-- The parameters of a path and of an operation are merged alike. -/
theorem rel_mergeParameters {ofPath ofPath' ofOperation ofOperation' : List Json}
    (hp : List.Forall₂ (RestatesRaw c c' x scope) ofPath ofPath')
    (ho : List.Forall₂ (RestatesRaw c c' x scope) ofOperation ofOperation') :
    List.Forall₂ (RestatesRaw c c' x scope) (c.mergeParameters ofPath ofOperation)
      (c'.mergeParameters ofPath' ofOperation') := by
  have hkeys : ofOperation'.map c'.parameterKey? = ofOperation.map c.parameterKey? := by
    induction ho with
    | nil => rfl
    | cons h _ ih => rw [List.map_cons, List.map_cons, parameterKey?_eq h, ih]
  unfold mergeParameters
  rw [hkeys]
  refine List.rel_append (List.rel_filter (fun raw raw' h => ?_) hp) ho
  simp only [parameterKey?_eq h]

/-- Lists of parameters are read alike. -/
theorem rel_readParameters {v v' : Option Json}
    (h : Json.ArrayRel (RestatesRaw c c' x scope) v v') (location : String) :
    List.Forall₂ (RestatesRaw c c' x scope) (readParameters location v).1
        (readParameters location v').1 ∧
      (readParameters location v').2 = (readParameters location v).2 := by
  cases h with
  | array h => exact ⟨h, rfl⟩
  | other _ h =>
    refine ⟨?_, rfl⟩
    unfold readParameters
    split
    · exact .nil
    · cases h
    · exact .nil

/-! ## Routes -/

/-- Whether routes are restated, one by one, with the same issues. -/
def RestatesRoutes (c c' : Contract) (x : Compiler) (scope : String → Prop)
    (p p' : List Route × List Issue) : Prop :=
  List.Forall₂ (Route.Restated c c' x scope) p.1 p'.1 ∧ p'.2 = p.2

theorem restated_readOperation {operation operation' : Assoc Json} {ofPath ofPath' : List Json}
    (h : RestatesOperation c c' x scope operation operation')
    (hp : List.Forall₂ (RestatesRaw c c' x scope) ofPath ofPath') (template location : String)
    (method : Method) :
    Route.Restated c c' x scope
        (c.readOperation template location ofPath method operation).1
        (c'.readOperation template location ofPath' method operation').1 ∧
      (c'.readOperation template location ofPath' method operation').2 =
        (c.readOperation template location ofPath method operation).2 := by
  obtain ⟨hparameters, hissues⟩ := rel_readParameters h.parameters location
  have hsame : ∀ key, key ≠ "parameters" → operation'.get? key = operation.get? key :=
    fun key hkey => (h.same key hkey).symm
  unfold readOperation
  simp only [hsame "responses" (by decide), hsame "operationId" (by decide),
    hsame "requestBody" (by decide), hsame "security" (by decide), hissues]
  exact ⟨⟨rel_mergeParameters hp hparameters, rfl, h.refers⟩, trivial⟩

/-- Lists of routes, put together. -/
theorem restatesRoutes_flatten {ps ps' : List (List Route × List Issue)}
    (h : List.Forall₂ (RestatesRoutes c c' x scope) ps ps') :
    RestatesRoutes c c' x scope (ps.flatMap (·.1), ps.flatMap (·.2))
      (ps'.flatMap (·.1), ps'.flatMap (·.2)) := by
  induction h with
  | nil => exact ⟨.nil, rfl⟩
  | cons h _ ih => exact ⟨List.rel_append h.1 ih.1, congrArg₂ (· ++ ·) h.2 ih.2⟩

theorem restated_readOperations {item item' : Assoc Json} {ofPath ofPath' : List Json}
    (h : ∀ k ∈ operationKeys, Option.Rel (Json.ObjectRel (RestatesOperation c c' x scope))
      (item.get? k.1) (item'.get? k.1))
    (hp : List.Forall₂ (RestatesRaw c c' x scope) ofPath ofPath') (template path : String) :
    RestatesRoutes c c' x scope (c.readOperations template path ofPath item)
      (c'.readOperations template path ofPath' item') := by
  refine restatesRoutes_flatten ?_
  rw [List.forall₂_map_left_iff, List.forall₂_map_right_iff, List.forall₂_same]
  intro k hk
  have hmember := h k hk
  generalize item.get? k.1 = v, item'.get? k.1 = v' at hmember
  cases hmember with
  | none => exact ⟨.nil, rfl⟩
  | @some w w' hw =>
    rcases hw.eq_or with ⟨operation, operation', rfl, rfl, ho⟩ | ⟨rfl, hw⟩
    · obtain ⟨hroute, hissues⟩ := restated_readOperation ho hp template (path ++ " → " ++ k.1) k.2
      exact ⟨.cons hroute .nil, hissues⟩
    · cases w' with
      | object _ => cases hw
      | _ => exact ⟨.nil, rfl⟩

theorem restated_readPath {v v' : Json} (h : Json.ObjectRel (RestatesPath c c' x scope) v v')
    (base path : String) :
    RestatesRoutes c c' x scope (c.readPath base path v) (c'.readPath base path v') := by
  rcases h.eq_or with ⟨item, item', rfl, rfl, hitem⟩ | ⟨rfl, hv⟩
  · obtain ⟨hparameters, hissues⟩ := rel_readParameters hitem.parameters path
    obtain ⟨hroutes, hmore⟩ :=
      restated_readOperations hitem.operations hparameters (base ++ path) path
    exact ⟨hroutes, congrArg₂ (· ++ ·) hissues hmore⟩
  · cases v' with
    | object _ => cases hv
    | _ => exact ⟨.nil, rfl⟩

/-- **A restated contract has the same issues, or the same routes with restated parameters.** -/
theorem Restated.rel_routes {formats : Bool} (h : c.Restated c' formats scope) :
    Except.Rel (List.Forall₂ (Route.Restated c c' (.ofContract c formats) scope)) c.routes
      c'.routes := by
  have hbase : c'.basePath = c.basePath := by
    unfold basePath
    rw [h.server]
  have heach : List.Forall₂ (RestatesRoutes c c' (.ofContract c formats) scope)
      ((c.paths?.getD []).map fun e => c.readPath c.basePath e.1 e.2)
      ((c'.paths?.getD []).map fun e => c'.readPath c'.basePath e.1 e.2) := by
    rw [List.forall₂_map_left_iff, List.forall₂_map_right_iff, hbase]
    refine List.Forall₂.imp (fun e e' he => ?_) h.paths
    rw [he.1]
    exact restated_readPath he.2 c.basePath e.1
  obtain ⟨hroutes, hissues⟩ := restatesRoutes_flatten heach
  unfold routes
  refine Except.Rel.bind (R := fun _ _ => True) ?_ fun _ _ _ => .ok hroutes
  rw [show List.flatMap _ _ = _ from hissues]
  cases Issue.failIfAny (List.flatMap (·.2) ((c.paths?.getD []).map
    fun e => c.readPath c.basePath e.1 e.2)) with
  | error issues => exact .error issues
  | ok _ => exact .ok trivial

end

end Contract

/-! ## Looking up -/

section

variable {R : Route → Route → Prop}

/-- Whether two entries are of one template, with related operations. -/
structure PathEntry.Rel (R : Route → Route → Prop) (e e' : PathEntry) : Prop where
  template : e'.template = e.template
  pattern : e'.pattern = e.pattern
  operations : Assoc.Rel R e.operations e'.operations

/-- Whether looking up gave related routes with the same parameters, or the same failure. -/
inductive Lookup.Rel (R : Route → Route → Prop) : Lookup → Lookup → Prop
  | matched {r r' : Route} (h : R r r') (params : Assoc String) :
      Rel R (.matched r params) (.matched r' params)
  | methodNotAllowed (template : String) :
      Rel R (.methodNotAllowed template) (.methodNotAllowed template)
  | unmanaged : Rel R .unmanaged .unmanaged

namespace RouteIndex

theorem rel_addRoute {es es' : List PathEntry} (h : List.Forall₂ (PathEntry.Rel R) es es')
    {r r' : Route} (hr : R r r') (htemplate : r'.template = r.template)
    (hmethod : r'.method = r.method) :
    List.Forall₂ (PathEntry.Rel R) (addRoute es r) (addRoute es' r') := by
  induction h with
  | nil =>
    unfold addRoute
    rw [htemplate, hmethod]
    exact .cons ⟨rfl, rfl, .cons ⟨rfl, hr⟩ .nil⟩ .nil
  | cons he hes ih =>
    unfold addRoute
    rw [he.template, htemplate]
    split
    · refine .cons ⟨rfl, he.pattern, ?_⟩ hes
      rw [hmethod]
      exact he.operations.insert _ hr
    · exact .cons he ih

theorem rel_place {es es' : List PathEntry} (h : List.Forall₂ (PathEntry.Rel R) es es')
    {e e' : PathEntry} (he : PathEntry.Rel R e e') :
    List.Forall₂ (PathEntry.Rel R) (place e es) (place e' es') := by
  induction h with
  | nil => exact .cons he .nil
  | cons hf hes ih =>
    unfold place
    rw [he.pattern, hf.pattern]
    split
    · exact .cons he (.cons hf hes)
    · exact .cons hf ih

/-- Related routes are indexed alike. -/
theorem rel_ofRoutes {rs rs' : List Route}
    (h : List.Forall₂ (fun r r' => R r r' ∧ r'.template = r.template ∧ r'.method = r.method)
      rs rs') :
    List.Forall₂ (PathEntry.Rel R) (ofRoutes rs).entries (ofRoutes rs').entries := by
  have hentries : ∀ es es', List.Forall₂ (PathEntry.Rel R) es es' →
      List.Forall₂ (PathEntry.Rel R) (rs.foldl addRoute es) (rs'.foldl addRoute es') := by
    induction h with
    | nil => exact fun _ _ hes => hes
    | cons hr _ ih => exact fun _ _ hes => ih _ _ (rel_addRoute hes hr.1 hr.2.1 hr.2.2)
  have hplace : ∀ {es es'}, List.Forall₂ (PathEntry.Rel R) es es' →
      List.Forall₂ (PathEntry.Rel R) (byPlaceholders es) (byPlaceholders es') := by
    intro es es' hes
    induction hes with
    | nil => exact .nil
    | cons he _ ih => exact rel_place ih he
  exact hplace (hentries [] [] .nil)

/-- **Related routes are found alike.** -/
theorem rel_lookup {i i' : RouteIndex} (h : List.Forall₂ (PathEntry.Rel R) i.entries i'.entries)
    (method : Method) (path : String) :
    Lookup.Rel R (i.lookup method path) (i'.lookup method path) := by
  unfold lookup
  generalize (none : Option String) = first
  generalize Text.before (· = '?') path.toList = cs
  generalize i.entries = es, i'.entries = es' at h
  induction h generalizing first with
  | nil =>
    cases first with
    | none => exact .unmanaged
    | some template => exact .methodNotAllowed template
  | @cons e e' es es' he _ ih =>
    have hparams : paramsOf e' = paramsOf e := by
      funext fillers
      unfold paramsOf
      rw [he.pattern]
    have hoperation := he.operations.get? method.name
    simp only [lookupIn, he.pattern, he.template, hparams]
    generalize e.operations.get? method.name = r, e'.operations.get? method.name = r'
      at hoperation
    cases e.pattern.fill? cs with
    | none => exact ih first
    | some fillers =>
      cases hoperation with
      | some hr => exact .matched hr _
      | none => exact ih _

end RouteIndex

end

end ApiContract
