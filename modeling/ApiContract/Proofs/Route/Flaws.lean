import ApiContract.Proofs.Json.Ordered
import ApiContract.Proofs.Route.Operations
import Mathlib.Data.List.Nodup
/-!
# Flaws of a contract

A contract is refused when a part of it is not of the kind that the part must be: a path or an
operation that is no object, parameters that are no list, responses that are no object. Every such
flaw is reported by one issue, and there is no issue without a flaw.
-/

namespace ApiContract

/-- A part of a contract that is not of the kind that it must be. -/
inductive Flaw where
  /-- A path is no object. -/
  | item (path : String)
  /-- The parameters of a path are no list. -/
  | shared (path : String)
  /-- An operation is no object. -/
  | operation (path key : String)
  /-- The parameters of an operation are no list. -/
  | parameters (path key : String)
  /-- The responses of an operation are no object. -/
  | responses (path key : String)
deriving DecidableEq, Repr

namespace Contract

/-- Whether a value stands under a path of a contract as one of its operations. -/
def Declares (c : Contract) (path key : String) (v : Json) : Prop :=
  ∃ item : Assoc Json, (path, .object item) ∈ c.paths?.getD [] ∧
    key ∈ operationKeys.map (·.1) ∧ item.get? key = some v

end Contract

namespace Flaw

/-- Where an operation is reported. -/
def placeOf (path key : String) : String := path ++ " → " ++ key

/-- The path under which a flaw stands. -/
def path : Flaw → String
  | item path | shared path => path
  | operation path _ | parameters path _ | responses path _ => path

/-- The key of the operation that a flaw is about. -/
def key? : Flaw → Option String
  | item _ | shared _ => none
  | operation _ key | parameters _ key | responses _ key => some key

/-- How a flaw is reported. -/
def issue : Flaw → Issue
  | item path => ⟨path, "InvalidPathItem", "path item must be an object"⟩
  | shared path => ⟨path, "InvalidParameters", "'parameters' must be an array"⟩
  | operation path key => ⟨placeOf path key, "InvalidOperation", "operation must be an object"⟩
  | parameters path key => ⟨placeOf path key, "InvalidParameters", "'parameters' must be an array"⟩
  | responses path key => ⟨placeOf path key, "InvalidResponses", "'responses' must be an object"⟩

/-- Whether a contract has a flaw. -/
def StandsIn (c : Contract) : Flaw → Prop
  | item path => ∃ v, (path, v) ∈ c.paths?.getD [] ∧ v.asObject? = none
  | shared path => ∃ (item : Assoc Json) (v : Json), (path, .object item) ∈ c.paths?.getD [] ∧
      item.get? "parameters" = some v ∧ v.asArray? = none
  | operation path key => ∃ v, c.Declares path key v ∧ v.asObject? = none
  | parameters path key => ∃ (members : Assoc Json) (v : Json),
      c.Declares path key (.object members) ∧ members.get? "parameters" = some v ∧
        v.asArray? = none
  | responses path key => ∃ (members : Assoc Json) (v : Json),
      c.Declares path key (.object members) ∧ members.get? "responses" = some v ∧
        v.asObject? = none

/-! ## Finding the flaws -/

/-- The flaw of a member that is there but is not of a kind. -/
def unlessKind {α : Type} (kind? : Json → Option α) (v? : Option Json) (flaw : Flaw) : List Flaw :=
  if v?.any fun v => (kind? v).isNone then [flaw] else []

theorem mem_unlessKind {α : Type} {kind? : Json → Option α} {v? : Option Json} {f flaw : Flaw} :
    f ∈ unlessKind kind? v? flaw ↔ f = flaw ∧ ∃ v, v? = some v ∧ kind? v = none := by
  unfold unlessKind
  cases v? with
  | none => simp
  | some v => by_cases h : (kind? v).isNone = true <;> simp_all

theorem nodup_unlessKind {α : Type} (kind? : Json → Option α) (v? : Option Json) (flaw : Flaw) :
    (unlessKind kind? v? flaw).Nodup := by
  unfold unlessKind
  split <;> simp

/-- The flaws of an operation. -/
def ofOperation (path key : String) : Json → List Flaw
  | .object members =>
    unlessKind Json.asArray? (Assoc.get? members "parameters") (.parameters path key) ++
      unlessKind Json.asObject? (Assoc.get? members "responses") (.responses path key)
  | _ => [.operation path key]

/-- The flaws of a path. -/
def ofPath (path : String) : Json → List Flaw
  | .object members =>
    unlessKind Json.asArray? (Assoc.get? members "parameters") (.shared path) ++
      Contract.operationKeys.flatMap fun k =>
        (Assoc.get? members k.1).elim [] (ofOperation path k.1)
  | _ => [.item path]

end Flaw

namespace Contract

open Flaw

/-- The flaws of a contract, in the order of its paths. -/
def flaws (c : Contract) : List Flaw := (c.paths?.getD []).flatMap fun e => ofPath e.1 e.2

/-! ## Issues report flaws -/

theorem snd_readParameters {location : String} {v? : Option Json} {flaw : Flaw}
    (h : flaw.issue = ⟨location, "InvalidParameters", "'parameters' must be an array"⟩) :
    (readParameters location v?).2 = (unlessKind Json.asArray? v? flaw).map Flaw.issue := by
  cases v? with
  | none => rfl
  | some v => cases v <;> simp [readParameters, unlessKind, Json.asArray?, h]

theorem snd_readResponses (path key : String) (v? : Option Json) :
    (readResponses (placeOf path key) v?).2 =
      (unlessKind Json.asObject? v? (.responses path key)).map Flaw.issue := by
  cases v? with
  | none => rfl
  | some v => cases v <;> rfl

theorem snd_readOperation (c : Contract) (template path key : String) (ofPath : List Json)
    (method : Method) (members : Assoc Json) :
    (readOperation c template (placeOf path key) ofPath method members).2 =
      (ofOperation path key (.object members)).map Flaw.issue := by
  have hparameters : (readParameters (placeOf path key) (members.get? "parameters")).2 =
      (unlessKind Json.asArray? (members.get? "parameters") (.parameters path key)).map
        Flaw.issue := snd_readParameters rfl
  unfold readOperation ofOperation
  rw [List.map_append, ← hparameters, ← snd_readResponses]

/-- The issues of the operations of a path. -/
theorem snd_readOperations (c : Contract) (template path : String) (ofPath : List Json)
    (item : Assoc Json) :
    (readOperations c template path ofPath item).2 =
      (operationKeys.flatMap fun k =>
        (item.get? k.1).elim [] (ofOperation path k.1)).map Flaw.issue := by
  simp only [readOperations, List.map_flatMap, List.flatMap_map]
  congr 1
  funext k
  cases hv : item.get? k.1 with
  | none => rfl
  | some v =>
    cases v with
    | object members => exact snd_readOperation c template path k.1 ofPath k.2 members
    | _ => rfl

/-- The issues of a path report its flaws. -/
theorem snd_readPath (c : Contract) (base path : String) (v : Json) :
    (readPath c base path v).2 = (ofPath path v).map Flaw.issue := by
  cases v with
  | object item =>
    have hshared : (readParameters path (Assoc.get? item "parameters")).2 =
        (unlessKind Json.asArray? (Assoc.get? item "parameters") (.shared path)).map
          Flaw.issue := snd_readParameters rfl
    unfold ofPath
    rw [List.map_append, ← hshared,
      ← snd_readOperations c (base ++ path) path (Operation.written item)]
    simp only [readPath, fst_readParameters]
  | _ => rfl

/-- **Reading the routes fails with one issue for each flaw, and without flaws it succeeds.** -/
theorem routes_eq (c : Contract) :
    c.routes = if c.flaws = [] then
        .ok ((c.paths?.getD []).flatMap fun e => (readPath c c.basePath e.1 e.2).1)
      else .error (c.flaws.map Flaw.issue) := by
  have hissues : ((c.paths?.getD []).map fun e => readPath c c.basePath e.1 e.2).flatMap (·.2) =
      c.flaws.map Flaw.issue := by
    unfold flaws
    rw [List.flatMap_map, List.map_flatMap]
    congr 1
    funext e
    exact snd_readPath c c.basePath e.1 e.2
  unfold routes
  simp only [hissues, List.flatMap_map]
  by_cases h : c.flaws = []
  · rw [if_pos h, h]
    rfl
  · have hnonempty : (c.flaws.map Flaw.issue).isEmpty = false := by simpa using h
    rw [if_neg h]
    simp only [Issue.failIfAny, hnonempty, Bool.false_eq_true, if_false]
    rfl

/-! ## The flaws that are found are those that are there -/

theorem mem_ofOperation {path key : String} {v : Json} {f : Flaw} :
    f ∈ ofOperation path key v ↔
      (f = .operation path key ∧ v.asObject? = none) ∨
      ∃ members : Assoc Json, v = .object members ∧
        ((f = .parameters path key ∧
            ∃ w : Json, members.get? "parameters" = some w ∧ w.asArray? = none) ∨
          (f = .responses path key ∧
            ∃ w : Json, members.get? "responses" = some w ∧ w.asObject? = none)) := by
  cases v with
  | object members => simp [ofOperation, mem_unlessKind, Json.asObject?]
  | _ => simp [ofOperation, Json.asObject?]

theorem mem_ofPath {path : String} {v : Json} {f : Flaw} :
    f ∈ ofPath path v ↔
      (f = .item path ∧ v.asObject? = none) ∨
      ∃ item : Assoc Json, v = .object item ∧
        ((f = .shared path ∧ ∃ w : Json, item.get? "parameters" = some w ∧ w.asArray? = none) ∨
          ∃ key ∈ operationKeys.map (·.1), ∃ w : Json, item.get? key = some w ∧
            f ∈ ofOperation path key w) := by
  cases v with
  | object item =>
    have hkeys : (∃ k ∈ operationKeys, f ∈ (Assoc.get? item k.1).elim [] (ofOperation path k.1)) ↔
        ∃ key ∈ operationKeys.map (·.1), ∃ w : Json, Assoc.get? item key = some w ∧
          f ∈ ofOperation path key w := by
      simp only [List.mem_map, exists_exists_and_eq_and]
      refine exists_congr fun k => and_congr_right fun _ => ?_
      cases Assoc.get? item k.1 <;> simp
    simp only [ofPath, List.mem_append, mem_unlessKind, List.mem_flatMap, hkeys, Json.asObject?,
      Json.object.injEq, exists_eq_left', reduceCtorEq, and_false, false_or]
  | _ => simp [ofPath, Json.asObject?]

theorem exists_declares_iff {c : Contract} {path key : String} {p : Json → Prop} :
    (∃ v, c.Declares path key v ∧ p v) ↔
      ∃ item : Assoc Json, (path, .object item) ∈ c.paths?.getD [] ∧
        key ∈ operationKeys.map (·.1) ∧ ∃ v, item.get? key = some v ∧ p v := by
  constructor
  · rintro ⟨v, ⟨item, hpath, hkey, hv⟩, hp⟩
    exact ⟨item, hpath, hkey, v, hv, hp⟩
  · rintro ⟨item, hpath, hkey, v, hv, hp⟩
    exact ⟨v, ⟨item, hpath, hkey, hv⟩, hp⟩

/-- **What is found are the flaws of the contract.** -/
theorem mem_flaws_iff {c : Contract} {f : Flaw} : f ∈ c.flaws ↔ f.StandsIn c := by
  simp only [flaws, List.mem_flatMap, mem_ofPath, mem_ofOperation, Prod.exists]
  cases f with
  | item path => simp [StandsIn]
  | shared path => simp [StandsIn]
  | operation path key =>
    rw [StandsIn, exists_declares_iff]
    simp
  | parameters path key =>
    have h : (∃ v, c.Declares path key v ∧ ∃ members : Assoc Json, v = .object members ∧
        ∃ w, members.get? "parameters" = some w ∧ w.asArray? = none) ↔ _ := exists_declares_iff
    simpa [StandsIn] using h.symm
  | responses path key =>
    have h : (∃ v, c.Declares path key v ∧ ∃ members : Assoc Json, v = .object members ∧
        ∃ w, members.get? "responses" = some w ∧ w.asObject? = none) ↔ _ := exists_declares_iff
    simpa [StandsIn] using h.symm

/-! ## No flaw is found twice -/

theorem key?_of_mem_ofOperation {path key : String} {v : Json} {f : Flaw}
    (h : f ∈ ofOperation path key v) : f.path = path ∧ f.key? = some key := by
  rcases mem_ofOperation.mp h with ⟨rfl, -⟩ | ⟨_, -, ⟨rfl, -⟩ | ⟨rfl, -⟩⟩ <;> exact ⟨rfl, rfl⟩

theorem path_of_mem_ofPath {path : String} {v : Json} {f : Flaw} (h : f ∈ ofPath path v) :
    f.path = path := by
  rcases mem_ofPath.mp h with ⟨rfl, -⟩ | ⟨_, -, ⟨rfl, -⟩ | ⟨key, -, w, -, hf⟩⟩
  · rfl
  · rfl
  · exact (key?_of_mem_ofOperation hf).1

theorem nodup_ofOperation (path key : String) (v : Json) : (ofOperation path key v).Nodup := by
  cases v with
  | object members =>
    refine (nodup_unlessKind _ _ _).append (nodup_unlessKind _ _ _) fun f hf hf' => ?_
    have heq : Flaw.parameters path key = .responses path key :=
      (mem_unlessKind.mp hf).1.symm.trans (mem_unlessKind.mp hf').1
    cases heq
  | _ => exact List.nodup_singleton _

theorem nodup_ofPath (path : String) (v : Json) : (ofPath path v).Nodup := by
  cases v with
  | object item =>
    have hkeys : (operationKeys.map (·.1)).Nodup := by decide
    have hkey : ∀ k : String × Method, ∀ f ∈ (Assoc.get? item k.1).elim [] (ofOperation path k.1),
        f.key? = some k.1 := by
      intro k f hf
      cases hv : Assoc.get? item k.1 with
      | none => simp [hv] at hf
      | some w => exact (key?_of_mem_ofOperation (by simpa [hv] using hf)).2
    refine (nodup_unlessKind _ _ _).append (List.nodup_flatMap.mpr ⟨fun k _ => ?_, ?_⟩)
      fun f hf hf' => ?_
    · cases Assoc.get? item k.1 with
      | none => exact List.nodup_nil
      | some w => exact nodup_ofOperation path k.1 w
    · refine (List.pairwise_map.mp hkeys).imp fun {k k'} hne f hf hf' => hne ?_
      exact Option.some.inj ((hkey k f hf).symm.trans (hkey k' f hf'))
    · -- the flaw of the path is about no operation
      obtain ⟨k, -, hf'⟩ := List.mem_flatMap.mp hf'
      obtain ⟨rfl, -⟩ := mem_unlessKind.mp hf
      cases hkey k _ hf'
  | _ => exact List.nodup_singleton _

/-- **No flaw is found twice.** -/
theorem nodup_flaws {c : Contract} (h : ((c.paths?.getD []).map (·.1)).Nodup) :
    c.flaws.Nodup := by
  refine List.nodup_flatMap.mpr ⟨fun e _ => nodup_ofPath e.1 e.2, ?_⟩
  refine (List.pairwise_map.mp h).imp fun {e e'} hne f hf hf' => hne ?_
  exact (path_of_mem_ofPath hf).symm.trans (path_of_mem_ofPath hf')

/-- An ordered document names no path twice. -/
theorem nodup_paths {c : Contract} (hc : c.document.isOrdered = true) :
    ((c.paths?.getD []).map (·.1)).Nodup := by
  cases hpaths : c.paths? with
  | none => exact List.nodup_nil
  | some paths =>
    obtain ⟨v, hv, hobject⟩ := Option.bind_eq_some_iff.mp hpaths
    have hordered : v.isOrdered = true := Json.isOrdered_of_get? hc hv
    cases v with
    | object members =>
      obtain rfl := Option.some.inj hobject
      exact (Json.isOrdered_object_iff.mp hordered).1.nodup
    | _ => cases hobject

end Contract

end ApiContract
