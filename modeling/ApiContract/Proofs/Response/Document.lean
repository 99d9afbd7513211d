import ApiContract.Proofs.Schema.Plain
import ApiContract.Proofs.Schema.Within
import ApiContract.Response
/-!
# The document of a response schema

The schema of a body is compiled as the only property of a document. The document accepts an object
that holds the body exactly if the schema accepts the body, with its references resolved inside of
the document; and if these lead into the components, exactly if the schema on its own accepts it.
-/

namespace ApiContract

open Schema

/-! ## Wrapping -/

namespace ResponseValidators

variable {x : Compiler} {schema : Json} {route : String} {c : Compiled}

/-- The members of the document of a schema, apart from the components. -/
def wrapped (schema : Json) : Assoc Json :=
  plainMembers [("response", normalize schema)] none true

theorem normalize_wrap (schema : Json) : normalize (wrap schema) = .object (wrapped schema) := by
  have hwrap : wrap schema = .object (plainMembers [("response", schema)] none true) := by
    simp only [wrap, plainMembers, Json.ofMembers, Assoc.ofList, Assoc.insertAll, Assoc.insert,
      List.foldl_cons, List.foldl_nil, String.reduceLT, String.reduceEq, Option.map_none,
      Option.toList_none, List.nil_append, if_true, if_false]
  rw [hwrap, normalize_plain, widen_of_get?_none (by rfl)]
  rfl

theorem inside_wrapped (hc : x.compile (wrap schema) route = .ok c) :
    Inside x.dialect x.formats (.object (wrapped schema)) (normalize schema) := by
  rw [Compiler.compile_eq_ok_iff, normalize_wrap, Schema.compile_eq_ok_iff,
    accepts_withComponents] at hc
  have hwhole : Inside x.dialect x.formats (.object (wrapped schema)) (.object (wrapped schema)) :=
    ⟨hc.1, fun _ he => he⟩
  exact hwhole.property (d := ("response", normalize schema)) List.mem_cons_self

/-- **The document accepts a body in its property exactly if the schema accepts the body.** -/
theorem accepts_wrapped_iff (hc : x.compile (wrap schema) route = .ok c) (body : Json) :
    c.accepts (.object [("response", body)]) = true ↔
      x.AcceptsWithin (wrap schema) schema route body := by
  have hschema : c.schema = (read x.dialect x.formats (.object (wrapped schema))).result := by
    rw [Compiler.compile_eq_ok_iff, normalize_wrap, Schema.compile_eq_ok_iff] at hc
    rw [(linked_of_link hc.2).schema, read_withComponents]
  have hbody : Assoc.get? [("response", body)] "response" = some body := rfl
  have hfuel : c.Ample [] body (c.followBound (.object [("response", body)])) :=
    c.ample_followBound (Nat.le_of_lt (depth_lt_of_mem_members (Assoc.mem_of_get? hbody)))
  show (judge (c.meaning (c.followBound (.object [("response", body)]))) .root
    (.object [("response", body)]) c.schema).accepted = true ↔ _
  rw [hschema, wrapped, accepted_judge_read_plain]
  simp only [List.forall_mem_singleton, hbody, Option.some.injEq, forall_eq', Option.getD_none,
    List.not_mem_nil, false_imp_iff, implies_true, and_true]
  exact Compiler.accepted_judge_within hc (normalize_wrap schema) (inside_wrapped hc) hfuel _

/-- And then the schema on its own, if all references lead into the components. -/
theorem acceptsWithin_wrap_iff (hc : x.compile (wrap schema) route = .ok c)
    (hinto : c.StaysInComponents) (body : Json) :
    x.AcceptsWithin (wrap schema) schema route body ↔ x.Accepts schema route body :=
  Compiler.acceptsWithin_iff_accepts hc (normalize_wrap schema)
    (get?_plainMembers (by decide) (by decide) (by decide)) hinto (inside_wrapped hc)

end ResponseValidators

end ApiContract
