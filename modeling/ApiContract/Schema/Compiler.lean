import ApiContract.Contract.Basic
import ApiContract.Schema.Compiled
import ApiContract.Schema.Nullable
/-!
# Compiling the schemas of a contract

Every schema is compiled together with the components of its contract, which are put into its root,
so that references into the components mean the same as in the contract.
-/

namespace ApiContract

/-- What the schemas of a contract have in common. -/
structure Compiler where
  components : Option Json
  dialect : Dialect
  formats : Bool
deriving DecidableEq, Repr

namespace Compiler

/-- The compiler for the schemas of a contract. -/
def ofContract (c : Contract) (formats : Bool) : Compiler :=
  ⟨c.components?.map Schema.normalize, c.dialect, formats⟩

/-- The document of a schema: the schema without nullable parts, and the components in its root. -/
def document (x : Compiler) (schema : Json) : Json :=
  match Schema.normalize schema, x.components with
  | .object members, some components => .object (Assoc.insert members "components" components)
  | v, _ => v

/-- Compile a schema that is used on a route. -/
def compile (x : Compiler) (schema : Json) (route : String) : Except Failure Schema.Compiled :=
  match Schema.compile x.dialect x.formats (x.document schema) with
  | .ok compiled => .ok compiled
  | .error fault => .error (.schemaCompilation route ("invalid schema: " ++ fault.message))

end Compiler

namespace Schema.Compiled

/-- The problems of a value. -/
def problems (c : Schema.Compiled) (v : Json) : List Problem :=
  (c.violations v).map Problem.ofViolation

end Schema.Compiled

end ApiContract
