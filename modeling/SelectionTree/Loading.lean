import SelectionTree.Conversion
import SelectionTree.Grammar.Query
import SelectionTree.Grammar.Schema
/-!
Loading of documents, schemas, variable values and options, with what is reported of it. The whole
text of a document has to match before its definitions are gathered, so a fault in the text is found
before two definitions of one name are.
-/
set_option autoImplicit false

namespace SelectionTree

inductive DocumentError where
  | malformed
  | severalOperations
  | repeatedOperation (name : String)
  | repeatedFragment (name : String)
  | noOperation
  deriving DecidableEq, Repr

def DocumentError.message : DocumentError → String
  | malformed => "document does not match the grammar"
  | severalOperations => "document contains multiple operations"
  | repeatedOperation name => "operation " ++ name ++ " is defined twice"
  | repeatedFragment name => "fragment " ++ name ++ " is defined twice"
  | noOperation => "document does not contain an operation"

structure Gathering where
  operations : Option Operations := none
  fragments : Fragments := []

namespace Gathering

/-- Takes one more definition in. An operation without a name stands alone, and names are unique
among operations and among fragments. -/
def add (g : Gathering) : Grammar.QueryItem → Except DocumentError Gathering
  | .operation none operation =>
    match g.operations with
    | none => .ok { g with operations := some (.anonymous operation) }
    | some _ => .error .severalOperations
  | .operation (some name) operation =>
    match g.operations with
    | none => .ok { g with operations := some (.named [(name, operation)]) }
    | some (.anonymous _) => .error .severalOperations
    | some (.named operations) =>
      match Dict.find? name operations with
      | some _ => .error (.repeatedOperation name)
      | none => .ok { g with operations := some (.named (Dict.insert name operation operations)) }
  | .fragment name fragment =>
    match Dict.find? name g.fragments with
    | some _ => .error (.repeatedFragment name)
    | none => .ok { g with fragments := Dict.insert name fragment g.fragments }

def document (g : Gathering) : Except DocumentError Document :=
  match g.operations with
  | some operations => .ok ⟨operations, g.fragments⟩
  | none => .error .noOperation

end Gathering

def Document.ofText (s : String) : Except DocumentError Document :=
  match Grammar.queryItems? s.toList with
  | none => .error .malformed
  | some items => (items.foldlM Gathering.add {}).bind Gathering.document

def Schema.ofText (s : String) : Run SchemaError Schema := do
  let definitions ← Run.ofExcept (Schema.definitions s)
  let schema := Schema.ofDefinitions definitions
  Run.tell [.schemaLoaded schema.types.length]
  pure schema

def Bindings.ofJson : Json → Bindings
  | .obj members => Dict.ofList (Value.fieldsOfJson members)
  | _ => []

/-- The variable values of some JSON. Anything but an object binds none, and is reported. -/
def Bindings.load {ε : Type} (j : Json) : Run ε Bindings := do
  match j with
  | .obj _ => pure ()
  | other => Run.tell [.variablesIgnored (Value.ofJson other)]
  pure (Bindings.ofJson j)

namespace Options

def flag? (name : String) (j : Json) : Option Bool :=
  match j.member? name with
  | none => some false
  | some (.bool b) => some b
  | some _ => none

/-- Options are an object of flags, other members set aside, or a row of at most two flags. -/
def ofJson? : Json → Option Options
  | .obj members => do
    let paths ← flag? "includeFieldPath" (.obj members)
    let returnTypes ← flag? "includeReturnTypes" (.obj members)
    some ⟨paths, returnTypes⟩
  | .arr [] => some {}
  | .arr [.bool paths] => some { paths }
  | .arr [.bool paths, .bool returnTypes] => some ⟨paths, returnTypes⟩
  | _ => none

def toJson (o : Options) : Json :=
  .obj [("includeFieldPath", .bool o.paths), ("includeReturnTypes", .bool o.returnTypes)]

end Options

end SelectionTree
