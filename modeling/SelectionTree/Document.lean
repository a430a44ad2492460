import SelectionTree.Literal
import SelectionTree.Registry
/-!
Query documents: selections, the operations that hold them and the fragments they may spread.
-/
set_option autoImplicit false

namespace SelectionTree

structure FieldHead where
  name : String
  aliasName : Option String := none
  arguments : List (String × Literal) := []
  directives : List Directive := []

def FieldHead.responseName (h : FieldHead) : String := h.aliasName.getD h.name

def FieldHead.unbound (h : FieldHead) (bindings : Option Bindings) : List String :=
  Literal.unboundFields bindings h.arguments
    ++ h.directives.flatMap fun d => Literal.unboundFields bindings d.arguments

/-- One entry of a selection set. A field without a selection set has an empty body. -/
inductive Selection where
  | field (head : FieldHead) (body : List Selection)
  | inline (condition : Option String) (body : List Selection)
  | spread (fragment : String)

structure Fragment where
  condition : String
  body : List Selection

abbrev Fragments := Dict Fragment

structure Operation where
  kind : OperationKind
  selections : List Selection

def Operation.rootFields (o : Operation) : List FieldHead :=
  o.selections.filterMap fun
    | .field head _ => some head
    | _ => none

inductive Operations where
  | anonymous (operation : Operation)
  | named (operations : Dict Operation)

structure Document where
  operations : Operations
  fragments : Fragments

inductive ChoiceError where
  | nameNeeded
  | unknown (name : String)
  deriving DecidableEq, Repr

def ChoiceError.message : ChoiceError → String
  | nameNeeded => "Document with multiple operations not supported without an operation name."
  | unknown name => "Operation " ++ name ++ " is not defined in the document."

/-- The operation to run. One without a name is chosen whatever name is asked for; among named ones
the name may be left out if there is only one. -/
def Document.operation (d : Document) (name : Option String) : Except ChoiceError Operation :=
  match d.operations, name with
  | .anonymous operation, _ => .ok operation
  | .named operations, some name =>
    match Dict.find? name operations with
    | some operation => .ok operation
    | none => .error (.unknown name)
  | .named [(_, operation)], none => .ok operation
  | .named _, none => .error .nameNeeded

end SelectionTree
