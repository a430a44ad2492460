import SelectionTree.TypeRef
/-!
What the expansion of a selection asks of a schema: the composite type of a name and the root type
of a kind of operation. Scalars, enums and input types are not composite and are never found.
-/
set_option autoImplicit false

namespace SelectionTree

inductive OperationKind where
  | query
  | mutation
  | subscription
  deriving DecidableEq, Repr

namespace OperationKind

def word : OperationKind → String
  | query => "query"
  | mutation => "mutation"
  | subscription => "subscription"

def conventionalRoot : OperationKind → String
  | query => "Query"
  | mutation => "Mutation"
  | subscription => "Subscription"

def ofWord? (s : String) : Option OperationKind :=
  [query, mutation, subscription].find? fun k => k.word = s

end OperationKind

inductive CompositeKind where
  | object
  | interface
  | union
  deriving DecidableEq, Repr

def CompositeKind.word : CompositeKind → String
  | object => "object"
  | interface => "interface"
  | union => "union"

structure FieldDeclaration where
  name : String
  type : TypeRef
  deriving DecidableEq, Repr

structure Composite where
  name : String
  kind : CompositeKind
  fields : List FieldDeclaration
  deriving DecidableEq, Repr

def Composite.field? (c : Composite) (name : String) : Option FieldDeclaration :=
  c.fields.find? fun f => f.name = name

structure Registry where
  type? : String → Option Composite
  root? : OperationKind → Option Composite

namespace Registry

def conventional (type? : String → Option Composite) : Registry :=
  ⟨type?, fun kind => type? kind.conventionalRoot⟩

def ofTypes (types : List Composite) (roots : Option (OperationKind → Option String)) : Registry :=
  let type? name := types.find? fun c => c.name = name
  match roots with
  | none => conventional type?
  | some root => ⟨type?, fun kind => (root kind).bind type?⟩

/-- The type that declares the fields selected at a place: the one that the type condition names,
the enclosing type where there is no condition. -/
def owner? (r : Registry) (parent : Composite) (condition : Option String) : Option Composite :=
  match condition with
  | some name => r.type? name
  | none => some parent

def declared? (r : Registry) (parent : Composite) (condition : Option String) (field : String) :
    Option TypeRef :=
  (r.owner? parent condition).bind fun owner => (owner.field? field).map FieldDeclaration.type

def nested? (r : Registry) (parent : Composite) (condition : Option String) (field : String) :
    Option Composite :=
  (r.declared? parent condition field).bind fun type => r.type? type.base

end Registry

end SelectionTree
