import SelectionTree.Dict
import SelectionTree.Registry
/-!
Schemas: what a list of definitions declares. Definitions and extensions of one type are gathered
under its name, and only composite types are kept.
-/
set_option autoImplicit false

namespace SelectionTree

structure Roots where
  query : Option String := none
  mutation : Option String := none
  subscription : Option String := none
  deriving DecidableEq, Repr

namespace Roots

def get (r : Roots) : OperationKind → Option String
  | .query => r.query
  | .mutation => r.mutation
  | .subscription => r.subscription

def set (r : Roots) (name : String) : OperationKind → Roots
  | .query => { r with query := some name }
  | .mutation => { r with mutation := some name }
  | .subscription => { r with subscription := some name }

def override (r s : Roots) : Roots :=
  ⟨s.query <|> r.query, s.mutation <|> r.mutation, s.subscription <|> r.subscription⟩

end Roots

inductive TypeBody where
  | scalar
  | object (fields : List FieldDeclaration)
  | interface (fields : List FieldDeclaration)
  | union
  | enumeration
  | inputObject

def TypeBody.composite? : TypeBody → Option (CompositeKind × List FieldDeclaration)
  | object fields => some (.object, fields)
  | interface fields => some (.interface, fields)
  | union => some (.union, [])
  | scalar => none
  | enumeration => none
  | inputObject => none

/-- A definition of a schema document, or an extension of one. -/
inductive Definition where
  | schema (extension : Bool) (roots : Roots)
  | type (extension : Bool) (name : String) (body : TypeBody)
  | directive (name : String)

structure Schema where
  types : Dict (CompositeKind × List FieldDeclaration) := []
  roots : Option Roots := none

namespace Schema

/-- Gathers a composite definition under its name. The first one fixes the kind, and fields are
added behind those that are there. -/
def addType (types : Dict (CompositeKind × List FieldDeclaration)) (name : String)
    (kind : CompositeKind) (fields : List FieldDeclaration) :
    Dict (CompositeKind × List FieldDeclaration) :=
  match Dict.find? name types with
  | some (k, fs) => Dict.insert name (k, fs ++ fields) types
  | none => Dict.insert name (kind, fields) types

/-- Takes one more definition in. A schema definition, an extension included, makes the root types
explicit. -/
def add (s : Schema) : Definition → Schema
  | .schema _ roots => { s with roots := some ((s.roots.getD {}).override roots) }
  | .type _ name body =>
    match body.composite? with
    | some (kind, fields) => { s with types := addType s.types name kind fields }
    | none => s
  | .directive _ => s

def ofDefinitions (definitions : List Definition) : Schema := definitions.foldl add {}

def type? (s : Schema) (name : String) : Option Composite :=
  (Dict.find? name s.types).map fun (kind, fields) => ⟨name, kind, fields⟩

/-- The name of a root type: the explicit one if root types are explicit, else the convention. -/
def rootName? (s : Schema) (kind : OperationKind) : Option String :=
  match s.roots with
  | some roots => roots.get kind
  | none => some kind.conventionalRoot

def registry (s : Schema) : Registry :=
  ⟨s.type?, fun kind => (s.rootName? kind).bind s.type?⟩

end Schema

end SelectionTree
