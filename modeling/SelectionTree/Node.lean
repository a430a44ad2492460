import SelectionTree.Registry
import SelectionTree.Value
/-!
Selection trees: the fields that an operation selects, with fragments expanded and repeated fields
merged. A node is one selected field.
-/
set_option autoImplicit false

namespace SelectionTree

structure Attributes where
  name : String
  aliasName : Option String := none
  condition : Option String := none
  path : Option String := none
  returnType : Option String := none
  arguments : Option Arguments := none
  directives : Option Directives := none

namespace Attributes

def responseName (a : Attributes) : String := a.aliasName.getD a.name

/-- The key that decides which selections of one level are the same field: the response name and
the type the field was selected on. Fields of fragments on different types stay apart. -/
def key (a : Attributes) (parent : String) : String :=
  a.responseName ++ "." ++ a.condition.getD parent

end Attributes

/-- A selected field: a leaf, or a branch with the fields selected below it. -/
inductive Node where
  | leaf (attributes : Attributes)
  | branch (attributes : Attributes) (children : List Node)

namespace Node

def attributes : Node → Attributes
  | leaf a => a
  | branch a _ => a

def children? : Node → Option (List Node)
  | leaf _ => none
  | branch _ children => some children

def ofChildren (a : Attributes) : Option (List Node) → Node
  | none => leaf a
  | some children => branch a children

def responseName (n : Node) : String := n.attributes.responseName

def condition (n : Node) : Option String := n.attributes.condition

def key (n : Node) (parent : String) : String := n.attributes.key parent

@[simp] theorem attributes_leaf (a : Attributes) : (leaf a).attributes = a := rfl

@[simp] theorem attributes_branch (a : Attributes) (ns : List Node) :
    (branch a ns).attributes = a := rfl

@[simp] theorem attributes_ofChildren (a : Attributes) (ns : Option (List Node)) :
    (ofChildren a ns).attributes = a := by
  cases ns <;> rfl

@[simp] theorem children?_ofChildren (a : Attributes) (ns : Option (List Node)) :
    (ofChildren a ns).children? = ns := by
  cases ns <;> rfl

end Node

structure Tree where
  kind : OperationKind
  roots : List Node

end SelectionTree
