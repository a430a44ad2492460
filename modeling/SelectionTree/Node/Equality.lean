import SelectionTree.Node
/-!
Equality of selection trees: nodes and items of lists compare in order, arguments, directives and
the fields of objects in any order.
-/
set_option autoImplicit false

namespace SelectionTree

namespace Value

mutual

def same : Value → Value → Bool
  | .null, .null => true
  | .bool a, .bool b => a = b
  | .num a, .num b => a.same b
  | .str a, .str b => a = b
  | .enum a, .enum b => a = b
  | .bin a, .bin b => a = b
  | .list a, .list b => sameItems a b
  | .obj a, .obj b => a.length = b.length && sameFields a b
  | _, _ => false

def sameItems : List Value → List Value → Bool
  | [], [] => true
  | a :: as, b :: bs => a.same b && sameItems as bs
  | _, _ => false

/-- Whether every field of the first is found with an equal value in the second. -/
def sameFields : List (String × Value) → List (String × Value) → Bool
  | [], _ => true
  | (k, a) :: as, bs =>
    (match Dict.find? k bs with
      | some b => a.same b
      | none => false) && sameFields as bs

end

end Value

def Arguments.same (a b : Arguments) : Bool := a.length = b.length && Value.sameFields a b

def Directives.same (a b : Directives) : Bool :=
  a.length = b.length && a.all fun (k, x) =>
    match Dict.find? k b with
    | some y => Arguments.same x y
    | none => false

def sameOption {α : Type} (same : α → α → Bool) : Option α → Option α → Bool
  | none, none => true
  | some a, some b => same a b
  | _, _ => false

def Attributes.same (a b : Attributes) : Bool :=
  a.name = b.name && a.aliasName = b.aliasName && a.condition = b.condition && a.path = b.path
    && a.returnType = b.returnType && sameOption Arguments.same a.arguments b.arguments
    && sameOption Directives.same a.directives b.directives

namespace Node

mutual

def same : Node → Node → Bool
  | leaf a, leaf b => a.same b
  | branch a as, branch b bs => a.same b && sameList as bs
  | _, _ => false

def sameList : List Node → List Node → Bool
  | [], [] => true
  | a :: as, b :: bs => a.same b && sameList as bs
  | _, _ => false

end

end Node

def Tree.same (a b : Tree) : Bool := a.kind = b.kind && Node.sameList a.roots b.roots

end SelectionTree
