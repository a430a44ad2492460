import SelectionTree.Value
/-!
Literals: values as they are written in a document, where a variable may stand at any depth.
Evaluation puts the bound values in; it does not look at declared types, so nothing is coerced.
-/
set_option autoImplicit false

namespace SelectionTree

inductive Literal where
  | var (name : String)
  | null
  | bool (b : Bool)
  | num (n : Number)
  | str (s : String)
  | enum (name : String)
  | bin (bytes : List UInt8)
  | list (items : List Literal)
  | obj (fields : List (String × Literal))

structure Directive where
  name : String
  arguments : List (String × Literal)

namespace Literal

def bound? (bindings : Option Bindings) (name : String) : Option Value :=
  bindings.bind (Dict.find? name)

mutual

/-- The value of a literal: a bound variable gives its value as it is, an unbound one gives null,
and an enum value its name as a string. -/
def eval (bindings : Option Bindings) : Literal → Value
  | .var name => (bound? bindings name).getD .null
  | .null => .null
  | .bool b => .bool b
  | .num n => .num n
  | .str s => .str s
  | .enum name => .str name
  | .bin bytes => .bin bytes
  | .list items => .list (evalItems bindings items)
  | .obj fields => .obj (evalFields bindings fields)

def evalItems (bindings : Option Bindings) : List Literal → List Value
  | [] => []
  | l :: rest => l.eval bindings :: evalItems bindings rest

def evalFields (bindings : Option Bindings) : List (String × Literal) → List (String × Value)
  | [] => []
  | (k, l) :: rest => (k, l.eval bindings) :: evalFields bindings rest

end

theorem evalItems_eq (bindings : Option Bindings) (items : List Literal) :
    evalItems bindings items = items.map (eval bindings) := by
  induction items with
  | nil => rfl
  | cons l rest ih => rw [evalItems, ih, List.map_cons]

theorem evalFields_eq (bindings : Option Bindings) (fields : List (String × Literal)) :
    evalFields bindings fields = Dict.mapValues (eval bindings) fields := by
  induction fields with
  | nil => rfl
  | cons e rest ih => rw [evalFields, ih]; rfl

mutual

/-- The unbound variables of a literal, one entry for each occurrence, in order. -/
def unbound (bindings : Option Bindings) : Literal → List String
  | .var name => if (bound? bindings name).isSome then [] else [name]
  | .list items => unboundItems bindings items
  | .obj fields => unboundFields bindings fields
  | .null => []
  | .bool _ => []
  | .num _ => []
  | .str _ => []
  | .enum _ => []
  | .bin _ => []

def unboundItems (bindings : Option Bindings) : List Literal → List String
  | [] => []
  | l :: rest => l.unbound bindings ++ unboundItems bindings rest

def unboundFields (bindings : Option Bindings) : List (String × Literal) → List String
  | [] => []
  | (_, l) :: rest => l.unbound bindings ++ unboundFields bindings rest

end

mutual

def isFinite : Literal → Bool
  | .num n => n.isFinite
  | .list items => finiteItems items
  | .obj fields => finiteFields fields
  | .var _ => true
  | .null => true
  | .bool _ => true
  | .str _ => true
  | .enum _ => true
  | .bin _ => true

def finiteItems : List Literal → Bool
  | [] => true
  | l :: rest => l.isFinite && finiteItems rest

def finiteFields : List (String × Literal) → Bool
  | [] => true
  | (_, l) :: rest => l.isFinite && finiteFields rest

end

theorem finiteItems_iff {items : List Literal} :
    finiteItems items = true ↔ ∀ l ∈ items, l.isFinite = true := by
  induction items with
  | nil => simp [finiteItems]
  | cons l rest ih => simp [finiteItems, ih]

theorem finiteFields_iff {fields : List (String × Literal)} :
    finiteFields fields = true ↔ ∀ e ∈ fields, e.2.isFinite = true := by
  induction fields with
  | nil => simp [finiteFields]
  | cons e rest ih => simp [finiteFields, ih]

mutual

/-- The literal whose objects hold each key once, at every depth. A repeated key keeps its first
place and takes its last literal. -/
def settled : Literal → Literal
  | .list items => .list (settledItems items)
  | .obj fields => .obj (Dict.ofList (settledFields fields))
  | .var name => .var name
  | .null => .null
  | .bool b => .bool b
  | .num n => .num n
  | .str s => .str s
  | .enum name => .enum name
  | .bin bytes => .bin bytes

def settledItems : List Literal → List Literal
  | [] => []
  | l :: rest => l.settled :: settledItems rest

def settledFields : List (String × Literal) → List (String × Literal)
  | [] => []
  | (k, l) :: rest => (k, l.settled) :: settledFields rest

end

theorem settledItems_eq (items : List Literal) : settledItems items = items.map settled := by
  induction items with
  | nil => rfl
  | cons l rest ih => rw [settledItems, ih, List.map_cons]

theorem settledFields_eq (fields : List (String × Literal)) :
    settledFields fields = Dict.mapValues settled fields := by
  induction fields with
  | nil => rfl
  | cons e rest ih => rw [settledFields, ih]; rfl

end Literal

/-- The values of written arguments. A repeated name keeps its first place and takes its last
value. -/
def Arguments.ofLiterals (bindings : Option Bindings) (args : List (String × Literal)) :
    Arguments :=
  Dict.ofList (Literal.evalFields bindings args)

def Directives.ofLiterals (bindings : Option Bindings) (ds : List Directive) : Directives :=
  Dict.ofList (ds.map fun d => (d.name, Arguments.ofLiterals bindings d.arguments))

end SelectionTree
