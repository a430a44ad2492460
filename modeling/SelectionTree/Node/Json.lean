import SelectionTree.Json.Reading
import SelectionTree.Node
/-!
The JSON of selection trees. Attributes that are absent are left out when written and may be absent
or null when read. A node is read from the outline of an object, or of a row of its attributes in
order. Members of unknown names are not looked at, so they need not have a value.
-/
set_option autoImplicit false

namespace SelectionTree

def Arguments.toJson (args : Arguments) : Json := .obj (Value.fieldsToJson args)

def Directives.toJson (ds : Directives) : Json := .obj (ds.map fun (k, args) => (k, args.toJson))

def Arguments.ofJson? : Json → Option Arguments
  | .obj members => some (Dict.ofList (Value.fieldsOfJson members))
  | _ => none

def Directives.ofJson? : Json → Option Directives
  | .obj members => do
    let entries ← members.mapM fun (k, j) => (Arguments.ofJson? j).map fun args => (k, args)
    some (Dict.ofList entries)
  | _ => none

def optionalMember (name : String) (j : Option Json) : List (String × Json) :=
  match j with
  | some j => [(name, j)]
  | none => []

def Attributes.members (a : Attributes) (children : Option Json) : List (String × Json) :=
  [("name", .str a.name)]
    ++ optionalMember "alias" (a.aliasName.map .str)
    ++ optionalMember "fragmentType" (a.condition.map .str)
    ++ optionalMember "path" (a.path.map .str)
    ++ optionalMember "returnType" (a.returnType.map .str)
    ++ optionalMember "fields" children
    ++ optionalMember "arguments" (a.arguments.map Arguments.toJson)
    ++ optionalMember "directives" (a.directives.map Directives.toJson)

namespace Node

mutual

def toJson : Node → Json
  | leaf a => .obj (a.members none)
  | branch a children => .obj (a.members (some (.arr (listToJson children))))

def listToJson : List Node → List Json
  | [] => []
  | n :: rest => n.toJson :: listToJson rest

end

structure Draft where
  name : Option String := none
  aliasName : Option (Option String) := none
  condition : Option (Option String) := none
  path : Option (Option String) := none
  returnType : Option (Option String) := none
  children : Option (Option (List Node)) := none
  arguments : Option (Option Arguments) := none
  directives : Option (Option Directives) := none

def string? : Json.Outline → Option String
  | .leaf (some (.str s)) => some s
  | _ => none

def nullable {α : Type} (read : Json.Outline → Option α) : Json.Outline → Option (Option α)
  | .leaf (some .null) => some none
  | o => (read o).map some

def arguments? (o : Json.Outline) : Option Arguments := o.value?.bind Arguments.ofJson?

def directives? (o : Json.Outline) : Option Directives := o.value?.bind Directives.ofJson?

/-- Fills a place that is still empty. -/
def fill {α : Type} (place : Option α) (x : Option α) : Option (Option α) :=
  match place, x with
  | none, some x => some (some x)
  | _, _ => none

/-- Takes a member other than the children in. A known one may come only once; others are set
aside. -/
def Draft.set (d : Draft) (name : String) (o : Json.Outline) : Option Draft :=
  match name with
  | "name" => (fill d.name (string? o)).map fun x => { d with name := x }
  | "alias" => (fill d.aliasName (nullable string? o)).map fun x => { d with aliasName := x }
  | "fragmentType" => (fill d.condition (nullable string? o)).map fun x => { d with condition := x }
  | "path" => (fill d.path (nullable string? o)).map fun x => { d with path := x }
  | "returnType" =>
    (fill d.returnType (nullable string? o)).map fun x => { d with returnType := x }
  | "arguments" =>
    (fill d.arguments (nullable arguments? o)).map fun x => { d with arguments := x }
  | "directives" =>
    (fill d.directives (nullable directives? o)).map fun x => { d with directives := x }
  | _ => some d

def Draft.setChildren (d : Draft) (x : Option (Option (List Node))) : Option Draft :=
  (fill d.children x).map fun x => { d with children := x }

def Draft.node? (d : Draft) : Option Node :=
  d.name.map fun name =>
    ofChildren
      { name
        aliasName := d.aliasName.join
        condition := d.condition.join
        path := d.path.join
        returnType := d.returnType.join
        arguments := d.arguments.join
        directives := d.directives.join }
      d.children.join

/-- The names of the attributes in the order in which a row holds them. -/
def memberNames : List String :=
  ["name", "alias", "fragmentType", "path", "returnType", "fields", "arguments", "directives"]

mutual

def ofOutline? : Json.Outline → Option Node
  | .obj members => (ofMembers members {}).bind Draft.node?
  | .arr items => (ofRow memberNames items {}).bind Draft.node?
  | .leaf _ => none

def ofMembers : List (String × Json.Outline) → Draft → Option Draft
  | [], d => some d
  | (k, o) :: rest, d =>
    (if k = "fields" then d.setChildren (childrenOf? o) else d.set k o).bind (ofMembers rest)

def ofRow : List String → List Json.Outline → Draft → Option Draft
  | _, [], d => some d
  | [], _ :: _, _ => none
  | k :: ks, o :: rest, d =>
    (if k = "fields" then d.setChildren (childrenOf? o) else d.set k o).bind (ofRow ks rest)

def childrenOf? : Json.Outline → Option (Option (List Node))
  | .leaf (some .null) => some none
  | .arr items => (listOf? items).map some
  | _ => none

def listOf? : List Json.Outline → Option (List Node)
  | [] => some []
  | o :: rest => (ofOutline? o).bind fun n => (listOf? rest).map (n :: ·)

end

end Node

/-- How deep the containers nest that are looked at when a tree is read. -/
def maxNesting : Nat := 127

namespace Node

def ofText? (s : String) : Option Node :=
  (Json.Outline.ofText? s).bind fun o => ofOutline? (o.cut maxNesting)

end Node

namespace Tree

def toJson (t : Tree) : Json :=
  .obj [("operation", .str t.kind.word), ("fields", .arr (Node.listToJson t.roots))]

/-- A kind is read from its keyword, or from an object with the keyword over null. -/
def kindOf? : Json.Outline → Option OperationKind
  | .leaf (some (.str s)) => OperationKind.ofWord? s
  | .obj [(s, .leaf (some .null))] => OperationKind.ofWord? s
  | _ => none

def once? (name : String) (members : List (String × Json.Outline)) : Option Json.Outline :=
  match members.filter fun m => m.1 = name with
  | [(_, o)] => some o
  | _ => none

def ofParts? (kind : Json.Outline) : Json.Outline → Option Tree
  | .arr items => do
    let kind ← kindOf? kind
    let roots ← Node.listOf? items
    some ⟨kind, roots⟩
  | _ => none

def ofOutline? : Json.Outline → Option Tree
  | .obj members => do
    let kind ← once? "operation" members
    let roots ← once? "fields" members
    ofParts? kind roots
  | .arr [kind, roots] => ofParts? kind roots
  | _ => none

def ofText? (s : String) : Option Tree :=
  (Json.Outline.ofText? s).bind fun o => ofOutline? (o.cut maxNesting)

end Tree

end SelectionTree
