import SelectionTree.Event
/-!
Merging of repeated fields. On a level the first occurrence stands, and later ones only bring their
nested selections in. Below it two lists are merged by response name: the first occurrence stands
if it is a branch selected under the same type condition, otherwise the second takes its place.
-/
set_option autoImplicit false

namespace SelectionTree

inductive ConversionError where
  | schemaMismatch (path : String)
  | missingRoot (kind : OperationKind)
  | unknownFragment (name : String)
  | cyclicFragment (name : String)
  deriving DecidableEq, Repr

def ConversionError.message : ConversionError → String
  | schemaMismatch path =>
    "Error matching query to schema: could not find type definition for field '" ++ path ++ "'"
  | missingRoot kind => "Schema has no root type for " ++ kind.word ++ " operations."
  | unknownFragment name => "Fragment " ++ name ++ " is not defined."
  | cyclicFragment name => "Fragment " ++ name ++ " is spread within its own expansion."

def joinPath (parent segment : String) : String :=
  if parent = "" then segment else parent ++ "." ++ segment

/-- Updates the first entry that passes a test, or adds one at the end. -/
def upsert {α : Type} {m : Type → Type} [Monad m] (test : α → Bool) (update : α → m α) (new : α) :
    List α → m (List α)
  | [] => pure [new]
  | x :: xs =>
    if test x then do
      let y ← update x
      pure (y :: xs)
    else do
      let ys ← upsert test update new xs
      pure (x :: ys)

namespace Node

/-- Puts a node in the place of the one that answers under its name, or at the end. -/
def put (n : Node) : List Node → List Node
  | [] => [n]
  | x :: xs => if x.responseName = n.responseName then n :: xs else x :: put n xs

/-- One node for each response name, in the order of first occurrence: the last one of the name. -/
def distinct (ns : List Node) : List Node := ns.foldl (fun done n => put n done) []

/-- The composite type below a node of a list. Lists below it are merged only if there is one. -/
def typeBelow (r : Registry) (parent : Composite) (path : String) (a : Attributes) :
    Except ConversionError Composite :=
  match r.nested? parent a.condition a.name with
  | some type => .ok type
  | none => .error (.schemaMismatch (joinPath path a.responseName))

/-- What two nodes of one response name become. The children of a branch that stays are merged with
those of the other node, given its type and path. -/
def combine (r : Registry) (parent : Composite) (path : String)
    (mergeChildren : Composite → String → List Node → Except ConversionError (List Node))
    (second first : Node) : Except ConversionError Node :=
  if first.condition ≠ second.condition then .ok second
  else
    match first with
    | leaf _ => .ok second
    | branch a children => do
      let type ← typeBelow r parent path a
      let merged ← mergeChildren type (joinPath path a.responseName) (distinct children)
      .ok (branch a merged)

mutual

def mergeLists (r : Registry) (parent : Composite) (path : String) (first : List Node) :
    List Node → Except ConversionError (List Node)
  | [] => .ok first
  | n :: rest => do
    let merged ← mergeNode r parent path first n
    mergeLists r parent path merged rest

def mergeNode (r : Registry) (parent : Composite) (path : String) (first : List Node) :
    Node → Except ConversionError (List Node)
  | leaf a =>
    upsert (fun x => x.responseName = a.responseName)
      (combine r parent path (fun _ _ children => .ok children) (leaf a)) (leaf a) first
  | branch a children =>
    upsert (fun x => x.responseName = a.responseName)
      (combine r parent path (fun type path firstChildren =>
        mergeLists r type path firstChildren children) (branch a children))
      (branch a children) first

end

def merge (r : Registry) (parent : Composite) (path : String) (first second : List Node) :
    Except ConversionError (List Node) :=
  mergeLists r parent path (distinct first) second

/-- What a node of a level becomes when its field is selected again. -/
def absorb (r : Registry) (parent : Composite) (path : String) (again first : Node) :
    Run ConversionError Node :=
  match again, first with
  | leaf _, first => pure first
  | branch _ _, leaf a => do
    Run.tell [.selectionsDiscarded a.responseName]
    pure (leaf a)
  | branch _ more, branch a children => do
    let type ← Run.ofExcept (typeBelow r parent path a)
    let merged ← Run.ofExcept (merge r type (joinPath path a.responseName) children more)
    pure (branch a merged)

def addToLevel (r : Registry) (parent : Composite) (path : String) (level : List Node) (n : Node) :
    Run ConversionError (List Node) :=
  upsert (fun x => x.key parent.name = n.key parent.name) (absorb r parent path n) n level

end Node

end SelectionTree
