import SelectionTree.Document
import SelectionTree.Merge
import SelectionTree.Node.Json
/-!
Conversion of an operation into its selection tree. The selections are walked depth first in the
order in which they are written; fragments are expanded in place, and a fragment may not be spread
within its own expansion, which is what makes the walk end.
-/
set_option autoImplicit false

namespace SelectionTree

structure Options where
  paths : Bool := false
  returnTypes : Bool := false
  deriving DecidableEq, Repr

structure Request where
  registry : Registry
  fragments : Fragments := []
  bindings : Option Bindings := none
  options : Options := {}

/-- Where a selection stands: the composite type around it, the path of the field around it, and
the innermost type condition below that field. -/
structure Place where
  parent : Composite
  path : String
  condition : Option String

def Fragments.unspread (fragments : Fragments) (chain : List String) : Nat :=
  (fragments.filter fun f => !chain.contains f.1).length

theorem Fragments.unspread_cons_lt {fragments : Fragments} {chain : List String} {name : String}
    {f : Fragment} (new : name ∉ chain) (found : Dict.find? name fragments = some f) :
    Fragments.unspread fragments (name :: chain) < Fragments.unspread fragments chain := by
  unfold Fragments.unspread
  induction fragments with
  | nil => simp at found
  | cons e rest ih =>
    obtain ⟨k, g⟩ := e
    have fewer : (rest.filter fun f => !(name :: chain).contains f.1).length
        ≤ (rest.filter fun f => !chain.contains f.1).length := by
      simp only [← List.countP_eq_length_filter]
      apply List.countP_mono_left
      intro x _ hx
      simp at hx ⊢
      exact hx.2
    by_cases hk : k = name
    · subst hk
      simp only [List.filter_cons]
      simp [new]
      simpa using Nat.lt_succ_of_le fewer
    · have ih := ih (by simpa [Dict.find?, hk] using found)
      simp only [List.filter_cons]
      by_cases hc : k ∈ chain
      · simpa [hc] using ih
      · simpa [hc, hk] using ih

namespace Request

def typenameField : String := "__typename"

def typenameType : String := "String!"

def returnType? (q : Request) (place : Place) (field : String) : Option String :=
  match q.registry.declared? place.parent place.condition field with
  | some type => some type.text
  | none => if field = typenameField then some typenameType else none

def unlessEmpty {α : Type} (d : Dict α) : Option (Dict α) := if d.isEmpty then none else some d

def attributes (q : Request) (place : Place) (head : FieldHead) : Attributes where
  name := head.name
  aliasName := head.aliasName
  condition := place.condition
  path := if q.options.paths then some (joinPath place.path head.responseName) else none
  returnType := if q.options.returnTypes then q.returnType? place head.name else none
  arguments := unlessEmpty (Arguments.ofLiterals q.bindings head.arguments)
  directives := unlessEmpty (Directives.ofLiterals q.bindings head.directives)

def enter (q : Request) (place : Place) (head : FieldHead) : Except ConversionError Place :=
  let path := joinPath place.path head.responseName
  match q.registry.nested? place.parent place.condition head.name with
  | some type => .ok ⟨type, path, none⟩
  | none => .error (.schemaMismatch path)

def add (q : Request) (place : Place) (level : List Node) (n : Node) :
    Run ConversionError (List Node) :=
  n.addToLevel q.registry place.parent place.path level

def addAll (q : Request) (place : Place) : List Node → List Node → Run ConversionError (List Node)
  | level, [] => pure level
  | level, n :: rest => do
    let level ← q.add place level n
    q.addAll place level rest

/-- Adds the fields of some selections to a level. `chain` holds the fragments whose expansion the
selections belong to. -/
def expand (q : Request) (place : Place) (chain : List String) (level : List Node) :
    List Selection → Run ConversionError (List Node)
  | [] => pure level
  | .field head body :: rest => do
    let children ←
      if body.isEmpty then pure none
      else do
        let inner ← Run.ofExcept (q.enter place head)
        let nodes ← q.expand inner chain [] body
        pure (some nodes)
    Run.tell ((head.unbound q.bindings).map .unboundVariable)
    let level ← q.add place level (Node.ofChildren (q.attributes place head) children)
    q.expand place chain level rest
  | .inline own body :: rest => do
    let condition := own <|> place.condition
    Run.tell [.inlineExpanded condition]
    let nodes ← q.expand { place with condition } chain [] body
    let level ← q.addAll place level nodes
    q.expand place chain level rest
  | .spread name :: rest =>
    if _ : name ∈ chain then Run.fail (.cyclicFragment name)
    else
      match _ : Dict.find? name q.fragments with
      | none => Run.fail (.unknownFragment name)
      | some fragment => do
        Run.tell [.spreadExpanded name fragment.condition]
        let nodes ←
          q.expand { place with condition := some fragment.condition } (name :: chain) []
            fragment.body
        let level ← q.addAll place level nodes
        q.expand place chain level rest
termination_by selections => (q.fragments.unspread chain, sizeOf selections)
decreasing_by
  all_goals first
    | exact Prod.Lex.left _ _ (Fragments.unspread_cons_lt (by assumption) (by assumption))
    | (apply Prod.Lex.right
       simp only [List.cons.sizeOf_spec, Selection.field.sizeOf_spec, Selection.inline.sizeOf_spec]
       omega)

def tree (q : Request) (operation : Operation) : Run ConversionError Tree := do
  let root ← Run.ofExcept (match q.registry.root? operation.kind with
    | some root => .ok root
    | none => .error (.missingRoot operation.kind))
  let roots ← q.expand ⟨root, "", none⟩ [] [] operation.selections
  let tree : Tree := ⟨operation.kind, roots⟩
  Run.tell [.treeConverted tree]
  pure tree

def convert (q : Request) (operation : Operation) : Run ConversionError Tree :=
  (q.tree operation).within (.conversion operation.kind)

def convertToJson (q : Request) (operation : Operation) : Run ConversionError String :=
  Run.within .rendering do
    let tree ← q.convert operation
    pure tree.toJson.text

end Request

end SelectionTree
