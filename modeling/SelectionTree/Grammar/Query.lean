import SelectionTree.Document
import SelectionTree.Grammar.Literal
/-!
The grammar of query documents: operations and fragments, and the selection sets that they hold.
-/
set_option autoImplicit false

namespace SelectionTree.Grammar

/-- The arguments of a query. Every number that is written in them has to be finite. -/
def queryArguments : Reader (List (String × Literal)) := fun cs => do
  let (args, cs) ← arguments false cs
  if Literal.finiteFields args then some (Literal.settledFields args, cs) else none

def queryDirective : Reader Directive := fun cs => do
  let (d, cs) ← directive false cs
  if Literal.finiteFields d.arguments then
    some (⟨d.name, Literal.settledFields d.arguments⟩, cs)
  else none

def queryDirectives (cs : List Char) : List Directive × List Char := Reader.many queryDirective cs

def label : Reader String := fun cs => do
  let (name, cs) ← name cs
  let cs ← after ":" cs
  some (name, cs)

def fieldHead : Reader FieldHead := fun cs => do
  let (aliasName, cs) := Reader.optional label cs
  let (name, cs) ← name cs
  let (args, cs) := Reader.optional queryArguments cs
  let (directives, cs) := queryDirectives cs
  some ({ name, aliasName, arguments := args.getD [], directives }, cs)

def field (selectionSet : Reader (List Selection)) : Reader Selection := fun cs => do
  let (head, cs) ← fieldHead cs
  let (body, cs) := Reader.optional selectionSet cs
  some (.field head (body.getD []), cs)

def typeCondition : Reader String := fun cs => do
  let cs ← after "on" cs
  name cs

def inlineFragment (selectionSet : Reader (List Selection)) : Reader Selection := fun cs => do
  let cs ← after "..." cs
  let (condition, cs) := Reader.optional typeCondition cs
  let (_, cs) := queryDirectives cs
  let (body, cs) ← selectionSet cs
  some (.inline condition body, cs)

def fragmentSpread : Reader Selection := fun cs => do
  let cs ← after "..." cs
  let (fragment, cs) ← name cs
  let (_, cs) := queryDirectives cs
  some (.spread fragment, cs)

/-- One selection. What can be read as a fragment in place is not a spread. -/
def selection (selectionSet : Reader (List Selection)) : Reader Selection :=
  Reader.orElse (field selectionSet)
    (Reader.orElse (inlineFragment selectionSet) fragmentSpread)

def selectionSetWithin : Nat → Reader (List Selection)
  | 0, _ => none
  | depth + 1, cs => between1 "\x7b" "\x7d" (selection (selectionSetWithin depth)) cs

def selectionSet : Reader (List Selection) := fun cs => selectionSetWithin (cs.length + 1) cs

def finiteDefault : Reader Literal := fun cs => do
  let (l, cs) ← defaultValue cs
  if l.isFinite then some (l, cs) else none

def variableDefinition : Reader Unit := fun cs => do
  let (_, cs) ← variableName cs
  let cs ← after ":" cs
  let (_, cs) ← typeRef cs
  let (_, cs) := queryDirectives cs
  let (_, cs) := Reader.optional finiteDefault cs
  some ((), cs)

inductive QueryItem where
  | operation (name : Option String) (operation : Operation)
  | fragment (name : String) (fragment : Fragment)

def keywordOperation : Reader QueryItem := fun cs => do
  let (kind, cs) ← operationKind cs
  let (name, cs) := Reader.optional name cs
  let (_, cs) := Reader.optional (between "(" ")" variableDefinition) cs
  let (_, cs) := queryDirectives cs
  let (selections, cs) ← selectionSet cs
  some (.operation name ⟨kind, selections⟩, cs)

def shortOperation : Reader QueryItem :=
  Reader.map (fun selections => .operation none ⟨.query, selections⟩) selectionSet

def fragmentDefinition : Reader QueryItem := fun cs => do
  let cs ← after "fragment" cs
  let (name, cs) ← name cs
  let (condition, cs) ← typeCondition cs
  let (_, cs) := queryDirectives cs
  let (body, cs) ← selectionSet cs
  some (.fragment name ⟨condition, body⟩, cs)

def queryItem : Reader QueryItem :=
  Reader.orElse keywordOperation (Reader.orElse shortOperation fragmentDefinition)

def queryItems? (cs : List Char) : Option (List QueryItem) := do
  let (items, cs) ← Reader.some1 queryItem cs
  if (skip cs).isEmpty then some items else none

end SelectionTree.Grammar
