import SelectionTree.Grammar.Lexical
import SelectionTree.Literal
import SelectionTree.Registry
/-!
Keywords, literals, arguments and directives in documents. They are read as they are written, with
numbers beyond the range of the format and with every entry of an object. Whether such a number is
allowed is decided where the literal is used, and it counts even in an entry that a later one of the
same key replaces.
-/
set_option autoImplicit false

namespace SelectionTree.Grammar

def operationKind : Reader OperationKind :=
  Reader.orElse (word "query" .query)
    (Reader.orElse (word "mutation" .mutation) (word "subscription" .subscription))

def variableName : Reader String := fun cs => do
  let cs ← after "$" cs
  name cs

def number : Reader Number := fun cs => do
  let (n, cs) ← Number.read (skip cs)
  match cs with
  | c :: _ => if isNameStart c then none else some (n, cs)
  | [] => some (n, cs)

def entry {α : Type} (p : Reader α) : Reader (String × α) := fun cs => do
  let (k, cs) ← name cs
  let cs ← after ":" cs
  let (x, cs) ← p cs
  some ((k, x), cs)

def between {α : Type} (opening closing : String) (p : Reader α) : Reader (List α) := fun cs => do
  let cs ← after opening cs
  let (xs, cs) := Reader.many p cs
  let cs ← after closing cs
  some (xs, cs)

def between1 {α : Type} (opening closing : String) (p : Reader α) : Reader (List α) := fun cs => do
  let (xs, cs) ← between opening closing p cs
  if xs.isEmpty then none else some (xs, cs)

/-- A literal whose lists and objects nest less deep than the given bound. A constant one holds no
variables. The words for truth values and null are taken before names. -/
def literalWithin (constant : Bool) : Nat → Reader Literal
  | 0, _ => none
  | depth + 1, cs =>
    (if constant then none else Reader.map Literal.var variableName cs)
    <|> Reader.map Literal.num number cs
    <|> Reader.map Literal.str string cs
    <|> word "true" (Literal.bool true) cs
    <|> word "false" (Literal.bool false) cs
    <|> word "null" Literal.null cs
    <|> Reader.map Literal.enum name cs
    <|> Reader.map Literal.list (between "[" "]" (literalWithin constant depth)) cs
    <|> Reader.map Literal.obj (between "\x7b" "\x7d" (entry (literalWithin constant depth))) cs

def literal (constant : Bool) : Reader Literal := fun cs =>
  literalWithin constant (cs.length + 1) cs

def arguments (constant : Bool) : Reader (List (String × Literal)) :=
  between1 "(" ")" (entry (literal constant))

/-- A directive. Arguments that do not match are not part of it. -/
def directive (constant : Bool) : Reader Directive := fun cs => do
  let cs ← after "@" cs
  let (name, cs) ← name cs
  let (args, cs) := Reader.optional (arguments constant) cs
  some (⟨name, args.getD []⟩, cs)

def defaultValue : Reader Literal := fun cs => do
  let cs ← after "=" cs
  literal true cs

end SelectionTree.Grammar
