import SelectionTree.Node
/-!
The text of selection trees, in the form of a query. Directives and type conditions are left out.
-/
set_option autoImplicit false

namespace SelectionTree

def joinSpaced : List (List Char) → List Char
  | [] => []
  | [x] => x
  | x :: rest => x ++ ',' :: ' ' :: joinSpaced rest

theorem joinSpaced_eq : (xs : List (List Char)) → joinSpaced xs = [',', ' '].intercalate xs
  | [] => rfl
  | [x] => by simp [joinSpaced]
  | x :: y :: rest => by
    have first : joinSpaced (x :: y :: rest) = x ++ ',' :: ' ' :: joinSpaced (y :: rest) := rfl
    rw [first, joinSpaced_eq (y :: rest), List.intercalate_cons_cons]
    simp

def Arguments.chars (args : Arguments) : List Char :=
  '(' :: joinSpaced (args.map fun (k, v) => k.toList ++ ':' :: ' ' :: v.chars) ++ [')']

namespace Attributes

def aliasChars (a : Attributes) : List Char :=
  match a.aliasName with
  | some name => name.toList ++ [':', ' ']
  | none => []

def chars (a : Attributes) : List Char :=
  a.aliasChars ++ a.name.toList ++
    match a.arguments with
    | some args => args.chars
    | none => []

end Attributes

def braced (selections : List (List Char)) : List Char :=
  '\x7b' :: ' ' :: joinSpaced selections ++ [' ', '\x7d']

namespace Node

mutual

def chars : Node → List Char
  | leaf a => a.chars
  | branch a children => a.chars ++ ' ' :: braced (listChars children)

def listChars : List Node → List (List Char)
  | [] => []
  | n :: rest => n.chars :: listChars rest

end

def text (n : Node) : String := String.ofList n.chars

end Node

def Tree.text (t : Tree) : String :=
  String.ofList (t.kind.word.toList ++ ' ' :: braced (Node.listChars t.roots))

end SelectionTree
