import SelectionTree.Json
/-!
Outlines of JSON texts: the containers of a text with leaves that need not stand for a value. A
text that is well formed has an outline; a part of it that nobody looks at may go without a value.
-/
set_option autoImplicit false

namespace SelectionTree.Json

/-- What a well-formed text shows. A leaf without value is a number beyond the range of the format,
a string or an object's name with half a pair of units in it, or a container that nests too deep. -/
inductive Outline where
  | leaf (value : Option Json)
  | arr (items : List Outline)
  | obj (members : List (String × Outline))

namespace Outline

mutual

def value? : Outline → Option Json
  | .leaf value => value
  | .arr items => (itemValues? items).map .arr
  | .obj members => (memberValues? members).map .obj

def itemValues? : List Outline → Option (List Json)
  | [] => some []
  | o :: rest => o.value?.bind fun j => (itemValues? rest).map (j :: ·)

def memberValues? : List (String × Outline) → Option (List (String × Json))
  | [] => some []
  | (k, o) :: rest => o.value?.bind fun j => (memberValues? rest).map ((k, j) :: ·)

end

mutual

/-- The same outline with containers to a given depth only. Those that nest deeper become leaves
without value. -/
def cut : Nat → Outline → Outline
  | _, .leaf value => .leaf value
  | 0, .arr _ => .leaf none
  | 0, .obj _ => .leaf none
  | depth + 1, .arr items => .arr (cutItems depth items)
  | depth + 1, .obj members => .obj (cutMembers depth members)

def cutItems (depth : Nat) : List Outline → List Outline
  | [] => []
  | o :: rest => o.cut depth :: cutItems depth rest

def cutMembers (depth : Nat) : List (String × Outline) → List (String × Outline)
  | [] => []
  | (k, o) :: rest => (k, o.cut depth) :: cutMembers depth rest

end

/-- An object, unless one of its names is without value. -/
def ofMembers (members : List (Option String × Outline)) : Outline :=
  match members.mapM fun m => m.1.map fun k => (k, m.2) with
  | some members => .obj members
  | none => .leaf none

end Outline

end SelectionTree.Json
