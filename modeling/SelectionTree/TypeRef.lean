/-!
References to types: a name, or a list of references, nullable unless marked with `!`.
-/
set_option autoImplicit false

namespace SelectionTree

inductive TypeRef where
  | named (name : String) (nullable : Bool)
  | list (item : TypeRef) (nullable : Bool)
  deriving DecidableEq, Repr

namespace TypeRef

def base : TypeRef → String
  | named name _ => name
  | list item _ => item.base

def nullable : TypeRef → Bool
  | named _ n => n
  | list _ n => n

def mark (nullable : Bool) : List Char := if nullable then [] else ['!']

def chars : TypeRef → List Char
  | named name n => name.toList ++ mark n
  | list item n => '[' :: item.chars ++ ']' :: mark n

def text (t : TypeRef) : String := String.ofList t.chars

def dropEnd? (c : Char) (cs : List Char) : Option (List Char) :=
  if cs.getLast? = some c then some cs.dropLast else none

theorem length_dropEnd? {c : Char} {cs rest : List Char} (h : dropEnd? c cs = some rest) :
    rest.length ≤ cs.length := by
  unfold dropEnd? at h
  split at h
  · cases h; simp
  · cases h

def unmark (cs : List Char) : List Char × Bool :=
  match dropEnd? '!' cs with
  | some rest => (rest, false)
  | none => (cs, true)

theorem length_unmark (cs : List Char) : (unmark cs).1.length ≤ cs.length := by
  unfold unmark
  split
  · next h => exact length_dropEnd? h
  · exact Nat.le_refl _

set_option linter.unusedVariables false in
/-- The reference that a whole text denotes. A bracket at the start needs one at the end; any other
text is a name, whatever its characters. -/
def ofChars? (cs : List Char) : Option TypeRef :=
  match h : unmark cs with
  | ('[' :: rest, n) =>
    match h' : dropEnd? ']' rest with
    | some inner => (ofChars? inner).map (list · n)
    | none => none
  | (name, n) => some (named (String.ofList name) n)
termination_by cs.length
decreasing_by
  have h₁ := length_unmark cs
  have h₂ := length_dropEnd? h'
  rw [h] at h₁
  simp only [List.length_cons] at h₁
  omega

def ofText? (s : String) : Option TypeRef := ofChars? s.toList

end TypeRef

end SelectionTree
